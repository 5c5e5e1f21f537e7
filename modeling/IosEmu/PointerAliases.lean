import IosEmu.LazySymbols

/-!
# Pointers with an addend

A bound pointer is the trampoline of its symbol plus the addend of its record. Trampolines stand 16
bytes apart, in the order in which their symbols first occur, so a pointer with an addend can be the
trampoline of another symbol : it is exactly if the addend is 16 times the distance of the two
symbols in that order (`pointers_apart_iff`).
-/

open SysLib

namespace IosEmu

open Process

/-- The symbols with a trampoline, in the order in which they first occur. -/
def boundSymbols (bases : List (Option U64)) (recs : List BindRecord) : List String :=
  recs.foldl (addSymbol bases) []

/-- No addend of a pointer that can be stored is the way from its trampoline to the one of another
symbol. -/
def AddendsApart (m₀ : GuestMemory) (bases : List (Option U64)) (recs : List BindRecord) : Prop :=
  ∀ rec ∈ recs, ∀ a, Storable m₀ bases rec a → ∀ s ∈ boundSymbols bases recs, s ≠ rec.symbol →
    rec.addend ≠ BitVec.ofInt 64
      (16 * (((boundSymbols bases recs).idxOf s : ℤ) - (boundSymbols bases recs).idxOf rec.symbol))

/-- Binding stores `v` for a record : when its turn is over, its slot holds `v`. -/
def StoresPointer (b : Build) (image : MachOImage) (bytes : List U8) (cfg : LayoutConfig)
    (m₀ : GuestMemory) (rec : BindRecord) (v : U64) : Prop :=
  ∃ before after r₁ m₁ r₂ m₂ a, ImageRecords b.profile image bytes (before ++ rec :: after) ∧
    before.foldlM (bindOne b.profile (runtimeBases cfg.slide image.segments))
      (.new cfg.trampolineBase cfg.trampolineStride) m₀ = .ok r₁ m₁ ∧
    bindOne b.profile (runtimeBases cfg.slide image.segments) r₁ rec m₁ = .ok r₂ m₂ ∧
    Storable m₁ (runtimeBases cfg.slide image.segments) rec a ∧ m₂.flat.Reads a (toLeBytes64 v)

/-! ## Slots -/

namespace StubResolver

theorem slot_add_eq_iff (base x : U64) (j k : ℕ) :
    slot base j + x = slot base k ↔ x = BitVec.ofInt 64 (16 * ((k : ℤ) - j)) := by
  have hway : BitVec.ofNat 64 (16 * j) + BitVec.ofInt 64 (16 * ((k : ℤ) - j)) =
      BitVec.ofNat 64 (16 * k) := by
    rw [← BitVec.ofInt_natCast, ← BitVec.ofInt_natCast, ← BitVec.ofInt_add]
    congr 1
    push_cast
    ring
  rw [slot, slot, BitVec.add_assoc, BitVec.add_right_inj, ← hway, BitVec.add_right_inj]

variable {r : StubResolver} {syms : List String}

theorem getElem?_eq_some_iff_idxOf (hnodup : syms.Nodup) {k : ℕ} {s : String} :
    syms[k]? = some s ↔ s ∈ syms ∧ k = syms.idxOf s := by
  constructor
  · intro hk
    obtain ⟨hlt, rfl⟩ := List.getElem?_eq_some_iff.1 hk
    exact ⟨List.getElem_mem hlt, (hnodup.idxOf_getElem k hlt).symm⟩
  · rintro ⟨hs, rfl⟩
    exact List.getElem?_idxOf hs

/-- A symbol has the trampoline with its number. -/
theorem Serves.forward_idxOf (h : r.Serves syms) {s : String} {a : U64} :
    r.forward.get? s = some a ↔ s ∈ syms ∧ a = slot r.base (syms.idxOf s) := by
  simp only [h.forward_iff, getElem?_eq_some_iff_idxOf h.nodup]
  exact ⟨fun ⟨k, ⟨hs, hk⟩, ha⟩ => ⟨hs, hk ▸ ha⟩, fun ⟨hs, ha⟩ => ⟨_, ⟨hs, rfl⟩, ha⟩⟩

end StubResolver

/-! ## Stored pointers -/

variable {b : Build} {image : MachOImage} {bytes : List U8} {cfg : LayoutConfig}
  {m m' m₀ : GuestMemory} {p : ProcessImage} {recs : List BindRecord}

/-- The pointer of a record that can be stored is the trampoline of its symbol plus the addend. -/
theorem storesPointer_iff (hm : m.Inv) (hok : buildProcess b image bytes cfg m = .ok p m')
    (hm₀ : BindState b image bytes cfg m m₀) (hrecs : ImageRecords b.profile image bytes recs)
    {rec : BindRecord} {v : U64} :
    StoresPointer b image bytes cfg m₀ rec v ↔
      rec ∈ recs ∧ (∃ a, Storable m₀ (runtimeBases cfg.slide image.segments) rec a) ∧
        ∃ stub, p.symbolStubs.get? rec.symbol = some stub ∧ v = stub + rec.addend := by
  obtain ⟨st⟩ := buildProcess_eq_ok.1 hok
  obtain ⟨recs', hrecs', hfold⟩ := bindImports_eq_ok.1 st.bind_eq
  obtain rfl := hrecs.unique hrecs'
  obtain rfl := st.bindState_eq hm₀
  rw [st.segRuntime_eq] at hfold
  rw [st.stubs_eq]
  constructor
  · rintro ⟨before, after, r₁, m₁, r₂, m₂, a, hsplit, hbefore, hone, ha, hreads⟩
    obtain rfl := hrecs.unique hsplit
    obtain ⟨r₁', m₁', r₂', m₂', hbefore', hone', hafter, hinv₁, hl₁, -, -⟩ :=
      fold_split (st.inv_rebased hm) hfold
    obtain ⟨rfl, rfl⟩ := Outcome.ok.inj (hbefore.symm.trans hbefore')
    obtain ⟨rfl, rfl⟩ := Outcome.ok.inj (hone.symm.trans hone')
    obtain ⟨stub, hstub, hreads'⟩ := bindOne_stores hinv₁ hone ha
    have hfwd := (StubResolver.resolve_forward hstub).2.1
    refine ⟨List.mem_append_right _ List.mem_cons_self, ⟨a, (storable_congr hl₁).1 ha⟩, stub,
      (fold_forward hafter).2 _ _ hfwd, ?_⟩
    exact toLeBytes64_inj (hreads.unique hreads' rfl)
  · rintro ⟨hrec, ⟨a, ha⟩, stub, hstub, rfl⟩
    obtain ⟨before, after, rfl⟩ := List.append_of_mem hrec
    obtain ⟨r₁, m₁, r₂, m₂, hbefore, hone, hafter, hinv₁, hl₁, -, -⟩ :=
      fold_split (st.inv_rebased hm) hfold
    have ha₁ := (storable_congr hl₁).2 ha
    obtain ⟨stub', hstub', hreads⟩ := bindOne_stores hinv₁ hone ha₁
    have hfwd := (fold_forward hafter).2 _ _ (StubResolver.resolve_forward hstub').2.1
    obtain rfl : stub = stub' := Option.some.inj (hstub.symm.trans hfwd)
    exact ⟨before, after, r₁, m₁, r₂, m₂, a, hrecs, hbefore, hone, ha₁, hreads⟩

/-- The symbol of a trampoline is the one with its number. -/
theorem trampolines_get?_iff (hstride : cfg.trampolineStride = 16)
    (hok : buildProcess b image bytes cfg m = .ok p m')
    (hrecs : ImageRecords b.profile image bytes recs) {v : U64} {s : String} :
    p.trampolines.get? v = some s ↔
      s ∈ boundSymbols (runtimeBases cfg.slide image.segments) recs ∧
        v = StubResolver.slot cfg.trampolineBase
          ((boundSymbols (runtimeBases cfg.slide image.segments) recs).idxOf s) := by
  obtain ⟨st⟩ := buildProcess_eq_ok.1 hok
  have hbind := st.bind_eq
  rw [hstride, st.segRuntime_eq] at hbind
  obtain ⟨hbase, hs, -⟩ := serves_boundSymbols hbind hrecs
  rw [st.trampolines_eq, ← hs.forward_iff_reverse, hs.forward_idxOf, hbase]
  rfl

/-- A record that can be stored has the trampoline with the number of its symbol. -/
theorem stub_of_storable (hstride : cfg.trampolineStride = 16)
    (hok : buildProcess b image bytes cfg m = .ok p m')
    (hrecs : ImageRecords b.profile image bytes recs) {rec : BindRecord} (hrec : rec ∈ recs)
    {a : U64} (ha : Storable m₀ (runtimeBases cfg.slide image.segments) rec a) :
    p.symbolStubs.get? rec.symbol = some (StubResolver.slot cfg.trampolineBase
      ((boundSymbols (runtimeBases cfg.slide image.segments) recs).idxOf rec.symbol)) := by
  rw [stubs_iff_trampolines hstride hok, trampolines_get?_iff hstride hok hrecs]
  refine ⟨mem_foldl_addSymbol.2 (Or.inr ⟨rec, hrec, ?_, rfl⟩), rfl⟩
  rw [ha.1]
  rfl

/-- Pointers of different symbols are trampolines of different symbols exactly if no addend is the
way from one trampoline to another. -/
theorem pointers_apart_iff (b : Build) (image : MachOImage) (bytes : List U8) (cfg : LayoutConfig)
    (m m' m₀ : GuestMemory) (p : ProcessImage) (recs : List BindRecord)
    (hm : GuestMemory.Reachable b.profile m) (hstride : cfg.trampolineStride = 16)
    (hok : buildProcess b image bytes cfg m = .ok p m') (hm₀ : BindState b image bytes cfg m m₀)
    (hrecs : ImageRecords b.profile image bytes recs) :
    (∀ rec v, StoresPointer b image bytes cfg m₀ rec v → ∀ rec' ∈ recs, rec'.symbol ≠ rec.symbol →
      p.trampolines.get? v ≠ some rec'.symbol) ↔
    AddendsApart m₀ (runtimeBases cfg.slide image.segments) recs := by
  constructor
  · intro h rec hrec a ha s hsyms hne hadd
    obtain ⟨rec', hrec', -, rfl⟩ := (mem_foldl_addSymbol.1 hsyms).resolve_left List.not_mem_nil
    have hstored := (storesPointer_iff hm.inv hok hm₀ hrecs).2
      ⟨hrec, ⟨a, ha⟩, _, stub_of_storable hstride hok hrecs hrec ha, rfl⟩
    refine h rec _ hstored rec' hrec' hne ?_
    rw [trampolines_get?_iff hstride hok hrecs]
    exact ⟨hsyms, (StubResolver.slot_add_eq_iff _ _ _ _).2 hadd⟩
  · intro h rec v hv rec' hrec' hne hget
    obtain ⟨hrec, ⟨a, ha⟩, stub, hstub, rfl⟩ := (storesPointer_iff hm.inv hok hm₀ hrecs).1 hv
    rw [stub_of_storable hstride hok hrecs hrec ha] at hstub
    obtain rfl : _ = stub := Option.some.inj hstub
    obtain ⟨hsyms, hslot⟩ := (trampolines_get?_iff hstride hok hrecs).1 hget
    exact h rec hrec a ha rec'.symbol hsyms hne ((StubResolver.slot_add_eq_iff _ _ _ _).1 hslot)

/-! ## A pointer that is another trampoline -/

/-- A bind stream that stores `_a` with the given addend, and `_b` behind it. -/
def addendStream (addend : U8) : List U8 :=
  [0x70, 0x00, 0x40, 0x5f, 0x61, 0x00, 0x60, addend, 0x90, 0x40, 0x5f, 0x62, 0x00, 0x60, 0x00, 0x90]

/-- Its records. -/
def addendRecords (addend : U64) : List BindRecord :=
  [⟨0, 0, "_a", 0, addend, .pointer, false⟩, ⟨0, 8, "_b", 0, 0, .pointer, false⟩]

theorem imageRecords_addend {addend : U8} {value : U64}
    (hat : streamAt .release (streamsFile (addendStream addend) []) 176 16 =
      .ok (some (addendStream addend)))
    (hparse : parseBindInfo .release (addendStream addend) = .ok (addendRecords value) []) :
    ImageRecords .release (streamsImage (addendStream addend) [])
      (streamsFile (addendStream addend) []) (addendRecords value) := by
  refine ⟨addendRecords value, [], ?_, rfl, rfl⟩
  exact (if_neg (show (16 : U32) ≠ 0 by decide)).mpr ⟨addendStream addend, [], hat, hparse⟩

theorem storable_addend {addend : U8} (value : U64)
    (hok : ((mapSegments .release (streamsFile (addendStream addend) []) 0
      (streamsImage (addendStream addend) []).segments >>= fun bases =>
        rebase .release (streamsImage (addendStream addend) [])
          (streamsFile (addendStream addend) []) 0 bases >>= fun _ =>
        GuestMemory.write 0x100000000 (toLeBytes64 0)) importMemory).isOk = true) :
    ∃ m₀, BindState ⟨.release, .host⟩ (streamsImage (addendStream addend) [])
        (streamsFile (addendStream addend) []) importConfig importMemory m₀ ∧
      Storable m₀ (runtimeBases 0 (streamsImage (addendStream addend) []).segments)
        ⟨0, 0, "_a", 0, value, .pointer, false⟩ 0x100000000 := by
  obtain ⟨⟨⟩, m₂, h⟩ := Outcome.isOk_iff.1 hok
  obtain ⟨bases, m₁, hmap, h⟩ := Prog.bind_eq_ok.1 h
  obtain ⟨⟨⟩, m₀, hrebase, hwrite⟩ := Prog.bind_eq_ok.1 h
  have hinv := (keepsInv_rebase _ _ _ _ _).ok hrebase
    ((keepsInv_mapSegments _ _ _ _).ok hmap reachable_importMemory.inv)
  exact ⟨m₀, ⟨bases, m₁, hmap, hrebase⟩, rfl, hinv.write_isOk_iff.1 ⟨m₂, hwrite⟩⟩

set_option maxRecDepth 100000 in
/-- `_a` plus 16 is the trampoline of `_b`. -/
theorem pointers_alias : ∃ p m' m₀ v,
    MachOImage.parse (streamsFile (addendStream 16) []) = .ok (streamsImage (addendStream 16) []) ∧
    buildProcess ⟨.release, .host⟩ (streamsImage (addendStream 16) [])
      (streamsFile (addendStream 16) []) importConfig importMemory = .ok p m' ∧
    BindState ⟨.release, .host⟩ (streamsImage (addendStream 16) [])
      (streamsFile (addendStream 16) []) importConfig importMemory m₀ ∧
    ImageRecords .release (streamsImage (addendStream 16) []) (streamsFile (addendStream 16) [])
      (addendRecords 16) ∧
    StoresPointer ⟨.release, .host⟩ (streamsImage (addendStream 16) [])
      (streamsFile (addendStream 16) []) importConfig m₀ ⟨0, 0, "_a", 0, 16, .pointer, false⟩ v ∧
    p.trampolines.get? v = some "_b" := by
  obtain ⟨p, m', hok⟩ := @exists_process (addendStream 16) [] (by decide +kernel)
  obtain ⟨m₀, hm₀, hstore⟩ := @storable_addend 16 16 (by decide +kernel)
  have hrecs := @imageRecords_addend 16 16 (by decide +kernel) rfl
  have hstub := stub_of_storable isDefault_importConfig.stride_eq hok hrecs List.mem_cons_self
    hstore
  refine ⟨p, m', m₀, _, by decide +kernel, hok, hm₀, hrecs,
    (storesPointer_iff reachable_importMemory.inv hok hm₀ hrecs).2
      ⟨List.mem_cons_self, ⟨_, hstore⟩, _, hstub, rfl⟩, ?_⟩
  rw [trampolines_get?_iff rfl hok hrecs]
  decide

theorem addendsApart_eight {m₀ : GuestMemory} :
    AddendsApart m₀ (runtimeBases 0 (streamsImage (addendStream 8) []).segments)
      (addendRecords 8) := by
  have hsyms : boundSymbols (runtimeBases 0 (streamsImage (addendStream 8) []).segments)
      (addendRecords 8) = ["_a", "_b"] := by decide
  intro rec hrec a _ s hs hne
  rw [hsyms] at hs ⊢
  simp only [addendRecords, List.mem_cons, List.not_mem_nil, or_false] at hrec hs
  rcases hrec with rfl | rfl <;> rcases hs with rfl | rfl
  · exact absurd rfl hne
  · decide
  · decide
  · exact absurd rfl hne

set_option maxRecDepth 100000 in
/-- With an addend of 8 the pointers stay apart. -/
theorem pointers_apart_eight : ∃ p m' m₀,
    buildProcess ⟨.release, .host⟩ (streamsImage (addendStream 8) [])
      (streamsFile (addendStream 8) []) importConfig importMemory = .ok p m' ∧
    ∀ rec v, StoresPointer ⟨.release, .host⟩ (streamsImage (addendStream 8) [])
      (streamsFile (addendStream 8) []) importConfig m₀ rec v → ∀ rec' ∈ addendRecords 8,
        rec'.symbol ≠ rec.symbol → p.trampolines.get? v ≠ some rec'.symbol := by
  obtain ⟨p, m', hok⟩ := @exists_process (addendStream 8) [] (by decide)
  obtain ⟨m₀, hm₀, -⟩ := @storable_addend 8 8 (by decide)
  have hrecs := @imageRecords_addend 8 8 (by decide +kernel) rfl
  exact ⟨p, m', m₀, hok, (pointers_apart_iff _ _ _ _ _ _ _ _ _ reachable_importMemory rfl hok hm₀
    hrecs).2 addendsApart_eight⟩

end IosEmu
