import IosEmu.DyldInfo
import IosEmu.ImportBinding

/-!
# The symbols of the lazy table

The lazy table is made from the entries that `parseLazyBindInfo` reads, the trampolines are given to
the symbols of the records that `parseBindInfo` reads in the same stream. Nothing makes the two agree
on symbols. The lazy reader passes over `DO_BIND_ADD_ADDR_ULEB` and its repeated form without their
operands, so it goes on with the operand as if it were opcodes, and can meet a symbol that is none of
the records (`lazy_symbols_misread`). On streams in which only `DO_BIND` emits it cannot
(`lazySymbolsBound_of_plain`).
-/

open SysLib

namespace IosEmu

open Process

/-! ## The keys of the tables -/

namespace Process

variable {p : Profile} {segRuntime : List (Option U64)} {r r' : StubResolver}
  {m m' : GuestMemory}

theorem resolve_keys {s t : String} {a : U64} (hr : r.resolve p s = .ok (a, r'))
    (ht : (r'.forward.get? t).isSome) : t = s ∨ (r.forward.get? t).isSome := by
  rcases hget : r.forward.get? s with _ | b
  · obtain ⟨-, rfl⟩ := StubResolver.resolve_of_none hget hr
    by_cases hts : t = s
    · exact Or.inl hts
    · refine Or.inr ?_
      rwa [SortedMap.get?_insert_of_ne _ _ hts] at ht
  · rw [StubResolver.resolve_of_some hget] at hr
    obtain ⟨-, rfl⟩ : b = a ∧ r = r' := by simpa using hr
    exact Or.inr ht

/-- The symbols with a trampoline are those of the records with a mapped segment. -/
theorem fold_keys_iff {recs : List BindRecord} {base stride : U64}
    (h : recs.foldlM (bindOne p segRuntime) (.new base stride) m = .ok r' m') (t : String) :
    (∃ stub, r'.forward.get? t = some stub) ↔
      ∃ rec ∈ recs, (target segRuntime rec).isSome ∧ rec.symbol = t := by
  constructor
  · rintro ⟨stub, hstub⟩
    have hkeys := Prog.foldlM_induct
      (I := fun r₁ _ => ∀ t, (r₁.forward.get? t).isSome →
        ∃ rec ∈ recs, (target segRuntime rec).isSome ∧ rec.symbol = t)
      (fun rec hrec r₁ _ r₂ _ hr₁ hone t ht => by
        rcases bindOne_cases hone with ⟨-, rfl, -⟩ | ⟨a, stub, hat, hr, -⟩
        · exact hr₁ t ht
        · rcases resolve_keys hr ht with rfl | ht
          · exact ⟨rec, hrec, by rw [hat]; rfl, rfl⟩
          · exact hr₁ t ht)
      (fun t ht => by cases ht) h
    exact hkeys t (by rw [hstub]; rfl)
  · rintro ⟨rec, hrec, hat, rfl⟩
    exact fold_resolves h hrec hat

end Process

/-- The entry is the last one with its offset among those of mapped segments. -/
def KeptEntry (bases : List (Option U64)) (entries : List LazyBind) (lb : LazyBind) : Prop :=
  (segBase bases lb.segIndex).isSome ∧ ∃ before after, entries = before ++ lb :: after ∧
    ∀ lb' ∈ after, lb'.offset = lb.offset → segBase bases lb'.segIndex = none

theorem keptEntry_concat {bases : List (Option U64)} {entries : List LazyBind}
    {lb last : LazyBind} :
    KeptEntry bases (entries ++ [last]) lb ↔
      (lb = last ∧ (segBase bases last.segIndex).isSome) ∨
      (KeptEntry bases entries lb ∧
        (last.offset = lb.offset → segBase bases last.segIndex = none)) := by
  constructor
  · rintro ⟨hmapped, before, after, hentries, hafter⟩
    rcases List.eq_nil_or_concat after with rfl | ⟨after', lb', rfl⟩
    · obtain ⟨-, hlast⟩ := List.append_inj' hentries rfl
      obtain rfl := List.singleton_inj.1 hlast
      exact Or.inl ⟨rfl, hmapped⟩
    · rw [List.concat_eq_append] at hentries hafter
      have hsplit : entries ++ [last] = (before ++ lb :: after') ++ [lb'] := by
        rw [hentries, List.append_assoc, List.cons_append]
      obtain ⟨hfront, hlast⟩ := List.append_inj' hsplit rfl
      obtain rfl := List.singleton_inj.1 hlast
      refine Or.inr ⟨⟨hmapped, before, after', hfront, fun x hx => ?_⟩, ?_⟩
      · exact hafter x (List.mem_append_left _ hx)
      · exact hafter last (List.mem_append_right _ List.mem_cons_self)
  · rintro (⟨rfl, hmapped⟩ | ⟨⟨hmapped, before, after, rfl, hafter⟩, hlast⟩)
    · exact ⟨hmapped, entries, [], rfl, fun x hx => absurd hx List.not_mem_nil⟩
    · refine ⟨hmapped, before, after ++ [last], by simp, fun x hx => ?_⟩
      rcases List.mem_append.1 hx with hx | hx
      · exact hafter x hx
      · rw [List.mem_singleton.1 hx]
        exact hlast

/-- The table holds the kept entries. -/
theorem get?_foldl_addLazyBind (bases : List (Option U64)) (entries : List LazyBind) (off : U64)
    (sym : String) :
    (∃ slot, (entries.foldl (addLazyBind bases) .empty).get? off = some (sym, slot)) ↔
      ∃ lb, KeptEntry bases entries lb ∧ lb.offset = off ∧ lb.symbol = sym := by
  induction entries using List.reverseRecOn with
  | nil => simp [KeptEntry]
  | append_singleton entries last ih =>
    rw [List.foldl_append, List.foldl_cons, List.foldl_nil]
    simp only [keptEntry_concat]
    rcases hseg : segBase bases last.segIndex with _ | base
    · have hskip : ∀ table, addLazyBind bases table last = table := fun table => by
        rw [addLazyBind, hseg]
      rw [hskip, ih]
      simp
    · have hput : ∀ table, addLazyBind bases table last =
          table.insert last.offset (last.symbol, base + last.segOffset) := fun table => by
        rw [addLazyBind, hseg]
      rw [hput, SortedMap.get?_insert]
      by_cases hoff : off = last.offset
      · -- A kept entry with this offset would have been replaced.
        rw [if_pos hoff]
        constructor
        · rintro ⟨slot, hslot⟩
          exact ⟨last, Or.inl ⟨rfl, rfl⟩, hoff.symm, congrArg Prod.fst (Option.some.inj hslot)⟩
        · rintro ⟨lb, ⟨rfl, -⟩ | ⟨-, hlast⟩, hlb, rfl⟩
          · exact ⟨_, rfl⟩
          · cases hlast (hoff.symm.trans hlb.symm)
      · rw [if_neg hoff, ih]
        constructor
        · rintro ⟨lb, hkept, rfl, hsym⟩
          exact ⟨lb, Or.inr ⟨hkept, fun h => absurd h.symm hoff⟩, rfl, hsym⟩
        · rintro ⟨lb, ⟨rfl, -⟩ | ⟨hkept, -⟩, rfl, hsym⟩
          · exact absurd rfl hoff
          · exact ⟨lb, hkept, rfl, hsym⟩

/-! ## Symbols without a trampoline -/

/-- Every symbol of the lazy table has a trampoline. -/
def ProcessImage.LazyResolved (p : ProcessImage) : Prop :=
  ∀ off sym slot, p.lazyBinds.get? off = some (sym, slot) → ∃ stub, p.symbolStubs.get? sym = some stub

/-- Every entry that the lazy reader finds and the table keeps has the symbol of a record for a
mapped segment. -/
def LazySymbolsBound (p : Profile) (image : MachOImage) (bytes : List U8)
    (bases : List (Option U64)) : Prop :=
  ∀ recs entries, ImageRecords p image bytes recs → LazyEntries p image bytes entries →
    ∀ lb, KeptEntry bases entries lb →
      ∃ rec ∈ recs, (target bases rec).isSome ∧ rec.symbol = lb.symbol

variable {b : Build} {image : MachOImage} {bytes : List U8} {cfg : LayoutConfig}
  {m m' : GuestMemory} {p : ProcessImage}

theorem lazyEntries_unique {p : Profile} {entries entries' : List LazyBind}
    (h : LazyEntries p image bytes entries) (h' : LazyEntries p image bytes entries') :
    entries = entries' := by
  unfold LazyEntries at h h'
  rcases hinfo : image.dyldInfo with _ | info <;> simp only [hinfo] at h h'
  · exact h.trans h'.symm
  · split_ifs at h h'
    · exact h.trans h'.symm
    · exact parsed_unique h h'

theorem lazyResolved_iff_bound (hok : buildProcess b image bytes cfg m = .ok p m') :
    p.LazyResolved ↔
      LazySymbolsBound b.profile image bytes (runtimeBases cfg.slide image.segments) := by
  obtain ⟨s⟩ := buildProcess_eq_ok.1 hok
  obtain ⟨recs, hrecs, hfold⟩ := bindImports_eq_ok.1 s.bind_eq
  obtain ⟨-, entries, hentries, htable⟩ := lazyTable_eq_ok.1 s.lazy_eq
  rw [s.segRuntime_eq] at hfold htable
  unfold ProcessImage.LazyResolved
  rw [htable, s.stubs_eq]
  constructor
  · intro h recs' entries' hrecs' hentries' lb hlb
    obtain rfl := hrecs.unique hrecs'
    obtain rfl := lazyEntries_unique hentries hentries'
    obtain ⟨slot, hslot⟩ := (get?_foldl_addLazyBind _ _ _ _).2 ⟨lb, hlb, rfl, rfl⟩
    exact (fold_keys_iff hfold _).1 (h _ _ _ hslot)
  · intro h off sym slot hslot
    obtain ⟨lb, hlb, -, rfl⟩ := (get?_foldl_addLazyBind _ _ _ _).1 ⟨slot, hslot⟩
    exact (fold_keys_iff hfold _).2 (h recs entries hrecs hentries lb hlb)

/-- In the lazy stream of the image only `DO_BIND` emits. -/
def LazyStreamPlain (p : Profile) (image : MachOImage) (bytes : List U8) : Prop :=
  ∀ info stream, image.dyldInfo = some info → info.lazyBindSize ≠ 0 →
    streamAt p bytes info.lazyBindOff info.lazyBindSize = .ok (some stream) →
      IsPlainStream p stream.length stream

theorem lazySymbolsBound_of_plain {p : Profile} (bases : List (Option U64))
    (hplain : LazyStreamPlain p image bytes) : LazySymbolsBound p image bytes bases := by
  rintro recs entries hrecs hentries lb ⟨hmapped, before, after, rfl, -⟩
  unfold ImageRecords at hrecs
  unfold LazyEntries at hentries
  rcases hinfo : image.dyldInfo with _ | info <;> simp only [hinfo] at hrecs hentries
  · exact absurd hentries (by simp)
  · obtain ⟨eager, lazy, -, hlazy, rfl⟩ := hrecs
    unfold StreamRecords at hlazy
    split_ifs at hlazy hentries with hsize
    · exact absurd hentries (by simp)
    · obtain ⟨stream, rest, hs, hbind⟩ := hlazy
      obtain ⟨stream', rest', hs', hparse⟩ := hentries
      obtain rfl : stream = stream' := by simpa [hs] using hs'
      obtain ⟨entries', hparse', hplaces⟩ :=
        parseLazyBindInfo_of_plain (hplain info stream hinfo hsize hs) hbind
      obtain ⟨rfl, -⟩ := Outcome.ok.inj (hparse.symm.trans hparse')
      have hplace : lb.place ∈ lazy.map BindRecord.place := by
        rw [hplaces]
        exact List.mem_map_of_mem (List.mem_append_right _ List.mem_cons_self)
      obtain ⟨rec, hrec, hrecplace⟩ := List.mem_map.1 hplace
      refine ⟨rec, List.mem_append_right _ hrec, ?_, congrArg Prod.snd hrecplace⟩
      have hseg : rec.segIndex = lb.segIndex := congrArg Prod.fst hrecplace
      rw [target, Option.isSome_map, hseg]
      exact hmapped

/-- Every symbol of the lazy table has a trampoline exactly if the lazy reader finds only symbols of
records; in a stream where only `DO_BIND` emits it does. -/
theorem lazy_symbols_resolved_iff (b : Build) (image : MachOImage) (bytes : List U8)
    (cfg : LayoutConfig) (m m' : GuestMemory) (p : ProcessImage)
    (hok : buildProcess b image bytes cfg m = .ok p m') :
    (p.LazyResolved ↔
      LazySymbolsBound b.profile image bytes (runtimeBases cfg.slide image.segments)) ∧
    (LazyStreamPlain b.profile image bytes →
      LazySymbolsBound b.profile image bytes (runtimeBases cfg.slide image.segments)) :=
  ⟨lazyResolved_iff_bound hok, lazySymbolsBound_of_plain _⟩

/-! ## A process with a misread stream -/

/-- A thin file with one segment and the given streams. The weak pair and the export pair are those
of the lazy stream. -/
def streamsFile (bind lazy : List U8) : List U8 :=
  leBytes 4 0xfeedfacf ++ leBytes 4 0x0100000c ++ leBytes 4 0 ++ leBytes 4 2 ++ leBytes 4 3 ++
    leBytes 4 144 ++ leBytes 4 0x200000 ++ leBytes 4 0 ++
    (leBytes 4 0x19 ++ leBytes 4 72 ++ leBytes 16 0x415441445f5f ++ leBytes 8 0x100000000 ++
      leBytes 8 0x4000 ++ leBytes 8 0 ++ leBytes 8 0 ++ leBytes 4 3 ++ leBytes 4 3 ++
      leBytes 4 0 ++ leBytes 4 0) ++
    (leBytes 4 0x80000022 ++ leBytes 4 48 ++ leBytes 8 0 ++ leBytes 4 176 ++
      leBytes 4 bind.length ++ (List.replicate 3 (leBytes 4 (176 + bind.length) ++
        leBytes 4 lazy.length)).flatten) ++
    (leBytes 4 0x80000028 ++ leBytes 4 24 ++ leBytes 16 0) ++ bind ++ lazy

/-- Its image. -/
def streamsImage (bind lazy : List U8) : MachOImage :=
  { MachOImage.blank 0 2 0x200000 with
    segments := [⟨"__DATA", 0x100000000, 0x4000, 0, 0, .rw, .rw, []⟩]
    entry := some (.main 0 0)
    dyldInfo := some ⟨0, 0, 176, BitVec.ofNat 32 bind.length,
      BitVec.ofNat 32 (176 + bind.length), BitVec.ofNat 32 lazy.length,
      BitVec.ofNat 32 (176 + bind.length), BitVec.ofNat 32 lazy.length⟩ }

/-- The build of the file, up to the page of trampolines and behind it. -/
def streamsBuild (bind lazy : List U8) : MemM ProcessImage :=
  bindImage .release (streamsImage bind lazy) (streamsFile bind lazy) importConfig >>= fun x =>
    publishPage ⟨.release, .host⟩ importConfig x.2 >>= fun stop =>
      finish ⟨.release, .host⟩ (streamsImage bind lazy) (streamsFile bind lazy) importConfig x.1 x.2
        stop

theorem exists_process_and {bind lazy : List U8} {f : ProcessImage → GuestMemory → Bool}
    (hok : (streamsBuild bind lazy importMemory).okAnd f = true) :
    ∃ p m', buildProcess ⟨.release, .host⟩ (streamsImage bind lazy) (streamsFile bind lazy)
      importConfig importMemory = .ok p m' ∧ f p m' = true := by
  obtain ⟨p, m', h, hf⟩ := Outcome.okAnd_iff.1 hok
  exact ⟨p, m', buildProcess_of_page reachable_importMemory.inv isDefault_importConfig.stride_eq rfl h, hf⟩

theorem exists_process {bind lazy : List U8}
    (hok : (streamsBuild bind lazy importMemory).isOk = true) :
    ∃ p m', buildProcess ⟨.release, .host⟩ (streamsImage bind lazy) (streamsFile bind lazy)
      importConfig importMemory = .ok p m' := by
  obtain ⟨p, m', h⟩ := Outcome.isOk_iff.1 hok
  exact ⟨p, m', buildProcess_of_page reachable_importMemory.inv isDefault_importConfig.stride_eq rfl h⟩

/-- The streams of the file are those given. -/
theorem streams_of_file {bind lazy : List U8} {recs lrecs : List BindRecord}
    {entries : List LazyBind} {lrest erest : List U8}
    (hbind : StreamRecords .release (streamsFile bind lazy) 176 (BitVec.ofNat 32 bind.length) recs)
    (hat : streamAt .release (streamsFile bind lazy) (BitVec.ofNat 32 (176 + bind.length))
      (BitVec.ofNat 32 lazy.length) = .ok (some lazy))
    (hsize : BitVec.ofNat 32 lazy.length ≠ 0)
    (hlazy : parseBindInfo .release lazy = .ok lrecs lrest)
    (hentries : parseLazyBindInfo .release lazy = .ok entries erest) :
    ImageRecords .release (streamsImage bind lazy) (streamsFile bind lazy) (recs ++ lrecs) ∧
      LazyEntries .release (streamsImage bind lazy) (streamsFile bind lazy) entries := by
  refine ⟨⟨recs, lrecs, hbind, ?_, rfl⟩, ?_⟩
  · exact (if_neg hsize).mpr ⟨lazy, lrest, hat, hlazy⟩
  · exact (if_neg hsize).mpr ⟨lazy, erest, hat, hentries⟩

/-- A lazy stream that binds `_a`. -/
def plainStream : List U8 :=
  [0x70, 0x00, 0x40, 0x5f, 0x61, 0x00, 0x90, 0x00]

/-- A lazy stream that binds `_a`, goes on by 72 bytes and binds `_b`. -/
def misreadStream : List U8 :=
  [0x40, 0x5f, 0x61, 0x00, 0x70, 0x00, 0xa0, 0x40, 0x40, 0x5f, 0x62, 0x00, 0x90, 0x00]

set_option maxRecDepth 100000 in
/-- The symbol of a plain stream has a trampoline. -/
theorem lazy_symbols_resolved_plain : ∃ p m',
    buildProcess ⟨.release, .host⟩ (streamsImage [] plainStream) (streamsFile [] plainStream)
      importConfig importMemory = .ok p m' ∧ p.LazyResolved := by
  obtain ⟨p, m', hok⟩ := @exists_process [] plainStream (by decide +kernel)
  refine ⟨p, m', hok, (lazy_symbols_resolved_iff _ _ _ _ _ _ _ hok).1.2 ?_⟩
  obtain ⟨hrecs, hentries⟩ := @streams_of_file [] plainStream []
    [⟨0, 0, "_a", 0, 0, .pointer, false⟩] [⟨0, 0, 0, "_a"⟩] [] [] rfl (by decide)
    (by decide) rfl rfl
  rintro recs' entries' hrecs' hentries' lb ⟨-, before, after, hsplit, -⟩
  obtain rfl := hrecs.unique hrecs'
  obtain rfl := lazyEntries_unique hentries hentries'
  have hlb : lb ∈ [(⟨0, 0, 0, "_a"⟩ : LazyBind)] := by
    rw [hsplit]
    exact List.mem_append_right _ List.mem_cons_self
  rw [List.mem_singleton.1 hlb]
  exact ⟨_, List.mem_cons_self, by decide, rfl⟩

set_option maxRecDepth 100000 in
/-- The operand `0x40` of `DO_BIND_ADD_ADDR_ULEB` is read as `SET_SYMBOL`, and the symbol `@_b` that
it sets has no trampoline. -/
theorem lazy_symbols_misread : ∃ p m',
    MachOImage.parse (streamsFile [] misreadStream) = .ok (streamsImage [] misreadStream) ∧
    buildProcess ⟨.release, .host⟩ (streamsImage [] misreadStream) (streamsFile [] misreadStream)
      importConfig importMemory = .ok p m' ∧ ¬ p.LazyResolved := by
  obtain ⟨p, m', hok⟩ := @exists_process [] misreadStream (by decide)
  refine ⟨p, m', by decide, hok, mt (lazyResolved_iff_bound hok).1 fun hbound => ?_⟩
  obtain ⟨hrecs, hentries⟩ := @streams_of_file [] misreadStream []
    [⟨0, 0, "_a", 0, 0, .pointer, false⟩, ⟨0, 72, "_b", 0, 0, .pointer, false⟩]
    [⟨0, 0, 0, "@_b"⟩] [] [] rfl (by decide) (by decide) rfl rfl
  obtain ⟨rec, hrec, -, hsym⟩ := hbound _ _ hrecs hentries ⟨0, 0, 0, "@_b"⟩
    ⟨rfl, [], [], rfl, fun x hx => absurd hx List.not_mem_nil⟩
  simp only [List.nil_append, List.mem_cons, List.not_mem_nil, or_false] at hrec
  rcases hrec with rfl | rfl <;> exact absurd hsym (by decide)

end IosEmu
