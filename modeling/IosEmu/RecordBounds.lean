import IosEmu.ImportBinding
import IosEmu.Segments

/-!
# Where the records store

A location of the rebase stream and a record of a bind stream name a segment and an offset in
it. The offset is added to the base of the segment with wrap-around, and the only check on
the sum is the one of the memory : the eight bytes lie in one region that has the rights.
While the records are applied these are all segments and the writable regions of before, the
heap among them (`Opens`), so a record whose offset lies past its segment stores there
(`keepsToSegment_iff`).
-/

open SysLib

namespace IosEmu

open Process GuestMemory

/-! ## Granted double words -/

namespace GuestMemory

variable {m : GuestMemory} {a : U64} {need : Protection}

/-- A double word is granted exactly if a region with the rights holds it. -/
theorem Inv.grants_iff (h : m.Inv) :
    m.flat.Grants a 8 need ↔ ∃ k r, m.regions.get? k = some r ∧ k.toNat ≤ a.toNat ∧
      a.toNat + 8 ≤ k.toNat + r.data.size ∧ r.prot.contains need = true := by
  rw [h.grants_flat]
  refine exists_congr fun k => exists_congr fun r => ⟨?_, ?_⟩
  · rintro ⟨hl, hle, hend, hprot⟩
    have hk := get?_of_lastLE hl
    rw [h.base_eq k r hk] at hle hend
    exact ⟨hk, BitVec.le_def.1 hle, hend, hprot⟩
  · rintro ⟨hk, hle, hend, hprot⟩
    rw [h.base_eq k r hk]
    exact ⟨h.lastLE_of_mem hk (BitVec.le_def.2 hle) (by omega), BitVec.le_def.2 hle, hend, hprot⟩

theorem contains_rw (bits : U8) :
    Protection.contains ⟨bits⟩ .rw = true ↔
      Protection.contains ⟨bits⟩ .read = true ∧ Protection.contains ⟨bits⟩ .write = true := by
  revert bits
  decide

/-- The right to read and to write a double word is one right. -/
theorem Inv.grants_rw_iff (h : m.Inv) :
    m.flat.Grants a 8 .rw ↔ m.flat.Grants a 8 .read ∧ m.flat.Grants a 8 .write := by
  simp only [h.grants_flat]
  constructor
  · rintro ⟨k, r, hl, hle, hend, hprot⟩
    obtain ⟨hread, hwrite⟩ := (contains_rw r.prot.bits).1 hprot
    exact ⟨⟨k, r, hl, hle, hend, hread⟩, k, r, hl, hle, hend, hwrite⟩
  · rintro ⟨⟨k, r, hl, hle, hend, hread⟩, k', r', hl', -, -, hwrite⟩
    obtain ⟨rfl, rfl⟩ : k = k' ∧ r = r' := by simpa [hl] using hl'
    exact ⟨k, r, hl, hle, hend, (contains_rw r.prot.bits).2 ⟨hread, hwrite⟩⟩

end GuestMemory

/-! ## Applying a record -/

/-- A record that the builder applies. -/
inductive Record
  | location (loc : RebaseLocation)
  | binding (rec : BindRecord)

namespace Record

variable {p : Profile} {slide : U64} {bases : List (Option U64)} {r : StubResolver}
  {m m' : GuestMemory}

/-- The segment it names. -/
def segIndex : Record → U8
  | location loc => loc.segIndex
  | binding rec => rec.segIndex

/-- The address it stores at, if it is of a kind that is applied and its segment is mapped. -/
def address (bases : List (Option U64)) : Record → Option U64
  | location loc => locTarget bases loc
  | binding rec => target bases rec

/-- The rights it needs : a location reads the pointer first. -/
def rights : Record → Protection
  | location _ => .rw
  | binding _ => .write

/-- Apply it. -/
def apply (p : Profile) (slide : U64) (bases : List (Option U64)) (r : StubResolver) :
    Record → MemM Unit
  | location loc => rebaseOne slide bases loc
  | binding rec => do
    let _ ← bindOne p bases r rec
    return ()

/-- The pointer a bind record stores. -/
def pointer (p : Profile) (r : StubResolver) (rec : BindRecord) : Except Panic U64 := do
  let (stub, _) ← r.resolve p rec.symbol
  p.addSigned stub rec.addend

/-- Applying it comes to a store at `a`, which leaves `m'`. -/
def Stores (p : Profile) (slide : U64) (bases : List (Option U64)) (r : StubResolver)
    (m : GuestMemory) (a : U64) (m' : GuestMemory) : Record → Prop
  | location loc => locTarget bases loc = some a ∧
      ∃ v, m.readU64 a = .ok v ∧ writeU64 a (v + slide) m = .ok () m'
  | binding rec => target bases rec = some a ∧
      ∃ v, pointer p r rec = .ok v ∧ writeU64 a v m = .ok () m'

theorem apply_binding (rec : BindRecord) :
    (binding rec).apply p slide bases r m =
      match target bases rec with
      | none => .ok () m
      | some a =>
        match pointer p r rec with
        | .error e => .panic e
        | .ok v =>
          match writeU64 a v m with
          | .ok _ m' => .ok () m'
          | .err _ m' => .ok () m'
          | .panic e => .panic e := by
  change (bindOne p bases r rec >>= fun _ => pure ()) m = _
  unfold bindOne target pointer
  rcases segBase bases rec.segIndex with _ | base
  · rfl
  · simp only [Option.map_some]
    rcases r.resolve p rec.symbol with e | ⟨stub, r'⟩
    · rfl
    · rw [show (Except.ok (stub, r') >>= fun q => p.addSigned q.1 rec.addend) =
        p.addSigned stub rec.addend from rfl]
      rcases hv : p.addSigned stub rec.addend with e | v
      · simp only [Prog.bind_apply, Prog.ofChecked_ok, hv, Prog.ofChecked_error]
      · simp only [Prog.bind_apply, Prog.ofChecked_ok, hv, Prog.attempt]
        rcases writeU64 (base + rec.segOffset) v m with ⟨u, m'⟩ | ⟨e, m'⟩ | e <;> rfl

/-- What applying a record can do : nothing, or its store. -/
theorem apply_cases {rec : Record} (h : (rec.apply p slide bases r m).state? = some m') :
    m' = m ∨ ∃ a, rec.Stores p slide bases r m a m' := by
  cases rec with
  | location loc =>
    change (rebaseOne slide bases loc m).state? = some m' at h
    rw [rebaseOne_apply] at h
    rcases hloc : locTarget bases loc with _ | a <;> simp only [hloc] at h
    · exact Or.inl (Option.some.inj h).symm
    · rcases hread : m.readU64 a with e | v <;> simp only [hread] at h
      · exact Or.inl (Option.some.inj h).symm
      · rcases hw : writeU64 a (v + slide) m with ⟨⟨⟩, m₁⟩ | ⟨e, m₁⟩ | e <;> rw [hw] at h
        · obtain rfl := Option.some.inj h
          exact Or.inr ⟨a, hloc, v, hread, hw⟩
        · obtain rfl := Option.some.inj h
          exact Or.inl (write_failsClean _ _ _ _ _ hw)
        · cases h
  | binding rec =>
    rw [apply_binding] at h
    rcases hat : target bases rec with _ | a <;> simp only [hat] at h
    · exact Or.inl (Option.some.inj h).symm
    · rcases hv : pointer p r rec with e | v <;> simp only [hv] at h
      · cases h
      · rcases hw : writeU64 a v m with ⟨⟨⟩, m₁⟩ | ⟨e, m₁⟩ | e <;> simp only [hw] at h
        · obtain rfl := Option.some.inj h
          exact Or.inr ⟨a, hat, v, hv, hw⟩
        · obtain rfl := Option.some.inj h
          exact Or.inl (write_failsClean _ _ _ _ _ hw)
        · cases h

theorem Stores.address_eq {rec : Record} {a : U64} (h : rec.Stores p slide bases r m a m') :
    rec.address bases = some a := by
  cases rec with
  | location loc => exact h.1
  | binding rec => exact h.1

/-- A pointer is there to be stored : the address of the trampoline and the addend can be
added. -/
def HasPointer (p : Profile) (r : StubResolver) : Record → Prop
  | location _ => True
  | binding rec => ∃ v, pointer p r rec = .ok v

/-- A record comes to its store exactly if it is granted. -/
theorem stores_iff (hinv : m.Inv) {rec : Record} {a : U64} :
    (∃ m', rec.Stores p slide bases r m a m') ↔
      rec.address bases = some a ∧ rec.HasPointer p r ∧ m.flat.Grants a 8 rec.rights := by
  have hwrite : ∀ v, (∃ m', writeU64 a v m = .ok () m') ↔ m.flat.Grants a 8 .write := fun v => by
    rw [← length_toLeBytes64 v]
    exact hinv.write_isOk_iff
  cases rec with
  | location loc =>
    have hread : (∃ v, m.readU64 a = .ok v) ↔ m.flat.Grants a 8 .read := by
      rw [← hinv.read_isOk_iff]
      constructor
      · rintro ⟨v, hv⟩
        obtain ⟨l, hl, -⟩ := except_bind_eq_ok.1 hv
        exact ⟨l, hl⟩
      · rintro ⟨l, hl⟩
        exact ⟨_, except_bind_eq_ok.2 ⟨l, hl, rfl⟩⟩
    constructor
    · rintro ⟨m', hloc, v, hv, hw⟩
      exact ⟨hloc, trivial, hinv.grants_rw_iff.2 ⟨hread.1 ⟨v, hv⟩, (hwrite _).1 ⟨m', hw⟩⟩⟩
    · rintro ⟨hloc, -, hgrants⟩
      obtain ⟨hr, hw⟩ := hinv.grants_rw_iff.1 hgrants
      obtain ⟨v, hv⟩ := hread.2 hr
      obtain ⟨m', hm'⟩ := (hwrite (v + slide)).2 hw
      exact ⟨m', hloc, v, hv, hm'⟩
  | binding rec =>
    constructor
    · rintro ⟨m', hat, v, hv, hw⟩
      exact ⟨hat, ⟨v, hv⟩, (hwrite _).1 ⟨m', hw⟩⟩
    · rintro ⟨hat, ⟨v, hv⟩, hgrants⟩
      obtain ⟨m', hm'⟩ := (hwrite v).2 hgrants
      exact ⟨m', hat, v, hv, hm'⟩

end Record

/-! ## What is open while the records are applied -/

/-- The eight bytes at `a` lie in a segment, as far as it is mapped, or in a region of before
that has the rights; and no later segment has replaced it. -/
def Opens (bytes : List U8) (slide : U64) (segs : List Segment) (m : GuestMemory)
    (need : Protection) (a : U64) : Prop :=
  (∃ seg, lastAt seg.vmaddr segs = some seg ∧ (seg.vmaddr + slide).toNat ≤ a.toNat ∧
    a.toNat + 8 ≤ (seg.vmaddr + slide).toNat + (mappedSize bytes seg).toNat) ∨
  ∃ k r, m.regions.get? k = some r ∧ lastAt (k - slide) segs = none ∧ k.toNat ≤ a.toNat ∧
    a.toNat + 8 ≤ k.toNat + r.data.size ∧ r.prot.contains need = true

theorem grants_mapSegments_iff {p : Profile} {bytes : List U8} {slide : U64}
    {segs : List Segment} {bases : List (Option U64)} {m m' : GuestMemory} {need : Protection}
    {a : U64} (hinv : m.Inv) (hneed : Protection.rw.contains need = true)
    (h : mapSegments p bytes slide segs m = .ok bases m') :
    m'.flat.Grants a 8 need ↔ Opens bytes slide segs m need a := by
  have hinv' : m'.Inv := (keepsInv_mapSegments _ _ _ _).ok h hinv
  rw [hinv'.grants_iff]
  constructor
  · rintro ⟨k, r, hk, hle, hend, hprot⟩
    have hget := get?_mapSegments h (k - slide)
    rw [BitVec.sub_add_cancel] at hget
    rcases hlast : lastAt (k - slide) segs with _ | seg
    · rw [hget.2 hlast] at hk
      exact Or.inr ⟨k, r, hk, hlast, hle, hend, hprot⟩
    · obtain ⟨r', hr', hreg⟩ := hget.1 seg hlast
      obtain rfl : r = r' := Option.some.inj (hk.symm.trans hr')
      obtain ⟨-, -, hvm⟩ := lastAt_eq_some hlast
      have hbase : seg.vmaddr + slide = k := by rw [hvm, BitVec.sub_add_cancel]
      refine Or.inl ⟨seg, by rwa [hvm], ?_⟩
      rw [hbase, ← hreg.size_eq]
      exact ⟨hle, hend⟩
  · rintro (⟨seg, hlast, hle, hend⟩ | ⟨k, r, hk, hlast, hle, hend, hprot⟩)
    · obtain ⟨r, hr, hreg⟩ := (get?_mapSegments h seg.vmaddr).1 seg hlast
      refine ⟨_, r, hr, hle, by rwa [hreg.size_eq], ?_⟩
      rw [hreg.prot_eq]
      exact hneed
    · have hget := get?_mapSegments h (k - slide)
      rw [BitVec.sub_add_cancel] at hget
      exact ⟨k, r, (hget.2 hlast).trans hk, hle, hend, hprot⟩

/-! ## The records that the builder comes to -/

/-- The builder applies a record with the resolver `r` in the memory `m₁` : the segments are
mapped, and the locations and records before it applied. The lazy stream is decoded when the
eager one is bound. -/
inductive Reaches (b : Build) (image : MachOImage) (bytes : List U8) (cfg : LayoutConfig)
    (m : GuestMemory) : Record → StubResolver → GuestMemory → Prop
  | location {bases locs before loc after m₀ m₁} (r : StubResolver) :
      image.isEncrypted = false →
      mapSegments b.profile bytes cfg.slide image.segments m = .ok bases m₀ →
      ImageLocations b.profile image bytes cfg.slide locs → locs = before ++ loc :: after →
      Prog.forEach before (rebaseOne cfg.slide bases) m₀ = .ok () m₁ →
      Reaches b image bytes cfg m (.location loc) r m₁
  | binding {bases info done before rec after r m₀ m₁ m₂} : image.isEncrypted = false →
      mapSegments b.profile bytes cfg.slide image.segments m = .ok bases m₀ →
      rebase b.profile image bytes cfg.slide bases m₀ = .ok () m₁ →
      image.dyldInfo = some info →
      (done = [] ∧
          StreamRecords b.profile bytes info.bindOff info.bindSize (before ++ rec :: after) ∨
        StreamRecords b.profile bytes info.bindOff info.bindSize done ∧
          StreamRecords b.profile bytes info.lazyBindOff info.lazyBindSize
            (before ++ rec :: after)) →
      (done ++ before).foldlM (bindOne b.profile bases)
        (.new cfg.trampolineBase cfg.trampolineStride) m₁ = .ok r m₂ →
      Reaches b image bytes cfg m (.binding rec) r m₂

/-- Records move no region, so what is granted when one is applied was open when the segments
were mapped. -/
theorem Reaches.grants_iff {b : Build} {image : MachOImage} {bytes : List U8}
    {cfg : LayoutConfig} {m m₁ : GuestMemory} {rec : Record} {r : StubResolver} (hinv : m.Inv)
    (h : Reaches b image bytes cfg m rec r m₁) :
    m₁.Inv ∧ ∀ a, m₁.flat.Grants a 8 rec.rights ↔
      Opens bytes cfg.slide image.segments m rec.rights a := by
  cases h with
  | location r henc hmap hlocs hsplit hrun =>
    have hinv₀ := (keepsInv_mapSegments _ _ _ _).ok hmap hinv
    obtain ⟨hinv₁, hlay, -⟩ := (Prog.Steps.forEach fun loc _ =>
      patches_rebaseOne fun a _ => Set.subset_univ (slotBytes a)).ok hrun hinv₀
    refine ⟨hinv₁, fun a => ?_⟩
    rw [FlatMemory.grants_congr hlay]
    exact grants_mapSegments_iff hinv (show Protection.rw.contains .rw = true by decide) hmap
  | binding henc hmap hrebase hinfo hrecs hrun =>
    have hinv₀ := (keepsInv_mapSegments _ _ _ _).ok hmap hinv
    obtain ⟨locs, -, hlocs⟩ := rebase_eq_ok.1 hrebase
    obtain ⟨hinv₁, hlay₁, -⟩ := (Prog.Steps.forEach fun loc _ =>
      patches_rebaseOne fun a _ => Set.subset_univ (slotBytes a)).ok hlocs hinv₀
    obtain ⟨hinv₂, hlay₂, -⟩ := (Prog.Steps.foldlM fun r rec _ =>
      patches_bindOne (fun a _ => Set.subset_univ (slotBytes a)) r).ok hrun hinv₁
    refine ⟨hinv₂, fun a => ?_⟩
    rw [FlatMemory.grants_congr (hlay₂.trans hlay₁)]
    exact grants_mapSegments_iff hinv (show Protection.rw.contains .write = true by decide) hmap

/-- The eight bytes at `a` lie in the segment with an index. -/
def InSegment (image : MachOImage) (slide : U64) (segIndex : U8) (a : U64) : Prop :=
  ∃ seg, image.segments[segIndex.toNat]? = some seg ∧ (seg.vmaddr + slide).toNat ≤ a.toNat ∧
    a.toNat + 8 ≤ (seg.vmaddr + slide).toNat + seg.vmsize.toNat

/-- A record, applied with the resolver `r` in the memory `m`, stores in the segment it names,
and leaves the memory alone if it does not lie there. -/
structure KeepsToSegment (p : Profile) (image : MachOImage) (slide : U64) (r : StubResolver)
    (m : GuestMemory) (rec : Record) : Prop where
  stores_in : ∀ a m', rec.Stores p slide (runtimeBases slide image.segments) r m a m' →
    InSegment image slide rec.segIndex a
  skips : (∀ a, rec.address (runtimeBases slide image.segments) = some a →
      ¬InSegment image slide rec.segIndex a) →
    ∀ m', (rec.apply p slide (runtimeBases slide image.segments) r m).state? = some m' → m' = m

/-- A record keeps to the segment it names exactly if its eight bytes lie there, or are not
open, or there is no pointer to store. -/
theorem keepsToSegment_iff (b : Build) (image : MachOImage) (bytes : List U8)
    (cfg : LayoutConfig) (m : GuestMemory) (hm : Reachable b.profile m) (rec : Record)
    (r : StubResolver) (m₁ : GuestMemory) (h : Reaches b image bytes cfg m rec r m₁) :
    KeepsToSegment b.profile image cfg.slide r m₁ rec ↔
      ∀ a, rec.address (runtimeBases cfg.slide image.segments) = some a →
        rec.HasPointer b.profile r → Opens bytes cfg.slide image.segments m rec.rights a →
        InSegment image cfg.slide rec.segIndex a := by
  obtain ⟨hinv, hgrants⟩ := h.grants_iff hm.inv
  constructor
  · intro hkeep a ha hpointer hopens
    obtain ⟨m', hstores⟩ := (Record.stores_iff hinv).2 ⟨ha, hpointer, (hgrants a).2 hopens⟩
    exact hkeep.stores_in a m' hstores
  · intro hin
    have hstores : ∀ a m', rec.Stores b.profile cfg.slide
        (runtimeBases cfg.slide image.segments) r m₁ a m' →
        InSegment image cfg.slide rec.segIndex a := by
      intro a m' hs
      obtain ⟨ha, hpointer, hgrant⟩ := (Record.stores_iff hinv).1 ⟨m', hs⟩
      exact hin a ha hpointer ((hgrants a).1 hgrant)
    refine ⟨hstores, fun hout m' hrun => ?_⟩
    rcases Record.apply_cases hrun with rfl | ⟨a, hs⟩
    · rfl
    · exact absurd (hstores a m' hs) (hout a hs.address_eq)

/-! ## A record in its segment, and one in the heap -/

/-- The record of the file with one import lies in its segment, and keeps to it. -/
theorem keepsToSegment_iff_importFile :
    Reachable .release importMemory ∧
      ∃ r m₁, Reaches ⟨.release, .host⟩ importImage importFile importConfig importMemory
          (.binding importRecord) r m₁ ∧
        KeepsToSegment .release importImage 0 r m₁ (.binding importRecord) := by
  obtain ⟨m₁, ⟨bases, m₀, hmap, hrebase⟩, -⟩ := storable_importFile
  have hstream : StreamRecords .release importFile 176 14 ([] ++ importRecord :: []) := by
    rw [StreamRecords, if_neg (by decide)]
    exact ⟨importFile.drop 176, [], by decide +kernel, by decide +kernel⟩
  have hreach : Reaches ⟨.release, .host⟩ importImage importFile importConfig importMemory
      (.binding importRecord) (.new 0x500000000 16) m₁ :=
    .binding rfl hmap hrebase rfl (Or.inl ⟨rfl, hstream⟩) rfl
  refine ⟨reachable_importMemory, _, m₁, hreach, ?_⟩
  refine (keepsToSegment_iff _ _ _ _ _ reachable_importMemory _ _ _ hreach).2 fun a ha _ _ => ?_
  obtain rfl : (0x100000100 : U64) = a := Option.some.inj ha
  exact ⟨_, rfl, by decide⟩

/-- A thin file whose bind stream names its only segment, of 16 KiB, with offset `2 ^ 29`. -/
def strayFile : List U8 :=
  leBytes 4 0xfeedfacf ++ leBytes 4 0x0100000c ++ leBytes 4 0 ++ leBytes 4 2 ++ leBytes 4 3 ++
    leBytes 4 144 ++ leBytes 4 0x200000 ++ leBytes 4 0 ++
    (leBytes 4 0x19 ++ leBytes 4 72 ++ leBytes 16 0x415441445f5f ++ leBytes 8 0x100000000 ++
      leBytes 8 0x4000 ++ leBytes 8 0 ++ leBytes 8 0 ++ leBytes 4 3 ++ leBytes 4 3 ++
      leBytes 4 0 ++ leBytes 4 0) ++
    (leBytes 4 0x80000022 ++ leBytes 4 48 ++ leBytes 8 0 ++ leBytes 4 176 ++ leBytes 4 17 ++
      leBytes 24 0) ++
    (leBytes 4 0x80000028 ++ leBytes 4 24 ++ leBytes 16 0) ++
    [0x40, 0x5f, 0x6d, 0x61, 0x6c, 0x6c, 0x6f, 0x63, 0x00, 0x70, 0x80, 0x80, 0x80, 0x80, 0x02,
      0x90, 0x00]

/-- Its image. -/
def strayImage : MachOImage :=
  { importImage with dyldInfo := some ⟨0, 0, 176, 17, 0, 0, 0, 0⟩ }

/-- Its record. -/
def strayRecord : BindRecord :=
  { importRecord with segOffset := 0x20000000 }

/-- The record is stored in the heap. -/
theorem strayRecord_writes_heap :
    Reachable .release importMemory ∧ MachOImage.parse strayFile = .ok strayImage ∧
      ∃ r m₁ m₂, Reaches ⟨.release, .host⟩ strayImage strayFile importConfig importMemory
          (.binding strayRecord) r m₁ ∧
        ((Record.binding strayRecord).apply .release 0 (runtimeBases 0 strayImage.segments) r
          m₁).state? = some m₂ ∧
        m₁.flat.byte 0x120000004 = some 0 ∧ m₂.flat.byte 0x120000004 = some 5 ∧
        ¬KeepsToSegment .release strayImage 0 r m₁ (.binding strayRecord) := by
  have hbyte : (mapSegments .release strayFile 0 strayImage.segments importMemory).okState?.bind
      (fun m => m.flat.byte 0x120000004) = some 0 := by
    decide
  obtain ⟨m₁, hm₁, hbyte⟩ := Option.bind_eq_some_iff.1 hbyte
  obtain ⟨bases, hmap⟩ := Outcome.okState?_eq_some.1 hm₁
  have hstream : StreamRecords .release strayFile 176 17 ([] ++ strayRecord :: []) := by
    rw [StreamRecords, if_neg (by decide)]
    exact ⟨strayFile.drop 176, [], by decide +kernel, by decide +kernel⟩
  have hreach : Reaches ⟨.release, .host⟩ strayImage strayFile importConfig importMemory
      (.binding strayRecord) (.new 0x500000000 16) m₁ :=
    .binding rfl hmap rfl rfl (Or.inl ⟨rfl, hstream⟩) rfl
  obtain ⟨hinv, hgrants⟩ := hreach.grants_iff reachable_importMemory.inv
  have hopens : Opens strayFile 0 strayImage.segments importMemory .write 0x120000000 :=
    Or.inr ⟨0x120000000, _, rfl, by decide⟩
  have hstores : ∃ m₂, (Record.binding strayRecord).Stores .release 0
      (runtimeBases 0 strayImage.segments) (.new 0x500000000 16) m₁ 0x120000000 m₂ :=
    (Record.stores_iff hinv).2 ⟨rfl, ⟨0x500000000, rfl⟩, (hgrants _).2 hopens⟩
  obtain ⟨m₂, hat, v, hv, hw⟩ := hstores
  obtain rfl : (0x500000000 : U64) = v := Except.ok.inj hv
  refine ⟨reachable_importMemory, by decide +kernel, _, m₁, m₂, hreach, ?_, hbyte, ?_, ?_⟩
  · rw [Record.apply_binding]
    simp only [hat, hv, hw]
    rfl
  · rw [(hinv.flat_of_write hw).1]
    rfl
  · intro hkeep
    obtain ⟨seg, hseg, -, hend⟩ := hkeep.stores_in _ _ ⟨hat, _, hv, hw⟩
    obtain rfl := Option.some.inj hseg
    exact absurd hend (by decide)

end IosEmu
