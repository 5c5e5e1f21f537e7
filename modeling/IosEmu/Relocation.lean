import IosEmu.Segments

/-!
# Two builds of one image

The same image is built twice, without a slide and with one. An address of the image is given
as the linker gave it : at a slide `s`, what is at `a` is at `a + s`, with the carry dropped.
Whether an address belongs to a double word or to a segment depends on a difference of
addresses, so a slide does not change it.

`Moved` relates the memories of the two builds : the bytes of the image are the same, and the
double words at the slots of a set are larger by the slide. Relocation adds slots to the set,
as it goes over locations that are apart (`Moved.rebase`); binding stores the same pointers in
both memories and takes its slots out again (`Moved.bind`).
-/

open SysLib

namespace IosEmu

namespace GuestMemory

variable {m m' : GuestMemory} {a c k v w : U64} {r : Region}

/-! ## Addresses that wrap -/

theorem add_sub_add (a b s : U64) : a + s - (b + s) = a - b := by
  rw [BitVec.add_comm b s, ← BitVec.sub_sub, BitVec.add_sub_cancel]

theorem toNat_eq_add_sub (h : k.toNat + (a - k).toNat < 2 ^ 64) :
    a.toNat = k.toNat + (a - k).toNat := by
  rw [BitVec.toNat_sub] at h ⊢
  have := a.isLt
  have := k.isLt
  omega

/-- The byte at an address. -/
def byteAt (m : GuestMemory) (a : U64) : Option U8 :=
  m.flat.byte a.toNat

/-- The double word at `a` has a byte at `c`. -/
def Covers (a c : U64) : Prop :=
  (c - a).toNat < 8

/-- No address is in the double words at both. -/
def SlotsApart (a b : U64) : Prop :=
  ∀ c, Covers a c → ¬Covers b c

/-- The double word at `a` is `v`. -/
def Word (m : GuestMemory) (a v : U64) : Prop :=
  ∀ c, Covers a c → m.byteAt c = (toLeBytes64 v)[(c - a).toNat]?

theorem covers_add (a c s : U64) : Covers (a + s) (c + s) ↔ Covers a c := by
  rw [Covers, Covers, add_sub_add]

theorem Inv.byteAt_region (h : m.Inv) (hr : m.regions.get? k = some r)
    (hc : (c - k).toNat < r.data.size) : m.byteAt c = r.data.get? (c - k).toNat := by
  have hfits := h.fits k r hr
  unfold Region.Fits at hfits
  rw [h.base_eq k r hr] at hfits
  have hadd := toNat_eq_add_sub (show k.toNat + (c - k).toNat < 2 ^ 64 by omega)
  rw [byteAt, h.byte_flat hr (by omega) (by omega), hadd, Nat.add_sub_cancel_left]

/-- A region grants what lies in it. -/
theorem Inv.grants_region (h : m.Inv) (hr : m.regions.get? k = some r) {n : ℕ} (hn : 0 < n)
    (ha : (a - k).toNat + n ≤ r.data.size) {need : Protection}
    (hprot : r.prot.contains need = true) : m.flat.Grants a n need := by
  have hfits := h.fits k r hr
  unfold Region.Fits at hfits
  rw [h.base_eq k r hr] at hfits
  have hadd := toNat_eq_add_sub (show k.toNat + (a - k).toNat < 2 ^ 64 by omega)
  have hle : k ≤ a := BitVec.le_def.2 (by omega)
  refine h.grants_flat.2 ⟨k, r, h.lastLE_of_mem hr hle (by omega), ?_, ?_, hprot⟩
  · rw [h.base_eq k r hr]
    exact hle
  · rw [h.base_eq k r hr]
    omega

theorem Inv.lt_of_grants (h : m.Inv) {n : ℕ} {need : Protection}
    (hg : m.flat.Grants a n need) : a.toNat + n < 2 ^ 64 := by
  obtain ⟨k, r, hl, -, hend, -⟩ := h.grants_flat.1 hg
  have hfits := h.fits k r (get?_of_lastLE hl)
  unfold Region.Fits at hfits
  omega

/-- Storing a double word changes the bytes it covers. -/
theorem Inv.byteAt_writeU64 (h : m.Inv) (hw : writeU64 a v m = .ok () m') (c : U64) :
    (Covers a c → m'.byteAt c = (toLeBytes64 v)[(c - a).toNat]?) ∧
      (¬Covers a c → m'.byteAt c = m.byteAt c) := by
  have hlt := h.lt_of_grants (h.write_isOk_iff.1 ⟨m', hw⟩)
  rw [length_toLeBytes64] at hlt
  have hflat := (h.flat_of_write hw).1
  unfold Covers byteAt
  rw [hflat]
  dsimp only [FlatMemory.write]
  rw [length_toLeBytes64]
  refine ⟨fun hc => ?_, fun hc => ?_⟩
  · have hadd := toNat_eq_add_sub (show a.toNat + (c - a).toNat < 2 ^ 64 by omega)
    rw [if_pos (by omega), hadd, Nat.add_sub_cancel_left]
  · refine if_neg fun hin => hc ?_
    rw [BitVec.toNat_sub_of_le (BitVec.le_def.2 hin.1)]
    omega

theorem Inv.word_writeU64 (h : m.Inv) (hw : writeU64 a v m = .ok () m') : m'.Word a v :=
  fun c hc => (h.byteAt_writeU64 hw c).1 hc

theorem Inv.word_writeU64_of_apart (h : m.Inv) (hw : writeU64 a v m = .ok () m')
    (hapart : SlotsApart c a) (hword : m.Word c w) : m'.Word c w :=
  fun x hx => ((h.byteAt_writeU64 hw x).2 (hapart x hx)).trans (hword x hx)

/-- What is read at an address is the double word there. -/
theorem Inv.readU64_eq_ok_iff (h : m.Inv) :
    m.readU64 a = .ok v ↔ m.flat.Grants a 8 .read ∧ m.Word a v := by
  have hword : m.flat.Grants a 8 .read → (m.Word a v ↔ m.flat.Reads a (toLeBytes64 v)) := by
    intro hg
    have hlt := h.lt_of_grants hg
    refine ⟨fun hw i hi => ?_, fun hr c hc => ?_⟩
    · rw [length_toLeBytes64] at hi
      have hi' : (BitVec.ofNat 64 i : U64).toNat = i := by
        rw [BitVec.toNat_ofNat]
        omega
      have hsub : (a + BitVec.ofNat 64 i - a).toNat = i := by
        rw [BitVec.add_comm, BitVec.add_sub_cancel, hi']
      have hbyte := hw (a + BitVec.ofNat 64 i) (by rw [Covers, hsub]; exact hi)
      rwa [hsub, byteAt, BitVec.toNat_add, hi', Nat.mod_eq_of_lt (by omega)] at hbyte
    · have hc' : (c - a).toNat < 8 := hc
      have hadd := toNat_eq_add_sub (show a.toNat + (c - a).toNat < 2 ^ 64 by omega)
      rw [byteAt, hadd]
      exact hr _ (by rw [length_toLeBytes64]; exact hc')
  constructor
  · intro hread
    obtain ⟨l, hl, hv⟩ := except_bind_eq_ok.1 hread
    obtain ⟨hg, hlen, hreads⟩ := h.read_eq_ok_iff.1 hl
    refine ⟨hg, (hword hg).2 ?_⟩
    obtain rfl : fromLeBytes 64 l = v := Except.ok.inj hv
    rwa [toLeBytes64_fromLeBytes hlen]
  · rintro ⟨hg, hw⟩
    exact readU64_of_read (h.read_eq_ok_iff.2 ⟨hg, length_toLeBytes64 v, (hword hg).1 hw⟩)

theorem Inv.readU64_isOk (h : m.Inv) (hg : m.flat.Grants a 8 .read) :
    ∃ v, m.readU64 a = .ok v := by
  obtain ⟨k, r, hl, hle, hend, hprot⟩ := h.grants_flat.1 hg
  refine ⟨_, except_bind_eq_ok.2 ⟨_, read_eq_ok.2 ⟨k, r, hl, hle, hend, hprot, rfl⟩, rfl⟩⟩

/-- Storing what was read changes nothing. -/
theorem Inv.writeU64_of_readU64 (h : m.Inv) (hread : m.readU64 a = .ok v)
    (hg : m.flat.Grants a 8 .write) : writeU64 a v m = .ok () m := by
  obtain ⟨l, hl, hv⟩ := except_bind_eq_ok.1 hread
  obtain rfl : fromLeBytes 64 l = v := Except.ok.inj hv
  have hlen := length_of_read hl
  obtain ⟨k, r, hlast, hle, hend, -, rfl⟩ := read_eq_ok.1 hl
  obtain ⟨k', r', hlast', -, -, hprot⟩ := h.grants_flat.1 hg
  obtain ⟨rfl, rfl⟩ := Prod.mk.inj (Option.some.inj (hlast.symm.trans hlast'))
  have hle' := BitVec.le_def.1 hle
  unfold writeU64
  rw [toLeBytes64_fromLeBytes hlen]
  refine write_eq_ok.2 ⟨k, r, hlast, hle, by rwa [hlen], hprot, ?_⟩
  rw [store, Buffer.overwrite_slice (by omega), SortedMap.insert_of_get? (get?_of_lastLE hlast)]

theorem slotsApart_add {b s : U64} (h : SlotsApart a b) : SlotsApart (a + s) (b + s) := by
  intro c hc hc'
  rw [← BitVec.sub_add_cancel c s, covers_add] at hc hc'
  exact h _ hc hc'

/-! ## Memories that are a slide apart -/

/-- The bytes at the addresses of `S` are the same in both, except that the double words at
the slots of `P` are larger by the slide. -/
structure Moved (S P : Set U64) (s : U64) (m m' : GuestMemory) : Prop where
  byte_eq : ∀ a ∈ S, (∀ b ∈ P, ¬Covers b a) → m'.byteAt (a + s) = m.byteAt a
  word : ∀ b ∈ P, ∃ v, m.Word b v ∧ m'.Word (b + s) (v + s)

section Moved

variable {S P : Set U64} {s : U64} {m₁ m₁' : GuestMemory}

/-- The same double word is stored in both. -/
theorem Moved.store (h : Moved S P s m m') (hinv : m.Inv) (hinv' : m'.Inv)
    (hw : writeU64 a v m = .ok () m₁) (hw' : writeU64 (a + s) v m' = .ok () m₁')
    (hP : ∀ b ∈ P, b = a ∨ SlotsApart b a) : Moved S (P \ {a}) s m₁ m₁' where
  byte_eq x hx hout := by
    obtain ⟨hin₁, hout₁⟩ := hinv.byteAt_writeU64 hw x
    obtain ⟨hin₁', hout₁'⟩ := hinv'.byteAt_writeU64 hw' (x + s)
    rw [covers_add, add_sub_add] at hin₁'
    rw [covers_add] at hout₁'
    by_cases hax : Covers a x
    · rw [hin₁ hax, hin₁' hax]
    · rw [hout₁ hax, hout₁' hax]
      refine h.byte_eq x hx fun b hb hbx => ?_
      by_cases hba : b = a
      · exact hax (hba ▸ hbx)
      · exact hout b ⟨hb, hba⟩ hbx
  word b hb := by
    obtain ⟨v, hv, hv'⟩ := h.word b hb.1
    have hapart := (hP b hb.1).resolve_left hb.2
    exact ⟨v, hinv.word_writeU64_of_apart hw hapart hv,
      hinv'.word_writeU64_of_apart hw' (slotsApart_add hapart) hv'⟩

/-- A double word that is the same in both is relocated in the second. -/
theorem Moved.relocate (h : Moved S P s m m') (hinv' : m'.Inv) (hS : ∀ c, Covers a c → c ∈ S)
    (hread : m'.readU64 (a + s) = .ok v) (hw' : writeU64 (a + s) (v + s) m' = .ok () m₁')
    (hP : ∀ b ∈ P, SlotsApart b a) : Moved S (insert a P) s m m₁' where
  byte_eq x hx hout := by
    have hax : ¬Covers a x := hout a (Set.mem_insert a P)
    rw [(hinv'.byteAt_writeU64 hw' (x + s)).2 ((covers_add a x s).not.2 hax)]
    exact h.byte_eq x hx fun b hb => hout b (Set.mem_insert_of_mem a hb)
  word b hb := by
    rcases hb with rfl | hb
    · refine ⟨v, fun c hc => ?_, hinv'.word_writeU64 hw'⟩
      have hword := (hinv'.readU64_eq_ok_iff.1 hread).2 (c + s) ((covers_add b c s).2 hc)
      rw [add_sub_add] at hword
      rw [← h.byte_eq c (hS c hc) fun b' hb' hcov => hP b' hb' c hcov hc, hword]
    · obtain ⟨w, hw, hww⟩ := h.word b hb
      exact ⟨w, hw, hinv'.word_writeU64_of_apart hw' (slotsApart_add (hP b hb)) hww⟩

/-- Without a slide, words are the same in both memories. -/
theorem Moved.of_zero (h : Moved S ∅ 0 m m')
    (hP : ∀ b ∈ P, (∀ c, Covers b c → c ∈ S) ∧ ∃ v, m.Word b v) : Moved S P 0 m m' where
  byte_eq a ha _ := h.byte_eq a ha fun _ hb => hb.elim
  word b hb := by
    obtain ⟨hS, v, hv⟩ := hP b hb
    refine ⟨v, hv, ?_⟩
    rw [show b + 0 = b from BitVec.add_zero b, show v + 0 = v from BitVec.add_zero v]
    intro c hc
    rw [← hv c hc, ← h.byte_eq c (hS c hc) fun _ hb => hb.elim,
      show c + 0 = c from BitVec.add_zero c]

end Moved

end GuestMemory

namespace Process

open GuestMemory

variable {p : Profile} {image : MachOImage} {bytes : List U8} {s t : U64}
  {segs : List Segment} {m m' m₁ m₁' : GuestMemory} {a : U64}

/-! ## Slots -/

/-- The locations of the rebase stream; an empty stream is not looked for. -/
def RebaseLocations (p : Profile) (image : MachOImage) (bytes : List U8)
    (locs : List RebaseLocation) : Prop :=
  match image.dyldInfo with
  | none => locs = []
  | some info =>
    if info.rebaseSize = 0 then locs = []
    else ∃ stream rest, streamAt p bytes info.rebaseOff info.rebaseSize = .ok (some stream) ∧
      parseRebaseInfo p stream = .ok locs rest

/-- With a slide, the locations to relocate are those of the stream. -/
theorem imageLocations_of_ne {locs : List RebaseLocation} (hs : s ≠ 0) :
    ImageLocations p image bytes s locs ↔ RebaseLocations p image bytes locs := by
  rw [ImageLocations, if_neg hs]
  rfl

theorem RebaseLocations.unique {locs locs' : List RebaseLocation}
    (h : RebaseLocations p image bytes locs) (h' : RebaseLocations p image bytes locs') :
    locs = locs' := by
  unfold RebaseLocations at h h'
  rcases hinfo : image.dyldInfo with _ | info <;> simp only [hinfo] at h h'
  · rw [h, h']
  · split_ifs at h h'
    · rw [h, h']
    · exact parsed_unique h h'

/-- Where the image has a pointer to relocate, as the linker gave it. -/
def RebaseSlot (p : Profile) (image : MachOImage) (bytes : List U8) (a : U64) : Prop :=
  ∃ locs, RebaseLocations p image bytes locs ∧
    ∃ loc ∈ locs, locTarget (runtimeBases 0 image.segments) loc = some a

/-- Where the image has a pointer to bind. -/
def BindSlot (p : Profile) (image : MachOImage) (bytes : List U8) (a : U64) : Prop :=
  ∃ recs, ImageRecords p image bytes recs ∧
    ∃ rec ∈ recs, target (runtimeBases 0 image.segments) rec = some a

/-- The address lies in a segment. -/
def InImage (image : MachOImage) (bytes : List U8) (a : U64) : Prop :=
  ∃ seg, lastAt seg.vmaddr image.segments = some seg ∧
    (a - seg.vmaddr).toNat < (mappedSize bytes seg).toNat

/-- The double word lies in a segment. -/
def SlotInImage (image : MachOImage) (bytes : List U8) (a : U64) : Prop :=
  ∃ seg, lastAt seg.vmaddr image.segments = some seg ∧
    (a - seg.vmaddr).toNat + 8 ≤ (mappedSize bytes seg).toNat

theorem SlotInImage.covers {c : U64} (h : SlotInImage image bytes a) (hc : Covers a c) :
    InImage image bytes c := by
  obtain ⟨seg, hlast, hle⟩ := h
  refine ⟨seg, hlast, ?_⟩
  have hsize := (mappedSize bytes seg).isLt
  have hc' : (c - a).toNat < 8 := hc
  have hsum : c - seg.vmaddr = (a - seg.vmaddr) + (c - a) := by
    rw [BitVec.sub_eq_add_neg a, BitVec.add_assoc, BitVec.add_comm (-seg.vmaddr),
      ← BitVec.add_assoc, BitVec.add_comm a, BitVec.sub_add_cancel, BitVec.sub_eq_add_neg]
  rw [hsum, BitVec.toNat_add, Nat.mod_eq_of_lt (by omega)]
  omega

/-! ## A slide moves every base -/

theorem segBase_runtimeBases (s : U64) (segs : List Segment) (i : U8) :
    segBase (runtimeBases s segs) i = (segBase (runtimeBases 0 segs) i).map (· + s) := by
  unfold segBase runtimeBases
  rw [List.getElem?_map, List.getElem?_map]
  rcases segs[i.toNat]? with _ | seg
  · rfl
  · dsimp only [Option.map_some, Option.join_some]
    split_ifs
    · rfl
    · exact congrArg (fun base => some (base + s)) (BitVec.add_zero seg.vmaddr).symm

theorem add_right_comm (a b c : U64) : a + b + c = a + c + b := by
  rw [BitVec.add_assoc, BitVec.add_comm b, ← BitVec.add_assoc]

theorem locTarget_runtimeBases (s : U64) (segs : List Segment) (loc : RebaseLocation) :
    locTarget (runtimeBases s segs) loc = (locTarget (runtimeBases 0 segs) loc).map (· + s) := by
  unfold locTarget
  rw [segBase_runtimeBases]
  split_ifs
  · rcases segBase (runtimeBases 0 segs) loc.segIndex with _ | base
    · rfl
    · exact congrArg some (add_right_comm base s loc.segOffset)
  · rfl

theorem target_runtimeBases (s : U64) (segs : List Segment) (rec : BindRecord) :
    target (runtimeBases s segs) rec = (target (runtimeBases 0 segs) rec).map (· + s) := by
  unfold target
  rw [segBase_runtimeBases]
  rcases segBase (runtimeBases 0 segs) rec.segIndex with _ | base
  · rfl
  · exact congrArg some (add_right_comm base s rec.segOffset)

/-! ## Mapped segments -/

/-- The segments are mapped for loading, a slide away from where the linker put them. -/
structure Loaded (image : MachOImage) (bytes : List U8) (t : U64) (m : GuestMemory) : Prop where
  inv : m.Inv
  region : ∀ seg, lastAt seg.vmaddr image.segments = some seg →
    ∃ r, m.regions.get? (seg.vmaddr + t) = some r ∧ r.prot = .rw ∧
      r.data.size = (mappedSize bytes seg).toNat

/-- The double words of the image can be read and written. -/
theorem Loaded.grants (h : Loaded image bytes t m) (ha : SlotInImage image bytes a)
    {need : Protection} (hneed : Protection.rw.contains need = true) :
    m.flat.Grants (a + t) 8 need := by
  obtain ⟨seg, hlast, hle⟩ := ha
  obtain ⟨r, hr, hprot, hsize⟩ := h.region seg hlast
  refine h.inv.grants_region hr (by omega) ?_ (hprot ▸ hneed)
  rw [add_sub_add, hsize]
  exact hle

theorem Loaded.of_writeU64 {v : U64} (h : Loaded image bytes t m)
    (hw : writeU64 a v m = .ok () m') : Loaded image bytes t m' where
  inv := h.inv.of_write hw
  region seg hlast := by
    obtain ⟨r, hr, hprot, hsize⟩ := h.region seg hlast
    have hlay : m'.flat.layout = m.flat.layout := by
      rw [(h.inv.flat_of_write hw).1]
      rfl
    obtain ⟨r', hr', hshape⟩ := layout_flat_eq_some.1
      ((congrFun hlay (seg.vmaddr + t)).trans (layout_flat_eq_some.2 ⟨r, hr, rfl⟩))
    exact ⟨r', hr', (congrArg Shape.prot hshape).trans hprot,
      (congrArg Shape.size hshape).trans hsize⟩

/-- Mapped at any slide, the image holds the bytes of the file. -/
theorem loaded_of_mapSegments {bases : List (Option U64)} (hinv : m.Inv)
    (h : mapSegments p bytes t image.segments m = .ok bases m') :
    Loaded image bytes t m' ∧ ∀ seg, lastAt seg.vmaddr image.segments = some seg → ∀ a,
      (a - seg.vmaddr).toNat < (mappedSize bytes seg).toNat →
        m'.byteAt (a + t) = some ((fileData bytes seg).getD (a - seg.vmaddr).toNat 0) := by
  have hinv' := (keepsInv_mapSegments _ _ _ _).ok h hinv
  refine ⟨⟨hinv', fun seg hlast => ?_⟩, fun seg hlast a ha => ?_⟩
  · obtain ⟨r, hr, hreg⟩ := (get?_mapSegments h seg.vmaddr).1 seg hlast
    exact ⟨r, hr, hreg.prot_eq, hreg.size_eq⟩
  · obtain ⟨r, hr, hreg⟩ := (get?_mapSegments h seg.vmaddr).1 seg hlast
    rw [hinv'.byteAt_region hr (by rw [add_sub_add, hreg.size_eq]; exact ha), add_sub_add]
    exact hreg.get?_eq _ ha

/-! ## Relocation -/

/-- The bytes of the image are the same at both places, except in the slots of `P`. -/
abbrev MovedImage (image : MachOImage) (bytes : List U8) (P : Set U64) (s : U64)
    (m m' : GuestMemory) : Prop :=
  Moved {a | InImage image bytes a} P s m m'

/-- The double words at the addresses of a location and of `b` are apart. -/
def LocApart (image : MachOImage) (loc : RebaseLocation) (b : U64) : Prop :=
  ∀ a, locTarget (runtimeBases 0 image.segments) loc = some a → SlotsApart b a

/-- The pointers of a location lie in the image. -/
def LocInImage (image : MachOImage) (bytes : List U8) (loc : RebaseLocation) : Prop :=
  ∀ a, locTarget (runtimeBases 0 image.segments) loc = some a → SlotInImage image bytes a

theorem MovedImage.rebaseOne {P : Set U64} {loc : RebaseLocation}
    (h : MovedImage image bytes P s m m') (hloaded : Loaded image bytes s m')
    (hin : LocInImage image bytes loc) (hP : ∀ b ∈ P, LocApart image loc b)
    (hrun : rebaseOne s (runtimeBases s image.segments) loc m' = .ok () m₁') :
    Loaded image bytes s m₁' ∧
      MovedImage image bytes
        (P ∪ {a | locTarget (runtimeBases 0 image.segments) loc = some a}) s m m₁' := by
  rw [rebaseOne_apply, locTarget_runtimeBases] at hrun
  rcases hloc : locTarget (runtimeBases 0 image.segments) loc with _ | a <;>
    simp only [hloc, Option.map_none, Option.map_some] at hrun
  · obtain ⟨-, rfl⟩ := Outcome.ok.inj hrun
    simpa using ⟨hloaded, h⟩
  · have hslot := hin a hloc
    obtain ⟨v, hread⟩ := hloaded.inv.readU64_isOk (hloaded.grants hslot (by decide))
    simp only [hread] at hrun
    refine ⟨hloaded.of_writeU64 hrun, ?_⟩
    have hset : P ∪ {b | some a = some b} = insert a P := by
      ext b
      simp [eq_comm]
    rw [hset]
    exact h.relocate hloaded.inv (fun c hc => hslot.covers hc) hread hrun
      fun b hb => hP b hb a hloc

/-- Relocating the locations of an image, one after the other. -/
theorem MovedImage.rebase : ∀ {locs : List RebaseLocation} {P : Set U64} {m' : GuestMemory},
    MovedImage image bytes P s m m' → Loaded image bytes s m' →
    (∀ loc ∈ locs, LocInImage image bytes loc) →
    (locs.Pairwise fun loc loc' => ∀ b,
      locTarget (runtimeBases 0 image.segments) loc = some b → LocApart image loc' b) →
    (∀ loc ∈ locs, ∀ b ∈ P, LocApart image loc b) →
    Prog.forEach locs (Process.rebaseOne s (runtimeBases s image.segments)) m' = .ok () m₁' →
    Loaded image bytes s m₁' ∧
      MovedImage image bytes (P ∪ {a | ∃ loc ∈ locs,
        locTarget (runtimeBases 0 image.segments) loc = some a}) s m m₁'
  | [], P, m', h, hloaded, _, _, _, hrun => by
    obtain ⟨-, rfl⟩ := Outcome.ok.inj hrun
    simpa using ⟨hloaded, h⟩
  | loc :: locs, P, m', h, hloaded, hin, hpair, hP, hrun => by
    obtain ⟨⟨⟩, m₂, hone, hrun⟩ := Prog.bind_eq_ok.1 hrun
    obtain ⟨hhead, htail⟩ := List.pairwise_cons.1 hpair
    obtain ⟨hloaded₂, h₂⟩ := h.rebaseOne hloaded (hin loc List.mem_cons_self)
      (hP loc List.mem_cons_self) hone
    obtain ⟨hloaded₁, h₁⟩ := MovedImage.rebase h₂ hloaded₂
      (fun loc' hloc' => hin loc' (List.mem_cons_of_mem loc hloc')) htail
      (fun loc' hloc' b hb => hb.elim (hP loc' (List.mem_cons_of_mem loc hloc') b)
        (hhead loc' hloc' b)) hrun
    refine ⟨hloaded₁, ?_⟩
    convert h₁ using 1
    ext a
    simp only [Set.mem_union, Set.mem_ofPred_eq, List.mem_cons, exists_eq_or_imp, or_assoc]

/-- Relocating by zero changes nothing. -/
theorem Loaded.rebase_zero (h : Loaded image bytes 0 m) : ∀ {locs : List RebaseLocation},
    (∀ loc ∈ locs, LocInImage image bytes loc) →
      Prog.forEach locs (Process.rebaseOne 0 (runtimeBases 0 image.segments)) m = .ok () m
  | [], _ => rfl
  | loc :: locs, hin => by
    refine Prog.bind_eq_ok.2 ⟨(), m, ?_, h.rebase_zero fun loc' hloc' =>
      hin loc' (List.mem_cons_of_mem loc hloc')⟩
    rw [rebaseOne_apply]
    rcases hloc : locTarget (runtimeBases 0 image.segments) loc with _ | a
    · rfl
    · have hslot := hin loc List.mem_cons_self a hloc
      have hzero : ∀ x : U64, x + 0 = x := BitVec.add_zero
      have hgrants : ∀ {need}, Protection.rw.contains need = true → m.flat.Grants a 8 need :=
        fun hneed => hzero a ▸ h.grants hslot hneed
      obtain ⟨v, hread⟩ := h.inv.readU64_isOk (hgrants (by decide))
      simp only [hread]
      rw [hzero v]
      exact h.inv.writeU64_of_readU64 hread (hgrants (by decide))

/-! ## Binding -/

/-- The pointer of a record lies in the image, and in each slot of `P` or apart from it. -/
def RecFits (image : MachOImage) (bytes : List U8) (P : Set U64) (rec : BindRecord) : Prop :=
  ∀ a, target (runtimeBases 0 image.segments) rec = some a →
    SlotInImage image bytes a ∧ ∀ b ∈ P, b = a ∨ SlotsApart b a

/-- A record that lies in the image is stored. -/
theorem Loaded.bindOne {r r' : StubResolver} {rec : BindRecord}
    (h : Loaded image bytes t m)
    (hslot : ∀ a, target (runtimeBases 0 image.segments) rec = some a → SlotInImage image bytes a)
    (hrun : bindOne p (runtimeBases t image.segments) r rec m = .ok r' m') :
    (target (runtimeBases 0 image.segments) rec = none ∧ r' = r ∧ m' = m) ∨
      ∃ a stub, target (runtimeBases 0 image.segments) rec = some a ∧
        r.resolve p rec.symbol = .ok (stub, r') ∧
        writeU64 (a + t) (stub + rec.addend) m = .ok () m' := by
  rcases bindOne_cases hrun with ⟨hnone, hr, hm⟩ | ⟨a, stub, hat, hr, hw⟩
  · rw [target_runtimeBases, Option.map_eq_none_iff] at hnone
    exact Or.inl ⟨hnone, hr, hm⟩
  · rw [target_runtimeBases] at hat
    obtain ⟨b, hb, rfl⟩ := Option.map_eq_some_iff.1 hat
    refine Or.inr ⟨b, stub, hb, hr, ?_⟩
    rcases hw with hw | ⟨⟨e, herr⟩, -⟩
    · exact hw
    · have hwrite : Protection.rw.contains .write = true := by decide
      have hgrants := h.grants (hslot b hb) hwrite
      obtain ⟨m₁, hok⟩ := h.inv.write_isOk_iff.2
        (by rwa [length_toLeBytes64 (stub + rec.addend)])
      cases herr.symm.trans hok

/-- Binding a record in both memories. -/
theorem MovedImage.bindOne {P : Set U64} {r r₁ r₁' : StubResolver} {rec : BindRecord}
    (h : MovedImage image bytes P s m m') (hloaded : Loaded image bytes 0 m)
    (hloaded' : Loaded image bytes s m') (hrec : RecFits image bytes P rec)
    (hrun : Process.bindOne p (runtimeBases 0 image.segments) r rec m = .ok r₁ m₁)
    (hrun' : Process.bindOne p (runtimeBases s image.segments) r rec m' = .ok r₁' m₁') :
    r₁' = r₁ ∧ Loaded image bytes 0 m₁ ∧ Loaded image bytes s m₁' ∧
      MovedImage image bytes
        (P \ {a | target (runtimeBases 0 image.segments) rec = some a}) s m₁ m₁' := by
  rcases hloaded.bindOne (fun a ha => (hrec a ha).1) hrun with
    ⟨hnone, rfl, rfl⟩ | ⟨a, stub, hat, hr, hw⟩
  · rcases hloaded'.bindOne (fun a ha => (hrec a ha).1) hrun' with
      ⟨-, rfl, rfl⟩ | ⟨a, -, hat, -⟩
    · rw [hnone]
      simpa using ⟨hloaded, hloaded', h⟩
    · cases hnone.symm.trans hat
  · rcases hloaded'.bindOne (fun a ha => (hrec a ha).1) hrun' with
      ⟨hnone, -⟩ | ⟨a', stub', hat', hr', hw'⟩
    · cases hnone.symm.trans hat
    · obtain rfl := Option.some.inj (hat.symm.trans hat')
      obtain ⟨rfl, rfl⟩ := Prod.mk.inj (Except.ok.inj (hr.symm.trans hr'))
      refine ⟨rfl, hloaded.of_writeU64 hw, hloaded'.of_writeU64 hw', ?_⟩
      have hset : {b | target (runtimeBases 0 image.segments) rec = some b} = {a} :=
        Set.ext fun b => ⟨fun hb => (Option.some.inj (hat.symm.trans hb)).symm, fun hb => hb ▸ hat⟩
      rw [hset]
      have hw₀ : writeU64 a (stub + rec.addend) m = .ok () m₁ := by
        rwa [show a + 0 = a from BitVec.add_zero a] at hw
      exact h.store hloaded.inv hloaded'.inv hw₀ hw' (hrec a hat).2

/-- Binding the records of an image in both memories. -/
theorem MovedImage.bind : ∀ {recs : List BindRecord} {P : Set U64} {r : StubResolver}
    {m m' : GuestMemory} {r₁ r₁' : StubResolver},
    MovedImage image bytes P s m m' → Loaded image bytes 0 m → Loaded image bytes s m' →
    (∀ rec ∈ recs, RecFits image bytes P rec) →
    recs.foldlM (Process.bindOne p (runtimeBases 0 image.segments)) r m = .ok r₁ m₁ →
    recs.foldlM (Process.bindOne p (runtimeBases s image.segments)) r m' = .ok r₁' m₁' →
    r₁' = r₁ ∧ Loaded image bytes 0 m₁ ∧ Loaded image bytes s m₁' ∧
      MovedImage image bytes (P \ {a | ∃ rec ∈ recs,
        target (runtimeBases 0 image.segments) rec = some a}) s m₁ m₁'
  | [], P, r, m, m', r₁, r₁', h, hloaded, hloaded', _, hrun, hrun' => by
    obtain ⟨rfl, rfl⟩ := Outcome.ok.inj hrun
    obtain ⟨rfl, rfl⟩ := Outcome.ok.inj hrun'
    simpa using ⟨hloaded, hloaded', h⟩
  | rec :: recs, P, r, m, m', r₁, r₁', h, hloaded, hloaded', hrecs, hrun, hrun' => by
    obtain ⟨r₂, m₂, hone, hrun⟩ := Prog.foldlM_cons_eq_ok.1 hrun
    obtain ⟨r₂', m₂', hone', hrun'⟩ := Prog.foldlM_cons_eq_ok.1 hrun'
    obtain ⟨rfl, hloaded₂, hloaded₂', h₂⟩ :=
      h.bindOne hloaded hloaded' (hrecs rec List.mem_cons_self) hone hone'
    obtain ⟨hr, hloaded₁, hloaded₁', h₁⟩ := MovedImage.bind h₂ hloaded₂ hloaded₂'
      (fun rec' hrec' a ha => by
        obtain ⟨hslot, hP⟩ := hrecs rec' (List.mem_cons_of_mem rec hrec') a ha
        exact ⟨hslot, fun b hb => hP b hb.1⟩) hrun hrun'
    refine ⟨hr, hloaded₁, hloaded₁', ?_⟩
    convert h₁ using 1
    rw [Set.sdiff_sdiff]
    congr 1
    ext a
    simp only [Set.mem_union, Set.mem_ofPred_eq, List.mem_cons, exists_eq_or_imp]

/-! ## Images that can be relocated -/

/-- The double word that a location or a record names lies in its own segment. -/
def InOwnSegment (image : MachOImage) (bytes : List U8) (segIndex : U8) (segOffset : U64) : Prop :=
  ∀ seg, image.segments[segIndex.toNat]? = some seg → seg.name ≠ "__PAGEZERO" →
    segOffset.toNat + 8 ≤ (mappedSize bytes seg).toNat

/-- Where the pointer to an initialiser is, as the linker gave it. -/
def initAddr (slot : Section × ℕ) : U64 :=
  slot.1.addr + BitVec.ofNat 64 slot.2 * 8

/-- The pointers to relocate are apart, lie in their segments, and share no byte with the other
slots, unless they are the same slot; the other slots lie in their segments, too. -/
structure Relocatable (p : Profile) (image : MachOImage) (bytes : List U8) : Prop where
  locations : ∀ locs, RebaseLocations p image bytes locs →
    ∀ loc ∈ locs, InOwnSegment image bytes loc.segIndex loc.segOffset
  locations_apart : ∀ locs, RebaseLocations p image bytes locs → locs.Pairwise fun loc loc' =>
    ∀ a b, locTarget (runtimeBases 0 image.segments) loc = some a →
      locTarget (runtimeBases 0 image.segments) loc' = some b → SlotsApart a b
  records : ∀ recs, ImageRecords p image bytes recs →
    ∀ rec ∈ recs, InOwnSegment image bytes rec.segIndex rec.segOffset
  initialisers : ∀ seg ∈ image.segments, ∀ sect ∈ seg.sections, sect.isModInit = true →
    seg.name ≠ "__PAGEZERO" ∧ seg.vmaddr.toNat ≤ sect.addr.toNat ∧
      sect.addr.toNat + sect.size.toNat ≤ seg.vmaddr.toNat + (mappedSize bytes seg).toNat
  bind_or_apart : ∀ a b, RebaseSlot p image bytes a → BindSlot p image bytes b →
    a = b ∨ SlotsApart a b
  init_or_apart : ∀ a slot, RebaseSlot p image bytes a → slot ∈ initSlots image →
    a = initAddr slot ∨ SlotsApart a (initAddr slot)

/-- What lies in its own segment lies in the image, if no segment is replaced. -/
theorem InOwnSegment.slotInImage {i : U8} {off base : U64} (h : InOwnSegment image bytes i off)
    (hkept : Unreplaced bytes image.segments)
    (hbase : segBase (runtimeBases 0 image.segments) i = some base) :
    SlotInImage image bytes (base + off) := by
  unfold segBase runtimeBases at hbase
  rw [List.getElem?_map] at hbase
  rcases hseg : image.segments[i.toNat]? with _ | seg <;> rw [hseg] at hbase
  · cases hbase
  · dsimp only [Option.map_some, Option.join_some] at hbase
    split_ifs at hbase with hname
    obtain rfl : seg.vmaddr + 0 = base := Option.some.inj hbase
    rw [show seg.vmaddr + 0 = seg.vmaddr from BitVec.add_zero _]
    have hle := h seg hseg hname
    have hsize : mappedSize bytes seg ≠ 0 := by
      intro hzero
      rw [hzero] at hle
      exact absurd hle (by simp)
    refine ⟨seg, hkept.lastAt_eq hname hsize (List.mem_of_getElem? hseg), ?_⟩
    rwa [BitVec.add_comm, BitVec.add_sub_cancel]

theorem Relocatable.locInImage (h : Relocatable p image bytes)
    (hkept : Unreplaced bytes image.segments) {locs : List RebaseLocation}
    (hlocs : RebaseLocations p image bytes locs) {loc : RebaseLocation} (hloc : loc ∈ locs) :
    LocInImage image bytes loc := by
  intro a ha
  unfold locTarget at ha
  split_ifs at ha
  obtain ⟨base, hbase, rfl⟩ := Option.map_eq_some_iff.1 ha
  exact (h.locations locs hlocs loc hloc).slotInImage hkept hbase

theorem Relocatable.slotInImage_of_rebase (h : Relocatable p image bytes)
    (hkept : Unreplaced bytes image.segments) (ha : RebaseSlot p image bytes a) :
    SlotInImage image bytes a := by
  obtain ⟨locs, hlocs, loc, hloc, ha⟩ := ha
  exact h.locInImage hkept hlocs hloc a ha

theorem Relocatable.recFits (h : Relocatable p image bytes)
    (hkept : Unreplaced bytes image.segments) {recs : List BindRecord}
    (hrecs : ImageRecords p image bytes recs) {rec : BindRecord} (hrec : rec ∈ recs) :
    RecFits image bytes {a | RebaseSlot p image bytes a} rec := by
  intro a ha
  refine ⟨?_, fun b hb => h.bind_or_apart b a hb ⟨recs, hrecs, rec, hrec, ha⟩⟩
  obtain ⟨base, hbase, rfl⟩ := Option.map_eq_some_iff.1 ha
  exact (h.records recs hrecs rec hrec).slotInImage hkept hbase

end Process

/-! ## Both builds -/

open Process GuestMemory

section Builds

variable {b : Build} {image : MachOImage} {bytes : List U8} {cfg : LayoutConfig} {s : U64}
  {m₀ m m' : GuestMemory} {proc proc' : ProcessImage}

/-- Mapped at either place, the image holds the same bytes. -/
theorem moved_mapped (hinv : m₀.Inv) (s₀ : Stages b image bytes { cfg with slide := 0 } m₀ proc m)
    (s₁ : Stages b image bytes { cfg with slide := s } m₀ proc' m') :
    Loaded image bytes 0 s₀.mapped ∧ Loaded image bytes s s₁.mapped ∧
      MovedImage image bytes ∅ s s₀.mapped s₁.mapped := by
  obtain ⟨hloaded, hfile⟩ := loaded_of_mapSegments hinv s₀.map_eq
  obtain ⟨hloaded', hfile'⟩ := loaded_of_mapSegments hinv s₁.map_eq
  refine ⟨hloaded, hloaded', fun a ha _ => ?_, fun b hb => hb.elim⟩
  obtain ⟨seg, hlast, ha⟩ := ha
  have hbyte := hfile seg hlast a ha
  rw [show a + 0 = a from BitVec.add_zero a] at hbyte
  rw [hfile' seg hlast a ha, hbyte]

/-- Without a slide nothing is relocated. -/
theorem Stages.rebased_eq {cfg : LayoutConfig} (s : Stages b image bytes cfg m₀ proc m)
    (hslide : cfg.slide = 0) : s.rebased = s.mapped := by
  obtain ⟨locs, hlocs, hrun⟩ := rebase_eq_ok.1 s.rebase_eq
  rw [ImageLocations, if_pos hslide] at hlocs
  rw [hlocs] at hrun
  exact (Outcome.ok.inj hrun).2.symm

/-- When one of the builds has relocated the image, its pointers are larger by the slide. -/
theorem moved_rebased (hinv : m₀.Inv) (himage : Relocatable b.profile image bytes)
    (hkept : Unreplaced bytes image.segments)
    (s₀ : Stages b image bytes { cfg with slide := 0 } m₀ proc m)
    (s₁ : Stages b image bytes { cfg with slide := s } m₀ proc' m') :
    Loaded image bytes 0 s₀.rebased ∧ Loaded image bytes s s₁.rebased ∧
      MovedImage image bytes {a | RebaseSlot b.profile image bytes a} s s₀.rebased s₁.rebased := by
  obtain ⟨hloaded, hloaded', hmoved⟩ := moved_mapped hinv s₀ s₁
  rw [s₀.rebased_eq rfl]
  by_cases hs : s = 0
  · subst hs
    rw [s₁.rebased_eq rfl]
    refine ⟨hloaded, hloaded', hmoved.of_zero fun a ha => ?_⟩
    have hslot := himage.slotInImage_of_rebase hkept ha
    have hread : Protection.rw.contains .read = true := by decide
    have hgrants := hloaded.grants hslot hread
    rw [show a + 0 = a from BitVec.add_zero a] at hgrants
    obtain ⟨v, hv⟩ := hloaded.inv.readU64_isOk hgrants
    exact ⟨fun c hc => hslot.covers hc, v, (hloaded.inv.readU64_eq_ok_iff.1 hv).2⟩
  · obtain ⟨locs, hlocs, hrun⟩ := rebase_eq_ok.1 s₁.rebase_eq
    have hlocs := (imageLocations_of_ne hs).1 hlocs
    rw [s₁.segRuntime_eq] at hrun
    obtain ⟨hloaded₁, hmoved₁⟩ := hmoved.rebase hloaded'
      (fun loc hloc => himage.locInImage hkept hlocs hloc)
      ((himage.locations_apart locs hlocs).imp fun h a ha b hb => h a b ha hb)
      (fun loc _ a ha => ha.elim) hrun
    refine ⟨hloaded, hloaded₁, ?_⟩
    convert hmoved₁ using 1
    ext a
    rw [Set.empty_union]
    refine ⟨fun ⟨locs', hlocs', loc, hloc, ha⟩ => ⟨loc, ?_, ha⟩, fun ⟨loc, hloc, ha⟩ =>
      ⟨locs, hlocs, loc, hloc, ha⟩⟩
    rwa [hlocs.unique hlocs']

/-- When the imports are bound, the pointers that are not bound are larger by the slide, and
the trampolines are the same. -/
theorem moved_bound (hinv : m₀.Inv) (himage : Relocatable b.profile image bytes)
    (hkept : Unreplaced bytes image.segments)
    (s₀ : Stages b image bytes { cfg with slide := 0 } m₀ proc m)
    (s₁ : Stages b image bytes { cfg with slide := s } m₀ proc' m') :
    s₁.resolver = s₀.resolver ∧ Loaded image bytes 0 s₀.bound ∧ Loaded image bytes s s₁.bound ∧
      MovedImage image bytes {a | RebaseSlot b.profile image bytes a ∧
        ¬BindSlot b.profile image bytes a} s s₀.bound s₁.bound := by
  obtain ⟨hloaded, hloaded', hmoved⟩ := moved_rebased hinv himage hkept s₀ s₁
  obtain ⟨recs, hrecs, hrun⟩ := bindImports_eq_ok.1 s₀.bind_eq
  obtain ⟨recs', hrecs', hrun'⟩ := bindImports_eq_ok.1 s₁.bind_eq
  obtain rfl := hrecs.unique hrecs'
  rw [s₀.segRuntime_eq] at hrun
  rw [s₁.segRuntime_eq] at hrun'
  obtain ⟨hr, hloaded₁, hloaded₁', hmoved₁⟩ := hmoved.bind hloaded hloaded'
    (fun rec hrec => himage.recFits hkept hrecs hrec) hrun hrun'
  refine ⟨hr, hloaded₁, hloaded₁', ?_⟩
  convert hmoved₁ using 1
  ext a
  refine and_congr_right fun _ => not_congr ?_
  refine ⟨fun ⟨recs', hrecs', rec, hrec, ha⟩ => ⟨rec, ?_, ha⟩, fun ⟨rec, hrec, ha⟩ =>
    ⟨recs, hrecs, rec, hrec, ha⟩⟩
  rwa [hrecs.unique hrecs']

end Builds

end IosEmu
