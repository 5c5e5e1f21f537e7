import IosEmu.StubPage
import Mathlib.Order.Interval.Set.Defs

/-!
# The mapped segments

Where the segments of an image are when a build has mapped them, and what the later stages
leave of them. A segment keeps its region unless a later one is mapped at the same address,
which happens only if one of the two is empty (`lastAt`). Relocation and binding store in
the slots of their records and move no region (`Patches`), and what comes after only adds
regions, if the arguments of the process fit into its stack (`StackFits`).
-/

open SysLib

namespace IosEmu

open GuestMemory

namespace Process

variable {p : Profile} {bytes : List U8} {slide : U64} {m m' : GuestMemory}

/-! ## Mapping -/

/-- The last segment that is mapped at an address. -/
def lastAt (a : U64) : List Segment → Option Segment
  | [] => none
  | seg :: segs =>
    (lastAt a segs).or (if seg.name ≠ "__PAGEZERO" ∧ seg.vmaddr = a then some seg else none)

theorem lastAt_eq_some {a : U64} {seg : Segment} :
    ∀ {segs : List Segment}, lastAt a segs = some seg →
      seg ∈ segs ∧ seg.name ≠ "__PAGEZERO" ∧ seg.vmaddr = a
  | s :: segs, h => by
    rcases Option.or_eq_some_iff.1 h with h | ⟨-, h⟩
    · obtain ⟨hmem, h⟩ := lastAt_eq_some h
      exact ⟨List.mem_cons_of_mem _ hmem, h⟩
    · split_ifs at h with hs
      obtain rfl := Option.some.inj h
      exact ⟨List.mem_cons_self, hs⟩

theorem lastAt_eq_none_iff {a : U64} :
    ∀ {segs : List Segment}, lastAt a segs = none ↔
      ∀ seg ∈ segs, seg.name ≠ "__PAGEZERO" → seg.vmaddr ≠ a
  | [] => by simp [lastAt]
  | s :: segs => by
    rw [lastAt, Option.or_eq_none_iff, lastAt_eq_none_iff]
    simp only [List.forall_mem_cons, ite_eq_right_iff, reduceCtorEq, imp_false, not_and]
    exact and_comm

/-- The region that a segment is mapped as. -/
structure IsRegionOf (bytes : List U8) (slide : U64) (seg : Segment) (r : Region) : Prop where
  base_eq : r.base = seg.vmaddr + slide
  prot_eq : r.prot = .rw
  kind_eq : r.kind = .segment
  size_eq : r.data.size = (mappedSize bytes seg).toNat
  get?_eq : ∀ i < (mappedSize bytes seg).toNat,
    r.data.get? i = some ((fileData bytes seg).getD i 0)

/-- The guard at address zero is passed over; any other segment is put into a free span. -/
theorem mapSegment_cases {seg : Segment} {base? : Option U64}
    (h : mapSegment p bytes slide seg m = .ok base? m') :
    (seg.name = "__PAGEZERO" ∧ base? = none ∧ m' = m) ∨
      (seg.name ≠ "__PAGEZERO" ∧ base? = some (seg.vmaddr + slide) ∧ DataFits p bytes seg ∧
        m.checkFree (seg.vmaddr + slide) (mappedSize bytes seg) = .ok () ∧
        (fileData bytes seg).length ≤ (mappedSize bytes seg).toNat ∧
        ∃ r, IsRegionOf bytes slide seg r ∧
          m' = { m with regions := m.regions.insert (seg.vmaddr + slide) r }) := by
  unfold mapSegment at h
  split_ifs at h with hname
  · obtain ⟨rfl, rfl⟩ : none = base? ∧ m = m' := by simpa using h
    exact Or.inl ⟨hname, rfl, rfl⟩
  · obtain ⟨base, hbase, h⟩ := Prog.ofChecked_bind_eq_ok.1 h
    obtain ⟨data, hdata, h⟩ := Prog.ofChecked_bind_eq_ok.1 h
    obtain ⟨⟨⟩, m₁, hmap, h⟩ := Prog.bind_eq_ok.1 h
    obtain ⟨rfl, rfl⟩ : some base = base? ∧ m₁ = m' := by simpa using h
    obtain rfl := Profile.add_eq_ok hbase
    obtain ⟨hfits, rfl⟩ := segmentData_eq_ok.1 hdata
    obtain ⟨s, hs, hfree, hlen, hcap, rfl⟩ := mapWithData_eq_ok.1 hmap
    obtain rfl : s = mappedSize bytes seg := alignUp_eq_ok hs
    exact Or.inr ⟨hname, rfl, hfits, hfree, hlen, _,
      ⟨rfl, rfl, rfl, rfl, fun i hi => Buffer.get?_ofPrefix hi⟩, rfl⟩

/-- Segments are mapped one after the other. -/
theorem mapSegments_append {segs₂ : List Segment} :
    ∀ {segs₁ : List Segment} {m m' : GuestMemory} {bases : List (Option U64)},
      mapSegments p bytes slide (segs₁ ++ segs₂) m = .ok bases m' →
      ∃ bases₁ bases₂ m₁, mapSegments p bytes slide segs₁ m = .ok bases₁ m₁ ∧
        mapSegments p bytes slide segs₂ m₁ = .ok bases₂ m'
  | [], m, m', bases, h => ⟨[], bases, m, rfl, h⟩
  | seg :: segs₁, m, m', bases, h => by
    obtain ⟨base?, m₁, hseg, h⟩ := Prog.bind_eq_ok.1 h
    obtain ⟨rest, m₂, hrest, h⟩ := Prog.bind_eq_ok.1 h
    obtain rfl : m₂ = m' := (by simpa using h : base? :: rest = bases ∧ m₂ = m').2
    obtain ⟨bases₁, bases₂, m₃, h₁, h₂⟩ := mapSegments_append hrest
    exact ⟨base? :: bases₁, bases₂, m₃,
      Prog.bind_eq_ok.2 ⟨_, _, hseg, Prog.bind_eq_ok.2 ⟨_, _, h₁, rfl⟩⟩, h₂⟩

/-- When the segments are mapped, the last one at an address has its region there, and a
region where none is mapped is the one of before. -/
theorem get?_mapSegments :
    ∀ {segs : List Segment} {m m' : GuestMemory} {bases : List (Option U64)},
      mapSegments p bytes slide segs m = .ok bases m' → ∀ a,
        (∀ seg, lastAt a segs = some seg →
          ∃ r, m'.regions.get? (a + slide) = some r ∧ IsRegionOf bytes slide seg r) ∧
        (lastAt a segs = none → m'.regions.get? (a + slide) = m.regions.get? (a + slide))
  | [], m, m', bases, h, a => by
    obtain ⟨-, rfl⟩ : [] = bases ∧ m = m' := by simpa [mapSegments] using h
    exact ⟨fun _ hseg => (by cases hseg), fun _ => rfl⟩
  | s :: segs, m, m', bases, h, a => by
    obtain ⟨base?, m₁, hseg, h⟩ := Prog.bind_eq_ok.1 h
    obtain ⟨rest, m₂, hrest, h⟩ := Prog.bind_eq_ok.1 h
    obtain rfl : m₂ = m' := (by simpa using h : base? :: rest = bases ∧ m₂ = m').2
    obtain ⟨hlast, hnone⟩ := get?_mapSegments hrest a
    rw [lastAt]
    rcases hl : lastAt a segs with _ | seg
    · rw [hnone hl, Option.none_or]
      rcases mapSegment_cases hseg with ⟨hname, -, rfl⟩ | ⟨hname, -, -, -, -, r, hr, rfl⟩
      · simp [hname]
      · by_cases ha : s.vmaddr = a
        · subst ha
          rw [if_pos ⟨hname, rfl⟩, SortedMap.get?_insert_self]
          exact ⟨fun seg hs => ⟨r, rfl, Option.some.inj hs ▸ hr⟩, fun h => by cases h⟩
        · rw [if_neg fun h => ha h.2, SortedMap.get?_insert_of_ne _ _ fun hk =>
            ha ((BitVec.add_left_inj slide).1 hk).symm]
          exact ⟨fun seg hs => (by cases hs), fun _ => rfl⟩
    · rw [Option.some_or]
      exact ⟨fun seg' hs => hlast seg' (hl.trans hs), fun h => by cases h⟩

/-- Segments that are not empty keep their regions apart : no later one is mapped at the
address of an earlier one. -/
def Unreplaced (bytes : List U8) (segs : List Segment) : Prop :=
  segs.Pairwise fun a b => a.name ≠ "__PAGEZERO" → b.name ≠ "__PAGEZERO" →
    mappedSize bytes a ≠ 0 → a.vmaddr ≠ b.vmaddr

instance decidableUnreplaced (bytes : List U8) (segs : List Segment) :
    Decidable (Unreplaced bytes segs) :=
  inferInstanceAs (Decidable (List.Pairwise _ _))

theorem Unreplaced.lastAt_eq {seg : Segment} (hname : seg.name ≠ "__PAGEZERO")
    (hsize : mappedSize bytes seg ≠ 0) :
    ∀ {segs : List Segment}, Unreplaced bytes segs → seg ∈ segs →
      lastAt seg.vmaddr segs = some seg
  | s :: segs, h, hseg => by
    obtain ⟨hhead, htail⟩ := List.pairwise_cons.1 h
    rw [lastAt]
    rcases List.mem_cons.1 hseg with rfl | hseg
    · rw [lastAt_eq_none_iff.2 fun s' hs' hname' => (hhead s' hs' hname hname' hsize).symm,
        Option.none_or, if_pos ⟨hname, rfl⟩]
    · rw [lastAt_eq hname hsize htail hseg, Option.some_or]

/-- Segments that are not empty are not mapped at the base of a region that is not. -/
theorem ne_vmaddr_of_mapSegments {a : U64} {r : Region} (hpos : 0 < r.data.size) :
    ∀ {segs : List Segment} {m m' : GuestMemory} {bases : List (Option U64)}, m.Inv →
      m.regions.get? (a + slide) = some r → mapSegments p bytes slide segs m = .ok bases m' →
      (∀ seg ∈ segs, seg.name ≠ "__PAGEZERO" → mappedSize bytes seg ≠ 0) →
      ∀ seg ∈ segs, seg.name ≠ "__PAGEZERO" → a ≠ seg.vmaddr
  | [], _, _, _, _, _, _, _ => fun _ hseg => by cases hseg
  | s :: segs, m, m', bases, hinv, hr, h, hsize => by
    obtain ⟨base?, m₁, hs, h⟩ := Prog.bind_eq_ok.1 h
    obtain ⟨rest, m₂, hrest, -⟩ := Prog.bind_eq_ok.1 h
    have hinv₁ : m₁.Inv := (keepsInv_mapSegments p bytes slide [s]).ok
      (Prog.bind_eq_ok.2 ⟨base?, m₁, hs, rfl⟩) hinv
    have hsize' := fun seg hseg => hsize seg (List.mem_cons_of_mem s hseg)
    rcases mapSegment_cases hs with ⟨hzero, -, rfl⟩ | ⟨hname, -, -, hfree, -, r', -, rfl⟩
    · refine List.forall_mem_cons.2 ⟨fun hname => absurd hzero hname, ?_⟩
      exact ne_vmaddr_of_mapSegments hpos hinv hr hrest hsize'
    · have hne : a ≠ s.vmaddr := by
        rintro rfl
        obtain ⟨-, hempty, -⟩ := (hinv.checkFree_at_base hr).1 hfree
        rcases hempty with hempty | hempty
        · exact hsize s List.mem_cons_self hname hempty
        · exact absurd hempty (Nat.ne_of_gt hpos)
      refine List.forall_mem_cons.2 ⟨fun _ => hne, ?_⟩
      refine ne_vmaddr_of_mapSegments hpos hinv₁ ?_ hrest hsize'
      rwa [SortedMap.get?_insert_of_ne _ _ fun hk => hne ((BitVec.add_left_inj slide).1 hk)]

/-- Segments that are mapped and not empty keep their regions apart. -/
theorem unreplaced_of_mapSegments :
    ∀ {segs : List Segment} {m m' : GuestMemory} {bases : List (Option U64)}, m.Inv →
      mapSegments p bytes slide segs m = .ok bases m' →
      (∀ seg ∈ segs, seg.name ≠ "__PAGEZERO" → mappedSize bytes seg ≠ 0) →
      Unreplaced bytes segs
  | [], _, _, _, _, _, _ => List.Pairwise.nil
  | s :: segs, m, m', bases, hinv, h, hsize => by
    obtain ⟨base?, m₁, hs, h⟩ := Prog.bind_eq_ok.1 h
    obtain ⟨rest, m₂, hrest, -⟩ := Prog.bind_eq_ok.1 h
    have hinv₁ : m₁.Inv := (keepsInv_mapSegments p bytes slide [s]).ok
      (Prog.bind_eq_ok.2 ⟨base?, m₁, hs, rfl⟩) hinv
    have hsize' := fun seg hseg => hsize seg (List.mem_cons_of_mem s hseg)
    refine List.pairwise_cons.2 ⟨fun seg hseg hname hname' hne => ?_,
      unreplaced_of_mapSegments hinv₁ hrest hsize'⟩
    rcases mapSegment_cases hs with ⟨hzero, -, -⟩ | ⟨-, -, -, -, -, r, hreg, rfl⟩
    · exact absurd hzero hname
    · have hpos : 0 < r.data.size := by
        rw [hreg.size_eq]
        exact Nat.pos_of_ne_zero fun hzero => hne (BitVec.eq_of_toNat_eq hzero)
      exact ne_vmaddr_of_mapSegments hpos hinv₁ (SortedMap.get?_insert_self _ _ _) hrest hsize' seg
        hseg hname'

end Process

/-! ## Storing in slots -/

namespace GuestMemory

/-- No region moves, and only bytes of `S` change. -/
def Patches (S : Set ℕ) (m m' : GuestMemory) : Prop :=
  m.Inv → m'.Inv ∧ m'.flat.layout = m.flat.layout ∧ ∀ x ∉ S, m'.flat.byte x = m.flat.byte x

instance patchesPreorder (S : Set ℕ) : IsPreorder GuestMemory (Patches S) where
  refl _ h := ⟨h, rfl, fun _ _ => rfl⟩
  trans _ _ _ h₁ h₂ h := by
    obtain ⟨hinv₁, hlay₁, hbyte₁⟩ := h₁ h
    obtain ⟨hinv₂, hlay₂, hbyte₂⟩ := h₂ hinv₁
    exact ⟨hinv₂, hlay₂.trans hlay₁, fun x hx => (hbyte₂ x hx).trans (hbyte₁ x hx)⟩

/-- The addresses of a double word. -/
def slotBytes (a : U64) : Set ℕ :=
  Set.Ico a.toNat (a.toNat + 8)

theorem patches_writeU64 {S : Set ℕ} {a : U64} (h : slotBytes a ⊆ S) (v : U64) :
    (writeU64 a v).Steps (Patches S) := by
  refine (write_failsClean _ _).steps (refl_of (Patches S)) fun m u m' hw hinv => ?_
  have hflat := (hinv.flat_of_write hw).1
  refine ⟨hinv.of_write hw, by rw [hflat]; rfl, fun x hx => ?_⟩
  rw [hflat]
  refine if_neg fun hin => hx (h ?_)
  rwa [length_toLeBytes64] at hin

end GuestMemory

namespace Process

variable {p : Profile} {image : MachOImage} {bytes : List U8} {slide : U64}
  {bases : List (Option U64)} {m m' : GuestMemory} {S : Set ℕ}

/-- Where a location is relocated. -/
def locTarget (bases : List (Option U64)) (loc : RebaseLocation) : Option U64 :=
  if loc.rtype = 1 then (segBase bases loc.segIndex).map fun base => base + loc.segOffset
  else none

/-- A location without an address is passed over; at an address the slide is added to the
pointer there, if it can be read. -/
theorem rebaseOne_apply (loc : RebaseLocation) :
    rebaseOne slide bases loc m =
      match locTarget bases loc with
      | none => .ok () m
      | some a =>
        match m.readU64 a with
        | .ok v => writeU64 a (v + slide) m
        | .error _ => .ok () m := by
  unfold rebaseOne locTarget
  by_cases htype : loc.rtype = 1
  · simp only [htype, ne_eq, not_true_eq_false, if_false, if_true]
    rcases segBase bases loc.segIndex with _ | base
    · rfl
    · dsimp only [Option.map_some, Prog.get_bind]
      rcases m.readU64 (base + loc.segOffset) with e | v <;> rfl
  · rw [if_pos htype, if_neg htype]
    rfl

theorem patches_rebaseOne {loc : RebaseLocation}
    (h : ∀ a, locTarget bases loc = some a → slotBytes a ⊆ S) :
    (rebaseOne slide bases loc).Steps (Patches S) := by
  intro m m' hrun
  rw [rebaseOne_apply] at hrun
  rcases hloc : locTarget bases loc with _ | a <;> simp only [hloc] at hrun
  · obtain rfl := Option.some.inj hrun
    exact refl_of (Patches S) m
  · rcases hread : m.readU64 a with e | v <;> simp only [hread] at hrun
    · obtain rfl := Option.some.inj hrun
      exact refl_of (Patches S) m
    · exact patches_writeU64 (h a hloc) _ m m' hrun

theorem patches_bindOne {rec : BindRecord} (h : ∀ a, target bases rec = some a → slotBytes a ⊆ S)
    (r : StubResolver) : (bindOne p bases r rec).Steps (Patches S) := by
  unfold bindOne
  rcases hseg : segBase bases rec.segIndex with _ | base
  · exact Prog.steps_pure _
  · have htarget : target bases rec = some (base + rec.segOffset) := by
      rw [target, hseg, Option.map_some]
    exact (Prog.steps_ofChecked _).bind fun q => (Prog.steps_ofChecked _).bind fun _ =>
      (patches_writeU64 (h _ htarget) _).attempt.bind fun _ => Prog.steps_pure _

/-- The addresses in the slots of the locations and the records of an image. -/
def touched (p : Profile) (image : MachOImage) (bytes : List U8) (slide : U64) : Set ℕ :=
  {x | (∃ locs, ImageLocations p image bytes slide locs ∧ ∃ loc ∈ locs, ∃ a,
      locTarget (runtimeBases slide image.segments) loc = some a ∧ x ∈ slotBytes a) ∨
    ∃ recs, ImageRecords p image bytes recs ∧ ∃ rec ∈ recs, ∃ a,
      target (runtimeBases slide image.segments) rec = some a ∧ x ∈ slotBytes a}

/-- Relocation stores in the slots of its locations. -/
theorem patches_of_rebase
    (h : rebase p image bytes slide (runtimeBases slide image.segments) m = .ok () m') :
    Patches (touched p image bytes slide) m m' := by
  obtain ⟨locs, hlocs, hrun⟩ := rebase_eq_ok.1 h
  refine (Prog.Steps.forEach fun loc hloc => ?_).ok hrun
  exact patches_rebaseOne fun a ha x hx => Or.inl ⟨locs, hlocs, loc, hloc, a, ha, hx⟩

/-- Binding stores in the slots of its records. -/
theorem patches_of_bindImports {r r' : StubResolver}
    (h : bindImports p image bytes (runtimeBases slide image.segments) r m = .ok r' m') :
    Patches (touched p image bytes slide) m m' := by
  obtain ⟨recs, hrecs, hrun⟩ := bindImports_eq_ok.1 h
  refine (Prog.Steps.foldlM fun r rec hrec => ?_).ok hrun
  exact patches_bindOne (fun a ha x hx => Or.inr ⟨recs, hrecs, rec, hrec, a, ha, hx⟩) r

end Process

/-! ## Protections -/

namespace GuestMemory

variable {m m' : GuestMemory}

/-- A region that holds the base of a region is that region. -/
theorem Inv.eq_of_regionBase (h : m.Inv) {a k : U64} {r : Region}
    (hr : m.regions.get? a = some r) (hb : m.regionBase a = .ok k) : k = a := by
  obtain ⟨r', hr', hle, hlt⟩ := (regionBase_eq_ok m h a k).1 hb
  rw [h.base_eq k r' hr'] at hle hlt
  rcases lt_or_eq_of_le hle with hka | hka
  · have hend := h.end_le hr' hr hka
    omega
  · exact hka

/-- Protecting the base of a region sets its protection. A region that is found is not empty. -/
theorem Inv.regions_protect (h : m.Inv) {target : Target} {a : U64} {prot : Protection}
    {r : Region} (hr : m.regions.get? a = some r) (hrun : protect target a prot m = .ok () m') :
    0 < r.data.size ∧ m' = { m with regions := m.regions.insert a { r with prot } } := by
  obtain ⟨k, hk, hrun⟩ := Prog.ofResult_bind_eq_ok.1 hrun
  obtain ⟨r', hr', hrun⟩ := Prog.ofChecked_bind_eq_ok.1 hrun
  obtain rfl := h.eq_of_regionBase hr hk
  obtain rfl := Option.some.inj ((unwrapRegion_eq_ok.1 hr').symm.trans hr)
  obtain ⟨r'', hr'', -, hlt⟩ := (regionBase_eq_ok m h _ _).1 hk
  obtain rfl := Option.some.inj (hr''.symm.trans hr)
  rw [h.base_eq k r'' hr] at hlt
  refine ⟨by omega, ?_⟩
  rw [Prog.modify_bind] at hrun
  rcases target with _ | nativeProtect
  · exact (Outcome.ok.inj hrun).2.symm
  · dsimp only at hrun
    split_ifs at hrun
    · cases hrun
    · exact (Outcome.ok.inj hrun).2.symm

end GuestMemory

namespace Process

/-- When the protections are restored, the last segment at an address has its own protection,
and a region where there is none is the one of before. -/
theorem get?_restoreProtections {target : Target} {slide : U64} :
    ∀ {segs : List Segment} {m m' : GuestMemory}, m.Inv →
      (∀ seg ∈ segs, seg.name ≠ "__PAGEZERO" →
        ∃ r, m.regions.get? (seg.vmaddr + slide) = some r) →
      Prog.forEach (segs.zip (runtimeBases slide segs)) (fun (seg, base?) =>
        match base? with
        | some base => protect target base (runProt seg)
        | none => pure ()) m = .ok () m' →
      m'.Inv ∧ ∀ a,
        (∀ seg, lastAt a segs = some seg → ∃ r, m.regions.get? (a + slide) = some r ∧
          0 < r.data.size ∧ m'.regions.get? (a + slide) = some { r with prot := runProt seg }) ∧
        (lastAt a segs = none → m'.regions.get? (a + slide) = m.regions.get? (a + slide))
  | [], m, m', hinv, _, h => by
    obtain ⟨-, rfl⟩ := Outcome.ok.inj h
    exact ⟨hinv, fun a => ⟨fun _ hseg => (by cases hseg), fun _ => rfl⟩⟩
  | seg :: segs, m, m', hinv, hmapped, h => by
    rw [runtimeBases, List.map_cons, List.zip_cons_cons, Prog.forEach_cons] at h
    obtain ⟨⟨⟩, m₁, hseg, h⟩ := Prog.bind_eq_ok.1 h
    have htail := fun s hs => hmapped s (List.mem_cons_of_mem _ hs)
    by_cases hname : seg.name = "__PAGEZERO"
    · rw [if_pos hname] at hseg
      obtain ⟨-, rfl⟩ := Outcome.ok.inj hseg
      obtain ⟨hinv', hlast⟩ := get?_restoreProtections hinv htail h
      refine ⟨hinv', fun a => ?_⟩
      rw [lastAt, if_neg fun h => h.1 hname, Option.or_none]
      exact hlast a
    · rw [if_neg hname] at hseg
      obtain ⟨r, hr⟩ := hmapped seg List.mem_cons_self hname
      obtain ⟨hpos, rfl⟩ := hinv.regions_protect hr hseg
      obtain ⟨hinv', hlast⟩ := get?_restoreProtections (hinv.change (.setProt _ r _ hr))
        (fun s hs hname' => by
          obtain ⟨r', hr'⟩ := htail s hs hname'
          dsimp only
          rw [SortedMap.get?_insert]
          split_ifs
          · exact ⟨_, rfl⟩
          · exact ⟨r', hr'⟩) h
      dsimp only at hlast
      refine ⟨hinv', fun a => ?_⟩
      obtain ⟨hsome, hnone⟩ := hlast a
      rw [lastAt]
      rcases hl : lastAt a segs with _ | seg'
      · rw [hnone hl, Option.none_or, SortedMap.get?_insert]
        by_cases ha : seg.vmaddr = a
        · subst ha
          rw [if_pos ⟨hname, rfl⟩, if_pos rfl]
          refine ⟨fun seg' hseg' => ?_, fun hno => by cases hno⟩
          obtain rfl := Option.some.inj hseg'
          exact ⟨r, hr, hpos, rfl⟩
        · rw [if_neg fun h => ha h.2, if_neg fun hk => ha ((BitVec.add_left_inj slide).1 hk).symm]
          exact ⟨fun seg' hseg' => (by cases hseg'), fun _ => rfl⟩
      · rw [Option.some_or]
        refine ⟨fun seg'' hseg'' => ?_, fun hno => by cases hno⟩
        obtain ⟨r', hr', hpos', hget'⟩ := hsome seg'' (hl.trans hseg'')
        -- The region may have been given another protection by an earlier segment.
        rw [SortedMap.get?_insert] at hr'
        split_ifs at hr' with hk
        · obtain rfl := Option.some.inj hr'
          exact ⟨r, hk ▸ hr, hpos, hget'⟩
        · exact ⟨r', hr', hpos', hget'⟩

end Process

/-! ## The segments of a build -/

open Process

section Stages

variable {b : Build} {image : MachOImage} {bytes : List U8} {cfg : LayoutConfig}
  {m m' : GuestMemory} {p : ProcessImage}

theorem Stages.inv_mapped (s : Stages b image bytes cfg m p m') (hinv : m.Inv) : s.mapped.Inv :=
  (keepsInv_mapSegments _ _ _ _).ok s.map_eq hinv

/-- Between mapping and the page of trampolines only slots change. -/
theorem Stages.patches (s : Stages b image bytes cfg m p m') :
    Patches (touched b.profile image bytes cfg.slide) s.mapped s.bound := by
  have hrebase := s.rebase_eq
  have hbind := s.bind_eq
  rw [s.segRuntime_eq] at hrebase hbind
  exact trans_of (Patches _) (patches_of_rebase hrebase) (patches_of_bindImports hbind)

/-- What is mapped when the imports are bound keeps its bytes, if the arguments fit into the
stack. -/
theorem Stages.keepsBytes_of_fits (s : Stages b image bytes cfg m p m') (hfits : StackFits cfg)
    (hinv : m.Inv) : m'.Inv ∧ KeepsBytes s.bound m' := by
  have hbound := (s.patches (s.inv_mapped hinv)).1
  obtain ⟨hinv₁, hkeep₁⟩ := publishStubs_keepsBytes hbound s.publish_eq
  obtain ⟨hinv₂, hkeep₂⟩ := restoreProtections_keeps hinv₁ s.restore_eq
  obtain ⟨hinv₃, hkeep₃⟩ := initStack_keeps hinv₂ hfits s.stack_eq
  exact ⟨hinv₃, hkeep₁.trans (hkeep₂.trans hkeep₃)⟩

/-- Before anything is published, a byte of a segment that is not in a slot is the one of the
file, and zero after them. -/
theorem Stages.byte_bound (s : Stages b image bytes cfg m p m') (hinv : m.Inv) {seg : Segment}
    (hseg : lastAt seg.vmaddr image.segments = some seg) {i : ℕ}
    (hi : i < (mappedSize bytes seg).toNat)
    (hfree : (seg.vmaddr + cfg.slide).toNat + i ∉ touched b.profile image bytes cfg.slide) :
    s.bound.flat.byte ((seg.vmaddr + cfg.slide).toNat + i) =
      some ((fileData bytes seg).getD i 0) := by
  obtain ⟨r, hr, hreg⟩ := (get?_mapSegments s.map_eq seg.vmaddr).1 seg hseg
  rw [(s.patches (s.inv_mapped hinv)).2.2 _ hfree,
    (s.inv_mapped hinv).byte_flat hr (Nat.le_add_right _ _) (by rw [hreg.size_eq]; omega),
    Nat.add_sub_cancel_left, hreg.get?_eq i hi]

/-- It is that after the build, too. -/
theorem Stages.byte_segment (s : Stages b image bytes cfg m p m') (hfits : StackFits cfg)
    (hinv : m.Inv) {seg : Segment} (hseg : lastAt seg.vmaddr image.segments = some seg) {i : ℕ}
    (hi : i < (mappedSize bytes seg).toNat)
    (hfree : (seg.vmaddr + cfg.slide).toNat + i ∉ touched b.profile image bytes cfg.slide) :
    m'.flat.byte ((seg.vmaddr + cfg.slide).toNat + i) = some ((fileData bytes seg).getD i 0) :=
  (s.keepsBytes_of_fits hfits hinv).2 _ _ (s.byte_bound hinv hseg hi hfree)

end Stages

end IosEmu
