import IosEmu.GuestMemory
import IosEmu.Safe

/-!
# When the memory panics

Writes, changes of protection and publishing never panic. A mapping panics if rounding its
size overflows in a debug build, or if its span is free and larger than `isize::MAX`; an
allocation from the heap panics only in a debug build, at the very end of the address space.
-/

open SysLib

namespace IosEmu

variable {p : Profile} {m : GuestMemory}

/-! ## Arithmetic -/

/-- Rounding up to a power of two overflows near the end of the word. -/
theorem alignUp_isOk_iff {value align : U64} (halign : 1 ≤ align) :
    (∃ z, alignUp p value align = .ok z) ↔
      (p = .debug → value.toNat + (align.toNat - 1) < 2 ^ 64) := by
  have hmask : p.sub align 1 = .ok (align - 1) := by
    cases p with
    | release => rfl
    | debug => exact if_pos halign
  have htoNat : (align - 1).toNat = align.toNat - 1 := BitVec.toNat_sub_of_le halign
  unfold alignUp
  rw [hmask, ← htoNat, ← Profile.add_isOk_iff]
  change (∃ z, (p.add value (align - 1) >>= fun sum => _) = .ok z) ↔ _
  simp only [except_bind_eq_ok]
  constructor
  · rintro ⟨_, sum, hsum, -⟩
    exact ⟨sum, hsum⟩
  · rintro ⟨sum, hsum⟩
    exact ⟨_, sum, hsum, rfl⟩

/-- The size can be rounded up to a page. -/
def Rounds (p : Profile) (size : U64) : Prop :=
  p = .debug → size.toNat + 0x3fff < 2 ^ 64

theorem alignUp_page_iff {size : U64} : (∃ s, alignUp p size pageSize = .ok s) ↔ Rounds p size :=
  alignUp_isOk_iff (by decide)

/-- A size that can be rounded, and what is done with the rounded one. -/
theorem alignUp_bind_iff {size : U64} {P : U64 → Prop} :
    (∃ s, alignUp p size pageSize = .ok s ∧ P s) ↔ Rounds p size ∧ P (pageRound size) := by
  rw [← alignUp_page_iff]
  constructor
  · rintro ⟨s, hs, hP⟩
    obtain rfl := alignUp_eq_ok hs
    exact ⟨⟨_, hs⟩, hP⟩
  · rintro ⟨⟨s, hs⟩, hP⟩
    obtain rfl := alignUp_eq_ok hs
    exact ⟨_, hs, hP⟩

namespace GuestMemory

/-! ## Calls that do not panic -/

theorem total_write (a : U64) (d : List U8) : (write a d).Total :=
  fun m e => write_ne_panic a d m e

/-- The region that `regionBase` finds is in the map. -/
theorem unwrapRegion_of_regionBase {a base : U64} (h : m.regionBase a = .ok base) :
    ∃ r, m.unwrapRegion base = .ok r := by
  unfold regionBase at h
  rcases hl : m.regions.lastLE a with _ | ⟨key, r⟩ <;> simp only [hl] at h
  · cases h
  · split_ifs at h
    obtain rfl := Except.ok.inj h
    exact ⟨r, unwrapRegion_eq_ok.2 (get?_of_lastLE hl)⟩

theorem total_protect (target : Target) (a : U64) (prot : Protection) :
    (protect target a prot).Total := by
  intro m
  unfold protect
  rw [Prog.safe_get_bind_iff, Prog.safe_ofResult_bind_iff]
  intro base hbase
  obtain ⟨r, hr⟩ := unwrapRegion_of_regionBase hbase
  refine Prog.safe_ofChecked_bind_iff.2 ⟨r, hr, ?_⟩
  refine (Prog.total_modify _).bind (fun _ => ?_) m
  rcases target with _ | nativeProtect
  · exact Prog.total_pure _
  · dsimp only
    split_ifs
    · exact Prog.total_fail _
    · exact Prog.total_pure _

theorem total_commitToNative (target : Target) (a : U64) : (commitToNative target a).Total := by
  intro m
  unfold commitToNative
  rcases target with _ | nativeProtect
  · exact Prog.total_pure _ m
  · rw [Prog.safe_get_bind_iff, Prog.safe_ofResult_bind_iff]
    intro base hbase
    obtain ⟨r, hr⟩ := unwrapRegion_of_regionBase hbase
    exact Prog.safe_ofChecked_bind_iff.2 ⟨r, hr, Prog.total_pure _ m⟩

/-! ## Mappings -/

/-- A span of `size` bytes at `base` is not free, or it can be allocated. -/
def Allocates (m : GuestMemory) (base size : U64) : Prop :=
  m.checkFree base size = .ok () → size.toNat ≤ isizeMax

theorem safe_map_iff {base size : U64} {prot : Protection} {kind : RegionKind} {name : String} :
    (map p base size prot kind name).Safe m ↔
      Rounds p (max size 1) ∧ m.Allocates base (pageRound (max size 1)) := by
  unfold map
  rw [Prog.safe_ofChecked_bind_iff, alignUp_bind_iff, Prog.safe_get_bind_iff,
    Prog.safe_ofResult_bind_iff]
  refine and_congr_right fun _ => ?_
  simp only [Prog.safe_bind_total_iff fun r => Prog.total_modify _, Prog.safe_ofChecked_iff,
    Region.newZeroed_eq_ok_iff]
  exact ⟨fun h hfree => (h () hfree).elim fun _ hr => hr.elim fun hs _ => hs,
    fun h _ hfree => ⟨_, h hfree, rfl⟩⟩

theorem safe_newFrom_iff {σ : Type} {s : σ} {base size : U64} {init : List U8} {prot : Protection}
    {kind : RegionKind} {name : String} :
    (Region.newFrom base size init prot kind name : Prog EmuError Panic σ Region).Safe s ↔
      (init.length ≤ size.toNat → size.toNat ≤ isizeMax) := by
  unfold Region.newFrom Region.zeroedWith
  split_ifs with hlen hsize
  · simp only [Prog.total_fail _ s, true_iff]
    omega
  · rw [Prog.safe_ofChecked_bind_iff]
    exact ⟨fun _ _ => hsize, fun _ => ⟨_, rfl, Prog.total_pure _ s⟩⟩
  · rw [Prog.safe_ofChecked_bind_iff]
    simp only [reduceCtorEq, false_and, exists_false, false_iff]
    omega

theorem safe_mapWithData_iff {base size : U64} {data : List U8} {prot : Protection}
    {kind : RegionKind} {name : String} :
    (mapWithData p base size data prot kind name).Safe m ↔
      Rounds p (max size (BitVec.ofNat 64 data.length)) ∧
        (data.length ≤ (pageRound (max size (BitVec.ofNat 64 data.length))).toNat →
          m.Allocates base (pageRound (max size (BitVec.ofNat 64 data.length)))) := by
  unfold mapWithData
  rw [Prog.safe_ofChecked_bind_iff, alignUp_bind_iff, Prog.safe_get_bind_iff,
    Prog.safe_ofResult_bind_iff]
  refine and_congr_right fun _ => ?_
  simp only [Prog.safe_bind_total_iff fun r => Prog.total_modify _, safe_newFrom_iff]
  exact ⟨fun h hlen hfree => h () hfree hlen, fun h _ hfree hlen => h hlen hfree⟩

/-- There is room below the cursor for an anonymous mapping, or it can be allocated. -/
def AnonFits (p : Profile) (m : GuestMemory) (size : U64) : Prop :=
  Rounds p (max size 1) ∧
    ∀ low, checkedSub m.mmapCursor (pageRound (max size 1)) = some low →
      m.Allocates (low &&& ~~~0x3fff) (pageRound (max (pageRound (max size 1)) 1))

theorem alignDown_page (p : Profile) (a : U64) :
    alignDown p a pageSize = .ok (a &&& ~~~0x3fff) := by
  cases p <;> rfl

/-- A rounded size can be rounded again. -/
theorem rounds_pageRound (p : Profile) (size : U64) : Rounds p (max (pageRound size) 1) := by
  intro _
  have hround := toNat_pageRound size
  have hsize : (max (pageRound size) 1).toNat = max (pageRound size).toNat 1 := toNat_max _ _
  omega

theorem safe_mmapAnon_iff {size : U64} {prot : Protection} :
    (mmapAnon p size prot).Safe m ↔ AnonFits p m size := by
  unfold mmapAnon AnonFits
  rw [Prog.safe_ofChecked_bind_iff, alignUp_bind_iff, Prog.safe_get_bind_iff]
  refine and_congr_right fun _ => ?_
  rcases checkedSub m.mmapCursor (pageRound (max size 1)) with _ | low
  · simp only [Prog.total_fail _ m, reduceCtorEq, false_imp_iff, implies_true]
  · have htail : ∀ base (u : Unit), (Prog.modify (fun m : GuestMemory =>
        { m with mmapCursor := base }) >>= fun _ => pure base : MemM U64).Total :=
      fun base _ => (Prog.total_modify _).bind fun _ => Prog.total_pure _
    simp only [alignDown_page, Prog.safe_ofChecked_bind_iff, Except.ok.injEq,
      exists_eq_left', Prog.safe_bind_total_iff (htail _), safe_map_iff, rounds_pageRound,
      true_and, Option.some.injEq, forall_eq']

/-! ## The heap -/

/-- The cursor of the heap can be aligned to 16 bytes. -/
def HeapFits (p : Profile) (m : GuestMemory) : Prop :=
  p = .debug → m.heap.cursor.toNat + 15 < 2 ^ 64

theorem safe_heapAlloc_iff {size : U64} : (heapAlloc p size 16).Safe m ↔ HeapFits p m := by
  unfold heapAlloc
  rw [Prog.safe_zoom_iff]
  unfold BumpAllocator.alloc
  rw [Prog.safe_get_bind_iff, Prog.safe_bind_total_iff, Prog.safe_ofChecked_iff]
  · exact alignUp_isOk_iff (by decide)
  · intro start
    rcases checkedAdd start (max size 1) with _ | stop
    · exact Prog.total_fail _
    · dsimp only
      split_ifs
      · exact Prog.total_fail _
      · exact (Prog.total_modify _).bind fun _ => Prog.total_pure _

/-- There are `size` bytes left from the next multiple of 16 on. -/
def HeapHasRoom (m : GuestMemory) (size : U64) : Prop :=
  ((m.heap.cursor + 15) &&& ~~~15).toNat + (max size 1).toNat ≤ m.heap.limit.toNat

/-- An allocation returns exactly if it does not panic and there is room. -/
theorem heapAlloc_isOk_iff {size : U64} :
    (∃ a m', heapAlloc p size 16 m = .ok a m') ↔ HeapFits p m ∧ m.HeapHasRoom size := by
  have hfits : (∃ start, alignUp p m.heap.cursor 16 = .ok start) ↔ HeapFits p m :=
    alignUp_isOk_iff (by decide)
  unfold heapAlloc
  rw [Prog.zoom_isOk_iff, ← hfits]
  unfold BumpAllocator.alloc HeapHasRoom
  simp only [Prog.get_bind, Prog.ofChecked_bind_eq_ok]
  constructor
  · rintro ⟨a, h', start, hstart, h⟩
    obtain rfl := alignUp_eq_mask hstart
    refine ⟨⟨_, hstart⟩, ?_⟩
    unfold checkedAdd at h
    split_ifs at h with hlt
    · dsimp only at h
      split_ifs at h with hlimit
      · cases h
      · have hsum := BitVec.le_def.1 (not_lt.1 hlimit)
        rwa [BitVec.toNat_add, Nat.mod_eq_of_lt hlt] at hsum
    · cases h
  · rintro ⟨⟨start, hstart⟩, hroom⟩
    have hmask := alignUp_eq_mask hstart
    rw [show ((16 : U64) - 1) = 15 from rfl] at hmask
    rw [← hmask] at hroom
    have hlt : start.toNat + (max size 1).toNat < 2 ^ 64 := lt_of_le_of_lt hroom (BitVec.isLt _)
    have hlimit : ¬ m.heap.limit < start + max size 1 := by
      rw [BitVec.lt_def, BitVec.toNat_add, Nat.mod_eq_of_lt hlt]
      omega
    refine ⟨start, { m.heap with cursor := start + max size 1 }, start, hstart, ?_⟩
    rw [checkedAdd, if_pos hlt]
    dsimp only
    rw [if_neg hlimit]
    rfl

end GuestMemory

end IosEmu
