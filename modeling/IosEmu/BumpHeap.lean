import IosEmu.FlatMemory

/-!
# The bump allocator

Blocks are handed out from the bottom of the arena up, at multiples of 16. A block starts at or
above the cursor and the cursor moves to its end, so the blocks of a run are disjoint. In a
release build the rounding of the cursor wraps in the last 15 bytes of the address space;
`Ready` says that it is not there.
-/

open SysLib

namespace IosEmu

namespace BumpAllocator

variable {p : Profile} {h : BumpAllocator} {size : U64}

/-- The cursor can be rounded up. -/
def Ready (h : BumpAllocator) : Prop :=
  h.cursor.toNat + 15 < 2 ^ 64

/-- Where the next block starts. -/
def next (h : BumpAllocator) : ℕ :=
  (h.cursor.toNat + 15) / 16 * 16

/-- The next block of `size` bytes ends in the arena. An empty one takes a byte. -/
def Fits (h : BumpAllocator) (size : U64) : Prop :=
  h.next + max size.toNat 1 ≤ h.limit.toNat

/-- The allocator after it has handed out a block. -/
def after (h : BumpAllocator) (size : U64) : BumpAllocator :=
  { h with cursor := BitVec.ofNat 64 (h.next + max size.toNat 1) }

theorem next_spec (h : BumpAllocator) :
    h.cursor.toNat ≤ h.next ∧ h.next < h.cursor.toNat + 16 ∧ h.next % 16 = 0 := by
  unfold next
  omega

theorem toNat_max_one (size : U64) : (max size 1).toNat = max size.toNat 1 := by
  rw [max_def, max_def]
  by_cases hle : size ≤ 1
  · have : size.toNat ≤ 1 := BitVec.le_def.1 hle
    rw [if_pos hle, if_pos this]
    rfl
  · have : ¬size.toNat ≤ 1 := fun h => hle (BitVec.le_def.2 h)
    rw [if_neg hle, if_neg this]

theorem toNat_next (hready : h.Ready) : (BitVec.ofNat 64 h.next).toNat = h.next := by
  have hnext := h.next_spec
  unfold Ready at hready
  exact Nat.mod_eq_of_lt (by omega)

theorem toNat_cursor_after (hfits : h.Fits size) :
    (h.after size).cursor.toNat = h.next + max size.toNat 1 :=
  Nat.mod_eq_of_lt (hfits.trans_lt h.limit.isLt)

theorem alignUp_cursor (hready : h.Ready) :
    alignUp p h.cursor (max 16 1) = .ok (BitVec.ofNat 64 h.next) := by
  have hsum : (h.cursor + 15#64).toNat = h.cursor.toNat + 15 := by
    rw [BitVec.toNat_add]
    exact Nat.mod_eq_of_lt hready
  have hmask := toNat_and_not_mask 4 (h.cursor + 15#64)
  rw [hsum] at hmask
  have hnext : (h.cursor + 15#64) &&& ~~~15#64 = BitVec.ofNat 64 h.next := by
    refine BitVec.eq_of_toNat_eq (hmask.trans ?_)
    rw [toNat_next hready]
    rfl
  have hsub : p.sub (max 16 1 : U64) 1 = .ok 15#64 := by
    cases p <;> decide
  have hadd : p.add h.cursor 15#64 = .ok (h.cursor + 15#64) :=
    Profile.add_of_lt hready
  rw [← hnext]
  unfold alignUp
  rw [hsub]
  change (p.add h.cursor 15#64 >>= _) = _
  rw [hadd]
  rfl

/-- A block that fits is handed out. -/
theorem alloc_of_fits (hready : h.Ready) (hfits : h.Fits size) :
    alloc p size 16 h = .ok (BitVec.ofNat 64 h.next) (h.after size) := by
  have hstop : checkedAdd (BitVec.ofNat 64 h.next) (max size 1) = some (h.after size).cursor :=
    checkedAdd_eq_some_iff.2 (by rw [toNat_cursor_after hfits, toNat_next hready, toNat_max_one])
  have hlimit : ¬h.limit < (h.after size).cursor := by
    rw [BitVec.lt_def, toNat_cursor_after hfits]
    exact not_lt.2 hfits
  rw [alloc, Prog.get_bind, alignUp_cursor hready, Prog.ofChecked_ok_bind]
  simp only [hstop, if_neg hlimit]
  rfl

/-- A block that does not fit is refused, and nothing changes. -/
theorem alloc_of_not_fits (hready : h.Ready) (hfits : ¬h.Fits size) :
    ∃ e, alloc p size 16 h = .err e h := by
  rw [alloc, Prog.get_bind, alignUp_cursor hready, Prog.ofChecked_ok_bind]
  rcases hstop : checkedAdd (BitVec.ofNat 64 h.next) (max size 1) with _ | stop
  · exact ⟨_, rfl⟩
  · have hlimit : h.limit < stop := by
      rw [BitVec.lt_def, checkedAdd_eq_some_iff.1 hstop, toNat_next hready, toNat_max_one]
      exact not_le.1 hfits
    simp only [if_pos hlimit]
    exact ⟨_, rfl⟩

end BumpAllocator

namespace GuestMemory

variable {p : Profile} {m : GuestMemory} {size : U64}

theorem heapAlloc_of_fits (hready : m.heap.Ready) (hfits : m.heap.Fits size) :
    heapAlloc p size 16 m =
      .ok (BitVec.ofNat 64 m.heap.next) { m with heap := m.heap.after size } := by
  simp only [heapAlloc, Prog.zoom, BumpAllocator.alloc_of_fits hready hfits]

theorem heapAlloc_of_not_fits (hready : m.heap.Ready) (hfits : ¬m.heap.Fits size) :
    ∃ e, heapAlloc p size 16 m = .err e m := by
  obtain ⟨e, he⟩ := BumpAllocator.alloc_of_not_fits (p := p) hready hfits
  refine ⟨e, ?_⟩
  simp only [heapAlloc, Prog.zoom, he]

/-- A new memory has a new heap, whose rounding does not wrap : its region is at least a page and
ends inside the address space. -/
theorem heap_of_new {heapBase heapSize : U64} (h : GuestMemory.new p heapBase heapSize = .ok () m) :
    m.heap = BumpAllocator.new heapBase heapSize ∧ m.heap.Ready := by
  obtain ⟨size, hsize, hmap⟩ := Prog.ofChecked_bind_eq_ok.1 h
  obtain ⟨s, hs, hfree, -, rfl⟩ := map_eq_ok.1 hmap
  refine ⟨rfl, ?_⟩
  obtain ⟨stop, hstop, -⟩ := checkFree_eq_ok.1 hfree
  have hlt := stop.isLt
  have hpage : 0x4000 ≤ s.toNat := by
    have hround := toNat_pageRound heapSize
    have hmax := BumpAllocator.toNat_max_one size
    rw [alignUp_eq_ok hs, toNat_pageRound, hmax, alignUp_eq_ok hsize]
    omega
  change heapBase.toNat + 15 < 2 ^ 64
  omega

end GuestMemory

end IosEmu
