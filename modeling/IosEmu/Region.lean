import IosEmu.Common

/-!
# Regions and the heap arena

A `Region` is a contiguous span of guest memory with a host buffer behind it, and the
`BumpAllocator` hands out the heap arena from the bottom up. A region's `range` turns a
guest address and a length into offsets in the buffer, or says why it cannot : it is the
only bounds check every access goes through (`Region.range_eq_ok_iff`).
-/

open SysLib

namespace IosEmu

/-- What a region is for. -/
inductive RegionKind
  | segment
  | stack
  | heap
  | anonymous
  | commpage
  deriving DecidableEq, Repr

/-- A contiguous span of guest memory. -/
structure Region where
  base : U64
  prot : Protection
  kind : RegionKind
  name : String
  data : ByteVec

namespace Region

/-- `vec![0u8; size]`. -/
def zeroed (size : U64) : Except Panic ByteVec :=
  if h : size.toNat ≤ isizeMax then .ok (Buffer.replicate size.toNat 0 h)
  else .error .capacityOverflow

/-- `zeroed`, with `init` copied to its front. -/
def zeroedWith (size : U64) (init : List U8) : Except Panic ByteVec :=
  if h : size.toNat ≤ isizeMax then .ok (Buffer.ofPrefix size.toNat init 0 h)
  else .error .capacityOverflow

def newZeroed (base size : U64) (prot : Protection) (kind : RegionKind) (name : String) :
    Except Panic Region := do
  let data ← zeroed size
  return { base, prot, kind, name, data }

def newFrom {σ : Type} (base size : U64) (init : List U8) (prot : Protection)
    (kind : RegionKind) (name : String) : Prog EmuError Panic σ Region := do
  if size.toNat < init.length then
    Prog.fail (.memory base "init data exceeds region")
  else
    let data ← Prog.ofChecked (zeroedWith size init)
    return { base, prot, kind, name, data }

def size (r : Region) : U64 :=
  BitVec.ofNat 64 r.data.size

/-- The address after the last byte. -/
def endAddr (r : Region) : U64 :=
  r.base + r.size

def contains (r : Region) (addr : U64) : Bool :=
  r.base ≤ addr && addr < r.endAddr

/-- The offsets `[off, end)` of `[addr, addr + len)` in the buffer. -/
def range (r : Region) (addr : U64) (len : ℕ) : EmuResult (ℕ × ℕ) :=
  if addr < r.base then .error (.memory addr "before region")
  else
    let off := (addr - r.base).toNat
    if 2 ^ 64 ≤ off + len then .error (.memory addr "length overflow")
    else if r.data.size < off + len then .error (.memory addr "past region end")
    else .ok (off, off + len)

/-- Borrow `[addr, addr + len)` for reading. -/
def subslice (r : Region) (addr : U64) (len : ℕ) (need : Protection) : EmuResult (List U8) := do
  let (off, stop) ← r.range addr len
  if r.prot.contains need then .ok (r.data.slice off (stop - off))
  else .error (.memory addr "protection violation")

/-- The range of the buffer borrowed for writing `[addr, addr + len)`. -/
def subsliceMut (r : Region) (addr : U64) (len : ℕ) (need : Protection) :
    EmuResult (ℕ × ℕ) := do
  let (off, stop) ← r.range addr len
  if r.prot.contains need then .ok (off, stop)
  else .error (.memory addr "protection violation")

/-! ## Sizes and ranges -/

theorem size_lt (r : Region) : r.data.size < 2 ^ 64 :=
  r.data.size_le.trans_lt (by decide)

@[simp] theorem toNat_size (r : Region) : r.size.toNat = r.data.size :=
  BitVec.toNat_ofNat _ _ |>.trans (Nat.mod_eq_of_lt r.size_lt)

theorem newZeroed_eq_ok_iff {base size : U64} {prot : Protection} {kind : RegionKind}
    {name : String} {r : Region} :
    newZeroed base size prot kind name = .ok r ↔
      ∃ hs : size.toNat ≤ isizeMax,
        r = { base, prot, kind, name, data := Buffer.replicate size.toNat 0 hs } := by
  unfold newZeroed zeroed
  by_cases hs : size.toNat ≤ isizeMax
  · simp [hs, bind, Except.bind, pure, Except.pure, eq_comm]
  · simp [hs, bind, Except.bind]

theorem newFrom_eq_ok_iff {σ : Type} {s s' : σ} {base size : U64} {init : List U8}
    {prot : Protection} {kind : RegionKind} {name : String} {r : Region} :
    newFrom base size init prot kind name s = .ok r s' ↔
      s' = s ∧ init.length ≤ size.toNat ∧ ∃ hs : size.toNat ≤ isizeMax,
        r = { base, prot, kind, name, data := Buffer.ofPrefix size.toNat init 0 hs } := by
  unfold newFrom
  by_cases hlen : size.toNat < init.length
  · simp [hlen, not_le.2 hlen]
  · rw [if_neg hlen, Prog.bind_eq_ok]
    simp only [Prog.ofChecked_eq_ok, Prog.pure_apply, Outcome.ok.injEq, zeroedWith]
    by_cases hs : size.toNat ≤ isizeMax
    · simp [hs, not_lt.1 hlen, eq_comm, and_comm]
    · simp [hs]

/-- The region ends inside the address space. -/
def Fits (r : Region) : Prop :=
  r.base.toNat + r.data.size < 2 ^ 64

theorem Fits.toNat_endAddr {r : Region} (h : r.Fits) :
    r.endAddr.toNat = r.base.toNat + r.data.size := by
  rw [endAddr, BitVec.toNat_add, toNat_size, Nat.mod_eq_of_lt h]

theorem Fits.contains_iff {r : Region} (h : r.Fits) (addr : U64) :
    r.contains addr = true ↔
      r.base.toNat ≤ addr.toNat ∧ addr.toNat < r.base.toNat + r.data.size := by
  rw [contains, Bool.and_eq_true, decide_eq_true_iff, decide_eq_true_iff, BitVec.le_def,
    BitVec.lt_def, h.toNat_endAddr]

/-- A range is granted exactly when it lies in the region. -/
theorem range_eq_ok_iff {r : Region} {addr : U64} {len off stop : ℕ} :
    r.range addr len = .ok (off, stop) ↔
      r.base ≤ addr ∧ off = addr.toNat - r.base.toNat ∧ stop = off + len ∧
        off + len ≤ r.data.size := by
  have hsize := r.size_lt
  unfold range
  by_cases hlt : addr < r.base
  · simp [hlt, not_le.2 hlt]
  · have hle : r.base ≤ addr := not_lt.1 hlt
    have hoff : (addr - r.base).toNat = addr.toNat - r.base.toNat := BitVec.toNat_sub_of_le hle
    simp only [hlt, if_false, hoff, hle, true_and]
    split_ifs with h₁ h₂
    · simp only [false_iff]
      omega
    · simp only [false_iff]
      omega
    · simp only [Except.ok.injEq, Prod.mk.injEq]
      omega

theorem range_isOk_iff {r : Region} {addr : U64} {len : ℕ} :
    (∃ p, r.range addr len = .ok p) ↔
      r.base ≤ addr ∧ addr.toNat + len ≤ r.base.toNat + r.data.size := by
  refine ⟨?_, fun ⟨hle, hlen⟩ => ?_⟩
  · rintro ⟨⟨off, stop⟩, h⟩
    obtain ⟨hle, rfl, -, hsize⟩ := range_eq_ok_iff.1 h
    have := BitVec.le_def.1 hle
    exact ⟨hle, by omega⟩
  · have := BitVec.le_def.1 hle
    exact ⟨_, range_eq_ok_iff.2 ⟨hle, rfl, rfl, by omega⟩⟩

theorem subsliceMut_eq_ok_iff {r : Region} {addr : U64} {len : ℕ} {need : Protection}
    {off stop : ℕ} :
    r.subsliceMut addr len need = .ok (off, stop) ↔
      r.base ≤ addr ∧ addr.toNat + len ≤ r.base.toNat + r.data.size ∧
        r.prot.contains need = true ∧ off = addr.toNat - r.base.toNat ∧ stop = off + len := by
  unfold subsliceMut
  simp only [except_bind_eq_ok]
  refine ⟨?_, ?_⟩
  · rintro ⟨⟨off', stop'⟩, hr, h⟩
    obtain ⟨hle, hlen⟩ := range_isOk_iff.1 ⟨_, hr⟩
    obtain ⟨-, hoff, hstop, -⟩ := range_eq_ok_iff.1 hr
    split_ifs at h with hp
    obtain ⟨rfl, rfl⟩ : off' = off ∧ stop' = stop := by simpa using h
    exact ⟨hle, hlen, hp, hoff, hstop⟩
  · rintro ⟨hle, hlen, hp, rfl, rfl⟩
    have := BitVec.le_def.1 hle
    exact ⟨_, range_eq_ok_iff.2 ⟨hle, rfl, rfl, by omega⟩, if_pos hp⟩

/-- A read borrows the range a write would. -/
theorem subslice_eq_map (r : Region) (addr : U64) (len : ℕ) (need : Protection) :
    r.subslice addr len need =
      (r.subsliceMut addr len need).map fun p => r.data.slice p.1 (p.2 - p.1) := by
  unfold subslice subsliceMut
  rcases r.range addr len with e | p
  · rfl
  · cases r.prot.contains need <;> rfl

theorem subslice_eq_ok_iff {r : Region} {addr : U64} {len : ℕ} {need : Protection}
    {l : List U8} :
    r.subslice addr len need = .ok l ↔
      r.base ≤ addr ∧ addr.toNat + len ≤ r.base.toNat + r.data.size ∧
        r.prot.contains need = true ∧ l = r.data.slice (addr.toNat - r.base.toNat) len := by
  rw [subslice_eq_map]
  rcases h : r.subsliceMut addr len need with e | ⟨off, stop⟩
  · have hno : ∀ off stop, r.subsliceMut addr len need ≠ .ok (off, stop) := by simp [h]
    simp only [ne_eq, subsliceMut_eq_ok_iff] at hno
    simp only [Except.map, reduceCtorEq, false_iff]
    exact fun ⟨h₁, h₂, h₃, _⟩ => hno _ _ ⟨h₁, h₂, h₃, rfl, rfl⟩
  · obtain ⟨h₁, h₂, h₃, rfl, rfl⟩ := subsliceMut_eq_ok_iff.1 h
    simp [Except.map, h₁, h₂, h₃, eq_comm]

end Region

/-! ## The heap arena -/

/-- A bump allocator over `[base, limit)`. -/
structure BumpAllocator where
  base : U64
  limit : U64
  cursor : U64
  deriving DecidableEq, Repr

namespace BumpAllocator

def new (base size : U64) : BumpAllocator :=
  { base, limit := base + size, cursor := base }

/-- Hand out `size` bytes aligned to `align`, a power of two. -/
def alloc (p : Profile) (size align : U64) : Prog EmuError Panic BumpAllocator U64 := do
  let h ← Prog.get
  let start ← Prog.ofChecked (alignUp p h.cursor (max align 1))
  match checkedAdd start (max size 1) with
  | none => Prog.fail (.memory start "heap alloc overflow")
  | some stop =>
    if h.limit < stop then Prog.fail (.memory stop "heap exhausted")
    else
      Prog.modify fun h => { h with cursor := stop }
      return start

end BumpAllocator

end IosEmu
