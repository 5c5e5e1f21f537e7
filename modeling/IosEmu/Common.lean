import IosEmu.Buffer
import IosEmu.Endian
import IosEmu.Outcome
import Mathlib.Order.Basic

/-!
# Words, errors and the build

The types of the `common` crate. Machine words are bit vectors, so every value of a
`u64` is one and arithmetic on them wraps. What the compiler makes of an overflowing
`+`, `-` or `*` depends on the cargo profile : a release build wraps, a debug build
panics (`Profile`). The `cfg(target_os = "android")` halves of the source are compiled
on device only (`Target`); there `mprotect` is the kernel's, and its return code is a
parameter.

`alignUp` rounds up to a multiple of a power of two. In a release build the sum may wrap,
so the result for a page is `0` for a size of `0` and for every size in the last page of
the word (`toNat_pageRound`).
-/

open SysLib

namespace IosEmu

/-! ## Words -/

abbrev U8 := Byte
abbrev U32 := BitVec 32
abbrev U64 := BitVec 64

instance linearOrderBitVec {w : ℕ} : LinearOrder (BitVec w) where
  le_refl := BitVec.le_refl
  le_trans _ _ _ := BitVec.le_trans
  lt_iff_le_not_ge _ _ := by
    rw [BitVec.not_le]
    exact ⟨fun h => ⟨BitVec.le_of_lt h, h⟩, And.right⟩
  le_antisymm _ _ := BitVec.le_antisymm
  le_total := BitVec.le_total
  toDecidableLE := inferInstance
  toDecidableLT := inferInstance

theorem toNat_max {w : ℕ} (x y : BitVec w) : (max x y).toNat = max x.toNat y.toNat := by
  rcases le_total x y with h | h
  · rw [max_eq_right h, max_eq_right (BitVec.le_def.1 h)]
  · rw [max_eq_left h, max_eq_left (BitVec.le_def.1 h)]

/-- `isize::MAX`, the most bytes an allocation may ask for. -/
def isizeMax : ℕ := 2 ^ 63 - 1

theorem four_pages_le : 0x10000 ≤ isizeMax := by
  decide

/-- A `Vec<u8>`. -/
abbrev ByteVec := Buffer U8 isizeMax

/-- `u32::from_le_bytes` and the other fixed-width readers : the word a byte string
denotes. -/
def fromLeBytes (w : ℕ) (l : List U8) : BitVec w :=
  BitVec.ofNat w (leNat l)

/-- `u32::from_be_bytes` and the like. -/
def fromBeBytes (w : ℕ) (l : List U8) : BitVec w :=
  BitVec.ofNat w (beNat l)

/-- `v.to_le_bytes()` of a `u32`. -/
def toLeBytes32 (v : U32) : List U8 :=
  leBytes 4 v.toNat

/-- `v.to_le_bytes()` of a `u64`. -/
def toLeBytes64 (v : U64) : List U8 :=
  leBytes 8 v.toNat

@[simp] theorem length_toLeBytes32 (v : U32) : (toLeBytes32 v).length = 4 :=
  length_leBytes 4 _

@[simp] theorem length_toLeBytes64 (v : U64) : (toLeBytes64 v).length = 8 :=
  length_leBytes 8 _

@[simp] theorem fromLeBytes_toLeBytes32 (v : U32) : fromLeBytes 32 (toLeBytes32 v) = v := by
  apply BitVec.eq_of_toNat_eq
  rw [fromLeBytes, toLeBytes32, leNat_leBytes, BitVec.toNat_ofNat]
  have := v.isLt
  omega

@[simp] theorem fromLeBytes_toLeBytes64 (v : U64) : fromLeBytes 64 (toLeBytes64 v) = v := by
  apply BitVec.eq_of_toNat_eq
  rw [fromLeBytes, toLeBytes64, leNat_leBytes, BitVec.toNat_ofNat]
  have := v.isLt
  omega

theorem toLeBytes64_inj {v w : U64} (h : toLeBytes64 v = toLeBytes64 w) : v = w := by
  rw [← fromLeBytes_toLeBytes64 v, h, fromLeBytes_toLeBytes64]

theorem toLeBytes64_fromLeBytes {l : List U8} (h : l.length = 8) :
    toLeBytes64 (fromLeBytes 64 l) = l := by
  have hlt := leNat_lt l
  rw [h] at hlt
  rw [toLeBytes64, fromLeBytes, BitVec.toNat_ofNat, Nat.mod_eq_of_lt (by omega), ← h,
    leBytes_leNat]

/-- A double word is its low half followed by its high half. -/
theorem toLeBytes64_eq_append (v : U64) :
    toLeBytes64 v = toLeBytes32 (v.setWidth 32) ++ toLeBytes32 ((v >>> 32).setWidth 32) := by
  have hlo : leBytes 4 (v.setWidth 32).toNat = leBytes 4 v.toNat := by
    rw [← leBytes_leNat (leBytes 4 v.toNat), length_leBytes, leNat_leBytes,
      BitVec.toNat_setWidth, show (256 : ℕ) ^ 4 = 2 ^ 32 by norm_num]
  have hhi : ((v >>> 32).setWidth 32).toNat = v.toNat / 256 ^ 4 := by
    rw [BitVec.toNat_setWidth, BitVec.toNat_ushiftRight, Nat.shiftRight_eq_div_pow]
    have := v.isLt
    omega
  rw [toLeBytes64, toLeBytes32, toLeBytes32, leBytes_add 4 4, hlo, hhi]

/-! ## Errors -/

/-- The error kinds of `std::io` the emulator tells apart. -/
inductive IoErrorKind
  | notFound
  | permissionDenied
  | alreadyExists
  | wouldBlock
  | invalidInput
  | brokenPipe
  | other
  deriving DecidableEq, Repr

/-- Which syscall ABI a number belongs to. -/
inductive SyscallClass
  | unix
  | mach
  | machDep
  | diag
  deriving DecidableEq, Repr

/-- The error type of the whole emulator. -/
inductive EmuError
  | machO (msg : String)
  | dyld (msg : String)
  | memory (addr : U64) (reason : String)
  | unsupportedSyscall (cls : SyscallClass) (number : U32)
  | vfs (msg : String)
  | plist (msg : String)
  | archive (msg : String)
  | objC (msg : String)
  | io (kind : IoErrorKind)
  | internal (msg : String)
  deriving DecidableEq, Repr

/-- `Result<T, EmuError>`. -/
abbrev EmuResult := Except EmuError

/-- Why the process went down. -/
inductive Panic
  /-- A checked `+`, `-` or `*` overflowed. -/
  | arithmeticOverflow
  /-- A slice was taken past the end, or with its start after its end. -/
  | sliceOutOfRange
  /-- An allocation asked for more than `isize::MAX` bytes. -/
  | capacityOverflow
  /-- `unwrap` of a missing value. -/
  | unwrapOnNone
  /-- An index past the end of a vector, or a key that a map does not have. -/
  | indexOutOfBounds
  /-- A copy into native pages that are not reserved, or not writable. -/
  | nativeFault
  deriving DecidableEq, Repr

/-- The most elements that a `Vec` can be brought to by `push`. Its capacity starts at four and
doubles, and `push` panics where it would take more than `isize::MAX` bytes. -/
def vecLimit (elementSize : ℕ) : ℕ :=
  2 ^ (isizeMax / elementSize).log2

example : vecLimit 56 = 2 ^ 57 ∧ vecLimit 16 = 2 ^ 58 ∧ vecLimit 8 = 2 ^ 59 := by decide

/-- There is room in a `Vec` of `len` elements for `n` more. -/
def vecRoom (elementSize len n : ℕ) : Except Panic Unit :=
  if len + n ≤ vecLimit elementSize then .ok () else .error .capacityOverflow

theorem vecRoom_eq_ok {elementSize len n : ℕ} :
    vecRoom elementSize len n = .ok () ↔ len + n ≤ vecLimit elementSize := by
  unfold vecRoom
  split_ifs with h <;> simp [h]

/-! ## The build -/

/-- What becomes of an overflowing `+`, `-` or `*`. -/
inductive Profile
  | debug
  | release
  deriving DecidableEq, Repr

/-- Which `cfg(target_os)` code is compiled. On device the kernel answers `mprotect`. -/
inductive Target
  | host
  | android (nativeProtect : U64 → ℕ → U32 → BitVec 32)

/-- A build of the emulator. -/
structure Build where
  profile : Profile
  target : Target

namespace Profile

variable {w : ℕ}

/-- `x + y`. -/
def add : Profile → BitVec w → BitVec w → Except Panic (BitVec w)
  | .release, x, y => .ok (x + y)
  | .debug, x, y =>
    if x.toNat + y.toNat < 2 ^ w then .ok (x + y) else .error .arithmeticOverflow

/-- `x - y`. -/
def sub : Profile → BitVec w → BitVec w → Except Panic (BitVec w)
  | .release, x, y => .ok (x - y)
  | .debug, x, y => if y ≤ x then .ok (x - y) else .error .arithmeticOverflow

/-- `x * y`. -/
def mul : Profile → BitVec w → BitVec w → Except Panic (BitVec w)
  | .release, x, y => .ok (x * y)
  | .debug, x, y =>
    if x.toNat * y.toNat < 2 ^ w then .ok (x * y) else .error .arithmeticOverflow

/-- `x + y` of signed words. -/
def addSigned : Profile → BitVec w → BitVec w → Except Panic (BitVec w)
  | .release, x, y => .ok (x + y)
  | .debug, x, y =>
    if (x + y).toInt = x.toInt + y.toInt then .ok (x + y) else .error .arithmeticOverflow

/-- `-x` of a signed word. -/
def neg : Profile → BitVec w → Except Panic (BitVec w)
  | .release, x => .ok (-x)
  | .debug, x => if (-x).toInt = -x.toInt then .ok (-x) else .error .arithmeticOverflow

/-- `x << n`. -/
def shl : Profile → BitVec w → U32 → Except Panic (BitVec w)
  | .release, x, n => .ok (x <<< (n.toNat % w))
  | .debug, x, n => if n.toNat < w then .ok (x <<< n.toNat) else .error .arithmeticOverflow

@[simp] theorem add_release (x y : BitVec w) : release.add x y = .ok (x + y) :=
  rfl

@[simp] theorem sub_release (x y : BitVec w) : release.sub x y = .ok (x - y) :=
  rfl

@[simp] theorem mul_release (x y : BitVec w) : release.mul x y = .ok (x * y) :=
  rfl

@[simp] theorem addSigned_release (x y : BitVec w) : release.addSigned x y = .ok (x + y) :=
  rfl

/-- Whatever the profile, a sum that is returned is the wrapped one. -/
theorem add_eq_ok {p : Profile} {x y z : BitVec w} (h : p.add x y = .ok z) : z = x + y := by
  cases p with
  | release => exact (Except.ok.inj h).symm
  | debug =>
    simp only [add] at h
    split_ifs at h
    exact (Except.ok.inj h).symm

theorem sub_eq_ok {p : Profile} {x y z : BitVec w} (h : p.sub x y = .ok z) : z = x - y := by
  cases p with
  | release => exact (Except.ok.inj h).symm
  | debug =>
    simp only [sub] at h
    split_ifs at h
    exact (Except.ok.inj h).symm

theorem addSigned_eq_ok {p : Profile} {x y z : BitVec w} (h : p.addSigned x y = .ok z) :
    z = x + y := by
  cases p with
  | release => exact (Except.ok.inj h).symm
  | debug =>
    simp only [addSigned] at h
    split_ifs at h
    exact (Except.ok.inj h).symm

theorem add_isOk_iff {p : Profile} {x y : BitVec w} :
    (∃ z, p.add x y = .ok z) ↔ (p = .debug → x.toNat + y.toNat < 2 ^ w) := by
  cases p with
  | release => simp [add]
  | debug =>
    simp only [add]
    split_ifs with h <;> simp [h]

theorem add_of_lt {p : Profile} {x y : BitVec w} (h : x.toNat + y.toNat < 2 ^ w) :
    p.add x y = .ok (x + y) := by
  cases p with
  | release => rfl
  | debug => exact if_pos h

theorem mul_of_lt {p : Profile} {x y : BitVec w} (h : x.toNat * y.toNat < 2 ^ w) :
    p.mul x y = .ok (x * y) := by
  cases p with
  | release => rfl
  | debug => exact if_pos h

theorem sub_isOk_iff {p : Profile} {x y : BitVec w} :
    (∃ z, p.sub x y = .ok z) ↔ (p = .debug → y ≤ x) := by
  cases p with
  | release => simp [sub]
  | debug =>
    simp only [sub]
    split_ifs with h <;> simp [h]

theorem addSigned_isOk_iff {p : Profile} {x y : BitVec w} :
    (∃ z, p.addSigned x y = .ok z) ↔ (p = .debug → (x + y).toInt = x.toInt + y.toInt) := by
  cases p with
  | release => simp [addSigned]
  | debug =>
    simp only [addSigned]
    split_ifs with h
    · exact ⟨fun _ _ => h, fun _ => ⟨_, rfl⟩⟩
    · exact iff_of_false (by rintro ⟨_, ⟨⟩⟩) fun hsum => h (hsum trivial)

theorem mul_isOk_iff {p : Profile} {x y : BitVec w} :
    (∃ z, p.mul x y = .ok z) ↔ (p = .debug → x.toNat * y.toNat < 2 ^ w) := by
  cases p with
  | release => simp [mul]
  | debug =>
    simp only [mul]
    split_ifs with h <;> simp [h]

theorem mul_eq_ok {p : Profile} {x y z : BitVec w} (h : p.mul x y = .ok z) : z = x * y := by
  cases p with
  | release => exact (Except.ok.inj h).symm
  | debug =>
    simp only [mul] at h
    split_ifs at h
    exact (Except.ok.inj h).symm

/-- A sum that is returned, and what is done with it. -/
theorem add_bind_iff {p : Profile} {x y : BitVec w} {P : BitVec w → Prop} :
    (∃ z, p.add x y = .ok z ∧ P z) ↔
      (p = .debug → x.toNat + y.toNat < 2 ^ w) ∧ P (x + y) := by
  rw [← add_isOk_iff]
  constructor
  · rintro ⟨z, hz, hP⟩
    exact ⟨⟨z, hz⟩, add_eq_ok hz ▸ hP⟩
  · rintro ⟨⟨z, hz⟩, hP⟩
    exact ⟨z, hz, (add_eq_ok hz).symm ▸ hP⟩

theorem mul_bind_iff {p : Profile} {x y : BitVec w} {P : BitVec w → Prop} :
    (∃ z, p.mul x y = .ok z ∧ P z) ↔
      (p = .debug → x.toNat * y.toNat < 2 ^ w) ∧ P (x * y) := by
  rw [← mul_isOk_iff]
  constructor
  · rintro ⟨z, hz, hP⟩
    exact ⟨⟨z, hz⟩, mul_eq_ok hz ▸ hP⟩
  · rintro ⟨⟨z, hz⟩, hP⟩
    exact ⟨z, hz, (mul_eq_ok hz).symm ▸ hP⟩

end Profile

/-- `x.checked_add(y)`. -/
def checkedAdd {w : ℕ} (x y : BitVec w) : Option (BitVec w) :=
  if x.toNat + y.toNat < 2 ^ w then some (x + y) else none

/-- `x.checked_sub(y)`. -/
def checkedSub {w : ℕ} (x y : BitVec w) : Option (BitVec w) :=
  if y ≤ x then some (x - y) else none

theorem checkedAdd_eq_some_iff {w : ℕ} {x y z : BitVec w} :
    checkedAdd x y = some z ↔ z.toNat = x.toNat + y.toNat := by
  unfold checkedAdd
  constructor
  · intro h
    split_ifs at h with hlt
    obtain rfl := Option.some.inj h
    rw [BitVec.toNat_add, Nat.mod_eq_of_lt hlt]
  · intro h
    have hz := z.isLt
    rw [if_pos (by omega)]
    congr 1
    apply BitVec.eq_of_toNat_eq
    rw [BitVec.toNat_add, Nat.mod_eq_of_lt (by omega), h]

theorem checkedSub_eq_some_iff {w : ℕ} {x y z : BitVec w} :
    checkedSub x y = some z ↔ z.toNat + y.toNat = x.toNat := by
  unfold checkedSub
  constructor
  · intro h
    split_ifs at h with hle
    obtain rfl := Option.some.inj h
    rw [BitVec.toNat_sub_of_le hle]
    exact Nat.sub_add_cancel (BitVec.le_def.1 hle)
  · intro h
    have hle : y ≤ x := BitVec.le_def.2 (by omega)
    rw [if_pos hle]
    congr 1
    apply BitVec.eq_of_toNat_eq
    rw [BitVec.toNat_sub_of_le hle]
    omega

/-! ## Alignment -/

/-- AArch64 translation granule : 16 KiB. -/
def pageSize : U64 := 0x4000

/-- Round `value` down to a multiple of `align`, a power of two. -/
def alignDown (p : Profile) (value align : U64) : Except Panic U64 := do
  let mask ← p.sub align 1
  return value &&& ~~~mask

/-- Round `value` up to a multiple of `align`, a power of two. -/
def alignUp (p : Profile) (value align : U64) : Except Panic U64 := do
  let mask ← p.sub align 1
  let sum ← p.add value mask
  return sum &&& ~~~mask

/-- Clearing the low `k` bits rounds down to a multiple of `2 ^ k`. -/
theorem toNat_and_not_mask {w : ℕ} (k : ℕ) (x : BitVec w) :
    (x &&& ~~~(BitVec.ofNat w (2 ^ k - 1))).toNat = x.toNat / 2 ^ k * 2 ^ k := by
  have hshift : x &&& ~~~(BitVec.ofNat w (2 ^ k - 1)) = (x >>> k) <<< k := by
    apply BitVec.eq_of_getLsbD_eq
    intro i hi
    simp only [BitVec.getLsbD_and, BitVec.getLsbD_not, BitVec.getLsbD_ofNat,
      BitVec.getLsbD_shiftLeft, BitVec.getLsbD_ushiftRight, Nat.testBit_two_pow_sub_one, hi,
      decide_true, Bool.true_and]
    rcases Nat.lt_or_ge i k with h | h
    · simp [h]
    · simp [Nat.not_lt.2 h, Nat.add_sub_cancel' h]
  rw [hshift, BitVec.toNat_shiftLeft, BitVec.toNat_ushiftRight, Nat.shiftLeft_eq,
    Nat.shiftRight_eq_div_pow, Nat.mod_eq_of_lt]
  exact (Nat.div_mul_le_self _ _).trans_lt x.isLt

/-- A size rounded up to a page, with the wrapping arithmetic of a release build. -/
def pageRound (size : U64) : U64 :=
  (size + 0x3fff) &&& ~~~0x3fff

theorem alignUp_release (size : U64) : alignUp .release size pageSize = .ok (pageRound size) :=
  rfl

/-- Whatever the profile, a size that is rounded up is rounded as in a release build. -/
theorem alignUp_eq_mask {p : Profile} {value align s : U64} (h : alignUp p value align = .ok s) :
    s = (value + (align - 1)) &&& ~~~(align - 1) := by
  obtain ⟨mask, hmask, h⟩ := except_bind_eq_ok.1 h
  obtain ⟨sum, hsum, h⟩ := except_bind_eq_ok.1 h
  obtain rfl := Profile.sub_eq_ok hmask
  obtain rfl := Profile.add_eq_ok hsum
  exact (Except.ok.inj h).symm

theorem alignUp_eq_ok {p : Profile} {size s : U64} (h : alignUp p size pageSize = .ok s) :
    s = pageRound size := by
  rw [alignUp_eq_mask h]
  rfl

theorem alignDown_release (addr : U64) :
    alignDown .release addr pageSize = .ok (addr &&& ~~~0x3fff) :=
  rfl

/-- Rounding up to a page wraps once, in the last page of the word. -/
theorem toNat_pageRound (size : U64) :
    (pageRound size).toNat = (size.toNat + 0x3fff) % 2 ^ 64 / 0x4000 * 0x4000 := by
  have h := toNat_and_not_mask 14 (size + 0x3fff#64)
  rw [BitVec.toNat_add] at h
  exact h

theorem pageRound_mod (size : U64) : (pageRound size).toNat % 0x4000 = 0 := by
  rw [toNat_pageRound]
  exact Nat.mul_mod_left _ _

/-- Away from the end of the word, rounding up gives the next multiple of the page. -/
theorem pageRound_of_le {size : U64} (h : size.toNat ≤ 2 ^ 63) :
    size.toNat ≤ (pageRound size).toNat ∧ (pageRound size).toNat < size.toNat + 0x4000 ∧
      (pageRound size).toNat % 0x4000 = 0 := by
  rw [toNat_pageRound]
  omega

/-- A multiple of the page is not rounded. -/
theorem pageRound_of_dvd {size : U64} (hdvd : size.toNat % 0x4000 = 0) :
    pageRound size = size := by
  have hsize := size.isLt
  apply BitVec.eq_of_toNat_eq
  rw [toNat_pageRound]
  omega

/-- A multiple of the page is mapped as it is, and zero as one page. -/
theorem pageRound_max_one {size : U64} (hdvd : size.toNat % 0x4000 = 0) :
    size.toNat ≤ (pageRound (max size 1)).toNat ∧ 0 < (pageRound (max size 1)).toNat := by
  have hsize := size.isLt
  have hmax : (max size 1).toNat = max size.toNat 1 := toNat_max _ _
  rw [toNat_pageRound, hmax]
  omega

/-! ## Page protections -/

/-- Page-protection flags of a region, as in Mach's `vm_prot_t`. -/
structure Protection where
  bits : U8
  deriving DecidableEq, Repr

namespace Protection

def none : Protection := ⟨0⟩
def read : Protection := ⟨1⟩
def write : Protection := ⟨2⟩
def exec : Protection := ⟨4⟩

def rw : Protection := ⟨read.bits ||| write.bits⟩
def rx : Protection := ⟨read.bits ||| exec.bits⟩

/-- `self` grants everything `other` asks for. -/
def contains (self other : Protection) : Bool :=
  self.bits &&& other.bits == other.bits

/-- Build from a Mach `vm_prot_t`, whose low three bits are R, W and X. -/
def fromVmProt (vmProt : U32) : Protection :=
  ⟨(vmProt &&& 0b111).setWidth 8⟩

end Protection

end IosEmu
