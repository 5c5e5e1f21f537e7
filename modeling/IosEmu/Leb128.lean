import Mathlib.Data.Nat.Basic
import Mathlib.Tactic.Ring

/-!
# LEB128 numbers

A number in groups of seven bits, the lowest first. Every byte but the last has its top bit set.
`Leb` is one encoding; the same number has many, since groups of zeros may follow. Its value is a
natural number, or an integer if the last group is read with its sign, and a reader that gathers the
groups in a word of `w` bits computes the value modulo `2 ^ w` (`ofNat_or_group`).
-/

namespace SysLib

/-- An encoded number : groups that ask for another one, and a last one. -/
inductive Leb
  | last (g : BitVec 7)
  | more (g : BitVec 7) (l : Leb)
  deriving DecidableEq

namespace Leb

def bytes : Leb → List (BitVec 8)
  | last g => [0#1 ++ g]
  | more g l => (1#1 ++ g) :: l.bytes

/-- The number of groups. -/
def length : Leb → ℕ
  | last _ => 1
  | more _ l => l.length + 1

/-- The value without a sign. -/
def nat : Leb → ℕ
  | last g => g.toNat
  | more g l => g.toNat + 2 ^ 7 * l.nat

/-- The value with the sign of the last group. -/
def int : Leb → ℤ
  | last g => g.toInt
  | more g l => g.toNat + 2 ^ 7 * l.int

theorem length_bytes : ∀ l : Leb, l.bytes.length = l.length
  | last _ => rfl
  | more _ l => congrArg (· + 1) l.length_bytes

theorem length_pos : ∀ l : Leb, 0 < l.length
  | last _ => Nat.one_pos
  | more _ _ => Nat.succ_pos _

/-- A number in at most `k + 1` groups. -/
def ofNat : ℕ → ℕ → Leb
  | 0, n => last (BitVec.ofNat 7 n)
  | k + 1, n => if n < 2 ^ 7 then last (BitVec.ofNat 7 n)
    else more (BitVec.ofNat 7 n) (ofNat k (n / 2 ^ 7))

theorem length_ofNat : ∀ k n : ℕ, (ofNat k n).length ≤ k + 1
  | 0, _ => le_rfl
  | k + 1, n => by
    rw [ofNat]
    split_ifs
    · exact Nat.succ_le_succ (Nat.zero_le _)
    · exact Nat.succ_le_succ (length_ofNat k _)

theorem nat_ofNat : ∀ {k n : ℕ}, n < 2 ^ (7 * (k + 1)) → (ofNat k n).nat = n
  | 0, n, h => Nat.mod_eq_of_lt h
  | k + 1, n, h => by
    rw [ofNat]
    split_ifs with hlast
    · exact Nat.mod_eq_of_lt hlast
    · have hdiv : n / 2 ^ 7 < 2 ^ (7 * (k + 1)) := by
        rw [Nat.div_lt_iff_lt_mul (by decide), ← Nat.pow_add]
        exact h
      rw [nat, nat_ofNat hdiv, BitVec.toNat_ofNat]
      exact Nat.mod_add_div n (2 ^ 7)

/-! ## Bytes -/

theorem more_or_last : ∀ b : BitVec 8,
    (b &&& 0x80 ≠ 0 ∧ b = 1#1 ++ b.setWidth 7) ∨ (b &&& 0x80 = 0 ∧ b = 0#1 ++ b.setWidth 7) := by
  decide

theorem more_flag : ∀ g : BitVec 7, (1#1 ++ g : BitVec 8) &&& 0x80 ≠ 0 := by
  decide

theorem last_flag : ∀ g : BitVec 7, (0#1 ++ g : BitVec 8) &&& 0x80 = 0 := by
  decide

theorem group_more : ∀ g : BitVec 7, ((1#1 ++ g : BitVec 8) &&& 0x7f).toNat = g.toNat := by
  decide

theorem group_last : ∀ g : BitVec 7, ((0#1 ++ g : BitVec 8) &&& 0x7f).toNat = g.toNat := by
  decide

/-- The sign of a last group. -/
theorem sign_last : ∀ g : BitVec 7,
    g.toInt = g.toNat - if (0#1 ++ g : BitVec 8) &&& 0x40 ≠ 0 then 2 ^ 7 else 0 := by
  decide

/-- Groups that ask for another one, and a last one, at the front of some bytes. -/
theorem exists_front (b : BitVec 8) (rest : List (BitVec 8)) :
    (b &&& 0x80 = 0 ∧ b :: rest = (last (b.setWidth 7)).bytes ++ rest) ∨
    (b &&& 0x80 ≠ 0 ∧ ∀ l tail, rest = bytes l ++ tail →
      b :: rest = (more (b.setWidth 7) l).bytes ++ tail) := by
  rcases more_or_last b with ⟨hflag, hb⟩ | ⟨hflag, hb⟩
  · refine Or.inr ⟨hflag, fun l tail hrest => ?_⟩
    rw [bytes, List.cons_append, ← hb, hrest]
  · refine Or.inl ⟨hflag, ?_⟩
    rw [bytes, List.singleton_append, ← hb]

/-! ## Gathering groups in a word -/

/-- A group above the bits that are there is added. -/
theorem ofNat_or_group {v w k n : ℕ} (hn : n < 2 ^ k) (x : BitVec v) :
    BitVec.ofNat w n ||| x.setWidth w <<< k = BitVec.ofNat w (n + 2 ^ k * x.toNat) := by
  have hshift : x.setWidth w <<< k = BitVec.ofNat w (2 ^ k * x.toNat) := by
    refine BitVec.eq_of_toNat_eq ?_
    rw [BitVec.toNat_shiftLeft, BitVec.toNat_setWidth, BitVec.toNat_ofNat, Nat.shiftLeft_eq,
      Nat.mod_mul_mod, Nat.mul_comm]
  rw [hshift, ← BitVec.ofNat_or, Nat.or_comm, ← Nat.two_pow_add_eq_or_of_lt hn, Nat.add_comm]

/-- A group above the word is lost. -/
theorem ofNat_add_above {w k : ℕ} (hk : w ≤ k) (n m : ℕ) :
    BitVec.ofNat w (n + 2 ^ k * m) = BitVec.ofNat w n := by
  refine BitVec.eq_of_toNat_eq ?_
  obtain ⟨d, rfl⟩ := Nat.exists_eq_add_of_le hk
  rw [BitVec.toNat_ofNat, BitVec.toNat_ofNat, Nat.pow_add, Nat.mul_assoc, Nat.add_mul_mod_self_left]

/-- So is a multiple of the word. -/
theorem ofInt_add_above {w k : ℕ} (hk : w ≤ k) (n m : ℤ) :
    BitVec.ofInt w (n + 2 ^ k * m) = BitVec.ofInt w n := by
  refine BitVec.eq_of_toNat_eq ?_
  obtain ⟨d, rfl⟩ := Nat.exists_eq_add_of_le hk
  rw [BitVec.toNat_ofInt, BitVec.toNat_ofInt, pow_add, mul_assoc]
  push_cast
  rw [Int.add_mul_emod_self_left]

/-- The bits above a number, all set, are its sign. -/
theorem or_sign {w k n : ℕ} (hn : n < 2 ^ k) :
    BitVec.ofNat w n ||| (-1 : BitVec w) <<< k = BitVec.ofInt w (n - 2 ^ k) := by
  have hones : (n + 2 ^ k * (BitVec.allOnes w).toNat : ℕ) = (n - 2 ^ k + 2 ^ w * 2 ^ k : ℤ) := by
    rw [BitVec.toNat_allOnes]
    push_cast [Nat.one_le_two_pow]
    ring
  have hgroup := ofNat_or_group (w := w) hn (BitVec.allOnes w)
  rw [BitVec.setWidth_eq] at hgroup
  rw [← BitVec.ofInt_natCast, ← BitVec.ofInt_natCast, hones, ofInt_add_above le_rfl] at hgroup
  have hneg : (-1 : BitVec w) = BitVec.allOnes w := BitVec.neg_one_eq_allOnes
  rw [← hgroup, BitVec.ofInt_natCast, hneg]

/-- Another group keeps the number below its top. -/
theorem add_group_lt {k n : ℕ} (hn : n < 2 ^ k) (g : BitVec 7) :
    n + 2 ^ k * g.toNat < 2 ^ (k + 7) := by
  have hg : g.toNat + 1 ≤ 2 ^ 7 := g.isLt
  calc n + 2 ^ k * g.toNat < 2 ^ k + 2 ^ k * g.toNat := Nat.add_lt_add_right hn _
    _ = 2 ^ k * (g.toNat + 1) := by ring
    _ ≤ 2 ^ k * 2 ^ 7 := Nat.mul_le_mul_left _ hg
    _ = 2 ^ (k + 7) := (Nat.pow_add 2 k 7).symm

end Leb

end SysLib
