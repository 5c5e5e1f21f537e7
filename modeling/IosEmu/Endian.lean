import Mathlib.Data.Nat.Basic
import Mathlib.Tactic.Ring

/-!
# Numbers as byte strings

`leBytes n v` is the low `n` bytes of `v`, lowest first, and `leNat` reads such a
string back. The two are inverse on strings of one length (`leNat_leBytes`,
`leBytes_leNat`), and a long string is a short one followed by the bytes of the
quotient (`leBytes_add`), which is how a word is seen as two half words. The big-endian
forms are the reversed strings.
-/

namespace SysLib

/-- A byte. -/
abbrev Byte := BitVec 8

/-- The value of a byte string, lowest byte first. -/
def leNat : List Byte → ℕ
  | [] => 0
  | b :: l => b.toNat + 256 * leNat l

/-- The low `n` bytes of `v`, lowest first. -/
def leBytes : ℕ → ℕ → List Byte
  | 0, _ => []
  | n + 1, v => BitVec.ofNat 8 v :: leBytes n (v / 256)

/-- The value of a byte string, highest byte first. -/
def beNat (l : List Byte) : ℕ :=
  leNat l.reverse

/-- The low `n` bytes of `v`, highest first. -/
def beBytes (n v : ℕ) : List Byte :=
  (leBytes n v).reverse

@[simp] theorem length_leBytes : ∀ n v : ℕ, (leBytes n v).length = n
  | 0, _ => rfl
  | n + 1, v => by simp [leBytes, length_leBytes n]

@[simp] theorem length_beBytes (n v : ℕ) : (beBytes n v).length = n := by
  simp [beBytes]

/-- Reading back what was written gives the value modulo `256 ^ n`. -/
theorem leNat_leBytes : ∀ n v : ℕ, leNat (leBytes n v) = v % 256 ^ n
  | 0, v => by simp [leBytes, leNat, Nat.mod_one]
  | n + 1, v => by
    have hbyte : (BitVec.ofNat 8 v).toNat = v % 256 := BitVec.toNat_ofNat v 8
    rw [leBytes, leNat, leNat_leBytes n, hbyte, pow_succ' 256 n, Nat.mod_mul]

theorem leNat_lt : ∀ l : List Byte, leNat l < 256 ^ l.length
  | [] => by simp [leNat]
  | b :: l => by
    have ih := leNat_lt l
    have hb := b.isLt
    rw [leNat, List.length_cons, pow_succ]
    omega

/-- A byte string is determined by its length and value. -/
theorem leBytes_leNat : ∀ l : List Byte, leBytes l.length (leNat l) = l
  | [] => rfl
  | b :: l => by
    have hb := b.isLt
    have hdiv : (b.toNat + 256 * leNat l) / 256 = leNat l := by omega
    rw [List.length_cons, leBytes, leNat, hdiv, leBytes_leNat l]
    congr 1
    apply BitVec.eq_of_toNat_eq
    rw [BitVec.toNat_ofNat]
    omega

theorem leNat_append : ∀ l l' : List Byte,
    leNat (l ++ l') = leNat l + 256 ^ l.length * leNat l'
  | [], l' => by simp [leNat]
  | b :: l, l' => by
    rw [List.cons_append, leNat, leNat, leNat_append l l', List.length_cons]
    ring

theorem beNat_cons (b : Byte) (l : List Byte) :
    beNat (b :: l) = b.toNat * 256 ^ l.length + beNat l := by
  rw [beNat, List.reverse_cons, leNat_append, List.length_reverse, beNat]
  simp only [leNat]
  ring

theorem beNat_beBytes (n v : ℕ) : beNat (beBytes n v) = v % 256 ^ n := by
  rw [beNat, beBytes, List.reverse_reverse, leNat_leBytes]

theorem leBytes_add (m : ℕ) : ∀ n v : ℕ,
    leBytes (n + m) v = leBytes n v ++ leBytes m (v / 256 ^ n)
  | 0, v => by simp [leBytes]
  | n + 1, v => by
    rw [Nat.add_right_comm, leBytes, leBytes, leBytes_add m n, List.cons_append,
      Nat.div_div_eq_div_mul, ← pow_succ']

end SysLib
