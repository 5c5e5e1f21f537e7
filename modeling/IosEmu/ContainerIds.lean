import IosEmu.Install
import IosEmu.LexicalPath

/-!
# Container ids do not collide

An id is made of two words, `a` with the time and the process and `b` with the time and a counter.
Both are printed with all their digits, so the text has both words back. With the process fixed,
`a` tells the time and then `b` the counter, which is multiplied by an odd number : two ids are
equal only if their counters are, whatever the clock did in between (`container_ids_distinct`).
-/

open SysLib

namespace IosEmu

/-! ## Hexadecimal groups -/

/-- A digit of `{:X}`. -/
def UpperHex (c : Char) : Prop :=
  ('0' ≤ c ∧ c ≤ '9') ∨ ('A' ≤ c ∧ c ≤ 'F')

/-- Groups of 8, 4, 4, 4 and 12 digits. -/
structure UuidShape (u : List Char) : Prop where
  groups : (u.splitOn '-').map List.length = [8, 4, 4, 4, 12]
  digits : ∀ g ∈ u.splitOn '-', ∀ c ∈ g, UpperHex c

theorem upperHex_hexDigit {d : ℕ} (hd : d < 16) : UpperHex (hexDigit d) := by
  unfold UpperHex
  revert d
  decide

theorem hexDigit_inj {d d' : ℕ} (hd : d < 16) (hd' : d' < 16) (h : hexDigit d = hexDigit d') :
    d = d' := by
  have hall : ∀ d < 16, ∀ d' < 16, hexDigit d = hexDigit d' → d = d' := by decide
  exact hall d hd d' hd' h

@[simp] theorem length_hexDigits : ∀ width n : ℕ, (hexDigits width n).length = width
  | 0, _ => rfl
  | width + 1, n => by rw [hexDigits, List.length_append, length_hexDigits, List.length_singleton]

theorem upperHex_of_mem_hexDigits {c : Char} :
    ∀ {width n : ℕ}, c ∈ hexDigits width n → UpperHex c
  | 0, _, h => absurd h List.not_mem_nil
  | width + 1, n, h => by
    rw [hexDigits, List.mem_append, List.mem_singleton] at h
    obtain h | rfl := h
    · exact upperHex_of_mem_hexDigits h
    · exact upperHex_hexDigit (Nat.mod_lt n (by omega))

/-- The digits of a number that has no more tell it. -/
theorem hexDigits_inj : ∀ {width n m : ℕ}, n < 16 ^ width → m < 16 ^ width →
    hexDigits width n = hexDigits width m → n = m
  | 0, n, m, hn, hm, _ => by
    rw [pow_zero] at hn hm
    omega
  | width + 1, n, m, hn, hm, h => by
    rw [hexDigits, hexDigits] at h
    obtain ⟨hfront, hlast⟩ := List.append_inj h (by simp)
    rw [pow_succ] at hn hm
    have hdiv := hexDigits_inj (Nat.div_lt_of_lt_mul (by omega)) (Nat.div_lt_of_lt_mul (by omega))
      hfront
    have hmod := hexDigit_inj (Nat.mod_lt n (by omega)) (Nat.mod_lt m (by omega))
      (List.singleton_inj.1 hlast)
    omega

theorem dash_notMem_hexDigits (width n : ℕ) : '-' ∉ hexDigits width n := by
  intro h
  have hdash := upperHex_of_mem_hexDigits h
  unfold UpperHex at hdash
  revert hdash
  decide

theorem splitOn_uuidText (a b c d e : ℕ) : (uuidText a b c d e).splitOn '-' =
    [hexDigits 8 a, hexDigits 4 b, hexDigits 4 c, hexDigits 4 d, hexDigits 12 e] := by
  have hgroup : ∀ (width n : ℕ) (rest : List Char),
      (hexDigits width n ++ '-' :: rest).splitOn '-' = hexDigits width n :: rest.splitOn '-' := by
    intro width n rest
    rw [splitOn_append_of_notMem (dash_notMem_hexDigits width n),
      List.splitOn_cons_eq_if_modifyHead, if_pos (by simp)]
    simp
  rw [uuidText, hgroup, hgroup, hgroup, hgroup, ← List.append_nil (hexDigits 12 e),
    splitOn_append_of_notMem (dash_notMem_hexDigits 12 e)]
  simp

theorem uuidShape_uuidText (a b c d e : ℕ) : UuidShape (uuidText a b c d e) := by
  refine ⟨by simp [splitOn_uuidText], fun g hg x hx => ?_⟩
  rw [splitOn_uuidText] at hg
  simp only [List.mem_cons, List.not_mem_nil, or_false] at hg
  obtain rfl | rfl | rfl | rfl | rfl := hg <;> exact upperHex_of_mem_hexDigits hx

/-! ## The two words -/

/-- The groups have all bits of the two words. -/
theorem words_of_uuidText {a b a' b' : U64}
    (h : uuidText ((a >>> 32).setWidth 32).toNat ((a >>> 16).setWidth 16).toNat
        (a.setWidth 16).toNat ((b >>> 48).setWidth 16).toNat (b &&& 0xffffffffffff).toNat =
      uuidText ((a' >>> 32).setWidth 32).toNat ((a' >>> 16).setWidth 16).toNat
        (a'.setWidth 16).toNat ((b' >>> 48).setWidth 16).toNat (b' &&& 0xffffffffffff).toNat) :
    a = a' ∧ b = b' := by
  have hlow : ∀ x : U64, (x &&& 0xffffffffffff).toNat = x.toNat % 2 ^ 48 := fun x => by
    rw [BitVec.toNat_and]
    exact Nat.and_two_pow_sub_one_eq_mod _ 48
  have hsplit := congrArg (List.splitOn '-') h
  rw [splitOn_uuidText, splitOn_uuidText] at hsplit
  simp only [List.cons.injEq, and_true] at hsplit
  obtain ⟨h₁, h₂, h₃, h₄, h₅⟩ := hsplit
  have e₁ := hexDigits_inj (BitVec.isLt _) (BitVec.isLt _) h₁
  have e₂ := hexDigits_inj (BitVec.isLt _) (BitVec.isLt _) h₂
  have e₃ := hexDigits_inj (BitVec.isLt _) (BitVec.isLt _) h₃
  have e₄ := hexDigits_inj (BitVec.isLt _) (BitVec.isLt _) h₄
  have e₅ := hexDigits_inj (by rw [hlow]; omega) (by rw [hlow]; omega) h₅
  rw [hlow, hlow] at e₅
  simp only [BitVec.toNat_setWidth, BitVec.toNat_ushiftRight, Nat.shiftRight_eq_div_pow]
    at e₁ e₂ e₃ e₄
  constructor <;> apply BitVec.eq_of_toNat_eq <;> omega

/-- The multiplier of the counter is odd, so it has an inverse. -/
theorem mul_multiplier_inj {x y : U64} (h : x * 0x9e3779b97f4a7c15 = y * 0x9e3779b97f4a7c15) :
    x = y := by
  have hinv : (0x9e3779b97f4a7c15 : U64) * 0xf1de83e19937733d = 1#64 := by decide
  calc x = x * (0x9e3779b97f4a7c15 * 0xf1de83e19937733d) := by rw [hinv, BitVec.mul_one]
    _ = y * (0x9e3779b97f4a7c15 * 0xf1de83e19937733d) := by
      rw [← BitVec.mul_assoc, h, BitVec.mul_assoc]
    _ = y := by rw [hinv, BitVec.mul_one]

/-- An id of a process tells its time and its counter. -/
theorem generateUuid_inj {nanos seq nanos' seq' : U64} {pid : U32}
    (h : generateUuid nanos seq pid = generateUuid nanos' seq' pid) :
    nanos = nanos' ∧ seq = seq' := by
  obtain ⟨ha, hb⟩ := words_of_uuidText h
  obtain rfl := (BitVec.xor_left_inj _).1 ha
  exact ⟨rfl, mul_multiplier_inj ((BitVec.xor_right_inj _).1 hb)⟩

/-! ## A process -/

/-- The nanoseconds of a reading of the clock. A time before the epoch is zero. -/
def clockNanos : Option ℕ → U64
  | some nanos => BitVec.ofNat 64 nanos
  | none => 0

/-- The ids of successive calls, with their readings of the clock. Each adds one to the counter. -/
def uuidsFrom (pid : U32) : U64 → List (Option ℕ) → List (List Char)
  | _, [] => []
  | seq, reading :: readings =>
    generateUuid (clockNanos reading) seq pid :: uuidsFrom pid (seq + 1) readings

variable {pid : U32}

/-- An id of a later call has a later counter. -/
theorem exists_of_mem_uuidsFrom {u : List Char} :
    ∀ {readings : List (Option ℕ)} {seq : U64}, u ∈ uuidsFrom pid seq readings →
      ∃ k < readings.length, ∃ nanos, u = generateUuid nanos (seq + BitVec.ofNat 64 k) pid
  | reading :: readings, seq, h => by
    rcases List.mem_cons.1 h with rfl | h
    · exact ⟨0, by simp, _, by rw [show BitVec.ofNat 64 0 = 0#64 from rfl, BitVec.add_zero]⟩
    · obtain ⟨k, hk, nanos, rfl⟩ := exists_of_mem_uuidsFrom h
      refine ⟨k + 1, by simpa using hk, nanos, ?_⟩
      rw [BitVec.add_assoc, BitVec.add_comm 1, BitVec.ofNat_add]
      rfl

/-- The ids of a process are distinct, and have the shape of a UUID, whatever its clock says. -/
theorem container_ids_distinct (pid : U32) (seq : U64) (readings : List (Option ℕ))
    (hlen : readings.length ≤ 2 ^ 64) :
    (uuidsFrom pid seq readings).Nodup ∧ ∀ u ∈ uuidsFrom pid seq readings, UuidShape u := by
  constructor
  · induction readings generalizing seq with
    | nil => exact List.nodup_nil
    | cons reading readings ih =>
      rw [List.length_cons] at hlen
      refine List.nodup_cons.2 ⟨fun hmem => ?_, ih (seq + 1) (by omega)⟩
      obtain ⟨k, hk, nanos, h⟩ := exists_of_mem_uuidsFrom hmem
      have hseq := (generateUuid_inj h).2
      rw [BitVec.add_assoc, eq_comm, BitVec.add_right_eq_self] at hseq
      -- the counters are `k + 1` calls apart, which is less than a full turn
      have hturn := congrArg BitVec.toNat hseq
      simp only [BitVec.toNat_add, BitVec.toNat_ofNat, show (1 : U64).toNat = 1 from rfl] at hturn
      omega
  · intro u hu
    obtain ⟨k, -, nanos, rfl⟩ := exists_of_mem_uuidsFrom hu
    exact uuidShape_uuidText _ _ _ _ _

/-- A clock that stands still and one that runs backwards. -/
theorem container_ids_distinct_three : [some 5, some 5, none].length ≤ 2 ^ 64 ∧
    (uuidsFrom 7 0 [some 5, some 5, none]).Nodup :=
  ⟨by decide, (container_ids_distinct 7 0 [some 5, some 5, none] (by decide)).1⟩

end IosEmu
