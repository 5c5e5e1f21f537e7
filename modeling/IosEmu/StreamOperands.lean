import IosEmu.Leb128
import IosEmu.OpcodeStream
import IosEmu.StreamPanics
import Mathlib.Data.List.TakeWhile

/-!
# The operands of an opcode

An opcode stands in the high half of a byte, with an immediate in the low half. The numbers behind
it are LEB128. `read_uleb` gathers the groups in a word and stops at the last one; it computes the
number modulo `2 ^ 64` as long as its count of bits does not overflow (`readUleb_bytes`). `read_sleb`
shifts by its count without a check, and is right for ten groups and no more (`readSleb_bytes`).
-/

open SysLib

namespace IosEmu

variable {p : Profile}

/-! ## Opcode bytes -/

/-- An opcode with its immediate. -/
def opcodeByte (code imm : BitVec 4) : U8 :=
  code ++ imm

theorem opcodeByte_code : ∀ code imm : BitVec 4,
    (opcodeByte code imm &&& 0xf0).toNat = 16 * code.toNat := by
  decide

theorem opcodeByte_imm : ∀ code imm : BitVec 4, opcodeByte code imm &&& 0x0f = imm.setWidth 8 := by
  decide

theorem opcodeByte_halves : ∀ byte : U8,
    byte = opcodeByte (byte.extractLsb' 4 4) (byte.extractLsb' 0 4) := by
  decide

theorem exists_opcodeByte (byte : U8) : ∃ code imm, byte = opcodeByte code imm :=
  ⟨_, _, opcodeByte_halves byte⟩

/-! ## Numbers without a sign -/

theorem add_seven_of_lt {k : ℕ} (hk : 7 * (k + 1) < 2 ^ 32) :
    p.add (BitVec.ofNat 32 (7 * k)) 7 = .ok (BitVec.ofNat 32 (7 * (k + 1))) := by
  rw [← shift_add]
  refine Profile.add_of_lt ?_
  rw [BitVec.toNat_ofNat, Nat.mod_eq_of_lt (by omega)]
  change 7 * k + 7 < 2 ^ 32
  omega

/-- One group : it is gathered, or lies above the word. -/
theorem gather {k n : ℕ} (hn : n < 2 ^ (7 * k)) (hk : 7 * (k + 1) < 2 ^ 32) (b : U8) :
    (if (BitVec.ofNat 32 (7 * k)) < 64 then
      BitVec.ofNat 64 n ||| (b &&& 0x7f).setWidth 64 <<< (BitVec.ofNat 32 (7 * k)).toNat
      else BitVec.ofNat 64 n) = BitVec.ofNat 64 (n + 2 ^ (7 * k) * (b &&& 0x7f).toNat) := by
  have hshift : (BitVec.ofNat 32 (7 * k)).toNat = 7 * k := by
    rw [BitVec.toNat_ofNat]
    omega
  have hlt : BitVec.ofNat 32 (7 * k) < 64 ↔ 7 * k < 64 := by
    rw [BitVec.lt_def, hshift]
    rfl
  by_cases h : 7 * k < 64
  · rw [if_pos (hlt.2 h), hshift, Leb.ofNat_or_group hn]
  · rw [if_neg (mt hlt.1 h), Leb.ofNat_add_above (by omega)]

theorem ulebFrom_bytes {msg : String} {rest : List U8} : ∀ {l : Leb} {k n : ℕ}, n < 2 ^ (7 * k) →
    7 * (k + l.length) < 2 ^ 32 →
    ulebFrom p msg (l.bytes ++ rest) (BitVec.ofNat 32 (7 * k)) (BitVec.ofNat 64 n) =
      .ok (BitVec.ofNat 64 (n + 2 ^ (7 * k) * l.nat)) rest
  | .last g, k, n, hn, hk => by
    have hk' : 7 * (k + 1) < 2 ^ 32 := hk
    rw [Leb.bytes, List.singleton_append, ulebFrom]
    simp only [add_seven_of_lt hk', gather hn hk', Leb.last_flag, Leb.group_last, if_pos]
    rfl
  | .more g l, k, n, hn, hk => by
    have hk' : 7 * (k + 1 + l.length) < 2 ^ 32 := by
      rw [Leb.length] at hk
      omega
    have hpos := l.length_pos
    have hone : 7 * (k + 1) < 2 ^ 32 := by omega
    have hn' : n + 2 ^ (7 * k) * g.toNat < 2 ^ (7 * (k + 1)) := Leb.add_group_lt hn g
    rw [Leb.bytes, List.cons_append, ulebFrom]
    simp only [add_seven_of_lt hone, gather hn hone, if_neg (Leb.more_flag g), Leb.group_more]
    rw [ulebFrom_bytes hn' hk', Leb.nat]
    congr 2
    rw [Nat.mul_add, Nat.pow_add]
    ring

theorem front_of_ulebFrom {msg : String} {v : U64} {rest : List U8} :
    ∀ {buf : List U8} {shift : U32} {result : U64},
      ulebFrom p msg buf shift result = .ok v rest → ∃ l : Leb, buf = l.bytes ++ rest
  | [], _, _, h => by cases h
  | b :: buf, shift, result, h => by
    rw [ulebFrom] at h
    rcases hadd : p.add shift 7 with e | shift' <;> simp only [hadd] at h
    · cases h
    rcases Leb.exists_front b buf with ⟨hflag, hfront⟩ | ⟨hflag, hfront⟩
    · rw [if_pos hflag] at h
      obtain ⟨-, rfl⟩ := Outcome.ok.inj h
      exact ⟨_, hfront⟩
    · rw [if_neg hflag] at h
      obtain ⟨l, hl⟩ := front_of_ulebFrom h
      exact ⟨_, hfront l rest hl⟩

/-! ## Numbers with a sign -/

theorem shl_of_lt {k : ℕ} (hk : 7 * k < 64) (x : U64) :
    p.shl x (BitVec.ofNat 32 (7 * k)) = .ok (x <<< (7 * k)) := by
  have hshift : (BitVec.ofNat 32 (7 * k)).toNat = 7 * k := by
    rw [BitVec.toNat_ofNat]
    omega
  cases p with
  | release =>
    rw [Profile.shl, hshift, Nat.mod_eq_of_lt hk]
  | debug =>
    rw [Profile.shl, hshift]
    exact if_pos hk

/-- The sign is extended to the word, unless the number already fills it. -/
theorem extend_sign {k n : ℕ} (hn : n < 2 ^ k) (hk : k < 2 ^ 32) (sign : Prop) [Decidable sign] :
    (if BitVec.ofNat 32 k < 64 ∧ sign then
      BitVec.ofNat 64 n ||| (-1 : U64) <<< (BitVec.ofNat 32 k).toNat else BitVec.ofNat 64 n) =
      BitVec.ofInt 64 (n - if sign then 2 ^ k else 0) := by
  have hshift : (BitVec.ofNat 32 k).toNat = k := Nat.mod_eq_of_lt hk
  have hlt : BitVec.ofNat 32 k < 64 ↔ k < 64 := by
    rw [BitVec.lt_def, hshift]
    rfl
  by_cases hsign : sign
  · rw [if_pos hsign]
    by_cases h : k < 64
    · rw [if_pos ⟨hlt.2 h, hsign⟩, hshift, Leb.or_sign hn]
    · have habove := Leb.ofInt_add_above (not_lt.1 h) n (-1)
      rw [mul_neg_one, ← sub_eq_add_neg] at habove
      rw [if_neg fun hand => h (hlt.1 hand.1), habove, BitVec.ofInt_natCast]
  · rw [if_neg hsign, if_neg fun hand => hsign hand.2, sub_zero, BitVec.ofInt_natCast]

/-- A number with a sign, read from its group with number `k` on. -/
theorem slebFrom_bytes {rest : List U8} : ∀ {l : Leb} {k n : ℕ}, n < 2 ^ (7 * k) →
    k + l.length ≤ 10 →
    slebFrom p (l.bytes ++ rest) (BitVec.ofNat 32 (7 * k)) (BitVec.ofNat 64 n) =
      .ok (BitVec.ofInt 64 (n + 2 ^ (7 * k) * l.int)) rest
  | .last g, k, n, hn, hk => by
    have hk' : k + 1 ≤ 10 := hk
    have hn' : n + 2 ^ (7 * k) * g.toNat < 2 ^ (7 * (k + 1)) := Leb.add_group_lt hn g
    have hsign := extend_sign hn' (by omega) ((0#1 ++ g : BitVec 8) &&& 0x40 ≠ 0)
    rw [Leb.bytes, List.singleton_append, slebFrom]
    simp only [add_seven_of_lt (show 7 * (k + 1) < 2 ^ 32 by omega),
      shl_of_lt (show 7 * k < 64 by omega), Leb.ofNat_or_group hn, Leb.last_flag, ne_eq,
      not_true_eq_false, if_false, Leb.group_last]
    rw [← apply_ite (fun v => Outcome.ok v rest), hsign, Leb.int, Leb.sign_last g, Nat.mul_add,
      pow_add]
    congr 2
    split_ifs
    all_goals
      push_cast
      ring
  | .more g l, k, n, hn, hk => by
    have hk' : k + 1 + l.length ≤ 10 := by
      rw [Leb.length] at hk
      omega
    have hn' : n + 2 ^ (7 * k) * g.toNat < 2 ^ (7 * (k + 1)) := Leb.add_group_lt hn g
    rw [Leb.bytes, List.cons_append, slebFrom]
    simp only [add_seven_of_lt (show 7 * (k + 1) < 2 ^ 32 by omega),
      shl_of_lt (show 7 * k < 64 by omega), Leb.ofNat_or_group hn, if_pos (Leb.more_flag g),
      Leb.group_more]
    rw [slebFrom_bytes hn' hk', Leb.int, Nat.mul_add, pow_add]
    congr 2
    push_cast
    ring

theorem front_of_slebFrom {v : U64} {rest : List U8} :
    ∀ {buf : List U8} {shift : U32} {result : U64},
      slebFrom p buf shift result = .ok v rest → ∃ l : Leb, buf = l.bytes ++ rest
  | [], _, _, h => by cases h
  | b :: buf, shift, result, h => by
    rw [slebFrom] at h
    rcases hshl : p.shl ((b &&& 0x7f).setWidth 64) shift with e | digit <;>
      rcases hadd : p.add shift 7 with e' | shift' <;> simp only [hshl, hadd] at h
    · cases h
    · cases h
    · cases h
    rcases Leb.exists_front b buf with ⟨hflag, hfront⟩ | ⟨hflag, hfront⟩
    · rw [if_neg (not_not_intro hflag), ← apply_ite (fun v => Outcome.ok v buf)] at h
      obtain ⟨-, rfl⟩ := Outcome.ok.inj h
      exact ⟨_, hfront⟩
    · rw [if_pos hflag] at h
      obtain ⟨l, hl⟩ := front_of_slebFrom h
      exact ⟨_, hfront l rest hl⟩

/-! ## The readers -/

/-- The word that a number without a sign is read as. -/
def uleb (l : Leb) : U64 :=
  BitVec.ofNat 64 l.nat

/-- The word that a number with a sign is read as. -/
def sleb (l : Leb) : U64 :=
  BitVec.ofInt 64 l.int

/-- Every word has an encoding in ten groups. -/
theorem exists_uleb (v : U64) : ∃ l : Leb, l.length ≤ 10 ∧ uleb l = v := by
  refine ⟨Leb.ofNat 9 v.toNat, Leb.length_ofNat 9 _, ?_⟩
  have hv : v.toNat < 2 ^ (7 * (9 + 1)) := v.isLt.trans (by decide)
  rw [uleb, Leb.nat_ofNat hv, BitVec.ofNat_toNat, BitVec.setWidth_eq]

theorem ulebFrom_zero {msg : String} {l : Leb} (hlen : 7 * l.length < 2 ^ 32) (rest : List U8) :
    ulebFrom p msg (l.bytes ++ rest) 0 0 = .ok (uleb l) rest := by
  have h := @ulebFrom_bytes p msg rest l 0 0 Nat.one_pos (by rwa [Nat.zero_add])
  rw [Nat.mul_zero, Nat.pow_zero, Nat.one_mul, Nat.zero_add] at h
  exact h

theorem readSleb_bytes {l : Leb} (hlen : l.length ≤ 10) (rest : List U8) :
    readSleb p (l.bytes ++ rest) = .ok (sleb l) rest := by
  have h := @slebFrom_bytes p rest l 0 0 Nat.one_pos (by rwa [Nat.zero_add])
  rw [Nat.mul_zero, pow_zero, one_mul, Nat.cast_zero, zero_add] at h
  exact h

/-- The bytes of a symbol, which end at the first NUL. -/
structure SymbolBytes where
  bytes : List U8
  nulFree : 0 ∉ bytes
  deriving DecidableEq

/-- The symbol that the bytes are read as. -/
def SymbolBytes.text (s : SymbolBytes) : String :=
  fromUtf8Lossy s.bytes

theorem readSymbol_bytes (s : SymbolBytes) (rest : List U8) :
    readSymbol (s.bytes ++ 0 :: rest) = .ok s.text rest := by
  have hne : ∀ b ∈ s.bytes, decide (b ≠ 0) = true := by
    intro b hb
    refine decide_eq_true ?_
    rintro rfl
    exact s.nulFree hb
  have hdrop : (s.bytes ++ 0 :: rest).dropWhile (· ≠ 0) = 0 :: rest := by
    rw [List.dropWhile_append_of_pos hne, List.dropWhile_cons]
    simp
  have htake : (s.bytes ++ 0 :: rest).takeWhile (· ≠ 0) = s.bytes := by
    rw [List.takeWhile_append_of_pos hne, List.takeWhile_cons]
    simp
  rw [readSymbol, hdrop, htake]
  rfl

theorem front_of_readSymbol {buf rest : List U8} {v : String} (h : readSymbol buf = .ok v rest) :
    ∃ s : SymbolBytes, buf = s.bytes ++ 0 :: rest := by
  unfold readSymbol at h
  rcases hdrop : buf.dropWhile (· ≠ 0) with _ | ⟨b, tail⟩
  · rw [hdrop] at h
    cases h
  · have hne : buf.dropWhile (· ≠ 0) ≠ [] := by
      rw [hdrop]
      exact List.cons_ne_nil b tail
    have hhead := List.head_dropWhile_not (fun b : U8 => decide (b ≠ 0)) hne
    simp only [hdrop, List.head_cons, decide_eq_false_iff_not, not_not] at hhead
    subst hhead
    rw [hdrop] at h
    obtain ⟨-, rfl⟩ := Outcome.ok.inj h
    refine ⟨⟨buf.takeWhile (· ≠ 0), fun hmem => ?_⟩, ?_⟩
    · have hfalse := List.mem_takeWhile_imp hmem
      simp at hfalse
    · rw [← hdrop]
      exact List.takeWhile_append_dropWhile.symm

end IosEmu
