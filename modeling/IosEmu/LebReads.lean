import IosEmu.BindCodes
import IosEmu.RebaseCodes
import Mathlib.Algebra.BigOperators.Ring.Finset

/-!
# Reading LEB128 numbers

`read_uleb`, of which there are two copies, and `read_sleb` on any bytes. A number ends at the first
byte that does not ask for another one. The readers without a sign are exact on every buffer whose
length they can count in 32 bits seven at a time (`uleb_exact`).

`read_sleb` shifts by its count without the check that the other reader makes. From the eleventh
byte on a checked build panics, and an unchecked one shifts by the count modulo 64, so that digits
that lie above the word come down into it. The number is right if every bit that comes down is set
already (`Covered`, `sleb_exact_iff`).
-/

open SysLib

namespace SysLib.Leb

/-- A number, or bytes that all ask for another one. -/
theorem exists_front_or : ∀ bytes : List (BitVec 8),
    (∃ l : Leb, l.bytes <+: bytes) ∨ ∀ b ∈ bytes, b &&& 0x80 ≠ 0
  | [] => Or.inr fun _ hb => absurd hb List.not_mem_nil
  | b :: rest => by
    rcases exists_front b rest with ⟨-, hfront⟩ | ⟨hflag, hfront⟩
    · exact Or.inl ⟨_, rest, hfront.symm⟩
    rcases exists_front_or rest with ⟨l, tail, htail⟩ | hrest
    · exact Or.inl ⟨_, tail, (hfront l tail htail.symm).symm⟩
    · exact Or.inr (List.forall_mem_cons.2 ⟨hflag, hrest⟩)

/-- Where the number ends, and that the bytes before ask for another one. -/
theorem flags {rest : List (BitVec 8)} : ∀ l : Leb,
    (∃ b, (l.bytes ++ rest)[l.length - 1]? = some b ∧ b &&& 0x80 = 0) ∧
      ∀ i < l.length - 1, ∃ b, (l.bytes ++ rest)[i]? = some b ∧ b &&& 0x80 ≠ 0
  | last g => ⟨⟨_, rfl, last_flag g⟩, fun _ hi => absurd hi (Nat.not_lt_zero _)⟩
  | more g l => by
    obtain ⟨⟨b, hb, hflag⟩, hmore⟩ := @flags rest l
    obtain ⟨n, hn⟩ := Nat.exists_eq_add_one_of_ne_zero (Nat.ne_of_gt l.length_pos)
    rw [length, bytes, hn, Nat.add_sub_cancel, List.cons_append]
    rw [hn, Nat.add_sub_cancel] at hb hmore
    refine ⟨⟨b, by rwa [List.getElem?_cons_succ], hflag⟩, fun i hi => ?_⟩
    cases i with
    | zero => exact ⟨_, rfl, more_flag g⟩
    | succ i =>
      rw [List.getElem?_cons_succ]
      exact hmore i (by omega)

theorem toNat_more : ∀ g : BitVec 7, (1#1 ++ g : BitVec 8).toNat % 128 = g.toNat := by
  decide

theorem toNat_last : ∀ g : BitVec 7, (0#1 ++ g : BitVec 8).toNat % 128 = g.toNat := by
  decide

/-- The sum of some digits, the lowest first. -/
def digitSum (bytes : List (BitVec 8)) (n : ℕ) : ℕ :=
  ∑ i ∈ Finset.range n, (bytes.getD i 0).toNat % 128 * 2 ^ (7 * i)

theorem digitSum_succ (b : BitVec 8) (bytes : List (BitVec 8)) (n : ℕ) :
    digitSum (b :: bytes) (n + 1) = b.toNat % 128 + 2 ^ 7 * digitSum bytes n := by
  rw [digitSum, Finset.sum_range_succ', digitSum, Finset.mul_sum, Nat.add_comm]
  refine congrArg₂ (· + ·) (Nat.mul_one _) (Finset.sum_congr rfl fun i _ => ?_)
  rw [List.getD_cons_succ, Nat.mul_add, Nat.pow_add]
  ring

theorem digitSum_one (b : BitVec 8) (bytes : List (BitVec 8)) :
    digitSum (b :: bytes) 1 = b.toNat % 128 := by
  rw [digitSum_succ, digitSum, Finset.sum_range_zero, Nat.mul_zero, Nat.add_zero]

/-- The value of a number is the sum of its digits. -/
theorem nat_eq_sum {rest : List (BitVec 8)} : ∀ l : Leb, l.nat = digitSum (l.bytes ++ rest) l.length
  | last g => by
    rw [length, bytes, List.singleton_append, digitSum_one, toNat_last, nat]
  | more g l => by
    rw [length, bytes, List.cons_append, digitSum_succ, toNat_more, ← nat_eq_sum l, nat]

/-- With its sign, it is less by a power of two if the last digit says so. -/
theorem int_eq_sum {rest : List (BitVec 8)} {b : BitVec 8} : ∀ l : Leb,
    (l.bytes ++ rest)[l.length - 1]? = some b →
      l.int = digitSum (l.bytes ++ rest) l.length - if b &&& 0x40 ≠ 0 then 2 ^ (7 * l.length) else 0
  | last g, hb => by
    obtain rfl : 0#1 ++ g = b := Option.some.inj hb
    rw [length, bytes, List.singleton_append, digitSum_one, toNat_last, int, sign_last]
  | more g l, hb => by
    obtain ⟨n, hn⟩ := Nat.exists_eq_add_one_of_ne_zero (Nat.ne_of_gt l.length_pos)
    have hlast : (l.bytes ++ rest)[l.length - 1]? = some b := by
      rw [length, bytes, hn, Nat.add_sub_cancel, List.cons_append, List.getElem?_cons_succ] at hb
      rwa [hn, Nat.add_sub_cancel]
    rw [length, bytes, List.cons_append, digitSum_succ, toNat_more, int, int_eq_sum l hlast,
      Nat.mul_add, pow_add]
    split_ifs
    all_goals
      push_cast
      ring

/-- The digits from number `n` on lie above those before it. -/
theorem exists_int_eq {rest : List (BitVec 8)} : ∀ {n : ℕ} {l : Leb}, n < l.length →
    ∃ m : ℤ, l.int = digitSum (l.bytes ++ rest) n + 2 ^ (7 * n) * m
  | 0, l, _ => by
    refine ⟨l.int, ?_⟩
    rw [digitSum, Finset.sum_range_zero, Nat.mul_zero, pow_zero, one_mul, Nat.cast_zero, zero_add]
  | n + 1, last _, hn => absurd hn (by rw [length]; omega)
  | n + 1, more g l, hn => by
    obtain ⟨m, hm⟩ := @exists_int_eq rest n l (Nat.lt_of_succ_lt_succ hn)
    refine ⟨m, ?_⟩
    rw [bytes, List.cons_append, digitSum_succ, toNat_more, int, hm, Nat.mul_add, pow_add]
    push_cast
    ring

end SysLib.Leb

namespace IosEmu

variable {p : Profile} {buf : List U8} {pos n : ℕ}

/-! ## Where a number ends -/

/-- From `pos` on, the byte with number `n` is the first that does not ask for another one. -/
def EndsAt (buf : List U8) (pos n : ℕ) : Prop :=
  (∃ b, buf[pos + n]? = some b ∧ b &&& 0x80 = 0) ∧
    ∀ i < n, ∃ b, buf[pos + i]? = some b ∧ b &&& 0x80 ≠ 0

theorem EndsAt.unique {m : ℕ} (hm : EndsAt buf pos m) (hn : EndsAt buf pos n) : m = n := by
  have hle : ∀ {m n}, EndsAt buf pos m → EndsAt buf pos n → ¬ m < n := by
    rintro m n ⟨⟨b, hb, hlast⟩, -⟩ ⟨-, hmore⟩ hlt
    obtain ⟨b', hb', hflag⟩ := hmore m hlt
    rw [hb, Option.some_inj] at hb'
    exact hflag (hb' ▸ hlast)
  exact Nat.le_antisymm (not_lt.1 (hle hn hm)) (not_lt.1 (hle hm hn))

theorem endsAt_of_bytes {l : Leb} (hl : l.bytes <+: buf.drop pos) :
    EndsAt buf pos (l.length - 1) := by
  obtain ⟨rest, hrest⟩ := hl
  have hflags := @Leb.flags rest l
  rw [hrest] at hflags
  simp only [List.getElem?_drop] at hflags
  exact hflags

/-- A number ends where its last byte is. -/
theorem endsAt_iff : EndsAt buf pos n ↔ ∃ l : Leb, l.length = n + 1 ∧ l.bytes <+: buf.drop pos := by
  refine ⟨fun h => ?_, ?_⟩
  · rcases Leb.exists_front_or (buf.drop pos) with ⟨l, hl⟩ | hmore
    · have hlen := h.unique (endsAt_of_bytes hl)
      have hpos := l.length_pos
      exact ⟨l, by omega, hl⟩
    · obtain ⟨⟨b, hb, hlast⟩, -⟩ := h
      rw [← List.getElem?_drop] at hb
      exact absurd hlast (hmore b (List.mem_of_getElem? hb))
  · rintro ⟨l, hlen, hl⟩
    have hends := endsAt_of_bytes hl
    rwa [hlen, Nat.add_sub_cancel] at hends

theorem drop_of_bytes {l : Leb} (hl : l.bytes <+: buf.drop pos) :
    buf.drop pos = l.bytes ++ buf.drop (pos + l.length) := by
  obtain ⟨rest, hrest⟩ := hl
  rw [← List.drop_drop, ← hrest, ← l.length_bytes, List.drop_left]

/-! ## Numbers without a sign -/

/-- The bytes from `pos` to the one with number `n`, as one sum. -/
def ulebSum (buf : List U8) (pos n : ℕ) : ℕ :=
  Leb.digitSum (buf.drop pos) (n + 1)

/-- A reader of numbers without a sign is exact from `pos` on. -/
structure UlebExact (read : StreamM U64) (buf : List U8) (pos : ℕ) : Prop where
  succeeds : (∃ v rest, read (buf.drop pos) = .ok v rest) ↔ ∃ n, EndsAt buf pos n
  fails : (∃ e rest, read (buf.drop pos) = .err e rest) ↔ ∀ n, ¬ EndsAt buf pos n
  reads : ∀ n, EndsAt buf pos n → read (buf.drop pos) =
    .ok (BitVec.ofNat 64 (ulebSum buf pos n)) (buf.drop (pos + (n + 1)))
  inverts : ∀ (l : Leb) (v : U64), l.nat = v.toNat → l.bytes <+: buf.drop pos →
    read (buf.drop pos) = .ok v (buf.drop (pos + l.length))

/-- Bytes that all ask for another one are refused. -/
theorem ulebFrom_more {msg : String} : ∀ {l : List U8} {k : ℕ} {result : U64},
    (∀ b ∈ l, b &&& 0x80 ≠ 0) → 7 * (k + l.length) < 2 ^ 32 →
      ulebFrom p msg l (BitVec.ofNat 32 (7 * k)) result = .err (.dyld msg) []
  | [], _, _, _, _ => rfl
  | b :: rest, k, result, hmore, hk => by
    obtain ⟨hb, hrest⟩ := List.forall_mem_cons.1 hmore
    rw [List.length_cons] at hk
    rw [ulebFrom]
    simp only [add_seven_of_lt (show 7 * (k + 1) < 2 ^ 32 by omega), if_neg hb]
    exact ulebFrom_more hrest (by omega)

theorem ulebExact_of_short (msg : String) (pos : ℕ) (hbuf : buf.length < 2 ^ 29) :
    UlebExact (fun buf => ulebFrom p msg buf 0 0) buf pos := by
  have hbytes : ∀ l : Leb, l.bytes <+: buf.drop pos →
      ulebFrom p msg (buf.drop pos) 0 0 = .ok (uleb l) (buf.drop (pos + l.length)) := by
    intro l hl
    have hlen := hl.length_le
    rw [l.length_bytes, List.length_drop] at hlen
    rw [drop_of_bytes hl]
    exact ulebFrom_zero (by omega) _
  have hreads : ∀ n, EndsAt buf pos n → ulebFrom p msg (buf.drop pos) 0 0 =
      .ok (BitVec.ofNat 64 (ulebSum buf pos n)) (buf.drop (pos + (n + 1))) := by
    intro n hn
    obtain ⟨l, hlen, hl⟩ := endsAt_iff.1 hn
    rw [hbytes l hl, ← hlen, uleb, ulebSum, ← hlen, drop_of_bytes hl, ← Leb.nat_eq_sum]
  have hfails : (∀ n, ¬ EndsAt buf pos n) →
      ulebFrom p msg (buf.drop pos) 0 0 = .err (.dyld msg) [] := by
    intro hnone
    rcases Leb.exists_front_or (buf.drop pos) with ⟨l, hl⟩ | hmore
    · exact absurd (endsAt_of_bytes hl) (hnone _)
    · refine @ulebFrom_more p msg _ 0 0 hmore ?_
      rw [List.length_drop]
      omega
  refine ⟨⟨?_, ?_⟩, ⟨?_, ?_⟩, hreads, ?_⟩
  · rintro ⟨v, rest, hok⟩
    by_contra hnone
    have herr := hfails (not_exists.1 hnone)
    rw [hok] at herr
    cases herr
  · rintro ⟨n, hn⟩
    exact ⟨_, _, hreads n hn⟩
  · rintro ⟨e, rest, herr⟩ n hn
    rw [hreads n hn] at herr
    cases herr
  · intro hnone
    exact ⟨_, _, hfails hnone⟩
  · intro l v hv hl
    rw [hbytes l hl, uleb, hv, BitVec.ofNat_toNat, BitVec.setWidth_eq]

/-- Both copies of `read_uleb` are exact and agree. -/
theorem uleb_exact (p : Profile) (pos : ℕ) (hbuf : buf.length < 2 ^ 29) :
    UlebExact (Bind.readUleb p) buf pos ∧ UlebExact (Rebase.readUleb p) buf pos ∧
      ∀ v rest, Bind.readUleb p (buf.drop pos) = .ok v rest ↔
        Rebase.readUleb p (buf.drop pos) = .ok v rest := by
  have hbind : UlebExact (Bind.readUleb p) buf pos := ulebExact_of_short "uleb truncated" pos hbuf
  have hrebase : UlebExact (Rebase.readUleb p) buf pos :=
    ulebExact_of_short "rebase uleb truncated" pos hbuf
  refine ⟨hbind, hrebase, fun v rest => ⟨fun hok => ?_, fun hok => ?_⟩⟩
  · obtain ⟨n, hn⟩ := hbind.succeeds.1 ⟨v, rest, hok⟩
    rw [hrebase.reads n hn, ← hok, hbind.reads n hn]
  · obtain ⟨n, hn⟩ := hrebase.succeeds.1 ⟨v, rest, hok⟩
    rw [hbind.reads n hn, ← hok, hrebase.reads n hn]

theorem uleb_exact_padded : ([0x80, 0xe5, 0x8e, 0xa6, 0x00] : List U8).length < 2 ^ 29 ∧
    (UlebExact (Bind.readUleb .debug) [0x80, 0xe5, 0x8e, 0xa6, 0x00] 1 ∧
      UlebExact (Rebase.readUleb .debug) [0x80, 0xe5, 0x8e, 0xa6, 0x00] 1 ∧
      ∀ v rest, Bind.readUleb .debug ([0x80, 0xe5, 0x8e, 0xa6, 0x00].drop 1) = .ok v rest ↔
        Rebase.readUleb .debug ([0x80, 0xe5, 0x8e, 0xa6, 0x00].drop 1) = .ok v rest) :=
  have hlen : ([0x80, 0xe5, 0x8e, 0xa6, 0x00] : List U8).length < 2 ^ 29 := by decide
  ⟨hlen, uleb_exact .debug 1 hlen⟩

example : Bind.readUleb .debug [0xe5, 0x8e, 0xa6, 0x00] = .ok 624485 [] := by decide

/-! ## Numbers with a sign -/

/-- The bytes from `pos` to the one with number `n`, as one sum, less the sign that the last of them
has. -/
def slebSum (buf : List U8) (pos n : ℕ) : ℤ :=
  ulebSum buf pos n - if buf.getD (pos + n) 0 &&& 0x40 ≠ 0 then 2 ^ (7 * (n + 1)) else 0

/-- `read_sleb` is exact from `pos` on. -/
structure SlebExact (p : Profile) (buf : List U8) (pos : ℕ) : Prop where
  safe : (readSleb p).Safe (buf.drop pos)
  fails : (∃ e rest, readSleb p (buf.drop pos) = .err e rest) ↔ ∀ n, ¬ EndsAt buf pos n
  reads : ∀ n, EndsAt buf pos n → readSleb p (buf.drop pos) =
    .ok (BitVec.ofInt 64 (slebSum buf pos n)) (buf.drop (pos + (n + 1)))
  inverts : ∀ (l : Leb) (v : U64), l.int = v.toInt → l.bytes <+: buf.drop pos →
    readSleb p (buf.drop pos) = .ok v (buf.drop (pos + l.length))

/-- Every bit of `a` is set in `w`. -/
def BitsWithin (w a : U64) : Prop :=
  w ||| a = w

/-- The digits with numbers from `k` on that come down into the word add nothing to it. A digit
comes down at its shift modulo 64, and the sign also does when the count of bits wraps to less than
64. -/
def Covered (w : U64) : ℕ → Leb → Prop
  | k, .last g => (10 ≤ k → BitsWithin w (g.setWidth 64 <<< (7 * k % 64))) ∧
      (10 ≤ k → 7 * (k + 1) % 2 ^ 32 < 64 → g.msb = true →
        BitsWithin w ((-1 : U64) <<< (7 * (k + 1) % 2 ^ 32)))
  | k, .more g l => (10 ≤ k → BitsWithin w (g.setWidth 64 <<< (7 * k % 64))) ∧ Covered w (k + 1) l

theorem covered_of_le {w : U64} : ∀ {l : Leb} {k : ℕ}, k + l.length ≤ 10 → Covered w k l
  | .last _, k, hk => by
    have hlt : ¬ 10 ≤ k := Nat.not_le.2 hk
    exact ⟨fun h => absurd h hlt, fun h => absurd h hlt⟩
  | .more _ l, k, hk => by
    rw [Leb.length] at hk
    exact ⟨fun h => absurd h (by omega), covered_of_le (by omega)⟩

theorem bitsWithin_self (w : U64) : BitsWithin w w :=
  BitVec.or_self

theorem bitsWithin_or {w a b : U64} : BitsWithin w (a ||| b) ↔ BitsWithin w a ∧ BitsWithin w b := by
  unfold BitsWithin
  refine ⟨fun h => ⟨?_, ?_⟩, ?_⟩
  · calc w ||| a = w ||| (a ||| b) ||| a := by rw [h]
      _ = w ||| (a ||| b) := by
        rw [BitVec.or_assoc, BitVec.or_comm (a ||| b), ← BitVec.or_assoc a, BitVec.or_self]
      _ = w := h
  · calc w ||| b = w ||| (a ||| b) ||| b := by rw [h]
      _ = w ||| (a ||| b) := by rw [BitVec.or_assoc, BitVec.or_assoc a, BitVec.or_self]
      _ = w := h
  · rintro ⟨ha, hb⟩
    rw [← BitVec.or_assoc, ha, hb]

/-- The word of the first ten digits. -/
def lowWord (bytes : List U8) : U64 :=
  BitVec.ofNat 64 (Leb.digitSum bytes 10)

/-- A number with more than ten digits is the word of the first ten. -/
theorem sleb_of_long {l : Leb} (hlen : 10 < l.length) (rest : List U8) :
    sleb l = lowWord (l.bytes ++ rest) := by
  obtain ⟨m, hm⟩ := @Leb.exists_int_eq rest 10 l hlen
  rw [sleb, hm, Leb.ofInt_add_above (by decide), BitVec.ofInt_natCast, lowWord]

theorem covered_sleb_iff {l : Leb} {rest : List U8} :
    Covered (sleb l) 0 l ↔ Covered (lowWord (l.bytes ++ rest)) 0 l := by
  rcases Nat.lt_or_ge 10 l.length with hlen | hlen
  · rw [sleb_of_long hlen rest]
  · rw [← Nat.zero_add l.length] at hlen
    exact iff_of_true (covered_of_le hlen) (covered_of_le hlen)

theorem slebSum_of_bytes {l : Leb} (hl : l.bytes <+: buf.drop pos) :
    slebSum buf pos (l.length - 1) = l.int := by
  obtain ⟨⟨b, hb, -⟩, -⟩ := endsAt_of_bytes hl
  have hget : (l.bytes ++ buf.drop (pos + l.length))[l.length - 1]? = some b := by
    rw [← drop_of_bytes hl, List.getElem?_drop]
    exact hb
  rw [slebSum, ulebSum, List.getD_eq_getElem?_getD, hb, Nat.sub_add_cancel l.length_pos,
    drop_of_bytes hl, Leb.int_eq_sum l hget, Option.getD_some]

theorem digit_more (g : BitVec 7) : ((1#1 ++ g : U8) &&& 0x7f).setWidth 64 = g.setWidth 64 :=
  BitVec.eq_of_toNat_eq (by rw [BitVec.toNat_setWidth, BitVec.toNat_setWidth, Leb.group_more])

theorem digit_last (g : BitVec 7) : ((0#1 ++ g : U8) &&& 0x7f).setWidth 64 = g.setWidth 64 :=
  BitVec.eq_of_toNat_eq (by rw [BitVec.toNat_setWidth, BitVec.toNat_setWidth, Leb.group_last])

theorem sign_iff : ∀ g : BitVec 7, (0#1 ++ g : U8) &&& 0x40 ≠ 0 ↔ g.msb = true := by
  decide

/-- Bits are only ever added. -/
theorem bitsWithin_of_slebFrom {w : U64} {rest : List U8} :
    ∀ {l : List U8} {shift : U32} {result : U64},
      slebFrom .release l shift result = .ok w rest → BitsWithin w result
  | [], _, _, h => by cases h
  | b :: l, shift, result, h => by
    rw [slebFrom] at h
    simp only [Profile.shl, Profile.add_release] at h
    split_ifs at h
    · exact (bitsWithin_or.1 (bitsWithin_of_slebFrom h)).1
    · obtain ⟨rfl, -⟩ := Outcome.ok.inj h
      exact (bitsWithin_or.1 (bitsWithin_or.1 (bitsWithin_self _)).1).1
    · obtain ⟨rfl, -⟩ := Outcome.ok.inj h
      exact (bitsWithin_or.1 (bitsWithin_self _)).1

theorem shift_mod (k : ℕ) : (BitVec.ofNat 32 (7 * k)).toNat % 64 = 7 * k % 64 := by
  rw [BitVec.toNat_ofNat, Nat.mod_mod_of_dvd _ (by decide)]

theorem shift_lt_iff (k : ℕ) : BitVec.ofNat 32 (7 * k) < 64 ↔ 7 * k % 2 ^ 32 < 64 := by
  rw [BitVec.lt_def, BitVec.toNat_ofNat]
  rfl

/-- From the eleventh digit on, the word stays as it is exactly if they add nothing to it. -/
theorem slebFrom_above_iff {w : U64} {rest : List U8} : ∀ {l : Leb} {k : ℕ}, 10 ≤ k →
    (slebFrom .release (l.bytes ++ rest) (BitVec.ofNat 32 (7 * k)) w = .ok w rest ↔ Covered w k l)
  | .last g, k, hk => by
    rw [Leb.bytes, List.singleton_append, slebFrom, Covered]
    simp only [Profile.shl, Profile.add_release, shift_mod, shift_add, shift_lt_iff, digit_last,
      sign_iff, Leb.last_flag, ne_eq, not_true_eq_false, if_false, hk, true_implies]
    by_cases hsign : 7 * (k + 1) % 2 ^ 32 < 64 ∧ g.msb = true
    · rw [if_pos hsign, Outcome.ok.injEq, and_iff_left rfl, BitVec.toNat_ofNat, BitVec.or_assoc]
      refine Iff.trans bitsWithin_or (and_congr_right fun _ => ?_)
      exact ⟨fun h _ _ => h, fun h => h hsign.1 hsign.2⟩
    · rw [if_neg hsign, Outcome.ok.injEq, and_iff_left rfl]
      exact (and_iff_left fun hlt hmsb => absurd ⟨hlt, hmsb⟩ hsign).symm
  | .more g l, k, hk => by
    rw [Leb.bytes, List.cons_append, slebFrom, Covered]
    simp only [Profile.shl, Profile.add_release, shift_mod, shift_add, digit_more,
      if_pos (Leb.more_flag g), hk, true_implies]
    rw [← @slebFrom_above_iff w rest l (k + 1) (by omega)]
    refine ⟨fun h => ?_, ?_⟩
    · have hdigit := (bitsWithin_or.1 (bitsWithin_of_slebFrom h)).2
      refine ⟨hdigit, ?_⟩
      rwa [show w ||| g.setWidth 64 <<< (7 * k % 64) = w from hdigit] at h
    · rintro ⟨hdigit, h⟩
      rwa [show w ||| g.setWidth 64 <<< (7 * k % 64) = w from hdigit]

/-- From any digit on : those with numbers below ten are gathered. -/
theorem slebFrom_eq_iff {rest : List U8} : ∀ {l : Leb} {k n : ℕ}, n < 2 ^ (7 * k) → k ≤ 10 →
    (slebFrom .release (l.bytes ++ rest) (BitVec.ofNat 32 (7 * k)) (BitVec.ofNat 64 n) =
        .ok (BitVec.ofInt 64 (n + 2 ^ (7 * k) * l.int)) rest ↔
      Covered (BitVec.ofInt 64 (n + 2 ^ (7 * k) * l.int)) k l)
  | l, k, n, hn, hk => by
    rcases Nat.eq_or_lt_of_le hk with rfl | hlt
    · rw [Leb.ofInt_add_above (by decide), BitVec.ofInt_natCast]
      exact slebFrom_above_iff le_rfl
    cases l with
    | last g =>
      have hlen : k + (Leb.last g).length ≤ 10 := hlt
      exact iff_of_true (slebFrom_bytes hn hlen) (covered_of_le hlen)
    | more g l =>
      have hn' : n + 2 ^ (7 * k) * g.toNat < 2 ^ (7 * (k + 1)) := Leb.add_group_lt hn g
      have hword : (n + 2 ^ (7 * k) * (Leb.more g l).int : ℤ) =
          (n + 2 ^ (7 * k) * g.toNat : ℕ) + 2 ^ (7 * (k + 1)) * l.int := by
        rw [Leb.int, Nat.mul_add, pow_add]
        push_cast
        ring
      have hstep : slebFrom .release ((Leb.more g l).bytes ++ rest) (BitVec.ofNat 32 (7 * k))
          (BitVec.ofNat 64 n) = slebFrom .release (l.bytes ++ rest)
            (BitVec.ofNat 32 (7 * (k + 1))) (BitVec.ofNat 64 (n + 2 ^ (7 * k) * g.toNat)) := by
        rw [Leb.bytes, List.cons_append, slebFrom]
        simp only [add_seven_of_lt (show 7 * (k + 1) < 2 ^ 32 by omega),
          shl_of_lt (show 7 * k < 64 by omega), Leb.ofNat_or_group hn, if_pos (Leb.more_flag g),
          Leb.group_more]
      rw [hstep, hword, slebFrom_eq_iff hn' hlt, Covered]
      exact (and_iff_right fun h => absurd h (by omega)).symm

/-- In an unchecked build the word that is read is the number's if no digit adds to it. -/
theorem readSleb_release_iff {l : Leb} {rest : List U8} :
    readSleb .release (l.bytes ++ rest) = .ok (sleb l) rest ↔
      Covered (lowWord (l.bytes ++ rest)) 0 l := by
  have h := @slebFrom_eq_iff rest l 0 0 Nat.one_pos (Nat.zero_le _)
  rw [Nat.mul_zero, pow_zero, one_mul, Nat.cast_zero, zero_add] at h
  exact h.trans covered_sleb_iff

theorem longOperand_of_bytes {rest : List U8} : ∀ {l : Leb} {n : ℕ}, n < l.length →
    LongOperand n (l.bytes ++ rest)
  | l, 0, _ => by
    cases l
    all_goals exact longOperand_zero _ _
  | .last _, _ + 1, hn => absurd hn (by rw [Leb.length]; omega)
  | .more g _, _ + 1, hn =>
    longOperand_succ.2 ⟨Leb.more_flag g, longOperand_of_bytes (Nat.lt_of_succ_lt_succ hn)⟩

/-- The number is read right, in any build that reads it without a panic. -/
theorem readSleb_eq_iff {l : Leb} {rest : List U8} (hfits : SlebFits p (l.bytes ++ rest)) :
    readSleb p (l.bytes ++ rest) = .ok (sleb l) rest ↔
      Covered (lowWord (l.bytes ++ rest)) 0 l := by
  cases p with
  | release => exact readSleb_release_iff
  | debug =>
    have hlen : l.length ≤ 10 := not_lt.1 fun hlt => hfits rfl (longOperand_of_bytes hlt)
    refine iff_of_true (readSleb_bytes hlen rest) (covered_of_le ?_)
    rwa [Nat.zero_add]

/-- Bytes that all ask for another one are never read. -/
theorem slebFrom_more : ∀ {l : List U8} {shift : U32} {result : U64},
    (∀ b ∈ l, b &&& 0x80 ≠ 0) → (∀ e, slebFrom p l shift result ≠ .panic e) →
      slebFrom p l shift result = .err (.dyld "sleb truncated") []
  | [], _, _, _, _ => rfl
  | b :: l, shift, result, hmore, hsafe => by
    obtain ⟨hb, hl⟩ := List.forall_mem_cons.1 hmore
    rw [slebFrom] at hsafe ⊢
    rcases hshl : p.shl ((b &&& 0x7f).setWidth 64) shift with e | digit <;>
      rcases hadd : p.add shift 7 with e' | shift' <;> simp only [hshl, hadd] at hsafe ⊢
    · exact absurd rfl (hsafe _)
    · exact absurd rfl (hsafe _)
    · exact absurd rfl (hsafe _)
    rw [if_pos hb] at hsafe ⊢
    exact slebFrom_more hl hsafe

/-- Every digit that `read_sleb` brings down into the word of the first ten is in it already. -/
def SlebGathers (bytes : List U8) : Prop :=
  ∀ l : Leb, l.bytes <+: bytes → Covered (lowWord bytes) 0 l

/-- `read_sleb` is exact from `pos` on exactly if it does not panic there and gathers no digit that
does not belong to the word. -/
theorem sleb_exact_iff (p : Profile) (buf : List U8) (pos : ℕ) :
    SlebExact p buf pos ↔ SlebFits p (buf.drop pos) ∧ SlebGathers (buf.drop pos) := by
  constructor
  · intro h
    have hfits := safe_readSleb_iff.1 h.safe
    refine ⟨hfits, fun l hl => ?_⟩
    have hread := h.reads _ (endsAt_of_bytes hl)
    rw [slebSum_of_bytes hl, Nat.sub_add_cancel l.length_pos, drop_of_bytes hl] at hread
    rw [drop_of_bytes hl] at hfits ⊢
    exact (readSleb_eq_iff hfits).1 hread
  · rintro ⟨hfits, hgathers⟩
    have hsafe : (readSleb p).Safe (buf.drop pos) := safe_readSleb_iff.2 hfits
    have hbytes : ∀ l : Leb, l.bytes <+: buf.drop pos →
        readSleb p (buf.drop pos) = .ok (sleb l) (buf.drop (pos + l.length)) := by
      intro l hl
      have hcovered := hgathers l hl
      rw [drop_of_bytes hl] at hfits hcovered ⊢
      exact (readSleb_eq_iff hfits).2 hcovered
    refine ⟨hsafe, ⟨?_, ?_⟩, ?_, ?_⟩
    · rintro ⟨e, rest, herr⟩ n hn
      obtain ⟨l, -, hl⟩ := endsAt_iff.1 hn
      rw [hbytes l hl] at herr
      cases herr
    · intro hnone
      rcases Leb.exists_front_or (buf.drop pos) with ⟨l, hl⟩ | hmore
      · exact absurd (endsAt_of_bytes hl) (hnone _)
      · exact ⟨_, _, slebFrom_more hmore hsafe⟩
    · intro n hn
      obtain ⟨l, hlen, hl⟩ := endsAt_iff.1 hn
      obtain rfl : l.length - 1 = n := by omega
      rw [hbytes l hl, slebSum_of_bytes hl, Nat.sub_add_cancel l.length_pos, sleb]
    · intro l v hv hl
      rw [hbytes l hl, sleb, hv, BitVec.ofInt_toInt]

/-- Ten zeros and a one, which lies above the word. -/
def aboveWord : List U8 :=
  List.replicate 10 0x80 ++ [0x01]

theorem endsAt_aboveWord : EndsAt aboveWord 0 10 :=
  endsAt_iff.2 ⟨Nat.repeat (Leb.more 0) 10 (.last 1), rfl, List.prefix_rfl⟩

theorem sleb_above_word :
    (BitVec.ofInt 64 (slebSum aboveWord 0 10) = 0 ∧
      readSleb .debug aboveWord = .panic .arithmeticOverflow ∧
      readSleb .release aboveWord = .ok 64 []) ∧
    ¬ SlebExact .debug aboveWord 0 ∧ ¬ SlebExact .release aboveWord 0 := by
  have hsum : BitVec.ofInt 64 (slebSum aboveWord 0 10) = 0 := by decide
  have hdebug : readSleb .debug aboveWord = .panic .arithmeticOverflow := by decide
  have hrelease : readSleb .release aboveWord = .ok 64 [] := by decide
  refine ⟨⟨hsum, hdebug, hrelease⟩, fun h => h.safe _ hdebug, fun h => ?_⟩
  have hread := h.reads 10 endsAt_aboveWord
  rw [hsum, List.drop_zero, hrelease] at hread
  exact absurd (Outcome.ok.inj hread).1 (by decide)

/-- A negative number may be padded, as its bits are there already. -/
example : readSleb .release (List.replicate 10 0xff ++ [0x7f]) = .ok (-1) [] := by decide

end IosEmu
