import IosEmu.Utf8
import Mathlib.Data.List.Flatten

/-!
# Text as bytes and as 16-bit units

`utf8Encode` and `utf16Encode` write characters as UTF-8 and as UTF-16. The lossy decoders
read such text back (`utf8Chars_encode`, `utf16Chars_encode`), and `fromUtf8`, which takes
well-formed text only, accepts exactly what the encoder writes.
-/

namespace SysLib

/-! ## UTF-8 -/

/-- The bytes of a character. -/
def utf8Char (c : Char) : List Byte :=
  let n := c.toNat
  if n < 0x80 then [BitVec.ofNat 8 n]
  else if n < 0x800 then [BitVec.ofNat 8 (0xc0 + n / 64), BitVec.ofNat 8 (0x80 + n % 64)]
  else if n < 0x10000 then
    [BitVec.ofNat 8 (0xe0 + n / 4096), BitVec.ofNat 8 (0x80 + n / 64 % 64),
      BitVec.ofNat 8 (0x80 + n % 64)]
  else
    [BitVec.ofNat 8 (0xf0 + n / 262144), BitVec.ofNat 8 (0x80 + n / 4096 % 64),
      BitVec.ofNat 8 (0x80 + n / 64 % 64), BitVec.ofNat 8 (0x80 + n % 64)]

/-- The bytes of a text. -/
def utf8Encode (cs : List Char) : List Byte :=
  cs.flatMap utf8Char

/-- `std::str::from_utf8` : the characters of a text that is well formed. -/
def fromUtf8 (l : List Byte) : Option (List Char) :=
  if utf8Encode (utf8Chars l.length l) = l then some (utf8Chars l.length l) else none

@[simp] theorem utf8Encode_nil : utf8Encode [] = [] :=
  rfl

@[simp] theorem utf8Encode_cons (c : Char) (cs : List Char) :
    utf8Encode (c :: cs) = utf8Char c ++ utf8Encode cs :=
  List.flatMap_cons

@[simp] theorem utf8Encode_append (cs cs' : List Char) :
    utf8Encode (cs ++ cs') = utf8Encode cs ++ utf8Encode cs' :=
  List.flatMap_append

theorem isContinuation_iff {b : Byte} : isContinuation b = true ↔ 0x80 ≤ b.toNat ∧ b.toNat ≤ 0xbf := by
  simp [isContinuation]

theorem isContinuation_ofNat {n : ℕ} (h : n < 64) :
    isContinuation (BitVec.ofNat 8 (0x80 + n)) = true := by
  rw [isContinuation_iff, BitVec.toNat_ofNat]
  omega

theorem toNat_byte {n : ℕ} (h : n < 256) : (BitVec.ofNat 8 n).toNat = n := by
  rw [BitVec.toNat_ofNat]
  omega

/-- A character is no surrogate, and at most U+10FFFF. -/
theorem toNat_char (c : Char) : c.toNat < 0xd800 ∨ 0xdfff < c.toNat ∧ c.toNat < 0x110000 :=
  c.valid

theorem ofNat_toNat_char (c : Char) {n : ℕ} (h : n = c.toNat) : Char.ofNat n = c := by
  rw [h, Char.ofNat_toNat]

/-- Which second bytes a first byte allows. -/
theorem isSecondByte_ofNat {first b : ℕ} (hfirst : first < 256) (hb : b < 256)
    (h : 0x80 ≤ b ∧ b ≤ 0xbf) (he0 : first = 0xe0 → 0xa0 ≤ b) (hed : first = 0xed → b ≤ 0x9f)
    (hf0 : first = 0xf0 → 0x90 ≤ b) (hf4 : first = 0xf4 → b ≤ 0x8f) :
    isSecondByte (BitVec.ofNat 8 first) (BitVec.ofNat 8 b) = true := by
  have heq : ∀ k : ℕ, k < 256 → (BitVec.ofNat 8 first = BitVec.ofNat 8 k ↔ first = k) := by
    intro k hk
    rw [← BitVec.toNat_inj, toNat_byte hfirst, toNat_byte hk]
  have h₁ := heq 0xe0 (by omega)
  have h₂ := heq 0xed (by omega)
  have h₃ := heq 0xf0 (by omega)
  have h₄ := heq 0xf4 (by omega)
  unfold isSecondByte secondByteRange
  rw [toNat_byte hb]
  simp only [Bool.and_eq_true, decide_eq_true_eq]
  split_ifs with g₁ g₂ g₃ g₄
  · exact ⟨he0 (h₁.1 g₁), h.2⟩
  · exact ⟨h.1, hed (h₂.1 g₂)⟩
  · exact ⟨hf0 (h₃.1 g₃), h.2⟩
  · exact ⟨h.1, hf4 (h₄.1 g₄)⟩
  · exact h

/-- The head of an encoded text is its first character. -/
theorem utf8Head_append (c : Char) (l : List Byte) :
    utf8Head (utf8Char c ++ l) = some (c, (utf8Char c).length) := by
  have hvalid := toNat_char c
  unfold utf8Char
  set n := c.toNat with hn
  by_cases h₁ : n < 0x80
  · simp only [if_pos h₁, List.cons_append, List.nil_append, utf8Head, List.length_singleton]
    rw [toNat_byte (by omega), if_pos h₁, ofNat_toNat_char c hn]
  by_cases h₂ : n < 0x800
  · simp only [if_neg h₁, if_pos h₂, List.cons_append, List.nil_append, utf8Head,
      List.length_cons, List.length_nil]
    rw [toNat_byte (by omega), if_neg (by omega), if_pos (by omega),
      if_pos (isContinuation_ofNat (by omega)), joinBits, List.foldl_cons, List.foldl_nil,
      toNat_byte (by omega), ofNat_toNat_char c (by omega)]
  by_cases h₃ : n < 0x10000
  · simp only [if_neg h₁, if_neg h₂, if_pos h₃, List.cons_append, List.nil_append, utf8Head,
      List.length_cons, List.length_nil]
    rw [toNat_byte (by omega), if_neg (by omega), if_neg (by omega), if_pos (by omega),
      if_pos (isSecondByte_ofNat (by omega) (by omega) (by omega) (by omega) (by omega) (by omega)
        (by omega)), if_pos (isContinuation_ofNat (by omega)), joinBits, List.foldl_cons,
      List.foldl_cons, List.foldl_nil, toNat_byte (by omega), toNat_byte (by omega),
      ofNat_toNat_char c (by omega)]
  · simp only [if_neg h₁, if_neg h₂, if_neg h₃, List.cons_append, List.nil_append, utf8Head,
      List.length_cons, List.length_nil]
    rw [toNat_byte (by omega), if_neg (by omega), if_neg (by omega), if_neg (by omega),
      if_pos (by omega), if_pos (isSecondByte_ofNat (by omega) (by omega) (by omega) (by omega)
        (by omega) (by omega) (by omega)), if_pos (isContinuation_ofNat (by omega)),
      if_pos (isContinuation_ofNat (by omega)), joinBits, List.foldl_cons, List.foldl_cons,
      List.foldl_cons, List.foldl_nil, toNat_byte (by omega), toNat_byte (by omega),
      toNat_byte (by omega), ofNat_toNat_char c (by omega)]

theorem length_utf8Char_pos (c : Char) : 0 < (utf8Char c).length := by
  unfold utf8Char
  dsimp only
  split_ifs <;> simp

theorem length_le_utf8Encode : ∀ cs : List Char, cs.length ≤ (utf8Encode cs).length
  | [] => le_rfl
  | c :: cs => by
    have hpos := length_utf8Char_pos c
    have ih := length_le_utf8Encode cs
    rw [utf8Encode_cons, List.length_append, List.length_cons]
    omega

/-- A decoder that comes to encoded text reads it, and goes on with what follows. -/
theorem utf8Chars_append : ∀ (cs : List Char) (fuel : ℕ) (l : List Byte),
    utf8Chars (cs.length + fuel) (utf8Encode cs ++ l) = cs ++ utf8Chars fuel l
  | [], fuel, l => by simp
  | c :: cs, fuel, l => by
    rw [List.length_cons, Nat.succ_add, utf8Chars, utf8Encode_cons, List.append_assoc,
      utf8Head_append]
    simp only [List.drop_left]
    rw [utf8Chars_append cs fuel l, List.cons_append]

/-- More fuel than bytes makes no difference. -/
theorem utf8Chars_nil : ∀ fuel : ℕ, utf8Chars fuel [] = []
  | 0 => rfl
  | _ + 1 => rfl

/-- Decoding undoes encoding. -/
theorem utf8Chars_encode (cs : List Char) :
    utf8Chars (utf8Encode cs).length (utf8Encode cs) = cs := by
  obtain ⟨fuel, hfuel⟩ := Nat.exists_eq_add_of_le (length_le_utf8Encode cs)
  have h := utf8Chars_append cs fuel []
  rw [List.append_nil] at h
  rw [hfuel, h, utf8Chars_nil, List.append_nil]

theorem fromUtf8_encode (cs : List Char) : fromUtf8 (utf8Encode cs) = some cs := by
  unfold fromUtf8
  rw [utf8Chars_encode, if_pos rfl]

/-! ## ASCII in UTF-8 -/

/-- A character is an ASCII byte, or bytes of which none is one. -/
theorem utf8Char_cases (c : Char) :
    c.toNat < 0x80 ∧ utf8Char c = [BitVec.ofNat 8 c.toNat] ∨
      0x80 ≤ c.toNat ∧ ∀ b ∈ utf8Char c, 0x80 ≤ b.toNat := by
  have hvalid := toNat_char c
  unfold utf8Char
  dsimp only
  by_cases h₁ : c.toNat < 0x80
  · exact Or.inl ⟨h₁, if_pos h₁⟩
  refine Or.inr ⟨not_lt.1 h₁, ?_⟩
  rw [if_neg h₁]
  split_ifs with h₂ h₃ <;>
    simp only [List.mem_cons, List.not_mem_nil, or_false, forall_eq_or_imp, forall_eq,
      BitVec.toNat_ofNat] <;>
    omega

/-- The ASCII bytes of a text are its ASCII characters. -/
theorem mem_of_mem_utf8Encode {n : ℕ} (hn : n < 0x80) {cs : List Char}
    (h : BitVec.ofNat 8 n ∈ utf8Encode cs) : Char.ofNat n ∈ cs := by
  obtain ⟨c, hc, hb⟩ := List.mem_flatMap.1 h
  have hbyte := toNat_byte (n := n) (by omega)
  rcases utf8Char_cases c with ⟨hlt, heq⟩ | ⟨-, hge⟩
  · rw [heq, List.mem_singleton, ← BitVec.toNat_inj, hbyte, toNat_byte (by omega)] at hb
    rwa [hb, Char.ofNat_toNat]
  · have := hge _ hb
    omega

section Ascii

variable {pat cs : List Char} {part : List Byte}

/-- An ASCII text that begins the bytes of a text, and of other bytes behind them, begins the
text. -/
theorem prefix_of_utf8Encode : ∀ {pat cs : List Char}, (∀ c ∈ pat, c.toNat < 0x80) →
    (∀ b ∈ part, 0x80 ≤ b.toNat) → utf8Encode pat <+: utf8Encode cs ++ part → pat <+: cs
  | [], _, _, _, _ => List.nil_prefix
  | c :: pat, cs, hpat, hpart, h => by
    obtain ⟨hc, hrest⟩ := List.forall_mem_cons.1 hpat
    have hchar : utf8Char c = [BitVec.ofNat 8 c.toNat] := if_pos hc
    have hbyte := toNat_byte (n := c.toNat) (by omega)
    rw [utf8Encode_cons, hchar, List.singleton_append] at h
    cases cs with
    | nil =>
      have hmem : BitVec.ofNat 8 c.toNat ∈ part := h.subset List.mem_cons_self
      have := hpart _ hmem
      omega
    | cons d cs =>
      rw [utf8Encode_cons] at h
      rcases utf8Char_cases d with ⟨hlt, heq⟩ | ⟨-, hge⟩
      · rw [heq, List.append_assoc, List.singleton_append, List.cons_prefix_cons,
          ← BitVec.toNat_inj, hbyte, toNat_byte (by omega), Char.toNat_inj] at h
        rw [h.1, List.cons_prefix_cons]
        exact ⟨rfl, prefix_of_utf8Encode hrest hpart h.2⟩
      · obtain ⟨b, l, hb⟩ := List.exists_cons_of_length_pos (length_utf8Char_pos d)
        rw [hb, List.append_assoc, List.cons_append, List.cons_prefix_cons] at h
        have := hge b (by rw [hb]; exact List.mem_cons_self)
        rw [← h.1] at this
        omega

/-- A text none of whose bytes is in `u` does not begin there. -/
theorem infix_of_append {l u m : List Byte} (hl : l ≠ []) (hu : ∀ b ∈ u, b ∉ l)
    (h : l <:+: u ++ m) : l <:+: m := by
  induction u with
  | nil => exact h
  | cons b u ih =>
    rw [List.cons_append, List.infix_cons_iff] at h
    rcases h with h | h
    · obtain ⟨x, l, rfl⟩ := List.exists_cons_of_ne_nil hl
      rw [List.cons_prefix_cons] at h
      exact absurd List.mem_cons_self (h.1 ▸ hu b List.mem_cons_self)
    · exact ih (fun c hc => hu c (List.mem_cons_of_mem b hc)) h

theorem infix_of_utf8Encode (hne : pat ≠ []) (hpat : ∀ c ∈ pat, c.toNat < 0x80)
    (hpart : ∀ b ∈ part, 0x80 ≤ b.toNat) (h : utf8Encode pat <:+: utf8Encode cs ++ part) :
    pat <:+: cs := by
  have hlen := length_le_utf8Encode pat
  have hpos := List.length_pos_iff.2 hne
  have hne' : utf8Encode pat ≠ [] := List.length_pos_iff.1 (by omega)
  have hascii : ∀ b ∈ utf8Encode pat, b.toNat < 0x80 := by
    intro b hb
    obtain ⟨c, hc, hb⟩ := List.mem_flatMap.1 hb
    have hchar : utf8Char c = [BitVec.ofNat 8 c.toNat] := if_pos (hpat c hc)
    have hlt := hpat c hc
    rw [hchar, List.mem_singleton] at hb
    rw [hb, toNat_byte (by omega)]
    exact hlt
  have happart : ∀ u : List Byte, (∀ b ∈ u, 0x80 ≤ b.toNat) → ∀ b ∈ u, b ∉ utf8Encode pat := by
    intro u hu b hb hmem
    have h₁ := hu b hb
    have h₂ := hascii b hmem
    omega
  induction cs with
  | nil =>
    have := infix_of_append (m := []) hne' (happart part hpart) (by simpa using h)
    exact absurd (List.infix_nil.1 this) hne'
  | cons c cs ih =>
    rw [utf8Encode_cons, List.append_assoc] at h
    rcases utf8Char_cases c with ⟨hlt, heq⟩ | ⟨-, hge⟩
    · rw [heq, List.singleton_append, List.infix_cons_iff] at h
      rcases h with h | h
      · refine List.IsPrefix.isInfix (@prefix_of_utf8Encode part pat (c :: cs) hpat hpart ?_)
        rw [utf8Encode_cons, heq, List.append_assoc, List.singleton_append]
        exact h
      · exact List.infix_cons (ih h)
    · exact List.infix_cons (ih (infix_of_append hne' (happart _ hge) h))

/-- The first bytes of a text are the first characters, and a part of one that is not ASCII. -/
theorem take_utf8Encode : ∀ (cs : List Char) (n : ℕ), ∃ cs' part,
    (utf8Encode cs).take n = utf8Encode cs' ++ part ∧ ∀ b ∈ part, 0x80 ≤ b.toNat
  | [], n => ⟨[], [], by simp, by simp⟩
  | c :: cs, n => by
    by_cases hn : (utf8Char c).length ≤ n
    · obtain ⟨cs', part, heq, hpart⟩ := take_utf8Encode cs (n - (utf8Char c).length)
      refine ⟨c :: cs', part, ?_, hpart⟩
      rw [utf8Encode_cons, utf8Encode_cons, List.take_append, List.take_of_length_le hn, heq,
        List.append_assoc]
    · refine ⟨[], (utf8Char c).take n, ?_, ?_⟩
      · rw [utf8Encode_cons, List.take_append_of_le_length (by omega)]
        rfl
      · rcases utf8Char_cases c with ⟨-, heq⟩ | ⟨-, hge⟩
        · have hzero : n = 0 := by
            rw [heq, List.length_singleton] at hn
            omega
          simp [hzero]
        · exact fun b hb => hge b (List.mem_of_mem_take hb)

/-- An ASCII text that stands in the first `n` bytes of a text stands in what is decoded from
them. -/
theorem infix_utf8Chars_take (hne : pat ≠ []) (hpat : ∀ c ∈ pat, c.toNat < 0x80) {n : ℕ}
    (h : utf8Encode pat <:+: (utf8Encode cs).take n) :
    pat <:+: utf8Chars ((utf8Encode cs).take n).length ((utf8Encode cs).take n) := by
  obtain ⟨cs', part, heq, hpart⟩ := take_utf8Encode cs n
  rw [heq] at h ⊢
  obtain ⟨fuel, hfuel⟩ : ∃ fuel, (utf8Encode cs' ++ part).length = cs'.length + fuel := by
    refine Nat.exists_eq_add_of_le ?_
    have := length_le_utf8Encode cs'
    rw [List.length_append]
    omega
  rw [hfuel, utf8Chars_append]
  exact (infix_of_utf8Encode hne hpat hpart h).trans (List.prefix_append _ _).isInfix

/-- A text that is cut next to an ASCII byte leaves two texts. -/
theorem split_utf8Encode {b : Byte} (hb : b.toNat < 0x80) : ∀ {cs : List Char} {l m : List Byte},
    utf8Encode cs = l ++ b :: m → ∃ ps qs, l = utf8Encode ps ∧ m = utf8Encode qs
  | [], l, m, h => by
    cases l <;> cases h
  | c :: cs, l, m, h => by
    rw [utf8Encode_cons, List.append_eq_append_iff] at h
    -- either the cut is behind the first character, or the byte is one of its bytes
    obtain ⟨t, rfl, h⟩ | ⟨t, hchar, h⟩ := h
    · obtain ⟨ps, qs, rfl, rfl⟩ := split_utf8Encode hb h
      exact ⟨c :: ps, qs, (utf8Encode_cons c ps).symm, rfl⟩
    · cases t with
      | nil =>
        obtain ⟨ps, qs, hnil, rfl⟩ := split_utf8Encode (l := []) hb h.symm
        exact ⟨[c], qs, by rw [utf8Encode_cons, hchar, utf8Encode_nil]; simp, rfl⟩
      | cons x t =>
        obtain ⟨rfl, rfl⟩ := List.cons.inj h
        rcases utf8Char_cases c with ⟨-, hone⟩ | ⟨-, hge⟩
        · rw [hone, eq_comm, List.append_eq_singleton_iff] at hchar
          simp only [List.cons.injEq, reduceCtorEq, and_false, or_false] at hchar
          obtain ⟨rfl, -, rfl⟩ := hchar
          exact ⟨[], cs, rfl, rfl⟩
        · have := hge b (by rw [hchar]; simp)
          omega

end Ascii

/-! ## UTF-16 -/

/-- A 16-bit unit. -/
abbrev Unit16 := BitVec 16

/-- The units of a character : itself, or a surrogate pair. -/
def utf16Char (c : Char) : List Unit16 :=
  let n := c.toNat
  if n < 0x10000 then [BitVec.ofNat 16 n]
  else [BitVec.ofNat 16 (0xd800 + (n - 0x10000) / 1024),
    BitVec.ofNat 16 (0xdc00 + (n - 0x10000) % 1024)]

def utf16Encode (cs : List Char) : List Unit16 :=
  cs.flatMap utf16Char

/-- The first unit of a pair. -/
def isHigh (u : Unit16) : Bool :=
  0xd800 ≤ u.toNat && u.toNat < 0xdc00

/-- The second unit of a pair. -/
def isLow (u : Unit16) : Bool :=
  0xdc00 ≤ u.toNat && u.toNat < 0xe000

/-- `String::from_utf16_lossy` : a surrogate without its partner becomes U+FFFD. -/
def utf16Chars : List Unit16 → List Char
  | [] => []
  | [u] => if isHigh u || isLow u then [replacementChar] else [Char.ofNat u.toNat]
  | u :: v :: l =>
    if isHigh u then
      if isLow v then
        Char.ofNat (0x10000 + (u.toNat - 0xd800) * 1024 + (v.toNat - 0xdc00)) :: utf16Chars l
      else replacementChar :: utf16Chars (v :: l)
    else if isLow u then replacementChar :: utf16Chars (v :: l)
    else Char.ofNat u.toNat :: utf16Chars (v :: l)

theorem toNat_unit {n : ℕ} (h : n < 0x10000) : (BitVec.ofNat 16 n).toNat = n := by
  rw [BitVec.toNat_ofNat]
  omega

/-- A unit that is no surrogate is a character. -/
theorem utf16Chars_cons {u : Unit16} (hhigh : isHigh u = false) (hlow : isLow u = false)
    (l : List Unit16) : utf16Chars (u :: l) = Char.ofNat u.toNat :: utf16Chars l := by
  cases l with
  | nil => simp [utf16Chars, hhigh, hlow]
  | cons v l => simp [utf16Chars, hhigh, hlow]

theorem utf16Chars_append (c : Char) (l : List Unit16) :
    utf16Chars (utf16Char c ++ l) = c :: utf16Chars l := by
  have hvalid := toNat_char c
  unfold utf16Char
  set n := c.toNat with hn
  by_cases h : n < 0x10000
  · simp only [if_pos h, List.cons_append, List.nil_append]
    have hhigh : isHigh (BitVec.ofNat 16 n) = false := by
      simp only [isHigh, toNat_unit h, Bool.and_eq_false_iff, decide_eq_false_iff_not]
      omega
    have hlow : isLow (BitVec.ofNat 16 n) = false := by
      simp only [isLow, toNat_unit h, Bool.and_eq_false_iff, decide_eq_false_iff_not]
      omega
    rw [utf16Chars_cons hhigh hlow, toNat_unit h, ofNat_toNat_char c hn]
  · simp only [if_neg h, List.cons_append, List.nil_append]
    have hu : (BitVec.ofNat 16 (0xd800 + (n - 0x10000) / 1024)).toNat =
        0xd800 + (n - 0x10000) / 1024 := toNat_unit (by omega)
    have hv : (BitVec.ofNat 16 (0xdc00 + (n - 0x10000) % 1024)).toNat =
        0xdc00 + (n - 0x10000) % 1024 := toNat_unit (by omega)
    have hhigh : isHigh (BitVec.ofNat 16 (0xd800 + (n - 0x10000) / 1024)) = true := by
      simp only [isHigh, hu, Bool.and_eq_true, decide_eq_true_eq]
      omega
    have hlow : isLow (BitVec.ofNat 16 (0xdc00 + (n - 0x10000) % 1024)) = true := by
      simp only [isLow, hv, Bool.and_eq_true, decide_eq_true_eq]
      omega
    rw [utf16Chars, if_pos hhigh, if_pos hlow, hu, hv, ofNat_toNat_char c (by omega)]

/-- Decoding undoes encoding. -/
theorem utf16Chars_encode : ∀ cs : List Char, utf16Chars (utf16Encode cs) = cs
  | [] => rfl
  | c :: cs => by
    rw [utf16Encode, List.flatMap_cons, utf16Chars_append, ← utf16Encode, utf16Chars_encode cs]

end SysLib
