import IosEmu.Unicode
import Mathlib.Data.Char

/-!
# What lossy decoding keeps

`utf8Pieces` cuts a byte string where the lossy decoder does, and keeps with every piece the
character it is taken for. A piece is the encoding of its character, or it is ill formed : then
it has at most three bytes, and its character is U+FFFD, whose encoding has three
(`utf8Head_cases`). So the text is as long as the bytes exactly if every ill-formed piece has
three bytes (`length_lossy_iff`).

UTF-8 keeps the order : encoded texts compare as bytes the way their characters do
(`utf8Encode_lt_iff`).
-/

namespace SysLib

/-- The characters of `String::from_utf8_lossy`. -/
def lossyText (l : List Byte) : List Char :=
  utf8Chars l.length l

/-- The pieces that the decoder takes for characters, with the characters. -/
def utf8Pieces : ℕ → List Byte → List (Char × List Byte)
  | 0, _ => []
  | fuel + 1, l =>
    match utf8Head l with
    | none => []
    | some (c, n) => (c, l.take n) :: utf8Pieces fuel (l.drop n)

/-- A piece that is not the encoding of its character. -/
def IllFormed (e : Char × List Byte) : Prop :=
  utf8Char e.1 ≠ e.2

instance (e : Char × List Byte) : Decidable (IllFormed e) :=
  inferInstanceAs (Decidable (_ ≠ _))

/-- Every ill-formed piece has three bytes. -/
def LengthKept (l : List Byte) : Prop :=
  ∀ e ∈ utf8Pieces l.length l, IllFormed e → e.2.length = 3

instance (l : List Byte) : Decidable (LengthKept l) :=
  inferInstanceAs (Decidable (∀ e ∈ _, _))

/-! ## The head of a byte string -/

theorem toNat_ofNat_char {n : ℕ} (h : n < 0xd800 ∨ 0xdfff < n ∧ n < 0x110000) :
    (Char.ofNat n).toNat = n := by
  have hvalid : n.isValidChar := h
  unfold Char.ofNat
  rw [dif_pos hvalid]
  rfl

theorem isSecondByte_iff {a b : Byte} : isSecondByte a b = true ↔
    (secondByteRange a).1 ≤ b.toNat ∧ b.toNat ≤ (secondByteRange a).2 := by
  simp [isSecondByte]

/-- What a second byte says about the value of its sequence. -/
theorem second_bounds {a b : Byte} (h : isSecondByte a b = true) :
    0x80 ≤ b.toNat ∧ b.toNat ≤ 0xbf ∧ (a.toNat = 0xe0 → 0xa0 ≤ b.toNat) ∧
      (a.toNat = 0xed → b.toNat ≤ 0x9f) ∧ (a.toNat = 0xf0 → 0x90 ≤ b.toNat) ∧
      (a.toNat = 0xf4 → b.toNat ≤ 0x8f) := by
  rw [isSecondByte_iff] at h
  unfold secondByteRange at h
  split_ifs at h <;> dsimp only at h <;> bv_omega

theorem utf8Char_two {a b : Byte} (ha : 0xc2 ≤ a.toNat ∧ a.toNat ≤ 0xdf)
    (hb : isContinuation b = true) : utf8Char (joinBits (a.toNat % 32) [b]) = [a, b] := by
  rw [isContinuation_iff] at hb
  have hn : (joinBits (a.toNat % 32) [b]).toNat = a.toNat % 32 * 64 + b.toNat % 64 :=
    toNat_ofNat_char (by simp only [List.foldl_cons, List.foldl_nil]; omega)
  unfold utf8Char
  rw [hn, if_neg (by omega), if_pos (by omega)]
  congr 2 <;> apply BitVec.eq_of_toNat_eq <;> rw [BitVec.toNat_ofNat] <;> omega

theorem utf8Char_three {a b c : Byte} (ha : 0xe0 ≤ a.toNat ∧ a.toNat ≤ 0xef)
    (hb : isSecondByte a b = true) (hc : isContinuation c = true) :
    utf8Char (joinBits (a.toNat % 16) [b, c]) = [a, b, c] := by
  rw [isContinuation_iff] at hc
  have hb := second_bounds hb
  have hn : (joinBits (a.toNat % 16) [b, c]).toNat =
      (a.toNat % 16 * 64 + b.toNat % 64) * 64 + c.toNat % 64 :=
    toNat_ofNat_char (by simp only [List.foldl_cons, List.foldl_nil]; omega)
  unfold utf8Char
  rw [hn, if_neg (by omega), if_neg (by omega), if_pos (by omega)]
  congr 3 <;> apply BitVec.eq_of_toNat_eq <;> rw [BitVec.toNat_ofNat] <;> omega

theorem utf8Char_four {a b c d : Byte} (ha : 0xf0 ≤ a.toNat ∧ a.toNat ≤ 0xf4)
    (hb : isSecondByte a b = true) (hc : isContinuation c = true) (hd : isContinuation d = true) :
    utf8Char (joinBits (a.toNat % 8) [b, c, d]) = [a, b, c, d] := by
  rw [isContinuation_iff] at hc hd
  have hb := second_bounds hb
  have hn : (joinBits (a.toNat % 8) [b, c, d]).toNat =
      ((a.toNat % 8 * 64 + b.toNat % 64) * 64 + c.toNat % 64) * 64 + d.toNat % 64 :=
    toNat_ofNat_char (by simp only [List.foldl_cons, List.foldl_nil]; omega)
  unfold utf8Char
  rw [hn, if_neg (by omega), if_neg (by omega), if_neg (by omega)]
  congr 4 <;> apply BitVec.eq_of_toNat_eq <;> rw [BitVec.toNat_ofNat] <;> omega

/-- The character and its length stand at the head of the bytes : encoded there, or U+FFFD for up
to three bytes. -/
def HeadOf (l : List Byte) (c : Char) (n : ℕ) : Prop :=
  0 < n ∧ n ≤ l.length ∧ (utf8Char c = l.take n ∨ c = replacementChar ∧ n ≤ 3)

theorem HeadOf.decoded {l : List Byte} {c c' : Char} {n n' : ℕ} (h : (c', n') = (c, n))
    (hpos : 0 < n') (hlen : n' ≤ l.length) (hchar : utf8Char c' = l.take n') : HeadOf l c n := by
  obtain ⟨rfl, rfl⟩ := Prod.mk.inj h
  exact ⟨hpos, hlen, Or.inl hchar⟩

theorem HeadOf.replaced {l : List Byte} {c : Char} {n n' : ℕ} (h : (replacementChar, n') = (c, n))
    (hpos : 0 < n') (hlen : n' ≤ l.length) (hthree : n' ≤ 3) : HeadOf l c n := by
  obtain ⟨rfl, rfl⟩ := Prod.mk.inj h
  exact ⟨hpos, hlen, Or.inr ⟨rfl, hthree⟩⟩

/-- The head is the encoding of its character, or up to three bytes taken for U+FFFD. The cases
are the lengths that the first byte can announce, and in each the bytes that are there. -/
theorem utf8Head_cases {l : List Byte} {c : Char} {n : ℕ} (h : utf8Head l = some (c, n)) :
    HeadOf l c n := by
  cases l with
  | nil => cases h
  | cons a l =>
    simp only [utf8Head, Option.some.injEq] at h
    split_ifs at h with h₁ h₂ h₃ h₄
    · have hn : (Char.ofNat a.toNat).toNat = a.toNat := toNat_ofNat_char (by omega)
      refine .decoded h (by omega) (by simp) ?_
      rw [utf8Char, hn, if_pos h₁]
      simp
    · rcases l with _ | ⟨b, l⟩
      · exact .replaced h (by omega) (by simp) (by omega)
      · dsimp only at h
        split_ifs at h with hb
        · exact .decoded h (by omega) (by simp) (utf8Char_two h₂ hb)
        · exact .replaced h (by omega) (by simp) (by omega)
    · rcases l with _ | ⟨b, l⟩
      · exact .replaced h (by omega) (by simp) (by omega)
      · dsimp only at h
        split_ifs at h with hb
        · rcases l with _ | ⟨d, l⟩
          · exact .replaced h (by omega) (by simp) (by omega)
          · dsimp only at h
            split_ifs at h with hd
            · exact .decoded h (by omega) (by simp) (utf8Char_three h₃ hb hd)
            · exact .replaced h (by omega) (by simp) (by omega)
        · exact .replaced h (by omega) (by simp) (by omega)
    · rcases l with _ | ⟨b, l⟩
      · exact .replaced h (by omega) (by simp) (by omega)
      · dsimp only at h
        split_ifs at h with hb
        · rcases l with _ | ⟨d, l⟩
          · exact .replaced h (by omega) (by simp) (by omega)
          · dsimp only at h
            split_ifs at h with hd
            · rcases l with _ | ⟨e, l⟩
              · exact .replaced h (by omega) (by simp) (by omega)
              · dsimp only at h
                split_ifs at h with he
                · exact .decoded h (by omega) (by simp) (utf8Char_four h₄ hb hd he)
                · exact .replaced h (by omega) (by simp) (by omega)
            · exact .replaced h (by omega) (by simp) (by omega)
        · exact .replaced h (by omega) (by simp) (by omega)
    · exact .replaced h (by omega) (by simp) (by omega)

/-! ## The pieces -/

theorem utf8Chars_eq_map : ∀ (fuel : ℕ) (l : List Byte),
    utf8Chars fuel l = (utf8Pieces fuel l).map Prod.fst
  | 0, _ => rfl
  | fuel + 1, l => by
    rcases h : utf8Head l with _ | ⟨c, n⟩ <;> simp [utf8Chars, utf8Pieces, h]
    exact utf8Chars_eq_map fuel (l.drop n)

/-- An ill-formed piece is no longer than its character. -/
theorem length_piece {l : List Byte} {c : Char} {n : ℕ} (h : utf8Head l = some (c, n)) :
    (l.take n).length ≤ (utf8Char c).length ∧
      ((utf8Char c).length = (l.take n).length ↔
        (IllFormed (c, l.take n) → (l.take n).length = 3)) := by
  obtain ⟨-, hn, heq | ⟨rfl, hthree⟩⟩ := utf8Head_cases h
  · exact ⟨heq ▸ le_rfl, iff_of_true (heq ▸ rfl) fun hill => absurd heq hill⟩
  · have hlen : (l.take n).length = n := List.length_take_of_le hn
    have hchar : (utf8Char replacementChar).length = 3 := by decide
    rw [hchar, hlen]
    refine ⟨hthree, fun h => fun _ => h.symm, fun h => ?_⟩
    by_cases hill : IllFormed (replacementChar, l.take n)
    · exact (h hill).symm
    · have heq : utf8Char replacementChar = l.take n := not_not.1 hill
      rw [← hlen, ← heq, hchar]

/-- The text is never shorter than the bytes, and as long only if each ill-formed piece has
the three bytes of its character. -/
theorem length_utf8Chars : ∀ {fuel : ℕ} {l : List Byte}, l.length ≤ fuel →
    l.length ≤ (utf8Encode (utf8Chars fuel l)).length ∧
      ((utf8Encode (utf8Chars fuel l)).length = l.length ↔
        ∀ e ∈ utf8Pieces fuel l, IllFormed e → e.2.length = 3)
  | 0, l, hfuel => by
    obtain rfl := List.length_eq_zero_iff.1 (Nat.le_zero.1 hfuel)
    simp [utf8Chars, utf8Pieces]
  | fuel + 1, l, hfuel => by
    rcases h : utf8Head l with _ | ⟨c, n⟩
    · cases l with
      | nil => simp [utf8Chars, utf8Pieces, h]
      | cons => simp [utf8Head] at h
    · obtain ⟨hpos, hn, -⟩ := utf8Head_cases h
      obtain ⟨hle, hiff⟩ := length_piece h
      have hfuel' : (l.drop n).length ≤ fuel := by
        rw [List.length_drop]
        omega
      have ih := length_utf8Chars hfuel'
      have hsplit : (l.take n).length + (l.drop n).length = l.length := by
        rw [← List.length_append, List.take_append_drop]
      simp only [utf8Chars, utf8Pieces, h, utf8Encode_cons, List.length_append,
        List.forall_mem_cons, ← hiff, ← ih.2]
      omega

/-- A text decoded from bytes is as long as they are exactly if every ill-formed piece has
three bytes. -/
theorem length_lossy_iff {l : List Byte} :
    (utf8Encode (lossyText l)).length = l.length ↔ LengthKept l :=
  (length_utf8Chars le_rfl).2

theorem length_utf8Chars_le : ∀ (fuel : ℕ) (l : List Byte), (utf8Chars fuel l).length ≤ fuel
  | 0, _ => le_rfl
  | fuel + 1, l => by
    rcases h : utf8Head l with _ | ⟨c, n⟩ <;> simp [utf8Chars, h]
    exact length_utf8Chars_le fuel (l.drop n)

theorem length_utf8Encode_le : ∀ cs : List Char, (utf8Encode cs).length ≤ 4 * cs.length
  | [] => by simp
  | c :: cs => by
    have hchar : (utf8Char c).length ≤ 4 := by
      unfold utf8Char
      dsimp only
      split_ifs <;> simp
    have ih := length_utf8Encode_le cs
    rw [utf8Encode_cons, List.length_append, List.length_cons]
    omega

theorem length_lossy_le (l : List Byte) : (utf8Encode (lossyText l)).length ≤ 4 * l.length :=
  (length_utf8Encode_le _).trans (Nat.mul_le_mul_left 4 (length_utf8Chars_le _ l))

/-- Encoded text is read back. -/
@[simp] theorem lossyText_utf8Encode (cs : List Char) : lossyText (utf8Encode cs) = cs :=
  utf8Chars_encode cs

/-! ## Order -/

theorem cons_lt_cons_of_lt {a b : Byte} (h : a.toNat < b.toNat) (l l' : List Byte) :
    a :: l < b :: l' :=
  List.cons_lt_cons_iff.2 (Or.inl h)

theorem cons_lt_cons_of_le {a b : Byte} {l l' : List Byte} (h : a.toNat ≤ b.toNat)
    (hl : a.toNat = b.toNat → l < l') : a :: l < b :: l' := by
  rcases Nat.lt_or_eq_of_le h with hlt | heq
  · exact cons_lt_cons_of_lt hlt l l'
  · exact List.cons_lt_cons_iff.2 (Or.inr ⟨BitVec.eq_of_toNat_eq heq, hl heq⟩)

/-- A smaller character has smaller bytes, whatever follows. A longer encoding has a greater
first byte, and encodings of one length differ at some byte. -/
theorem utf8Char_append_lt {c d : Char} (h : c < d) (l l' : List Byte) :
    utf8Char c ++ l < utf8Char d ++ l' := by
  have hlt : c.toNat < d.toNat := h
  have hc := toNat_char c
  have hd := toNat_char d
  have hbyte : ∀ n, (BitVec.ofNat 8 n).toNat = n % 2 ^ 8 := fun n => BitVec.toNat_ofNat n 8
  unfold utf8Char
  dsimp only
  by_cases h₁ : d.toNat < 0x80
  · rw [if_pos (hlt.trans h₁), if_pos h₁]
    exact cons_lt_cons_of_lt (by simp only [hbyte]; omega) _ _
  by_cases h₂ : d.toNat < 0x800
  · rw [if_neg h₁, if_pos h₂]
    split_ifs
    · exact cons_lt_cons_of_lt (by simp only [hbyte]; omega) _ _
    · exact cons_lt_cons_of_le (by simp only [hbyte]; omega) fun heq =>
        cons_lt_cons_of_lt (by simp only [hbyte] at heq ⊢; omega) _ _
    · omega
    · omega
  by_cases h₃ : d.toNat < 0x10000
  · rw [if_neg h₁, if_neg h₂, if_pos h₃]
    split_ifs
    · exact cons_lt_cons_of_lt (by simp only [hbyte]; omega) _ _
    · exact cons_lt_cons_of_lt (by simp only [hbyte]; omega) _ _
    · exact cons_lt_cons_of_le (by simp only [hbyte]; omega) fun heq =>
        cons_lt_cons_of_le (by simp only [hbyte] at heq ⊢; omega) fun heq' =>
          cons_lt_cons_of_lt (by simp only [hbyte] at heq heq' ⊢; omega) _ _
    · omega
  · rw [if_neg h₁, if_neg h₂, if_neg h₃]
    split_ifs
    · exact cons_lt_cons_of_lt (by simp only [hbyte]; omega) _ _
    · exact cons_lt_cons_of_lt (by simp only [hbyte]; omega) _ _
    · exact cons_lt_cons_of_lt (by simp only [hbyte]; omega) _ _
    · exact cons_lt_cons_of_le (by simp only [hbyte]; omega) fun heq =>
        cons_lt_cons_of_le (by simp only [hbyte] at heq ⊢; omega) fun heq' =>
          cons_lt_cons_of_le (by simp only [hbyte] at heq heq' ⊢; omega) fun heq'' =>
            cons_lt_cons_of_lt (by simp only [hbyte] at heq heq' heq'' ⊢; omega) _ _

theorem append_lt_append_iff {l m : List Byte} : ∀ {u : List Byte}, u ++ l < u ++ m ↔ l < m
  | [] => Iff.rfl
  | b :: u => by
    rw [List.cons_append, List.cons_append, List.cons_lt_cons_iff, append_lt_append_iff]
    simp

/-- Encoded texts are ordered like their characters. -/
theorem utf8Encode_lt_iff : ∀ {cs ds : List Char}, utf8Encode cs < utf8Encode ds ↔ cs < ds
  | [], [] => by simp
  | [], d :: ds => by
    have hpos := length_utf8Char_pos d
    obtain ⟨b, l, hb⟩ := List.exists_cons_of_length_pos hpos
    simp [hb]
  | _ :: _, [] => by simp
  | c :: cs, d :: ds => by
    rw [utf8Encode_cons, utf8Encode_cons, List.cons_lt_cons_iff]
    rcases lt_trichotomy c d with hlt | rfl | hgt
    · exact iff_of_true (utf8Char_append_lt hlt _ _) (Or.inl hlt)
    · rw [append_lt_append_iff, utf8Encode_lt_iff]
      simp
    · refine iff_of_false (List.lt_asymm (utf8Char_append_lt hgt _ _)) ?_
      rintro (hlt | ⟨heq, -⟩)
      · exact lt_asymm hgt hlt
      · exact hgt.ne heq.symm

/-! ## The bytes of a string -/

theorem map_utf8EncodeChar (c : Char) :
    (String.utf8EncodeChar c).map UInt8.toBitVec = utf8Char c := by
  have hc := toNat_char c
  have hval : c.val.toNat = c.toNat := rfl
  unfold String.utf8EncodeChar utf8Char
  simp only [hval]
  have hbyte : ∀ {m n : ℕ}, m = n → (UInt8.ofNat m).toBitVec = BitVec.ofNat 8 n := by
    rintro m _ rfl
    rfl
  split_ifs <;> try omega
  all_goals simp only [List.map_cons, List.map_nil, List.cons.injEq, and_true]
  · exact hbyte rfl
  · exact ⟨hbyte (by omega), hbyte (by omega)⟩
  · exact ⟨hbyte (by omega), hbyte (by omega), hbyte (by omega)⟩
  · exact ⟨hbyte (by omega), hbyte (by omega), hbyte (by omega), hbyte (by omega)⟩

theorem utf8Bytes_ofList (cs : List Char) : utf8Bytes (String.ofList cs) = utf8Encode cs := by
  unfold utf8Bytes utf8Encode
  rw [String.toUTF8_eq_toByteArray, String.toByteArray_ofList, List.utf8Encode]
  simp [List.map_flatMap, map_utf8EncodeChar]

/-- The bytes of a string that was decoded. -/
theorem utf8Bytes_fromUtf8Lossy (l : List Byte) :
    utf8Bytes (fromUtf8Lossy l) = utf8Encode (lossyText l) :=
  utf8Bytes_ofList _

/-- The text that is made of a byte string has the bytes again exactly if they are UTF-8. -/
theorem utf8Bytes_fromUtf8Lossy_eq_iff {l : List Byte} :
    utf8Bytes (fromUtf8Lossy l) = l ↔ ∃ cs, l = utf8Encode cs := by
  rw [utf8Bytes_fromUtf8Lossy]
  refine ⟨fun h => ⟨lossyText l, h.symm⟩, ?_⟩
  rintro ⟨cs, rfl⟩
  rw [lossyText_utf8Encode]

end SysLib
