import Mathlib.Data.List.Basic
import Mathlib.Data.List.Infix
import Mathlib.Data.Nat.Digits.Defs
import Mathlib.Tactic.Ring

/-!
# Text

The operations of the standard library on text that a reader of text needs : the first
occurrence of a pattern (`find`), replacing every occurrence (`replaceAll`), trimming white
space, and reading numbers in decimal notation.

A pattern is found at the first position it stands at (`find_eq_some_iff`). `HoldsAt` says that a
text stands at a position of another. `find_append` says where a pattern is found behind a text that
holds none of its first characters, and `fromDecimal_decimal` that the integers read back what is
printed.
-/

namespace SysLib

section Patterns

variable {α : Type} [DecidableEq α]

/-- The first position of `pat` in a text. -/
def find (pat : List α) : List α → Option ℕ
  | [] => if pat.isPrefixOf [] then some 0 else none
  | a :: l => if pat.isPrefixOf (a :: l) then some 0 else (find pat l).map (· + 1)

/-- Replace `pat` from left to right, after the next `skip` letters, which belong to the last
occurrence. -/
def replaceFrom (pat rep : List α) : ℕ → List α → List α
  | _, [] => []
  | skip + 1, _ :: l => replaceFrom pat rep skip l
  | 0, a :: l =>
    if pat.isPrefixOf (a :: l) then rep ++ replaceFrom pat rep (pat.length - 1) l
    else a :: replaceFrom pat rep 0 l

/-- `text.replace(pat, rep)` for a pattern that is not empty. -/
def replaceAll (pat rep : List α) (text : List α) : List α :=
  replaceFrom pat rep 0 text

theorem find_le {pat : List α} : ∀ {l : List α} {k : ℕ}, find pat l = some k →
    k + pat.length ≤ l.length
  | [], k, h => by
    unfold find at h
    split_ifs at h with hp
    obtain rfl := Option.some.inj h
    simpa using (List.isPrefixOf_iff_prefix.1 hp).length_le
  | a :: l, k, h => by
    unfold find at h
    split_ifs at h with hp
    · obtain rfl := Option.some.inj h
      simpa using (List.isPrefixOf_iff_prefix.1 hp).length_le
    · obtain ⟨j, hj, rfl⟩ := Option.map_eq_some_iff.1 h
      have := find_le hj
      rw [List.length_cons]
      omega

/-- A pattern stands where it is found. -/
theorem drop_of_find {pat : List α} : ∀ {l : List α} {k : ℕ}, find pat l = some k →
    pat <+: l.drop k
  | [], k, h => by
    unfold find at h
    split_ifs at h with hp
    obtain rfl := Option.some.inj h
    exact List.isPrefixOf_iff_prefix.1 hp
  | a :: l, k, h => by
    unfold find at h
    split_ifs at h with hp
    · obtain rfl := Option.some.inj h
      exact List.isPrefixOf_iff_prefix.1 hp
    · obtain ⟨j, hj, rfl⟩ := Option.map_eq_some_iff.1 h
      rw [List.drop_succ_cons]
      exact drop_of_find hj

/-- A pattern that stands in a text is found there. -/
theorem isSome_find {pat : List α} : ∀ {l : List α}, pat <:+: l → (find pat l).isSome
  | [], h => by
    obtain rfl := List.infix_nil.1 h
    rfl
  | a :: l, h => by
    unfold find
    split_ifs with hp
    · rfl
    · rcases List.infix_cons_iff.1 h with h | h
      · exact absurd (List.isPrefixOf_iff_prefix.2 h) hp
      · rw [Option.isSome_map]
        exact isSome_find h

/-- A pattern is found at the first position it stands at. -/
theorem find_eq_some_iff {pat : List α} : ∀ {l : List α} {k : ℕ},
    find pat l = some k ↔ pat <+: l.drop k ∧ ∀ j < k, ¬pat <+: l.drop j
  | [], k => by
    simp only [find, List.isPrefixOf_iff_prefix, List.drop_nil, List.prefix_nil]
    constructor
    · intro h
      split_ifs at h with hp
      obtain rfl := Option.some.inj h
      exact ⟨hp, nofun⟩
    · rintro ⟨hp, hfirst⟩
      obtain rfl : k = 0 := by
        by_contra hk
        exact hfirst 0 (Nat.pos_of_ne_zero hk) hp
      rw [if_pos hp]
  | a :: l, k => by
    rw [find]
    simp only [List.isPrefixOf_iff_prefix]
    split_ifs with hp
    · rw [Option.some.injEq]
      constructor
      · rintro rfl
        exact ⟨hp, nofun⟩
      · rintro ⟨-, hfirst⟩
        by_contra hk
        exact hfirst 0 (Nat.pos_of_ne_zero (Ne.symm hk)) hp
    · rw [Option.map_eq_some_iff]
      constructor
      · rintro ⟨j, hj, rfl⟩
        obtain ⟨hat, hfirst⟩ := find_eq_some_iff.1 hj
        refine ⟨hat, fun j' hj' => ?_⟩
        cases j' with
        | zero => exact hp
        | succ j' => exact hfirst j' (by omega)
      · rintro ⟨hat, hfirst⟩
        cases k with
        | zero => exact absurd hat hp
        | succ k =>
          exact ⟨k, find_eq_some_iff.2 ⟨hat, fun j hj => hfirst (j + 1) (by omega)⟩, rfl⟩

/-- What follows a pattern does not change where it is found. -/
theorem find_append_right {pat l : List α} {k : ℕ} (h : find pat l = some k) (r : List α) :
    find pat (l ++ r) = some k := by
  have hle := find_le h
  obtain ⟨hat, hfirst⟩ := find_eq_some_iff.1 h
  have hdrop : ∀ j ≤ k, (l ++ r).drop j = l.drop j ++ r := fun j hj =>
    List.drop_append_of_le_length (by omega)
  refine find_eq_some_iff.2 ⟨?_, fun j hj hpat => hfirst j hj ?_⟩
  · rw [hdrop k le_rfl]
    exact hat.trans (List.prefix_append _ _)
  · rw [hdrop j hj.le] at hpat
    refine List.prefix_of_prefix_length_le hpat (List.prefix_append _ _) ?_
    rw [List.length_drop]
    omega

/-- Nor does what follows it when it is cut off. -/
theorem find_take {pat l : List α} {k : ℕ} (h : find pat l = some k) :
    find pat (l.take (k + pat.length)) = some k := by
  obtain ⟨hat, hfirst⟩ := find_eq_some_iff.1 h
  refine find_eq_some_iff.2 ⟨?_, fun j hj hpat => hfirst j hj ?_⟩
  · rw [List.drop_take, Nat.add_sub_cancel_left]
    exact List.prefix_take_iff.2 ⟨hat, le_rfl⟩
  · rw [List.drop_take] at hpat
    exact hpat.trans (List.take_prefix _ _)

/-- Before the first position of a pattern there is none. -/
theorem not_infix_of_find {pat l : List α} {k : ℕ} (hpat : pat ≠ []) (h : find pat l = some k) :
    ¬pat <:+: l.take k := by
  rintro ⟨u, v, huv⟩
  have hlen := congrArg List.length huv
  have hpos := List.length_pos_iff.2 hpat
  simp only [List.length_append, List.length_take] at hlen
  refine (find_eq_some_iff.1 h).2 u.length (by omega) ?_
  have hl : l = u ++ (pat ++ (v ++ l.drop k)) := by
    conv_lhs => rw [← List.take_append_drop k l, ← huv]
    simp
  rw [hl, List.drop_left]
  exact List.prefix_append _ _

/-- A pattern whose first letter does not occur in `l` is found right behind `l`. -/
theorem find_append {c : α} {pat : List α} :
    ∀ {l : List α} (rest : List α), c ∉ l → find (c :: pat) (l ++ (c :: pat ++ rest)) = some l.length
  | [], rest, _ => by
    rw [List.nil_append, List.cons_append, find, ← List.cons_append,
      if_pos (List.isPrefixOf_iff_prefix.2 (List.prefix_append _ _))]
    rfl
  | a :: l, rest, h => by
    obtain ⟨ha, hl⟩ := not_or.1 (mt List.mem_cons.2 h)
    have hp : ¬(c :: pat).isPrefixOf (a :: (l ++ (c :: pat ++ rest))) := by
      rw [List.isPrefixOf_iff_prefix, List.cons_prefix_cons]
      exact fun h => ha h.1
    rw [List.cons_append, find, if_neg hp, find_append rest hl]
    rfl

/-- A pattern with a last letter of its own is found right behind a text that does not hold it. -/
theorem find_append_of_last {q : List α} {c : α} (hc : c ∉ q) (rest : List α) :
    ∀ {l : List α}, ¬q ++ [c] <:+: l → find (q ++ [c]) (l ++ (q ++ [c] ++ rest)) = some l.length
  | [], _ => by
    have hp : (q ++ [c]).isPrefixOf (q ++ [c] ++ rest) :=
      List.isPrefixOf_iff_prefix.2 (List.prefix_append _ _)
    rw [List.nil_append]
    cases hl : q ++ [c] ++ rest with
    | nil => simp at hl
    | cons a l =>
      rw [hl] at hp
      rw [find, if_pos hp]
      rfl
  | a :: l, h => by
    have hp : ¬(q ++ [c]).isPrefixOf (a :: (l ++ (q ++ [c] ++ rest))) := by
      rw [List.isPrefixOf_iff_prefix]
      intro hp
      by_cases hlen : (q ++ [c]).length ≤ (a :: l).length
      · exact h (List.prefix_of_prefix_length_le hp (List.prefix_append (a :: l) _) hlen).isInfix
      · -- the occurrence ends among the letters of the pattern before its last one
        obtain ⟨u, hu⟩ := List.prefix_of_prefix_length_le
          (List.prefix_append (a :: l) (q ++ [c] ++ rest)) hp (not_le.1 hlen).le
        have hpre : u <+: q ++ [c] ++ rest := by
          have hall : a :: l ++ u <+: a :: l ++ (q ++ [c] ++ rest) := by
            rw [hu]
            exact hp
          exact (List.prefix_append_right_inj (a :: l)).1 hall
        have hulen : u.length ≤ q.length := by
          have := congrArg List.length hu
          simp only [List.length_append, List.length_cons, List.length_nil] at this
          omega
        have huq : u <+: q := by
          rw [List.append_assoc] at hpre
          exact List.prefix_of_prefix_length_le hpre (List.prefix_append q _) hulen
        have hlast : c ∈ u := by
          have hne : u ≠ [] := by
            rintro rfl
            rw [List.append_nil] at hu
            exact hlen (by rw [← hu])
          have hget : u.getLast hne = c := by
            have := congrArg List.getLast? hu
            rw [List.getLast?_append_of_ne_nil _ hne, List.getLast?_append_of_ne_nil _ (by simp),
              List.getLast?_eq_some_getLast hne, List.getLast?_singleton] at this
            exact Option.some.inj this
          exact hget ▸ List.getLast_mem hne
        exact hc (huq.subset hlast)
    have hl : ¬q ++ [c] <:+: l := fun hl => h (List.infix_cons hl)
    rw [List.cons_append, find, if_neg hp, find_append_of_last hc rest hl]
    rfl

theorem replaceFrom_cons_of_ne {c a : α} {pat rep l : List α} (h : c ≠ a) :
    replaceFrom (c :: pat) rep 0 (a :: l) = a :: replaceFrom (c :: pat) rep 0 l := by
  have hp : ¬(c :: pat).isPrefixOf (a :: l) := by
    rw [List.isPrefixOf_iff_prefix, List.cons_prefix_cons]
    exact fun h' => h h'.1
  rw [replaceFrom, if_neg hp]

/-- Letters that do not begin the pattern are copied. -/
theorem replaceFrom_copy {c : α} {pat rep : List α} : ∀ {l : List α} (l' : List α), c ∉ l →
    replaceFrom (c :: pat) rep 0 (l ++ l') = l ++ replaceFrom (c :: pat) rep 0 l'
  | [], _, _ => rfl
  | a :: l, l', h => by
    obtain ⟨ha, hl⟩ := not_or.1 (mt List.mem_cons.2 h)
    rw [List.cons_append, replaceFrom_cons_of_ne ha, replaceFrom_copy l' hl, List.cons_append]

theorem replaceFrom_skip (pat rep : List α) : ∀ l l' : List α,
    replaceFrom pat rep l.length (l ++ l') = replaceFrom pat rep 0 l'
  | [], _ => rfl
  | _ :: l, l' => replaceFrom_skip pat rep l l'

/-- An occurrence at the head is replaced, and the rest of the text after it. -/
theorem replaceFrom_append {c : α} (pat rep l : List α) :
    replaceFrom (c :: pat) rep 0 (c :: pat ++ l) = rep ++ replaceFrom (c :: pat) rep 0 l := by
  have hp : (c :: pat).isPrefixOf (c :: (pat ++ l)) :=
    List.isPrefixOf_iff_prefix.2 (List.prefix_append (c :: pat) l)
  rw [List.cons_append, replaceFrom, if_pos hp, List.length_cons, Nat.add_sub_cancel,
    replaceFrom_skip]

/-! ## A text at a position -/

/-- `buf` has `l` at `pos`. -/
def HoldsAt (buf : List α) (pos : ℕ) (l : List α) : Prop :=
  l <+: buf.drop pos

instance decidableHoldsAt (buf : List α) (pos : ℕ) (l : List α) : Decidable (HoldsAt buf pos l) :=
  inferInstanceAs (Decidable (l <+: buf.drop pos))

section HoldsAt

variable {buf l l' : List α} {pos : ℕ}

omit [DecidableEq α]

theorem holdsAt_append : HoldsAt buf pos (l ++ l') ↔
    HoldsAt buf pos l ∧ HoldsAt buf (pos + l.length) l' := by
  unfold HoldsAt
  constructor
  · rintro ⟨rest, hrest⟩
    refine ⟨⟨l' ++ rest, by rw [← hrest, List.append_assoc]⟩, rest, ?_⟩
    rw [← List.drop_drop, ← hrest, List.append_assoc, List.drop_left]
  · rintro ⟨⟨rest, hrest⟩, h⟩
    rw [← List.drop_drop, ← hrest, List.drop_left] at h
    rw [← hrest]
    exact (List.prefix_append_right_inj l).2 h

theorem HoldsAt.take (h : HoldsAt buf pos l) : (buf.drop pos).take l.length = l :=
  (List.prefix_iff_eq_take.1 h).symm

theorem HoldsAt.add_length_le (h : HoldsAt buf pos l) (hl : 0 < l.length) :
    pos + l.length ≤ buf.length := by
  have hle : l.length ≤ (buf.drop pos).length := List.IsPrefix.length_le h
  rw [List.length_drop] at hle
  omega

theorem HoldsAt.getElem? {a : α} (h : HoldsAt buf pos (a :: l)) : buf[pos]? = some a := by
  obtain ⟨rest, hrest⟩ := h
  have hhead : (buf.drop pos)[0]? = some a := by rw [← hrest]; rfl
  simpa using hhead

end HoldsAt

end Patterns

/-! ## White space -/

/-- `char::is_whitespace` : the Unicode property `White_Space`. -/
def isWhitespace (c : Char) : Bool :=
  let n := c.toNat
  (0x9 ≤ n && n ≤ 0xd) || n = 0x20 || n = 0x85 || n = 0xa0 || n = 0x1680 ||
    (0x2000 ≤ n && n ≤ 0x200a) || n = 0x2028 || n = 0x2029 || n = 0x202f || n = 0x205f ||
    n = 0x3000

/-- `str::trim`. -/
def trim (cs : List Char) : List Char :=
  ((cs.dropWhile isWhitespace).reverse.dropWhile isWhitespace).reverse

theorem trim_of_forall {cs : List Char} (h : ∀ c ∈ cs, isWhitespace c = false) : trim cs = cs := by
  have hdrop : ∀ l : List Char, (∀ c ∈ l, isWhitespace c = false) →
      l.dropWhile isWhitespace = l := by
    intro l hl
    cases l with
    | nil => rfl
    | cons c l => rw [List.dropWhile_cons, hl c List.mem_cons_self, if_neg (by simp)]
  rw [trim, hdrop cs h, hdrop _ fun c hc => h c (List.mem_reverse.1 hc), List.reverse_reverse]

/-! ## Integers -/

/-- The value of a digit. -/
def digitVal (c : Char) : Option ℕ :=
  if 0x30 ≤ c.toNat ∧ c.toNat ≤ 0x39 then some (c.toNat - 0x30) else none

/-- The value of digits, with `acc` before them. -/
def digitsVal : ℕ → List Char → Option ℕ
  | acc, [] => some acc
  | acc, c :: cs =>
    match digitVal c with
    | some d => digitsVal (acc * 10 + d) cs
    | none => none

/-- A number without a sign : at least one digit. -/
def natOfDecimal : List Char → Option ℕ
  | [] => none
  | c :: cs => digitsVal 0 (c :: cs)

/-- A number with an optional sign. -/
def fromDecimal : List Char → Option ℤ
  | '-' :: cs => (natOfDecimal cs).map fun n : ℕ => -(n : ℤ)
  | '+' :: cs => (natOfDecimal cs).map fun n : ℕ => (n : ℤ)
  | cs => (natOfDecimal cs).map fun n : ℕ => (n : ℤ)

/-- The digit of a value. -/
def digitChar (d : ℕ) : Char :=
  Char.ofNat (0x30 + d)

/-- A number in decimal notation. -/
def decimalNat (n : ℕ) : List Char :=
  if n = 0 then ['0'] else (Nat.digits 10 n).reverse.map digitChar

def decimal (z : ℤ) : List Char :=
  if z < 0 then '-' :: decimalNat z.natAbs else decimalNat z.natAbs

theorem toNat_digitChar {d : ℕ} (hd : d < 10) : (digitChar d).toNat = 0x30 + d := by
  have hvalid : (0x30 + d).isValidChar := Or.inl (by omega)
  rw [digitChar, Char.ofNat, dif_pos hvalid]
  rfl

theorem digitVal_digitChar {d : ℕ} (hd : d < 10) : digitVal (digitChar d) = some d := by
  rw [digitVal, toNat_digitChar hd, if_pos (by omega)]
  congr 1
  omega

theorem digitsVal_map : ∀ {ds : List ℕ} (acc : ℕ), (∀ d ∈ ds, d < 10) →
    digitsVal acc (ds.map digitChar) = some (ds.foldl (fun a d => a * 10 + d) acc)
  | [], _, _ => rfl
  | d :: ds, acc, h => by
    rw [List.map_cons, digitsVal, digitVal_digitChar (h d List.mem_cons_self)]
    exact digitsVal_map _ fun d' hd' => h d' (List.mem_cons_of_mem d hd')

/-- The digits of a number, highest first. -/
theorem decimalNat_eq (n : ℕ) : ∃ d ds, decimalNat n = (d :: ds).map digitChar ∧
    (∀ e ∈ d :: ds, e < 10) ∧ (d :: ds).foldl (fun a e => a * 10 + e) 0 = n := by
  by_cases hn : n = 0
  · subst hn
    exact ⟨0, [], rfl, by simp, rfl⟩
  · have hne : (Nat.digits 10 n).reverse ≠ [] :=
      fun h => hn (Nat.digits_eq_nil_iff_eq_zero.1 (List.reverse_eq_nil_iff.1 h))
    obtain ⟨d, ds, hds⟩ := List.exists_cons_of_ne_nil hne
    refine ⟨d, ds, by rw [decimalNat, if_neg hn, hds], fun e he => ?_, ?_⟩
    · rw [← hds, List.mem_reverse] at he
      exact Nat.digits_lt_base (by omega) he
    · have hstep : (fun (d a : ℕ) => a * 10 + d) = fun (d a : ℕ) => (d : ℕ) + 10 * a := by
        ext d a
        omega
      have h := Nat.ofDigits_digits 10 n
      rw [Nat.ofDigits_eq_foldr] at h
      rw [← hds, List.foldl_reverse, hstep]
      exact h

theorem natOfDecimal_decimalNat (n : ℕ) : natOfDecimal (decimalNat n) = some n := by
  obtain ⟨d, ds, heq, hlt, hfold⟩ := decimalNat_eq n
  rw [heq, List.map_cons, natOfDecimal, ← List.map_cons, digitsVal_map 0 hlt, hfold]

/-- The integers read back what is printed. -/
theorem fromDecimal_decimal (z : ℤ) : fromDecimal (decimal z) = some z := by
  unfold decimal
  split_ifs with hz
  · rw [fromDecimal, natOfDecimal_decimalNat, Option.map_some]
    congr 1
    omega
  · have hval := natOfDecimal_decimalNat z.natAbs
    obtain ⟨d, ds, heq, hlt, -⟩ := decimalNat_eq z.natAbs
    have hd := toNat_digitChar (hlt d List.mem_cons_self)
    rw [heq, List.map_cons] at hval ⊢
    have hminus : digitChar d ≠ '-' := by
      intro h
      rw [h] at hd
      have : ('-').toNat = 45 := rfl
      omega
    have hplus : digitChar d ≠ '+' := by
      intro h
      rw [h] at hd
      have : ('+').toNat = 43 := rfl
      omega
    rw [fromDecimal.eq_3 _ (fun cs h => hminus (List.cons.inj h).1)
      (fun cs h => hplus (List.cons.inj h).1), hval, Option.map_some]
    congr 1
    omega

/-- A printed number consists of digits and a sign. -/
theorem mem_decimal {z : ℤ} {c : Char} (h : c ∈ decimal z) :
    c = '-' ∨ 0x30 ≤ c.toNat ∧ c.toNat ≤ 0x39 := by
  have hnat : ∀ n : ℕ, c ∈ decimalNat n → 0x30 ≤ c.toNat ∧ c.toNat ≤ 0x39 := by
    intro n hc
    obtain ⟨d, ds, heq, hlt, -⟩ := decimalNat_eq n
    rw [heq] at hc
    obtain ⟨e, he, rfl⟩ := List.mem_map.1 hc
    have := hlt e he
    rw [toNat_digitChar this]
    omega
  unfold decimal at h
  split_ifs at h
  · rcases List.mem_cons.1 h with rfl | h
    · exact Or.inl rfl
    · exact Or.inr (hnat _ h)
  · exact Or.inr (hnat _ h)

/-! ## Real numbers -/

/-- The digits at the head of a text as one number, how many there are, and what follows. -/
def takeDigits : ℕ → ℕ → List Char → ℕ × ℕ × List Char
  | acc, n, [] => (acc, n, [])
  | acc, n, c :: cs =>
    match digitVal c with
    | some d => takeDigits (acc * 10 + d) (n + 1) cs
    | none => (acc, n, c :: cs)

/-- The exponent that ends a number. -/
def exponentOf : List Char → Option ℤ
  | [] => some 0
  | c :: cs => if c = 'e' ∨ c = 'E' then fromDecimal cs else none

/-- The bits of the binary64 number closest to `num / den`, ties to even. -/
def f64OfRatio (num den : ℕ) : ℕ :=
  if num = 0 then 0
  else
    let guess : ℤ := Nat.log2 num - Nat.log2 den
    let exponent := if num * 2 ^ (-guess).toNat < den * 2 ^ guess.toNat then guess - 1 else guess
    -- the weight of the last place; small numbers share the one of the subnormals
    let ulp := max exponent (-1022) - 52
    let n := num * 2 ^ (-ulp).toNat
    let d := den * 2 ^ ulp.toNat
    let up := d < 2 * (n % d) ∨ d = 2 * (n % d) ∧ n / d % 2 = 1
    let rounded := n / d + if up then 1 else 0
    min (0x7ff * 2 ^ 52) ((ulp + 1074).toNat * 2 ^ 52 + rounded)

/-- The bits of a number without a sign, in the notation of `f64::from_str`. -/
def f64OfDecimal (cs : List Char) : Option ℕ :=
  let lower := cs.map Char.toLower
  if lower = "inf".toList ∨ lower = "infinity".toList then some (0x7ff * 2 ^ 52)
  else if lower = "nan".toList then some (0x7ff * 2 ^ 52 + 2 ^ 51)
  else
    let (whole, before, l) := takeDigits 0 0 cs
    let (mantissa, after, l) :=
      match l with
      | '.' :: l => takeDigits whole 0 l
      | l => (whole, 0, l)
    if before + after = 0 then none
    else
      (exponentOf l).map fun e =>
        let scale := e - (after : ℤ)
        f64OfRatio (mantissa * 10 ^ scale.toNat) (10 ^ (-scale).toNat)

/-- `f64::from_str`, as bits. -/
def f64FromStr : List Char → Option (BitVec 64)
  | '-' :: cs => (f64OfDecimal cs).map fun n => BitVec.ofNat 64 (2 ^ 63 + n)
  | '+' :: cs => (f64OfDecimal cs).map (BitVec.ofNat 64)
  | cs => (f64OfDecimal cs).map (BitVec.ofNat 64)

end SysLib
