import Mathlib.Data.List.DropRight
import Mathlib.Data.List.TakeWhile
import IosEmu.Common

/-!
# JSON texts

The grammar of RFC 8259 : a rule says what stands at the front of a text and what is left
behind it. Strings are Unicode texts, so a surrogate is escaped with its other half only, and
numbers are kept as they are written. `Json.Derives` is the grammar of whole texts.

`Json.read` is a reader of these texts, and it returns the value of every text that has one
(`Json.read_of_derives`). So a text has one value at most (`Json.Derives.unique`), and what a
reader that keeps to the grammar returns is known (`Json.Conforming.read_eq`).
-/

namespace SysLib

/-- A JSON value. The members of an object are in the order of the text. -/
inductive Json
  | null
  | bool (b : Bool)
  | num (text : List Char)
  | str (text : List Char)
  | arr (elements : List Json)
  | obj (members : List (List Char × Json))

namespace Json

/-! ## Characters -/

def IsWs (c : Char) : Prop :=
  c = ' ' ∨ c = '\t' ∨ c = '\n' ∨ c = '\r'

instance (c : Char) : Decidable (IsWs c) :=
  inferInstanceAs (Decidable (_ ∨ _ ∨ _ ∨ _))

/-- A character that may stand for itself in a string. -/
def Unescaped (c : Char) : Prop :=
  0x20 ≤ c.toNat ∧ c ≠ '"' ∧ c ≠ '\\'

instance (c : Char) : Decidable (Unescaped c) :=
  inferInstanceAs (Decidable (_ ∧ _ ∧ _))

/-- What a character stands for behind a backslash. -/
def escaped (c : Char) : Option Char :=
  if c = '"' then some '"'
  else if c = '\\' then some '\\'
  else if c = '/' then some '/'
  else if c = 'b' then some '\x08'
  else if c = 'f' then some '\x0c'
  else if c = 'n' then some '\n'
  else if c = 'r' then some '\r'
  else if c = 't' then some '\t'
  else none

/-- The value of a hexadecimal digit. -/
def hexValue (c : Char) : Option ℕ :=
  if 0x30 ≤ c.toNat ∧ c.toNat ≤ 0x39 then some (c.toNat - 0x30)
  else if 0x41 ≤ c.toNat ∧ c.toNat ≤ 0x46 then some (c.toNat - 0x37)
  else if 0x61 ≤ c.toNat ∧ c.toNat ≤ 0x66 then some (c.toNat - 0x57)
  else none

/-- Four hexadecimal digits, and what is left. -/
def hexUnit : List Char → Option (ℕ × List Char)
  | a :: b :: c :: d :: s => do
    let a ← hexValue a
    let b ← hexValue b
    let c ← hexValue c
    let d ← hexValue d
    return (((a * 16 + b) * 16 + c) * 16 + d, s)
  | _ => none

def IsHigh (n : ℕ) : Prop :=
  0xd800 ≤ n ∧ n < 0xdc00

instance (n : ℕ) : Decidable (IsHigh n) :=
  inferInstanceAs (Decidable (_ ∧ _))

def IsLow (n : ℕ) : Prop :=
  0xdc00 ≤ n ∧ n < 0xe000

instance (n : ℕ) : Decidable (IsLow n) :=
  inferInstanceAs (Decidable (_ ∧ _))

/-- The character of a pair of surrogates. -/
def ofPair (high low : ℕ) : Char :=
  Char.ofNat (0x10000 + (high - 0xd800) * 0x400 + (low - 0xdc00))

/-! ## Numbers -/

/-- A character of which numbers are made. -/
def IsNumberChar (c : Char) : Prop :=
  c.isDigit ∨ c = '-' ∨ c = '+' ∨ c = '.' ∨ c = 'e' ∨ c = 'E'

instance (c : Char) : Decidable (IsNumberChar c) :=
  inferInstanceAs (Decidable (_ ∨ _ ∨ _ ∨ _ ∨ _ ∨ _))

def isExponent (s : List Char) : Bool :=
  match s with
  | [] => true
  | c :: s =>
    let digits := if s.head? = some '+' ∨ s.head? = some '-' then s.tail else s
    (c = 'e' ∨ c = 'E') ∧ digits ≠ [] ∧ digits.all Char.isDigit

def isFraction (s : List Char) : Bool :=
  match s with
  | '.' :: s => s.takeWhile Char.isDigit ≠ [] ∧ isExponent (s.dropWhile Char.isDigit)
  | s => isExponent s

def isUnsigned (s : List Char) : Bool :=
  match s with
  | [] => false
  | c :: s =>
    if c = '0' then isFraction s else c.isDigit ∧ isFraction (s.dropWhile Char.isDigit)

/-- `[ minus ] int [ frac ] [ exp ]`. -/
def isNumber (s : List Char) : Bool :=
  match s with
  | '-' :: s => isUnsigned s
  | s => isUnsigned s

/-! ## The grammar -/

/-- Whitespace at the front of a text, as far as one likes. -/
inductive Ws : List Char → List Char → Prop
  | nil {s : List Char} : Ws s s
  | cons {c : Char} {s r : List Char} : IsWs c → Ws s r → Ws (c :: s) r

/-- The characters of a string, up to and with the closing quote. -/
inductive Chars : List Char → List Char → List Char → Prop
  | close {r : List Char} : Chars ('"' :: r) [] r
  | plain {c : Char} {s t r : List Char} : Unescaped c → Chars s t r → Chars (c :: s) (c :: t) r
  | escape {e c : Char} {s t r : List Char} : escaped e = some c → Chars s t r →
      Chars ('\\' :: e :: s) (c :: t) r
  | unit {n : ℕ} {s s' t r : List Char} : hexUnit s = some (n, s') → ¬IsHigh n → ¬IsLow n →
      Chars s' t r → Chars ('\\' :: 'u' :: s) (Char.ofNat n :: t) r
  | pair {m n : ℕ} {s s' s'' t r : List Char} : hexUnit s = some (m, '\\' :: 'u' :: s') →
      IsHigh m → hexUnit s' = some (n, s'') → IsLow n → Chars s'' t r →
      Chars ('\\' :: 'u' :: s) (ofPair m n :: t) r

mutual

inductive Value : List Char → Json → List Char → Prop
  | null {r : List Char} : Value ("null".toList ++ r) .null r
  | true {r : List Char} : Value ("true".toList ++ r) (.bool .true) r
  | false {r : List Char} : Value ("false".toList ++ r) (.bool .false) r
  /-- A number goes on as long as it can. -/
  | num {t r : List Char} : isNumber t → (∀ c ∈ r.head?, ¬IsNumberChar c) →
      Value (t ++ r) (.num t) r
  | str {s t r : List Char} : Chars s t r → Value ('"' :: s) (.str t) r
  | emptyArr {s r : List Char} : Ws s (']' :: r) → Value ('[' :: s) (.arr []) r
  | arr {s r : List Char} {l : List Json} : Elements s l r → Value ('[' :: s) (.arr l) r
  | emptyObj {s r : List Char} : Ws s ('}' :: r) → Value ('{' :: s) (.obj []) r
  | obj {s r : List Char} {l : List (List Char × Json)} : Members s l r →
      Value ('{' :: s) (.obj l) r

/-- Values with commas between them, up to and with the closing bracket. -/
inductive Elements : List Char → List Json → List Char → Prop
  | last {s s₁ s₂ r : List Char} {v : Json} : Ws s s₁ → Value s₁ v s₂ → Ws s₂ (']' :: r) →
      Elements s [v] r
  | more {s s₁ s₂ s₃ r : List Char} {v : Json} {l : List Json} : Ws s s₁ → Value s₁ v s₂ →
      Ws s₂ (',' :: s₃) → Elements s₃ l r → Elements s (v :: l) r

/-- Names and values with commas between them, up to and with the closing brace. -/
inductive Members : List Char → List (List Char × Json) → List Char → Prop
  | last {s s₁ s₂ s₃ s₄ s₅ r k : List Char} {v : Json} : Ws s ('"' :: s₁) → Chars s₁ k s₂ →
      Ws s₂ (':' :: s₃) → Ws s₃ s₄ → Value s₄ v s₅ → Ws s₅ ('}' :: r) → Members s [(k, v)] r
  | more {s s₁ s₂ s₃ s₄ s₅ s₆ r k : List Char} {v : Json} {l : List (List Char × Json)} :
      Ws s ('"' :: s₁) → Chars s₁ k s₂ → Ws s₂ (':' :: s₃) → Ws s₃ s₄ → Value s₄ v s₅ →
      Ws s₅ (',' :: s₆) → Members s₆ l r → Members s ((k, v) :: l) r

end

/-- The text is JSON for the value. -/
def Derives (text : List Char) (v : Json) : Prop :=
  ∃ s r, Ws text s ∧ Value s v r ∧ Ws r []

/-! ## A reader -/

def skipWs (s : List Char) : List Char :=
  s.dropWhile fun c => IsWs c

def readChars : ℕ → List Char → Option (List Char × List Char)
  | 0, _ => none
  | _, [] => none
  | n + 1, c :: s =>
    if c = '"' then some ([], s)
    else if c = '\\' then
      match s with
      | [] => none
      | e :: s =>
        if e = 'u' then do
          let (m, s') ← hexUnit s
          if IsHigh m then
            match s' with
            | '\\' :: 'u' :: s' => do
              let (n', s'') ← hexUnit s'
              if IsLow n' then do
                let (t, r) ← readChars n s''
                return (ofPair m n' :: t, r)
              else none
            | _ => none
          else if IsLow m then none
          else do
            let (t, r) ← readChars n s'
            return (Char.ofNat m :: t, r)
        else do
          let c ← escaped e
          let (t, r) ← readChars n s
          return (c :: t, r)
    else if Unescaped c then do
      let (t, r) ← readChars n s
      return (c :: t, r)
    else none

/-- A value that is not a string, an array or an object. -/
def readAtom (s : List Char) : Option (Json × List Char) :=
  if s.take 4 = "null".toList then some (.null, s.drop 4)
  else if s.take 4 = "true".toList then some (.bool true, s.drop 4)
  else if s.take 5 = "false".toList then some (.bool false, s.drop 5)
  else if isNumber (s.takeWhile fun c => IsNumberChar c) then
    some (.num (s.takeWhile fun c => IsNumberChar c), s.dropWhile fun c => IsNumberChar c)
  else none

mutual

def readValue : ℕ → List Char → Option (Json × List Char)
  | 0, _ => none
  | _, [] => none
  | n + 1, c :: s =>
    if c = '"' then do
      let (t, r) ← readChars (s.length + 1) s
      return (.str t, r)
    else if c = '[' then
      match skipWs s with
      | ']' :: r => some (.arr [], r)
      | s => do
        let (l, r) ← readElements n s
        return (.arr l, r)
    else if c = '{' then
      match skipWs s with
      | '}' :: r => some (.obj [], r)
      | s => do
        let (l, r) ← readMembers n s
        return (.obj l, r)
    else readAtom (c :: s)

def readElements : ℕ → List Char → Option (List Json × List Char)
  | 0, _ => none
  | n + 1, s => do
    let (v, s₂) ← readValue n (skipWs s)
    match skipWs s₂ with
    | ']' :: r => some ([v], r)
    | ',' :: s₃ => do
      let (l, r) ← readElements n s₃
      return (v :: l, r)
    | _ => none

def readMembers : ℕ → List Char → Option (List (List Char × Json) × List Char)
  | 0, _ => none
  | n + 1, s => do
    match skipWs s with
    | '"' :: s₁ => do
      let (k, s₂) ← readChars (s₁.length + 1) s₁
      match skipWs s₂ with
      | ':' :: s₃ => do
        let (v, s₅) ← readValue n (skipWs s₃)
        match skipWs s₅ with
        | '}' :: r => some ([(k, v)], r)
        | ',' :: s₆ => do
          let (l, r) ← readMembers n s₆
          return ((k, v) :: l, r)
        | _ => none
      | _ => none
    | _ => none

end

/-- Read a whole text. -/
def read (text : List Char) : Option Json := do
  let (v, r) ← readValue (2 * text.length + 1) (skipWs text)
  if skipWs r = [] then some v else none

/-! ## Every text is read -/

theorem Ws.skipWs_eq {s r : List Char} (h : Ws s r) : skipWs s = skipWs r := by
  induction h with
  | nil => rfl
  | cons hc _ ih => rw [← ih, skipWs, List.dropWhile_cons_of_pos (by simpa using hc), ← skipWs]

theorem Ws.length_le {s r : List Char} (h : Ws s r) : r.length ≤ s.length := by
  induction h with
  | nil => exact le_rfl
  | cons _ _ ih =>
    rw [List.length_cons]
    exact Nat.le_succ_of_le ih

theorem skipWs_cons {c : Char} (s : List Char) (hc : ¬IsWs c) : skipWs (c :: s) = c :: s := by
  rw [skipWs, List.dropWhile_cons_of_neg (by simpa using hc)]

theorem Ws.skipWs_eq_cons {s r : List Char} {c : Char} (h : Ws s (c :: r)) (hc : ¬IsWs c) :
    skipWs s = c :: r := by
  rw [h.skipWs_eq, skipWs_cons r hc]

theorem length_hexUnit {s s' : List Char} {n : ℕ} (h : hexUnit s = some (n, s')) :
    s'.length < s.length := by
  match s, h with
  | a :: b :: c :: d :: s, h =>
    simp only [hexUnit, Option.bind_eq_bind, Option.bind_eq_some_iff, Option.pure_def,
      Option.some.injEq, Prod.mk.injEq] at h
    obtain ⟨_, -, _, -, _, -, _, -, -, rfl⟩ := h
    simp only [List.length_cons]
    omega

theorem Chars.length_lt {s t r : List Char} (h : Chars s t r) : r.length < s.length := by
  induction h with
  | close => exact Nat.lt_succ_self _
  | plain _ _ ih => exact ih.trans (Nat.lt_succ_self _)
  | escape _ _ ih =>
    simp only [List.length_cons]
    omega
  | unit hn _ _ _ ih =>
    have := length_hexUnit hn
    simp only [List.length_cons]
    omega
  | pair hm _ hn _ _ ih =>
    have hm' := length_hexUnit hm
    have hn' := length_hexUnit hn
    simp only [List.length_cons] at hm' ⊢
    omega

theorem escaped_ne_u {e c : Char} (h : escaped e = some c) : e ≠ 'u' := by
  rintro rfl
  simp [escaped] at h

theorem readChars_of_chars {s t r : List Char} (h : Chars s t r) :
    ∀ n, s.length < n → readChars n s = some (t, r) := by
  induction h with
  | close =>
    rintro (_ | n) hn
    · exact absurd hn (Nat.not_lt_zero _)
    · rfl
  | plain hc _ ih =>
    rintro (_ | n) hn
    · exact absurd hn (Nat.not_lt_zero _)
    · rw [readChars.eq_def]
      dsimp only
      rw [if_neg hc.2.1, if_neg hc.2.2, if_pos hc, ih n (Nat.lt_of_succ_lt_succ hn)]
      rfl
  | escape he _ ih =>
    rintro (_ | n) hn
    · exact absurd hn (Nat.not_lt_zero _)
    · simp only [List.length_cons] at hn
      rw [readChars, if_neg (by decide), if_pos rfl]
      dsimp only
      rw [if_neg (escaped_ne_u he), he, Option.bind_eq_bind, Option.bind_some,
        ih n (by omega)]
      rfl
  | unit hu hhigh hlow _ ih =>
    rintro (_ | n) hn
    · exact absurd hn (Nat.not_lt_zero _)
    · have hlen := length_hexUnit hu
      simp only [List.length_cons] at hn
      rw [readChars, if_neg (by decide), if_pos rfl]
      dsimp only
      rw [if_pos rfl, hu, Option.bind_eq_bind, Option.bind_some]
      dsimp only
      rw [if_neg hhigh, if_neg hlow, ih n (by omega)]
      rfl
  | pair hu hhigh hu' hlow _ ih =>
    rintro (_ | n) hn
    · exact absurd hn (Nat.not_lt_zero _)
    · have hlen := length_hexUnit hu
      have hlen' := length_hexUnit hu'
      simp only [List.length_cons] at hn hlen
      rw [readChars, if_neg (by decide), if_pos rfl]
      dsimp only
      rw [if_pos rfl, hu, Option.bind_eq_bind, Option.bind_some]
      dsimp only
      rw [if_pos hhigh]
      change ((hexUnit _).bind fun p => if IsLow p.1 then _ else none) = _
      rw [hu', Option.bind_some, if_pos hlow, ih n (by omega)]
      rfl

/-! Numbers. -/

theorem isNumberChar_of_isDigit {c : Char} (h : c.isDigit) : IsNumberChar c :=
  Or.inl h

/-- A test on digits and what follows them is about the whole text. -/
theorem forall_of_digits {s : List Char}
    (h : ∀ c ∈ s.dropWhile Char.isDigit, IsNumberChar c) : ∀ c ∈ s, IsNumberChar c := by
  intro c hc
  rw [← List.takeWhile_append_dropWhile (p := Char.isDigit) (l := s)] at hc
  rcases List.mem_append.1 hc with hc | hc
  · exact isNumberChar_of_isDigit (List.mem_takeWhile_imp hc)
  · exact h c hc

theorem forall_of_isExponent {s : List Char} (h : isExponent s) : ∀ c ∈ s, IsNumberChar c := by
  match s, h with
  | [], _ => simp
  | e :: s, h =>
    simp only [isExponent, Bool.decide_and, Bool.and_eq_true, decide_eq_true_eq] at h
    obtain ⟨he, -, hdigits⟩ := h
    intro c hc
    rcases List.mem_cons.1 hc with rfl | hc
    · rcases he with rfl | rfl
      · simp [IsNumberChar]
      · simp [IsNumberChar]
    · rw [List.all_eq_true] at hdigits
      split_ifs at hdigits with hsign
      · cases s with
        | nil => cases hc
        | cons d s =>
          rcases List.mem_cons.1 hc with rfl | hc
          · rcases hsign with hsign | hsign
            · obtain rfl := Option.some.inj hsign
              simp [IsNumberChar]
            · obtain rfl := Option.some.inj hsign
              simp [IsNumberChar]
          · exact isNumberChar_of_isDigit (hdigits c hc)
      · exact isNumberChar_of_isDigit (hdigits c hc)

theorem forall_of_isFraction {s : List Char} (h : isFraction s) : ∀ c ∈ s, IsNumberChar c := by
  unfold isFraction at h
  split at h
  · simp only [Bool.decide_and, Bool.and_eq_true, decide_eq_true_eq] at h
    have hdigits := forall_of_digits (forall_of_isExponent h.2)
    simpa [IsNumberChar] using hdigits
  · exact forall_of_isExponent h

theorem forall_of_isUnsigned {s : List Char} (h : isUnsigned s) : ∀ c ∈ s, IsNumberChar c := by
  match s, h with
  | d :: s, h =>
    rw [isUnsigned] at h
    split_ifs at h with hzero
    · rw [List.forall_mem_cons]
      exact ⟨by simp [IsNumberChar, hzero], forall_of_isFraction h⟩
    · simp only [Bool.decide_and, Bool.and_eq_true, decide_eq_true_eq] at h
      rw [List.forall_mem_cons]
      exact ⟨isNumberChar_of_isDigit h.1, forall_of_digits (forall_of_isFraction h.2)⟩

/-- A number is made of the characters of numbers, and starts with a digit or a sign. -/
theorem forall_of_isNumber {s : List Char} (h : isNumber s) : ∀ c ∈ s, IsNumberChar c := by
  unfold isNumber at h
  split at h
  · simpa [IsNumberChar] using forall_of_isUnsigned h
  · exact forall_of_isUnsigned h

theorem head_of_isUnsigned {s : List Char} (h : isUnsigned s) :
    ∃ c s', s = c :: s' ∧ c.isDigit := by
  match s, h with
  | d :: s, h =>
    rw [isUnsigned] at h
    split_ifs at h with hzero
    · exact ⟨d, s, rfl, by simp [hzero]⟩
    · simp only [Bool.decide_and, Bool.and_eq_true, decide_eq_true_eq] at h
      exact ⟨d, s, rfl, h.1⟩

theorem head_of_isNumber {s : List Char} (h : isNumber s) :
    ∃ c s', s = c :: s' ∧ (c.isDigit ∨ c = '-') := by
  unfold isNumber at h
  split at h
  · exact ⟨_, _, rfl, Or.inr rfl⟩
  · obtain ⟨c, s', rfl, hc⟩ := head_of_isUnsigned h
    exact ⟨c, s', rfl, Or.inl hc⟩

/-- A number that goes on as long as it can is what the characters of numbers are. -/
theorem span_number {t r : List Char} (ht : isNumber t) (hr : ∀ c ∈ r.head?, ¬IsNumberChar c) :
    (t ++ r).takeWhile (fun c => IsNumberChar c) = t ∧
      (t ++ r).dropWhile (fun c => IsNumberChar c) = r := by
  have hall : ∀ c ∈ t, decide (IsNumberChar c) = true := fun c hc =>
    decide_eq_true (forall_of_isNumber ht c hc)
  rw [List.takeWhile_append_of_pos hall, List.dropWhile_append_of_pos hall]
  cases r with
  | nil => simp
  | cons c r =>
    have hc : ¬IsNumberChar c := hr c rfl
    rw [List.takeWhile_cons_of_neg (by simpa using hc),
      List.dropWhile_cons_of_neg (by simpa using hc), List.append_nil]
    exact ⟨rfl, rfl⟩

/-! Values. -/

/-- The first character of a value. -/
def StartsValue (c : Char) : Prop :=
  c = 'n' ∨ c = 't' ∨ c = 'f' ∨ c.isDigit ∨ c = '-' ∨ c = '"' ∨ c = '[' ∨ c = '{'

theorem Value.starts {s r : List Char} {v : Json} (h : Value s v r) :
    ∃ c s', s = c :: s' ∧ StartsValue c := by
  cases h with
  | null => exact ⟨'n', _, rfl, by simp [StartsValue]⟩
  | true => exact ⟨'t', _, rfl, by simp [StartsValue]⟩
  | false => exact ⟨'f', _, rfl, by simp [StartsValue]⟩
  | num ht _ =>
    obtain ⟨c, s', rfl, hc⟩ := head_of_isNumber ht
    exact ⟨c, _, rfl, by unfold StartsValue; tauto⟩
  | str _ => exact ⟨'"', _, rfl, by simp [StartsValue]⟩
  | emptyArr _ | arr _ => exact ⟨'[', _, rfl, by simp [StartsValue]⟩
  | emptyObj _ | obj _ => exact ⟨'{', _, rfl, by simp [StartsValue]⟩

/-- A value does not start with whitespace. -/
theorem Value.skipWs_eq {s r : List Char} {v : Json} (h : Value s v r) : skipWs s = s := by
  obtain ⟨c, s', rfl, hc⟩ := h.starts
  refine skipWs_cons s' ?_
  rintro (rfl | rfl | rfl | rfl)
  · simp [StartsValue] at hc
  · simp [StartsValue] at hc
  · simp [StartsValue] at hc
  · simp [StartsValue] at hc

theorem Ws.skipWs_eq_value {s s₁ r : List Char} {v : Json} (h : Ws s s₁) (hv : Value s₁ v r) :
    skipWs s = s₁ := by
  rw [h.skipWs_eq, hv.skipWs_eq]

theorem readAtom_number {t r : List Char} (ht : isNumber t)
    (hr : ∀ c ∈ r.head?, ¬IsNumberChar c) : readAtom (t ++ r) = some (.num t, r) := by
  obtain ⟨htake, hdrop⟩ := span_number ht hr
  obtain ⟨c, t', rfl, hc⟩ := head_of_isNumber ht
  have hne : c ≠ 'n' ∧ c ≠ 't' ∧ c ≠ 'f' := by
    refine ⟨?_, ?_, ?_⟩ <;> rintro rfl <;> simp at hc
  rw [readAtom, htake, hdrop, if_pos ht, if_neg (by simp [hne.1]), if_neg (by simp [hne.2.1]),
    if_neg (by simp [hne.2.2])]

mutual

theorem Value.length_lt {s r : List Char} {v : Json} : Value s v r → r.length < s.length
  | .null | .true | .false => by
    rw [List.length_append]
    exact Nat.lt_add_of_pos_left (by decide)
  | .num ht _ => by
    obtain ⟨c, t', rfl, -⟩ := head_of_isNumber ht
    rw [List.length_append, List.length_cons]
    omega
  | .str h => h.length_lt.trans (Nat.lt_succ_self _)
  | .emptyArr h | .emptyObj h => by
    have := h.length_le
    simp only [List.length_cons] at this ⊢
    omega
  | .arr h => h.length_lt.trans (Nat.lt_succ_self _)
  | .obj h => h.length_lt.trans (Nat.lt_succ_self _)

theorem Elements.length_lt {s r : List Char} {l : List Json} :
    Elements s l r → r.length < s.length
  | .last h₁ hv h₂ => by
    have h₁' := h₁.length_le
    have hv' := hv.length_lt
    have h₂' := h₂.length_le
    simp only [List.length_cons] at h₂'
    omega
  | .more h₁ hv h₂ hl => by
    have h₁' := h₁.length_le
    have hv' := hv.length_lt
    have h₂' := h₂.length_le
    have hl' := hl.length_lt
    simp only [List.length_cons] at h₂'
    omega

theorem Members.length_lt {s r : List Char} {l : List (List Char × Json)} :
    Members s l r → r.length < s.length
  | .last h₁ hk h₂ h₃ hv h₄ => by
    have h₁' := h₁.length_le
    have hk' := hk.length_lt
    have h₂' := h₂.length_le
    have h₃' := h₃.length_le
    have hv' := hv.length_lt
    have h₄' := h₄.length_le
    simp only [List.length_cons] at h₁' h₂' h₄'
    omega
  | .more h₁ hk h₂ h₃ hv h₄ hl => by
    have h₁' := h₁.length_le
    have hk' := hk.length_lt
    have h₂' := h₂.length_le
    have h₃' := h₃.length_le
    have hv' := hv.length_lt
    have h₄' := h₄.length_le
    have hl' := hl.length_lt
    simp only [List.length_cons] at h₁' h₂' h₄'
    omega

end

theorem Elements.starts {s r : List Char} {l : List Json} (h : Elements s l r) :
    ∃ c s', skipWs s = c :: s' ∧ StartsValue c := by
  cases h with
  | last h₁ hv _ | more h₁ hv _ _ =>
    rw [h₁.skipWs_eq_value hv]
    exact hv.starts

theorem Members.starts {s r : List Char} {l : List (List Char × Json)} (h : Members s l r) :
    ∃ s', skipWs s = '"' :: s' := by
  cases h with
  | last h₁ _ _ _ _ _ | more h₁ _ _ _ _ _ _ => exact ⟨_, h₁.skipWs_eq_cons (by decide)⟩

theorem skipWs_skipWs (s : List Char) : skipWs (skipWs s) = skipWs s :=
  List.dropWhile_idempotent _ _

theorem readElements_skipWs (n : ℕ) (s : List Char) :
    readElements n (skipWs s) = readElements n s := by
  cases n with
  | zero => rfl
  | succ n => rw [readElements, readElements, skipWs_skipWs]

theorem readMembers_skipWs (n : ℕ) (s : List Char) :
    readMembers n (skipWs s) = readMembers n s := by
  cases n with
  | zero => rfl
  | succ n => rw [readMembers, readMembers, skipWs_skipWs]

mutual

/-- The reader reads what the grammar derives, given two units of fuel for a character. -/
theorem readValue_of_value {s r : List Char} {v : Json} :
    Value s v r → ∀ n, 2 * s.length < n → readValue n s = some (v, r)
  | .null | .true | .false => fun n hn => by
    obtain ⟨n, rfl⟩ : ∃ m, n = m + 1 := ⟨n - 1, by omega⟩
    rfl
  | .num ht hr => fun n hn => by
    obtain ⟨n, rfl⟩ : ∃ m, n = m + 1 := ⟨n - 1, by omega⟩
    obtain ⟨c, t', rfl, hc⟩ := head_of_isNumber ht
    have hne : c ≠ '"' ∧ c ≠ '[' ∧ c ≠ '{' := by
      refine ⟨?_, ?_, ?_⟩ <;> rintro rfl <;> simp at hc
    rw [List.cons_append, readValue, if_neg hne.1, if_neg hne.2.1, if_neg hne.2.2,
      ← List.cons_append, readAtom_number ht hr]
  | .str h => fun n hn => by
    obtain ⟨n, rfl⟩ : ∃ m, n = m + 1 := ⟨n - 1, by omega⟩
    rw [readValue, if_pos rfl, readChars_of_chars h _ (Nat.lt_succ_self _)]
    rfl
  | .emptyArr h => fun n hn => by
    obtain ⟨n, rfl⟩ : ∃ m, n = m + 1 := ⟨n - 1, by omega⟩
    rw [readValue, if_neg (by decide), if_pos rfl, h.skipWs_eq_cons (by decide)]
    rfl
  | .arr h => fun n hn => by
    obtain ⟨n, rfl⟩ : ∃ m, n = m + 1 := ⟨n - 1, by omega⟩
    obtain ⟨c, s', hs, hc⟩ := h.starts
    rw [List.length_cons] at hn
    rw [readValue, if_neg (by decide), if_pos rfl]
    split
    · next heq =>
      rw [hs] at heq
      obtain ⟨rfl, -⟩ := List.cons.inj heq
      simp [StartsValue] at hc
    · rw [readElements_skipWs, readElements_of_elements h n (by omega)]
      rfl
  | .emptyObj h => fun n hn => by
    obtain ⟨n, rfl⟩ : ∃ m, n = m + 1 := ⟨n - 1, by omega⟩
    rw [readValue, if_neg (by decide), if_neg (by decide), if_pos rfl,
      h.skipWs_eq_cons (by decide)]
    rfl
  | .obj h => fun n hn => by
    obtain ⟨n, rfl⟩ : ∃ m, n = m + 1 := ⟨n - 1, by omega⟩
    obtain ⟨s', hs⟩ := h.starts
    rw [List.length_cons] at hn
    rw [readValue, if_neg (by decide), if_neg (by decide), if_pos rfl]
    split
    · next heq =>
      rw [hs] at heq
      simp at heq
    · rw [readMembers_skipWs, readMembers_of_members h n (by omega)]
      rfl

theorem readElements_of_elements {s r : List Char} {l : List Json} :
    Elements s l r → ∀ n, 2 * s.length + 1 < n → readElements n s = some (l, r)
  | .last h₁ hv h₂ => fun n hn => by
    obtain ⟨n, rfl⟩ : ∃ m, n = m + 1 := ⟨n - 1, by omega⟩
    have hlen := h₁.length_le
    rw [readElements, h₁.skipWs_eq_value hv, readValue_of_value hv n (by omega)]
    change (match skipWs _ with | ']' :: r => _ | ',' :: s₃ => _ | _ => _) = _
    rw [h₂.skipWs_eq_cons (by decide)]
    rfl
  | .more h₁ hv h₂ hl => fun n hn => by
    obtain ⟨n, rfl⟩ : ∃ m, n = m + 1 := ⟨n - 1, by omega⟩
    have hlen := h₁.length_le
    have hlen' := hv.length_lt
    have hlen'' := h₂.length_le
    rw [List.length_cons] at hlen''
    rw [readElements, h₁.skipWs_eq_value hv, readValue_of_value hv n (by omega)]
    change (match skipWs _ with | ']' :: r => _ | ',' :: s₃ => _ | _ => _) = _
    rw [h₂.skipWs_eq_cons (by decide)]
    change ((readElements n _).bind fun p => _) = _
    rw [readElements_of_elements hl n (by omega)]
    rfl

theorem readMembers_of_members {s r : List Char} {l : List (List Char × Json)} :
    Members s l r → ∀ n, 2 * s.length + 1 < n → readMembers n s = some (l, r)
  | .last h₁ hk h₂ h₃ hv h₄ => fun n hn => by
    obtain ⟨n, rfl⟩ : ∃ m, n = m + 1 := ⟨n - 1, by omega⟩
    have hlen₁ := h₁.length_le
    have hlen₂ := hk.length_lt
    have hlen₃ := h₂.length_le
    have hlen₄ := h₃.length_le
    rw [List.length_cons] at hlen₁ hlen₃
    rw [readMembers, h₁.skipWs_eq_cons (by decide)]
    change ((readChars _ _).bind fun p => _) = _
    rw [readChars_of_chars hk _ (Nat.lt_succ_self _), Option.bind_some]
    change (match skipWs _ with | ':' :: s₃ => _ | _ => _) = _
    rw [h₂.skipWs_eq_cons (by decide)]
    change ((readValue n _).bind fun p => _) = _
    rw [h₃.skipWs_eq_value hv, readValue_of_value hv n (by omega), Option.bind_some]
    change (match skipWs _ with | '}' :: r => _ | ',' :: s₃ => _ | _ => _) = _
    rw [h₄.skipWs_eq_cons (by decide)]
    rfl
  | .more h₁ hk h₂ h₃ hv h₄ hl => fun n hn => by
    obtain ⟨n, rfl⟩ : ∃ m, n = m + 1 := ⟨n - 1, by omega⟩
    have hlen₁ := h₁.length_le
    have hlen₂ := hk.length_lt
    have hlen₃ := h₂.length_le
    have hlen₄ := h₃.length_le
    have hlen₅ := hv.length_lt
    have hlen₆ := h₄.length_le
    rw [List.length_cons] at hlen₁ hlen₃ hlen₆
    rw [readMembers, h₁.skipWs_eq_cons (by decide)]
    change ((readChars _ _).bind fun p => _) = _
    rw [readChars_of_chars hk _ (Nat.lt_succ_self _), Option.bind_some]
    change (match skipWs _ with | ':' :: s₃ => _ | _ => _) = _
    rw [h₂.skipWs_eq_cons (by decide)]
    change ((readValue n _).bind fun p => _) = _
    rw [h₃.skipWs_eq_value hv, readValue_of_value hv n (by omega), Option.bind_some]
    change (match skipWs _ with | '}' :: r => _ | ',' :: s₃ => _ | _ => _) = _
    rw [h₄.skipWs_eq_cons (by decide)]
    change ((readMembers n _).bind fun p => _) = _
    rw [readMembers_of_members hl n (by omega)]
    rfl

end

/-- The reader returns the value of every JSON text. -/
theorem read_of_derives {text : List Char} {v : Json} (h : Derives text v) :
    read text = some v := by
  obtain ⟨s, r, hs, hv, hr⟩ := h
  have hlen := hs.length_le
  rw [read, hs.skipWs_eq_value hv, readValue_of_value hv _ (by omega)]
  change (if skipWs r = [] then some v else none) = _
  have hend : skipWs r = [] := hr.skipWs_eq
  rw [if_pos hend]

/-- A text is JSON for one value at most. -/
theorem Derives.unique {text : List Char} {v w : Json} (hv : Derives text v)
    (hw : Derives text w) : v = w :=
  Option.some.inj ((read_of_derives hv).symm.trans (read_of_derives hw))

/-- A parser that reads every JSON text as the grammar has it. What it does with other texts
is left open. -/
def Conforming (parser : List Char → Option Json) : Prop :=
  ∀ text v, Derives text v → ∃ w, parser text = some w ∧ Derives text w

theorem conforming_read : Conforming read :=
  fun _ v h => ⟨v, read_of_derives h, h⟩

theorem Conforming.read_eq {parser : List Char → Option Json} (hp : Conforming parser)
    {text : List Char} {v : Json} (h : Derives text v) : parser text = some v := by
  obtain ⟨w, hw, hderives⟩ := hp text v h
  rw [hw, h.unique hderives]

end Json

end SysLib
