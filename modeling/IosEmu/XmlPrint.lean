import IosEmu.XmlCursor
import Mathlib.Data.List.TakeWhile

/-!
# Reading undoes printing

`Xml.Prints v t` says that the bytes `t` are the value `v` as an element : text with its special
characters as entities, and any white space between the elements. `Xml.Document` adds what may
stand before the element.

The reader finds the end of a text at the first closing tag, which is the right one because a
printed text has no `<`. Replacing the five entities one kind after the other undoes the escape
because the ampersand comes last : before that, an ampersand in the text is still the beginning
of `&amp;`, so no replacement makes a new entity (`replaceAll_entity`).
-/

open SysLib

namespace IosEmu.Xml

/-! ## Escaping -/

/-- A character as it is printed. -/
def entity (c : Char) : List Char :=
  if c = '<' then "&lt;".toList
  else if c = '>' then "&gt;".toList
  else if c = '"' then "&quot;".toList
  else if c = '\'' then "&apos;".toList
  else if c = '&' then "&amp;".toList
  else [c]

def escape (cs : List Char) : List Char :=
  cs.flatMap entity

/-- The characters that have an entity. -/
def special : List Char :=
  ['<', '>', '"', '\'', '&']

/-- A text in which only the characters of `S` are escaped. -/
def escapeOnly (S cs : List Char) : List Char :=
  cs.flatMap fun c => if c ∈ S then entity c else [c]

/-- An entity is an ampersand and letters. -/
theorem entity_eq_cons {c : Char} (hc : c ∈ special) :
    ∃ l, entity c = '&' :: l ∧ '&' ∉ l := by
  simp only [special, List.mem_cons, List.not_mem_nil, or_false] at hc
  rcases hc with rfl | rfl | rfl | rfl | rfl
  · exact ⟨"lt;".toList, rfl, by decide⟩
  · exact ⟨"gt;".toList, rfl, by decide⟩
  · exact ⟨"quot;".toList, rfl, by decide⟩
  · exact ⟨"apos;".toList, rfl, by decide⟩
  · exact ⟨"amp;".toList, rfl, by decide⟩

/-- No entity begins another. -/
theorem not_prefix_entity {c x : Char} (hc : c ∈ special) (hx : x ∈ special) (hne : c ≠ x)
    (l : List Char) : (entity c).isPrefixOf (entity x ++ l) = false := by
  simp only [special, List.mem_cons, List.not_mem_nil, or_false] at hc hx
  rcases hc with rfl | rfl | rfl | rfl | rfl <;> rcases hx with rfl | rfl | rfl | rfl | rfl <;>
    first
    | exact absurd rfl hne
    | rfl

/-- Replacing one kind of entity undoes one kind of escape, as long as ampersands are escaped. -/
theorem replaceAll_entity (c : Char) (S : List Char) (hc : c ∈ special)
    (hS : ∀ x ∈ S, x ∈ special) (hcS : c ∉ S) (hamp : '&' ∈ c :: S) :
    ∀ cs, replaceAll (entity c) [c] (escapeOnly (c :: S) cs) = escapeOnly S cs
  | [] => rfl
  | x :: cs => by
    have ih := replaceAll_entity c S hc hS hcS hamp cs
    obtain ⟨l, hl, -⟩ := entity_eq_cons hc
    unfold replaceAll escapeOnly at ih ⊢
    rw [List.flatMap_cons, List.flatMap_cons]
    by_cases hxc : x = c
    · -- the entity itself
      subst hxc
      rw [if_pos List.mem_cons_self, if_neg hcS]
      rw [hl] at ih ⊢
      rw [replaceFrom_append, ih]
    by_cases hxS : x ∈ S
    · -- another entity is copied
      obtain ⟨k, hk, hamp'⟩ := entity_eq_cons (hS x hxS)
      have hnot := not_prefix_entity hc (hS x hxS) (Ne.symm hxc)
        (cs.flatMap fun c' => if c' ∈ c :: S then entity c' else [c'])
      rw [if_pos (List.mem_cons_of_mem c hxS), if_pos hxS]
      rw [hk, List.cons_append] at hnot
      rw [hk, List.cons_append, replaceFrom, if_neg (by rw [hnot]; simp), List.cons_append]
      rw [hl] at ih ⊢
      rw [replaceFrom_copy _ hamp', ih]
    · -- a letter that is not escaped is no ampersand
      have hx : x ∉ c :: S := by
        rw [List.mem_cons, not_or]
        exact ⟨hxc, hxS⟩
      have hne : '&' ≠ x := by
        rintro rfl
        exact hx hamp
      rw [if_neg hx, if_neg hxS, List.singleton_append, List.singleton_append]
      rw [hl] at ih ⊢
      rw [replaceFrom_cons_of_ne hne, ih]

theorem escape_eq (cs : List Char) : escape cs = escapeOnly special cs := by
  unfold escape escapeOnly
  congr 1
  funext c
  split_ifs with h
  · rfl
  · simp only [special, List.mem_cons, List.not_mem_nil, or_false, not_or] at h
    rw [entity, if_neg h.1, if_neg h.2.1, if_neg h.2.2.1, if_neg h.2.2.2.1, if_neg h.2.2.2.2]

/-- The text of an element is restored. -/
theorem unescape_escape (cs : List Char) : unescape (escape cs) = cs := by
  have h₁ : replaceAll "&lt;".toList ['<'] (escapeOnly special cs) =
      escapeOnly ['>', '"', '\'', '&'] cs :=
    replaceAll_entity '<' ['>', '"', '\'', '&'] (by decide) (by simp [special]) (by decide)
      (by decide) cs
  have h₂ : replaceAll "&gt;".toList ['>'] (escapeOnly ['>', '"', '\'', '&'] cs) =
      escapeOnly ['"', '\'', '&'] cs :=
    replaceAll_entity '>' ['"', '\'', '&'] (by decide) (by simp [special]) (by decide) (by decide) cs
  have h₃ : replaceAll "&quot;".toList ['"'] (escapeOnly ['"', '\'', '&'] cs) =
      escapeOnly ['\'', '&'] cs :=
    replaceAll_entity '"' ['\'', '&'] (by decide) (by simp [special]) (by decide) (by decide) cs
  have h₄ : replaceAll "&apos;".toList ['\''] (escapeOnly ['\'', '&'] cs) = escapeOnly ['&'] cs :=
    replaceAll_entity '\'' ['&'] (by decide) (by simp [special]) (by decide) (by decide) cs
  have h₅ : replaceAll "&amp;".toList ['&'] (escapeOnly ['&'] cs) = escapeOnly [] cs :=
    replaceAll_entity '&' [] (by decide) (by simp [special]) (by decide) (by decide) cs
  have hnone : escapeOnly [] cs = cs := by
    simp [escapeOnly]
  rw [unescape, escape_eq, h₁, h₂, h₃, h₄, h₅, hnone]

theorem unescape_of_notMem {cs : List Char} (h : '&' ∉ cs) : unescape cs = cs := by
  have hcopy : ∀ pat rep : List Char, replaceAll ('&' :: pat) rep cs = cs := by
    intro pat rep
    have := @replaceFrom_copy _ _ '&' pat rep cs [] h
    rw [List.append_nil] at this
    rw [replaceAll, this]
    exact List.append_nil cs
  have h₁ : replaceAll "&lt;".toList ['<'] cs = cs := hcopy _ _
  have h₂ : replaceAll "&gt;".toList ['>'] cs = cs := hcopy _ _
  have h₃ : replaceAll "&quot;".toList ['"'] cs = cs := hcopy _ _
  have h₄ : replaceAll "&apos;".toList ['\''] cs = cs := hcopy _ _
  have h₅ : replaceAll "&amp;".toList ['&'] cs = cs := hcopy _ _
  rw [unescape, h₁, h₂, h₃, h₄, h₅]

/-- A printed text has no tags. -/
theorem notMem_escape (cs : List Char) : '<' ∉ escape cs := by
  intro h
  obtain ⟨c, -, hc⟩ := List.mem_flatMap.1 h
  unfold entity at hc
  split_ifs at hc with h₁ h₂ h₃ h₄ h₅
  · revert hc; decide
  · revert hc; decide
  · revert hc; decide
  · revert hc; decide
  · revert hc; decide
  · rw [List.mem_singleton] at hc
    exact h₁ hc.symm

/-! ## Tags -/

/-- The tags that begin an element. -/
inductive Tag
  | dict
  | array
  | string
  | integer
  | real
  | true
  | false
  | data
  | key
  deriving DecidableEq

def Tag.bytes : Tag → List U8
  | .dict => openTag "dict"
  | .array => openTag "array"
  | .string => openTag "string"
  | .integer => openTag "integer"
  | .real => openTag "real"
  | .true => literal "<true/>"
  | .false => literal "<false/>"
  | .data => openTag "data"
  | .key => openTag "key"

def Tag.all : List Tag :=
  [.dict, .array, .string, .integer, .real, .true, .false, .data, .key]

theorem Tag.mem_all (t : Tag) : t ∈ Tag.all := by
  cases t <;> simp [Tag.all]

theorem Tag.not_prefix (t t' : Tag) (hne : t ≠ t') : ¬t.bytes <+: t'.bytes := by
  have h : ∀ t ∈ Tag.all, ∀ t' ∈ Tag.all, t ≠ t' → ¬t.bytes <+: t'.bytes := by
    decide
  exact h t t.mem_all t' t'.mem_all hne

/-- The elements with text. -/
inductive TextKind
  | string
  | integer
  | real
  | data

def TextKind.name : TextKind → String
  | .string => "string"
  | .integer => "integer"
  | .real => "real"
  | .data => "data"

def TextKind.tag : TextKind → Tag
  | .string => .string
  | .integer => .integer
  | .real => .real
  | .data => .data

theorem TextKind.tag_bytes (kind : TextKind) : kind.tag.bytes = openTag kind.name := by
  cases kind <;> rfl

def TextKind.value : TextKind → List Char → PlistValue
  | .string, t => .string (String.ofList t)
  | .integer, t => .integer ((parseI64 (trim t)).getD 0)
  | .real, t => .real ((f64FromStr (trim t)).getD 0)
  | .data, t => .data (utf8Encode (trim t))

/-- The elements that are a tag only. -/
def flagTag (b : Bool) : Tag :=
  if b then .true else .false

/-- What begins with a tag that closes nothing. -/
def Opening (l : List U8) : Prop :=
  ∃ b m, l = 0x3c :: b :: m ∧ b ≠ 0x2f

theorem Tag.opening (t : Tag) (l : List U8) : Opening (t.bytes ++ l) := by
  have h : ∀ t ∈ Tag.all, t.bytes[0]? = some 0x3c ∧ 2 ≤ t.bytes.length ∧
      t.bytes[1]? ≠ some 0x2f := by
    decide
  obtain ⟨hzero, hlen, hone⟩ := h t t.mem_all
  rcases hbytes : t.bytes with _ | ⟨x, _ | ⟨y, m⟩⟩ <;> rw [hbytes] at hzero hlen hone
  · cases hzero
  · simp at hlen
  · obtain rfl : x = 0x3c := by simpa using hzero
    exact ⟨y, m ++ l, rfl, by simpa using hone⟩

/-! ## Printed values -/

/-- White space between elements. -/
def Blank (w : List U8) : Prop :=
  ∀ b ∈ w, isAsciiWhitespace b = true

instance (w : List U8) : Decidable (Blank w) :=
  inferInstanceAs (Decidable (∀ b ∈ w, isAsciiWhitespace b = true))

/-- `<name>text</name>`. -/
def element (name : String) (text : List Char) : List U8 :=
  openTag name ++ (utf8Encode text ++ closeTag name)

/-- The bytes of an entry : white space, the key, white space, the value. -/
def entryBytes (e : (List U8 × List U8 × List U8) × (String × PlistValue)) : List U8 :=
  e.1.1 ++ (element "key" (escape e.2.1.toList) ++ (e.1.2.1 ++ e.1.2.2))

/-- The bytes of a value as an element. The entries of a dictionary may be written in any order,
and white space stands between any two elements. -/
inductive Prints : PlistValue → List U8 → Prop
  | true : Prints (.bool Bool.true) (literal "<true/>")
  | false : Prints (.bool Bool.false) (literal "<false/>")
  | integer (i : BitVec 64) : Prints (.integer i) (element "integer" (decimal i.toInt))
  | string (text : String) : Prints (.string text) (element "string" (escape text.toList))
  | array {items : List PlistValue} {parts : List (List U8 × List U8)} {w : List U8}
    (hlen : parts.length = items.length) (hblank : ∀ e ∈ parts, Blank e.1)
    (hitems : ∀ e ∈ parts.zip items, Prints e.2 e.1.2) (hw : Blank w) :
    Prints (.array items)
      (openTag "array" ++ (parts.flatMap (fun e => e.1 ++ e.2) ++ (w ++ closeTag "array")))
  | dict {entries written : List (String × PlistValue)}
    {parts : List (List U8 × List U8 × List U8)} {w : List U8} (hperm : written.Perm entries)
    (hlen : parts.length = written.length) (hblank : ∀ e ∈ parts, Blank e.1 ∧ Blank e.2.1)
    (hvals : ∀ e ∈ parts.zip written, Prints e.2.2 e.1.2.2) (hw : Blank w) :
    Prints (.dict entries)
      (openTag "dict" ++ ((parts.zip written).flatMap entryBytes ++ (w ++ closeTag "dict")))

/-! ## Reading one element -/

section Reading

variable {s : List U8}

/-- At one place there is one tag. -/
theorem not_holdsAt {i : ℕ} {tag tag' l : List U8} (h : HoldsAt s i (tag ++ l))
    (h₁ : ¬tag' <+: tag) (h₂ : ¬tag <+: tag') : ¬HoldsAt s i tag' := by
  intro h'
  rcases List.prefix_or_prefix_of_prefix h' (holdsAt_append.1 h).1 with h' | h'
  · exact h₁ h'
  · exact h₂ h'

theorem Tag.apart (t t' : Tag) (hne : t ≠ t') {i : ℕ} {l : List U8}
    (h : HoldsAt s i (t.bytes ++ l)) : ¬HoldsAt s i t'.bytes :=
  not_holdsAt h (Tag.not_prefix t' t (Ne.symm hne)) (Tag.not_prefix t t' hne)

/-- The cursor passes white space, and stops at what is none. -/
theorem skip_eq {i : ℕ} {w l : List U8} {b : U8} (hw : Blank w)
    (hb : isAsciiWhitespace b = false) (h : HoldsAt s i (w ++ b :: l)) :
    skip s i = i + w.length := by
  obtain ⟨rest, hrest⟩ := h
  have htake : (w ++ b :: (l ++ rest)).takeWhile isAsciiWhitespace = w := by
    rw [List.takeWhile_append_of_pos hw, List.takeWhile_cons, hb]
    simp
  rw [skip, ← hrest, List.append_assoc, List.cons_append, htake]

theorem closeTag_eq (name : String) :
    closeTag name = BitVec.ofNat 8 0x3c :: literal ("/" ++ name ++ ">") := by
  simp only [closeTag, literal, String.toList_append, utf8Encode_append]
  rfl

/-- The text of an element ends at its closing tag. -/
theorem textElement_eq {name : String} {text : List Char} {i : ℕ} (htext : '<' ∉ text)
    (h : HoldsAt s i (element name text)) :
    textElement s name i = .ok (unescape text) (i + (element name text).length) := by
  obtain ⟨hopen, hrest⟩ := holdsAt_append.1 h
  have hpos : 0 < (utf8Encode text ++ closeTag name).length := by
    rw [closeTag_eq, List.length_append, List.length_cons]
    omega
  have hend := hrest.add_length_le hpos
  obtain ⟨tail, htail⟩ := hrest
  have hmem : BitVec.ofNat 8 0x3c ∉ utf8Encode text :=
    fun hmem => htext (mem_of_mem_utf8Encode (n := 0x3c) (by omega) hmem)
  have hfind : find (closeTag name) (s.drop (i + (openTag name).length)) =
      some (utf8Encode text).length := by
    rw [← htail, List.append_assoc, closeTag_eq]
    exact find_append tail hmem
  have htake : (s.drop (i + (openTag name).length)).take (utf8Encode text).length =
      utf8Encode text := by
    rw [← htail, List.append_assoc, List.take_left]
  rw [textElement, advance_bind, Prog.bind_apply, rest_apply (by omega)]
  simp only [hfind]
  rw [advance_bind, htake, fromUtf8_encode]
  simp only [element, List.length_append, Option.getD_some]
  rw [← Nat.add_assoc i, Nat.add_assoc i]
  rfl

/-- From `i` on, wherever the document has `t` behind white space, the reader `child` takes it
for `v`. -/
def Reads (s : List U8) (child : XmlM PlistValue) (i : ℕ) (v : PlistValue) (t : List U8) : Prop :=
  Opening t ∧
    ∀ j w, i ≤ j → Blank w → HoldsAt s j (w ++ t) → child j = .ok v (j + (w ++ t).length)

theorem Reads.mono {child : XmlM PlistValue} {i j : ℕ} {v : PlistValue} {t : List U8}
    (h : Reads s child i v t) (hij : i ≤ j) : Reads s child j v t :=
  ⟨h.1, fun k w hk => h.2 k w (hij.trans hk)⟩

theorem not_isAsciiWhitespace_lt : isAsciiWhitespace 0x3c = false := by
  decide

/-- Behind white space the cursor is at the closing tag. -/
theorem skip_closeTag {name : String} {i : ℕ} {w : List U8} (hw : Blank w)
    (h : HoldsAt s i (w ++ closeTag name)) :
    skip s i = i + w.length ∧ HoldsAt s (i + w.length) (closeTag name) ∧
      i + w.length + (closeTag name).length ≤ s.length := by
  have hclose := (holdsAt_append.1 h).2
  refine ⟨?_, hclose, hclose.add_length_le (by rw [closeTag_eq]; simp)⟩
  rw [closeTag_eq] at h
  exact skip_eq hw not_isAsciiWhitespace_lt h

/-- Behind white space the cursor is at an element, and not at a closing tag. -/
theorem skip_element {i : ℕ} {w t l : List U8} (hw : Blank w)
    (ht : Opening t) (h : HoldsAt s i (w ++ (t ++ l))) :
    skip s i = i + w.length ∧ HoldsAt s (i + w.length) t ∧
      HoldsAt s (i + w.length + t.length) l ∧ i + w.length + t.length ≤ s.length ∧
      ∀ name, ¬HoldsAt s (i + w.length) (closeTag name) := by
  obtain ⟨hat, hl⟩ := holdsAt_append.1 (holdsAt_append.1 h).2
  obtain ⟨b, m, rfl, hb⟩ := ht
  refine ⟨skip_eq hw not_isAsciiWhitespace_lt h, hat, hl, hat.add_length_le (by simp), ?_⟩
  intro name hclose
  have hslash : closeTag name = [BitVec.ofNat 8 0x3c, 0x2f] ++ literal (name ++ ">") := by
    simp only [closeTag, literal, String.toList_append, utf8Encode_append]
    rfl
  rw [hslash] at hclose
  have htwo : HoldsAt s (i + w.length) ([0x3c, b] ++ m) := hat
  refine not_holdsAt htwo ?_ ?_ (holdsAt_append.1 hclose).1
  · rw [List.cons_prefix_cons, List.cons_prefix_cons]
    exact fun h => hb h.2.1.symm
  · rw [List.cons_prefix_cons, List.cons_prefix_cons]
    exact fun h => hb h.2.1

/-- A round of the loop over an array takes one item. -/
theorem arrayItems_step {child : XmlM PlistValue} {w t l : List U8} {v : PlistValue} {i : ℕ}
    (hw : Blank w) (hv : Reads s child i v t) (hat : HoldsAt s i (w ++ (t ++ l))) (fuel : ℕ)
    (out : List PlistValue) :
    arrayItems s child (fuel + 1) out i =
      arrayItems s child fuel (out ++ [v]) (i + w.length + t.length) := by
  obtain ⟨hskip, hel, -, hend, hclose⟩ := skip_element hw hv.1 hat
  have hread := hv.2 (i + w.length) [] (by omega) (by simp [Blank]) hel
  simp only [arrayItems, skipWs_bind, hskip,
    startsWith_ite_apply (show i + w.length ≤ s.length by omega), if_neg (hclose "array")]
  rw [Prog.bind_apply, hread]
  rfl

theorem Reads.length_pos {child : XmlM PlistValue} {i : ℕ} {v : PlistValue} {t : List U8}
    (h : Reads s child i v t) : 0 < t.length := by
  obtain ⟨b, l, rfl, -⟩ := h.1
  simp

/-- The loop over the items of an array. -/
theorem arrayItems_eq {child : XmlM PlistValue} {w : List U8} (hw : Blank w) {fuel : ℕ} :
    ∀ {items out : List PlistValue} {parts : List (List U8 × List U8)} {i : ℕ},
      parts.length = items.length → (∀ e ∈ parts, Blank e.1) →
      (∀ e ∈ parts.zip items, Reads s child i e.2 e.1.2) →
      HoldsAt s i (parts.flatMap (fun e => e.1 ++ e.2) ++ (w ++ closeTag "array")) →
      s.length - i < fuel →
      arrayItems s child fuel out i = .ok (out ++ items)
        (i + (parts.flatMap (fun e => e.1 ++ e.2) ++ (w ++ closeTag "array")).length) := by
  induction fuel with
  | zero => exact fun _ _ _ _ hfuel => absurd hfuel (Nat.not_lt_zero _)
  | succ fuel ih =>
    intro items out parts i hlen hblank hreads hat hfuel
    cases items with
    | nil =>
      obtain rfl : parts = [] := List.length_eq_zero_iff.1 hlen
      obtain ⟨hskip, hclose, hend⟩ := skip_closeTag hw hat
      simp only [arrayItems, skipWs_bind, hskip,
        startsWith_ite_apply (show i + w.length ≤ s.length by omega), if_pos hclose, advance_bind]
      simp [Nat.add_assoc]
    | cons v items =>
      obtain ⟨⟨w₁, t⟩, parts, rfl⟩ := List.exists_cons_of_length_eq_add_one hlen
      have hw₁ : Blank w₁ := hblank (w₁, t) List.mem_cons_self
      have hv : Reads s child i v t := hreads ((w₁, t), v) List.mem_cons_self
      have hpos := hv.length_pos
      rw [List.flatMap_cons, List.append_assoc, List.append_assoc] at hat
      obtain ⟨-, -, hrest, hend, -⟩ := skip_element hw₁ hv.1 hat
      rw [arrayItems_step hw₁ hv hat, ih (by simpa using hlen)
        (fun e he => hblank e (List.mem_cons_of_mem _ he))
        (fun e he => (hreads e (List.mem_cons_of_mem _ he)).mono (by omega)) hrest (by omega)]
      simp [Nat.add_assoc]

theorem entryBytes_mk (w₁ w₂ t : List U8) (k : String) (v : PlistValue) :
    entryBytes ((w₁, w₂, t), (k, v)) = w₁ ++ (element "key" (escape k.toList) ++ (w₂ ++ t)) :=
  rfl

/-- A round of the loop over a dictionary takes one entry. -/
theorem dictEntries_step {child : XmlM PlistValue} {w₁ w₂ t l : List U8} {k : String}
    {v : PlistValue} {i : ℕ} (hw₁ : Blank w₁) (hw₂ : Blank w₂) (hv : Reads s child i v t)
    (hat : HoldsAt s i (entryBytes ((w₁, w₂, t), (k, v)) ++ l)) (fuel : ℕ)
    (map : List (String × PlistValue)) :
    dictEntries s child (fuel + 1) map i =
      dictEntries s child fuel (SortedMap.insertEntry k v map)
        (i + (entryBytes ((w₁, w₂, t), (k, v))).length) := by
  rw [entryBytes_mk, List.append_assoc, List.append_assoc] at hat
  have hkey : Opening (element "key" (escape k.toList)) := Tag.key.opening _
  obtain ⟨hskip, hel, hrest, hend, hclose⟩ := skip_element hw₁ hkey hat
  have hopen : HoldsAt s (i + w₁.length) (openTag "key") := (holdsAt_append.1 hel).1
  have hread := hv.2 _ w₂ (by omega) hw₂ (holdsAt_append.1 hrest).1
  have hlength : i + (entryBytes ((w₁, w₂, t), (k, v))).length =
      i + w₁.length + (element "key" (escape k.toList)).length + (w₂ ++ t).length := by
    rw [entryBytes_mk, List.length_append, List.length_append]
    omega
  simp only [dictEntries, skipWs_bind, hskip,
    startsWith_ite_apply (show i + w₁.length ≤ s.length by omega), if_neg (hclose "dict"),
    if_pos hopen]
  rw [Prog.bind_apply, textElement_eq (notMem_escape k.toList) hel]
  simp only
  rw [Prog.bind_apply, hread]
  simp only [unescape_escape, String.ofList_toList, hlength]

/-- The loop over the entries of a dictionary. -/
theorem dictEntries_eq {child : XmlM PlistValue} {w : List U8} (hw : Blank w) {fuel : ℕ} :
    ∀ {written map : List (String × PlistValue)} {parts : List (List U8 × List U8 × List U8)}
      {i : ℕ}, parts.length = written.length → (∀ e ∈ parts, Blank e.1 ∧ Blank e.2.1) →
      (∀ e ∈ parts.zip written, Reads s child i e.2.2 e.1.2.2) →
      HoldsAt s i ((parts.zip written).flatMap entryBytes ++ (w ++ closeTag "dict")) →
      s.length - i < fuel →
      dictEntries s child fuel map i =
        .ok (written.foldl (fun m e => SortedMap.insertEntry e.1 e.2 m) map)
          (i + ((parts.zip written).flatMap entryBytes ++ (w ++ closeTag "dict")).length) := by
  induction fuel with
  | zero => exact fun _ _ _ _ hfuel => absurd hfuel (Nat.not_lt_zero _)
  | succ fuel ih =>
    intro written map parts i hlen hblank hreads hat hfuel
    cases written with
    | nil =>
      obtain rfl : parts = [] := List.length_eq_zero_iff.1 hlen
      obtain ⟨hskip, hclose, hend⟩ := skip_closeTag hw hat
      simp only [dictEntries, skipWs_bind, hskip,
        startsWith_ite_apply (show i + w.length ≤ s.length by omega), if_pos hclose, advance_bind]
      simp [Nat.add_assoc]
    | cons e written =>
      obtain ⟨k, v⟩ := e
      obtain ⟨⟨w₁, w₂, t⟩, parts, rfl⟩ := List.exists_cons_of_length_eq_add_one hlen
      obtain ⟨hw₁, hw₂⟩ := hblank (w₁, w₂, t) List.mem_cons_self
      have hv : Reads s child i v t := hreads ((w₁, w₂, t), (k, v)) List.mem_cons_self
      rw [List.zip_cons_cons, List.flatMap_cons, List.append_assoc] at hat
      have hpos : 0 < (entryBytes ((w₁, w₂, t), (k, v))).length := by
        have := hv.length_pos
        rw [entryBytes_mk, List.length_append, List.length_append, List.length_append]
        omega
      obtain ⟨hentry, hrest⟩ := holdsAt_append.1 hat
      have hend := hentry.add_length_le hpos
      rw [dictEntries_step hw₁ hw₂ hv hat, ih (by simpa using hlen)
        (fun e he => hblank e (List.mem_cons_of_mem _ he))
        (fun e he => (hreads e (List.mem_cons_of_mem _ he)).mono (by omega)) hrest (by omega),
        List.zip_cons_cons, List.flatMap_cons]
      simp [Nat.add_assoc]

theorem parseI64_decimal (i : BitVec 64) : parseI64 (decimal i.toInt) = some i := by
  have hlt := BitVec.toInt_lt (x := i)
  have hle := BitVec.le_toInt i
  rw [parseI64, fromDecimal_decimal]
  simp only
  rw [if_pos (by omega), BitVec.ofInt_toInt]

/-- The digits of an integer have nothing to trim, escape or end at. -/
theorem decimal_plain (z : ℤ) :
    trim (decimal z) = decimal z ∧ '<' ∉ decimal z ∧ unescape (decimal z) = decimal z := by
  have hnot : ∀ c : Char, c ≠ '-' → ¬(0x30 ≤ c.toNat ∧ c.toNat ≤ 0x39) → c ∉ decimal z :=
    fun c h₁ h₂ hc => (mem_decimal hc).elim h₁ h₂
  refine ⟨trim_of_forall fun c hc => ?_, hnot '<' (by decide) (by decide),
    unescape_of_notMem (hnot '&' (by decide) (by decide))⟩
  rcases mem_decimal hc with rfl | ⟨h₁, h₂⟩
  · rfl
  · unfold SysLib.isWhitespace
    simp only [Bool.or_eq_false_iff, Bool.and_eq_false_iff, decide_eq_false_iff_not]
    omega

/-- An element is read behind any white space if it is from its tag on. -/
theorem reads_of_tag {v : PlistValue} {t : List U8} (hhead : Opening t)
    (h : ∀ {fuel i j : ℕ}, HoldsAt s j t → s.length - j < fuel + 1 → skip s i = j →
      j ≤ s.length → value s (fuel + 1) i = .ok v (j + t.length)) {fuel i : ℕ}
    (hfuel : s.length - i < fuel) : Reads s (value s fuel) i v t := by
  refine ⟨hhead, fun j w hij hw hat => ?_⟩
  rw [← List.append_nil t] at hat
  obtain ⟨hskip, hel, -, hend, -⟩ := skip_element hw hhead hat
  obtain ⟨fuel, rfl⟩ := Nat.exists_eq_add_one_of_ne_zero (Nat.ne_of_gt (Nat.zero_lt_of_lt hfuel))
  rw [h hel (by omega) hskip (by omega), List.length_append, Nat.add_assoc]

/-- The reader goes by the tag behind the white space. -/
theorem value_apply {fuel i j : ℕ} (hskip : skip s i = j) (hj : j ≤ s.length) :
    value s (fuel + 1) i =
      if HoldsAt s j Tag.dict.bytes then parseDict s (value s fuel) fuel j
      else if HoldsAt s j Tag.array.bytes then parseArray s (value s fuel) fuel j
      else if HoldsAt s j Tag.string.bytes then
        (textElement s "string" >>= fun t => pure (.string (String.ofList t))) j
      else if HoldsAt s j Tag.integer.bytes then
        (textElement s "integer" >>= fun t => pure (.integer ((parseI64 (trim t)).getD 0))) j
      else if HoldsAt s j Tag.real.bytes then
        (textElement s "real" >>= fun t => pure (.real ((f64FromStr (trim t)).getD 0))) j
      else if HoldsAt s j Tag.true.bytes then
        .ok (.bool true) (j + (literal "<true/>").length)
      else if HoldsAt s j Tag.false.bytes then
        .ok (.bool false) (j + (literal "<false/>").length)
      else if HoldsAt s j Tag.data.bytes then
        (textElement s "data" >>= fun t => pure (.data (utf8Encode (trim t)))) j
      else .err (.xml "unexpected element") j := by
  simp only [value, skipWs_bind, hskip, startsWith_ite_apply hj]
  rfl

/-- At the tag of an element with text the text is read. -/
theorem value_textTag {kind : TextKind} {l : List U8} {fuel i j : ℕ} (hskip : skip s i = j)
    (hj : j ≤ s.length) (hat : HoldsAt s j (kind.tag.bytes ++ l)) :
    value s (fuel + 1) i = (textElement s kind.name >>= fun t => pure (kind.value t)) j := by
  have hpos := (holdsAt_append.1 hat).1
  rw [value_apply hskip hj]
  cases kind with
  | string =>
    rw [if_neg (Tag.string.apart .dict (by decide) hat),
      if_neg (Tag.string.apart .array (by decide) hat)]
    exact if_pos hpos
  | integer =>
    rw [if_neg (Tag.integer.apart .dict (by decide) hat),
      if_neg (Tag.integer.apart .array (by decide) hat),
      if_neg (Tag.integer.apart .string (by decide) hat)]
    exact if_pos hpos
  | real =>
    rw [if_neg (Tag.real.apart .dict (by decide) hat),
      if_neg (Tag.real.apart .array (by decide) hat),
      if_neg (Tag.real.apart .string (by decide) hat),
      if_neg (Tag.real.apart .integer (by decide) hat)]
    exact if_pos hpos
  | data =>
    rw [if_neg (Tag.data.apart .dict (by decide) hat),
      if_neg (Tag.data.apart .array (by decide) hat),
      if_neg (Tag.data.apart .string (by decide) hat),
      if_neg (Tag.data.apart .integer (by decide) hat),
      if_neg (Tag.data.apart .real (by decide) hat),
      if_neg (Tag.data.apart .true (by decide) hat),
      if_neg (Tag.data.apart .false (by decide) hat)]
    exact if_pos hpos

/-- At the tag of an empty element that is all. -/
theorem value_flagTag {b : Bool} {l : List U8} {fuel i j : ℕ} (hskip : skip s i = j)
    (hj : j ≤ s.length) (hat : HoldsAt s j ((flagTag b).bytes ++ l)) :
    value s (fuel + 1) i = .ok (.bool b) (j + (flagTag b).bytes.length) := by
  have hpos := (holdsAt_append.1 hat).1
  rw [value_apply hskip hj]
  cases b with
  | true =>
    rw [if_neg (Tag.true.apart .dict (by decide) hat),
      if_neg (Tag.true.apart .array (by decide) hat),
      if_neg (Tag.true.apart .string (by decide) hat),
      if_neg (Tag.true.apart .integer (by decide) hat),
      if_neg (Tag.true.apart .real (by decide) hat)]
    exact if_pos hpos
  | false =>
    rw [if_neg (Tag.false.apart .dict (by decide) hat),
      if_neg (Tag.false.apart .array (by decide) hat),
      if_neg (Tag.false.apart .string (by decide) hat),
      if_neg (Tag.false.apart .integer (by decide) hat),
      if_neg (Tag.false.apart .real (by decide) hat),
      if_neg (Tag.false.apart .true (by decide) hat)]
    exact if_pos hpos

theorem reads_flag (b : Bool) {fuel i : ℕ} (hfuel : s.length - i < fuel) :
    Reads s (value s fuel) i (.bool b) (flagTag b).bytes := by
  have hhead := (flagTag b).opening []
  rw [List.append_nil] at hhead
  refine reads_of_tag hhead (fun {fuel i j} hat _ hskip hj => ?_) hfuel
  exact value_flagTag (l := []) hskip hj (by rwa [List.append_nil])

theorem reads_integer (z : BitVec 64) {fuel i : ℕ} (hfuel : s.length - i < fuel) :
    Reads s (value s fuel) i (.integer z) (element "integer" (decimal z.toInt)) := by
  refine reads_of_tag (Tag.integer.opening _) (fun {fuel i j} hat _ hskip hj => ?_) hfuel
  obtain ⟨htrim, hlt, hunescape⟩ := decimal_plain z.toInt
  have htext : textElement s TextKind.integer.name j = _ := textElement_eq hlt hat
  rw [@value_textTag s .integer _ _ _ _ hskip hj hat, Prog.bind_apply, htext, hunescape]
  simp only [TextKind.value, htrim, parseI64_decimal]
  rfl

theorem reads_string (text : String) {fuel i : ℕ} (hfuel : s.length - i < fuel) :
    Reads s (value s fuel) i (.string text) (element "string" (escape text.toList)) := by
  refine reads_of_tag (Tag.string.opening _) (fun {fuel i j} hat _ hskip hj => ?_) hfuel
  have htext : textElement s TextKind.string.name j = _ := textElement_eq (notMem_escape _) hat
  rw [@value_textTag s .string _ _ _ _ hskip hj hat, Prog.bind_apply, htext, unescape_escape]
  simp only [TextKind.value, String.ofList_toList]
  rfl

theorem reads_array {items : List PlistValue} {parts : List (List U8 × List U8)} {w : List U8}
    (hlen : parts.length = items.length) (hblank : ∀ e ∈ parts, Blank e.1) (hw : Blank w)
    (hitems : ∀ e ∈ parts.zip items, ∀ {fuel i : ℕ}, s.length - i < fuel →
      Reads s (value s fuel) i e.2 e.1.2) {fuel i : ℕ} (hfuel : s.length - i < fuel) :
    Reads s (value s fuel) i (.array items)
      (openTag "array" ++ (parts.flatMap (fun e => e.1 ++ e.2) ++ (w ++ closeTag "array"))) := by
  refine reads_of_tag (Tag.array.opening _) (fun {fuel i j} hat hfuel hskip hj => ?_) hfuel
  obtain ⟨hopen, hbody⟩ := (holdsAt_append (l := openTag "array")).1 hat
  have hpos : 0 < (openTag "array").length := by decide
  have hend := hopen.add_length_le hpos
  have hloop := @arrayItems_eq s (value s fuel) w hw fuel items [] parts _ hlen hblank
    (fun e he => hitems e he (by omega)) hbody (by omega)
  rw [value_apply hskip hj, if_neg (Tag.array.apart .dict (by decide) hat),
    if_pos (c := HoldsAt s j Tag.array.bytes) hopen, parseArray, advance_bind, Prog.bind_apply,
    hloop, Nat.add_assoc, ← List.length_append]
  rfl

theorem reads_dict {entries written : List (String × PlistValue)}
    {parts : List (List U8 × List U8 × List U8)} {w : List U8} (hperm : written.Perm entries)
    (hsorted : entries.Pairwise fun e e' => e.1 < e'.1) (hlen : parts.length = written.length)
    (hblank : ∀ e ∈ parts, Blank e.1 ∧ Blank e.2.1) (hw : Blank w)
    (hvals : ∀ e ∈ parts.zip written, ∀ {fuel i : ℕ}, s.length - i < fuel →
      Reads s (value s fuel) i e.2.2 e.1.2.2) {fuel i : ℕ} (hfuel : s.length - i < fuel) :
    Reads s (value s fuel) i (.dict entries)
      (openTag "dict" ++ ((parts.zip written).flatMap entryBytes ++ (w ++ closeTag "dict"))) := by
  refine reads_of_tag (Tag.dict.opening _) (fun {fuel i j} hat hfuel hskip hj => ?_) hfuel
  obtain ⟨hopen, hbody⟩ := (holdsAt_append (l := openTag "dict")).1 hat
  have hpos : 0 < (openTag "dict").length := by decide
  have hend := hopen.add_length_le hpos
  have hloop := @dictEntries_eq s (value s fuel) w hw fuel written [] parts _ hlen hblank
    (fun e he => hvals e he (by omega)) hbody (by omega)
  rw [value_apply hskip hj, if_pos (c := HoldsAt s j Tag.dict.bytes) hopen, parseDict,
    advance_bind, Prog.bind_apply, hloop, SortedMap.foldl_insertEntry_eq hperm hsorted,
    Nat.add_assoc, ← List.length_append]
  rfl

/-- Reading undoes printing. -/
theorem Prints.reads {v : PlistValue} {t : List U8} (h : Prints v t) :
    v.Proper → ∀ {fuel i : ℕ}, s.length - i < fuel → Reads s (value s fuel) i v t := by
  induction h with
  | true => exact fun _ => reads_flag Bool.true
  | false => exact fun _ => reads_flag Bool.false
  | integer z => exact fun _ => reads_integer z
  | string text => exact fun _ => reads_string text
  | @array items parts w hlen hblank _ hw ih =>
    intro hproper
    rw [PlistValue.Proper, PlistValue.properItems_iff] at hproper
    exact reads_array hlen hblank hw fun e he =>
      ih e he (hproper.2 e.2 (List.of_mem_zip he).2)
  | @dict entries written parts w hperm hlen hblank _ hw ih =>
    intro hproper
    rw [PlistValue.Proper, PlistValue.properEntries_iff] at hproper
    exact reads_dict hperm hproper.1 hlen hblank hw fun e he =>
      ih e he (hproper.2 e.2 (hperm.subset (List.of_mem_zip he).2))

end Reading

end IosEmu.Xml
