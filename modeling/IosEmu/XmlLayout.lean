import IosEmu.XmlPrint

/-!
# Comments and attributes in an element

`Xml.Node` is an element as a document writes it : the gaps between its tags, with white space and
comments, and the attributes of its tags. `bare` leaves comments and attributes out, and `value` is
what the element stands for, which these are no part of.

The reader looks for whole tags behind white space and for nothing else. It takes an element that
is bare for its value, and no other element (`Node.value_eq_ok_iff`) : at a comment, and at a tag
with an attribute, it finds no tag.
-/

open SysLib

namespace IosEmu.Xml

/-! ## Layouts -/

/-- A comment, by the text in it. -/
structure Comment where
  text : List U8
  closed : ¬literal "-->" <:+: text

def Comment.bytes (c : Comment) : List U8 :=
  literal "<!--" ++ (c.text ++ literal "-->")

/-- What a name is made of. -/
def isNameByte (b : U8) : Bool :=
  !isAsciiWhitespace b && b ∉ [0x3c, 0x3e, 0x2f, 0x3d, 0x22, 0x27, 0x26]

/-- `name="text"`, behind white space. -/
structure Attribute where
  space : List U8
  name : List U8
  left : List U8
  right : List U8
  quote : U8
  text : List U8
  blank : Blank space ∧ Blank left ∧ Blank right
  spaced : space ≠ []
  named : name ≠ [] ∧ ∀ b ∈ name, isNameByte b = true
  quoted : quote = 0x22 ∨ quote = 0x27
  inside : 0x3c ∉ text ∧ quote ∉ text

def Attribute.bytes (a : Attribute) : List U8 :=
  a.space ++ (a.name ++ (a.left ++ ([0x3d] ++ (a.right ++ ([a.quote] ++ (a.text ++ [a.quote]))))))

def attrBytes (attrs : List Attribute) : List U8 :=
  attrs.flatMap Attribute.bytes

/-- What stands between two tags. -/
inductive Trivia
  | space (b : U8) (h : isAsciiWhitespace b = true)
  | comment (c : Comment)

def Trivia.bytes : Trivia → List U8
  | .space b _ => [b]
  | .comment c => c.bytes

def Trivia.isSpace : Trivia → Bool
  | .space _ _ => true
  | .comment _ => false

def gapBytes (gap : List Trivia) : List U8 :=
  gap.flatMap Trivia.bytes

/-- The gap without its comments. -/
def bareGap (gap : List Trivia) : List Trivia :=
  gap.filter Trivia.isSpace

/-- The text of an element, up to its closing tag. -/
structure Raw (name : String) where
  text : List U8
  closed : ¬closeTag name <:+: text

/-- The characters of a text, as the reader takes them. -/
def Raw.chars {name : String} (raw : Raw name) : List Char :=
  unescape ((fromUtf8 raw.text).getD [])

mutual

/-- An element. -/
inductive Node
  | text (kind : TextKind) (attrs : List Attribute) (raw : Raw kind.name)
  | flag (b : Bool) (attrs : List Attribute)
  | array (attrs : List Attribute) (items : Items)
  | dict (attrs : List Attribute) (entries : Entries)

/-- The items of an array and its closing tag, each behind a gap. -/
inductive Items
  | close (gap : List Trivia)
  | item (gap : List Trivia) (node : Node) (items : Items)

/-- The entries of a dictionary and its closing tag. -/
inductive Entries
  | close (gap : List Trivia)
  | entry (gap : List Trivia) (attrs : List Attribute) (key : Raw "key") (gap' : List Trivia)
    (node : Node) (entries : Entries)

end

/-- `<name attrs>`. -/
def opened (name : String) (attrs : List Attribute) : List U8 :=
  literal ("<" ++ name) ++ (attrBytes attrs ++ literal ">")

/-- `<name attrs>text</name>`. -/
def textBytes {name : String} (attrs : List Attribute) (raw : Raw name) : List U8 :=
  opened name attrs ++ (raw.text ++ closeTag name)

def flagName (b : Bool) : String :=
  if b then "true" else "false"

mutual

def Node.bytes : Node → List U8
  | .text _ attrs raw => textBytes attrs raw
  | .flag b attrs => literal ("<" ++ flagName b) ++ (attrBytes attrs ++ literal "/>")
  | .array attrs items => opened "array" attrs ++ items.bytes
  | .dict attrs entries => opened "dict" attrs ++ entries.bytes

def Items.bytes : Items → List U8
  | .close gap => gapBytes gap ++ closeTag "array"
  | .item gap node items => gapBytes gap ++ (node.bytes ++ items.bytes)

def Entries.bytes : Entries → List U8
  | .close gap => gapBytes gap ++ closeTag "dict"
  | .entry gap attrs key gap' node entries =>
    gapBytes gap ++ (textBytes attrs key ++ (gapBytes gap' ++ (node.bytes ++ entries.bytes)))

end

mutual

/-- The element without comments and attributes. -/
def Node.bare : Node → Node
  | .text kind _ raw => .text kind [] raw
  | .flag b _ => .flag b []
  | .array _ items => .array [] items.bare
  | .dict _ entries => .dict [] entries.bare

def Items.bare : Items → Items
  | .close gap => .close (bareGap gap)
  | .item gap node items => .item (bareGap gap) node.bare items.bare

def Entries.bare : Entries → Entries
  | .close gap => .close (bareGap gap)
  | .entry gap _ key gap' node entries =>
    .entry (bareGap gap) [] key (bareGap gap') node.bare entries.bare

end

mutual

/-- What an element stands for. -/
def Node.value : Node → PlistValue
  | .text kind _ raw => kind.value raw.chars
  | .flag b _ => .bool b
  | .array _ items => .array items.values
  | .dict _ entries => .dict (entries.insert [])

def Items.values : Items → List PlistValue
  | .close _ => []
  | .item _ node items => node.value :: items.values

/-- The entries, put into a map. -/
def Entries.insert : Entries → List (String × PlistValue) → List (String × PlistValue)
  | .close _, map => map
  | .entry _ _ key _ node entries, map =>
    entries.insert (SortedMap.insertEntry (String.ofList key.chars) node.value map)

end

mutual

/-- Comments and attributes are no part of the value. -/
theorem Node.value_bare : ∀ node : Node, node.bare.value = node.value
  | .text _ _ _ => rfl
  | .flag _ _ => rfl
  | .array _ items => congrArg PlistValue.array items.values_bare
  | .dict _ entries => congrArg PlistValue.dict (entries.insert_bare [])

theorem Items.values_bare : ∀ items : Items, items.bare.values = items.values
  | .close _ => rfl
  | .item _ node items => by
    rw [Items.bare, Items.values, Items.values, node.value_bare, items.values_bare]

theorem Entries.insert_bare : ∀ (entries : Entries) (map : List (String × PlistValue)),
    entries.bare.insert map = entries.insert map
  | .close _, _ => rfl
  | .entry _ _ key _ node entries, map => by
    rw [Entries.bare, Entries.insert, Entries.insert, node.value_bare, entries.insert_bare]

end

/-! ## What the reader finds -/

section Reading

variable {s : List U8} {i j fuel : ℕ}

theorem Tag.closed (t : Tag) :
    0x3e ∈ t.bytes ∧ ∀ b ∈ t.bytes, isAsciiWhitespace b = Bool.false := by
  have h : ∀ t ∈ Tag.all, 0x3e ∈ t.bytes ∧ ∀ b ∈ t.bytes, isAsciiWhitespace b = Bool.false := by
    decide +kernel
  exact h t t.mem_all

/-- No tag of the reader stands at the cursor. -/
def NoTag (s : List U8) (j : ℕ) : Prop :=
  ∀ t : Tag, ¬HoldsAt s j t.bytes

/-- A tag with white space in it is none the reader knows. -/
theorem noTag_of_space {stem l : List U8} {b : U8} (hstem : 0x3e ∉ stem)
    (hb : isAsciiWhitespace b = true) (hat : HoldsAt s j (stem ++ b :: l)) : NoTag s j := by
  intro t ht
  obtain ⟨hmem, hspace⟩ := t.closed
  have hstemb : HoldsAt s j (stem ++ [b]) := by
    have hsplit : stem ++ b :: l = stem ++ [b] ++ l := by simp
    rw [hsplit] at hat
    exact (holdsAt_append.1 hat).1
  rcases List.prefix_or_prefix_of_prefix ht hstemb with h | h
  · rcases List.mem_append.1 (h.subset hmem) with hin | hin
    · exact hstem hin
    · obtain rfl := List.mem_singleton.1 hin
      exact absurd hb (by decide)
  · have hin : b ∈ t.bytes := h.subset (by simp)
    rw [hspace b hin] at hb
    cases hb

/-- A comment is no tag. -/
theorem noTag_of_comment {l : List U8} (hat : HoldsAt s j (literal "<!--" ++ l)) : NoTag s j := by
  have h : ∀ t ∈ Tag.all, ¬t.bytes <+: literal "<!--" ∧ ¬literal "<!--" <+: t.bytes := by
    decide
  intro t
  exact not_holdsAt hat (h t t.mem_all).1 (h t t.mem_all).2

/-- What begins otherwise is no markup. -/
theorem not_holdsAt_lt {b : U8} {l tag : List U8} (hb : b ≠ 0x3c) (htag : [0x3c] <+: tag)
    (hat : HoldsAt s j (b :: l)) : ¬HoldsAt s j tag := by
  intro h
  have hhead : HoldsAt s j ([b] ++ l) := hat
  refine @not_holdsAt _ _ _ [0x3c] _ hhead ?_ ?_ (htag.trans h)
  · rw [List.cons_prefix_cons]
    exact fun h => hb h.1.symm
  · rw [List.cons_prefix_cons]
    exact fun h => hb h.1

theorem noTag_of_ne {b : U8} {l : List U8} (hb : b ≠ 0x3c) (hat : HoldsAt s j (b :: l)) :
    NoTag s j := by
  have h : ∀ t ∈ Tag.all, [0x3c] <+: t.bytes := by
    decide
  exact fun t => not_holdsAt_lt hb (h t t.mem_all) hat

theorem value_ne_ok (h : NoTag s (skip s i)) (hi : i ≤ s.length) {v : PlistValue} {k : ℕ} :
    value s fuel i ≠ .ok v k := by
  cases fuel with
  | zero => exact nofun
  | succ fuel =>
    rw [value_apply rfl (skip_le hi).2, if_neg (h .dict), if_neg (h .array), if_neg (h .string),
      if_neg (h .integer), if_neg (h .real), if_neg (h .true), if_neg (h .false), if_neg (h .data)]
    exact nofun

/-! ## Gaps -/

theorem bareGap_eq_iff {gap : List Trivia} :
    bareGap gap = gap ↔ ∀ p ∈ gap, p.isSpace = true :=
  List.filter_eq_self

/-- A gap is white space, or has a comment behind white space. -/
theorem gap_cases : ∀ gap : List Trivia, bareGap gap = gap ∧ Blank (gapBytes gap) ∨
    bareGap gap ≠ gap ∧ ∃ w l, Blank w ∧ gapBytes gap = w ++ (literal "<!--" ++ l)
  | [] => Or.inl ⟨rfl, by simp [gapBytes, Blank]⟩
  | .comment c :: gap => by
    refine Or.inr ⟨fun h => ?_, [], c.text ++ literal "-->" ++ gapBytes gap, by simp [Blank], ?_⟩
    · cases bareGap_eq_iff.1 h _ List.mem_cons_self
    · simp [gapBytes, Trivia.bytes, Comment.bytes]
  | .space b hb :: gap => by
    have hbytes : gapBytes (.space b hb :: gap) = b :: gapBytes gap := rfl
    rw [hbytes]
    rcases gap_cases gap with ⟨hbare, hblank⟩ | ⟨hbare, w, l, hw, hl⟩
    · refine Or.inl ⟨?_, List.forall_mem_cons.2 ⟨hb, hblank⟩⟩
      rw [bareGap_eq_iff] at hbare ⊢
      exact List.forall_mem_cons.2 ⟨rfl, hbare⟩
    · refine Or.inr ⟨fun h => hbare ?_, b :: w, l, List.forall_mem_cons.2 ⟨hb, hw⟩,
        by rw [hl]; rfl⟩
      rw [bareGap_eq_iff] at h ⊢
      exact (List.forall_mem_cons.1 h).2

/-- Behind white space a comment is no tag, neither one that opens nor one that closes. -/
theorem skip_comment {w l : List U8} (hw : Blank w)
    (hat : HoldsAt s i (w ++ (literal "<!--" ++ l))) :
    NoTag s (skip s i) ∧ i ≤ s.length ∧ ∀ name, ¬HoldsAt s (skip s i) (closeTag name) := by
  have hcomment : Opening (literal "<!--") := ⟨0x21, literal "--", rfl, by decide⟩
  obtain ⟨hskip, hel, -, hend, hclose⟩ := skip_element hw hcomment hat
  rw [← List.append_nil (literal "<!--")] at hel
  rw [hskip]
  exact ⟨noTag_of_comment hel, by omega, hclose⟩

/-- White space is passed once. -/
theorem skip_skip (i : ℕ) : skip s (skip s i) = skip s i := by
  have hsplit := List.takeWhile_append_dropWhile (p := isAsciiWhitespace) (l := s.drop i)
  have hdrop : s.drop (skip s i) = (s.drop i).dropWhile isAsciiWhitespace := by
    rw [skip, ← List.drop_drop]
    exact (congrArg (List.drop _) hsplit.symm).trans List.drop_left
  have hnone : (s.drop (skip s i)).takeWhile isAsciiWhitespace = [] := by
    rw [hdrop, List.takeWhile_eq_nil_iff]
    exact fun hl => List.dropWhile_get_zero_not isAsciiWhitespace _ hl
  conv_lhs => rw [skip, hnone]
  rfl

/-- An element is read behind white space as it is at its tag. -/
theorem value_skip (hi : i ≤ s.length) (hfuel : 0 < fuel) :
    value s fuel (skip s i) = value s fuel i := by
  obtain ⟨fuel, rfl⟩ := Nat.exists_eq_add_one_of_ne_zero (Nat.ne_of_gt hfuel)
  have hskip := skip_le hi
  rw [value_apply (skip_skip i) hskip.2, value_apply rfl hskip.2]

/-! ## Opening tags -/

theorem opened_nil (name : String) : opened name [] = openTag name := by
  simp [opened, attrBytes, openTag, literal, String.toList_append]

/-- A tag with an attribute has white space behind its name. -/
theorem attrBytes_cons (a : Attribute) (attrs : List Attribute) :
    ∃ b l, isAsciiWhitespace b = true ∧ attrBytes (a :: attrs) = b :: l := by
  obtain ⟨b, l, hspace⟩ := List.exists_cons_of_ne_nil a.spaced
  have hb : isAsciiWhitespace b = true := a.blank.1 b (by rw [hspace]; exact List.mem_cons_self)
  rw [attrBytes, List.flatMap_cons, Attribute.bytes, hspace]
  exact ⟨b, _, hb, rfl⟩

/-- It is none the reader knows. -/
theorem noTag_of_attr {name : String} {a : Attribute} {attrs : List Attribute} {l : List U8}
    (hname : 0x3e ∉ literal ("<" ++ name))
    (hat : HoldsAt s j (literal ("<" ++ name) ++ (attrBytes (a :: attrs) ++ l))) : NoTag s j := by
  obtain ⟨b, m, hb, hm⟩ := attrBytes_cons a attrs
  rw [hm] at hat
  exact noTag_of_space hname hb hat

theorem opening_stem {name : String} (hname : Opening (literal ("<" ++ name))) (l : List U8) :
    Opening (literal ("<" ++ name) ++ l) := by
  obtain ⟨b, m, hm, hb⟩ := hname
  exact ⟨b, m ++ l, by rw [hm]; rfl, hb⟩

/-! ## Text -/

theorem find_closeTag {name : String} (raw : Raw name) (hname : 0x3e ∉ literal ("</" ++ name))
    (tail : List U8) : find (closeTag name) (raw.text ++ (closeTag name ++ tail)) =
      some raw.text.length := by
  have hclose : closeTag name = literal ("</" ++ name) ++ [0x3e] := by
    rw [closeTag, literal, String.toList_append, utf8Encode_append]
    rfl
  have hclosed := raw.closed
  rw [hclose] at hclosed ⊢
  exact find_append_of_last hname tail hclosed

/-- The text of an element is read up to its closing tag. -/
theorem textElement_raw {name : String} {raw : Raw name} (hname : 0x3e ∉ literal ("</" ++ name))
    (hat : HoldsAt s j (textBytes [] raw)) :
    textElement s name j = .ok raw.chars (j + (textBytes [] raw).length) := by
  rw [textBytes, opened_nil] at hat ⊢
  have hrest := (holdsAt_append.1 hat).2
  have hend := hrest.add_length_le (by rw [closeTag_eq]; simp)
  obtain ⟨tail, htail⟩ := hrest
  rw [textElement, advance_bind, Prog.bind_apply, rest_apply (by omega), ← htail,
    List.append_assoc]
  simp only [find_closeTag raw hname tail]
  rw [advance_bind, List.take_left, List.length_append, List.length_append, Nat.add_assoc]
  rfl

/-- Where the reader succeeds it does so in one way. -/
theorem eq_ok_iff_of_eq {α : Type} {x : XmlM α} {a b : α} {k : ℕ} (h : x i = .ok a j) :
    x i = .ok b k ↔ b = a ∧ k = j := by
  rw [h]
  constructor
  · intro heq
    obtain ⟨rfl, rfl⟩ := Outcome.ok.inj heq
    exact ⟨rfl, rfl⟩
  · rintro ⟨rfl, rfl⟩
    rfl

/-! ## Elements -/

theorem Opening.length_pos {l : List U8} (h : Opening l) : 0 < l.length := by
  obtain ⟨b, m, rfl, -⟩ := h
  simp

theorem Node.opening : ∀ node : Node, Opening node.bytes
  | .text kind attrs raw => by
    rw [Node.bytes, textBytes, opened, List.append_assoc]
    cases kind <;> exact opening_stem ⟨_, _, rfl, by decide⟩ _
  | .flag b attrs => by
    rw [Node.bytes]
    cases b <;> exact opening_stem ⟨_, _, rfl, by decide⟩ _
  | .array attrs items => by
    rw [Node.bytes, opened, List.append_assoc]
    exact opening_stem ⟨_, _, rfl, by decide⟩ _
  | .dict attrs entries => by
    rw [Node.bytes, opened, List.append_assoc]
    exact opening_stem ⟨_, _, rfl, by decide⟩ _

/-- An element behind a gap is read if it is at its tag and the gap has no comment. -/
theorem value_gap_iff {gap : List Trivia} {t : List U8} {v v₀ : PlistValue} {k : ℕ} {P : Prop}
    (ht : Opening t) (hat : HoldsAt s i (gapBytes gap ++ t))
    (hnode : ∀ j, skip s i = j → j ≤ s.length → HoldsAt s j t →
      (value s (fuel + 1) i = .ok v k ↔ P ∧ v = v₀ ∧ k = j + t.length)) :
    value s (fuel + 1) i = .ok v k ↔
      (bareGap gap = gap ∧ P) ∧ v = v₀ ∧ k = i + (gapBytes gap ++ t).length := by
  rcases gap_cases gap with ⟨hbare, hblank⟩ | ⟨hbare, w, l, hw, hl⟩
  · rw [← List.append_nil t] at hat
    obtain ⟨hskip, hel, -, hend, -⟩ := skip_element hblank ht hat
    rw [hnode _ hskip (by omega) hel, List.length_append, Nat.add_assoc]
    simp only [hbare, true_and]
  · rw [hl, List.append_assoc, List.append_assoc] at hat
    obtain ⟨hnone, hi, -⟩ := skip_comment hw hat
    simp only [hbare, false_and, iff_false]
    exact value_ne_ok hnone hi

section Tags

variable {v : PlistValue} {k : ℕ} (hskip : skip s i = j) (hj : j ≤ s.length)

include hskip hj

/-- No element is read at a tag with attributes. -/
theorem value_attr_iff {name : String} {a : Attribute} {attrs : List Attribute} {l : List U8}
    {P : Prop} (hname : 0x3e ∉ literal ("<" ++ name))
    (hat : HoldsAt s j (literal ("<" ++ name) ++ (attrBytes (a :: attrs) ++ l))) (hP : ¬P) :
    value s fuel i = .ok v k ↔ P := by
  have hnone : NoTag s (skip s i) := by
    rw [hskip]
    exact noTag_of_attr hname hat
  have hi : i ≤ s.length := by
    unfold skip at hskip
    omega
  simp only [hP, iff_false]
  exact value_ne_ok hnone hi

theorem value_text_iff {kind : TextKind} {attrs : List Attribute} {raw : Raw kind.name}
    (hat : HoldsAt s j (textBytes attrs raw)) : value s (fuel + 1) i = .ok v k ↔
      attrs = [] ∧ v = kind.value raw.chars ∧ k = j + (textBytes attrs raw).length := by
  cases attrs with
  | cons a attrs =>
    rw [textBytes, opened, List.append_assoc, List.append_assoc] at hat
    exact value_attr_iff hskip hj (by cases kind <;> decide) hat (by simp)
  | nil =>
    simp only [true_and]
    refine eq_ok_iff_of_eq ?_
    have htext := textElement_raw (by cases kind <;> decide) hat
    rw [textBytes, opened_nil, ← kind.tag_bytes] at hat
    rw [value_textTag hskip hj hat, Prog.bind_apply, htext]
    rfl

theorem value_flag_iff {b : Bool} {attrs : List Attribute}
    (hat : HoldsAt s j (Node.flag b attrs).bytes) : value s (fuel + 1) i = .ok v k ↔
      attrs = [] ∧ v = .bool b ∧ k = j + (Node.flag b attrs).bytes.length := by
  cases attrs with
  | cons a attrs =>
    rw [Node.bytes] at hat
    exact value_attr_iff hskip hj (by cases b <;> decide) hat (by simp)
  | nil =>
    simp only [true_and]
    refine eq_ok_iff_of_eq ?_
    have htag : HoldsAt s j ((flagTag b).bytes ++ []) := by
      cases b <;> exact hat
    rw [value_flagTag hskip hj htag]
    cases b <;> rfl

/-- An array is read if its tag has no attributes and its items are read. -/
theorem value_array_iff {attrs : List Attribute} {body : List U8} {P : Prop}
    {items : List PlistValue} (hat : HoldsAt s j (opened "array" attrs ++ body))
    (hloop : ∀ vs k, HoldsAt s (j + (openTag "array").length) body →
      (arrayItems s (value s fuel) fuel [] (j + (openTag "array").length) = .ok vs k ↔
        P ∧ vs = items ∧ k = j + (openTag "array").length + body.length)) :
    value s (fuel + 1) i = .ok v k ↔
      (attrs = [] ∧ P) ∧ v = .array items ∧ k = j + (opened "array" attrs ++ body).length := by
  cases attrs with
  | cons a attrs =>
    rw [opened, List.append_assoc, List.append_assoc] at hat
    simp only [List.cons_ne_nil, false_and]
    exact value_attr_iff hskip hj (by decide) hat not_false
  | nil =>
    rw [opened_nil] at hat ⊢
    have htag : HoldsAt s j (Tag.array.bytes ++ body) := hat
    have hvalue : value s (fuel + 1) i = parseArray s (value s fuel) fuel j := by
      rw [value_apply hskip hj, if_neg (Tag.array.apart .dict (by decide) htag)]
      exact if_pos (holdsAt_append.1 htag).1
    rw [hvalue, parseArray, advance_bind, Prog.bind_eq_ok]
    simp only [hloop _ _ (holdsAt_append.1 hat).2, List.length_append, true_and]
    constructor
    · rintro ⟨vs, k', ⟨hP, rfl, rfl⟩, heq⟩
      obtain ⟨rfl, rfl⟩ := Outcome.ok.inj heq
      exact ⟨hP, rfl, Nat.add_assoc _ _ _⟩
    · rintro ⟨hP, rfl, rfl⟩
      exact ⟨_, _, ⟨hP, rfl, rfl⟩, by rw [Nat.add_assoc]; rfl⟩

/-- The same of a dictionary. -/
theorem value_dict_iff {attrs : List Attribute} {body : List U8} {P : Prop}
    {entries : List (String × PlistValue)} (hat : HoldsAt s j (opened "dict" attrs ++ body))
    (hloop : ∀ map k, HoldsAt s (j + (openTag "dict").length) body →
      (dictEntries s (value s fuel) fuel [] (j + (openTag "dict").length) = .ok map k ↔
        P ∧ map = entries ∧ k = j + (openTag "dict").length + body.length)) :
    value s (fuel + 1) i = .ok v k ↔
      (attrs = [] ∧ P) ∧ v = .dict entries ∧ k = j + (opened "dict" attrs ++ body).length := by
  cases attrs with
  | cons a attrs =>
    rw [opened, List.append_assoc, List.append_assoc] at hat
    simp only [List.cons_ne_nil, false_and]
    exact value_attr_iff hskip hj (by decide) hat not_false
  | nil =>
    rw [opened_nil] at hat ⊢
    have htag : HoldsAt s j (Tag.dict.bytes ++ body) := hat
    have hvalue : value s (fuel + 1) i = parseDict s (value s fuel) fuel j := by
      rw [value_apply hskip hj]
      exact if_pos (holdsAt_append.1 htag).1
    rw [hvalue, parseDict, advance_bind, Prog.bind_eq_ok]
    simp only [hloop _ _ (holdsAt_append.1 hat).2, List.length_append, true_and]
    constructor
    · rintro ⟨map, k', ⟨hP, rfl, rfl⟩, heq⟩
      obtain ⟨rfl, rfl⟩ := Outcome.ok.inj heq
      exact ⟨hP, rfl, Nat.add_assoc _ _ _⟩
    · rintro ⟨hP, rfl, rfl⟩
      exact ⟨_, _, ⟨hP, rfl, rfl⟩, by rw [Nat.add_assoc]; rfl⟩

end Tags

/-! ## Loops -/

theorem arrayItems_apply {child : XmlM PlistValue} (hi : i ≤ s.length) (out : List PlistValue) :
    arrayItems s child (fuel + 1) out i =
      if HoldsAt s (skip s i) (closeTag "array") then
        .ok out (skip s i + (closeTag "array").length)
      else (child >>= fun v => arrayItems s child fuel (out ++ [v])) (skip s i) := by
  simp only [arrayItems, skipWs_bind, startsWith_ite_apply (skip_le hi).2]
  rfl

theorem dictEntries_apply {child : XmlM PlistValue} (hi : i ≤ s.length)
    (map : List (String × PlistValue)) : dictEntries s child (fuel + 1) map i =
      if HoldsAt s (skip s i) (closeTag "dict") then
        .ok map (skip s i + (closeTag "dict").length)
      else if HoldsAt s (skip s i) Tag.key.bytes then
        (textElement s "key" >>= fun key => child >>= fun v =>
          dictEntries s child fuel (SortedMap.insertEntry (String.ofList key) v map)) (skip s i)
      else .err (.xml "expected <key> in dict") (skip s i) := by
  simp only [dictEntries, skipWs_bind, startsWith_ite_apply (skip_le hi).2]
  rfl

/-- A closing tag behind a gap ends the loop over an array if the gap has no comment. -/
theorem arrayItems_close_iff {gap : List Trivia} {m k : ℕ} {out vs : List PlistValue}
    (hat : HoldsAt s i (gapBytes gap ++ closeTag "array")) :
    arrayItems s (value s m) (fuel + 1) out i = .ok vs k ↔
      bareGap gap = gap ∧ vs = out ∧ k = i + (gapBytes gap ++ closeTag "array").length := by
  rcases gap_cases gap with ⟨hbare, hblank⟩ | ⟨hbare, w, l, hw, hl⟩
  · obtain ⟨hskip, hclose, hend⟩ := skip_closeTag hblank hat
    simp only [hbare, true_and]
    refine eq_ok_iff_of_eq ?_
    rw [arrayItems_apply (by omega), hskip, if_pos hclose, List.length_append, Nat.add_assoc]
  · rw [hl, List.append_assoc, List.append_assoc] at hat
    obtain ⟨hnone, hi, hclose⟩ := skip_comment hw hat
    rw [arrayItems_apply hi, if_neg (hclose _), Prog.bind_eq_ok]
    simp only [hbare, false_and, iff_false]
    rintro ⟨v, j, hv, -⟩
    exact value_ne_ok (by rwa [skip_skip]) (skip_le hi).2 hv

theorem dictEntries_close_iff {child : XmlM PlistValue} {gap : List Trivia} {k : ℕ}
    {map map' : List (String × PlistValue)}
    (hat : HoldsAt s i (gapBytes gap ++ closeTag "dict")) :
    dictEntries s child (fuel + 1) map i = .ok map' k ↔
      bareGap gap = gap ∧ map' = map ∧ k = i + (gapBytes gap ++ closeTag "dict").length := by
  rcases gap_cases gap with ⟨hbare, hblank⟩ | ⟨hbare, w, l, hw, hl⟩
  · obtain ⟨hskip, hclose, hend⟩ := skip_closeTag hblank hat
    simp only [hbare, true_and]
    refine eq_ok_iff_of_eq ?_
    rw [dictEntries_apply (by omega), hskip, if_pos hclose, List.length_append, Nat.add_assoc]
  · rw [hl, List.append_assoc, List.append_assoc] at hat
    obtain ⟨hnone, hi, hclose⟩ := skip_comment hw hat
    rw [dictEntries_apply hi, if_neg (hclose _), if_neg (hnone .key)]
    simp [hbare]

/-- Behind a gap there is no closing tag where an element begins. -/
theorem not_closeTag {gap : List Trivia} {t l : List U8} (ht : Opening t)
    (hat : HoldsAt s i (gapBytes gap ++ (t ++ l))) (name : String) :
    i ≤ s.length ∧ ¬HoldsAt s (skip s i) (closeTag name) := by
  rcases gap_cases gap with ⟨-, hblank⟩ | ⟨-, w, l, hw, hl⟩
  · obtain ⟨hskip, -, -, hend, hclose⟩ := skip_element hblank ht hat
    rw [hskip]
    exact ⟨by omega, hclose name⟩
  · rw [hl, List.append_assoc, List.append_assoc] at hat
    obtain ⟨-, hi, hclose⟩ := skip_comment hw hat
    exact ⟨hi, hclose name⟩

/-- A key behind a gap is read if the gap has no comment and the tag no attributes. -/
theorem dictEntries_key_iff {child : XmlM PlistValue} {gap : List Trivia} {attrs : List Attribute}
    {key : Raw "key"} {l : List U8} {k : ℕ} {map map' : List (String × PlistValue)}
    (hat : HoldsAt s i (gapBytes gap ++ (textBytes attrs key ++ l))) :
    dictEntries s child (fuel + 1) map i = .ok map' k ↔
      (bareGap gap = gap ∧ attrs = []) ∧ (child >>= fun v =>
        dictEntries s child fuel (SortedMap.insertEntry (String.ofList key.chars) v map))
          (i + (gapBytes gap ++ textBytes attrs key).length) = .ok map' k := by
  have hopen : Opening (textBytes attrs key) := by
    rw [textBytes, opened, List.append_assoc]
    exact opening_stem ⟨_, _, rfl, by decide⟩ _
  obtain ⟨hi, hclose⟩ := not_closeTag hopen hat "dict"
  rw [dictEntries_apply hi, if_neg hclose]
  rcases gap_cases gap with ⟨hbare, hblank⟩ | ⟨hbare, w, l', hw, hl⟩
  · obtain ⟨hskip, hel, -, hend, -⟩ := skip_element hblank hopen hat
    rw [hskip]
    cases attrs with
    | cons a attrs =>
      rw [textBytes, opened, List.append_assoc, List.append_assoc] at hel
      rw [if_neg (noTag_of_attr (by decide) hel .key)]
      simp
    | nil =>
      have hkey : HoldsAt s (i + (gapBytes gap).length) Tag.key.bytes := by
        rw [textBytes, opened_nil] at hel
        exact (holdsAt_append.1 hel).1
      rw [if_pos hkey, Prog.bind_apply, textElement_raw (by decide) hel,
        List.length_append, Nat.add_assoc]
      simp only [hbare, true_and]
  · rw [hl, List.append_assoc, List.append_assoc] at hat
    obtain ⟨hnone, -, -⟩ := skip_comment hw hat
    rw [if_neg (hnone .key)]
    simp [hbare]

theorem bare_array_iff {attrs : List Attribute} {items : Items} :
    (Node.array attrs items).bare = .array attrs items ↔ attrs = [] ∧ items.bare = items := by
  rw [Node.bare, Node.array.injEq, eq_comm (a := [])]

theorem bare_dict_iff {attrs : List Attribute} {entries : Entries} :
    (Node.dict attrs entries).bare = .dict attrs entries ↔
      attrs = [] ∧ entries.bare = entries := by
  rw [Node.bare, Node.dict.injEq, eq_comm (a := [])]

mutual

/-- The reader takes an element for its value if it is bare and stands behind white space only, and
no other element. -/
theorem Node.value_eq_ok_iff : ∀ (node : Node) {gap : List Trivia} {fuel i k : ℕ} {v : PlistValue},
    HoldsAt s i (gapBytes gap ++ node.bytes) → s.length - i < fuel →
    (value s fuel i = .ok v k ↔ (bareGap gap = gap ∧ node.bare = node) ∧ v = node.value ∧
      k = i + (gapBytes gap ++ node.bytes).length)
  | node, _, 0, _, _, _, _, hfuel => absurd hfuel (Nat.not_lt_zero _)
  | .text kind attrs raw, gap, fuel + 1, i, k, v, hat, _ => by
    have hbare : (Node.text kind attrs raw).bare = .text kind attrs raw ↔ attrs = [] := by
      simp [Node.bare, eq_comm]
    refine value_gap_iff (Node.opening _) hat fun j hskip hj hel => ?_
    rw [hbare]
    exact value_text_iff hskip hj hel
  | .flag b attrs, gap, fuel + 1, i, k, v, hat, _ => by
    have hbare : (Node.flag b attrs).bare = .flag b attrs ↔ attrs = [] := by
      simp [Node.bare, eq_comm]
    refine value_gap_iff (Node.opening _) hat fun j hskip hj hel => ?_
    rw [hbare]
    exact value_flag_iff hskip hj hel
  | .array attrs items, gap, fuel + 1, i, k, v, hat, hfuel => by
    refine value_gap_iff (Node.opening _) hat fun j hskip hj hel => ?_
    have hij : i ≤ j := by
      rw [← hskip, skip]
      omega
    have hpos : 0 < (openTag "array").length := by decide
    have hend := hel.add_length_le (Node.opening _).length_pos
    have hlen := (Node.opening (.array attrs items)).length_pos
    rw [bare_array_iff]
    refine value_array_iff hskip hj hel fun vs k hbody => ?_
    exact items.arrayItems_eq_ok_iff hbody (by omega) (by omega)
  | .dict attrs entries, gap, fuel + 1, i, k, v, hat, hfuel => by
    refine value_gap_iff (Node.opening _) hat fun j hskip hj hel => ?_
    have hij : i ≤ j := by
      rw [← hskip, skip]
      omega
    have hpos : 0 < (openTag "dict").length := by decide
    have hend := hel.add_length_le (Node.opening _).length_pos
    have hlen := (Node.opening (.dict attrs entries)).length_pos
    rw [bare_dict_iff]
    refine value_dict_iff hskip hj hel fun map k hbody => ?_
    exact entries.dictEntries_eq_ok_iff hbody (by omega) (by omega)

theorem Items.arrayItems_eq_ok_iff : ∀ (items : Items) {n m i k : ℕ} {out vs : List PlistValue},
    HoldsAt s i items.bytes → s.length - i < n → s.length - i < m →
    (arrayItems s (value s m) n out i = .ok vs k ↔ items.bare = items ∧ vs = out ++ items.values ∧
      k = i + items.bytes.length)
  | _, 0, _, _, _, _, _, _, hn, _ => absurd hn (Nat.not_lt_zero _)
  | .close gap, n + 1, m, i, k, out, vs, hat, hn, hm => by
    rw [Items.bytes] at hat ⊢
    rw [arrayItems_close_iff hat, Items.bare, Items.close.injEq, Items.values, List.append_nil]
  | .item gap node items, n + 1, m, i, k, out, vs, hat, hn, hm => by
    rw [Items.bytes] at hat ⊢
    obtain ⟨hi, hclose⟩ := not_closeTag node.opening hat "array"
    rw [← List.append_assoc] at hat
    obtain ⟨hnode, hrest⟩ := holdsAt_append.1 hat
    have hpos := node.opening.length_pos
    have hlen : (gapBytes gap ++ node.bytes).length = (gapBytes gap).length + node.bytes.length :=
      List.length_append
    have hend := hnode.add_length_le (by omega)
    rw [arrayItems_apply hi, if_neg hclose, Prog.bind_apply, value_skip hi (by omega),
      ← Prog.bind_apply, Prog.bind_eq_ok, Items.bare, Items.item.injEq, Items.values,
      ← List.append_assoc]
    simp only [node.value_eq_ok_iff hnode hm]
    constructor
    · rintro ⟨v, k', ⟨hbare, rfl, rfl⟩, hloop⟩
      obtain ⟨hitems, rfl, rfl⟩ :=
        (items.arrayItems_eq_ok_iff hrest (by omega) (by omega)).1 hloop
      exact ⟨⟨hbare.1, hbare.2, hitems⟩, by simp, by simp [Nat.add_assoc]⟩
    · rintro ⟨⟨hgap, hbare, hitems⟩, rfl, rfl⟩
      refine ⟨_, _, ⟨⟨hgap, hbare⟩, rfl, rfl⟩, ?_⟩
      rw [items.arrayItems_eq_ok_iff hrest (by omega) (by omega)]
      exact ⟨hitems, by simp, by simp [Nat.add_assoc]⟩

theorem Entries.dictEntries_eq_ok_iff : ∀ (entries : Entries) {n m i k : ℕ}
    {map map' : List (String × PlistValue)}, HoldsAt s i entries.bytes →
    s.length - i < n → s.length - i < m →
    (dictEntries s (value s m) n map i = .ok map' k ↔ entries.bare = entries ∧
      map' = entries.insert map ∧ k = i + entries.bytes.length)
  | _, 0, _, _, _, _, _, _, hn, _ => absurd hn (Nat.not_lt_zero _)
  | .close gap, n + 1, m, i, k, map, map', hat, hn, hm => by
    rw [Entries.bytes] at hat ⊢
    rw [dictEntries_close_iff hat, Entries.bare, Entries.close.injEq, Entries.insert]
  | .entry gap attrs key gap' node entries, n + 1, m, i, k, map, map', hat, hn, hm => by
    rw [Entries.bytes] at hat ⊢
    rw [dictEntries_key_iff hat, Entries.bare, Entries.entry.injEq, Entries.insert]
    rw [← List.append_assoc] at hat
    have hafter := (holdsAt_append.1 hat).2
    rw [← List.append_assoc] at hafter
    obtain ⟨hnode, hrest⟩ := holdsAt_append.1 hafter
    have hpos := node.opening.length_pos
    have hlen : (gapBytes gap' ++ node.bytes).length =
        (gapBytes gap').length + node.bytes.length := List.length_append
    have hend := hnode.add_length_le (by omega)
    simp only [Prog.bind_eq_ok, node.value_eq_ok_iff hnode (show _ < m by omega)]
    constructor
    · rintro ⟨⟨hgap, rfl⟩, v, k', ⟨hbare, rfl, rfl⟩, hloop⟩
      obtain ⟨hentries, rfl, rfl⟩ :=
        (entries.dictEntries_eq_ok_iff hrest (by omega) (by omega)).1 hloop
      exact ⟨⟨hgap, rfl, trivial, hbare.1, hbare.2, hentries⟩, rfl, by simp [Nat.add_assoc]⟩
    · rintro ⟨⟨hgap, hattrs, -, hgap', hbare, hentries⟩, rfl, rfl⟩
      refine ⟨⟨hgap, hattrs.symm⟩, _, _, ⟨⟨hgap', hbare⟩, rfl, rfl⟩, ?_⟩
      rw [entries.dictEntries_eq_ok_iff hrest (by omega) (by omega)]
      exact ⟨hentries, rfl, by simp [Nat.add_assoc]⟩

end

end Reading

end IosEmu.Xml
