import IosEmu.XmlPrint

/-!
# Printed documents

A document has a prologue of markup with white space between, then the property list with one
element. `skipPrologue` looks for the end of a piece of markup from its first letter on, so the
first two dashes of a comment may be taken for its last ones : a comment whose text begins with
`>` or `->` ends there. No other text is read early, and what follows the prologue is read as in
`XmlPrint`, so parsing a printed document gives the value back (`Document.parse_printed`).
-/

open SysLib

namespace IosEmu.Xml

/-! ## Documents -/

/-- What may stand before the property list. -/
inductive Markup
  | xml
  | comment
  | doctype

namespace Markup

def start : Markup → String
  | .xml => "<?xml"
  | .comment => "<!--"
  | .doctype => "<!DOCTYPE"

def stop : Markup → String
  | .xml => "?>"
  | .comment => "-->"
  | .doctype => ">"

/-- The texts between the two. -/
def Allows : Markup → List Char → Prop
  | .xml, text => ¬"?>".toList <:+: text
  | .comment, text => ¬"-->".toList <:+: text ∧ ¬">".toList <+: text ∧ ¬"->".toList <+: text
  | .doctype, text => '>' ∉ text

instance : (k : Markup) → (text : List Char) → Decidable (k.Allows text)
  | .xml, text => inferInstanceAs (Decidable (¬"?>".toList <:+: text))
  | .comment, text => inferInstanceAs (Decidable (¬"-->".toList <:+: text ∧ ¬">".toList <+: text ∧
      ¬"->".toList <+: text))
  | .doctype, text => inferInstanceAs (Decidable ('>' ∉ text))

end Markup

/-- White space and a piece of markup. -/
def markupBytes (e : List U8 × Markup × List Char) : List U8 :=
  e.1 ++ (literal e.2.1.start ++ (utf8Encode e.2.2 ++ literal e.2.1.stop))

/-- The property list of `v`, as its element is printed in `t`. -/
def plistBytes (attrs : List Char) (w t w' : List U8) : List U8 :=
  literal "<plist" ++ (utf8Encode attrs ++ (literal ">" ++ (w ++ (t ++ (w' ++ closeTag "plist")))))

/-- The documents of a value. -/
inductive Document (v : PlistValue) : List U8 → Prop
  | mk {prologue : List (List U8 × Markup × List Char)} {w w₁ w₂ w₃ t : List U8}
    {attrs : List Char} (hprologue : ∀ e ∈ prologue, Blank e.1 ∧ e.2.1.Allows e.2.2)
    (hw : Blank w) (hattrs : '>' ∉ attrs) (hw₁ : Blank w₁) (hw₂ : Blank w₂) (hw₃ : Blank w₃)
    (ht : Prints v t) :
    Document v (prologue.flatMap markupBytes ++ (w ++ (plistBytes attrs w₁ t w₂ ++ w₃)))

/-! ## The prologue -/

section Reading

variable {s : List U8}

/-- Markup ends where its last letters stand first. -/
theorem advancePast_eq {q body : List U8} {c : U8} {i : ℕ} (hc : c ∉ q)
    (hnot : ¬q ++ [c] <:+: body) (h : HoldsAt s i (body ++ (q ++ [c]))) :
    advancePast s (q ++ [c]) i = .ok () (i + (body ++ (q ++ [c])).length) := by
  have hend := h.add_length_le (by simp)
  obtain ⟨tail, htail⟩ := h
  have hfind : find (q ++ [c]) (s.drop i) = some body.length := by
    rw [← htail, List.append_assoc]
    exact find_append_of_last hc tail hnot
  rw [advancePast, Prog.bind_apply, rest_apply (by omega)]
  simp only [hfind, List.length_append]
  rfl

theorem Markup.notInfix {k : Markup} {text : List Char} (h : k.Allows text) :
    ¬k.stop.toList <:+: k.start.toList ++ text := by
  cases k with
  | xml =>
    have h' : ¬['?', '>'] <:+: text := h
    change ¬['?', '>'] <:+: '<' :: '?' :: 'x' :: 'm' :: 'l' :: text
    simp [List.infix_cons_iff, List.cons_prefix_cons, h']
  | comment =>
    change ¬['-', '-', '>'] <:+: '<' :: '!' :: '-' :: '-' :: text
    simp only [List.infix_cons_iff, List.cons_prefix_cons]
    obtain ⟨h₁, h₂, h₃⟩ := h
    simpa using ⟨h₂, h₃, h₁⟩
  | doctype =>
    change ¬['>'] <:+: '<' :: '!' :: 'D' :: 'O' :: 'C' :: 'T' :: 'Y' :: 'P' :: 'E' :: text
    have h' : ¬['>'] <:+: text := fun hin => h (hin.subset List.mem_cons_self)
    simp [List.infix_cons_iff, List.cons_prefix_cons, h']

theorem Markup.stop_eq (k : Markup) : ∃ q c, literal k.stop = q ++ [c] ∧ c ∉ q ∧
    k.stop.toList ≠ [] ∧ ∀ c ∈ k.stop.toList, c.toNat < 0x80 := by
  cases k with
  | xml => exact ⟨[0x3f], 0x3e, by decide, by decide, by decide, by simp [stop]⟩
  | comment => exact ⟨[0x2d, 0x2d], 0x3e, by decide, by decide, by decide, by simp [stop]⟩
  | doctype => exact ⟨[], 0x3e, by decide, by decide, by decide, by simp [stop]⟩

/-- A piece of markup is passed as a whole. -/
theorem advancePast_markup {k : Markup} {text : List Char} {i : ℕ} (hallows : k.Allows text)
    (h : HoldsAt s i (literal k.start ++ (utf8Encode text ++ literal k.stop))) :
    advancePast s (literal k.stop) i =
      .ok () (i + (literal k.start ++ (utf8Encode text ++ literal k.stop)).length) := by
  obtain ⟨q, c, hstop, hc, hne, hascii⟩ := k.stop_eq
  have hnot : ¬literal k.stop <:+: literal k.start ++ utf8Encode text := by
    intro hin
    rw [literal, literal, ← utf8Encode_append] at hin
    exact Markup.notInfix hallows
      (@infix_of_utf8Encode _ _ [] hne hascii (by simp) (by simpa using hin))
  rw [← List.append_assoc] at h ⊢
  rw [hstop] at h hnot ⊢
  exact advancePast_eq hc hnot h

/-- What the reader looks for behind white space in the prologue. -/
def Markup.look : Markup → List U8
  | .xml => literal "<?"
  | .comment => literal "<!--"
  | .doctype => literal "<!"

theorem Markup.look_prefix (k : Markup) : k.look <+: literal k.start := by
  cases k <;> decide

theorem skipPrologue_apply {fuel i j : ℕ} (hskip : skip s i = j) (hj : j ≤ s.length) :
    skipPrologue s (fuel + 1) i =
      if HoldsAt s j Markup.xml.look then
        (advancePast s (literal Markup.xml.stop) >>= fun _ => skipPrologue s fuel) j
      else if HoldsAt s j Markup.comment.look then
        (advancePast s (literal Markup.comment.stop) >>= fun _ => skipPrologue s fuel) j
      else if HoldsAt s j Markup.doctype.look then
        (advancePast s (literal Markup.doctype.stop) >>= fun _ => skipPrologue s fuel) j
      else .ok () j := by
  simp only [skipPrologue, skipWs_bind, hskip, startsWith_ite_apply hj]
  rfl

theorem Markup.opening (k : Markup) (l : List U8) : Opening (literal k.start ++ l) := by
  cases k with
  | xml => exact ⟨0x3f, literal "xml" ++ l, rfl, by decide⟩
  | comment => exact ⟨0x21, literal "--" ++ l, rfl, by decide⟩
  | doctype => exact ⟨0x21, literal "DOCTYPE" ++ l, rfl, by decide⟩

/-- Markup is told by its first letters. -/
theorem skipPrologue_markup {k : Markup} {l : List U8} {fuel i j : ℕ} (hskip : skip s i = j)
    (hj : j ≤ s.length) (h : HoldsAt s j (literal k.start ++ l)) :
    skipPrologue s (fuel + 1) i =
      (advancePast s (literal k.stop) >>= fun _ => skipPrologue s fuel) j := by
  have hlook : HoldsAt s j k.look := k.look_prefix.trans (holdsAt_append.1 h).1
  rw [skipPrologue_apply hskip hj]
  cases k with
  | xml => rw [if_pos hlook]
  | comment =>
    rw [if_neg (not_holdsAt h (by decide) (by decide)), if_pos hlook]
  | doctype =>
    rw [if_neg (not_holdsAt h (by decide) (by decide)),
      if_neg (not_holdsAt h (by decide) (by decide)), if_pos hlook]

/-- A round of the loop over the prologue passes one piece of markup. -/
theorem skipPrologue_step {k : Markup} {text : List Char} {w l : List U8} {i : ℕ} (hw : Blank w)
    (hallows : k.Allows text) (hat : HoldsAt s i (markupBytes (w, k, text) ++ l)) (fuel : ℕ) :
    skipPrologue s (fuel + 1) i =
      skipPrologue s fuel (i + (markupBytes (w, k, text)).length) := by
  unfold markupBytes at hat ⊢
  rw [List.append_assoc] at hat
  obtain ⟨hskip, hel, -, hend, -⟩ := skip_element hw (k.opening _) hat
  rw [skipPrologue_markup hskip (by omega) hel, Prog.bind_apply, advancePast_markup hallows hel,
    Nat.add_assoc, ← List.length_append]

/-- The prologue is passed, and the white space behind it. -/
theorem skipPrologue_eq {w l : List U8} (hw : Blank w) : ∀ {fuel : ℕ}
    {prologue : List (List U8 × Markup × List Char)} {i : ℕ},
    (∀ e ∈ prologue, Blank e.1 ∧ e.2.1.Allows e.2.2) →
    HoldsAt s i (prologue.flatMap markupBytes ++ (w ++ (literal "<plist" ++ l))) →
    s.length - i < fuel →
    skipPrologue s fuel i = .ok () (i + (prologue.flatMap markupBytes ++ w).length)
  | 0, _, _, _, _, hfuel => absurd hfuel (Nat.not_lt_zero _)
  | fuel + 1, [], i, _, hat, _ => by
    have hplist : Opening (literal "<plist") := ⟨0x70, literal "list", rfl, by decide⟩
    obtain ⟨hskip, hel, -, hend, -⟩ := skip_element hw hplist hat
    rw [← List.append_nil (literal "<plist")] at hel
    rw [skipPrologue_apply hskip (by omega),
      if_neg (not_holdsAt hel (by decide) (by decide)),
      if_neg (not_holdsAt hel (by decide) (by decide)),
      if_neg (not_holdsAt hel (by decide) (by decide))]
    rfl
  | fuel + 1, (w₁, k, text) :: prologue, i, hprologue, hat, hfuel => by
    obtain ⟨⟨hw₁, hallows⟩, hrest⟩ := List.forall_mem_cons.1 hprologue
    rw [List.flatMap_cons, List.append_assoc] at hat
    obtain ⟨hmarkup, hat'⟩ := holdsAt_append.1 hat
    have hpos : 0 < (markupBytes (w₁, k, text)).length := by
      obtain ⟨b, m, hm, -⟩ := k.opening (utf8Encode text ++ literal k.stop)
      rw [markupBytes, hm]
      simp
    have hend := hmarkup.add_length_le hpos
    rw [skipPrologue_step hw₁ hallows hat, skipPrologue_eq hw hrest hat' (by omega),
      List.flatMap_cons]
    simp [Nat.add_assoc]

/-- The opening tag of the property list, with its attributes. -/
theorem expectOpen_eq {attrs l : List U8} {i : ℕ} (hattrs : 0x3e ∉ attrs)
    (hat : HoldsAt s i (literal "<plist" ++ (attrs ++ (literal ">" ++ l)))) :
    expectOpen s "plist" i =
      .ok () (i + (literal "<plist" ++ (attrs ++ literal ">")).length) := by
  have hskip : skip s i = i := skip_eq (w := []) (by simp [Blank]) not_isAsciiWhitespace_lt hat
  rw [← List.append_assoc, ← List.append_assoc] at hat
  have htag := (holdsAt_append.1 hat).1
  have hpos : 0 < (literal ">").length := by decide
  have hend := htag.add_length_le (by rw [List.length_append]; omega)
  have hmem : (0x3e : U8) ∉ literal "<plist" ++ attrs := by
    rw [List.mem_append, not_or]
    exact ⟨by decide, hattrs⟩
  have hnot : ¬[] ++ [0x3e] <:+: literal "<plist" ++ attrs :=
    fun hin => hmem (hin.subset List.mem_cons_self)
  have hpast := advancePast_eq List.not_mem_nil hnot htag
  have hopen : HoldsAt s i (literal ("<" ++ "plist")) :=
    (holdsAt_append.1 (holdsAt_append.1 htag).1).1
  rw [expectOpen, skipWs_bind, hskip, startsWith_ite_apply (by omega), if_pos hopen,
    ← List.append_assoc]
  exact hpast

/-- The reader finds the property list behind the prologue. -/
theorem document_eq {v : PlistValue} {prologue : List (List U8 × Markup × List Char)}
    {w w₁ t l : List U8} {attrs : List Char} {fuel : ℕ}
    (hprologue : ∀ e ∈ prologue, Blank e.1 ∧ e.2.1.Allows e.2.2) (hw : Blank w)
    (hattrs : '>' ∉ attrs) (hw₁ : Blank w₁) (ht : Prints v t) (hproper : v.Proper)
    (hat : HoldsAt s 0 (prologue.flatMap markupBytes ++
      (w ++ (literal "<plist" ++ (utf8Encode attrs ++ (literal ">" ++ (w₁ ++ (t ++ l))))))))
    (hfuel : s.length < fuel) : ∃ i, document s fuel 0 = .ok v i := by
  have hskip := skipPrologue_eq hw hprologue hat (by omega : s.length - 0 < fuel)
  rw [← List.append_assoc] at hat
  have hplist := (holdsAt_append.1 hat).2
  have hopen := expectOpen_eq
    (fun hmem => hattrs (mem_of_mem_utf8Encode (n := 0x3e) (by omega) hmem)) hplist
  rw [← List.append_assoc, ← List.append_assoc] at hplist
  have hval := (holdsAt_append.1 hplist).2
  rw [← List.append_assoc] at hval
  have hread := (ht.reads hproper (by omega : s.length - 0 < fuel)).2 _ w₁ (Nat.zero_le _) hw₁
    (holdsAt_append.1 hval).1
  rw [List.append_assoc] at hread
  rw [document, Prog.bind_apply, hskip]
  simp only
  rw [Prog.bind_apply, hopen]
  exact ⟨_, hread⟩

theorem Document.document_eq {v : PlistValue} {bytes : List U8} (h : Document v bytes)
    (hproper : v.Proper) (hat : HoldsAt s 0 bytes) {fuel : ℕ} (hfuel : s.length < fuel) :
    ∃ i, document s fuel 0 = .ok v i := by
  cases h with
  | mk hprologue hw hattrs hw₁ hw₂ hw₃ ht =>
    simp only [plistBytes, List.append_assoc] at hat
    exact Xml.document_eq hprologue hw hattrs hw₁ ht hproper hat hfuel

end Reading

/-! ## Detection -/

/-- The bytes of some text. -/
def IsText (l : List U8) : Prop :=
  ∃ cs, l = utf8Encode cs

theorem IsText.append {l l' : List U8} (h : IsText l) (h' : IsText l') : IsText (l ++ l') := by
  obtain ⟨cs, rfl⟩ := h
  obtain ⟨cs', rfl⟩ := h'
  exact ⟨cs ++ cs', (utf8Encode_append cs cs').symm⟩

theorem isText_flatMap {α : Type} {f : α → List U8} :
    ∀ {l : List α}, (∀ a ∈ l, IsText (f a)) → IsText (l.flatMap f)
  | [], _ => ⟨[], rfl⟩
  | a :: l, h => by
    rw [List.flatMap_cons]
    exact (h a List.mem_cons_self).append
      (isText_flatMap fun b hb => h b (List.mem_cons_of_mem a hb))

theorem isText_literal (text : String) : IsText (literal text) :=
  ⟨text.toList, rfl⟩

theorem isText_utf8Encode (cs : List Char) : IsText (utf8Encode cs) :=
  ⟨cs, rfl⟩

theorem Blank.isText : ∀ {w : List U8}, Blank w → IsText w
  | [], _ => ⟨[], rfl⟩
  | b :: w, h => by
    obtain ⟨hb, hw⟩ := List.forall_mem_cons.1 h
    have hbyte : IsText [b] := by
      simp only [isAsciiWhitespace, Bool.or_eq_true, decide_eq_true_eq] at hb
      rcases hb with (((rfl | rfl) | rfl) | rfl) | rfl
      · exact ⟨[' '], rfl⟩
      · exact ⟨['\t'], rfl⟩
      · exact ⟨['\n'], rfl⟩
      · exact ⟨[Char.ofNat 12], rfl⟩
      · exact ⟨['\r'], rfl⟩
    exact hbyte.append (Blank.isText hw)

theorem isText_element (name : String) (cs : List Char) : IsText (element name cs) :=
  (isText_literal _).append ((isText_utf8Encode cs).append (isText_literal _))

theorem Prints.isText {v : PlistValue} {t : List U8} (h : Prints v t) : IsText t := by
  induction h with
  | true => exact isText_literal _
  | false => exact isText_literal _
  | integer i => exact isText_element _ _
  | string text => exact isText_element _ _
  | @array items parts w hlen hblank _ hw ih =>
    refine (isText_literal _).append (IsText.append ?_ (hw.isText.append (isText_literal _)))
    refine isText_flatMap fun e he => (hblank e he).isText.append ?_
    rw [← List.map_fst_zip hlen.le] at he
    obtain ⟨e', he', rfl⟩ := List.mem_map.1 he
    exact ih e' he'
  | @dict entries written parts w hperm hlen hblank _ hw ih =>
    refine (isText_literal _).append (IsText.append ?_ (hw.isText.append (isText_literal _)))
    refine isText_flatMap fun e he => ?_
    obtain ⟨hw₁, hw₂⟩ := hblank e.1 (List.of_mem_zip he).1
    exact hw₁.isText.append ((isText_element _ _).append (hw₂.isText.append (ih e he)))

theorem Document.isText {v : PlistValue} {bytes : List U8} (h : Document v bytes) :
    IsText bytes := by
  cases h with
  | mk hprologue hw hattrs hw₁ hw₂ hw₃ ht =>
    refine IsText.append (isText_flatMap fun e he => ?_) (hw.isText.append
      (IsText.append ?_ hw₃.isText))
    · exact (hprologue e he).1.isText.append ((isText_literal _).append
        ((isText_utf8Encode _).append (isText_literal _)))
    · exact (isText_literal _).append ((isText_utf8Encode _).append ((isText_literal _).append
        (hw₁.isText.append (ht.isText.append (hw₂.isText.append (isText_literal _))))))

/-- What does not begin as a binary property list does. -/
def Textual (l : List U8) : Prop :=
  ∃ b m, l = b :: m ∧ b ≠ 0x62

theorem Opening.textual {l : List U8} (h : Opening l) : Textual l := by
  obtain ⟨b, m, rfl, -⟩ := h
  exact ⟨0x3c, b :: m, rfl, by decide⟩

theorem Blank.textual {w l : List U8} (hw : Blank w) (hl : Textual l) : Textual (w ++ l) := by
  cases w with
  | nil => exact hl
  | cons b w =>
    refine ⟨b, w ++ l, rfl, ?_⟩
    rintro rfl
    exact absurd (hw 0x62 List.mem_cons_self) (by decide)

theorem Document.textual {v : PlistValue} {bytes : List U8} (h : Document v bytes) :
    Textual bytes := by
  cases h with
  | @mk prologue w w₁ w₂ w₃ t attrs hprologue hw hattrs hw₁ hw₂ hw₃ ht =>
    cases prologue with
    | nil =>
      have hplist : Opening (plistBytes attrs w₁ t w₂ ++ w₃) := ⟨0x70, _, rfl, by decide⟩
      exact hw.textual hplist.textual
    | cons e prologue =>
      rw [List.flatMap_cons, List.append_assoc, markupBytes, List.append_assoc, List.append_assoc]
      exact (hprologue e List.mem_cons_self).1.textual (e.2.1.opening _).textual

/-- A document shows in its first bytes that it is one. -/
def Detectable (bytes : List U8) : Prop :=
  literal "<plist" <:+: bytes.take 256 ∨ literal "<?xml" <:+: bytes.take 256

theorem looksLikeXml_of_detectable {bytes : List U8} (htext : IsText bytes)
    (h : Detectable bytes) : Plist.looksLikeXml bytes = true := by
  obtain ⟨cs, rfl⟩ := htext
  unfold Plist.looksLikeXml
  rw [Bool.or_eq_true]
  refine h.imp (fun h => isSome_find ?_) (fun h => isSome_find ?_)
  · exact infix_utf8Chars_take (by decide) (by simp) h
  · exact infix_utf8Chars_take (by decide) (by simp) h

theorem Textual.not_magic {bytes : List U8} (h : Textual bytes) :
    ¬bplistMagic.isPrefixOf bytes = true := by
  obtain ⟨b, m, rfl, hb⟩ := h
  rw [List.isPrefixOf_iff_prefix, bplistMagic, List.cons_prefix_cons]
  exact fun hbegin => hb hbegin.1.symm

/-- What the reader finds in a text is the result of parsing it. -/
theorem parse_of_document {v : PlistValue} {bytes : List U8} {i : ℕ} (htext : IsText bytes)
    (h : document bytes (bytes.length + 1) 0 = .ok v i) : Xml.parse bytes () = .ok v () := by
  obtain ⟨cs, hcs⟩ := htext
  have hutf8 : fromUtf8 bytes = some cs := by rw [hcs, fromUtf8_encode]
  rw [Xml.parse, hutf8]
  simp only [Prog.within, h]

/-- Parsing a printed property list gives the value that was printed. -/
theorem Document.parse_printed (p : Profile) {v : PlistValue} {bytes : List U8}
    (hproper : v.Proper) (h : Document v bytes) (hdetect : Detectable bytes) :
    Plist.parse p bytes () = .ok v () := by
  obtain ⟨i, hi⟩ := h.document_eq hproper List.prefix_rfl (Nat.lt_succ_self bytes.length)
  rw [Plist.parse, if_neg h.textual.not_magic,
    if_pos (looksLikeXml_of_detectable h.isText hdetect)]
  exact parse_of_document h.isText hi

/-- A dictionary with an entity in a key. -/
def sampleValue : PlistValue :=
  .dict [("&lt;", .string "<"), ("b", .array [.integer (-3)])]

def samplePrologue : List (List U8 × Markup × List Char) :=
  [([], .xml, []), ([0x0a], .comment, "-".toList), ([], .doctype, " plist".toList)]

def sampleItems : List U8 :=
  openTag "array" ++ ([([0x20], element "integer" (decimal (-3)))].flatMap
    (fun e => e.1 ++ e.2) ++ ([] ++ closeTag "array"))

/-- The entries in the order of the document. -/
def sampleWritten : List (String × PlistValue) :=
  [("b", .array [.integer (-3)]), ("&lt;", .string "<")]

def sampleParts : List (List U8 × List U8 × List U8) :=
  [([0x20], [], sampleItems), ([0x0a], [], element "string" (escape "<".toList))]

/-- A document of `sampleValue`, with a comment of one dash. -/
def sample : List U8 :=
  samplePrologue.flatMap markupBytes ++ ([0x0a] ++ (plistBytes [] [] (openTag "dict" ++
    ((sampleParts.zip sampleWritten).flatMap entryBytes ++ ([] ++ closeTag "dict"))) [] ++ []))

theorem sample_document : Document sampleValue sample := by
  have hitems : Prints (.array [.integer (-3)]) sampleItems :=
    Prints.array rfl (by decide) (by simpa using Prints.integer (-3)) (by decide)
  have hvalue : Prints sampleValue (openTag "dict" ++
      ((sampleParts.zip sampleWritten).flatMap entryBytes ++ ([] ++ closeTag "dict"))) :=
    Prints.dict (List.Perm.swap _ _ _) rfl (by decide)
      (by simpa [sampleParts, sampleWritten] using ⟨hitems, Prints.string "<"⟩) (by decide)
  exact Document.mk (by decide) (by decide) (by decide) (by decide) (by decide) (by decide) hvalue

theorem parse_printed_sample : sampleValue.Proper ∧ Document sampleValue sample ∧ Detectable sample ∧
    Plist.parse .release sample () = .ok sampleValue () := by
  have hproper : sampleValue.Proper := by
    have hkeys : "&lt;" < "b" := String.lt_iff_toList_lt.2 (by decide)
    refine ⟨List.pairwise_pair.2 hkeys, trivial, ⟨?_, trivial, trivial⟩, trivial⟩
    simp [PlistValue.valueSize, isizeMax]
  have hdetect : Detectable sample := Or.inr (by decide)
  exact ⟨hproper, sample_document, hdetect, sample_document.parse_printed .release hproper hdetect⟩

end IosEmu.Xml
