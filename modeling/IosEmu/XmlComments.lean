import IosEmu.PlistNesting
import IosEmu.XmlLayout

/-!
# Comments and attributes in a document

`Xml.Layout` is a document with its comments and attributes : the prologue, the tag of the property
list, its element, and what follows, which the reader never sees. Two documents with the same `bare`
layout differ in nothing else.

The documentation of the reader says that it ignores attributes and comments. It passes comments in
the prologue and attributes of the `plist` tag, and these only : in an element it takes neither
(`Node.value_eq_ok_iff`). A comment of the prologue ends too early if its text begins with `>` or
`->`, and the `plist` tag at the first `>` of an attribute. `comments_ignored_iff` puts this
together, with the first bytes that have to show what the document is. Every document that is read
has a layout (`exists_layout`).
-/

open SysLib

namespace IosEmu.Xml

section Reading

variable {s : List U8} {i j k fuel : ℕ}

/-! ## Every element that is read has a layout -/

theorem exists_gap : ∀ {w : List U8}, Blank w → ∃ gap, bareGap gap = gap ∧ gapBytes gap = w
  | [], _ => ⟨[], rfl, rfl⟩
  | b :: w, hw => by
    obtain ⟨hb, hw⟩ := List.forall_mem_cons.1 hw
    obtain ⟨gap, hbare, rfl⟩ := exists_gap hw
    refine ⟨.space b hb :: gap, ?_, rfl⟩
    rw [bareGap_eq_iff] at hbare ⊢
    exact List.forall_mem_cons.2 ⟨rfl, hbare⟩

/-- The white space in front of the cursor. -/
theorem exists_gap_skip (s : List U8) (i : ℕ) : ∃ gap, bareGap gap = gap ∧
    HoldsAt s i (gapBytes gap) ∧ skip s i = i + (gapBytes gap).length := by
  obtain ⟨gap, hbare, hgap⟩ := @exists_gap ((s.drop i).takeWhile isAsciiWhitespace)
    fun b hb => List.mem_takeWhile_imp hb
  refine ⟨gap, hbare, ?_, by rw [hgap]; rfl⟩
  rw [hgap]
  exact List.takeWhile_prefix _

theorem exists_raw {name : String} {t : List Char} (hat : HoldsAt s j (openTag name))
    (hpos : 0 < (openTag name).length) (h : textElement s name j = .ok t k) :
    ∃ raw : Raw name, HoldsAt s j (textBytes [] raw) := by
  have hend := hat.add_length_le hpos
  rw [textElement, advance_bind, Prog.bind_apply, rest_apply hend] at h
  simp only at h
  cases hfind : find (closeTag name) (s.drop (j + (openTag name).length)) with
  | none =>
    rw [hfind] at h
    cases h
  | some stop =>
    refine ⟨⟨_, not_infix_of_find (by rw [closeTag_eq]; simp) hfind⟩, ?_⟩
    rw [textBytes, opened_nil]
    refine holdsAt_append.2 ⟨hat, ?_⟩
    obtain ⟨tail, htail⟩ := drop_of_find hfind
    refine ⟨tail, ?_⟩
    rw [List.append_assoc, htail, List.take_append_drop]

section Children

variable {m : ℕ} {i₀ : ℕ} (hchild : ∀ {i k : ℕ} {v : PlistValue}, i₀ ≤ i → i ≤ s.length →
  value s m i = .ok v k → ∃ gap node, bareGap gap = gap ∧ Node.bare node = node ∧
    HoldsAt s i (gapBytes gap ++ node.bytes))

include hchild

theorem exists_items : ∀ {n i k : ℕ} {out vs : List PlistValue}, i₀ ≤ i → i ≤ s.length →
    s.length - i < m → arrayItems s (value s m) n out i = .ok vs k →
    ∃ items : Items, items.bare = items ∧ HoldsAt s i items.bytes
  | 0, _, _, _, _, _, _, _, h => nomatch h
  | n + 1, i, k, out, vs, h₀, hi, hm, h => by
    rw [arrayItems_apply hi] at h
    split_ifs at h with hclose
    · obtain ⟨gap, hbare, hgap, hskip⟩ := exists_gap_skip s i
      rw [hskip] at hclose
      exact ⟨.close gap, by rw [Items.bare, hbare], holdsAt_append.2 ⟨hgap, hclose⟩⟩
    · rw [Prog.bind_apply, value_skip hi (by omega), ← Prog.bind_apply, Prog.bind_eq_ok] at h
      obtain ⟨v, j, hv, hloop⟩ := h
      obtain ⟨gap, node, hgap, hbare, hat⟩ := hchild h₀ hi hv
      obtain ⟨-, -, rfl⟩ := (node.value_eq_ok_iff hat hm).1 hv
      have hlen := node.opening.length_pos
      have hend := hat.add_length_le (by rw [List.length_append]; omega)
      obtain ⟨items, hitems, hrest⟩ := exists_items (by omega) hend (by omega) hloop
      refine ⟨.item gap node items, by rw [Items.bare, hgap, hbare, hitems], ?_⟩
      rw [Items.bytes, ← List.append_assoc]
      exact holdsAt_append.2 ⟨hat, hrest⟩

theorem exists_entries : ∀ {n i k : ℕ} {map map' : List (String × PlistValue)}, i₀ ≤ i →
    i ≤ s.length → s.length - i < m → dictEntries s (value s m) n map i = .ok map' k →
    ∃ entries : Entries, entries.bare = entries ∧ HoldsAt s i entries.bytes
  | 0, _, _, _, _, _, _, _, h => nomatch h
  | n + 1, i, k, map, map', h₀, hi, hm, h => by
    obtain ⟨gap, hgap, hspace, hskip⟩ := exists_gap_skip s i
    rw [dictEntries_apply hi] at h
    split_ifs at h with hclose hkey
    · rw [hskip] at hclose
      exact ⟨.close gap, by rw [Entries.bare, hgap], holdsAt_append.2 ⟨hspace, hclose⟩⟩
    · rw [hskip] at hkey h
      obtain ⟨t, j, htext, h⟩ := Prog.bind_eq_ok.1 h
      obtain ⟨v, j', hv, hloop⟩ := Prog.bind_eq_ok.1 h
      obtain ⟨key, hraw⟩ := exists_raw hkey (by decide) htext
      rw [textElement_raw (by decide) hraw] at htext
      obtain ⟨-, rfl⟩ := Outcome.ok.inj htext
      have hpos : 0 < (textBytes [] key).length := by
        rw [textBytes, opened_nil, List.length_append]
        exact Nat.add_pos_left (by decide) _
      have hj := hraw.add_length_le hpos
      obtain ⟨gap', node, hgap', hbare, hat⟩ := hchild (by omega) hj hv
      obtain ⟨-, -, rfl⟩ := (node.value_eq_ok_iff hat (by omega)).1 hv
      have hlen := node.opening.length_pos
      have hend := hat.add_length_le (by rw [List.length_append]; omega)
      obtain ⟨entries, hentries, hrest⟩ := exists_entries (by omega) hend (by omega) hloop
      refine ⟨.entry gap [] key gap' node entries,
        by rw [Entries.bare, hgap, hgap', hbare, hentries], ?_⟩
      rw [Entries.bytes, ← List.append_assoc (gapBytes gap')]
      exact holdsAt_append.2 ⟨hspace, holdsAt_append.2 ⟨hraw, holdsAt_append.2 ⟨hat, hrest⟩⟩⟩

end Children

theorem exists_node : ∀ {fuel i k : ℕ} {v : PlistValue}, i ≤ s.length → s.length - i < fuel →
    value s fuel i = .ok v k → ∃ gap node, bareGap gap = gap ∧ Node.bare node = node ∧
      HoldsAt s i (gapBytes gap ++ node.bytes)
  | 0, _, _, _, _, hfuel, _ => absurd hfuel (Nat.not_lt_zero _)
  | fuel + 1, i, k, v, hi, hfuel, h => by
    obtain ⟨gap, hgap, hspace, hskip⟩ := exists_gap_skip s i
    have hj := (skip_le hi).2
    -- an element at its tag is one behind the gap
    have hnode : ∀ node : Node, node.bare = node → HoldsAt s (skip s i) node.bytes →
        ∃ gap node, bareGap gap = gap ∧ Node.bare node = node ∧
          HoldsAt s i (gapBytes gap ++ node.bytes) := fun node hbare hat =>
      ⟨gap, node, hgap, hbare, holdsAt_append.2 ⟨hspace, by rwa [← hskip]⟩⟩
    have htext : ∀ kind : TextKind, HoldsAt s (skip s i) kind.tag.bytes →
        ∃ gap node, bareGap gap = gap ∧ Node.bare node = node ∧
          HoldsAt s i (gapBytes gap ++ node.bytes) := by
      intro kind hat
      rw [value_textTag (l := []) rfl hj (by rwa [List.append_nil])] at h
      obtain ⟨t, j, ht, -⟩ := Prog.bind_eq_ok.1 h
      rw [kind.tag_bytes] at hat
      obtain ⟨raw, hraw⟩ := exists_raw hat (by cases kind <;> decide) ht
      exact hnode (.text kind [] raw) rfl hraw
    rw [value_apply rfl hj] at h
    split_ifs at h with hdict harray hstring hinteger hreal htrue hfalse hdata
    · rw [parseDict, advance_bind, Prog.bind_eq_ok] at h
      obtain ⟨map, j, hloop, -⟩ := h
      have htag : HoldsAt s (skip s i) (openTag "dict") := hdict
      have hpos : 0 < (openTag "dict").length := by decide
      have hend := htag.add_length_le hpos
      have hskip := skip_le hi
      obtain ⟨entries, hbare, hentries⟩ := @exists_entries s fuel (i + 1)
        (fun h₀ hi h => exists_node hi (by omega) h) _ _ _ _ _ (by omega) hend (by omega) hloop
      refine hnode (.dict [] entries) (by rw [Node.bare, hbare]) ?_
      rw [Node.bytes, opened_nil]
      exact holdsAt_append.2 ⟨htag, hentries⟩
    · rw [parseArray, advance_bind, Prog.bind_eq_ok] at h
      obtain ⟨vs, j, hloop, -⟩ := h
      have htag : HoldsAt s (skip s i) (openTag "array") := harray
      have hpos : 0 < (openTag "array").length := by decide
      have hend := htag.add_length_le hpos
      have hskip := skip_le hi
      obtain ⟨items, hbare, hitems⟩ := @exists_items s fuel (i + 1)
        (fun h₀ hi h => exists_node hi (by omega) h) _ _ _ _ _ (by omega) hend (by omega) hloop
      refine hnode (.array [] items) (by rw [Node.bare, hbare]) ?_
      rw [Node.bytes, opened_nil]
      exact holdsAt_append.2 ⟨htag, hitems⟩
    · exact htext .string hstring
    · exact htext .integer hinteger
    · exact htext .real hreal
    · exact hnode (.flag true []) rfl htrue
    · exact hnode (.flag false []) rfl hfalse
    · exact htext .data hdata

end Reading

/-! ## The prologue -/

/-- The text of the comment begins as its own end. -/
def Comment.Early (c : Comment) : Prop :=
  [0x3e] <+: c.text ∨ [0x2d, 0x3e] <+: c.text

/-- Markup that the reader passes as a whole, without looking what is in it. -/
structure Mark where
  kind : Markup
  bytes : List U8
  looks : kind.look <+: bytes
  alone : kind = .doctype → ¬Markup.comment.look <+: bytes
  ends : find (literal kind.stop) bytes = some (bytes.length - (literal kind.stop).length)

/-- What may stand before the property list. -/
inductive Part
  | trivia (t : Trivia)
  | mark (m : Mark)

def Part.bytes : Part → List U8
  | .trivia t => t.bytes
  | .mark m => m.bytes

def Part.isBare : Part → Bool
  | .trivia t => t.isSpace
  | .mark _ => true

def partBytes (prologue : List Part) : List U8 :=
  prologue.flatMap Part.bytes

/-- No comment of the prologue ends early. -/
def NoneEarly (prologue : List Part) : Prop :=
  ∀ c, Part.trivia (.comment c) ∈ prologue → ¬c.Early

/-- A comment that ends early has nothing in it that might be read instead. -/
def Harmless (prologue : List Part) : Prop :=
  ∀ c, Part.trivia (.comment c) ∈ prologue → c.Early → 0x3c ∉ c.text

section Reading

variable {s : List U8} {i j k fuel : ℕ}

/-- At the cursor is white space and then something that is no tag. -/
def Stray (s : List U8) (i : ℕ) : Prop :=
  ∃ w b l, Blank w ∧ isAsciiWhitespace b = false ∧ b ≠ 0x3c ∧ HoldsAt s i (w ++ b :: l)

theorem stray_of_text {b : U8} {l : List U8} (hb : isAsciiWhitespace b = false) (hb' : b ≠ 0x3c) :
    ∀ {t w : List U8}, 0x3c ∉ t → Blank w → HoldsAt s i (w ++ (t ++ b :: l)) → Stray s i
  | [], w, _, hw, hat => ⟨w, b, l, hw, hb, hb', hat⟩
  | a :: t, w, ht, hw, hat => by
    rw [List.mem_cons, not_or] at ht
    cases ha : isAsciiWhitespace a with
    | false => exact ⟨w, a, _, hw, ha, Ne.symm ht.1, hat⟩
    | true =>
      have hblank : Blank (w ++ [a]) := by
        intro x hx
        rcases List.mem_append.1 hx with hx | hx
        · exact hw x hx
        · rwa [List.mem_singleton.1 hx]
      exact stray_of_text hb hb' (w := w ++ [a]) ht.2 hblank (by simpa using hat)

theorem Stray.skip (h : Stray s i) : i ≤ s.length ∧ ∃ b l, b ≠ 0x3c ∧
    isAsciiWhitespace b = false ∧ HoldsAt s (skip s i) (b :: l) := by
  obtain ⟨w, b, l, hw, hb, hb', hat⟩ := h
  have hend := hat.add_length_le (by simp)
  rw [skip_eq hw hb hat]
  exact ⟨by omega, b, l, hb', hb, (holdsAt_append.1 hat).2⟩

theorem Stray.skipPrologue (h : Stray s i) :
    ∃ j, skipPrologue s (fuel + 1) i = .ok () j ∧ Stray s j := by
  obtain ⟨hi, b, l, hb', hb, hat⟩ := h.skip
  refine ⟨Xml.skip s i, ?_, [], b, l, by simp [Blank], hb, hb', hat⟩
  rw [skipPrologue_apply rfl (skip_le hi).2,
    if_neg (not_holdsAt_lt hb' (by decide) hat),
    if_neg (not_holdsAt_lt hb' (by decide) hat),
    if_neg (not_holdsAt_lt hb' (by decide) hat)]

theorem Stray.expectOpen (h : Stray s i) : expectOpen s "plist" i ≠ .ok () k := by
  obtain ⟨hi, b, l, hb', -, hat⟩ := h.skip
  rw [Xml.expectOpen, skipWs_bind, startsWith_ite_apply (skip_le hi).2,
    if_neg (not_holdsAt_lt hb' (by decide) hat)]
  intro h
  cases h

theorem Stray.value {v : PlistValue} (h : Stray s i) : value s fuel i ≠ .ok v k := by
  obtain ⟨hi, b, l, hb', -, hat⟩ := h.skip
  exact value_ne_ok (noTag_of_ne hb' hat) hi

/-- The cursor passes what is found in the text at it. -/
theorem advancePast_find {stop bytes : List U8} {pos : ℕ} (hat : HoldsAt s i bytes)
    (hstop : 0 < stop.length) (hfind : find stop bytes = some pos) :
    advancePast s stop i = .ok () (i + (pos + stop.length)) := by
  have hle := find_le hfind
  have hend := hat.add_length_le (by omega)
  obtain ⟨tail, htail⟩ := hat
  rw [advancePast, Prog.bind_apply, rest_apply (by omega), ← htail]
  simp only [find_append_right hfind tail]
  rfl

theorem Mark.find_eq (m : Mark) : ∃ pos, find (literal m.kind.stop) m.bytes = some pos ∧
    pos + (literal m.kind.stop).length = m.bytes.length := by
  have hle := find_le m.ends
  exact ⟨_, m.ends, by omega⟩

theorem Markup.stop_pos (kind : Markup) : 0 < (literal kind.stop).length := by
  cases kind <;> decide

/-- A mark ends like a tag. -/
theorem Mark.mem (m : Mark) : 0x3e ∈ m.bytes := by
  have hmem : 0x3e ∈ literal m.kind.stop := by
    cases m.kind <;> decide
  exact (List.drop_subset _ _) ((drop_of_find m.ends).subset hmem)

theorem Mark.opening (m : Mark) : Opening m.bytes := by
  obtain ⟨tail, htail⟩ := m.looks
  have hlook : Opening m.kind.look := by
    cases m.kind
    · exact ⟨0x3f, [], by decide, by decide⟩
    · exact ⟨0x21, [0x2d, 0x2d], by decide, by decide⟩
    · exact ⟨0x21, [], by decide, by decide⟩
  obtain ⟨b, l, hl, hb⟩ := hlook
  exact ⟨b, l ++ tail, by rw [← htail, hl]; rfl, hb⟩

/-- A mark is passed as a whole. -/
theorem Mark.skipPrologue (m : Mark) (hat : HoldsAt s i m.bytes) (fuel : ℕ) :
    skipPrologue s (fuel + 1) i = skipPrologue s fuel (i + m.bytes.length) := by
  obtain ⟨b, l, hl, -⟩ := m.opening
  have hskip : skip s i = i := by
    rw [hl] at hat
    exact skip_eq (w := []) (by simp [Blank]) not_isAsciiWhitespace_lt hat
  have hlen := m.opening.length_pos
  have hend := hat.add_length_le hlen
  obtain ⟨pos, hfind, hpos⟩ := m.find_eq
  have hpast := advancePast_find hat m.kind.stop_pos hfind
  rw [hpos] at hpast
  have hlook : HoldsAt s i (m.kind.look ++ []) := by
    rw [List.append_nil]
    exact m.looks.trans hat
  rw [skipPrologue_apply hskip (by omega)]
  -- the reader tries the kinds of markup one after the other
  cases hkind : m.kind with
  | xml =>
    rw [hkind] at hlook hpast
    rw [if_pos (holdsAt_append.1 hlook).1, Prog.bind_apply, hpast]
  | comment =>
    rw [hkind] at hlook hpast
    rw [if_neg (not_holdsAt hlook (by decide) (by decide)),
      if_pos (holdsAt_append.1 hlook).1, Prog.bind_apply, hpast]
  | doctype =>
    rw [hkind] at hlook hpast
    have hcomment : ¬HoldsAt s i Markup.comment.look := by
      intro hcomment
      rcases List.prefix_or_prefix_of_prefix hcomment hat with h | h
      · exact m.alone hkind h
      · exact absurd (h.subset m.mem) (by decide)
    rw [if_neg (not_holdsAt hlook (by decide) (by decide)), if_neg hcomment,
      if_pos (holdsAt_append.1 hlook).1, Prog.bind_apply, hpast]

theorem literal_comment : literal "<!--" = [0x3c, 0x21, 0x2d, 0x2d] ∧
    literal "-->" = [0x2d, 0x2d] ++ [0x3e] := by
  decide

/-- A comment that does not end early ends where it should. -/
theorem Comment.find_eq {c : Comment} (h : ¬c.Early) :
    find (literal "-->") c.bytes = some (c.bytes.length - (literal "-->").length) := by
  have hclosed := c.closed
  rw [Comment.Early, not_or] at h
  rw [literal_comment.2] at hclosed
  have hnot : ¬[0x2d, 0x2d] ++ [0x3e] <:+: literal "<!--" ++ c.text := by
    rw [literal_comment.1]
    change ¬[0x2d, 0x2d, 0x3e] <:+: 0x3c :: 0x21 :: 0x2d :: 0x2d :: c.text
    simp only [List.infix_cons_iff, List.cons_prefix_cons]
    simpa using ⟨h.1, h.2, hclosed⟩
  have hfind := find_append_of_last (by decide) [] hnot
  rw [List.append_nil, ← literal_comment.2, List.append_assoc] at hfind
  rw [Comment.bytes, hfind, List.length_append, List.length_append, List.length_append,
    ← Nat.add_assoc, Nat.add_sub_cancel]

def Comment.mark (c : Comment) (h : ¬c.Early) : Mark where
  kind := .comment
  bytes := c.bytes
  looks := List.prefix_append _ _
  alone := nofun
  ends := c.find_eq h

/-- What the reader takes for a comment that ends early. -/
def shortMark (dash : Bool) : Mark where
  kind := .comment
  bytes := if dash then literal "<!--->" else literal "<!-->"
  looks := by cases dash <;> decide
  alone := nofun
  ends := by cases dash <;> decide

theorem Comment.Early.split {c : Comment} (h : c.Early) :
    ∃ dash t, c.text = (if dash then [0x2d, 0x3e] else [0x3e]) ++ t ∧
      c.bytes = (shortMark dash).bytes ++ (t ++ literal "-->") := by
  have hshort : (shortMark false).bytes = literal "<!--" ++ [0x3e] ∧
      (shortMark true).bytes = literal "<!--" ++ [0x2d, 0x3e] := by
    decide
  rcases h with ⟨t, ht⟩ | ⟨t, ht⟩
  · refine ⟨false, t, ht.symm, ?_⟩
    rw [Comment.bytes, ← ht, hshort.1, List.append_assoc, List.append_assoc]
  · refine ⟨true, t, ht.symm, ?_⟩
    rw [Comment.bytes, ← ht, hshort.2, List.append_assoc, List.append_assoc]

/-- The reader goes on in a comment that ends early, and stops there. -/
theorem Comment.Early.skipPrologue {c : Comment} (h : c.Early) (hharmless : 0x3c ∉ c.text)
    (hat : HoldsAt s i c.bytes) :
    ∃ j, skipPrologue s (fuel + 2) i = .ok () j ∧ Stray s j := by
  obtain ⟨dash, t, htext, hbytes⟩ := h.split
  rw [hbytes] at hat
  obtain ⟨hmark, hrest⟩ := holdsAt_append.1 hat
  rw [htext, List.mem_append, not_or] at hharmless
  rw [(shortMark dash).skipPrologue hmark]
  have hstray : Stray s (i + (shortMark dash).bytes.length) :=
    stray_of_text (b := 0x2d) (l := [0x2d, 0x3e]) (w := []) (by decide) (by decide) hharmless.2
      (by simp [Blank]) hrest
  exact hstray.skipPrologue

/-! ## What the reader makes of a prologue -/

theorem skip_space {b : U8} {l : List U8} (hb : isAsciiWhitespace b = true)
    (hat : HoldsAt s i (b :: l)) : skip s (i + 1) = skip s i := by
  obtain ⟨tail, htail⟩ := hat
  have hnext : s.drop (i + 1) = l ++ tail := by
    rw [← List.drop_drop, ← htail]
    rfl
  rw [skip, skip, ← htail, hnext, List.cons_append, List.takeWhile_cons, if_pos hb,
    List.length_cons]
  omega

/-- White space in front of the prologue changes nothing. -/
theorem skipPrologue_space {b : U8} {l : List U8} (hb : isAsciiWhitespace b = true)
    (hat : HoldsAt s i (b :: l)) (hfuel : s.length - i < fuel) :
    skipPrologue s fuel (i + 1) = skipPrologue s fuel i := by
  obtain ⟨fuel, rfl⟩ := Nat.exists_eq_add_one_of_ne_zero (Nat.ne_of_gt (Nat.zero_lt_of_lt hfuel))
  have hend := hat.add_length_le (by simp)
  rw [List.length_cons] at hend
  have hskip := skip_le (show i ≤ s.length by omega)
  rw [skipPrologue_apply (skip_space hb hat) hskip.2, skipPrologue_apply rfl hskip.2]

/-- A mark is passed, and its bound is no bound. -/
theorem Mark.skipPrologue_of_lt (m : Mark) (hat : HoldsAt s i m.bytes)
    (hfuel : s.length - i < fuel) :
    Xml.skipPrologue s fuel (i + m.bytes.length) = Xml.skipPrologue s fuel i := by
  obtain ⟨fuel, rfl⟩ := Nat.exists_eq_add_one_of_ne_zero (Nat.ne_of_gt (Nat.zero_lt_of_lt hfuel))
  have hlen := m.opening.length_pos
  have hend := hat.add_length_le hlen
  rw [m.skipPrologue hat]
  exact skipPrologue_fuel hend (by omega) (by omega)

theorem partBytes_cons (q : Part) (prologue : List Part) :
    partBytes (q :: prologue) = q.bytes ++ partBytes prologue :=
  rfl

theorem NoneEarly.cons {q : Part} {prologue : List Part}
    (hq : ∀ c, q = .trivia (.comment c) → ¬c.Early) :
    NoneEarly (q :: prologue) ↔ NoneEarly prologue := by
  constructor
  · exact fun h c hc => h c (List.mem_cons_of_mem _ hc)
  · intro h c hc
    rcases List.mem_cons.1 hc with hc | hc
    · exact hq c hc.symm
    · exact h c hc

/-- The prologue is passed if none of its comments ends early, and otherwise the reader stops in
the first that does. -/
theorem skipPrologue_parts {l : List U8} : ∀ {prologue : List Part} {i fuel : ℕ},
    Harmless prologue → HoldsAt s i (partBytes prologue ++ (literal "<plist" ++ l)) →
    s.length - i < fuel →
    NoneEarly prologue ∧ skipPrologue s fuel i = .ok () (i + (partBytes prologue).length) ∨
      ¬NoneEarly prologue ∧ ∃ j, skipPrologue s fuel i = .ok () j ∧ Stray s j
  | [], i, fuel, _, hat, hfuel => by
    refine Or.inl ⟨fun _ hc => absurd hc List.not_mem_nil, ?_⟩
    exact @skipPrologue_eq s [] l (by simp [Blank]) fuel [] i (by simp) hat hfuel
  | q :: prologue, i, fuel, hharmless, hat, hfuel => by
    have hrestharmless : Harmless prologue := fun c hc => hharmless c (List.mem_cons_of_mem _ hc)
    rw [partBytes_cons, List.append_assoc] at hat
    obtain ⟨hq, hrest⟩ := holdsAt_append.1 hat
    have ih := @skipPrologue_parts l prologue (i + q.bytes.length) fuel hrestharmless hrest
    have hlen : i + (partBytes (q :: prologue)).length =
        i + q.bytes.length + (partBytes prologue).length := by
      rw [partBytes_cons, List.length_append, Nat.add_assoc]
    rw [hlen]
    cases q with
    | trivia t =>
      cases t with
      | space b hb =>
        rw [← skipPrologue_space hb hq hfuel, NoneEarly.cons (fun _ h => by cases h)]
        exact ih (by omega)
      | comment c =>
        by_cases hc : c.Early
        · have hlong : 7 ≤ c.bytes.length := by
            rw [Comment.bytes, literal_comment.1, literal_comment.2]
            simp
          have hend := hq.add_length_le (l := c.bytes) (by omega)
          have hmem : Part.trivia (.comment c) ∈ Part.trivia (.comment c) :: prologue :=
            List.mem_cons_self
          obtain ⟨fuel, rfl⟩ : ∃ n, fuel = n + 2 := ⟨fuel - 2, by omega⟩
          exact Or.inr ⟨fun h => h c hmem hc, hc.skipPrologue (hharmless c hmem hc) hq⟩
        · rw [← (c.mark hc).skipPrologue_of_lt hq hfuel,
            NoneEarly.cons (fun c' h => by cases h; exact hc)]
          exact ih (by omega)
    | mark m =>
      rw [← m.skipPrologue_of_lt hq hfuel, NoneEarly.cons (fun _ h => by cases h)]
      exact ih (by omega)

end Reading

/-! ## The tag of the property list -/

/-- An attribute up to its text. -/
def Attribute.head (a : Attribute) : List U8 :=
  a.space ++ (a.name ++ (a.left ++ ([0x3d] ++ (a.right ++ [a.quote]))))

theorem Attribute.bytes_eq (a : Attribute) : a.bytes = a.head ++ (a.text ++ [a.quote]) := by
  simp [Attribute.bytes, Attribute.head]

theorem Attribute.quote_ne (a : Attribute) :
    isAsciiWhitespace a.quote = false ∧ a.quote ≠ 0x3c ∧ a.quote ≠ 0x3e := by
  rcases a.quoted with h | h <;> rw [h] <;> decide

theorem Blank.notMem {w : List U8} (hw : Blank w) : 0x3e ∉ w :=
  fun h => absurd (hw _ h) (by decide)

theorem Attribute.notMem_head (a : Attribute) : 0x3e ∉ a.head := by
  have hname : 0x3e ∉ a.name := fun h => absurd (a.named.2 _ h) (by decide)
  simp only [Attribute.head, List.mem_append, List.mem_singleton, not_or]
  exact ⟨a.blank.1.notMem, hname, a.blank.2.1.notMem, by decide, a.blank.2.2.notMem,
    Ne.symm a.quote_ne.2.2⟩

theorem attrBytes_eq_cons (a : Attribute) (attrs : List Attribute) :
    attrBytes (a :: attrs) = a.head ++ (a.text ++ (a.quote :: attrBytes attrs)) := by
  rw [attrBytes, List.flatMap_cons, a.bytes_eq, List.append_assoc, List.append_assoc]
  rfl

theorem notMem_attrBytes : ∀ {attrs : List Attribute}, (∀ a ∈ attrs, 0x3e ∉ a.text) →
    0x3e ∉ attrBytes attrs
  | [], _ => List.not_mem_nil
  | a :: attrs, h => by
    obtain ⟨ha, hattrs⟩ := List.forall_mem_cons.1 h
    simp only [attrBytes_eq_cons, List.mem_append, List.mem_cons, not_or]
    exact ⟨a.notMem_head, ha, Ne.symm a.quote_ne.2.2, notMem_attrBytes hattrs⟩

/-- Behind the first `>` of the attributes the text of one of them goes on, up to its quote. -/
theorem attrBytes_split : ∀ {attrs : List Attribute}, (¬∀ a ∈ attrs, 0x3e ∉ a.text) →
    ∃ u t q r, attrBytes attrs = u ++ (0x3e :: (t ++ q :: r)) ∧ 0x3e ∉ u ∧ 0x3c ∉ t ∧
      isAsciiWhitespace q = false ∧ q ≠ 0x3c
  | [], h => absurd (fun _ ha => absurd ha List.not_mem_nil) h
  | a :: attrs, h => by
    by_cases ha : 0x3e ∈ a.text
    · obtain ⟨u, t, htext, hu⟩ := List.eq_append_cons_of_mem ha
      have ht : 0x3c ∉ t := fun hmem => a.inside.1 (by
        rw [htext]
        exact List.mem_append_right _ (List.mem_cons_of_mem _ hmem))
      refine ⟨a.head ++ u, t, a.quote, attrBytes attrs, ?_, ?_, ht, a.quote_ne.1, a.quote_ne.2.1⟩
      · rw [attrBytes_eq_cons, htext]
        simp
      · rw [List.mem_append, not_or]
        exact ⟨a.notMem_head, hu⟩
    · have hattrs : ¬∀ a ∈ attrs, 0x3e ∉ a.text :=
        fun hattrs => h (List.forall_mem_cons.2 ⟨ha, hattrs⟩)
      obtain ⟨u, t, q, r, hsplit, hu, ht, hq⟩ := attrBytes_split hattrs
      refine ⟨a.head ++ (a.text ++ (a.quote :: u)), t, q, r, ?_, ?_, ht, hq⟩
      · rw [attrBytes_eq_cons, hsplit]
        simp
      · simp only [List.mem_append, List.mem_cons, not_or]
        exact ⟨a.notMem_head, ha, Ne.symm a.quote_ne.2.2, hu⟩

section Reading

variable {s : List U8} {j fuel : ℕ}

/-- The tag of the property list is passed up to its end if no attribute has a `>`, and up to the
first one otherwise. -/
theorem expectOpen_tag {before after l : List U8} {attrs : List Attribute} (hbefore : 0x3e ∉ before)
    (hafter : 0x3e ∉ after) (hat : HoldsAt s j (literal "<plist" ++ (before ++ (attrBytes attrs ++
      (after ++ (literal ">" ++ l)))))) :
    (∀ a ∈ attrs, 0x3e ∉ a.text) ∧ (∃ k, expectOpen s "plist" j = .ok () k ∧ HoldsAt s k l) ∨
      (¬∀ a ∈ attrs, 0x3e ∉ a.text) ∧ ∃ k, expectOpen s "plist" j = .ok () k ∧ Stray s k := by
  by_cases hattrs : ∀ a ∈ attrs, 0x3e ∉ a.text
  · have hnot : 0x3e ∉ before ++ (attrBytes attrs ++ after) := by
      simp only [List.mem_append, not_or]
      exact ⟨hbefore, notMem_attrBytes hattrs, hafter⟩
    have hat' : HoldsAt s j (literal "<plist" ++ ((before ++ (attrBytes attrs ++ after)) ++
        (literal ">" ++ l))) := by
      simpa only [List.append_assoc] using hat
    refine Or.inl ⟨hattrs, _, expectOpen_eq hnot hat', ?_⟩
    rw [← List.append_assoc (before ++ _), ← List.append_assoc] at hat'
    exact (holdsAt_append.1 hat').2
  · obtain ⟨u, t, q, r, hsplit, hu, ht, hq, hq'⟩ := attrBytes_split hattrs
    have hnot : 0x3e ∉ before ++ u := by
      simp only [List.mem_append, not_or]
      exact ⟨hbefore, hu⟩
    have hgt : literal ">" = [0x3e] := by decide
    have hat' : HoldsAt s j (literal "<plist" ++ ((before ++ u) ++
        (literal ">" ++ (t ++ q :: (r ++ (after ++ (literal ">" ++ l))))))) := by
      rw [hsplit] at hat
      rw [hgt] at hat ⊢
      simpa using hat
    refine Or.inr ⟨hattrs, _, expectOpen_eq hnot hat', ?_⟩
    rw [← List.append_assoc (before ++ _), ← List.append_assoc] at hat'
    exact stray_of_text (w := []) hq hq' ht (by simp [Blank]) (holdsAt_append.1 hat').2

end Reading

/-! ## Documents -/

/-- A document. The tag of the property list has a text of its own before and behind the
attributes. -/
structure Layout where
  prologue : List Part
  before : List U8
  attrs : List Attribute
  after : List U8
  gap : List Trivia
  root : Node
  tail : List U8
  whole : 0x3e ∉ before ∧ 0x3e ∉ after

namespace Layout

def bytes (d : Layout) : List U8 :=
  partBytes d.prologue ++ (literal "<plist" ++ (d.before ++ (attrBytes d.attrs ++
    (d.after ++ (literal ">" ++ (gapBytes d.gap ++ (d.root.bytes ++ d.tail)))))))

/-- The document without comments and attributes, and without what follows its element. -/
def bare (d : Layout) : Layout where
  prologue := d.prologue.filter Part.isBare
  before := d.before ++ d.after
  attrs := []
  after := []
  gap := bareGap d.gap
  root := d.root.bare
  tail := []
  whole := by
    rw [List.mem_append, not_or]
    exact ⟨d.whole, List.not_mem_nil⟩

/-- The comments and attributes are where the reader passes them. -/
structure Ignored (d : Layout) : Prop where
  prologue : NoneEarly d.prologue
  attrs : ∀ a ∈ d.attrs, 0x3e ∉ a.text
  gap : bareGap d.gap = d.gap
  root : d.root.bare = d.root

end Layout

section Reading

variable {s : List U8} {fuel : ℕ}

/-- A document is read for the value of its element exactly if its comments and attributes are
where the reader passes them. -/
theorem Layout.document_eq_ok_iff (d : Layout) (hharmless : Harmless d.prologue) {v : PlistValue}
    (hat : HoldsAt s 0 d.bytes) (hfuel : s.length < fuel) :
    (∃ k, document s fuel 0 = .ok v k) ↔ d.Ignored ∧ v = d.root.value := by
  rcases skipPrologue_parts hharmless hat (by omega : s.length - 0 < fuel) with
    ⟨hearly, hpro⟩ | ⟨hearly, j, hpro, hstray⟩
  · have htag := (holdsAt_append.1 hat).2
    rcases expectOpen_tag d.whole.1 d.whole.2 htag with
      ⟨hattrs, k, hopen, hbody⟩ | ⟨hattrs, k, hopen, hstray⟩
    · rw [← List.append_assoc] at hbody
      have hroot : ∀ k', value s fuel k = .ok v k' ↔ _ := fun k' =>
      d.root.value_eq_ok_iff (holdsAt_append.1 hbody).1 (by omega : s.length - k < fuel)
      rw [document, Prog.bind_apply, hpro]
      simp only [Prog.bind_apply, hopen, hroot]
      constructor
      · rintro ⟨_, ⟨hgap, hbare⟩, hv, -⟩
        exact ⟨⟨hearly, hattrs, hgap, hbare⟩, hv⟩
      · rintro ⟨h, hv⟩
        exact ⟨_, ⟨h.gap, h.root⟩, hv, rfl⟩
    · refine iff_of_false ?_ fun h => hattrs h.1.attrs
      rintro ⟨k', h⟩
      rw [document, Prog.bind_apply, hpro] at h
      simp only [Prog.bind_apply, hopen] at h
      exact hstray.value h
  · refine iff_of_false ?_ fun h => hearly h.1.prologue
    rintro ⟨k', h⟩
    rw [document, Prog.bind_apply, hpro] at h
    obtain ⟨_, k, hopen, -⟩ := Prog.bind_eq_ok.1 h
    exact hstray.expectOpen hopen

/-! ## Every document that is read has a layout -/

variable {i j k : ℕ}

/-- What the reader passes in the prologue is a mark. -/
theorem exists_mark {kind : Markup} {pos : ℕ} (hlook : HoldsAt s j kind.look)
    (halone : kind = .doctype → ¬HoldsAt s j Markup.comment.look)
    (hfind : find (literal kind.stop) (s.drop j) = some pos) :
    ∃ m : Mark, HoldsAt s j m.bytes ∧ m.bytes.length = pos + (literal kind.stop).length := by
  have hle := find_le hfind
  have htake : (s.drop j).take (pos + (literal kind.stop).length) <+: s.drop j :=
    List.take_prefix _ _
  have hlen : ((s.drop j).take (pos + (literal kind.stop).length)).length =
      pos + (literal kind.stop).length := by
    rw [List.length_take]
    omega
  -- the end does not stand where the mark begins
  have hpos : pos ≠ 0 := by
    rintro rfl
    have hstop : literal kind.stop <+: (s.drop j).drop 0 := drop_of_find hfind
    have hlook' : HoldsAt s j (kind.look ++ []) := by rwa [List.append_nil]
    refine not_holdsAt hlook' ?_ ?_ hstop
    · cases kind <;> decide
    · cases kind <;> decide
  have hlook_le : kind.look.length ≤ 1 + (literal kind.stop).length := by
    cases kind <;> decide
  refine ⟨⟨kind, _, List.prefix_of_prefix_length_le hlook htake (by omega),
    fun h hcomment => halone h (hcomment.trans htake), ?_⟩, htake, hlen⟩
  rw [hlen, Nat.add_sub_cancel]
  exact find_take hfind

theorem gap_parts {gap : List Trivia} (hgap : bareGap gap = gap) :
    partBytes (gap.map Part.trivia) = gapBytes gap ∧
      ∀ c, Part.trivia (.comment c) ∉ gap.map Part.trivia := by
  refine ⟨List.flatMap_map _ _ _, fun c hc => ?_⟩
  obtain ⟨t, ht, heq⟩ := List.mem_map.1 hc
  obtain rfl := Part.trivia.inj heq
  cases bareGap_eq_iff.1 hgap _ ht

/-- The prologue of a document is white space and marks. -/
theorem exists_prologue : ∀ {fuel i k : ℕ}, i ≤ s.length → s.length - i < fuel →
    k < s.length → skipPrologue s fuel i = .ok () k →
    ∃ prologue, (∀ c, Part.trivia (.comment c) ∉ prologue) ∧ HoldsAt s i (partBytes prologue) ∧
      k = i + (partBytes prologue).length ∧ skip s k = k
  | 0, _, _, _, hfuel, _, _ => absurd hfuel (Nat.not_lt_zero _)
  | fuel + 1, i, k, hi, hfuel, hk, h => by
    obtain ⟨gap, hgap, hspace, hskip⟩ := exists_gap_skip s i
    obtain ⟨hbytes, hnone⟩ := gap_parts hgap
    have hle := skip_le hi
    have hround : ∀ kind : Markup, HoldsAt s (skip s i) kind.look →
        (kind = .doctype → ¬HoldsAt s (skip s i) Markup.comment.look) →
        (advancePast s (literal kind.stop) >>= fun _ => skipPrologue s fuel) (skip s i) =
          .ok () k →
        ∃ prologue, (∀ c, Part.trivia (.comment c) ∉ prologue) ∧
          HoldsAt s i (partBytes prologue) ∧ k = i + (partBytes prologue).length ∧
          skip s k = k := by
      intro kind hlook halone h
      obtain ⟨_, j, hpast, hrest⟩ := Prog.bind_eq_ok.1 h
      have hpos : 0 < kind.look.length := by cases kind <;> decide
      have hlt := hlook.add_length_le hpos
      have hmove := (moves_advancePast kind.stop_pos (by omega)).2 () j hpast
      rw [advancePast, Prog.bind_apply, rest_apply hle.2] at hpast
      simp only at hpast
      cases hfind : find (literal kind.stop) (s.drop (skip s i)) with
      | none =>
        rw [hfind] at hpast
        obtain ⟨-, rfl⟩ := Outcome.ok.inj hpast
        have hend := (moves_skipPrologue fuel _ le_rfl).2 () k hrest
        omega
      | some pos =>
        rw [hfind] at hpast
        have hj : skip s i + (pos + (literal kind.stop).length) = j := (Outcome.ok.inj hpast).2
        subst hj
        obtain ⟨m, hat, hlen⟩ := exists_mark hlook halone hfind
        obtain ⟨prologue, hcomments, hparts, rfl, hstop⟩ :=
          exists_prologue hmove.2 (by omega) hk hrest
        have hall : partBytes (gap.map Part.trivia ++ .mark m :: prologue) =
            gapBytes gap ++ (m.bytes ++ partBytes prologue) := by
          rw [partBytes, List.flatMap_append, ← partBytes, hbytes]
          rfl
        rw [hskip, ← hlen] at hparts
        refine ⟨gap.map Part.trivia ++ .mark m :: prologue, fun c hc => ?_, ?_, ?_, hstop⟩
        · rcases List.mem_append.1 hc with hc | hc
          · exact hnone c hc
          · exact hcomments c (by simpa using hc)
        · rw [hall]
          rw [hskip] at hat
          exact holdsAt_append.2 ⟨hspace, holdsAt_append.2 ⟨hat, hparts⟩⟩
        · rw [hall, hskip, ← hlen, List.length_append, List.length_append]
          omega
    rw [skipPrologue_apply rfl hle.2] at h
    split_ifs at h with hxml hcomment hdoctype
    · exact hround .xml hxml (fun h => by cases h) h
    · exact hround .comment hcomment (fun h => by cases h) h
    · exact hround .doctype hdoctype (fun _ => hcomment) h
    · obtain ⟨-, rfl⟩ := Outcome.ok.inj h
      refine ⟨gap.map Part.trivia, hnone, by rwa [hbytes], ?_, skip_skip i⟩
      rw [hbytes, hskip]

/-- The tag of the property list goes up to its first `>`. -/
theorem exists_tag (hi : i ≤ s.length) (hskip : skip s i = i)
    (h : expectOpen s "plist" i = .ok () j) (hj : j < s.length) :
    ∃ before, 0x3e ∉ before ∧ HoldsAt s i (literal "<plist" ++ (before ++ literal ">")) ∧
      j = i + (literal "<plist" ++ (before ++ literal ">")).length := by
  have hgt : literal ">" = [0x3e] := by decide
  rw [expectOpen, skipWs_bind, hskip, startsWith_ite_apply hi] at h
  split_ifs at h with hplist
  · have hbegin : HoldsAt s i (literal "<plist") := hplist
    obtain ⟨r, hr⟩ := hbegin
    have hmem : 0x3e ∈ r := by
      rw [advancePast, Prog.bind_apply, rest_apply hi] at h
      simp only at h
      cases hfind : find (literal ">") (s.drop i) with
      | none =>
        rw [hfind] at h
        obtain ⟨-, rfl⟩ := Outcome.ok.inj h
        exact absurd hj (lt_irrefl _)
      | some pos =>
        have hin : 0x3e ∈ s.drop i := by
          refine List.drop_subset pos _ ((drop_of_find hfind).subset ?_)
          rw [hgt]
          exact List.mem_cons_self
        rw [← hr, List.mem_append] at hin
        exact hin.resolve_left (by decide)
    obtain ⟨before, t, rfl, hbefore⟩ := List.eq_append_cons_of_mem hmem
    have hat : HoldsAt s i (literal "<plist" ++ (before ++ (literal ">" ++ t))) := by
      rw [hgt]
      exact ⟨[], by rw [List.append_nil]; exact hr⟩
    have hopen := expectOpen_eq hbefore hat
    have hsame : expectOpen s "plist" i = .ok () j := by
      rw [expectOpen, skipWs_bind, hskip, startsWith_ite_apply hi, if_pos hplist]
      exact h
    rw [hsame] at hopen
    obtain ⟨-, rfl⟩ := Outcome.ok.inj hopen
    rw [← List.append_assoc before, ← List.append_assoc] at hat
    exact ⟨before, hbefore, (holdsAt_append.1 hat).1, rfl⟩
  · cases h

/-- Every document that is read is that of a layout. -/
theorem exists_layout {v : PlistValue} (hfuel : s.length < fuel)
    (h : document s fuel 0 = .ok v k) :
    ∃ d : Layout, d.bytes = s ∧ ∀ c, Part.trivia (.comment c) ∉ d.prologue := by
  obtain ⟨_, i, hpro, h⟩ := Prog.bind_eq_ok.1 h
  obtain ⟨_, j, hopen, hvalue⟩ := Prog.bind_eq_ok.1 h
  have hi := (moves_skipPrologue fuel 0 (Nat.zero_le _)).2 _ i hpro
  have hj := (moves_expectOpen i hi.2).2 _ j hopen
  have hk := (moves_value fuel j hj.2).2 v k hvalue
  obtain ⟨prologue, hcomments, hparts, rfl, hskip⟩ :=
    exists_prologue (Nat.zero_le _) (by omega) (by omega) hpro
  obtain ⟨before, hbefore, htag, rfl⟩ := exists_tag hi.2 hskip hopen (by omega)
  obtain ⟨gap, root, -, -, hroot⟩ := exists_node hj.2 (by omega) hvalue
  obtain ⟨tail, htail⟩ :=
    holdsAt_append.2 ⟨hparts, holdsAt_append.2 ⟨htag, hroot⟩⟩
  refine ⟨⟨prologue, before, [], [], gap, root, tail, hbefore, List.not_mem_nil⟩, ?_, hcomments⟩
  rw [List.drop_zero] at htail
  rw [← htail]
  simp [Layout.bytes, attrBytes]

end Reading

/-! ## Comments and attributes change nothing where they are passed -/

theorem Part.textual (q : Part) (l : List U8) : Textual (q.bytes ++ l) := by
  rcases q with t | m
  · rcases t with ⟨b, hb⟩ | c
    · refine ⟨b, l, rfl, ?_⟩
      rintro rfl
      exact absurd hb (by decide)
    · refine ⟨0x3c, (c.bytes ++ l).tail, ?_, by decide⟩
      rw [Part.bytes, Trivia.bytes, Comment.bytes, literal_comment.1]
      rfl
  · obtain ⟨b, t, ht, -⟩ := m.opening
    rw [Part.bytes, ht]
    exact ⟨0x3c, b :: t ++ l, rfl, by decide⟩

theorem partBytes_textual {l : List U8} (hl : Textual l) (prologue : List Part) :
    Textual (partBytes prologue ++ l) := by
  cases prologue with
  | nil => exact hl
  | cons q prologue =>
    rw [partBytes_cons, List.append_assoc]
    exact q.textual _

namespace Layout

theorem textual (d : Layout) : Textual d.bytes :=
  partBytes_textual ⟨0x3c, _, rfl, by decide⟩ d.prologue

/-- The comments and attributes of the document are ignored : it is still text, its first bytes
still show what it is, and they are where the reader passes them. -/
def Accepted (d : Layout) : Prop :=
  (fromUtf8 d.bytes).isSome ∧ Plist.looksLikeXml d.bytes = true ∧ d.Ignored

theorem parse_eq_ok_iff (p : Profile) (d : Layout) (hharmless : Harmless d.prologue)
    {v : PlistValue} :
    Plist.parse p d.bytes () = .ok v () ↔ d.Accepted ∧ v = d.root.value := by
  rw [Plist.parse, if_neg d.textual.not_magic]
  have hat : HoldsAt d.bytes 0 d.bytes := List.prefix_rfl
  have hdoc := d.document_eq_ok_iff hharmless (v := v) hat (Nat.lt_succ_self d.bytes.length)
  unfold Accepted
  split_ifs with hlooks
  · rw [Xml.parse_eq_ok, hdoc]
    simp only [hlooks, true_and, and_assoc]
  · simp only [hlooks, Bool.false_eq_true, false_and, and_false, iff_false]
    intro h
    cases h

theorem Ignored.harmless {d : Layout} (h : d.Ignored) : Harmless d.prologue :=
  fun c hc hearly => absurd hearly (h.prologue c hc)

/-- Comments and attributes are no part of what a document stands for. -/
theorem value_eq_of_bare {d d' : Layout} (h : d'.bare = d.bare) : d'.root.value = d.root.value := by
  have hroot : d'.root.bare = d.root.bare := congrArg Layout.root h
  rw [← d'.root.value_bare, hroot, d.root.value_bare]

end Layout

/-- Every XML document that is read has a layout, and one that differs from it in comments and
attributes is read for the same value if these are where the reader passes them. Nothing else is
read for this value, unless a comment of the prologue ends early and has a `<` in it. -/
theorem comments_ignored_iff (p : Profile) {bytes : List U8} {v : PlistValue}
    (hxml : ¬bplistMagic <+: bytes) (h : Plist.parse p bytes () = .ok v ()) :
    (∃ d : Layout, d.bytes = bytes ∧ Harmless d.prologue) ∧
    ∀ d d' : Layout, d.bytes = bytes → Harmless d.prologue → d'.bare = d.bare →
      (d'.Accepted → Plist.parse p d'.bytes () = .ok v ()) ∧
      (Harmless d'.prologue → (Plist.parse p d'.bytes () = .ok v () ↔ d'.Accepted)) := by
  constructor
  · have hparse : Xml.parse bytes () = .ok v () := by
      rw [Plist.parse, if_neg (by rwa [List.isPrefixOf_iff_prefix])] at h
      split_ifs at h
      · exact h
      · cases h
    obtain ⟨-, k, hdoc⟩ := Xml.parse_eq_ok.1 hparse
    obtain ⟨d, hd, hcomments⟩ := exists_layout (Nat.lt_succ_self _) hdoc
    exact ⟨d, hd, fun c hc => absurd hc (hcomments c)⟩
  · rintro d d' rfl hharmless hbare
    have hv : v = d'.root.value := by
      rw [Layout.value_eq_of_bare hbare]
      exact ((d.parse_eq_ok_iff p hharmless).1 h).2
    have hiff : Harmless d'.prologue →
        (Plist.parse p d'.bytes () = .ok v () ↔ d'.Accepted) := by
      intro hharmless'
      rw [d'.parse_eq_ok_iff p hharmless']
      exact and_iff_left hv
    exact ⟨fun hacc => (hiff hacc.2.2.harmless).2 hacc, hiff⟩

/-! ## A note in a property list -/

def note : Comment :=
  ⟨literal " note ", by decide⟩

/-- `id="1"`. -/
def idAttribute : Attribute where
  space := [0x20]
  name := literal "id"
  left := []
  right := []
  quote := 0x22
  text := literal "1"
  blank := by decide
  spaced := by decide
  named := by decide
  quoted := Or.inl rfl
  inside := by decide

/-- A dictionary with one entry : with `attrs` in the tag of the property list, `attrs'` in that of
the dictionary, and `gap` in front of its key. -/
def flagDocument (prologue : List Part) (attrs attrs' : List Attribute) (gap : List Trivia) :
    Layout where
  prologue := prologue
  before := []
  attrs := attrs
  after := []
  gap := []
  root := .dict attrs' (.entry gap [] ⟨literal "a", by decide⟩ [] (.flag true [])
    (.close []))
  tail := literal "</plist>"
  whole := by decide

theorem flagDocument_bytes : (flagDocument [] [] [] []).bytes =
    literal "<plist><dict><key>a</key><true/></dict></plist>" := by
  decide

theorem parse_flagDocument : Plist.parse .release (flagDocument [] [] [] []).bytes () =
    .ok (.dict [("a", .bool true)]) () := by
  rw [flagDocument_bytes]
  rfl

/-- A comment in the prologue and an attribute of the property list are ignored. -/
theorem comments_ignored_flag : Harmless [] ∧
    (flagDocument [.trivia (.comment note)] [idAttribute] [] []).bytes =
      literal "<!-- note --><plist id=\"1\"><dict><key>a</key><true/></dict></plist>" ∧
    Plist.parse .release
      (flagDocument [.trivia (.comment note)] [idAttribute] [] []).bytes () =
      .ok (.dict [("a", .bool true)]) () := by
  have hharmless : Harmless [] := fun _ hc => absurd hc List.not_mem_nil
  have hearly : ¬note.Early := by
    unfold Comment.Early
    decide
  have hignored : (flagDocument [.trivia (.comment note)] [idAttribute] [] []).Ignored := by
    refine ⟨fun c hc => ?_, fun a ha => ?_, rfl, rfl⟩
    · cases List.mem_singleton.1 hc
      exact hearly
    · rw [List.mem_singleton.1 ha]
      decide
  have hbytes : (flagDocument [.trivia (.comment note)] [idAttribute] [] []).bytes =
      literal "<!-- note --><plist id=\"1\"><dict><key>a</key><true/></dict></plist>" := by
    decide
  have haccepted : (flagDocument [.trivia (.comment note)] [idAttribute] [] []).Accepted := by
    refine ⟨?_, ?_, hignored⟩
    · rw [hbytes]
      decide
    · rw [hbytes]
      decide
  have hnot : ¬bplistMagic <+: (flagDocument [] [] [] []).bytes := by
    rw [flagDocument_bytes]
    decide
  have h := (comments_ignored_iff .release hnot parse_flagDocument).2 (flagDocument [] [] [] [])
    (flagDocument [.trivia (.comment note)] [idAttribute] [] []) rfl hharmless rfl
  exact ⟨hharmless, hbytes, h.1 haccepted⟩

/-- A comment or an attribute in the dictionary is not. -/
theorem comment_refused :
    (flagDocument [] [] [] [.comment note]).bare = (flagDocument [] [] [] []).bare ∧
    (flagDocument [] [] [idAttribute] []).bare = (flagDocument [] [] [] []).bare ∧
    Plist.parse .release (flagDocument [] [] [] []).bytes () =
      .ok (.dict [("a", .bool true)]) () ∧
    (flagDocument [] [] [] [.comment note]).bytes =
      literal "<plist><dict><!-- note --><key>a</key><true/></dict></plist>" ∧
    Plist.parse .release (flagDocument [] [] [] [.comment note]).bytes () =
      .err (.xml "expected <key> in dict") () ∧
    (flagDocument [] [] [idAttribute] []).bytes =
      literal "<plist><dict id=\"1\"><key>a</key><true/></dict></plist>" ∧
    Plist.parse .release (flagDocument [] [] [idAttribute] []).bytes () =
      .err (.xml "unexpected element") () := by
  have hcomment : (flagDocument [] [] [] [.comment note]).bytes =
      literal "<plist><dict><!-- note --><key>a</key><true/></dict></plist>" := by
    decide
  have hattr : (flagDocument [] [] [idAttribute] []).bytes =
      literal "<plist><dict id=\"1\"><key>a</key><true/></dict></plist>" := by
    decide
  refine ⟨rfl, rfl, parse_flagDocument, hcomment, ?_, hattr, ?_⟩
  · rw [hcomment]
    rfl
  · rw [hattr]
    rfl

end IosEmu.Xml
