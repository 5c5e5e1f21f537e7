import IosEmu.XmlCursor

/-!
# The XML reader is total

The bound of the reader stands for the loops and the recursion of the source, which have none. It is
never what ends them : each round of a loop, and each call of `value` inside another, starts further
on in the document than the one before (`Turn.advances`), so that the reader gives the same result
for every bound beyond the length of the document, and does not give up (`document_ne_noFuel`).

The text of an element is cut out of the document behind one tag and before another. Tags end and
begin with an ASCII character, so the text is well formed like the document (`fromUtf8_raw`).
-/

open SysLib

namespace IosEmu.Xml

variable {s : List U8} {α β : Type}

/-! ## Turns -/

/-- The markup of the prologue, as it begins and ends. -/
def prologueMarks : List (List U8 × List U8) :=
  [(literal "<?", literal "?>"), (literal "<!--", literal "-->"), (literal "<!", literal ">")]

/-- A round of the loop over the prologue starts at `i`, and the next one at `j`. -/
def PrologueRound (s : List U8) (i j : ℕ) : Prop :=
  ∃ mark ∈ prologueMarks, HoldsAt s (skip s i) mark.1 ∧
    advancePast s mark.2 (skip s i) = .ok () j

/-- The same of the loop over the entries of a dictionary. -/
def DictRound (s : List U8) (i j : ℕ) : Prop :=
  HoldsAt s (skip s i) (openTag "key") ∧ ∃ key k v fuel,
    textElement s "key" (skip s i) = .ok key k ∧ value s fuel k = .ok v j

/-- And of the loop over the items of an array. -/
def ArrayRound (s : List U8) (i j : ℕ) : Prop :=
  ¬HoldsAt s (skip s i) (closeTag "array") ∧ ∃ v fuel, value s fuel (skip s i) = .ok v j

/-- One call of `value` starts at `i`, and one inside it at `j` : for a value of the dictionary, or
for an item of the array, that stands at `i`. -/
inductive ValueCall (s : List U8) (i : ℕ) : ℕ → Prop
  | dict {j k : ℕ} {key : List Char} (hat : HoldsAt s (skip s i) (openTag "dict"))
      (hrounds : Relation.ReflTransGen (DictRound s) (skip s i + (openTag "dict").length) k)
      (hkey : HoldsAt s (skip s k) (openTag "key"))
      (htext : textElement s "key" (skip s k) = .ok key j) : ValueCall s i j
  | array {k : ℕ} (hat : HoldsAt s (skip s i) (openTag "array"))
      (hrounds : Relation.ReflTransGen (ArrayRound s) (skip s i + (openTag "array").length) k)
      (hitem : ¬HoldsAt s (skip s k) (closeTag "array")) : ValueCall s i (skip s k)

/-- One turn of the reader, and the next. -/
inductive Turn (s : List U8) (i j : ℕ) : Prop
  | prologue (h : PrologueRound s i j)
  | dict (h : DictRound s i j)
  | array (h : ArrayRound s i j)
  | call (h : ValueCall s i j)

section Turn

variable {i j : ℕ}

theorem PrologueRound.advances (h : PrologueRound s i j) (hi : i ≤ s.length) :
    i < j ∧ j ≤ s.length := by
  obtain ⟨mark, hmark, hat, hpast⟩ := h
  have hpos : ∀ mark ∈ prologueMarks, 0 < mark.1.length ∧ 0 < mark.2.length := by decide
  obtain ⟨hbegin, hend⟩ := hpos mark hmark
  have hle := hat.add_length_le hbegin
  have hskip := skip_le hi
  have hmove := (moves_advancePast hend (s := s) (i := skip s i) (by omega)).2 () j hpast
  omega

theorem DictRound.advances (h : DictRound s i j) (hi : i ≤ s.length) : i < j ∧ j ≤ s.length := by
  obtain ⟨hat, key, k, v, fuel, htext, hvalue⟩ := h
  have hskip := skip_le hi
  have hkey := (moves_textElement hat (by decide)).2 key k htext
  have hmove := (moves_value fuel k hkey.2).2 v j hvalue
  omega

theorem ArrayRound.advances (h : ArrayRound s i j) (hi : i ≤ s.length) :
    i < j ∧ j ≤ s.length := by
  obtain ⟨-, v, fuel, hvalue⟩ := h
  have hskip := skip_le hi
  have hmove := (moves_value fuel (skip s i) hskip.2).2 v j hvalue
  omega

/-- Rounds do not go back. -/
theorem rounds_advance {r : ℕ → ℕ → Prop}
    (hr : ∀ {i j}, r i j → i ≤ s.length → i < j ∧ j ≤ s.length)
    (h : Relation.ReflTransGen r i j) (hi : i ≤ s.length) : i ≤ j ∧ j ≤ s.length := by
  induction h with
  | refl => exact ⟨le_rfl, hi⟩
  | tail _ hstep ih =>
    have hmove := hr hstep ih.2
    omega

theorem ValueCall.advances (h : ValueCall s i j) (hi : i ≤ s.length) : i < j ∧ j ≤ s.length := by
  have hskip := skip_le hi
  cases h with
  | @dict _ k key hat hrounds hkey htext =>
    have hpos : 0 < (openTag "dict").length := by decide
    have hrest := rounds_advance DictRound.advances hrounds (hat.add_length_le hpos)
    have hskip' := skip_le hrest.2
    have hmove := (moves_textElement hkey (by decide)).2 key j htext
    omega
  | @array k hat hrounds hitem =>
    have hpos : 0 < (openTag "array").length := by decide
    have hrest := rounds_advance ArrayRound.advances hrounds (hat.add_length_le hpos)
    have hskip' := skip_le hrest.2
    omega

/-- Every turn starts further on than the one before, and in the document. -/
theorem Turn.advances (h : Turn s i j) (hi : i ≤ s.length) : i < j ∧ j ≤ s.length := by
  cases h with
  | prologue h => exact h.advances hi
  | dict h => exact h.advances hi
  | array h => exact h.advances hi
  | call h => exact h.advances hi

end Turn

/-! ## The bound is never reached -/

/-- From the cursor `i` the bound is not what ends `x`, and an error leaves the cursor in the
document. -/
def Ends (s : List U8) (x : XmlM α) (i : ℕ) : Prop :=
  ∀ e j, x i = .err e j → e ≠ .xml "no fuel" ∧ j ≤ s.length

theorem Ends.bind {x : XmlM α} {f : α → XmlM β} {i : ℕ} (hx : Ends s x i)
    (hf : ∀ a j, x i = .ok a j → Ends s (f a) j) : Ends s (x >>= f) i := by
  intro e j h
  obtain h | ⟨a, j', hxi, h⟩ := Prog.bind_eq_err.1 h
  · exact hx e j h
  · exact hf a j' hxi e j h

theorem ends_pure (a : α) (i : ℕ) : Ends s (pure a) i :=
  nofun

theorem ends_fail {text : String} (h : text ≠ "no fuel") {i : ℕ} (hi : i ≤ s.length) :
    Ends s (Prog.fail (.xml text) : XmlM α) i := by
  intro e j herr
  obtain ⟨rfl, rfl⟩ := Outcome.err.inj herr
  exact ⟨fun heq => h (PlistError.xml.inj heq), hi⟩

theorem Ends.ite {tag : List U8} {x y : XmlM α} {i : ℕ} (hi : i ≤ s.length)
    (hx : HoldsAt s i tag → Ends s x i) (hy : ¬HoldsAt s i tag → Ends s y i) :
    Ends s (startsWith s tag >>= fun b => if b = true then x else y) i := by
  unfold Ends
  rw [startsWith_ite_apply hi]
  split_ifs with h
  · exact hx h
  · exact hy h

theorem Ends.skipWs {f : Unit → XmlM α} {i : ℕ} (h : Ends s (f ()) (skip s i)) :
    Ends s (Xml.skipWs s >>= f) i :=
  h

theorem Ends.advance {f : Unit → XmlM α} {n i : ℕ} (h : Ends s (f ()) (i + n)) :
    Ends s (Xml.advance n >>= f) i :=
  h

theorem ends_advancePast (stop : List U8) {i : ℕ} (hi : i ≤ s.length) :
    Ends s (advancePast s stop) i := by
  intro e j
  rw [advancePast, Prog.bind_apply, rest_apply hi]
  simp only
  cases find stop (s.drop i) with
  | none =>
    intro h
    cases h
  | some pos =>
    intro h
    cases h

theorem ends_textElement {name : String} {i : ℕ} (hi : i + (openTag name).length ≤ s.length) :
    Ends s (textElement s name) i := by
  have htext : "unterminated <" ++ name ++ ">" ≠ "no fuel" := by
    intro h
    have hlist := congrArg String.toList h
    rw [String.toList_append, String.toList_append] at hlist
    cases (List.cons.inj hlist).1
  intro e j
  rw [textElement, advance_bind, Prog.bind_apply, rest_apply hi]
  simp only
  cases find (closeTag name) (s.drop (i + (openTag name).length)) with
  | none => exact ends_fail htext hi e j
  | some stop =>
    intro h
    cases h

section Children

variable {child : XmlM PlistValue} {i₀ : ℕ} (hmoves : Moves s 1 child)
  (hchild : ∀ j, i₀ ≤ j → j ≤ s.length → Ends s child j)

include hmoves hchild

theorem ends_dictEntries : ∀ {n i : ℕ} {map : List (String × PlistValue)}, i₀ ≤ i →
    i ≤ s.length → s.length - i < n → Ends s (dictEntries s child n map) i
  | 0, _, _, _, _, hn => absurd hn (Nat.not_lt_zero _)
  | n + 1, i, map, h₀, hi, hn => by
    have hskip := skip_le hi
    refine Ends.skipWs (Ends.ite hskip.2 (fun _ => nofun) fun _ => Ends.ite hskip.2
      (fun hat => ?_) fun _ => ends_fail (by decide) hskip.2)
    have hpos : 0 < (openTag "key").length := by decide
    refine (ends_textElement (hat.add_length_le hpos)).bind fun key j hj => ?_
    have hj := (moves_textElement hat hpos).2 key j hj
    refine (hchild j (by omega) hj.2).bind fun v j' hj' => ?_
    have hj' := (hmoves j hj.2).2 v j' hj'
    exact ends_dictEntries (by omega) hj'.2 (by omega)

theorem ends_arrayItems : ∀ {n i : ℕ} {out : List PlistValue}, i₀ ≤ i → i ≤ s.length →
    s.length - i < n → Ends s (arrayItems s child n out) i
  | 0, _, _, _, _, hn => absurd hn (Nat.not_lt_zero _)
  | n + 1, i, out, h₀, hi, hn => by
    have hskip := skip_le hi
    refine Ends.skipWs (Ends.ite hskip.2 (fun _ => nofun) fun _ => ?_)
    refine (hchild _ (by omega) hskip.2).bind fun v j hj => ?_
    have hj := (hmoves _ hskip.2).2 v j hj
    exact ends_arrayItems (by omega) hj.2 (by omega)

end Children

theorem ends_value : ∀ {n i : ℕ}, i ≤ s.length → s.length - i < n → Ends s (value s n) i
  | 0, _, _, hn => absurd hn (Nat.not_lt_zero _)
  | n + 1, i, hi, hn => by
    have hskip := skip_le hi
    have hchild : ∀ j, i + 1 ≤ j → j ≤ s.length → Ends s (value s n) j :=
      fun j h₀ hj => ends_value hj (by omega)
    have htext : ∀ (name : String) (f : List Char → PlistValue), 0 < (openTag name).length →
        HoldsAt s (skip s i) (openTag name) →
        Ends s (textElement s name >>= fun t => pure (f t)) (skip s i) := fun name f hpos hat =>
      (ends_textElement (hat.add_length_le hpos)).bind fun _ _ _ => ends_pure _ _
    refine Ends.skipWs (Ends.ite hskip.2 (fun hat => ?_) fun _ => Ends.ite hskip.2
      (fun hat => ?_) fun _ => Ends.ite hskip.2 (htext _ _ (by decide)) fun _ =>
      Ends.ite hskip.2 (htext _ _ (by decide)) fun _ => Ends.ite hskip.2 (htext _ _ (by decide))
      fun _ => Ends.ite hskip.2 (fun _ => nofun) fun _ => Ends.ite hskip.2 (fun _ => nofun)
      fun _ => Ends.ite hskip.2 (htext _ _ (by decide)) fun _ => ends_fail (by decide) hskip.2)
    · have hpos : 0 < (openTag "dict").length := by decide
      have hend := hat.add_length_le hpos
      exact Ends.advance ((ends_dictEntries (moves_value n) hchild (by omega) hend (by omega)).bind
        fun _ _ _ => ends_pure _ _)
    · have hpos : 0 < (openTag "array").length := by decide
      have hend := hat.add_length_le hpos
      exact Ends.advance ((ends_arrayItems (moves_value n) hchild (by omega) hend (by omega)).bind
        fun _ _ _ => ends_pure _ _)

theorem ends_skipPrologue : ∀ {n i : ℕ}, i ≤ s.length → Ends s (skipPrologue s n) i
  | 0, _, _ => nofun
  | n + 1, i, hi => by
    have hskip := skip_le hi
    have hround : ∀ (tag stop : List U8), 0 < tag.length → 0 < stop.length →
        HoldsAt s (skip s i) tag →
        Ends s (advancePast s stop >>= fun _ => skipPrologue s n) (skip s i) := by
      intro tag stop htag hstop hat
      have hend := hat.add_length_le htag
      exact (ends_advancePast stop hskip.2).bind fun a j hj =>
        ends_skipPrologue ((moves_advancePast hstop (by omega)).2 a j hj).2
    exact Ends.skipWs (Ends.ite hskip.2 (hround _ _ (by decide) (by decide)) fun _ =>
      Ends.ite hskip.2 (hround _ _ (by decide) (by decide)) fun _ =>
      Ends.ite hskip.2 (hround _ _ (by decide) (by decide)) fun _ => nofun)

theorem ends_expectOpen {i : ℕ} (hi : i ≤ s.length) : Ends s (expectOpen s "plist") i := by
  have hskip := skip_le hi
  exact Ends.skipWs (Ends.ite hskip.2 (fun _ => ends_advancePast _ hskip.2) fun _ =>
    ends_fail (by decide) hskip.2)

theorem ends_document {n : ℕ} (hn : s.length < n) : Ends s (document s n) 0 := by
  refine (ends_skipPrologue (Nat.zero_le _)).bind fun _ j hj => ?_
  have hj := (moves_skipPrologue n 0 (Nat.zero_le _)).2 _ j hj
  refine (ends_expectOpen hj.2).bind fun _ j' hj' => ?_
  have hj' := (moves_expectOpen j hj.2).2 _ j' hj'
  exact ends_value hj'.2 (by omega)

/-! ## The text of an element -/

theorem fromUtf8_eq_some {l : List U8} {cs : List Char} (h : fromUtf8 l = some cs) :
    l = utf8Encode cs := by
  unfold fromUtf8 at h
  split_ifs at h with henc
  obtain rfl := Option.some.inj h
  exact henc.symm

/-- Behind an opening tag and before the next closing tag the document is well formed. -/
theorem fromUtf8_raw {cs : List Char} (htext : fromUtf8 s = some cs) {name : String} {i stop : ℕ}
    (hat : HoldsAt s i (openTag name))
    (hfind : find (closeTag name) (s.drop (i + (openTag name).length)) = some stop) :
    ∃ text, fromUtf8 ((s.drop (i + (openTag name).length)).take stop) = some text := by
  obtain ⟨after, hafter⟩ := hat
  obtain ⟨behind, hbehind⟩ := drop_of_find hfind
  have hopen : openTag name = literal ("<" ++ name) ++ [0x3e] := by
    rw [openTag, literal, String.toList_append, utf8Encode_append]
    rfl
  have hclose : closeTag name = 0x3c :: literal ("/" ++ name ++ ">") := by
    rw [closeTag, literal, literal, String.toList_append, String.toList_append,
      String.toList_append, String.toList_append]
    rfl
  have hrest : s.drop (i + (openTag name).length) = after := by
    rw [← List.drop_drop, ← hafter, List.drop_left]
  rw [hrest] at hbehind ⊢
  -- the document is cut behind the opening tag, and the rest of it before the closing tag
  have hcut : utf8Encode cs = (s.take i ++ literal ("<" ++ name)) ++ 0x3e :: after := by
    rw [← fromUtf8_eq_some htext]
    conv_lhs => rw [← List.take_append_drop i s, ← hafter, hopen]
    simp
  obtain ⟨-, qs, -, rfl⟩ := split_utf8Encode (by decide) hcut
  have hcut' : utf8Encode qs = (utf8Encode qs).take stop ++ 0x3c ::
      (literal ("/" ++ name ++ ">") ++ behind) := by
    conv_lhs => rw [← List.take_append_drop stop (utf8Encode qs), ← hbehind, hclose]
    simp
  obtain ⟨ps, -, hps, -⟩ := split_utf8Encode (by decide) hcut'
  exact ⟨ps, by rw [hps, fromUtf8_encode]⟩

/-- Every turn of the reader moves the cursor on and not past the end; no bound beyond the length
of the document is ever reached; nothing panics and the cursor stays in the document; and the text
of an element is well formed. -/
theorem xml_parser_total (bytes : List U8) :
    (∀ i j, i ≤ bytes.length → Turn bytes i j → i < j ∧ j ≤ bytes.length) ∧
    (∀ n > bytes.length, document bytes n 0 = document bytes (bytes.length + 1) 0 ∧
      ∀ j, document bytes n 0 ≠ .err (.xml "no fuel") j) ∧
    (parse bytes).Safe () ∧
    (∀ n > bytes.length, (document bytes n).Safe 0 ∧
      ∀ j, (document bytes n 0).state? = some j → j ≤ bytes.length) ∧
    ∀ cs, fromUtf8 bytes = some cs → ∀ name i stop, HoldsAt bytes i (openTag name) →
      find (closeTag name) (bytes.drop (i + (openTag name).length)) = some stop →
      ∃ text, fromUtf8 ((bytes.drop (i + (openTag name).length)).take stop) = some text := by
  refine ⟨fun i j hi h => h.advances hi, fun n hn => ⟨document_fuel hn, fun j h => ?_⟩,
    safe_parse bytes, fun n hn => ?_, fun cs hcs name i stop => fromUtf8_raw hcs⟩
  · exact (ends_document hn _ j h).1 rfl
  · have hmoves := moves_document (s := bytes) n 0 (Nat.zero_le _)
    refine ⟨hmoves.1, fun j h => ?_⟩
    rcases hdoc : document bytes n 0 with ⟨v, k⟩ | ⟨e, k⟩ | q <;> rw [hdoc] at h
    · obtain rfl := Option.some.inj h
      exact (hmoves.2 v k hdoc).2
    · obtain rfl := Option.some.inj h
      exact (ends_document hn e k hdoc).2
    · cases h

end IosEmu.Xml
