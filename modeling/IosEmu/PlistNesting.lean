import IosEmu.Refine
import IosEmu.XmlDocument

/-!
# How deep a property list nests

The binary decoder counts its way down and gives up below 129 levels, at every container
(`levels_objectAt`). The XML reader counts nothing : the levels of what it returns are those of
the elements in the document, however many there are. `elementLevels` measures them from the
tags alone; an entry of a dictionary that a later one with the same key replaces does not count.
So the bound holds of an XML document exactly if its own elements keep to it
(`levels_le_iff`).
-/

open SysLib

namespace IosEmu

/-! ## Binary property lists -/

namespace BinaryPlist

variable {p : Profile} {b : BinaryPlist}

theorem levels_arrayItems {child : U64 → PlistM PlistValue} {left : ℕ}
    (hchild : ∀ r, Prog.Yields (fun v => v.levels ≤ left) (child r)) (refsOff count : U64) :
    Prog.Yields (fun items => ∀ v ∈ items, v.levels ≤ left)
      (b.arrayItems p child refsOff count) := by
  refine Prog.yields_foldlM (fun out i hout => ?_) (by simp) _
  refine Prog.yields_bind fun r => (hchild r).bind fun v hv => Prog.yields_pure ?_
  intro v' hv'
  rcases List.mem_append.1 hv' with hv' | hv'
  · exact hout v' hv'
  · rw [List.mem_singleton.1 hv']
    exact hv

theorem levels_dictEntries {child : U64 → PlistM PlistValue} {left : ℕ}
    (hchild : ∀ r, Prog.Yields (fun v => v.levels ≤ left) (child r))
    (keysOff valsOff count : U64) :
    Prog.Yields (fun entries => ∀ e ∈ entries, e.2.levels ≤ left)
      (b.dictEntries p child keysOff valsOff count) := by
  refine Prog.yields_foldlM (fun map i hmap => ?_) (by simp) _
  refine Prog.yields_bind fun kref => Prog.yields_bind fun vref => Prog.yields_bind fun key => ?_
  cases key with
  | string s =>
    refine (hchild vref).bind fun v hv => Prog.yields_pure fun e he => ?_
    rcases SortedMap.mem_insertEntry he with rfl | he
    · exact hv
    · exact hmap e he
  | _ => exact Prog.yields_fail _ _

/-- An object has at most one level more than what it refers to. -/
theorem levels_decode {child : U64 → PlistM PlistValue} {left : ℕ}
    (hchild : ∀ r, Prog.Yields (fun v => v.levels ≤ left) (child r)) (off : U64) (marker : U8) :
    Prog.Yields (fun v => v.levels ≤ left + 1) (b.decode p child off marker) := by
  have hscalar : ∀ {v : PlistValue}, v.levels = 1 →
      Prog.Yields (fun v => v.levels ≤ left + 1) (pure v : PlistM PlistValue) :=
    fun hv => Prog.yields_pure (by omega)
  unfold decode
  simp only
  split
  · split
    · exact hscalar rfl
    · exact hscalar rfl
    · exact Prog.yields_fail _ _
  · exact Prog.yields_bind fun _ => Prog.yields_bind fun _ => hscalar rfl
  · refine Prog.yields_bind fun _ => Prog.yields_bind fun _ => ?_
    split
    · exact hscalar rfl
    · exact hscalar rfl
    · exact Prog.yields_fail _ _
  · exact Prog.yields_bind fun _ => Prog.yields_bind fun _ => hscalar rfl
  · exact Prog.yields_bind fun _ => Prog.yields_bind fun _ => hscalar rfl
  · exact Prog.yields_bind fun _ => Prog.yields_bind fun _ => hscalar rfl
  · exact Prog.yields_bind fun _ => Prog.yields_bind fun _ => Prog.yields_bind fun _ => hscalar rfl
  · exact Prog.yields_bind fun _ => Prog.yields_bind fun _ => hscalar rfl
  · refine Prog.yields_bind fun _ => Prog.yields_bind fun _ => ?_
    refine (levels_arrayItems hchild _ _).bind fun items hitems => Prog.yields_pure ?_
    have := PlistValue.levelsOfItems_le_iff.2 hitems
    rw [PlistValue.levels]
    omega
  · refine Prog.yields_bind fun _ => Prog.yields_bind fun _ => Prog.yields_bind fun _ => ?_
    refine (levels_dictEntries hchild _ _ _).bind fun entries hentries => Prog.yields_pure ?_
    have := PlistValue.levelsOfEntries_le_iff.2 hentries
    rw [PlistValue.levels]
    omega
  · exact Prog.yields_fail _ _

/-- An object has no more levels than the decoder may go down. -/
theorem levels_objectAt : ∀ (left : ℕ) (index : U64),
    Prog.Yields (fun v => v.levels ≤ left) (b.objectAt p left index)
  | 0, _ => Prog.yields_fail _ _
  | left + 1, index => by
    unfold objectAt
    cases b.offsets[index.toNat]? with
    | none => exact Prog.yields_fail _ _
    | some off => exact Prog.yields_bind fun marker => levels_decode (levels_objectAt left) off marker

theorem levels_parse (bytes : List U8) :
    Prog.Yields (fun v => v.levels ≤ 129) (BinaryPlist.parse p bytes) := by
  unfold BinaryPlist.parse
  simp only
  split_ifs
  · exact Prog.yields_fail _ _
  · exact Prog.yields_bind fun _ => Prog.yields_bind fun _ => levels_objectAt 129 _
  · exact Prog.yields_fail _ _

end BinaryPlist

/-! ## XML property lists -/

namespace Xml

section Levels

variable (s : List U8)

/-- The levels of the deepest element up to the closing tag of an array. -/
def itemLevels (child : XmlM ℕ) : ℕ → ℕ → XmlM ℕ
  | 0, _ => Prog.fail (.xml "no fuel")
  | fuel + 1, deepest => do
    skipWs s
    if ← startsWith s (closeTag "array") then
      advance (closeTag "array").length
      return deepest
    else
      let n ← child
      itemLevels child fuel (max deepest n)

/-- The levels of the elements up to the closing tag of a dictionary, by their keys. -/
def entryLevels (child : XmlM ℕ) : ℕ → List (String × ℕ) → XmlM (List (String × ℕ))
  | 0, _ => Prog.fail (.xml "no fuel")
  | fuel + 1, map => do
    skipWs s
    if ← startsWith s (closeTag "dict") then
      advance (closeTag "dict").length
      return map
    else if ← startsWith s (openTag "key") then
      let key ← textElement s "key"
      let n ← child
      entryLevels child fuel (SortedMap.insertEntry (String.ofList key) n map)
    else Prog.fail (.xml "expected <key> in dict")

/-- The levels of the element at the cursor. -/
def elementLevels : ℕ → XmlM ℕ
  | 0 => Prog.fail (.xml "no fuel")
  | fuel + 1 => do
    skipWs s
    if ← startsWith s (openTag "dict") then
      advance (openTag "dict").length
      let map ← entryLevels s (elementLevels fuel) fuel []
      return 1 + (map.map Prod.snd).foldr max 0
    else if ← startsWith s (openTag "array") then
      advance (openTag "array").length
      let deepest ← itemLevels s (elementLevels fuel) fuel 0
      return 1 + deepest
    else if ← startsWith s (openTag "string") then
      let _ ← textElement s "string"
      return 1
    else if ← startsWith s (openTag "integer") then
      let _ ← textElement s "integer"
      return 1
    else if ← startsWith s (openTag "real") then
      let _ ← textElement s "real"
      return 1
    else if ← startsWith s (literal "<true/>") then
      advance (literal "<true/>").length
      return 1
    else if ← startsWith s (literal "<false/>") then
      advance (literal "<false/>").length
      return 1
    else if ← startsWith s (openTag "data") then
      let _ ← textElement s "data"
      return 1
    else Prog.fail (.xml "unexpected element")

/-- The levels of the element of a document. -/
def documentLevels (fuel : ℕ) : XmlM ℕ := do
  skipPrologue s fuel
  expectOpen s "plist"
  elementLevels s fuel

end Levels

variable {s : List U8}

theorem levelsOfItems_append (items : List PlistValue) (v : PlistValue) :
    PlistValue.levelsOfItems (items ++ [v]) = max (PlistValue.levelsOfItems items) v.levels := by
  induction items with
  | nil => simp [PlistValue.levelsOfItems]
  | cons w items ih =>
    rw [List.cons_append, PlistValue.levelsOfItems, PlistValue.levelsOfItems, ih, max_assoc]

theorem levelsOfEntries_eq (entries : List (String × PlistValue)) :
    PlistValue.levelsOfEntries entries =
      ((entries.map fun e => (e.1, e.2.levels)).map Prod.snd).foldr max 0 := by
  induction entries with
  | nil => rfl
  | cons e entries ih =>
    rw [PlistValue.levelsOfEntries, ih]
    rfl

theorem measures_arrayItems {child : XmlM PlistValue} {childLevels : XmlM ℕ}
    (hchild : Prog.Measures PlistValue.levels child childLevels) :
    ∀ (fuel : ℕ) (out : List PlistValue), Prog.Measures PlistValue.levelsOfItems
      (arrayItems s child fuel out) (itemLevels s childLevels fuel (PlistValue.levelsOfItems out))
  | 0, _ => Prog.measures_fail _
  | fuel + 1, out => by
    refine Prog.measures_bind fun _ => Prog.measures_bind fun c => Prog.measures_ite ?_ ?_
    · exact Prog.measures_bind fun _ => Prog.measures_pure rfl
    · refine hchild.bind fun v => ?_
      rw [← levelsOfItems_append]
      exact measures_arrayItems hchild fuel (out ++ [v])

theorem measures_dictEntries {child : XmlM PlistValue} {childLevels : XmlM ℕ}
    (hchild : Prog.Measures PlistValue.levels child childLevels) :
    ∀ (fuel : ℕ) (map : List (String × PlistValue)),
      Prog.Measures (fun map => map.map fun e => (e.1, e.2.levels)) (dictEntries s child fuel map)
        (entryLevels s childLevels fuel (map.map fun e => (e.1, e.2.levels)))
  | 0, _ => Prog.measures_fail _
  | fuel + 1, map => by
    refine Prog.measures_bind fun _ => Prog.measures_bind fun c => Prog.measures_ite ?_ ?_
    · exact Prog.measures_bind fun _ => Prog.measures_pure rfl
    refine Prog.measures_bind fun c => Prog.measures_ite ?_ (Prog.measures_fail _)
    refine Prog.measures_bind fun key => hchild.bind fun v => ?_
    rw [← SortedMap.map_insertEntry]
    exact measures_dictEntries hchild fuel _

/-- The tags of an element tell the levels of its value. -/
theorem measures_value : ∀ fuel : ℕ,
    Prog.Measures PlistValue.levels (value s fuel) (elementLevels s fuel)
  | 0 => Prog.measures_fail _
  | fuel + 1 => by
    have ih := measures_value fuel
    unfold value elementLevels
    refine Prog.measures_bind fun _ => Prog.measures_bind fun _ => Prog.measures_ite ?_ ?_
    · refine Prog.measures_bind fun _ => (measures_dictEntries ih fuel []).bind fun map => ?_
      refine Prog.measures_pure ?_
      rw [PlistValue.levels, levelsOfEntries_eq]
    refine Prog.measures_bind fun _ => Prog.measures_ite ?_ ?_
    · exact Prog.measures_bind fun _ => (measures_arrayItems ih fuel []).bind fun items =>
        Prog.measures_pure rfl
    refine Prog.measures_bind fun _ => Prog.measures_ite ?_ ?_
    · exact Prog.measures_bind fun _ => Prog.measures_pure rfl
    refine Prog.measures_bind fun _ => Prog.measures_ite ?_ ?_
    · exact Prog.measures_bind fun _ => Prog.measures_pure rfl
    refine Prog.measures_bind fun _ => Prog.measures_ite ?_ ?_
    · exact Prog.measures_bind fun _ => Prog.measures_pure rfl
    refine Prog.measures_bind fun _ => Prog.measures_ite ?_ ?_
    · exact Prog.measures_bind fun _ => Prog.measures_pure rfl
    refine Prog.measures_bind fun _ => Prog.measures_ite ?_ ?_
    · exact Prog.measures_bind fun _ => Prog.measures_pure rfl
    refine Prog.measures_bind fun _ => Prog.measures_ite ?_ (Prog.measures_fail _)
    exact Prog.measures_bind fun _ => Prog.measures_pure rfl

theorem measures_document (fuel : ℕ) :
    Prog.Measures PlistValue.levels (document s fuel) (documentLevels s fuel) :=
  Prog.measures_bind fun _ => Prog.measures_bind fun _ => measures_value fuel

theorem documentLevels_eq_ok {fuel i j n : ℕ} :
    documentLevels s fuel i = .ok n j ↔ ∃ v, document s fuel i = .ok v j ∧ v.levels = n := by
  rw [measures_document fuel i]
  rcases document s fuel i with ⟨v, j'⟩ | ⟨e, j'⟩ | q
  · simp only [Outcome.mapValue, Outcome.ok.injEq]
    constructor
    · rintro ⟨hn, hj⟩
      exact ⟨v, ⟨rfl, hj⟩, hn⟩
    · rintro ⟨v', ⟨rfl, hj⟩, hn⟩
      exact ⟨hn, hj⟩
  · simp [Outcome.mapValue]
  · simp [Outcome.mapValue]

theorem parse_eq_ok {bytes : List U8} {v : PlistValue} : Xml.parse bytes () = .ok v () ↔
    (fromUtf8 bytes).isSome ∧ ∃ i, document bytes (bytes.length + 1) 0 = .ok v i := by
  unfold Xml.parse
  cases fromUtf8 bytes with
  | none => simp [Prog.fail]
  | some cs => simp [Prog.within_eq_ok]

end Xml

namespace Plist

/-- The levels of the element of an XML document, if it has one. -/
def nesting (bytes : List U8) : Option ℕ :=
  if looksLikeXml bytes ∧ (fromUtf8 bytes).isSome then
    match Xml.documentLevels bytes (bytes.length + 1) 0 with
    | .ok n _ => some n
    | _ => none
  else none

theorem nesting_eq_some {bytes : List U8} {n : ℕ} : nesting bytes = some n ↔
    looksLikeXml bytes = true ∧ ∃ v, Xml.parse bytes () = .ok v () ∧ v.levels = n := by
  unfold nesting
  simp only [Xml.parse_eq_ok]
  split_ifs with h
  · obtain ⟨hlooks, hutf8⟩ := h
    simp only [hlooks, hutf8, true_and]
    constructor
    · intro hn
      split at hn
      · obtain rfl := Option.some.inj hn
        obtain ⟨v, hv, hlevels⟩ := Xml.documentLevels_eq_ok.1 ‹_›
        exact ⟨v, ⟨_, hv⟩, hlevels⟩
      · cases hn
    · rintro ⟨v, ⟨i, hv⟩, hlevels⟩
      rw [Xml.documentLevels_eq_ok.2 ⟨v, hv, hlevels⟩]
  · simp only [false_iff]
    rintro ⟨hlooks, v, ⟨hutf8, -⟩, -⟩
    exact h ⟨hlooks, hutf8⟩

/-- The bound on nesting holds of every binary property list, and of an XML document exactly if
its elements keep to it. -/
theorem levels_le_iff (p : Profile) (bytes : List U8) :
    (∀ v, parse p bytes () = .ok v () → v.levels ≤ 129) ↔
      bplistMagic <+: bytes ∨ ∀ n, nesting bytes = some n → n ≤ 129 := by
  rw [← List.isPrefixOf_iff_prefix]
  unfold parse
  by_cases hmagic : bplistMagic.isPrefixOf bytes = true
  · simp only [hmagic, if_true, true_or, iff_true]
    exact fun v hv => BinaryPlist.levels_parse bytes () v () hv
  · simp only [hmagic, false_or, Bool.false_eq_true, if_false]
    cases hlooks : looksLikeXml bytes with
    | false => simp [nesting, hlooks, Prog.fail]
    | true =>
      simp only [if_true, nesting_eq_some, hlooks, true_and]
      constructor
      · rintro h n ⟨v, hv, rfl⟩
        exact h v hv
      · exact fun h v hv => h v.levels ⟨v, hv, rfl⟩

/-- Arrays in each other, `true` in the innermost. -/
def nested : ℕ → PlistValue
  | 0 => .bool true
  | n + 1 => .array [nested n]

def nestedBytes : ℕ → List U8
  | 0 => Xml.literal "<true/>"
  | n + 1 => Xml.openTag "array" ++ (nestedBytes n ++ Xml.closeTag "array")

theorem levels_nested : ∀ n : ℕ, (nested n).levels = n + 1
  | 0 => rfl
  | n + 1 => by
    rw [nested, PlistValue.levels, PlistValue.levelsOfItems, levels_nested n]
    simp [PlistValue.levelsOfItems, Nat.add_comm]

theorem proper_nested : ∀ n : ℕ, (nested n).Proper
  | 0 => trivial
  | n + 1 => by
    refine ⟨?_, proper_nested n, trivial⟩
    simp [PlistValue.valueSize, isizeMax]

theorem prints_nested : ∀ n : ℕ, Xml.Prints (nested n) (nestedBytes n)
  | 0 => Xml.Prints.true
  | n + 1 => by
    have ih := prints_nested n
    have h := @Xml.Prints.array [nested n] [([], nestedBytes n)] [] rfl (by simp [Xml.Blank])
      (by simpa using ih) (by simp [Xml.Blank])
    simpa [nested, nestedBytes] using h

/-- `<plist>`, `n` arrays and `true`. -/
def nestedDocument (n : ℕ) : List U8 :=
  Xml.plistBytes [] [] (nestedBytes n) []

/-- The reader goes down as far as the document does. -/
theorem parse_nestedDocument (p : Profile) (n : ℕ) :
    parse p (nestedDocument n) () = .ok (nested n) () := by
  have hdocument : Xml.Document (nested n) (nestedDocument n) := by
    have h := @Xml.Document.mk (nested n) [] [] [] [] [] (nestedBytes n) [] (by simp)
      (by simp [Xml.Blank]) (by simp) (by simp [Xml.Blank]) (by simp [Xml.Blank])
      (by simp [Xml.Blank]) (prints_nested n)
    simpa [nestedDocument] using h
  have hdetect : Xml.Detectable (nestedDocument n) := by
    refine Or.inl (List.IsPrefix.isInfix (List.prefix_take_iff.2 ⟨List.prefix_append _ _, ?_⟩))
    decide
  obtain ⟨i, hi⟩ := hdocument.document_eq (proper_nested n) List.prefix_rfl (Nat.lt_succ_self _)
  rw [parse, if_neg hdocument.textual.not_magic,
    if_pos (Xml.looksLikeXml_of_detectable hdocument.isText hdetect)]
  exact Xml.parse_of_document hdocument.isText hi

theorem nested_too_deep :
    parse .release (nestedDocument 129) () = .ok (nested 129) () ∧ ¬(nested 129).levels ≤ 129 := by
  refine ⟨parse_nestedDocument .release 129, ?_⟩
  rw [levels_nested]
  omega

end Plist

end IosEmu
