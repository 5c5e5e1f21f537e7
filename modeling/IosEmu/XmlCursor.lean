import IosEmu.PlistXml
import IosEmu.Safe

/-!
# The cursor of the XML reader

From a cursor in the document no part of the reader panics, and where it returns it has moved
the cursor on and not past the end (`Moves`). Every tag is looked for at the cursor, so a branch
of the reader is taken exactly if the document has its tag there (`startsWith_ite_apply`).

Every element takes at least one byte, and so does every round of a loop. Any bound on recursion
and loops beyond the length of the document therefore gives the same result (`document_fuel`).
-/

open SysLib

namespace IosEmu.Xml

variable {s : List U8} {α β : Type}

/-! ## Movement -/

/-- From the cursor `i` there is no panic, and a returned cursor is at least `k` further and in
the document. -/
def MovesAt (s : List U8) (k : ℕ) (x : XmlM α) (i : ℕ) : Prop :=
  x.Safe i ∧ ∀ a j, x i = .ok a j → i + k ≤ j ∧ j ≤ s.length

/-- The same from every cursor in the document. -/
def Moves (s : List U8) (k : ℕ) (x : XmlM α) : Prop :=
  ∀ i ≤ s.length, MovesAt s k x i

theorem MovesAt.bind {x : XmlM α} {f : α → XmlM β} {k k' i : ℕ} (hx : MovesAt s k x i)
    (hf : ∀ a j, x i = .ok a j → MovesAt s k' (f a) j) : MovesAt s (k + k') (x >>= f) i := by
  refine ⟨Prog.safe_bind_iff.2 ⟨hx.1, fun a j h => (hf a j h).1⟩, fun b j h => ?_⟩
  obtain ⟨a, j', hxi, hfj⟩ := Prog.bind_eq_ok.1 h
  have h₁ := hx.2 a j' hxi
  have h₂ := (hf a j' hxi).2 b j hfj
  omega

theorem MovesAt.bind_left {x : XmlM α} {f : α → XmlM β} {k i : ℕ} (hx : MovesAt s k x i)
    (hf : ∀ a j, x i = .ok a j → MovesAt s 0 (f a) j) : MovesAt s k (x >>= f) i :=
  hx.bind hf

theorem MovesAt.mono {x : XmlM α} {k k' i : ℕ} (h : MovesAt s k x i) (hk : k' ≤ k) :
    MovesAt s k' x i :=
  ⟨h.1, fun a j hx => ⟨by have := h.2 a j hx; omega, (h.2 a j hx).2⟩⟩

theorem moves_pure (a : α) : Moves s 0 (pure a) := by
  intro i hi
  refine ⟨Prog.total_pure a i, fun b j h => ?_⟩
  obtain ⟨-, rfl⟩ := Outcome.ok.inj h
  exact ⟨le_rfl, hi⟩

theorem moves_fail (e : PlistError) (k : ℕ) : Moves s k (Prog.fail e : XmlM α) :=
  fun i _ => ⟨Prog.total_fail e i, fun _ _ h => by cases h⟩

theorem movesAt_advance {n i : ℕ} (h : i + n ≤ s.length) : MovesAt s n (advance n) i := by
  refine ⟨Prog.total_modify _ i, fun a j hj => ?_⟩
  obtain ⟨-, rfl⟩ := Outcome.ok.inj hj
  exact ⟨le_rfl, h⟩

theorem advance_bind (n : ℕ) (f : Unit → XmlM α) (i : ℕ) : (advance n >>= f) i = f () (i + n) :=
  rfl

theorem MovesAt.advance {f : Unit → XmlM α} {k n i : ℕ} (hn : k ≤ n)
    (h : MovesAt s 0 (f ()) (i + n)) : MovesAt s k (Xml.advance n >>= f) i :=
  ⟨h.1, fun a j hj => ⟨by have := h.2 a j hj; omega, (h.2 a j hj).2⟩⟩

/-- Where the cursor is after white space. -/
def skip (s : List U8) (i : ℕ) : ℕ :=
  i + ((s.drop i).takeWhile isAsciiWhitespace).length

theorem skip_le {i : ℕ} (hi : i ≤ s.length) : i ≤ skip s i ∧ skip s i ≤ s.length := by
  have h : ((s.drop i).takeWhile isAsciiWhitespace).length ≤ (s.drop i).length :=
    (List.takeWhile_prefix _).length_le
  rw [List.length_drop] at h
  unfold skip
  omega

theorem skipWs_bind (f : Unit → XmlM α) (i : ℕ) : (skipWs s >>= f) i = f () (skip s i) :=
  rfl

theorem MovesAt.skipWs {f : Unit → XmlM α} {k i : ℕ} (hi : i ≤ s.length)
    (h : MovesAt s k (f ()) (skip s i)) : MovesAt s k (Xml.skipWs s >>= f) i :=
  ⟨h.1, fun a j hj => ⟨by have := h.2 a j hj; have := skip_le hi; omega, (h.2 a j hj).2⟩⟩

theorem rest_apply {i : ℕ} (hi : i ≤ s.length) : rest s i = .ok (s.drop i) i :=
  if_pos hi

/-- The reader looks for a tag at its cursor. -/
theorem startsWith_ite_apply {tag : List U8} {x y : XmlM α} {i : ℕ} (hi : i ≤ s.length) :
    (startsWith s tag >>= fun b => if b = true then x else y) i =
      if HoldsAt s i tag then x i else y i := by
  rw [startsWith, Prog.bind_apply, Prog.bind_apply, rest_apply hi]
  by_cases h : HoldsAt s i tag
  · rw [if_pos h]
    simp [List.isPrefixOf_iff_prefix.2 h]
  · rw [if_neg h]
    have hfalse : tag.isPrefixOf (s.drop i) = false := by
      rw [Bool.eq_false_iff, ne_eq, List.isPrefixOf_iff_prefix]
      exact h
    simp [hfalse]

theorem MovesAt.ite {tag : List U8} {x y : XmlM α} {k i : ℕ} (hi : i ≤ s.length)
    (hx : HoldsAt s i tag → MovesAt s k x i) (hy : MovesAt s k y i) :
    MovesAt s k (startsWith s tag >>= fun b => if b = true then x else y) i := by
  unfold MovesAt Prog.Safe
  rw [startsWith_ite_apply hi]
  split_ifs with h
  · exact hx h
  · exact hy

theorem moves_advancePast {stop : List U8} (hstop : 0 < stop.length) {i : ℕ} (hi : i < s.length) :
    MovesAt s 1 (advancePast s stop) i := by
  unfold advancePast MovesAt Prog.Safe
  rw [Prog.bind_apply, rest_apply hi.le]
  simp only
  cases hfind : find stop (s.drop i) with
  | none =>
    refine ⟨Prog.total_modify _ i, fun a j h => ?_⟩
    obtain ⟨-, rfl⟩ := Outcome.ok.inj h
    exact ⟨hi, le_rfl⟩
  | some pos =>
    have hle := find_le hfind
    rw [List.length_drop] at hle
    exact (movesAt_advance (by omega)).mono (by omega)

/-- An element with text takes its tags at least. -/
theorem moves_textElement {name : String} {i : ℕ} (h : HoldsAt s i (openTag name))
    (hpos : 0 < (openTag name).length) : MovesAt s 1 (textElement s name) i := by
  have hend := h.add_length_le hpos
  refine MovesAt.advance hpos ?_
  unfold MovesAt Prog.Safe
  rw [Prog.bind_apply, rest_apply hend]
  simp only
  cases hfind : find (closeTag name) (s.drop (i + (openTag name).length)) with
  | none => exact moves_fail _ 0 _ hend
  | some pos =>
    have hle := find_le hfind
    rw [List.length_drop] at hle
    exact MovesAt.advance (Nat.zero_le _) (moves_pure _ _ (by omega))

theorem moves_skipPrologue : ∀ fuel : ℕ, Moves s 0 (skipPrologue s fuel)
  | 0, i, hi => moves_pure () i hi
  | fuel + 1, i, hi => by
    have hskip := skip_le hi
    -- each kind of markup is skipped from where its first letters are
    have hround : ∀ (tag stop : List U8), 0 < tag.length → 0 < stop.length →
        HoldsAt s (skip s i) tag →
        MovesAt s 0 (advancePast s stop >>= fun _ => skipPrologue s fuel) (skip s i) := by
      intro tag stop htag hstop hat
      have hend := hat.add_length_le htag
      have hpast := moves_advancePast hstop (s := s) (i := skip s i) (by omega)
      exact (hpast.mono (Nat.zero_le 1)).bind_left fun a j hj =>
        moves_skipPrologue fuel j (hpast.2 a j hj).2
    refine MovesAt.skipWs hi ?_
    refine MovesAt.ite hskip.2 (hround _ _ (by decide) (by decide)) ?_
    refine MovesAt.ite hskip.2 (hround _ _ (by decide) (by decide)) ?_
    exact MovesAt.ite hskip.2 (hround _ _ (by decide) (by decide)) (moves_pure () _ hskip.2)

theorem moves_expectOpen : Moves s 0 (expectOpen s "plist") := by
  intro i hi
  have hskip := skip_le hi
  refine MovesAt.skipWs hi (MovesAt.ite hskip.2 (fun hat => ?_) (moves_fail _ 0 _ hskip.2))
  have hpos : 0 < (literal ("<" ++ "plist")).length := by decide
  have hend := hat.add_length_le hpos
  exact (moves_advancePast (by decide) (by omega)).mono (Nat.zero_le 1)

/-! ## Elements -/

theorem moves_dictEntries {child : XmlM PlistValue} (hchild : Moves s 0 child) :
    ∀ (fuel : ℕ) (map : List (String × PlistValue)), Moves s 0 (dictEntries s child fuel map)
  | 0, _ => moves_fail _ 0
  | fuel + 1, map => by
    intro i hi
    have hskip := skip_le hi
    refine MovesAt.skipWs hi (MovesAt.ite hskip.2 (fun hat => ?_)
      (MovesAt.ite hskip.2 (fun hat => ?_) (moves_fail _ 0 _ hskip.2)))
    · exact MovesAt.advance (Nat.zero_le _) (moves_pure _ _ (hat.add_length_le (by decide)))
    · have hkey := moves_textElement hat (by decide)
      refine (hkey.mono (Nat.zero_le 1)).bind_left fun key j hj => ?_
      have hj := (hkey.2 key j hj).2
      refine (hchild j hj).bind_left fun v j' hj' => ?_
      exact moves_dictEntries hchild fuel _ j' ((hchild j hj).2 v j' hj').2

theorem moves_arrayItems {child : XmlM PlistValue} (hchild : Moves s 0 child) :
    ∀ (fuel : ℕ) (out : List PlistValue), Moves s 0 (arrayItems s child fuel out)
  | 0, _ => moves_fail _ 0
  | fuel + 1, out => by
    intro i hi
    have hskip := skip_le hi
    refine MovesAt.skipWs hi (MovesAt.ite hskip.2 (fun hat => ?_) ?_)
    · exact MovesAt.advance (Nat.zero_le _) (moves_pure _ _ (hat.add_length_le (by decide)))
    · refine (hchild _ hskip.2).bind_left fun v j hj => ?_
      exact moves_arrayItems hchild fuel _ j ((hchild _ hskip.2).2 v j hj).2

/-- An element takes at least one byte. -/
theorem moves_value : ∀ fuel : ℕ, Moves s 1 (value s fuel)
  | 0 => moves_fail _ 1
  | fuel + 1 => by
    intro i hi
    have hskip := skip_le hi
    have hchild : Moves s 0 (value s fuel) := fun j hj =>
      (moves_value fuel j hj).mono (Nat.zero_le 1)
    have htext : ∀ (name : String) (f : List Char → PlistValue), 0 < (openTag name).length →
        HoldsAt s (skip s i) (openTag name) →
        MovesAt s 1 (textElement s name >>= fun t => pure (f t)) (skip s i) := by
      intro name f hpos hat
      have helem := moves_textElement hat hpos
      exact helem.bind_left fun t j hj => moves_pure _ j (helem.2 t j hj).2
    have hempty : ∀ (tag : List U8) (v : PlistValue), 0 < tag.length →
        HoldsAt s (skip s i) tag →
        MovesAt s 1 (advance tag.length >>= fun _ => pure v) (skip s i) :=
      fun tag v hpos hat => MovesAt.advance hpos (moves_pure _ _ (hat.add_length_le hpos))
    refine MovesAt.skipWs hi (MovesAt.ite hskip.2 (fun hat => ?_) (MovesAt.ite hskip.2
      (fun hat => ?_) (MovesAt.ite hskip.2 (htext _ _ (by decide)) (MovesAt.ite hskip.2
      (htext _ _ (by decide)) (MovesAt.ite hskip.2 (htext _ _ (by decide)) (MovesAt.ite hskip.2
      (hempty _ _ (by decide)) (MovesAt.ite hskip.2 (hempty _ _ (by decide)) (MovesAt.ite hskip.2
      (htext _ _ (by decide)) (moves_fail _ 1 _ hskip.2)))))))))
    · have hend := hat.add_length_le (by decide)
      have hloop := moves_dictEntries hchild fuel [] _ hend
      exact MovesAt.advance (by decide) (hloop.bind_left fun m j hj =>
        moves_pure _ j (hloop.2 m j hj).2)
    · have hend := hat.add_length_le (by decide)
      have hloop := moves_arrayItems hchild fuel [] _ hend
      exact MovesAt.advance (by decide) (hloop.bind_left fun m j hj =>
        moves_pure _ j (hloop.2 m j hj).2)

theorem moves_document (fuel : ℕ) : Moves s 0 (document s fuel) := by
  intro i hi
  have hpro := moves_skipPrologue fuel i hi
  refine hpro.bind_left fun _ j hj => ?_
  have hj := (hpro.2 _ j hj).2
  have hopen := moves_expectOpen j hj
  refine hopen.bind_left fun _ j' hj' => ?_
  exact (moves_value fuel j' (hopen.2 _ j' hj').2).mono (Nat.zero_le 1)

/-- Reading XML does not panic. -/
theorem safe_parse (bytes : List U8) : (parse bytes).Safe () := by
  unfold parse
  cases fromUtf8 bytes with
  | none => exact Prog.total_fail _ ()
  | some cs =>
    exact Prog.safe_within_iff.2 (moves_document (bytes.length + 1) 0 (Nat.zero_le _)).1

/-! ## The bound -/

theorem skipPrologue_fuel : ∀ {n m i : ℕ}, i ≤ s.length → s.length - i < n → s.length - i < m →
    skipPrologue s n i = skipPrologue s m i
  | 0, _, _, _, hn, _ => absurd hn (Nat.not_lt_zero _)
  | _ + 1, 0, _, _, _, hm => absurd hm (Nat.not_lt_zero _)
  | n + 1, m + 1, i, hi, hn, hm => by
    have hskip := skip_le hi
    have hround : ∀ (tag stop : List U8), 0 < tag.length → 0 < stop.length →
        HoldsAt s (skip s i) tag →
        (advancePast s stop >>= fun _ => skipPrologue s n) (skip s i) =
          (advancePast s stop >>= fun _ => skipPrologue s m) (skip s i) := by
      intro tag stop htag hstop hat
      have hend := hat.add_length_le htag
      refine Prog.bind_congr_at rfl fun a j hj => ?_
      have hmove := (moves_advancePast hstop (s := s) (i := skip s i) (by omega)).2 a j hj
      exact skipPrologue_fuel hmove.2 (by omega) (by omega)
    simp only [skipPrologue, skipWs_bind, startsWith_ite_apply hskip.2]
    split_ifs with h₁ h₂ h₃
    · exact hround _ _ (by decide) (by decide) h₁
    · exact hround _ _ (by decide) (by decide) h₂
    · exact hround _ _ (by decide) (by decide) h₃
    · rfl

section Children

variable {child child' : XmlM PlistValue} {i₀ : ℕ} (hmoves : Moves s 1 child)
  (hchild : ∀ j, i₀ ≤ j → j ≤ s.length → child j = child' j)

include hmoves hchild

theorem dictEntries_fuel : ∀ {n m i : ℕ} {map : List (String × PlistValue)}, i₀ ≤ i →
    i ≤ s.length → s.length - i < n → s.length - i < m →
    dictEntries s child n map i = dictEntries s child' m map i
  | 0, _, _, _, _, _, hn, _ => absurd hn (Nat.not_lt_zero _)
  | _ + 1, 0, _, _, _, _, _, hm => absurd hm (Nat.not_lt_zero _)
  | n + 1, m + 1, i, map, h₀, hi, hn, hm => by
    have hskip := skip_le hi
    simp only [dictEntries, skipWs_bind, startsWith_ite_apply hskip.2]
    split_ifs with h₁ h₂
    · rfl
    · refine Prog.bind_congr_at rfl fun key j hj => ?_
      have hj := (moves_textElement h₂ (by decide)).2 key j hj
      refine Prog.bind_congr_at (hchild j (by omega) hj.2) fun v j' hj' => ?_
      have hj' := (hmoves j hj.2).2 v j' hj'
      exact dictEntries_fuel (by omega) hj'.2 (by omega) (by omega)
    · rfl

theorem arrayItems_fuel : ∀ {n m i : ℕ} {out : List PlistValue}, i₀ ≤ i → i ≤ s.length →
    s.length - i < n → s.length - i < m → arrayItems s child n out i = arrayItems s child' m out i
  | 0, _, _, _, _, _, hn, _ => absurd hn (Nat.not_lt_zero _)
  | _ + 1, 0, _, _, _, _, _, hm => absurd hm (Nat.not_lt_zero _)
  | n + 1, m + 1, i, out, h₀, hi, hn, hm => by
    have hskip := skip_le hi
    simp only [arrayItems, skipWs_bind, startsWith_ite_apply hskip.2]
    split_ifs with h₁
    · rfl
    · refine Prog.bind_congr_at (hchild _ (by omega) hskip.2) fun v j hj => ?_
      have hj := (hmoves _ hskip.2).2 v j hj
      exact arrayItems_fuel (by omega) hj.2 (by omega) (by omega)

end Children

/-- A bound beyond what is left of the document is no bound. -/
theorem value_fuel : ∀ {n m i : ℕ}, i ≤ s.length → s.length - i < n → s.length - i < m →
    value s n i = value s m i
  | 0, _, _, _, hn, _ => absurd hn (Nat.not_lt_zero _)
  | _ + 1, 0, _, _, _, hm => absurd hm (Nat.not_lt_zero _)
  | n + 1, m + 1, i, hi, hn, hm => by
    have hskip := skip_le hi
    have hchild : ∀ j, i + 1 ≤ j → j ≤ s.length → value s n j = value s m j :=
      fun j h₀ hj => value_fuel hj (by omega) (by omega)
    simp only [value, skipWs_bind, startsWith_ite_apply hskip.2]
    split_ifs with h₁ h₂ <;> try rfl
    · have hpos : 0 < (openTag "dict").length := by decide
      have hend := h₁.add_length_le hpos
      rw [parseDict, parseDict, advance_bind, advance_bind]
      exact Prog.bind_congr_at (dictEntries_fuel (moves_value n) hchild (by omega) hend (by omega)
        (by omega)) fun _ _ _ => rfl
    · have hpos : 0 < (openTag "array").length := by decide
      have hend := h₂.add_length_le hpos
      rw [parseArray, parseArray, advance_bind, advance_bind]
      exact Prog.bind_congr_at (arrayItems_fuel (moves_value n) hchild (by omega) hend (by omega)
        (by omega)) fun _ _ _ => rfl

/-- Reading a document does not depend on the bound, once that is beyond its length. -/
theorem document_fuel {n : ℕ} (hn : s.length < n) :
    document s n 0 = document s (s.length + 1) 0 := by
  refine Prog.bind_congr_at (skipPrologue_fuel (Nat.zero_le _) (by omega) (by omega)) ?_
  intro _ j hj
  have hj := (moves_skipPrologue n 0 (Nat.zero_le _)).2 _ j hj
  refine Prog.bind_congr_at rfl fun _ j' hj' => ?_
  have hj' := (moves_expectOpen j hj.2).2 _ j' hj'
  exact value_fuel hj'.2 (by omega) (by omega)

end IosEmu.Xml
