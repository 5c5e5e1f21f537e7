import Mathlib.Data.List.Sort
import Mathlib.Order.Basic

/-!
# Ordered maps and tilings of an ordered space

`SortedMap` is a finite map with ordered keys, kept as its strictly increasing list of
entries. `insert` replaces the entry of an equal key, as a search tree does.
`lastLE a` and `lastLT a` are the entries with the greatest key at or below `a`, and
below `a` : the last entry of the ranges `..=a` and `..a`.

A map from start points to values with an end point is a tiling (`Tiles`) when every
value ends no earlier than it starts, and before the next one starts. In a tiling the
entry found by `lastLE` is the only one whose span can hold a given point
(`Tiles.lastLE_of_mem_span`), and it is enough to look at one neighbour, the last entry
below the end of a new span, to see that the span is free (`Tiles.insert`).
-/

namespace SysLib

/-- A finite map, as its entries in strictly increasing order of their keys. -/
structure SortedMap (κ ν : Type) [LinearOrder κ] where
  entries : List (κ × ν)
  sorted : entries.Pairwise fun x y => x.1 < y.1

namespace SortedMap

variable {κ ν : Type} [LinearOrder κ]

/-- The map with no entry. -/
def empty : SortedMap κ ν :=
  ⟨[], List.Pairwise.nil⟩

/-- The value at a key. -/
def get? (m : SortedMap κ ν) (k : κ) : Option ν :=
  (m.entries.find? fun e => e.1 = k).map Prod.snd

/-- Put an entry into an increasing list, in place of one with the same key. -/
def insertEntry (k : κ) (v : ν) : List (κ × ν) → List (κ × ν)
  | [] => [(k, v)]
  | e :: l =>
    if k < e.1 then (k, v) :: e :: l
    else if k = e.1 then (k, v) :: l
    else e :: insertEntry k v l

theorem mem_insertEntry {k : κ} {v : ν} {e : κ × ν} :
    ∀ {l : List (κ × ν)}, e ∈ insertEntry k v l → e = (k, v) ∨ e ∈ l
  | [], h => by simpa [insertEntry] using h
  | x :: l, h => by
    unfold insertEntry at h
    split_ifs at h with h₁ h₂
    · simpa using h
    · rcases List.mem_cons.1 h with h | h
      · exact Or.inl h
      · exact Or.inr (List.mem_cons_of_mem x h)
    · rcases List.mem_cons.1 h with rfl | h
      · exact Or.inr (by simp)
      · rcases mem_insertEntry h with h | h
        · exact Or.inl h
        · exact Or.inr (List.mem_cons_of_mem x h)

theorem pairwise_insertEntry (k : κ) (v : ν) :
    ∀ {l : List (κ × ν)}, l.Pairwise (fun x y => x.1 < y.1) →
      (insertEntry k v l).Pairwise fun x y => x.1 < y.1
  | [], _ => by simp [insertEntry]
  | x :: l, h => by
    obtain ⟨hx, hl⟩ := List.pairwise_cons.1 h
    unfold insertEntry
    split_ifs with h₁ h₂
    · refine List.pairwise_cons.2 ⟨fun e he => ?_, h⟩
      rcases List.mem_cons.1 he with rfl | he
      · exact h₁
      · exact h₁.trans (hx e he)
    · refine List.pairwise_cons.2 ⟨fun e he => ?_, hl⟩
      rw [h₂]
      exact hx e he
    · refine List.pairwise_cons.2 ⟨fun e he => ?_, pairwise_insertEntry k v hl⟩
      rcases mem_insertEntry he with rfl | he
      · exact lt_of_le_of_ne (not_lt.1 h₁) (Ne.symm h₂)
      · exact hx e he

/-- Put `v` at `k`, replacing what was there. -/
def insert (m : SortedMap κ ν) (k : κ) (v : ν) : SortedMap κ ν :=
  ⟨insertEntry k v m.entries, pairwise_insertEntry k v m.sorted⟩

theorem insertEntry_insertEntry (k : κ) (v w : ν) :
    ∀ l : List (κ × ν), insertEntry k w (insertEntry k v l) = insertEntry k w l
  | [] => by simp [insertEntry]
  | x :: l => by
    by_cases h₁ : k < x.1
    · simp [insertEntry, h₁]
    · by_cases h₂ : k = x.1
      · simp [insertEntry, h₂]
      · simp [insertEntry, h₁, h₂, insertEntry_insertEntry k v w l]

/-- Only the last of two values put at a key stays. -/
theorem insert_insert (m : SortedMap κ ν) (k : κ) (v w : ν) :
    (m.insert k v).insert k w = m.insert k w := by
  simp only [insert, insertEntry_insertEntry]

theorem map_insertEntry {ν' : Type} (f : ν → ν') (k : κ) (v : ν) : ∀ l : List (κ × ν),
    (insertEntry k v l).map (fun e => (e.1, f e.2)) =
      insertEntry k (f v) (l.map fun e => (e.1, f e.2))
  | [] => rfl
  | e :: l => by
    simp only [List.map_cons, insertEntry]
    split_ifs with h₁ h₂
    · rfl
    · rfl
    · rw [List.map_cons, map_insertEntry f k v l]

/-! ## Putting in a whole list -/

/-- A new key adds an entry and changes none. -/
theorem insertEntry_perm (k : κ) (v : ν) :
    ∀ {l : List (κ × ν)}, (∀ e ∈ l, e.1 ≠ k) → (insertEntry k v l).Perm ((k, v) :: l)
  | [], _ => List.Perm.refl _
  | e :: l, h => by
    have hne : e.1 ≠ k := h e List.mem_cons_self
    have ih := insertEntry_perm k v fun e' he' => h e' (List.mem_cons_of_mem e he')
    unfold insertEntry
    split_ifs with h₁ h₂
    · exact List.Perm.refl _
    · exact absurd h₂.symm hne
    · exact (ih.cons e).trans (List.Perm.swap _ _ _)

theorem foldl_insertEntry_perm : ∀ {l m : List (κ × ν)},
    (m ++ l).Pairwise (fun e e' => e.1 ≠ e'.1) →
      (l.foldl (fun m e => insertEntry e.1 e.2 m) m).Perm (m ++ l)
  | [], m, _ => by simp
  | e :: l, m, h => by
    have hperm : (insertEntry e.1 e.2 m).Perm (e :: m) := insertEntry_perm e.1 e.2 fun e' he' =>
      (List.pairwise_append.1 h).2.2 e' he' e List.mem_cons_self
    have hmove : (insertEntry e.1 e.2 m ++ l).Perm (m ++ e :: l) :=
      (hperm.append_right l).trans List.perm_middle.symm
    have ih := foldl_insertEntry_perm ((hmove.pairwise_iff fun h => Ne.symm h).2 h)
    rw [List.foldl_cons]
    exact ih.trans hmove

theorem pairwise_foldl_insertEntry : ∀ {l m : List (κ × ν)},
    m.Pairwise (fun e e' => e.1 < e'.1) →
      (l.foldl (fun m e => insertEntry e.1 e.2 m) m).Pairwise fun e e' => e.1 < e'.1
  | [], _, h => h
  | e :: l, _, h => by
    rw [List.foldl_cons]
    exact pairwise_foldl_insertEntry (pairwise_insertEntry e.1 e.2 h)

/-- The entries of a map, put in in any order, make up the map. -/
theorem foldl_insertEntry_eq {l entries : List (κ × ν)} (hperm : l.Perm entries)
    (hsorted : entries.Pairwise fun e e' => e.1 < e'.1) :
    l.foldl (fun m e => insertEntry e.1 e.2 m) [] = entries := by
  have hne : ([] ++ l).Pairwise fun e e' : κ × ν => e.1 ≠ e'.1 := by
    rw [List.nil_append, hperm.pairwise_iff fun h => Ne.symm h]
    exact hsorted.imp fun h => ne_of_lt h
  refine List.Perm.eq_of_pairwise (fun e e' _ _ h h' => absurd h (lt_asymm h'))
    (pairwise_foldl_insertEntry List.Pairwise.nil) hsorted ?_
  exact (foldl_insertEntry_perm hne).trans hperm

/-- Take out the entry of `k`. -/
def erase (m : SortedMap κ ν) (k : κ) : SortedMap κ ν :=
  ⟨m.entries.filter fun e => e.1 ≠ k, m.sorted.filter _⟩

/-- The entry with the greatest key at or below `a`. -/
def lastLE (m : SortedMap κ ν) (a : κ) : Option (κ × ν) :=
  (m.entries.filter fun e => e.1 ≤ a).getLast?

/-- The entry with the greatest key below `a`. -/
def lastLT (m : SortedMap κ ν) (a : κ) : Option (κ × ν) :=
  (m.entries.filter fun e => e.1 < a).getLast?

/-! ## Lookup -/

@[simp] theorem get?_empty (k : κ) : (empty : SortedMap κ ν).get? k = none :=
  rfl

/-- A key has one entry, so lookup is membership. -/
theorem get?_eq_some_iff {m : SortedMap κ ν} {k : κ} {v : ν} :
    m.get? k = some v ↔ (k, v) ∈ m.entries := by
  obtain ⟨l, hl⟩ := m
  simp only [get?]
  induction l with
  | nil => simp
  | cons x l ih =>
    obtain ⟨hx, hl'⟩ := List.pairwise_cons.1 hl
    by_cases hk : x.1 = k
    · constructor
      · intro h
        simp only [List.find?_cons, hk, decide_true, Option.map_some, Option.some.injEq] at h
        rw [← hk, ← h]
        simp
      · intro h
        rcases List.mem_cons.1 h with rfl | h
        · simp
        · exact absurd (hx _ h) (by simp [hk])
    · rw [List.find?_cons_of_neg (by simpa using hk), ih hl']
      constructor
      · exact fun h => List.mem_cons_of_mem x h
      · intro h
        rcases List.mem_cons.1 h with rfl | h
        · exact absurd rfl hk
        · exact h

theorem insertEntry_of_mem {k : κ} {v : ν} :
    ∀ {l : List (κ × ν)}, l.Pairwise (fun x y => x.1 < y.1) → (k, v) ∈ l → insertEntry k v l = l
  | x :: l, hl, h => by
    obtain ⟨hx, hl⟩ := List.pairwise_cons.1 hl
    unfold insertEntry
    rcases List.mem_cons.1 h with rfl | h
    · rw [if_neg (lt_irrefl _), if_pos rfl]
    · have hlt := hx _ h
      rw [if_neg (lt_asymm hlt), if_neg (ne_of_gt hlt), insertEntry_of_mem hl h]

/-- Putting a value where it is changes nothing. -/
theorem insert_of_get? {m : SortedMap κ ν} {k : κ} {v : ν} (h : m.get? k = some v) :
    m.insert k v = m := by
  rcases m with ⟨l, hl⟩
  unfold insert
  congr 1
  exact insertEntry_of_mem hl (get?_eq_some_iff.1 h)

theorem find?_insertEntry (k k' : κ) (v : ν) :
    ∀ l : List (κ × ν), l.Pairwise (fun x y => x.1 < y.1) →
      ((insertEntry k v l).find? fun e => e.1 = k') =
        if k' = k then some (k, v) else l.find? fun e => e.1 = k'
  | [], _ => by
    by_cases h : k' = k
    · simp [insertEntry, h]
    · simp [insertEntry, h, Ne.symm h]
  | x :: l, hl => by
    obtain ⟨hx, hl'⟩ := List.pairwise_cons.1 hl
    unfold insertEntry
    by_cases hk : k' = k
    · subst hk
      rw [if_pos rfl]
      split_ifs with h₁ h₂
      · simp
      · simp
      · rw [List.find?_cons_of_neg (by simpa using Ne.symm h₂), find?_insertEntry _ _ _ l hl',
          if_pos rfl]
    · rw [if_neg hk]
      split_ifs with h₁ h₂
      · rw [List.find?_cons_of_neg (by simpa using Ne.symm hk)]
      · rw [List.find?_cons_of_neg (by simpa using Ne.symm hk),
          List.find?_cons_of_neg (by simpa [← h₂] using Ne.symm hk)]
      · rw [List.find?_cons, List.find?_cons, find?_insertEntry _ _ _ l hl', if_neg hk]

theorem get?_insert (m : SortedMap κ ν) (k k' : κ) (v : ν) :
    (m.insert k v).get? k' = if k' = k then some v else m.get? k' := by
  simp only [get?, insert, find?_insertEntry k k' v m.entries m.sorted]
  split_ifs <;> rfl

@[simp] theorem get?_insert_self (m : SortedMap κ ν) (k : κ) (v : ν) :
    (m.insert k v).get? k = some v := by
  rw [get?_insert, if_pos rfl]

theorem get?_insert_of_ne (m : SortedMap κ ν) {k k' : κ} (v : ν) (h : k' ≠ k) :
    (m.insert k v).get? k' = m.get? k' := by
  rw [get?_insert, if_neg h]

/-- Keys that are not in a list of entries are found as before it is inserted. -/
theorem get?_foldl_insert_of_notMem {k : κ} : ∀ {l : List (κ × ν)} (m : SortedMap κ ν),
    k ∉ l.map Prod.fst → (l.foldl (fun m e => m.insert e.1 e.2) m).get? k = m.get? k
  | [], _, _ => rfl
  | e :: l, m, h => by
    rw [List.map_cons, List.mem_cons, not_or] at h
    rw [List.foldl_cons, get?_foldl_insert_of_notMem _ h.2, get?_insert_of_ne m e.2 h.1]

/-- What is found after a list of entries is inserted is one of them, or was there before. -/
theorem mem_of_get?_foldl_insert {k : κ} {v : ν} : ∀ {l : List (κ × ν)} {m : SortedMap κ ν},
    (l.foldl (fun m e => m.insert e.1 e.2) m).get? k = some v →
      (k, v) ∈ l ∨ m.get? k = some v
  | [], _, h => Or.inr h
  | e :: l, m, h => by
    rcases mem_of_get?_foldl_insert (l := l) h with h | h
    · exact Or.inl (List.mem_cons_of_mem _ h)
    · rw [get?_insert] at h
      split_ifs at h with hk
      · obtain rfl := Option.some.inj h
        rw [hk]
        exact Or.inl List.mem_cons_self
      · exact Or.inr h

/-- Entries with different keys are all found. -/
theorem get?_foldl_insert_of_mem {k : κ} {v : ν} : ∀ {l : List (κ × ν)} (m : SortedMap κ ν),
    (l.map Prod.fst).Nodup → (k, v) ∈ l →
      (l.foldl (fun m e => m.insert e.1 e.2) m).get? k = some v
  | e :: l, m, hnodup, h => by
    rw [List.map_cons, List.nodup_cons] at hnodup
    rw [List.foldl_cons]
    rcases List.mem_cons.1 h with rfl | h
    · rw [get?_foldl_insert_of_notMem _ hnodup.1, get?_insert_self]
    · exact get?_foldl_insert_of_mem _ hnodup.2 h

theorem get?_erase_eq_some_iff {m : SortedMap κ ν} {k k' : κ} {v : ν} :
    (m.erase k).get? k' = some v ↔ k' ≠ k ∧ m.get? k' = some v := by
  rw [get?_eq_some_iff, get?_eq_some_iff, erase, List.mem_filter]
  simp [and_comm]

/-! ## The last entry of a range -/

/-- The last entry of an increasing list that passes a downward closed test. -/
theorem getLast?_filter_eq_some_iff (p : κ → Prop) [DecidablePred p] {m : SortedMap κ ν}
    {k : κ} {v : ν} :
    (m.entries.filter fun e => p e.1).getLast? = some (k, v) ↔
      m.get? k = some v ∧ p k ∧ ∀ k' v', m.get? k' = some v' → p k' → k' ≤ k := by
  simp only [get?_eq_some_iff]
  have hs := m.sorted.filter fun e => decide (p e.1)
  constructor
  · intro h
    have hmem := List.mem_of_getLast? h
    obtain ⟨hk, hp⟩ := List.mem_filter.1 hmem
    refine ⟨hk, by simpa using hp, fun k' v' hk' hp' => ?_⟩
    have hmem' : (k', v') ∈ m.entries.filter fun e => decide (p e.1) :=
      List.mem_filter.2 ⟨hk', by simpa using hp'⟩
    obtain ⟨l, hl⟩ := List.getLast?_eq_some_iff.1 h
    rw [hl] at hmem' hs
    rcases List.mem_append.1 hmem' with h' | h'
    · exact ((List.pairwise_append.1 hs).2.2 _ h' (k, v) (by simp)).le
    · exact (congrArg Prod.fst (List.mem_singleton.1 h')).le
  · rintro ⟨hk, hp, hmax⟩
    have hmem : (k, v) ∈ m.entries.filter fun e => decide (p e.1) :=
      List.mem_filter.2 ⟨hk, by simpa using hp⟩
    rcases List.eq_nil_or_concat (m.entries.filter fun e => decide (p e.1)) with h | ⟨l, e, h⟩
    · rw [h] at hmem
      simp at hmem
    · rw [List.concat_eq_append] at h
      rw [h] at hmem hs
      rw [h, List.getLast?_append, List.getLast?_singleton, Option.some_or]
      rcases List.mem_append.1 hmem with h' | h'
      · have hlt := (List.pairwise_append.1 hs).2.2 _ h' e (by simp)
        have he : e ∈ m.entries.filter fun e => decide (p e.1) := by rw [h]; simp
        obtain ⟨he, hpe⟩ := List.mem_filter.1 he
        exact absurd (hmax e.1 e.2 he (by simpa using hpe)) (not_le.2 hlt)
      · rw [List.mem_singleton.1 h']

theorem lastLE_eq_some_iff {m : SortedMap κ ν} {a k : κ} {v : ν} :
    m.lastLE a = some (k, v) ↔
      m.get? k = some v ∧ k ≤ a ∧ ∀ k' v', m.get? k' = some v' → k' ≤ a → k' ≤ k :=
  getLast?_filter_eq_some_iff (· ≤ a)

theorem lastLT_eq_some_iff {m : SortedMap κ ν} {a k : κ} {v : ν} :
    m.lastLT a = some (k, v) ↔
      m.get? k = some v ∧ k < a ∧ ∀ k' v', m.get? k' = some v' → k' < a → k' ≤ k :=
  getLast?_filter_eq_some_iff (· < a)

theorem exists_lastLT {m : SortedMap κ ν} {a k : κ} {v : ν} (hk : m.get? k = some v)
    (ha : k < a) : ∃ k' v', m.lastLT a = some (k', v') := by
  cases h : m.lastLT a with
  | some e => exact ⟨e.1, e.2, rfl⟩
  | none =>
    have hnil := List.getLast?_eq_none_iff.1 h
    have hmem : (k, v) ∈ m.entries.filter fun e => decide (e.1 < a) :=
      List.mem_filter.2 ⟨get?_eq_some_iff.1 hk, by simpa using ha⟩
    rw [hnil] at hmem
    simp at hmem

/-! ## Tilings -/

/-- Each value ends at or after its key and at or before every later key. -/
structure Tiles (m : SortedMap κ ν) (stop : ν → κ) : Prop where
  le_stop : ∀ k v, m.get? k = some v → k ≤ stop v
  stop_le : ∀ k v k' v', m.get? k = some v → m.get? k' = some v' → k < k' → stop v ≤ k'

namespace Tiles

variable {m : SortedMap κ ν} {stop : ν → κ}

theorem empty : Tiles (SortedMap.empty : SortedMap κ ν) stop :=
  ⟨by simp, by simp⟩

/-- The span that holds a point is the one with the nearest start. -/
theorem lastLE_of_mem_span (h : m.Tiles stop) {k a : κ} {v : ν} (hk : m.get? k = some v)
    (hle : k ≤ a) (hlt : a < stop v) : m.lastLE a = some (k, v) := by
  refine lastLE_eq_some_iff.2 ⟨hk, hle, fun k' v' hk' hle' => ?_⟩
  by_contra hlt'
  exact absurd (h.stop_le k v k' v' hk hk' (not_le.1 hlt')) (not_le.2 (hle'.trans_lt hlt))

/-- A span whose end has no neighbour below it reaching past its start is free : every
other entry ends at or before `s`, or starts at or after `e`. -/
theorem free_of_lastLT (h : m.Tiles stop) {s e : κ}
    (hfree : ∀ k v, m.lastLT e = some (k, v) → stop v ≤ s) {k : κ} {v : ν}
    (hk : m.get? k = some v) : (k ≤ s ∧ stop v ≤ s) ∨ e ≤ k := by
  rcases lt_or_ge k e with hlt | hge
  · obtain ⟨kn, vn, hn⟩ := exists_lastLT hk hlt
    obtain ⟨hkn, hlt', hmax⟩ := lastLT_eq_some_iff.1 hn
    have hstop := hfree kn vn hn
    have hkns : kn ≤ s := (h.le_stop kn vn hkn).trans hstop
    rcases lt_or_eq_of_le (hmax k v hk hlt) with hlt'' | rfl
    · exact Or.inl ⟨hlt''.le.trans hkns, (h.stop_le k v kn vn hk hkn hlt'').trans hkns⟩
    · obtain rfl : v = vn := Option.some.inj (hk.symm.trans hkn)
      exact Or.inl ⟨hkns, hstop⟩
  · exact Or.inr hge

/-- Mapping a free span keeps the tiling. One neighbour is looked at. -/
theorem insert (h : m.Tiles stop) {s : κ} {v : ν} (hse : s ≤ stop v)
    (hfree : ∀ k w, m.lastLT (stop v) = some (k, w) → stop w ≤ s) :
    (m.insert s v).Tiles stop := by
  refine ⟨fun k w hk => ?_, fun k w k' w' hk hk' hlt => ?_⟩
  · rw [get?_insert] at hk
    split_ifs at hk with hks
    · obtain rfl := Option.some.inj hk
      rwa [hks]
    · exact h.le_stop k w hk
  · rw [get?_insert] at hk hk'
    split_ifs at hk hk' with h₁ h₂ h₂
    · exact absurd (h₁.trans h₂.symm) hlt.ne
    · obtain rfl := Option.some.inj hk
      rcases h.free_of_lastLT hfree hk' with ⟨hle, -⟩ | hge
      · exact absurd (h₁ ▸ hlt) (not_lt.2 hle)
      · exact hge
    · rw [h₂]
      rcases h.free_of_lastLT hfree hk with ⟨-, hle⟩ | hge
      · exact hle
      · exact absurd (h₂ ▸ hlt) (not_lt.2 (hse.trans hge))
    · exact h.stop_le k w k' w' hk hk' hlt

/-- Changing a value without moving its end keeps the tiling. -/
theorem replace (h : m.Tiles stop) {k : κ} {v v' : ν} (hk : m.get? k = some v)
    (hstop : stop v' = stop v) : (m.insert k v').Tiles stop := by
  have key : ∀ k₁ v₁, (m.insert k v').get? k₁ = some v₁ →
      ∃ w, m.get? k₁ = some w ∧ stop v₁ = stop w := by
    intro k₁ v₁ h₁
    rw [get?_insert] at h₁
    split_ifs at h₁ with hkk
    · obtain rfl := Option.some.inj h₁
      exact ⟨v, hkk ▸ hk, hstop⟩
    · exact ⟨v₁, h₁, rfl⟩
  refine ⟨fun k₁ v₁ h₁ => ?_, fun k₁ v₁ k₂ v₂ h₁ h₂ hlt => ?_⟩
  · obtain ⟨w, hw, hs⟩ := key k₁ v₁ h₁
    rw [hs]
    exact h.le_stop k₁ w hw
  · obtain ⟨w, hw, hs⟩ := key k₁ v₁ h₁
    obtain ⟨w₂, hw₂, -⟩ := key k₂ v₂ h₂
    rw [hs]
    exact h.stop_le k₁ w k₂ w₂ hw hw₂ hlt

end Tiles

end SortedMap

end SysLib
