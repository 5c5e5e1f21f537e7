import Mathlib.Data.List.OfFn
import Mathlib.Data.List.GetD

/-!
# Buffers of bounded size

A growable vector of the host cannot hold more than a fixed number `cap` of entries.
`Buffer` is its length, at most `cap`, and its entries. `overwrite` stores a list at an
offset and leaves the length and the other entries alone; `slice` copies a range out.

Entries are reached through `get?`, which is `none` past the end, so two buffers of one
length are equal when their entries are (`Buffer.ext_get?`), and a slice after an
overwrite is the old slice with the stored list laid over it (`slice_overwrite`).
-/

namespace SysLib

/-- A vector of at most `cap` entries. -/
structure Buffer (α : Type) (cap : ℕ) where
  size : ℕ
  entry : Fin size → α
  size_le : size ≤ cap

namespace Buffer

variable {α : Type} {cap : ℕ}

/-- The entry at an index, if it is below the size. -/
def get? (b : Buffer α cap) (i : ℕ) : Option α :=
  if h : i < b.size then some (b.entry ⟨i, h⟩) else none

/-- `n` copies of `a`. -/
def replicate (n : ℕ) (a : α) (h : n ≤ cap) : Buffer α cap :=
  ⟨n, fun _ => a, h⟩

/-- `n` entries that start with `l` and go on with `a`. -/
def ofPrefix (n : ℕ) (l : List α) (a : α) (h : n ≤ cap) : Buffer α cap :=
  ⟨n, fun i => l.getD i a, h⟩

/-- The entries of `[off, off + len)`. -/
def slice (b : Buffer α cap) (off len : ℕ) : List α :=
  (List.range len).filterMap fun i => b.get? (off + i)

/-- Store `l` from `off` on. What would fall past the end is dropped. -/
def overwrite (b : Buffer α cap) (off : ℕ) (l : List α) : Buffer α cap :=
  ⟨b.size, fun i => if off ≤ i then l.getD (i - off) (b.entry i) else b.entry i, b.size_le⟩

/-- The list `old`, whose first entry has index `start`, with `l` laid over it from
index `off` on. -/
def overlay (old : List α) (start off : ℕ) (l : List α) : List α :=
  old.mapIdx fun i x => if off ≤ start + i then l.getD (start + i - off) x else x

/-! ## Entries -/

theorem get?_of_lt {b : Buffer α cap} {i : ℕ} (h : i < b.size) :
    b.get? i = some (b.entry ⟨i, h⟩) :=
  dif_pos h

theorem get?_eq_none_iff {b : Buffer α cap} {i : ℕ} : b.get? i = none ↔ b.size ≤ i := by
  unfold get?
  split_ifs with h
  · simp [h]
  · simp [not_lt.1 h]

theorem ext_get? {b c : Buffer α cap} (hsize : b.size = c.size)
    (h : ∀ i < b.size, b.get? i = c.get? i) : b = c := by
  obtain ⟨n, f, hf⟩ := b
  obtain ⟨m, g, hg⟩ := c
  obtain rfl : n = m := hsize
  have hfg : f = g := by
    funext ⟨i, hi⟩
    simpa [get?, hi] using h i hi
  rw [hfg]

@[simp] theorem size_replicate (n : ℕ) (a : α) (h : n ≤ cap) : (replicate n a h).size = n :=
  rfl

theorem get?_replicate {n : ℕ} {a : α} {h : n ≤ cap} {i : ℕ} (hi : i < n) :
    (replicate n a h).get? i = some a :=
  get?_of_lt hi

@[simp] theorem size_ofPrefix (n : ℕ) (l : List α) (a : α) (h : n ≤ cap) :
    (ofPrefix n l a h).size = n :=
  rfl

theorem get?_ofPrefix {n : ℕ} {l : List α} {a : α} {h : n ≤ cap} {i : ℕ} (hi : i < n) :
    (ofPrefix n l a h).get? i = some (l.getD i a) :=
  get?_of_lt hi

@[simp] theorem size_overwrite (b : Buffer α cap) (off : ℕ) (l : List α) :
    (b.overwrite off l).size = b.size :=
  rfl

theorem get?_overwrite (b : Buffer α cap) (off : ℕ) (l : List α) (i : ℕ) :
    (b.overwrite off l).get? i =
      (b.get? i).map fun x => if off ≤ i then l.getD (i - off) x else x := by
  unfold get?
  by_cases h : i < b.size
  · simp [h, overwrite]
  · simp [h]

/-- Entries before the stored list, or after it, are unchanged. -/
theorem get?_overwrite_of_disjoint (b : Buffer α cap) {off : ℕ} {l : List α} {i : ℕ}
    (h : i < off ∨ off + l.length ≤ i) : (b.overwrite off l).get? i = b.get? i := by
  rw [get?_overwrite]
  have hid : (fun x : α => if off ≤ i then l.getD (i - off) x else x) = id := by
    funext x
    split_ifs with hle
    · rw [List.getD_eq_default _ _ (by omega)]
      rfl
    · rfl
  rw [hid, Option.map_id, id]

/-- Storing an appended list stores the two lists one after the other. -/
theorem overwrite_append (b : Buffer α cap) (off : ℕ) (l₁ l₂ : List α) :
    b.overwrite off (l₁ ++ l₂) = (b.overwrite off l₁).overwrite (off + l₁.length) l₂ := by
  refine ext_get? rfl fun i hi => ?_
  rw [get?_overwrite, get?_overwrite, get?_overwrite, get?_of_lt (show i < b.size from hi)]
  simp only [Option.map_some, Option.some.injEq]
  by_cases hlo : off ≤ i
  · rw [if_pos hlo, if_pos hlo]
    by_cases hhi : off + l₁.length ≤ i
    · rw [if_pos hhi, List.getD_append_right _ _ _ _ (by omega),
        List.getD_eq_default l₁ _ (by omega)]
      congr 1
      omega
    · rw [if_neg hhi, List.getD_append _ _ _ _ (by omega)]
  · rw [if_neg hlo, if_neg hlo, if_neg (by omega)]

/-! ## Slices -/

theorem slice_succ {b : Buffer α cap} {off len : ℕ} (h : off + len < b.size) :
    b.slice off (len + 1) = b.slice off len ++ [b.entry ⟨off + len, h⟩] := by
  simp [slice, List.range_succ, get?_of_lt h]

theorem slice_eq_map {b : Buffer α cap} {off : ℕ} :
    ∀ {len : ℕ}, off + len ≤ b.size →
      (b.slice off len).map some = (List.range len).map fun i => b.get? (off + i)
  | 0, _ => rfl
  | len + 1, h => by
    rw [slice_succ (by omega), List.map_append, slice_eq_map (by omega), List.range_succ,
      List.map_append, List.map_singleton, List.map_singleton, get?_of_lt]

theorem length_slice {b : Buffer α cap} {off len : ℕ} (h : off + len ≤ b.size) :
    (b.slice off len).length = len := by
  simpa using congrArg List.length (slice_eq_map h)

theorem getElem?_slice {b : Buffer α cap} {off len i : ℕ} (h : off + len ≤ b.size)
    (hi : i < len) : (b.slice off len)[i]? = b.get? (off + i) := by
  have hlen := length_slice h
  have hmap := congrArg (fun l => l[i]?) (slice_eq_map h)
  simp only [List.getElem?_map, List.getElem?_range hi, Option.map_some] at hmap
  rw [List.getElem?_eq_getElem (by omega), Option.map_some, Option.some.injEq] at hmap
  rw [List.getElem?_eq_getElem (by omega), hmap]

@[simp] theorem length_overlay (old : List α) (start off : ℕ) (l : List α) :
    (overlay old start off l).length = old.length := by
  simp [overlay]

theorem getElem?_overlay (old : List α) (start off : ℕ) (l : List α) (i : ℕ) :
    (overlay old start off l)[i]? =
      old[i]?.map fun x => if off ≤ start + i then l.getD (start + i - off) x else x := by
  simp [overlay]

/-- A list laid over one of its length at the same index replaces it. -/
theorem overlay_self {old l : List α} {start : ℕ} (h : old.length = l.length) :
    overlay old start start l = l := by
  refine List.ext_getElem? fun i => ?_
  rw [getElem?_overlay]
  rcases lt_or_ge i l.length with hi | hi
  · rw [List.getElem?_eq_getElem (h ▸ hi), Option.map_some, if_pos (Nat.le_add_right _ _),
      Nat.add_sub_cancel_left, List.getD_eq_getElem _ _ hi, List.getElem?_eq_getElem hi]
  · rw [List.getElem?_eq_none (h ▸ hi), List.getElem?_eq_none hi, Option.map_none]

/-- Storing what is there changes nothing. -/
theorem overwrite_slice {b : Buffer α cap} {off len : ℕ} (h : off + len ≤ b.size) :
    b.overwrite off (b.slice off len) = b := by
  refine ext_get? rfl fun i _ => ?_
  rcases lt_or_ge i off with hi | hi
  · exact get?_overwrite_of_disjoint b (Or.inl hi)
  · rcases lt_or_ge i (off + len) with hi' | hi'
    · rw [get?_overwrite, get?_of_lt (show i < b.size by omega), Option.map_some, if_pos hi]
      congr 1
      rw [List.getD_eq_getElem?_getD, getElem?_slice h (show i - off < len by omega),
        Nat.add_sub_cancel' hi, get?_of_lt (show i < b.size by omega), Option.getD_some]
    · exact get?_overwrite_of_disjoint b (Or.inr (by rw [length_slice h]; exact hi'))

/-- A range read is two adjacent ranges read in turn. -/
theorem slice_append {b : Buffer α cap} {off n k : ℕ} (h : off + n + k ≤ b.size) :
    b.slice off (n + k) = b.slice off n ++ b.slice (off + n) k := by
  refine List.ext_getElem? fun i => ?_
  have hn : (b.slice off n).length = n := length_slice (by omega)
  have hk : (b.slice (off + n) k).length = k := length_slice (by omega)
  have hnk : (b.slice off (n + k)).length = n + k := length_slice (by omega)
  rcases lt_or_ge i n with hi | hi
  · rw [getElem?_slice (by omega) (by omega), List.getElem?_append_left (by omega),
      getElem?_slice (by omega) hi]
  · rw [List.getElem?_append_right (by omega), hn]
    rcases lt_or_ge i (n + k) with hi' | hi'
    · rw [getElem?_slice (by omega) hi', getElem?_slice (by omega) (by omega)]
      congr 1
      omega
    · rw [List.getElem?_eq_none (by omega), List.getElem?_eq_none (by omega)]

end Buffer

end SysLib
