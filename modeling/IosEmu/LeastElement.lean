import Mathlib.Data.List.MinMax

/-!
# Choosing a least element of a list

`List.argmin` takes the first of the elements for which a measure is least. So for a list in
another order it may be another one : the choice is the same for every order exactly if there is
only one (`argmin_perm_iff`). The elements may come from those of another list, of which some
yield none.
-/

namespace SysLib

variable {α β γ : Type*} [LinearOrder β] {f : α → β} {l l' : List α} {a : α}

/-- The measure of `a` is least in the list. -/
def IsLeastIn (f : α → β) (l : List α) (a : α) : Prop :=
  a ∈ l ∧ ∀ b ∈ l, f a ≤ f b

theorem IsLeastIn.perm (h : IsLeastIn f l a) (hperm : l.Perm l') : IsLeastIn f l' a :=
  ⟨hperm.mem_iff.1 h.1, fun b hb => h.2 b (hperm.mem_iff.2 hb)⟩

theorem isLeastIn_of_argmin (h : l.argmin f = some a) : IsLeastIn f l a :=
  ⟨List.argmin_mem h, fun _ hb => List.le_of_mem_argmin hb h⟩

/-- A least element at the front is the choice. -/
theorem argmin_cons_of_isLeastIn (h : IsLeastIn f (a :: l) a) : (a :: l).argmin f = some a := by
  rw [List.argmin_cons]
  rcases hc : l.argmin f with _ | c
  · rfl
  · have hle := h.2 c (List.mem_cons_of_mem _ (List.argmin_mem hc))
    exact if_neg (not_lt.2 hle)

/-- The choice does not depend on the order exactly if there is one least element only. -/
theorem argmin_perm_iff {g : γ → Option α} {names : List γ} :
    (∀ xs ys : List γ, xs.Perm names → ys.Perm names →
      (xs.filterMap g).argmin f = (ys.filterMap g).argmin f) ↔
    ∀ a b, IsLeastIn f (names.filterMap g) a → IsLeastIn f (names.filterMap g) b → a = b := by
  -- A least element is the choice in the order that starts with its name.
  have hfirst : ∀ a, IsLeastIn f (names.filterMap g) a →
      ∃ xs : List γ, xs.Perm names ∧ (xs.filterMap g).argmin f = some a := by
    intro a ha
    obtain ⟨n, hn, hna⟩ := List.mem_filterMap.1 ha.1
    obtain ⟨s, t, rfl⟩ := List.append_of_mem hn
    have hperm : (n :: (s ++ t)).Perm (s ++ n :: t) := List.perm_middle.symm
    have hleast := ha.perm (hperm.symm.filterMap g)
    rw [List.filterMap_cons_some hna] at hleast
    exact ⟨_, hperm, by rw [List.filterMap_cons_some hna, argmin_cons_of_isLeastIn hleast]⟩
  constructor
  · intro h a b ha hb
    obtain ⟨xs, hxs, hchoice⟩ := hfirst a ha
    obtain ⟨ys, hys, hchoice'⟩ := hfirst b hb
    have hsame := h xs ys hxs hys
    rw [hchoice, hchoice'] at hsame
    exact Option.some.inj hsame
  · intro h xs ys hxs hys
    have hperm := (hxs.trans hys.symm).filterMap g
    rcases hx : (xs.filterMap g).argmin f with _ | a
    · have hnil := List.argmin_eq_none.1 hx
      rw [hnil, List.nil_perm] at hperm
      rw [hperm, List.argmin_nil]
    · rcases hy : (ys.filterMap g).argmin f with _ | b
      · have hnil := List.argmin_eq_none.1 hy
        rw [hnil, List.perm_nil] at hperm
        simp [hperm] at hx
      · rw [h a b ((isLeastIn_of_argmin hx).perm (hxs.filterMap g))
          ((isLeastIn_of_argmin hy).perm (hys.filterMap g))]

end SysLib
