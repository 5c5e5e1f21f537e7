import Mathlib.Data.Int.Order.Basic
import Mathlib.Order.Bounds.Basic

/-!
# Tables of numbered objects

A table hands out numbers for objects and takes them back. `NumberTable` is such a table as a
map, over any type of objects : the numbers from `0` to `base` are reserved and stay as they
are, and an object gets the least free number from `base` on. `Step` is one call with its
answer, `Run` a sequence of them.

A run is fixed by where it starts and what is called (`Run.unique`), so a table that follows
the reference at every step is the reference map.
-/

namespace SysLib

/-- The objects behind numbers. -/
abbrev NumberTable (α : Type) := ℤ → Option α

namespace NumberTable

variable {α : Type}

/-- A call on a table. -/
inductive Call (α : Type)
  | insert (obj : α)
  | close (n : ℤ)

/-- The answer to a call : the number of the new object, or whether there was one. -/
inductive Answer
  | number (n : ℤ)
  | existed (b : Bool)
  deriving DecidableEq

/-- The numbers that an object can get. -/
def free (base : ℤ) (t : NumberTable α) : Set ℤ :=
  {n | base ≤ n ∧ t n = none}

/-- One call, its answer, and the table after it. -/
inductive Step (base : ℤ) : NumberTable α → Call α → Answer → NumberTable α → Prop
  | insert {t : NumberTable α} {obj : α} {n : ℤ} :
      IsLeast (t.free base) n →
      Step base t (.insert obj) (.number n) (Function.update t n (some obj))
  | keep {t : NumberTable α} {n : ℤ} :
      0 ≤ n → n < base → Step base t (.close n) (.existed true) t
  | close {t : NumberTable α} {n : ℤ} :
      ¬(0 ≤ n ∧ n < base) →
      Step base t (.close n) (.existed (t n).isSome) (Function.update t n none)

/-- The number a call and its answer are about. -/
def Call.subject : Call α → Answer → ℤ
  | .close n, _ => n
  | .insert _, .number n => n
  | .insert _, .existed _ => 0

namespace Step

variable {base : ℤ} {t t' t'' : NumberTable α} {call : Call α} {answer answer' : Answer}

/-- A call has one answer and one effect. -/
theorem unique (h : Step base t call answer t') (h' : Step base t call answer' t'') :
    answer = answer' ∧ t' = t'' := by
  cases h with
  | insert hleast =>
    cases h' with
    | insert hleast' =>
      obtain rfl := hleast.unique hleast'
      exact ⟨rfl, rfl⟩
  | keep h₀ hlt =>
    cases h' with
    | keep => exact ⟨rfl, rfl⟩
    | close hout => exact absurd ⟨h₀, hlt⟩ hout
  | close hout =>
    cases h' with
    | keep h₀ hlt => exact absurd ⟨h₀, hlt⟩ hout
    | close => exact ⟨rfl, rfl⟩

/-- The objects behind other numbers stay. -/
theorem frame (h : Step base t call answer t') {n : ℤ} (hn : n ≠ call.subject answer) :
    t' n = t n := by
  cases h with
  | insert => exact Function.update_of_ne hn _ _
  | keep => rfl
  | close => exact Function.update_of_ne hn _ _

/-- The reserved numbers stay. -/
theorem reserved (h : Step base t call answer t') {n : ℤ} (h₀ : 0 ≤ n) (hlt : n < base) :
    t' n = t n := by
  cases h with
  | insert hleast => exact Function.update_of_ne (hlt.trans_le hleast.1.1).ne _ _
  | keep => rfl
  | close hout =>
    refine Function.update_of_ne ?_ _ _
    rintro rfl
    exact hout ⟨h₀, hlt⟩

end Step

/-- A sequence of calls with their answers. -/
inductive Run (base : ℤ) : NumberTable α → List (Call α × Answer) → NumberTable α → Prop
  | nil {t : NumberTable α} : Run base t [] t
  | snoc {t t' t'' : NumberTable α} {trace : List (Call α × Answer)} {call : Call α}
      {answer : Answer} :
      Run base t trace t' → Step base t' call answer t'' →
      Run base t (trace ++ [(call, answer)]) t''

namespace Run

variable {base : ℤ} {t t' t'' : NumberTable α} {trace trace' : List (Call α × Answer)}

/-- The answers of a run, and the table after it, are fixed by its calls. -/
theorem unique (h : Run base t trace t') (h' : Run base t trace' t'')
    (hcalls : trace.map Prod.fst = trace'.map Prod.fst) : trace = trace' ∧ t' = t'' := by
  induction h generalizing trace' t'' with
  | nil =>
    cases h' with
    | nil => exact ⟨rfl, rfl⟩
    | snoc => simp at hcalls
  | snoc _ hstep ih =>
    cases h' with
    | nil => simp at hcalls
    | snoc h' hstep' =>
      simp only [List.map_append, List.map_cons, List.map_nil] at hcalls
      obtain ⟨hcalls, hcall⟩ := List.append_inj' hcalls rfl
      obtain ⟨rfl, rfl⟩ := ih h' hcalls
      obtain rfl := (List.cons.inj hcall).1
      obtain ⟨rfl, rfl⟩ := hstep.unique hstep'
      exact ⟨rfl, rfl⟩

/-- A run keeps the reserved numbers. -/
theorem reserved (h : Run base t trace t') {n : ℤ} (h₀ : 0 ≤ n) (hlt : n < base) :
    t' n = t n := by
  induction h with
  | nil => rfl
  | snoc _ hstep ih => rw [hstep.reserved h₀ hlt, ih]

end Run

end NumberTable

end SysLib
