import IosEmu.Refine

/-!
# Refinement under an invariant

A program may refine another only from states that meet an invariant, which it then has to keep.
What it returns meets a condition that the rest of the program can rely on. Both go through
sequences, attempts and calls on a part, so two versions of a method are compared call by call.
-/

namespace SysLib

theorem Outcome.state?_mapState {ε π σ τ α : Type} (view : τ → σ) (x : Outcome ε π τ α) :
    (x.mapState view).state? = x.state?.map view := by
  rcases x with ⟨a, t⟩ | ⟨e, t⟩ | p <;> rfl

/-- Outcomes that are seen alike leave states behind that are seen alike. -/
theorem Outcome.state?_of_mapState {ε π σ τ α : Type} {view : τ → σ}
    {x y : Outcome ε π τ α} {t : τ} (h : y.mapState view = x.mapState view)
    (hx : x.state? = some t) : ∃ t', y.state? = some t' ∧ view t' = view t := by
  have hstate := (y.state?_mapState view).symm.trans (congrArg Outcome.state? h)
  rw [Outcome.state?_mapState, hx] at hstate
  exact Option.map_eq_some_iff.1 hstate

namespace Prog

variable {ε ε' π σ τ τ' σ' α β : Type}

/-- From a state that meets `I`, `x` seen through `view` does what `y` does, keeps `I`, and returns
a value that meets `Q`. -/
def RefinesOn (I : τ → Prop) (view : τ → σ) (Q : α → Prop) (x : Prog ε π τ α)
    (y : Prog ε π σ α) : Prop :=
  ∀ t, I t → (x t).mapState view = y (view t) ∧ (∀ t', (x t).state? = some t' → I t') ∧
    ∀ a t', x t = .ok a t' → Q a

section RefinesOn

variable {I : τ → Prop} {view : τ → σ} {Q : α → Prop} {R : β → Prop} {x : Prog ε π τ α}
  {y : Prog ε π σ α}

theorem Refines.refinesOn (h : Refines view x y) (hsteps : Steps (fun t t' => I t → I t') x) :
    RefinesOn I view (fun _ => True) x y :=
  fun t ht => ⟨h t, fun t' ht' => hsteps t t' ht' ht, fun _ _ _ => trivial⟩

theorem RefinesOn.mono {Q' : α → Prop} (h : RefinesOn I view Q x y) (hQ : ∀ a, Q a → Q' a) :
    RefinesOn I view Q' x y :=
  fun t ht => ⟨(h t ht).1, (h t ht).2.1, fun a t' hx => hQ a ((h t ht).2.2 a t' hx)⟩

theorem refinesOn_pure {a : α} (ha : Q a) :
    RefinesOn I view Q (pure a : Prog ε π τ α) (pure a) := by
  refine fun t ht => ⟨rfl, ?_, ?_⟩
  · rintro _ ⟨⟩
    exact ht
  · rintro _ _ ⟨⟩
    exact ha

theorem refinesOn_fail (e : ε) : RefinesOn I view Q (fail e : Prog ε π τ α) (fail e) := by
  refine fun t ht => ⟨rfl, ?_, ?_⟩
  · rintro _ ⟨⟩
    exact ht
  · rintro _ _ ⟨⟩

theorem refinesOn_ofResult (r : Except ε α) :
    RefinesOn I view (fun a => r = .ok a) (ofResult r : Prog ε π τ α) (ofResult r) := by
  cases r with
  | ok a => exact refinesOn_pure rfl
  | error e => exact refinesOn_fail e

theorem refinesOn_ofChecked (r : Except π α) :
    RefinesOn I view (fun a => r = .ok a) (ofChecked r : Prog ε π τ α) (ofChecked r) := by
  cases r with
  | ok a => exact refinesOn_pure rfl
  | error p =>
    refine fun t _ => ⟨rfl, ?_, ?_⟩
    · rintro _ ⟨⟩
    · rintro _ _ ⟨⟩

theorem refinesOn_modify {f : τ → τ} {g : σ → σ} (h : ∀ t, view (f t) = g (view t))
    (hf : ∀ t, I t → I (f t)) :
    RefinesOn I view (fun _ => True) (modify f : Prog ε π τ Unit) (modify g) := by
  refine (refines_modify h).refinesOn ?_
  rintro t _ ⟨⟩ ht
  exact hf t ht

theorem RefinesOn.bind {f : α → Prog ε π τ β} {g : α → Prog ε π σ β}
    (hx : RefinesOn I view Q x y) (hf : ∀ a, Q a → RefinesOn I view R (f a) (g a)) :
    RefinesOn I view R (x >>= f) (y >>= g) := by
  intro t ht
  obtain ⟨heq, hkeep, hvalue⟩ := hx t ht
  rw [bind_apply, bind_apply, ← heq]
  rcases hxt : x t with ⟨a, t'⟩ | ⟨e, t'⟩ | p <;> rw [hxt] at hkeep
  · exact hf a (hvalue a t' hxt) t' (hkeep t' rfl)
  · exact ⟨rfl, hkeep, fun _ _ h => by cases h⟩
  · exact ⟨rfl, hkeep, fun _ _ h => by cases h⟩

/-- Two programs that read the state first are compared in each state that meets the invariant. -/
theorem RefinesOn.get_bind {f : τ → Prog ε π τ β} {g : σ → Prog ε π σ β}
    (h : ∀ t, I t → RefinesOn I view R (f t) (g (view t))) :
    RefinesOn I view R (get >>= f) (get >>= g) :=
  fun t ht => h t ht t ht

theorem RefinesOn.attempt (h : RefinesOn I view Q x y) :
    RefinesOn I view (fun _ => True) (Prog.attempt x : Prog ε' π τ (Except ε α))
      (Prog.attempt y) := by
  intro t ht
  obtain ⟨heq, hkeep, -⟩ := h t ht
  refine ⟨?_, fun t' h => ?_, fun _ _ _ => trivial⟩
  · unfold Prog.attempt
    rw [← heq]
    rcases x t with ⟨a, t'⟩ | ⟨e, t'⟩ | p <;> rfl
  · unfold Prog.attempt at h
    rcases hxt : x t with ⟨a, t₁⟩ | ⟨e, t₁⟩ | p <;> rw [hxt] at h hkeep
    · exact hkeep t' h
    · exact hkeep t' h
    · cases h

theorem RefinesOn.mapErr (h : RefinesOn I view Q x y) (f : ε → ε') :
    RefinesOn I view Q (Prog.mapErr f x) (Prog.mapErr f y) := by
  intro t ht
  obtain ⟨heq, hkeep, hvalue⟩ := h t ht
  refine ⟨?_, fun t' h => ?_, fun a t' h => ?_⟩
  · unfold Prog.mapErr
    rw [← heq]
    rcases x t with ⟨a, t'⟩ | ⟨e, t'⟩ | p <;> rfl
  · unfold Prog.mapErr at h
    rcases hxt : x t with ⟨a, t₁⟩ | ⟨e, t₁⟩ | p <;> rw [hxt] at h hkeep
    · exact hkeep t' h
    · exact hkeep t' h
    · cases h
  · unfold Prog.mapErr at h
    rcases hxt : x t with ⟨b, t₁⟩ | ⟨e, t₁⟩ | p <;> rw [hxt] at h
    · obtain ⟨rfl, rfl⟩ := Outcome.ok.inj h
      exact hvalue b t₁ hxt
    · cases h
    · cases h

/-- A call on a part, and the same call on the part that is seen. -/
theorem RefinesOn.zoom {J : τ' → Prop} {part : τ' → τ} {put : τ → τ' → τ'} {part' : σ' → σ}
    {put' : σ → σ' → σ'} {outer : τ' → σ'} (h : RefinesOn I view Q x y)
    (hpart : ∀ t, view (part t) = part' (outer t))
    (hput : ∀ s t, outer (put s t) = put' (view s) (outer t)) (hI : ∀ t, J t → I (part t))
    (hJ : ∀ s t, J t → I s → J (put s t)) :
    RefinesOn J outer Q (Prog.zoom part put x) (Prog.zoom part' put' y) := by
  intro t ht
  obtain ⟨heq, hkeep, hvalue⟩ := h (part t) (hI t ht)
  refine ⟨?_, fun t' h => ?_, fun a t' h => ?_⟩
  · unfold Prog.zoom
    rw [← hpart t, ← heq]
    rcases x (part t) with ⟨a, s⟩ | ⟨e, s⟩ | p
    · exact congrArg (Outcome.ok a) (hput s t)
    · exact congrArg (Outcome.err e) (hput s t)
    · rfl
  · unfold Prog.zoom at h
    rcases hxt : x (part t) with ⟨a, s⟩ | ⟨e, s⟩ | p <;> rw [hxt] at h hkeep
    · obtain rfl := Option.some.inj h
      exact hJ s t ht (hkeep s rfl)
    · obtain rfl := Option.some.inj h
      exact hJ s t ht (hkeep s rfl)
    · cases h
  · unfold Prog.zoom at h
    rcases hxt : x (part t) with ⟨b, s⟩ | ⟨e, s⟩ | p <;> rw [hxt] at h
    · obtain ⟨rfl, -⟩ := Outcome.ok.inj h
      exact hvalue b s hxt
    · cases h
    · cases h

end RefinesOn

end Prog

end SysLib
