import IosEmu.Outcome

/-!
# Programs over a richer state

A program over a state with more in it refines a program over a part of that state if, seen
through the part, the two do the same : they return the same values and errors, panic alike,
and leave the part in the same state. Refinement goes through sequences, loops and attempts,
so two versions of a method are compared call by call. The richer state may also be what a program
is lost over : then it panics where the other one goes on (`RefinesUnless`).

A program measures another if it does the same to the state and returns the other's value, seen
through a function.
-/

namespace SysLib

variable {ε ε' π σ σ' τ τ' α β γ δ : Type}

/-- The outcome, with the state seen through `view`. -/
def Outcome.mapState (view : τ → σ) : Outcome ε π τ α → Outcome ε π σ α
  | ok a t => ok a (view t)
  | err e t => err e (view t)
  | panic p => panic p

/-- The outcome, with the value seen through `view`. -/
def Outcome.mapValue (view : α → β) : Outcome ε π σ α → Outcome ε π σ β
  | ok a s => ok (view a) s
  | err e s => err e s
  | panic p => panic p

namespace Prog

/-- Seen through `view`, `x` does what `y` does. -/
def Refines (view : τ → σ) (x : Prog ε π τ α) (y : Prog ε π σ α) : Prop :=
  ∀ t, (x t).mapState view = y (view t)

section Refines

variable {view : τ → σ} {x : Prog ε π τ α} {y : Prog ε π σ α}

theorem Refines.eq_ok (h : Refines view x y) {t t' : τ} {a : α} (hx : x t = .ok a t') :
    y (view t) = .ok a (view t') := by
  rw [← h t, hx]
  rfl

theorem Refines.state? (h : Refines view x y) {t t' : τ} (hx : (x t).state? = some t') :
    (y (view t)).state? = some (view t') := by
  rw [← h t]
  rcases hxt : x t with ⟨a, t₁⟩ | ⟨e, t₁⟩ | p <;> rw [hxt] at hx
  · exact congrArg _ (congrArg view (Option.some.inj hx))
  · exact congrArg _ (congrArg view (Option.some.inj hx))
  · cases hx

theorem refines_pure (a : α) : Refines view (pure a : Prog ε π τ α) (pure a) :=
  fun _ => rfl

theorem refines_fail (e : ε) : Refines view (fail e : Prog ε π τ α) (fail e) :=
  fun _ => rfl

theorem refines_ofResult (r : Except ε α) :
    Refines view (ofResult r : Prog ε π τ α) (ofResult r) := by
  cases r with
  | ok a => exact refines_pure a
  | error e => exact refines_fail e

theorem refines_ofChecked (r : Except π α) :
    Refines view (ofChecked r : Prog ε π τ α) (ofChecked r) := by
  cases r with
  | ok a => exact refines_pure a
  | error p => exact fun _ => rfl

theorem refines_modify {f : τ → τ} {g : σ → σ} (h : ∀ t, view (f t) = g (view t)) :
    Refines view (modify f : Prog ε π τ Unit) (modify g) :=
  fun t => congrArg (Outcome.ok ()) (h t)

theorem Refines.bind {f : α → Prog ε π τ β} {g : α → Prog ε π σ β} (hx : Refines view x y)
    (hf : ∀ a, Refines view (f a) (g a)) : Refines view (x >>= f) (y >>= g) := by
  intro t
  rw [bind_apply, bind_apply, ← hx t]
  rcases x t with ⟨a, t'⟩ | ⟨e, t'⟩ | p
  · exact hf a t'
  · rfl
  · rfl

/-- Two programs that read the state first are compared in each state. -/
theorem Refines.get_bind {f : τ → Prog ε π τ β} {g : σ → Prog ε π σ β}
    (h : ∀ t, Refines view (f t) (g (view t))) : Refines view (get >>= f) (get >>= g) :=
  fun t => h t t

theorem Refines.attempt (h : Refines view x y) :
    Refines view (Prog.attempt x : Prog ε' π τ (Except ε α)) (Prog.attempt y) := by
  intro t
  unfold Prog.attempt
  rw [← h t]
  rcases x t with ⟨a, t'⟩ | ⟨e, t'⟩ | p <;> rfl

theorem Refines.mapErr (h : Refines view x y) (f : ε → ε') :
    Refines view (Prog.mapErr f x) (Prog.mapErr f y) := by
  intro t
  unfold Prog.mapErr
  rw [← h t]
  rcases x t with ⟨a, t'⟩ | ⟨e, t'⟩ | p <;> rfl

theorem Refines.forEach {f : β → Prog ε π τ Unit} {g : β → Prog ε π σ Unit} :
    ∀ {l : List β}, (∀ b ∈ l, Refines view (f b) (g b)) →
      Refines view (Prog.forEach l f) (Prog.forEach l g)
  | [], _ => refines_pure ()
  | b :: l, h => by
    rw [forEach_cons, forEach_cons]
    exact (h b List.mem_cons_self).bind fun _ =>
      Refines.forEach fun c hc => h c (List.mem_cons_of_mem _ hc)

/-- A call on a part of the richer state refines the call on the same part. -/
theorem Refines.zoom {part : τ' → τ} {put : τ → τ' → τ'} {part' : σ' → σ}
    {put' : σ → σ' → σ'} {outer : τ' → σ'} (h : Refines view x y)
    (hpart : ∀ t, view (part t) = part' (outer t))
    (hput : ∀ s t, outer (put s t) = put' (view s) (outer t)) :
    Refines outer (Prog.zoom part put x) (Prog.zoom part' put' y) := by
  intro t
  unfold Prog.zoom
  rw [← hpart t, ← h (part t)]
  rcases x (part t) with ⟨a, s⟩ | ⟨e, s⟩ | p
  · exact congrArg (Outcome.ok a) (hput s t)
  · exact congrArg (Outcome.err e) (hput s t)
  · rfl

/-- A call on the part that is seen refines itself. -/
theorem refines_zoom {put : σ → τ → τ} (y : Prog ε π σ α) (hput : ∀ s t, view (put s t) = s) :
    Refines view (Prog.zoom view put y) y := by
  intro t
  unfold Prog.zoom
  rcases y (view t) with ⟨a, s⟩ | ⟨e, s⟩ | p
  · exact congrArg (Outcome.ok a) (hput s t)
  · exact congrArg (Outcome.err e) (hput s t)
  · rfl

end Refines

/-! ## Programs that may be lost -/

/-- Seen through `view`, `x` does what `y` does, unless it panics with `lost`. -/
def RefinesUnless (lost : π) (view : τ → σ) (x : Prog ε π τ α) (y : Prog ε π σ α) : Prop :=
  ∀ t, x t = .panic lost ∨ (x t).mapState view = y (view t)

section RefinesUnless

variable {lost : π} {view : τ → σ} {x : Prog ε π τ α} {y : Prog ε π σ α}

theorem Refines.unless (h : Refines view x y) : RefinesUnless lost view x y :=
  fun t => Or.inr (h t)

theorem RefinesUnless.eq_ok (h : RefinesUnless lost view x y) {t t' : τ} {a : α}
    (hx : x t = .ok a t') : y (view t) = .ok a (view t') := by
  rcases h t with hlost | ht
  · cases hx.symm.trans hlost
  · rw [← ht, hx]
    rfl

/-- Where `x` is not lost, it returns what `y` does. -/
theorem RefinesUnless.of_ok (h : RefinesUnless lost view x y) {t : τ} {s : σ} {a : α}
    (hx : x t ≠ .panic lost) (hy : y (view t) = .ok a s) : ∃ t', x t = .ok a t' ∧ view t' = s := by
  have ht := ((h t).resolve_left hx).trans hy
  rcases hxt : x t with ⟨a', t'⟩ | ⟨e, t'⟩ | p <;> rw [hxt] at ht
  · obtain ⟨rfl, hs⟩ := Outcome.ok.inj ht
    exact ⟨t', rfl, hs⟩
  · cases ht
  · cases ht

theorem RefinesUnless.bind {f : α → Prog ε π τ β} {g : α → Prog ε π σ β}
    (hx : RefinesUnless lost view x y) (hf : ∀ a, RefinesUnless lost view (f a) (g a)) :
    RefinesUnless lost view (x >>= f) (y >>= g) := by
  intro t
  rw [bind_apply, bind_apply]
  rcases hx t with hlost | ht
  · rw [hlost]
    exact Or.inl rfl
  rw [← ht]
  rcases x t with ⟨a, t'⟩ | ⟨e, t'⟩ | p
  · exact hf a t'
  · exact Or.inr rfl
  · exact Or.inr rfl

/-- Two programs that read the state first are compared in each state. -/
theorem RefinesUnless.get_bind {f : τ → Prog ε π τ β} {g : σ → Prog ε π σ β}
    (h : ∀ t, RefinesUnless lost view (f t) (g (view t))) :
    RefinesUnless lost view (get >>= f) (get >>= g) :=
  fun t => h t t

/-- A check that `y` does not make is passed, or `x` is lost. -/
theorem RefinesUnless.check {c : Except π β} {f : β → Prog ε π τ α}
    (hc : ∀ e, c = .error e → e = lost) (hf : ∀ b, RefinesUnless lost view (f b) y) :
    RefinesUnless lost view (ofChecked c >>= f) y := by
  intro t
  cases c with
  | error e =>
    rw [hc e rfl]
    exact Or.inl rfl
  | ok b => exact hf b t

/-- A change that is not seen does not count. -/
theorem RefinesUnless.skip {f : τ → τ} {k : Unit → Prog ε π τ α} (hf : ∀ t, view (f t) = view t)
    (hk : RefinesUnless lost view (k ()) y) : RefinesUnless lost view (modify f >>= k) y := by
  intro t
  rw [← hf t]
  exact hk (f t)

theorem RefinesUnless.attempt (h : RefinesUnless lost view x y) :
    RefinesUnless lost view (Prog.attempt x : Prog ε' π τ (Except ε α)) (Prog.attempt y) := by
  intro t
  unfold Prog.attempt
  rcases h t with hlost | ht
  · rw [hlost]
    exact Or.inl rfl
  rw [← ht]
  rcases x t with ⟨a, t'⟩ | ⟨e, t'⟩ | p <;> exact Or.inr rfl

theorem RefinesUnless.mapErr (h : RefinesUnless lost view x y) (f : ε → ε') :
    RefinesUnless lost view (Prog.mapErr f x) (Prog.mapErr f y) := by
  intro t
  unfold Prog.mapErr
  rcases h t with hlost | ht
  · rw [hlost]
    exact Or.inl rfl
  rw [← ht]
  rcases x t with ⟨a, t'⟩ | ⟨e, t'⟩ | p <;> exact Or.inr rfl

theorem RefinesUnless.forEach {f : β → Prog ε π τ Unit} {g : β → Prog ε π σ Unit} :
    ∀ {l : List β}, (∀ b ∈ l, RefinesUnless lost view (f b) (g b)) →
      RefinesUnless lost view (Prog.forEach l f) (Prog.forEach l g)
  | [], _ => (refines_pure ()).unless
  | b :: l, h => by
    rw [forEach_cons, forEach_cons]
    exact (h b List.mem_cons_self).bind fun _ =>
      RefinesUnless.forEach fun c hc => h c (List.mem_cons_of_mem _ hc)

/-- A call on a part of the richer state refines the call on the same part. -/
theorem RefinesUnless.zoom {part : τ' → τ} {put : τ → τ' → τ'} {part' : σ' → σ}
    {put' : σ → σ' → σ'} {outer : τ' → σ'} (h : RefinesUnless lost view x y)
    (hpart : ∀ t, view (part t) = part' (outer t))
    (hput : ∀ s t, outer (put s t) = put' (view s) (outer t)) :
    RefinesUnless lost outer (Prog.zoom part put x) (Prog.zoom part' put' y) := by
  intro t
  unfold Prog.zoom
  rw [← hpart t]
  rcases h (part t) with hlost | ht
  · rw [hlost]
    exact Or.inl rfl
  rw [← ht]
  rcases x (part t) with ⟨a, s⟩ | ⟨e, s⟩ | p
  · exact Or.inr (congrArg (Outcome.ok a) (hput s t))
  · exact Or.inr (congrArg (Outcome.err e) (hput s t))
  · exact Or.inr rfl

end RefinesUnless

/-! ## Programs that compute a part of the value -/

section Measures

/-- `y` does what `x` does, and returns its value seen through `view`. -/
def Measures (view : α → β) (x : Prog ε π σ α) (y : Prog ε π σ β) : Prop :=
  ∀ s, y s = (x s).mapValue view

variable {view : α → β} {view' : γ → δ}

theorem measures_pure {a : α} {b : β} (h : b = view a) :
    Measures view (pure a : Prog ε π σ α) (pure b) := by
  subst h
  exact fun _ => rfl

theorem measures_fail (e : ε) : Measures view (fail e : Prog ε π σ α) (fail e) :=
  fun _ => rfl

theorem Measures.bind {x : Prog ε π σ α} {y : Prog ε π σ β} {f : α → Prog ε π σ γ}
    {g : β → Prog ε π σ δ} (h : Measures view x y) (hf : ∀ a, Measures view' (f a) (g (view a))) :
    Measures view' (x >>= f) (y >>= g) := by
  intro s
  rw [bind_apply, bind_apply, h s]
  rcases x s with ⟨a, s'⟩ | ⟨e, s'⟩ | p
  · exact hf a s'
  · rfl
  · rfl

/-- Both begin with the same call. -/
theorem measures_bind {x : Prog ε π σ α} {f : α → Prog ε π σ γ} {g : α → Prog ε π σ δ}
    (hf : ∀ a, Measures view' (f a) (g a)) : Measures view' (x >>= f) (x >>= g) := by
  intro s
  rw [bind_apply, bind_apply]
  rcases x s with ⟨a, s'⟩ | ⟨e, s'⟩ | p
  · exact hf a s'
  · rfl
  · rfl

theorem measures_ite {c : Bool} {x x' : Prog ε π σ α} {y y' : Prog ε π σ β}
    (h : Measures view x y) (h' : Measures view x' y') :
    Measures view (if c = true then x else x') (if c = true then y else y') := by
  cases c
  · exact h'
  · exact h

end Measures

end Prog

end SysLib
