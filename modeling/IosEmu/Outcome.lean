import Mathlib.Order.Defs.Unbundled

/-!
# Calls that return, fail or panic

A method that may change the state `σ` ends in one of three ways (`Outcome`) : it
returns a value, it returns an error of type `ε`, or it panics and takes the process
down. An error does not roll the state back, so both ordinary endings carry the state
the call left behind; a panic carries none.

`Prog` is the monad of such calls. `ofResult` is the question mark on a `Result`,
`ofChecked` an operation that may panic, and `attempt` a caller that looks at the
error of a call instead of passing it on. `forEach` is a loop over a list.

`Prog.Steps R` says that every ordinary ending is `R`-related to the start. For a
reflexive and transitive `R` it goes through sequencing, `attempt` and loops, so an
invariant or a frame is proved for the primitive calls alone.
-/

namespace SysLib

/-- How a call on the state `σ` ends. -/
inductive Outcome (ε π σ α : Type)
  /-- A value, and the state left behind. -/
  | ok (a : α) (s : σ)
  /-- An error, and the state left behind. -/
  | err (e : ε) (s : σ)
  /-- A panic. There is no state afterwards. -/
  | panic (p : π)
  deriving DecidableEq

/-- A call that may change the state `σ`, fail with `ε` or panic with `π`. -/
def Prog (ε π σ α : Type) : Type :=
  σ → Outcome ε π σ α

namespace Outcome

variable {ε π σ α : Type}

/-- The state an ordinary ending leaves behind. -/
def state? : Outcome ε π σ α → Option σ
  | ok _ s => some s
  | err _ s => some s
  | panic _ => none

/-- The state left behind by a call that returned a value. -/
def okState? : Outcome ε π σ α → Option σ
  | ok _ s => some s
  | _ => none

/-- The value of a call that returned one. -/
def value? : Outcome ε π σ α → Option α
  | ok a _ => some a
  | _ => none

theorem okState?_eq_some {o : Outcome ε π σ α} {s : σ} :
    o.okState? = some s ↔ ∃ a, o = ok a s := by
  cases o <;> simp [okState?]

/-- The call returned a value. -/
def isOk : Outcome ε π σ α → Bool
  | ok _ _ => true
  | _ => false

@[simp] theorem isOk_ok (a : α) (s : σ) : (ok a s : Outcome ε π σ α).isOk = true :=
  rfl

@[simp] theorem isOk_err (e : ε) (s : σ) : (err e s : Outcome ε π σ α).isOk = false :=
  rfl

@[simp] theorem isOk_panic (p : π) : (panic p : Outcome ε π σ α).isOk = false :=
  rfl

theorem isOk_iff {o : Outcome ε π σ α} : o.isOk = true ↔ ∃ a s, o = ok a s := by
  cases o <;> simp

/-- The call returned a value, and `f` holds of it and of the state left behind. -/
def okAnd (f : α → σ → Bool) : Outcome ε π σ α → Bool
  | ok a s => f a s
  | _ => false

theorem okAnd_iff {f : α → σ → Bool} {o : Outcome ε π σ α} :
    o.okAnd f = true ↔ ∃ a s, o = ok a s ∧ f a s = true := by
  cases o <;> simp [okAnd, and_assoc]

end Outcome

/-- A sequence of fallible computations returns exactly when both halves do. -/
theorem except_bind_eq_ok {ε α β : Type} {x : Except ε α} {f : α → Except ε β} {b : β} :
    (x >>= f) = .ok b ↔ ∃ a, x = .ok a ∧ f a = .ok b := by
  cases x with
  | ok a => simp [bind, Except.bind]
  | error e => simp [bind, Except.bind]

namespace Prog

variable {ε ε' π σ τ α β : Type}

/-- Return `a` and leave the state alone. -/
protected def pure (a : α) : Prog ε π σ α :=
  fun s => .ok a s

/-- Run `x`, and `f` on its value if there is one. -/
protected def bind (x : Prog ε π σ α) (f : α → Prog ε π σ β) : Prog ε π σ β :=
  fun s => match x s with
    | .ok a s' => f a s'
    | .err e s' => .err e s'
    | .panic p => .panic p

instance : Monad (Prog ε π σ) where
  pure := Prog.pure
  bind := Prog.bind

/-- The current state. -/
def get : Prog ε π σ σ :=
  fun s => .ok s s

/-- Change the state. -/
def modify (f : σ → σ) : Prog ε π σ Unit :=
  fun s => .ok () (f s)

/-- Fail with `e`. -/
def fail (e : ε) : Prog ε π σ α :=
  fun s => .err e s

/-- Pass on the error of a `Result`. -/
def ofResult : Except ε α → Prog ε π σ α
  | .ok a => Prog.pure a
  | .error e => fail e

/-- An operation that may panic. -/
def ofChecked : Except π α → Prog ε π σ α
  | .ok a => Prog.pure a
  | .error p => fun _ => .panic p

/-- Run `x` and hand its `Result` to the caller. -/
def attempt (x : Prog ε π σ α) : Prog ε' π σ (Except ε α) :=
  fun s => match x s with
    | .ok a s' => .ok (.ok a) s'
    | .err e s' => .ok (.error e) s'
    | .panic p => .panic p

/-- Run `x` and map its error. -/
def mapErr (f : ε → ε') (x : Prog ε π σ α) : Prog ε' π σ α :=
  fun s => match x s with
    | .ok a s' => .ok a s'
    | .err e s' => .err (f e) s'
    | .panic p => .panic p

/-- Run a call on a component of the state. -/
def zoom (view : σ → τ) (put : τ → σ → σ) (x : Prog ε π τ α) : Prog ε π σ α :=
  fun s => match x (view s) with
    | .ok a t => .ok a (put t s)
    | .err e t => .err e (put t s)
    | .panic p => .panic p

/-- Run a call on a state of its own, and forget that state. -/
def within (t : τ) (x : Prog ε π τ α) : Prog ε π σ α :=
  fun s => match x t with
    | .ok a _ => .ok a s
    | .err e _ => .err e s
    | .panic p => .panic p

/-- Run `body` on each entry of a list in turn. -/
def forEach : List α → (α → Prog ε π σ Unit) → Prog ε π σ Unit
  | [], _ => Prog.pure ()
  | a :: l, body => Prog.bind (body a) fun _ => forEach l body

/-! ## Running a program -/

@[simp] theorem pure_apply (a : α) (s : σ) : (pure a : Prog ε π σ α) s = .ok a s :=
  rfl

theorem bind_apply (x : Prog ε π σ α) (f : α → Prog ε π σ β) (s : σ) :
    (x >>= f) s = match x s with
      | .ok a s' => f a s'
      | .err e s' => .err e s'
      | .panic p => .panic p :=
  rfl

@[simp] theorem get_apply (s : σ) : (get : Prog ε π σ σ) s = .ok s s :=
  rfl

@[simp] theorem modify_apply (f : σ → σ) (s : σ) :
    (modify f : Prog ε π σ Unit) s = .ok () (f s) :=
  rfl

@[simp] theorem fail_apply (e : ε) (s : σ) : (fail e : Prog ε π σ α) s = .err e s :=
  rfl

@[simp] theorem ofResult_ok (a : α) (s : σ) :
    (ofResult (.ok a) : Prog ε π σ α) s = .ok a s :=
  rfl

@[simp] theorem ofResult_error (e : ε) (s : σ) :
    (ofResult (.error e) : Prog ε π σ α) s = .err e s :=
  rfl

@[simp] theorem ofChecked_ok (a : α) (s : σ) :
    (ofChecked (.ok a) : Prog ε π σ α) s = .ok a s :=
  rfl

@[simp] theorem ofChecked_error (p : π) (s : σ) :
    (ofChecked (.error p) : Prog ε π σ α) s = .panic p :=
  rfl

theorem bind_bind {γ : Type} (x : Prog ε π σ α) (f : α → Prog ε π σ β)
    (g : β → Prog ε π σ γ) : ((x >>= f) >>= g) = x >>= fun a => f a >>= g := by
  funext s
  simp only [bind_apply]
  cases x s <;> rfl

/-- A sequence returns exactly when both halves do. -/
theorem bind_eq_ok {x : Prog ε π σ α} {f : α → Prog ε π σ β} {s s' : σ} {b : β} :
    (x >>= f) s = .ok b s' ↔ ∃ a s₁, x s = .ok a s₁ ∧ f a s₁ = .ok b s' := by
  rw [bind_apply]
  constructor
  · intro h
    cases hx : x s with
    | ok a s₁ => exact ⟨a, s₁, rfl, by simpa [hx] using h⟩
    | err e s₁ => simp [hx] at h
    | panic p => simp [hx] at h
  · rintro ⟨a, s₁, hx, hf⟩
    rw [hx]
    exact hf

theorem bind_eq_err {x : Prog ε π σ α} {f : α → Prog ε π σ β} {s s' : σ} {e : ε} :
    (x >>= f) s = .err e s' ↔
      x s = .err e s' ∨ ∃ a s₁, x s = .ok a s₁ ∧ f a s₁ = .err e s' := by
  rw [bind_apply]
  rcases x s with ⟨a, s₁⟩ | ⟨e, s₁⟩ | p <;> simp [and_assoc]

/-- Two sequences end alike if their first halves do, and their second halves do from where
the first ones have returned. -/
theorem bind_congr_at {x y : Prog ε π σ α} {f g : α → Prog ε π σ β} {s : σ} (hx : x s = y s)
    (hf : ∀ a s', x s = .ok a s' → f a s' = g a s') : (x >>= f) s = (y >>= g) s := by
  rw [bind_apply, bind_apply, ← hx]
  rcases h : x s with ⟨a, s'⟩ | ⟨e, s'⟩ | p
  · exact hf a s' h
  · rfl
  · rfl

@[simp] theorem get_bind (f : σ → Prog ε π σ β) (s : σ) : (get >>= f) s = f s s :=
  rfl

@[simp] theorem modify_bind (g : σ → σ) (f : Unit → Prog ε π σ β) (s : σ) :
    (modify g >>= f) s = f () (g s) :=
  rfl

theorem ofResult_bind_eq_ok {x : Except ε α} {f : α → Prog ε π σ β} {s s' : σ} {b : β} :
    (ofResult x >>= f) s = .ok b s' ↔ ∃ a, x = .ok a ∧ f a s = .ok b s' := by
  cases x <;> simp [bind_apply]

theorem ofChecked_bind_eq_ok {x : Except π α} {f : α → Prog ε π σ β} {s s' : σ} {b : β} :
    (ofChecked x >>= f) s = .ok b s' ↔ ∃ a, x = .ok a ∧ f a s = .ok b s' := by
  cases x <;> simp [bind_apply]

theorem ofResult_ok_bind (a : α) (f : α → Prog ε π σ β) : (ofResult (.ok a) >>= f) = f a :=
  rfl

theorem ofChecked_ok_bind (a : α) (f : α → Prog ε π σ β) : (ofChecked (.ok a) >>= f) = f a :=
  rfl

theorem ofResult_eq_ok {x : Except ε α} {s s' : σ} {a : α} :
    (ofResult x : Prog ε π σ α) s = .ok a s' ↔ x = .ok a ∧ s' = s := by
  cases x <;> simp [eq_comm]

theorem ofChecked_eq_ok {x : Except π α} {s s' : σ} {a : α} :
    (ofChecked x : Prog ε π σ α) s = .ok a s' ↔ x = .ok a ∧ s' = s := by
  cases x <;> simp [eq_comm]

theorem within_eq_ok {t : τ} {x : Prog ε π τ α} {s s' : σ} {a : α} :
    within t x s = .ok a s' ↔ (∃ t', x t = .ok a t') ∧ s' = s := by
  unfold within
  rcases x t with ⟨b, t'⟩ | ⟨e, t'⟩ | p <;> simp [eq_comm]

theorem mapErr_eq_ok {f : ε → ε'} {x : Prog ε π σ α} {s s' : σ} {a : α} :
    mapErr f x s = .ok a s' ↔ x s = .ok a s' := by
  unfold mapErr
  rcases x s with ⟨a, s₁⟩ | ⟨e, s₁⟩ | p <;> simp

theorem mapErr_eq_err {f : ε → ε'} {x : Prog ε π σ α} {s s' : σ} {e' : ε'} :
    mapErr f x s = .err e' s' ↔ ∃ e, x s = .err e s' ∧ f e = e' := by
  unfold mapErr
  rcases x s with ⟨a, s₁⟩ | ⟨e, s₁⟩ | p
  · simp
  · simpa [and_assoc] using and_comm
  · simp

theorem zoom_isOk_iff {view : σ → τ} {put : τ → σ → σ} {x : Prog ε π τ α} {s : σ} :
    (∃ a s', zoom view put x s = .ok a s') ↔ ∃ a t, x (view s) = .ok a t := by
  unfold zoom
  rcases x (view s) with ⟨a, t⟩ | ⟨e, t⟩ | p <;> simp

theorem attempt_eq_ok {x : Prog ε π σ α} {s s' : σ} {r : Except ε α} :
    (attempt x : Prog ε' π σ (Except ε α)) s = .ok r s' ↔
      (∃ a, x s = .ok a s' ∧ r = .ok a) ∨ ∃ e, x s = .err e s' ∧ r = .error e := by
  unfold attempt
  constructor
  · intro h
    cases hx : x s with
    | ok a s₁ =>
      obtain ⟨rfl, rfl⟩ : .ok a = r ∧ s₁ = s' := by simpa [hx] using h
      exact Or.inl ⟨a, rfl, rfl⟩
    | err e s₁ =>
      obtain ⟨rfl, rfl⟩ : .error e = r ∧ s₁ = s' := by simpa [hx] using h
      exact Or.inr ⟨e, rfl, rfl⟩
    | panic p => simp [hx] at h
  · rintro (⟨a, hx, rfl⟩ | ⟨e, hx, rfl⟩) <;> rw [hx]

@[simp] theorem forEach_nil (body : α → Prog ε π σ Unit) (s : σ) :
    forEach [] body s = .ok () s :=
  rfl

theorem forEach_cons (a : α) (l : List α) (body : α → Prog ε π σ Unit) :
    forEach (a :: l) body = body a >>= fun _ => forEach l body :=
  rfl

theorem forEach_congr {body body' : α → Prog ε π σ Unit} : ∀ {l : List α},
    (∀ a ∈ l, body a = body' a) → forEach l body = forEach l body'
  | [], _ => rfl
  | a :: l, h => by
    rw [forEach_cons, forEach_cons, h a List.mem_cons_self,
      forEach_congr fun b hb => h b (List.mem_cons_of_mem a hb)]

theorem forEach_map (f : β → α) (body : α → Prog ε π σ Unit) :
    ∀ l : List β, forEach (l.map f) body = forEach l fun b => body (f b)
  | [] => rfl
  | b :: l => by
    rw [List.map_cons, forEach_cons, forEach_cons, forEach_map f body l]

/-- A loop over an appended list runs the two loops in turn. -/
theorem forEach_append_eq_ok (body : α → Prog ε π σ Unit) {s s' : σ} :
    ∀ {l₁ l₂ : List α}, forEach (l₁ ++ l₂) body s = .ok () s' ↔
      ∃ s₁, forEach l₁ body s = .ok () s₁ ∧ forEach l₂ body s₁ = .ok () s'
  | [], l₂ => by simp
  | a :: l₁, l₂ => by
    simp only [List.cons_append, forEach_cons, bind_eq_ok, forEach_append_eq_ok body]
    constructor
    · rintro ⟨u, s₁, h₁, s₂, h₂, h₃⟩
      exact ⟨s₂, ⟨u, s₁, h₁, h₂⟩, h₃⟩
    · rintro ⟨s₂, ⟨u, s₁, h₁, h₂⟩, h₃⟩
      exact ⟨u, s₁, h₁, s₂, h₂, h₃⟩

theorem foldlM_cons_eq_ok {f : β → α → Prog ε π σ β} {a : α} {l : List α} {b b' : β} {s s' : σ} :
    (a :: l).foldlM f b s = .ok b' s' ↔
      ∃ b₁ s₁, f b a s = .ok b₁ s₁ ∧ l.foldlM f b₁ s₁ = .ok b' s' := by
  rw [List.foldlM_cons, bind_eq_ok]

/-- A fold over an appended list runs the two folds in turn. -/
theorem foldlM_append_eq_ok (f : β → α → Prog ε π σ β) {b' : β} {s' : σ} :
    ∀ {l₁ l₂ : List α} {b : β} {s : σ}, (l₁ ++ l₂).foldlM f b s = .ok b' s' ↔
      ∃ b₁ s₁, l₁.foldlM f b s = .ok b₁ s₁ ∧ l₂.foldlM f b₁ s₁ = .ok b' s'
  | [], l₂, b, s => by
    refine ⟨fun h => ⟨b, s, rfl, h⟩, ?_⟩
    rintro ⟨b₁, s₁, h₁, h₂⟩
    obtain ⟨rfl, rfl⟩ : b = b₁ ∧ s = s₁ := by simpa using h₁
    exact h₂
  | a :: l₁, l₂, b, s => by
    simp only [List.cons_append, foldlM_cons_eq_ok, foldlM_append_eq_ok f]
    constructor
    · rintro ⟨b₁, s₁, h₁, b₂, s₂, h₂, h₃⟩
      exact ⟨b₂, s₂, ⟨b₁, s₁, h₁, h₂⟩, h₃⟩
    · rintro ⟨b₂, s₂, ⟨b₁, s₁, h₁, h₂⟩, h₃⟩
      exact ⟨b₁, s₁, h₁, b₂, s₂, h₂, h₃⟩

/-- What every step of a fold preserves, the fold preserves. -/
theorem foldlM_induct {f : β → α → Prog ε π σ β} {I : β → σ → Prop} {b' : β} {s' : σ} :
    ∀ {l : List α} {b : β} {s : σ},
      (∀ a ∈ l, ∀ b s b₁ s₁, I b s → f b a s = .ok b₁ s₁ → I b₁ s₁) →
      I b s → l.foldlM f b s = .ok b' s' → I b' s'
  | [], b, s, _, hI, h => by
    obtain ⟨rfl, rfl⟩ : b = b' ∧ s = s' := by simpa using h
    exact hI
  | a :: l, b, s, hstep, hI, h => by
    obtain ⟨b₁, s₁, h₁, h₂⟩ := foldlM_cons_eq_ok.1 h
    exact foldlM_induct (fun c hc => hstep c (List.mem_cons_of_mem a hc))
      (hstep a List.mem_cons_self b s b₁ s₁ hI h₁) h₂

/-- A sequence that ends ordinarily ran both calls, or its first one failed. -/
theorem state?_bind_eq_some {x : Prog ε π σ α} {f : α → Prog ε π σ β} {s s' : σ}
    (h : ((x >>= f) s).state? = some s') :
    (∃ a s₁, x s = .ok a s₁ ∧ (f a s₁).state? = some s') ∨ ∃ e, x s = .err e s' := by
  rw [bind_apply] at h
  rcases hx : x s with ⟨a, s₁⟩ | ⟨e, s₁⟩ | p <;> rw [hx] at h
  · exact Or.inl ⟨a, s₁, rfl, h⟩
  · obtain rfl : s₁ = s' := Option.some.inj h
    exact Or.inr ⟨e, rfl⟩
  · cases h

/-! ## What a call returns -/

/-- Every value the call returns satisfies `P`. -/
def Yields (P : α → Prop) (x : Prog ε π σ α) : Prop :=
  ∀ s a s', x s = .ok a s' → P a

theorem yields_pure {P : α → Prop} {a : α} (h : P a) : Yields P (pure a : Prog ε π σ α) := by
  intro s b s' hb
  obtain ⟨rfl, -⟩ := Outcome.ok.inj hb
  exact h

theorem yields_fail (P : α → Prop) (e : ε) : Yields P (fail e : Prog ε π σ α) := by
  rintro s b s' ⟨⟩

theorem yields_bind {P : β → Prop} {x : Prog ε π σ α} {f : α → Prog ε π σ β}
    (h : ∀ a, Yields P (f a)) : Yields P (x >>= f) := by
  intro s b s' hb
  obtain ⟨a, s₁, -, hf⟩ := bind_eq_ok.1 hb
  exact h a s₁ b s' hf

theorem Yields.bind {Q : α → Prop} {P : β → Prop} {x : Prog ε π σ α} {f : α → Prog ε π σ β}
    (hx : Yields Q x) (h : ∀ a, Q a → Yields P (f a)) : Yields P (x >>= f) := by
  intro s b s' hb
  obtain ⟨a, s₁, ha, hf⟩ := bind_eq_ok.1 hb
  exact h a (hx s a s₁ ha) s₁ b s' hf

theorem yields_foldlM {P : β → Prop} {f : β → α → Prog ε π σ β}
    (h : ∀ b a, P b → Yields P (f b a)) {b : β} (hb : P b) (l : List α) :
    Yields P (l.foldlM f b) :=
  fun _ _ _ hrun => foldlM_induct (fun a _ b s b₁ s₁ hb hstep => h b a hb s b₁ s₁ hstep) hb hrun

/-! ## Relating the start of a call to its end -/

/-- Every ordinary ending of `x` is `R`-related to its start. -/
def Steps (R : σ → σ → Prop) (x : Prog ε π σ α) : Prop :=
  ∀ s s', (x s).state? = some s' → R s s'

section Steps

variable {R : σ → σ → Prop}

theorem Steps.ok {x : Prog ε π σ α} (h : Steps R x) {s s' : σ} {a : α}
    (hx : x s = .ok a s') : R s s' :=
  h s s' (by rw [hx]; rfl)

theorem Steps.err {x : Prog ε π σ α} (h : Steps R x) {s s' : σ} {e : ε}
    (hx : x s = .err e s') : R s s' :=
  h s s' (by rw [hx]; rfl)

theorem Steps.mono {R' : σ → σ → Prop} {x : Prog ε π σ α} (h : Steps R x)
    (hR : ∀ s s', R s s' → R' s s') : Steps R' x :=
  fun s s' hs => hR s s' (h s s' hs)

variable [IsPreorder σ R]

/-- A call that never changes the state. -/
theorem Steps.of_const {x : Prog ε π σ α}
    (h : ∀ s s', (x s).state? = some s' → s' = s) : Steps R x := by
  intro s s' hs
  rw [h s s' hs]
  exact refl_of R s

theorem steps_pure (a : α) : Steps R (pure a : Prog ε π σ α) :=
  Steps.of_const fun _ _ h => (Option.some.inj h).symm

theorem steps_get : Steps R (get : Prog ε π σ σ) :=
  Steps.of_const fun _ _ h => (Option.some.inj h).symm

theorem steps_fail (e : ε) : Steps R (fail e : Prog ε π σ α) :=
  Steps.of_const fun _ _ h => (Option.some.inj h).symm

theorem steps_ofResult (x : Except ε α) : Steps R (ofResult x : Prog ε π σ α) := by
  cases x with
  | ok a => exact steps_pure a
  | error e => exact steps_fail e

theorem steps_ofChecked (x : Except π α) : Steps R (ofChecked x : Prog ε π σ α) := by
  cases x with
  | ok a => exact steps_pure a
  | error p => exact fun _ _ h => by cases h

omit [IsPreorder σ R] in
/-- A sequence relates its start to its end through the relations of its two parts. -/
theorem Steps.seq {R₁ R₂ : σ → σ → Prop} {x : Prog ε π σ α} {f : α → Prog ε π σ β}
    (hx : Steps R₁ x) (hf : ∀ a, Steps R₂ (f a)) (hend : ∀ s t, R₁ s t → R s t)
    (hseq : ∀ s t u, R₁ s t → R₂ t u → R s u) : Steps R (x >>= f) := by
  intro s s' h
  rcases state?_bind_eq_some h with ⟨a, s₁, hxs, h⟩ | ⟨e, hxs⟩
  · exact hseq s s₁ s' (hx.ok hxs) (hf a s₁ s' h)
  · exact hend s s' (hx.err hxs)

theorem Steps.bind {x : Prog ε π σ α} {f : α → Prog ε π σ β}
    (hx : Steps R x) (hf : ∀ a, Steps R (f a)) : Steps R (x >>= f) :=
  hx.seq hf (fun _ _ h => h) fun _ _ _ => trans_of R

omit [IsPreorder σ R] in
/-- A value is made of what a call returns. -/
theorem Steps.bind_pure {x : Prog ε π σ α} {f : α → β} (hx : Steps R x) :
    Steps R (x >>= fun a => pure (f a)) := by
  have hpure : ∀ a, Steps Eq (pure (f a) : Prog ε π σ β) := fun a => steps_pure (f a)
  exact hx.seq hpure (fun _ _ h => h) fun _ _ _ h heq => heq ▸ h

omit [IsPreorder σ R] in
theorem Steps.ofChecked_bind {x : Except π α} {f : α → Prog ε π σ β}
    (h : ∀ a, x = .ok a → Steps R (f a)) : Steps R (ofChecked x >>= f) := by
  cases x with
  | ok a => exact h a rfl
  | error p => exact fun _ _ h => by cases h

theorem steps_within {t : τ} (x : Prog ε π τ α) : Steps R (within t x : Prog ε π σ α) := by
  refine Steps.of_const fun s s' h => ?_
  unfold within at h
  rcases hx : x t with ⟨a, t'⟩ | ⟨e, t'⟩ | p <;> simp only [hx] at h
  · exact (Option.some.inj h).symm
  · exact (Option.some.inj h).symm
  · cases h

omit [IsPreorder σ R] in
theorem Steps.attempt {x : Prog ε π σ α} (hx : Steps R x) :
    Steps R (Prog.attempt x : Prog ε' π σ (Except ε α)) := by
  intro s s' h
  unfold Prog.attempt at h
  cases hxs : x s with
  | ok a s₁ =>
    rw [hxs] at h
    obtain rfl : s₁ = s' := Option.some.inj h
    exact hx.ok hxs
  | err e s₁ =>
    rw [hxs] at h
    obtain rfl : s₁ = s' := Option.some.inj h
    exact hx.err hxs
  | panic p =>
    rw [hxs] at h
    cases h

omit [IsPreorder σ R] in
theorem Steps.mapErr {x : Prog ε π σ α} (hx : Steps R x) (f : ε → ε') :
    Steps R (Prog.mapErr f x) := by
  intro s s' h
  unfold Prog.mapErr at h
  rcases hxs : x s with ⟨a, s₁⟩ | ⟨e, s₁⟩ | p <;> simp only [hxs] at h
  · obtain rfl : s₁ = s' := Option.some.inj h
    exact hx.ok hxs
  · obtain rfl : s₁ = s' := Option.some.inj h
    exact hx.err hxs
  · cases h

/-- A loop is a chain of steps when its body is one. -/
theorem Steps.forEach {body : α → Prog ε π σ Unit} :
    ∀ {l : List α}, (∀ a ∈ l, Steps R (body a)) → Steps R (Prog.forEach l body)
  | [], _ => steps_pure ()
  | a :: l, h => by
    rw [forEach_cons]
    exact Steps.bind (h a (by simp)) fun _ =>
      Steps.forEach fun b hb => h b (List.mem_cons_of_mem a hb)

theorem Steps.foldlM {f : β → α → Prog ε π σ β} :
    ∀ {l : List α} {b : β}, (∀ b, ∀ a ∈ l, Steps R (f b a)) → Steps R (l.foldlM f b)
  | [], b, _ => steps_pure b
  | a :: l, b, h => by
    rw [List.foldlM_cons]
    exact Steps.bind (h b a List.mem_cons_self) fun _ =>
      Steps.foldlM fun b c hc => h b c (List.mem_cons_of_mem a hc)

end Steps

/-! ## Steps of a component -/

section InvImage

variable {R : τ → τ → Prop} {view : σ → τ}

instance isPreorderInvImage [IsPreorder τ R] : IsPreorder σ (InvImage R view) where
  refl s := refl_of R (view s)
  trans _ _ _ h₁ h₂ := trans_of R h₁ h₂

/-- What a call on a component does to a part of it, it does to that part of the whole. -/
theorem Steps.zoom_via {ρ : Type} {S : ρ → ρ → Prop} {part : τ → ρ} {whole : σ → ρ}
    {put : τ → σ → σ} {x : Prog ε π τ α} (hx : Steps (InvImage S part) x)
    (hview : ∀ s, whole s = part (view s)) (hput : ∀ t s, whole (put t s) = part t) :
    Steps (InvImage S whole) (Prog.zoom view put x) := by
  intro s s' h
  unfold Prog.zoom at h
  rcases hxs : x (view s) with ⟨a, t⟩ | ⟨e, t⟩ | p <;> simp only [hxs] at h
  · obtain rfl : put t s = s' := Option.some.inj h
    rw [InvImage, hput, hview]
    exact hx.ok hxs
  · obtain rfl : put t s = s' := Option.some.inj h
    rw [InvImage, hput, hview]
    exact hx.err hxs
  · cases h

/-- A call on a component takes the component where the call takes it. -/
theorem Steps.zoom {put : τ → σ → σ} {x : Prog ε π τ α} (hx : Steps R x)
    (hput : ∀ t s, view (put t s) = t) : Steps (InvImage R view) (Prog.zoom view put x) := by
  have hid : Steps (InvImage R id) x := hx
  exact hid.zoom_via (fun _ => rfl) hput

/-- A call on one component leaves the others alone. -/
theorem steps_zoom_of_eq [IsPreorder τ R] {τ' : Type} {other : σ → τ'} {put : τ' → σ → σ}
    (x : Prog ε π τ' α) (hput : ∀ t s, view (put t s) = view s) :
    Steps (InvImage R view) (Prog.zoom other put x) := by
  intro s s' h
  unfold Prog.zoom at h
  rcases hxs : x (other s) with ⟨a, t⟩ | ⟨e, t⟩ | p <;> simp only [hxs] at h
  · obtain rfl : put t s = s' := Option.some.inj h
    rw [InvImage, hput]
    exact refl_of R _
  · obtain rfl : put t s = s' := Option.some.inj h
    rw [InvImage, hput]
    exact refl_of R _
  · cases h

theorem steps_modify_of_eq [IsPreorder τ R] {f : σ → σ} (hf : ∀ s, view (f s) = view s) :
    Steps (InvImage R view) (Prog.modify f : Prog ε π σ Unit) := by
  intro s s' h
  obtain rfl : f s = s' := Option.some.inj h
  rw [InvImage, hf]
  exact refl_of R _

end InvImage

/-! ## Errors that leave no trace -/

/-- A call that fails leaves the state as it was. -/
def FailsClean (x : Prog ε π σ α) : Prop :=
  ∀ s s' e, x s = .err e s' → s' = s

theorem FailsClean.of_steps_eq {x : Prog ε π σ α} (h : Steps Eq x) : FailsClean x :=
  fun _ _ _ hx => (h.err hx).symm

/-- Reading first does not spoil a clean failure. -/
theorem FailsClean.bind_const {x : Prog ε π σ α} {f : α → Prog ε π σ β} (hx : Steps Eq x)
    (hf : ∀ a, FailsClean (f a)) : FailsClean (x >>= f) := by
  intro s s' e h
  rw [bind_apply] at h
  cases hxs : x s with
  | ok a s₁ =>
    obtain rfl := hx.ok hxs
    exact hf a s s' e (by simpa [hxs] using h)
  | err e₁ s₁ =>
    obtain rfl := hx.err hxs
    exact (by simpa [hxs] using h : e₁ = e ∧ s = s').2.symm
  | panic p => simp [hxs] at h

/-- Nothing that comes after and cannot fail spoils a clean failure. -/
theorem FailsClean.bind_total {x : Prog ε π σ α} {f : α → Prog ε π σ β} (hx : FailsClean x)
    (hf : ∀ a s e s', f a s ≠ .err e s') : FailsClean (x >>= f) := by
  intro s s' e h
  rw [bind_apply] at h
  cases hxs : x s with
  | ok a s₁ => exact absurd (by simpa [hxs] using h) (hf a s₁ e s')
  | err e₁ s₁ =>
    obtain ⟨-, rfl⟩ : e₁ = e ∧ s₁ = s' := by simpa [hxs] using h
    exact hx s s₁ e₁ hxs
  | panic p => simp [hxs] at h

/-- For a call that fails cleanly only its successes have to be looked at. -/
theorem FailsClean.steps {x : Prog ε π σ α} (hx : FailsClean x) {R : σ → σ → Prop}
    (hr : ∀ s, R s s) (hok : ∀ s a s', x s = .ok a s' → R s s') : Steps R x := by
  intro s s' h
  rcases hxs : x s with ⟨a, s₁⟩ | ⟨e, s₁⟩ | p
  · rw [hxs] at h
    obtain rfl : s₁ = s' := Option.some.inj h
    exact hok s a s₁ hxs
  · rw [hxs] at h
    obtain rfl : s₁ = s' := Option.some.inj h
    rw [hx s s₁ e hxs]
    exact hr s
  · rw [hxs] at h
    cases h

theorem failsClean_modify (f : σ → σ) : FailsClean (modify f : Prog ε π σ Unit) :=
  fun _ _ _ h => by cases h

end Prog

end SysLib
