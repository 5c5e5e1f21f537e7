import IosEmu.Outcome

/-!
# Calls that do not panic

`x.Safe s` says that the call `x` does not panic in the state `s`, and `x.Total` that it does
in none. A sequence is safe exactly if its first half is, and its second half is wherever the
first has returned (`safe_bind_iff`), so the exact condition for a method is read off its body :
every check adds one conjunct, under the hypothesis that the calls before have returned.
-/

namespace SysLib.Prog

variable {ε ε' π σ τ α β : Type}

/-- The call does not panic in the state `s`. -/
def Safe (x : Prog ε π σ α) (s : σ) : Prop :=
  ∀ p, x s ≠ .panic p

/-- The call panics in no state. -/
def Total (x : Prog ε π σ α) : Prop :=
  ∀ s, x.Safe s

variable {x : Prog ε π σ α} {s : σ}

theorem safe_of_ok {a : α} {s' : σ} (h : x s = .ok a s') : x.Safe s := by
  intro p hp
  rw [h] at hp
  cases hp

theorem safe_of_err {e : ε} {s' : σ} (h : x s = .err e s') : x.Safe s := by
  intro p hp
  rw [h] at hp
  cases hp

theorem safe_bind_iff {f : α → Prog ε π σ β} :
    (x >>= f).Safe s ↔ x.Safe s ∧ ∀ a s', x s = .ok a s' → (f a).Safe s' := by
  unfold Safe
  rw [bind_apply]
  rcases hx : x s with ⟨a, s'⟩ | ⟨e, s'⟩ | p <;> simp

/-- A sequence panics where its first half does, or its second half after it. -/
theorem panic_of_bind {f : α → Prog ε π σ β} {p : π} (h : (x >>= f) s = .panic p) :
    x s = .panic p ∨ ∃ a s', x s = .ok a s' ∧ f a s' = .panic p := by
  rw [bind_apply] at h
  rcases hx : x s with ⟨a, s'⟩ | ⟨e, s'⟩ | q
  · rw [hx] at h
    exact .inr ⟨a, s', rfl, h⟩
  · rw [hx] at h
    cases h
  · rw [hx] at h
    exact .inl (congrArg Outcome.panic (Outcome.panic.inj h))

theorem Total.bind {f : α → Prog ε π σ β} (hx : x.Total) (hf : ∀ a, (f a).Total) :
    (x >>= f).Total :=
  fun s => safe_bind_iff.2 ⟨hx s, fun a s' _ => hf a s'⟩

/-- What comes after a total call decides. -/
theorem Total.safe_bind_iff {f : α → Prog ε π σ β} (hx : x.Total) :
    (x >>= f).Safe s ↔ ∀ a s', x s = .ok a s' → (f a).Safe s' :=
  Prog.safe_bind_iff.trans (and_iff_right (hx s))

/-- What comes before a total call decides. -/
theorem safe_bind_total_iff {f : α → Prog ε π σ β} (hf : ∀ a, (f a).Total) :
    (x >>= f).Safe s ↔ x.Safe s :=
  safe_bind_iff.trans (and_iff_left fun a s' _ => hf a s')

theorem total_pure (a : α) : (pure a : Prog ε π σ α).Total :=
  fun _ => safe_of_ok rfl

theorem total_get : (get : Prog ε π σ σ).Total :=
  fun _ => safe_of_ok rfl

theorem total_modify (f : σ → σ) : (modify f : Prog ε π σ Unit).Total :=
  fun _ => safe_of_ok rfl

theorem total_fail (e : ε) : (fail e : Prog ε π σ α).Total :=
  fun _ => safe_of_err rfl

theorem total_ofResult (r : Except ε α) : (ofResult r : Prog ε π σ α).Total := by
  cases r with
  | ok a => exact total_pure a
  | error e => exact total_fail e

theorem safe_get_bind_iff {f : σ → Prog ε π σ β} : (get >>= f).Safe s ↔ (f s).Safe s :=
  Iff.rfl

theorem safe_ofChecked_iff {c : Except π α} :
    (ofChecked c : Prog ε π σ α).Safe s ↔ ∃ a, c = .ok a := by
  cases c with
  | ok a => exact ⟨fun _ => ⟨a, rfl⟩, fun _ => total_pure a s⟩
  | error p => exact ⟨fun h => absurd rfl (h p), fun ⟨_, h⟩ => by cases h⟩

/-- A check, and what comes after it. -/
theorem safe_ofChecked_bind_iff {c : Except π α} {f : α → Prog ε π σ β} :
    (ofChecked c >>= f).Safe s ↔ ∃ a, c = .ok a ∧ (f a).Safe s := by
  rw [safe_bind_iff, safe_ofChecked_iff]
  constructor
  · rintro ⟨⟨a, rfl⟩, h⟩
    exact ⟨a, rfl, h a s rfl⟩
  · rintro ⟨a, rfl, h⟩
    refine ⟨⟨a, rfl⟩, fun b s' hb => ?_⟩
    obtain ⟨rfl, rfl⟩ := Outcome.ok.inj hb
    exact h

theorem safe_ofResult_bind_iff {r : Except ε α} {f : α → Prog ε π σ β} :
    (ofResult r >>= f).Safe s ↔ ∀ a, r = .ok a → (f a).Safe s := by
  rw [(total_ofResult r).safe_bind_iff]
  refine ⟨fun h a ha => h a s (ofResult_eq_ok.2 ⟨ha, rfl⟩), fun h a s' ha => ?_⟩
  obtain ⟨hr, rfl⟩ := ofResult_eq_ok.1 ha
  exact h a hr

theorem safe_attempt_iff : (attempt x : Prog ε' π σ (Except ε α)).Safe s ↔ x.Safe s := by
  unfold Safe attempt
  rcases x s with ⟨a, s'⟩ | ⟨e, s'⟩ | p <;> simp

theorem safe_mapErr_iff {f : ε → ε'} : (mapErr f x).Safe s ↔ x.Safe s := by
  unfold Safe mapErr
  rcases x s with ⟨a, s'⟩ | ⟨e, s'⟩ | p <;> simp

theorem safe_zoom_iff {view : σ → τ} {put : τ → σ → σ} {x : Prog ε π τ α} :
    (zoom view put x).Safe s ↔ x.Safe (view s) := by
  unfold Safe zoom
  rcases x (view s) with ⟨a, s'⟩ | ⟨e, s'⟩ | p <;> simp

theorem safe_within_iff {t : τ} {x : Prog ε π τ α} :
    (within t x : Prog ε π σ α).Safe s ↔ x.Safe t := by
  unfold Safe within
  rcases x t with ⟨a, s'⟩ | ⟨e, s'⟩ | p <;> simp

theorem Total.attempt (hx : x.Total) : (Prog.attempt x : Prog ε' π σ (Except ε α)).Total :=
  fun s => safe_attempt_iff.2 (hx s)

theorem Total.forEach {body : α → Prog ε π σ Unit} :
    ∀ {l : List α}, (∀ a ∈ l, (body a).Total) → (Prog.forEach l body).Total
  | [], _ => total_pure ()
  | a :: _, h => (h a List.mem_cons_self).bind fun _ =>
      Total.forEach fun b hb => h b (List.mem_cons_of_mem a hb)

theorem safe_foldlM_append_iff {f : β → α → Prog ε π σ β} {l₂ : List α} :
    ∀ {l₁ : List α} {b : β} {s : σ}, ((l₁ ++ l₂).foldlM f b).Safe s ↔
      (l₁.foldlM f b).Safe s ∧
        ∀ b' s', l₁.foldlM f b s = .ok b' s' → (l₂.foldlM f b').Safe s'
  | [], b, s => by
    simp only [List.nil_append, List.foldlM_nil, pure_apply, Outcome.ok.injEq, and_imp]
    exact ⟨fun h => ⟨total_pure b s, by rintro _ _ rfl rfl; exact h⟩, fun h => h.2 b s rfl rfl⟩
  | a :: l₁, b, s => by
    rw [List.cons_append, List.foldlM_cons, List.foldlM_cons, safe_bind_iff, safe_bind_iff]
    simp only [safe_foldlM_append_iff, bind_eq_ok]
    constructor
    · rintro ⟨ha, h⟩
      refine ⟨⟨ha, fun b' s' h' => (h b' s' h').1⟩, ?_⟩
      rintro b'' s'' ⟨b', s', h', hl⟩
      exact (h b' s' h').2 b'' s'' hl
    · rintro ⟨⟨ha, h⟩, hl⟩
      exact ⟨ha, fun b' s' h' => ⟨h b' s' h', fun b'' s'' h'' => hl b'' s'' ⟨b', s', h', h''⟩⟩⟩

/-! ## Calls that do not fail -/

/-- The call returns no error. -/
def Infallible (x : Prog ε π σ α) : Prop :=
  ∀ s e s', x s ≠ .err e s'

/-- A call that does not fail is safe exactly if it returns. -/
theorem Infallible.safe_iff (hx : x.Infallible) : x.Safe s ↔ ∃ a s', x s = .ok a s' := by
  constructor
  · intro h
    rcases hrun : x s with ⟨a, s'⟩ | ⟨e, s'⟩ | p
    · exact ⟨a, s', rfl⟩
    · exact absurd hrun (hx s e s')
    · exact absurd hrun (h p)
  · rintro ⟨a, s', hrun⟩
    exact safe_of_ok hrun

theorem infallible_pure (a : α) : (pure a : Prog ε π σ α).Infallible := by
  rintro s e s' ⟨⟩

theorem infallible_get : (get : Prog ε π σ σ).Infallible := by
  rintro s e s' ⟨⟩

theorem infallible_modify (f : σ → σ) : (modify f : Prog ε π σ Unit).Infallible := by
  rintro s e s' ⟨⟩

theorem infallible_ofChecked (c : Except π α) : (ofChecked c : Prog ε π σ α).Infallible := by
  cases c <;> rintro s e s' ⟨⟩

theorem infallible_attempt : (attempt x : Prog ε' π σ (Except ε α)).Infallible := by
  intro s e s' h
  unfold attempt at h
  rcases hrun : x s with ⟨a, t⟩ | ⟨e, t⟩ | p <;> simp [hrun] at h

theorem infallible_mapErr {x : Prog Empty π σ α} {f : Empty → ε'} : (mapErr f x).Infallible := by
  intro s e s' h
  unfold mapErr at h
  rcases hrun : x s with ⟨a, t⟩ | ⟨e, t⟩ | p
  · simp [hrun] at h
  · exact e.elim
  · simp [hrun] at h

theorem Infallible.bind {f : α → Prog ε π σ β} (hx : x.Infallible) (hf : ∀ a, (f a).Infallible) :
    (x >>= f).Infallible := by
  intro s e s' h
  rw [bind_apply] at h
  rcases hrun : x s with ⟨a, t⟩ | ⟨e, t⟩ | p <;> simp only [hrun] at h
  · exact hf a t e s' h
  · exact hx s _ _ hrun
  · cases h

theorem Infallible.foldlM {f : β → α → Prog ε π σ β} (hf : ∀ b a, (f b a).Infallible) :
    ∀ {l : List α} {b : β}, (l.foldlM f b).Infallible
  | [], b => infallible_pure b
  | a :: l, b => by
    rw [List.foldlM_cons]
    exact (hf b a).bind fun _ => Infallible.foldlM hf

end SysLib.Prog
