import Mathlib.Tactic.Common

/-!
# Runs of a machine

A machine is a partial step function on states and actions. `Run step C s as s'` says that the
actions `as` lead from `s` to `s'` and that each is taken in a state where `C` allows it. An
invariant is proved of one step and holds of every run (`Run.inv`).
-/

variable {σ α : Type}

/-- The actions lead from the first state to the last, each allowed by `C` where it is taken. -/
inductive Run (step : σ → α → Option σ) (C : σ → α → Prop) : σ → List α → σ → Prop where
  | nil (s) : Run step C s [] s
  | cons {s a s' as s''} :
    C s a →
    step s a = some s' →
    Run step C s' as s'' →
    Run step C s (a :: as) s''

namespace Run

variable {step : σ → α → Option σ} {C C' : σ → α → Prop}

/-- What every allowed step keeps, every run keeps. -/
lemma inv {P : σ → Prop} (hstep : ∀ {s a s'}, C s a → P s → step s a = some s' → P s')
    {s as s'} (r : Run step C s as s') (h : P s) : P s' := by
  induction r with
  | nil => exact h
  | cons hc hs _ ih => exact ih (hstep hc h hs)

/-- A relation to the first state that every step extends holds of every run. -/
lemma rel {P : σ → Prop} {R : σ → σ → Prop} (hrefl : ∀ s, R s s)
    (hstep : ∀ {s0 s a s'}, C s a → P s → R s0 s → step s a = some s' → P s' ∧ R s0 s')
    {s as s'} (r : Run step C s as s') (h : P s) : P s' ∧ R s s' := by
  have key : ∀ {s0 s as s'}, Run step C s as s' → P s → R s0 s → P s' ∧ R s0 s' := by
    intro s0 s as s' r
    induction r with
    | nil => exact fun h hr => ⟨h, hr⟩
    | cons hc hs _ ih =>
      intro h hr
      obtain ⟨h', hr'⟩ := hstep hc h hr hs
      exact ih h' hr'
  exact key r h (hrefl s)

lemma mono (hC : ∀ s a, C s a → C' s a) {s as s'} (r : Run step C s as s') :
    Run step C' s as s' := by
  induction r with
  | nil => exact .nil _
  | cons hc hs _ ih => exact .cons (hC _ _ hc) hs ih

lemma append {s as s' bs s''} (r : Run step C s as s') (r' : Run step C s' bs s'') :
    Run step C s (as ++ bs) s'' := by
  induction r with
  | nil => exact r'
  | cons hc hs _ ih => exact .cons hc hs (ih r')

/-- Steps that can be taken one after the other, each when it is allowed, are a run. -/
lemma of_foldlM [∀ s a, Decidable (C s a)] {as : List α} {s s' : σ}
    (h : as.foldlM (fun s a => if C s a then step s a else none) s = some s') :
    Run step C s as s' := by
  induction as generalizing s with
  | nil =>
    cases h
    exact .nil _
  | cons a as ih =>
    rw [List.foldlM_cons] at h
    obtain ⟨t, ht, hrest⟩ := Option.bind_eq_some_iff.1 h
    by_cases hc : C s a
    · rw [if_pos hc] at ht
      exact .cons hc ht (ih hrest)
    · rw [if_neg hc] at ht
      cases ht

end Run
