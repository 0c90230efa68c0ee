import Mathlib.Tactic.Common

/-!
# Machines and what they refine

A machine answers every call with a new state and an event. An abstract machine is a relation that
says which events are possible. When every step of the first is one of the second, under an
invariant, every run of calls is a trace of events of the second (`run_refines`). Where the abstract
machine is one that answers too, related states give the same events to every legal run
(`run_simulates`).
-/

namespace Refine

variable {σ τ ι ε : Type}

/-- Events one after the other. -/
inductive Trace (T : τ → ε → τ → Prop) : τ → List ε → τ → Prop where
  | nil (t) : Trace T t [] t
  | cons {t e t' es t''} :
    T t e t' →
    Trace T t' es t'' →
    Trace T t (e :: es) t''

/-- The calls one after the other: the last state, and the events. -/
def run (step : σ → ι → σ × ε) : σ → List ι → σ × List ε
  | s, [] => (s, [])
  | s, i :: is => ((run step (step s i).1 is).1, (step s i).2 :: (run step (step s i).1 is).2)

variable {T : τ → ε → τ → Prop} {step : σ → ι → σ × ε}

/-- What every step keeps, every trace keeps. -/
lemma Trace.inv {P : τ → Prop} (hstep : ∀ {t e t'}, T t e t' → P t → P t') {t es t'}
    (tr : Trace T t es t') (h : P t) : P t' := by
  induction tr with
  | nil => exact h
  | cons he _ ih => exact ih (hstep he h)

/-- A trace of a list in two parts. -/
lemma Trace.append_inv {t es es' t''} (tr : Trace T t (es ++ es') t'') :
    ∃ t', Trace T t es t' ∧ Trace T t' es' t'' := by
  induction es generalizing t with
  | nil => exact ⟨t, .nil t, tr⟩
  | cons e es ih =>
    cases tr with
    | cons he tr =>
      obtain ⟨t', h1, h2⟩ := ih tr
      exact ⟨t', .cons he h1, h2⟩

/-- Every event of a trace is a step from a state reached. -/
lemma Trace.mem {t es t' e} (tr : Trace T t es t') (he : e ∈ es) :
    ∃ es₁ t₁ t₂, Trace T t es₁ t₁ ∧ T t₁ e t₂ := by
  obtain ⟨es₁, es₂, rfl⟩ := List.append_of_mem he
  obtain ⟨t₁, h1, h2⟩ := tr.append_inv
  cases h2 with
  | cons he _ => exact ⟨es₁, t₁, _, h1, he⟩

/-- A run of a machine is a trace of the machine it refines, and keeps the invariant. -/
lemma run_refines {I : σ → Prop} {f : σ → τ}
    (hstep : ∀ s i, I s → I (step s i).1 ∧ T (f s) (step s i).2 (f (step s i).1)) {s : σ}
    {is : List ι} (h : I s) :
    I (run step s is).1 ∧ Trace T (f s) (run step s is).2 (f (run step s is).1) := by
  induction is generalizing s with
  | nil => exact ⟨h, .nil _⟩
  | cons i is ih =>
    obtain ⟨h1, h2⟩ := hstep s i h
    obtain ⟨h3, h4⟩ := ih h1
    exact ⟨h3, .cons h2 h4⟩

/-- Calls that are each legal where they are made. -/
def Legal (ok : τ → ι → Prop) (step : τ → ι → τ × ε) : τ → List ι → Prop
  | _, [] => True
  | t, i :: is => ok t i ∧ Legal ok step (step t i).1 is

/-- Steps that keep a relation between two machines and answer the same do so over every run. -/
lemma run_simulates {R : σ → τ → Prop} {ok : τ → ι → Prop} {spec : τ → ι → τ × ε}
    (hstep : ∀ s t i, R s t → ok t i →
      R (step s i).1 (spec t i).1 ∧ (step s i).2 = (spec t i).2) {s : σ} {t : τ} {is : List ι}
    (h : R s t) (hlegal : Legal ok spec t is) :
    R (run step s is).1 (run spec t is).1 ∧ (run step s is).2 = (run spec t is).2 := by
  induction is generalizing s t with
  | nil => exact ⟨h, rfl⟩
  | cons i is ih =>
    obtain ⟨hok, hlegal⟩ := hlegal
    obtain ⟨hR, he⟩ := hstep s t i h hok
    obtain ⟨hR', hes⟩ := ih hR hlegal
    exact ⟨hR', congrArg₂ List.cons he hes⟩

end Refine
