import Mathlib.Data.List.Basic

/-! Forward simulation for systems whose calls return answers.  A specification is a relation, so
that it may leave choices open; the system is a partial function, and what a call needs of the state
is a condition on it. -/

namespace Simulation

variable {σ τ ι ο : Type}

/-- Makes the calls in order, with their answers; `none` if one of them has no result. -/
def run (step : σ → ι → Option (σ × ο)) : σ → List ι → Option (σ × List ο)
  | s, [] => some (s, [])
  | s, i :: is => do
    let (s, o) ← step s i
    let (s, os) ← run step s is
    some (s, o :: os)

/-- The specification admits these answers to the calls. -/
inductive Admits (spec : τ → ι → ο → τ → Prop) : τ → List ι → List ο → τ → Prop
  | done (t : τ) : Admits spec t [] [] t
  | call {t t' t'' : τ} {i : ι} {o : ο} {is : List ι} {os : List ο} :
      spec t i o t' → Admits spec t' is os t'' → Admits spec t (i :: is) (o :: os) t''

/-- Each call of the run meets the condition in the state where it is made. -/
def Meets (step : σ → ι → Option (σ × ο)) (ok : σ → ι → Prop) : σ → List ι → Prop
  | _, [] => True
  | s, i :: is => ok s i ∧ ∀ r ∈ step s i, Meets step ok r.1 is

instance Meets.decide (step : σ → ι → Option (σ × ο)) (ok : σ → ι → Prop)
    [∀ s i, Decidable (ok s i)] : ∀ s is, Decidable (Meets step ok s is)
  | _, [] => .isTrue trivial
  | s, i :: is =>
    have (r : σ × ο) : Decidable (Meets step ok r.1 is) := Meets.decide step ok r.1 is
    inferInstanceAs (Decidable (ok s i ∧ ∀ r ∈ step s i, Meets step ok r.1 is))

theorem Meets.mono {step : σ → ι → Option (σ × ο)} {ok ok' : σ → ι → Prop}
    (sub : ∀ s i, ok s i → ok' s i) {s : σ} {is : List ι} (meets : Meets step ok s is) :
    Meets step ok' s is := by
  induction is generalizing s with
  | nil => trivial
  | cons i is ih => exact ⟨sub s i meets.1, fun r first => ih (meets.2 r first)⟩

/-- The result of a call is one that the specification admits, and the states are related again. -/
def Follows (step : σ → ι → Option (σ × ο)) (spec : τ → ι → ο → τ → Prop) (R : σ → τ → Prop)
    (s : σ) (t : τ) (i : ι) : Prop :=
  ∃ s' o t', step s i = some (s', o) ∧ spec t i o t' ∧ R s' t'

variable {step : σ → ι → Option (σ × ο)} {spec : τ → ι → ο → τ → Prop} {ok : σ → ι → Prop}
  {R : σ → τ → Prop}

/-- When every call that meets its condition is admitted, a run of such calls comes to its end, and
its answers are admitted. -/
theorem run_admitted (follows : ∀ s t i, R s t → ok s i → Follows step spec R s t i) {s : σ} {t : τ}
    (related : R s t) (is : List ι) (meets : Meets step ok s is) :
    ∃ s' os t', run step s is = some (s', os) ∧ Admits spec t is os t' ∧ R s' t' := by
  induction is generalizing s t with
  | nil => exact ⟨s, [], t, rfl, .done t, related⟩
  | cons i is ih =>
    obtain ⟨mid, o, t', first, admitted, related⟩ := follows s t i related meets.1
    obtain ⟨s', os, t'', rest, more, last⟩ := ih related (meets.2 (mid, o) first)
    refine ⟨s', o :: os, t'', ?_, .call admitted more, last⟩
    simp only [run, first, rest, bind, Option.bind]

end Simulation
