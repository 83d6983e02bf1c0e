import Mathlib.Data.List.Basic

/-! Runs of labelled transition systems.  `Reach` is guarded reachability, `exec` runs a partial
step function over a list of labels, and `Always` and `Each` speak about every state and every
step of such a run. -/

namespace Transition

variable {σ ℓ : Type}

/-- The states reached from a state of `init` by steps that all meet `ok`. -/
inductive Reach (step : σ → ℓ → σ → Prop) (ok : σ → ℓ → Prop) (init : σ → Prop) : σ → Prop
  | start {s : σ} : init s → Reach step ok init s
  | next {s s' : σ} {l : ℓ} : Reach step ok init s → ok s l → step s l s' → Reach step ok init s'

theorem Reach.invariant {step : σ → ℓ → σ → Prop} {ok : σ → ℓ → Prop} {init P : σ → Prop}
    (base : ∀ s, init s → P s) (keep : ∀ s l s', P s → ok s l → step s l s' → P s') {s : σ}
    (reach : Reach step ok init s) : P s := by
  induction reach with
  | start h => exact base _ h
  | next _ hok hstep ih => exact keep _ _ _ ih hok hstep

theorem Reach.of_start {step : σ → ℓ → σ → Prop} {ok : σ → ℓ → Prop} {init : σ → Prop} {s s' : σ}
    (reach : Reach step ok (· = s) s') (start : init s) : Reach step ok init s' := by
  induction reach with
  | start eq =>
    rw [eq]
    exact .start start
  | next _ hok hstep ih => exact ih.next hok hstep

/-- A partial step function as a step relation. -/
def Fires (step : σ → ℓ → Option σ) (s : σ) (l : ℓ) (s' : σ) : Prop := step s l = some s'

theorem Reach.take {step : σ → ℓ → Option σ} {ok : σ → ℓ → Prop} {init : σ → Prop} {s s' : σ}
    (reach : Reach (Fires step) ok init s) (l : ℓ) (hok : ok s l) (h : step s l = some s') :
    Reach (Fires step) ok init s' :=
  reach.next hok h

/-- Runs the labels in order; `none` if one of them cannot be taken. -/
def exec (step : σ → ℓ → Option σ) : σ → List ℓ → Option σ
  | s, [] => some s
  | s, l :: ls => (step s l).bind fun s' => exec step s' ls

theorem exec_cons {step : σ → ℓ → Option σ} {s s' : σ} {l : ℓ} {ls : List ℓ}
    (h : exec step s (l :: ls) = some s') :
    ∃ mid, step s l = some mid ∧ exec step mid ls = some s' :=
  Option.bind_eq_some_iff.mp h

theorem exec_append {step : σ → ℓ → Option σ} (s : σ) (ls more : List ℓ) :
    exec step s (ls ++ more) = (exec step s ls).bind fun mid => exec step mid more := by
  induction ls generalizing s with
  | nil => rfl
  | cons l ls ih =>
    simp only [List.cons_append, exec, Option.bind_assoc]
    exact Option.bind_congr fun mid _ => ih mid

/-- The steps that meet `ok`. -/
def guarded (step : σ → ℓ → Option σ) (ok : σ → ℓ → Prop) [∀ s l, Decidable (ok s l)] (s : σ)
    (l : ℓ) : Option σ :=
  if ok s l then step s l else none

/-- A run of guarded steps reaches its final state. -/
theorem Reach.exec {step : σ → ℓ → Option σ} {ok : σ → ℓ → Prop} [∀ s l, Decidable (ok s l)]
    {init : σ → Prop} {s s' : σ} {ls : List ℓ} (reach : Reach (Fires step) ok init s)
    (h : Transition.exec (guarded step ok) s ls = some s') : Reach (Fires step) ok init s' := by
  induction ls generalizing s with
  | nil =>
    cases h
    exact reach
  | cons l ls ih =>
    obtain ⟨mid, hstep, hrest⟩ := exec_cons h
    by_cases hok : ok s l
    · rw [guarded, if_pos hok] at hstep
      exact ih (reach.next hok hstep) hrest
    · rw [guarded, if_neg hok] at hstep
      cases hstep

/-- A state that a given run of guarded steps reaches, found by evaluation. -/
theorem Reach.eval {step : σ → ℓ → Option σ} {ok : σ → ℓ → Prop} [∀ s l, Decidable (ok s l)]
    {s : σ} (ls : List ℓ) {P : σ → Prop} [DecidablePred P]
    (h : (Transition.exec (guarded step ok) s ls).any (fun s' => decide (P s')) = true) :
    ∃ s', Reach (Fires step) ok (· = s) s' ∧ P s' := by
  obtain ⟨s', hrun, hP⟩ := (Option.any_eq_true _ _).mp h
  have start : Reach (Fires step) ok (· = s) s := .start rfl
  exact ⟨s', start.exec hrun, of_decide_eq_true hP⟩

/-- `P` holds in every state of the run of `ls` from `s`, as far as its steps can be taken. -/
def Always (step : σ → ℓ → Option σ) (P : σ → Prop) : σ → List ℓ → Prop
  | s, [] => P s
  | s, l :: ls => P s ∧ ∀ s', step s l = some s' → Always step P s' ls

/-- Every step that the run of `ls` from `s` takes meets `C`. -/
def Each (step : σ → ℓ → Option σ) (C : σ → ℓ → Prop) : σ → List ℓ → Prop
  | _, [] => True
  | s, l :: ls => ∀ s', step s l = some s' → C s l ∧ Each step C s' ls

/-- A run whose steps are found to meet `C` by evaluation. -/
theorem Each.eval {step : σ → ℓ → Option σ} {C : σ → ℓ → Prop} [∀ s l, Decidable (C s l)] {s : σ}
    {ls : List ℓ} (h : (exec (guarded step C) s ls).isSome = true) : Each step C s ls := by
  induction ls generalizing s with
  | nil => trivial
  | cons l ls ih =>
    intro s' hstep
    by_cases hc : C s l
    · rw [exec, guarded, if_pos hc, hstep] at h
      exact ⟨hc, ih h⟩
    · rw [exec, guarded, if_neg hc] at h
      cases h

theorem Each.last {step : σ → ℓ → Option σ} {C : σ → ℓ → Prop} {s mid s' : σ} {ls : List ℓ} {l : ℓ}
    (h : Each step C s (ls ++ [l])) (run : exec step s ls = some mid)
    (final : step mid l = some s') : C mid l := by
  induction ls generalizing s with
  | nil =>
    cases run
    exact (h s' final).1
  | cons first ls ih =>
    obtain ⟨next, hfirst, rest⟩ := exec_cons run
    exact ih (h next hfirst).2 rest

/-- Conditions that are the same for each step of a run. -/
theorem each_iff_each {step : σ → ℓ → Option σ} {Inv : σ → Prop} {C Q : σ → ℓ → Prop}
    (keep : ∀ s l s', Inv s → step s l = some s' → Inv s')
    (same : ∀ s l s', Inv s → step s l = some s' → (Q s l ↔ C s l)) {s : σ} (ls : List ℓ)
    (inv : Inv s) : Each step Q s ls ↔ Each step C s ls := by
  induction ls generalizing s with
  | nil => exact Iff.rfl
  | cons l ls ih =>
    refine forall_congr' fun s' => forall_congr' fun hs => ?_
    exact and_congr (same s l s' inv hs) (ih (keep s l s' inv hs))

/-- Conditions that are the same for each step of a run, of which the second, with `G`, is what a
step needs to keep the invariant. -/
theorem Each.iff_each {step : σ → ℓ → Option σ} {Inv : σ → Prop} {G C Q : σ → ℓ → Prop}
    (keep : ∀ s l s', Inv s → G s l → C s l → step s l = some s' → Inv s')
    (same : ∀ s l, Inv s → (Q s l ↔ C s l)) {s : σ} {ls : List ℓ} (guard : Each step G s ls)
    (inv : Inv s) : Each step Q s ls ↔ Each step C s ls := by
  induction ls generalizing s with
  | nil => exact Iff.rfl
  | cons l ls ih =>
    refine forall_congr' fun s' => forall_congr' fun hs => ?_
    rw [same s l inv]
    obtain ⟨hg, rest⟩ := guard s' hs
    exact and_congr_right fun hc => ih rest (keep s l s' inv hg hc hs)

/-- A property that an invariant gives for every step of a run. -/
theorem each_of_inv {step : σ → ℓ → Option σ} {Inv : σ → Prop} {Q : σ → ℓ → Prop}
    (keep : ∀ s l s', Inv s → step s l = some s' → Inv s')
    (meet : ∀ s l s', Inv s → step s l = some s' → Q s l) {s : σ} (ls : List ℓ)
    (inv : Inv s) : Each step Q s ls := by
  induction ls generalizing s with
  | nil => trivial
  | cons l ls ih => exact fun s' hs => ⟨meet s l s' inv hs, ih (keep s l s' inv hs)⟩

/-- A property that an invariant gives for every state of a run. -/
theorem always_of_inv {step : σ → ℓ → Option σ} {Inv P : σ → Prop}
    (keep : ∀ s l s', Inv s → step s l = some s' → Inv s') (safe : ∀ s, Inv s → P s) {s : σ}
    (ls : List ℓ) (inv : Inv s) : Always step P s ls := by
  induction ls generalizing s with
  | nil => exact safe s inv
  | cons l ls ih => exact ⟨safe s inv, fun s' hs => ih (keep s l s' inv hs)⟩

theorem Always.head {step : σ → ℓ → Option σ} {P : σ → Prop} {s : σ} {ls : List ℓ}
    (h : Always step P s ls) : P s := by
  cases ls with
  | nil => exact h
  | cons l ls => exact h.1

theorem Always.last {step : σ → ℓ → Option σ} {P : σ → Prop} {s s' : σ} {ls : List ℓ}
    (h : Always step P s ls) (run : exec step s ls = some s') : P s' := by
  induction ls generalizing s with
  | nil =>
    cases run
    exact h
  | cons l ls ih =>
    obtain ⟨mid, first, rest⟩ := exec_cons run
    exact ih (h.2 mid first) rest

/-- When `C` is what a step needs to keep the invariant and to meet `Q`, and the only way to meet
`Q` into a state of `P`, a run does both exactly when all its steps meet `C`. -/
theorem always_and_each_iff {step : σ → ℓ → Option σ} {P Inv : σ → Prop} {C Q : σ → ℓ → Prop}
    (safe : ∀ s, Inv s → P s) (keep : ∀ s l s', Inv s → C s l → step s l = some s' → Inv s')
    (meet : ∀ s l s', Inv s → C s l → step s l = some s' → Q s l)
    (need : ∀ s l s', Inv s → P s' → Q s l → step s l = some s' → C s l) {s : σ} (ls : List ℓ)
    (inv : Inv s) : Always step P s ls ∧ Each step Q s ls ↔ Each step C s ls := by
  induction ls generalizing s with
  | nil => exact ⟨fun _ => trivial, fun _ => ⟨safe s inv, trivial⟩⟩
  | cons l ls ih =>
    constructor
    · rintro ⟨always, each⟩ s' hs
      obtain ⟨hq, hrest⟩ := each s' hs
      have hc := need s l s' inv (always.2 s' hs).head hq hs
      exact ⟨hc, (ih (keep s l s' inv hc hs)).mp ⟨always.2 s' hs, hrest⟩⟩
    · intro h
      have rest : ∀ s', step s l = some s' → Always step P s' ls ∧ Each step Q s' ls := by
        intro s' hs
        obtain ⟨hc, hrest⟩ := h s' hs
        exact (ih (keep s l s' inv hc hs)).mpr hrest
      refine ⟨⟨safe s inv, fun s' hs => (rest s' hs).1⟩, fun s' hs => ?_⟩
      exact ⟨meet s l s' inv (h s' hs).1 hs, (rest s' hs).2⟩

theorem each_trivial {step : σ → ℓ → Option σ} (s : σ) (ls : List ℓ) :
    Each step (fun _ _ => True) s ls := by
  induction ls generalizing s with
  | nil => trivial
  | cons l ls ih => exact fun s' _ => ⟨trivial, ih s'⟩

/-- When `C` is what a step needs to keep the invariant, and the only way into a state of `P`, a
run stays in `P` exactly when all its steps meet `C`. -/
theorem always_iff_each {step : σ → ℓ → Option σ} {P Inv : σ → Prop} {C : σ → ℓ → Prop}
    (safe : ∀ s, Inv s → P s) (keep : ∀ s l s', Inv s → C s l → step s l = some s' → Inv s')
    (need : ∀ s l s', Inv s → P s' → step s l = some s' → C s l) {s : σ} (ls : List ℓ)
    (inv : Inv s) : Always step P s ls ↔ Each step C s ls := by
  rw [← always_and_each_iff (Q := fun _ _ => True) safe keep (fun _ _ _ _ _ _ => trivial)
    (fun s l s' hs hp _ => need s l s' hs hp) ls inv]
  exact (and_iff_left (each_trivial s ls)).symm

end Transition
