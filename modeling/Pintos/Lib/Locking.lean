import Mathlib.Data.Finset.Basic

/-! Programs that acquire and release locks, over the set of locks that their thread holds.  A
program has no result where it acquires a lock that it holds, or releases one that it does not.
`wp` is exact: each rule is an equivalence. -/

namespace Locking

variable {L α β : Type}

/-- A program of a thread, over the locks that the thread holds. -/
abbrev Prog (L α : Type) := StateT (Finset L) Option α

def acquire [DecidableEq L] (l : L) : Prog L Unit := fun held =>
  if l ∈ held then none else some ((), insert l held)

def release [DecidableEq L] (l : L) : Prog L Unit := fun held =>
  if l ∈ held then some ((), held.erase l) else none

def holds [DecidableEq L] (l : L) : Prog L Bool := fun held => some (decide (l ∈ held), held)

/-- A program for every element of a list, in order. -/
def each (p : α → Prog L Unit) : List α → Prog L Unit
  | [] => pure ()
  | x :: xs => do
    p x
    each p xs

/-- The program returns, and what it returns meets `Q` with the locks that are held then. -/
def wp (p : Prog L α) (Q : α → Finset L → Prop) (held : Finset L) : Prop :=
  (p held).elim False fun result => Q result.1 result.2

/-- The program misuses no lock, and returns with the locks that were held before. -/
def Balances (p : Prog L α) (held : Finset L) : Prop := wp p (fun _ after => after = held) held

/-- The program misuses a lock exactly when one of `takes` is held, and else returns `a` with the
locks that were held before. -/
def Clean (p : Prog L α) (takes : List L) (a : α) : Prop :=
  ∀ Q held, wp p Q held ↔ (∀ l ∈ takes, l ∉ held) ∧ Q a held

/-- What holds of the locks before the program holds when it returns. -/
def Keeps (p : Prog L α) (P : Finset L → Prop) : Prop :=
  ∀ held result, P held → p held = some result → P result.2

/-- The program does not return where the lock is held. -/
def Refuses (p : Prog L α) (l : L) : Prop := ∀ Q held, l ∈ held → ¬wp p Q held

section Rules

variable {Q R : α → Finset L → Prop} {held : Finset L} {l : L}

@[simp] theorem wp_pure (a : α) : wp (pure a : Prog L α) Q = Q a := rfl

@[simp] theorem wp_bind (p : Prog L β) (f : β → Prog L α) :
    wp (p >>= f) Q = wp p fun b => wp (f b) Q := by
  funext held
  have step : (p >>= f) held = (p held).bind fun result => f result.1 result.2 := rfl
  rw [wp, wp, step]
  cases p held with
  | none => rfl
  | some result => rfl

@[simp] theorem wp_acquire [DecidableEq L] {Q : Unit → Finset L → Prop} :
    wp (acquire l) Q held ↔ l ∉ held ∧ Q () (insert l held) := by
  unfold wp acquire
  split
  next here => exact ⟨False.elim, fun h => h.1 here⟩
  next free => exact (and_iff_right free).symm

@[simp] theorem wp_release [DecidableEq L] {Q : Unit → Finset L → Prop} :
    wp (release l) Q held ↔ l ∈ held ∧ Q () (held.erase l) := by
  unfold wp release
  split
  next here => exact (and_iff_right here).symm
  next free => exact ⟨False.elim, fun h => free h.1⟩

@[simp] theorem wp_holds [DecidableEq L] {Q : Bool → Finset L → Prop} :
    wp (holds l) Q held ↔ Q (decide (l ∈ held)) held := Iff.rfl

@[simp] theorem wp_ite {c : Prop} [Decidable c] {p q : Prog L α} :
    wp (if c then p else q) Q held ↔ if c then wp p Q held else wp q Q held := by
  split
  · exact Iff.rfl
  · exact Iff.rfl

theorem wp_mono {p : Prog L α} (h : ∀ a after, Q a after → R a after) (before : wp p Q held) :
    wp p R held := by
  unfold wp at before ⊢
  cases run : p held with
  | none => exact (run ▸ before).elim
  | some result =>
    rw [run] at before
    exact h _ _ before

theorem not_wp_false (p : Prog L α) : ¬wp p (fun _ _ => False) held := by
  unfold wp
  cases p held with
  | none => exact id
  | some result => exact id

/-- A program cannot leave what it keeps. -/
theorem Keeps.not_wp {p : Prog L α} {P : Finset L → Prop} (keeps : Keeps p P) (here : P held)
    (refuse : ∀ a after, P after → ¬Q a after) : ¬wp p Q held := by
  intro before
  unfold wp at before
  cases run : p held with
  | none => exact (run ▸ before).elim
  | some result =>
    rw [run] at before
    exact refuse _ _ (keeps held result here run) before

end Rules

section Keeping

variable {P : Finset L → Prop} {l : L}

theorem Keeps.of_wp {p : Prog L α} (h : ∀ held, P held → ¬wp p (fun _ after => ¬P after) held) :
    Keeps p P := by
  intro held result here run
  by_contra leaves
  apply h held here
  unfold wp
  rw [run]
  exact leaves

/-- What a program keeps may be assumed where it returns. -/
theorem Keeps.wp_and {p : Prog L α} {Q : α → Finset L → Prop} {held : Finset L} (keeps : Keeps p P)
    (here : P held) (before : wp p Q held) : wp p (fun a after => Q a after ∧ P after) held := by
  unfold wp at before ⊢
  cases run : p held with
  | none => exact (run ▸ before).elim
  | some result =>
    rw [run] at before
    exact ⟨before, keeps held result here run⟩

theorem Keeps.pure (a : α) : Keeps (pure a : Prog L α) P := by
  intro held result here run
  cases run
  exact here

theorem Keeps.bind {p : Prog L β} {f : β → Prog L α} (first : Keeps p P)
    (second : ∀ b, Keeps (f b) P) : Keeps (p >>= f) P := by
  intro held result here run
  obtain ⟨mid, hp, hf⟩ := Option.bind_eq_some_iff.mp run
  exact second _ _ _ (first held mid here hp) hf

theorem Keeps.ite {c : Prop} [Decidable c] {p q : Prog L α} (yes : Keeps p P) (no : Keeps q P) :
    Keeps (if c then p else q) P := by
  split
  · exact yes
  · exact no

theorem Keeps.holds [DecidableEq L] (l : L) : Keeps (holds l) P := by
  intro held result here run
  cases run
  exact here

theorem Keeps.each {p : α → Prog L Unit} (h : ∀ x, Keeps (p x) P) (xs : List α) :
    Keeps (each p xs) P := by
  induction xs with
  | nil => exact .pure ()
  | cons x xs ih => exact .bind (h x) fun _ => ih

theorem Clean.keeps {p : Prog L α} {takes : List L} {a : α} (clean : Clean p takes a) :
    Keeps p P := by
  apply Keeps.of_wp
  intro held here before
  exact ((clean _ held).mp before).2 here

theorem Keeps.acquire [DecidableEq L] (more : ∀ held, P held → P (insert l held)) :
    Keeps (acquire l) P := by
  apply Keeps.of_wp
  intro held here before
  exact (wp_acquire.mp before).2 (more held here)

theorem Keeps.release [DecidableEq L] (less : ∀ held, P held → P (held.erase l)) :
    Keeps (release l) P := by
  apply Keeps.of_wp
  intro held here before
  exact (wp_release.mp before).2 (less held here)

end Keeping

section Composition

variable {p : Prog L α} {takes more : List L} {a : α} {b : β}

theorem Clean.balances_iff (clean : Clean p takes a) (held : Finset L) :
    Balances p held ↔ ∀ l ∈ takes, l ∉ held :=
  (clean _ held).trans (and_iff_left rfl)

theorem Clean.pure (a : α) : Clean (Pure.pure a : Prog L α) [] a := by
  intro Q held
  simp

theorem Clean.bind {f : α → Prog L β} (first : Clean p takes a) (second : Clean (f a) more b) :
    Clean (p >>= f) (takes ++ more) b := by
  intro Q held
  rw [wp_bind, first, second, ← and_assoc]
  simp only [List.mem_append, or_imp, forall_and]

theorem Clean.seq {p : Prog L Unit} {q : Prog L α} (first : Clean p takes ())
    (second : Clean q more a) : Clean (do p; q) (takes ++ more) a :=
  .bind first second

theorem Clean.each {p : α → Prog L Unit} {takes : α → List L} (h : ∀ x, Clean (p x) (takes x) ())
    (xs : List α) : Clean (each p xs) (xs.flatMap takes) () := by
  induction xs with
  | nil => exact .pure ()
  | cons x xs ih =>
    rw [List.flatMap_cons]
    exact .bind (h x) ih

theorem Clean.congr (clean : Clean p takes a) (same : ∀ l, l ∈ takes ↔ l ∈ more) :
    Clean p more a := by
  intro Q held
  rw [clean]
  simp only [same]

end Composition

/-- From `held`, the program returns `a` and gives the locks back when `ok`; else it misuses a lock
or comes to a bad set of locks.  It does not come back from one. -/
structure Restores (bad : Finset L → Prop) (held : Finset L) (p : Prog L α) (ok : Prop) (a : α) :
    Prop where
  keeps : Keeps p bad
  wp_iff : ∀ Q, (∀ b after, bad after → ¬Q b after) → (wp p Q held ↔ ok ∧ Q a held)

section Restoring

variable {bad : Finset L → Prop} {held : Finset L} {ok more : Prop} {a : α} {b : β}

theorem Clean.restores {p : Prog L α} {takes : List L} (clean : Clean p takes a) :
    Restores bad held p (∀ l ∈ takes, l ∉ held) a :=
  ⟨clean.keeps, fun Q _ => clean Q held⟩

theorem Restores.balances_iff {p : Prog L α} (h : Restores bad held p ok a) (good : ¬bad held) :
    Balances p held ↔ ok := by
  have refuse (b : α) (after : Finset L) (here : bad after) : ¬after = held :=
    fun same => good (same ▸ here)
  exact (h.wp_iff _ refuse).trans (and_iff_left rfl)

theorem Restores.congr {p : Prog L α} (h : Restores bad held p ok a) (same : ok ↔ more) :
    Restores bad held p more a :=
  ⟨h.keeps, fun Q refuse => (h.wp_iff Q refuse).trans (and_congr_left fun _ => same)⟩

theorem Restores.bind {p : Prog L α} {f : α → Prog L β} (first : Restores bad held p ok a)
    (second : Restores bad held (f a) more b) (others : ∀ a, Keeps (f a) bad) :
    Restores bad held (p >>= f) (ok ∧ more) b := by
  refine ⟨first.keeps.bind others, fun Q refuse => ?_⟩
  have stuck : ∀ a after, bad after → ¬wp (f a) Q after :=
    fun a after here => (others a).not_wp here refuse
  rw [wp_bind, first.wp_iff _ stuck, second.wp_iff Q refuse, and_assoc]

theorem Restores.seq {p : Prog L Unit} {q : Prog L β} (first : Restores bad held p ok ())
    (second : Restores bad held q more b) : Restores bad held (do p; q) (ok ∧ more) b :=
  first.bind second fun _ => second.keeps

theorem Restores.each {p : α → Prog L Unit} {ok : α → Prop}
    (h : ∀ x, Restores bad held (p x) (ok x) ()) (xs : List α) :
    Restores bad held (each p xs) (∀ x ∈ xs, ok x) () := by
  induction xs with
  | nil => exact (Clean.pure ()).restores.congr (by simp)
  | cons x xs ih => exact ((h x).seq ih).congr List.forall_mem_cons.symm

end Restoring

section Refusal

variable {l : L} {takes : List L} {a : α}

theorem Refuses.acquire [DecidableEq L] (l : L) : Refuses (acquire l) l :=
  fun _ _ here before => (wp_acquire.mp before).1 here

theorem Refuses.bind {p : Prog L α} {f : α → Prog L β} (first : Refuses p l) :
    Refuses (p >>= f) l := by
  intro Q held here before
  rw [wp_bind] at before
  exact first _ held here before

theorem Refuses.after {p : Prog L α} {f : α → Prog L β} (clean : Clean p takes a)
    (second : Refuses (f a) l) : Refuses (p >>= f) l := by
  intro Q held here before
  rw [wp_bind] at before
  exact second Q held here ((clean _ held).mp before).2

end Refusal

section Critical

variable [DecidableEq L] {p : Prog L Unit} {takes : List L} {l : L}

theorem free_insert (other : l ∉ takes) (held : Finset L) :
    (∀ m ∈ takes, m ∉ insert l held) ↔ ∀ m ∈ takes, m ∉ held := by
  refine forall₂_congr fun m taken => ?_
  have ne : m ≠ l := fun same => other (same ▸ taken)
  simp [ne]

/-- A critical section of a lock that its body does not take. -/
theorem Clean.critical (body : Clean p takes ()) (other : l ∉ takes) :
    Clean (do acquire l; p; release l) (l :: takes) () := by
  intro Q held
  simp only [wp_bind, wp_acquire, body _ _, wp_release, Finset.mem_insert_self, true_and,
    List.forall_mem_cons]
  rw [and_assoc]
  refine and_congr_right fun free => ?_
  rw [Finset.erase_insert free]
  exact and_congr_left fun _ => free_insert other held

/-- A critical section before the rest of a program. -/
theorem Clean.section {q : Prog L α} {more : List L} {a : α} (body : Clean p takes ())
    (other : l ∉ takes) (rest : Clean q more a) :
    Clean (do acquire l; p; release l; q) (l :: takes ++ more) a := by
  intro Q held
  rw [← Clean.seq (Clean.critical body other) rest Q held]
  simp only [wp_bind]

/-- A lock that is taken and given back at once. -/
theorem Clean.touch (l : L) : Clean (do acquire l; release l) [l] () := by
  intro Q held
  simp only [wp_bind, wp_acquire, wp_release, Finset.mem_insert_self, true_and,
    List.forall_mem_singleton]
  refine and_congr_right fun free => ?_
  rw [Finset.erase_insert free]

/-- A lock that is taken for the body unless it is held, and then given back. -/
def guarded (l : L) (body : Prog L Unit) : Prog L Unit := do
  let held ← holds l
  if !held then acquire l
  body
  if !held then release l

theorem Clean.guarded (body : Clean p takes ()) (other : l ∉ takes) :
    Clean (guarded l p) takes () := by
  intro Q held
  have once := (Clean.critical body other) Q held
  simp only [Locking.guarded, wp_bind, wp_holds]
  by_cases here : l ∈ held
  · simp [here, body _ _]
  · simp only [here, decide_false, Bool.not_false, if_true]
    refine once.trans ?_
    simp [here]

end Critical

end Locking
