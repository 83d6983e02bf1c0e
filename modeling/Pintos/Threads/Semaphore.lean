import Pintos.Lib.OrderedList
import Pintos.Lib.Transition

/-! The counting semaphore of `synch.c`.  The sections that run with interrupts off are functions
on the semaphore; `SemaSystem` interleaves them for any number of threads. -/

namespace Pintos.Threads

open Transition OrderedList

abbrev Tid := Nat

/-- `struct semaphore`: `value` is an `unsigned`, so it wraps. -/
structure Semaphore where
  value : UInt32
  waiters : List Tid
  deriving DecidableEq

def semaInit (value : UInt32) : Semaphore := ⟨value, []⟩

/-- One test of the loop of `sema_down` by thread `t`: with no permit left, `t` joins the waiters
and blocks; otherwise it takes one.  The result tells whether `t` took a permit. -/
def semaTest (priority : Tid → Int) (t : Tid) (sema : Semaphore) : Semaphore × Bool :=
  if sema.value = 0 then
    ({ sema with waiters := insertOrdered priority t sema.waiters }, false)
  else ({ sema with value := sema.value - 1 }, true)

def semaTryDown (sema : Semaphore) : Semaphore × Bool :=
  if sema.value > 0 then ({ sema with value := sema.value - 1 }, true) else (sema, false)

/-- `sema_up` up to `if_yield`: the thread it unblocks, if any waits, is the first one after the
waiters are sorted by `big`. -/
def semaUp (priority : Tid → Int) (sema : Semaphore) : Semaphore × Option Tid :=
  match popSorted priority sema.waiters with
  | none => ({ sema with value := sema.value + 1 }, none)
  | some (t, rest) => ({ value := sema.value + 1, waiters := rest }, some t)

theorem semaUp_none (priority : Tid → Int) {sema : Semaphore} (h : sema.waiters = []) :
    semaUp priority sema = ({ sema with value := sema.value + 1 }, none) := by
  rw [semaUp, (popSorted_eq_none priority).mpr h]

theorem semaUp_some (priority : Tid → Int) {sema : Semaphore} (h : sema.waiters ≠ []) :
    ∃ t rest, (t :: rest).Perm sema.waiters ∧
      semaUp priority sema = (⟨sema.value + 1, rest⟩, some t) := by
  obtain ⟨⟨t, rest⟩, pop⟩ := Option.ne_none_iff_exists'.mp (mt (popSorted_eq_none priority).mp h)
  exact ⟨t, rest, popSorted_perm priority pop, by rw [semaUp, pop]⟩

/-- One semaphore shared by any number of threads.  `woken` are the threads that `sema_up` has
unblocked and that have not been scheduled since; `downs` and `ups` count the completed calls. -/
structure SemaSystem where
  sema : Semaphore
  priority : Tid → Int
  woken : List Tid
  downs : Nat
  ups : Nat

/-- What can happen next: a running thread calls `sema_down` or `sema_try_down`, a thread or an
interrupt handler calls `sema_up`, a woken thread is scheduled and tests the value again, or the
priority of a thread changes. -/
inductive SemaStep
  | down (t : Tid)
  | tryDown (t : Tid)
  | up
  | retest (t : Tid)
  | setPriority (t : Tid) (priority : Int)

namespace SemaSystem

def init (value : UInt32) (priority : Tid → Int) : SemaSystem :=
  ⟨semaInit value, priority, [], 0, 0⟩

/-- Thread `t` is neither blocked in the semaphore nor on its way out of it. -/
def Running (s : SemaSystem) (t : Tid) : Prop := t ∉ s.sema.waiters ∧ t ∉ s.woken

instance (s : SemaSystem) (t : Tid) : Decidable (s.Running t) :=
  inferInstanceAs (Decidable (_ ∧ _))

def test (s : SemaSystem) (t : Tid) : SemaSystem :=
  let result := semaTest s.priority t s.sema
  { s with sema := result.1, downs := s.downs + result.2.toNat }

def step (s : SemaSystem) : SemaStep → Option SemaSystem
  | .down t => if s.Running t then some (s.test t) else none
  | .tryDown t =>
    if s.Running t then
      let result := semaTryDown s.sema
      some { s with sema := result.1, downs := s.downs + result.2.toNat }
    else none
  | .up =>
    let result := semaUp s.priority s.sema
    some { s with sema := result.1, woken := result.2.toList ++ s.woken, ups := s.ups + 1 }
  | .retest t =>
    if t ∈ s.woken then some ({ s with woken := s.woken.erase t }.test t) else none
  | .setPriority t p => some { s with priority := Function.update s.priority t p }

/-- What every step keeps: the threads inside the semaphore are distinct, and while a thread waits
there are no more permits than threads on their way to take one. -/
structure Inv (s : SemaSystem) : Prop where
  distinct : (s.sema.waiters ++ s.woken).Nodup
  covered : s.sema.waiters ≠ [] → s.sema.value.toNat ≤ s.woken.length

def Conserved (initial : UInt32) (s : SemaSystem) : Prop :=
  s.sema.value.toNat + s.downs = initial.toNat + s.ups

theorem init_inv (initial : UInt32) (priority : Tid → Int) : (init initial priority).Inv :=
  ⟨by simp [init, semaInit], by simp [init, semaInit]⟩

theorem toNat_pred {value : UInt32} (h : value ≠ 0) : (value - 1).toNat + 1 = value.toNat := by
  have pos : 0 < value.toNat := Nat.pos_of_ne_zero fun z => h (UInt32.toNat_inj.mp z)
  have one_le : (1 : UInt32) ≤ value := UInt32.le_iff_toNat_le.mpr pos
  rw [UInt32.toNat_sub_of_le _ _ one_le, UInt32.toNat_one]
  omega

theorem toNat_succ_le (value : UInt32) : (value + 1).toNat ≤ value.toNat + 1 := by
  rw [UInt32.toNat_add, UInt32.toNat_one]
  exact Nat.mod_le _ _

theorem toNat_succ {value : UInt32} (h : value ≠ 4294967295) :
    (value + 1).toNat = value.toNat + 1 := by
  have bound := value.toNat_lt
  have ne : value.toNat ≠ 4294967295 := fun e => h (UInt32.toNat_inj.mp e)
  rw [UInt32.toNat_add, UInt32.toNat_one, Nat.mod_eq_of_lt (by omega)]

/-- A test of `sema_down` keeps the invariant, also when the tester was the last of the woken
threads that the permits were meant for. -/
theorem test_inv {s : SemaSystem} {t : Tid} (distinct : (t :: (s.sema.waiters ++ s.woken)).Nodup)
    (covered : s.sema.waiters ≠ [] → s.sema.value.toNat ≤ s.woken.length + 1) : (s.test t).Inv := by
  by_cases empty : s.sema.value = 0
  · have perm := insertOrdered_perm s.priority t s.sema.waiters
    refine ⟨?_, fun _ => by simp [test, semaTest, empty]⟩
    simp only [test, semaTest, empty, ite_true]
    exact ((perm.append_right s.woken).nodup_iff).mpr distinct
  · have pred := toNat_pred empty
    refine ⟨?_, fun waits => ?_⟩
    · simp only [test, semaTest, empty, ite_false]
      exact (List.nodup_cons.mp distinct).2
    · simp only [test, semaTest, empty, ite_false] at waits ⊢
      have := covered waits
      omega

theorem test_conserved {initial : UInt32} {s : SemaSystem} (t : Tid) (h : s.Conserved initial) :
    (s.test t).Conserved initial := by
  unfold Conserved at h ⊢
  by_cases empty : s.sema.value = 0
  · simpa [test, semaTest, empty] using h
  · have pred := toNat_pred empty
    simp only [test, semaTest, empty, ite_false, Bool.toNat_true]
    omega

theorem tryDown_inv {s : SemaSystem} (n : Nat) (h : s.Inv) :
    { s with sema := (semaTryDown s.sema).1, downs := n }.Inv := by
  unfold semaTryDown
  split
  next some_left =>
    have pred := toNat_pred ((UInt32.ne_of_lt some_left).symm)
    exact ⟨h.distinct, fun waits => by have := h.covered waits; simp only; omega⟩
  next => exact ⟨h.distinct, h.covered⟩

theorem up_inv {s : SemaSystem} (n : Nat) (h : s.Inv) :
    { s with
      sema := (semaUp s.priority s.sema).1
      woken := (semaUp s.priority s.sema).2.toList ++ s.woken
      ups := n }.Inv := by
  by_cases none_waits : s.sema.waiters = []
  · rw [semaUp_none _ none_waits]
    exact ⟨h.distinct, fun waits => absurd none_waits waits⟩
  · obtain ⟨t, rest, perm, eq⟩ := semaUp_some s.priority none_waits
    rw [eq]
    refine ⟨?_, fun _ => ?_⟩
    · -- the unblocked thread moves from the waiters to the woken threads
      have moved : (rest ++ ([t] ++ s.woken)).Perm (s.sema.waiters ++ s.woken) :=
        (List.perm_append_comm_assoc rest [t] s.woken).trans (perm.append_right s.woken)
      exact moved.nodup_iff.mpr h.distinct
    · have := h.covered none_waits
      have := toNat_succ_le s.sema.value
      simp only [Option.toList_some, List.cons_append, List.nil_append, List.length_cons]
      omega

theorem retest_erase_distinct {s : SemaSystem} {t : Tid} (h : s.Inv) (woken : t ∈ s.woken) :
    (t :: (s.sema.waiters ++ s.woken.erase t)).Nodup := by
  have perm : (t :: (s.sema.waiters ++ s.woken.erase t)).Perm (s.sema.waiters ++ s.woken) :=
    List.perm_middle.symm.trans ((List.perm_cons_erase woken).symm.append_left s.sema.waiters)
  exact perm.nodup_iff.mpr h.distinct

theorem step_inv {s s' : SemaSystem} {l : SemaStep} (h : s.Inv) (hstep : s.step l = some s') :
    s'.Inv := by
  cases l with
  | down t =>
    simp only [step] at hstep
    split at hstep
    next running =>
      cases hstep
      refine test_inv (List.nodup_cons.mpr ⟨?_, h.distinct⟩) fun waits => ?_
      · simpa [Running] using running
      · exact (h.covered waits).trans (Nat.le_succ _)
    next => cases hstep
  | tryDown t =>
    simp only [step] at hstep
    split at hstep
    next => cases hstep; exact tryDown_inv _ h
    next => cases hstep
  | up => cases hstep; exact up_inv _ h
  | retest t =>
    simp only [step] at hstep
    split at hstep
    next woken =>
      cases hstep
      refine test_inv (retest_erase_distinct h woken) fun waits => ?_
      have := h.covered waits
      have := List.length_erase_of_mem woken
      have := List.length_pos_of_mem woken
      simp only
      omega
    next => cases hstep
  | setPriority t p => cases hstep; exact ⟨h.distinct, h.covered⟩

/-- `sema_up` is not called at the largest value an `unsigned` holds. -/
def NoWrap (s : SemaSystem) (l : SemaStep) : Prop :=
  match l with
  | .up => s.sema.value ≠ 4294967295
  | _ => True

instance (s : SemaSystem) (l : SemaStep) : Decidable (s.NoWrap l) :=
  match l with
  | .up => inferInstanceAs (Decidable (s.sema.value ≠ 4294967295))
  | .down _ | .tryDown _ | .retest _ | .setPriority _ _ => isTrue trivial

theorem step_conserved {initial : UInt32} {s s' : SemaSystem} {l : SemaStep}
    (h : s.Conserved initial) (ok : s.NoWrap l) (hstep : s.step l = some s') :
    s'.Conserved initial := by
  cases l with
  | down t =>
    simp only [step] at hstep
    split at hstep
    next => cases hstep; exact test_conserved t h
    next => cases hstep
  | tryDown t =>
    simp only [step] at hstep
    split at hstep
    next =>
      cases hstep
      unfold Conserved semaTryDown at *
      split
      next some_left =>
        have pred := toNat_pred ((UInt32.ne_of_lt some_left).symm)
        simp only [Bool.toNat_true]
        omega
      next => simpa using h
    next => cases hstep
  | up =>
    cases hstep
    have succ := toNat_succ ok
    unfold Conserved at h ⊢
    by_cases none_waits : s.sema.waiters = []
    · rw [semaUp_none _ none_waits]
      simp only
      omega
    · obtain ⟨t, rest, -, eq⟩ := semaUp_some s.priority none_waits
      rw [eq]
      simp only
      omega
  | retest t =>
    simp only [step] at hstep
    split at hstep
    next => cases hstep; exact test_conserved (s := { s with woken := s.woken.erase t }) t h
    next => cases hstep
  | setPriority t p => cases hstep; exact h

/-- In every run that never calls `sema_up` at the largest `unsigned` value, the permits left and
taken are the initial ones and those given; and in every run, while a thread waits, the permits
left are no more than the distinct threads that were unblocked and have not tested the value
again. -/
theorem sema_conserves_permits (initial : UInt32) (priority : Tid → Int) :
    (∀ s, Reach (Fires step) NoWrap (· = init initial priority) s →
      s.sema.value.toNat + s.downs = initial.toNat + s.ups) ∧
    (∀ s, Reach (Fires step) (fun _ _ => True) (· = init initial priority) s →
      s.woken.Nodup ∧ (s.sema.waiters ≠ [] → s.sema.value.toNat ≤ s.woken.length)) := by
  constructor
  · intro s reach
    refine reach.invariant (P := Conserved initial) ?_ fun _ _ _ h ok hstep =>
      step_conserved h ok hstep
    rintro _ rfl
    simp [Conserved, init, semaInit]
  · intro s reach
    have inv : s.Inv := by
      refine reach.invariant (P := Inv) ?_ fun _ _ _ h _ hstep => step_inv h hstep
      rintro _ rfl
      exact init_inv initial priority
    exact ⟨(List.nodup_append.mp inv.distinct).2.1, inv.covered⟩

/-- Two threads share one permit: the second waits, is unblocked, and takes the permit when it
tests the value again. -/
theorem sema_conserves_permits_handover : ∃ s,
    Reach (Fires step) NoWrap (· = init 1 fun _ => 31) s ∧ s.downs = 2 ∧
      s.sema.value.toNat + s.downs = (1 : UInt32).toNat + s.ups := by
  obtain ⟨s, reach, taken⟩ : ∃ s, Reach (Fires step) NoWrap (· = init 1 fun _ => 31) s ∧
      s.downs = 2 := Reach.eval [.down 1, .down 2, .up, .retest 2] (by decide)
  exact ⟨s, reach, taken, (sema_conserves_permits 1 _).1 s reach⟩

/-- A semaphore initialized to the largest `unsigned` value loses all its permits at the next
`sema_up`. -/
theorem sema_up_wraps : ∃ s, Reach (Fires step) (fun _ _ => True)
    (· = init 4294967295 fun _ => 31) s ∧
    s.sema.value.toNat + s.downs ≠ (4294967295 : UInt32).toNat + s.ups :=
  Reach.eval [.up] (by decide)

end SemaSystem
end Pintos.Threads
