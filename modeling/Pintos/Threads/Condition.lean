import Pintos.Lib.OrderedList
import Pintos.Threads.Semaphore

/-! The condition variable of `synch.c`.  A waiter is a thread with the priority it had when it
started to wait; its private semaphore is up exactly when the waiter has been taken off the
list. -/

namespace Pintos.Threads

open OrderedList

/-- `struct semaphore_elem`, by the thread that waits on its semaphore. -/
structure Waiter where
  thread : Tid
  priority : Int
  deriving DecidableEq

/-- `struct condition`. -/
structure Condition where
  waiters : List Waiter
  deriving DecidableEq

def condInit : Condition := ⟨[]⟩

/-- The part of `cond_wait` before it releases the lock: the waiter goes before the first one of
lower recorded priority (`cond_big`). -/
def condWait (cond : Condition) (t : Tid) (priority : Int) : Condition :=
  ⟨insertOrdered Waiter.priority ⟨t, priority⟩ cond.waiters⟩

/-- `cond_signal`: the condition that is left and the thread whose semaphore goes up. -/
def condSignal (cond : Condition) : Condition × Option Tid :=
  match popSorted Waiter.priority cond.waiters with
  | none => (cond, none)
  | some (w, rest) => (⟨rest⟩, some w.thread)

def Condition.threads (cond : Condition) : List Tid := cond.waiters.map Waiter.thread

theorem condWait_threads (cond : Condition) (t : Tid) (priority : Int) :
    (condWait cond t priority).threads.Perm (t :: cond.threads) :=
  (insertOrdered_perm Waiter.priority ⟨t, priority⟩ cond.waiters).map Waiter.thread

/-- A signal takes one thread off a condition that has waiters and leaves an empty one alone. -/
theorem condSignal_cases (cond : Condition) :
    (cond.threads = [] ∧ condSignal cond = (cond, none)) ∨
    ∃ t rest, (t :: rest.threads).Perm cond.threads ∧ condSignal cond = (rest, some t) := by
  cases pop : popSorted Waiter.priority cond.waiters with
  | none =>
    left
    have empty := (popSorted_eq_none Waiter.priority).mp pop
    exact ⟨by simp [Condition.threads, empty], by rw [condSignal, pop]⟩
  | some result =>
    right
    obtain ⟨w, rest⟩ := result
    exact ⟨w.thread, ⟨rest⟩, (popSorted_perm Waiter.priority pop).map Waiter.thread,
      by rw [condSignal, pop]⟩

end Pintos.Threads
