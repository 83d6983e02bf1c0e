import Pintos.Threads.Condition
import Pintos.Threads.TryAcquire

/-! Condition variables among the locks.  A waiter is recorded with the priority that its thread has
at the start of `cond_wait`, and `cond_signal` goes by that record. -/

namespace Pintos.Threads

open Transition OrderedList

/-- A thread in `cond_wait`: the lock, whether it has called `lock_release`, and whether its
semaphore has been raised. -/
structure CondWaiting where
  lock : LockId
  released : Bool
  signalled : Bool

/-- What a thread in `cond_wait` does next with the locks, and where it is then: it releases the
lock, and acquires it again after its semaphore has been raised. -/
def CondWaiting.allows (w : CondWaiting) : Locks.LockAct → Option (Option CondWaiting)
  | .advance _ => some (some w)
  | .release _ lock =>
    if lock = w.lock ∧ w.released = false then some (some { w with released := true }) else none
  | .acquire _ lock =>
    if lock = w.lock ∧ w.released = true ∧ w.signalled = true then some none else none
  | .setPriority _ _ => none

structure CondLocks where
  locks : Locks
  cond : Nat → Condition
  waiting : Tid → Option CondWaiting

namespace CondLocks

def init (threads : List Tid) (priority : Tid → Int) (lockPriority : LockId → Int) : CondLocks where
  locks := .init threads priority lockPriority
  cond := fun _ => condInit
  waiting := fun _ => none

def setWaiting (s : CondLocks) (t : Tid) (waiting : Option CondWaiting) : CondLocks :=
  { s with waiting := Function.update s.waiting t waiting }

def setCond (s : CondLocks) (k : Nat) (cond : Condition) : CondLocks :=
  { s with cond := Function.update s.cond k cond }

/-- A step of a thread with the locks. -/
def lockStep (s : CondLocks) (act : Locks.LockAct) : Option CondLocks :=
  match s.waiting act.thread with
  | none => (s.locks.step act).map fun locks => { s with locks := locks }
  | some w =>
    match w.allows act with
    | none => none
    | some after =>
      (s.locks.step act).map fun locks => { s with locks := locks }.setWaiting act.thread after

/-- The assertion of `cond_wait` and `cond_signal` in a thread that is in no other call. -/
def Calls (s : CondLocks) (t : Tid) (lock : LockId) : Prop :=
  s.waiting t = none ∧ s.locks.pc t = .idle ∧ s.locks.holder lock = some t

instance (s : CondLocks) (t : Tid) (lock : LockId) : Decidable (s.Calls t lock) :=
  match h : s.waiting t with
  | none => decidable_of_iff (s.locks.pc t = .idle ∧ s.locks.holder lock = some t)
      ⟨fun held => ⟨h, held⟩, fun calls => calls.2⟩
  | some _ => isFalse fun calls => by cases h.symm.trans calls.1

/-- `cond_wait` up to `lock_release`. -/
def condWait (s : CondLocks) (t : Tid) (k : Nat) (lock : LockId) : Option CondLocks :=
  if s.Calls t lock then
    some ((s.setCond k (Threads.condWait (s.cond k) t (s.locks.priority t))).setWaiting t
      (some ⟨lock, false, false⟩))
  else none

/-- `sema_up` of the semaphore of a waiter. -/
def raise (s : CondLocks) (u : Tid) : CondLocks :=
  s.setWaiting u ((s.waiting u).map fun w => { w with signalled := true })

def condSignal (s : CondLocks) (t : Tid) (k : Nat) (lock : LockId) : Option CondLocks :=
  if s.Calls t lock then
    let result := Threads.condSignal (s.cond k)
    let s := s.setCond k result.1
    match result.2 with
    | none => some s
    | some u => some (s.raise u)
  else none

inductive CondAct
  | lock (act : Locks.LockAct)
  | wait (t : Tid) (k : Nat) (lock : LockId)
  | signal (t : Tid) (k : Nat) (lock : LockId)

def step (s : CondLocks) : CondAct → Option CondLocks
  | .lock act => s.lockStep act
  | .wait t k lock => s.condWait t k lock
  | .signal t k lock => s.condSignal t k lock

/-- The thread sleeps in `cond_wait`, or is on its way there. -/
def Asleep (s : CondLocks) (u : Tid) : Prop := ∃ w, s.waiting u = some w ∧ w.signalled = false

/-- The semaphore of `u` is raised, and nothing else happens to a thread in `cond_wait`. -/
def Wakes (s s' : CondLocks) (u : Tid) : Prop :=
  s.Asleep u ∧ (∃ w, s'.waiting u = some w ∧ w.signalled = true) ∧
    ∀ v ≠ u, s'.waiting v = s.waiting v

/-- `cond_signal` takes one waiter off the list and wakes it, and no other waiter has a greater
priority. -/
def SignalsHighest (s : CondLocks) : CondAct → Prop
  | .signal t k lock => (s.cond k).waiters ≠ [] → ∃ u s', s.condSignal t k lock = some s' ∧
      (u :: (s'.cond k).threads).Perm (s.cond k).threads ∧ s.Wakes s' u ∧
      ∀ v ∈ (s'.cond k).threads, s.locks.priority v ≤ s.locks.priority u
  | _ => True

/-- The waiter at the front of the list, which is in the order of the recorded priorities, has the
greatest priority. -/
def FrontHighest (s : CondLocks) : CondAct → Prop
  | .signal _ k _ => ∀ w rest, (s.cond k).waiters = w :: rest →
      ∀ v ∈ rest, s.locks.priority v.thread ≤ s.locks.priority w.thread
  | _ => True

/-- The waiters are in the order of their records and asleep, each in one place. -/
structure Inv (s : CondLocks) : Prop where
  ordered : ∀ k, Ordered Waiter.priority (s.cond k).waiters
  asleep : ∀ k, ∀ u ∈ (s.cond k).threads, s.Asleep u
  distinct : ∀ k, (s.cond k).threads.Nodup
  apart : ∀ k j u, u ∈ (s.cond k).threads → u ∈ (s.cond j).threads → k = j

section Run

variable {s s' : CondLocks} {t : Tid} {k : Nat} {lock : LockId}

theorem setWaiting_self (s : CondLocks) (t : Tid) (w : Option CondWaiting) :
    (s.setWaiting t w).waiting t = w :=
  Function.update_self ..

theorem setWaiting_of_ne (s : CondLocks) {t u : Tid} (w : Option CondWaiting) (ne : u ≠ t) :
    (s.setWaiting t w).waiting u = s.waiting u :=
  Function.update_of_ne ne ..

theorem setCond_self (s : CondLocks) (k : Nat) (cond : Condition) :
    (s.setCond k cond).cond k = cond :=
  Function.update_self ..

theorem setCond_of_ne (s : CondLocks) {k j : Nat} (cond : Condition) (ne : j ≠ k) :
    (s.setCond k cond).cond j = s.cond j :=
  Function.update_of_ne ne ..

/-- A thread that sleeps goes on sleeping in the steps of the locks. -/
theorem lockStep_asleep {act : Locks.LockAct} (run : s.lockStep act = some s') :
    s'.cond = s.cond ∧ ∀ u, s.Asleep u → s'.Asleep u := by
  unfold lockStep at run
  split at run
  next =>
    obtain ⟨locks, -, rfl⟩ := Option.map_eq_some_iff.mp run
    exact ⟨rfl, fun _ => id⟩
  next w at_w =>
    split at run
    next => cases run
    next after allowed =>
      obtain ⟨locks, -, rfl⟩ := Option.map_eq_some_iff.mp run
      refine ⟨rfl, fun u asleep => ?_⟩
      by_cases same : u = act.thread
      · obtain ⟨w', at_w', quiet⟩ := asleep
        rw [same] at at_w' ⊢
        obtain rfl := Option.some.inj (at_w.symm.trans at_w')
        cases act with
        | advance u =>
          cases allowed
          exact ⟨w, setWaiting_self .., quiet⟩
        | release u lock =>
          unfold CondWaiting.allows at allowed
          dsimp only at allowed
          split at allowed
          · cases allowed
            exact ⟨_, setWaiting_self .., quiet⟩
          · cases allowed
        | acquire u lock =>
          unfold CondWaiting.allows at allowed
          dsimp only at allowed
          split at allowed
          next up => cases quiet.symm.trans up.2.2
          next => cases allowed
        | setPriority u p => cases allowed
      · obtain ⟨w', at_w', quiet⟩ := asleep
        exact ⟨w', (setWaiting_of_ne _ _ same).trans at_w', quiet⟩

theorem Inv.lockStep (h : s.Inv) {act : Locks.LockAct} (run : s.lockStep act = some s') :
    s'.Inv := by
  obtain ⟨cond, asleep⟩ := lockStep_asleep run
  refine ⟨fun k => ?_, fun k u mem => ?_, fun k => ?_, fun k j u => ?_⟩
  · rw [cond]
    exact h.ordered k
  · rw [cond] at mem
    exact asleep u (h.asleep k u mem)
  · rw [cond]
    exact h.distinct k
  · rw [cond]
    exact h.apart k j u

theorem Inv.condWait (h : s.Inv) (run : s.condWait t k lock = some s') : s'.Inv := by
  unfold CondLocks.condWait at run
  split at run
  next calls =>
    cases run
    have out : ∀ j, t ∉ (s.cond j).threads := by
      intro j mem
      obtain ⟨w, at_w, -⟩ := h.asleep j t mem
      cases calls.1.symm.trans at_w
    generalize joined : Threads.condWait (s.cond k) t (s.locks.priority t) = cond
    have threads : cond.threads.Perm (t :: (s.cond k).threads) := by
      rw [← joined]
      exact condWait_threads ..
    have cases : ∀ j u, u ∈ ((s.setCond k cond).cond j).threads →
        u = t ∧ j = k ∨ u ≠ t ∧ u ∈ (s.cond j).threads := by
      intro j u mem
      by_cases same : j = k
      · rw [same, setCond_self] at mem
        rcases List.mem_cons.mp (threads.subset mem) with eq | old
        · exact .inl ⟨eq, same⟩
        · exact .inr ⟨ne_of_mem_of_not_mem old (out k), same ▸ old⟩
      · rw [setCond_of_ne _ _ same] at mem
        exact .inr ⟨ne_of_mem_of_not_mem mem (out j), mem⟩
    refine ⟨fun j => ?_, fun j u mem => ?_, fun j => ?_, fun j i u memj memi => ?_⟩
    · change Ordered Waiter.priority ((s.setCond k cond).cond j).waiters
      by_cases same : j = k
      · rw [same, setCond_self, ← joined]
        exact (h.ordered k).insertOrdered _
      · rw [setCond_of_ne _ _ same]
        exact h.ordered j
    · rcases cases j u mem with ⟨eq, -⟩ | ⟨ne, old⟩
      · rw [eq]
        exact ⟨_, setWaiting_self .., rfl⟩
      · obtain ⟨w, at_w, quiet⟩ := h.asleep j u old
        exact ⟨w, (setWaiting_of_ne _ _ ne).trans at_w, quiet⟩
    · change ((s.setCond k cond).cond j).threads.Nodup
      by_cases same : j = k
      · rw [same, setCond_self]
        exact threads.nodup_iff.mpr (List.nodup_cons.mpr ⟨out k, h.distinct k⟩)
      · rw [setCond_of_ne _ _ same]
        exact h.distinct j
    · rcases cases j u memj with ⟨eq, at_j⟩ | ⟨ne, old⟩
      · rcases cases i u memi with ⟨-, at_i⟩ | ⟨ne, -⟩
        · rw [at_j, at_i]
        · exact absurd eq ne
      · rcases cases i u memi with ⟨eq, -⟩ | ⟨-, old'⟩
        · exact absurd eq ne
        · exact h.apart j i u old old'
  next => cases run

/-- The waiter that `cond_signal` wakes is the first one of the list. -/
theorem Inv.condSignal_front (h : s.Inv) (calls : s.Calls t lock) {w : Waiter}
    {rest : List Waiter} (list : (s.cond k).waiters = w :: rest) :
    s.condSignal t k lock = some ((s.setCond k ⟨rest⟩).raise w.thread) := by
  have ordered := h.ordered k
  rw [list] at ordered
  unfold CondLocks.condSignal
  rw [if_pos calls, Threads.condSignal, list, ordered.popSorted_cons]

theorem condSignal_empty (calls : s.Calls t lock) (empty : (s.cond k).waiters = []) :
    s.condSignal t k lock = some s := by
  have none : popSorted Waiter.priority (s.cond k).waiters = none :=
    (popSorted_eq_none _).mpr empty
  unfold CondLocks.condSignal
  rw [if_pos calls, Threads.condSignal, none]
  simp only [setCond, Function.update_eq_self]

theorem condSignal_calls (run : s.condSignal t k lock = some s') : s.Calls t lock := by
  unfold CondLocks.condSignal at run
  split at run
  next calls => exact calls
  next => cases run

/-- A signal to waiters. -/
theorem Inv.raise (h : s.Inv) {w : Waiter} {rest : List Waiter}
    (list : (s.cond k).waiters = w :: rest) :
    ((s.setCond k ⟨rest⟩).raise w.thread).Inv ∧
      s.Wakes ((s.setCond k ⟨rest⟩).raise w.thread) w.thread := by
  have threads : (s.cond k).threads = w.thread :: rest.map Waiter.thread :=
    congrArg (List.map Waiter.thread) list
  have here : w.thread ∈ (s.cond k).threads := by
    rw [threads]
    exact List.mem_cons_self
  obtain ⟨out, nodup⟩ := List.nodup_cons.mp (threads ▸ h.distinct k)
  have fewer : ∀ j u, u ∈ ((s.setCond k ⟨rest⟩).cond j).threads →
      u ≠ w.thread ∧ u ∈ (s.cond j).threads := by
    intro j u mem
    by_cases same : j = k
    · rw [same, setCond_self] at mem
      rw [same, threads]
      exact ⟨ne_of_mem_of_not_mem mem out, List.mem_cons_of_mem _ mem⟩
    · rw [setCond_of_ne _ _ same] at mem
      refine ⟨?_, mem⟩
      rintro rfl
      exact same (h.apart j k _ mem here)
  obtain ⟨waiting, at_w, quiet⟩ := h.asleep k w.thread here
  refine ⟨⟨fun j => ?_, fun j u mem => ?_, fun j => ?_, fun j i u memj memi => ?_⟩,
    ⟨waiting, at_w, quiet⟩, ⟨{ waiting with signalled := true }, ?_, rfl⟩, fun v ne => ?_⟩
  · change Ordered Waiter.priority ((s.setCond k ⟨rest⟩).cond j).waiters
    by_cases same : j = k
    · rw [same, setCond_self]
      exact (List.pairwise_cons.mp (list ▸ h.ordered k)).2
    · rw [setCond_of_ne _ _ same]
      exact h.ordered j
  · obtain ⟨ne, old⟩ := fewer j u mem
    obtain ⟨w', at_w', quiet⟩ := h.asleep j u old
    exact ⟨w', (setWaiting_of_ne _ _ ne).trans at_w', quiet⟩
  · change ((s.setCond k ⟨rest⟩).cond j).threads.Nodup
    by_cases same : j = k
    · rw [same, setCond_self]
      exact nodup
    · rw [setCond_of_ne _ _ same]
      exact h.distinct j
  · exact h.apart j i u (fewer j u memj).2 (fewer i u memi).2
  · refine (setWaiting_self ..).trans ?_
    change (s.waiting w.thread).map _ = _
    rw [at_w]
    rfl
  · exact setWaiting_of_ne _ _ ne

theorem Inv.step {act : CondAct} (h : s.Inv) (run : s.step act = some s') : s'.Inv := by
  cases act with
  | lock act => exact h.lockStep run
  | wait t k lock => exact h.condWait run
  | signal t k lock =>
    have calls := condSignal_calls run
    cases list : (s.cond k).waiters with
    | nil =>
      obtain rfl := Option.some.inj ((condSignal_empty calls list).symm.trans run)
      exact h
    | cons w rest =>
      obtain rfl := Option.some.inj ((h.condSignal_front calls list).symm.trans run)
      exact (h.raise list).1

theorem Inv.signalsHighest_iff {act : CondAct} (h : s.Inv) (run : s.step act = some s') :
    s.SignalsHighest act ↔ s.FrontHighest act := by
  cases act with
  | lock act => exact Iff.rfl
  | wait t k lock => exact Iff.rfl
  | signal t k lock =>
    have calls := condSignal_calls run
    constructor
    · intro highest w rest list v mem
      obtain ⟨u, after, signal, perm, wakes, high⟩ := highest (by rw [list]; nofun)
      obtain rfl := Option.some.inj ((h.condSignal_front calls list).symm.trans signal)
      have woken : u = w.thread := by
        by_contra ne
        obtain ⟨asleep, ⟨raised, at_u, up⟩, -⟩ := wakes
        obtain ⟨before, at_u', quiet⟩ := asleep
        have same := (h.raise list).2.2.2 u ne
        obtain rfl := Option.some.inj (at_u'.symm.trans (same.symm.trans at_u))
        cases quiet.symm.trans up
      rw [← woken]
      refine high v.thread ?_
      change v.thread ∈ ((s.setCond k ⟨rest⟩).cond k).threads
      rw [setCond_self]
      exact List.mem_map_of_mem mem
    · intro front nonempty
      obtain ⟨w, rest, list⟩ := List.exists_cons_of_ne_nil nonempty
      have left : ((s.setCond k ⟨rest⟩).raise w.thread).cond k = ⟨rest⟩ := setCond_self ..
      refine ⟨w.thread, _, h.condSignal_front calls list, ?_, (h.raise list).2, fun v mem => ?_⟩
      · rw [left, show (s.cond k).threads = w.thread :: Condition.threads ⟨rest⟩ from
          congrArg (List.map Waiter.thread) list]
      · rw [left] at mem
        obtain ⟨w', member, rfl⟩ := List.mem_map.mp mem
        exact front w rest list w' member

end Run

theorem init_inv (threads : List Tid) (priority : Tid → Int) (lockPriority : LockId → Int) :
    (init threads priority lockPriority).Inv :=
  ⟨fun _ => List.Pairwise.nil, fun _ _ mem => absurd mem List.not_mem_nil,
    fun _ => List.nodup_nil, fun _ _ _ mem => absurd mem List.not_mem_nil⟩

/-- Each `cond_signal` to waiters wakes exactly one, and one of the greatest priority, exactly when
each finds such a thread at the front of the list, which the priorities at the start of `cond_wait`
have put in order. -/
theorem signal_highest_iff (threads : List Tid) (priority : Tid → Int)
    (lockPriority : LockId → Int) (acts : List CondAct) :
    Each step SignalsHighest (init threads priority lockPriority) acts ↔
      Each step FrontHighest (init threads priority lockPriority) acts :=
  each_iff_each (fun _ _ _ inv => inv.step) (fun _ _ _ inv => inv.signalsHighest_iff) acts
    (init_inv threads priority lockPriority)

/-- `lock_acquire` of a free lock, and `lock_release`, by one thread. -/
def acquires (t : Tid) (lock : LockId) : List CondAct :=
  .lock (.acquire t lock) :: List.replicate 5 (.lock (.advance t))

def releases (t : Tid) (lock : LockId) : List CondAct :=
  .lock (.release t lock) :: List.replicate 4 (.lock (.advance t))

/-- Thread 1 waits with priority 31 and is raised to 40 by a thread that wants another lock of it,
and the signal goes to thread 2 of priority 35. -/
theorem signal_passes_raised_waiter : ∃ threads priority acts,
    ¬Each step SignalsHighest (init threads priority fun _ => 0) acts := by
  let priority : Tid → Int := fun t => if t = 2 then 35 else if t = 3 then 40 else 31
  let acts := acquires 1 8 ++ acquires 1 7 ++ [.wait 1 0 7] ++ releases 1 7 ++ acquires 2 7 ++
    [.wait 2 0 7] ++ releases 2 7 ++ [.lock (.acquire 3 8)] ++ acquires 4 7
  refine ⟨[1, 2, 3, 4], priority, acts ++ [.signal 4 0 7], fun each => ?_⟩
  have ran : (exec step (init [1, 2, 3, 4] priority fun _ => 0) acts).any (fun s =>
      decide ((s.cond 0).waiters = [⟨2, 35⟩, ⟨1, 31⟩] ∧ s.locks.priority 1 = 40 ∧
        s.locks.priority 2 = 35 ∧ s.Calls 4 7)) = true := by decide +kernel
  obtain ⟨s, run, ran⟩ := (Option.any_eq_true _ _).mp ran
  obtain ⟨waiters, high, low, calls⟩ := of_decide_eq_true ran
  have inv : s.Inv := (always_of_inv (fun _ _ _ inv => inv.step) (fun _ inv => inv) acts
    (init_inv [1, 2, 3, 4] priority fun _ => 0)).last run
  have final : s.step (.signal 4 0 7) = _ := inv.condSignal_front calls waiters
  have front := (inv.signalsHighest_iff final).mp (each.last run final)
  have le := front _ _ waiters ⟨1, 31⟩ (List.mem_singleton_self _)
  simp only [high, low] at le
  exact absurd le (by decide)

end CondLocks

end Pintos.Threads
