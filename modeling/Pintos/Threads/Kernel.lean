import Pintos.Threads.Lock
import Pintos.Threads.Scheduler

/-! The scheduler with the locks: the running thread calls the functions of `thread.c` and
`synch.c`, and each section that runs with interrupts off is a step, made of the part up to its call
of `schedule` and of that call, if it makes one. -/

namespace Pintos.Threads

open Transition OrderedList

namespace Sched

/-- `thread_yield` up to its call of `schedule`. -/
def threadYieldHead (s : Sched) : Sched :=
  if s.idleThread = some s.current then s.setStatus s.current .ready else s.makeReady s.current

/-- The functions below say also whether they come to a call of `schedule`. -/
def threadSleepHead (s : Sched) (ticks : Int) : Sched × Bool :=
  if s.idleThread = some s.current then (s, false)
  else
    let s := s.setThread s.current fun thread =>
      { thread with status := .sleeping, wakeTime := s.ticks + ticks }
    ({ s with
      sleepingList := insertOrdered (fun t => -(s.thread t).wakeTime) s.current s.sleepingList
    }, true)

def ifYieldHead (s : Sched) : Sched × Bool :=
  match s.sortReady.readyList with
  | [] => (s.sortReady, false)
  | front :: _ =>
    if s.priority s.current < s.priority front then (s.sortReady.threadYieldHead, true)
    else (s.sortReady, false)

def intrReturnHead (result : Sched × Bool) : Sched × Bool :=
  if result.2 then (result.1.threadYieldHead, true) else (result.1, false)

def semaDownHead (s : Sched) (k : Nat) : Sched × Bool :=
  let result := semaTest s.priority s.current (s.semas k)
  let s := s.setSema k result.1
  if result.2 then ({ s with downOn := Function.update s.downOn s.current none }, false)
  else
    ({ s with downOn := Function.update s.downOn s.current (some k) }.setStatus s.current .blocked,
      true)

def semaUpHead (s : Sched) (k : Nat) : Except Fault (Sched × Bool) :=
  (s.wakeWaiter k).map ifYieldHead

/-- A step up to its call of `schedule`. -/
def head (s : Sched) : Act → Except Fault (Sched × Bool)
  | .threadCreate p => (s.spawn p).map ifYieldHead
  | .spawn p => (s.spawn p).map fun s => (s, false)
  | .threadYield => .ok (s.threadYieldHead, true)
  | .threadSleep ticks => .ok (s.threadSleepHead ticks)
  | .semaDown k => .ok (s.semaDownHead k)
  | .retest =>
    match s.downOn s.current with
    | some k => .ok (s.semaDownHead k)
    | none => .ok (s, false)
  | .semaUp k => s.semaUpHead k
  | .semaUpIntr k => (s.wakeWaiter k).map fun s => intrReturnHead s.ifYieldIntr
  | .threadExit =>
    .ok ({ s with allList := s.allList.erase s.current }.setStatus s.current .dying, true)
  | .ifYield => .ok s.ifYieldHead
  | .timerInterrupt => .ok (intrReturnHead s.threadTick)
  | .becomeIdle => .ok ({ s with idleThread := some s.current }, false)
  | .idleBlock => .ok (s.setStatus s.current .blocked, true)
  | .setPriority t p => .ok (s.setThread t fun thread => { thread with priority := p }, false)

/-- The call of `schedule`, if there is one. -/
def finish (result : Sched × Bool) : Except Fault Sched :=
  if result.2 then result.1.schedule else .ok result.1

theorem threadYield_head (s : Sched) : s.threadYield = finish (s.threadYieldHead, true) := by
  unfold threadYield threadYieldHead
  split <;> rfl

theorem ifYield_head (s : Sched) : s.ifYield = finish s.ifYieldHead := by
  unfold ifYield ifYieldHead
  cases s.sortReady.readyList with
  | nil => rfl
  | cons front rest =>
    dsimp only
    split
    · exact threadYield_head _
    · rfl

theorem intrReturn_head (result : Sched × Bool) :
    intrReturn result = finish (intrReturnHead result) := by
  unfold intrReturn intrReturnHead
  split
  · exact threadYield_head _
  · rfl

theorem semaDown_head (s : Sched) (k : Nat) : s.semaDown k = finish (s.semaDownHead k) := by
  unfold semaDown semaDownHead
  dsimp only
  split <;> rfl

theorem bind_eq_map {x : Except Fault Sched} {f : Sched → Except Fault Sched}
    {g : Sched → Sched × Bool} (same : ∀ s, f s = finish (g s)) :
    x.bind f = (x.map g).bind finish := by
  cases x with
  | error => rfl
  | ok s => exact same s

theorem step_eq_head (s : Sched) (act : Act) : s.step act = (s.head act).bind finish := by
  cases act with
  | threadCreate p | semaUp k => exact bind_eq_map ifYield_head
  | spawn p =>
    change s.spawn p = ((s.spawn p).map fun s => (s, false)).bind finish
    cases s.spawn p <;> rfl
  | threadYield => exact threadYield_head s
  | threadSleep ticks =>
    change s.threadSleep ticks = finish (s.threadSleepHead ticks)
    unfold threadSleep threadSleepHead
    split <;> rfl
  | semaDown k => exact semaDown_head s k
  | retest =>
    change (match s.downOn s.current with | some k => s.semaDown k | none => .ok s) =
      Except.bind (match s.downOn s.current with
        | some k => .ok (s.semaDownHead k)
        | none => .ok (s, false)) finish
    cases s.downOn s.current with
    | none => rfl
    | some k => exact semaDown_head s k
  | semaUpIntr k => exact bind_eq_map fun s => intrReturn_head s.ifYieldIntr
  | threadExit | becomeIdle | idleBlock | setPriority t p => rfl
  | ifYield => exact ifYield_head s
  | timerInterrupt => exact intrReturn_head s.threadTick

/-- The thread that the call of `schedule` takes from `ready_list` has at least the priority of
those that it leaves there. -/
def TakesHighest (s : Sched) : Prop :=
  ∀ t rest, s.wakeSleeper.readyList = t :: rest →
    ∀ u ∈ rest, s.wakeSleeper.priority u ≤ s.wakeSleeper.priority t

end Sched

/-- The scheduler, and the members of `struct thread` and `struct lock` that the locks use; the
semaphore of a lock is the one with its number. -/
structure Kernel where
  sched : Sched
  originalPriority : Tid → Int
  waitLockList : Tid → List LockId
  lockList : Tid → List LockId
  holder : LockId → Option Tid
  lockPriority : LockId → Int
  pc : Tid → LockPc

namespace Kernel

/-- After `thread_init` and `lock_init`, with semaphores of any values. -/
def init (values : Nat → UInt32) (lockPriority : LockId → Int) : Kernel where
  sched := .threadInit values
  originalPriority := fun _ => priDefault
  waitLockList := fun _ => []
  lockList := fun _ => []
  holder := fun _ => none
  lockPriority := lockPriority
  pc := fun _ => .idle

/-- What the functions of locks see. -/
def locks (k : Kernel) : Locks where
  threads := List.range k.sched.nextTid
  priority := k.sched.priority
  originalPriority := k.originalPriority
  waitLockList := k.waitLockList
  lockList := k.lockList
  holder := k.holder
  lockPriority := k.lockPriority
  semaphore := k.sched.semas
  pc := k.pc

/-- The kernel after statements of locks that leave the semaphores. -/
def withLocks (k : Kernel) (l : Locks) : Kernel where
  sched := { k.sched with
    thread := fun t => { k.sched.thread t with priority := l.priority t } }
  originalPriority := l.originalPriority
  waitLockList := l.waitLockList
  lockList := l.lockList
  holder := l.holder
  lockPriority := l.lockPriority
  pc := l.pc

/-- `init_thread`, in a step that creates a thread. -/
def initThread (k : Kernel) : Sched.Act → Kernel
  | .threadCreate p | .spawn p => { k with
    originalPriority := Function.update k.originalPriority k.sched.nextTid p
    waitLockList := Function.update k.waitLockList k.sched.nextTid []
    lockList := Function.update k.lockList k.sched.nextTid []
    pc := Function.update k.pc k.sched.nextTid .idle }
  | _ => k

def at_ (k : Kernel) (pc : LockPc) : Kernel :=
  { k with pc := Function.update k.pc k.sched.current pc }

/-- A step of the scheduler, a call of a function of locks, or the next statement of the running
thread in one. -/
inductive Act
  | sched (act : Sched.Act)
  | lockAcquire (lock : LockId)
  | lockRelease (lock : LockId)
  | threadSetPriority (new : Int)
  | advance

/-- A thread in a function of locks does its next statement, unless there is an interrupt, and
releases its locks before it exits; the priorities change by donation, release and
`thread_set_priority` only. -/
def Free (k : Kernel) : Sched.Act → Prop
  | .setPriority _ _ => False
  | .timerInterrupt | .semaUpIntr _ => True
  | .threadExit => k.pc k.sched.current = .idle ∧ k.lockList k.sched.current = []
  | _ => k.pc k.sched.current = .idle

def Enabled (k : Kernel) : Act → Prop
  | .sched act => k.sched.Enabled act ∧ k.Free act
  | .lockAcquire _ =>
    k.sched.downOn k.sched.current = none ∧ k.sched.idleThread ≠ some k.sched.current
  | .lockRelease _ | .threadSetPriority _ => k.sched.downOn k.sched.current = none
  | .advance => True

instance (k : Kernel) : (act : Sched.Act) → Decidable (k.Free act)
  | .setPriority _ _ => inferInstanceAs (Decidable False)
  | .timerInterrupt | .semaUpIntr _ => inferInstanceAs (Decidable True)
  | .threadExit => inferInstanceAs (Decidable (_ ∧ _))
  | .threadCreate _ | .spawn _ | .threadYield | .threadSleep _ | .semaDown _ | .retest | .semaUp _
  | .ifYield | .becomeIdle | .idleBlock => inferInstanceAs (Decidable (_ = _))

instance (k : Kernel) : (act : Act) → Decidable (k.Enabled act)
  | .sched _ | .lockAcquire _ => inferInstanceAs (Decidable (_ ∧ _))
  | .lockRelease _ | .threadSetPriority _ => inferInstanceAs (Decidable (_ = _))
  | .advance => inferInstanceAs (Decidable True)

/-- The next statement of the running thread in `lock_acquire` or `lock_release`, up to a call of
`schedule`. -/
def advanceHead (k : Kernel) : Option (Kernel × Bool) :=
  match k.pc k.sched.current with
  | .testing lock =>
    let result := k.sched.semaDownHead lock
    let k := if result.2 then k else k.at_ (.settingHolder lock)
    some ({ k with sched := result.1 }, result.2)
  | .raising lock =>
    (k.sched.semaUpHead lock).toOption.map fun result =>
      ({ k.at_ .idle with sched := result.1 }, result.2)
  | _ => (k.locks.advance k.sched.current).map fun l => (k.withLocks l, false)

/-- A step up to its call of `schedule`, with whether it makes one. -/
def head (k : Kernel) : Act → Option (Kernel × Bool)
  | .sched act =>
    (k.sched.head act).toOption.map fun result =>
      ({ k.initThread act with sched := result.1 }, result.2)
  | .lockAcquire lock =>
    (k.locks.lockAcquire k.sched.current lock).map fun l => (k.withLocks l, false)
  | .lockRelease lock =>
    (k.locks.lockRelease k.sched.current lock).map fun l => (k.withLocks l, false)
  | .threadSetPriority new =>
    (k.locks.threadSetPriority k.sched.current new).map fun l =>
      let result := (k.withLocks l).sched.ifYieldHead
      ({ k.withLocks l with sched := result.1 }, result.2)
  | .advance => k.advanceHead

def finish (result : Kernel × Bool) : Option Kernel :=
  (Sched.finish (result.1.sched, result.2)).toOption.map fun sched =>
    { result.1 with sched := sched }

/-- The steps that fail no assertion. -/
def step (k : Kernel) (act : Act) : Option Kernel :=
  if k.Enabled act then (k.head act).bind finish else none

end Kernel

end Pintos.Threads
