import Pintos.Threads.Semaphore

/-! The scheduler of `thread.c` with the semaphores of `synch.c`.  Every section that runs with
interrupts off is a function on the whole state, and a thread that `sema_down` has blocked tests
the semaphore again as the first thing it does when it is scheduled. -/

namespace Pintos.Threads

open Transition OrderedList

/-- `enum thread_status`. -/
inductive Status
  | running
  | ready
  | sleeping
  | blocked
  | dying
  deriving DecidableEq

structure Thread where
  status : Status
  priority : Int
  wakeTime : Int

/-- The assertions that a step of the scheduler can fail. -/
inductive Fault
  | notBlocked
  | stillRunning
  | notThread
  deriving DecidableEq

/-- The globals of `thread.c`, the semaphores, and the semaphore in whose `sema_down` each thread
has blocked, if any. -/
structure Sched where
  thread : Tid → Thread
  allList : List Tid
  readyList : List Tid
  sleepingList : List Tid
  semas : Nat → Semaphore
  current : Tid
  idleThread : Option Tid
  downOn : Tid → Option Nat
  ticks : Int
  threadTicks : Nat
  nextTid : Tid

def timeSlice : Nat := 4

def priDefault : Int := 31

namespace Sched

/-- `thread_init`, with semaphores of any values. -/
def threadInit (values : Nat → UInt32) : Sched where
  thread := fun _ => ⟨.running, priDefault, 0⟩
  allList := [1]
  readyList := []
  sleepingList := []
  semas := fun k => semaInit (values k)
  current := 1
  idleThread := none
  downOn := fun _ => none
  ticks := 0
  threadTicks := 0
  nextTid := 2

def priority (s : Sched) (t : Tid) : Int := (s.thread t).priority

def status (s : Sched) (t : Tid) : Status := (s.thread t).status

def setThread (s : Sched) (t : Tid) (f : Thread → Thread) : Sched :=
  { s with thread := Function.update s.thread t (f (s.thread t)) }

def setStatus (s : Sched) (t : Tid) (status : Status) : Sched :=
  s.setThread t fun thread => { thread with status := status }

/-- `list_insert_ordered (&ready_list, &t->elem, big, NULL)` and `t->status = THREAD_READY`. -/
def makeReady (s : Sched) (t : Tid) : Sched :=
  { s with readyList := insertOrdered s.priority t s.readyList }.setStatus t .ready

def threadUnblock (s : Sched) (t : Tid) : Except Fault Sched :=
  if s.status t = .blocked then .ok (s.makeReady t) else .error .notBlocked

/-- The first part of `schedule`: the first sleeper is made ready if its time has come. -/
def wakeSleeper (s : Sched) : Sched :=
  match s.sleepingList with
  | [] => s
  | t :: rest =>
    if s.ticks ≥ (s.thread t).wakeTime then { s with sleepingList := rest }.makeReady t else s

def nextThreadToRun (s : Sched) : Option Tid × Sched :=
  match s.readyList with
  | [] => (s.idleThread, s)
  | t :: rest => (some t, { s with readyList := rest })

def threadScheduleTail (s : Sched) (next : Tid) : Sched :=
  { s with current := next, threadTicks := 0 }.setStatus next .running

def schedule (s : Sched) : Except Fault Sched :=
  let result := s.wakeSleeper.nextThreadToRun
  if result.2.status s.current = .running then .error .stillRunning
  else
    match result.1 with
    | none => .error .notThread
    | some next => .ok (result.2.threadScheduleTail next)

def threadBlock (s : Sched) : Except Fault Sched := (s.setStatus s.current .blocked).schedule

def threadYield (s : Sched) : Except Fault Sched :=
  if s.idleThread = some s.current then (s.setStatus s.current .ready).schedule
  else (s.makeReady s.current).schedule

def threadSleep (s : Sched) (ticks : Int) : Except Fault Sched :=
  if s.idleThread = some s.current then .ok s
  else
    let s := s.setThread s.current fun thread =>
      { thread with status := .sleeping, wakeTime := s.ticks + ticks }
    { s with
      sleepingList := insertOrdered (fun t => -(s.thread t).wakeTime) s.current s.sleepingList
    }.schedule

/-- `thread_exit` after `process_exit` and the release of its locks. -/
def threadExit (s : Sched) : Except Fault Sched :=
  ({ s with allList := s.allList.erase s.current }.setStatus s.current .dying).schedule

def sortReady (s : Sched) : Sched := { s with readyList := sortOrdered s.priority s.readyList }

def ifYield (s : Sched) : Except Fault Sched :=
  match s.sortReady.readyList with
  | [] => .ok s.sortReady
  | front :: _ =>
    if s.priority s.current < s.priority front then s.sortReady.threadYield else .ok s.sortReady

/-- `if_yield` in an interrupt handler, with whether it asks for a yield on return. -/
def ifYieldIntr (s : Sched) : Sched × Bool :=
  match s.sortReady.readyList with
  | [] => (s.sortReady, false)
  | front :: _ =>
    if s.priority s.current < s.priority front then (s.sortReady, true)
    else ({ s.sortReady with threadTicks := s.threadTicks + 1 }, s.threadTicks + 1 ≥ timeSlice)

/-- The return from an interrupt, after `intr_yield_on_return` or not. -/
def intrReturn (result : Sched × Bool) : Except Fault Sched :=
  if result.2 then result.1.threadYield else .ok result.1

/-- The timer interrupt with its `thread_tick`. -/
def threadTick (s : Sched) : Sched × Bool :=
  ({ s with ticks := s.ticks + 1, threadTicks := s.threadTicks + 1 },
    s.threadTicks + 1 ≥ timeSlice)

/-- `thread_create` up to and with `thread_unblock`. -/
def spawn (s : Sched) (priority : Int) : Except Fault Sched :=
  ({ s with
    thread := Function.update s.thread s.nextTid ⟨.blocked, priority, 0⟩
    allList := s.allList ++ [s.nextTid]
    downOn := Function.update s.downOn s.nextTid none
    nextTid := s.nextTid + 1 } : Sched).threadUnblock s.nextTid

def threadCreate (s : Sched) (priority : Int) : Except Fault Sched :=
  (s.spawn priority).bind ifYield

def setSema (s : Sched) (k : Nat) (sema : Semaphore) : Sched :=
  { s with semas := Function.update s.semas k sema }

/-- One test of the loop of `sema_down`. -/
def semaDown (s : Sched) (k : Nat) : Except Fault Sched :=
  let result := semaTest s.priority s.current (s.semas k)
  let s := s.setSema k result.1
  if result.2 then .ok { s with downOn := Function.update s.downOn s.current none }
  else { s with downOn := Function.update s.downOn s.current (some k) }.threadBlock

/-- `sema_up` up to `if_yield`. -/
def wakeWaiter (s : Sched) (k : Nat) : Except Fault Sched :=
  let result := Threads.semaUp s.priority (s.semas k)
  let s := s.setSema k result.1
  match result.2 with
  | none => .ok s
  | some t => s.threadUnblock t

def semaUp (s : Sched) (k : Nat) : Except Fault Sched := (s.wakeWaiter k).bind ifYield

def semaUpIntr (s : Sched) (k : Nat) : Except Fault Sched :=
  (s.wakeWaiter k).bind fun s => intrReturn s.ifYieldIntr

/-- What can happen next.  `spawn` is a `thread_create` that is preempted before its `if_yield`,
`semaUpIntr` a `sema_up` in an interrupt handler, `retest` the running thread's next test in the
`sema_down` it had blocked in, `becomeIdle` and `idleBlock` the steps of `idle`, and `setPriority`
a donation or `thread_set_priority` before its `if_yield`. -/
inductive Act
  | threadCreate (priority : Int)
  | spawn (priority : Int)
  | threadYield
  | threadSleep (ticks : Int)
  | semaDown (k : Nat)
  | retest
  | semaUp (k : Nat)
  | semaUpIntr (k : Nat)
  | threadExit
  | ifYield
  | timerInterrupt
  | becomeIdle
  | idleBlock
  | setPriority (t : Tid) (priority : Int)

/-- A thread that has to test its semaphore again does so first, and the idle thread does what
`idle` and the interrupt handlers do. -/
def Enabled (s : Sched) : Act → Prop
  | .retest => s.downOn s.current ≠ none
  | .setPriority _ _ => True
  | .threadCreate _ | .spawn _ | .semaDown _ | .threadExit =>
    s.downOn s.current = none ∧ s.idleThread ≠ some s.current
  | .becomeIdle => s.downOn s.current = none ∧ s.idleThread = none
  | .idleBlock => s.downOn s.current = none ∧ s.idleThread = some s.current
  | .threadYield | .threadSleep _ | .semaUp _ | .semaUpIntr _ | .ifYield | .timerInterrupt =>
    s.downOn s.current = none

instance (s : Sched) : (act : Act) → Decidable (s.Enabled act)
  | .retest => inferInstanceAs (Decidable (_ ≠ _))
  | .setPriority _ _ => inferInstanceAs (Decidable True)
  | .threadCreate _ | .spawn _ | .semaDown _ | .threadExit | .becomeIdle | .idleBlock =>
    inferInstanceAs (Decidable (_ ∧ _))
  | .threadYield | .threadSleep _ | .semaUp _ | .semaUpIntr _ | .ifYield | .timerInterrupt =>
    inferInstanceAs (Decidable (_ = _))

def step (s : Sched) : Act → Except Fault Sched
  | .threadCreate p => s.threadCreate p
  | .spawn p => s.spawn p
  | .threadYield => s.threadYield
  | .threadSleep ticks => s.threadSleep ticks
  | .semaDown k => s.semaDown k
  | .retest =>
    match s.downOn s.current with
    | some k => s.semaDown k
    | none => .ok s
  | .semaUp k => s.semaUp k
  | .semaUpIntr k => s.semaUpIntr k
  | .threadExit => s.threadExit
  | .ifYield => s.ifYield
  | .timerInterrupt => intrReturn s.threadTick
  | .becomeIdle => .ok { s with idleThread := some s.current }
  | .idleBlock => s.threadBlock
  | .setPriority t p => .ok (s.setThread t fun thread => { thread with priority := p })

/-- The places where a thread that does not run can be. -/
inductive Queue
  | ready
  | sleeping
  | waiters (k : Nat)
  deriving DecidableEq

def Queue.status : Queue → Status
  | .ready => .ready
  | .sleeping => .sleeping
  | .waiters _ => .blocked

def queue (s : Sched) : Queue → List Tid
  | .ready => s.readyList
  | .sleeping => s.sleepingList
  | .waiters k => (s.semas k).waiters

/-- The thread occurs once in `q` and in no other queue, and its status agrees. -/
structure Queued (s : Sched) (t : Tid) (q : Queue) : Prop where
  status : s.status t = q.status
  count : ∀ r, (s.queue r).count t = if r = q then 1 else 0

/-- The live threads are distinct and older than the next one, and the idle thread is one of them
and in no `sema_down`. -/
structure Roster (s : Sched) : Prop where
  idle : ∀ t, s.idleThread = some t → t ∈ s.allList ∧ s.downOn t = none
  distinct : s.allList.Nodup
  fresh : ∀ t ∈ s.allList, t < s.nextTid

/-- All live threads are queued but the idle thread and those of `out`, and no others are. -/
structure Settled (s : Sched) (out : List Tid) : Prop where
  roster : s.Roster
  queued : ∀ t ∈ s.allList, t ∉ out → s.idleThread ≠ some t → ∃ q, s.Queued t q
  away : ∀ t, (t ∈ s.allList → t ∈ out ∨ s.idleThread = some t) → ∀ q, t ∉ s.queue q

structure Inv (s : Sched) : Prop where
  settled : s.Settled [s.current]
  live : s.current ∈ s.allList
  running : s.status s.current = .running

/-- `s'` has the threads of `s`, with the same status but for `changed`. -/
structure SameBut (changed : List Tid) (s s' : Sched) : Prop where
  all : s'.allList = s.allList
  idle : s'.idleThread = s.idleThread
  next : s'.nextTid = s.nextTid
  down : ∀ t, s.idleThread = some t → s'.downOn t = s.downOn t
  status : ∀ t ∉ changed, s'.status t = s.status t

theorem Roster.of_same {s s' : Sched} {changed : List Tid} (h : s.Roster)
    (same : SameBut changed s s') : s'.Roster := by
  obtain ⟨all, idle, next, down, _⟩ := same
  refine ⟨fun t at_idle => ?_, ?_, ?_⟩
  · rw [idle] at at_idle
    rw [all, down t at_idle]
    exact h.idle t at_idle
  · rw [all]
    exact h.distinct
  · rw [all, next]
    exact h.fresh

namespace Settled

variable {s s' : Sched} {out : List Tid} {c : Tid} {q : Queue}

/-- A thread in a queue is live, is not one of the exceptions, and is queued there. -/
theorem of_mem (h : s.Settled out) (mem : c ∈ s.queue q) :
    c ∈ s.allList ∧ c ∉ out ∧ s.idleThread ≠ some c ∧ s.Queued c q := by
  have exempt : ¬(c ∈ s.allList → c ∈ out ∨ s.idleThread = some c) := fun away =>
    h.away c away q mem
  simp only [Classical.not_imp, not_or] at exempt
  obtain ⟨live, inside, busy⟩ := exempt
  obtain ⟨r, queued⟩ := h.queued c live inside busy
  have pos : 0 < (s.queue q).count c := List.count_pos_iff.mpr mem
  rw [queued.count q] at pos
  split at pos
  next same => exact ⟨live, inside, busy, same ▸ queued⟩
  next => exact absurd pos (Nat.lt_irrefl 0)

/-- Queues may be reordered, and the threads that are out may change their status. -/
theorem frame (h : s.Settled out) (same : SameBut out s s')
    (perm : ∀ r, (s'.queue r).Perm (s.queue r)) : s'.Settled out := by
  refine ⟨h.roster.of_same same, fun t live inside busy => ?_, fun t away r mem => ?_⟩
  · rw [same.all] at live
    rw [same.idle] at busy
    obtain ⟨q, queued⟩ := h.queued t live inside busy
    refine ⟨q, (same.status t inside).trans queued.status, fun r => ?_⟩
    rw [(perm r).count_eq]
    exact queued.count r
  · rw [same.all, same.idle] at away
    exact h.away t away r ((perm r).subset mem)

/-- A thread is taken out of the queue it is in. -/
theorem leave (h : s.Settled out) (mem : c ∈ s.queue q) (same : SameBut [c] s s')
    (perm : (c :: s'.queue q).Perm (s.queue q)) (others : ∀ r ≠ q, (s'.queue r).Perm (s.queue r)) :
    s'.Settled (c :: out) := by
  obtain ⟨live, _, _, home⟩ := h.of_mem mem
  have count_ne : ∀ t ≠ c, ∀ r, (s'.queue r).count t = (s.queue r).count t := by
    intro t ne r
    by_cases at_q : r = q
    · subst at_q
      rw [← perm.count_eq, List.count_cons_of_ne ne.symm]
    · exact (others r at_q).count_eq t
  have gone : ∀ r, (s'.queue r).count c = 0 := by
    intro r
    by_cases at_q : r = q
    · subst at_q
      have once := home.count r
      rw [← perm.count_eq, List.count_cons_self, if_pos rfl] at once
      omega
    · rw [(others r at_q).count_eq, home.count r, if_neg at_q]
  refine ⟨h.roster.of_same same, fun t ht inside busy => ?_, fun t away r mem' => ?_⟩
  · obtain ⟨ne, inside⟩ := List.ne_and_not_mem_of_not_mem_cons inside
    rw [same.all] at ht
    rw [same.idle] at busy
    obtain ⟨r, queued⟩ := h.queued t ht inside busy
    refine ⟨r, (same.status t (by simpa using ne)).trans queued.status, fun r' => ?_⟩
    rw [count_ne t ne r']
    exact queued.count r'
  · by_cases at_c : t = c
    · subst at_c
      exact List.count_eq_zero.mp (gone r) mem'
    · rw [same.all, same.idle] at away
      have mem_old : t ∈ s.queue r := by
        rw [← List.count_pos_iff, ← count_ne t at_c r, List.count_pos_iff]
        exact mem'
      refine h.away t (fun ht => ?_) r mem_old
      simpa [at_c] using away ht

/-- A thread that is out joins a queue, with the status of the queue. -/
theorem enter (h : s.Settled (c :: out)) (live : c ∈ s.allList) (inside : c ∉ out)
    (busy : s.idleThread ≠ some c) (same : SameBut [c] s s') (status : s'.status c = q.status)
    (perm : (s'.queue q).Perm (c :: s.queue q)) (others : ∀ r ≠ q, (s'.queue r).Perm (s.queue r)) :
    s'.Settled out := by
  have gone : ∀ r, (s.queue r).count c = 0 := fun r =>
    List.count_eq_zero.mpr (h.away c (fun _ => .inl List.mem_cons_self) r)
  have count_ne : ∀ t ≠ c, ∀ r, (s'.queue r).count t = (s.queue r).count t := by
    intro t ne r
    by_cases at_q : r = q
    · subst at_q
      rw [perm.count_eq, List.count_cons_of_ne ne.symm]
    · exact (others r at_q).count_eq t
  have home : s'.Queued c q := by
    refine ⟨status, fun r => ?_⟩
    split
    next at_q =>
      subst at_q
      rw [perm.count_eq, List.count_cons_self, gone]
    next at_q => rw [(others r at_q).count_eq, gone]
  refine ⟨h.roster.of_same same, fun t ht out_t busy_t => ?_, fun t away r mem => ?_⟩
  · by_cases at_c : t = c
    · subst at_c
      exact ⟨q, home⟩
    · rw [same.all] at ht
      rw [same.idle] at busy_t
      obtain ⟨r, queued⟩ := h.queued t ht (by simp [at_c, out_t]) busy_t
      refine ⟨r, (same.status t (by simpa using at_c)).trans queued.status, fun r' => ?_⟩
      rw [count_ne t at_c r']
      exact queued.count r'
  · rw [same.all, same.idle] at away
    by_cases at_c : t = c
    · subst at_c
      rcases away live with out_t | idle
      · exact inside out_t
      · exact busy idle
    · have mem_old : t ∈ s.queue r := by
        rw [← List.count_pos_iff, ← count_ne t at_c r, List.count_pos_iff]
        exact mem
      exact h.away t (fun ht => (away ht).imp_left (List.mem_cons_of_mem c)) r mem_old

/-- The idle thread is in no queue whether it runs or not. -/
theorem idle_out (h : s.Settled []) (idle : s.idleThread = some c) : s.Settled [c] := by
  refine ⟨h.roster, fun t live _ => h.queued t live (List.not_mem_nil),
    fun t away => h.away t fun live => ?_⟩
  rcases away live with at_c | at_idle
  · obtain rfl := List.mem_singleton.mp at_c
    exact .inr idle
  · exact .inr at_idle

theorem idle_in (h : s.Settled [c]) (idle : s.idleThread = some c) : s.Settled [] := by
  refine ⟨h.roster, fun t live _ busy => h.queued t live (fun at_c => busy ?_) busy,
    fun t away => h.away t fun live => .inr ?_⟩
  · rw [List.mem_singleton.mp at_c]
    exact idle
  · simpa using away live

end Settled

theorem setThread_status (s : Sched) (c t : Tid) (f : Thread → Thread) :
    (s.setThread c f).status t = if t = c then (f (s.thread c)).status else s.status t := by
  simp only [Sched.status, setThread, Function.update_apply]
  split <;> rfl

@[simp] theorem setStatus_status (s : Sched) (c t : Tid) (st : Status) :
    (s.setStatus c st).status t = if t = c then st else s.status t :=
  setThread_status s c t _

theorem SameBut.of_update {s s' : Sched} {c : Tid} {new : Thread}
    (thread : s'.thread = Function.update s.thread c new) (all : s'.allList = s.allList)
    (idle : s'.idleThread = s.idleThread) (next : s'.nextTid = s.nextTid)
    (down : ∀ t, s.idleThread = some t → s'.downOn t = s.downOn t) : SameBut [c] s s' := by
  refine ⟨all, idle, next, down, fun t ht => ?_⟩
  rw [Sched.status, thread, Function.update_of_ne (List.mem_singleton.not.mp ht)]
  rfl

/-- A thread that is out is made ready. -/
theorem Settled.makeReady {s : Sched} {out : List Tid} {c : Tid} (h : s.Settled (c :: out))
    (live : c ∈ s.allList) (inside : c ∉ out) (busy : s.idleThread ≠ some c) :
    (s.makeReady c).Settled out := by
  refine h.enter (q := .ready) live inside busy (.of_update rfl rfl rfl rfl fun _ _ => rfl)
    (by simp [Sched.makeReady, Queue.status]) (insertOrdered_perm s.priority c s.readyList)
    fun r ne => ?_
  cases r with
  | ready => exact absurd rfl ne
  | sleeping | waiters k => exact .refl _

theorem Settled.wakeSleeper {s : Sched} (h : s.Settled []) : s.wakeSleeper.Settled [] := by
  unfold Sched.wakeSleeper
  split
  next => exact h
  next t rest asleep =>
    split
    next =>
      have mem : t ∈ s.queue .sleeping := by
        change t ∈ s.sleepingList
        rw [asleep]
        exact List.mem_cons_self
      obtain ⟨live, inside, busy, _⟩ := h.of_mem mem
      have woken : Settled { s with sleepingList := rest } [t] := by
        refine h.leave mem ⟨rfl, rfl, rfl, fun _ _ => rfl, fun _ _ => rfl⟩ (.of_eq asleep.symm)
          fun r ne => ?_
        cases r with
        | sleeping => exact absurd rfl ne
        | ready | waiters k => exact .refl _
      exact woken.makeReady live inside busy
    next => exact h

theorem wakeSleeper_frame (s : Sched) :
    s.wakeSleeper.current = s.current ∧
      (s.status s.current ≠ .running → s.wakeSleeper.status s.current ≠ .running) := by
  unfold Sched.wakeSleeper
  split
  next => exact ⟨rfl, id⟩
  next t rest asleep =>
    split
    next =>
      refine ⟨rfl, fun stopped => ?_⟩
      rw [Sched.makeReady, setStatus_status]
      split
      · exact (nomatch ·)
      · exact stopped
    next => exact ⟨rfl, id⟩

/-- A step that ends in a state of the invariant, or finds no thread to run. -/
def Good (result : Except Fault Sched) : Prop :=
  (∃ s, result = .ok s ∧ s.Inv) ∨ result = .error .notThread

theorem Good.ok {s : Sched} (h : s.Inv) : Good (.ok s) := .inl ⟨s, rfl, h⟩

theorem Good.bind {result : Except Fault Sched} {f : Sched → Except Fault Sched}
    (h : ∃ s, result = .ok s ∧ s.Inv) (next : ∀ s, s.Inv → Good (f s)) : Good (result.bind f) := by
  obtain ⟨s, rfl, inv⟩ := h
  exact next s inv

theorem Settled.tail {s : Sched} {next : Tid} (h : s.Settled [next]) (live : next ∈ s.allList) :
    (s.threadScheduleTail next).Inv := by
  refine ⟨h.frame (.of_update rfl rfl rfl rfl fun _ _ => rfl) fun r => ?_, live, ?_⟩
  · cases r <;> exact .refl _
  · exact (setStatus_status _ _ _ _).trans (if_pos rfl)

theorem schedule_good {s : Sched} (h : s.Settled []) (stopped : s.status s.current ≠ .running) :
    Good s.schedule := by
  have woken := h.wakeSleeper
  have still := (wakeSleeper_frame s).2 stopped
  unfold schedule nextThreadToRun
  split
  next none_ready =>
    rw [if_neg still]
    cases idle : s.wakeSleeper.idleThread with
    | none => exact .inr rfl
    | some next => exact .ok ((woken.idle_out idle).tail (woken.roster.idle next idle).1)
  next next rest ready =>
    have mem : next ∈ s.wakeSleeper.queue .ready := by
      change next ∈ s.wakeSleeper.readyList
      rw [ready]
      exact List.mem_cons_self
    have taken : Settled { s.wakeSleeper with readyList := rest } [next] := by
      refine woken.leave mem ⟨rfl, rfl, rfl, fun _ _ => rfl, fun _ _ => rfl⟩ (.of_eq ready.symm)
        fun r ne => ?_
      cases r with
      | ready => exact absurd rfl ne
      | sleeping | waiters k => exact .refl _
    dsimp only
    rw [if_neg]
    · exact .ok (taken.tail (woken.of_mem mem).1)
    · exact still

/-- The running thread stops and joins a queue. -/
theorem Inv.stop {s s' : Sched} {q : Queue} (h : s.Inv) (busy : s.idleThread ≠ some s.current)
    (same : SameBut [s.current] s s') (cur : s'.current = s.current)
    (status : s'.status s.current = q.status)
    (perm : (s'.queue q).Perm (s.current :: s.queue q))
    (others : ∀ r ≠ q, (s'.queue r).Perm (s.queue r)) : Good s'.schedule := by
  apply schedule_good (h.settled.enter h.live List.not_mem_nil busy same status perm others)
  rw [cur, status]
  cases q <;> exact (nomatch ·)

/-- The idle thread stops, in no queue. -/
theorem Inv.stop_idle {s : Sched} (h : s.Inv) (idle : s.idleThread = some s.current) {st : Status}
    (stopped : st ≠ .running) : Good (s.setStatus s.current st).schedule := by
  have settled : (s.setStatus s.current st).Settled [s.current] := by
    refine h.settled.frame (.of_update rfl rfl rfl rfl fun _ _ => rfl) fun r => ?_
    cases r <;> exact .refl _
  apply schedule_good (settled.idle_in idle)
  change (s.setStatus s.current st).status s.current ≠ .running
  rw [setStatus_status, if_pos rfl]
  exact stopped

theorem threadYield_good {s : Sched} (h : s.Inv) : Good s.threadYield := by
  unfold threadYield
  split
  next idle => exact h.stop_idle idle (nomatch ·)
  next busy =>
    apply schedule_good (h.settled.makeReady h.live List.not_mem_nil busy)
    change (s.makeReady s.current).status s.current ≠ .running
    rw [makeReady, setStatus_status, if_pos rfl]
    exact (nomatch ·)

theorem threadSleep_good {s : Sched} (h : s.Inv) (ticks : Int) : Good (s.threadSleep ticks) := by
  unfold threadSleep
  split
  next => exact .ok h
  next busy =>
    refine h.stop (q := .sleeping) busy (.of_update rfl rfl rfl rfl fun _ _ => rfl)
      rfl ?_ (insertOrdered_perm _ _ _) fun r ne => ?_
    · simp only [Sched.status, setThread, Function.update_self, Queue.status]
    · cases r with
      | sleeping => exact absurd rfl ne
      | ready | waiters k => exact .refl _

theorem threadExit_good {s : Sched} (h : s.Inv) (busy : s.idleThread ≠ some s.current) :
    Good s.threadExit := by
  have mem_erase : ∀ t, t ∈ s.allList.erase s.current ↔ t ≠ s.current ∧ t ∈ s.allList := fun t =>
    h.settled.roster.distinct.mem_erase_iff
  have settled :
      Settled ({ s with allList := s.allList.erase s.current }.setStatus s.current .dying)
      [] := by
    refine ⟨⟨fun t idle => ?_, h.settled.roster.distinct.erase _, fun t live => ?_⟩,
      fun t live _ idle => ?_, fun t away r => ?_⟩
    · obtain ⟨live, down⟩ := h.settled.roster.idle t idle
      refine ⟨(mem_erase t).mpr ⟨?_, live⟩, down⟩
      rintro rfl
      exact busy idle
    · exact h.settled.roster.fresh t ((mem_erase t).mp live).2
    · obtain ⟨ne, live⟩ := (mem_erase t).mp live
      obtain ⟨q, queued⟩ := h.settled.queued t live (by simpa using ne) idle
      refine ⟨q, ?_, fun r => ?_⟩
      · rw [setStatus_status, if_neg ne]
        exact queued.status
      · rw [← queued.count r]
        cases r <;> rfl
    · have gone := h.settled.away t (fun live => ?_) r
      · cases r <;> exact gone
      · by_cases ne : t = s.current
        · exact .inl (List.mem_singleton.mpr ne)
        · exact .inr ((away ((mem_erase t).mpr ⟨ne, live⟩)).resolve_left List.not_mem_nil)
  apply schedule_good settled
  change (setStatus _ s.current .dying).status s.current ≠ .running
  rw [setStatus_status, if_pos rfl]
  exact (nomatch ·)

theorem sortReady_inv {s : Sched} (h : s.Inv) : s.sortReady.Inv := by
  refine ⟨h.settled.frame ⟨rfl, rfl, rfl, fun _ _ => rfl, fun _ _ => rfl⟩ fun r => ?_, h.live,
    h.running⟩
  cases r with
  | ready => exact sortOrdered_perm _ _
  | sleeping | waiters k => exact .refl _

theorem ifYield_good {s : Sched} (h : s.Inv) : Good s.ifYield := by
  unfold ifYield
  split
  next => exact .ok (sortReady_inv h)
  next =>
    split
    · exact threadYield_good (sortReady_inv h)
    · exact .ok (sortReady_inv h)

/-- Tick counts play no part. -/
theorem Inv.of_ticks {s : Sched} (h : s.Inv) (ticks : Int) (threadTicks : Nat) :
    Inv { s with ticks := ticks, threadTicks := threadTicks } := by
  refine ⟨h.settled.frame ⟨rfl, rfl, rfl, fun _ _ => rfl, fun _ _ => rfl⟩ fun r => ?_, h.live,
    h.running⟩
  cases r <;> exact .refl _

theorem intrReturn_good {result : Sched × Bool} (h : result.1.Inv) : Good (intrReturn result) := by
  unfold intrReturn
  split
  · exact threadYield_good h
  · exact .ok h

theorem ifYieldIntr_inv {s : Sched} (h : s.Inv) : s.ifYieldIntr.1.Inv := by
  unfold ifYieldIntr
  split
  next => exact sortReady_inv h
  next =>
    split
    · exact sortReady_inv h
    · exact (sortReady_inv h).of_ticks s.ticks _

theorem setSema_queue_self (s : Sched) (k : Nat) (sema : Semaphore) :
    (s.setSema k sema).queue (.waiters k) = sema.waiters := by
  simp only [queue, setSema, Function.update_self]

theorem setSema_queue_ne (s : Sched) {k : Nat} (sema : Semaphore) {r : Queue}
    (ne : r ≠ .waiters k) :
    (s.setSema k sema).queue r = s.queue r := by
  cases r with
  | ready | sleeping => rfl
  | waiters j =>
    have other : j ≠ k := fun same => ne (congrArg Queue.waiters same)
    simp only [queue, setSema, Function.update_of_ne other]

/-- A change of the value alone moves no thread. -/
theorem Inv.setValue {s : Sched} (h : s.Inv) (k : Nat) (value : UInt32) :
    (s.setSema k { s.semas k with value := value }).Inv := by
  refine ⟨h.settled.frame ⟨rfl, rfl, rfl, fun _ _ => rfl, fun _ _ => rfl⟩ fun r => .of_eq ?_,
    h.live,
    h.running⟩
  by_cases same : r = .waiters k
  · rw [same, setSema_queue_self]
    rfl
  · exact setSema_queue_ne s _ same

theorem Inv.of_downOn {s : Sched} (h : s.Inv) {downOn : Tid → Option Nat}
    (down : ∀ t, s.idleThread = some t → downOn t = s.downOn t) :
    Inv { s with downOn := downOn } := by
  refine ⟨h.settled.frame ⟨rfl, rfl, rfl, down, fun _ _ => rfl⟩ fun r => .of_eq ?_, h.live,
    h.running⟩
  cases r <;> rfl

/-- A thread that is out beside the running one is made ready. -/
theorem Settled.ready_beside {s : Sched} {t : Tid} (h : s.Settled [t, s.current])
    (live : t ∈ s.allList) (other : t ≠ s.current) (busy : s.idleThread ≠ some t)
    (cur_live : s.current ∈ s.allList) (running : s.status s.current = .running) :
    (s.makeReady t).Inv := by
  refine ⟨h.makeReady live (List.mem_singleton.not.mpr other) busy, cur_live, ?_⟩
  change (setStatus _ t .ready).status s.current = .running
  rw [setStatus_status, if_neg other.symm]
  exact running

/-- The new thread is out until `thread_unblock` finds it blocked and makes it ready. -/
theorem spawn_inv {s : Sched} (h : s.Inv) (priority : Int) :
    ∃ s', s.spawn priority = .ok s' ∧ s'.Inv := by
  have new : ∀ t ∈ s.allList, t ≠ s.nextTid := fun t live =>
    Nat.ne_of_lt (h.settled.roster.fresh t live)
  let born : Sched := { s with
    thread := Function.update s.thread s.nextTid ⟨.blocked, priority, 0⟩
    allList := s.allList ++ [s.nextTid]
    downOn := Function.update s.downOn s.nextTid none
    nextTid := s.nextTid + 1 }
  have status_old : ∀ t ≠ s.nextTid, born.status t = s.status t := by
    intro t ne
    simp only [born, Sched.status, Function.update_of_ne ne]
  have same_queue : ∀ r, born.queue r = s.queue r := by
    intro r
    cases r <;> rfl
  have settled : born.Settled [s.nextTid, s.current] := by
    refine ⟨⟨fun t idle => ?_, ?_, fun t live => ?_⟩, fun t live out busy => ?_, fun t away r => ?_⟩
    · obtain ⟨live, down⟩ := h.settled.roster.idle t idle
      refine ⟨List.mem_append_left _ live, ?_⟩
      simp only [born, Function.update_of_ne (new t live), down]
    · refine List.nodup_append.mpr ⟨h.settled.roster.distinct, by simp, ?_⟩
      rintro a live b hb rfl
      exact new a live (List.mem_singleton.mp hb)
    · rcases List.mem_append.mp live with old | last
      · exact Nat.lt_succ_of_lt (h.settled.roster.fresh t old)
      · rw [List.mem_singleton.mp last]
        exact Nat.lt_succ_self _
    · simp only [List.mem_cons, List.not_mem_nil, or_false, not_or] at out
      have old := (List.mem_append.mp live).resolve_right (List.mem_singleton.not.mpr out.1)
      obtain ⟨q, queued⟩ := h.settled.queued t old (by simpa using out.2) busy
      refine ⟨q, (status_old t out.1).trans queued.status, fun r => ?_⟩
      rw [same_queue]
      exact queued.count r
    · rw [same_queue]
      refine h.settled.away t (fun live => ?_) r
      simpa [new t live] using away (List.mem_append_left _ live)
  have blocked : born.status s.nextTid = .blocked := by
    simp only [born, Sched.status, Function.update_self]
  have other := new s.current h.live
  refine ⟨born.makeReady s.nextTid, if_pos blocked, settled.ready_beside
    (List.mem_append_right _ (List.mem_singleton_self _)) other.symm (fun idle => ?_)
    (List.mem_append_left _ h.live) ((status_old s.current other).trans h.running)⟩
  exact new s.nextTid (h.settled.roster.idle _ idle).1 rfl

theorem semaDown_good {s : Sched} (h : s.Inv) (busy : s.idleThread ≠ some s.current) (k : Nat) :
    Good (s.semaDown k) := by
  have down : ∀ t, s.idleThread = some t → ∀ on, Function.update s.downOn s.current on t =
      s.downOn t := by
    intro t idle on
    refine Function.update_of_ne ?_ _ _
    rintro rfl
    exact busy idle
  unfold semaDown semaTest
  split
  next =>
    refine h.stop (q := .waiters k) busy (.of_update rfl rfl rfl rfl fun t idle => down t idle _)
      rfl
      ?_ ?_ fun r ne => ?_
    · exact (setStatus_status _ _ _ _).trans (if_pos rfl)
    · change ((s.setSema k _).queue (.waiters k)).Perm _
      rw [setSema_queue_self]
      exact insertOrdered_perm _ _ _
    · refine .of_eq ((setSema_queue_ne s _ ne).symm ▸ ?_)
      cases r <;> rfl
  next => exact .ok ((h.setValue k _).of_downOn fun t idle => down t idle _)

/-- The waiter that `sema_up` takes is blocked, so the assertion of `thread_unblock` holds. -/
theorem wakeWaiter_inv {s : Sched} (h : s.Inv) (k : Nat) :
    ∃ s', s.wakeWaiter k = .ok s' ∧ s'.Inv := by
  by_cases empty : (s.semas k).waiters = []
  · refine ⟨s.setSema k { s.semas k with value := (s.semas k).value + 1 }, ?_, h.setValue k _⟩
    rw [wakeWaiter, semaUp_none s.priority empty]
  · obtain ⟨t, rest, perm, eq⟩ := semaUp_some s.priority empty
    have mem : t ∈ s.queue (.waiters k) := perm.subset List.mem_cons_self
    obtain ⟨live, out, busy, home⟩ := h.settled.of_mem mem
    let popped : Sched := s.setSema k ⟨(s.semas k).value + 1, rest⟩
    have settled : popped.Settled [t, s.current] := by
      refine h.settled.leave mem ⟨rfl, rfl, rfl, fun _ _ => rfl, fun _ _ => rfl⟩ ?_ fun r ne =>
        .of_eq (setSema_queue_ne s _ ne)
      rw [setSema_queue_self]
      exact perm
    refine ⟨popped.makeReady t, ?_, settled.ready_beside live (List.mem_singleton.not.mp out) busy
      h.live h.running⟩
    rw [wakeWaiter, eq]
    exact if_pos home.status

theorem becomeIdle_inv {s : Sched} (h : s.Inv) (down : s.downOn s.current = none)
    (unset : s.idleThread = none) : Inv { s with idleThread := some s.current } := by
  refine ⟨⟨⟨fun t idle => ?_, h.settled.roster.distinct, h.settled.roster.fresh⟩,
    fun t live out _ => ?_, fun t away r => ?_⟩, h.live, h.running⟩
  · obtain rfl := Option.some.inj idle
    exact ⟨h.live, down⟩
  · obtain ⟨q, queued⟩ := h.settled.queued t live out (by simp [unset])
    refine ⟨q, queued.status, fun r => ?_⟩
    rw [← queued.count r]
    cases r <;> rfl
  · have gone := h.settled.away t (fun live => .inl ?_) r
    · cases r <;> exact gone
    · rcases away live with out | idle
      · exact out
      · obtain rfl := Option.some.inj idle
        exact List.mem_singleton_self _

theorem setPriority_inv {s : Sched} (h : s.Inv) (t : Tid) (p : Int) :
    (s.setThread t fun thread => { thread with priority := p }).Inv := by
  have same : ∀ u, (s.setThread t fun thread => { thread with priority := p }).status u =
      s.status u := by
    intro u
    rw [setThread_status]
    split
    next at_t => rw [at_t]; rfl
    next => rfl
  refine ⟨h.settled.frame ⟨rfl, rfl, rfl, fun _ _ => rfl, fun u _ => same u⟩ fun r => .of_eq ?_,
    h.live, (same s.current).trans h.running⟩
  cases r <;> rfl

theorem step_good {s : Sched} {act : Act} (h : s.Inv) (enabled : s.Enabled act) :
    Good (s.step act) := by
  cases act with
  | threadCreate p => exact .bind (spawn_inv h p) fun _ => ifYield_good
  | spawn p => exact .inl (spawn_inv h p)
  | threadYield => exact threadYield_good h
  | threadSleep ticks => exact threadSleep_good h ticks
  | semaDown k => exact semaDown_good h enabled.2 k
  | retest =>
    have busy : s.idleThread ≠ some s.current := fun idle =>
      enabled (h.settled.roster.idle s.current idle).2
    change Good (match s.downOn s.current with | some k => s.semaDown k | none => .ok s)
    split
    next k _ => exact semaDown_good h busy k
    next => exact .ok h
  | semaUp k => exact .bind (wakeWaiter_inv h k) fun _ => ifYield_good
  | semaUpIntr k =>
    exact .bind (wakeWaiter_inv h k) fun s inv => intrReturn_good (ifYieldIntr_inv inv)
  | threadExit => exact threadExit_good h enabled.2
  | ifYield => exact ifYield_good h
  | timerInterrupt => exact intrReturn_good (h.of_ticks _ _)
  | becomeIdle => exact .ok (becomeIdle_inv h enabled.1 enabled.2)
  | idleBlock => exact h.stop_idle enabled.2 (nomatch ·)
  | setPriority t p => exact .ok (setPriority_inv h t p)

/-- The steps that fail no assertion. -/
def next (s : Sched) (act : Act) : Option Sched := (s.step act).toOption

theorem next_eq {s s' : Sched} {act : Act} (h : s.next act = some s') : s.step act = .ok s' := by
  unfold next at h
  cases result : s.step act with
  | error fault =>
    rw [result] at h
    exact nomatch h
  | ok after =>
    rw [result] at h
    obtain rfl := Option.some.inj h
    rfl

theorem threadInit_inv (values : Nat → UInt32) : (threadInit values).Inv := by
  refine ⟨⟨⟨fun t idle => (nomatch idle), List.nodup_singleton 1, fun t live => ?_⟩,
    fun t live out _ => absurd live out, fun t _ r => ?_⟩, List.mem_singleton_self 1, rfl⟩
  · rw [List.mem_singleton.mp live]
    exact Nat.lt_succ_self 1
  · cases r <;> exact List.not_mem_nil

/-- Every live thread but the idle one runs or is queued once, with the status that says so, and
`thread_unblock` always finds its argument blocked. -/
theorem thread_in_one_place {values : Nat → UInt32} {s : Sched}
    (reach : Reach (Fires next) Enabled (· = threadInit values) s) :
    (∀ t ∈ s.allList, s.idleThread ≠ some t →
      (t = s.current ∧ s.status t = .running ∧ ∀ q, t ∉ s.queue q) ∨
      (t ≠ s.current ∧ ∃ q, s.Queued t q)) ∧
    ∀ act, s.Enabled act → s.step act ≠ .error .notBlocked := by
  have inv : s.Inv := by
    refine reach.invariant (P := Inv) ?_ fun s act s' h enabled hstep => ?_
    · rintro _ rfl
      exact threadInit_inv values
    · obtain ⟨after, eq, inv⟩ | fault := step_good h enabled
      · obtain rfl := Except.ok.inj (eq.symm.trans (next_eq hstep))
        exact inv
      · exact nomatch fault.symm.trans (next_eq hstep)
  refine ⟨fun t live busy => ?_, fun act enabled fails => ?_⟩
  · by_cases cur : t = s.current
    · subst cur
      exact .inl ⟨rfl, inv.running, inv.settled.away _ fun _ => .inl (List.mem_singleton_self _)⟩
    · exact .inr ⟨cur, inv.settled.queued t live (List.mem_singleton.not.mpr cur) busy⟩
  · obtain ⟨after, eq, _⟩ | fault := step_good inv enabled
    · exact nomatch eq.symm.trans fails
    · exact nomatch fault.symm.trans fails

/-- The initial thread waits on a semaphore and the thread it created last sleeps, while the idle
thread runs. -/
theorem thread_in_one_place_waiting : ∃ s : Sched,
    Reach (Fires next) Enabled (· = threadInit fun _ => 0) s ∧ s.status 1 = .blocked ∧
      s.status 3 = .sleeping ∧ (∃ q, s.Queued 1 q) ∧ ∃ q, s.Queued 3 q := by
  obtain ⟨s, reach, cur, idle, all, main, child⟩ : ∃ s : Sched,
      Reach (Fires next) Enabled (· = threadInit fun _ => 0) s ∧ s.current = 2 ∧
        s.idleThread = some 2 ∧ s.allList = [1, 2, 3] ∧ s.status 1 = .blocked ∧
        s.status 3 = .sleeping :=
    Reach.eval [.threadCreate 0, .threadCreate 40, .threadSleep 5, .semaDown 0, .becomeIdle]
      (by decide)
  have queued : ∀ t ∈ [1, 2, 3], t ≠ 2 → ∃ q, s.Queued t q := by
    intro t live ne
    rw [← all] at live
    rcases (thread_in_one_place reach).1 t live (by simpa [idle] using ne.symm) with here | there
    · exact absurd (here.1.trans cur) ne
    · exact there.2
  exact ⟨s, reach, main, child, queued 1 (by decide) (by decide), queued 3 (by decide) (by decide)⟩

end Sched

end Pintos.Threads
