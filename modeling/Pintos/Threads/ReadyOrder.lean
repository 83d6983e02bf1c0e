import Pintos.Lib.Results
import Pintos.Threads.Kernel

/-! The order of `ready_list`.  Threads are inserted by priority, but a donation raises threads of
the list where they stand, and only `if_yield` sorts before it looks at the first one. -/

namespace Pintos.Threads

open Transition OrderedList Results

namespace Sched

/-- No thread of `ready_list` is below one that stands behind it. -/
def InOrder (s : Sched) : Prop := Ordered s.priority s.readyList

section Order

variable {s s' : Sched} {b : Bool}

theorem InOrder.congr (h : s.InOrder) (list : s'.readyList = s.readyList)
    (same : ∀ t ∈ s.readyList, s'.priority t = s.priority t) : s'.InOrder := by
  unfold InOrder
  rw [list]
  exact (ordered_congr s.priority same).mpr h

theorem setThread_priority (t : Tid) (f : Thread → Thread)
    (same : (f (s.thread t)).priority = s.priority t) :
    (s.setThread t f).priority = s.priority := by
  funext u
  unfold Sched.priority setThread
  by_cases eq : u = t
  · subst eq
    simp only [Function.update_self]
    exact same
  · simp only [Function.update_of_ne eq]

theorem setStatus_priority (t : Tid) (status : Status) :
    (s.setStatus t status).priority = s.priority :=
  setThread_priority t _ rfl

theorem makeReady_priority (t : Tid) : (s.makeReady t).priority = s.priority :=
  setStatus_priority (s := { s with readyList := _ }) t .ready

theorem InOrder.makeReady (h : s.InOrder) (t : Tid) : (s.makeReady t).InOrder := by
  unfold InOrder
  rw [makeReady_priority]
  exact h.insertOrdered t

theorem InOrder.wakeSleeper (h : s.InOrder) : s.wakeSleeper.InOrder := by
  unfold Sched.wakeSleeper
  split
  · exact h
  · split
    · exact InOrder.makeReady (s := { s with sleepingList := _ }) h _
    · exact h

theorem InOrder.takesHighest (h : s.InOrder) : s.TakesHighest := by
  intro t rest ready u mem
  have woken := h.wakeSleeper
  unfold InOrder at woken
  rw [ready] at woken
  exact (notBelow_iff _).mp ((List.pairwise_cons.mp woken).1 u mem)

theorem wakeSleeper_same (s : Sched) :
    s.wakeSleeper.nextTid = s.nextTid ∧ s.wakeSleeper.idleThread = s.idleThread := by
  unfold wakeSleeper
  split
  · exact ⟨rfl, rfl⟩
  · split <;> exact ⟨rfl, rfl⟩

/-- What `schedule` leaves. -/
theorem schedule_same (run : s.schedule = .ok s') :
    s'.nextTid = s.nextTid ∧ s'.idleThread = s.idleThread ∧ (s.InOrder → s'.InOrder) := by
  obtain ⟨next, idle⟩ := wakeSleeper_same s
  have woken : s.InOrder → s.wakeSleeper.InOrder := InOrder.wakeSleeper
  unfold schedule at run
  generalize s.wakeSleeper = w at run next idle woken
  have popped : w.nextThreadToRun.2.nextTid = w.nextTid ∧
      w.nextThreadToRun.2.idleThread = w.idleThread ∧
      (w.InOrder → w.nextThreadToRun.2.InOrder) := by
    unfold nextThreadToRun
    split
    · exact ⟨rfl, rfl, id⟩
    next t rest ready =>
      refine ⟨rfl, rfl, fun h => ?_⟩
      unfold InOrder at h
      rw [ready] at h
      exact (List.pairwise_cons.mp h).2
  obtain ⟨next', idle', order⟩ := popped
  generalize w.nextThreadToRun = r at run next' idle' order
  dsimp only at run
  split at run
  · cases run
  · split at run
    · cases run
    · cases run
      refine ⟨next'.trans next, idle'.trans idle, fun h => ?_⟩
      refine (order (woken h)).congr rfl fun t _ => ?_
      exact congrFun (setStatus_priority (s := { r.2 with current := _, threadTicks := 0 }) _ _) t

theorem InOrder.threadYieldHead (h : s.InOrder) : s.threadYieldHead.InOrder := by
  unfold Sched.threadYieldHead
  split
  · exact h.congr rfl fun t _ => congrFun (setStatus_priority _ _) t
  · exact h.makeReady _

theorem sortReady_inOrder (s : Sched) : s.sortReady.InOrder := sortOrdered_ordered _ _

/-- Whatever the order was before. -/
theorem ifYieldHead_inOrder (s : Sched) : s.ifYieldHead.1.InOrder := by
  unfold ifYieldHead
  split
  · exact sortReady_inOrder s
  · split
    · exact (sortReady_inOrder s).threadYieldHead
    · exact sortReady_inOrder s

theorem ifYieldIntr_inOrder (s : Sched) : s.ifYieldIntr.1.InOrder := by
  unfold ifYieldIntr
  split
  · exact sortReady_inOrder s
  · split <;> exact sortReady_inOrder s

theorem intrReturnHead_inOrder {result : Sched × Bool} (h : result.1.InOrder) :
    (intrReturnHead result).1.InOrder := by
  unfold intrReturnHead
  split
  · exact h.threadYieldHead
  · exact h

theorem InOrder.threadSleepHead (h : s.InOrder) (ticks : Int) :
    (s.threadSleepHead ticks).1.InOrder := by
  unfold Sched.threadSleepHead
  split
  · exact h
  · have same := setThread_priority (s := s) s.current (fun thread =>
      { thread with status := .sleeping, wakeTime := s.ticks + ticks }) rfl
    exact h.congr rfl fun t _ => congrFun same t

theorem InOrder.semaDownHead (h : s.InOrder) (k : Nat) : (s.semaDownHead k).1.InOrder := by
  unfold Sched.semaDownHead
  dsimp only
  split
  · exact h
  · exact h.congr rfl fun t _ =>
      congrFun (setStatus_priority (s := { s.setSema k _ with downOn := _ }) _ _) t

theorem threadUnblock_ok {t : Tid} (run : s.threadUnblock t = .ok s') : s' = s.makeReady t := by
  unfold threadUnblock at run
  split at run
  · exact (Except.ok.inj run).symm
  · cases run

/-- A new thread is not in `ready_list` yet. -/
theorem InOrder.spawn (h : s.InOrder) (inv : s.Inv) {p : Int} (run : s.spawn p = .ok s') :
    s'.InOrder := by
  rw [threadUnblock_ok run]
  refine InOrder.makeReady ?_ _
  refine h.congr rfl fun t mem => ?_
  have ne : t ≠ s.nextTid :=
    Nat.ne_of_lt (inv.settled.roster.fresh t (inv.settled.of_mem (q := .ready) mem).1)
  simp only [Sched.priority, Function.update_of_ne ne]

theorem inOrder_fst {result : Sched × Bool} (h : result.1.InOrder) (same : result = (s', b)) :
    s'.InOrder := by
  subst same
  exact h

/-- The steps of the scheduler keep the order of `ready_list`. -/
theorem InOrder.head (h : s.InOrder) (inv : s.Inv) {act : Act}
    (fixed : ∀ t p, act ≠ .setPriority t p) (run : s.head act = .ok (s', b)) : s'.InOrder := by
  cases act with
  | threadCreate p =>
    obtain ⟨mid, -, yield⟩ := map_ok run
    exact inOrder_fst (ifYieldHead_inOrder mid) yield
  | spawn p =>
    obtain ⟨mid, spawn, same⟩ := map_ok run
    cases same
    exact h.spawn inv spawn
  | threadYield =>
    cases run
    exact h.threadYieldHead
  | threadSleep ticks =>
    exact inOrder_fst (h.threadSleepHead ticks) (Except.ok.inj run)
  | semaDown k =>
    exact inOrder_fst (h.semaDownHead k) (Except.ok.inj run)
  | retest =>
    unfold Sched.head at run
    dsimp only at run
    split at run
    · exact inOrder_fst (h.semaDownHead _) (Except.ok.inj run)
    · cases run
      exact h
  | semaUp k =>
    obtain ⟨mid, -, yield⟩ := map_ok run
    exact inOrder_fst (ifYieldHead_inOrder mid) yield
  | semaUpIntr k =>
    obtain ⟨mid, -, yield⟩ := map_ok run
    exact inOrder_fst (intrReturnHead_inOrder (ifYieldIntr_inOrder mid)) yield
  | threadExit =>
    cases run
    exact h.congr rfl fun t _ => congrFun (setStatus_priority (s := { s with allList := _ }) _ _) t
  | ifYield =>
    exact inOrder_fst (ifYieldHead_inOrder s) (Except.ok.inj run)
  | timerInterrupt =>
    have ticked : s.threadTick.1.InOrder := h
    exact inOrder_fst (intrReturnHead_inOrder ticked) (Except.ok.inj run)
  | becomeIdle =>
    cases run
    exact h
  | idleBlock =>
    cases run
    exact h.congr rfl fun t _ => congrFun (setStatus_priority _ _) t
  | setPriority t p => exact absurd rfl (fixed t p)

end Order

section Frame

variable {s s' : Sched} {b : Bool}

/-- `s'` has the same idle thread, and no tid is given back. -/
structure Keeps (s s' : Sched) : Prop where
  next : s.nextTid ≤ s'.nextTid
  idle : s'.idleThread = s.idleThread

theorem Keeps.refl (s : Sched) : Keeps s s := ⟨le_refl _, rfl⟩

theorem Keeps.trans {mid : Sched} (h : Keeps s mid) (h' : Keeps mid s') : Keeps s s' :=
  ⟨h.next.trans h'.next, h'.idle.trans h.idle⟩

theorem threadYieldHead_keeps (s : Sched) : Keeps s s.threadYieldHead := by
  unfold threadYieldHead
  split <;> exact ⟨le_refl _, rfl⟩

theorem ifYieldHead_keeps (s : Sched) : Keeps s s.ifYieldHead.1 := by
  have sorted : Keeps s s.sortReady := ⟨le_refl _, rfl⟩
  unfold ifYieldHead
  split
  · exact sorted
  · split
    · exact sorted.trans (threadYieldHead_keeps _)
    · exact sorted

theorem ifYieldIntr_keeps (s : Sched) : Keeps s s.ifYieldIntr.1 := by
  unfold ifYieldIntr
  split
  · exact ⟨le_refl _, rfl⟩
  · split <;> exact ⟨le_refl _, rfl⟩

theorem intrReturnHead_keeps (result : Sched × Bool) :
    Keeps result.1 (intrReturnHead result).1 := by
  unfold intrReturnHead
  split
  · exact threadYieldHead_keeps _
  · exact .refl _

theorem threadSleepHead_keeps (s : Sched) (ticks : Int) : Keeps s (s.threadSleepHead ticks).1 := by
  unfold threadSleepHead
  split <;> exact ⟨le_refl _, rfl⟩

theorem semaDownHead_keeps (s : Sched) (k : Nat) : Keeps s (s.semaDownHead k).1 := by
  unfold semaDownHead
  dsimp only
  split <;> exact ⟨le_refl _, rfl⟩

theorem wakeWaiter_keeps {k : Nat} (run : s.wakeWaiter k = .ok s') : Keeps s s' := by
  unfold wakeWaiter at run
  dsimp only at run
  split at run
  · cases run
    exact ⟨le_refl _, rfl⟩
  · rw [threadUnblock_ok run]
    exact ⟨le_refl _, rfl⟩

theorem spawn_keeps {p : Int} (run : s.spawn p = .ok s') : Keeps s s' := by
  rw [threadUnblock_ok run]
  exact ⟨Nat.le_succ _, rfl⟩

theorem Keeps.fst {result : Sched × Bool} (h : Keeps s result.1) (same : result = (s', b)) :
    Keeps s s' := by
  subst same
  exact h

/-- Only `idle` changes the idle thread. -/
theorem head_keeps {act : Act} (run : s.head act = .ok (s', b)) :
    Keeps s s' ∨ act = .becomeIdle ∧ s.nextTid = s'.nextTid ∧ s'.idleThread = some s.current := by
  cases act with
  | threadCreate p =>
    obtain ⟨mid, spawn, yield⟩ := map_ok run
    exact .inl ((spawn_keeps spawn).trans ((ifYieldHead_keeps mid).fst yield))
  | spawn p =>
    obtain ⟨mid, spawn, same⟩ := map_ok run
    cases same
    exact .inl (spawn_keeps spawn)
  | threadYield =>
    cases run
    exact .inl (threadYieldHead_keeps s)
  | threadSleep ticks => exact .inl ((threadSleepHead_keeps s ticks).fst (Except.ok.inj run))
  | semaDown k => exact .inl ((semaDownHead_keeps s k).fst (Except.ok.inj run))
  | retest =>
    unfold Sched.head at run
    dsimp only at run
    split at run
    · exact .inl ((semaDownHead_keeps s _).fst (Except.ok.inj run))
    · cases run
      exact .inl (.refl s)
  | semaUp k =>
    obtain ⟨mid, wake, yield⟩ := map_ok run
    exact .inl ((wakeWaiter_keeps wake).trans ((ifYieldHead_keeps mid).fst yield))
  | semaUpIntr k =>
    obtain ⟨mid, wake, yield⟩ := map_ok run
    exact .inl ((wakeWaiter_keeps wake).trans
      ((ifYieldIntr_keeps mid).trans ((intrReturnHead_keeps _).fst yield)))
  | ifYield => exact .inl ((ifYieldHead_keeps s).fst (Except.ok.inj run))
  | timerInterrupt =>
    have ticked : Keeps s s.threadTick.1 := ⟨le_refl _, rfl⟩
    exact .inl (ticked.trans ((intrReturnHead_keeps s.threadTick).fst (Except.ok.inj run)))
  | becomeIdle =>
    cases run
    exact .inr ⟨rfl, rfl, rfl⟩
  | threadExit | idleBlock | setPriority t p =>
    cases run
    exact .inl ⟨le_refl _, rfl⟩

/-- Priorities play no part in the invariant of the scheduler. -/
theorem Inv.of_priority (h : s.Inv) (priority : Tid → Int) :
    Inv { s with thread := fun t => { s.thread t with priority := priority t } } := by
  refine ⟨h.settled.frame ⟨rfl, rfl, rfl, fun _ _ => rfl, fun _ _ => rfl⟩ fun r => .of_eq ?_,
    h.live, h.running⟩
  cases r <;> rfl

theorem Inv.current_not_ready (h : s.Inv) : s.current ∉ s.readyList :=
  h.settled.away s.current (fun _ => .inl (List.mem_singleton_self _)) .ready

end Frame

end Sched

namespace Locks

/-- Thread `t` does something else than to wait, and changes no priority but its own. -/
structure Alone (t : Tid) (s s' : Locks) : Prop where
  priority : ∀ u, u ≠ t → s'.priority u = s.priority u
  holder : ∀ lock u, s'.holder lock = some u → s.holder lock = some u ∨ u = t
  pc : ∀ u, u ≠ t → s'.pc u = s.pc u
  away : ∀ lock, s'.pc t ≠ .testing lock

section Alone

variable {s s' : Locks} {t : Tid}

theorem Alone.at_ {mid : Locks} (priority : ∀ u, u ≠ t → mid.priority u = s.priority u)
    (holder : ∀ lock u, mid.holder lock = some u → s.holder lock = some u ∨ u = t)
    (pc : mid.pc = s.pc) {place : LockPc} (away : ∀ lock, place ≠ .testing lock) :
    Alone t s (mid.at_ t place) := by
  refine ⟨priority, holder, fun u ne => ?_, fun lock => ?_⟩
  · rw [at_of_ne mid place ne, pc]
  · rw [at_self]
    exact away lock

/-- Only lists and records change. -/
theorem Alone.place {mid : Locks} {place : LockPc} (priority : mid.priority = s.priority)
    (holder : mid.holder = s.holder) (pc : mid.pc = s.pc) (away : ∀ lock, place ≠ .testing lock) :
    Alone t s (mid.at_ t place) := by
  refine .at_ (fun u _ => congrFun priority u) (fun lock u held => ?_) pc away
  rw [holder] at held
  exact .inl held

theorem setHolder_or (s : Locks) (lock : LockId) {holder : Option Tid}
    (new : ∀ u, holder = some u → u = t) (l : LockId) (u : Tid)
    (held : (s.setHolder lock holder).holder l = some u) : s.holder l = some u ∨ u = t := by
  by_cases eq : l = lock
  · rw [eq, setHolder_self] at held
    exact .inr (new u held)
  · rw [setHolder_of_ne s holder eq] at held
    exact .inl held

theorem advance_alone (run : s.advance t = some s') (testing : ∀ lock, s.pc t ≠ .testing lock)
    (raising : ∀ lock, s.pc t ≠ .raising lock) : Alone t s s' := by
  unfold Locks.advance at run
  split at run
  · cases run
  · cases run
  next lock place => exact absurd place (testing lock)
  next lock _ =>
    cases run
    apply Alone.at_
    · exact fun _ _ => rfl
    · exact setHolder_or s lock fun u at_t => (Option.some.inj at_t).symm
    · rfl
    · nofun
  · cases run
    apply Alone.place <;> first | rfl | nofun
  · cases run
    apply Alone.place <;> first | rfl | nofun
  · cases run
    apply Alone.place <;> first | rfl | nofun
  · cases run
    apply Alone.place <;> first | rfl | nofun
  · cases run
    apply Alone.at_
    · exact fun u ne => setPriority_of_ne s _ ne
    · exact fun _ _ => .inl
    · rfl
    · nofun
  next lock _ =>
    cases run
    apply Alone.at_
    · exact fun _ _ => rfl
    · exact setHolder_or s lock fun u none => nomatch none
    · rfl
    · nofun
  next lock place => exact absurd place (raising lock)

theorem lockRelease_alone {lock : LockId} (run : s.lockRelease t lock = some s') :
    Alone t s s' := by
  unfold lockRelease at run
  split at run
  · cases run
    apply Alone.place <;> first | rfl | nofun
  · cases run

theorem threadSetPriority_alone {new : Int} (run : s.threadSetPriority t new = some s') :
    Alone t s s' := by
  unfold threadSetPriority at run
  split at run
  next here =>
    cases run
    refine ⟨fun u ne => setPriority_of_ne s _ ne, fun _ _ => .inl, fun _ _ => rfl, fun lock => ?_⟩
    show s.pc t ≠ _
    rw [here.2]
    exact nofun
  · cases run

/-- `lock_acquire` comes to its `sema_down`, with the donations made. -/
theorem lockAcquire_reached {lock : LockId} (run : s.lockAcquire t lock = some s') :
    Reached (s.priority t) (· = lock)
      { s with waitLockList := Function.update s.waitLockList t (s.waitLockList t ++ [lock]) }
      { s' with pc := s.pc } ∧
    s'.pc = Function.update s.pc t (.testing lock) := by
  unfold lockAcquire at run
  split at run
  · obtain ⟨d, donate, same⟩ := Option.map_eq_some_iff.mp run
    cases same
    have reached := donateLock_reached donate
    have place : d.pc = s.pc := reached.pc
    have back : { d.at_ t (.testing lock) with pc := s.pc } = d := by
      rw [← place]
      rfl
    refine ⟨back ▸ reached, ?_⟩
    show Function.update d.pc t _ = _
    rw [place]
  · cases run

/-- The locks that the donor itself waits for lead no further. -/
theorem Donee.congr {start : LockId → Prop} {p : Int} {u : Tid} (donee : Donee s p start u)
    (priority : s'.priority = s.priority) (holder : s'.holder = s.holder)
    (waits : ∀ v, s.priority v < p → s'.waitLockList v = s.waitLockList v) :
    Donee s' p start u := by
  induction donee with
  | holder first held low =>
    refine .holder first (holder ▸ held) ?_
    rwa [priority]
  | next before mem held low ih =>
    refine .next ih ?_ (holder ▸ held) ?_
    · rw [waits _ before.low]
      exact mem
    · rwa [priority]

theorem donee_push (lock : LockId) {start : LockId → Prop} {u : Tid} :
    Donee { s with waitLockList := Function.update s.waitLockList t (s.waitLockList t ++ [lock]) }
      (s.priority t) start u ↔ Donee s (s.priority t) start u := by
  have same : ∀ v, s.priority v < s.priority t →
      Function.update s.waitLockList t (s.waitLockList t ++ [lock]) v = s.waitLockList v := by
    intro v low
    refine Function.update_of_ne ?_ _ _
    rintro rfl
    exact lt_irrefl _ low
  exact ⟨fun donee => donee.congr rfl rfl fun v low => (same v low).symm,
    fun donee => donee.congr rfl rfl same⟩

end Alone

end Locks

namespace Kernel

def InOrder (k : Kernel) : Prop := k.sched.InOrder

/-- The thread that the step's call of `schedule` takes from `ready_list`, if it comes to that, has
at least the priority of those that are left there. -/
def SchedulesHighest (k : Kernel) (act : Act) : Prop :=
  ∀ k', k.head act = some (k', true) → k'.sched.TakesHighest

/-- The threads that `lock_acquire` of the running thread donates to. -/
def Donee (k : Kernel) (lock : LockId) : Tid → Prop :=
  Locks.Donee k.locks (k.sched.priority k.sched.current) (· = lock)

/-- No donation raises a thread of `ready_list` above one that stands before it. -/
def KeepsOrder (k : Kernel) : Act → Prop
  | .lockAcquire lock => k.sched.readyList.Pairwise fun u t =>
    k.Donee lock t → k.Donee lock u ∨ k.sched.priority k.sched.current ≤ k.sched.priority u
  | _ => True

structure Inv (k : Kernel) : Prop where
  sched : k.sched.Inv
  order : k.InOrder
  holders : ∀ lock t, k.holder lock = some t → t < k.sched.nextTid
  idle : ∀ t, k.sched.idleThread = some t → ∀ lock, k.pc t ≠ .testing lock

/-- What a step leaves before its call of `schedule`. -/
structure Entry (k : Kernel) (b : Bool) : Prop where
  sched : Sched.Good (Sched.finish (k.sched, b))
  order : k.InOrder
  holders : ∀ lock t, k.holder lock = some t → t < k.sched.nextTid
  idle : ∀ t, k.sched.idleThread = some t → ∀ lock, k.pc t ≠ .testing lock

variable {k k' k'' : Kernel} {act : Act} {b : Bool}

theorem Inv.entry (inv : k.Inv) : Entry k false :=
  ⟨.ok inv.sched, inv.order, inv.holders, inv.idle⟩

theorem Entry.finish (h : Entry k b) (run : finish (k, b) = some k') : k'.Inv := by
  obtain ⟨s, done, same⟩ := Option.map_eq_some_iff.mp run
  have done : Sched.finish (k.sched, b) = .ok s := ok_of_toOption done
  have inv : s.Inv := by
    rcases h.sched with ⟨s', ok, inv⟩ | fault
    · obtain rfl := Except.ok.inj (done.symm.trans ok)
      exact inv
    · exact nomatch done.symm.trans fault
  have kept : s.nextTid = k.sched.nextTid ∧ s.idleThread = k.sched.idleThread ∧ s.InOrder := by
    unfold Sched.finish at done
    split at done
    · obtain ⟨next, idle, order⟩ := Sched.schedule_same done
      exact ⟨next, idle, order h.order⟩
    · cases done
      exact ⟨rfl, rfl, h.order⟩
  obtain ⟨next, idle, order⟩ := kept
  cases same
  refine ⟨inv, order, fun lock t held => ?_, fun t at_idle => ?_⟩
  · exact lt_of_lt_of_eq (h.holders lock t held) next.symm
  · exact h.idle t (idle.symm.trans at_idle)

theorem Inv.current_lt (inv : k.Inv) : k.sched.current < k.sched.nextTid :=
  inv.sched.settled.roster.fresh _ inv.sched.live

/-- The running thread changes its own priority, the locks that it has and its place. -/
theorem Inv.withLocks (inv : k.Inv) {l : Locks}
    (alone : Locks.Alone k.sched.current k.locks l) : (k.withLocks l).Inv := by
  refine ⟨inv.sched.of_priority l.priority, ?_, fun lock t held => ?_, fun t at_idle lock => ?_⟩
  · refine Sched.InOrder.congr inv.order rfl fun t mem => alone.priority t ?_
    rintro rfl
    exact inv.sched.current_not_ready mem
  · rcases alone.holder lock t held with old | rfl
    · exact inv.holders lock t old
    · exact inv.current_lt
  · by_cases here : t = k.sched.current
    · rw [here]
      exact alone.away lock
    · show l.pc t ≠ _
      rw [alone.pc t here]
      exact inv.idle t at_idle lock

/-- `ready_list` is in order after a donation exactly when it keeps the order. -/
theorem Inv.lockAcquire_order (inv : k.Inv) {lock : LockId} {l : Locks}
    (run : k.locks.lockAcquire k.sched.current lock = some l) :
    (k.withLocks l).InOrder ↔ k.KeepsOrder (.lockAcquire lock) := by
  have donated : ∀ t, (k.Donee lock t → l.priority t = k.sched.priority k.sched.current) ∧
      (¬k.Donee lock t → l.priority t = k.sched.priority t) := by
    intro t
    obtain ⟨raised, same⟩ := (Locks.lockAcquire_reached run).1.priority_eq t
    exact ⟨fun donee => raised ((Locks.donee_push lock).mpr donee),
      fun none => same fun donee => none ((Locks.donee_push lock).mp donee)⟩
  have before : Ordered k.sched.priority k.sched.readyList := inv.order
  show Ordered l.priority k.sched.readyList ↔ _
  constructor
  · intro after
    refine after.imp fun {u t} high donee => ?_
    rw [notBelow_iff, (donated t).1 donee] at high
    by_cases first : k.Donee lock u
    · exact .inl first
    · rw [(donated u).2 first] at high
      exact .inr high
  · intro keeps
    refine (before.and keeps).imp fun {u t} both => ?_
    obtain ⟨high, keeps⟩ := both
    rw [notBelow_iff] at high ⊢
    have up : k.sched.priority u ≤ l.priority u :=
      (Locks.lockAcquire_reached run).1.toRaised.le u
    by_cases donee : k.Donee lock t
    · rw [(donated t).1 donee]
      rcases keeps donee with first | enough
      · exact le_of_eq ((donated u).1 first).symm
      · exact enough.trans up
    · rw [(donated t).2 donee]
      exact high.trans up

theorem Inv.lockAcquire (inv : k.Inv) {lock : LockId}
    (busy : k.sched.idleThread ≠ some k.sched.current) (keeps : k.KeepsOrder (.lockAcquire lock))
    {l : Locks} (run : k.locks.lockAcquire k.sched.current lock = some l) :
    (k.withLocks l).Inv := by
  obtain ⟨reached, place⟩ := Locks.lockAcquire_reached run
  refine ⟨inv.sched.of_priority l.priority, (inv.lockAcquire_order run).mpr keeps,
    fun lock' t held => ?_, fun t at_idle lock' => ?_⟩
  · have same : l.holder = k.holder := reached.holder
    exact inv.holders lock' t (same ▸ held)
  · have ne : t ≠ k.sched.current := by
      rintro rfl
      exact busy at_idle
    show l.pc t ≠ _
    rw [place, Function.update_of_ne ne]
    exact inv.idle t at_idle lock'

/-- The call of `donate_lock` returns. -/
theorem Inv.lockAcquire_returns (inv : k.Inv) {lock : LockId}
    (idle : k.pc k.sched.current = .idle) (other : k.holder lock ≠ some k.sched.current) :
    (k.head (.lockAcquire lock)).isSome := by
  let s : Locks := { k.locks with
    waitLockList := Function.update k.waitLockList k.sched.current
      (k.waitLockList k.sched.current ++ [lock]) }
  have room : s.below (s.priority k.sched.current) < k.locks.threads.length + 1 :=
    Nat.lt_succ_of_le List.countP_le_length
  obtain ⟨s', run, -⟩ := Locks.donateLock_donates (fun _ => False) (k.locks.threads.length + 1) lock
    k.sched.current s (fun _ _ => True) room
    (fun l t held => List.mem_range.mpr (inv.holders l t held))
    (fun w l _ out => absurd (Or.inl trivial) out)
  have returns : k.locks.lockAcquire k.sched.current lock =
      some (s'.at_ k.sched.current (.testing lock)) := by
    unfold Locks.lockAcquire
    rw [if_pos ⟨List.mem_range.mpr inv.current_lt, idle, other⟩]
    exact congrArg (Option.map _) run
  show (Option.map _ (k.locks.lockAcquire k.sched.current lock)).isSome
  rw [returns]
  rfl

theorem initThread_holder (k : Kernel) (act : Sched.Act) :
    (k.initThread act).holder = k.holder := by
  cases act <;> rfl

theorem initThread_pc (k : Kernel) (act : Sched.Act) (t : Tid) :
    (k.initThread act).pc t = k.pc t ∨ (k.initThread act).pc t = .idle := by
  have new : Function.update k.pc k.sched.nextTid .idle t = k.pc t ∨
      Function.update k.pc k.sched.nextTid .idle t = .idle := by
    rw [Function.update_apply]
    split
    · exact .inr rfl
    · exact .inl rfl
  cases act with
  | threadCreate p | spawn p => exact new
  | _ => exact .inl rfl

/-- A step of the scheduler. -/
theorem Inv.schedStep (inv : k.Inv) {act : Sched.Act} (enabled : k.Enabled (.sched act))
    (run : k.head (.sched act) = some (k', b)) : Entry k' b := by
  obtain ⟨enabled, free⟩ := enabled
  obtain ⟨⟨s, b'⟩, head, same⟩ := Option.map_eq_some_iff.mp run
  cases same
  have head := ok_of_toOption head
  have fixed : ∀ t p, act ≠ .setPriority t p := by
    rintro t p rfl
    exact free
  have good := Sched.step_good inv.sched enabled
  rw [Sched.step_eq_head, head] at good
  have keeps := Sched.head_keeps head
  have next : k.sched.nextTid ≤ s.nextTid := by
    rcases keeps with keeps | ⟨-, next, -⟩
    · exact keeps.next
    · exact le_of_eq next
  refine ⟨good, Sched.InOrder.head inv.order inv.sched fixed head, fun lock t held => ?_,
    fun t at_idle lock => ?_⟩
  · rw [initThread_holder] at held
    exact lt_of_lt_of_le (inv.holders lock t held) next
  · show (k.initThread act).pc t ≠ _
    have quiet : k.pc t ≠ .testing lock := by
      rcases keeps with keeps | ⟨rfl, -, become⟩
      · exact inv.idle t (keeps.idle.symm.trans at_idle) lock
      · obtain rfl := Option.some.inj (become.symm.trans at_idle)
        rw [show k.pc k.sched.current = .idle from free]
        exact nofun
    rcases initThread_pc k act t with same | idle
    · rwa [same]
    · rw [idle]
      exact nofun

/-- The scheduler goes on with the locks as they are. -/
theorem Inv.goesOn (inv : k.Inv) {s : Sched} (good : Sched.Good (Sched.finish (s, b)))
    (order : s.InOrder) (keeps : Sched.Keeps k.sched s) {pc : Tid → LockPc}
    (away : ∀ t, k.sched.idleThread = some t → ∀ lock, pc t ≠ .testing lock) :
    Entry { k with sched := s, pc := pc } b :=
  ⟨good, order, fun lock t held => lt_of_lt_of_le (inv.holders lock t held) keeps.next,
    fun t at_idle => away t (keeps.idle.symm.trans at_idle)⟩

theorem Inv.threadSetPriority (inv : k.Inv) {new : Int}
    (run : k.head (.threadSetPriority new) = some (k', b)) : Entry k' b := by
  obtain ⟨l, set, same⟩ := Option.map_eq_some_iff.mp run
  cases same
  have mid := inv.withLocks (Locks.threadSetPriority_alone set)
  have good := Sched.ifYield_good mid.sched
  rw [Sched.ifYield_head] at good
  exact mid.goesOn good (Sched.ifYieldHead_inOrder _) (Sched.ifYieldHead_keeps _) mid.idle

theorem at_pc (k : Kernel) {place : LockPc} (away : ∀ lock, place ≠ .testing lock) {t : Tid}
    {lock : LockId} (h : k.pc t ≠ .testing lock) : (k.at_ place).pc t ≠ .testing lock := by
  unfold at_
  simp only [Function.update_apply]
  split
  · exact away lock
  · exact h

theorem Inv.advance (inv : k.Inv) (run : k.advanceHead = some (k', b)) : Entry k' b := by
  unfold advanceHead at run
  split at run
  next lock place =>
    have busy : k.sched.idleThread ≠ some k.sched.current := fun idle =>
      inv.idle _ idle lock place
    have good := Sched.semaDown_good inv.sched busy lock
    have order := Sched.InOrder.semaDownHead inv.order lock
    have keeps := Sched.semaDownHead_keeps k.sched lock
    rw [Sched.semaDown_head] at good
    generalize k.sched.semaDownHead lock = result at run good order keeps
    obtain ⟨s, blocks⟩ := result
    cases blocks with
    | true =>
      cases run
      exact inv.goesOn good order keeps inv.idle
    | false =>
      cases run
      exact inv.goesOn good order keeps fun t idle lock' =>
        k.at_pc (by nofun) (inv.idle t idle lock')
  next lock place =>
    obtain ⟨⟨s, b'⟩, up, same⟩ := Option.map_eq_some_iff.mp run
    cases same
    have up := ok_of_toOption up
    have good : Sched.Good ((k.sched.semaUpHead lock).bind Sched.finish) := by
      have up := Sched.Good.bind (Sched.wakeWaiter_inv inv.sched lock) fun _ => Sched.ifYield_good
      rwa [Sched.bind_eq_map Sched.ifYield_head] at up
    rw [up] at good
    obtain ⟨mid, wake, yield⟩ := map_ok up
    refine inv.goesOn good (Sched.inOrder_fst (Sched.ifYieldHead_inOrder mid) yield)
      ((Sched.wakeWaiter_keeps wake).trans ((Sched.ifYieldHead_keeps mid).fst yield)) ?_
    exact fun t idle lock' => k.at_pc (by nofun) (inv.idle t idle lock')
  next testing raising =>
    obtain ⟨l, advance, same⟩ := Option.map_eq_some_iff.mp run
    cases same
    exact (inv.withLocks (Locks.advance_alone advance testing raising)).entry

/-- A step that keeps the order keeps the invariant up to its call of `schedule`. -/
theorem Inv.head (inv : k.Inv) (enabled : k.Enabled act) (keeps : k.KeepsOrder act)
    (run : k.head act = some (k', b)) : Entry k' b := by
  cases act with
  | sched act => exact inv.schedStep enabled run
  | lockAcquire lock =>
    obtain ⟨l, acquire, same⟩ := Option.map_eq_some_iff.mp run
    cases same
    exact (inv.lockAcquire enabled.2 keeps acquire).entry
  | lockRelease lock =>
    obtain ⟨l, release, same⟩ := Option.map_eq_some_iff.mp run
    cases same
    exact (inv.withLocks (Locks.lockRelease_alone release)).entry
  | threadSetPriority new => exact inv.threadSetPriority run
  | advance => exact inv.advance run

theorem step_head (run : k.step act = some k'') :
    k.Enabled act ∧ ∃ k' b, k.head act = some (k', b) ∧ finish (k', b) = some k'' := by
  unfold step at run
  split at run
  next enabled =>
    obtain ⟨⟨k', b⟩, head, done⟩ := Option.bind_eq_some_iff.mp run
    exact ⟨enabled, k', b, head, done⟩
  next => cases run

theorem Inv.step (inv : k.Inv) (keeps : k.KeepsOrder act) (run : k.step act = some k'') :
    k''.Inv := by
  obtain ⟨enabled, k', b, head, done⟩ := step_head run
  exact (inv.head enabled keeps head).finish done

theorem Inv.schedulesHighest (inv : k.Inv) (keeps : k.KeepsOrder act)
    (run : k.step act = some k'') : k.SchedulesHighest act := by
  obtain ⟨enabled, -⟩ := step_head run
  exact fun k' head => (inv.head enabled keeps head).order.takesHighest

/-- Only a donation that keeps the order leaves the list in order. -/
theorem Inv.keepsOrder (inv : k.Inv) (order : k''.InOrder) (run : k.step act = some k'') :
    k.KeepsOrder act := by
  cases act with
  | lockAcquire lock =>
    obtain ⟨-, k', b, head, done⟩ := step_head run
    obtain ⟨l, acquire, same⟩ := Option.map_eq_some_iff.mp head
    cases same
    cases done
    exact (inv.lockAcquire_order acquire).mp order
  | _ => trivial

theorem init_inv (values : Nat → UInt32) (lockPriority : LockId → Int) :
    (init values lockPriority).Inv :=
  ⟨Sched.threadInit_inv values, List.Pairwise.nil, nofun, nofun⟩

/-- In every run, `ready_list` is in order all the time and every call of `schedule` that takes a
thread from it takes one of the highest priority, exactly when all donations keep the order. -/
theorem scheduler_runs_highest (values : Nat → UInt32) (lockPriority : LockId → Int)
    (acts : List Act) :
    Always step InOrder (init values lockPriority) acts ∧
        Each step SchedulesHighest (init values lockPriority) acts ↔
      Each step KeepsOrder (init values lockPriority) acts :=
  always_and_each_iff (fun _ inv => inv.order) (fun _ _ _ inv keeps run => inv.step keeps run)
    (fun _ _ _ inv keeps run => inv.schedulesHighest keeps run)
    (fun _ _ _ inv order _ run => inv.keepsOrder order run) acts (init_inv values lockPriority)

/-- The initial thread of priority 31 acquires lock 5 and creates a thread of priority 40, which
creates one of priority 35 and calls `lock_acquire`. -/
def contention : List Act :=
  [.lockAcquire 5, .advance, .advance, .advance, .advance, .advance, .sched (.threadCreate 40),
    .sched (.threadCreate 35), .lockAcquire 5]

/-- When that blocks, the thread of priority 35 is taken and the initial thread left with its 40. -/
theorem donee_passed_over :
    ∃ k, Reach (Fires step) (fun _ _ => True) (· = init (fun _ => 1) fun _ => 0) k ∧
      (k.step .advance).isSome ∧ ¬k.SchedulesHighest .advance := by
  obtain ⟨k, reach, steps, behind⟩ : ∃ k,
      Reach (Fires step) (fun _ _ => True) (· = init (fun _ => 1) fun _ => 0) k ∧
        (k.step .advance).isSome = true ∧ (k.head .advance).any (fun r => decide
          (r.2 = true ∧ r.1.sched.wakeSleeper.readyList = [3, 1] ∧
            r.1.sched.wakeSleeper.priority 3 < r.1.sched.wakeSleeper.priority 1)) = true :=
    Reach.eval contention (by decide)
  refine ⟨k, reach, steps, fun highest => ?_⟩
  obtain ⟨⟨k', b⟩, head, ready⟩ := (Option.any_eq_true _ _).mp behind
  obtain ⟨rfl, list, low⟩ := of_decide_eq_true ready
  exact absurd (highest k' head 3 [1] list 1 (by simp)) (not_le.mpr low)

end Kernel

end Pintos.Threads
