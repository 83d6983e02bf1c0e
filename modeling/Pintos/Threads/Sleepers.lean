import Pintos.Lib.Results
import Pintos.Threads.Kernel

/-! `sleeping_list`.  Threads are inserted by their wake time, and a call of `schedule` makes the
first of them ready if its time has come. -/

namespace Pintos.Threads

open Transition OrderedList Results

namespace Sched

def wakeTime (s : Sched) (t : Tid) : Int := (s.thread t).wakeTime

/-- The thread's time has come. -/
def Due (s : Sched) (t : Tid) : Prop := s.wakeTime t ≤ s.ticks

instance (s : Sched) (t : Tid) : Decidable (s.Due t) := inferInstanceAs (Decidable (_ ≤ _))

/-- A step of the scheduler, or any number of timer ticks. -/
inductive SleepAct
  | sched (act : Act)
  | ticks (n : Nat)

def sleepStep (s : Sched) : SleepAct → Option Sched
  | .sched act => if s.Enabled act then s.next act else none
  | .ticks n => some { s with ticks := s.ticks + n }

/-- `sleeping_list` is in the order of the wake times. -/
def SleepersSorted (s : Sched) : Prop :=
  s.sleepingList.Pairwise fun t u => s.wakeTime t ≤ s.wakeTime u

/-- No thread leaves `sleeping_list` before its time: none before the call of `schedule`, and in it
only those that are due. -/
def NoneEarly (s : Sched) : SleepAct → Prop
  | .sched act => ∀ m b, s.head act = .ok (m, b) → s.sleepingList ⊆ m.sleepingList ∧
      (b = true → ∀ s', m.schedule = .ok s' →
        ∀ t ∈ m.sleepingList, t ∉ s'.sleepingList → m.Due t)
  | .ticks _ => True

/-- No thread that is due is left in `sleeping_list` by a call of `schedule`. -/
def NoneLate (s : Sched) : SleepAct → Prop
  | .sched act => ∀ m, s.head act = .ok (m, true) → ∀ s', m.schedule = .ok s' →
      ∀ t ∈ s'.sleepingList, ¬s'.Due t
  | .ticks _ => True

/-- A call of `schedule` finds at most one thread that is due. -/
def OneDue (s : Sched) : SleepAct → Prop
  | .sched act => ∀ m, s.head act = .ok (m, true) → m.sleepingList.countP (fun t => m.Due t) ≤ 1
  | .ticks _ => True

section Frame

variable {s s' : Sched} {b : Bool}

/-- The same threads sleep, to the same times. -/
structure SameSleepers (s s' : Sched) : Prop where
  list : s'.sleepingList = s.sleepingList
  wake : ∀ t ∈ s.sleepingList, s'.wakeTime t = s.wakeTime t

theorem SameSleepers.refl (s : Sched) : SameSleepers s s := ⟨rfl, fun _ _ => rfl⟩

theorem SameSleepers.trans {mid : Sched} (h : SameSleepers s mid) (h' : SameSleepers mid s') :
    SameSleepers s s' :=
  ⟨h'.list.trans h.list, fun t mem => (h'.wake t (h.list ▸ mem)).trans (h.wake t mem)⟩

theorem SameSleepers.fst {result : Sched × Bool} (h : SameSleepers s result.1)
    (same : result = (s', b)) : SameSleepers s s' := by
  subst same
  exact h

theorem ordered_sleepers_iff :
    Ordered (fun t => -(s.thread t).wakeTime) s.sleepingList ↔ s.SleepersSorted := by
  unfold Ordered SleepersSorted
  refine List.Pairwise.iff fun t u => ?_
  rw [notBelow_iff]
  exact Int.neg_le_neg_iff

theorem SleepersSorted.congr (h : s.SleepersSorted) (same : SameSleepers s s') :
    s'.SleepersSorted := by
  unfold SleepersSorted at h ⊢
  rw [same.list]
  refine h.imp_of_mem fun {t u} ht hu le => ?_
  rw [same.wake t ht, same.wake u hu]
  exact le

theorem setThread_wakeTime (t : Tid) (f : Thread → Thread)
    (same : (f (s.thread t)).wakeTime = s.wakeTime t) (u : Tid) :
    (s.setThread t f).wakeTime u = s.wakeTime u := by
  unfold wakeTime setThread
  by_cases eq : u = t
  · subst eq
    simp only [Function.update_self]
    exact same
  · simp only [Function.update_of_ne eq]

theorem setStatus_wakeTime (s : Sched) (t : Tid) (status : Status) :
    (s.setStatus t status).wakeTime = s.wakeTime :=
  funext (setThread_wakeTime t _ rfl)

theorem SameSleepers.setStatus (h : SameSleepers s s') (t : Tid) (status : Status) :
    SameSleepers s (s'.setStatus t status) :=
  h.trans ⟨rfl, fun u _ => congrFun (setStatus_wakeTime s' t status) u⟩

theorem makeReady_sleepers (s : Sched) (t : Tid) : SameSleepers s (s.makeReady t) := by
  unfold makeReady
  apply SameSleepers.setStatus
  exact ⟨rfl, fun _ _ => rfl⟩

theorem threadYieldHead_sleepers (s : Sched) : SameSleepers s s.threadYieldHead := by
  unfold threadYieldHead
  split
  · exact (SameSleepers.refl s).setStatus _ _
  · exact makeReady_sleepers _ _

theorem ifYieldHead_sleepers (s : Sched) : SameSleepers s s.ifYieldHead.1 := by
  have sorted : SameSleepers s s.sortReady := ⟨rfl, fun _ _ => rfl⟩
  unfold ifYieldHead
  split
  · exact sorted
  · split
    · exact sorted.trans (threadYieldHead_sleepers _)
    · exact sorted

theorem ifYieldIntr_sleepers (s : Sched) : SameSleepers s s.ifYieldIntr.1 := by
  unfold ifYieldIntr
  split
  · exact ⟨rfl, fun _ _ => rfl⟩
  · split <;> exact ⟨rfl, fun _ _ => rfl⟩

theorem intrReturnHead_sleepers (result : Sched × Bool) :
    SameSleepers result.1 (intrReturnHead result).1 := by
  unfold intrReturnHead
  split
  · exact threadYieldHead_sleepers _
  · exact .refl _

theorem semaDownHead_sleepers (s : Sched) (k : Nat) : SameSleepers s (s.semaDownHead k).1 := by
  unfold semaDownHead
  dsimp only
  split
  · exact ⟨rfl, fun _ _ => rfl⟩
  · apply SameSleepers.setStatus
    exact ⟨rfl, fun _ _ => rfl⟩

theorem SameSleepers.threadUnblock {mid : Sched} (h : SameSleepers s mid) {t : Tid}
    (run : mid.threadUnblock t = .ok s') : SameSleepers s s' := by
  unfold Sched.threadUnblock at run
  split at run
  · cases run
    exact h.trans (makeReady_sleepers mid t)
  · cases run

theorem wakeWaiter_sleepers {k : Nat} (run : s.wakeWaiter k = .ok s') : SameSleepers s s' := by
  unfold wakeWaiter at run
  dsimp only at run
  split at run
  · cases run
    exact ⟨rfl, fun _ _ => rfl⟩
  next =>
    refine SameSleepers.threadUnblock ?_ run
    exact ⟨rfl, fun _ _ => rfl⟩

/-- A new thread does not sleep yet. -/
theorem spawn_sleepers (inv : s.Inv) {p : Int} (run : s.spawn p = .ok s') : SameSleepers s s' := by
  refine SameSleepers.threadUnblock ?_ run
  refine ⟨rfl, fun t mem => ?_⟩
  have ne : t ≠ s.nextTid :=
    Nat.ne_of_lt (inv.settled.roster.fresh t (inv.settled.of_mem (q := .sleeping) mem).1)
  simp only [wakeTime, Function.update_of_ne ne]

/-- Before its call of `schedule` a step changes `sleeping_list` in `thread_sleep` only. -/
theorem head_sleepers (inv : s.Inv) {act : Act} (run : s.head act = .ok (s', b)) :
    SameSleepers s s' ∨ ∃ ticks, act = .threadSleep ticks ∧ s.threadSleepHead ticks = (s', b) := by
  cases act with
  | threadSleep ticks => exact .inr ⟨ticks, rfl, Except.ok.inj run⟩
  | threadCreate p =>
    obtain ⟨mid, spawn, yield⟩ := map_ok run
    exact .inl ((spawn_sleepers inv spawn).trans ((ifYieldHead_sleepers mid).fst yield))
  | spawn p =>
    obtain ⟨mid, spawn, same⟩ := map_ok run
    cases same
    exact .inl (spawn_sleepers inv spawn)
  | threadYield =>
    cases run
    exact .inl (threadYieldHead_sleepers s)
  | semaDown k => exact .inl ((semaDownHead_sleepers s k).fst (Except.ok.inj run))
  | retest =>
    unfold Sched.head at run
    dsimp only at run
    split at run
    · exact .inl ((semaDownHead_sleepers s _).fst (Except.ok.inj run))
    · cases run
      exact .inl (.refl s)
  | semaUp k =>
    obtain ⟨mid, wake, yield⟩ := map_ok run
    exact .inl ((wakeWaiter_sleepers wake).trans ((ifYieldHead_sleepers mid).fst yield))
  | semaUpIntr k =>
    obtain ⟨mid, wake, yield⟩ := map_ok run
    exact .inl ((wakeWaiter_sleepers wake).trans
      ((ifYieldIntr_sleepers mid).trans ((intrReturnHead_sleepers _).fst yield)))
  | ifYield => exact .inl ((ifYieldHead_sleepers s).fst (Except.ok.inj run))
  | timerInterrupt =>
    have ticked : SameSleepers s s.threadTick.1 := ⟨rfl, fun _ _ => rfl⟩
    exact .inl (ticked.trans ((intrReturnHead_sleepers s.threadTick).fst (Except.ok.inj run)))
  | becomeIdle =>
    cases run
    exact .inl ⟨rfl, fun _ _ => rfl⟩
  | idleBlock =>
    cases run
    exact .inl ((SameSleepers.refl s).setStatus _ _)
  | threadExit =>
    cases run
    left
    apply SameSleepers.setStatus
    exact ⟨rfl, fun _ _ => rfl⟩
  | setPriority t p =>
    cases run
    exact .inl ⟨rfl, fun u _ => setThread_wakeTime t _ rfl u⟩

/-- The sleeper is put behind those that wake no later. -/
theorem SleepersSorted.threadSleepHead (h : s.SleepersSorted) (inv : s.Inv) {ticks : Int}
    (run : s.threadSleepHead ticks = (s', b)) :
    s'.SleepersSorted ∧ s.sleepingList ⊆ s'.sleepingList := by
  unfold Sched.threadSleepHead at run
  split at run
  · cases run
    exact ⟨h, List.Subset.refl _⟩
  · cases run
    have away : s.current ∉ s.sleepingList :=
      inv.settled.away s.current (fun _ => .inl (List.mem_singleton_self _)) .sleeping
    have kept : SameSleepers s (s.setThread s.current fun thread =>
        { thread with status := .sleeping, wakeTime := s.ticks + ticks }) := by
      refine ⟨rfl, fun t mem => ?_⟩
      have ne : t ≠ s.current := fun eq => away (eq ▸ mem)
      simp only [wakeTime, setThread, Function.update_of_ne ne]
    have ordered := (ordered_sleepers_iff.mpr (h.congr kept)).insertOrdered s.current
    exact ⟨ordered_sleepers_iff.mp ordered, fun t mem => (mem_insertOrdered _).mpr (.inr mem)⟩

/-- What `schedule` does to the sleepers: the first one goes, if it is due. -/
theorem schedule_sleepers (run : s.schedule = .ok s') :
    s'.ticks = s.ticks ∧ s'.wakeTime = s.wakeTime ∧
      (s'.sleepingList = s.sleepingList ∧ (∀ t ∈ s.sleepingList.head?, ¬s.Due t) ∨
        ∃ t, s.Due t ∧ s.sleepingList = t :: s'.sleepingList) := by
  have woken : s.wakeSleeper.ticks = s.ticks ∧ s.wakeSleeper.wakeTime = s.wakeTime ∧
      (s.wakeSleeper.sleepingList = s.sleepingList ∧ (∀ t ∈ s.sleepingList.head?, ¬s.Due t) ∨
        ∃ t, s.Due t ∧ s.sleepingList = t :: s.wakeSleeper.sleepingList) := by
    unfold wakeSleeper
    split
    next empty => exact ⟨rfl, rfl, .inl ⟨rfl, by simp [empty]⟩⟩
    next t rest list =>
      split
      next due =>
        exact ⟨rfl, setStatus_wakeTime { s with sleepingList := rest, readyList := _ } t .ready,
          .inr ⟨t, due, list⟩⟩
      next early =>
        refine ⟨rfl, rfl, .inl ⟨rfl, ?_⟩⟩
        rw [list]
        rintro _ ⟨⟩
        exact early
  unfold schedule at run
  generalize s.wakeSleeper = w at run woken
  have popped : w.nextThreadToRun.2.ticks = w.ticks ∧
      w.nextThreadToRun.2.wakeTime = w.wakeTime ∧
      w.nextThreadToRun.2.sleepingList = w.sleepingList := by
    unfold nextThreadToRun
    split <;> exact ⟨rfl, rfl, rfl⟩
  generalize w.nextThreadToRun = r at run popped
  dsimp only at run
  split at run
  · cases run
  · split at run
    · cases run
    next next _ =>
      cases run
      obtain ⟨ticks, wake, list⟩ := popped
      have same : (r.2.threadScheduleTail next).wakeTime = r.2.wakeTime :=
        setStatus_wakeTime { r.2 with current := next, threadTicks := 0 } next .running
      refine ⟨ticks.trans woken.1, same.trans (wake.trans woken.2.1), ?_⟩
      rw [show (r.2.threadScheduleTail next).sleepingList = w.sleepingList from list]
      exact woken.2.2

theorem schedule_early (run : s.schedule = .ok s') {t : Tid} (mem : t ∈ s.sleepingList)
    (left : t ∉ s'.sleepingList) : s.Due t := by
  obtain ⟨-, -, ⟨same, -⟩ | ⟨first, due, list⟩⟩ := schedule_sleepers run
  · rw [same] at left
    exact absurd mem left
  · rw [list] at mem
    rcases List.mem_cons.mp mem with rfl | rest
    · exact due
    · exact absurd rest left

theorem SleepersSorted.schedule (h : s.SleepersSorted) (run : s.schedule = .ok s') :
    s'.SleepersSorted := by
  obtain ⟨-, wake, list⟩ := schedule_sleepers run
  unfold SleepersSorted at h ⊢
  rw [wake]
  rcases list with ⟨same, -⟩ | ⟨first, -, list⟩
  · rw [same]
    exact h
  · rw [list] at h
    exact (List.pairwise_cons.mp h).2

/-- Where the first sleeper is not due, none is. -/
theorem SleepersSorted.none_due (h : s.SleepersSorted)
    (early : ∀ t ∈ s.sleepingList.head?, ¬s.Due t) {u : Tid} (mem : u ∈ s.sleepingList) :
    ¬s.Due u := by
  unfold SleepersSorted at h
  cases list : s.sleepingList with
  | nil =>
    rw [list] at mem
    cases mem
  | cons t rest =>
    rw [list] at h mem early
    have first : ¬s.Due t := early t rfl
    rcases List.mem_cons.mp mem with rfl | behind
    · exact first
    · intro due
      exact first (((List.pairwise_cons.mp h).1 u behind).trans due)

/-- One call of `schedule` leaves no thread that is due exactly when it finds at most one. -/
theorem SleepersSorted.late_iff (h : s.SleepersSorted) (run : s.schedule = .ok s') :
    (∀ t ∈ s'.sleepingList, ¬s'.Due t) ↔ s.sleepingList.countP (fun t => s.Due t) ≤ 1 := by
  obtain ⟨ticks, wake, list⟩ := schedule_sleepers run
  have due : ∀ t, s'.Due t ↔ s.Due t := by
    intro t
    unfold Due
    rw [ticks, wake]
  simp only [due]
  rcases list with ⟨same, early⟩ | ⟨first, now, list⟩
  · have none : s.sleepingList.countP (fun t => s.Due t) = 0 :=
      List.countP_eq_zero.mpr fun t mem => by simpa using h.none_due early mem
    rw [same, none]
    exact iff_of_true (fun t mem => h.none_due early mem) (Nat.zero_le 1)
  · rw [list, List.countP_cons, if_pos (decide_eq_true now), Nat.succ_le_succ_iff, Nat.le_zero,
      List.countP_eq_zero]
    simp only [decide_eq_true_eq]

end Frame

section Runs

variable {s s' m : Sched} {act : Act} {b : Bool}

theorem next_head (run : s.next act = some s') :
    ∃ m b, s.head act = .ok (m, b) ∧ finish (m, b) = .ok s' := by
  have step := next_eq run
  rw [step_eq_head] at step
  obtain ⟨⟨m, b⟩, head, finished⟩ := bind_ok step
  exact ⟨m, b, head, finished⟩

theorem Inv.next (inv : s.Inv) (enabled : s.Enabled act) (run : s.next act = some s') :
    s'.Inv := by
  obtain ⟨after, eq, inv'⟩ | fault := step_good inv enabled
  · obtain rfl := Except.ok.inj (eq.symm.trans (next_eq run))
    exact inv'
  · cases fault.symm.trans (next_eq run)

theorem SleepersSorted.head (h : s.SleepersSorted) (inv : s.Inv)
    (run : s.head act = .ok (m, b)) : m.SleepersSorted ∧ s.sleepingList ⊆ m.sleepingList := by
  rcases head_sleepers inv run with same | ⟨ticks, rfl, slept⟩
  · exact ⟨h.congr same, same.list ▸ List.Subset.refl _⟩
  · exact h.threadSleepHead inv slept

theorem SleepersSorted.next (h : s.SleepersSorted) (inv : s.Inv) (run : s.next act = some s') :
    s'.SleepersSorted := by
  obtain ⟨m, b, head, finished⟩ := next_head run
  have sorted := (h.head inv head).1
  cases b with
  | false =>
    cases finished
    exact sorted
  | true => exact sorted.schedule finished

/-- What all states of a run have. -/
structure SleepInv (s : Sched) : Prop where
  inv : s.Inv
  sorted : s.SleepersSorted

theorem SleepInv.step {l : SleepAct} (h : s.SleepInv) (run : s.sleepStep l = some s') :
    s'.SleepInv := by
  cases l with
  | sched act =>
    unfold sleepStep at run
    dsimp only at run
    split at run
    next enabled => exact ⟨h.inv.next enabled run, h.sorted.next h.inv run⟩
    next => cases run
  | ticks n =>
    cases run
    exact ⟨h.inv.of_ticks _ _, h.sorted⟩

theorem SleepInv.noneEarly (h : s.SleepInv) (l : SleepAct) : s.NoneEarly l := by
  cases l with
  | sched act =>
    intro m b head
    refine ⟨(h.sorted.head h.inv head).2, fun _ s' run t mem left => ?_⟩
    exact schedule_early run mem left
  | ticks n => trivial

theorem SleepInv.noneLate_iff (h : s.SleepInv) {l : SleepAct} (run : s.sleepStep l = some s') :
    s.NoneLate l ↔ s.OneDue l := by
  cases l with
  | sched act =>
    unfold sleepStep at run
    dsimp only at run
    split at run
    · obtain ⟨m, b, head, finished⟩ := next_head run
      have only : ∀ n, s.head act = .ok (n, true) → n = m ∧ b = true := fun n eq =>
        Prod.mk.inj (Except.ok.inj (eq.symm.trans head)) |>.imp id Eq.symm
      cases b with
      | false =>
        constructor
        · intro _ n eq
          cases (only n eq).2
        · intro _ n eq
          cases (only n eq).2
      | true =>
        have late := (h.sorted.head h.inv head).1.late_iff finished
        constructor
        · intro awake n eq
          rw [(only n eq).1]
          exact late.mp (awake m head s' finished)
        · intro one n eq after again
          obtain ⟨rfl, -⟩ := only n eq
          obtain rfl := Except.ok.inj (finished.symm.trans again)
          exact late.mpr (one n head)
    · cases run
  | ticks n => exact Iff.rfl

end Runs

/-- `sleeping_list` stays sorted and no thread wakes early.  None wakes late exactly when each call
of `schedule` finds at most one thread that is due. -/
theorem sleepers_wake_iff (values : Nat → UInt32) (acts : List SleepAct) :
    Always sleepStep SleepersSorted (threadInit values) acts ∧
      Each sleepStep NoneEarly (threadInit values) acts ∧
      (Each sleepStep NoneLate (threadInit values) acts ↔
        Each sleepStep OneDue (threadInit values) acts) := by
  have init : (threadInit values).SleepInv := ⟨threadInit_inv values, List.Pairwise.nil⟩
  have keep : ∀ (s : Sched) l s', s.SleepInv → s.sleepStep l = some s' → s'.SleepInv :=
    fun _ _ _ inv => inv.step
  refine ⟨always_of_inv keep (fun _ inv => inv.sorted) acts init,
    each_of_inv keep (fun _ l _ inv _ => inv.noneEarly l) acts init, ?_⟩
  exact each_iff_each keep (fun _ _ _ inv => inv.noneLate_iff) acts init

/-- Two threads sleep until tick 5, and the call of `schedule` at that tick wakes one of them. -/
theorem sleeper_left_late :
    ∃ acts, ¬Each sleepStep NoneLate (threadInit fun _ => 0) acts := by
  refine ⟨[.sched (.threadCreate 0), .sched (.threadCreate 31), .sched (.threadSleep 5),
    .sched (.threadSleep 5), .sched .becomeIdle, .ticks 5] ++ [.sched .idleBlock], fun each => ?_⟩
  have ran : (exec sleepStep (threadInit fun _ => 0) [.sched (.threadCreate 0),
      .sched (.threadCreate 31), .sched (.threadSleep 5), .sched (.threadSleep 5),
      .sched .becomeIdle, .ticks 5]).any (fun s => (s.sleepStep (.sched .idleBlock)).any fun s' =>
        decide (3 ∈ s'.sleepingList ∧ s'.Due 3)) = true := by decide
  obtain ⟨s, run, ran⟩ := (Option.any_eq_true _ _).mp ran
  obtain ⟨s', final, ran⟩ := (Option.any_eq_true _ _).mp ran
  obtain ⟨mem, due⟩ := of_decide_eq_true ran
  have late : s.NoneLate (.sched .idleBlock) := each.last run final
  have woke : s.next .idleBlock = some s' := by
    unfold sleepStep at final
    dsimp only at final
    split at final
    · exact final
    · cases final
  exact late (s.setStatus s.current .blocked) rfl s' (next_eq woke) 3 mem due

end Sched

end Pintos.Threads
