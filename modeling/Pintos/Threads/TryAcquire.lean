import Pintos.Threads.Lock

/-! `lock_try_acquire` among the other calls.  It takes the permit of a lock and sets its `holder`,
but does not put the lock into the thread's `lock_list`. -/

namespace Pintos.Threads

open Transition OrderedList

namespace Locks

/-- What a step can do to the ownership of the locks: a new owner finds a permit, and where an owner
or a permit goes, a permit or an owner comes. -/
structure Passes (s s' : Locks) : Prop where
  nodup : ∀ u, (s.lockList u).Nodup → (∀ l, (s.pc u).owns = some l → l ∉ s.lockList u) →
    (s'.lockList u).Nodup
  fresh : ∀ u l, s'.Owns u l → s.Owns u l ∨ (s.semaphore l).value ≠ 0
  value : ∀ l, (s'.semaphore l).value = (s.semaphore l).value ∧ (∀ u, s.Owns u l → s'.Owns u l) ∨
    (s.semaphore l).value ≠ 0 ∧ (∃ u, s'.Owns u l) ∨
    (∃ u, s.Owns u l) ∧ (s'.semaphore l).value ≠ 0

section Step

variable {s s' : Locks} {t : Tid} {a b : LockPc} {lock : LockId} {list : List LockId}

theorem Passes.of_same (semaphore : s'.semaphore = s.semaphore) (locks : s'.lockList = s.lockList)
    (owns : ∀ u, (s'.pc u).owns = (s.pc u).owns) : Passes s s' := by
  have same : ∀ u l, s'.Owns u l ↔ s.Owns u l := by
    intro u l
    unfold Owns
    rw [locks, owns]
  refine ⟨fun u nodup _ => ?_, fun u l own => .inl ((same u l).mp own), fun l => .inl ⟨?_, ?_⟩⟩
  · rw [locks]
    exact nodup
  · rw [semaphore]
  · exact fun u => (same u l).mpr

theorem Moved.passes (m : Moved s s' t a b list)
    (kept : ∀ l, l ∈ s.lockList t ∨ a.owns = some l → l ∈ list ∨ b.owns = some l)
    (nodup : (s.lockList t).Nodup → (∀ l, a.owns = some l → l ∉ s.lockList t) → list.Nodup) :
    Passes s s' := by
  refine ⟨fun u old out => ?_, fun u l own => .inl (m.apart.owns (fun l own => ?_) u l own),
    fun l => .inl ⟨?_, fun u own => ?_⟩⟩
  · by_cases same : u = t
    · rw [same, m.place] at out
      rw [same] at old
      rw [same, m.list_eq]
      exact nodup old out
    · rw [m.apart.locks u same]
      exact old
  · rw [Owns, m.list_eq, m.place'] at own
    rw [Owns, m.place]
    exact m.owns l own
  · rw [m.semaphore]
  · by_cases same : u = t
    · rw [same, Owns, m.place] at own
      rw [same, Owns, m.list_eq, m.place']
      exact kept l own
    · rw [Owns, m.apart.locks u same, m.apart.pc u same]
      exact own

theorem Advanced.passes (m : Advanced s s' t a b) : Passes s s' := by
  refine .of_same m.semaphore (funext fun u => ?_) fun u => ?_
  · by_cases same : u = t
    · rw [same, m.list]
    · exact m.apart.locks u same
  · by_cases same : u = t
    · rw [same, m.place, m.place', m.owns]
    · rw [m.apart.pc u same]

/-- `lock_acquire` up to `sema_down`. -/
theorem lockAcquire_raised (run : s.lockAcquire t lock = some s') :
    s.pc t = .idle ∧ ∃ p after, Raised p { s with
      waitLockList := Function.update s.waitLockList t (s.waitLockList t ++ [lock]) } after ∧
      s' = after.at_ t (.testing lock) := by
  unfold lockAcquire at run
  split at run
  next guard =>
    obtain ⟨after, call, same⟩ := Option.map_eq_some_iff.mp run
    exact ⟨guard.2.1, _, after, (donateLock_reached call).toRaised, same.symm⟩
  next => cases run

theorem lockAcquire_passes (run : s.lockAcquire t lock = some s') : Passes s s' := by
  obtain ⟨idle, p, after, raised, rfl⟩ := lockAcquire_raised run
  refine .of_same raised.semaphore raised.locks fun u => ?_
  by_cases same : u = t
  · rw [same, at_self, idle]
    rfl
  · rw [at_of_ne _ _ same, raised.pc]

theorem threadSetPriority_passes {new : Int} (run : s.threadSetPriority t new = some s') :
    Passes s s' := by
  unfold threadSetPriority at run
  split at run
  · cases run
    exact .of_same rfl rfl fun _ => rfl
  · cases run

theorem setSemaphore_value (s : Locks) (lock : LockId) (sema : Semaphore) (l : LockId) :
    ((s.setSemaphore lock sema).semaphore l).value =
      if l = lock then sema.value else (s.semaphore l).value := by
  by_cases same : l = lock
  · rw [if_pos same, same, setSemaphore_self]
  · rw [if_neg same, setSemaphore_of_ne _ _ same]

theorem test_passes (place : s.pc t = .testing lock) : Passes s (s.test t lock) := by
  by_cases down : (s.semaphore lock).value = 0
  · have same : ∀ u l, (s.test t lock).Owns u l ↔ s.Owns u l := by
      intro u l
      rw [test, semaTest, if_pos down]
      by_cases at_t : u = t
      · rw [Owns, Owns, at_t, at_self, place]
        rfl
      · rw [Owns, Owns, at_of_ne _ _ at_t]
        rfl
    refine ⟨fun u nodup _ => nodup, fun u l own => .inl ((same u l).mp own),
      fun l => .inl ⟨?_, fun u => (same u l).mpr⟩⟩
    rw [test, semaTest, if_pos down]
    refine (setSemaphore_value ..).trans ?_
    split
    next eq => rw [eq]
    next => rfl
  · have taken : ∀ u l, (s.test t lock).Owns u l ↔ s.Owns u l ∨ u = t ∧ l = lock := by
      intro u l
      rw [test, semaTest, if_neg down]
      by_cases at_t : u = t
      · rw [Owns, Owns, at_t, at_self, place]
        simp [LockPc.owns, Locks.at_, setSemaphore, eq_comm]
      · rw [Owns, Owns, at_of_ne _ _ at_t]
        simp [at_t, Locks.at_, setSemaphore]
    refine ⟨fun u nodup _ => nodup, fun u l own => ?_, fun l => ?_⟩
    · refine ((taken u l).mp own).imp_right fun new => ?_
      rw [new.2]
      exact down
    · by_cases same : l = lock
      · subst same
        exact .inr (.inl ⟨down, t, (taken t l).mpr (.inr ⟨rfl, rfl⟩)⟩)
      · refine .inl ⟨?_, fun u own => (taken u l).mpr (.inl own)⟩
        rw [test, semaTest, if_neg down]
        exact (setSemaphore_value ..).trans (if_neg same)

/-- The woken thread was blocked, and owns no more than before. -/
theorem wake_owns (h : s.Queued) (lock : LockId) (u : Tid) (l : LockId) :
    (s.wake lock).Owns u l ↔ s.Owns u l := by
  by_cases empty : (s.semaphore lock).waiters = []
  · rw [wake, semaUp_none s.priority empty]
    rfl
  · obtain ⟨w, rest, perm, eq⟩ := semaUp_some s.priority empty
    have blocked := h.waiters lock w (perm.subset List.mem_cons_self)
    rw [wake, eq]
    by_cases same : u = w
    · rw [same]
      simp [Owns, blocked, LockPc.owns, Locks.at_, setSemaphore]
    · simp [Owns, Locks.at_, setSemaphore, same]

theorem wake_value (s : Locks) (lock l : LockId) :
    ((s.wake lock).semaphore l).value =
      if l = lock then (s.semaphore lock).value + 1 else (s.semaphore l).value := by
  by_cases empty : (s.semaphore lock).waiters = []
  · rw [wake, semaUp_none s.priority empty]
    exact setSemaphore_value ..
  · obtain ⟨w, rest, perm, eq⟩ := semaUp_some s.priority empty
    rw [wake, eq]
    exact setSemaphore_value ..

theorem wake_lockList (s : Locks) (lock : LockId) : (s.wake lock).lockList = s.lockList := by
  unfold wake
  dsimp only
  split <;> rfl

theorem raising_passes (h : s.Records) (place : s.pc t = .raising lock) :
    Passes s ((s.at_ t .idle).wake lock) := by
  have moved := raising_moved h place
  have queued := (moved.records h).queued
  have own : s.Owns t lock := .inr (by rw [place]; rfl)
  refine ⟨fun u nodup _ => ?_, fun u l new => ?_, fun l => ?_⟩
  · rw [wake_lockList]
    exact nodup
  · refine .inl (moved.apart.owns (fun l own => ?_) u l ((wake_owns queued lock u l).mp new))
    rw [Owns, at_self] at own
    exact .inl (own.resolve_right fun waits => by cases waits)
  · rw [wake_value]
    by_cases same : l = lock
    · subst same
      refine .inr (.inr ⟨⟨t, own⟩, ?_⟩)
      rw [if_pos rfl]
      change (s.semaphore l).value + 1 ≠ 0
      rw [h.permits.down t l own]
      decide
    · refine .inl ⟨if_neg same, fun u owns => (wake_owns queued lock u l).mpr ?_⟩
      by_cases at_t : u = t
      · rw [at_t, Owns, place] at owns
        rw [at_t]
        exact .inl (owns.resolve_right fun eq => same (Option.some.inj eq).symm)
      · rw [Owns, at_of_ne _ _ at_t]
        exact owns

theorem advance_passes (h : s.Records) (run : s.advance t = some s') : Passes s s' := by
  unfold advance at run
  cases place : s.pc t <;> simp only [place] at run
  case idle => cases run
  case blocked lock => cases run
  all_goals obtain rfl := Option.some.inj run
  case testing lock => exact test_passes place
  case settingHolder lock => exact (settingHolder_advanced h place).passes
  case removingWait lock =>
    exact (removingWait_moved h place).passes (fun _ => id) fun nodup _ => nodup
  case settingPriority lock => exact (settingPriority_advanced h place).passes
  case inserting lock =>
    refine (inserting_moved h place).passes (fun l => ?_) fun nodup out => ?_
    · simp [LockPc.owns, or_comm, eq_comm]
    · exact (insertOrdered_perm _ _ _).nodup_iff.mpr (List.nodup_cons.mpr ⟨out lock rfl, nodup⟩)
  case sorting lock =>
    refine (sorting_moved h place).passes (fun l => ?_) fun nodup _ => ?_
    · simp [LockPc.owns]
    · exact (sortOrdered_perm _ _).nodup_iff.mpr nodup
  case restoring lock => exact (restoring_advanced h place).passes
  case clearingHolder lock => exact (clearingHolder_advanced h place).passes
  case raising lock => exact raising_passes h place

theorem lockRelease_passes (h : s.Records) (run : s.lockRelease t lock = some s') :
    Passes s s' := by
  obtain ⟨moved, listed⟩ := lockRelease_moved h run
  refine moved.passes (fun l own => ?_) fun nodup _ => nodup.filter _
  by_cases same : l = lock
  · exact .inr (congrArg some same.symm)
  · exact .inl (List.mem_filter.mpr ⟨own.resolve_right nofun, decide_eq_true same⟩)

theorem step_records {act : LockAct} (h : s.Records) (run : s.step act = some s') :
    s'.Records := by
  cases act with
  | acquire t lock =>
    obtain ⟨idle, p, after, raised, rfl⟩ := lockAcquire_raised run
    exact (acquired_records h idle raised).2
  | release t lock => exact (lockRelease_moved h run).1.records h
  | setPriority t new => exact threadSetPriority_records h run
  | advance t =>
    unfold step at run
    dsimp only at run
    split at run
    next live => exact advance_records h live run
    next => cases run

theorem step_passes {act : LockAct} (h : s.Records) (run : s.step act = some s') :
    Passes s s' := by
  cases act with
  | acquire t lock => exact lockAcquire_passes run
  | release t lock => exact lockRelease_passes h run
  | setPriority t new => exact threadSetPriority_passes run
  | advance t =>
    unfold step at run
    dsimp only at run
    split at run
    · exact advance_passes h run
    · cases run

end Step

end Locks

/-- The next statement of a thread in `lock_try_acquire` of a lock. -/
inductive TryPc
  | tryDown (lock : LockId)
  | settingHolder (lock : LockId)
  deriving DecidableEq

structure TryLocks where
  locks : Locks
  trying : Tid → Option TryPc

/-- The thread that takes a step. -/
def Locks.LockAct.thread : Locks.LockAct → Tid
  | .acquire t _ | .release t _ | .setPriority t _ | .advance t => t

namespace TryLocks

def init (threads : List Tid) (priority : Tid → Int) (lockPriority : LockId → Int) : TryLocks :=
  ⟨.init threads priority lockPriority, fun _ => none⟩

def setTrying (s : TryLocks) (t : Tid) (trying : Option TryPc) : TryLocks :=
  { s with trying := Function.update s.trying t trying }

/-- `if (holder->priority < cur->priority) holder->priority = cur->priority`, if there is one. -/
def raiseHolder (locks : Locks) (lock : LockId) (t : Tid) : Locks :=
  match locks.holder lock with
  | none => locks
  | some h =>
    if locks.priority h < locks.priority t then locks.setPriority h (locks.priority t) else locks

/-- `lock_try_acquire` up to `sema_try_down`. -/
def lockTryAcquire (s : TryLocks) (t : Tid) (lock : LockId) : Option TryLocks :=
  if t ∈ s.locks.threads ∧ s.locks.pc t = .idle ∧ s.trying t = none ∧
      s.locks.holder lock ≠ some t then
    some ({ s with locks := raiseHolder s.locks lock t }.setTrying t (some (.tryDown lock)))
  else none

/-- The next statement of `lock_try_acquire`. -/
def tryAdvance (s : TryLocks) (t : Tid) : Option TryLocks :=
  match s.trying t with
  | none => none
  | some (.tryDown lock) =>
    let result := semaTryDown (s.locks.semaphore lock)
    some ({ s with locks := s.locks.setSemaphore lock result.1 }.setTrying t
      (if result.2 then some (.settingHolder lock) else none))
  | some (.settingHolder lock) =>
    some ({ s with locks := s.locks.setHolder lock (some t) }.setTrying t none)

inductive TryAct
  | lock (act : Locks.LockAct)
  | tryAcquire (t : Tid) (lock : LockId)
  | tryAdvance (t : Tid)

def step (s : TryLocks) : TryAct → Option TryLocks
  | .lock act =>
    if s.trying act.thread = none then (s.locks.step act).map fun locks => { s with locks := locks }
    else none
  | .tryAcquire t lock => s.lockTryAcquire t lock
  | .tryAdvance t => s.tryAdvance t

/-- A call that acquires or releases the lock is under way. -/
def InHand (s : TryLocks) (lock : LockId) : Prop :=
  ∃ t, (s.locks.pc t).owns = some lock ∨ s.trying t = some (.settingHolder lock)

/-- The records of a lock agree: its `holder`, the lists of the threads, and its semaphore. -/
def Agrees (s : TryLocks) (lock : LockId) : Prop :=
  (∀ t, s.locks.holder lock = some t ↔ (s.locks.lockList t).count lock = 1) ∧
    (s.locks.semaphore lock).value = if s.locks.holder lock = none then 1 else 0

def AllAgree (s : TryLocks) : Prop := ∀ lock, ¬s.InHand lock → s.Agrees lock

/-- `lock_release` unlinks a lock that is in the list of the thread. -/
def Unlinks (s : TryLocks) : TryAct → Prop
  | .lock (.release t lock) => lock ∈ s.locks.lockList t
  | _ => True

/-- No `lock_try_acquire` comes to a lock that it has got. -/
def NoneGot (s : TryLocks) : TryAct → Prop
  | .tryAdvance t => ∀ lock, s.trying t ≠ some (.settingHolder lock)
  | _ => True

/-- A lock without permit has an owner or is in the hands of one `lock_try_acquire`. -/
structure Inv (s : TryLocks) : Prop where
  records : s.locks.Records
  nodup : ∀ t, (s.locks.lockList t).Nodup
  taken : ∀ lock, (s.locks.semaphore lock).value = 0 →
    (∃ t, s.locks.Owns t lock) ∨ ∃ t, s.trying t = some (.settingHolder lock)
  alone : ∀ t lock, s.trying t = some (.settingHolder lock) →
    (s.locks.semaphore lock).value = 0 ∧ (∀ u, ¬s.locks.Owns u lock) ∧
      ∀ u, s.trying u = some (.settingHolder lock) → u = t

section Run

variable {s s' : TryLocks} {t : Tid} {lock : LockId}

theorem Inv.agrees (h : s.Inv) : s.AllAgree := by
  intro lock quiet
  have holder : ∀ t, s.locks.holder lock = some t ↔ lock ∈ s.locks.lockList t := by
    intro t
    rw [h.records.owned.holder]
    refine ⟨fun held => held.resolve_right fun holds => ?_, .inl⟩
    exact quiet ⟨t, .inl (LockPc.owns_of_holds holds)⟩
  refine ⟨fun t => (holder t).trans ?_, ?_⟩
  · rw [(h.nodup t).count]
    split <;> simp_all
  · split
    next free =>
      refine (h.records.permits.value lock).resolve_left fun down => ?_
      rcases h.taken lock down with ⟨t, listed | owns⟩ | ⟨t, got⟩
      · cases free.symm.trans ((holder t).mpr listed)
      · exact quiet ⟨t, .inl owns⟩
      · exact quiet ⟨t, .inr got⟩
    next held =>
      obtain ⟨t, held⟩ := Option.ne_none_iff_exists'.mp held
      exact h.records.permits.down t lock (.inl ((holder t).mp held))

theorem Inv.unlinks (h : s.Inv) {act : TryAct} (run : s.step act = some s') : s.Unlinks act := by
  cases act with
  | lock act =>
    unfold step at run
    dsimp only at run
    split at run
    next =>
      obtain ⟨locks, run, -⟩ := Option.map_eq_some_iff.mp run
      cases act with
      | release t lock => exact (Locks.lockRelease_moved h.records run).2
      | acquire t lock => trivial
      | setPriority t new => trivial
      | advance t => trivial
    next => cases run
  | tryAcquire t lock => trivial
  | tryAdvance t => trivial

/-- A step of the other calls. -/
theorem Inv.locks (h : s.Inv) {locks : Locks} (records : locks.Records)
    (passes : Locks.Passes s.locks locks) : Inv { s with locks := locks } := by
  refine ⟨records, fun t => ?_, fun lock down => ?_, fun t lock got => ?_⟩
  · exact passes.nodup t (h.nodup t) (h.records.owned.exclusive t)
  · rcases passes.value lock with ⟨same, kept⟩ | ⟨-, owner⟩ | ⟨-, up⟩
    · rcases h.taken lock (same.symm.trans down) with ⟨t, owns⟩ | got
      · exact .inl ⟨t, kept t owns⟩
      · exact .inr got
    · exact .inl owner
    · exact absurd down up
  · obtain ⟨down, alone, only⟩ := h.alone t lock got
    refine ⟨?_, fun u owns => ?_, only⟩
    · rcases passes.value lock with ⟨same, -⟩ | ⟨up, -⟩ | ⟨⟨u, owns⟩, -⟩
      · exact same.trans down
      · exact absurd down up
      · exact absurd owns (alone u)
    · exact (passes.fresh u lock owns).elim (alone u) fun up => up down

theorem setTrying_self (s : TryLocks) (t : Tid) (x : Option TryPc) :
    (s.setTrying t x).trying t = x :=
  Function.update_self ..

theorem setTrying_of_ne (s : TryLocks) {t u : Tid} (x : Option TryPc) (ne : u ≠ t) :
    (s.setTrying t x).trying u = s.trying u :=
  Function.update_of_ne ne ..

/-- A thread that has not got a lock goes on in `lock_try_acquire`. -/
theorem Inv.setTrying (h : s.Inv) {x : Option TryPc}
    (before : ∀ lock, s.trying t ≠ some (.settingHolder lock))
    (after : ∀ lock, x ≠ some (.settingHolder lock)) : (s.setTrying t x).Inv := by
  have same : ∀ u lock, (s.setTrying t x).trying u = some (.settingHolder lock) ↔
      s.trying u = some (.settingHolder lock) := by
    intro u lock
    by_cases at_t : u = t
    · subst at_t
      rw [setTrying_self]
      exact iff_of_false (after lock) (before lock)
    · rw [setTrying_of_ne _ _ at_t]
  refine ⟨h.records, h.nodup, fun lock down => ?_, fun u lock got => ?_⟩
  · refine (h.taken lock down).imp_right fun got => ?_
    obtain ⟨u, got⟩ := got
    exact ⟨u, (same u lock).mpr got⟩
  · obtain ⟨down, alone, only⟩ := h.alone u lock ((same u lock).mp got)
    exact ⟨down, alone, fun v got' => only v ((same v lock).mp got')⟩

theorem Inv.lockTryAcquire (h : s.Inv) (run : s.lockTryAcquire t lock = some s') : s'.Inv := by
  unfold TryLocks.lockTryAcquire at run
  split at run
  next guard =>
    cases run
    refine Inv.setTrying ?_ (fun l got => ?_) fun _ => nofun
    · unfold raiseHolder
      split
      · exact h
      · split
        · refine h.locks ⟨⟨h.records.queued.waits, h.records.queued.waiters,
            h.records.queued.distinct⟩, ⟨h.records.permits.value, h.records.permits.down⟩,
            ⟨h.records.owned.live, h.records.owned.unique, h.records.owned.exclusive,
              h.records.owned.holder⟩⟩ ?_
          exact .of_same rfl rfl fun _ => rfl
        · exact h
    · cases guard.2.2.1.symm.trans got
  next => cases run

/-- `lock_try_acquire` takes the permit of a lock that has no owner. -/
theorem Inv.take (h : s.Inv) (up : (s.locks.semaphore lock).value ≠ 0)
    (before : ∀ l, s.trying t ≠ some (.settingHolder l)) :
    Inv ({ s with locks := s.locks.setSemaphore lock { s.locks.semaphore lock with
      value := (s.locks.semaphore lock).value - 1 } }.setTrying t
        (some (.settingHolder lock))) := by
  generalize taken : ({ s.locks.semaphore lock with
    value := (s.locks.semaphore lock).value - 1 } : Semaphore) = sema
  have value : sema.value = 0 := by
    rw [← taken, (h.records.permits.value lock).resolve_left up]
    rfl
  have waiters : ∀ l, ((s.locks.setSemaphore lock sema).semaphore l).waiters =
      (s.locks.semaphore l).waiters := by
    intro l
    by_cases same : l = lock
    · rw [same, Locks.setSemaphore_self, ← taken]
    · rw [Locks.setSemaphore_of_ne _ _ same]
  have free : ∀ u, ¬s.locks.Owns u lock := fun u owns => up (h.records.permits.down u lock owns)
  have nobody : ∀ u, s.trying u ≠ some (.settingHolder lock) := fun u got =>
    up (h.alone u lock got).1
  have queued : (s.locks.setSemaphore lock sema).Queued := by
    refine ⟨h.records.queued.waits, fun l w mem => ?_, fun l => ?_⟩
    · rw [waiters] at mem
      exact h.records.queued.waiters l w mem
    · rw [waiters]
      exact h.records.queued.distinct l
  refine ⟨⟨queued, h.records.permits.set rfl (.inl value) (fun _ _ => value) fun _ _ _ => id,
    ⟨h.records.owned.live, h.records.owned.unique, h.records.owned.exclusive,
      h.records.owned.holder⟩⟩, h.nodup, fun l down => ?_, fun u l got => ?_⟩
  · by_cases same : l = lock
    · subst same
      exact .inr ⟨t, setTrying_self ..⟩
    · have down : (s.locks.semaphore l).value = 0 :=
        ((Locks.setSemaphore_value ..).trans (if_neg same)).symm.trans down
      refine (h.taken l down).imp_right fun got => ?_
      obtain ⟨u, got⟩ := got
      have ne : u ≠ t := by
        rintro rfl
        exact before l got
      exact ⟨u, (setTrying_of_ne _ _ ne).trans got⟩
  · by_cases at_t : u = t
    · subst at_t
      rw [setTrying_self] at got
      cases got
      refine ⟨(Locks.setSemaphore_value ..).trans ((if_pos rfl).trans value), free,
        fun v got => ?_⟩
      by_contra ne
      rw [setTrying_of_ne _ _ ne] at got
      exact nobody v got
    · rw [setTrying_of_ne _ _ at_t] at got
      have same : l ≠ lock := by
        rintro rfl
        exact nobody u got
      obtain ⟨down, alone, only⟩ := h.alone u l got
      refine ⟨(Locks.setSemaphore_value ..).trans ((if_neg same).trans down), alone,
        fun v got' => ?_⟩
      by_cases v_t : v = t
      · subst v_t
        rw [setTrying_self] at got'
        cases got'
        exact absurd rfl same
      · rw [setTrying_of_ne _ _ v_t] at got'
        exact only v got'

theorem Inv.tryAdvance (h : s.Inv) (none_got : s.NoneGot (.tryAdvance t))
    (run : s.tryAdvance t = some s') : s'.Inv := by
  unfold TryLocks.tryAdvance at run
  split at run
  next => cases run
  next lock _ =>
    cases run
    by_cases up : (s.locks.semaphore lock).value > 0
    · have ne : (s.locks.semaphore lock).value ≠ 0 := fun down => by
        rw [down] at up
        exact absurd up (by decide)
      rw [semaTryDown, if_pos up]
      exact h.take ne none_got
    · rw [semaTryDown, if_neg up, Locks.setSemaphore, Function.update_eq_self]
      exact h.setTrying none_got fun _ => nofun
  next lock got => exact absurd got (none_got lock)

theorem Inv.step {act : TryAct} (h : s.Inv) (none_got : s.NoneGot act)
    (run : s.step act = some s') : s'.Inv := by
  cases act with
  | lock act =>
    unfold TryLocks.step at run
    dsimp only at run
    split at run
    next =>
      obtain ⟨locks, locks_run, rfl⟩ := Option.map_eq_some_iff.mp run
      exact h.locks (Locks.step_records h.records locks_run)
        (Locks.step_passes h.records locks_run)
    next => cases run
  | tryAcquire t lock => exact h.lockTryAcquire run
  | tryAdvance t => exact h.tryAdvance none_got run

/-- A `lock_try_acquire` that gets its lock leaves it out of the thread's list. -/
theorem Inv.noneGot (h : s.Inv) {act : TryAct} (run : s.step act = some s')
    (agree : s'.AllAgree) : s.NoneGot act := by
  cases act with
  | lock act => trivial
  | tryAcquire t lock => trivial
  | tryAdvance t =>
    intro lock got
    obtain ⟨-, alone, only⟩ := h.alone t lock got
    unfold TryLocks.step TryLocks.tryAdvance at run
    dsimp only at run
    rw [got] at run
    cases run
    have quiet : ¬({ s with locks := s.locks.setHolder lock (some t) }.setTrying t none).InHand
        lock := by
      rintro ⟨u, owns | got'⟩
      · exact alone u (.inr owns)
      · by_cases at_t : u = t
        · rw [at_t, setTrying_self] at got'
          cases got'
        · rw [setTrying_of_ne _ _ at_t] at got'
          exact at_t (only u got')
    have count := ((agree lock quiet).1 t).mp (Locks.setHolder_self ..)
    refine alone t (.inl (List.count_pos_iff.mp ?_))
    rw [show (s.locks.lockList t).count lock = 1 from count]
    exact Nat.one_pos

end Run

theorem init_inv (threads : List Tid) (priority : Tid → Int) (lockPriority : LockId → Int) :
    (init threads priority lockPriority).Inv := by
  refine ⟨(Locks.init_inv threads priority lockPriority).records, fun _ => List.nodup_nil,
    fun _ down => ?_, fun _ _ got => ?_⟩
  · cases down
  · cases got

/-- The records of the locks agree after every call, and `lock_release` unlinks only what is linked,
exactly when no `lock_try_acquire` gets a lock. -/
theorem lock_records_agree_iff (threads : List Tid) (priority : Tid → Int)
    (lockPriority : LockId → Int) (acts : List TryAct) :
    Always step AllAgree (init threads priority lockPriority) acts ∧
        Each step Unlinks (init threads priority lockPriority) acts ↔
      Each step NoneGot (init threads priority lockPriority) acts :=
  always_and_each_iff (fun _ inv => inv.agrees) (fun _ _ _ inv => inv.step)
    (fun _ _ _ inv _ run => inv.unlinks run) (fun _ _ _ inv agree _ run => inv.noneGot run agree)
    acts (init_inv threads priority lockPriority)

/-- A thread gets a free lock by `lock_try_acquire` and is its holder, with an empty list. -/
theorem try_acquire_forgets_list : ∃ acts,
    ¬(Always step AllAgree (init [1] (fun _ => 31) fun _ => 0) acts ∧
      Each step Unlinks (init [1] (fun _ => 31) fun _ => 0) acts) := by
  refine ⟨[.tryAcquire 1 7, .tryAdvance 1, .tryAdvance 1], fun agree => ?_⟩
  have tried := (init_inv [1] (fun _ => 31) fun _ => 0).step
    (show NoneGot _ (.tryAcquire 1 7) from trivial) rfl
  have taken := tried.step (show NoneGot _ (.tryAdvance 1) from fun _ => nofun) rfl
  have none : NoneGot _ (.tryAdvance 1) := taken.noneGot rfl (agree.1.last rfl)
  exact none 7 rfl

end TryLocks

end Pintos.Threads
