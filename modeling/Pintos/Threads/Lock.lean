import Pintos.Threads.Donation

/-! Runs of `lock_acquire`, `lock_release` and `thread_set_priority` by any number of threads.  The
sections that run with interrupts off and the single statements between them are the steps. -/

namespace Pintos.Threads

open Transition OrderedList

namespace LockPc

/-- The `wait_lock_list` of a thread at this place. -/
def waits : LockPc → List LockId
  | .testing lock | .blocked lock | .settingHolder lock | .removingWait lock => [lock]
  | _ => []

/-- The lock whose permit the thread has taken and not yet recorded in its list, or no longer. -/
def owns : LockPc → Option LockId
  | .settingHolder lock | .removingWait lock | .settingPriority lock | .inserting lock
  | .sorting lock | .restoring lock | .clearingHolder lock | .raising lock => some lock
  | _ => none

/-- The lock whose `holder` is the thread while the lock is not in its list. -/
def holds : LockPc → Option LockId
  | .removingWait lock | .settingPriority lock | .inserting lock | .sorting lock
  | .restoring lock | .clearingHolder lock => some lock
  | _ => none

theorem owns_of_holds {pc : LockPc} {lock : LockId} (h : pc.holds = some lock) :
    pc.owns = some lock := by
  cases pc with
  | removingWait l | settingPriority l | inserting l | sorting l | restoring l
  | clearingHolder l => exact h
  | idle | testing l | blocked l | settingHolder l | raising l => exact nomatch h

end LockPc

namespace Locks

/-- Threads of any priorities and locks after `lock_init`, which leaves `priority` as it was. -/
def init (threads : List Tid) (priority : Tid → Int) (lockPriority : LockId → Int) : Locks where
  threads := threads
  priority := priority
  originalPriority := priority
  waitLockList := fun _ => []
  lockList := fun _ => []
  holder := fun _ => none
  lockPriority := lockPriority
  semaphore := fun _ => semaInit 1
  pc := fun _ => .idle

def at_ (s : Locks) (t : Tid) (pc : LockPc) : Locks := { s with pc := Function.update s.pc t pc }

def setHolder (s : Locks) (lock : LockId) (holder : Option Tid) : Locks :=
  { s with holder := Function.update s.holder lock holder }

def setLockPriority (s : Locks) (lock : LockId) (priority : Int) : Locks :=
  { s with lockPriority := Function.update s.lockPriority lock priority }

def setSemaphore (s : Locks) (lock : LockId) (sema : Semaphore) : Locks :=
  { s with semaphore := Function.update s.semaphore lock sema }

/-- The section of `lock_acquire` that runs with interrupts off. -/
def lockAcquire (s : Locks) (t : Tid) (lock : LockId) : Option Locks :=
  if t ∈ s.threads ∧ s.pc t = .idle ∧ s.holder lock ≠ some t then
    (donateLock (s.threads.length + 1) lock t { s with
      waitLockList := Function.update s.waitLockList t (s.waitLockList t ++ [lock])
    }).map (·.at_ t (.testing lock))
  else none

/-- The first statements of `lock_release`, up to `list_remove`. -/
def lockRelease (s : Locks) (t : Tid) (lock : LockId) : Option Locks :=
  if t ∈ s.threads ∧ s.pc t = .idle ∧ s.holder lock = some t then
    some ({ s with
      lockList := Function.update s.lockList t ((s.lockList t).filter (· ≠ lock))
    }.at_ t (.sorting lock))
  else none

/-- The priority that `lock_release` gives back to the holder. -/
def restored (s : Locks) (t : Tid) : Int :=
  match s.lockList t with
  | [] => s.originalPriority t
  | front :: _ =>
    if s.originalPriority t ≥ s.lockPriority front then s.originalPriority t
    else s.lockPriority front

/-- `thread_set_priority`, without the yield at its end. -/
def threadSetPriority (s : Locks) (t : Tid) (new : Int) : Option Locks :=
  if t ∈ s.threads ∧ s.pc t = .idle then
    let priority :=
      if s.priority t > new ∧ s.lockList t ≠ [] then
        if s.priority t = s.originalPriority t then new else s.priority t
      else new
    some { s.setPriority t priority with
      originalPriority := Function.update s.originalPriority t new }
  else none

/-- `sema_up` of the lock's semaphore, which sends the thread it wakes to test again. -/
def wake (s : Locks) (lock : LockId) : Locks :=
  let result := semaUp s.priority (s.semaphore lock)
  let s := s.setSemaphore lock result.1
  match result.2 with
  | none => s
  | some u => s.at_ u (.testing lock)

/-- One test of the loop of `sema_down`. -/
def test (s : Locks) (t : Tid) (lock : LockId) : Locks :=
  let result := semaTest s.priority t (s.semaphore lock)
  (s.setSemaphore lock result.1).at_ t
    (if result.2 then .settingHolder lock else .blocked lock)

/-- The next statement of a thread that is in `lock_acquire` or `lock_release`. -/
def advance (s : Locks) (t : Tid) : Option Locks :=
  match s.pc t with
  | .idle | .blocked _ => none
  | .testing lock => some (s.test t lock)
  | .settingHolder lock =>
    some ((s.setHolder lock (some t)).at_ t (.removingWait lock))
  | .removingWait lock =>
    some ({ s with
      waitLockList := Function.update s.waitLockList t ((s.waitLockList t).erase lock)
    }.at_ t (.settingPriority lock))
  | .settingPriority lock =>
    some ((s.setLockPriority lock (s.originalPriority t)).at_ t (.inserting lock))
  | .inserting lock =>
    some ({ s with
      lockList := Function.update s.lockList t (insertOrdered s.lockPriority lock (s.lockList t))
    }.at_ t .idle)
  | .sorting lock =>
    some ({ s with
      lockList := Function.update s.lockList t (sortOrdered s.lockPriority (s.lockList t))
    }.at_ t (.restoring lock))
  | .restoring lock => some ((s.setPriority t (s.restored t)).at_ t (.clearingHolder lock))
  | .clearingHolder lock =>
    some ((s.setHolder lock none).at_ t (.raising lock))
  | .raising lock => some ((s.at_ t .idle).wake lock)

inductive LockAct
  | acquire (t : Tid) (lock : LockId)
  | release (t : Tid) (lock : LockId)
  | setPriority (t : Tid) (new : Int)
  | advance (t : Tid)

def step (s : Locks) : LockAct → Option Locks
  | .acquire t lock => s.lockAcquire t lock
  | .release t lock => s.lockRelease t lock
  | .setPriority t new => s.threadSetPriority t new
  | .advance t => if t ∈ s.threads then s.advance t else none

/-- A blocked waiter of a lock has at most the priority of its holder. -/
def Donated (s : Locks) : Prop :=
  ∀ w lock h, w ∈ (s.semaphore lock).waiters → s.holder lock = some h → s.priority w ≤ s.priority h

/-- The steps that can leave a waiter above the holder do not:
`thread_set_priority` does not lower an undonated priority below that of a waiter of a lock that
the thread holds; a thread that takes over a lock has at least the priority of all who wait for it,
and at the statement that records its original priority as that of the lock, this one is high
enough, too; and when `lock_release` restores a priority, the thread's list is still sorted, and
its original priority or a lock that it keeps is high enough for the waiters of the one it lets
go. -/
def Careful (s : Locks) : LockAct → Prop
  | .setPriority t new => new < s.priority t → s.priority t = s.originalPriority t →
      ∀ lock ∈ s.lockList t, ∀ w, lock ∈ s.waitLockList w → s.priority w ≤ new
  | .advance t =>
    match s.pc t with
    | .settingHolder lock => ∀ w, lock ∈ s.waitLockList w → s.priority w ≤ s.priority t
    | .settingPriority lock => ∀ w, lock ∈ s.waitLockList w → s.priority w ≤ s.originalPriority t
    | .restoring lock =>
      (∀ front rest, s.lockList t = front :: rest →
        ∀ other ∈ rest, s.lockPriority other ≤ s.lockPriority front) ∧
      ∀ w, lock ∈ s.waitLockList w →
        s.priority w ≤ s.originalPriority t ∨
        ∃ kept ∈ s.lockList t, s.priority w ≤ s.lockPriority kept
    | _ => True
  | _ => True

/-- The permit of the lock is the thread's. -/
def Owns (s : Locks) (t : Tid) (lock : LockId) : Prop :=
  lock ∈ s.lockList t ∨ (s.pc t).owns = some lock

/-- The locks whose `priority` counts when another lock is released. -/
def Recorded (s : Locks) (lock : LockId) : Prop :=
  ∃ t, lock ∈ s.lockList t ∨ s.pc t = .inserting lock

/-- Threads are registered and queued as their places say. -/
structure Queued (s : Locks) : Prop where
  waits : ∀ t, s.waitLockList t = (s.pc t).waits
  waiters : ∀ lock, ∀ w ∈ (s.semaphore lock).waiters, s.pc w = .blocked lock
  distinct : ∀ lock, (s.semaphore lock).waiters.Nodup

/-- A semaphore has at most one permit, and none while its lock has an owner. -/
structure Permits (s : Locks) : Prop where
  value : ∀ lock, (s.semaphore lock).value = 0 ∨ (s.semaphore lock).value = 1
  down : ∀ t lock, s.Owns t lock → (s.semaphore lock).value = 0

/-- A lock has at most one owner, and `holder` is that owner but at the two ends of its
ownership. -/
structure Owned (s : Locks) : Prop where
  live : ∀ t lock, s.Owns t lock → t ∈ s.threads
  unique : ∀ t u lock, s.Owns t lock → s.Owns u lock → t = u
  exclusive : ∀ t lock, (s.pc t).owns = some lock → lock ∉ s.lockList t
  holder : ∀ t lock, s.holder lock = some t ↔ lock ∈ s.lockList t ∨ (s.pc t).holds = some lock

structure Inv (s : Locks) : Prop where
  queued : s.Queued
  permits : s.Permits
  owned : s.Owned
  covered : Covered s.Recorded (fun _ _ => False) s

theorem at_self (s : Locks) (t : Tid) (pc : LockPc) : (s.at_ t pc).pc t = pc :=
  Function.update_self ..

theorem at_of_ne (s : Locks) {t u : Tid} (pc : LockPc) (ne : u ≠ t) :
    (s.at_ t pc).pc u = s.pc u :=
  Function.update_of_ne ne ..

theorem setHolder_self (s : Locks) (lock : LockId) (holder : Option Tid) :
    (s.setHolder lock holder).holder lock = holder :=
  Function.update_self ..

theorem setHolder_of_ne (s : Locks) {lock l : LockId} (holder : Option Tid) (ne : l ≠ lock) :
    (s.setHolder lock holder).holder l = s.holder l :=
  Function.update_of_ne ne ..

theorem setLockPriority_self (s : Locks) (lock : LockId) (p : Int) :
    (s.setLockPriority lock p).lockPriority lock = p :=
  Function.update_self ..

theorem setLockPriority_of_ne (s : Locks) {lock l : LockId} (p : Int) (ne : l ≠ lock) :
    (s.setLockPriority lock p).lockPriority l = s.lockPriority l :=
  Function.update_of_ne ne ..

theorem setSemaphore_self (s : Locks) (lock : LockId) (sema : Semaphore) :
    (s.setSemaphore lock sema).semaphore lock = sema :=
  Function.update_self ..

theorem setSemaphore_of_ne (s : Locks) {lock l : LockId} (sema : Semaphore) (ne : l ≠ lock) :
    (s.setSemaphore lock sema).semaphore l = s.semaphore l :=
  Function.update_of_ne ne ..

/-- Only thread `t` has moved. -/
structure Apart (t : Tid) (s s' : Locks) : Prop where
  threads : s'.threads = s.threads
  pc : ∀ u ≠ t, s'.pc u = s.pc u
  locks : ∀ u ≠ t, s'.lockList u = s.lockList u
  waits : ∀ u ≠ t, s'.waitLockList u = s.waitLockList u

section Move

variable {s s' : Locks} {t : Tid}

/-- A thread that is in no queue moves. -/
theorem Queued.move (h : s.Queued) (apart : Apart t s s') (semaphore : s'.semaphore = s.semaphore)
    (free : ∀ lock, s.pc t ≠ .blocked lock) (here : s'.waitLockList t = (s'.pc t).waits) :
    s'.Queued := by
  refine ⟨fun u => ?_, fun lock w mem => ?_, fun lock => ?_⟩
  · by_cases same : u = t
    · rw [same]
      exact here
    · rw [apart.pc u same, apart.waits u same]
      exact h.waits u
  · rw [semaphore] at mem
    have blocked := h.waiters lock w mem
    have ne : w ≠ t := by
      rintro rfl
      exact free lock blocked
    rw [apart.pc w ne]
    exact blocked
  · rw [semaphore]
    exact h.distinct lock

theorem Apart.owns (apart : Apart t s s') (here : ∀ lock, s'.Owns t lock → s.Owns t lock) (u : Tid)
    (lock : LockId) (own : s'.Owns u lock) : s.Owns u lock := by
  by_cases same : u = t
  · rw [same] at own ⊢
    exact here lock own
  · rw [Owns, apart.pc u same, apart.locks u same] at own
    exact own

theorem Permits.move (h : s.Permits) (semaphore : s'.semaphore = s.semaphore)
    (owns : ∀ u lock, s'.Owns u lock → s.Owns u lock) : s'.Permits := by
  refine ⟨fun lock => ?_, fun u lock own => ?_⟩
  · rw [semaphore]
    exact h.value lock
  · rw [semaphore]
    exact h.down u lock (owns u lock own)

/-- A thread moves and owns no more than before. -/
theorem Owned.move (h : s.Owned) (apart : Apart t s s')
    (owns : ∀ u lock, s'.Owns u lock → s.Owns u lock)
    (exclusive : ∀ lock, (s'.pc t).owns = some lock → lock ∉ s'.lockList t)
    (holder : ∀ u lock, s'.holder lock = some u ↔
      lock ∈ s'.lockList u ∨ (s'.pc u).holds = some lock) : s'.Owned := by
  refine ⟨fun u lock own => ?_, fun u v lock own own' => ?_, fun u lock own => ?_, holder⟩
  · rw [apart.threads]
    exact h.live u lock (owns u lock own)
  · exact h.unique u v lock (owns u lock own) (owns v lock own')
  · by_cases same : u = t
    · rw [same] at own ⊢
      exact exclusive lock own
    · rw [apart.pc u same] at own
      rw [apart.locks u same]
      exact h.exclusive u lock own

/-- A thread moves and holds what it held. -/
theorem Owned.holder_move (h : s.Owned) (apart : Apart t s s') (holder : s'.holder = s.holder)
    (holds : ∀ lock, lock ∈ s'.lockList t ∨ (s'.pc t).holds = some lock ↔
      lock ∈ s.lockList t ∨ (s.pc t).holds = some lock) (u : Tid) (lock : LockId) :
    s'.holder lock = some u ↔ lock ∈ s'.lockList u ∨ (s'.pc u).holds = some lock := by
  rw [holder, h.holder]
  by_cases same : u = t
  · rw [same]
    exact (holds lock).symm
  · rw [apart.pc u same, apart.locks u same]

/-- Priorities stay, and there are no new waits, holders or records. -/
theorem Covered.shrink {recorded recorded' : LockId → Prop} {except : Tid → LockId → Prop}
    (h : Covered recorded except s) (priority : s'.priority = s.priority)
    (lockPriority : s'.lockPriority = s.lockPriority)
    (waits : ∀ w lock, lock ∈ s'.waitLockList w → lock ∈ s.waitLockList w)
    (holder : ∀ lock u, s'.holder lock = some u → s.holder lock = some u)
    (records : ∀ lock, recorded' lock → recorded lock) : Covered recorded' except s' := by
  intro w lock mem out
  obtain ⟨by_holder, by_lock⟩ := h w lock (waits w lock mem) out
  refine ⟨fun u held => ?_, fun rec held => ?_⟩
  · rw [priority]
    exact by_holder u (holder lock u held)
  · rw [priority, lockPriority]
    obtain ⟨u, held⟩ := Option.ne_none_iff_exists'.mp held
    exact by_lock (records lock rec) (by simp [holder lock u held])

theorem Apart.recorded (apart : Apart t s s')
    (here : ∀ lock, lock ∈ s'.lockList t ∨ s'.pc t = .inserting lock → s.Recorded lock)
    (lock : LockId) (rec : s'.Recorded lock) : s.Recorded lock := by
  obtain ⟨u, rec⟩ := rec
  by_cases same : u = t
  · rw [same] at rec
    exact here lock rec
  · rw [apart.pc u same, apart.locks u same] at rec
    exact ⟨u, rec⟩

/-- A thread whose list stays records nothing new. -/
theorem Apart.recorded_of_list (apart : Apart t s s') (list : s'.lockList t = s.lockList t)
    (away : ∀ lock, s'.pc t ≠ .inserting lock) (lock : LockId) (rec : s'.Recorded lock) :
    s.Recorded lock := by
  refine apart.recorded (fun l rec => ?_) lock rec
  rw [list] at rec
  exact ⟨t, .inl (rec.resolve_right (away l))⟩

end Move

theorem Owned.owns_of_holder {s : Locks} (h : s.Owned) {t : Tid} {lock : LockId}
    (held : s.holder lock = some t) : s.Owns t lock :=
  ((h.holder t lock).mp held).imp_right LockPc.owns_of_holds

/-- The part of the invariant that no priority plays a part in. -/
structure Records (s : Locks) : Prop where
  queued : s.Queued
  permits : s.Permits
  owned : s.Owned

theorem Inv.records {s : Locks} (h : s.Inv) : s.Records := ⟨h.queued, h.permits, h.owned⟩

theorem Records.inv {s : Locks} (h : s.Records)
    (covered : Covered s.Recorded (fun _ _ => False) s) :
    s.Inv :=
  ⟨h.queued, h.permits, h.owned, covered⟩

/-- A thread has gone from `a` to `b` and its list has become `list`, without a change of what it
holds, and with no new ownership. -/
structure Moved (s s' : Locks) (t : Tid) (a b : LockPc) (list : List LockId) : Prop where
  apart : Apart t s s'
  place : s.pc t = a
  place' : s'.pc t = b
  list_eq : s'.lockList t = list
  semaphore : s'.semaphore = s.semaphore
  holder : s'.holder = s.holder
  priority : s'.priority = s.priority
  lockPriority : s'.lockPriority = s.lockPriority
  free : ∀ lock, a ≠ .blocked lock
  waits : s'.waitLockList t = b.waits
  owns : ∀ lock, lock ∈ list ∨ b.owns = some lock → lock ∈ s.lockList t ∨ a.owns = some lock
  exclusive : ∀ lock, b.owns = some lock → lock ∉ list
  holds : ∀ lock, lock ∈ list ∨ b.holds = some lock ↔ lock ∈ s.lockList t ∨ a.holds = some lock

/-- A thread has gone on from `a` to `b` with its list, its waits and its permit; the `holder`
fields and the priorities may have changed. -/
structure Advanced (s s' : Locks) (t : Tid) (a b : LockPc) : Prop where
  apart : Apart t s s'
  place : s.pc t = a
  place' : s'.pc t = b
  list : s'.lockList t = s.lockList t
  waitList : s'.waitLockList t = s.waitLockList t
  semaphore : s'.semaphore = s.semaphore
  free : ∀ lock, a ≠ .blocked lock
  waits : b.waits = a.waits
  owns : b.owns = a.owns
  holder : ∀ u lock, s'.holder lock = some u ↔
    lock ∈ s'.lockList u ∨ (s'.pc u).holds = some lock

section Frame

variable {s s' : Locks} {t : Tid} {a b : LockPc} {list : List LockId}

theorem Moved.records (m : Moved s s' t a b list) (h : s.Records) : s'.Records := by
  obtain ⟨apart, rfl, rfl, rfl, semaphore, holder, -, -, free, waits, owns, exclusive, holds⟩ := m
  have owned := apart.owns owns
  exact ⟨h.queued.move apart semaphore free waits, h.permits.move semaphore owned,
    h.owned.move apart owned exclusive (h.owned.holder_move apart holder holds)⟩

/-- There are no new waits or records. -/
theorem Moved.inv (m : Moved s s' t a b list) (h : s.Inv) (fewer : b.waits ⊆ a.waits)
    (records : ∀ lock, lock ∈ list ∨ b = .inserting lock →
      lock ∈ s.lockList t ∨ a = .inserting lock) : s'.Inv := by
  refine (m.records h.records).inv
    (h.covered.shrink m.priority m.lockPriority (fun w lock mem => ?_) (fun lock u => ?_)
      (m.apart.recorded fun lock rec => ⟨t, ?_⟩))
  · by_cases same : w = t
    · rw [same, m.waits] at mem
      rw [same, h.queued.waits, m.place]
      exact fewer mem
    · rw [m.apart.waits w same] at mem
      exact mem
  · rw [m.holder]
    exact id
  · rw [m.list_eq, m.place'] at rec
    rw [m.place]
    exact records lock rec

theorem Advanced.records (m : Advanced s s' t a b) (h : s.Records) : s'.Records := by
  obtain ⟨apart, rfl, rfl, list, waitList, semaphore, free, waits, owns, holder⟩ := m
  have owned := apart.owns fun l own => by
    rw [Owns, list, owns] at own
    exact own
  refine ⟨h.queued.move apart semaphore free ?_, h.permits.move semaphore owned,
    h.owned.move apart owned (fun l own => ?_) holder⟩
  · rw [waitList, h.queued.waits, waits]
  · rw [owns] at own
    rw [list]
    exact h.owned.exclusive t l own

end Frame

/-- `lock_acquire` after `donate_lock`, which raises priorities. -/
theorem acquired_records {s after : Locks} {t : Tid} {lock : LockId} {p : Int} (h : s.Records)
    (idle : s.pc t = .idle) (raised : Raised p { s with
      waitLockList := Function.update s.waitLockList t (s.waitLockList t ++ [lock]) } after) :
    Apart t s (after.at_ t (.testing lock)) ∧ (after.at_ t (.testing lock)).Records := by
  have apart : Apart t s (after.at_ t (.testing lock)) := by
    refine ⟨raised.threads, fun u ne => ?_, fun u _ => congrFun raised.locks u, fun u ne => ?_⟩
    · rw [at_of_ne _ _ ne, raised.pc]
    · change after.waitLockList u = _
      rw [raised.waits]
      exact Function.update_of_ne ne ..
  have locks : (after.at_ t (.testing lock)).lockList t = s.lockList t := congrFun raised.locks t
  have owned := apart.owns fun l own => by
    rw [Owns, at_self, locks] at own
    exact own.imp_right (nomatch ·)
  refine ⟨apart, h.queued.move apart raised.semaphore (by simp [idle]) ?_,
    h.permits.move raised.semaphore owned,
    h.owned.move apart owned (fun l own => ?_)
      (h.owned.holder_move apart raised.holder fun l => ?_)⟩
  · rw [at_self]
    change after.waitLockList t = _
    rw [raised.waits]
    apply (Function.update_self ..).trans
    rw [h.queued.waits, idle]
    rfl
  · rw [at_self] at own
    exact nomatch own
  · rw [at_self, locks, idle]
    rfl

/-- `donate_lock` returns, and covers the new wait and with it all that it raises. -/
theorem lockAcquire_inv {s : Locks} {t : Tid} {lock : LockId} (h : s.Inv) (live : t ∈ s.threads)
    (idle : s.pc t = .idle) (other : s.holder lock ≠ some t) :
    ∃ s', s.lockAcquire t lock = some s' ∧ s'.Inv := by
  have none_waits : s.waitLockList t = [] := by
    rw [h.queued.waits, idle]
    rfl
  let waiting : Locks := { s with
    waitLockList := Function.update s.waitLockList t (s.waitLockList t ++ [lock]) }
  have here : waiting.waitLockList t = [lock] := by
    simp only [waiting, Function.update_self, none_waits, List.nil_append]
  have room : waiting.below (waiting.priority t) < s.threads.length + 1 :=
    Nat.lt_succ_of_le List.countP_le_length
  have holders : ∀ l u, waiting.holder l = some u → u ∈ waiting.threads := fun l u held =>
    h.owned.live u l (h.owned.owns_of_holder held)
  have covered : Covered s.Recorded (fun w l => False ∨ w = t ∧ l = lock) waiting := by
    intro w l mem out
    have ne : w ≠ t := by
      rintro rfl
      rw [here, List.mem_singleton] at mem
      exact out (.inr ⟨rfl, mem⟩)
    simp only [waiting, Function.update_of_ne ne] at mem
    obtain ⟨by_holder, by_lock⟩ := h.covered w l mem id
    exact ⟨by_holder, by_lock⟩
  obtain ⟨after, call, raised, covered⟩ := donateLock_donates s.Recorded _ lock t waiting _ room
    holders covered
  obtain ⟨apart, records⟩ := acquired_records h.records idle raised
  refine ⟨after.at_ t (.testing lock), ?_, records.inv
    (covered.shrink rfl rfl (fun _ _ => id) (fun _ _ => id) (apart.recorded fun l rec => ?_))⟩
  · rw [lockAcquire, if_pos ⟨live, idle, other⟩, call]
    rfl
  · have locks : (after.at_ t (.testing lock)).lockList t = s.lockList t := congrFun raised.locks t
    rw [at_self, locks] at rec
    exact ⟨t, rec.imp_right (nomatch ·)⟩

theorem lockRelease_moved {s s' : Locks} {t : Tid} {lock : LockId} (h : s.Records)
    (hstep : s.lockRelease t lock = some s') :
    Moved s s' t .idle (.sorting lock) ((s.lockList t).filter (· ≠ lock)) ∧
      lock ∈ s.lockList t := by
  unfold lockRelease at hstep
  split at hstep
  next guard =>
    obtain ⟨_, idle, held⟩ := guard
    obtain rfl := Option.some.inj hstep
    have listed : lock ∈ s.lockList t := by
      have holds := (h.owned.holder t lock).mp held
      rw [idle] at holds
      exact holds.resolve_right (nomatch ·)
    refine ⟨⟨⟨rfl, fun u ne => at_of_ne _ _ ne, fun u ne => Function.update_of_ne ne ..,
      fun _ _ => rfl⟩, idle, at_self .., Function.update_self .., rfl, rfl, rfl, rfl,
      fun _ => nofun, ?_, ?_, ?_, ?_⟩, listed⟩
    · exact (h.queued.waits t).trans (by rw [idle]; rfl)
    · rintro l (mem | same)
      · exact .inl (List.mem_filter.mp mem).1
      · exact .inl (Option.some.inj same ▸ listed)
    · simp [LockPc.owns]
    · intro l
      by_cases same : l = lock <;> simp [LockPc.holds, same, listed, Ne.symm]
  next => exact nomatch hstep

theorem lockRelease_inv {s s' : Locks} {t : Tid} {lock : LockId} (h : s.Inv)
    (hstep : s.lockRelease t lock = some s') : s'.Inv := by
  refine (lockRelease_moved h.records hstep).1.inv h (List.nil_subset _) ?_
  rintro l (mem | place)
  · exact .inl (List.mem_filter.mp mem).1
  · exact nomatch place

section Moves

variable {s : Locks} {t : Tid} {lock : LockId}

theorem removingWait_moved (h : s.Records) (place : s.pc t = .removingWait lock) :
    Moved s ({ s with
      waitLockList := Function.update s.waitLockList t ((s.waitLockList t).erase lock)
    }.at_ t (.settingPriority lock)) t (.removingWait lock) (.settingPriority lock)
      (s.lockList t) := by
  refine ⟨⟨rfl, fun u ne => at_of_ne _ _ ne, fun _ _ => rfl, fun u ne =>
    Function.update_of_ne ne ..⟩, place, at_self .., rfl, rfl, rfl, rfl, rfl, fun _ => nofun, ?_,
    fun _ => id, fun l own => ?_, fun _ => .rfl⟩
  · apply (Function.update_self ..).trans
    simp [h.queued.waits, place, LockPc.waits]
  · exact h.owned.exclusive t l (by rw [place]; exact own)

theorem removingWait_inv (h : s.Inv) (place : s.pc t = .removingWait lock) :
    ({ s with
      waitLockList := Function.update s.waitLockList t ((s.waitLockList t).erase lock)
    }.at_ t (.settingPriority lock)).Inv :=
  (removingWait_moved h.records place).inv h (List.nil_subset _)
    fun _ rec => .inl (rec.resolve_right nofun)

theorem inserting_moved (h : s.Records) (place : s.pc t = .inserting lock) :
    Moved s ({ s with
      lockList := Function.update s.lockList t (insertOrdered s.lockPriority lock (s.lockList t))
    }.at_ t .idle) t (.inserting lock) .idle
      (insertOrdered s.lockPriority lock (s.lockList t)) := by
  refine ⟨⟨rfl, fun u ne => at_of_ne _ _ ne, fun u ne => Function.update_of_ne ne ..,
    fun _ _ => rfl⟩, place, at_self .., Function.update_self .., rfl, rfl, rfl, rfl, fun _ => nofun,
    (h.queued.waits t).trans (by rw [place]; rfl), ?_, fun _ => nofun, ?_⟩
  · intro l
    simp [LockPc.owns, or_comm, eq_comm]
  · intro l
    simp [LockPc.holds, or_comm, eq_comm]

theorem inserting_inv (h : s.Inv) (place : s.pc t = .inserting lock) :
    ({ s with
      lockList := Function.update s.lockList t (insertOrdered s.lockPriority lock (s.lockList t))
    }.at_ t .idle).Inv :=
  (inserting_moved h.records place).inv h (List.nil_subset _) fun l => by
    simp [or_comm, eq_comm]

theorem sorting_moved (h : s.Records) (place : s.pc t = .sorting lock) :
    Moved s ({ s with
      lockList := Function.update s.lockList t (sortOrdered s.lockPriority (s.lockList t))
    }.at_ t (.restoring lock)) t (.sorting lock) (.restoring lock)
      (sortOrdered s.lockPriority (s.lockList t)) := by
  refine ⟨⟨rfl, fun u ne => at_of_ne _ _ ne, fun u ne => Function.update_of_ne ne ..,
    fun _ _ => rfl⟩, place, at_self .., Function.update_self .., rfl, rfl, rfl, rfl, fun _ => nofun,
    (h.queued.waits t).trans (by rw [place]; rfl), ?_, fun l own => ?_, ?_⟩
  · simp [LockPc.owns]
  · rw [mem_sortOrdered]
    exact h.owned.exclusive t l (by rw [place]; exact own)
  · simp [LockPc.holds]

theorem sorting_inv (h : s.Inv) (place : s.pc t = .sorting lock) :
    ({ s with
      lockList := Function.update s.lockList t (sortOrdered s.lockPriority (s.lockList t))
    }.at_ t (.restoring lock)).Inv :=
  (sorting_moved h.records place).inv h (List.nil_subset _) (by simp)

end Moves

/-- No lock that a thread owns outside its list is recorded, but the one it is inserting. -/
theorem Owned.not_recorded {s : Locks} (h : s.Owned) {t : Tid} {lock : LockId}
    (own : (s.pc t).owns = some lock) (place : s.pc t ≠ .inserting lock) : ¬s.Recorded lock := by
  rintro ⟨u, rec⟩
  have owns : s.Owns u lock := by
    refine rec.imp_right fun at_ => ?_
    rw [at_]
    rfl
  obtain rfl := h.unique u t lock owns (.inr own)
  rcases rec with listed | at_
  · exact h.exclusive u lock own listed
  · exact place at_

/-- The owner of a lock sets its `holder`, and moves to where it is held or not. -/
theorem Owned.holder_set {s : Locks} (h : s.Owned) {t : Tid} {lock : LockId} {holder : Option Tid}
    {pc : LockPc} (own : (s.pc t).owns = some lock)
    (only : ∀ l ≠ lock, (s.pc t).holds ≠ some l ∧ pc.holds ≠ some l)
    (here : ∀ u, holder = some u ↔ u = t ∧ pc.holds = some lock) (u : Tid) (l : LockId) :
    ((s.setHolder lock holder).at_ t pc).holder l = some u ↔
      l ∈ ((s.setHolder lock holder).at_ t pc).lockList u ∨
        (((s.setHolder lock holder).at_ t pc).pc u).holds = some l := by
  show (s.setHolder lock holder).holder l = some u ↔ l ∈ s.lockList u ∨ _
  by_cases same : l = lock
  · subst same
    rw [setHolder_self, here]
    constructor
    · rintro ⟨rfl, holds⟩
      rw [at_self]
      exact .inr holds
    · intro holds
      by_cases at_t : u = t
      · subst at_t
        rw [at_self] at holds
        exact ⟨rfl, holds.resolve_left (h.exclusive u l own)⟩
      · rw [at_of_ne _ _ at_t] at holds
        exact absurd (h.unique u t l (holds.imp_right LockPc.owns_of_holds) (.inr own)) at_t
  · rw [setHolder_of_ne s holder same, h.holder]
    by_cases at_t : u = t
    · subst at_t
      simp [at_self, only l same]
    · rw [at_of_ne _ _ at_t]
      rfl

theorem settingHolder_advanced {s : Locks} {t : Tid} {lock : LockId} (h : s.Records)
    (place : s.pc t = .settingHolder lock) :
    Advanced s ((s.setHolder lock (some t)).at_ t (.removingWait lock)) t (.settingHolder lock)
      (.removingWait lock) := by
  have own : (s.pc t).owns = some lock := by
    rw [place]
    rfl
  exact ⟨⟨rfl, fun u ne => at_of_ne _ _ ne, fun _ _ => rfl, fun _ _ => rfl⟩, place, at_self .., rfl,
    rfl, rfl, fun _ => nofun, rfl, rfl,
    h.owned.holder_set own (fun l ne => by simp [place, LockPc.holds, ne.symm])
      (by simp [LockPc.holds, eq_comm])⟩

/-- The thread becomes the holder; the waits for the lock are covered by its priority. -/
theorem settingHolder_inv {s : Locks} {t : Tid} {lock : LockId} (h : s.Inv)
    (place : s.pc t = .settingHolder lock)
    (above : ∀ w, lock ∈ s.waitLockList w → s.priority w ≤ s.priority t) :
    ((s.setHolder lock (some t)).at_ t (.removingWait lock)).Inv := by
  have advanced := settingHolder_advanced h.records place
  have own : (s.pc t).owns = some lock := by
    rw [place]
    rfl
  have recorded := advanced.apart.recorded_of_list rfl fun l => by
    rw [at_self]
    nofun
  refine (advanced.records h.records).inv fun w l mem out => ?_
  obtain ⟨by_holder, by_lock⟩ := h.covered w l mem out
  by_cases same : l = lock
  · subst same
    refine ⟨fun u held => ?_, fun rec _ => ?_⟩
    · obtain rfl := Option.some.inj ((setHolder_self s l (some t)).symm.trans held)
      exact above w mem
    · exact absurd (recorded l rec) (h.owned.not_recorded own (by simp [place]))
  · have unchanged := setHolder_of_ne s (some t) same
    refine ⟨fun u held => by_holder u (unchanged.symm.trans held), fun rec held => ?_⟩
    exact by_lock (recorded l rec) fun free => held (unchanged.trans free)

theorem settingPriority_advanced {s : Locks} {t : Tid} {lock : LockId} (h : s.Records)
    (place : s.pc t = .settingPriority lock) :
    Advanced s ((s.setLockPriority lock (s.originalPriority t)).at_ t (.inserting lock)) t
      (.settingPriority lock) (.inserting lock) := by
  have apart :
      Apart t s ((s.setLockPriority lock (s.originalPriority t)).at_ t (.inserting lock)) :=
    ⟨rfl, fun u ne => at_of_ne _ _ ne, fun _ _ => rfl, fun _ _ => rfl⟩
  refine ⟨apart, place, at_self .., rfl, rfl, rfl, fun _ => nofun, rfl, rfl,
    h.owned.holder_move apart rfl fun l => ?_⟩
  rw [at_self, place]
  rfl

/-- The lock records the original priority of its holder, which covers the waits for it. -/
theorem settingPriority_inv {s : Locks} {t : Tid} {lock : LockId} (h : s.Inv)
    (place : s.pc t = .settingPriority lock)
    (above : ∀ w, lock ∈ s.waitLockList w → s.priority w ≤ s.originalPriority t) :
    ((s.setLockPriority lock (s.originalPriority t)).at_ t (.inserting lock)).Inv := by
  refine ((settingPriority_advanced h.records place).records h.records).inv fun w l mem out => ?_
  obtain ⟨by_holder, by_lock⟩ := h.covered w l mem out
  refine ⟨by_holder, fun rec held => ?_⟩
  by_cases same : l = lock
  · subst same
    exact (above w mem).trans (le_of_eq (setLockPriority_self s l _).symm)
  · refine (by_lock ?_ held).trans (le_of_eq (setLockPriority_of_ne s _ same).symm)
    obtain ⟨u, rec⟩ := rec
    by_cases at_t : u = t
    · subst at_t
      rw [at_self] at rec
      exact ⟨u, .inl (rec.resolve_right fun eq => same (LockPc.inserting.inj eq).symm)⟩
    · rw [at_of_ne _ _ at_t] at rec
      exact ⟨u, rec⟩

/-- With a sorted list, the restored priority is that of the thread or the highest in the list. -/
theorem le_restored {s : Locks} {t : Tid}
    (sorted : ∀ front rest, s.lockList t = front :: rest →
      ∀ other ∈ rest, s.lockPriority other ≤ s.lockPriority front) :
    s.originalPriority t ≤ s.restored t ∧
      ∀ lock ∈ s.lockList t, s.lockPriority lock ≤ s.restored t := by
  unfold restored
  split
  next empty =>
    rw [empty]
    exact ⟨le_refl _, fun _ mem => absurd mem List.not_mem_nil⟩
  next front rest list =>
    have front_max : ∀ lock ∈ s.lockList t, s.lockPriority lock ≤ s.lockPriority front := by
      intro lock mem
      rw [list] at mem
      rcases List.mem_cons.mp mem with rfl | later
      · exact le_refl _
      · exact sorted front rest list lock later
    split
    next high => exact ⟨le_refl _, fun lock mem => (front_max lock mem).trans high⟩
    next low => exact ⟨le_of_lt (not_le.mp low), front_max⟩

theorem restoring_advanced {s : Locks} {t : Tid} {lock : LockId} (h : s.Records)
    (place : s.pc t = .restoring lock) :
    Advanced s ((s.setPriority t (s.restored t)).at_ t (.clearingHolder lock)) t (.restoring lock)
      (.clearingHolder lock) := by
  have apart : Apart t s ((s.setPriority t (s.restored t)).at_ t (.clearingHolder lock)) :=
    ⟨rfl, fun u ne => at_of_ne _ _ ne, fun _ _ => rfl, fun _ _ => rfl⟩
  refine ⟨apart, place, at_self .., rfl, rfl, rfl, fun _ => nofun, rfl, rfl,
    h.owned.holder_move apart rfl fun l => ?_⟩
  rw [at_self, place]
  rfl

theorem restoring_inv {s : Locks} {t : Tid} {lock : LockId} (h : s.Inv)
    (place : s.pc t = .restoring lock)
    (sorted : ∀ front rest, s.lockList t = front :: rest →
      ∀ other ∈ rest, s.lockPriority other ≤ s.lockPriority front)
    (above : ∀ w, lock ∈ s.waitLockList w → s.priority w ≤ s.originalPriority t ∨
      ∃ kept ∈ s.lockList t, s.priority w ≤ s.lockPriority kept) :
    ((s.setPriority t (s.restored t)).at_ t (.clearingHolder lock)).Inv := by
  have advanced := restoring_advanced h.records place
  refine (advanced.records h.records).inv fun w l mem out => ?_
  obtain ⟨original_le, listed_le⟩ := le_restored sorted
  obtain ⟨by_holder, by_lock⟩ := h.covered w l mem out
  have ne : w ≠ t := by
    rintro rfl
    have mem : l ∈ s.waitLockList w := mem
    rw [h.queued.waits, place] at mem
    exact absurd mem List.not_mem_nil
  have same := setPriority_of_ne s (s.restored t) ne
  refine ⟨fun u held => ?_, fun rec held => (le_of_eq same).trans (by_lock ?_ held)⟩
  · apply (le_of_eq same).trans
    by_cases at_t : u = t
    · subst at_t
      refine le_trans ?_ (le_of_eq (setPriority_self s u _).symm)
      -- The waited lock is one that `u` keeps, or the one that it is letting go.
      rcases (h.owned.holder u l).mp held with listed | letting
      · exact (by_lock ⟨u, .inl listed⟩ (by rw [show s.holder l = some u from held]; nofun)).trans
          (listed_le l listed)
      · rw [place] at letting
        obtain rfl := Option.some.inj letting
        rcases above w mem with low | ⟨kept, listed, low⟩
        · exact low.trans original_le
        · exact low.trans (listed_le kept listed)
    · exact (by_holder u held).trans (le_of_eq (setPriority_of_ne s _ at_t).symm)
  · refine advanced.apart.recorded_of_list rfl (fun l => ?_) l rec
    rw [at_self]
    nofun

theorem clearingHolder_advanced {s : Locks} {t : Tid} {lock : LockId} (h : s.Records)
    (place : s.pc t = .clearingHolder lock) :
    Advanced s ((s.setHolder lock none).at_ t (.raising lock)) t (.clearingHolder lock)
      (.raising lock) := by
  have own : (s.pc t).owns = some lock := by
    rw [place]
    rfl
  exact ⟨⟨rfl, fun u ne => at_of_ne _ _ ne, fun _ _ => rfl, fun _ _ => rfl⟩, place, at_self .., rfl,
    rfl, rfl, fun _ => nofun, rfl, rfl,
    h.owned.holder_set own (fun l ne => by simp [place, LockPc.holds, ne.symm])
      (by simp [LockPc.holds])⟩

theorem clearingHolder_inv {s : Locks} {t : Tid} {lock : LockId} (h : s.Inv)
    (place : s.pc t = .clearingHolder lock) :
    ((s.setHolder lock none).at_ t (.raising lock)).Inv := by
  have advanced := clearingHolder_advanced h.records place
  have fewer : ∀ l u, (s.setHolder lock none).holder l = some u → s.holder l = some u := by
    intro l u held
    by_cases same : l = lock
    · rw [same, setHolder_self] at held
      exact nomatch held
    · rw [setHolder_of_ne s none same] at held
      exact held
  refine (advanced.records h.records).inv (h.covered.shrink rfl rfl (fun _ _ => id) fewer
    (advanced.apart.recorded_of_list rfl fun l => ?_))
  rw [at_self]
  nofun

/-- The semaphore of a lock changes its value. -/
theorem Permits.set {s s' : Locks} {lock : LockId} {sema : Semaphore} (h : s.Permits)
    (semaphore : s'.semaphore = (s.setSemaphore lock sema).semaphore)
    (value : sema.value = 0 ∨ sema.value = 1) (down : ∀ u, s'.Owns u lock → sema.value = 0)
    (owns : ∀ u l, l ≠ lock → s'.Owns u l → s.Owns u l) : s'.Permits := by
  refine ⟨fun l => ?_, fun u l own => ?_⟩ <;> rw [semaphore] <;> by_cases same : l = lock
  · rw [same, setSemaphore_self]
    exact value
  · rw [setSemaphore_of_ne s sema same]
    exact h.value l
  · rw [same, setSemaphore_self]
    exact down u (same ▸ own)
  · rw [setSemaphore_of_ne s sema same]
    exact h.down u l (owns u l same own)

/-- The waiters of a lock change with the place of one thread. -/
theorem Queued.set {s s' : Locks} {t : Tid} {lock : LockId} {sema : Semaphore} (h : s.Queued)
    (apart : Apart t s s') (semaphore : s'.semaphore = (s.setSemaphore lock sema).semaphore)
    (waits : s'.waitLockList t = (s'.pc t).waits)
    (waiters : ∀ w ∈ sema.waiters, s'.pc w = .blocked lock)
    (away : ∀ l ≠ lock, t ∉ (s.semaphore l).waiters) (distinct : sema.waiters.Nodup) :
    s'.Queued := by
  refine ⟨fun u => ?_, fun l w mem => ?_, fun l => ?_⟩
  · by_cases same : u = t
    · rw [same]
      exact waits
    · rw [apart.pc u same, apart.waits u same]
      exact h.waits u
  · rw [semaphore] at mem
    by_cases same : l = lock
    · rw [same, setSemaphore_self] at mem
      rw [same]
      exact waiters w mem
    · rw [setSemaphore_of_ne s sema same] at mem
      have ne : w ≠ t := by
        rintro rfl
        exact away l same mem
      rw [apart.pc w ne]
      exact h.waiters l w mem
  · rw [semaphore]
    by_cases same : l = lock
    · rw [same, setSemaphore_self]
      exact distinct
    · rw [setSemaphore_of_ne s sema same]
      exact h.distinct l

/-- A thread that owns nothing outside its list moves to such a place, with the waiters of its
lock. -/
theorem Records.set {s : Locks} {t : Tid} {lock : LockId} {sema : Semaphore} {pc : LockPc}
    (h : s.Records) (same_waits : pc.waits = (s.pc t).waits) (owns : pc.owns = none)
    (owned : (s.pc t).owns = none)
    (waiters : ∀ w ∈ sema.waiters, ((s.setSemaphore lock sema).at_ t pc).pc w = .blocked lock)
    (away : ∀ l ≠ lock, t ∉ (s.semaphore l).waiters) (distinct : sema.waiters.Nodup)
    (value : sema.value = 0 ∨ sema.value = 1) (down : ∀ u, s.Owns u lock → sema.value = 0) :
    ((s.setSemaphore lock sema).at_ t pc).Records := by
  have apart : Apart t s ((s.setSemaphore lock sema).at_ t pc) :=
    ⟨rfl, fun u ne => at_of_ne _ _ ne, fun _ _ => rfl, fun _ _ => rfl⟩
  have owned' := apart.owns fun l own => by
    rw [Owns, at_self, owns] at own
    exact .inl (own.resolve_right nofun)
  have holds : ∀ place : LockPc, place.owns = none → place.holds = none := by
    intro place none_owned
    rw [Option.eq_none_iff_forall_ne_some] at none_owned ⊢
    exact fun l hold => none_owned l (LockPc.owns_of_holds hold)
  refine ⟨h.queued.set apart rfl ?_ waiters away distinct,
    h.permits.set rfl value (fun u own => down u (owned' u lock own)) fun u l _ => owned' u l,
    h.owned.move apart owned' (fun l own => ?_) (h.owned.holder_move apart rfl fun l => ?_)⟩
  · rw [at_self, same_waits]
    exact h.queued.waits t
  · rw [at_self, owns] at own
    exact nomatch own
  · rw [at_self, holds pc owns, holds (s.pc t) owned]
    rfl

/-- A change of a semaphore and of the place of a thread, which is not on its way to insert a lock,
leaves the waits covered. -/
theorem Covered.set {s : Locks} (h : Covered s.Recorded (fun _ _ => False) s) (t : Tid)
    (lock : LockId) (sema : Semaphore) {pc : LockPc} (away : ∀ l, pc ≠ .inserting l) :
    Covered ((s.setSemaphore lock sema).at_ t pc).Recorded (fun _ _ => False)
      ((s.setSemaphore lock sema).at_ t pc) := by
  have apart : Apart t s ((s.setSemaphore lock sema).at_ t pc) :=
    ⟨rfl, fun u ne => at_of_ne _ _ ne, fun _ _ => rfl, fun _ _ => rfl⟩
  refine h.shrink rfl rfl (fun _ _ => id) (fun _ _ => id) (apart.recorded_of_list rfl fun l => ?_)
  rw [at_self]
  exact away l

/-- `sema_up` of a lock that nobody owns any more. -/
theorem wake_records {s : Locks} {lock : LockId} (h : s.Records) (free : ∀ u, ¬s.Owns u lock)
    (down : (s.semaphore lock).value = 0) : (s.wake lock).Records := by
  have up : (s.semaphore lock).value + 1 = 1 := by
    rw [down]
    rfl
  by_cases empty : (s.semaphore lock).waiters = []
  · rw [wake, semaUp_none s.priority empty]
    have same : ∀ l, ((s.setSemaphore lock { s.semaphore lock with
        value := (s.semaphore lock).value + 1 }).semaphore l).waiters =
          (s.semaphore l).waiters := by
      intro l
      by_cases at_lock : l = lock
      · rw [at_lock, setSemaphore_self]
      · rw [setSemaphore_of_ne _ _ at_lock]
    refine ⟨⟨h.queued.waits, fun l w mem => ?_, fun l => ?_⟩, h.permits.set rfl (.inr up)
      (fun u own => absurd own (free u)) fun _ _ _ => id,
      ⟨h.owned.live, h.owned.unique, h.owned.exclusive, h.owned.holder⟩⟩
    · rw [same] at mem
      exact h.queued.waiters l w mem
    · rw [same]
      exact h.queued.distinct l
  · obtain ⟨u, rest, perm, eq⟩ := semaUp_some s.priority empty
    have blocked := h.queued.waiters lock u (perm.subset List.mem_cons_self)
    obtain ⟨not_rest, distinct⟩ := List.nodup_cons.mp (perm.nodup_iff.mpr (h.queued.distinct lock))
    rw [wake, eq]
    refine h.set (by rw [blocked]; rfl) rfl (by rw [blocked]; rfl) (fun w mem => ?_)
      (fun l ne mem => ?_) distinct (.inr up) fun v own => absurd own (free v)
    · have ne : w ≠ u := by
        rintro rfl
        exact not_rest mem
      rw [at_of_ne _ _ ne]
      exact h.queued.waiters lock w (perm.subset (List.mem_cons_of_mem u mem))
    · exact ne (LockPc.blocked.inj ((h.queued.waiters l u mem).symm.trans blocked))

theorem wake_covered {s : Locks} (h : Covered s.Recorded (fun _ _ => False) s) (lock : LockId) :
    Covered (s.wake lock).Recorded (fun _ _ => False) (s.wake lock) := by
  unfold wake
  dsimp only
  split
  · exact h.shrink rfl rfl (fun _ _ => id) (fun _ _ => id) fun _ => id
  · exact h.set _ lock _ nofun

section Raising

variable {s : Locks} {t : Tid} {lock : LockId}

theorem raising_moved (h : s.Records) (place : s.pc t = .raising lock) :
    Moved s (s.at_ t .idle) t (.raising lock) .idle (s.lockList t) :=
  ⟨⟨rfl, fun u ne => at_of_ne _ _ ne, fun _ _ => rfl, fun _ _ => rfl⟩, place, at_self .., rfl, rfl,
    rfl, rfl, rfl, fun _ => nofun, (h.queued.waits t).trans (by rw [place]; rfl),
    fun l own => .inl (own.resolve_right nofun), fun _ => nofun, fun _ => .rfl⟩

/-- The owner that lets its permit go was the only one. -/
theorem raising_free (h : s.Records) (place : s.pc t = .raising lock) (u : Tid) :
    ¬(s.at_ t .idle).Owns u lock := by
  intro owns
  have own : (s.pc t).owns = some lock := by
    rw [place]
    rfl
  by_cases at_t : u = t
  · subst at_t
    rw [Owns, at_self] at owns
    exact h.owned.exclusive u lock own (owns.resolve_right nofun)
  · rw [Owns, at_of_ne _ _ at_t] at owns
    exact at_t (h.owned.unique u t lock owns (.inr own))

theorem raising_records (h : s.Records) (place : s.pc t = .raising lock) :
    ((s.at_ t .idle).wake lock).Records := by
  refine wake_records ((raising_moved h place).records h) (raising_free h place)
    (h.permits.down t lock (.inr ?_))
  rw [place]
  rfl

theorem raising_inv (h : s.Inv) (place : s.pc t = .raising lock) :
    ((s.at_ t .idle).wake lock).Inv := by
  have left : (s.at_ t .idle).Inv := (raising_moved h.records place).inv h (List.nil_subset _)
    fun l rec => .inl (rec.resolve_right nofun)
  exact (raising_records h.records place).inv (wake_covered left.covered lock)

end Raising

/-- A thread takes the permit of a lock, which therefore has no owner. -/
theorem take_records {s : Locks} {t : Tid} {lock : LockId} (h : s.Records) (live : t ∈ s.threads)
    (place : s.pc t = .testing lock) (away : ∀ l, t ∉ (s.semaphore l).waiters)
    (one : (s.semaphore lock).value ≠ 0) :
    ((s.setSemaphore lock { s.semaphore lock with
      value := (s.semaphore lock).value - 1 }).at_ t (.settingHolder lock)).Records := by
  generalize taken : ({ s.semaphore lock with
    value := (s.semaphore lock).value - 1 } : Semaphore) = sema
  have value : sema.value = 0 := by
    rw [← taken, (h.permits.value lock).resolve_left one]
    rfl
  have free : ∀ u, ¬s.Owns u lock := fun u own => one (h.permits.down u lock own)
  have apart : Apart t s ((s.setSemaphore lock sema).at_ t (.settingHolder lock)) :=
    ⟨rfl, fun u ne => at_of_ne _ _ ne, fun _ _ => rfl, fun _ _ => rfl⟩
  have owned : ∀ u l, ((s.setSemaphore lock sema).at_ t (.settingHolder lock)).Owns u l →
      u = t ∧ l = lock ∨ s.Owns u l := by
    intro u l own
    by_cases at_t : u = t
    · subst at_t
      rw [Owns, at_self] at own
      rcases own with listed | new
      · exact .inr (.inl listed)
      · exact .inl ⟨rfl, (Option.some.inj new).symm⟩
    · rw [Owns, at_of_ne _ _ at_t] at own
      exact .inr own
  refine ⟨h.queued.set apart rfl ?_ (fun w mem => ?_) (fun l _ => away l) ?_,
    h.permits.set rfl (.inl value) (fun _ _ => value) fun u l ne own => ?_,
    ⟨fun u l own => ?_, fun u v l own own' => ?_, fun u l own => ?_,
      h.owned.holder_move apart rfl fun l => ?_⟩⟩
  · rw [at_self]
    exact (h.queued.waits t).trans (by rw [place]; rfl)
  · have old : w ∈ (s.semaphore lock).waiters := by
      rw [← taken] at mem
      exact mem
    have ne : w ≠ t := by
      rintro rfl
      exact away lock old
    rw [at_of_ne _ _ ne]
    exact h.queued.waiters lock w old
  · rw [← taken]
    exact h.queued.distinct lock
  · exact (owned u l own).resolve_left fun new => ne new.2
  · rcases owned u l own with ⟨rfl, _⟩ | old
    · exact live
    · exact h.owned.live u l old
  · rcases owned u l own with ⟨rfl, rfl⟩ | old
    · rcases owned v l own' with ⟨rfl, _⟩ | old'
      · rfl
      · exact absurd old' (free v)
    · rcases owned v l own' with ⟨rfl, rfl⟩ | old'
      · exact absurd old (free u)
      · exact h.owned.unique u v l old old'
  · intro listed
    by_cases at_t : u = t
    · subst at_t
      rw [at_self] at own
      obtain rfl := Option.some.inj own
      exact free u (.inl listed)
    · rw [at_of_ne _ _ at_t] at own
      exact h.owned.exclusive u l own listed
  · rw [at_self, place]
    rfl

theorem test_records {s : Locks} {t : Tid} {lock : LockId} (h : s.Records) (live : t ∈ s.threads)
    (place : s.pc t = .testing lock) : (s.test t lock).Records := by
  have away : ∀ l, t ∉ (s.semaphore l).waiters := by
    intro l mem
    have blocked := h.queued.waiters l t mem
    rw [place] at blocked
    exact nomatch blocked
  by_cases down : (s.semaphore lock).value = 0
  · rw [test, semaTest, if_pos down]
    refine h.set (by rw [place]; rfl) rfl (by rw [place]; rfl) (fun w mem => ?_) (fun l _ => away l)
      ((insertOrdered_perm _ _ _).nodup_iff.mpr
        (List.nodup_cons.mpr ⟨away lock, h.queued.distinct lock⟩)) (.inl down) fun _ _ => down
    rcases (mem_insertOrdered s.priority).mp mem with rfl | old
    · exact at_self ..
    · have ne : w ≠ t := by
        rintro rfl
        exact away lock old
      rw [at_of_ne _ _ ne]
      exact h.queued.waiters lock w old
  · rw [test, semaTest, if_neg down]
    exact take_records h live place away down

theorem test_inv {s : Locks} {t : Tid} {lock : LockId} (h : s.Inv) (live : t ∈ s.threads)
    (place : s.pc t = .testing lock) : (s.test t lock).Inv := by
  refine (test_records h.records live place).inv (h.covered.set t lock _ fun l => ?_)
  split <;> nofun

theorem threadSetPriority_records {s s' : Locks} {t : Tid} {new : Int} (h : s.Records)
    (hstep : s.threadSetPriority t new = some s') : s'.Records := by
  unfold threadSetPriority at hstep
  split at hstep
  next =>
    obtain rfl := Option.some.inj hstep
    exact ⟨⟨h.queued.waits, h.queued.waiters, h.queued.distinct⟩,
      ⟨h.permits.value, h.permits.down⟩,
      ⟨h.owned.live, h.owned.unique, h.owned.exclusive, h.owned.holder⟩⟩
  next => exact nomatch hstep

/-- The thread that changes its own priority waits for no lock, and holds only locks of its
list. -/
theorem threadSetPriority_inv {s s' : Locks} {t : Tid} {new : Int} (h : s.Inv)
    (careful : s.Careful (.setPriority t new)) (hstep : s.threadSetPriority t new = some s') :
    s'.Inv := by
  unfold threadSetPriority at hstep
  split at hstep
  next guard =>
    have records := threadSetPriority_records h.records ((if_pos guard).trans hstep)
    obtain ⟨_, idle⟩ := guard
    obtain rfl := Option.some.inj hstep
    refine records.inv fun w l mem out => ?_
    generalize chosen : (if s.priority t > new ∧ s.lockList t ≠ [] then
      if s.priority t = s.originalPriority t then new else s.priority t else new) = p
    obtain ⟨by_holder, by_lock⟩ := h.covered w l mem out
    have ne : w ≠ t := by
      rintro rfl
      have mem : l ∈ s.waitLockList w := mem
      rw [h.queued.waits, idle] at mem
      exact absurd mem List.not_mem_nil
    have same := setPriority_of_ne s p ne
    refine ⟨fun u held => (le_of_eq same).trans ?_, fun rec held =>
      (le_of_eq same).trans (by_lock rec held)⟩
    by_cases at_t : u = t
    · subst at_t
      refine le_trans ?_ (le_of_eq (setPriority_self s u p).symm)
      have held : s.holder l = some u := held
      have listed : l ∈ s.lockList u := by
        have holds := (h.owned.holder u l).mp held
        rw [idle] at holds
        exact holds.resolve_right nofun
      have below := by_holder u held
      rw [← chosen]
      split
      next lower =>
        split
        next undonated => exact careful lower.1 undonated l listed w mem
        next => exact below
      next kept =>
        have nonempty : s.lockList u ≠ [] := List.ne_nil_of_mem listed
        have high : ¬s.priority u > new := fun lower => kept ⟨lower, nonempty⟩
        omega
    · exact (by_holder u held).trans (le_of_eq (setPriority_of_ne s p at_t).symm)
  next => exact nomatch hstep

theorem advance_records {s s' : Locks} {t : Tid} (h : s.Records) (live : t ∈ s.threads)
    (hstep : s.advance t = some s') : s'.Records := by
  unfold advance at hstep
  cases place : s.pc t <;> simp only [place] at hstep
  case idle => exact nomatch hstep
  case blocked => exact nomatch hstep
  all_goals obtain rfl := Option.some.inj hstep
  case testing lock => exact test_records h live place
  case settingHolder lock => exact (settingHolder_advanced h place).records h
  case removingWait lock => exact (removingWait_moved h place).records h
  case settingPriority lock => exact (settingPriority_advanced h place).records h
  case inserting lock => exact (inserting_moved h place).records h
  case sorting lock => exact (sorting_moved h place).records h
  case restoring lock => exact (restoring_advanced h place).records h
  case clearingHolder lock => exact (clearingHolder_advanced h place).records h
  case raising lock => exact raising_records h place

theorem advance_inv {s s' : Locks} {t : Tid} (h : s.Inv) (live : t ∈ s.threads)
    (careful : s.Careful (.advance t)) (hstep : s.advance t = some s') : s'.Inv := by
  unfold advance at hstep
  unfold Careful at careful
  cases place : s.pc t <;> simp only [place] at hstep careful
  case idle => exact nomatch hstep
  case blocked => exact nomatch hstep
  all_goals obtain rfl := Option.some.inj hstep
  case testing lock => exact test_inv h live place
  case settingHolder lock => exact settingHolder_inv h place careful
  case removingWait lock => exact removingWait_inv h place
  case settingPriority lock => exact settingPriority_inv h place careful
  case inserting lock => exact inserting_inv h place
  case sorting lock => exact sorting_inv h place
  case restoring lock => exact restoring_inv h place careful.1 careful.2
  case clearingHolder lock => exact clearingHolder_inv h place
  case raising lock => exact raising_inv h place

theorem step_inv {s s' : Locks} {act : LockAct} (h : s.Inv) (careful : s.Careful act)
    (hstep : s.step act = some s') : s'.Inv := by
  cases act with
  | acquire t lock =>
    by_cases guard : t ∈ s.threads ∧ s.pc t = .idle ∧ s.holder lock ≠ some t
    · obtain ⟨after, eq, inv⟩ := lockAcquire_inv h guard.1 guard.2.1 guard.2.2
      obtain rfl := Option.some.inj (eq.symm.trans hstep)
      exact inv
    · exact nomatch (if_neg guard).symm.trans hstep
  | release t lock => exact lockRelease_inv h hstep
  | setPriority t new => exact threadSetPriority_inv h careful hstep
  | advance t =>
    simp only [step] at hstep
    split at hstep
    next live => exact advance_inv h live careful hstep
    next => exact nomatch hstep

theorem Inv.donated {s : Locks} (h : s.Inv) : s.Donated := by
  intro w lock u mem held
  have waits : lock ∈ s.waitLockList w := by
    rw [h.queued.waits, h.queued.waiters lock w mem]
    exact List.mem_singleton_self lock
  exact (h.covered w lock waits id).holder u held

theorem init_inv (threads : List Tid) (priority : Tid → Int) (lockPriority : LockId → Int) :
    (init threads priority lockPriority).Inv := by
  refine ⟨⟨fun _ => rfl, ?_, ?_⟩, ⟨fun _ => .inr rfl, ?_⟩, ⟨?_, ?_, ?_, ?_⟩, ?_⟩ <;>
    simp [init, semaInit, Owns, LockPc.owns, LockPc.holds, Covered]

/-- In a run of careful steps a blocked waiter never has more than the priority of the holder of
its lock, and `donate_lock` always returns. -/
theorem donation_holds {threads : List Tid} {priority : Tid → Int} {lockPriority : LockId → Int}
    {s : Locks}
    (reach : Reach (Fires step) Careful (· = init threads priority lockPriority) s) :
    s.Donated ∧ ∀ t ∈ s.threads, ∀ lock, s.pc t = .idle → s.holder lock ≠ some t →
      s.lockAcquire t lock ≠ none := by
  have inv : s.Inv := by
    refine reach.invariant (P := Inv) ?_ fun _ _ _ h careful hstep => step_inv h careful hstep
    rintro _ rfl
    exact init_inv threads priority lockPriority
  refine ⟨inv.donated, fun t live lock idle other => ?_⟩
  obtain ⟨after, eq, _⟩ := lockAcquire_inv inv live idle other
  simp [eq]

/-- A thread of priority 40 that waits for a lock raises its holder from 31. -/
theorem donation_holds_raised : ∃ s : Locks,
    Reach (Fires step) Careful (· = init [1, 2] (fun t => if t = 2 then 40 else 31) fun _ => 0) s ∧
      2 ∈ (s.semaphore 7).waiters ∧ s.holder 7 = some 1 ∧ s.priority 2 ≤ s.priority 1 := by
  have start : Reach (Fires step) Careful
    (· = init [1, 2] (fun t => if t = 2 then 40 else 31) fun _ => 0)
    (init [1, 2] (fun t => if t = 2 then 40 else 31) fun _ => 0) := .start rfl
  have only : ∀ w : Tid, 7 ∈ Function.update (fun _ => ([] : List LockId)) 1 [7] w → w = 1 := by
    intro w mem
    by_contra ne
    rw [Function.update_of_ne ne] at mem
    exact absurd mem List.not_mem_nil
  have nobody : ∀ w : Tid,
      7 ∉ Function.update (Function.update (fun _ => ([] : List LockId)) 1 [7]) 1 [] w := by
    intro w
    rw [Function.update_idem, Function.update_apply]
    split <;> exact List.not_mem_nil
  have tested := (start.take (.acquire 1 7) trivial rfl).take (.advance 1) trivial rfl
  have held := tested.take (.advance 1) (fun w mem => le_of_eq (congrArg _ (only w mem))) rfl
  have recorded := (held.take (.advance 1) trivial rfl).take (.advance 1)
    (fun w mem => absurd mem (nobody w)) rfl
  have listed := recorded.take (.advance 1) trivial rfl
  have blocked := (listed.take (.acquire 2 7) trivial rfl).take (.advance 2) trivial rfl
  have mem : 2 ∈ [2] := List.mem_singleton_self 2
  exact ⟨_, blocked, mem, rfl, (donation_holds blocked).1 2 7 1 mem rfl⟩

/-- The holder of a lock lowers a priority that a waiter has donated without raising it. -/
theorem set_priority_drops_donation : ∃ s : Locks,
    Reach (Fires step) (fun _ _ => True) (· = init [1, 2] (fun _ => 31) fun _ => 0) s ∧
      2 ∈ (s.semaphore 7).waiters ∧ s.holder 7 = some 1 ∧ ¬s.priority 2 ≤ s.priority 1 :=
  Reach.eval [.acquire 1 7, .advance 1, .advance 1, .advance 1, .advance 1, .advance 1,
    .acquire 2 7, .advance 2, .setPriority 1 0] (by decide)

end Locks

end Pintos.Threads
