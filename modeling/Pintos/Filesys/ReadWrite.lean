import Pintos.Lib.Transition
import Pintos.Threads.Condition

/-! Readers and writers of one inode (`inode.c`) and of one cache entry (`cache.c`).  Each section
under the `io` lock is one step.  A writer that finds readers waits once on `read_end` and then
goes on without looking at `read_cnt` again. -/

namespace Pintos.Filesys

open Transition Pintos.Threads

/-- Where a thread is: before a reader or writer section, between `read_inode` and `read_end`, in
`cond_wait` before or after its semaphore went up, or between `write_inode` and `write_end` past
any wait. -/
inductive RwPc
  | outside
  | reading
  | waiting
  | signalled
  | writing
  deriving DecidableEq

/-- The fields `read_cnt`, `read_end` and `io` that an inode and a cache entry share, with the
holder of `io` between steps. -/
structure Monitor where
  readCnt : Int
  readEnd : Condition
  holder : Option Tid
  pc : Tid → RwPc

namespace Monitor

def init : Monitor := ⟨0, condInit, none, fun _ => .outside⟩

def at_ (m : Monitor) (t : Tid) (pc : RwPc) : Monitor := { m with pc := Function.update m.pc t pc }

/-- `cond_signal (&read_end, &io)`. -/
def signal (m : Monitor) : Monitor :=
  match condSignal m.readEnd with
  | (_, none) => m
  | (cond, some t) => { m with readEnd := cond }.at_ t .signalled

def enterRead (m : Monitor) (t : Tid) : Option Monitor :=
  if m.pc t = .outside ∧ m.holder = none then
    some ({ m with readCnt := m.readCnt + 1 }.at_ t .reading)
  else none

def leaveRead (m : Monitor) (t : Tid) : Option Monitor :=
  if m.pc t = .reading ∧ m.holder = none then
    let left := { m with readCnt := m.readCnt - 1 }.at_ t .outside
    some (if left.readCnt = 0 then left.signal else left)
  else none

def enterWrite (m : Monitor) (t : Tid) (priority : Int) : Option Monitor :=
  if m.pc t = .outside ∧ m.holder = none then
    if m.readCnt > 0 then
      some ({ m with readEnd := condWait m.readEnd t priority }.at_ t .waiting)
    else some ({ m with holder := some t }.at_ t .writing)
  else none

/-- The `lock_acquire` at the end of `cond_wait`, after which the writer is past its wait. -/
def resumeWrite (m : Monitor) (t : Tid) : Option Monitor :=
  if m.pc t = .signalled ∧ m.holder = none then some ({ m with holder := some t }.at_ t .writing)
  else none

def leaveWrite (m : Monitor) (t : Tid) : Option Monitor :=
  if m.pc t = .writing then some ({ m.signal with holder := none }.at_ t .outside) else none

/-- What a thread can do next; a writer brings the priority it has when it comes. -/
inductive Act
  | enterRead (t : Tid)
  | leaveRead (t : Tid)
  | enterWrite (t : Tid) (priority : Int)
  | resumeWrite (t : Tid)
  | leaveWrite (t : Tid)

/-- No thread is past its wait in a writer section while there are readers. -/
def Exclusive (m : Monitor) : Prop := ∀ t, m.pc t = .writing → ¬m.readCnt > 0

/-- A writer leaves `cond_wait` only when there are no readers. -/
def RecheckedWait (m : Monitor) (act : Act) : Prop :=
  match act with
  | .resumeWrite _ => ¬m.readCnt > 0
  | _ => True

/-- The writer past its wait holds the lock, and every thread on `read_end` waits there once. -/
structure Inv (m : Monitor) : Prop where
  owner : ∀ t, m.pc t = .writing → m.holder = some t
  free : m.holder ≠ none → ¬m.readCnt > 0
  waits : ∀ t ∈ m.readEnd.threads, m.pc t = .waiting
  distinct : m.readEnd.threads.Nodup

theorem init_inv : init.Inv :=
  ⟨by simp [init], by simp [init], by simp [init, condInit, Condition.threads],
    by simp [init, condInit, Condition.threads]⟩

theorem Inv.exclusive {m : Monitor} (h : m.Inv) : m.Exclusive := by
  intro t writing
  exact h.free (by simp [h.owner t writing])

theorem at_pc (m : Monitor) (t u : Tid) (pc : RwPc) :
    (m.at_ t pc).pc u = if u = t then pc else m.pc u := by
  simp [at_, Function.update_apply]

/-- A thread that is not on `read_end` and not writing can move to any place but these two. -/
theorem Inv.move {m : Monitor} (h : m.Inv) {t : Tid} {pc : RwPc} (away : t ∉ m.readEnd.threads)
    (target : pc ≠ .writing) : (m.at_ t pc).Inv := by
  refine ⟨fun u => ?_, h.free, fun u hu => ?_, h.distinct⟩
  · rw [at_pc]
    split
    · exact fun writing => absurd writing target
    · exact h.owner u
  · have ne : u ≠ t := by
      rintro rfl
      exact away hu
    rw [at_pc, if_neg ne]
    exact h.waits u hu

theorem Inv.signal {m : Monitor} (h : m.Inv) : m.signal.Inv := by
  obtain ⟨_, eq⟩ | ⟨t, rest, perm, eq⟩ := condSignal_cases m.readEnd
  · rw [Monitor.signal, eq]
    exact h
  · rw [Monitor.signal, eq]
    have distinct := perm.nodup_iff.mpr h.distinct
    have taken : Inv { m with readEnd := rest } :=
      ⟨h.owner, h.free, fun u hu => h.waits u (perm.subset (List.mem_cons_of_mem t hu)),
        (List.nodup_cons.mp distinct).2⟩
    exact taken.move (List.nodup_cons.mp distinct).1 (by decide)

theorem Inv.away {m : Monitor} (h : m.Inv) {t : Tid} (place : m.pc t ≠ .waiting) :
    t ∉ m.readEnd.threads :=
  fun waits => place (h.waits t waits)

theorem Inv.enterRead {m m' : Monitor} {t : Tid} (h : m.Inv) (hstep : m.enterRead t = some m') :
    m'.Inv := by
  unfold Monitor.enterRead at hstep
  split at hstep
  next guard =>
    obtain rfl := Option.some.inj hstep
    obtain ⟨place, unlocked⟩ := guard
    have counted : Inv { m with readCnt := m.readCnt + 1 } :=
      ⟨h.owner, fun locked => absurd unlocked locked, h.waits, h.distinct⟩
    exact counted.move (h.away (by rw [place]; decide)) (by decide)
  next => exact nomatch hstep

theorem Inv.leaveRead {m m' : Monitor} {t : Tid} (h : m.Inv) (hstep : m.leaveRead t = some m') :
    m'.Inv := by
  unfold Monitor.leaveRead at hstep
  split at hstep
  next guard =>
    obtain rfl := Option.some.inj hstep
    obtain ⟨place, unlocked⟩ := guard
    have counted : Inv { m with readCnt := m.readCnt - 1 } :=
      ⟨h.owner, fun locked => absurd unlocked locked, h.waits, h.distinct⟩
    have left : ({ m with readCnt := m.readCnt - 1 }.at_ t .outside).Inv :=
      counted.move (h.away (by rw [place]; decide)) (by decide)
    split
    · exact left.signal
    · exact left
  next => exact nomatch hstep

/-- Taking the free lock without readers makes the thread the one writer. -/
theorem Inv.acquire {m : Monitor} (h : m.Inv) {t : Tid} (place : m.pc t ≠ .waiting)
    (unlocked : m.holder = none) (clear : ¬m.readCnt > 0) :
    ({ m with holder := some t }.at_ t .writing).Inv := by
  refine ⟨fun u => ?_, fun _ => clear, fun u hu => ?_, h.distinct⟩
  · rw [at_pc]
    split
    next same => exact fun _ => congrArg some same.symm
    next =>
      intro writing
      have held := h.owner u writing
      rw [unlocked] at held
      exact nomatch held
  · have ne : u ≠ t := by
      rintro rfl
      exact place (h.waits u hu)
    rw [at_pc, if_neg ne]
    exact h.waits u hu

theorem Inv.enterWrite {m m' : Monitor} {t : Tid} {priority : Int} (h : m.Inv)
    (hstep : m.enterWrite t priority = some m') : m'.Inv := by
  unfold Monitor.enterWrite at hstep
  split at hstep
  next guard =>
    obtain ⟨place, unlocked⟩ := guard
    have away := h.away (t := t) (by rw [place]; decide)
    split at hstep
    next readers =>
      obtain rfl := Option.some.inj hstep
      have perm := condWait_threads m.readEnd t priority
      refine ⟨fun u => ?_, fun locked => absurd unlocked locked, fun u hu => ?_, ?_⟩
      · rw [at_pc]
        split
        · exact fun writing => nomatch writing
        · exact h.owner u
      · rw [at_pc]
        split
        · rfl
        · rcases List.mem_cons.mp (perm.subset hu) with same | old
          · contradiction
          · exact h.waits u old
      · exact perm.nodup_iff.mpr (List.nodup_cons.mpr ⟨away, h.distinct⟩)
    next clear =>
      obtain rfl := Option.some.inj hstep
      exact h.acquire (by rw [place]; decide) unlocked clear
  next => exact nomatch hstep

theorem Inv.leaveWrite {m m' : Monitor} {t : Tid} (h : m.Inv) (hstep : m.leaveWrite t = some m') :
    m'.Inv := by
  unfold Monitor.leaveWrite at hstep
  split at hstep
  next place =>
    obtain rfl := Option.some.inj hstep
    have away : t ∉ m.signal.readEnd.threads ∧ m.signal.holder = m.holder := by
      obtain ⟨_, eq⟩ | ⟨u, rest, perm, eq⟩ := condSignal_cases m.readEnd
      · rw [Monitor.signal, eq]
        exact ⟨h.away (by rw [place]; decide), rfl⟩
      · rw [Monitor.signal, eq]
        refine ⟨fun waits => ?_, rfl⟩
        exact h.away (by rw [place]; decide) (perm.subset (List.mem_cons_of_mem u waits))
    have signalled := h.signal
    have held := h.owner t place
    refine ⟨fun u => ?_, fun locked => absurd rfl locked, fun u hu => ?_, signalled.distinct⟩
    · rw [at_pc]
      split
      · exact fun writing => nomatch writing
      next ne =>
        -- the lock had one holder, and it was `t`
        intro writing
        have other := signalled.owner u writing
        rw [away.2, held] at other
        exact absurd (Option.some.inj other).symm ne
    · have ne : u ≠ t := by
        rintro rfl
        exact away.1 hu
      rw [at_pc, if_neg ne]
      exact signalled.waits u hu
  next => exact nomatch hstep

theorem resumeWrite_eq {m m' : Monitor} {t : Tid} (hstep : m.resumeWrite t = some m') :
    m.pc t = .signalled ∧ m.holder = none ∧
      m' = { m with holder := some t }.at_ t .writing := by
  unfold resumeWrite at hstep
  split at hstep
  next guard => exact ⟨guard.1, guard.2, (Option.some.inj hstep).symm⟩
  next => exact nomatch hstep

theorem Inv.resumeWrite {m m' : Monitor} {t : Tid} (h : m.Inv) (clear : ¬m.readCnt > 0)
    (hstep : m.resumeWrite t = some m') : m'.Inv := by
  obtain ⟨place, unlocked, rfl⟩ := resumeWrite_eq hstep
  exact h.acquire (by rw [place]; decide) unlocked clear

end Monitor

section Functions

/-! The functions of the two files, one by one, and the steps of their callers. -/

def readInode := Monitor.enterRead

def readEnd := Monitor.leaveRead

def writeInode := Monitor.enterWrite

def writeEnd := Monitor.leaveWrite

def readCache := Monitor.enterRead

def endRead := Monitor.leaveRead

def writeCache := Monitor.enterWrite

def endWrite := Monitor.leaveWrite

def inodeStep (m : Monitor) : Monitor.Act → Option Monitor
  | .enterRead t => readInode m t
  | .leaveRead t => readEnd m t
  | .enterWrite t priority => writeInode m t priority
  | .resumeWrite t => m.resumeWrite t
  | .leaveWrite t => writeEnd m t

def cacheStep (m : Monitor) : Monitor.Act → Option Monitor
  | .enterRead t => readCache m t
  | .leaveRead t => endRead m t
  | .enterWrite t priority => writeCache m t priority
  | .resumeWrite t => m.resumeWrite t
  | .leaveWrite t => endWrite m t

end Functions

namespace Monitor

theorem cacheStep_eq : cacheStep = inodeStep := by
  funext m act
  cases act <;> rfl

theorem inodeStep_inv {m m' : Monitor} {act : Act} (h : m.Inv) (ok : m.RecheckedWait act)
    (hstep : inodeStep m act = some m') : m'.Inv := by
  cases act with
  | enterRead t => exact h.enterRead hstep
  | leaveRead t => exact h.leaveRead hstep
  | enterWrite t priority => exact h.enterWrite hstep
  | resumeWrite t => exact h.resumeWrite ok hstep
  | leaveWrite t => exact h.leaveWrite hstep

/-- A writer that leaves `cond_wait` into an exclusive state left it without readers. -/
theorem inodeStep_need {m m' : Monitor} {act : Act} (safe : m'.Exclusive)
    (hstep : inodeStep m act = some m') : m.RecheckedWait act := by
  cases act with
  | resumeWrite t =>
    obtain ⟨_, _, rfl⟩ := resumeWrite_eq hstep
    exact safe t (by rw [at_pc, if_pos rfl])
  | enterRead t | leaveRead t | enterWrite t priority | leaveWrite t => trivial

/-- A run of readers and writers of one inode, or of one cache entry, keeps writers past their
wait apart from readers in all its states exactly when each of its writers leaves `cond_wait`
at a moment without readers. -/
theorem exclusion_iff_rechecked (acts : List Act) :
    (Always inodeStep Exclusive init acts ↔ Each inodeStep RecheckedWait init acts) ∧
    (Always cacheStep Exclusive init acts ↔ Each cacheStep RecheckedWait init acts) := by
  have runs : Always inodeStep Exclusive init acts ↔ Each inodeStep RecheckedWait init acts :=
    always_iff_each (fun _ h => h.exclusive) (fun _ _ _ h ok hstep => inodeStep_inv h ok hstep)
      (fun _ _ _ _ safe hstep => inodeStep_need safe hstep) acts init_inv
  rw [cacheStep_eq]
  exact ⟨runs, runs⟩

/-- Thread 1 reads, thread 2 waits to write and is signalled, and thread 3 starts to read before
thread 2 has the lock again. -/
theorem reader_slips_in : ∃ m, Reach (Fires inodeStep) (fun _ _ => True) (· = init) m ∧
    m.pc 2 = .writing ∧ m.readCnt > 0 :=
  Reach.eval [.enterRead 1, .enterWrite 2 31, .leaveRead 1, .enterRead 3, .resumeWrite 2]
    (by decide)

end Monitor

end Pintos.Filesys
