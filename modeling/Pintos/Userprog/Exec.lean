import Mathlib.Data.List.TakeWhile
import Pintos.Lib.CStrings
import Pintos.Lib.Transition
import Pintos.Userprog.LockBalance
import Pintos.Userprog.Process

/-! `exec`: the caller in `process_execute` beside the child in `start_process` and `load`, one
statement a step.  The record of the child carries the result of `load` to the caller, which waits
for it at `load_barrier`. -/

namespace Pintos.LockUse

open Locking

/-- `load` after `file_lock` is acquired, up to the label `done`. -/
def loadLocked (x : Loading) : Uses Bool := do
  match ← filesysOpen x.opening with
  | none => return false
  | some inode => loadFile x inode

end Pintos.LockUse

namespace Pintos.Userprog

open CStrings Locking LockUse Transition LockUse.LockId

/-- What `exec` uses of `struct child_process_elem`, and what the end of the child writes. -/
structure LoadRecord where
  pid : Tid
  load : Bool
  loadBarrier : Nat
  exit : Bool
  waitBarrier : Nat

/-- `create_child`. -/
def LoadRecord.create (pid : Tid) : LoadRecord := ⟨pid, false, 0, false, 0⟩

inductive LockHolder
  | caller
  | child
  | other
  deriving DecidableEq

/-- A call of `exec`: the command line, which of the pages and blocks of memory can be had, what
`load` meets, the caller's records, which are of threads created before, and who holds
`file_lock`. -/
structure ExecCall where
  cmdLine : CString
  copyPage : Bool
  nameBlock : Bool
  threadPage : Bool
  recordBlock : Bool
  childNameBlock : Bool
  loading : Loading
  nextTid : Tid
  children : List LoadRecord
  older : ∀ r ∈ children, 1 ≤ r.pid ∧ r.pid < nextTid
  positive : 1 ≤ nextTid
  holder : Option LockHolder
  unborn : holder ≠ some .child

/-- `determine_argument`, null for a string of spaces. -/
def determineArgument (fileName : CString) : Option CString := (strtok 32 1 fileName).head?

/-- The copy of the command line in `fn_copy`. -/
def ExecCall.fnCopy (call : ExecCall) : CString :=
  ⟨call.cmdLine.1.take (Vm.pgsize - 1), fun mem => call.cmdLine.2 (List.mem_of_mem_take mem)⟩

/-- There is a name unless the string has spaces only. -/
theorem determineArgument_eq_none (fileName : CString) :
    determineArgument fileName = none ↔ ∀ c ∈ fileName.1, c = 32 := by
  have dropped : fileName.1.dropWhile (· == 32) = [] ↔ ∀ c ∈ fileName.1, c = 32 := by
    simp [List.dropWhile_eq_nil_iff]
  rw [← dropped, determineArgument, strtok]
  dsimp only
  split
  next empty => simp [empty]
  next some => simp [some]

theorem ExecCall.named (call : ExecCall) (name : determineArgument call.fnCopy ≠ none) :
    determineArgument call.cmdLine ≠ none := by
  intro empty
  apply name
  rw [determineArgument_eq_none] at empty ⊢
  exact fun c mem => empty c (List.mem_of_mem_take mem)

/-- The statement that the caller comes to next.  A page fault in the kernel ends it. -/
inductive CallerPc
  | pallocGetPage
  | determineArgument
  | threadCreate
  | getChild (pid : Tid)
  | semaDown (child : Option Nat) (pid : Tid)
  | testLoad (child : Nat) (pid : Tid)
  | returned (pid : Tid)
  | faulted
  deriving DecidableEq

/-- The statements left to the caller. -/
def CallerPc.left : CallerPc → Nat
  | .pallocGetPage => 6
  | .determineArgument => 5
  | .threadCreate => 4
  | .getChild _ => 3
  | .semaDown _ _ => 2
  | .testLoad _ _ => 1
  | .returned _ | .faulted => 0

/-- The statement that the child comes to next.  After a page fault in the kernel it goes to
`exit`. -/
inductive StartPc
  | unborn
  | pagedirCreate
  | determineArgument
  | lockAcquire
  | filesysOpen
  | done (success : Bool)
  | lockRelease (success : Bool)
  | semaUp (success : Bool)
  | running
  | exiting
  | gone
  deriving DecidableEq

/-- The statements left to the child, without its program. -/
def StartPc.left : StartPc → Nat
  | .unborn => 9
  | .pagedirCreate => 8
  | .determineArgument => 7
  | .lockAcquire => 6
  | .filesysOpen => 5
  | .done _ => 4
  | .lockRelease _ => 3
  | .semaUp _ => 2
  | .running | .exiting => 1
  | .gone => 0

/-- `children` has the records in `child_process_list`, `holder` is that of `file_lock`, and `held`
has the locks of the child.  `loaded` and `signals` are for the statements: what `load` returned,
and how often it raised `load_barrier`. -/
structure ExecState where
  caller : CallerPc
  child : StartPc
  children : List LoadRecord
  holder : Option LockHolder
  held : Finset LockId
  panicked : Bool
  loaded : Option Bool
  signals : Nat

/-- The caller or the child takes its next step, the program of the child comes to its end, or
another thread takes or gives back `file_lock`. -/
inductive ExecAct
  | caller
  | child
  | exit
  | acquire
  | release
  deriving DecidableEq

namespace ExecState

def start (call : ExecCall) : ExecState :=
  ⟨.pallocGetPage, .unborn, call.children, call.holder, ∅, false, none, 0⟩

def getChild (st : ExecState) (pid : Tid) : Option Nat :=
  st.children.findIdx? fun r => r.pid = pid

def goto (st : ExecState) (pc : CallerPc) : ExecState := { st with caller := pc }

def move (st : ExecState) (pc : StartPc) : ExecState := { st with child := pc }

def panic (st : ExecState) : ExecState := { st with panicked := true }

/-- The child, whose record is behind those that were there, writes to its record. -/
def write (st : ExecState) (call : ExecCall) (f : LoadRecord → LoadRecord) : ExecState :=
  { st with children := st.children.modify call.children.length f }

/-- The next statement of `process_execute` or `exec`. -/
def callerStep (call : ExecCall) (st : ExecState) : Option ExecState :=
  match st.caller with
  | .pallocGetPage => some (st.goto (if call.copyPage then .determineArgument else .getChild (-1)))
  | .determineArgument => some (st.goto (if call.nameBlock then .threadCreate else .faulted))
  | .threadCreate =>
    if call.threadPage then
      -- `init_thread` asserts that there is a name
      if determineArgument call.cmdLine = none then some st.panic
      else if call.recordBlock then
        some ({ st with
          children := st.children ++ [LoadRecord.create call.nextTid]
          child := .pagedirCreate }.goto (.getChild call.nextTid))
      else some (st.goto .faulted)
    else some (st.goto (.getChild (-1)))
  | .getChild pid => some (st.goto (.semaDown (st.getChild pid) pid))
  | .semaDown none _ => some (st.goto .faulted)
  | .semaDown (some child) pid =>
    (st.children[child]?).bind fun r =>
      if r.loadBarrier = 0 then none
      else
        some ({ st with
          children := st.children.modify child fun r =>
            { r with loadBarrier := r.loadBarrier - 1 } }.goto (.testLoad child pid))
  | .testLoad child pid =>
    (st.children[child]?).map fun r => st.goto (.returned (if r.load then pid else -1))
  | .returned _ | .faulted => none

/-- The next statement of the child. -/
def childStep (call : ExecCall) (st : ExecState) : Option ExecState :=
  match st.child with
  | .pagedirCreate =>
    some (st.move (if call.loading.pagedir then .determineArgument else .done false))
  | .determineArgument => some (st.move (if call.childNameBlock then .lockAcquire else .exiting))
  | .lockAcquire =>
    if st.holder = none then
      some { st with child := .filesysOpen, holder := some .child, held := {fileLock} }
    else none
  | .filesysOpen =>
    if determineArgument call.fnCopy = none then some (st.move .exiting)
    else
      match loadLocked call.loading st.held with
      | none => some st.panic
      | some (success, held) =>
        some { st with
          child := .done success
          holder := if fileLock ∈ held then st.holder else none
          held := held }
  | .done success =>
    some ((st.write call fun r => { r with load := success }).move (.lockRelease success))
  | .lockRelease success =>
    if fileLock ∈ st.held then
      some { st with
        child := .semaUp success
        holder := none
        held := st.held.erase fileLock }
    else some st.panic
  | .semaUp success =>
    some ({ st.write call fun r => { r with loadBarrier := r.loadBarrier + 1 } with
      loaded := some success
      signals := st.signals + 1 }.move (if success then .running else .exiting))
  | .exiting =>
    some ({ st.write call fun r => { r with exit := true, waitBarrier := r.waitBarrier + 1 } with
      holder := if st.holder = some LockHolder.child then none else st.holder
      held := ∅ }.move .gone)
  | .unborn | .running | .gone => none

def step (call : ExecCall) (st : ExecState) (act : ExecAct) : Option ExecState :=
  if st.panicked then none
  else
    match act with
    | .caller => st.callerStep call
    | .child => st.childStep call
    | .exit => if st.child = .running then some (st.move .exiting) else none
    | .acquire => if st.holder = none then some { st with holder := some .other } else none
    | .release => if st.holder = some .other then some { st with holder := none } else none

/-- In an interleaving of the caller, the child and the other threads. -/
abbrev Reached (call : ExecCall) : ExecState → Prop :=
  Reach (Fires (step call)) (fun _ _ => True) (· = start call)

/-- Neither the caller nor the child can go on, and nobody else is to give back `file_lock`. -/
def Stuck (call : ExecCall) (st : ExecState) : Prop :=
  st.step call .caller = none ∧ st.step call .child = none ∧ st.holder ≠ some .other

/-- What `exec` is to do, whatever the order of the steps: it returns the thread that was created if
`load` returned true, and else -1, finds the record of the child, comes to an end, and `load` raises
`load_barrier` once. -/
structure Reports (call : ExecCall) : Prop where
  value : ∀ st, Reached call st → ∀ pid, st.caller = .returned pid →
    pid = if st.loaded = some true then call.nextTid else -1
  present : ∀ st, Reached call st → ∀ pid, st.caller ≠ .semaDown none pid
  once : ∀ st, Reached call st → st.signals ≤ 1 ∧
    (st.Stuck call → st.child ≠ .unborn → st.signals = 1)
  returns : ∀ st, Reached call st → st.Stuck call → ∃ pid, st.caller = .returned pid
  ends : ∀ acts st, exec (step call) (start call) acts = some st →
    (acts.filter fun act => act = .caller ∨ act = .child).length ≤ 15

/-- There is memory for what is made before `load` looks at the file, a name within the copy of the
command line, `load` misuses no lock, and the caller does not hold `file_lock`. -/
structure Fit (call : ExecCall) : Prop where
  memory : call.copyPage = true ∧ call.nameBlock = true ∧ call.threadPage = true ∧
    call.recordBlock = true ∧ call.childNameBlock = true
  name : determineArgument call.fnCopy ≠ none
  load : call.loading.Ok ∅
  lock : call.holder ≠ some .caller

section Steps

variable {call : ExecCall} {st st' : ExecState}

theorem Reached.caller (reached : Reached call st) (fine : st.panicked = false)
    (run : st.callerStep call = some st') : Reached call st' := by
  refine reached.take .caller trivial ?_
  rw [step, fine]
  exact run

theorem Reached.child (reached : Reached call st) (fine : st.panicked = false)
    (run : st.childStep call = some st') : Reached call st' := by
  refine reached.take .child trivial ?_
  rw [step, fine]
  exact run

/-- The child is made after the first three statements of the caller. -/
def Born (st : ExecState) : Prop :=
  st.caller = .pallocGetPage ∨ st.caller = .determineArgument ∨ st.caller = .threadCreate →
    st.child = .unborn

def rank (st : ExecState) : Nat := if st.panicked then 0 else st.caller.left + st.child.left

theorem callerStep_rank (born : st.Born) (fine : st.panicked = false)
    (run : st.callerStep call = some st') : st'.Born ∧ st'.rank < st.rank := by
  obtain ⟨caller, child, children, holder, held, panicked, loaded, signals⟩ := st
  subst fine
  cases caller with
  | pallocGetPage =>
    cases run
    refine ⟨fun _ => born (.inl rfl), ?_⟩
    cases call.copyPage <;> simp [rank, goto, CallerPc.left]
  | determineArgument =>
    cases run
    refine ⟨fun _ => born (.inr (.inl rfl)), ?_⟩
    cases call.nameBlock <;> simp [rank, goto, CallerPc.left]
  | threadCreate =>
    have unborn : child = .unborn := born (.inr (.inr rfl))
    subst unborn
    simp only [callerStep] at run
    split at run
    · split at run
      · cases run
        exact ⟨fun _ => rfl, by simp [rank, panic, CallerPc.left, StartPc.left]⟩
      · split at run
        · cases run
          exact ⟨by simp [Born, goto], by simp [rank, goto, CallerPc.left, StartPc.left]⟩
        · cases run
          exact ⟨fun _ => rfl, by simp [rank, goto, CallerPc.left]⟩
    · cases run
      exact ⟨fun _ => rfl, by simp [rank, goto, CallerPc.left]⟩
  | getChild pid =>
    cases run
    exact ⟨by simp [Born, goto], by simp [rank, goto, CallerPc.left]⟩
  | semaDown record pid =>
    cases record with
    | none =>
      cases run
      exact ⟨by simp [Born, goto], by simp [rank, goto, CallerPc.left]⟩
    | some n =>
      obtain ⟨r, -, taken⟩ := Option.bind_eq_some_iff.mp run
      split at taken
      · cases taken
      · cases taken
        exact ⟨by simp [Born, goto], by simp [rank, goto, CallerPc.left]⟩
  | testLoad n pid =>
    obtain ⟨r, -, rfl⟩ := Option.map_eq_some_iff.mp run
    exact ⟨by simp [Born, goto], by simp [rank, goto, CallerPc.left]⟩
  | returned pid => cases run
  | faulted => cases run

theorem childStep_rank (born : st.Born) (fine : st.panicked = false)
    (run : st.childStep call = some st') : st'.Born ∧ st'.rank < st.rank := by
  obtain ⟨caller, child, children, holder, held, panicked, loaded, signals⟩ := st
  subst fine
  have late : child ≠ .unborn → ∀ st : ExecState, st.caller = caller → st.Born := by
    intro begun st same early
    exact absurd (born (same ▸ early)) begun
  cases child with
  | unborn => cases run
  | pagedirCreate =>
    cases run
    refine ⟨late (by simp) _ rfl, ?_⟩
    cases call.loading.pagedir <;> simp [rank, move, StartPc.left]
  | determineArgument =>
    cases run
    refine ⟨late (by simp) _ rfl, ?_⟩
    cases call.childNameBlock <;> simp [rank, move, StartPc.left]
  | lockAcquire =>
    simp only [childStep] at run
    split at run
    · cases run
      exact ⟨late (by simp) _ rfl, by simp [rank, StartPc.left]⟩
    · cases run
  | filesysOpen =>
    simp only [childStep] at run
    split at run
    · cases run
      exact ⟨late (by simp) _ rfl, by simp [rank, move, StartPc.left]⟩
    · split at run
      · cases run
        exact ⟨late (by simp) _ rfl, by simp [rank, panic, StartPc.left]⟩
      · cases run
        exact ⟨late (by simp) _ rfl, by simp [rank, StartPc.left]⟩
  | done success =>
    cases run
    exact ⟨late (by simp) _ rfl, by simp [rank, move, write, StartPc.left]⟩
  | lockRelease success =>
    simp only [childStep] at run
    split at run
    · cases run
      exact ⟨late (by simp) _ rfl, by simp [rank, StartPc.left]⟩
    · cases run
      exact ⟨late (by simp) _ rfl, by simp [rank, panic, StartPc.left]⟩
  | semaUp success =>
    cases run
    refine ⟨late (by simp) _ rfl, ?_⟩
    cases success <;> simp [rank, move, write, StartPc.left]
  | running => cases run
  | exiting =>
    cases run
    exact ⟨late (by simp) _ rfl, by simp [rank, move, write, StartPc.left]⟩
  | gone => cases run

/-- A run has so many steps of the caller and the child. -/
theorem exec_rank {acts : List ExecAct} (born : st.Born)
    (run : exec (step call) st acts = some st') :
    (acts.filter fun act => act = .caller ∨ act = .child).length + st'.rank ≤ st.rank := by
  induction acts generalizing st with
  | nil =>
    cases run
    simp
  | cons act acts ih =>
    obtain ⟨mid, first, rest⟩ := exec_cons run
    cases fine : st.panicked with
    | true => simp [step, fine] at first
    | false =>
      unfold step at first
      rw [fine] at first
      cases act with
      | caller =>
        have less := callerStep_rank born fine first
        have more := ih less.1 rest
        simp only [List.filter_cons, decide_true, true_or, if_true, List.length_cons]
        omega
      | child =>
        have less := childStep_rank born fine first
        have more := ih less.1 rest
        simp only [List.filter_cons, decide_true, or_true, if_true, List.length_cons]
        omega
      | exit =>
        obtain ⟨running, exits⟩ := Option.ite_none_right_eq_some.mp first
        cases exits
        have more := ih (fun early => by rw [born early] at running; cases running) rest
        simpa [rank, fine, move, running, StartPc.left] using more
      | acquire =>
        obtain ⟨-, acquired⟩ := Option.ite_none_right_eq_some.mp first
        cases acquired
        have more := ih (by exact born) rest
        simpa [rank, fine] using more
      | release =>
        obtain ⟨-, released⟩ := Option.ite_none_right_eq_some.mp first
        cases released
        have more := ih (by exact born) rest
        simpa [rank, fine] using more

/-- A call takes fifteen steps of the caller and the child at most. -/
theorem exec_ends {acts : List ExecAct} (run : exec (step call) (start call) acts = some st) :
    (acts.filter fun act => act = .caller ∨ act = .child).length ≤ 15 :=
  (Nat.le_add_right ..).trans (exec_rank (fun _ => rfl) run)

end Steps

end ExecState

end Pintos.Userprog
