import Mathlib.Data.List.Nodup
import Mathlib.Logic.Function.Basic
import Pintos.Lib.Transition

/-! A parent and its children in `process.c` and `syscall.c`: `process_wait` and `process_exit` of
the parent beside `exit` and `process_exit` of the children, one statement or semaphore operation a
step.
They share the records of the children, which only the parent frees. -/

namespace Pintos.Userprog

open Transition

abbrev Tid := Int

/-- `struct child_process_elem`; `waitBarrier` is the value of the semaphore and `files` the length
of `file_list`. -/
structure ChildProcess where
  processWait : Bool
  exit : Bool
  status : Int
  waitBarrier : Nat
  files : Nat
  deriving DecidableEq

/-- `create_child`, with `child_init`.  `status` has what `malloc` returned. -/
def createChild (status : Int) : ChildProcess := ⟨false, false, status, 0, 0⟩

/-- How a process came to its end. -/
inductive Cause
  | exited (status : Int)
  | killed
  deriving DecidableEq

/-- What a wait for the process is to return. -/
def Cause.value : Cause → Int
  | .exited status => status
  | .killed => -1

/-- The statement that the parent comes to next. -/
inductive ParentPc
  | idle
  | getChild (t : Tid)
  | testChild (t : Tid) (found : Bool)
  | setProcessWait (t : Tid)
  | waitReturn (t : Tid)
  | testExit (t : Tid)
  | setStatus (t : Tid)
  | getStatus (t : Tid)
  | removeChild (t : Tid) (status : Int)
  | freeChild (t : Tid) (status : Int)
  | returned (t : Tid) (status : Int)
  | popChildren
  | freePopped (t : Tid)
  | leaving
  | gone
  deriving DecidableEq

/-- The statement that a child comes to next. -/
inductive ChildPc
  | unborn
  | running
  | testParent (status : Int)
  | setStatus (status : Int)
  | setExit (status : Int)
  | semaUp
  | testFiles
  | popFile
  | done
  deriving DecidableEq

/-- The child is in `process_exit`. -/
def ChildPc.InProcessExit : ChildPc → Prop
  | .semaUp | .testFiles | .popFile | .done => True
  | _ => False

/-- The child has raised its `wait_barrier`. -/
def ChildPc.Raised : ChildPc → Prop
  | .testFiles | .popFile | .done => True
  | _ => False

/-- The records by thread with those freed, `child_process_list` of the parent, and where everyone
is.  `cause`, `waited`, `fresh` and `downed` are for the statements: how a child ended, for which
children `process_wait` was called, whether the current call is the first for a child, and for which
children it is past the semaphore. -/
structure Procs where
  record : Tid → ChildProcess
  freed : Tid → Bool
  children : List Tid
  created : Tid → Bool
  parentPc : ParentPc
  childPc : Tid → ChildPc
  useAfterFree : Bool
  cause : Tid → Option Cause
  waited : Tid → Bool
  fresh : Bool
  downed : Tid → Bool

inductive Act
  | create (t : Tid) (status : Int)
  | wait (t : Tid)
  | processExit
  | parent
  | openFile (t : Tid)
  | exit (t : Tid) (status : Int)
  | kill (t : Tid)
  | child (t : Tid)
  deriving DecidableEq

namespace Procs

def init : Procs where
  record := fun _ => createChild 0
  freed := fun _ => false
  children := []
  created := fun _ => false
  parentPc := .idle
  childPc := fun _ => .unborn
  useAfterFree := false
  cause := fun _ => none
  waited := fun _ => false
  fresh := false
  downed := fun _ => false

/-- An access to the record of a thread. -/
def access (s : Procs) (t : Tid) (f : ChildProcess → ChildProcess) : Procs :=
  { s with
    record := Function.update s.record t (f (s.record t))
    useAfterFree := s.useAfterFree || s.freed t }

def goto (s : Procs) (pc : ParentPc) : Procs := { s with parentPc := pc }

def move (s : Procs) (t : Tid) (pc : ChildPc) : Procs :=
  { s with childPc := Function.update s.childPc t pc }

/-- The next statement of the parent in `process_wait` or `process_exit`. -/
def parentStep (s : Procs) : Option Procs :=
  match s.parentPc with
  | .getChild t => some (s.goto (.testChild t (decide (t ∈ s.children))))
  | .testChild t false => some (s.goto (.returned t (-1)))
  | .testChild t true =>
    some ((s.access t id).goto
      (if (s.record t).processWait then .returned t (-1) else .setProcessWait t))
  | .setProcessWait t =>
    some ((s.access t fun r => { r with processWait := true }).goto (.waitReturn t))
  | .waitReturn t =>
    if (s.record t).waitBarrier = 0 then none
    else
      some (({ s with downed := Function.update s.downed t true }.access t fun r =>
        { r with waitBarrier := r.waitBarrier - 1 }).goto (.testExit t))
  | .testExit t =>
    some ((s.access t id).goto (if (s.record t).exit then .getStatus t else .setStatus t))
  | .setStatus t => some ((s.access t fun r => { r with status := -1 }).goto (.getStatus t))
  | .getStatus t => some ((s.access t id).goto (.removeChild t (s.record t).status))
  | .removeChild t status =>
    some ({ s.access t id with children := s.children.erase t }.goto (.freeChild t status))
  | .freeChild t status =>
    some ({ s with freed := Function.update s.freed t true }.goto (.returned t status))
  | .returned _ _ => some (s.goto .idle)
  | .popChildren =>
    match s.children with
    | [] => some (s.goto .leaving)
    | t :: rest => some ({ s.access t id with children := rest }.goto (.freePopped t))
  | .freePopped t =>
    some ({ s with freed := Function.update s.freed t true }.goto .popChildren)
  | .leaving => some (s.goto .gone)
  | .idle | .gone => none

/-- The next statement of a child in `exit` or `process_exit`. -/
def childStep (s : Procs) (t : Tid) : Option Procs :=
  match s.childPc t with
  | .testParent status =>
    some (s.move t (if s.parentPc = .gone then .semaUp else .setStatus status))
  | .setStatus status =>
    some ((s.access t fun r => { r with status := status }).move t (.setExit status))
  | .setExit _ => some ((s.access t fun r => { r with exit := true }).move t .semaUp)
  | .semaUp =>
    some ((s.access t fun r => { r with waitBarrier := r.waitBarrier + 1 }).move t .testFiles)
  | .testFiles =>
    some ((s.access t id).move t (if (s.record t).files = 0 then .done else .popFile))
  | .popFile =>
    some ((s.access t fun r => { r with files := r.files - 1 }).move t .testFiles)
  | .unborn | .running | .done => none

def step (s : Procs) : Act → Option Procs
  | .create t status =>
    if s.parentPc = .idle ∧ s.created t = false then
      some ({ s with
        record := Function.update s.record t (createChild status)
        children := s.children ++ [t]
        created := Function.update s.created t true }.move t .running)
    else none
  | .wait t =>
    if s.parentPc = .idle then
      some ({ s with
        fresh := s.created t && !s.waited t
        waited := Function.update s.waited t (s.waited t || s.created t) }.goto (.getChild t))
    else none
  | .processExit => if s.parentPc = .idle then some (s.goto .popChildren) else none
  | .parent => s.parentStep
  | .openFile t =>
    if s.childPc t = .running then some (s.access t fun r => { r with files := r.files + 1 })
    else none
  | .exit t status =>
    if s.childPc t = .running then
      some ({ s with cause := Function.update s.cause t (some (.exited status)) }.move t
        (.testParent status))
    else none
  | .kill t =>
    if s.childPc t = .running then
      some ({ s with cause := Function.update s.cause t (some .killed) }.move t .semaUp)
    else none
  | .child t => s.childStep t

end Procs

end Pintos.Userprog
