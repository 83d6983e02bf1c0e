import Pintos.Filesys.FileBytes
import Pintos.Filesys.OutOfSpace
import Pintos.Filesys.Paths
import Pintos.Filesys.Shutdown

/-! `filesys_create` on the sectors of a device: the path, the inode with its sectors, and the entry
in the directory.  There is memory for the inodes and directories on the way. -/

namespace Pintos.Filesys

open Words CStrings ByteFiles Filesys.Tree

namespace Files

/-- The inode of an entry of a directory. -/
def lookup (st : Files) (d : Nat) (name : CString) : Option Nat :=
  (Filesys.lookup (st.byteFile d) name).map fun result => (inodeSector result.1).toNat

/-- The inode of a name on the way, `none` where `true_dir` returns a null pointer.  There is no
result for a pointer to an inode that was freed. -/
def component (st : Files) (d inode : Nat) (token : CString) : Option (Option Nat) :=
  if token = dotdot then
    (st.opens inode).map fun o => if o.data.parent = 0 then none else some o.data.parent
  else some (st.lookup d token)

/-- The inode is opened, and closed again or, if it is a directory, the directory before. -/
def enter (dev : Nat → Bytes) (st : Files) (d s : Nat) : Option (Files × Nat) :=
  let st := st.inodeOpen s
  if (st.inode s).isdir then (st.inodeClose dev d).toOption.map fun st => (st, s)
  else (st.inodeClose dev s).toOption.map fun st => (st, d)

/-- The loop of `true_dir`. -/
def walk (dev : Nat → Bytes) :
    Files → Nat → Nat → CString → List CString → Option (Files × Option (Nat × Option CString))
  | st, d, _, token, [] => some (st, some (d, some token))
  | st, d, inode, token, next :: rest =>
    if token = dot then walk dev st d inode token rest
    else
      match st.component d inode token with
      | none => none
      | some none => some (st, none)
      | some (some s) => (st.enter dev d s).bind fun (st, d) => walk dev st d s next rest

/-- The inode of the directory where `true_dir` starts. -/
def startDir (cur : Option Nat) (path : CString) : Nat :=
  match cur with
  | some d => if path.1.head? = some 47 then 1 else d
  | none => 1

/-- `true_dir`, in a thread with the current directory `cur`, which it has open. -/
def trueDir (dev : Nat → Bytes) (st : Files) (cur : Option Nat) (path : CString) :
    Option (Files × Option (Nat × Option CString)) :=
  if path.1 = [] then some (st, none)
  else
    let d := startDir cur path
    let st := st.inodeOpen d
    match strtok 47 path.1.length path with
    | [] => some (st, some (d, none))
    | token :: rest => st.walk dev d d token rest

/-- `dir_add`. -/
def dirAdd (st : Files) (d : Nat) (name : CString) (sector : Nat) (junk : Bytes) :
    Except Fault (Files × Bool) :=
  if name.1 = [] ∨ nameMax < name.1.length then .ok (st, false)
  else if (st.lookup d name).isSome then .ok (st, false)
  else
    match st.opens d with
    | none => .ok (st, false)
    | some inode => do
      let (_, ofs, e) := forEntries (st.byteFile d) (fun e => !inUse e) junk
      let (fs, inode, written) ← inodeWriteAt st.fs inode (newEntry e name (.ofNat sector)) 20 ofs
      .ok ({ st with fs := fs, opens := Function.update st.opens d (some inode) }, written = 20)

/-- The part of `filesys_create` that makes the inode and its entry, with the sector and the result.
A sector is released again when the inode or the entry is not made. -/
def createEntry (st : Files) (d : Nat) (name : CString) (size : Nat) (isdir calloc : Bool)
    (junk : Bytes) : Except Fault (Files × Nat × Bool) :=
  match st.fs.free.allocate 1 with
  | (free, none) => .ok ({ st with fs := { st.fs with free := free } }, 0, false)
  | (free, some s) => do
    let (fs, made) ← inodeCreateResult { st.fs with free := free } s size isdir calloc
    let st := { st with fs := fs, live := if made then Function.update st.live s true else st.live }
    let (st, success) ← if made then st.dirAdd d name s junk else .ok (st, false)
    if !success && s != 0 then do
      let free ← st.fs.free.release s 1
      .ok (⟨{ st.fs with free := free }, st.opens, Function.update st.live s false⟩, s, false)
    else .ok (st, s, success)

/-- The part of `filesys_create` for the parent of a directory, with the result. -/
def setParent (dev : Nat → Bytes) (st : Files) (d s : Nat) (malloc success : Bool) :
    Except Fault (Files × Bool) :=
  if (st.opens s).isNone && !malloc then .ok (st, false)
  else do
    let st ← ((st.inodeOpen s).inodeSetParent s d).inodeClose dev s
    .ok (st, success)

/-- `filesys_create`, where `calloc` and `malloc` say whether there is memory for the record of the
inode and for the inode of a directory.  There is no result after a fault. -/
def filesysCreate (dev : Nat → Bytes) (st : Files) (cur : Option Nat) (path : CString) (size : Nat)
    (isdir calloc malloc : Bool) (junk : Bytes) : Option (Files × Bool) :=
  match st.trueDir dev cur path with
  | none => none
  | some (st, none) => some (st, false)
  | some (_, some (_, none)) => none
  | some (st, some (d, some name)) =>
    if name = dot ∨ name = dotdot then (st.inodeClose dev d).toOption.map fun st => (st, false)
    else
      Except.toOption do
        let (st, s, success) ← st.createEntry d name size isdir calloc junk
        let (st, success) ←
          if isdir then st.setParent dev d s malloc success else .ok (st, success)
        let st ← st.inodeClose dev d
        .ok (st, success)

end Files

end Pintos.Filesys
