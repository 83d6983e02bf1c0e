import Pintos.Lib.NameTree
import Pintos.Lib.Transition
import Pintos.Filesys.Directory

/-! The tree of directories: `true_dir` follows a path, and `filesys_create` and `filesys_remove`
make and erase entries at its end.  Every inode has its own bytes here; the sectors behind them are
left out. -/

namespace Pintos.Filesys

open Words CStrings ByteFiles Transition

/-- `struct inode_disk`, without its pointers. -/
structure Record where
  length : Nat
  isdir : Bool
  parent : UInt32
  deriving DecidableEq

structure Node where
  openCnt : Nat
  removed : Bool
  data : Record
  deriving DecidableEq

/-- The inodes by sector, on the device and in `open_inodes`, with their bytes, and the sectors that
the free map has in use for them. -/
structure Tree where
  disk : UInt32 → Record
  bytes : UInt32 → Bytes
  opens : UInt32 → Option Node
  used : UInt32 → Bool

/-- Which allocations of memory succeed in a call: of an inode and of a `struct dir` in `true_dir`
with so many names to come, and the `calloc` of `inode_create`, the `malloc` of the last
`inode_open` and the `calloc` of the last `dir_open`. -/
structure Memory where
  node : Nat → Bool
  dir : Nat → Bool
  record : Bool
  inode : Bool
  handle : Bool

/-- What `true_dir` finds for a name on the way: it returns a null pointer, or goes on with an
inode, which may be a null pointer. -/
inductive Found
  | failed
  | inode (pointer : Option UInt32)

/-- What `true_dir` returns: a null pointer, or a directory with the last name, each of which may be
a null pointer. -/
inductive NameInDir
  | null
  | nid (dir : Option UInt32) (name : Option CString)

/-- `"."` and `".."`. -/
def dot : CString := ⟨[46], by decide⟩

def dotdot : CString := ⟨[46, 46], by decide⟩

namespace Tree

/-- The record of an inode, in memory while it is open. -/
def record (t : Tree) (s : UInt32) : Record :=
  match t.opens s with
  | some node => node.data
  | none => t.disk s

def file (t : Tree) (s : UInt32) : ByteFile := ⟨t.bytes s, (t.record s).length⟩

def inodeCreate (t : Tree) (sector : UInt32) (length : Nat) (isdir : Bool) : Tree :=
  { t with
    disk := Function.update t.disk sector ⟨length, isdir, 1⟩
    bytes := Function.update t.bytes sector fun _ => 0 }

/-- `inode_open`; there is no result when it needs memory and gets none. -/
def inodeOpen (t : Tree) (s : UInt32) (memory : Bool) : Option Tree :=
  match t.opens s with
  | some node =>
    some { t with opens :=
      Function.update t.opens s (some { node with openCnt := node.openCnt + 1 }) }
  | none =>
    if memory then
      some { t with opens := Function.update t.opens s (some ⟨1, false, t.disk s⟩) }
    else none

/-- `inode_close`.  The last one writes the record, and frees the sector of a removed inode. -/
def inodeClose (t : Tree) (s : UInt32) : Tree :=
  match t.opens s with
  | none => t
  | some node =>
    if node.openCnt - 1 = 0 then
      { t with
        disk := Function.update t.disk s node.data
        opens := Function.update t.opens s none
        used := if node.removed then Function.update t.used s false else t.used }
    else
      { t with opens :=
        Function.update t.opens s (some { node with openCnt := node.openCnt - 1 }) }

/-- `inode_close` and `dir_close` of a pointer. -/
def close (t : Tree) : Option UInt32 → Tree
  | some s => t.inodeClose s
  | none => t

/-- `dir_open`, which closes the inode when it gets no memory. -/
def dirOpen (t : Tree) (s : UInt32) (memory : Bool) : Tree × Option UInt32 :=
  if memory then (t, some s) else (t.inodeClose s, none)

def inodeSetParent (t : Tree) (s parent : UInt32) : Tree :=
  match t.opens s with
  | none => t
  | some node =>
    let data := { node.data with parent := parent }
    { t with
      disk := Function.update t.disk s data
      opens := Function.update t.opens s (some { node with data := data }) }

/-- The file of an open inode with new contents. -/
def write (t : Tree) (s : UInt32) (f : ByteFile) : Tree :=
  { t with
    bytes := Function.update t.bytes s f.bytes
    opens := Function.update t.opens s
      ((t.opens s).map fun node => { node with data := { node.data with length := f.length } }) }

def inodeRemove (t : Tree) (s : UInt32) : Tree :=
  { t with opens :=
    Function.update t.opens s ((t.opens s).map fun node => { node with removed := true }) }

/-- The inode of a name on the way, in the loop of `true_dir`.  There is no next state after an
`ASSERT` that fails or a pointer to an inode that was freed. -/
def component (mem : Memory) (t : Tree) (dir inode : Option UInt32) (token : CString) (more : Nat) :
    Option (Tree × Found) :=
  if token = dotdot then
    match inode with
    | none => some (t, .failed)
    | some s =>
      match t.opens s with
      | none => none
      | some node =>
        if node.data.parent = 0 then some (t, .failed)
        else
          match t.inodeOpen node.data.parent (mem.node more) with
          | some t => some (t, .inode (some node.data.parent))
          | none => some (t, .inode none)
  else
    match dir with
    | none => none
    | some d =>
      match lookup (t.file d) token with
      | none => some (t, .failed)
      | some (e, _) =>
        match t.inodeOpen (inodeSector e) (mem.node more) with
        | some t => some (t, .inode (some (inodeSector e)))
        | none => some (t, .failed)

/-- The directory for the rest of the path, with the name before closed: an inode that is not a
directory is closed itself. -/
def enter (mem : Memory) (t : Tree) (dir inode : Option UInt32) (more : Nat) :
    Tree × Option UInt32 :=
  match inode with
  | some s =>
    if (t.record s).isdir then (t.close dir).dirOpen s (mem.dir more) else (t.inodeClose s, dir)
  | none => (t, dir)

/-- The loop of `true_dir`.  A `"."` on the way takes the place of all names after it. -/
def walk (mem : Memory) :
    Tree → Option UInt32 → Option UInt32 → CString → List CString → Option (Tree × NameInDir)
  | t, dir, _, token, [] => some (t, .nid dir (some token))
  | t, dir, inode, token, next :: rest =>
    if token = dot then walk mem t dir inode token rest
    else
      match component mem t dir inode token rest.length with
      | none => none
      | some (t, .failed) => some (t, .null)
      | some (t, .inode inode) =>
        let (t, dir) := enter mem t dir inode rest.length
        walk mem t dir inode next rest

/-- `true_dir`, in a thread whose `cur_dir` is a null pointer.  The root directory must be
opened. -/
def trueDir (mem : Memory) (t : Tree) (path : CString) : Option (Tree × NameInDir) :=
  (t.inodeOpen 1 true).bind fun t =>
    match strtok 47 path.1.length path with
    | [] => some (t, .nid (some 1) none)
    | token :: rest => walk mem t (some 1) (some 1) token rest

/-- `dir_add`. -/
def dirAdd (t : Tree) (d : UInt32) (name : CString) (sector : UInt32) (junk : Bytes) :
    Tree × Bool :=
  match Filesys.dirAdd (t.file d) name sector junk with
  | (f, true) => (t.write d f, true)
  | (_, false) => (t, false)

/-- The directories that `dir_remove` keeps: those that are not empty or that others have open. -/
def busy (t : Tree) (s : UInt32) : Bool :=
  (t.record s).isdir && (!dirIsEmpty (t.file s) || (t.opens s).any fun node => 2 < node.openCnt)

/-- `dir_remove`, with the tree and the result. -/
def dirRemove (mem : Memory) (t : Tree) (d : UInt32) (name : CString) : Option (Tree × Bool) :=
  match lookup (t.file d) name with
  | none => some (t, false)
  | some (e, _) =>
    match t.inodeOpen (inodeSector e) mem.inode with
    | none => some (t, false)
    | some t =>
      if (t.record (inodeSector e)).isdir && !mem.handle then none
      else
        match Filesys.dirRemove (t.file d) name t.busy with
        | (f, true) =>
          some (((t.write d f).inodeRemove (inodeSector e)).inodeClose (inodeSector e), true)
        | (_, false) => some (t.inodeClose (inodeSector e), false)

/-- The part of `filesys_create` that makes the inode and its entry, in the sector that
`free_map_allocate` returns, with the sector released again if one of the two fails. -/
def createEntry (mem : Memory) (t : Tree) (d : UInt32) (name : CString) (size : Nat) (isdir : Bool)
    (sector : UInt32) (junk : Bytes) : Tree × Bool :=
  let t := { t with used := Function.update t.used sector true }
  let (t, success) :=
    if mem.record then (t.inodeCreate sector size isdir).dirAdd d name sector junk else (t, false)
  (if success then t else { t with used := Function.update t.used sector false }, success)

/-- The part of `filesys_create` for the parent of a directory, with the result. -/
def setParent (mem : Memory) (t : Tree) (d sector : UInt32) (success : Bool) : Tree × Bool :=
  match t.inodeOpen sector mem.inode with
  | none => (t, false)
  | some t => ((t.inodeSetParent sector d).inodeClose sector, success)

/-- `filesys_create`.  The free map does not run out of sectors, and returns one that is not in
use. -/
def filesysCreate (mem : Memory) (t : Tree) (path : CString) (size : Nat) (isdir : Bool)
    (sector : UInt32) (junk : Bytes) : Option (Tree × Bool) :=
  if path.1 = [] then some (t, false)
  else
    match trueDir mem t path with
    | none => none
    | some (t, .null) => some (t, false)
    | some (_, .nid _ none) => none
    | some (t, .nid dir (some name)) =>
      if name = dot ∨ name = dotdot then some (t.close dir, false)
      else
        match dir with
        | none => some (t, false)
        | some d =>
          if t.used sector then none
          else
            let (t, success) := createEntry mem t d name size isdir sector junk
            let (t, success) := if isdir then setParent mem t d sector success else (t, success)
            some (t.inodeClose d, success)

/-- `filesys_remove`. -/
def filesysRemove (mem : Memory) (t : Tree) (path : CString) : Option (Tree × Bool) :=
  if path.1 = [] then some (t, false)
  else
    match trueDir mem t path with
    | none => none
    | some (t, .null) => some (t, false)
    | some (t, .nid dir none) => some (t.close dir, false)
    | some (t, .nid none (some _)) => some (t, false)
    | some (t, .nid (some d) (some name)) =>
      (dirRemove mem t d name).map fun (t, success) => (t.inodeClose d, success)

/-- `filesys_init (true)` on a device with any contents: the free-map file in sector 0, open, and an
empty root directory. -/
def format (disk : UInt32 → Record) (bytes : UInt32 → Bytes) (size : Nat) : Option Tree := do
  let t := inodeCreate ⟨disk, bytes, fun _ => none, fun s => s = 0 || s = 1⟩ 0 size false
  let t ← t.inodeOpen 0 true
  let t := t.inodeCreate 1 (16 * 20) true
  (t.inodeClose 0).inodeOpen 0 true

inductive Op
  | create (path : CString) (size : Nat) (isdir : Bool) (sector : UInt32) (junk : Bytes)
    (mem : Memory)
  | remove (path : CString) (mem : Memory)

def step (t : Tree) : Op → Option Tree
  | .create path size isdir sector junk mem =>
    (filesysCreate mem t path size isdir sector junk).map Prod.fst
  | .remove path mem => (filesysRemove mem t path).map Prod.fst

end Tree

end Pintos.Filesys
