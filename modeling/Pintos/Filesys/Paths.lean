import Pintos.Filesys.OpenCounts

/-! `true_dir` in a thread with any current directory, and the calls of `filesys.c` that look up a
path with it. -/

namespace Pintos.Filesys

open Words CStrings ByteFiles

namespace Tree

/-- The inode of the directory where `true_dir` starts. -/
def startDir (cur : Option UInt32) (path : CString) : UInt32 :=
  match cur with
  | some d => if path.1.head? = some 47 then 1 else d
  | none => 1

/-- `true_dir`, in a thread with the current directory `cur`, which it has open.  The directory
where it starts must be opened. -/
def trueDirAt (mem : Memory) (t : Tree) (cur : Option UInt32) (path : CString) :
    Option (Tree × NameInDir) :=
  if path.1 = [] then some (t, .null)
  else
    let d := startDir cur path
    (t.inodeOpen d true).bind fun t =>
      match strtok 47 path.1.length path with
      | [] => some (t, .nid (some d) none)
      | token :: rest => walk mem t (some d) (some d) token rest

theorem trueDirAt_root (mem : Memory) (t : Tree) {path : CString} (some : path.1 ≠ []) :
    trueDirAt mem t none path = trueDir mem t path := by
  rw [trueDirAt, if_neg some, trueDir]
  rfl

/-- `inode_open`, with the pointer that it returns. -/
def openInode (t : Tree) (s : UInt32) (memory : Bool) : Tree × Option UInt32 :=
  match t.inodeOpen s memory with
  | none => (t, none)
  | some t => (t, some s)

/-- `dir_lookup`, with the inode that it opens. -/
def dirLookup (t : Tree) (d : UInt32) (name : CString) (memory : Bool) : Tree × Option UInt32 :=
  match lookup (t.file d) name with
  | none => (t, none)
  | some (e, _) => t.openInode (inodeSector e) memory

/-- The inode of the last name in `filesys_open`. -/
def lastInode (mem : Memory) (t : Tree) (d : UInt32) (name : CString) : Tree × Option UInt32 :=
  if name = dotdot then
    if (t.record d).parent = 0 then (t, none) else t.openInode (t.record d).parent mem.inode
  else t.dirLookup d name mem.inode

/-- `filesys_open`, with the inode of the file or directory that it returns.  There is no result
when a directory gets no memory: `deny_write` is set through a null pointer. -/
def filesysOpen (mem : Memory) (t : Tree) (cur : Option UInt32) (path : CString) :
    Option (Tree × Option UInt32) :=
  match trueDirAt mem t cur path with
  | none => none
  | some (t, .null) => some (t, none)
  | some (t, .nid none _) => some (t, none)
  | some (t, .nid (some d) none) => some (t, some d)
  | some (t, .nid (some d) (some name)) =>
    if name = dot then some (t, some d)
    else
      let (t, inode) := lastInode mem t d name
      let t := t.inodeClose d
      match inode with
      | none => some (t, none)
      | some s =>
        if (t.record s).isdir && !mem.handle then none else some (t.dirOpen s mem.handle)

/-- `filesys_create`, with what `free_map_allocate` returns for the inode: a sector that is not in
use, or none. -/
def filesysCreateAt (mem : Memory) (t : Tree) (cur : Option UInt32) (path : CString) (size : Nat)
    (isdir : Bool) (sector : Option UInt32) (junk : Bytes) : Option (Tree × Bool) :=
  match trueDirAt mem t cur path with
  | none => none
  | some (t, .null) => some (t, false)
  | some (_, .nid _ none) => none
  | some (t, .nid dir (some name)) =>
    if name = dot ∨ name = dotdot then some (t.close dir, false)
    else
      match dir with
      | none => some (t, false)
      | some d =>
        if sector.any t.used then none
        else
          let (t, success) :=
            match sector with
            | some s => createEntry mem t d name size isdir s junk
            | none => (t, false)
          let (t, success) :=
            if isdir then setParent mem t d (sector.getD 0) success else (t, success)
          some (t.inodeClose d, success)

/-- `filesys_remove`. -/
def filesysRemoveAt (mem : Memory) (t : Tree) (cur : Option UInt32) (path : CString) :
    Option (Tree × Bool) :=
  match trueDirAt mem t cur path with
  | none => none
  | some (t, .null) => some (t, false)
  | some (t, .nid dir none) => some (t.close dir, false)
  | some (t, .nid none (some _)) => some (t, false)
  | some (t, .nid (some d) (some name)) =>
    (dirRemove mem t d name).map fun (t, success) => (t.inodeClose d, success)

/-- Without a current directory and with a free sector, the calls are those of the runs from a
formatted device. -/
theorem filesysCreateAt_root (mem : Memory) (t : Tree) (path : CString) (size : Nat) (isdir : Bool)
    (sector : UInt32) (junk : Bytes) :
    filesysCreateAt mem t none path size isdir (some sector) junk =
      filesysCreate mem t path size isdir sector junk := by
  rw [filesysCreateAt, filesysCreate]
  by_cases empty : path.1 = []
  · rw [trueDirAt, if_pos empty, if_pos empty]
  · rw [trueDirAt_root mem t empty, if_neg empty]
    rfl

theorem filesysRemoveAt_root (mem : Memory) (t : Tree) (path : CString) :
    filesysRemoveAt mem t none path = filesysRemove mem t path := by
  rw [filesysRemoveAt, filesysRemove]
  by_cases empty : path.1 = []
  · rw [trueDirAt, if_pos empty, if_pos empty]
  · rw [trueDirAt_root mem t empty]
    exact (if_neg empty).symm

end Tree

end Pintos.Filesys
