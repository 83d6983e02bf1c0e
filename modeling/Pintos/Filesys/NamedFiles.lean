import Pintos.Filesys.Creation
import Pintos.Filesys.Extraction
import Pintos.Filesys.Shutdown
import Pintos.Filesys.WriteDenial

/-! The calls that a program makes of the file system, on the sectors of a device: `filesys_create`,
`filesys_open` and `filesys_remove` with paths, the calls of `file.c` on open files, and a shutdown
with a new start.  `Store` says what they are for. -/

namespace Pintos.Filesys

open Words CStrings ByteFiles Filesys.Tree

namespace Files

/-- A directory that is not empty, or that is open elsewhere. -/
def busy (st : Files) (s : Nat) : Bool :=
  (st.inode s).isdir && (!dirIsEmpty (st.byteFile s) || (st.opens s).any fun o => 2 < o.openCnt)

def inodeRemove (st : Files) (s : Nat) : Files :=
  match st.opens s with
  | none => st
  | some o => { st with opens := Function.update st.opens s (some { o with removed := true }) }

/-- `dir_remove` in a directory that is open. -/
def dirRemove (dev : Nat → Bytes) (st : Files) (d : Nat) (name : CString) :
    Except Fault (Files × Bool) :=
  match Filesys.lookup (st.byteFile d) name with
  | none => .ok (st, false)
  | some (e, ofs) =>
    let s := (inodeSector e).toNat
    let st := st.inodeOpen s
    match st.opens d with
    | none => .ok (st, false)
    | some inode =>
      if st.busy s then do
        let st ← st.inodeClose dev s
        .ok (st, false)
      else do
        let (fs, inode, written) ← inodeWriteAt st.fs inode (Function.update e 19 0) 20 ofs
        let st := { st with fs := fs, opens := Function.update st.opens d (some inode) }
        if written = 20 then do
          let st ← (st.inodeRemove s).inodeClose dev s
          .ok (st, true)
        else do
          let st ← st.inodeClose dev s
          .ok (st, false)

/-- `filesys_remove`, in a thread with the current directory `cur`. -/
def filesysRemove (dev : Nat → Bytes) (st : Files) (cur : Option Nat) (path : CString) :
    Option (Files × Bool) :=
  match st.trueDir dev cur path with
  | none => none
  | some (st, none) => some (st, false)
  | some (st, some (d, none)) => (st.inodeClose dev d).toOption.map fun st => (st, false)
  | some (st, some (d, some name)) =>
    Except.toOption do
      let (st, success) ← st.dirRemove dev d name
      let st ← st.inodeClose dev d
      .ok (st, success)

/-- The inode of the last name in `filesys_open`, opened. -/
def lastInode (st : Files) (d : Nat) (name : CString) : Files × Option Nat :=
  if name = dotdot then
    if (st.inode d).parent = 0 then (st, none)
    else (st.inodeOpen (st.inode d).parent, some (st.inode d).parent)
  else
    match st.lookup d name with
    | none => (st, none)
    | some s => (st.inodeOpen s, some s)

/-- `filesys_open` up to `file_open` or `dir_open`, with the inode for it.  A directory at the end
of the path is returned as it is. -/
def filesysOpen (dev : Nat → Bytes) (st : Files) (cur : Option Nat) (path : CString) :
    Option (Files × Option Nat) :=
  match st.trueDir dev cur path with
  | none => none
  | some (st, none) => some (st, none)
  | some (st, some (d, none)) => some (st, some d)
  | some (st, some (d, some name)) =>
    if name = dot then some (st, some d)
    else
      let (st, inode) := st.lastInode d name
      (st.inodeClose dev d).toOption.map fun st => (st, inode)

end Files

/-- The calls of a thread without a current directory.  `open_` has the address that `calloc`
returns, and `reboot` the cache when `filesys_done` comes to `free_cache`, and the bitmap and the
address that the new start gets. -/
inductive NameCall
  | create (path : CString) (size : Nat) (dev : Nat → Bytes) (junk : Bytes)
  | open_ (path : CString) (a : Nat) (dev : Nat → Bytes)
  | read (f size : Nat)
  | write (f : Nat) (buffer : Bytes) (size : Nat)
  | seek (f pos : Nat)
  | tell (f : Nat)
  | length (f : Nat)
  | denyWrite (f : Nat)
  | allowWrite (f : Nat)
  | close (f : Nat) (dev : Nat → Bytes)
  | remove (path : CString) (dev : Nat → Bytes)
  | reboot (dev : Nat → Bytes) (cache : Cache Bytes) (bitmap : FreeMap) (a : Nat)

inductive NameAnswer
  | success (result : Bool)
  | file (f : Option Nat)
  | bytes (result : List UInt8)
  | count (n : Nat)
  | done

namespace FileTable

/-- `filesys_open` with the `file_open` at its end. -/
def filesysOpen (st : FileTable) (path : CString) (a : Nat) (dev : Nat → Bytes) :
    Option (FileTable × Option Nat) :=
  (st.files.filesysOpen dev none path).bind fun (files, inode) =>
    match inode with
    | none => some ({ st with files := files }, none)
    | some s => ({ st with files := files }.fileOpen s dev (some a)).map fun st => (st, some a)

def setPos (st : FileTable) (f pos : Nat) : FileTable :=
  { st with file := Function.update st.file f { st.file f with pos := pos } }

/-- `file_read`. -/
def fileRead (st : FileTable) (f size : Nat) : Option (FileTable × List UInt8) :=
  (st.files.opens (st.file f).inode).bind fun inode =>
    match inodeReadAt st.files.fs inode.data size (st.file f).pos with
    | .ok bytes => some (st.setPos f ((st.file f).pos + bytes.length), bytes)
    | .error _ => none

/-- `file_write`. -/
def fileWrite (st : FileTable) (f : Nat) (buffer : Bytes) (size : Nat) : Option (FileTable × Nat) :=
  (st.files.opens (st.file f).inode).bind fun inode =>
    match inodeWriteAt st.files.fs inode buffer size (st.file f).pos with
    | .ok (fs, inode, written) =>
      some ({ st.setOpen (st.file f).inode inode with
          files := { (st.setOpen (st.file f).inode inode).files with fs := fs } }.setPos f
        ((st.file f).pos + written), written)
    | .error _ => none

/-- `file_seek`; there is no result when its `ASSERT` fires. -/
def fileSeek (st : FileTable) (f pos : Nat) : Option FileTable :=
  if pos < 2 ^ 31 then some (st.setPos f pos) else none

/-- `filesys_done`, while only the free-map file is open, and `filesys_init (false)`. -/
def reboot (st : FileTable) (dev : Nat → Bytes) (cache : Cache Bytes) (bitmap : FreeMap) (a : Nat) :
    Option FileTable :=
  (st.files.filesysDone dev [0]).toOption.map fun files =>
    { st with
      files := files.mount (freeCache cache).disk bitmap
      file := Function.update st.file a ⟨0, 0, false⟩
      openFiles := [a] }

/-- One call.  There is no result after a fault or an `ASSERT`. -/
def call (st : FileTable) : NameCall → Option (FileTable × NameAnswer)
  | .create path size dev junk =>
    (st.files.filesysCreate dev none path size false true true junk).map fun (files, success) =>
      ({ st with files := files }, .success success)
  | .open_ path a dev => (st.filesysOpen path a dev).map fun (st, f) => (st, .file f)
  | .read f size =>
    if f ∈ st.openFiles then (st.fileRead f size).map fun (st, bytes) => (st, .bytes bytes)
    else none
  | .write f buffer size =>
    if f ∈ st.openFiles then (st.fileWrite f buffer size).map fun (st, n) => (st, .count n)
    else none
  | .seek f pos =>
    if f ∈ st.openFiles then (st.fileSeek f pos).map fun st => (st, .done) else none
  | .tell f => if f ∈ st.openFiles then some (st, .count (st.file f).pos) else none
  | .length f =>
    if f ∈ st.openFiles then
      (st.files.opens (st.file f).inode).map fun inode => (st, .count inode.data.length)
    else none
  | .denyWrite f =>
    if f ∈ st.openFiles then (st.fileDenyWrite f).map fun st => (st, .done) else none
  | .allowWrite f =>
    if f ∈ st.openFiles then (st.fileAllowWrite f).map fun st => (st, .done) else none
  | .close f dev =>
    if f ∈ st.openFiles then (st.fileClose f dev).map fun st => (st, .done) else none
  | .remove path dev =>
    (st.files.filesysRemove dev none path).map fun (files, success) =>
      ({ st with files := files }, .success success)
  | .reboot dev cache bitmap a => (st.reboot dev cache bitmap a).map fun st => (st, .done)

end FileTable

/-- What the file system is for: names for files, the bytes of the files, and open files with a
position and a flag against writes. -/
structure Store where
  names : CString → Option Nat
  bytes : Nat → List UInt8
  handle : Nat → Option FileHandle

namespace Store

def Named (t : Store) (s : Nat) : Prop := ∃ c, t.names c = some s

def Opened (t : Store) (s : Nat) : Prop := ∃ f h, t.handle f = some h ∧ h.inode = s

def Denied (t : Store) (s : Nat) : Prop :=
  ∃ f h, t.handle f = some h ∧ h.inode = s ∧ h.denyWrite = true

def setHandle (t : Store) (f : Nat) (h : Option FileHandle) : Store :=
  { t with handle := Function.update t.handle f h }

/-- The bytes with `data` from `pos` on. -/
def overwrite (bytes : List UInt8) (pos : Nat) (data : List UInt8) : List UInt8 :=
  bytes.take pos ++ data ++ bytes.drop (pos + data.length)

/-- What a call may answer, and what it leaves.  A new file may be any that is not in use. -/
inductive Admits : Store → NameCall → NameAnswer → Store → Prop
  | created {t : Store} {path c : CString} {size s : Nat} {dev : Nat → Bytes} {junk : Bytes} :
      Single path c → c.1.length ≤ nameMax → t.names c = none → ¬t.Named s → ¬t.Opened s →
      Admits t (.create path size dev junk) (.success true)
        { t with
          names := Function.update t.names c (some s)
          bytes := Function.update t.bytes s (List.replicate size 0) }
  | notCreated {t : Store} {path c : CString} {size : Nat} {dev : Nat → Bytes} {junk : Bytes} :
      Single path c → (nameMax < c.1.length ∨ ∃ s, t.names c = some s) →
      Admits t (.create path size dev junk) (.success false) t
  | opened {t : Store} {path c : CString} {a s : Nat} {dev : Nat → Bytes} :
      Single path c → t.names c = some s → t.handle a = none →
      Admits t (.open_ path a dev) (.file (some a)) (t.setHandle a (some ⟨s, 0, false⟩))
  | notFound {t : Store} {path c : CString} {a : Nat} {dev : Nat → Bytes} :
      Single path c → t.names c = none → Admits t (.open_ path a dev) (.file none) t
  | read {t : Store} {f size : Nat} {h : FileHandle} :
      t.handle f = some h →
      Admits t (.read f size) (.bytes (((t.bytes h.inode).drop h.pos).take size))
        (t.setHandle f (some { h with
          pos := h.pos + (((t.bytes h.inode).drop h.pos).take size).length }))
  | wrote {t : Store} {f size : Nat} {buffer : Bytes} {h : FileHandle} :
      t.handle f = some h → ¬t.Denied h.inode →
      Admits t (.write f buffer size) (.count size)
        { t.setHandle f (some { h with pos := h.pos + size }) with
          bytes := Function.update t.bytes h.inode
            (overwrite (t.bytes h.inode) h.pos ((List.range size).map buffer)) }
  | denied {t : Store} {f size : Nat} {buffer : Bytes} {h : FileHandle} :
      t.handle f = some h → t.Denied h.inode → Admits t (.write f buffer size) (.count 0) t
  | sought {t : Store} {f pos : Nat} {h : FileHandle} :
      t.handle f = some h →
      Admits t (.seek f pos) .done (t.setHandle f (some { h with pos := pos }))
  | told {t : Store} {f : Nat} {h : FileHandle} :
      t.handle f = some h → Admits t (.tell f) (.count h.pos) t
  | measured {t : Store} {f : Nat} {h : FileHandle} :
      t.handle f = some h → Admits t (.length f) (.count (t.bytes h.inode).length) t
  | deniedWrite {t : Store} {f : Nat} {h : FileHandle} :
      t.handle f = some h →
      Admits t (.denyWrite f) .done (t.setHandle f (some { h with denyWrite := true }))
  | allowedWrite {t : Store} {f : Nat} {h : FileHandle} :
      t.handle f = some h →
      Admits t (.allowWrite f) .done (t.setHandle f (some { h with denyWrite := false }))
  | closed {t : Store} {f : Nat} {h : FileHandle} {dev : Nat → Bytes} :
      t.handle f = some h → Admits t (.close f dev) .done (t.setHandle f none)
  | removed {t : Store} {path c : CString} {s : Nat} {dev : Nat → Bytes} :
      Single path c → t.names c = some s →
      Admits t (.remove path dev) (.success true)
        { t with names := Function.update t.names c none }
  | notRemoved {t : Store} {path c : CString} {dev : Nat → Bytes} :
      Single path c → t.names c = none → Admits t (.remove path dev) (.success false) t
  | rebooted {t : Store} {dev : Nat → Bytes} {cache : Cache Bytes} {bitmap : FreeMap} {a : Nat} :
      (∀ f, t.handle f = none) → Admits t (.reboot dev cache bitmap a) .done t

/-- Before the first call. -/
def empty : Store := ⟨fun _ => none, fun _ => [], fun _ => none⟩

end Store

end Pintos.Filesys
