import Pintos.Filesys.Cache
import Pintos.Filesys.Contents
import Pintos.Filesys.FileRuns

/-! The shutdown of the file system: `filesys_done` closes what it closes of the open inodes and
writes the cache to the device, and `filesys_init (false)` finds the files there again. -/

namespace Pintos.Filesys

open Words Role Transition

namespace Files

def inodeSetParent (st : Files) (s parent : Nat) : Files :=
  match st.opens s with
  | none => st
  | some inode =>
    let data := { inode.data with parent := parent }
    { st with
      fs := st.fs.put s (data.copyTo (st.fs.data s))
      opens := Function.update st.opens s (some { inode with data := data }) }

/-- The loop of `inode_close_all` over the inodes of `open_inodes`. -/
def inodeCloseAll (dev : Nat → Bytes) : List Nat → Files → Except Fault Files
  | [], st => .ok st
  | s :: rest, st =>
    match st.opens s with
    | none => inodeCloseAll dev rest st
    | some inode =>
      if inode.data.isdir = true ∧ s ≠ 0 then do
        let opens := Function.update st.opens s (some { inode with openCnt := 1 })
        let st ← { st with opens := opens }.inodeClose dev s
        inodeCloseAll dev rest st
      else inodeCloseAll dev rest st

/-- `filesys_done` up to `free_cache`, with the close of the free-map file. -/
def filesysDone (dev : Nat → Bytes) (openInodes : List Nat) (st : Files) : Except Fault Files := do
  let st ← st.inodeCloseAll dev openInodes
  st.inodeClose dev 0

/-- `filesys_init (false)` on a device with the contents `image` after the shutdown in `st`, with
the bitmap of `bitmap_create`. -/
def mount (st : Files) (image : Nat → Bytes) (bitmap : FreeMap) : Files :=
  let free := { freeMapInit bitmap with file := st.fs.free.file }
  let st := Files.inodeOpen ⟨⟨image, free, []⟩, fun _ => none, st.live⟩ 0
  { st with fs := { st.fs with free := st.fs.free.bitmapRead } }

end Files

/-- The files of a running system, with `open_inodes` in its order and the bytes that were last
written to each inode. -/
structure Session where
  files : Files
  openInodes : List Nat
  written : Nat → Nat → Option UInt8

namespace Session

inductive Call
  | file (op : Files.Op)
  | setParent (sector parent : Nat)

/-- The inode that a call is for; only `free-map.c` has the one in sector 0. -/
def Call.sector : Call → Option Nat
  | .file (.create ..) => none
  | .file (.open_ s) | .file (.writeAt s ..) | .file (.remove s) | .file (.close s _) => some s
  | .setParent s _ => some s

/-- `open_inodes` after a call: opened inodes are pushed to the front. -/
def relist (before after : Files) (list : List Nat) : Files.Op → List Nat
  | .open_ s => if (before.opens s).isSome then list else s :: list
  | .close s _ => if (after.opens s).isSome then list else list.erase s
  | _ => list

/-- The bytes last written after a call.  A new inode has none. -/
def note (st : Session) : Files.Op → Nat → Nat → Option UInt8
  | .create .. =>
    match (st.files.fs.free.allocate 1).2 with
    | some s => Function.update st.written s fun _ => none
    | none => st.written
  | .writeAt s buffer size offset =>
    match st.files.opens s with
    | some inode =>
      if inode.denyWriteCnt = 0 then
        Function.update st.written s fun p =>
          if offset ≤ p ∧ p < offset + size then some (buffer (p - offset)) else st.written s p
      else st.written
    | none => st.written
  | _ => st.written

def step (st : Session) (call : Call) : Option Session :=
  if call.sector = some 0 then none
  else
    match call with
    | .file op =>
      (st.files.step op).map fun files =>
        ⟨files, relist st.files files st.openInodes op, st.note op⟩
    | .setParent s parent => some { st with files := st.files.inodeSetParent s parent }

/-- The `memset` of a growth inside the last block is in the block; what one outside overwrites is
no part of the files. -/
def InBlock (st : Files) : Files.Op → Prop
  | .writeAt s _ size offset =>
    (st.inode s).length < offset + size → (offset + size) / 512 = (st.inode s).length / 512 →
      (st.inode s).length % 512 ≠ 0 →
      (st.inode s).length ≤ offset ∧ ((st.inode s).length < 512 ∨ offset = (st.inode s).length)
  | _ => True

/-- No sector is free for the new inode, and `filesys_create` fails. -/
def Full (st : Files) : Files.Op → Prop
  | .create .. => st.fs.free.freeCount = 0
  | _ => False

/-- The condition on a call: it fails on a full device, or it has the sectors it needs, maps what it
maps in one second-level index, deletes nothing of two blocks or more and zeroes inside a block. -/
def Careful (st : Session) : Call → Prop
  | .file op =>
    Full st.files op ∨ (Files.InScope st.files op ∧ Files.Careful st.files op) ∧ InBlock st.files op
  | .setParent _ parent => parent < 2 ^ 32

/-- An inode that was not removed. -/
def Exists (st : Session) (s : Nat) : Prop :=
  st.files.live s = true ∧ ∀ o ∈ st.files.opens s, o.removed = false

/-- The directories that are open and removed are shorter than two blocks. -/
def Short (st : Session) : Prop :=
  ∀ s ∈ st.openInodes, s ≠ 0 → ∀ o ∈ st.files.opens s,
    o.removed = true → o.data.isdir = true → o.data.length < 1024

/-- The files that are open and not removed have their inodes in their sectors. -/
def Saved (st : Session) : Prop :=
  ∀ s ∈ st.openInodes, s ≠ 0 → ∀ o ∈ st.files.opens s,
    o.removed = false → o.data.isdir = false → InodeDisk.read (st.files.fs.data s) = o.data

/-- After `filesys_init (true)`, with `one` on the size of the free-map file. -/
def Started (one : Nat → Prop) (st : Session) : Prop :=
  Files.Formatted one st.files ∧ st.openInodes = [0] ∧ ∀ s p, st.written s p = none

/-- What `filesys_done` is for: on the device that `free_cache` leaves, an inode that exists has its
record as it was, and after a mount it reads as it did, the bytes last written included. -/
def Persists (st : Session) (dev : Nat → Bytes) : Prop :=
  ∃ st', st.files.filesysDone dev st.openInodes = .ok st' ∧
    ∀ cache : Cache Bytes, cache.Models st'.fs.data → ∀ s, st.Exists s →
      st'.live s = true ∧ InodeDisk.read ((freeCache cache).disk s) = st.files.inode s ∧
      ∀ bitmap,
        (st'.mount (freeCache cache).disk bitmap).fs.free.used = st'.fs.free.used ∧
        (st'.mount (freeCache cache).disk bitmap).inode s = st.files.inode s ∧
        (∀ size offset, inodeReadAt (st'.mount (freeCache cache).disk bitmap).fs
          ((st'.mount (freeCache cache).disk bitmap).inode s) size offset =
            inodeReadAt st.files.fs (st.files.inode s) size offset) ∧
        ∀ p b, st.written s p = some b →
          inodeReadAt (st'.mount (freeCache cache).disk bitmap).fs
            ((st'.mount (freeCache cache).disk bitmap).inode s) 1 p = .ok [b]

end Session

end Pintos.Filesys
