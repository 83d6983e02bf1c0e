import Pintos.Filesys.Growth
import Pintos.Lib.Transition

/-! The files of a device: `inode_create`, `inode_open`, `inode_write_at`, `inode_remove` and
`inode_close` as steps on the sectors and the table of open inodes, from a formatted device on. -/

namespace Pintos.Filesys

open Words

namespace InodeDisk

/-- The `struct inode_disk` in a sector. -/
def read (c : Bytes) : InodeDisk :=
  ⟨getWord c 0, getWord c 1, getWord c 2, getWord c 3, c 20 != 0, getWord c 6⟩

/-- `memcpy` of a `struct inode_disk` to a sector. -/
def copyTo (d : InodeDisk) (c : Bytes) : Bytes :=
  let c := setWord c 0 d.length
  let c := setWord c 1 d.sp
  let c := setWord c 2 d.ind
  let c := setWord c 3 d.din
  let c := setWord c 5 (if d.isdir then 1 else 0)
  setWord c 6 d.parent

end InodeDisk

/-- `struct inode`, without its sector. -/
structure OpenInode where
  openCnt : Nat
  removed : Bool
  denyWriteCnt : Nat
  data : InodeDisk

/-- The sectors with the free map, `open_inodes` by sector, and the sectors that hold an inode. -/
structure Files where
  fs : Fs
  opens : Nat → Option OpenInode
  live : Nat → Bool

/-- The sector with new contents. -/
def Fs.put (fs : Fs) (sector : Nat) (c : Bytes) : Fs :=
  { fs with data := Function.update fs.data sector c }

@[simp] theorem Fs.put_self (fs : Fs) (sector : Nat) (c : Bytes) :
    (fs.put sector c).data sector = c := by
  simp [put]

theorem Fs.put_of_ne (fs : Fs) {sector t : Nat} (c : Bytes) (ne : t ≠ sector) :
    (fs.put sector c).data t = fs.data t := by
  simp [put, ne]

/-- `inode_create`, with `inode_alloc`. -/
def inodeCreate (fs : Fs) (sector length : Nat) (isdir : Bool) : Except Fault Fs := do
  let (fs, d) ← fileGrowth fs ⟨0, 0, 0, 0, isdir, 0⟩ 0 length
  let d := { d with parent := 1 }
  .ok (fs.put sector (d.copyTo (fs.data sector)))

/-- `memcpy` of `count` bytes to offset `start` of a sector. -/
def Fs.copyIn (fs : Fs) (sector start count : Nat) (source : Bytes) : Fs :=
  fs.put sector fun i =>
    if start ≤ i ∧ i < start + count then source (i - start) else fs.data sector i

/-- The loop of `inode_write_at`, for at most `fuel` chunks. -/
def writeChunks (d : InodeDisk) (buffer : Bytes) :
    Nat → Nat → Nat → Nat → Fs → Except Fault (Fs × Nat)
  | 0, _, _, written, fs => .ok (fs, written)
  | fuel + 1, size, offset, written, fs =>
    if size = 0 then .ok (fs, written)
    else do
      let sector ← byteToSector fs d offset
      let sectorOfs := offset % 512
      let chunk := min size (min (d.length - offset) (512 - sectorOfs))
      if chunk = 0 then .ok (fs, written)
      else
        let fs := fs.copyIn sector sectorOfs chunk fun i => buffer (written + i)
        writeChunks d buffer fuel (size - chunk) (offset + chunk) (written + chunk) fs

/-- The growth at the start of `inode_write_at`. -/
def extend (fs : Fs) (d : InodeDisk) (size offset : Nat) : Except Fault (Fs × InodeDisk) :=
  if d.length < offset + size then fileGrowth fs d offset size else .ok (fs, d)

/-- `inode_write_at`, with the number of bytes written. -/
def inodeWriteAt (fs : Fs) (inode : OpenInode) (buffer : Bytes) (size offset : Nat) :
    Except Fault (Fs × OpenInode × Nat) :=
  if inode.denyWriteCnt ≠ 0 then .ok (fs, inode, 0)
  else do
    let (fs, d) ← extend fs inode.data size offset
    let (fs, written) ← writeChunks d buffer size size offset 0 fs
    .ok (fs, { inode with data := d }, written)

/-- `cache_remove` of the entry of a sector, after which the sector reads as the device has it. -/
def Fs.cacheRemove (dev : Nat → Bytes) (fs : Fs) (sector : Nat) : Fs :=
  fs.put sector (dev sector)

/-- `free_map_release` of a sector, with `cache_remove` of its entry. -/
def releaseSector (dev : Nat → Bytes) (fs : Fs) (sector : Nat) : Except Fault Fs := do
  let free ← fs.free.release sector 1
  .ok ({ fs with free := free }.cacheRemove dev sector)

/-- The loop over the single-level index in `inode_delete`, from entry `k` on. -/
def releaseEntries (dev : Nat → Bytes) (index : Bytes) : Nat → Nat → Fs → Except Fault Fs
  | _, 0, fs => .ok fs
  | k, count + 1, fs =>
    if k < 128 then do
      let fs ← releaseSector dev fs (getWord index k)
      releaseEntries dev index (k + 1) count fs
    else .error .subscript

/-- The inner loop over a second-level index in `inode_delete`.  The entry that it removes from the
cache is not the one of the sector that it releases. -/
def releaseTable (dev : Nat → Bytes) (index dIndex : Bytes) : Nat → Nat → Fs → Except Fault Fs
  | _, 0, fs => .ok fs
  | j, count + 1, fs => do
    let free ← fs.free.release (getWord dIndex j) 1
    let fs := { fs with free := free }.cacheRemove dev (getWord index j)
    releaseTable dev index dIndex (j + 1) count fs

/-- The outer loop over the double-level index in `inode_delete`. -/
def releaseTables (dev : Nat → Bytes) (index : Bytes) (m n : Nat) : Nat → Nat → Fs → Except Fault Fs
  | _, 0, fs => .ok fs
  | i, count + 1, fs =>
    if i < 128 then do
      let dIndex := fs.data (getWord index i)
      let fs ← releaseSector dev fs (getWord index i)
      let fs ← releaseTable dev index dIndex 0 (if i = m then n + 1 else 128) fs
      releaseTables dev index m n (i + 1) count fs
    else .error .subscript

/-- The part of `inode_delete` for the single-level index.  Its entries are subscripted by
`block_current + i - 1`. -/
def deleteSingle (dev : Nat → Bytes) (fs : Fs) (d : InodeDisk) : Except Fault Fs :=
  if 1 ≤ d.length / 512 ∧ d.length ≠ 512 then do
    let index := fs.data d.ind
    let fs ← releaseSector dev fs d.ind
    releaseEntries dev index (d.length / 512 - 1) (d.length / 512) fs
  else .ok fs

/-- The part of `inode_delete` for the double-level index. -/
def deleteDouble (dev : Nat → Bytes) (fs : Fs) (d : InodeDisk) : Except Fault Fs :=
  if 129 ≤ d.length / 512 ∧ d.length ≠ 129 * 512 then do
    let index := fs.data d.din
    let fs ← releaseSector dev fs d.din
    let m := (d.length / 512 - 129) / 128
    let n := (d.length / 512 - 129) % 128
    releaseTables dev index m n 0 (m + 1) fs
  else .ok fs

def inodeDelete (dev : Nat → Bytes) (fs : Fs) (d : InodeDisk) : Except Fault Fs := do
  let fs ← releaseSector dev fs d.sp
  let fs ← deleteSingle dev fs d
  deleteDouble dev fs d

namespace Files

def inodeOpen (st : Files) (sector : Nat) : Files :=
  match st.opens sector with
  | some inode =>
    { st with opens :=
        Function.update st.opens sector (some { inode with openCnt := inode.openCnt + 1 }) }
  | none =>
    { st with opens :=
        Function.update st.opens sector (some ⟨1, false, 0, .read (st.fs.data sector)⟩) }

/-- The last `inode_close` of an inode.  What the device holds in the sectors whose cache entries
are removed is `dev`. -/
def lastClose (dev : Nat → Bytes) (st : Files) (sector : Nat) (inode : OpenInode) :
    Except Fault Files :=
  let fs := st.fs.put sector (inode.data.copyTo (st.fs.data sector))
  let opens := Function.update st.opens sector none
  if inode.removed then do
    let fs ← inodeDelete dev fs inode.data
    let fs ← releaseSector dev fs sector
    .ok ⟨fs, opens, Function.update st.live sector false⟩
  else .ok ⟨fs, opens, st.live⟩

def inodeClose (dev : Nat → Bytes) (st : Files) (sector : Nat) : Except Fault Files :=
  match st.opens sector with
  | none => .ok st
  | some inode =>
    if inode.openCnt - 1 = 0 then st.lastClose dev sector inode
    else
      .ok { st with opens :=
        Function.update st.opens sector (some { inode with openCnt := inode.openCnt - 1 }) }

inductive Op
  | create (length : Nat) (isdir : Bool)
  | open_ (sector : Nat)
  | writeAt (sector : Nat) (buffer : Bytes) (size offset : Nat)
  | remove (sector : Nat)
  | close (sector : Nat) (dev : Nat → Bytes)

/-- One call.  Inodes are created in a sector from `free_map_allocate`, as `filesys_create` does,
only sectors that hold an inode are opened, and inodes are written and removed while they are open.
There is no next state after a fault. -/
def step (st : Files) : Op → Option Files
  | .create length isdir =>
    match st.fs.free.allocate 1 with
    | (free, none) => some { st with fs := { st.fs with free := free } }
    | (free, some sector) =>
      match inodeCreate { st.fs with free := free } sector length isdir with
      | .ok fs => some { st with fs := fs, live := Function.update st.live sector true }
      | .error _ => none
  | .open_ sector => if st.live sector then some (st.inodeOpen sector) else none
  | .writeAt sector buffer size offset =>
    (st.opens sector).bind fun inode =>
      match inodeWriteAt st.fs inode buffer size offset with
      | .ok (fs, inode, _) =>
        some { st with fs := fs, opens := Function.update st.opens sector (some inode) }
      | .error _ => none
  | .remove sector =>
    (st.opens sector).map fun inode =>
      { st with opens := Function.update st.opens sector (some { inode with removed := true }) }
  | .close sector dev => (st.inodeClose dev sector).toOption

end Files

/-- `free_map_init`, from the bitmap of `bitmap_create`. -/
def freeMapInit (bitmap : FreeMap) : FreeMap :=
  (bitmap.setMultiple 0 1 true).setMultiple 1 1 true

def bitmapFileSize (size : Nat) : Nat := 4 * ((size + 31) / 32)

/-- `bitmap_read (free_map, free_map_file)`. -/
def FreeMap.bitmapRead (m : FreeMap) : FreeMap :=
  match m.file with
  | some bits => { m with used := bits }
  | none => m

/-- `filesys_init (true)` on a device with the contents `dev`.  The free-map file in sector 0 is
created, opened and written, the root directory is created with room for 16 entries, and the
free-map file is closed and opened again. -/
def format (dev : Nat → Bytes) (bitmap : FreeMap) : Except Fault Files := do
  let fs ← inodeCreate ⟨dev, freeMapInit bitmap, []⟩ 0 (bitmapFileSize bitmap.size) false
  let st := Files.inodeOpen ⟨fs, fun _ => none, fun s => s = 0⟩ 0
  let fs := { st.fs with free := st.fs.free.bitmapWrite.1 }
  let fs ← inodeCreate fs 1 (16 * 20) true
  let st : Files := ⟨fs, st.opens, fun s => s = 0 || s = 1⟩
  let st ← st.inodeClose dev 0
  let st := st.inodeOpen 0
  .ok { st with fs := { st.fs with free := st.fs.free.bitmapRead } }

end Pintos.Filesys
