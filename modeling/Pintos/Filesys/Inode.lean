import Mathlib.Algebra.Group.Int.Defs
import Pintos.Filesys.FreeMap
import Pintos.Lib.Words

/-! The block map of an inode in `inode.c`: how a file offset becomes a sector, and how
`file_growth` extends the map.  Sectors are read and written as users of the buffer cache see
them. -/

namespace Pintos.Filesys

open Words

/-- `struct inode_disk`, as far as it is read. -/
structure InodeDisk where
  length : Nat
  sp : Nat
  ind : Nat
  din : Nat
  isdir : Bool
  parent : Nat
  deriving DecidableEq

/-- A `memset` of a cache entry to zero, with its arguments as the code computes them. -/
structure Memset where
  sector : Nat
  start : Nat
  count : Int
  deriving DecidableEq

/-- The contents of the sectors, the free map, and the `memset` calls so far. -/
structure Fs where
  data : Nat → Bytes
  free : FreeMap
  memsets : List Memset

namespace Fs

/-- `memset (&cache->data + start, 0, count)`; a negative count is converted to `size_t`. -/
def memset (fs : Fs) (sector start : Nat) (count : Int) : Fs :=
  { fs with
    data := Function.update fs.data sector
      (fillZero (fs.data sector) start (count % 2 ^ 32).toNat)
    memsets := fs.memsets ++ [⟨sector, start, count⟩] }

/-- `index->block[k]` of the `struct index` in a sector. -/
def index (fs : Fs) (sector k : Nat) : Except Fault Nat :=
  if k < 128 then .ok (getWord (fs.data sector) k) else .error .subscript

/-- `free_map_allocate (1, &p)` for a pointer in memory that has the value `old`. -/
def allocPointer (fs : Fs) (old : Nat) : Fs × Nat :=
  match fs.free.allocate 1 with
  | (m, some s) => ({ fs with free := m }, s)
  | (m, none) => ({ fs with free := m }, old)

/-- `free_map_allocate (1, &index->block[k])` with the index copied from a sector and back. -/
def allocEntry (fs : Fs) (table k : Nat) : Except Fault Fs :=
  if k < 128 then
    match fs.free.allocate 1 with
    | (m, some s) =>
      .ok { fs with
        free := m, data := Function.update fs.data table (setWord (fs.data table) k s) }
    | (m, none) => .ok { fs with free := m }
  else .error .subscript

/-- `allocEntry`, with the sector that the entry then names zeroed. -/
def growEntry (fs : Fs) (table k : Nat) : Except Fault Fs := do
  let fs ← fs.allocEntry table k
  let s ← fs.index table k
  .ok (fs.memset s 0 512)

/-- The loops that fill `count` entries of the single-level index. -/
def growEntries (table : Nat) : Nat → Nat → Fs → Except Fault Fs
  | _, 0, fs => .ok fs
  | k, count + 1, fs => do
    let fs ← fs.growEntry table k
    growEntries table (k + 1) count fs

/-- The loop that allocates `count` second-level indexes. -/
def allocEntries (table : Nat) : Nat → Nat → Fs → Except Fault Fs
  | _, 0, fs => .ok fs
  | k, count + 1, fs => do
    let fs ← fs.allocEntry table k
    allocEntries table (k + 1) count fs

/-- The second-level index `mj`, allocated when `nj` is its first entry. -/
def allocTable (fs : Fs) (din mj nj : Nat) : Except Fault Fs :=
  if nj = 0 then fs.allocEntry din mj else .ok fs

/-- The inner loop of the double-indirect part, which finds its table through `din` every time. -/
def growTable (din i : Nat) : Nat → Nat → Fs → Except Fault Fs
  | _, 0, fs => .ok fs
  | j, count + 1, fs => do
    let table ← fs.index din i
    let fs ← fs.growEntry table j
    growTable din i (j + 1) count fs

/-- The outer loop of the double-indirect part, over `count` tables from `i` on. -/
def growTables (din mj nj mi ni : Nat) : Nat → Nat → Fs → Except Fault Fs
  | _, 0, fs => .ok fs
  | i, count + 1, fs => do
    let low := if i = mj then nj else 0
    let high := if i = mi then ni + 1 else 128
    let fs ← growTable din i low (high - low) fs
    growTables din mj nj mi ni (i + 1) count fs

end Fs

def byteToSector (fs : Fs) (ino : InodeDisk) (pos : Nat) : Except Fault Nat :=
  if pos < ino.length then
    let block := pos / 512
    if block < 1 then .ok ino.sp
    else if block < 129 then fs.index ino.ind (block - 1)
    else do
      let table ← fs.index ino.din ((block - 129) / 128)
      fs.index table ((block - 129) % 128)
  else .ok (2 ^ 32 - 1)

/-- The -1 for a position past the end. -/
theorem byteToSector_outside (fs : Fs) {ino : InodeDisk} {pos : Nat} (outside : ino.length ≤ pos) :
    byteToSector fs ino pos = .ok (2 ^ 32 - 1) := by
  rw [byteToSector, if_neg (Nat.not_lt.mpr outside)]

/-- The direct block of `file_growth`, with its `length` and `block_current` afterwards. -/
def growDirect (fs : Fs) (ino : InodeDisk) (length blockCurrent : Nat) :
    Fs × InodeDisk × Nat × Nat :=
  let sp := if length = 0 then fs.allocPointer ino.sp else (fs, ino.sp)
  let ino := { ino with sp := sp.2 }
  if blockCurrent < 1 then (sp.1.memset ino.sp length (512 - length), ino, 512, blockCurrent + 1)
  else (sp.1, ino, length, blockCurrent)

/-- Zeroes the rest of a partial last block that is in the single-level index. -/
def fillTail (fs : Fs) (ino : InodeDisk) (length blockCurrent : Nat) : Except Fault (Fs × Nat) :=
  if length % 512 ≠ 0 then do
    let s ← fs.index ino.ind (blockCurrent - 1)
    .ok (fs.memset s (length % 512) (512 - length % 512), blockCurrent + 1)
  else .ok (fs, blockCurrent)

/-- The branch of `file_growth` for files that stay below block 129. -/
def growSingle (fs : Fs) (ino : InodeDisk) (length blockCurrent block : Nat) : Except Fault Fs := do
  let (fs, blockCurrent) ← fillTail fs ino length blockCurrent
  fs.growEntries ino.ind (blockCurrent - 1) (block + 1 - blockCurrent)

/-- The part of `file_growth` that fills the single-level index to its end. -/
def fillSingle (fs : Fs) (ino : InodeDisk) (length blockCurrent : Nat) :
    Except Fault (Fs × Nat × Nat) :=
  if length < 129 * 512 then do
    let (fs, blockCurrent) ← fillTail fs ino length blockCurrent
    let fs ← fs.growEntries ino.ind (blockCurrent - 1) (129 - blockCurrent)
    .ok (fs, 129 * 512, 129)
  else .ok (fs, length, blockCurrent)

/-- Zeroes the rest of a partial last block that is in a second-level index. -/
def fillTailDouble (fs : Fs) (ino : InodeDisk) (length blockCurrent : Nat) :
    Except Fault (Fs × Nat) :=
  if length % 512 ≠ 0 then do
    let table ← fs.index ino.din ((blockCurrent - 129) / 128)
    let s ← fs.index table ((blockCurrent - 129) % 128)
    .ok (fs.memset s (length % 512) (512 - length % 512), blockCurrent + 1)
  else .ok (fs, blockCurrent)

/-- The double-indirect part of `file_growth`.  The bound of its loop over `k` is `mj - mi`. -/
def growDouble (fs : Fs) (ino : InodeDisk) (length blockCurrent block : Nat) :
    Except Fault (Fs × InodeDisk) := do
  let din := if length = 512 * 129 then fs.allocPointer ino.din else (fs, ino.din)
  let ino := { ino with din := din.2 }
  let (fs, blockCurrent) ← fillTailDouble din.1 ino length blockCurrent
  let mi := (block - 129) / 128
  let mj := (blockCurrent - 129) / 128
  let ni := (block - 129) % 128
  let nj := (blockCurrent - 129) % 128
  let fs ← fs.allocTable ino.din mj nj
  let fs ← fs.allocEntries ino.din (mj + 1) (mj - mi)
  let fs ← fs.growTables ino.din mj nj mi ni mj (mi + 1 - mj)
  .ok (fs, ino)

def fileGrowth (fs : Fs) (ino : InodeDisk) (pos size : Nat) : Except Fault (Fs × InodeDisk) :=
  let block := (pos + size) / 512
  let length := ino.length
  let blockCurrent := ino.length / 512
  let blockOfs := (pos + size) % 512
  let ino := { ino with length := pos + size }
  if block = blockCurrent ∧ length % 512 ≠ 0 then do
    let sid ← byteToSector fs ino length
    .ok (fs.memset sid length (pos - length), ino)
  else
    let (fs, ino, length, blockCurrent) := growDirect fs ino length blockCurrent
    if block = 1 ∧ blockOfs = 0 then .ok (fs, ino)
    else
      let ind := if length = 512 then fs.allocPointer ino.ind else (fs, ino.ind)
      let ino := { ino with ind := ind.2 }
      if block < 129 then do
        let fs ← growSingle ind.1 ino length blockCurrent block
        .ok (fs, ino)
      else do
        let (fs, length, blockCurrent) ← fillSingle ind.1 ino length blockCurrent
        if block = 129 ∧ blockOfs = 0 then .ok (fs, ino)
        else growDouble fs ino length blockCurrent block

end Pintos.Filesys
