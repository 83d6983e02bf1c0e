import Pintos.Lib.Locking

/-! The locks that `cache.c`, `inode.c`, `directory.c` and `filesys.c` take to read, write, close
and open a file.  What a function finds in its data is an argument of it. -/

namespace Pintos.LockUse

open Locking

/-- The locks of the kernel.  Every inode in memory and every cache entry has an `io` lock. -/
inductive LockId
  | fileLock
  | frameLock
  | swapLock
  | cacheLock
  | inodeIo (inode : Nat)
  | cacheIo (cache : Nat)
  deriving DecidableEq

open LockId

abbrev Uses (α : Type) := Prog LockId α

def condWait (l : LockId) : Uses Unit := do
  release l
  acquire l

/-- `write_cache` and `write_inode`, which wait for the readers. -/
def acquireWaiting (l : LockId) (waits : Bool) : Uses Unit := do
  acquire l
  if waits then condWait l

section Cache

/-- What `cache_block` and the access after it meet: the entry of the sector, whether `find_cache`
finds it, the entries that `cache_evict` comes by, and whether `write_cache` waits for readers. -/
structure CacheUse where
  cache : Nat
  found : Bool
  passed : List Nat
  waits : Bool

def readCache (cache : Nat) : Uses Unit := do
  acquire (cacheIo cache)
  release (cacheIo cache)

def endRead (cache : Nat) : Uses Unit := do
  acquire (cacheIo cache)
  release (cacheIo cache)

def writeCache (cache : Nat) (waits : Bool) : Uses Unit := acquireWaiting (cacheIo cache) waits

def endWrite (cache : Nat) : Uses Unit := release (cacheIo cache)

def findCache : Uses Unit := guarded cacheLock (pure ())

def cacheEvict (passed : List Nat) : Uses Unit :=
  each (fun cache => guarded (cacheIo cache) (pure ())) passed

def createCache (u : CacheUse) : Uses Unit :=
  guarded cacheLock do
    cacheEvict u.passed
    acquire (cacheIo u.cache)
    release (cacheIo u.cache)

def cacheBlock (u : CacheUse) : Uses Unit := do
  findCache
  if u.found then do
    acquire (cacheIo u.cache)
    release (cacheIo u.cache)
  else createCache u

def cacheRemove : Uses Unit := do
  acquire cacheLock
  release cacheLock

/-- `cache_block`, `read_cache` and `end_read`. -/
def readBlock (u : CacheUse) : Uses Unit := do
  cacheBlock u
  readCache u.cache
  endRead u.cache

/-- `cache_block`, `write_cache` and `end_write`. -/
def writeBlock (u : CacheUse) : Uses Unit := do
  cacheBlock u
  writeCache u.cache u.waits
  endWrite u.cache

end Cache

section Inode

def withIo (inode : Nat) : Uses Unit := do
  acquire (inodeIo inode)
  release (inodeIo inode)

def readInode (inode : Nat) : Uses Unit := withIo inode

def readEnd (inode : Nat) : Uses Unit := withIo inode

def inodeIsdir (inode : Nat) : Uses Unit := withIo inode

def inodeParent (inode : Nat) : Uses Unit := withIo inode

def inodeReopen (inode : Nat) : Uses Unit := withIo inode

def inodeDenyWrite (inode : Nat) : Uses Unit := withIo inode

def inodeAllowWrite (inode : Nat) : Uses Unit := withIo inode

def inodeLength (inode : Nat) : Uses Unit := withIo inode

def writeInode (inode : Nat) (waits : Bool) : Uses Unit := acquireWaiting (inodeIo inode) waits

def writeEnd (inode : Nat) : Uses Unit := release (inodeIo inode)

/-- A round of the loop in `inode_read_at` or `inode_write_at`: the blocks of pointers that
`byte_to_sector` reads, and the block with the data. -/
structure Chunk where
  index : List CacheUse
  data : CacheUse

structure ReadAt where
  beyond : Bool
  chunks : List Chunk

def byteToSector (index : List CacheUse) : Uses Unit := each readBlock index

def Chunk.read (chunk : Chunk) : Uses Unit := do
  byteToSector chunk.index
  readBlock chunk.data

def Chunk.write (chunk : Chunk) : Uses Unit := do
  byteToSector chunk.index
  writeBlock chunk.data

def inodeReadAt (inode : Nat) (r : ReadAt) : Uses Unit := do
  readInode inode
  if r.beyond then readEnd inode
  else do
    each Chunk.read r.chunks
    readEnd inode

/-- A write within the length of the file, which calls no `file_growth`. -/
structure WriteAt where
  waits : Bool
  denied : Bool
  chunks : List Chunk

def inodeWriteAt (inode : Nat) (w : WriteAt) : Uses Unit := do
  let held ← holds (inodeIo inode)
  if !held then writeInode inode w.waits
  if w.denied then
    if !held then writeEnd inode
  else do
    each Chunk.write w.chunks
    if !held then writeEnd inode

/-- What `inode_open` finds: the inode in memory, no memory, or the block of its sector. -/
inductive Fetched
  | found
  | noMemory
  | block (u : CacheUse)

structure InodeOpen where
  inode : Nat
  fetched : Fetched

def inodeOpen (o : InodeOpen) : Uses (Option Nat) := do
  acquire fileLock
  match o.fetched with
  | .found => do
    inodeReopen o.inode
    release fileLock
    return some o.inode
  | .noMemory => do
    release fileLock
    return none
  | .block u => do
    acquire (inodeIo o.inode)
    writeBlock u
    release (inodeIo o.inode)
    release fileLock
    return some o.inode

/-- The calls of `inode_delete` while it holds the `io` lock of the inode.  `free_map_release`
writes to the file of the free map, the inode `freeMap`. -/
inductive DeleteCall
  | freeMapRelease (freeMap : Nat) (write : WriteAt)
  | findCache
  | cacheRemove
  | cacheBlock (u : CacheUse)
  | readIndex (cache : Nat)

def DeleteCall.run : DeleteCall → Uses Unit
  | .freeMapRelease freeMap write => inodeWriteAt freeMap write
  | .findCache => LockUse.findCache
  | .cacheRemove => LockUse.cacheRemove
  | .cacheBlock u => LockUse.cacheBlock u
  | .readIndex cache => do
    readCache cache
    endRead cache

def inodeDelete (inode : Nat) (calls : List DeleteCall) : Uses Unit := do
  acquire (inodeIo inode)
  each DeleteCall.run calls
  release (inodeIo inode)

/-- The end of an inode that was removed: what `inode_delete` calls, the release of its sector, and
whether that is in the cache. -/
structure Deletion where
  calls : List DeleteCall
  freeMap : Nat
  write : WriteAt
  cached : Bool

/-- What `inode_close` meets; `last` when no opener is left. -/
structure InodeClose where
  inode : Nat
  last : Option (CacheUse × Option Deletion)

def inodeClose (c : InodeClose) : Uses Unit :=
  guarded fileLock (match c.last with
    | none => pure ()
    | some (u, none) => writeBlock u
    | some (u, some d) => do
      writeBlock u
      inodeDelete c.inode d.calls
      inodeWriteAt d.freeMap d.write
      findCache
      if d.cached then cacheRemove)

end Inode

section Directory

/-- `dir_lookup`: the reads of `lookup`, and the entry that it finds. -/
def dirLookup (dir : Nat) (reads : List ReadAt) (entry : Option InodeOpen) :
    Uses (Option Nat) := do
  each (inodeReadAt dir) reads
  match entry with
  | none => return none
  | some o => inodeOpen o

/-- A name on the way of `true_dir`, before any `"."`: `".."` from an inode, which may have no
parent, or an entry of a directory. -/
inductive Component
  | dotdot (inode : Nat) (parent : Option InodeOpen)
  | name (dir : Nat) (reads : List ReadAt) (entry : Option InodeOpen)

/-- The inode of a name, null where `inode_open` has no memory for a parent; no result where
`true_dir` gives up. -/
def Component.find : Component → Uses (Option (Option Nat))
  | .dotdot inode none => do
    inodeParent inode
    return none
  | .dotdot inode (some parent) => do
    inodeParent inode
    inodeParent inode
    return some (← inodeOpen parent)
  | .name dir reads entry => do
    match ← dirLookup dir reads entry with
    | none => return none
    | some inode => return some (some inode)

/-- A name on the way, with the calls of `inode_close` after it. -/
structure PassedName where
  component : Component
  closes : List InodeClose

def trueDirLoop : List PassedName → Uses Bool
  | [] => pure true
  | name :: rest => do
    match ← name.component.find with
    | none => return false
    | some none => do
      each inodeClose name.closes
      trueDirLoop rest
    | some (some inode) => do
      inodeIsdir inode
      each inodeClose name.closes
      trueDirLoop rest

/-- Where a lookup starts: the root, or the working directory of the thread. -/
inductive Start
  | root (o : InodeOpen)
  | cur (inode : Nat)

def Start.open : Start → Uses Unit
  | .root o => do
    let _ ← inodeOpen o
  | .cur inode => inodeReopen inode

/-- The last name of a path: none or `"."`, `".."`, or an entry. -/
inductive LastName
  | self
  | dotdot (parent : Option InodeOpen)
  | name (reads : List ReadAt) (entry : Option InodeOpen)

/-- What `filesys_open` meets.  `dir` is the directory that `true_dir` returns, `closes` what
`inode_close` meets there, and `lost` is what it meets where there is no memory for the file. -/
structure Opening where
  empty : Bool
  start : Start
  passed : List PassedName
  dir : Option Nat
  last : LastName
  closes : InodeClose
  lost : Option InodeClose

/-- The end of `filesys_open`: `inode_isdir`, and `dir_open` or `file_open`. -/
def openFile (lost : Option InodeClose) : Option Nat → Uses (Option Nat)
  | none => pure none
  | some inode => do
    inodeIsdir inode
    match lost with
    | none => return some inode
    | some c => do
      inodeClose c
      return none

/-- The part of `filesys_open` after `true_dir`. -/
def openLast (o : Opening) (dir : Nat) : Uses (Option Nat) :=
  match o.last with
  | .self => return some dir
  | .dotdot none => do
    inodeParent dir
    inodeClose o.closes
    return none
  | .dotdot (some parent) => do
    inodeParent dir
    inodeParent dir
    let inode ← inodeOpen parent
    inodeClose o.closes
    openFile o.lost inode
  | .name reads entry => do
    let inode ← dirLookup dir reads entry
    inodeClose o.closes
    openFile o.lost inode

/-- The inode of the file that `filesys_open` returns. -/
def filesysOpen (o : Opening) : Uses (Option Nat) := do
  if o.empty then return none
  o.start.open
  if !(← trueDirLoop o.passed) then return none
  match o.dir with
  | none => return none
  | some dir => openLast o dir

end Directory

section Takes

variable {l : LockId}

def CacheUse.takes (u : CacheUse) : List LockId := [cacheIo u.cache]

def Chunk.takes (chunk : Chunk) : List LockId :=
  chunk.index.flatMap CacheUse.takes ++ chunk.data.takes

def ReadAt.takes (inode : Nat) (r : ReadAt) : List LockId :=
  inodeIo inode :: if r.beyond then [] else r.chunks.flatMap Chunk.takes

/-- The `io` lock of the inode is taken unless it is held. -/
def WriteAt.takes (w : WriteAt) : List LockId :=
  if w.denied then [] else w.chunks.flatMap Chunk.takes

def DeleteCall.takes : DeleteCall → List LockId
  | .freeMapRelease _ write => write.takes
  | .findCache => []
  | .cacheRemove => [cacheLock]
  | .cacheBlock u => u.takes
  | .readIndex cache => [cacheIo cache]

def Deletion.takes (inode : Nat) (d : Deletion) : List LockId :=
  inodeIo inode :: d.calls.flatMap DeleteCall.takes ++ d.write.takes ++
    if d.cached then [cacheLock] else []

def InodeClose.takes (c : InodeClose) : List LockId :=
  match c.last with
  | none => []
  | some (u, none) => u.takes
  | some (u, some d) => u.takes ++ d.takes c.inode

theorem CacheUse.mem_takes {u : CacheUse} (taken : l ∈ u.takes) : ∃ c, l = cacheIo c :=
  ⟨u.cache, List.mem_singleton.mp taken⟩

theorem Chunk.mem_takes {chunk : Chunk} (taken : l ∈ chunk.takes) : ∃ c, l = cacheIo c := by
  rcases List.mem_append.mp taken with index | data
  · obtain ⟨u, -, taken⟩ := List.mem_flatMap.mp index
    exact u.mem_takes taken
  · exact chunk.data.mem_takes data

theorem ReadAt.fileLock_notMem (inode : Nat) (r : ReadAt) : fileLock ∉ r.takes inode := by
  intro taken
  rcases List.mem_cons.mp taken with same | taken
  · cases same
  · split at taken
    · cases taken
    · obtain ⟨chunk, -, taken⟩ := List.mem_flatMap.mp taken
      obtain ⟨_, same⟩ := chunk.mem_takes taken
      cases same

theorem WriteAt.mem_takes {w : WriteAt} (taken : l ∈ w.takes) : ∃ c, l = cacheIo c := by
  unfold WriteAt.takes at taken
  split at taken
  · cases taken
  · obtain ⟨chunk, -, taken⟩ := List.mem_flatMap.mp taken
    exact chunk.mem_takes taken

theorem DeleteCall.mem_takes {call : DeleteCall} (taken : l ∈ call.takes) :
    l = cacheLock ∨ ∃ c, l = cacheIo c := by
  cases call with
  | freeMapRelease freeMap write => exact .inr (write.mem_takes taken)
  | findCache => cases taken
  | cacheRemove => exact .inl (List.mem_singleton.mp taken)
  | cacheBlock u => exact .inr (u.mem_takes taken)
  | readIndex cache => exact .inr ⟨cache, List.mem_singleton.mp taken⟩

theorem InodeClose.fileLock_notMem (c : InodeClose) : fileLock ∉ c.takes := by
  intro taken
  unfold InodeClose.takes at taken
  split at taken
  next => cases taken
  next u _ =>
    obtain ⟨_, same⟩ := u.mem_takes taken
    cases same
  next u d _ =>
    rcases List.mem_append.mp taken with block | deleted
    · obtain ⟨_, same⟩ := u.mem_takes block
      cases same
    · simp only [Deletion.takes, List.mem_append, List.mem_cons, List.mem_flatMap] at deleted
      rcases deleted with ((same | ⟨call, _, taken⟩) | taken) | taken
      · cases same
      · rcases call.mem_takes taken with same | ⟨_, same⟩
        · cases same
        · cases same
      · obtain ⟨_, same⟩ := d.write.mem_takes taken
        cases same
      · split at taken
        · cases List.mem_singleton.mp taken
        · cases taken

end Takes

section Cleanly

theorem readCache_clean (cache : Nat) : Clean (readCache cache) [cacheIo cache] () :=
  Clean.touch (cacheIo cache)

theorem endRead_clean (cache : Nat) : Clean (endRead cache) [cacheIo cache] () :=
  Clean.touch (cacheIo cache)

theorem findCache_clean : Clean findCache [] () :=
  Clean.guarded (.pure ()) List.not_mem_nil

theorem cacheRemove_clean : Clean cacheRemove [cacheLock] () := Clean.touch cacheLock

theorem cacheEvict_clean (passed : List Nat) : Clean (cacheEvict passed) [] () := by
  have one (cache : Nat) : Clean (guarded (cacheIo cache) (pure ())) [] () :=
    Clean.guarded (.pure ()) List.not_mem_nil
  exact (Clean.each one passed).congr fun l => by simp

theorem cacheBlock_clean (u : CacheUse) : Clean (cacheBlock u) u.takes () := by
  have touch : Clean _ u.takes () := Clean.touch (cacheIo u.cache)
  have create : Clean (createCache u) u.takes () := by
    refine Clean.guarded (.seq (cacheEvict_clean u.passed) touch) fun taken => ?_
    obtain ⟨_, same⟩ := u.mem_takes taken
    cases same
  refine .seq findCache_clean ?_
  split
  · exact touch
  · exact create

theorem readBlock_clean (u : CacheUse) : Clean (readBlock u) u.takes () := by
  have reads := Clean.seq (readCache_clean u.cache) (endRead_clean u.cache)
  refine (Clean.seq (cacheBlock_clean u) reads).congr fun l => ?_
  simp [CacheUse.takes]

/-- A lock that is given up to wait is taken again. -/
@[simp] theorem wp_acquireWaiting {Q : Unit → Finset LockId → Prop} {held : Finset LockId}
    (l : LockId) (waits : Bool) :
    wp (acquireWaiting l waits) Q held ↔ l ∉ held ∧ Q () (insert l held) := by
  cases waits with
  | false => simp [acquireWaiting]
  | true =>
    simp only [acquireWaiting, if_true, condWait, wp_bind, wp_acquire, wp_release,
      Finset.mem_insert_self, true_and]
    refine and_congr_right fun free => ?_
    rw [Finset.erase_insert free]
    exact and_iff_right free

theorem writeBlock_clean (u : CacheUse) : Clean (writeBlock u) u.takes () := by
  have write : Clean (do writeCache u.cache u.waits; endWrite u.cache) u.takes () := by
    intro Q held
    rw [CacheUse.takes, ← Clean.touch (cacheIo u.cache) Q held]
    simp only [writeCache, endWrite, wp_bind, wp_acquireWaiting, wp_acquire]
  exact (Clean.seq (cacheBlock_clean u) write).congr fun l => by simp

theorem withIo_clean (inode : Nat) : Clean (withIo inode) [inodeIo inode] () :=
  Clean.touch (inodeIo inode)

theorem byteToSector_clean (index : List CacheUse) :
    Clean (byteToSector index) (index.flatMap CacheUse.takes) () :=
  Clean.each readBlock_clean index

theorem Chunk.read_clean (chunk : Chunk) : Clean chunk.read chunk.takes () :=
  .seq (byteToSector_clean chunk.index) (readBlock_clean chunk.data)

theorem Chunk.write_clean (chunk : Chunk) : Clean chunk.write chunk.takes () :=
  .seq (byteToSector_clean chunk.index) (writeBlock_clean chunk.data)

theorem inodeReadAt_clean (inode : Nat) (r : ReadAt) :
    Clean (inodeReadAt inode r) (r.takes inode) () := by
  have chunks := Clean.seq (Clean.each Chunk.read_clean r.chunks) (withIo_clean inode)
  unfold inodeReadAt ReadAt.takes
  split
  · exact (Clean.seq (withIo_clean inode) (withIo_clean inode)).congr fun l => by simp
  · refine (Clean.seq (withIo_clean inode) chunks).congr fun l => ?_
    simp only [List.mem_append, List.mem_cons, List.not_mem_nil]
    tauto

theorem inodeWriteAt_clean (inode : Nat) (w : WriteAt) :
    Clean (inodeWriteAt inode w) w.takes () := by
  have other : inodeIo inode ∉ w.takes := fun taken => by
    obtain ⟨_, same⟩ := w.mem_takes taken
    cases same
  let body : Uses Unit := if w.denied then pure () else each Chunk.write w.chunks
  have clean : Clean body w.takes () := by
    unfold WriteAt.takes body
    split
    · exact .pure ()
    · exact Clean.each Chunk.write_clean w.chunks
  intro Q held
  rw [← Clean.guarded clean other Q held]
  cases denied : w.denied <;> by_cases here : inodeIo inode ∈ held <;>
    simp [inodeWriteAt, guarded, body, writeInode, writeEnd, denied, here]

theorem DeleteCall.run_clean (call : DeleteCall) : Clean call.run call.takes () := by
  cases call with
  | freeMapRelease freeMap write => exact inodeWriteAt_clean freeMap write
  | findCache => exact findCache_clean
  | cacheRemove => exact cacheRemove_clean
  | cacheBlock u => exact cacheBlock_clean u
  | readIndex cache =>
    exact (Clean.seq (readCache_clean cache) (endRead_clean cache)).congr fun l => by
      simp [DeleteCall.takes]

theorem inodeDelete_clean (inode : Nat) (calls : List DeleteCall) :
    Clean (inodeDelete inode calls) (inodeIo inode :: calls.flatMap DeleteCall.takes) () := by
  refine Clean.critical (Clean.each DeleteCall.run_clean calls) fun taken => ?_
  obtain ⟨call, -, taken⟩ := List.mem_flatMap.mp taken
  rcases call.mem_takes taken with same | ⟨_, same⟩
  · cases same
  · cases same

theorem inodeClose_clean (c : InodeClose) : Clean (inodeClose c) c.takes () := by
  refine Clean.guarded ?_ c.fileLock_notMem
  unfold InodeClose.takes
  split
  next => exact .pure ()
  next u _ => exact writeBlock_clean u
  next u d _ =>
    have remove : Clean (if d.cached then cacheRemove else pure ())
        (if d.cached then [cacheLock] else []) () := by
      split
      · exact cacheRemove_clean
      · exact .pure ()
    have release := Clean.seq (inodeWriteAt_clean d.freeMap d.write) (.seq findCache_clean remove)
    refine (Clean.seq (writeBlock_clean u) (.seq (inodeDelete_clean c.inode d.calls)
      release)).congr fun l => ?_
    simp only [Deletion.takes, List.append_assoc, List.nil_append]

end Cleanly

section Settled

/-- How a program goes while the thread holds `file_lock`: it takes some locks and returns, or it
takes `file_lock` again. -/
def Settles {α : Type} (p : Uses α) : Option (List LockId × α) → Prop
  | some (takes, a) => Clean p takes a
  | none => Refuses p fileLock

/-- A name opens nothing: `true_dir` gives up. -/
def Component.settled : Component → Option (List LockId × Option (Option Nat))
  | .dotdot inode none => some ([inodeIo inode], none)
  | .dotdot _ (some _) => none
  | .name dir reads none => some (reads.flatMap (ReadAt.takes dir), none)
  | .name _ _ (some _) => none

/-- The last name opens nothing: `filesys_open` returns the directory, or a null pointer. -/
def Opening.lastSettled (o : Opening) (dir : Nat) : Option (List LockId × Option Nat) :=
  match o.last with
  | .self => some ([], some dir)
  | .dotdot none => some (inodeIo dir :: o.closes.takes, none)
  | .dotdot (some _) => none
  | .name reads none => some (reads.flatMap (ReadAt.takes dir) ++ o.closes.takes, none)
  | .name _ (some _) => none

/-- `filesys_open` calls no `inode_open`: the name is empty, or the path starts in the working
directory and either its first name or, without others, its last one opens nothing. -/
def Opening.settled (o : Opening) : Option (List LockId × Option Nat) :=
  if o.empty then some ([], none)
  else
    match o.start, o.passed with
    | .root _, _ => none
    | .cur inode, name :: _ =>
      name.component.settled.map fun (takes, _) => (inodeIo inode :: takes, none)
    | .cur inode, [] =>
      match o.dir with
      | none => some ([inodeIo inode], none)
      | some dir => (o.lastSettled dir).map fun (takes, file) => (inodeIo inode :: takes, file)

theorem inodeOpen_refuses (o : InodeOpen) : Refuses (inodeOpen o) fileLock :=
  (Refuses.acquire fileLock).bind

theorem lookup_clean (dir : Nat) (reads : List ReadAt) :
    Clean (each (inodeReadAt dir) reads) (reads.flatMap (ReadAt.takes dir)) () :=
  Clean.each (inodeReadAt_clean dir) reads

theorem dirLookup_clean (dir : Nat) (reads : List ReadAt) :
    Clean (dirLookup dir reads none) (reads.flatMap (ReadAt.takes dir)) none :=
  (Clean.seq (lookup_clean dir reads) (.pure none)).congr fun l => by simp

theorem dirLookup_refuses (dir : Nat) (reads : List ReadAt) (o : InodeOpen) :
    Refuses (dirLookup dir reads (some o)) fileLock :=
  .after (lookup_clean dir reads) (inodeOpen_refuses o)

theorem Component.find_settles (c : Component) : Settles c.find c.settled := by
  match c with
  | .dotdot inode none =>
    exact (Clean.seq (withIo_clean inode) (.pure none)).congr fun l => by simp
  | .dotdot inode (some parent) =>
    exact .after (withIo_clean inode) (.after (withIo_clean inode) (inodeOpen_refuses parent).bind)
  | .name dir reads none =>
    have find : Clean (Component.name dir reads none).find _ none :=
      .bind (dirLookup_clean dir reads) (.pure none)
    exact find.congr fun l => by simp
  | .name dir reads (some o) => exact (dirLookup_refuses dir reads o).bind

theorem trueDirLoop_settles (name : PassedName) (rest : List PassedName) :
    Settles (trueDirLoop (name :: rest))
      (name.component.settled.map fun (takes, _) => (takes, false)) := by
  have find := name.component.find_settles
  match settled : name.component.settled with
  | none =>
    rw [settled] at find
    exact Refuses.bind find
  | some (takes, result) =>
    have gives : result = none := by
      unfold Component.settled at settled
      split at settled <;> cases settled <;> rfl
    subst gives
    rw [settled] at find
    have loop : Clean (trueDirLoop (name :: rest)) _ false := Clean.bind find (.pure false)
    exact loop.congr fun l => by simp

theorem openLast_settles (o : Opening) (dir : Nat) :
    Settles (openLast o dir) (o.lastSettled dir) := by
  unfold openLast Opening.lastSettled
  match o.last with
  | .self => exact .pure (some dir)
  | .dotdot none =>
    refine (Clean.seq (withIo_clean dir) (.seq (inodeClose_clean o.closes) (.pure none))).congr
      fun l => ?_
    simp
  | .dotdot (some parent) =>
    exact .after (withIo_clean dir) (.after (withIo_clean dir) (inodeOpen_refuses parent).bind)
  | .name reads none =>
    exact .bind (dirLookup_clean dir reads) ((Clean.seq (inodeClose_clean o.closes)
      (.pure none)).congr fun l => by simp)
  | .name reads (some entry) => exact (dirLookup_refuses dir reads entry).bind

theorem filesysOpen_settles (o : Opening) : Settles (filesysOpen o) o.settled := by
  unfold filesysOpen Opening.settled
  cases o.empty with
  | true => exact .pure none
  | false =>
    simp only [if_false, Bool.false_eq_true]
    cases o.start with
    | root root => exact (inodeOpen_refuses root).bind.bind
    | cur inode =>
      cases o.passed with
      | cons name rest =>
        have loop := trueDirLoop_settles name rest
        dsimp only
        cases settled : name.component.settled with
        | none =>
          rw [settled] at loop
          exact Refuses.after (withIo_clean inode) (Refuses.bind loop)
        | some result =>
          rw [settled] at loop
          have gives : Clean (trueDirLoop (name :: rest)) result.1 false := loop
          exact (Clean.seq (withIo_clean inode) (.bind gives (.pure none))).congr fun l => by simp
      | nil =>
        dsimp only
        cases o.dir with
        | none => exact (Clean.seq (withIo_clean inode) (.pure none)).congr fun l => by simp
        | some dir =>
          have last := openLast_settles o dir
          dsimp only
          cases settled : o.lastSettled dir with
          | none =>
            rw [settled] at last
            exact Refuses.after (withIo_clean inode) (Refuses.after (.pure true) last)
          | some result =>
            rw [settled] at last
            have gives : Clean (openLast o dir) result.1 result.2 := last
            exact Clean.seq (withIo_clean inode) gives

end Settled

end Pintos.LockUse
