import Pintos.Lib.Transition
import Pintos.Vm.Swap

/-! The files and the pages of one process: `load` in `process.c`, the page fault handler, `open`,
`close`, `mmap` and `munmap` in `syscall.c`, and `process_exit`.  What the file system, the frame
table and the allocator answer comes with each call. -/

namespace Pintos.Userprog

open Transition Vm

def physBase : Nat := 0xc0000000

def codeBase : Nat := 0x08048000

/-- `struct file`, at the address `id`. -/
structure File where
  id : Nat
  inode : Nat
  deriving DecidableEq

/-- `struct sup_page_table`, at the address `id`. -/
structure SupPage where
  id : Nat
  upage : Nat
  deriving DecidableEq

structure MmapElem where
  mapid : Int
  file : File
  spt : SupPage
  deriving DecidableEq

/-- What `filesys_open` comes to: one more open of an inode, or a null pointer, with the opens that
the path lookup leaves then. -/
inductive Opened
  | file (inode : Nat)
  | null (left : List Nat)

/-- Whether `check_match` finds a frame, and whether `pagedir_set_page` has memory. -/
structure Install where
  matched : Bool
  setPage : Bool

/-- What reading the inode of a freed `struct file` gives, by the frees so far and its address. -/
abbrev Stale := List Nat → Nat → Nat

inductive Stage
  | running
  | ending
  | panicked
  deriving DecidableEq

/-- What a process has, with the `open_cnt` of all inodes.  `present` has the pages in its page
directory, `locked` says that it holds `file_lock` between calls, and `fresh` is an address not in
use. -/
structure UserProcess where
  stage : Stage
  openCnt : Nat → Nat
  file : Option File
  fileList : List (Int × File)
  nextFd : Int
  pageTable : List SupPage
  present : Nat → Bool
  mmapList : List MmapElem
  nextMapid : Int
  mmapFileList : List File
  curDir : Option Nat
  locked : Bool
  fresh : Nat
  freed : List Nat

namespace UserProcess

def inodeOpen (st : UserProcess) (inode : Nat) : UserProcess :=
  { st with openCnt := Function.update st.openCnt inode (st.openCnt inode + 1) }

def inodeClose (st : UserProcess) (inode : Nat) : UserProcess :=
  { st with openCnt := Function.update st.openCnt inode (st.openCnt inode - 1) }

/-- `thread_create`, with `dir_reopen` of the directory of the parent. -/
def create (openCnt : Nat → Nat) (parentDir : Option Nat) (reopens : Bool) : UserProcess :=
  let st : UserProcess := ⟨.running, openCnt, none, [], 2, [], fun _ => false, [], 1, [], none,
    false, 0, []⟩
  match parentDir with
  | some dir => if reopens then { st.inodeOpen dir with curDir := some dir } else st
  | none => st

/-- `filesys_open`, or `file_reopen`, for an inode. -/
def fileOpen (st : UserProcess) (inode : Nat) : UserProcess × File :=
  ({ st.inodeOpen inode with fresh := st.fresh + 1 }, ⟨st.fresh, inode⟩)

def fileClose (st : UserProcess) (file : File) : UserProcess :=
  { st.inodeClose file.inode with freed := file.id :: st.freed }

def findFile (st : UserProcess) (fd : Int) : Option File :=
  (st.fileList.find? fun fe => fe.1 = fd).map Prod.snd

/-- `file->inode`. -/
def inodeOf (stale : Stale) (st : UserProcess) (file : File) : Nat :=
  if file.id ∈ st.freed then stale st.freed file.id else file.inode

def findMappedFile (stale : Stale) (st : UserProcess) (file : File) : Option File :=
  st.mmapFileList.find? fun fe => fe.inode = st.inodeOf stale file

def findSpt (st : UserProcess) (upage : Nat) : Option SupPage :=
  st.pageTable.find? fun spt => spt.upage = upage

def sptInit (st : UserProcess) (upage : Nat) : UserProcess :=
  { st with pageTable := st.pageTable ++ [⟨st.fresh, upage⟩], fresh := st.fresh + 1 }

def installPage (st : UserProcess) (upage : Nat) (setPage : Bool) : UserProcess × Bool :=
  if st.present upage then (st, false)
  else if setPage then ({ st with present := Function.update st.present upage true }, true)
  else (st, false)

/-- `install_file`.  The functions of the page directory assert that the address is a user's. -/
def installFile (st : UserProcess) (upage : Nat) (install : Install) :
    Option (UserProcess × Bool) :=
  if upage < physBase then
    let st := st.sptInit upage
    if install.matched then some (st.installPage upage install.setPage)
    else some ({ st with present := Function.update st.present upage false }, true)
  else none

/-- `install_frame` for a page of the stack. -/
def installStack (st : UserProcess) (upage : Nat) (setPage : Bool) : UserProcess × Bool :=
  (st.sptInit upage).installPage upage setPage

section Load

/-- `struct Elf32_Phdr`, and whether it can be read at its place in the file. -/
structure Phdr where
  readable : Bool
  type : UInt32
  offset : UInt32
  vaddr : UInt32
  filesz : UInt32
  memsz : UInt32

/-- What `load` finds: whether `filesys_open` succeeds and the header is that of an executable, the
length and the program headers of the file, and whether the stack page and the arguments fit. -/
structure Executable where
  opened : Opened
  header : Bool
  fileLength : Nat
  phdrs : List Phdr
  install : Nat → Install
  setStack : Bool
  arguments : Bool

def validateSegment (phdr : Phdr) (fileLength : Nat) : Bool :=
  phdr.offset.toNat % pgsize = phdr.vaddr.toNat % pgsize ∧ phdr.offset.toNat ≤ fileLength ∧
    phdr.filesz ≤ phdr.memsz ∧ phdr.memsz ≠ 0 ∧ phdr.vaddr.toNat < physBase ∧
    (phdr.vaddr + phdr.memsz).toNat < physBase ∧ phdr.vaddr ≤ phdr.vaddr + phdr.memsz ∧
    pgsize ≤ phdr.vaddr.toNat

/-- The loop of `load_segment`, which does not look at the result of `install_frame`. -/
def loadSegment (install : Nat → Install) (st : UserProcess) (upage readBytes zeroBytes : Nat) :
    Option UserProcess :=
  if readBytes = 0 ∧ zeroBytes = 0 then some st
  else
    let pageReadBytes := min readBytes pgsize
    let pageZeroBytes := pgsize - pageReadBytes
    match st.installFile upage (install upage) with
    | none => none
    | some (st, _) =>
      loadSegment install st (upage + pgsize) (readBytes - pageReadBytes)
        (zeroBytes - pageZeroBytes)
  termination_by readBytes + zeroBytes
  decreasing_by
    have : pgsize = 4096 := rfl
    omega

def roundUp (x : Nat) : Nat := (x + (pgsize - 1)) / pgsize * pgsize

/-- The `PT_LOAD` case of `load`. -/
def loadPhdr (install : Nat → Install) (st : UserProcess) (phdr : Phdr) : Option UserProcess :=
  let pageOffset := phdr.vaddr.toNat % pgsize
  let memPage := phdr.vaddr.toNat - pageOffset
  let readBytes := if 0 < phdr.filesz then pageOffset + phdr.filesz.toNat else 0
  let zeroBytes := roundUp (pageOffset + phdr.memsz.toNat) - readBytes
  st.loadSegment install memPage readBytes zeroBytes

/-- The loop of `load` over the program headers, with whether it comes to its end. -/
def loadPhdrs (exe : Executable) : List Phdr → UserProcess → Option (UserProcess × Bool)
  | [], st => some (st, true)
  | phdr :: rest, st =>
    if !phdr.readable then some (st, false)
    else if phdr.type = 1 then
      if validateSegment phdr exe.fileLength then
        (st.loadPhdr exe.install phdr).bind (loadPhdrs exe rest)
      else some (st, false)
    else if phdr.type = 2 ∨ phdr.type = 3 ∨ phdr.type = 5 then some (st, false)
    else loadPhdrs exe rest st

/-- `load` of a process that has a page directory. -/
def load (st : UserProcess) (exe : Executable) : Option (UserProcess × Bool) :=
  match exe.opened with
  | .null left => some (left.foldl inodeOpen st, false)
  | .file inode =>
    let (st, file) := st.fileOpen inode
    let st := { st with file := some file }
    if exe.header then
      match st.loadPhdrs exe exe.phdrs with
      | some (st, true) =>
        let (st, success) := st.installStack (physBase - pgsize) exe.setStack
        some (st, success && exe.arguments)
      | result => result
    else some (st, false)

/-- A process that was created and came out of `load`; it exits at once if that failed. -/
def spawn (openCnt : Nat → Nat) (parentDir : Option Nat) (reopens : Bool) (exe : Executable) :
    Option UserProcess :=
  ((create openCnt parentDir reopens).load exe).map fun result =>
    { result.1 with stage := if result.2 then .running else .ending }

/-- An executable without segments, in inode 1. -/
def emptyExecutable : Executable :=
  ⟨.file 1, true, 0, [], fun _ => ⟨false, true⟩, true, true⟩

end Load

section Calls

/-- `open` and its result.  The process cannot take a lock that it holds. -/
def open_ (st : UserProcess) (opened : Opened) : Option (UserProcess × Int) :=
  if st.locked then none
  else
    match opened with
    | .null left => some (left.foldl inodeOpen st, -1)
    | .file inode =>
      let (st, file) := st.fileOpen inode
      some ({ st with fileList := st.fileList ++ [(st.nextFd, file)], nextFd := st.nextFd + 1 },
        st.nextFd)

def close (st : UserProcess) (fd : Int) : Option UserProcess :=
  match st.fileList.find? fun fe => fe.1 = fd with
  | none => some st
  | some fe =>
    if st.locked then none
    else some { st.fileClose fe.2 with fileList := st.fileList.erase fe }

/-- A page of a mapping is taken out of the page directory, `page_table` and `mmap_list`. -/
def freePage (st : UserProcess) (mmap : MmapElem) : UserProcess :=
  { st with
    present := Function.update st.present mmap.spt.upage false
    pageTable := st.pageTable.erase mmap.spt
    mmapList := st.mmapList.erase mmap }

/-- The body of the loop in `munmap`. -/
def unmapPage (stale : Stale) (st : UserProcess) (mmap : MmapElem) : UserProcess :=
  let st := st.freePage mmap
  match st.findMappedFile stale mmap.file with
  | some fe => { st.fileClose fe with mmapFileList := st.mmapFileList.erase fe }
  | none => st

/-- The loop of `munmap` over `mmap_list`. -/
def munmapLoop (stale : Stale) (mapid : Int) : List MmapElem → UserProcess → UserProcess
  | [], st => st
  | mmap :: rest, st =>
    munmapLoop stale mapid rest (if mapid = mmap.mapid then st.unmapPage stale mmap else st)

def munmap (stale : Stale) (st : UserProcess) (mapid : Int) : UserProcess :=
  munmapLoop stale mapid st.mmapList st

def checkMmapAddr (st : UserProcess) (upage : Nat) : Bool :=
  upage < physBase ∧ codeBase ≤ upage ∧ upage % pgsize = 0 ∧ st.findSpt upage = none

/-- The loop of `mmap` over `count` pages from `upage` on. -/
def mmapLoop (install : Nat → Install) (stale : Stale) (mapid : Int) (file : File) :
    Nat → Nat → UserProcess → Option (UserProcess × Bool)
  | 0, _, st => some (st, true)
  | count + 1, upage, st =>
    match st.installFile upage (install upage) with
    | none => none
    | some (st, false) => some (st.munmap stale mapid, false)
    | some (st, true) =>
      match st.findSpt upage with
      | none => none
      | some spt =>
        mmapLoop install stale mapid file count (upage + pgsize)
          { st with mmapList := st.mmapList ++ [⟨mapid, file, spt⟩] }

/-- The number of pages for `length` bytes. -/
def pages (length : Nat) : Nat := (length + (pgsize - 1)) / pgsize

/-- `mmap` of a file of `length` bytes, where `reopens` says whether `file_reopen` has memory.  The
ways out after `filesize` failed, or later, leave `file_lock` held. -/
def mmap (install : Nat → Install) (stale : Stale) (st : UserProcess) (fd : Int)
    (upage length : Nat) (reopens : Bool) : Option (UserProcess × Int) :=
  if !st.checkMmapAddr upage then some (st, -1)
  else if st.locked then none
  else
    match st.findFile fd with
    | none => some ({ st with locked := true }, -1)
    | some found =>
      if length = 0 ∨ !reopens then some ({ st with locked := true }, -1)
      else
        let (st, file) := st.fileOpen found.inode
        let mapid := st.nextMapid
        let st := { st with nextMapid := st.nextMapid + 1 }
        match st.mmapLoop install stale mapid file (pages length) upage with
        | none => none
        | some (st, false) => some ({ st with locked := true }, -1)
        | some (st, true) => some ({ st with mmapFileList := st.mmapFileList ++ [file] }, mapid)

/-- `mmap` comes to its loop. -/
def MapsFile (st : UserProcess) (fd : Int) (upage length : Nat) (reopens : Bool) : Prop :=
  st.checkMmapAddr upage = true ∧ (st.findFile fd).isSome = true ∧ 0 < length ∧ reopens = true

instance (st : UserProcess) (fd : Int) (upage length : Nat) (reopens : Bool) :
    Decidable (st.MapsFile fd upage length reopens) :=
  inferInstanceAs (Decidable (_ ∧ _ ∧ _ ∧ _))

/-- A `mmap` that returns fails before its loop and changes nothing but the lock, or goes through
its loop. -/
theorem mmap_cases {st st' : UserProcess} {install : Nat → Install} {stale : Stale} {fd : Int}
    {upage length : Nat} {reopens : Bool} {result : Int}
    (run : st.mmap install stale fd upage length reopens = some (st', result)) :
    (¬st.MapsFile fd upage length reopens ∧ ∃ locked, st' = { st with locked }) ∨
      st.MapsFile fd upage length reopens ∧ st.locked = false ∧
        ∃ found mid success, st.findFile fd = some found ∧
          mmapLoop install stale st.nextMapid (st.fileOpen found.inode).2 (pages length) upage
            { (st.fileOpen found.inode).1 with nextMapid := st.nextMapid + 1 } =
              some (mid, success) ∧
          st' = if success then
              { mid with mmapFileList := mid.mmapFileList ++ [(st.fileOpen found.inode).2] }
            else { mid with locked := true } := by
  rw [mmap] at run
  split at run
  next bad =>
    obtain ⟨rfl, -⟩ := Prod.mk.inj (Option.some.inj run)
    refine .inl ⟨fun goes => ?_, st.locked, rfl⟩
    rw [goes.1] at bad
    cases bad
  next checked =>
    split at run
    · cases run
    next unlocked =>
      split at run
      next none =>
        obtain ⟨rfl, -⟩ := Prod.mk.inj (Option.some.inj run)
        refine .inl ⟨fun goes => ?_, true, rfl⟩
        have isFile := goes.2.1
        rw [none] at isFile
        cases isFile
      next found isFile =>
        split at run
        next refused =>
          obtain ⟨rfl, -⟩ := Prod.mk.inj (Option.some.inj run)
          refine .inl ⟨fun ⟨_, _, long, reopened⟩ => ?_, true, rfl⟩
          rcases refused with empty | failed
          · omega
          · rw [reopened] at failed
            cases failed
        next goes =>
          have maps : st.MapsFile fd upage length reopens := by
            refine ⟨by simpa using checked, by rw [isFile]; rfl, by omega, ?_⟩
            simpa using (not_or.mp goes).2
          refine .inr ⟨maps, by simpa using unlocked, found, ?_⟩
          simp only at run
          split at run
          next => cases run
          next mid loop =>
            obtain ⟨rfl, -⟩ := Prod.mk.inj (Option.some.inj run)
            exact ⟨mid, false, isFile, loop, rfl⟩
          next mid loop =>
            obtain ⟨rfl, -⟩ := Prod.mk.inj (Option.some.inj run)
            exact ⟨mid, true, isFile, loop, rfl⟩

/-- `page_fault` for a page that is not present, and `check_valid_esp`; `above` compares the address
with the stack pointer, and `back` is what `load_back` returns. -/
def fault (st : UserProcess) (addr : Nat) (above back setPage : Bool) : UserProcess :=
  let upage := addr - addr % pgsize
  if physBase ≤ addr ∨ addr ≤ codeBase then { st with stage := .ending }
  else if st.present upage then st
  else if (st.findSpt upage).isSome then
    if back then { st with present := Function.update st.present upage true }
    else { st with stage := .ending }
  else if above then
    let (st, success) := st.installStack upage setPage
    if success then st else { st with stage := .ending }
  else { st with stage := .ending }

inductive Call
  | open_ (opened : Opened)
  | close (fd : Int)
  | mmap (fd : Int) (upage length : Nat) (reopens : Bool) (install : Nat → Install) (stale : Stale)
  | munmap (mapid : Int) (stale : Stale)
  | fault (addr : Nat) (above back setPage : Bool)
  | evict (upage : Nat)

/-- One call that comes to its end.  A page is also evicted while the process runs. -/
def call (st : UserProcess) : Call → Option UserProcess
  | .open_ opened => (st.open_ opened).map Prod.fst
  | .close fd => st.close fd
  | .mmap fd upage length reopens install stale =>
    (st.mmap install stale fd upage length reopens).map Prod.fst
  | .munmap mapid stale => some (st.munmap stale mapid)
  | .fault addr above back setPage => some (st.fault addr above back setPage)
  | .evict upage => some { st with present := Function.update st.present upage false }

/-- A call of a process that runs.  After a failed assertion there are no more. -/
def step (st : UserProcess) (c : Call) : Option UserProcess :=
  if st.stage = .running then some ((st.call c).getD { st with stage := .panicked }) else none

end Calls

section Exit

/-- The loop of `munmap_all`, which closes no file. -/
def munmapAll (stale : Stale) : List MmapElem → UserProcess → UserProcess
  | [], st => st
  | mmap :: rest, st =>
    let st := st.freePage mmap
    match st.findMappedFile stale mmap.file with
    | some fe => munmapAll stale rest { st with mmapFileList := st.mmapFileList.erase fe }
    | none => munmapAll stale rest st

def closeAll : List (Int × File) → UserProcess → UserProcess
  | [], st => st
  | fe :: rest, st => closeAll rest { st.fileClose fe.2 with fileList := rest }

def processExit (stale : Stale) (st : UserProcess) : UserProcess :=
  let st := munmapAll stale st.mmapList st
  let st := { st with pageTable := [] }
  let st :=
    match st.file with
    | some file => st.fileClose file
    | none => st
  closeAll st.fileList st

end Exit

end UserProcess

end Pintos.Userprog
