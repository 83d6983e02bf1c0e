import Mathlib.Data.List.Nodup
import Mathlib.Logic.Function.Basic
import Pintos.Lib.Words

/-! Paging as in `swap.c`, with the parts of `frame.c`, `pagedir.c` and `process.c` that it uses:
frames of pages that are backed by a file or by swap, per-process page directories, eviction and
load-back. -/

namespace Pintos.Vm

open Words

inductive PageType
  | file
  | mmap
  | swap
  deriving DecidableEq

/-- `struct frame_elem` with its `struct sup_page_table`.  Frames are not shared. -/
structure Frame where
  thread : Nat
  upage : Nat
  kpage : Nat
  load : Bool
  type : PageType
  file : Nat
  ofs : Nat
  pageReadBytes : Nat
  writable : Bool
  index : Nat
  deriving DecidableEq

def pgsize : Nat := 4096

/-- The index of a frame that has no swap slot yet, `-1` as a `size_t`. -/
def noIndex : Nat := 4294967295

/-- How many bytes of a page come back after an eviction. -/
def Frame.extent (fr : Frame) : Nat := if fr.type = .mmap then fr.pageReadBytes else pgsize

/-- A page table entry. -/
structure Pte where
  present : Bool
  kpage : Nat
  writable : Bool
  accessed : Bool
  dirty : Bool
  deriving DecidableEq

/-- The entry of a page that was never mapped. -/
def Pte.blank : Pte := ⟨false, 0, false, false, false⟩

/-- `q` is `p` but for the accessed bit. -/
def Pte.Same (p q : Pte) : Prop := ∃ a, q = { p with accessed := a }

/-- The machine: frames by number with `frame_table`, page directories by thread, memory with the
free pages of the user pool, the swap device with its bitmap, and files with their lengths and
whether writing them is denied.  `held` and `seen` record what the owner of a page last had in it,
and whether the page was ever loaded. -/
structure State where
  frames : Nat → Option Frame
  next : Nat
  frameTable : List Nat
  pagedir : Nat → Nat → Pte
  mem : Nat → Bytes
  freePages : List Nat
  swapSize : Nat
  swapUsed : Nat → Bool
  swap : Nat → Bytes
  files : Nat → Bytes
  fileLength : Nat → Nat
  denied : Nat → Bool
  held : Nat → Bytes
  seen : Nat → Bool

namespace State

def setFrame (st : State) (f : Nat) (fr : Frame) : State :=
  { st with frames := Function.update st.frames f (some fr) }

def setPte (st : State) (thread upage : Nat) (pte : Pte) : State :=
  let pd := Function.update (st.pagedir thread) upage pte
  { st with pagedir := Function.update st.pagedir thread pd }

/-- `pagedir_clear_page`: the other bits of the entry are kept. -/
def pagedirClearPage (st : State) (thread upage : Nat) : State :=
  st.setPte thread upage { st.pagedir thread upage with present := false }

/-- `file_write_at`: nothing is written while writing is denied. -/
def fileWriteAt (st : State) (file : Nat) (c : Bytes) (size ofs : Nat) : State :=
  if st.denied file then st
  else { st with
    files := Function.update st.files file fun j =>
      if ofs ≤ j ∧ j < ofs + size then c (j - ofs) else st.files file j
    fileLength := Function.update st.fileLength file (max (st.fileLength file) (ofs + size)) }

/-- The first clear bit of the swap bitmap. -/
def freeSlot (st : State) : Option Nat := (List.range st.swapSize).find? fun i => !st.swapUsed i

/-- `sout`, without a result when swap is full. -/
def sout (st : State) (f : Nat) (fr : Frame) : Option State :=
  st.freeSlot.map fun i =>
    { st.setFrame f { fr with type := .swap, index := i } with
      swapUsed := Function.update st.swapUsed i true
      swap := Function.update st.swap i (st.mem fr.kpage) }

/-- The loop of `evict` over the frame table, on the page directory of the thread that evicts: it
clears accessed bits until it comes to a page that is neither accessed nor dirty. -/
def scan (st : State) (pd : Nat → Pte) : List Nat → (Nat → Pte) × Option Nat
  | [] => (pd, none)
  | f :: rest =>
    match st.frames f with
    | none => scan st pd rest
    | some fr =>
      if (pd fr.upage).accessed then
        scan st (Function.update pd fr.upage { pd fr.upage with accessed := false }) rest
      else if (pd fr.upage).dirty then scan st pd rest
      else (pd, some f)

/-- The frame that `evict` takes: the one the loop stops at, or else the first. -/
def victim (st : State) (thread : Nat) : Option Nat :=
  (scan st (st.pagedir thread) st.frameTable).2.or st.frameTable.head?

/-- The page directories after that loop. -/
def scanned (st : State) (thread : Nat) : State :=
  let pd := (scan st (st.pagedir thread) st.frameTable).1
  { st with pagedir := Function.update st.pagedir thread pd }

/-- How `evict` saves a page, with the dirty bit that the thread that evicts has for it. -/
def saveOut (st : State) (f : Nat) (fr : Frame) (dirty : Bool) : Option State :=
  if fr.type = .mmap then
    if dirty then some (st.fileWriteAt fr.file (st.mem fr.kpage) fr.pageReadBytes fr.ofs)
    else some st
  else if fr.type ≠ .file ∨ dirty = true then st.sout f fr
  else some st

/-- The end of `evict`: the owner's entry is cleared and the page is freed. -/
def unload (st : State) (f : Nat) (fr : Frame) : State :=
  { st.pagedirClearPage fr.thread fr.upage with
    frameTable := st.frameTable.erase f
    freePages := fr.kpage :: st.freePages }

/-- `evict` by a thread, of a frame that is not shared. -/
def evict (st : State) (thread : Nat) : Option State := do
  let f ← st.victim thread
  let fr ← st.frames f
  let st := (st.scanned thread).setFrame f { fr with load := false }
  let st ← st.saveOut f { fr with load := false } (st.pagedir thread fr.upage).dirty
  some (st.unload f fr)

/-- `evict` when the user pool is empty. -/
def makeRoom (st : State) (thread : Nat) : Option State :=
  if st.freePages = [] then st.evict thread else some st

/-- A page of the user pool for a thread.  Which of the free pages it is, is up to the pool. -/
def takePage (st : State) (thread kpage : Nat) : Option State := do
  let st ← st.makeRoom thread
  if kpage ∈ st.freePages then some { st with freePages := st.freePages.erase kpage } else none

/-- `install_page` with the frame put in the frame table; the page has the content `c`. -/
def install (st : State) (f : Nat) (fr : Frame) (kpage : Nat) (c : Bytes) : Option State :=
  if (st.pagedir fr.thread fr.upage).present then none
  else
    let st := st.setPte fr.thread fr.upage ⟨true, kpage, fr.writable, false, false⟩
    let st := st.setFrame f { fr with kpage := kpage, load := true }
    some { st with
      mem := Function.update st.mem kpage c
      frameTable := st.frameTable ++ [f]
      held := if st.seen f then st.held else Function.update st.held f c
      seen := Function.update st.seen f true }

/-- What a page that is backed by a file is loaded with. -/
def backing (st : State) (fr : Frame) : Bytes := fun i =>
  if i < fr.pageReadBytes then st.files fr.file (fr.ofs + i) else 0

/-- `file_back`: when the file is too short the page is given back. -/
def fileBack (st : State) (f thread kpage : Nat) : Option State := do
  let st ← st.takePage thread kpage
  let fr ← st.frames f
  if 0 < fr.pageReadBytes ∧ st.fileLength fr.file < fr.ofs + fr.pageReadBytes then
    some { st.setFrame f { fr with kpage := kpage } with freePages := kpage :: st.freePages }
  else st.install f fr kpage (st.backing fr)

/-- `bitmap_flip`, which asserts that the bitmap has the bit. -/
def flipSlot (st : State) (i : Nat) : Option State :=
  if i < st.swapSize then
    some { st with swapUsed := Function.update st.swapUsed i (!st.swapUsed i) }
  else none

/-- `page_back`, with `sback`. -/
def pageBack (st : State) (f thread kpage : Nat) : Option State := do
  let st ← st.takePage thread kpage
  let fr ← st.frames f
  let st ← st.flipSlot fr.index
  st.install f fr kpage (st.swap fr.index)

/-- `load_back` by the owner of a page, which its callers do for a page that is not present. -/
def loadBack (st : State) (f kpage : Nat) : Option State := do
  let fr ← st.frames f
  if (st.pagedir fr.thread fr.upage).present then none
  else
    match fr.type with
    | .file | .mmap => st.fileBack f fr.thread kpage
    | .swap => st.pageBack f fr.thread kpage

/-- `install_file` without sharing: nothing is read yet. -/
def installFile (st : State) (fr : Frame) : State :=
  { (st.setFrame st.next fr).pagedirClearPage fr.thread fr.upage with next := st.next + 1 }

/-- A zeroed page for the stack, as in `setup_stack` and in `page_fault` when the stack grows. -/
def installStack (st : State) (thread upage kpage : Nat) : Option State := do
  let st ← st.takePage thread kpage
  let fr : Frame := ⟨thread, upage, kpage, true, .swap, 0, 0, 0, true, noIndex⟩
  { st with next := st.next + 1 }.install st.next fr kpage fun _ => 0

/-- `find_spt`: the first page of a thread at an address.  Pages are numbered in the order in which
they are put in `page_table`. -/
def findSpt (st : State) (thread upage : Nat) : Option Nat :=
  (List.range st.next).find? fun f =>
    (st.frames f).any fun fr => fr.thread = thread && fr.upage = upage

/-- `page_fault` at an address that is not present and has a page. -/
def pageFault (st : State) (thread upage kpage : Nat) : Option State := do
  let f ← st.findSpt thread upage
  st.loadBack f kpage

/-- `frame_free` of a frame that is not shared. -/
def frameFree (st : State) (f : Nat) (fr : Frame) : Option State :=
  let st := { st with frames := Function.update st.frames f none }
  if fr.load then
    some { st with frameTable := st.frameTable.erase f, freePages := fr.kpage :: st.freePages }
  else if fr.type ≠ .file ∧ fr.index ≠ noIndex then st.flipSlot fr.index
  else some st

/-- `spt_free` and `frame_free` by the owner of a page, as in `munmap` and `process_exit`. -/
def freePage (st : State) (f : Nat) : Option State := do
  let fr ← st.frames f
  let st := if fr.load then st.pagedirClearPage fr.thread fr.upage else st
  st.frameFree f fr

/-- `init_swap` on a device of `blockSize` sectors, eight for a page. -/
def initSwap (st : State) (blockSize : Nat) : State :=
  { st with swapSize := blockSize / 8, swapUsed := fun _ => false }

/-- A store by the owner of a page to one of its bytes. -/
def store (st : State) (f i : Nat) (v : UInt8) : Option State := do
  let fr ← st.frames f
  let pte := st.pagedir fr.thread fr.upage
  if pte.present ∧ pte.writable ∧ i < pgsize then
    some { st.setPte fr.thread fr.upage { pte with accessed := true, dirty := true } with
      mem := Function.update st.mem pte.kpage (Function.update (st.mem pte.kpage) i v)
      held := Function.update st.held f (Function.update (st.held f) i v) }
  else none

/-- A read by the owner of a page. -/
def touch (st : State) (f : Nat) : Option State := do
  let fr ← st.frames f
  let pte := st.pagedir fr.thread fr.upage
  if pte.present then some (st.setPte fr.thread fr.upage { pte with accessed := true }) else none

end State

inductive Op
  | installFile (thread upage : Nat) (type : PageType) (file ofs pageReadBytes : Nat)
      (writable : Bool)
  | installStack (thread upage kpage : Nat)
  | store (f i : Nat) (v : UInt8)
  | touch (f : Nat)
  | evict (thread : Nat)
  | loadBack (f kpage : Nat)

def step (st : State) : Op → Option State
  | .installFile thread upage type file ofs pageReadBytes writable =>
    if type ≠ .swap ∧ pageReadBytes ≤ pgsize then
      some (st.installFile
        ⟨thread, upage, 0, false, type, file, ofs, pageReadBytes, writable, noIndex⟩)
    else none
  | .installStack thread upage kpage => st.installStack thread upage kpage
  | .store f i v => st.store f i v
  | .touch f => st.touch f
  | .evict thread => st.evict thread
  | .loadBack f kpage => st.loadBack f kpage

end Pintos.Vm
