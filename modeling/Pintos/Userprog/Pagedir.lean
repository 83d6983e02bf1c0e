import Pintos.Vm.Swap

/-! Page directories as in `pagedir.c`, `paging_init` in `init.c`, and a processor that translates
addresses through them and keeps translations in its TLB.  What `pte.h`, `vaddr.h` and `palloc.h`
provide is a parameter. -/

namespace Pintos.Userprog

open Vm

/-- An entry of a page directory or of a page table. -/
abbrev Word := BitVec 32

/-- `PTE_P`, `PTE_W`, `PTE_U`, `PTE_A` and `PTE_D`. -/
inductive Bit
  | present
  | writable
  | user
  | accessed
  | dirty
  deriving DecidableEq

/-- What the code takes from `pte.h`, `vaddr.h` and `palloc.h`: the parts of an address, the
entries, the pages of the user pool, and what `palloc_free_page` leaves in a page. -/
structure PageFormat where
  physBase : Nat
  pdNo : Nat → Nat
  ptNo : Nat → Nat
  pgOfs : Nat → Nat
  vtop : Nat → Nat
  ptov : Nat → Nat
  ptShift : Nat
  initRamPages : Nat
  mask : Bit → Word
  pdeCreate : Nat → Word
  pdeGetPt : Word → Nat
  pteCreateKernel : Nat → Bool → Word
  pteCreateUser : Nat → Bool → Word
  pteGetPage : Word → Nat
  userPool : Nat → Bool
  scrap : Nat → Word

namespace PageFormat

variable (fmt : PageFormat)

def page (vaddr : Nat) : Nat := vaddr - fmt.pgOfs vaddr

def isUserVaddr (vaddr : Nat) : Bool := vaddr < fmt.physBase

def has (w : Word) (b : Bit) : Bool := w &&& fmt.mask b != 0

/-- `w |= b` and `w &= ~b`. -/
def put (w : Word) (b : Bit) (on : Bool) : Word :=
  if on then w ||| fmt.mask b else w &&& ~~~fmt.mask b

/-- A page of memory, by its kernel virtual address. -/
def Ram (kpage : Nat) : Prop :=
  kpage ≠ 0 ∧ fmt.pgOfs kpage = 0 ∧ fmt.physBase ≤ kpage ∧
    fmt.vtop kpage >>> fmt.ptShift < fmt.initRamPages

instance (kpage : Nat) : Decidable (fmt.Ram kpage) := inferInstanceAs (Decidable (_ ∧ _ ∧ _ ∧ _))

end PageFormat

/-- How many entries a page has, `PGSIZE / sizeof *pte`. -/
def ptEntries : Nat := pgsize / 4

/-- The words of memory by page, the pages that `palloc` gave out, `init_page_dir`, and the
processor with the page directory in CR3 and the entries in its TLB.  `dirs` records what
`pagedir_create` returned and `pagedir_destroy` did not take yet. -/
structure Mmu where
  word : Nat → Nat → Word
  used : Nat → Bool
  initPageDir : Nat
  cr3 : Nat
  tlb : Nat → Option Word
  dirs : Nat → Bool

namespace Mmu

def store (m : Mmu) (page i : Nat) (w : Word) : Mmu :=
  { m with word := Function.update m.word page (Function.update (m.word page) i w) }

/-- `palloc_get_page`, which comes to `page`, with or without `PAL_ZERO`. -/
def pallocGetPage (m : Mmu) (page : Option Nat) (zero : Bool) : Mmu :=
  match page with
  | none => m
  | some p => { m with
      used := Function.update m.used p true
      word := if zero then Function.update m.word p fun _ => 0 else m.word }

variable (fmt : PageFormat)

/-- `palloc_free_page`, which asserts that the page is in use. -/
def pallocFreePage (m : Mmu) (page : Nat) : Option Mmu :=
  if m.used page then some { m with
    used := Function.update m.used page false
    word := Function.update m.word page fmt.scrap }
  else none

def pagedirCreate (m : Mmu) (page : Option Nat) : Mmu × Nat :=
  let m := m.pallocGetPage page false
  match page with
  | none => (m, 0)
  | some pd => ({ m with
      word := Function.update m.word pd (m.word m.initPageDir)
      dirs := Function.update m.dirs pd true }, pd)

/-- `lookup_page`: the page table and the index in it. -/
def lookupPage (m : Mmu) (pd vaddr : Nat) (create : Bool) (page : Option Nat) :
    Option (Mmu × Option (Nat × Nat)) :=
  if pd = 0 ∨ (create ∧ ¬fmt.isUserVaddr vaddr) then none
  else
    let pde := m.word pd (fmt.pdNo vaddr)
    if pde = 0 then
      if create then
        match page with
        | none => some (m.pallocGetPage none true, none)
        | some pt =>
          let m := (m.pallocGetPage (some pt) true).store pd (fmt.pdNo vaddr) (fmt.pdeCreate pt)
          some (m, some (fmt.pdeGetPt (m.word pd (fmt.pdNo vaddr)), fmt.ptNo vaddr))
      else some (m, none)
    else some (m, some (fmt.pdeGetPt pde, fmt.ptNo vaddr))

/-- `pagedir_activate`: loading CR3 empties the TLB. -/
def pagedirActivate (m : Mmu) (pd : Nat) : Mmu :=
  { m with cr3 := if pd = 0 then m.initPageDir else pd, tlb := fun _ => none }

def invalidatePagedir (m : Mmu) (pd : Nat) : Mmu :=
  if m.cr3 = pd then m.pagedirActivate pd else m

def pagedirSetPage (m : Mmu) (pd upage kpage : Nat) (writable : Bool) (page : Option Nat) :
    Option (Mmu × Bool) :=
  if fmt.pgOfs upage = 0 ∧ fmt.pgOfs kpage = 0 ∧ fmt.isUserVaddr upage ∧
      fmt.vtop kpage >>> fmt.ptShift < fmt.initRamPages ∧ pd ≠ m.initPageDir then do
    let (m, pte) ← m.lookupPage fmt pd upage true page
    match pte with
    | none => some (m, false)
    | some (pt, i) =>
      if fmt.has (m.word pt i) .present then none
      else some (m.store pt i (fmt.pteCreateUser kpage writable), true)
  else none

def pagedirGetPage (m : Mmu) (pd uaddr : Nat) : Option Nat :=
  if fmt.isUserVaddr uaddr then do
    let (m, pte) ← m.lookupPage fmt pd uaddr false none
    match pte with
    | none => some 0
    | some (pt, i) =>
      if fmt.has (m.word pt i) .present then
        some (fmt.pteGetPage (m.word pt i) + fmt.pgOfs uaddr)
      else some 0
  else none

def pagedirClearPage (m : Mmu) (pd upage : Nat) : Option Mmu :=
  if fmt.pgOfs upage = 0 ∧ fmt.isUserVaddr upage then do
    let (m, pte) ← m.lookupPage fmt pd upage false none
    match pte with
    | none => some m
    | some (pt, i) =>
      if fmt.has (m.word pt i) .present then
        some ((m.store pt i (fmt.put (m.word pt i) .present false)).invalidatePagedir pd)
      else some m
  else none

def pagedirIs (b : Bit) (m : Mmu) (pd vpage : Nat) : Option Bool := do
  let (m, pte) ← m.lookupPage fmt pd vpage false none
  match pte with
  | none => some false
  | some (pt, i) => some (fmt.has (m.word pt i) b)

def pagedirSet (b : Bit) (m : Mmu) (pd vpage : Nat) (on : Bool) : Option Mmu := do
  let (m, pte) ← m.lookupPage fmt pd vpage false none
  match pte with
  | none => some m
  | some (pt, i) =>
    let m := m.store pt i (fmt.put (m.word pt i) b on)
    some (if on then m else m.invalidatePagedir pd)

def pagedirIsDirty : Mmu → Nat → Nat → Option Bool := pagedirIs fmt .dirty

def pagedirSetDirty : Mmu → Nat → Nat → Bool → Option Mmu := pagedirSet fmt .dirty

def pagedirSetWritable : Mmu → Nat → Nat → Bool → Option Mmu := pagedirSet fmt .writable

def pagedirIsAccessed : Mmu → Nat → Nat → Option Bool := pagedirIs fmt .accessed

def pagedirSetAccessed : Mmu → Nat → Nat → Bool → Option Mmu := pagedirSet fmt .accessed

/-- The inner loop of `pagedir_destroy`, over the entries of a page table. -/
def freeFrames (pt : Nat) : List Nat → Mmu → Option Mmu
  | [], m => some m
  | i :: rest, m =>
    if fmt.has (m.word pt i) .present then do
      let m ← m.pallocFreePage fmt (fmt.pteGetPage (m.word pt i))
      freeFrames pt rest m
    else freeFrames pt rest m

/-- The outer loop, over the entries of the page directory. -/
def freeTables (pd : Nat) : List Nat → Mmu → Option Mmu
  | [], m => some m
  | i :: rest, m =>
    if fmt.has (m.word pd i) .present then do
      let pt := fmt.pdeGetPt (m.word pd i)
      let m ← freeFrames fmt pt (List.range ptEntries) m
      let m ← m.pallocFreePage fmt pt
      freeTables pd rest m
    else freeTables pd rest m

def pagedirDestroy (m : Mmu) (pd : Nat) : Option Mmu :=
  if pd = 0 then some m
  else if pd = m.initPageDir then none
  else do
    let m ← freeTables fmt pd (List.range (fmt.pdNo fmt.physBase)) m
    let m ← m.pallocFreePage fmt pd
    some { m with dirs := Function.update m.dirs pd false }

/-- The loop of `paging_init` over the pages of memory.  `pt` is the page table of the last one, and
`pages` are what `palloc_get_page` gives, which panics when there are none. -/
def mapPages (text : Nat → Bool) : List Nat → List Nat → Nat → Mmu → Option Mmu
  | [], _, _, m => some m
  | page :: rest, pages, pt, m =>
    let vaddr := fmt.ptov (page * pgsize)
    let pte := fmt.pteCreateKernel vaddr !text vaddr
    if m.word m.initPageDir (fmt.pdNo vaddr) = 0 then
      match pages with
      | [] => none
      | pt :: pages =>
        let m := (m.pallocGetPage (some pt) true).store m.initPageDir (fmt.pdNo vaddr)
          (fmt.pdeCreate pt)
        mapPages text rest pages pt (m.store pt (fmt.ptNo vaddr) pte)
    else mapPages text rest pages pt (m.store pt (fmt.ptNo vaddr) pte)

/-- `paging_init`, with the kernel's text from `start` to `endText`. -/
def pagingInit (m : Mmu) (start endText : Nat) (pages : List Nat) : Option Mmu :=
  match pages with
  | [] => none
  | pd :: pages =>
    let m := { m.pallocGetPage (some pd) true with initPageDir := pd }
    (mapPages fmt (fun vaddr => start ≤ vaddr && vaddr < endText) (List.range fmt.initRamPages)
      pages 0 m).map fun m => m.pagedirActivate pd

section Processor

/-- Whether an entry lets the access through, with CR0.WP set. -/
def permits (w : Word) (user write : Bool) : Bool :=
  fmt.has w .present && (!user || fmt.has w .user) && (!write || fmt.has w .writable)

/-- The word at a place in memory, and what is stored there. -/
def fetch (m : Mmu) (page i : Nat) (write : Option Word) : Mmu × Option Word :=
  (match write with
    | none => m
    | some w => m.store page i w, some (m.word page i))

/-- A translation through the page directory in CR3, which marks the entries and keeps the second
one.  No word is a page fault. -/
def walk (m : Mmu) (user : Bool) (write : Option Word) (vaddr : Nat) : Mmu × Option Word :=
  let pde := m.word m.cr3 (fmt.pdNo vaddr)
  if permits fmt pde user write.isSome then
    let m := m.store m.cr3 (fmt.pdNo vaddr) (fmt.put pde .accessed true)
    let pt := fmt.pdeGetPt pde
    let pte := m.word pt (fmt.ptNo vaddr)
    if permits fmt pte user write.isSome then
      let pte := fmt.put pte .accessed true
      let pte := if write.isSome then fmt.put pte .dirty true else pte
      let m := m.store pt (fmt.ptNo vaddr) pte
      { m with tlb := Function.update m.tlb (fmt.page vaddr) (some pte) }.fetch
        (fmt.pteGetPage pte) (fmt.pgOfs vaddr / 4) write
    else (m, none)
  else (m, none)

/-- A read or a write by the processor.  A cached entry is used as it is, but for the first write,
which has to mark the entry in memory; a page fault drops it. -/
def access (m : Mmu) (user : Bool) (write : Option Word) (vaddr : Nat) : Mmu × Option Word :=
  match m.tlb (fmt.page vaddr) with
  | none => m.walk fmt user write vaddr
  | some w =>
    if permits fmt w user write.isSome then
      if write.isSome && !fmt.has w .dirty then m.walk fmt user write vaddr
      else m.fetch (fmt.pteGetPage w) (fmt.pgOfs vaddr / 4) write
    else ({ m with tlb := Function.update m.tlb (fmt.page vaddr) none }, none)

/-- The TLB makes room. -/
def forget (m : Mmu) (vaddr : Nat) : Mmu :=
  { m with tlb := Function.update m.tlb (fmt.page vaddr) none }

end Processor

end Mmu

end Pintos.Userprog
