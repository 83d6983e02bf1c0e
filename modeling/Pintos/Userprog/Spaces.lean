import Pintos.Lib.Coherence
import Pintos.Lib.Simulation
import Pintos.Userprog.Directories

/-! What page directories are for: each is a map from the pages of a process to entries, apart from
the others, and the processor reads and writes memory through the active one. -/

namespace Pintos.Userprog

open Vm

/-- The calls of the functions of `pagedir.c`, the frames that come from the user pool and go back,
and what the processor does. -/
inductive PageCall
  | create (page : Option Nat)
  | destroy (pd : Nat)
  | setPage (pd upage kpage : Nat) (writable : Bool) (page : Option Nat)
  | getPage (pd uaddr : Nat)
  | clearPage (pd upage : Nat)
  | isDirty (pd vpage : Nat)
  | isAccessed (pd vpage : Nat)
  | setDirty (pd vpage : Nat) (on : Bool)
  | setAccessed (pd vpage : Nat) (on : Bool)
  | setWritable (pd vpage : Nat) (on : Bool)
  | activate (pd : Nat)
  | getFrame (page : Option Nat) (zero : Bool)
  | freeFrame (page : Nat)
  | access (user : Bool) (write : Option Word) (vaddr : Nat)
  | forget (vaddr : Nat)

inductive PageAnswer
  | done
  | bool (b : Bool)
  | page (p : Nat)
  | word (w : Option Word)
  deriving DecidableEq

namespace Mmu

variable (fmt : PageFormat)

def call (m : Mmu) : PageCall → Option (Mmu × PageAnswer)
  | .create page => let (m, pd) := m.pagedirCreate page; some (m, .page pd)
  | .destroy pd => (m.pagedirDestroy fmt pd).map (·, .done)
  | .setPage pd upage kpage writable page =>
    (m.pagedirSetPage fmt pd upage kpage writable page).map fun (m, ok) => (m, .bool ok)
  | .getPage pd uaddr => (m.pagedirGetPage fmt pd uaddr).map fun kpage => (m, .page kpage)
  | .clearPage pd upage => (m.pagedirClearPage fmt pd upage).map (·, .done)
  | .isDirty pd vpage => (m.pagedirIsDirty fmt pd vpage).map fun b => (m, .bool b)
  | .isAccessed pd vpage => (m.pagedirIsAccessed fmt pd vpage).map fun b => (m, .bool b)
  | .setDirty pd vpage on => (m.pagedirSetDirty fmt pd vpage on).map (·, .done)
  | .setAccessed pd vpage on => (m.pagedirSetAccessed fmt pd vpage on).map (·, .done)
  | .setWritable pd vpage on => (m.pagedirSetWritable fmt pd vpage on).map (·, .done)
  | .activate pd => some (m.pagedirActivate pd, .done)
  | .getFrame page zero => some (m.pallocGetPage page zero, .page (page.getD 0))
  | .freeFrame page => (m.pallocFreePage fmt page).map (·, .done)
  | .access user write vaddr => let (m, w) := m.access fmt user write vaddr; some (m, .word w)
  | .forget vaddr => some (m.forget fmt vaddr, .done)

/-- What the functions ask of their callers.  `palloc` gives out pages of memory that are not in
use, a page is mapped where none is, only frames of the user pool are mapped, and the active page
directory is not destroyed.  The kernel writes no page through its own addresses but frames. -/
def Careful (m : Mmu) : PageCall → Prop
  | .create page => m.Fresh fmt page
  | .destroy pd => pd = 0 ∨ (m.dirs pd = true ∧ m.cr3 ≠ pd ∧ Freeable fmt m pd)
  | .setPage pd upage kpage _ page =>
    m.dirs pd = true ∧ fmt.pgOfs upage = 0 ∧ upage < fmt.physBase ∧ fmt.Ram kpage ∧
      fmt.userPool kpage = true ∧ fmt.has (m.entry fmt pd upage) .present = false ∧
      m.Fresh fmt page
  | .getPage pd uaddr => m.dirs pd = true ∧ uaddr < fmt.physBase
  | .clearPage pd upage => m.dirs pd = true ∧ fmt.pgOfs upage = 0 ∧ upage < fmt.physBase
  | .isDirty pd _ | .isAccessed pd _ => m.dirs pd = true
  | .setDirty pd vpage _ | .setAccessed pd vpage _ | .setWritable pd vpage _ =>
    m.dirs pd = true ∧ vpage < fmt.physBase
  | .activate pd => pd = 0 ∨ m.dirs pd = true
  | .getFrame page _ => ∀ p ∈ page, fmt.Ram p ∧ m.used p = false ∧ fmt.userPool p = true
  | .freeFrame page => m.used page = true ∧ fmt.userPool page = true
  | .access user write vaddr => user = false → write.isSome = true → fmt.physBase ≤ vaddr →
    fmt.userPool (fmt.page vaddr) = true
  | .forget _ => True

end Mmu

/-- An entry after an access. -/
def touched (e : Pte) (write : Bool) : Pte := { e with accessed := true, dirty := e.dirty || write }

/-- An entry with one of its bits set or cleared. -/
def withBit (e : Pte) (b : Bit) (on : Bool) : Pte :=
  match b with
  | .writable => { e with writable := on }
  | .accessed => { e with accessed := on }
  | .dirty => { e with dirty := on }
  | .present | .user => e

/-- The address spaces of processes by page directory, what all of them have of the kernel, the
frames of the user pool with what is in them, and the active page directory, zero for the base page
directory.  `lifted` has the pages that were read-only before `pagedir_set_writable`. -/
structure Spaces where
  space : Nat → Option (Nat → Pte)
  kernel : Nat → Pte
  lifted : Nat → Nat → Bool
  memory : Nat → Nat → Word
  frames : Nat → Bool
  active : Nat

namespace Spaces

variable (fmt : PageFormat)

def entry (t : Spaces) (pd u : Nat) : Pte :=
  if u < fmt.physBase then ((t.space pd).map (· u)).getD Pte.blank else t.kernel u

def setEntry (t : Spaces) (pd u : Nat) (e : Pte) : Spaces :=
  if u < fmt.physBase then
    { t with space := Function.update t.space pd ((t.space pd).map (Function.update · u e)) }
  else { t with kernel := Function.update t.kernel u e }

def lift (t : Spaces) (pd u : Nat) (on : Bool) : Spaces :=
  { t with lifted := Function.update t.lifted pd (Function.update (t.lifted pd) u on) }

def permits (t : Spaces) (user write : Bool) (u : Nat) : Bool :=
  (t.entry fmt t.active u).present && (!user || decide (u < fmt.physBase)) &&
    (!write || (t.entry fmt t.active u).writable)

def write (t : Spaces) (page i : Nat) : Option Word → Spaces
  | none => t
  | some w => { t with
      memory := Function.update t.memory page (Function.update (t.memory page) i w) }

/-- `pagedir_set_dirty` and the like: nothing happens to a page that never had an entry. -/
def SetBit (t : Spaces) (b : Bit) (pd u : Nat) (on : Bool) (t' : Spaces) : Prop :=
  t.entry fmt pd u = Pte.blank ∧ t' = t ∨
    t' = (t.setEntry fmt pd u (withBit (t.entry fmt pd u) b on)).lift pd u
      (if b = .writable then on && (t.lifted pd u || !(t.entry fmt pd u).writable)
        else t.lifted pd u)

/-- What the processor reads and writes.  A page fault comes where the active address space does not
let the access through, or for a write to a page that was read-only. -/
def Accessed (t : Spaces) (user : Bool) (write : Option Word) (vaddr : Nat) (r : Option Word)
    (t' : Spaces) : Prop :=
  let u := fmt.page vaddr
  let e := t.entry fmt t.active u
  match r with
  | none => t' = t ∧ (t.permits fmt user write.isSome u = false ∨
      write.isSome = true ∧ t.lifted t.active u = true)
  | some w => t.permits fmt user write.isSome u = true ∧
      (fmt.userPool e.kpage = true → w = t.memory e.kpage (fmt.pgOfs vaddr / 4)) ∧
      t' = (t.setEntry fmt t.active u (touched e write.isSome)).write e.kpage
        (fmt.pgOfs vaddr / 4) write

/-- The frames that an address space maps. -/
def Mapped (s : Nat → Pte) (p : Nat) : Prop :=
  ∃ u, fmt.UserPage u ∧ (s u).present = true ∧ (s u).kpage = p

def Admits (t : Spaces) (c : PageCall) (answer : PageAnswer) (t' : Spaces) : Prop :=
  match c, answer with
  | .create page, .page pd => match page with
    | none => pd = 0 ∧ t' = t
    | some p => pd = p ∧ p ≠ 0 ∧ t.space p = none ∧ t' = { t with
        space := Function.update t.space p (some fun _ => Pte.blank)
        lifted := Function.update t.lifted p fun _ => false }
  | .destroy pd, .done => pd = 0 ∧ t' = t ∨ ∃ s, t.space pd = some s ∧
      t'.space = Function.update t.space pd none ∧ t'.kernel = t.kernel ∧ t'.lifted = t.lifted ∧
      t'.active = t.active ∧ ∀ p, fmt.userPool p = true →
        (Mapped fmt s p → t'.frames p = false) ∧
        (¬Mapped fmt s p → t'.frames p = t.frames p ∧ t'.memory p = t.memory p)
  | .setPage pd upage kpage writable page, .bool ok =>
      (t.entry fmt pd upage).present = false ∧
      (ok = false ∧ page = none ∧ t' = t ∨
        ok = true ∧ t' = (t.setEntry fmt pd upage ⟨true, kpage, writable, false, false⟩).lift pd
          upage false)
  | .getPage pd uaddr, .page kaddr => t' = t ∧
      kaddr = if (t.entry fmt pd (fmt.page uaddr)).present then
        (t.entry fmt pd (fmt.page uaddr)).kpage + fmt.pgOfs uaddr else 0
  | .clearPage pd upage, .done =>
      t' = t.setEntry fmt pd upage { t.entry fmt pd upage with present := false, kpage := 0 }
  | .isDirty pd vpage, .bool b => t' = t ∧ b = (t.entry fmt pd (fmt.page vpage)).dirty
  | .isAccessed pd vpage, .bool b => t' = t ∧ b = (t.entry fmt pd (fmt.page vpage)).accessed
  | .setDirty pd vpage on, .done => t.SetBit fmt .dirty pd (fmt.page vpage) on t'
  | .setAccessed pd vpage on, .done => t.SetBit fmt .accessed pd (fmt.page vpage) on t'
  | .setWritable pd vpage on, .done => t.SetBit fmt .writable pd (fmt.page vpage) on t'
  | .activate pd, .done => t' = { t with active := pd }
  | .getFrame page zero, .page p => p = page.getD 0 ∧ match page with
    | none => t' = t
    | some p => t.frames p = false ∧ t' = { t with
        frames := Function.update t.frames p true
        memory := if zero then Function.update t.memory p fun _ => 0 else t.memory }
  | .freeFrame page, .done => t.frames page = true ∧
      t'.space = t.space ∧ t'.kernel = t.kernel ∧ t'.lifted = t.lifted ∧ t'.active = t.active ∧
      t'.frames = Function.update t.frames page false ∧ ∀ p, p ≠ page → t'.memory p = t.memory p
  | .access user write vaddr, .word r => t.Accessed fmt user write vaddr r t'
  | .forget _, .done => t' = t
  | _, _ => False

end Spaces

end Pintos.Userprog
