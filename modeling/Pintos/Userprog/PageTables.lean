import Mathlib.Data.List.Nodup
import Pintos.Userprog.Pagedir

/-! What the pages of memory are to the page directories: the base page directory, a directory of a
process, a page table of one directory, or a page table of the kernel that all of them share. -/

namespace Pintos.Userprog

open Vm

namespace PageFormat

/-- An entry that leads to a page table. -/
def Linked (fmt : PageFormat) (w : Word) : Prop :=
  fmt.has w .present = true ∧ fmt.has w .writable = true ∧ fmt.has w .user = true

/-- What the code relies on.  The bits of an entry are apart from each other and from the address in
it, the parts of an address tell pages apart, and the entries that are created read back. -/
structure Lawful (fmt : PageFormat) : Prop where
  mask : ∀ b, fmt.mask b ≠ 0
  apart : ∀ b b', b ≠ b' → fmt.mask b &&& fmt.mask b' = 0
  pdeGetPt_put : ∀ w b on, fmt.pdeGetPt (fmt.put w b on) = fmt.pdeGetPt w
  pteGetPage_put : ∀ w b on, fmt.pteGetPage (fmt.put w b on) = fmt.pteGetPage w
  pgOfs_page : ∀ v, fmt.pgOfs (fmt.page v) = 0
  pdNo_page : ∀ v, fmt.pdNo (fmt.page v) = fmt.pdNo v
  ptNo_page : ∀ v, fmt.ptNo (fmt.page v) = fmt.ptNo v
  page_eq : ∀ v v', fmt.pdNo v = fmt.pdNo v' → fmt.ptNo v = fmt.ptNo v' → fmt.page v = fmt.page v'
  user_iff : ∀ v, v < fmt.physBase ↔ fmt.pdNo v < fmt.pdNo fmt.physBase
  ptNo_lt : ∀ v, fmt.ptNo v < ptEntries
  slot : ∀ i < fmt.pdNo fmt.physBase, ∀ j < ptEntries, ∃ v, fmt.pdNo v = i ∧ fmt.ptNo v = j
  ram : ∀ k < fmt.initRamPages, fmt.Ram (fmt.ptov (k * pgsize))
  pdNo_le : ∀ k k', k ≤ k' → k' < fmt.initRamPages →
    fmt.pdNo (fmt.ptov (k * pgsize)) ≤ fmt.pdNo (fmt.ptov (k' * pgsize))
  pde : ∀ p, fmt.Ram p → fmt.Linked (fmt.pdeCreate p) ∧ fmt.pdeGetPt (fmt.pdeCreate p) = p
  userPte : ∀ p w, fmt.Ram p → fmt.pteGetPage (fmt.pteCreateUser p w) = p ∧
    ∀ b, fmt.has (fmt.pteCreateUser p w) b =
      match b with
      | .present | .user => true
      | .writable => w
      | .accessed | .dirty => false
  kernelPte : ∀ p w, fmt.Ram p → fmt.pteGetPage (fmt.pteCreateKernel p w) = p ∧
    ∀ b, fmt.has (fmt.pteCreateKernel p w) b =
      match b with
      | .present => true
      | .writable => w
      | .user | .accessed | .dirty => false

/-- A page that a process may map. -/
def UserPage (fmt : PageFormat) (u : Nat) : Prop := u < fmt.physBase ∧ fmt.page u = u

/-- What an entry says. -/
def pte (fmt : PageFormat) (w : Word) : Pte where
  present := fmt.has w .present
  kpage := if fmt.has w .present then fmt.pteGetPage w else 0
  writable := fmt.has w .writable
  accessed := fmt.has w .accessed
  dirty := fmt.has w .dirty

variable {fmt : PageFormat}

@[simp] theorem has_zero (b : Bit) : fmt.has 0#32 b = false := by
  simp [has]

theorem pte_zero : fmt.pte 0 = Pte.blank := by
  simp [pte, Pte.blank]

theorem has_put (law : fmt.Lawful) (w : Word) (b b' : Bit) (on : Bool) :
    fmt.has (fmt.put w b on) b' = if b' = b then on else fmt.has w b' := by
  by_cases eq : b' = b
  · subst eq
    rw [if_pos rfl]
    cases on with
    | true =>
      have self : (w ||| fmt.mask b') &&& fmt.mask b' = fmt.mask b' := by
        apply BitVec.eq_of_getLsbD_eq
        intro i _
        simp only [BitVec.getLsbD_and, BitVec.getLsbD_or]
        cases w.getLsbD i <;> cases (fmt.mask b').getLsbD i <;> rfl
      simpa [has, put, self] using law.mask b'
    | false =>
      simp [has, put, BitVec.and_assoc, BitVec.and_comm (~~~_)]
  · rw [if_neg eq]
    have apart := law.apart b b' (Ne.symm eq)
    cases on with
    | true =>
      have keep : (w ||| fmt.mask b) &&& fmt.mask b' = w &&& fmt.mask b' := by
        rw [BitVec.and_or_distrib_right, apart]
        exact BitVec.or_zero
      simp [has, put, keep]
    | false =>
      have keep : w &&& ~~~fmt.mask b &&& fmt.mask b' = w &&& fmt.mask b' := by
        apply BitVec.eq_of_getLsbD_eq
        intro i inside
        have at_i : ((fmt.mask b).getLsbD i && (fmt.mask b').getLsbD i) = false := by
          rw [← BitVec.getLsbD_and, apart]
          exact BitVec.getLsbD_zero
        rw [BitVec.getLsbD_and, BitVec.getLsbD_and, BitVec.getLsbD_and, BitVec.getLsbD_not]
        revert at_i
        cases w.getLsbD i <;> cases (fmt.mask b).getLsbD i <;> cases (fmt.mask b').getLsbD i <;>
          simp [inside]
      simp [has, put, keep]

/-- What an entry says after one of its other bits is set or cleared. -/
theorem kpage_put (law : fmt.Lawful) (w : Word) {b : Bit} (other : b ≠ .present) (on : Bool) :
    (fmt.pte (fmt.put w b on)).kpage = (fmt.pte w).kpage := by
  simp only [pte, has_put law, law.pteGetPage_put, if_neg other.symm]

theorem Linked.ne_zero {w : Word} (linked : fmt.Linked w) : w ≠ 0 := by
  rintro rfl
  exact absurd linked.1 (by simp)

theorem Linked.put_accessed (law : fmt.Lawful) {w : Word} (linked : fmt.Linked w) :
    fmt.Linked (fmt.put w .accessed true) := by
  simpa [Linked, has_put law] using linked

theorem Lawful.user_page (law : fmt.Lawful) (v : Nat) :
    fmt.page v < fmt.physBase ↔ v < fmt.physBase := by
  rw [law.user_iff, law.user_iff, law.pdNo_page]

theorem Lawful.page_page (law : fmt.Lawful) (v : Nat) : fmt.page (fmt.page v) = fmt.page v := by
  rw [page, law.pgOfs_page, Nat.sub_zero]

end PageFormat

/-- What a page is to the page directories: a page table belongs to slot `i` of the directory `pd`,
or to slot `i` of all of them. -/
inductive Owner
  | base
  | dir
  | table (pd i : Nat)
  | kernel (i : Nat)
  deriving DecidableEq

namespace Mmu

/-- A page directory that the processor may use. -/
def Root (m : Mmu) (pd : Nat) : Prop := pd = m.initPageDir ∨ m.dirs pd = true

variable (fmt : PageFormat)

def seat (pd i : Nat) : Owner := if i < fmt.pdNo fmt.physBase then .table pd i else .kernel i

/-- Where the entry of an address is. -/
def cell (m : Mmu) (pd vaddr : Nat) : Option (Nat × Nat) :=
  if m.word pd (fmt.pdNo vaddr) = 0 then none
  else some (fmt.pdeGetPt (m.word pd (fmt.pdNo vaddr)), fmt.ptNo vaddr)

/-- The entry of an address, zero where there is no page table. -/
def entry (m : Mmu) (pd vaddr : Nat) : Word :=
  match m.cell fmt pd vaddr with
  | none => 0
  | some (pt, i) => m.word pt i

/-- Every page directory and page table has one owner, none of them is in the user pool, and the
kernel's part of each directory is that of the base page directory. -/
structure Owned (m : Mmu) (owner : Nat → Option Owner) : Prop where
  inUse : ∀ p o, owner p = some o → m.used p = true ∧ fmt.userPool p = false ∧ p ≠ 0
  base : ∀ p, owner p = some .base ↔ p = m.initPageDir
  dir : ∀ p, owner p = some .dir ↔ m.dirs p = true
  linked : ∀ pd, m.Root pd → ∀ i, m.word pd i ≠ 0 →
    fmt.Linked (m.word pd i) ∧ owner (fmt.pdeGetPt (m.word pd i)) = some (seat fmt pd i)
  table : ∀ p pd i, owner p = some (.table pd i) → m.dirs pd = true ∧
    i < fmt.pdNo fmt.physBase ∧ m.word pd i ≠ 0 ∧ fmt.pdeGetPt (m.word pd i) = p
  kernel : ∀ p i, owner p = some (.kernel i) →
    m.word m.initPageDir i ≠ 0 ∧ fmt.pdeGetPt (m.word m.initPageDir i) = p
  empty : ∀ i < fmt.pdNo fmt.physBase, m.word m.initPageDir i = 0
  shared : ∀ pd, m.dirs pd = true → ∀ i, fmt.pdNo fmt.physBase ≤ i →
    (m.word pd i = 0 ↔ m.word m.initPageDir i = 0)
  active : m.Root m.cr3

variable {fmt} {m m' : Mmu} {owner : Nat → Option Owner}

theorem seat_ne_base (pd i : Nat) : seat fmt pd i ≠ .base := by
  unfold seat
  split <;> exact Owner.noConfusion

theorem seat_ne_dir (pd i : Nat) : seat fmt pd i ≠ .dir := by
  unfold seat
  split <;> exact Owner.noConfusion

theorem cell_eq {pd vaddr pt i : Nat} (at_cell : m.cell fmt pd vaddr = some (pt, i)) :
    m.word pd (fmt.pdNo vaddr) ≠ 0 ∧ pt = fmt.pdeGetPt (m.word pd (fmt.pdNo vaddr)) ∧
      i = fmt.ptNo vaddr := by
  unfold cell at at_cell
  split at at_cell
  next => cases at_cell
  next ne =>
    cases at_cell
    exact ⟨ne, rfl, rfl⟩

theorem entry_none {pd vaddr : Nat} (none : m.cell fmt pd vaddr = none) :
    m.entry fmt pd vaddr = 0 := by
  rw [entry, none]

theorem entry_some {pd vaddr pt i : Nat} (at_cell : m.cell fmt pd vaddr = some (pt, i)) :
    m.entry fmt pd vaddr = m.word pt i := by
  rw [entry, at_cell]

/-- Without `create`, `lookup_page` finds the cell and changes nothing. -/
theorem lookupPage_find {pd vaddr : Nat} (ne : pd ≠ 0) (page : Option Nat) :
    m.lookupPage fmt pd vaddr false page = some (m, m.cell fmt pd vaddr) := by
  simp only [lookupPage, cell, ne, Bool.false_eq_true, false_and, or_self, if_false]
  split <;> rfl

namespace Owned

variable (owned : m.Owned fmt owner)

include owned

theorem root_owner {pd : Nat} (root : m.Root pd) :
    owner pd = some .base ∨ owner pd = some .dir := by
  rcases root with is | live
  · exact .inl ((owned.base pd).mpr is)
  · exact .inr ((owned.dir pd).mpr live)

theorem root_ne {pd : Nat} (root : m.Root pd) : pd ≠ 0 := by
  rcases owned.root_owner root with own | own
  · exact (owned.inUse pd _ own).2.2
  · exact (owned.inUse pd _ own).2.2

theorem base_not_dir : m.dirs m.initPageDir = false := by
  by_contra live
  have base := (owned.base m.initPageDir).mpr rfl
  rw [(owned.dir _).mpr (by simpa using live)] at base
  cases base

/-- A page table is not a page directory. -/
theorem not_root {p pd i : Nat} (own : owner p = some (seat fmt pd i)) : ¬m.Root p := by
  intro root
  rcases owned.root_owner root with other | other
  · exact seat_ne_base pd i (Option.some.inj (own.symm.trans other))
  · exact seat_ne_dir pd i (Option.some.inj (own.symm.trans other))

theorem pool_not_root {p : Nat} (pool : fmt.userPool p = true) : ¬m.Root p := by
  intro root
  rcases owned.root_owner root with own | own <;>
    · rw [(owned.inUse p _ own).2.1] at pool
      cases pool

theorem cell_owner {pd vaddr pt i : Nat} (root : m.Root pd)
    (at_cell : m.cell fmt pd vaddr = some (pt, i)) :
    owner pt = some (seat fmt pd (fmt.pdNo vaddr)) := by
  obtain ⟨ne, rfl, -⟩ := cell_eq at_cell
  exact (owned.linked pd root _ ne).2

theorem cell_used {pd vaddr pt i : Nat} (root : m.Root pd)
    (at_cell : m.cell fmt pd vaddr = some (pt, i)) :
    ¬m.Root pt ∧ fmt.userPool pt = false :=
  have own := owned.cell_owner root at_cell
  ⟨owned.not_root own, (owned.inUse pt _ own).2.1⟩

/-- The base page directory maps no address of a process. -/
theorem base_cell {vaddr : Nat} (law : fmt.Lawful) (user : vaddr < fmt.physBase) :
    m.cell fmt m.initPageDir vaddr = none :=
  if_pos (owned.empty _ ((law.user_iff vaddr).mp user))

/-- All page directories have the page tables of the kernel. -/
theorem kernel_cell {pd vaddr : Nat} (law : fmt.Lawful) (root : m.Root pd)
    (kernel : fmt.physBase ≤ vaddr) : m.cell fmt pd vaddr = m.cell fmt m.initPageDir vaddr := by
  rcases root with rfl | live
  · rfl
  have high : fmt.pdNo fmt.physBase ≤ fmt.pdNo vaddr :=
    Nat.le_of_not_lt fun low => Nat.not_lt.mpr kernel ((law.user_iff vaddr).mpr low)
  unfold cell
  simp only [owned.shared pd live _ high]
  split
  next => rfl
  next ne =>
    have own := (owned.linked pd (.inr live) _ fun zero =>
      ne ((owned.shared pd live _ high).mp zero)).2
    rw [seat, if_neg (Nat.not_lt.mpr high)] at own
    rw [(owned.kernel _ _ own).2]

/-- A cell is the entry of one page: of one directory if a process may map the page, and else of
all. -/
theorem cell_inj (law : fmt.Lawful) {pd pd' vaddr vaddr' : Nat} {c : Nat × Nat} (root : m.Root pd)
    (root' : m.Root pd') (at_cell : m.cell fmt pd vaddr = some c) :
    m.cell fmt pd' vaddr' = some c ↔
      fmt.page vaddr' = fmt.page vaddr ∧ (vaddr < fmt.physBase → pd' = pd) := by
  obtain ⟨pt, i⟩ := c
  constructor
  · intro again
    have same := (owned.cell_owner root at_cell).symm.trans (owned.cell_owner root' again)
    obtain ⟨-, -, index⟩ := cell_eq at_cell
    obtain ⟨-, -, index'⟩ := cell_eq again
    have same := Option.some.inj same
    unfold seat at same
    split at same <;> split at same
    next low _ =>
      obtain ⟨dir, slot⟩ := Owner.table.inj same
      exact ⟨law.page_eq _ _ slot.symm (index'.symm.trans index), fun _ => dir.symm⟩
    next => cases same
    next => cases same
    next high _ =>
      exact ⟨law.page_eq _ _ (Owner.kernel.inj same).symm (index'.symm.trans index),
        fun user => absurd ((law.user_iff vaddr).mp user) high⟩
  · rintro ⟨page, dir⟩
    have slot : fmt.pdNo vaddr' = fmt.pdNo vaddr := by rw [← law.pdNo_page, page, law.pdNo_page]
    have index : fmt.ptNo vaddr' = fmt.ptNo vaddr := by rw [← law.ptNo_page, page, law.ptNo_page]
    have moved : m.cell fmt pd' vaddr' = m.cell fmt pd' vaddr := by
      rw [cell, cell, slot, index]
    rw [moved]
    by_cases user : vaddr < fmt.physBase
    · rw [dir user, at_cell]
    · rw [owned.kernel_cell law root' (Nat.not_lt.mp user),
        ← owned.kernel_cell law root (Nat.not_lt.mp user), at_cell]

end Owned

/-- `m'` has the page tables of `m` where `m` has them, whatever is in them. -/
structure Keeps (fmt : PageFormat) (m m' : Mmu) : Prop where
  base : m'.initPageDir = m.initPageDir
  dirs : m'.dirs = m.dirs
  used : ∀ p, m.used p = true → fmt.userPool p = false → m'.used p = true
  zero : ∀ pd, m.Root pd → ∀ i, m'.word pd i = 0 ↔ m.word pd i = 0
  table : ∀ pd, m.Root pd → ∀ i, fmt.pdeGetPt (m'.word pd i) = fmt.pdeGetPt (m.word pd i)
  linked : ∀ pd, m.Root pd → ∀ i, fmt.Linked (m.word pd i) → fmt.Linked (m'.word pd i)

theorem Keeps.of_word (base : m'.initPageDir = m.initPageDir) (dirs : m'.dirs = m.dirs)
    (used : ∀ p, m.used p = true → fmt.userPool p = false → m'.used p = true)
    (word : ∀ pd, m.Root pd → m'.word pd = m.word pd) : Keeps fmt m m' where
  base := base
  dirs := dirs
  used := used
  zero pd root i := by rw [word pd root]
  table pd root i := by rw [word pd root]
  linked pd root i := by rw [word pd root]; exact id

theorem store_word (m : Mmu) (p i : Nat) (w : Word) (p' i' : Nat) :
    (m.store p i w).word p' i' = if p' = p ∧ i' = i then w else m.word p' i' := by
  by_cases page : p' = p
  · subst page
    simp [Mmu.store, Function.update_apply]
  · simp [Mmu.store, page]

theorem Keeps.store {p : Nat} (other : ¬m.Root p) (i : Nat) (w : Word) :
    Keeps fmt m (m.store p i w) := by
  refine .of_word rfl rfl (fun _ used _ => used) fun pd root => ?_
  have ne : pd ≠ p := by
    rintro rfl
    exact other root
  simp [Mmu.store, ne]

/-- The processor marks a slot of a page directory. -/
theorem Keeps.mark (law : fmt.Lawful) {r i : Nat} (linked : fmt.Linked (m.word r i)) :
    Keeps fmt m (m.store r i (fmt.put (m.word r i) .accessed true)) := by
  have marked := linked.put_accessed law
  refine ⟨rfl, rfl, fun _ used _ => used, ?_, ?_, ?_⟩ <;> intro pd _ j <;> rw [store_word] <;> split
  next here =>
    obtain ⟨rfl, rfl⟩ := here
    exact ⟨fun zero => absurd zero marked.ne_zero, fun zero => absurd zero linked.ne_zero⟩
  next => rfl
  next here =>
    obtain ⟨rfl, rfl⟩ := here
    exact law.pdeGetPt_put _ _ _
  next => rfl
  next => exact fun _ => marked
  next => exact id

namespace Keeps

variable (keeps : Keeps fmt m m')

include keeps

theorem root (pd : Nat) : m'.Root pd ↔ m.Root pd := by
  rw [Root, Root, keeps.base, keeps.dirs]

theorem cell {pd : Nat} (root : m.Root pd) (vaddr : Nat) :
    m'.cell fmt pd vaddr = m.cell fmt pd vaddr := by
  unfold Mmu.cell
  simp only [keeps.zero pd root, keeps.table pd root]

theorem owned (owned : m.Owned fmt owner) (active : m.Root m'.cr3) : m'.Owned fmt owner where
  inUse p o own := by
    obtain ⟨used, pool, ne⟩ := owned.inUse p o own
    exact ⟨keeps.used p used pool, pool, ne⟩
  base := keeps.base ▸ owned.base
  dir := keeps.dirs ▸ owned.dir
  linked pd root i ne := by
    have root := (keeps.root pd).mp root
    obtain ⟨linked, own⟩ := owned.linked pd root i ((keeps.zero pd root i).not.mp ne)
    rw [keeps.table pd root]
    exact ⟨keeps.linked pd root i linked, own⟩
  table p pd i own := by
    obtain ⟨live, low, ne, eq⟩ := owned.table p pd i own
    rw [keeps.dirs, keeps.table pd (.inr live)]
    exact ⟨live, low, (keeps.zero pd (.inr live) i).not.mpr ne, eq⟩
  kernel p i own := by
    obtain ⟨ne, eq⟩ := owned.kernel p i own
    rw [keeps.base, keeps.table _ (.inl rfl)]
    exact ⟨(keeps.zero _ (.inl rfl) i).not.mpr ne, eq⟩
  empty i low := by
    rw [keeps.base]
    exact (keeps.zero _ (.inl rfl) i).mpr (owned.empty i low)
  shared pd live i high := by
    rw [keeps.dirs] at live
    rw [keeps.base, keeps.zero pd (.inr live), keeps.zero _ (.inl rfl)]
    exact owned.shared pd live i high
  active := (keeps.root _).mpr active

/-- The entries are as they were where the page tables are. -/
theorem entry {pd : Nat} (root : m.Root pd) (vaddr : Nat)
    (same : ∀ pt i, m.cell fmt pd vaddr = some (pt, i) → m'.word pt i = m.word pt i) :
    m'.entry fmt pd vaddr = m.entry fmt pd vaddr := by
  unfold Mmu.entry
  rw [keeps.cell root]
  cases found : m.cell fmt pd vaddr with
  | none => rfl
  | some c => exact same c.1 c.2 found

end Keeps

/-- What storing to a cell does to the entries. -/
theorem Owned.entry_store (owned : m.Owned fmt owner) (law : fmt.Lawful)
    {pd pd' vaddr pt i : Nat} (root : m.Root pd) (root' : m.Root pd')
    (at_cell : m.cell fmt pd vaddr = some (pt, i)) (w : Word) (vaddr' : Nat) :
    (m.store pt i w).entry fmt pd' vaddr' =
      if fmt.page vaddr' = fmt.page vaddr ∧ (vaddr < fmt.physBase → pd' = pd) then w
      else m.entry fmt pd' vaddr' := by
  have keeps : Keeps fmt m (m.store pt i w) := .store (owned.cell_used root at_cell).1 i w
  have same : m.cell fmt pd' vaddr' = some (pt, i) ↔ _ := owned.cell_inj law root root' at_cell
  split
  next here =>
    rw [Mmu.entry, keeps.cell root', same.mpr here]
    exact (store_word m pt i w pt i).trans (if_pos ⟨rfl, rfl⟩)
  next elsewhere =>
    apply keeps.entry root'
    intro pt' i' found
    rw [store_word, if_neg]
    rintro ⟨rfl, rfl⟩
    exact elsewhere (same.mp found)

/-- What is stored elsewhere does not matter to the entries. -/
theorem Owned.entry_other (owned : m.Owned fmt owner) (keeps : Keeps fmt m m') {pd : Nat}
    (root : m.Root pd) (same : ∀ p, m'.word p ≠ m.word p → m.Root p ∨ fmt.userPool p = true)
    (vaddr : Nat) : m'.entry fmt pd vaddr = m.entry fmt pd vaddr := by
  apply keeps.entry root
  intro pt i found
  obtain ⟨notRoot, notPool⟩ := owned.cell_used root found
  by_contra ne
  rcases same pt (fun eq => ne (congrFun eq i)) with is | pool
  · exact notRoot is
  · simp [notPool] at pool

end Mmu

end Pintos.Userprog
