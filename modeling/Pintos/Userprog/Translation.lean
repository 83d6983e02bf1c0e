import Pintos.Userprog.Spaces

/-! The page directories and the processor with its TLB behave as the address spaces do. -/

namespace Pintos.Userprog

open Vm

variable {fmt : PageFormat}

section Spaces

variable {t : Spaces} {pd u : Nat}

theorem entry_setEntry (there : u < fmt.physBase → (t.space pd).isSome = true) (e : Pte)
    (pd' u' : Nat) : (t.setEntry fmt pd u e).entry fmt pd' u' =
      if u' = u ∧ (u < fmt.physBase → pd' = pd) then e else t.entry fmt pd' u' := by
  unfold Spaces.setEntry Spaces.entry
  by_cases user : u < fmt.physBase
  · obtain ⟨s, is⟩ := Option.isSome_iff_exists.mp (there user)
    rw [if_pos user]
    by_cases user' : u' < fmt.physBase
    · by_cases dir : pd' = pd <;> by_cases eq : u' = u <;>
        simp [user, user', dir, eq, is]
    · have ne : u' ≠ u := by
        rintro rfl
        exact user' user
      simp [user', ne]
  · rw [if_neg user]
    by_cases user' : u' < fmt.physBase
    · have ne : u' ≠ u := by
        rintro rfl
        exact user user'
      simp [user', ne]
    · simp [user, user', Function.update_apply]

theorem setEntry_self (there : u < fmt.physBase → (t.space pd).isSome = true) :
    t.setEntry fmt pd u (t.entry fmt pd u) = t := by
  unfold Spaces.setEntry Spaces.entry
  split
  next user =>
    obtain ⟨s, is⟩ := Option.isSome_iff_exists.mp (there user)
    rw [is]
    simp only [Option.map_some, Option.getD_some, Function.update_eq_self]
    rw [← is, Function.update_eq_self]
  next => rw [Function.update_eq_self]

@[simp] theorem setEntry_isSome (e : Pte) (pd' : Nat) :
    ((t.setEntry fmt pd u e).space pd').isSome = (t.space pd').isSome := by
  unfold Spaces.setEntry
  split
  · by_cases eq : pd' = pd <;> simp [eq]
  · rfl

@[simp] theorem setEntry_active (e : Pte) : (t.setEntry fmt pd u e).active = t.active := by
  unfold Spaces.setEntry
  split <;> rfl

@[simp] theorem setEntry_lifted (e : Pte) : (t.setEntry fmt pd u e).lifted = t.lifted := by
  unfold Spaces.setEntry
  split <;> rfl

@[simp] theorem setEntry_memory (e : Pte) : (t.setEntry fmt pd u e).memory = t.memory := by
  unfold Spaces.setEntry
  split <;> rfl

@[simp] theorem setEntry_frames (e : Pte) : (t.setEntry fmt pd u e).frames = t.frames := by
  unfold Spaces.setEntry
  split <;> rfl

end Spaces

namespace Mmu

/-- The name of a page directory in the address spaces. -/
def name (m : Mmu) (pd : Nat) : Nat := if pd = m.initPageDir then 0 else pd

/-- Where an entry may point: a process has frames of the user pool, and the kernel has all of
memory at its own addresses. -/
def Reaches (fmt : PageFormat) (w : Word) (vaddr : Nat) : Prop :=
  fmt.has w .present = true → fmt.has w .user = fmt.isUserVaddr vaddr ∧
    if vaddr < fmt.physBase then fmt.userPool (fmt.pteGetPage w) = true
    else fmt.pteGetPage w = fmt.page vaddr

/-- The page tables say what the address spaces have. -/
structure Shows (fmt : PageFormat) (m : Mmu) (t : Spaces) : Prop where
  owned : ∃ owner, m.Owned fmt owner
  live : ∀ pd, (t.space pd).isSome = m.dirs pd
  maps : ∀ pd, m.Root pd → ∀ vaddr,
    t.entry fmt (m.name pd) (fmt.page vaddr) = fmt.pte (m.entry fmt pd vaddr)
  reaches : ∀ pd, m.Root pd → ∀ vaddr, Reaches fmt (m.entry fmt pd vaddr) vaddr
  memory : ∀ p, fmt.userPool p = true → t.memory p = m.word p
  frames : ∀ p, fmt.userPool p = true → t.frames p = m.used p
  active : t.active = m.name m.cr3

/-- An entry in the TLB is an older one of the page: it may lack bits that the page got since. -/
def Older (fmt : PageFormat) (t : Spaces) (u : Nat) (w : Word) (e : Pte) : Prop :=
  fmt.has w .present = true ∧ Reaches fmt w u ∧ e.present = true ∧ e.kpage = fmt.pteGetPage w ∧
    e.accessed = true ∧ (fmt.has w .dirty = true → e.dirty = true) ∧
    (fmt.has w .writable = true → e.writable = true) ∧
    (e.writable = true → fmt.has w .writable = true ∨ t.lifted t.active u = true)

/-- No entry in the TLB is stale. -/
def Cached (fmt : PageFormat) (m : Mmu) (t : Spaces) : Prop :=
  Caching.Coherent (fun u w e => fmt.page u = u ∧ Older fmt t u w e) m.tlb (t.entry fmt t.active)

structure Serves (fmt : PageFormat) (m : Mmu) (t : Spaces) : Prop where
  shows_ : Shows fmt m t
  cached : Cached fmt m t

variable {m m' : Mmu} {t : Spaces} {pd : Nat}

theorem Shows.not_base (shown : Shows fmt m t) (live : m.dirs pd = true) : m.name pd = pd := by
  obtain ⟨owner, owned⟩ := shown.owned
  refine if_neg ?_
  rintro rfl
  exact absurd live (by simp [owned.base_not_dir])

theorem name_inj {d : Nat} (shown : Shows fmt m t) (root : m.Root pd) (root' : m.Root d) :
    m.name d = m.name pd ↔ d = pd := by
  obtain ⟨owner, owned⟩ := shown.owned
  unfold name
  split <;> split
  next is is' => simp [is, is']
  next is ne => simp [is, Ne.symm ne, (owned.root_ne root).symm]
  next ne is => simp [is, ne, owned.root_ne root']
  next => exact Iff.rfl

theorem Shows.of_live (shown : Shows fmt m t) (live : m.dirs pd = true) (vaddr : Nat) :
    t.entry fmt pd (fmt.page vaddr) = fmt.pte (m.entry fmt pd vaddr) := by
  rw [← shown.maps pd (.inr live), shown.not_base live]

theorem Shows.of_active (shown : Shows fmt m t) (vaddr : Nat) :
    t.entry fmt t.active (fmt.page vaddr) = fmt.pte (m.entry fmt m.cr3 vaddr) := by
  obtain ⟨owner, owned⟩ := shown.owned
  rw [shown.active, shown.maps m.cr3 owned.active]

/-- The page tables may be different ones if they say the same. -/
theorem Shows.of_entry (shown : Shows fmt m t) (owned : ∃ owner, m'.Owned fmt owner)
    (beside : Beside fmt m m') (dirs : m'.dirs = m.dirs)
    (entry : ∀ d, m.Root d → ∀ v, m'.entry fmt d v = m.entry fmt d v) : Shows fmt m' t := by
  have root : ∀ d, m'.Root d → m.Root d := fun d root => by
    rwa [Root, beside.base, dirs] at root
  have name : m'.name = m.name := by
    funext d
    rw [Mmu.name, Mmu.name, beside.base]
  refine ⟨owned, dirs ▸ shown.live, ?_, ?_, ?_, ?_, ?_⟩
  · intro d is v
    rw [name, entry d (root d is)]
    exact shown.maps d (root d is) v
  · intro d is v
    rw [entry d (root d is)]
    exact shown.reaches d (root d is) v
  · intro p pool
    rw [beside.word p pool]
    exact shown.memory p pool
  · intro p pool
    rw [beside.used p pool]
    exact shown.frames p pool
  · rw [beside.cr3, name]
    exact shown.active

/-- One entry is different. -/
theorem Shows.setEntry (shown : Shows fmt m t) (law : fmt.Lawful) {vaddr : Nat} {w : Word}
    (root : m.Root pd) (live : vaddr < fmt.physBase → m.dirs pd = true)
    (owned : ∃ owner, m'.Owned fmt owner) (beside : Beside fmt m m') (dirs : m'.dirs = m.dirs)
    (entry : ∀ d, m.Root d → ∀ v, m'.entry fmt d v =
      if fmt.page v = fmt.page vaddr ∧ (vaddr < fmt.physBase → d = pd) then w
      else m.entry fmt d v)
    (reaches : Reaches fmt w vaddr) :
    Shows fmt m' (t.setEntry fmt (m.name pd) (fmt.page vaddr) (fmt.pte w)) := by
  have root_of : ∀ d, m'.Root d → m.Root d := fun d root => by
    rwa [Root, beside.base, dirs] at root
  have name : m'.name = m.name := by
    funext d
    rw [Mmu.name, Mmu.name, beside.base]
  refine ⟨owned, ?_, ?_, ?_, ?_, ?_, ?_⟩
  · intro d
    rw [setEntry_isSome, dirs]
    exact shown.live d
  · intro d is v
    have is := root_of d is
    have same : (fmt.page vaddr < fmt.physBase → m.name d = m.name pd) ↔
        (vaddr < fmt.physBase → d = pd) := by
      rw [law.user_page, name_inj shown root is]
    rw [name, entry_setEntry, entry d is, shown.maps d is]
    · simp only [same]
      split <;> rfl
    · intro user
      have live := live ((law.user_page vaddr).mp user)
      rw [shown.not_base live, shown.live pd, live]
  · intro d is v
    have is := root_of d is
    rw [entry d is]
    split
    next here =>
      have same : v < fmt.physBase ↔ vaddr < fmt.physBase := by
        rw [← law.user_page v, here.1, law.user_page]
      unfold Reaches PageFormat.isUserVaddr at reaches ⊢
      simpa only [same, here.1] using reaches
    next => exact shown.reaches d is v
  · intro p pool
    rw [beside.word p pool, setEntry_memory]
    exact shown.memory p pool
  · intro p pool
    rw [beside.used p pool, setEntry_frames]
    exact shown.frames p pool
  · rw [setEntry_active, beside.cr3, name]
    exact shown.active

theorem Beside.store {p : Nat} (kernel : fmt.userPool p = false) (i : Nat) (w : Word) :
    Beside fmt m (m.store p i w) := by
  refine ⟨rfl, rfl, fun q pool => ?_, fun _ _ => rfl⟩
  have ne : q ≠ p := by
    rintro rfl
    simp [kernel] at pool
  simp [Mmu.store, ne]

/-- A store to a cell is a new entry of the page. -/
theorem Shows.storeCell (shown : Shows fmt m t) (law : fmt.Lawful) {vaddr pt i : Nat}
    (root : m.Root pd) (live : vaddr < fmt.physBase → m.dirs pd = true)
    (at_cell : m.cell fmt pd vaddr = some (pt, i)) {w : Word} (reaches : Reaches fmt w vaddr) :
    Shows fmt (m.store pt i w) (t.setEntry fmt (m.name pd) (fmt.page vaddr) (fmt.pte w)) := by
  obtain ⟨owner, owned⟩ := shown.owned
  obtain ⟨notRoot, kernel⟩ := owned.cell_used root at_cell
  have keeps : Keeps fmt m (m.store pt i w) := .store notRoot i w
  exact shown.setEntry law root live ⟨owner, keeps.owned owned owned.active⟩
    (.store kernel i w) rfl (fun d is v => owned.entry_store law root is at_cell w v) reaches

theorem Shows.setLive (shown : Shows fmt m t) (law : fmt.Lawful) {vaddr pt i : Nat}
    (live : m.dirs pd = true) (at_cell : m.cell fmt pd vaddr = some (pt, i)) {w : Word}
    (reaches : Reaches fmt w vaddr) :
    Shows fmt (m.store pt i w) (t.setEntry fmt pd (fmt.page vaddr) (fmt.pte w)) := by
  have stored := shown.storeCell law (.inr live) (fun _ => live) at_cell reaches
  rwa [shown.not_base live] at stored

theorem Shows.lift (shown : Shows fmt m t) (u : Nat) (on : Bool) : Shows fmt m (t.lift pd u on) :=
  ⟨shown.owned, shown.live, shown.maps, shown.reaches, shown.memory, shown.frames, shown.active⟩

/-- The page tables do not depend on the TLB. -/
theorem Shows.tlb (shown : Shows fmt m t) (tlb : Nat → Option Word) :
    Shows fmt { m with tlb := tlb } t := by
  obtain ⟨⟨owner, owned⟩, live, maps, reaches, memory, frames, active⟩ := shown
  have keeps : Keeps fmt m { m with tlb := tlb } := .of_word rfl rfl (fun _ used _ => used)
    fun _ _ => rfl
  exact ⟨⟨owner, keeps.owned owned owned.active⟩, live, maps, reaches, memory, frames, active⟩

/-- Loading CR3 changes no entry. -/
theorem Shows.activate (shown : Shows fmt m t) (ok : pd = 0 ∨ m.dirs pd = true) :
    Shows fmt (m.pagedirActivate pd) { t with active := pd } := by
  obtain ⟨owner, owned⟩ := shown.owned
  have keeps : Keeps fmt m (m.pagedirActivate pd) := .of_word rfl rfl (fun _ used _ => used)
    fun _ _ => rfl
  have root : m.Root (m.pagedirActivate pd).cr3 := by
    show m.Root (if pd = 0 then m.initPageDir else pd)
    split
    next => exact .inl rfl
    next ne => exact .inr (ok.resolve_left ne)
  refine ⟨⟨owner, keeps.owned owned root⟩, shown.live, shown.maps, shown.reaches, shown.memory,
    shown.frames, ?_⟩
  show pd = m.name (if pd = 0 then m.initPageDir else pd)
  split
  next zero => rw [zero, name, if_pos rfl]
  next ne => rw [shown.not_base (ok.resolve_left ne)]

theorem Shows.active_iff (shown : Shows fmt m t) (live : m.dirs pd = true) :
    t.active = pd ↔ m.cr3 = pd := by
  obtain ⟨owner, owned⟩ := shown.owned
  rw [shown.active, ← name_inj shown (.inr live) owned.active, shown.not_base live]

/-- `invalidate_pagedir` after an entry of a directory changed: if the directory is active its
entries leave the TLB, and else they are not in it. -/
theorem Shows.invalidate (shown : Shows fmt m t) (live : m.dirs pd = true)
    (idle : t.active ≠ pd → Cached fmt m t) : Serves fmt (m.invalidatePagedir pd) t := by
  unfold invalidatePagedir
  split
  next is =>
    have named : ({ t with active := pd } : Spaces) = t := by
      rw [← (shown.active_iff live).mpr is]
    exact named ▸ ⟨shown.activate (.inr live), .empty⟩
  next ne => exact ⟨shown, idle fun is => ne ((shown.active_iff live).mp is)⟩

/-- A change that the TLB does not see. -/
theorem Cached.elsewhere (cached : Cached fmt m t) {m' : Mmu} {t' : Spaces}
    (tlb : m'.tlb = m.tlb) (active : t'.active = t.active)
    (entry : ∀ u w, m.tlb u = some w →
      t'.entry fmt t.active u = t.entry fmt t.active u ∧
        t'.lifted t.active u = t.lifted t.active u) : Cached fmt m' t' := by
  unfold Cached
  rw [tlb, active]
  refine Caching.Coherent.later cached fun u w held older => ?_
  obtain ⟨same, lifted⟩ := entry u w held
  rw [same]
  unfold Older at older ⊢
  rw [active, lifted]
  exact older

section Walk

variable (fmt)

/-- An entry that the processor has marked. -/
def touchedWord (w : Word) (write : Bool) : Word :=
  if write then fmt.put (fmt.put w .accessed true) .dirty true else fmt.put w .accessed true

/-- The slot of the active page directory is marked. -/
def marked (m : Mmu) (vaddr : Nat) : Mmu :=
  m.store m.cr3 (fmt.pdNo vaddr) (fmt.put (m.word m.cr3 (fmt.pdNo vaddr)) .accessed true)

/-- The entry is marked as well, and the TLB has it. -/
def translated (m : Mmu) (write : Bool) (vaddr pt i : Nat) : Mmu :=
  { (m.marked fmt vaddr).store pt i (touchedWord fmt (m.word pt i) write) with
    tlb := Function.update m.tlb (fmt.page vaddr) (some (touchedWord fmt (m.word pt i) write)) }

/-- What `walk` comes to. -/
inductive Walked (m : Mmu) (user : Bool) (write : Option Word) (vaddr : Nat) :
    Mmu × Option Word → Prop
  | unmapped : m.cell fmt m.cr3 vaddr = none → Walked m user write vaddr (m, none)
  | denied {pt i : Nat} : m.cell fmt m.cr3 vaddr = some (pt, i) →
      permits fmt (m.word pt i) user write.isSome = false →
      Walked m user write vaddr (m.marked fmt vaddr, none)
  | through {pt i : Nat} : m.cell fmt m.cr3 vaddr = some (pt, i) →
      permits fmt (m.word pt i) user write.isSome = true →
      Walked m user write vaddr ((m.translated fmt write.isSome vaddr pt i).fetch
        (fmt.pteGetPage (touchedWord fmt (m.word pt i) write.isSome)) (fmt.pgOfs vaddr / 4) write)

variable {fmt} {owner : Nat → Option Owner} {vaddr pt i : Nat}

/-- The processor marks a directory, where no entries are. -/
theorem Owned.marked_word (owned : m.Owned fmt owner) {q : Nat} (out : ¬m.Root q) :
    (m.marked fmt vaddr).word q = m.word q := by
  have ne : q ≠ m.cr3 := by
    rintro rfl
    exact out owned.active
  exact Function.update_of_ne ne _ _

theorem Owned.keeps_marked (owned : m.Owned fmt owner) (law : fmt.Lawful)
    (at_cell : m.cell fmt m.cr3 vaddr = some (pt, i)) : Keeps fmt m (m.marked fmt vaddr) :=
  .mark law (owned.linked _ owned.active _ (cell_eq at_cell).1).1

theorem Owned.walk_cases (owned : m.Owned fmt owner) (user : Bool) (write : Option Word)
    (vaddr : Nat) : Walked fmt m user write vaddr (m.walk fmt user write vaddr) := by
  cases at_cell : m.cell fmt m.cr3 vaddr with
  | none =>
    have empty : m.word m.cr3 (fmt.pdNo vaddr) = 0 := by
      by_contra ne
      rw [cell, if_neg ne] at at_cell
      cases at_cell
    have stuck : m.walk fmt user write vaddr = (m, none) := by
      simp [Mmu.walk, empty, permits]
    exact stuck ▸ .unmapped at_cell
  | some c =>
    obtain ⟨pt, i⟩ := c
    obtain ⟨ne, isPt, isI⟩ := cell_eq at_cell
    have linked := (owned.linked _ owned.active _ ne).1
    have first : permits fmt (m.word m.cr3 (fmt.pdNo vaddr)) user write.isSome = true := by
      simp [permits, linked.1, linked.2.1, linked.2.2]
    have same : (m.marked fmt vaddr).word pt i = m.word pt i :=
      congrFun (owned.marked_word (owned.cell_used owned.active at_cell).1) i
    by_cases allowed : permits fmt (m.word pt i) user write.isSome = true
    · have run : m.walk fmt user write vaddr =
          (m.translated fmt write.isSome vaddr pt i).fetch
            (fmt.pteGetPage (touchedWord fmt (m.word pt i) write.isSome)) (fmt.pgOfs vaddr / 4)
            write := by
        unfold translated
        rw [← same]
        rw [← same] at allowed
        subst isPt isI
        simp only [Mmu.walk, if_pos first]
        exact if_pos allowed
      exact run ▸ .through at_cell allowed
    · have denied : permits fmt (m.word pt i) user write.isSome = false := by simpa using allowed
      have stuck : m.walk fmt user write vaddr = (m.marked fmt vaddr, none) := by
        rw [← same] at allowed
        subst isPt isI
        simp only [Mmu.walk, if_pos first]
        exact if_neg allowed
      exact stuck ▸ .denied at_cell denied

end Walk

section Calls

/-- What `call` gives is admitted. -/
abbrev FollowsCall (fmt : PageFormat) (m : Mmu) (t : Spaces) (c : PageCall) : Prop :=
  Simulation.Follows (call fmt) (Spaces.Admits fmt) (Serves fmt) m t c

variable (serves : Serves fmt m t) (law : fmt.Lawful)

include serves

theorem Serves.getPage {pd uaddr : Nat} (ok : m.Careful fmt (.getPage pd uaddr)) :
    FollowsCall fmt m t (.getPage pd uaddr) := by
  obtain ⟨live, user⟩ := ok
  obtain ⟨owner, owned⟩ := serves.shows_.owned
  have reads := serves.shows_.of_live live uaddr
  have found : m.pagedirGetPage fmt pd uaddr = some (if (t.entry fmt pd (fmt.page uaddr)).present
      then (t.entry fmt pd (fmt.page uaddr)).kpage + fmt.pgOfs uaddr else 0) := by
    rw [reads, pagedirGetPage, if_pos (by simpa [PageFormat.isUserVaddr] using user),
      lookupPage_find (owned.root_ne (.inr live))]
    cases at_cell : m.cell fmt pd uaddr with
    | none => simp [entry_none at_cell, PageFormat.pte]
    | some c =>
      rw [entry_some at_cell]
      simp only [bind, Option.bind_some, PageFormat.pte]
      by_cases present : fmt.has (m.word c.1 c.2) .present = true
      · simp only [if_pos present]
      · simp only [if_neg present]
  refine ⟨m, .page _, t, ?_, ⟨rfl, rfl⟩, serves⟩
  rw [call, found, Option.map_some]

theorem Serves.is {pd vpage : Nat} (live : m.dirs pd = true) (b : Bit) :
    m.pagedirIs fmt b pd vpage = some (fmt.has (m.entry fmt pd vpage) b) := by
  obtain ⟨owner, owned⟩ := serves.shows_.owned
  rw [pagedirIs, lookupPage_find (owned.root_ne (.inr live))]
  cases at_cell : m.cell fmt pd vpage with
  | none =>
    rw [entry_none at_cell]
    exact congrArg some (PageFormat.has_zero b).symm
  | some c =>
    rw [entry_some at_cell]
    rfl

theorem Serves.isDirty {pd vpage : Nat} (ok : m.Careful fmt (.isDirty pd vpage)) :
    FollowsCall fmt m t (.isDirty pd vpage) := by
  refine ⟨m, .bool (fmt.has (m.entry fmt pd vpage) .dirty), t, ?_, ⟨rfl, ?_⟩, serves⟩
  · rw [call, pagedirIsDirty, serves.is ok, Option.map_some]
  · rw [serves.shows_.of_live ok]
    rfl

theorem Serves.isAccessed {pd vpage : Nat} (ok : m.Careful fmt (.isAccessed pd vpage)) :
    FollowsCall fmt m t (.isAccessed pd vpage) := by
  refine ⟨m, .bool (fmt.has (m.entry fmt pd vpage) .accessed), t, ?_, ⟨rfl, ?_⟩, serves⟩
  · rw [call, pagedirIsAccessed, serves.is ok, Option.map_some]
  · rw [serves.shows_.of_live ok]
    rfl

theorem Serves.activate {pd : Nat} (ok : m.Careful fmt (.activate pd)) :
    FollowsCall fmt m t (.activate pd) :=
  ⟨_, .done, { t with active := pd }, rfl, rfl, serves.shows_.activate ok, .empty⟩

theorem Serves.forget_tlb (vaddr : Nat) : Serves fmt (m.forget fmt vaddr) t :=
  ⟨serves.shows_.tlb _, Caching.Coherent.forget serves.cached _⟩

theorem Serves.forget {vaddr : Nat} : FollowsCall fmt m t (.forget vaddr) :=
  ⟨_, .done, t, rfl, rfl, serves.forget_tlb vaddr⟩

include law

theorem Serves.clearPage {pd upage : Nat} (ok : m.Careful fmt (.clearPage pd upage)) :
    FollowsCall fmt m t (.clearPage pd upage) := by
  obtain ⟨live, aligned, user⟩ := ok
  obtain ⟨owner, owned⟩ := serves.shows_.owned
  have page : fmt.page upage = upage := by rw [PageFormat.page, aligned, Nat.sub_zero]
  have reads := serves.shows_.of_live live upage
  rw [page] at reads
  have there : upage < fmt.physBase → (t.space pd).isSome = true := fun _ => by
    rw [serves.shows_.live, live]
  by_cases present : fmt.has (m.entry fmt pd upage) .present = true
  · cases at_cell : m.cell fmt pd upage with
    | none => simp [entry_none at_cell] at present
    | some c =>
      obtain ⟨pt, i⟩ := c
      have word := entry_some at_cell
      let w := fmt.put (m.word pt i) .present false
      have absent : fmt.has w .present = false := by
        rw [PageFormat.has_put law, if_pos rfl]
      have cleared : fmt.pte w =
          { t.entry fmt pd upage with present := false, kpage := 0 } := by
        rw [reads, word]
        simp [PageFormat.pte, w, PageFormat.has_put law]
      have shown : Shows fmt (m.store pt i w) (t.setEntry fmt pd upage
          { t.entry fmt pd upage with present := false, kpage := 0 }) := by
        have stored := serves.shows_.setLive law live at_cell (w := w)
          fun now => absurd now (by simp [absent])
        rwa [page, cleared] at stored
      refine ⟨(m.store pt i w).invalidatePagedir pd, .done, _, ?_, rfl, shown.invalidate live ?_⟩
      · rw [call, pagedirClearPage,
          if_pos ⟨aligned, by simpa [PageFormat.isUserVaddr] using user⟩,
          lookupPage_find (owned.root_ne (.inr live)), at_cell]
        rw [word] at present
        simp only [bind, Option.bind_some, if_pos present, Option.map_some]
        rfl
      · intro idle
        rw [setEntry_active] at idle
        refine serves.cached.elsewhere rfl (setEntry_active _) fun u w held => ?_
        rw [entry_setEntry there, if_neg fun here => idle (here.2 user), setEntry_lifted]
        exact ⟨rfl, rfl⟩
  · have same : { t.entry fmt pd upage with present := false, kpage := 0 } =
        t.entry fmt pd upage := by
      rw [reads]
      simp [PageFormat.pte, present]
    refine ⟨m, .done, t, ?_, ?_, serves⟩
    · rw [call, pagedirClearPage,
        if_pos ⟨aligned, by simpa [PageFormat.isUserVaddr] using user⟩,
        lookupPage_find (owned.root_ne (.inr live))]
      cases at_cell : m.cell fmt pd upage with
      | none => rfl
      | some c =>
        rw [entry_some at_cell] at present
        simp only [bind, Option.bind_some, if_neg present, Option.map_some]
    · show t = t.setEntry fmt pd upage _
      rw [same, setEntry_self there]

omit serves in
theorem pte_put (w : Word) {b : Bit} (other : b ≠ .present) (on : Bool) :
    fmt.pte (fmt.put w b on) = withBit (fmt.pte w) b on := by
  cases b with
  | present => exact absurd rfl other
  | user | accessed | dirty | writable =>
    simp [PageFormat.pte, withBit, PageFormat.has_put law, law.pteGetPage_put]

theorem Serves.setBit {b : Bit} (other : b ≠ .present ∧ b ≠ .user) {pd vpage : Nat} {on : Bool}
    (live : m.dirs pd = true) (user : vpage < fmt.physBase) :
    ∃ m' t', m.pagedirSet fmt b pd vpage on = some m' ∧
      t.SetBit fmt b pd (fmt.page vpage) on t' ∧ Serves fmt m' t' := by
  obtain ⟨owner, owned⟩ := serves.shows_.owned
  have reads := serves.shows_.of_live live vpage
  have there : fmt.page vpage < fmt.physBase → (t.space pd).isSome = true := fun _ => by
    rw [serves.shows_.live, live]
  have found : m.lookupPage fmt pd vpage false none = some (m, m.cell fmt pd vpage) :=
    lookupPage_find (owned.root_ne (.inr live)) none
  cases at_cell : m.cell fmt pd vpage with
  | none =>
    refine ⟨m, t, ?_, .inl ⟨?_, rfl⟩, serves⟩
    · rw [pagedirSet, found, at_cell]
      rfl
    · rw [reads, entry_none at_cell, PageFormat.pte_zero]
  | some c =>
    obtain ⟨pt, i⟩ := c
    have word := entry_some at_cell
    rw [word] at reads
    let e := t.entry fmt pd (fmt.page vpage)
    let lifted := if b = .writable then on && (t.lifted pd (fmt.page vpage) || !e.writable)
      else t.lifted pd (fmt.page vpage)
    let t' := (t.setEntry fmt pd (fmt.page vpage) (withBit e b on)).lift pd (fmt.page vpage) lifted
    have shown : Shows fmt (m.store pt i (fmt.put (m.word pt i) b on)) t' := by
      refine Shows.lift ?_ _ _
      have stored := serves.shows_.setLive law live at_cell (w := fmt.put (m.word pt i) b on) ?_
      · rwa [pte_put law _ other.1, ← reads] at stored
      · unfold Reaches
        rw [PageFormat.has_put law, PageFormat.has_put law, if_neg other.1.symm,
          if_neg other.2.symm, law.pteGetPage_put, ← word]
        exact serves.shows_.reaches pd (.inr live) vpage
    have active : t'.active = t.active := setEntry_active _
    have entry' : ∀ u, t'.entry fmt t.active u =
        if u = fmt.page vpage ∧ (fmt.page vpage < fmt.physBase → t.active = pd) then withBit e b on
        else t.entry fmt t.active u := fun u => entry_setEntry there _ _ _
    have lifted' : ∀ d u, ¬(d = pd ∧ u = fmt.page vpage) → t'.lifted d u = t.lifted d u := by
      intro d u elsewhere
      by_cases dir : d = pd
      · have ne : u ≠ fmt.page vpage := fun eq => elsewhere ⟨dir, eq⟩
        subst dir
        simp [t', Spaces.lift, ne]
      · simp [t', Spaces.lift, dir]
    have lifted_here : t'.lifted pd (fmt.page vpage) = lifted := by
      simp [t', Spaces.lift]
    cases on with
    | false =>
      refine ⟨_, t', ?_, .inr rfl, shown.invalidate live fun idle => ?_⟩
      · rw [pagedirSet, found, at_cell]
        rfl
      · rw [active] at idle
        refine serves.cached.elsewhere rfl active fun u w _ => ⟨?_, ?_⟩
        · rw [entry', if_neg fun here => idle (here.2 ((law.user_page vpage).mpr user))]
        · exact lifted' _ _ fun here => idle here.1
    | true =>
      refine ⟨_, t', ?_, .inr rfl, shown, ?_⟩
      · rw [pagedirSet, found, at_cell]
        rfl
      · show Caching.Coherent _ m.tlb _
        refine Caching.Coherent.later serves.cached fun u w _ older => ?_
        obtain ⟨page, here, reach, present, kpage, accessed, dirty, writable, lift⟩ := older
        rw [active, entry']
        refine ⟨page, ?_⟩
        by_cases at_u : u = fmt.page vpage ∧ (fmt.page vpage < fmt.physBase → t.active = pd)
        · obtain ⟨rfl, dir⟩ := at_u
          have dir := dir ((law.user_page vpage).mpr user)
          rw [dir] at present kpage accessed dirty writable lift
          rw [if_pos ⟨rfl, fun _ => dir⟩, Older, active, dir, lifted_here]
          refine ⟨here, reach, ?_⟩
          cases b with
          | present => exact absurd rfl other.1
          | user => exact absurd rfl other.2
          | accessed => exact ⟨present, kpage, rfl, dirty, writable, lift⟩
          | dirty => exact ⟨present, kpage, accessed, fun _ => rfl, writable, lift⟩
          | writable =>
            refine ⟨present, kpage, accessed, dirty, fun _ => rfl, fun _ => ?_⟩
            cases wasWritable : e.writable with
            | false => exact .inr (by simp [lifted, wasWritable])
            | true => exact (lift wasWritable).imp id fun was => by simp [lifted, was]
        · have apart : ¬(t.active = pd ∧ u = fmt.page vpage) := fun both =>
            at_u ⟨both.2, fun _ => both.1⟩
          rw [if_neg at_u, Older, active, lifted' _ _ apart]
          exact ⟨here, reach, present, kpage, accessed, dirty, writable, lift⟩

theorem Serves.setDirty {pd vpage : Nat} {on : Bool} (ok : m.Careful fmt (.setDirty pd vpage on)) :
    FollowsCall fmt m t (.setDirty pd vpage on) := by
  obtain ⟨m', t', run, set, serves⟩ := serves.setBit law (b := .dirty) (by simp) ok.1 ok.2
  exact ⟨m', .done, t', by rw [call, pagedirSetDirty, run, Option.map_some], set, serves⟩

theorem Serves.setAccessed {pd vpage : Nat} {on : Bool}
    (ok : m.Careful fmt (.setAccessed pd vpage on)) :
    FollowsCall fmt m t (.setAccessed pd vpage on) := by
  obtain ⟨m', t', run, set, serves⟩ := serves.setBit law (b := .accessed) (by simp) ok.1 ok.2
  exact ⟨m', .done, t', by rw [call, pagedirSetAccessed, run, Option.map_some], set, serves⟩

theorem Serves.setWritable {pd vpage : Nat} {on : Bool}
    (ok : m.Careful fmt (.setWritable pd vpage on)) :
    FollowsCall fmt m t (.setWritable pd vpage on) := by
  obtain ⟨m', t', run, set, serves⟩ := serves.setBit law (b := .writable) (by simp) ok.1 ok.2
  exact ⟨m', .done, t', by rw [call, pagedirSetWritable, run, Option.map_some], set, serves⟩

theorem Serves.setPage {pd upage kpage : Nat} {writable : Bool} {page : Option Nat}
    (ok : m.Careful fmt (.setPage pd upage kpage writable page)) :
    FollowsCall fmt m t (.setPage pd upage kpage writable page) := by
  obtain ⟨live, aligned, user, ram, pool, absent, fresh⟩ := ok
  obtain ⟨owner, owned⟩ := serves.shows_.owned
  have is : fmt.page upage = upage := by rw [PageFormat.page, aligned, Nat.sub_zero]
  have notBase : pd ≠ m.initPageDir := by
    rintro rfl
    exact absurd live (by simp [owned.base_not_dir])
  obtain ⟨mid, c, run, found⟩ := owned.lookupPage_create law live user fresh
  have shown := serves.shows_.of_entry found.owned found.beside found.dirs found.entry
  have live' : mid.dirs pd = true := found.dirs ▸ live
  have same := found.entry pd (.inr live) upage
  have reads := shown.of_live live' upage
  rw [is, same] at reads
  have out : (t.entry fmt pd upage).present = false := by rw [reads]; exact absent
  have asserts : fmt.pgOfs upage = 0 ∧ fmt.pgOfs kpage = 0 ∧ fmt.isUserVaddr upage ∧
      fmt.vtop kpage >>> fmt.ptShift < fmt.initRamPages ∧ pd ≠ m.initPageDir :=
    ⟨aligned, ram.2.1, by simpa [PageFormat.isUserVaddr] using user, ram.2.2.2, notBase⟩
  cases c with
  | none =>
    refine ⟨mid, .bool false, t, ?_, ⟨out, .inl ⟨rfl, found.missing rfl, rfl⟩⟩, shown, ?_⟩
    · rw [call, pagedirSetPage, if_pos asserts, run]
      rfl
    · exact serves.cached.elsewhere found.tlb rfl fun _ _ _ => ⟨rfl, rfl⟩
  | some c =>
    obtain ⟨pt, i⟩ := c
    have word := entry_some found.cell
    have there : upage < fmt.physBase → (t.space pd).isSome = true := fun _ => by
      rw [serves.shows_.live, live]
    obtain ⟨points, bits⟩ := law.userPte kpage writable ram
    have entry : fmt.pte (fmt.pteCreateUser kpage writable) =
        ⟨true, kpage, writable, false, false⟩ := by
      simp [PageFormat.pte, bits, points]
    let t' := (t.setEntry fmt pd upage ⟨true, kpage, writable, false, false⟩).lift pd upage false
    have installed : Shows fmt (mid.store pt i (fmt.pteCreateUser kpage writable)) t' := by
      refine Shows.lift ?_ _ _
      have stored := shown.setLive law live' found.cell (w := fmt.pteCreateUser kpage writable)
        fun _ => ⟨by simpa [bits, PageFormat.isUserVaddr] using user, by simpa [user, points]⟩
      rwa [is, entry] at stored
    refine ⟨_, .bool true, t', ?_, ⟨out, .inr ⟨rfl, rfl⟩⟩, installed, ?_⟩
    · rw [call, pagedirSetPage, if_pos asserts, run]
      rw [← same, word] at absent
      simp only [bind, Option.bind_some, absent, Bool.false_eq_true, if_false, Option.map_some]
    · show Cached fmt (mid.store pt i _) t'
      refine serves.cached.elsewhere found.tlb (setEntry_active _) fun u w held => ?_
      -- The page was not present, so that the TLB has no entry for it.
      have apart : ¬(t.active = pd ∧ u = upage) := by
        rintro ⟨dir, rfl⟩
        have older := (serves.cached u w held).2
        rw [dir] at older
        exact absurd older.2.2.1 (by simp [out])
      refine ⟨?_, ?_⟩
      · show (t.setEntry fmt pd upage _).entry fmt t.active u = _
        rw [entry_setEntry there, if_neg fun here => apart ⟨here.2 user, here.1⟩]
      · by_cases dir : t.active = pd
        · have ne : u ≠ upage := fun eq => apart ⟨dir, eq⟩
          simp [t', Spaces.lift, dir, ne]
        · simp [t', Spaces.lift, dir]

omit law in
/-- Pages of the user pool do not matter to the page tables. -/
theorem Serves.pool {m' : Mmu} {t' : Spaces} (base : m'.initPageDir = m.initPageDir)
    (cr3 : m'.cr3 = m.cr3) (tlb : m'.tlb = m.tlb) (dirs : m'.dirs = m.dirs)
    (word : ∀ p, fmt.userPool p = false → m'.word p = m.word p)
    (used : ∀ p, fmt.userPool p = false → m'.used p = m.used p)
    (space : t'.space = t.space) (kernel : t'.kernel = t.kernel) (lifted : t'.lifted = t.lifted)
    (active : t'.active = t.active)
    (memory : ∀ p, fmt.userPool p = true → t'.memory p = m'.word p)
    (frames : ∀ p, fmt.userPool p = true → t'.frames p = m'.used p) : Serves fmt m' t' := by
  obtain ⟨owner, owned⟩ := serves.shows_.owned
  have ownedWord : ∀ p o, owner p = some o → m'.word p = m.word p := fun p o own =>
    word p (owned.inUse p o own).2.1
  have rootWord : ∀ d, m.Root d → m'.word d = m.word d := fun d root => by
    rcases owned.root_owner root with own | own <;> exact ownedWord d _ own
  have keeps : Keeps fmt m m' := .of_word base dirs
    (fun p inUse kernel => (used p kernel).trans inUse) rootWord
  have entry : ∀ d, m.Root d → ∀ v, m'.entry fmt d v = m.entry fmt d v := fun d root v =>
    owned.entry_congr root (rootWord d root) (fun p i own => ownedWord p _ own) v
  have same : t'.entry fmt = t.entry fmt := by
    funext d u
    rw [Spaces.entry, Spaces.entry, space, kernel]
  have name : m'.name = m.name := by
    funext d
    rw [Mmu.name, Mmu.name, base]
  refine ⟨⟨⟨owner, keeps.owned owned (cr3 ▸ owned.active)⟩, ?_, ?_, ?_, memory, frames, ?_⟩, ?_⟩
  · rw [space, dirs]
    exact serves.shows_.live
  · intro d root v
    have root := (keeps.root d).mp root
    rw [same, name, entry d root]
    exact serves.shows_.maps d root v
  · intro d root v
    have root := (keeps.root d).mp root
    rw [entry d root]
    exact serves.shows_.reaches d root v
  · rw [active, cr3, name]
    exact serves.shows_.active
  · refine serves.cached.elsewhere tlb active fun u w _ => ?_
    rw [same, lifted]
    exact ⟨rfl, rfl⟩

omit law in
theorem Serves.getFrame {page : Option Nat} {zero : Bool}
    (ok : m.Careful fmt (.getFrame page zero)) : FollowsCall fmt m t (.getFrame page zero) := by
  cases page with
  | none => exact ⟨m, .page 0, t, rfl, ⟨rfl, rfl⟩, serves⟩
  | some p =>
    obtain ⟨-, unused, pool⟩ := ok p rfl
    have other : ∀ q, fmt.userPool q = false → q ≠ p := by
      rintro q kernel rfl
      simp [pool] at kernel
    refine ⟨_, .page p, _, rfl, ⟨rfl, ?_, rfl⟩, ?_⟩
    · rw [serves.shows_.frames p pool, unused]
    refine serves.pool rfl rfl rfl rfl ?_ ?_ rfl rfl rfl rfl ?_ ?_
    · intro q kernel
      cases zero <;> simp [pallocGetPage, other q kernel]
    · intro q kernel
      simp [pallocGetPage, other q kernel]
    · intro q pool
      have memory := serves.shows_.memory q pool
      cases zero <;> simp [pallocGetPage, Function.update_apply, memory]
    · intro q pool
      simp [pallocGetPage, Function.update_apply, serves.shows_.frames q pool]

omit law in
theorem Serves.freeFrame {p : Nat} (ok : m.Careful fmt (.freeFrame p)) :
    FollowsCall fmt m t (.freeFrame p) := by
  obtain ⟨used, pool⟩ := ok
  have other : ∀ q, fmt.userPool q = false → q ≠ p := by
    rintro q kernel rfl
    simp [pool] at kernel
  let t' : Spaces := { t with
    frames := Function.update t.frames p false
    memory := Function.update t.memory p fmt.scrap }
  refine ⟨_, .done, t', by rw [call, pallocFreePage, if_pos used, Option.map_some],
    ⟨?_, rfl, rfl, rfl, rfl, rfl, fun q ne => Function.update_of_ne ne _ _⟩, ?_⟩
  · rw [serves.shows_.frames p pool, used]
  refine serves.pool rfl rfl rfl rfl ?_ ?_ rfl rfl rfl rfl ?_ ?_
  · intro q kernel
    simp [other q kernel]
  · intro q kernel
    simp [other q kernel]
  · intro q pool
    simp [t', Function.update_apply, serves.shows_.memory q pool]
  · intro q pool
    simp [t', Function.update_apply, serves.shows_.frames q pool]

omit law in
theorem Serves.create {page : Option Nat} (ok : m.Careful fmt (.create page)) :
    FollowsCall fmt m t (.create page) := by
  cases page with
  | none => exact ⟨m, .page 0, t, rfl, ⟨rfl, rfl⟩, serves⟩
  | some p =>
    obtain ⟨ram, unused, kernel⟩ := ok p rfl
    obtain ⟨owner, owned⟩ := serves.shows_.owned
    have fresh := owned.fresh unused
    have notLive : m.dirs p = false := by
      cases live : m.dirs p with
      | false => rfl
      | true => cases fresh.symm.trans ((owned.dir p).mpr live)
    let m' := (m.pagedirCreate (some p)).1
    let t' : Spaces := { t with
      space := Function.update t.space p (some fun _ => Pte.blank)
      lifted := Function.update t.lifted p fun _ => false }
    have owned' := owned.create ram unused kernel
    have base : m.initPageDir ≠ p := owned.root_ne_fresh unused (.inl rfl)
    have notActive : t.active ≠ p := by
      have ne := owned.root_ne_fresh unused owned.active
      rw [serves.shows_.active, name]
      split
      · exact ram.1.symm
      · exact ne
    have old : ∀ d, d ≠ p → m'.Root d → m.Root d := by
      rintro d ne (is | live)
      · exact .inl is
      · exact .inr (by simpa [m', pagedirCreate, ne, pallocGetPage] using live)
    have word : ∀ q, q ≠ p → m'.word q = m.word q := fun q ne => by
      simp [m', pagedirCreate, pallocGetPage, ne]
    have entry : ∀ d, m.Root d → ∀ v, m'.entry fmt d v = m.entry fmt d v := fun d root v =>
      owned.entry_congr root (word d (owned.root_ne_fresh unused root))
        (fun q i own => word q (owned.ne_fresh unused own)) v
    have baseEntry : ∀ v, m'.entry fmt p v = m.entry fmt m.initPageDir v := by
      intro v
      have copy : m'.word p = m.word m.initPageDir := by
        simp [m', pagedirCreate, pallocGetPage]
      have same : m'.entry fmt p v = m'.entry fmt m.initPageDir v := by
        unfold Mmu.entry cell
        rw [copy, word _ base]
      rw [same]
      exact entry _ (.inl rfl) v
    have others : ∀ d u, d ≠ p → t'.entry fmt d u = t.entry fmt d u := by
      intro d u ne
      simp [t', Spaces.entry, ne]
    have name' : m'.name p = p := if_neg base.symm
    refine ⟨m', .page p, t', rfl, ⟨rfl, ram.1, ?_, rfl⟩,
      ⟨⟨_, owned'⟩, ?_, ?_, ?_, ?_, ?_, serves.shows_.active⟩, ?_⟩
    · have none := serves.shows_.live p
      rw [notLive] at none
      simpa using none
    · intro d
      by_cases eq : d = p
      · simp [t', m', pagedirCreate, eq]
      · simpa [t', m', pagedirCreate, pallocGetPage, eq] using serves.shows_.live d
    · intro d root v
      by_cases eq : d = p
      · rw [eq, name', baseEntry, ← serves.shows_.maps _ (.inl rfl)]
        have none : t.space 0 = none := by
          have zero := serves.shows_.live 0
          cases live : m.dirs 0 with
          | true => exact absurd rfl (owned.root_ne (.inr live))
          | false => simpa [live] using zero
        simp [t', Spaces.entry, Mmu.name, none]
      · have root := old d eq root
        have ne : m.name d ≠ p := by
          unfold Mmu.name
          split
          · exact ram.1.symm
          · exact eq
        rw [entry d root, ← serves.shows_.maps d root]
        exact others _ _ ne
    · intro d root v
      by_cases eq : d = p
      · rw [eq, baseEntry]
        exact serves.shows_.reaches _ (.inl rfl) v
      · rw [entry d (old d eq root)]
        exact serves.shows_.reaches d (old d eq root) v
    · intro q pool
      have ne : q ≠ p := by
        rintro rfl
        simp [pool] at kernel
      rw [word q ne]
      exact serves.shows_.memory q pool
    · intro q pool
      have ne : q ≠ p := by
        rintro rfl
        simp [pool] at kernel
      simpa [m', pagedirCreate, pallocGetPage, ne] using serves.shows_.frames q pool
    · refine serves.cached.elsewhere rfl rfl fun u w _ => ⟨others _ _ notActive, ?_⟩
      simp [t', notActive]

omit serves in
/-- The frames that the page tables of a directory point to. -/
theorem Owned.mem_frames {owner : Nat → Option Owner} (owned : m.Owned fmt owner) {pd : Nat}
    (live : m.dirs pd = true) (p : Nat) :
    p ∈ m.frames fmt pd ↔ ∃ v, v < fmt.physBase ∧ fmt.has (m.entry fmt pd v) .present = true ∧
      fmt.pteGetPage (m.entry fmt pd v) = p := by
  unfold frames
  rw [List.mem_flatMap]
  constructor
  · rintro ⟨i, low, inside⟩
    rw [List.mem_range] at low
    split at inside
    next linked =>
      obtain ⟨j, bound, is⟩ := List.mem_filterMap.mp inside
      obtain ⟨v, rfl, rfl⟩ := law.slot i low j (List.mem_range.mp bound)
      have ne : m.word pd (fmt.pdNo v) ≠ 0 := fun zero => by simp [zero] at linked
      have at_cell : m.cell fmt pd v =
          some (fmt.pdeGetPt (m.word pd (fmt.pdNo v)), fmt.ptNo v) := if_neg ne
      split at is
      next present =>
        refine ⟨v, (law.user_iff v).mpr low, ?_, ?_⟩
        · rw [entry_some at_cell]
          exact present
        · rw [entry_some at_cell]
          exact Option.some.inj is
      next => cases is
    next => cases inside
  · rintro ⟨v, user, present, is⟩
    have low := (law.user_iff v).mp user
    cases at_cell : m.cell fmt pd v with
    | none => simp [entry_none at_cell] at present
    | some c =>
      obtain ⟨pt, j⟩ := c
      obtain ⟨ne, rfl, rfl⟩ := cell_eq at_cell
      rw [entry_some at_cell] at present is
      refine ⟨fmt.pdNo v, List.mem_range.mpr low, ?_⟩
      rw [if_pos (owned.linked pd (.inr live) _ ne).1.1]
      refine List.mem_filterMap.mpr ⟨fmt.ptNo v, List.mem_range.mpr (law.ptNo_lt v), ?_⟩
      rw [if_pos present, is]

theorem Serves.mapped {pd : Nat} (live : m.dirs pd = true) {s : Nat → Pte}
    (space : t.space pd = some s) (p : Nat) :
    Spaces.Mapped fmt s p ↔ p ∈ m.frames fmt pd := by
  obtain ⟨owner, owned⟩ := serves.shows_.owned
  have reads : ∀ v, v < fmt.physBase → s (fmt.page v) = fmt.pte (m.entry fmt pd v) := by
    intro v user
    rw [← serves.shows_.of_live live v, Spaces.entry, if_pos ((law.user_page v).mpr user), space]
    rfl
  rw [owned.mem_frames law live]
  constructor
  · rintro ⟨u, ⟨user, page⟩, present, is⟩
    have read := reads u user
    rw [page] at read
    rw [read] at present is
    have present : fmt.has (m.entry fmt pd u) .present = true := present
    exact ⟨u, user, present, by simpa [PageFormat.pte, present] using is⟩
  · rintro ⟨v, user, present, is⟩
    refine ⟨fmt.page v, ⟨(law.user_page v).mpr user, law.page_page v⟩, ?_, ?_⟩
    · rw [reads v user]
      exact present
    · rw [reads v user]
      simpa [PageFormat.pte, present] using is

theorem Serves.destroy {pd : Nat} (ok : m.Careful fmt (.destroy pd)) :
    FollowsCall fmt m t (.destroy pd) := by
  rcases ok with rfl | ⟨live, idle, freeable⟩
  · exact ⟨m, .done, t, by rw [call, pagedirDestroy, if_pos rfl, Option.map_some],
      .inl ⟨rfl, rfl⟩, serves⟩
  obtain ⟨owner, owned⟩ := serves.shows_.owned
  obtain ⟨s, space⟩ := Option.isSome_iff_exists.mp ((serves.shows_.live pd).trans live)
  let pages := m.pagesOf fmt pd (List.range (fmt.pdNo fmt.physBase)) ++ [pd]
  let t' : Spaces := { t with
    space := Function.update t.space pd none
    frames := fun p => t.frames p && !pages.contains p
    memory := fun p => if pages.contains p then fmt.scrap else t.memory p }
  have freed : ∀ p, fmt.userPool p = true → (p ∈ pages ↔ Spaces.Mapped fmt s p) := by
    intro p pool
    rw [serves.mapped law live space, List.mem_append, owned.mem_pagesOf live p,
      List.mem_singleton]
    constructor
    · rintro ((frame | ⟨i, table⟩) | rfl)
      · exact frame
      · exact absurd (owned.inUse p _ table).2.1 (by simp [pool])
      · exact absurd (.inr live) (owned.pool_not_root pool)
    · exact fun frame => .inl (.inl frame)
  have owned' := owned.destroyed live idle freeable
  have notActive : t.active ≠ pd := fun is => idle ((serves.shows_.active_iff live).mp is)
  have others : ∀ d u, d ≠ pd → t'.entry fmt d u = t.entry fmt d u := by
    intro d u ne
    simp [t', Spaces.entry, ne]
  have base : m.initPageDir ≠ pd := by
    rintro rfl
    exact absurd live (by simp [owned.base_not_dir])
  have old : ∀ d, (destroyed fmt m pd).Root d → m.Root d ∧ d ≠ pd := by
    rintro d (rfl | live')
    · exact ⟨.inl rfl, base⟩
    · have ne : d ≠ pd := by
        rintro rfl
        exact absurd live' (by simp [destroyed])
      exact ⟨.inr (by simpa [destroyed, freeAll, ne] using live'), ne⟩
  refine ⟨destroyed fmt m pd, .done, t', ?_, .inr ⟨s, space, rfl, rfl, rfl, rfl, ?_⟩,
    ⟨⟨_, owned'⟩, ?_, ?_, ?_, ?_, ?_, serves.shows_.active⟩, ?_⟩
  · rw [call, owned.pagedirDestroy_eq live freeable, Option.map_some]
  · intro p pool
    refine ⟨fun mapped => ?_, fun unmapped => ⟨?_, ?_⟩⟩
    · simp [t', (freed p pool).mpr mapped]
    · simp [t', (freed p pool).not.mpr unmapped]
    · simp [t', (freed p pool).not.mpr unmapped]
  · intro d
    by_cases eq : d = pd
    · simp [t', destroyed, eq]
    · simpa [t', destroyed, freeAll, eq] using serves.shows_.live d
  · intro d root v
    obtain ⟨root, ne⟩ := old d root
    have notPd : m.name d ≠ pd := by
      unfold Mmu.name
      split
      · exact (owned.root_ne (.inr live)).symm
      · exact ne
    rw [owned.entry_destroyed live freeable root ne, ← serves.shows_.maps d root]
    exact others _ _ notPd
  · intro d root v
    obtain ⟨root, ne⟩ := old d root
    rw [owned.entry_destroyed live freeable root ne]
    exact serves.shows_.reaches d root v
  · intro p pool
    simp only [t', destroyed, freeAll, serves.shows_.memory p pool]
    rfl
  · intro p pool
    simp only [t', destroyed, freeAll, serves.shows_.frames p pool]
    rfl
  · exact serves.cached.elsewhere rfl rfl fun u w _ => ⟨others _ _ notActive, rfl⟩

omit serves in
theorem pte_touched (w : Word) (write : Bool) :
    fmt.pte (touchedWord fmt w write) = touched (fmt.pte w) write := by
  cases write with
  | false =>
    rw [touchedWord, if_neg (by simp), pte_put law _ (by simp)]
    simp [touched, withBit]
  | true =>
    rw [touchedWord, if_pos rfl, pte_put law _ (by simp), pte_put law _ (by simp)]
    simp [touched, withBit]

omit serves in
theorem pteGetPage_touchedWord (w : Word) (write : Bool) :
    fmt.pteGetPage (touchedWord fmt w write) = fmt.pteGetPage w := by
  cases write <;> simp [touchedWord, law.pteGetPage_put]

/-- What the processor may do is what the address space lets it do. -/
theorem Serves.permits_eq (user write : Bool) (vaddr : Nat) :
    t.permits fmt user write (fmt.page vaddr) =
      permits fmt (m.entry fmt m.cr3 vaddr) user write := by
  obtain ⟨owner, owned⟩ := serves.shows_.owned
  rw [Spaces.permits, serves.shows_.of_active vaddr, permits]
  cases present : fmt.has (m.entry fmt m.cr3 vaddr) .present with
  | false => simp [PageFormat.pte, present]
  | true =>
    have same : decide (fmt.page vaddr < fmt.physBase) = decide (vaddr < fmt.physBase) :=
      decide_eq_decide.mpr (law.user_page vaddr)
    rw [(serves.shows_.reaches _ owned.active vaddr present).1, PageFormat.isUserVaddr, same]
    simp [PageFormat.pte, present]

omit law in
/-- The write of the processor, after its translation. -/
theorem Serves.write {page i : Nat} {write : Option Word}
    (pool : write.isSome = true → fmt.userPool page = true) :
    Serves fmt (m.fetch page i write).1 (t.write page i write) := by
  cases write with
  | none => exact serves
  | some w =>
    have pool := pool rfl
    have other : ∀ q, fmt.userPool q = false → q ≠ page := by
      rintro q kernel rfl
      simp [pool] at kernel
    refine serves.pool rfl rfl rfl rfl (fun q kernel => ?_) (fun _ _ => rfl) rfl rfl rfl rfl
      (fun q inside => ?_) fun q inside => ?_
    · exact Function.update_of_ne (other q kernel) _ _
    · by_cases eq : q = page
      · subst eq
        simp [fetch, Mmu.store, Spaces.write, serves.shows_.memory q inside]
      · simp [fetch, Mmu.store, Spaces.write, eq, serves.shows_.memory q inside]
    · exact serves.shows_.frames q inside

omit serves law in
/-- A kernel's own page, or a page of a process: what may be written is in the user pool. -/
theorem Reaches.pool {w : Word} {user : Bool} {write : Option Word} {vaddr : Nat}
    (reaches : Reaches fmt w vaddr) (allowed : permits fmt w user write.isSome = true)
    (ok : m.Careful fmt (.access user write vaddr)) (some : write.isSome = true) :
    fmt.userPool (fmt.pteGetPage w) = true := by
  unfold permits at allowed
  simp only [Bool.and_eq_true, Bool.or_eq_true, Bool.not_eq_true'] at allowed
  obtain ⟨⟨present, isUser⟩, -⟩ := allowed
  obtain ⟨bit, place⟩ := reaches present
  by_cases low : vaddr < fmt.physBase
  · rwa [if_pos low] at place
  · rw [if_neg low] at place
    have kernel : user = false := isUser.resolve_right fun user => by
      rw [bit, PageFormat.isUserVaddr] at user
      exact low (by simpa using user)
    rw [place]
    exact ok kernel some (Nat.not_lt.mp low)

/-- A translation through the page tables. -/
theorem Serves.walk {user : Bool} {write : Option Word} {vaddr : Nat}
    (ok : m.Careful fmt (.access user write vaddr)) :
    ∃ t', t.Accessed fmt user write vaddr (m.walk fmt user write vaddr).2 t' ∧
      Serves fmt (m.walk fmt user write vaddr).1 t' := by
  obtain ⟨owner, owned⟩ := serves.shows_.owned
  have root := owned.active
  have reads := serves.shows_.of_active vaddr
  have lets := serves.permits_eq law user write.isSome vaddr
  have marks : ∀ pt i, m.cell fmt m.cr3 vaddr = some (pt, i) →
      Shows fmt (m.marked fmt vaddr) t := by
    intro pt i at_cell
    have keeps := owned.keeps_marked law at_cell
    have notPool : fmt.userPool m.cr3 = false := by
      rcases owned.root_owner root with own | own <;> exact (owned.inUse _ _ own).2.1
    exact serves.shows_.of_entry ⟨owner, keeps.owned owned root⟩ (.store notPool _ _) rfl
      fun d is v => keeps.entry is v fun p j found =>
        congrFun (owned.marked_word (owned.cell_used is found).1) j
  have walked := owned.walk_cases user write vaddr
  generalize m.walk fmt user write vaddr = result at walked ⊢
  rcases walked with at_cell | ⟨at_cell, denied⟩ | @⟨pt, i, at_cell, allowed⟩
  · refine ⟨t, ⟨rfl, .inl ?_⟩, serves⟩
    rw [lets, entry_none at_cell]
    simp [permits]
  · refine ⟨t, ⟨rfl, .inl ?_⟩, marks _ _ at_cell,
      serves.cached.elsewhere rfl rfl fun _ _ _ => ⟨rfl, rfl⟩⟩
    rw [lets, entry_some at_cell, denied]
  · have word := entry_some at_cell
    let w := touchedWord fmt (m.word pt i) write.isSome
    let e := t.entry fmt t.active (fmt.page vaddr)
    let t' := t.setEntry fmt t.active (fmt.page vaddr) (touched e write.isSome)
    have is_e : e = fmt.pte (m.word pt i) := reads.trans (congrArg fmt.pte word)
    have is_w : fmt.pte w = touched e write.isSome := by
      rw [is_e]
      exact pte_touched law _ _
    have keep : ∀ b, b ≠ .accessed → b ≠ .dirty → fmt.has w b = fmt.has (m.word pt i) b := by
      intro b ne ne'
      cases some : write.isSome <;>
        simp [w, touchedWord, some, PageFormat.has_put law, ne, ne']
    have points : fmt.pteGetPage w = fmt.pteGetPage (m.word pt i) :=
      pteGetPage_touchedWord law _ _
    have reaches : Reaches fmt (m.word pt i) vaddr := word ▸ serves.shows_.reaches _ root vaddr
    have reaches' : Reaches fmt w vaddr := by
      unfold Reaches
      rw [keep _ (by simp) (by simp), keep _ (by simp) (by simp), points]
      exact reaches
    have live : vaddr < fmt.physBase → m.dirs m.cr3 = true := by
      intro low
      refine root.resolve_left fun base => ?_
      rw [base, owned.base_cell law low] at at_cell
      cases at_cell
    have there : fmt.page vaddr < fmt.physBase → (t.space t.active).isSome = true := by
      intro low
      have live := live ((law.user_page vaddr).mp low)
      rw [(serves.shows_.active_iff live).mpr rfl, serves.shows_.live, live]
    have shown' : Shows fmt (m.translated fmt write.isSome vaddr pt i) t' := by
      have stored := (marks pt i at_cell).storeCell law root live
        (((owned.keeps_marked law at_cell).cell root vaddr).trans at_cell) reaches'
      have named : (m.marked fmt vaddr).name m.cr3 = t.active := serves.shows_.active.symm
      rw [named, is_w] at stored
      exact stored.tlb _
    have entry' : ∀ u, t'.entry fmt t.active u =
        if u = fmt.page vaddr then touched e write.isSome else t.entry fmt t.active u := by
      intro u
      rw [entry_setEntry there]
      simp
    have present : fmt.has (m.word pt i) .present = true := by
      simp only [permits, Bool.and_eq_true] at allowed
      exact allowed.1.1
    have cached' : Cached fmt (m.translated fmt write.isSome vaddr pt i) t' := by
      unfold Cached
      rw [setEntry_active]
      refine (Caching.Coherent.later serves.cached ?_).fill ?_
      · intro u c _ older
        obtain ⟨page, here, reach, present, kpage, accessed, dirty, writable, lift⟩ := older
        rw [entry']
        unfold Older
        rw [setEntry_active, setEntry_lifted]
        refine ⟨page, here, reach, ?_⟩
        by_cases at_u : u = fmt.page vaddr
        · subst at_u
          rw [if_pos rfl]
          exact ⟨present, kpage, rfl, fun was => by simp [touched, e, dirty was], writable, lift⟩
        · rw [if_neg at_u]
          exact ⟨present, kpage, accessed, dirty, writable, lift⟩
      · have present : fmt.has w .present = true := (keep _ (by simp) (by simp)).trans present
        rw [entry', if_pos rfl, ← is_w]
        refine ⟨law.page_page vaddr, present, ?_, present, if_pos present, ?_, id, id, .inl⟩
        · unfold Reaches PageFormat.isUserVaddr at reaches' ⊢
          simpa only [law.user_page, law.page_page] using reaches'
        · rw [is_w]
          rfl
    have frame : e.kpage = fmt.pteGetPage w := by
      rw [is_e, points]
      exact if_pos present
    have pool : write.isSome = true → fmt.userPool (fmt.pteGetPage w) = true := fun some =>
      points ▸ reaches.pool allowed ok some
    refine ⟨t'.write (fmt.pteGetPage w) (fmt.pgOfs vaddr / 4) write, ⟨?_, ?_, ?_⟩,
      Serves.write ⟨shown', cached'⟩ pool⟩
    · rw [lets, word]
      exact allowed
    · intro inPool
      rw [← setEntry_memory (touched e write.isSome)]
      rw [frame] at inPool ⊢
      exact (congrFun (shown'.memory _ inPool) _).symm
    · rw [frame]

/-- An access through the TLB comes to what it would come to through the page tables. -/
theorem Serves.access {user : Bool} {write : Option Word} {vaddr : Nat}
    (ok : m.Careful fmt (.access user write vaddr)) :
    FollowsCall fmt m t (.access user write vaddr) := by
  suffices ∃ t', t.Accessed fmt user write vaddr (m.access fmt user write vaddr).2 t' ∧
      Serves fmt (m.access fmt user write vaddr).1 t' by
    obtain ⟨t', accessed, serves⟩ := this
    exact ⟨_, .word _, t', rfl, accessed, serves⟩
  unfold Mmu.access
  cases held : m.tlb (fmt.page vaddr) with
  | none => exact serves.walk law ok
  | some w =>
    obtain ⟨-, here, reach, present, kpage, accessed, dirty, writable, lift⟩ :=
      serves.cached _ w held
    have reaches : Reaches fmt w vaddr := by
      unfold Reaches PageFormat.isUserVaddr at reach ⊢
      simpa only [law.user_page, law.page_page] using reach
    have isUser : fmt.has w .user = decide (fmt.page vaddr < fmt.physBase) := (reach here).1
    by_cases allowed : permits fmt w user write.isSome = true
    · simp only [if_pos allowed]
      by_cases first : (write.isSome && !fmt.has w .dirty) = true
      · rw [if_pos first]
        exact serves.walk law ok
      · rw [if_neg first]
        have pool : write.isSome = true → fmt.userPool (fmt.pteGetPage w) = true := fun some =>
          reaches.pool allowed ok some
        have there : fmt.page vaddr < fmt.physBase → (t.space t.active).isSome = true := by
          intro low
          cases space : t.space t.active with
          | none => simp [Spaces.entry, low, space, Pte.blank] at present
          | some s => rfl
        have settled : touched (t.entry fmt t.active (fmt.page vaddr)) write.isSome =
            t.entry fmt t.active (fmt.page vaddr) := by
          unfold touched
          rw [← accessed]
          have marked : ((t.entry fmt t.active (fmt.page vaddr)).dirty || write.isSome) =
              (t.entry fmt t.active (fmt.page vaddr)).dirty := by
            cases some : write.isSome with
            | false => exact Bool.or_false _
            | true =>
              rw [dirty (by simpa [some] using first)]
              rfl
          rw [marked]
        refine ⟨t.write (fmt.pteGetPage w) (fmt.pgOfs vaddr / 4) write, ⟨?_, ?_, ?_⟩,
          serves.write pool⟩
        · simp only [permits, Bool.and_eq_true, Bool.or_eq_true] at allowed
          simp only [Spaces.permits, present, Bool.true_and, Bool.and_eq_true, Bool.or_eq_true]
          exact ⟨isUser ▸ allowed.1.2, allowed.2.imp id writable⟩
        · intro inPool
          rw [kpage] at inPool ⊢
          exact (congrFun (serves.shows_.memory _ inPool) _).symm
        · rw [settled, setEntry_self there, kpage]
    · simp only [if_neg allowed]
      refine ⟨t, ⟨rfl, ?_⟩, serves.forget_tlb vaddr⟩
      by_cases lets : t.permits fmt user write.isSome (fmt.page vaddr) = true
      · simp only [Spaces.permits, present, Bool.true_and, Bool.and_eq_true, Bool.or_eq_true]
          at lets
        have readOnly : write.isSome = true ∧ fmt.has w .writable = false := by
          simp only [permits, here, Bool.true_and, Bool.and_eq_true, Bool.or_eq_true, not_and]
            at allowed
          have no := allowed (isUser ▸ lets.1)
          rwa [not_or, Bool.not_eq_true, Bool.not_eq_true, Bool.not_eq_false'] at no
        have now := lets.2.resolve_left (by simp [readOnly.1])
        exact .inr ⟨readOnly.1, (lift now).resolve_left (by simp [readOnly.2])⟩
      · exact .inl (by simpa using lets)

/-- Every call that is made as it may be has a result, and one that the address spaces admit. -/
theorem Serves.call {c : PageCall} (ok : m.Careful fmt c) : FollowsCall fmt m t c := by
  cases c with
  | create page => exact serves.create ok
  | destroy pd => exact serves.destroy law ok
  | setPage pd upage kpage writable page => exact serves.setPage law ok
  | getPage pd uaddr => exact serves.getPage ok
  | clearPage pd upage => exact serves.clearPage law ok
  | isDirty pd vpage => exact serves.isDirty ok
  | isAccessed pd vpage => exact serves.isAccessed ok
  | setDirty pd vpage on => exact serves.setDirty law ok
  | setAccessed pd vpage on => exact serves.setAccessed law ok
  | setWritable pd vpage on => exact serves.setWritable law ok
  | activate pd => exact serves.activate ok
  | getFrame page zero => exact serves.getFrame ok
  | freeFrame p => exact serves.freeFrame ok
  | access user write vaddr => exact serves.access law ok
  | forget vaddr => exact serves.forget

end Calls

end Mmu

end Pintos.Userprog
