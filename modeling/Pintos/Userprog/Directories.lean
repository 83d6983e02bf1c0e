import Pintos.Userprog.PageTables

/-! What creating and destroying page directories and page tables does to the pages of memory. -/

namespace Pintos.Userprog

open Vm

namespace Mmu

variable {fmt : PageFormat} {m m' : Mmu} {owner : Nat → Option Owner}

/-- What `palloc_get_page` may come to without `PAL_USER`: a page of the kernel pool, or none. -/
def Fresh (fmt : PageFormat) (m : Mmu) (page : Option Nat) : Prop :=
  ∀ p ∈ page, fmt.Ram p ∧ m.used p = false ∧ fmt.userPool p = false

instance (page : Option Nat) : Decidable (m.Fresh fmt page) :=
  inferInstanceAs (Decidable (∀ p ∈ page, _))

theorem Owned.fresh (owned : m.Owned fmt owner) {p : Nat} (unused : m.used p = false) :
    owner p = none := by
  cases own : owner p with
  | none => rfl
  | some o => rw [(owned.inUse p o own).1] at unused; cases unused

/-- The entries of a directory depend on it and its page tables. -/
theorem Owned.entry_congr (owned : m.Owned fmt owner) {pd : Nat} (root : m.Root pd)
    (self : m'.word pd = m.word pd)
    (tables : ∀ p i, owner p = some (seat fmt pd i) → m'.word p = m.word p) (vaddr : Nat) :
    m'.entry fmt pd vaddr = m.entry fmt pd vaddr := by
  have same : m'.cell fmt pd vaddr = m.cell fmt pd vaddr := by
    rw [cell, cell, self]
  unfold entry
  rw [same]
  cases found : m.cell fmt pd vaddr with
  | none => rfl
  | some c => exact congrFun (tables c.1 _ (owned.cell_owner root found)) c.2

/-- Nothing but page directories and page tables is different. -/
structure Beside (fmt : PageFormat) (m m' : Mmu) : Prop where
  base : m'.initPageDir = m.initPageDir
  cr3 : m'.cr3 = m.cr3
  word : ∀ p, fmt.userPool p = true → m'.word p = m.word p
  used : ∀ p, fmt.userPool p = true → m'.used p = m.used p

theorem Beside.refl (m : Mmu) : Beside fmt m m :=
  ⟨rfl, rfl, fun _ _ => rfl, fun _ _ => rfl⟩

/-- Who owns what after a page got its owner. -/
theorem claimed {p : Nat} (fresh : owner p = none) {o o' : Owner} (ne : o' ≠ o) (q : Nat) :
    Function.update owner p (some o) q = some o' ↔ owner q = some o' := by
  rw [Function.update_apply]
  split
  next eq =>
    subst eq
    simp [fresh, ne.symm]
  next => exact Iff.rfl

theorem Owned.ne_fresh (owned : m.Owned fmt owner) {p q : Nat} (unused : m.used p = false)
    {o : Owner} (own : owner q = some o) : q ≠ p := by
  rintro rfl
  exact Option.some_ne_none o (own.symm.trans (owned.fresh unused))

theorem Owned.root_ne_fresh (owned : m.Owned fmt owner) {p q : Nat} (unused : m.used p = false)
    (root : m.Root q) : q ≠ p := by
  rcases owned.root_owner root with own | own <;> exact owned.ne_fresh unused own

section Create

variable {p : Nat}

private theorem created_word (m : Mmu) (p q : Nat) :
    (m.pagedirCreate (some p)).1.word q = if q = p then m.word m.initPageDir else m.word q := by
  simp [pagedirCreate, pallocGetPage, Function.update_apply]

private theorem created_dirs (m : Mmu) (p q : Nat) :
    (m.pagedirCreate (some p)).1.dirs q = if q = p then true else m.dirs q := by
  simp [pagedirCreate, pallocGetPage, Function.update_apply]

/-- A new page directory has the kernel's part of the base page directory and nothing else. -/
theorem Owned.create (owned : m.Owned fmt owner) (page : fmt.Ram p) (unused : m.used p = false)
    (kernel : fmt.userPool p = false) :
    (m.pagedirCreate (some p)).1.Owned fmt (Function.update owner p (some .dir)) := by
  have fresh := owned.fresh unused
  have base : m.initPageDir ≠ p := owned.root_ne_fresh unused (.inl rfl)
  have old : ∀ q, q ≠ p → (m.pagedirCreate (some p)).1.word q = m.word q := fun q ne => by
    rw [created_word, if_neg ne]
  have new : (m.pagedirCreate (some p)).1.word p = m.word m.initPageDir := by
    rw [created_word, if_pos rfl]
  have dirs : ∀ q, q ≠ p → (m.pagedirCreate (some p)).1.dirs q = m.dirs q := fun q ne => by
    rw [created_dirs, if_neg ne]
  have init : (m.pagedirCreate (some p)).1.initPageDir = m.initPageDir := rfl
  refine ⟨?_, ?_, ?_, ?_, ?_, ?_, ?_, ?_, ?_⟩
  · intro q o has
    rw [Function.update_apply] at has
    split at has
    next eq =>
      subst eq
      exact ⟨by simp [pagedirCreate, pallocGetPage], kernel, page.1⟩
    next ne =>
      obtain ⟨used, rest⟩ := owned.inUse q o has
      exact ⟨by simpa [pagedirCreate, pallocGetPage, ne] using used, rest⟩
  · intro q
    rw [init, claimed fresh Owner.noConfusion]
    exact owned.base q
  · intro q
    by_cases eq : q = p
    · rw [eq, Function.update_self, created_dirs, if_pos rfl]
      exact ⟨fun _ => rfl, fun _ => rfl⟩
    · rw [Function.update_of_ne eq, dirs q eq]
      exact owned.dir q
  · intro pd root i ne
    by_cases eq : pd = p
    · subst eq
      rw [new] at ne ⊢
      obtain ⟨linked, has⟩ := owned.linked _ (.inl rfl) i ne
      have high : ¬i < fmt.pdNo fmt.physBase := fun low => ne (owned.empty i low)
      rw [seat, if_neg high] at has ⊢
      exact ⟨linked, (claimed fresh Owner.noConfusion _).mpr has⟩
    · rw [old pd eq] at ne ⊢
      have root : m.Root pd := by simpa only [Root, init, dirs pd eq] using root
      obtain ⟨linked, has⟩ := owned.linked pd root i ne
      exact ⟨linked, (claimed fresh (seat_ne_dir pd i) _).mpr has⟩
  · intro q pd i has
    obtain ⟨live, low, ne, eq⟩ := owned.table q pd i ((claimed fresh Owner.noConfusion q).mp has)
    have ne' := owned.root_ne_fresh unused (.inr live)
    rw [old pd ne', dirs pd ne']
    exact ⟨live, low, ne, eq⟩
  · intro q i has
    rw [init, old _ base]
    exact owned.kernel q i ((claimed fresh Owner.noConfusion q).mp has)
  · intro i low
    rw [init, old _ base]
    exact owned.empty i low
  · intro pd live i high
    rw [init, old _ base]
    by_cases eq : pd = p
    · rw [eq, new]
    · rw [old pd eq]
      exact owned.shared pd (dirs pd eq ▸ live) i high
  · have ne := owned.root_ne_fresh unused owned.active
    exact Or.imp id (fun live => (dirs _ ne).trans live) owned.active

end Create

section NewTable

variable {pd i pt : Nat}

/-- `lookup_page` puts a page table into an empty slot. -/
def newTable (fmt : PageFormat) (m : Mmu) (pd i pt : Nat) : Mmu :=
  (m.pallocGetPage (some pt) true).store pd i (fmt.pdeCreate pt)

theorem newTable_word (p j : Nat) :
    (newTable fmt m pd i pt).word p j =
      if p = pd ∧ j = i then fmt.pdeCreate pt else if p = pt then 0 else m.word p j := by
  rw [newTable, store_word]
  simp only [pallocGetPage, if_true, Function.update_apply]
  split
  next => rfl
  next => split <;> rfl

theorem newTable_slot : (newTable fmt m pd i pt).word pd i = fmt.pdeCreate pt := by
  rw [newTable_word, if_pos ⟨rfl, rfl⟩]

/-- The page table belongs to the slot, and it is empty. -/
theorem Owned.newTable (owned : m.Owned fmt owner) (law : fmt.Lawful) (live : m.dirs pd = true)
    (low : i < fmt.pdNo fmt.physBase) (free : m.word pd i = 0) (page : fmt.Ram pt)
    (unused : m.used pt = false) (kernel : fmt.userPool pt = false) :
    (newTable fmt m pd i pt).Owned fmt (Function.update owner pt (some (.table pd i))) := by
  have fresh := owned.fresh unused
  obtain ⟨linked, reads⟩ := law.pde pt page
  have ne : pd ≠ pt := owned.root_ne_fresh unused (.inr live)
  have base : m.initPageDir ≠ pt := owned.root_ne_fresh unused (.inl rfl)
  have notBase : m.initPageDir ≠ pd := fun eq => by
    have := owned.base_not_dir
    rw [eq, live] at this
    cases this
  have old : ∀ q, q ≠ pt → ∀ j, ¬(q = pd ∧ j = i) →
      (Mmu.newTable fmt m pd i pt).word q j = m.word q j := fun q ne' j elsewhere => by
    rw [newTable_word, if_neg elsewhere, if_neg ne']
  have oldBase : ∀ j, (Mmu.newTable fmt m pd i pt).word m.initPageDir j = m.word m.initPageDir j :=
    fun j => old _ base j fun here => notBase here.1
  have unclaimed : ∀ q o, q ≠ pt → (Function.update owner pt (some (.table pd i)) q = some o ↔
      owner q = some o) := fun q o ne' => by rw [Function.update_of_ne ne']
  refine ⟨?_, ?_, ?_, ?_, ?_, ?_, ?_, ?_, owned.active⟩
  · intro q o has
    by_cases eq : q = pt
    · subst eq
      exact ⟨by simp [Mmu.newTable, Mmu.store, pallocGetPage], kernel, page.1⟩
    · obtain ⟨used, rest⟩ := owned.inUse q o ((unclaimed q o eq).mp has)
      exact ⟨by simpa [Mmu.newTable, Mmu.store, pallocGetPage, eq] using used, rest⟩
  · intro q
    exact (claimed fresh Owner.noConfusion q).trans (owned.base q)
  · intro q
    exact (claimed fresh Owner.noConfusion q).trans (owned.dir q)
  · intro d root j there
    have ne' : d ≠ pt := owned.root_ne_fresh unused root
    by_cases here : d = pd ∧ j = i
    · obtain ⟨rfl, rfl⟩ := here
      rw [newTable_slot, reads, Function.update_self, seat, if_pos low]
      exact ⟨linked, rfl⟩
    · rw [old d ne' j here] at there ⊢
      obtain ⟨linked, has⟩ := owned.linked d root j there
      rw [unclaimed _ _ (owned.ne_fresh unused has)]
      exact ⟨linked, has⟩
  · intro q d j has
    by_cases eq : q = pt
    · subst eq
      rw [Function.update_self] at has
      obtain ⟨rfl, rfl⟩ := Owner.table.inj (Option.some.inj has)
      rw [newTable_slot]
      exact ⟨live, low, linked.ne_zero, reads⟩
    · obtain ⟨live', low', there, is⟩ := owned.table q d j ((unclaimed q _ eq).mp has)
      rw [old d (owned.root_ne_fresh unused (.inr live')) j]
      · exact ⟨live', low', there, is⟩
      · rintro ⟨rfl, rfl⟩
        exact there free
  · intro q j has
    have has := (claimed fresh Owner.noConfusion q).mp has
    exact (oldBase j).symm ▸ owned.kernel q j has
  · intro j low
    exact (oldBase j).trans (owned.empty j low)
  · intro d live' j high
    have elsewhere : ¬(d = pd ∧ j = i) := fun here => absurd low (Nat.not_lt.mpr (here.2 ▸ high))
    exact (old d (owned.root_ne_fresh unused (.inr live')) j elsewhere).symm ▸
      (oldBase j).symm ▸ owned.shared d live' j high

/-- An empty page table says what no page table says. -/
theorem Owned.entry_newTable (owned : m.Owned fmt owner) (law : fmt.Lawful)
    (slot : m.Root pd) (free : m.word pd i = 0)
    (page : fmt.Ram pt) (unused : m.used pt = false) {d : Nat} (root : m.Root d) (vaddr : Nat) :
    (Mmu.newTable fmt m pd i pt).entry fmt d vaddr = m.entry fmt d vaddr := by
  obtain ⟨linked, reads⟩ := law.pde pt page
  have ne : pd ≠ pt := owned.root_ne_fresh unused slot
  by_cases here : d = pd ∧ fmt.pdNo vaddr = i
  · obtain ⟨rfl, rfl⟩ := here
    have none : m.cell fmt d vaddr = none := if_pos free
    rw [entry_none none, entry, cell, newTable_slot, if_neg linked.ne_zero, reads]
    show (Mmu.newTable fmt m d (fmt.pdNo vaddr) pt).word pt (fmt.ptNo vaddr) = 0
    rw [newTable_word, if_neg fun at_slot => ne at_slot.1.symm, if_pos rfl]
  · have same : (Mmu.newTable fmt m pd i pt).cell fmt d vaddr = m.cell fmt d vaddr := by
      have word : (Mmu.newTable fmt m pd i pt).word d (fmt.pdNo vaddr) =
          m.word d (fmt.pdNo vaddr) := by
        rw [newTable_word, if_neg here, if_neg (owned.root_ne_fresh unused root)]
      rw [cell, cell, word]
    unfold entry
    rw [same]
    cases found : m.cell fmt d vaddr with
    | none => rfl
    | some c =>
      have own := owned.cell_owner root found
      have notRoot := owned.not_root own
      show (Mmu.newTable fmt m pd i pt).word c.1 c.2 = m.word c.1 c.2
      rw [newTable_word, if_neg, if_neg (owned.ne_fresh unused own)]
      rintro ⟨eq, -⟩
      exact notRoot (eq ▸ slot)

end NewTable

/-- What `lookup_page` comes to when it may create a page table: it finds a cell, unless it needs a
page and there is none, and no entry is different. -/
structure LookedUp (fmt : PageFormat) (m : Mmu) (pd vaddr : Nat) (page : Option Nat) (m' : Mmu)
    (c : Option (Nat × Nat)) : Prop where
  owned : ∃ owner, m'.Owned fmt owner
  beside : Beside fmt m m'
  tlb : m'.tlb = m.tlb
  dirs : m'.dirs = m.dirs
  cell : m'.cell fmt pd vaddr = c
  missing : c = none → page = none
  grown : m' = m ∨ ∃ pt, page = some pt ∧ m.word pd (fmt.pdNo vaddr) = 0 ∧
    m' = newTable fmt m pd (fmt.pdNo vaddr) pt
  entry : ∀ d, m.Root d → ∀ v, m'.entry fmt d v = m.entry fmt d v

theorem Owned.lookupPage_create (owned : m.Owned fmt owner) (law : fmt.Lawful) {pd vaddr : Nat}
    (live : m.dirs pd = true) (user : vaddr < fmt.physBase) {page : Option Nat}
    (fresh : m.Fresh fmt page) : ∃ m' c, m.lookupPage fmt pd vaddr true page = some (m', c) ∧
      LookedUp fmt m pd vaddr page m' c := by
  have ne : pd ≠ 0 := owned.root_ne (.inr live)
  have low := (law.user_iff vaddr).mp user
  by_cases free : m.word pd (fmt.pdNo vaddr) = 0
  · cases page with
    | none =>
      refine ⟨m, none, ?_, ⟨owner, owned⟩, .refl m, rfl, rfl, if_pos free, fun _ => rfl,
        .inl rfl, fun _ _ _ => rfl⟩
      simp only [lookupPage, ne, PageFormat.isUserVaddr, user, decide_true, not_true, and_false,
        or_self, if_false, if_true, if_pos free, pallocGetPage]
    | some pt =>
      obtain ⟨ram, unused, kernel⟩ := fresh pt rfl
      refine ⟨Mmu.newTable fmt m pd (fmt.pdNo vaddr) pt, _, ?_,
        ⟨_, owned.newTable law live low free ram unused kernel⟩, ?_, rfl, rfl, rfl, ?_,
        .inr ⟨pt, rfl, free, rfl⟩, fun d root v => owned.entry_newTable law (.inr live) free ram unused root v⟩
      · have linked := (law.pde pt ram).1
        rw [cell, newTable_slot, if_neg linked.ne_zero]
        simp only [lookupPage, ne, PageFormat.isUserVaddr, user, decide_true, not_true, and_false,
          or_self, if_false, if_true, if_pos free]
        let m' := Mmu.newTable fmt m pd (fmt.pdNo vaddr) pt
        show some (m', some (fmt.pdeGetPt (m'.word pd (fmt.pdNo vaddr)), fmt.ptNo vaddr)) = _
        rw [newTable_slot]
      · have kernelPd : ∀ q, fmt.userPool q = true → q ≠ pd ∧ q ≠ pt := by
          intro q pool
          refine ⟨?_, ?_⟩
          · rintro rfl
            exact owned.pool_not_root pool (.inr live)
          · rintro rfl
            simp [pool] at kernel
        refine ⟨rfl, rfl, fun q pool => funext fun j => ?_, fun q pool => ?_⟩
        · obtain ⟨notPd, notPt⟩ := kernelPd q pool
          rw [newTable_word, if_neg fun at_slot => notPd at_slot.1, if_neg notPt]
        · simp [Mmu.newTable, Mmu.store, pallocGetPage, (kernelPd q pool).2]
      · intro none
        have linked := (law.pde pt ram).1
        rw [cell, newTable_slot, if_neg linked.ne_zero] at none
        cases none
  · refine ⟨m, some (fmt.pdeGetPt (m.word pd (fmt.pdNo vaddr)), fmt.ptNo vaddr), ?_,
      ⟨owner, owned⟩, .refl m, rfl, rfl, if_neg free, (by simp), .inl rfl, fun _ _ _ => rfl⟩
    simp only [lookupPage, ne, PageFormat.isUserVaddr, user, decide_true, not_true, and_false,
      or_self, if_false, if_neg free]

section Destroy

variable (fmt)

/-- What freeing some pages comes to. -/
def freeAll (m : Mmu) (pages : List Nat) : Mmu :=
  { m with
    used := fun p => m.used p && !pages.contains p
    word := fun p => if pages.contains p then fmt.scrap else m.word p }

/-- The frames that the entries of a page table point to. -/
def framesOf (m : Mmu) (pt : Nat) (entries : List Nat) : List Nat :=
  entries.filterMap fun i =>
    if fmt.has (m.word pt i) .present then some (fmt.pteGetPage (m.word pt i)) else none

/-- The frames and the page tables under some slots of a page directory. -/
def pagesOf (m : Mmu) (pd : Nat) (slots : List Nat) : List Nat :=
  slots.flatMap fun i =>
    if fmt.has (m.word pd i) .present then
      framesOf fmt m (fmt.pdeGetPt (m.word pd i)) (List.range ptEntries) ++
        [fmt.pdeGetPt (m.word pd i)]
    else []

/-- The frames that a page directory maps. -/
def frames (m : Mmu) (pd : Nat) : List Nat :=
  (List.range (fmt.pdNo fmt.physBase)).flatMap fun i =>
    if fmt.has (m.word pd i) .present then
      framesOf fmt m (fmt.pdeGetPt (m.word pd i)) (List.range ptEntries)
    else []

variable {fmt}

theorem freeAll_nil (m : Mmu) : m.freeAll fmt [] = m := by
  simp [freeAll]

theorem freeAll_word {pages : List Nat} {p : Nat} (kept : p ∉ pages) :
    (m.freeAll fmt pages).word p = m.word p := by
  simp [freeAll, kept]

theorem freeAll_used {pages : List Nat} {p : Nat} (kept : p ∉ pages) :
    (m.freeAll fmt pages).used p = m.used p := by
  simp [freeAll, kept]

theorem freeAll_append (m : Mmu) (pages more : List Nat) :
    (m.freeAll fmt pages).freeAll fmt more = m.freeAll fmt (pages ++ more) := by
  unfold freeAll
  congr 1
  · funext p
    by_cases first : p ∈ pages <;> by_cases second : p ∈ more <;> simp [first, second]
  · funext p
    by_cases first : p ∈ pages <;> simp [first]

theorem pallocFreePage_eq {p : Nat} (used : m.used p = true) :
    m.pallocFreePage fmt p = some (m.freeAll fmt [p]) := by
  rw [pallocFreePage, if_pos used]
  congr 2
  · funext q
    by_cases eq : q = p <;> simp [eq]
  · funext q
    by_cases eq : q = p <;> simp [eq]

/-- The inner loop frees the frames of the table, when they are in use and apart. -/
theorem freeFrames_eq {pt : Nat} {entries : List Nat} (nodup : (m.framesOf fmt pt entries).Nodup)
    (used : ∀ p ∈ m.framesOf fmt pt entries, m.used p = true)
    (apart : pt ∉ m.framesOf fmt pt entries) :
    freeFrames fmt pt entries m = some (m.freeAll fmt (m.framesOf fmt pt entries)) := by
  induction entries generalizing m with
  | nil => rw [framesOf, List.filterMap_nil, freeAll_nil, freeFrames]
  | cons i rest ih =>
    by_cases present : fmt.has (m.word pt i) .present
    · have split : m.framesOf fmt pt (i :: rest) =
          fmt.pteGetPage (m.word pt i) :: m.framesOf fmt pt rest := by
        rw [framesOf, List.filterMap_cons, if_pos present]
        rfl
      rw [split] at nodup used apart ⊢
      obtain ⟨new, nodup⟩ := List.nodup_cons.mp nodup
      rw [List.mem_cons, not_or] at apart
      obtain ⟨ne, apart⟩ := apart
      have same : (m.freeAll fmt [fmt.pteGetPage (m.word pt i)]).framesOf fmt pt rest =
          m.framesOf fmt pt rest := by
        unfold framesOf
        rw [freeAll_word (by simpa using ne)]
      rw [freeFrames, if_pos present, pallocFreePage_eq (used _ List.mem_cons_self)]
      show freeFrames fmt pt rest _ = _
      rw [ih (same ▸ nodup) ?_ (same ▸ apart), same, freeAll_append, List.singleton_append]
      intro p inside
      rw [same] at inside
      rw [freeAll_used]
      · exact used p (List.mem_cons_of_mem _ inside)
      · rw [List.mem_singleton]
        rintro rfl
        exact new inside
    · have skip : m.framesOf fmt pt (i :: rest) = m.framesOf fmt pt rest := by
        rw [framesOf, List.filterMap_cons, if_neg present]
        rfl
      rw [skip] at nodup used apart ⊢
      rw [freeFrames, if_neg present]
      exact ih nodup used apart

/-- The outer loop frees the frames and the tables under the slots. -/
theorem freeTables_eq {pd : Nat} {slots : List Nat} (nodup : (m.pagesOf fmt pd slots).Nodup)
    (used : ∀ p ∈ m.pagesOf fmt pd slots, m.used p = true) (apart : pd ∉ m.pagesOf fmt pd slots) :
    freeTables fmt pd slots m = some (m.freeAll fmt (m.pagesOf fmt pd slots)) := by
  induction slots generalizing m with
  | nil => rw [pagesOf, List.flatMap_nil, freeAll_nil, freeTables]
  | cons i rest ih =>
    by_cases present : fmt.has (m.word pd i) .present
    · let pt := fmt.pdeGetPt (m.word pd i)
      let first := m.framesOf fmt pt (List.range ptEntries)
      have split : m.pagesOf fmt pd (i :: rest) = (first ++ [pt]) ++ m.pagesOf fmt pd rest := by
        rw [pagesOf, List.flatMap_cons, if_pos present]
        rfl
      rw [split] at nodup used apart ⊢
      obtain ⟨nodupFirst, nodupRest, disjoint⟩ := List.nodup_append.mp nodup
      obtain ⟨nodupFrames, -, noTable⟩ := List.nodup_append.mp nodupFirst
      have usedFirst : ∀ p ∈ first ++ [pt], m.used p = true := fun p inside =>
        used p (List.mem_append_left _ inside)
      have apartTable : pt ∉ first := fun inside => noTable pt inside pt (by simp) rfl
      have unfreed : ∀ p ∈ pd :: m.pagesOf fmt pd rest, p ∉ first ++ [pt] := by
        rintro p inside freed
        rcases List.mem_cons.mp inside with rfl | later
        · exact apart (List.mem_append_left _ freed)
        · exact disjoint p freed p later rfl
      have same : (m.freeAll fmt (first ++ [pt])).pagesOf fmt pd rest = m.pagesOf fmt pd rest := by
        have sameDir : (m.freeAll fmt (first ++ [pt])).word pd = m.word pd :=
          freeAll_word (unfreed pd List.mem_cons_self)
        unfold pagesOf
        rw [sameDir]
        refine List.flatMap_congr fun j inside => ?_
        split
        next there =>
          have listed : fmt.pdeGetPt (m.word pd j) ∈ m.pagesOf fmt pd rest :=
            List.mem_flatMap.mpr ⟨j, inside, by rw [if_pos there]; simp⟩
          unfold framesOf
          rw [freeAll_word (unfreed _ (List.mem_cons_of_mem _ listed))]
        next => rfl
      have later := ih (m := m.freeAll fmt (first ++ [pt]))
        (by
          rw [same]
          exact nodupRest)
        (fun p inside => by
          rw [same] at inside
          rw [freeAll_used (unfreed p (List.mem_cons_of_mem _ inside))]
          exact used p (List.mem_append_right _ inside))
        (by
          rw [same]
          exact fun inside => apart (List.mem_append_right _ inside))
      rw [same, freeAll_append] at later
      have usedTable : (m.freeAll fmt first).used pt = true := by
        rw [freeAll_used apartTable]
        exact usedFirst pt (by simp)
      rw [freeTables, if_pos present]
      show (freeFrames fmt pt (List.range ptEntries) m).bind (fun m =>
        (m.pallocFreePage fmt pt).bind (freeTables fmt pd rest)) = _
      rw [freeFrames_eq nodupFrames (fun p inside => usedFirst p (List.mem_append_left _ inside))
        apartTable, Option.bind_some, pallocFreePage_eq usedTable, Option.bind_some, freeAll_append,
        later]
    · have skip : m.pagesOf fmt pd (i :: rest) = m.pagesOf fmt pd rest := by
        rw [pagesOf, List.flatMap_cons, if_neg present]
        rfl
      rw [skip] at nodup used apart ⊢
      rw [freeTables, if_neg present]
      exact ih nodup used apart

/-- What may be destroyed: the frames that the directory maps are in use, and each is mapped
once. -/
structure Freeable (fmt : PageFormat) (m : Mmu) (pd : Nat) : Prop where
  nodup : (m.frames fmt pd).Nodup
  used : ∀ p ∈ m.frames fmt pd, m.used p = true
  pool : ∀ p ∈ m.frames fmt pd, fmt.userPool p = true

theorem Owned.mem_pagesOf (owned : m.Owned fmt owner) {pd : Nat}
    (live : m.dirs pd = true) (p : Nat) :
    p ∈ m.pagesOf fmt pd (List.range (fmt.pdNo fmt.physBase)) ↔
      p ∈ m.frames fmt pd ∨ ∃ i, owner p = some (.table pd i) := by
  rw [pagesOf, frames, List.mem_flatMap, List.mem_flatMap]
  constructor
  · rintro ⟨i, low, inside⟩
    split at inside
    next present =>
      rcases List.mem_append.mp inside with frame | table
      · exact .inl ⟨i, low, by rwa [if_pos present]⟩
      · have ne : m.word pd i ≠ 0 := fun zero => by simp [zero] at present
        have own := (owned.linked pd (.inr live) i ne).2
        rw [seat, if_pos (List.mem_range.mp low), ← List.mem_singleton.mp table] at own
        exact .inr ⟨i, own⟩
    next => cases inside
  · rintro (⟨i, low, inside⟩ | ⟨i, own⟩)
    · split at inside
      next present => exact ⟨i, low, by rw [if_pos present]; exact List.mem_append_left _ inside⟩
      next => cases inside
    · obtain ⟨-, low, ne, rfl⟩ := owned.table p pd i own
      have present := (owned.linked pd (.inr live) i ne).1.1
      exact ⟨i, List.mem_range.mpr low, by rw [if_pos present]; simp⟩

theorem Owned.nodup_pagesOf (owned : m.Owned fmt owner) {pd : Nat} (live : m.dirs pd = true)
    (freeable : Freeable fmt m pd) :
    (m.pagesOf fmt pd (List.range (fmt.pdNo fmt.physBase))).Nodup := by
  have kernel : ∀ i < fmt.pdNo fmt.physBase, m.word pd i ≠ 0 →
      owner (fmt.pdeGetPt (m.word pd i)) = some (.table pd i) := by
    intro i low ne
    have own := (owned.linked pd (.inr live) i ne).2
    rwa [seat, if_pos low] at own
  have notFrame : ∀ i < fmt.pdNo fmt.physBase, m.word pd i ≠ 0 →
      fmt.pdeGetPt (m.word pd i) ∉ m.frames fmt pd := by
    intro i low ne frame
    have pool := freeable.pool _ frame
    rw [(owned.inUse _ _ (kernel i low ne)).2.1] at pool
    cases pool
  have present_ne : ∀ i, fmt.has (m.word pd i) .present = true → m.word pd i ≠ 0 :=
    fun i present zero => by simp [zero] at present
  obtain ⟨each, apart⟩ := List.nodup_flatMap.mp freeable.nodup
  have inFrames : ∀ i ∈ List.range (fmt.pdNo fmt.physBase), ∀ p,
      fmt.has (m.word pd i) .present = true →
      p ∈ framesOf fmt m (fmt.pdeGetPt (m.word pd i)) (List.range ptEntries) →
      p ∈ m.frames fmt pd := fun i low p present inside =>
    List.mem_flatMap.mpr ⟨i, low, by rwa [if_pos present]⟩
  refine List.nodup_flatMap.mpr ⟨fun i low => ?_, ?_⟩
  · have own := each i low
    split
    next present =>
      rw [if_pos present] at own
      rw [List.nodup_append]
      refine ⟨own, List.nodup_singleton _, ?_⟩
      rintro p frame q table rfl
      rw [List.mem_singleton] at table
      exact notFrame i (List.mem_range.mp low) (present_ne i present)
        (table ▸ inFrames i low p present frame)
    next => exact List.nodup_nil
  · refine List.Pairwise.imp_of_mem ?_ (apart.and List.nodup_range)
    intro i j low low' both p inside inside'
    obtain ⟨disjoint, ne⟩ := both
    beta_reduce at inside inside'
    split at inside
    next present =>
      split at inside'
      next present' =>
        have own := kernel i (List.mem_range.mp low) (present_ne i present)
        have own' := kernel j (List.mem_range.mp low') (present_ne j present')
        rcases List.mem_append.mp inside with frame | table <;>
          rcases List.mem_append.mp inside' with frame' | table'
        · exact disjoint (by simpa only [if_pos present] using frame)
            (by simpa only [if_pos present'] using frame')
        · rw [List.mem_singleton] at table'
          exact notFrame j (List.mem_range.mp low') (present_ne j present')
            (table' ▸ inFrames i low p present frame)
        · rw [List.mem_singleton] at table
          exact notFrame i (List.mem_range.mp low) (present_ne i present)
            (table ▸ inFrames j low' p present' frame')
        · rw [List.mem_singleton] at table table'
          rw [← table] at own
          rw [← table', own] at own'
          exact ne (Owner.table.inj (Option.some.inj own')).2
      next => cases inside'
    next => cases inside

/-- Who owns what after a page directory is gone. -/
def disown (owner : Nat → Option Owner) (pd p : Nat) : Option Owner :=
  match owner p with
  | some (.table d i) => if d = pd then none else some (.table d i)
  | some .dir => if p = pd then none else some .dir
  | o => o

theorem disown_some {pd p : Nat} {o : Owner} (own : disown owner pd p = some o) :
    owner p = some o ∧ (∀ i, o ≠ .table pd i) ∧ (o = .dir → p ≠ pd) := by
  unfold disown at own
  split at own
  next d i is =>
    split at own
    next => cases own
    next ne =>
      cases own
      exact ⟨is, fun j eq => ne (Owner.table.inj eq).1, Owner.noConfusion⟩
  next is =>
    split at own
    next => cases own
    next ne =>
      cases own
      exact ⟨is, fun _ => Owner.noConfusion, fun _ => ne⟩
  next notTable notDir =>
    refine ⟨own, ?_, ?_⟩
    · rintro i rfl
      exact notTable pd i own
    · rintro rfl
      exact absurd own notDir

theorem disown_other {pd p : Nat} {o : Owner} (own : owner p = some o)
    (table : ∀ i, o ≠ .table pd i) (dir : o = .dir → p ≠ pd) : disown owner pd p = some o := by
  unfold disown
  cases o with
  | table d i =>
    have ne : d ≠ pd := fun eq => table i (eq ▸ rfl)
    simp [own, ne]
  | dir => simp [own, dir rfl]
  | base => simp [own]
  | kernel i => simp [own]

/-- What `pagedir_destroy` comes to. -/
def destroyed (fmt : PageFormat) (m : Mmu) (pd : Nat) : Mmu :=
  { m.freeAll fmt (m.pagesOf fmt pd (List.range (fmt.pdNo fmt.physBase)) ++ [pd]) with
    dirs := Function.update m.dirs pd false }

variable {pd : Nat}

theorem Owned.pagedirDestroy_eq (owned : m.Owned fmt owner) (live : m.dirs pd = true)
    (freeable : Freeable fmt m pd) :
    m.pagedirDestroy fmt pd = some (destroyed fmt m pd) := by
  have own := (owned.dir pd).mpr live
  have notListed : pd ∉ m.pagesOf fmt pd (List.range (fmt.pdNo fmt.physBase)) := by
    intro listed
    rcases (owned.mem_pagesOf live pd).mp listed with frame | ⟨i, table⟩
    · exact owned.pool_not_root (freeable.pool pd frame) (.inr live)
    · cases own.symm.trans table
  have used : ∀ p ∈ m.pagesOf fmt pd (List.range (fmt.pdNo fmt.physBase)), m.used p = true := by
    intro p listed
    rcases (owned.mem_pagesOf live p).mp listed with frame | ⟨i, table⟩
    · exact freeable.used p frame
    · exact (owned.inUse p _ table).1
  have notBase : pd ≠ m.initPageDir := by
    rintro rfl
    exact absurd live (by simp [owned.base_not_dir])
  rw [pagedirDestroy, if_neg (owned.root_ne (.inr live)), if_neg notBase,
    freeTables_eq (owned.nodup_pagesOf live freeable) used notListed]
  simp only [bind, Option.bind_some]
  rw [pallocFreePage_eq, Option.bind_some, freeAll_append]
  · rfl
  · rw [freeAll_used notListed]
    exact (owned.inUse pd _ own).1

/-- What keeps its owner is not freed. -/
theorem Owned.kept_of_disown (owned : m.Owned fmt owner) (live : m.dirs pd = true)
    (freeable : Freeable fmt m pd) {p : Nat} {o : Owner} (own : disown owner pd p = some o) :
    p ∉ m.pagesOf fmt pd (List.range (fmt.pdNo fmt.physBase)) ++ [pd] := by
  obtain ⟨was, notTable, notDir⟩ := disown_some own
  intro freed
  rcases List.mem_append.mp freed with listed | last
  · rcases (owned.mem_pagesOf live p).mp listed with frame | ⟨i, table⟩
    · have pool := freeable.pool p frame
      rw [(owned.inUse p o was).2.1] at pool
      cases pool
    · exact notTable i (Option.some.inj (was.symm.trans table))
  · rw [List.mem_singleton] at last
    subst last
    exact notDir (Option.some.inj (was.symm.trans ((owned.dir p).mpr live))) rfl

theorem Owned.disown_root (owned : m.Owned fmt owner) {d : Nat} (root : m.Root d) (ne : d ≠ pd) :
    ∃ o, disown owner pd d = some o := by
  rcases owned.root_owner root with own | own
  · exact ⟨_, disown_other own (fun _ => Owner.noConfusion) fun eq => by cases eq⟩
  · exact ⟨_, disown_other own (fun _ => Owner.noConfusion) fun _ => ne⟩

/-- The other page directories keep what they have. -/
theorem Owned.destroyed (owned : m.Owned fmt owner) (live : m.dirs pd = true)
    (idle : m.cr3 ≠ pd) (freeable : Freeable fmt m pd) :
    (Mmu.destroyed fmt m pd).Owned fmt (disown owner pd) := by
  have kept : ∀ p o, disown owner pd p = some o → (Mmu.destroyed fmt m pd).word p = m.word p :=
    fun p o own => freeAll_word (owned.kept_of_disown live freeable own)
  have keptUsed : ∀ p o, disown owner pd p = some o → (Mmu.destroyed fmt m pd).used p = m.used p :=
    fun p o own => by
      show (m.freeAll fmt _).used p = m.used p
      exact freeAll_used (owned.kept_of_disown live freeable own)
  have dirs : ∀ d, d ≠ pd → (Mmu.destroyed fmt m pd).dirs d = m.dirs d :=
    fun d ne => Function.update_of_ne ne _ _
  have base : m.initPageDir ≠ pd := by
    rintro rfl
    exact absurd live (by simp [owned.base_not_dir])
  have root_of : ∀ d, (Mmu.destroyed fmt m pd).Root d → m.Root d ∧ d ≠ pd := by
    intro d root
    rcases root with rfl | root
    · exact ⟨.inl rfl, base⟩
    · have ne : d ≠ pd := by
        rintro rfl
        exact absurd root (by simp [Mmu.destroyed])
      exact ⟨.inr (dirs d ne ▸ root), ne⟩
  have word : ∀ d, m.Root d → d ≠ pd → (Mmu.destroyed fmt m pd).word d = m.word d :=
    fun d root ne => (owned.disown_root root ne).elim (kept d)
  refine ⟨?_, ?_, ?_, ?_, ?_, ?_, ?_, ?_, ?_⟩
  · intro p o own
    rw [keptUsed p o own]
    exact owned.inUse p o (disown_some own).1
  · intro p
    refine ⟨fun own => (owned.base p).mp (disown_some own).1, fun eq => ?_⟩
    exact disown_other ((owned.base p).mpr eq) (fun _ => Owner.noConfusion) fun eq => by cases eq
  · intro p
    by_cases eq : p = pd
    · subst eq
      refine ⟨fun own => absurd rfl ((disown_some own).2.2 rfl), fun live => ?_⟩
      exact absurd live (by simp [Mmu.destroyed])
    · rw [dirs p eq, ← owned.dir p]
      exact ⟨fun own => (disown_some own).1,
        fun own => disown_other own (fun _ => Owner.noConfusion) fun _ => eq⟩
  · intro d root i there
    obtain ⟨root, ne⟩ := root_of d root
    rw [word d root ne] at there ⊢
    obtain ⟨linked, own⟩ := owned.linked d root i there
    refine ⟨linked, disown_other own (fun j eq => ?_) fun eq => absurd eq (seat_ne_dir d i)⟩
    unfold seat at eq
    split at eq
    · exact ne (Owner.table.inj eq).1
    · cases eq
  · intro p d i own
    obtain ⟨own, notTable, -⟩ := disown_some own
    obtain ⟨live', low, there, eq⟩ := owned.table p d i own
    have ne : d ≠ pd := fun eq => notTable i (eq ▸ rfl)
    rw [word d (.inr live') ne]
    exact ⟨(dirs d ne).trans live', low, there, eq⟩
  · intro p i own
    show (Mmu.destroyed fmt m pd).word m.initPageDir i ≠ 0 ∧
      fmt.pdeGetPt ((Mmu.destroyed fmt m pd).word m.initPageDir i) = p
    rw [word _ (.inl rfl) base]
    exact owned.kernel p i (disown_some own).1
  · intro i low
    show (Mmu.destroyed fmt m pd).word m.initPageDir i = 0
    rw [word _ (.inl rfl) base]
    exact owned.empty i low
  · intro d live' i high
    obtain ⟨root, ne⟩ := root_of d (.inr live')
    show (Mmu.destroyed fmt m pd).word d i = 0 ↔ (Mmu.destroyed fmt m pd).word m.initPageDir i = 0
    rw [word _ (.inl rfl) base, word d root ne]
    exact owned.shared d (dirs d ne ▸ live') i high
  · rcases owned.active with is | live'
    · exact .inl is
    · exact .inr ((dirs _ idle).trans live')

theorem Owned.entry_destroyed (owned : m.Owned fmt owner) (live : m.dirs pd = true)
    (freeable : Freeable fmt m pd) {d : Nat} (root : m.Root d) (ne : d ≠ pd) (vaddr : Nat) :
    (Mmu.destroyed fmt m pd).entry fmt d vaddr = m.entry fmt d vaddr := by
  apply owned.entry_congr root
  · obtain ⟨o, own⟩ := owned.disown_root root ne
    exact freeAll_word (owned.kept_of_disown live freeable own)
  · intro p i own
    refine freeAll_word (owned.kept_of_disown live freeable (disown_other own (fun j eq => ?_)
      fun eq => absurd eq (seat_ne_dir d i)))
    unfold seat at eq
    split at eq
    · exact ne (Owner.table.inj eq).1
    · cases eq

end Destroy

end Mmu

end Pintos.Userprog
