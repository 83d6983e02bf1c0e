import Pintos.Userprog.KernelMap

/-! Every page that the page directories take from the kernel pool goes back to it. -/

namespace Pintos.Userprog

open Vm

namespace Mmu

variable {fmt : PageFormat} {b m m' : Mmu} {owner : Nat → Option Owner}

/-- A page directory of a process, or one of its page tables. -/
def Belongs (fmt : PageFormat) (m : Mmu) (p : Nat) : Prop :=
  ∃ pd, m.dirs pd = true ∧ (p = pd ∨ ∃ i < fmt.pdNo fmt.physBase, m.word pd i ≠ 0 ∧
    fmt.pdeGetPt (m.word pd i) = p)

theorem Owned.belongs (owned : m.Owned fmt owner) (p : Nat) :
    Belongs fmt m p ↔ owner p = some .dir ∨ ∃ pd i, owner p = some (.table pd i) := by
  constructor
  · rintro ⟨pd, live, rfl | ⟨i, low, ne, rfl⟩⟩
    · exact .inl ((owned.dir p).mpr live)
    · have own := (owned.linked pd (.inr live) i ne).2
      rw [seat, if_pos low] at own
      exact .inr ⟨pd, i, own⟩
  · rintro (own | ⟨pd, i, own⟩)
    · exact ⟨p, (owned.dir p).mp own, .inl rfl⟩
    · obtain ⟨live, low, ne, is⟩ := owned.table p pd i own
      exact ⟨pd, live, .inr ⟨i, low, ne, is⟩⟩

/-- The pages of the kernel pool that are in use since `b`, those of page directories apart, are the
same, and the page directories took theirs since. -/
structure Accounted (fmt : PageFormat) (b m : Mmu) : Prop where
  used : ∀ p, fmt.userPool p = false →
    (m.used p = true ↔ b.used p = true ∨ Belongs fmt m p)
  since : ∀ p, Belongs fmt m p → b.used p = false

/-- Neither the page tables nor the kernel pool is different. -/
structure Steady (fmt : PageFormat) (m m' : Mmu) : Prop where
  keeps : Keeps fmt m m'
  used : ∀ p, fmt.userPool p = false → m'.used p = m.used p

theorem Steady.trans {m'' : Mmu} (first : Steady fmt m m') (second : Steady fmt m' m'') :
    Steady fmt m m'' where
  keeps :=
    { base := second.keeps.base.trans first.keeps.base
      dirs := second.keeps.dirs.trans first.keeps.dirs
      used := fun p used kernel => second.keeps.used p (first.keeps.used p used kernel) kernel
      zero := fun pd root i =>
        (second.keeps.zero pd ((first.keeps.root pd).mpr root) i).trans (first.keeps.zero pd root i)
      table := fun pd root i =>
        (second.keeps.table pd ((first.keeps.root pd).mpr root) i).trans
          (first.keeps.table pd root i)
      linked := fun pd root i linked =>
        second.keeps.linked pd ((first.keeps.root pd).mpr root) i
          (first.keeps.linked pd root i linked) }
  used p kernel := (second.used p kernel).trans (first.used p kernel)

/-- What leaves the page directories and the kernel pool alone. -/
theorem Steady.of_word (base : m'.initPageDir = m.initPageDir) (dirs : m'.dirs = m.dirs)
    (word : ∀ d, m.Root d → m'.word d = m.word d)
    (used : ∀ p, fmt.userPool p = false → m'.used p = m.used p) : Steady fmt m m' :=
  ⟨.of_word base dirs (fun p inUse kernel => (used p kernel).trans inUse) word, used⟩

theorem Steady.refl (m : Mmu) : Steady fmt m m :=
  .of_word rfl rfl (fun _ _ => rfl) fun _ _ => rfl

theorem Steady.store {p : Nat} (other : ¬m.Root p) (i : Nat) (w : Word) :
    Steady fmt m (m.store p i w) :=
  ⟨.store other i w, fun _ _ => rfl⟩

theorem Steady.activate (m : Mmu) (pd : Nat) : Steady fmt m (m.pagedirActivate pd) :=
  .of_word rfl rfl (fun _ _ => rfl) fun _ _ => rfl

theorem Steady.invalidate (m : Mmu) (pd : Nat) : Steady fmt m (m.invalidatePagedir pd) := by
  unfold invalidatePagedir
  split
  · exact .activate m pd
  · exact .refl m

theorem Steady.belongs (steady : Steady fmt m m') (p : Nat) :
    Belongs fmt m' p ↔ Belongs fmt m p := by
  unfold Belongs
  rw [steady.keeps.dirs]
  refine exists_congr fun pd => and_congr_right fun live => or_congr_right ?_
  refine exists_congr fun i => and_congr_right fun _ => ?_
  rw [steady.keeps.table pd (.inr live), ne_eq, ne_eq, steady.keeps.zero pd (.inr live)]

theorem Accounted.steady (accounted : Accounted fmt b m) (steady : Steady fmt m m') :
    Accounted fmt b m' where
  used p kernel := by
    rw [steady.used p kernel, steady.belongs p]
    exact accounted.used p kernel
  since p belongs := accounted.since p ((steady.belongs p).mp belongs)

section Calls

variable {t : Spaces} (serves : Serves fmt m t)

include serves

theorem Serves.steady_cell {pd vaddr pt i : Nat} (root : m.Root pd)
    (at_cell : m.cell fmt pd vaddr = some (pt, i)) (w : Word) : Steady fmt m (m.store pt i w) := by
  obtain ⟨owner, owned⟩ := serves.shows_.owned
  exact .store (owned.cell_used root at_cell).1 i w

theorem Serves.steady_set {b : Bit} {pd vpage : Nat} {on : Bool} (live : m.dirs pd = true)
    (run : m.pagedirSet fmt b pd vpage on = some m') : Steady fmt m m' := by
  obtain ⟨owner, owned⟩ := serves.shows_.owned
  rw [pagedirSet, lookupPage_find (owned.root_ne (.inr live))] at run
  cases at_cell : m.cell fmt pd vpage with
  | none =>
    rw [at_cell] at run
    obtain rfl := Option.some.inj run
    exact .refl m
  | some c =>
    rw [at_cell] at run
    have stored := serves.steady_cell (.inr live) at_cell (fmt.put (m.word c.1 c.2) b on)
    cases on with
    | true =>
      obtain rfl := Option.some.inj run
      exact stored
    | false =>
      obtain rfl := Option.some.inj run
      exact stored.trans (.invalidate _ pd)

theorem Serves.steady_clear {pd upage : Nat} (live : m.dirs pd = true)
    (run : m.pagedirClearPage fmt pd upage = some m') : Steady fmt m m' := by
  obtain ⟨owner, owned⟩ := serves.shows_.owned
  unfold pagedirClearPage at run
  split at run
  next =>
    rw [lookupPage_find (owned.root_ne (.inr live))] at run
    cases at_cell : m.cell fmt pd upage with
    | none =>
      rw [at_cell] at run
      obtain rfl := Option.some.inj run
      exact .refl m
    | some c =>
      rw [at_cell] at run
      simp only [bind, Option.bind_some] at run
      split at run
      · obtain rfl := Option.some.inj run
        exact (serves.steady_cell (.inr live) at_cell _).trans (.invalidate _ pd)
      · obtain rfl := Option.some.inj run
        exact .refl m
  next => cases run

theorem Serves.steady_fetch {page i : Nat} {write : Option Word}
    (pool : write.isSome = true → fmt.userPool page = true) :
    Steady fmt m (m.fetch page i write).1 := by
  obtain ⟨owner, owned⟩ := serves.shows_.owned
  cases write with
  | none => exact .refl m
  | some w => exact .store (owned.pool_not_root (pool rfl)) i w

theorem Serves.steady_walk (law : fmt.Lawful) {user : Bool} {write : Option Word} {vaddr : Nat}
    (ok : m.Careful fmt (.access user write vaddr)) :
    Steady fmt m (m.walk fmt user write vaddr).1 := by
  obtain ⟨owner, owned⟩ := serves.shows_.owned
  have walked := owned.walk_cases user write vaddr
  generalize m.walk fmt user write vaddr = result at walked ⊢
  cases walked with
  | unmapped => exact .refl m
  | denied at_cell => exact ⟨owned.keeps_marked law at_cell, fun _ _ => rfl⟩
  | @through pt i at_cell allowed =>
    have keeps := owned.keeps_marked law at_cell
    have notRoot := (owned.cell_used owned.active at_cell).1
    have entered : Steady fmt m (m.translated fmt write.isSome vaddr pt i) :=
      Steady.trans ⟨keeps, fun _ _ => rfl⟩ (.trans (.store ((keeps.root pt).not.mpr notRoot) i _)
        (.of_word rfl rfl (fun _ _ => rfl) fun _ _ => rfl))
    have reaches : Reaches fmt (m.word pt i) vaddr :=
      entry_some at_cell ▸ serves.shows_.reaches _ owned.active vaddr
    refine entered.trans ?_
    cases write with
    | none => exact .refl _
    | some w =>
      refine .store ?_ _ _
      rw [entered.keeps.root, pteGetPage_touchedWord law]
      exact owned.pool_not_root (reaches.pool allowed ok rfl)

theorem Serves.steady_access (law : fmt.Lawful) {user : Bool} {write : Option Word} {vaddr : Nat}
    (ok : m.Careful fmt (.access user write vaddr)) :
    Steady fmt m (m.access fmt user write vaddr).1 := by
  unfold Mmu.access
  cases held : m.tlb (fmt.page vaddr) with
  | none => exact serves.steady_walk law ok
  | some w =>
    have reach := (serves.cached _ w held).2.2.1
    have reaches : Reaches fmt w vaddr := by
      unfold Reaches PageFormat.isUserVaddr at reach ⊢
      simpa only [law.user_page, law.page_page] using reach
    by_cases allowed : permits fmt w user write.isSome = true
    · simp only [if_pos allowed]
      split
      · exact serves.steady_walk law ok
      · exact serves.steady_fetch fun some => reaches.pool allowed ok some
    · simp only [if_neg allowed]
      exact .of_word rfl rfl (fun _ _ => rfl) fun _ _ => rfl

/-- All calls but those that take or free pages of the kernel pool. -/
theorem Serves.steady_call (law : fmt.Lawful) {c : PageCall} {answer : PageAnswer}
    (ok : m.Careful fmt c) (run : m.call fmt c = some (m', answer)) :
    Steady fmt m m' ∨ (∃ page, c = .create page) ∨ (∃ pd, c = .destroy pd) ∨
      ∃ pd upage kpage writable page, c = .setPage pd upage kpage writable page := by
  obtain ⟨owner, owned⟩ := serves.shows_.owned
  cases c with
  | create page => exact .inr (.inl ⟨page, rfl⟩)
  | destroy pd => exact .inr (.inr (.inl ⟨pd, rfl⟩))
  | setPage pd upage kpage writable page => exact .inr (.inr (.inr ⟨_, _, _, _, _, rfl⟩))
  | getPage pd uaddr =>
    obtain ⟨kaddr, -, eq⟩ := Option.map_eq_some_iff.mp run
    cases eq
    exact .inl (.refl m)
  | isDirty pd vpage =>
    obtain ⟨b, -, eq⟩ := Option.map_eq_some_iff.mp run
    cases eq
    exact .inl (.refl m)
  | isAccessed pd vpage =>
    obtain ⟨b, -, eq⟩ := Option.map_eq_some_iff.mp run
    cases eq
    exact .inl (.refl m)
  | clearPage pd upage =>
    obtain ⟨mmu, cleared, eq⟩ := Option.map_eq_some_iff.mp run
    cases eq
    exact .inl (serves.steady_clear ok.1 cleared)
  | setDirty pd vpage on =>
    obtain ⟨mmu, set, eq⟩ := Option.map_eq_some_iff.mp run
    cases eq
    exact .inl (serves.steady_set ok.1 set)
  | setAccessed pd vpage on =>
    obtain ⟨mmu, set, eq⟩ := Option.map_eq_some_iff.mp run
    cases eq
    exact .inl (serves.steady_set ok.1 set)
  | setWritable pd vpage on =>
    obtain ⟨mmu, set, eq⟩ := Option.map_eq_some_iff.mp run
    cases eq
    exact .inl (serves.steady_set ok.1 set)
  | activate pd =>
    cases run
    exact .inl (.activate m pd)
  | getFrame page zero =>
    cases run
    refine .inl ?_
    cases page with
    | none => exact .refl m
    | some p =>
      have pool := (ok p rfl).2.2
      refine .of_word rfl rfl (fun d root => ?_) fun q kernel => ?_
      · have ne : d ≠ p := by
          rintro rfl
          exact owned.pool_not_root pool root
        cases zero <;> simp [pallocGetPage, ne]
      · have ne : q ≠ p := by
          rintro rfl
          simp [pool] at kernel
        simp [pallocGetPage, ne]
  | freeFrame p =>
    obtain ⟨used, pool⟩ := ok
    rw [Mmu.call, pallocFreePage, if_pos used] at run
    cases run
    refine .inl (.of_word rfl rfl (fun d root => ?_) fun q kernel => ?_)
    · have ne : d ≠ p := by
        rintro rfl
        exact owned.pool_not_root pool root
      simp [ne]
    · have ne : q ≠ p := by
        rintro rfl
        simp [pool] at kernel
      simp [ne]
  | access user write vaddr =>
    cases run
    exact .inl (serves.steady_access law ok)
  | forget vaddr =>
    cases run
    exact .inl (.of_word rfl rfl (fun _ _ => rfl) fun _ _ => rfl)

end Calls

section Accounts

/-- A page of the kernel pool that nobody has is not in use since `b` either. -/
theorem Accounted.unused (accounted : Accounted fmt b m) {p : Nat} (kernel : fmt.userPool p = false)
    (unused : m.used p = false) : b.used p = false := by
  cases was : b.used p with
  | false => rfl
  | true => rw [(accounted.used p kernel).mpr (.inl was)] at unused; cases unused

/-- A page of the kernel pool gets an owner. -/
theorem Accounted.claim (accounted : Accounted fmt b m) {p : Nat} (kernel : fmt.userPool p = false)
    (unused : m.used p = false) (used : m'.used = Function.update m.used p true)
    (belongs : ∀ q, Belongs fmt m' q ↔ q = p ∨ Belongs fmt m q) : Accounted fmt b m' where
  used q kernel' := by
    rw [belongs q, used]
    by_cases eq : q = p
    · simp [eq]
    · rw [Function.update_of_ne eq, accounted.used q kernel']
      simp [eq]
  since q has := by
    rcases (belongs q).mp has with rfl | old
    · exact accounted.unused kernel unused
    · exact accounted.since q old

theorem Accounted.create (accounted : Accounted fmt b m) (owned : m.Owned fmt owner)
    {page : Option Nat} (ok : m.Fresh fmt page) : Accounted fmt b (m.pagedirCreate page).1 := by
  cases page with
  | none => exact accounted
  | some p =>
    obtain ⟨ram, unused, kernel⟩ := ok p rfl
    refine accounted.claim kernel unused rfl fun q => ?_
    rw [(owned.create ram unused kernel).belongs, owned.belongs]
    by_cases eq : q = p
    · simp [eq]
    · simp [eq]

theorem Accounted.newTable (accounted : Accounted fmt b m) (owned : m.Owned fmt owner)
    (law : fmt.Lawful) {pd i pt : Nat} (live : m.dirs pd = true)
    (low : i < fmt.pdNo fmt.physBase) (free : m.word pd i = 0) (ram : fmt.Ram pt)
    (unused : m.used pt = false) (kernel : fmt.userPool pt = false) :
    Accounted fmt b (Mmu.newTable fmt m pd i pt) := by
  refine accounted.claim kernel unused rfl fun q => ?_
  rw [(owned.newTable law live low free ram unused kernel).belongs, owned.belongs]
  by_cases eq : q = pt
  · simp [eq]
  · simp [eq]

theorem Accounted.destroy (accounted : Accounted fmt b m) (owned : m.Owned fmt owner) {pd : Nat}
    (live : m.dirs pd = true) (idle : m.cr3 ≠ pd) (freeable : Freeable fmt m pd) :
    Accounted fmt b (destroyed fmt m pd) := by
  let pages := m.pagesOf fmt pd (List.range (fmt.pdNo fmt.physBase)) ++ [pd]
  have used : ∀ q, (destroyed fmt m pd).used q = (m.used q && !pages.contains q) := fun _ => rfl
  have freed : ∀ q, fmt.userPool q = false → (q ∈ pages ↔ q = pd ∨
      ∃ i, owner q = some (.table pd i)) := by
    intro q kernel
    rw [List.mem_append, owned.mem_pagesOf live, List.mem_singleton]
    constructor
    · rintro ((frame | table) | is)
      · simp [freeable.pool q frame] at kernel
      · exact .inr table
      · exact .inl is
    · rintro (is | table)
      · exact .inr is
      · exact .inl (.inr table)
  have belongs : ∀ q, fmt.userPool q = false →
      (Belongs fmt (destroyed fmt m pd) q ↔ Belongs fmt m q ∧ q ∉ pages) := by
    intro q kernel
    rw [(owned.destroyed live idle freeable).belongs, owned.belongs, freed q kernel]
    constructor
    · rintro (own | ⟨d, i, own⟩)
      · obtain ⟨was, -, ne⟩ := disown_some own
        refine ⟨.inl was, ?_⟩
        rintro (is | ⟨i, table⟩)
        · exact ne rfl is
        · cases was.symm.trans table
      · obtain ⟨was, ne, -⟩ := disown_some own
        refine ⟨.inr ⟨d, i, was⟩, ?_⟩
        rintro (rfl | ⟨j, table⟩)
        · cases was.symm.trans ((owned.dir q).mpr live)
        · exact ne j (Option.some.inj (was.symm.trans table))
    · rintro ⟨own | ⟨d, i, own⟩, kept⟩
      · exact .inl (disown_other own (fun _ => Owner.noConfusion) fun _ is => kept (.inl is))
      · refine .inr ⟨d, i, disown_other own (fun j eq => ?_) Owner.noConfusion⟩
        obtain ⟨rfl, rfl⟩ := Owner.table.inj eq
        exact kept (.inr ⟨i, own⟩)
  have kernelOf : ∀ q, Belongs fmt (destroyed fmt m pd) q → fmt.userPool q = false := by
    intro q has
    rcases ((owned.destroyed live idle freeable).belongs q).mp has with own | ⟨d, i, own⟩
    · exact (owned.inUse q _ (disown_some own).1).2.1
    · exact (owned.inUse q _ (disown_some own).1).2.1
  refine ⟨fun q kernel => ?_, fun q has => ?_⟩
  · rw [used, belongs q kernel, Bool.and_eq_true, accounted.used q kernel]
    constructor
    · rintro ⟨before | own, kept⟩
      · exact .inl before
      · exact .inr ⟨own, by simpa using kept⟩
    · rintro (before | ⟨own, kept⟩)
      · refine ⟨.inl before, ?_⟩
        have kept : q ∉ pages := by
          intro inside
          have own : Belongs fmt m q := by
            rw [owned.belongs]
            rcases (freed q kernel).mp inside with rfl | ⟨i, table⟩
            · exact .inl ((owned.dir q).mpr live)
            · exact .inr ⟨pd, i, table⟩
          rw [accounted.since q own] at before
          cases before
        simpa using kept
      · exact ⟨.inr own, by simpa using kept⟩
  · exact accounted.since q ((belongs q (kernelOf q has)).mp has).1

theorem Accounted.setPage {t : Spaces} (accounted : Accounted fmt b m) (serves : Serves fmt m t)
    (law : fmt.Lawful) {pd upage kpage : Nat} {writable : Bool} {page : Option Nat}
    {answer : PageAnswer} (ok : m.Careful fmt (.setPage pd upage kpage writable page))
    (run : m.call fmt (.setPage pd upage kpage writable page) = some (m', answer)) :
    Accounted fmt b m' := by
  obtain ⟨live, -, user, -, -, -, fresh⟩ := ok
  obtain ⟨owner, owned⟩ := serves.shows_.owned
  obtain ⟨mid, c, looked, found⟩ := owned.lookupPage_create law live user fresh
  have grown : Accounted fmt b mid := by
    rcases found.grown with rfl | ⟨pt, rfl, free, rfl⟩
    · exact accounted
    · obtain ⟨ram, unused, kernel⟩ := fresh pt rfl
      exact accounted.newTable owned law live ((law.user_iff _).mp user) free ram unused kernel
  obtain ⟨ownerMid, ownedMid⟩ := found.owned
  have liveMid : mid.dirs pd = true := found.dirs ▸ live
  obtain ⟨⟨mmu, ok⟩, set, eq⟩ := Option.map_eq_some_iff.mp run
  cases eq
  unfold pagedirSetPage at set
  split at set
  next =>
    rw [looked] at set
    cases c with
    | none =>
      cases set
      exact grown
    | some c =>
      simp only [bind, Option.bind_some] at set
      split at set
      · cases set
      · cases set
        exact grown.steady (.store (ownedMid.cell_used (.inr liveMid) found.cell).1 _ _)
  next => cases set

theorem Accounted.call {t : Spaces} (accounted : Accounted fmt b m) (serves : Serves fmt m t)
    (law : fmt.Lawful) {c : PageCall} {answer : PageAnswer} (ok : m.Careful fmt c)
    (run : m.call fmt c = some (m', answer)) : Accounted fmt b m' := by
  obtain ⟨owner, owned⟩ := serves.shows_.owned
  rcases serves.steady_call law ok run with steady | ⟨page, rfl⟩ | ⟨pd, rfl⟩ |
    ⟨pd, upage, kpage, writable, page, rfl⟩
  · exact accounted.steady steady
  · cases run
    exact accounted.create owned ok
  · obtain ⟨mmu, destroyed, eq⟩ := Option.map_eq_some_iff.mp run
    cases eq
    rcases ok with rfl | ⟨live, idle, freeable⟩
    · rw [pagedirDestroy, if_pos rfl] at destroyed
      cases destroyed
      exact accounted
    · rw [owned.pagedirDestroy_eq live freeable] at destroyed
      cases destroyed
      exact accounted.destroy owned live idle freeable
  · exact accounted.setPage serves law ok run

end Accounts

end Mmu

/-- The pages of the kernel pool that are in use are those that were after `paging_init`, the page
directories that are not destroyed and their page tables; when the page directories are gone, so is
all that they took. -/
theorem page_directories_return_pages {fmt : PageFormat} {m b : Mmu} (law : fmt.Lawful)
    {start endText : Nat} {pages : List Nat} (alone : ∀ d, m.dirs d = false)
    (supply : Mmu.Supply fmt m pages) (run : m.pagingInit fmt start endText pages = some b)
    (calls : List PageCall) (meets : Simulation.Meets (Mmu.call fmt) (Mmu.Careful fmt) b calls) :
    ∃ b' answers, Simulation.run (Mmu.call fmt) b calls = some (b', answers) ∧
      (∀ p, fmt.userPool p = false →
        (b'.used p = true ↔ b.used p = true ∨ Mmu.Belongs fmt b' p)) ∧
      ((∀ pd, b'.dirs pd = false) → ∀ p, fmt.userPool p = false → b'.used p = b.used p) := by
  have serves := pagingInit_serves law alone supply run
  have none : ∀ p, ¬Mmu.Belongs fmt b p := by
    rintro p ⟨pd, live, -⟩
    have space := serves.shows_.live pd
    rw [live] at space
    cases space
  have start : Mmu.Accounted fmt b b :=
    ⟨fun p _ => by simp [none p], fun p has => absurd has (none p)⟩
  have steps : ∀ m t c, Mmu.Serves fmt m t ∧ Mmu.Accounted fmt b m → m.Careful fmt c →
      Simulation.Follows (Mmu.call fmt) (Spaces.Admits fmt)
        (fun m t => Mmu.Serves fmt m t ∧ Mmu.Accounted fmt b m) m t c := by
    rintro m t c ⟨serves, accounted⟩ ok
    obtain ⟨m', answer, t', call, admitted, serves'⟩ := serves.call law ok
    exact ⟨m', answer, t', call, admitted, serves', accounted.call serves law ok call⟩
  obtain ⟨b', answers, t, ran, -, -, accounted⟩ :=
    Simulation.run_admitted steps ⟨serves, start⟩ calls meets
  refine ⟨b', answers, ran, accounted.used, fun gone p kernel => ?_⟩
  have same := accounted.used p kernel
  have empty : ¬Mmu.Belongs fmt b' p := by
    rintro ⟨pd, live, -⟩
    rw [gone pd] at live
    cases live
  rw [or_iff_left empty] at same
  exact Bool.eq_iff_iff.mpr same

theorem page_directories_return_pages_process : ∃ b b' answers,
    beforePaging.pagingInit smallFormat (pageAt 32) (pageAt 40) [pageAt 1, pageAt 2] = some b ∧
      Simulation.run (Mmu.call smallFormat) b processRun = some (b', answers) ∧
      ((∀ pd, b'.dirs pd = false) →
        ∀ p, smallFormat.userPool p = false → b'.used p = b.used p) := by
  obtain ⟨b, run, meets⟩ := (Option.any_eq_true _ _).mp processRun_meets
  obtain ⟨b', answers, ran, -, returned⟩ := page_directories_return_pages
    (Ia32.format_lawful _ (by decide)) (fun _ => rfl) supply_small run processRun
    (of_decide_eq_true meets)
  exact ⟨b, b', answers, run, ran, returned⟩

end Pintos.Userprog
