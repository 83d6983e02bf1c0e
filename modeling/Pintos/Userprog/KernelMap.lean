import Pintos.Userprog.Ia32
import Pintos.Userprog.Translation

/-! `paging_init` maps each page of memory to itself, and the address spaces start from there. -/

namespace Pintos.Userprog

open Vm

namespace Mmu

variable {fmt : PageFormat} {m : Mmu} {owner : Nat → Option Owner}

/-- A page table of the kernel, while no process has a page directory. -/
theorem Owned.newKernelTable (owned : m.Owned fmt owner) (law : fmt.Lawful)
    (alone : ∀ d, m.dirs d = false) {i pt : Nat} (high : fmt.pdNo fmt.physBase ≤ i)
    (free : m.word m.initPageDir i = 0) (page : fmt.Ram pt) (unused : m.used pt = false)
    (kernel : fmt.userPool pt = false) :
    (Mmu.newTable fmt m m.initPageDir i pt).Owned fmt
      (Function.update owner pt (some (.kernel i))) := by
  have fresh := owned.fresh unused
  obtain ⟨linked, reads⟩ := law.pde pt page
  have base : m.initPageDir ≠ pt := owned.root_ne_fresh unused (.inl rfl)
  have old : ∀ j, j ≠ i → (Mmu.newTable fmt m m.initPageDir i pt).word m.initPageDir j =
      m.word m.initPageDir j := fun j ne => by
    rw [newTable_word, if_neg fun here => ne here.2, if_neg base]
  have noDir : ∀ d, (Mmu.newTable fmt m m.initPageDir i pt).dirs d = false := alone
  have unclaimed : ∀ q o, q ≠ pt → (Function.update owner pt (some (.kernel i)) q = some o ↔
      owner q = some o) := fun q o ne' => by rw [Function.update_of_ne ne']
  refine ⟨?_, ?_, ?_, ?_, ?_, ?_, ?_, ?_, owned.active⟩
  · intro q o has
    by_cases eq : q = pt
    · subst eq
      exact ⟨by simp [Mmu.newTable, Mmu.store, pallocGetPage], kernel, page.1⟩
    · obtain ⟨used, rest⟩ := owned.inUse q o ((unclaimed q o eq).mp has)
      exact ⟨by simpa [Mmu.newTable, Mmu.store, pallocGetPage, eq] using used, rest⟩
  · intro q
    exact (claimed fresh Owner.noConfusion q).trans (owned.base q)
  · intro q
    exact (claimed fresh Owner.noConfusion q).trans (owned.dir q)
  · intro d root j there
    obtain rfl : d = m.initPageDir := root.resolve_right (by simp [noDir])
    by_cases here : j = i
    · subst here
      rw [newTable_slot, reads, Function.update_self, seat, if_neg (Nat.not_lt.mpr high)]
      exact ⟨linked, rfl⟩
    · rw [old j here] at there ⊢
      obtain ⟨linked, has⟩ := owned.linked _ (.inl rfl) j there
      rw [unclaimed _ _ (owned.ne_fresh unused has)]
      exact ⟨linked, has⟩
  · intro q d j has
    have live := (owned.table q d j ((claimed fresh Owner.noConfusion q).mp has)).1
    simp [alone] at live
  · intro q j has
    show (Mmu.newTable fmt m m.initPageDir i pt).word m.initPageDir j ≠ 0 ∧
      fmt.pdeGetPt ((Mmu.newTable fmt m m.initPageDir i pt).word m.initPageDir j) = q
    by_cases eq : q = pt
    · subst eq
      rw [Function.update_self] at has
      obtain rfl := Owner.kernel.inj (Option.some.inj has)
      rw [newTable_slot]
      exact ⟨linked.ne_zero, reads⟩
    · obtain ⟨there, is⟩ := owned.kernel q j ((unclaimed q _ eq).mp has)
      have ne : j ≠ i := by
        rintro rfl
        exact there free
      rw [old j ne]
      exact ⟨there, is⟩
  · intro j low
    exact (old j (by omega)).trans (owned.empty j low)
  · intro d live
    simp [noDir] at live

section Loop

variable (fmt) (text : Nat → Bool)

/-- After the first `n` pages of memory: each is mapped to itself, the page table of the last one is
`pt`, and there are page tables for the first `tables` pages. -/
structure Mapping (m : Mmu) (n tables pt : Nat) : Prop where
  owned : ∃ owner, (m.pagedirActivate 0).Owned fmt owner
  alone : ∀ d, m.dirs d = false
  entry : ∀ v, m.entry fmt m.initPageDir v =
    if ∃ k < n, fmt.page v = fmt.ptov (k * pgsize)
      then fmt.pteCreateKernel (fmt.page v) !text (fmt.page v)
    else 0
  last : ∀ k, k + 1 = tables →
    fmt.pdeGetPt (m.word m.initPageDir (fmt.pdNo (fmt.ptov (k * pgsize)))) = pt
  slots : ∀ i, m.word m.initPageDir i ≠ 0 → ∃ k < tables, fmt.pdNo (fmt.ptov (k * pgsize)) = i

variable {fmt text} {n tables pt : Nat}

theorem Mapping.page (law : fmt.Lawful) {k : Nat} (bound : k < fmt.initRamPages) :
    fmt.page (fmt.ptov (k * pgsize)) = fmt.ptov (k * pgsize) ∧
      fmt.physBase ≤ fmt.ptov (k * pgsize) := by
  have ram := law.ram k bound
  exact ⟨by rw [PageFormat.page, ram.2.1, Nat.sub_zero], ram.2.2.1⟩

/-- The next page has a page table already. -/
theorem Mapping.cell (mapping : Mapping fmt text m n n pt) (law : fmt.Lawful)
    (bound : n < fmt.initRamPages)
    (there : m.word m.initPageDir (fmt.pdNo (fmt.ptov (n * pgsize))) ≠ 0) :
    fmt.pdeGetPt (m.word m.initPageDir (fmt.pdNo (fmt.ptov (n * pgsize)))) = pt := by
  obtain ⟨k, before, slot⟩ := mapping.slots _ there
  obtain ⟨last, rfl⟩ : ∃ last, n = last + 1 := ⟨n - 1, by omega⟩
  have low := law.pdNo_le k last (by omega) (by omega)
  have high := law.pdNo_le last (last + 1) (by omega) bound
  have same : fmt.pdNo (fmt.ptov ((last + 1) * pgsize)) = fmt.pdNo (fmt.ptov (last * pgsize)) := by
    omega
  rw [same]
  exact mapping.last last rfl

/-- The next page is mapped. -/
theorem Mapping.store (mapping : Mapping fmt text m n tables pt) (law : fmt.Lawful)
    (bound : n < fmt.initRamPages) (within : tables ≤ n + 1)
    (there : m.word m.initPageDir (fmt.pdNo (fmt.ptov (n * pgsize))) ≠ 0)
    (is : fmt.pdeGetPt (m.word m.initPageDir (fmt.pdNo (fmt.ptov (n * pgsize)))) = pt) :
    Mapping fmt text (m.store pt (fmt.ptNo (fmt.ptov (n * pgsize)))
      (fmt.pteCreateKernel (fmt.ptov (n * pgsize)) !text (fmt.ptov (n * pgsize)))) (n + 1) (n + 1)
        pt := by
  obtain ⟨owner, owned⟩ := mapping.owned
  obtain ⟨page, kernel⟩ := Mapping.page law bound
  have at_cell : (m.pagedirActivate 0).cell fmt m.initPageDir (fmt.ptov (n * pgsize)) =
      some (pt, fmt.ptNo (fmt.ptov (n * pgsize))) := by
    rw [← is]
    exact if_neg there
  have root : (m.pagedirActivate 0).Root m.initPageDir := .inl rfl
  have notRoot := (owned.cell_used root at_cell).1
  have keeps : Keeps fmt (m.pagedirActivate 0) ((m.pagedirActivate 0).store pt
      (fmt.ptNo (fmt.ptov (n * pgsize)))
      (fmt.pteCreateKernel (fmt.ptov (n * pgsize)) !text (fmt.ptov (n * pgsize)))) :=
    .store notRoot _ _
  have word : ∀ i w, (m.store pt i w).word m.initPageDir = m.word m.initPageDir := by
    intro i w
    have ne : m.initPageDir ≠ pt := by
      rintro rfl
      exact notRoot root
    exact Function.update_of_ne ne _ _
  refine ⟨⟨owner, keeps.owned owned owned.active⟩, mapping.alone, fun v => ?_, ?_, ?_⟩
  · refine (owned.entry_store law root root at_cell _ v).trans ?_
    rw [page]
    by_cases here : fmt.page v = fmt.ptov (n * pgsize)
    · rw [if_pos ⟨here, fun _ => rfl⟩, if_pos ⟨n, Nat.lt_succ_self n, here⟩, here]
    · rw [if_neg fun both => here both.1]
      refine (mapping.entry v).trans ?_
      have same : (∃ k < n, fmt.page v = fmt.ptov (k * pgsize)) ↔
          ∃ k < n + 1, fmt.page v = fmt.ptov (k * pgsize) := by
        constructor
        · rintro ⟨k, before, is⟩
          exact ⟨k, by omega, is⟩
        · rintro ⟨k, before, at_k⟩
          have ne : k ≠ n := by
            rintro rfl
            exact here at_k
          exact ⟨k, by omega, at_k⟩
      simp only [same]
  · intro k last
    obtain rfl : k = n := by omega
    show fmt.pdeGetPt ((m.store pt _ _).word m.initPageDir _) = pt
    rw [word, is]
  · intro i ne
    have ne : (m.store pt _ _).word m.initPageDir i ≠ 0 := ne
    rw [word] at ne
    obtain ⟨k, before, slot⟩ := mapping.slots i ne
    exact ⟨k, by omega, slot⟩

/-- The next page gets a page table. -/
theorem Mapping.newTable (mapping : Mapping fmt text m n n pt) (law : fmt.Lawful)
    (bound : n < fmt.initRamPages) {p : Nat}
    (free : m.word m.initPageDir (fmt.pdNo (fmt.ptov (n * pgsize))) = 0) (ram : fmt.Ram p)
    (unused : m.used p = false) (kernel : fmt.userPool p = false) :
    Mapping fmt text (Mmu.newTable fmt m m.initPageDir (fmt.pdNo (fmt.ptov (n * pgsize))) p) n
      (n + 1) p := by
  obtain ⟨owner, owned⟩ := mapping.owned
  have high : fmt.pdNo fmt.physBase ≤ fmt.pdNo (fmt.ptov (n * pgsize)) :=
    Nat.le_of_not_lt fun low => by
      have user := (law.user_iff _).mpr low
      have := (Mapping.page law bound).2
      omega
  have owned' := owned.newKernelTable law mapping.alone high free ram unused kernel
  have base : m.initPageDir ≠ p := owned.root_ne_fresh unused (.inl rfl)
  refine ⟨⟨_, owned'⟩, mapping.alone, fun v => ?_, ?_, ?_⟩
  · exact (owned.entry_newTable law (.inl rfl) free ram unused (.inl rfl) v).trans (mapping.entry v)
  · intro k last
    obtain rfl : k = n := by omega
    show fmt.pdeGetPt ((Mmu.newTable fmt m m.initPageDir _ p).word m.initPageDir _) = p
    rw [newTable_slot]
    exact (law.pde p ram).2
  · intro i ne
    have ne : (Mmu.newTable fmt m m.initPageDir _ p).word m.initPageDir i ≠ 0 := ne
    by_cases here : i = fmt.pdNo (fmt.ptov (n * pgsize))
    · exact ⟨n, Nat.lt_succ_self n, here.symm⟩
    · rw [newTable_word, if_neg fun both => here both.2, if_neg base] at ne
      obtain ⟨k, before, slot⟩ := mapping.slots i ne
      exact ⟨k, by omega, slot⟩

/-- What `palloc_get_page` may give, in order. -/
structure Supply (fmt : PageFormat) (m : Mmu) (pages : List Nat) : Prop where
  nodup : pages.Nodup
  ram : ∀ p ∈ pages, fmt.Ram p
  unused : ∀ p ∈ pages, m.used p = false
  kernel : ∀ p ∈ pages, fmt.userPool p = false

theorem mapPages_maps (law : fmt.Lawful) {len : Nat} {pages : List Nat} {m' : Mmu}
    (mapping : Mapping fmt text m n n pt) (bound : n + len = fmt.initRamPages)
    (supply : Supply fmt m pages)
    (run : mapPages fmt text (List.range' n len) pages pt m = some m') :
    m'.initPageDir = m.initPageDir ∧
      ∃ pt', Mapping fmt text m' fmt.initRamPages fmt.initRamPages pt' := by
  induction len generalizing n pages pt m with
  | zero =>
    obtain rfl : n = fmt.initRamPages := bound
    cases run
    exact ⟨rfl, pt, mapping⟩
  | succ len ih =>
    rw [List.range'_succ] at run
    unfold mapPages at run
    have below : n < fmt.initRamPages := by omega
    dsimp only at run
    split at run
    next free =>
      cases pages with
      | nil => cases run
      | cons p pages =>
        obtain ⟨new, nodup⟩ := List.nodup_cons.mp supply.nodup
        have ram := supply.ram p List.mem_cons_self
        have unused := supply.unused p List.mem_cons_self
        have kernel := supply.kernel p List.mem_cons_self
        have tables := mapping.newTable law below free ram unused kernel
        have linked := (law.pde p ram).1
        have slot : (Mmu.newTable fmt m m.initPageDir (fmt.pdNo (fmt.ptov (n * pgsize))) p).word
            m.initPageDir (fmt.pdNo (fmt.ptov (n * pgsize))) = fmt.pdeCreate p := newTable_slot
        have stored := tables.store law below (Nat.le_refl _)
          (by
            show (Mmu.newTable fmt m m.initPageDir _ p).word m.initPageDir _ ≠ 0
            rw [slot]
            exact linked.ne_zero)
          (tables.last n rfl)
        have still : ∀ q ∈ pages, (Mmu.newTable fmt m m.initPageDir
            (fmt.pdNo (fmt.ptov (n * pgsize))) p).used q = false := by
          intro q later
          have ne : q ≠ p := by
            rintro rfl
            exact new later
          have unused := supply.unused q (List.mem_cons_of_mem _ later)
          simpa [Mmu.newTable, Mmu.store, pallocGetPage, ne] using unused
        obtain ⟨base, rest⟩ := ih stored (by omega)
          ⟨nodup, fun q later => supply.ram q (List.mem_cons_of_mem _ later), still,
            fun q later => supply.kernel q (List.mem_cons_of_mem _ later)⟩ run
        exact ⟨base, rest⟩
    next there =>
      have stored := mapping.store law below (Nat.le_succ n) there (mapping.cell law below there)
      obtain ⟨base, rest⟩ := ih stored (by omega)
        ⟨supply.nodup, supply.ram, supply.unused, supply.kernel⟩ run
      exact ⟨base, rest⟩

end Loop

/-- The base page directory before the loop. -/
theorem Mapping.start {text : Nat → Bool} {p : Nat} (alone : ∀ d, m.dirs d = false)
    (ram : fmt.Ram p) (kernel : fmt.userPool p = false) :
    Mapping fmt text { m.pallocGetPage (some p) true with initPageDir := p } 0 0 0 := by
  let base : Mmu := { m.pallocGetPage (some p) true with initPageDir := p }
  have empty : ∀ i, base.word p i = 0 := fun i => by simp [base, pallocGetPage]
  have owner : ∀ q o, Function.update (fun _ => none) p (some Owner.base) q = some o →
      q = p ∧ o = .base := by
    intro q o own
    rw [Function.update_apply] at own
    split at own
    next eq => exact ⟨eq, (Option.some.inj own).symm⟩
    next => cases own
  have root : ∀ d, base.Root d → d = p := fun d root => root.resolve_right (by
    show ¬m.dirs d = true
    simp [alone])
  refine ⟨⟨Function.update (fun _ => none) p (some Owner.base), ?_, ?_, ?_, ?_, ?_, ?_, ?_, ?_,
    .inl rfl⟩, alone, fun v => ?_, ?_, fun i ne => absurd (empty i) ne⟩
  · intro q o own
    obtain ⟨rfl, -⟩ := owner q o own
    exact ⟨by simp [pallocGetPage, pagedirActivate], kernel, ram.1⟩
  · intro q
    refine ⟨fun own => (owner q _ own).1, ?_⟩
    rintro rfl
    exact Function.update_self ..
  · intro q
    refine ⟨fun own => Owner.noConfusion (owner q _ own).2, fun live => ?_⟩
    have live : m.dirs q = true := live
    simp [alone] at live
  · intro d is i ne
    obtain rfl := root d is
    exact absurd (empty i) ne
  · intro q d i own
    exact Owner.noConfusion (owner q _ own).2
  · intro q i own
    exact Owner.noConfusion (owner q _ own).2
  · exact fun i _ => empty i
  · intro d live
    have live : m.dirs d = true := live
    simp [alone] at live
  · have none : base.cell fmt p v = none := if_pos (empty _)
    refine (entry_none none).trans (if_neg ?_).symm
    rintro ⟨k, before, -⟩
    omega
  · intro k last
    omega

end Mmu

/-- What the address spaces are when the kernel starts: the kernel has each page of memory at its
own address, and may write to all but its text. -/
def Spaces.boot (fmt : PageFormat) (text : Nat → Bool) (m : Mmu) : Spaces where
  space _ := none
  kernel u := if ∃ k < fmt.initRamPages, u = fmt.ptov (k * pgsize)
    then ⟨true, u, !text u, false, false⟩ else Pte.blank
  lifted _ _ := false
  memory := m.word
  frames := m.used
  active := 0

theorem pagingInit_serves {fmt : PageFormat} {m b : Mmu} (law : fmt.Lawful) {start endText : Nat}
    {pages : List Nat} (alone : ∀ d, m.dirs d = false) (supply : Mmu.Supply fmt m pages)
    (run : m.pagingInit fmt start endText pages = some b) :
    Mmu.Serves fmt b (.boot fmt (fun v => start ≤ v && v < endText) b) := by
  cases pages with
  | nil => cases run
  | cons pd pages =>
    obtain ⟨new, nodup⟩ := List.nodup_cons.mp supply.nodup
    obtain ⟨m', loop, rfl⟩ := Option.map_eq_some_iff.mp run
    rw [List.range_eq_range'] at loop
    obtain ⟨base, pt, mapping⟩ := Mmu.mapPages_maps law
      (.start alone (supply.ram pd List.mem_cons_self) (supply.kernel pd List.mem_cons_self))
      (Nat.zero_add _)
      ⟨nodup, fun q later => supply.ram q (List.mem_cons_of_mem _ later), fun q later => by
        have ne : q ≠ pd := by
          rintro rfl
          exact new later
        have unused := supply.unused q (List.mem_cons_of_mem _ later)
        simpa [Mmu.pallocGetPage, ne] using unused,
        fun q later => supply.kernel q (List.mem_cons_of_mem _ later)⟩ loop
    have base : m'.initPageDir = pd := base
    have same : m'.pagedirActivate pd = m'.pagedirActivate 0 := by
      unfold Mmu.pagedirActivate
      rw [base]
      split <;> rfl
    obtain ⟨owner, owned⟩ := mapping.owned
    have root : ∀ d, (m'.pagedirActivate 0).Root d → d = m'.initPageDir := fun d root =>
      root.resolve_right (by
        show ¬m'.dirs d = true
        simp [mapping.alone])
    rw [same]
    refine ⟨⟨⟨owner, owned⟩, fun d => (mapping.alone d).symm, ?_, ?_, fun _ _ => rfl,
      fun _ _ => rfl, ?_⟩, .empty⟩
    · intro d is v
      obtain rfl := root d is
      have entry : (m'.pagedirActivate 0).entry fmt m'.initPageDir v = _ := mapping.entry v
      have named : (m'.pagedirActivate 0).name m'.initPageDir = 0 := if_pos rfl
      rw [entry, named, Spaces.entry]
      by_cases mapped : ∃ k < fmt.initRamPages, fmt.page v = fmt.ptov (k * pgsize)
      · rw [if_pos mapped]
        obtain ⟨k, bound, at_k⟩ := mapped
        obtain ⟨points, bits⟩ := law.kernelPte _
          (!(decide (start ≤ fmt.page v) && decide (fmt.page v < endText))) (at_k ▸ law.ram k bound)
        have high : ¬fmt.page v < fmt.physBase := by
          rw [at_k]
          exact Nat.not_lt.mpr (Mmu.Mapping.page law bound).2
        rw [if_neg high]
        refine (if_pos ⟨k, bound, at_k⟩).trans ?_
        simp only [PageFormat.pte, bits, points, if_true]
      · rw [if_neg mapped, PageFormat.pte_zero]
        split
        · rfl
        · exact if_neg mapped
    · intro d is v
      obtain rfl := root d is
      have entry : (m'.pagedirActivate 0).entry fmt m'.initPageDir v = _ := mapping.entry v
      rw [entry]
      split
      next mapped =>
        obtain ⟨k, bound, at_k⟩ := mapped
        obtain ⟨points, bits⟩ := law.kernelPte _
          (!(decide (start ≤ fmt.page v) && decide (fmt.page v < endText))) (at_k ▸ law.ram k bound)
        have high : ¬v < fmt.physBase := by
          rw [← law.user_page, at_k]
          exact Nat.not_lt.mpr (Mmu.Mapping.page law bound).2
        intro _
        rw [bits, points, if_neg high, PageFormat.isUserVaddr]
        exact ⟨(decide_eq_false high).symm, rfl⟩
      next => exact fun present => absurd present (by simp)
    · exact (if_pos rfl).symm

section Main

variable {fmt : PageFormat} {m b : Mmu}

end Main

section Runs

instance (fmt : PageFormat) (m : Mmu) (pd : Nat) : Decidable (Mmu.Freeable fmt m pd) :=
  decidable_of_iff ((m.frames fmt pd).Nodup ∧ (∀ p ∈ m.frames fmt pd, m.used p = true) ∧
      ∀ p ∈ m.frames fmt pd, fmt.userPool p = true)
    ⟨fun ⟨nodup, used, pool⟩ => ⟨nodup, used, pool⟩, fun ⟨nodup, used, pool⟩ => ⟨nodup, used, pool⟩⟩

instance (fmt : PageFormat) (m : Mmu) : (c : PageCall) → Decidable (m.Careful fmt c)
  | .create page => inferInstanceAs (Decidable (m.Fresh fmt page))
  | .destroy _ => inferInstanceAs (Decidable (_ ∨ _ ∧ _ ∧ _))
  | .setPage .. => inferInstanceAs (Decidable (_ ∧ _ ∧ _ ∧ _ ∧ _ ∧ _ ∧ _))
  | .getPage .. => inferInstanceAs (Decidable (_ ∧ _))
  | .clearPage .. => inferInstanceAs (Decidable (_ ∧ _ ∧ _))
  | .isDirty .. | .isAccessed .. => inferInstanceAs (Decidable (_ = _))
  | .setDirty .. | .setAccessed .. | .setWritable .. => inferInstanceAs (Decidable (_ ∧ _))
  | .activate _ => inferInstanceAs (Decidable (_ ∨ _))
  | .getFrame page _ => inferInstanceAs (Decidable (∀ p ∈ page, _))
  | .freeFrame _ => inferInstanceAs (Decidable (_ ∧ _))
  | .access .. => inferInstanceAs (Decidable (_ → _ → _ → _))
  | .forget _ => inferInstanceAs (Decidable True)

/-- 64 pages of memory, the last 16 of them in the user pool. -/
def smallFormat : PageFormat := Ia32.format 64 fun kpage => physBase + 48 * pgsize ≤ kpage

def pageAt (n : Nat) : Nat := physBase + n * pgsize

def beforePaging : Mmu := ⟨fun _ _ => 0, fun _ => false, 0, 0, fun _ => none, fun _ => false⟩

/-- A process with a page of code and a page of the stack, which is written to before and after its
dirty bit is cleared; the frame of the other page is freed with the page directory. -/
def processRun : List PageCall :=
  let code := 0x08048000
  let stack := 0xbffff000
  [.create (some (pageAt 3)), .activate (pageAt 3), .getFrame (some (pageAt 50)) true,
    .getFrame (some (pageAt 51)) true, .setPage (pageAt 3) code (pageAt 50) false (some (pageAt 4)),
    .setPage (pageAt 3) stack (pageAt 51) true (some (pageAt 5)), .access true none code,
    .access true (some 7) code, .access true (some 7) (stack + 8), .access true none (stack + 8),
    .isDirty (pageAt 3) stack, .setDirty (pageAt 3) stack false, .access true (some 9) (stack + 8),
    .isDirty (pageAt 3) stack, .clearPage (pageAt 3) stack, .access true none stack,
    .freeFrame (pageAt 51), .activate 0, .destroy (pageAt 3), .access false none (pageAt 40)]

example : (beforePaging.pagingInit smallFormat (pageAt 32) (pageAt 40) [pageAt 1, pageAt 2]).any
    (fun b => (Simulation.run (Mmu.call smallFormat) b processRun).any fun r => r.2 =
      [.page (pageAt 3), .done, .page (pageAt 50), .page (pageAt 51), .bool true, .bool true,
        .word (some 0), .word none, .word (some 0), .word (some 7), .bool true, .done,
        .word (some 7), .bool true, .done, .word none, .done, .done, .done, .word (some 0)]) := by
  decide +kernel

theorem supply_small : Mmu.Supply smallFormat beforePaging [pageAt 1, pageAt 2] :=
  ⟨by decide, by decide, by decide, by decide⟩

theorem processRun_meets : ((beforePaging.pagingInit smallFormat (pageAt 32) (pageAt 40)
    [pageAt 1, pageAt 2]).any fun b => decide (Simulation.Meets (Mmu.call smallFormat)
      (Mmu.Careful smallFormat) b processRun)) = true := by
  decide +kernel

end Runs

end Pintos.Userprog
