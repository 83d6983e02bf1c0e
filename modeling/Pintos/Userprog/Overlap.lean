import Pintos.Userprog.Load

/-! The entries of `page_table`.  `install_file` does not look for an entry of the page, and `mmap`
asks for one at its first page only. -/

namespace Pintos.Userprog

open Transition Vm

theorem pagesFrom_le {upage count page : Nat} (mem : page ∈ pagesFrom upage count) :
    upage ≤ page := by
  induction count generalizing upage with
  | zero => cases mem
  | succ count ih =>
    rcases List.mem_cons.mp mem with rfl | later
    · exact Nat.le_refl page
    · exact Nat.le_trans (Nat.le_add_right ..) (ih later)

theorem pagesFrom_nodup (upage count : Nat) : (pagesFrom upage count).Nodup := by
  induction count generalizing upage with
  | zero => exact List.nodup_nil
  | succ count ih =>
    apply List.nodup_cons.mpr
    refine ⟨fun later => ?_, ih _⟩
    have le := pagesFrom_le later
    have : pgsize = 4096 := rfl
    omega

namespace UserProcess

/-- `page_table` has at most one entry for a page. -/
def NoOverlap (st : UserProcess) : Prop := st.upages.Nodup

/-- A page that is in `page_table`, or is not a user's. -/
def Taken (st : UserProcess) (page : Nat) : Prop := physBase ≤ page ∨ page ∈ st.upages

instance (st : UserProcess) : Decidable st.NoOverlap := inferInstanceAs (Decidable (List.Nodup _))

instance (st : UserProcess) (page : Nat) : Decidable (st.Taken page) :=
  inferInstanceAs (Decidable (_ ∨ _))

theorem findSpt_eq_none_iff (st : UserProcess) (upage : Nat) :
    st.findSpt upage = none ↔ upage ∉ st.upages := by
  simp [findSpt, upages]

/-- A process that was loaded has entries for the pages that its executable asks for. -/
theorem spawn_upages {st : UserProcess} {openCnt : Nat → Nat} {parentDir : Option Nat}
    {reopens : Bool} {exe : Executable} (run : spawn openCnt parentDir reopens exe = some st) :
    st.upages = loadPages exe ∧ st.mmapList = [] := by
  obtain ⟨⟨mid, success⟩, loaded, rfl⟩ := Option.map_eq_some_iff.mp run
  have adds := AddsPages.load loaded
  have created : (create openCnt parentDir reopens).upages = [] ∧
      (create openCnt parentDir reopens).mmapList = [] := by
    cases parentDir with
    | none => exact ⟨rfl, rfl⟩
    | some dir => cases reopens <;> exact ⟨rfl, rfl⟩
  have start : ((create openCnt parentDir reopens).openExecutable exe.opened).upages = [] ∧
      ((create openCnt parentDir reopens).openExecutable exe.opened).mmapList = [] := by
    cases exe.opened with
    | file inode => exact created
    | null left =>
      obtain ⟨cnt, eq, -⟩ := (create openCnt parentDir reopens).foldl_inodeOpen left
      rw [openExecutable, eq]
      exact created
  have upages := adds.upages
  rw [start.1, List.nil_append] at upages
  exact ⟨upages, adds.mmapList.trans start.2⟩

section Mmap

variable {st mid st' : UserProcess}

/-- Some entries, at most `count`, and some mappings are taken out. -/
structure TakesOut (st : UserProcess) (count : Nat) (st' : UserProcess) : Prop where
  upages : st'.upages.Sublist st.upages
  length : st.upages.length ≤ st'.upages.length + count
  mmapList : st'.mmapList.Sublist st.mmapList
  nextMapid : st'.nextMapid = st.nextMapid

theorem TakesOut.refl (st : UserProcess) : TakesOut st 0 st :=
  ⟨.refl _, Nat.le_refl _, .refl _, rfl⟩

theorem TakesOut.trans {count more : Nat} (first : TakesOut st count mid)
    (rest : TakesOut mid more st') : TakesOut st (count + more) st' where
  upages := rest.upages.trans first.upages
  length := by
    have one := first.length
    have two := rest.length
    omega
  mmapList := rest.mmapList.trans first.mmapList
  nextMapid := rest.nextMapid.trans first.nextMapid

theorem TakesOut.unmapPage (stale : Stale) (st : UserProcess) (mmap : MmapElem) :
    TakesOut st 1 (st.unmapPage stale mmap) := by
  have free : TakesOut st 1 (st.freePage mmap) := by
    refine ⟨List.erase_sublist.map _, ?_, List.erase_sublist, rfl⟩
    have shorter : st.pageTable.length - 1 ≤ (st.pageTable.erase mmap.spt).length :=
      List.le_length_erase
    simp only [UserProcess.upages, freePage, List.length_map]
    omega
  rw [UserProcess.unmapPage]
  simp only
  split
  · exact ⟨free.upages, free.length, free.mmapList, free.nextMapid⟩
  · exact free

theorem TakesOut.munmapLoop (stale : Stale) (mapid : Int) (mmaps : List MmapElem)
    (st : UserProcess) : TakesOut st (mmaps.countP fun m => mapid = m.mapid)
      (munmapLoop stale mapid mmaps st) := by
  induction mmaps generalizing st with
  | nil => exact .refl st
  | cons mmap rest ih =>
    rw [UserProcess.munmapLoop]
    by_cases same : mapid = mmap.mapid
    · simp only [if_pos same, List.countP_cons, decide_eq_true same, if_true, Nat.add_comm]
      exact (TakesOut.unmapPage stale st mmap).trans (ih _)
    · simp only [if_neg same, List.countP_cons, decide_eq_true_eq, Nat.add_zero]
      exact ih st

/-- What a loop of `mmap` over `count` pages does: entries stay behind also when it fails. -/
structure Mapped (mapid : Int) (upage count : Nat) (st : UserProcess) (success : Bool)
    (st' : UserProcess) : Prop where
  upages : st'.upages.Sublist (st.upages ++ pagesFrom upage count)
  added : success = true → st'.upages.length = st.upages.length + count
  failed : success = false →
    st.upages.length < st'.upages.length + st.mmapList.countP fun m => mapid = m.mapid
  mmapList : ∀ m ∈ st'.mmapList, m ∈ st.mmapList ∨ m.mapid = mapid
  nextMapid : st'.nextMapid = st.nextMapid

/-- `install_page` fails for the first page: the mapping is taken out, the page is not. -/
theorem Mapped.munmap {mapid : Int} {upage count : Nat} (adds : AddsPages st [upage] mid)
    (stale : Stale) : Mapped mapid upage (count + 1) st false (mid.munmap stale mapid) := by
  have out := TakesOut.munmapLoop stale mapid mid.mmapList mid
  refine ⟨?_, fun no => (nomatch no), fun _ => ?_, fun m mem => .inl ?_, ?_⟩
  · apply out.upages.trans
    rw [adds.upages, pagesFrom]
    exact .append (.refl _) (.cons_cons upage (List.nil_sublist _))
  · have longer := out.length
    rw [adds.upages, List.length_append, adds.mmapList] at longer
    rw [UserProcess.munmap, adds.mmapList]
    exact longer
  · rw [← adds.mmapList]
    exact out.mmapList.subset mem
  · exact out.nextMapid.trans adds.nextMapid

/-- The first page is mapped, and the loop goes on. -/
theorem Mapped.cons (mmap : MmapElem) {upage count : Nat} {success : Bool}
    (adds : AddsPages st [upage] mid)
    (rest : Mapped mmap.mapid (upage + pgsize) count { mid with mmapList := mid.mmapList ++ [mmap] }
      success st') :
    Mapped mmap.mapid upage (count + 1) st success st' := by
  have upages : UserProcess.upages { mid with mmapList := mid.mmapList ++ [mmap] } =
    st.upages ++ [upage] := adds.upages
  refine ⟨?_, fun yes => ?_, fun no => ?_, fun m mem => ?_, ?_⟩
  · have sub := rest.upages
    rw [upages, List.append_assoc] at sub
    exact sub
  · have length := rest.added yes
    rw [upages, List.length_append, List.length_singleton] at length
    omega
  · have longer := rest.failed no
    rw [upages] at longer
    simp only [adds.mmapList, List.length_append, List.length_singleton, List.countP_append,
      List.countP_singleton, decide_true, if_true] at longer
    omega
  · rcases rest.mmapList m mem with old | new
    · rcases List.mem_append.mp old with before | one
      · rw [adds.mmapList] at before
        exact .inl before
      · rw [List.mem_singleton.mp one]
        exact .inr rfl
    · exact .inr new
  · exact rest.nextMapid.trans adds.nextMapid

theorem Mapped.mmapLoop {install : Nat → Install} {stale : Stale} {mapid : Int} {file : File}
    {count upage : Nat} {success : Bool}
    (run : st.mmapLoop install stale mapid file count upage = some (st', success)) :
    Mapped mapid upage count st success st' := by
  induction count generalizing st upage with
  | zero =>
    obtain ⟨rfl, rfl⟩ := Prod.mk.inj (Option.some.inj run)
    refine ⟨?_, fun _ => rfl, fun no => (nomatch no), fun m mem => .inl mem, rfl⟩
    rw [pagesFrom, List.append_nil]
  | succ count ih =>
    rw [UserProcess.mmapLoop] at run
    split at run
    next => cases run
    next mid first =>
      obtain ⟨rfl, rfl⟩ := Prod.mk.inj (Option.some.inj run)
      exact Mapped.munmap (.installFile first) stale
    next mid first =>
      split at run
      next => cases run
      next spt _ => exact Mapped.cons ⟨mapid, file, spt⟩ (.installFile first) (ih run)

/-- What `mmap` refuses: with a page of its range taken it returns -1 and leaves `page_table` and
the page directory as they are. -/
def RefusesOverlap (st : UserProcess) : Call → Prop
  | .mmap fd upage length reopens install stale =>
    (st.findFile fd).isSome = true → (∃ page ∈ pagesFrom upage (pages length), st.Taken page) →
      ∃ st', st.mmap install stale fd upage length reopens = some (st', -1) ∧
        st'.pageTable = st.pageTable ∧ st'.present = st.present
  | _ => True

/-- No `mmap` gets past its first page with a later page of its range taken. -/
def MapsApart (st : UserProcess) : Call → Prop
  | .mmap fd upage length reopens _ _ =>
    ¬(st.checkMmapAddr upage = true ∧ (st.findFile fd).isSome = true ∧
      (st.locked = true ∨ reopens = true) ∧
      ∃ page ∈ (pagesFrom upage (pages length)).tail, st.Taken page)
  | _ => True

instance (st : UserProcess) : (c : Call) → Decidable (st.MapsApart c)
  | .mmap fd upage length reopens _ _ =>
    inferInstanceAs (Decidable ¬(st.checkMmapAddr upage = true ∧ (st.findFile fd).isSome = true ∧
      (st.locked = true ∨ reopens = true) ∧
      ∃ page ∈ (pagesFrom upage (pages length)).tail, st.Taken page))
  | .open_ _ | .close _ | .munmap .. | .fault .. | .evict _ => isTrue trivial

/-- `check_mmap_addr` is right about the first page. -/
theorem checkMmapAddr_free {upage : Nat} (checked : st.checkMmapAddr upage = true) :
    ¬st.Taken upage := by
  simp only [checkMmapAddr, decide_eq_true_eq, findSpt_eq_none_iff] at checked
  rintro (above | listed)
  · omega
  · exact checked.2.2.2 listed

theorem pages_pos {length : Nat} (long : 0 < length) : ∃ count, pages length = count + 1 := by
  have size : pgsize = 4096 := rfl
  refine Nat.exists_eq_succ_of_ne_zero ?_
  rw [pages, size]
  omega

/-- The range of a mapping is free when its first page and its later pages are. -/
theorem range_free {upage length : Nat} (checked : st.checkMmapAddr upage = true)
    (later : ¬∃ page ∈ (pagesFrom upage (pages length)).tail, st.Taken page) :
    ¬∃ page ∈ pagesFrom upage (pages length), st.Taken page := by
  rintro ⟨page, mem, taken⟩
  cases count : pages length with
  | zero =>
    rw [count] at mem
    cases mem
  | succ more =>
    rw [count, pagesFrom] at mem later
    rcases List.mem_cons.mp mem with rfl | rest
    · exact checkMmapAddr_free checked taken
    · exact later ⟨page, rest, taken⟩

theorem RefusesOverlap.of_apart {c : Call} (apart : st.MapsApart c) : st.RefusesOverlap c := by
  cases c with
  | mmap fd upage length reopens install stale =>
    intro isFile overlap
    by_cases checked : st.checkMmapAddr upage = true
    · have later : ∃ page ∈ (pagesFrom upage (pages length)).tail, st.Taken page := by
        by_contra none
        exact range_free checked none overlap
      have stops : ¬(st.locked = true ∨ reopens = true) :=
        fun goes => apart ⟨checked, isFile, goes, later⟩
      obtain ⟨unlocked, fails⟩ := not_or.mp stops
      obtain ⟨found, isFound⟩ := Option.isSome_iff_exists.mp isFile
      refine ⟨{ st with locked := true }, ?_, rfl, rfl⟩
      simp [mmap, checked, unlocked, isFound, fails]
    · refine ⟨st, ?_, rfl, rfl⟩
      simp [mmap, checked]
  | open_ | close | munmap | fault | evict => trivial

/-- The loop of `mmap` leaves more entries than there were. -/
theorem Mapped.grows {mapid : Int} {upage count : Nat} {success : Bool}
    (mapped : Mapped mapid upage (count + 1) st success st')
    (mapids : ∀ m ∈ st.mmapList, m.mapid < mapid) :
    st.upages.length < st'.upages.length := by
  cases success with
  | true =>
    rw [mapped.added rfl]
    omega
  | false =>
    have unused : st.mmapList.countP (fun m => mapid = m.mapid) = 0 := by
      rw [List.countP_eq_zero]
      intro m mem same
      have less := mapids m mem
      have eq : mapid = m.mapid := of_decide_eq_true same
      omega
    have longer := mapped.failed rfl
    rw [unused] at longer
    exact longer

theorem mmap_mapped {install : Nat → Install} {stale : Stale} {fd : Int} {upage length : Nat}
    {reopens : Bool} {result : Int} (maps : st.MapsFile fd upage length reopens)
    (run : st.mmap install stale fd upage length reopens = some (st', result)) :
    ∃ success, Mapped st.nextMapid upage (pages length)
      { st with nextMapid := st.nextMapid + 1 } success st' := by
  obtain ⟨refused, -⟩ | ⟨-, -, found, mid, success, isFile, loop, rfl⟩ := mmap_cases run
  · exact absurd maps refused
  have mapped := Mapped.mmapLoop loop
  refine ⟨success, ?_⟩
  cases success <;>
    exact ⟨mapped.upages, mapped.added, mapped.failed, mapped.mmapList, mapped.nextMapid⟩

end Mmap

section Runs

variable {st st' : UserProcess}

/-- One entry for a page, and the numbers of the mappings are not used again. -/
structure Apart (st : UserProcess) : Prop where
  noOverlap : st.NoOverlap
  mapids : ∀ m ∈ st.mmapList, m.mapid < st.nextMapid

theorem Apart.adds {more : List Nat} (h : st.Apart) (adds : AddsPages st more st')
    (apart : (st.upages ++ more).Nodup) : st'.Apart := by
  refine ⟨?_, ?_⟩
  · rw [NoOverlap, adds.upages]
    exact apart
  · rw [adds.mmapList, adds.nextMapid]
    exact h.mapids

/-- The entries and the mappings are the same. -/
theorem Apart.same (h : st.Apart) (pageTable : st'.pageTable = st.pageTable)
    (mmapList : st'.mmapList = st.mmapList) (nextMapid : st'.nextMapid = st.nextMapid) :
    st'.Apart := by
  have upages : st'.upages = st.upages := congrArg (List.map SupPage.upage) pageTable
  refine ⟨?_, ?_⟩
  · rw [NoOverlap, upages]
    exact h.noOverlap
  · rw [mmapList, nextMapid]
    exact h.mapids

theorem Apart.munmap (h : st.Apart) (stale : Stale) (mapid : Int) :
    (st.munmap stale mapid).Apart := by
  have out := TakesOut.munmapLoop stale mapid st.mmapList st
  refine ⟨h.noOverlap.sublist out.upages, fun m mem => ?_⟩
  rw [UserProcess.munmap, out.nextMapid]
  exact h.mapids m (out.mmapList.subset mem)

theorem Apart.mmap {install : Nat → Install} {stale : Stale} {fd : Int} {upage length : Nat}
    {reopens : Bool} {result : Int} (h : st.Apart)
    (apart : st.MapsApart (.mmap fd upage length reopens install stale))
    (run : st.mmap install stale fd upage length reopens = some (st', result)) : st'.Apart := by
  by_cases maps : st.MapsFile fd upage length reopens
  · obtain ⟨success, mapped⟩ := mmap_mapped maps run
    have free := range_free maps.1 fun later => apart ⟨maps.1, maps.2.1, .inr maps.2.2.2, later⟩
    constructor
    · apply List.Nodup.sublist mapped.upages
      apply List.nodup_append.mpr
      refine ⟨h.noOverlap, pagesFrom_nodup _ _, ?_⟩
      rintro page listed _ mem rfl
      exact free ⟨page, mem, .inr listed⟩
    · intro m mem
      rw [mapped.nextMapid]
      rcases mapped.mmapList m mem with old | new
      · have less := h.mapids m old
        exact Int.lt_trans less (Int.lt_succ _)
      · rw [new]
        exact Int.lt_succ _
  · obtain ⟨-, locked, rfl⟩ | ⟨goes, -⟩ := mmap_cases run
    · exact h.same rfl rfl rfl
    · exact absurd goes maps

theorem Apart.fault (h : st.Apart) (addr : Nat) (above back setPage : Bool) :
    (st.fault addr above back setPage).Apart := by
  rw [UserProcess.fault]
  simp only
  split
  · exact h.same rfl rfl rfl
  split
  · exact h
  split
  · split <;> exact h.same rfl rfl rfl
  next new =>
    split
    · have none : st.findSpt (addr - addr % pgsize) = none := by simpa using new
      have free := (findSpt_eq_none_iff st _).mp none
      have apart : (st.upages ++ [addr - addr % pgsize]).Nodup := by
        apply List.nodup_append.mpr
        refine ⟨h.noOverlap, List.nodup_singleton _, ?_⟩
        rintro page listed _ mem rfl
        exact free (List.mem_singleton.mp mem ▸ listed)
      have stack := h.adds (.installStack st _ setPage) apart
      split
      · exact stack
      · exact stack.same rfl rfl rfl
    · exact h.same rfl rfl rfl

theorem Apart.open_ {opened : Opened} {result : Int} (h : st.Apart)
    (run : st.open_ opened = some (st', result)) : st'.Apart := by
  unfold UserProcess.open_ at run
  split at run
  · cases run
  split at run
  next left =>
    obtain ⟨rfl, -⟩ := Prod.mk.inj (Option.some.inj run)
    obtain ⟨cnt, eq, -⟩ := st.foldl_inodeOpen left
    rw [eq]
    exact h.same rfl rfl rfl
  next inode =>
    obtain ⟨rfl, -⟩ := Prod.mk.inj (Option.some.inj run)
    exact h.same rfl rfl rfl

theorem Apart.close {fd : Int} (h : st.Apart) (run : st.close fd = some st') : st'.Apart := by
  rw [UserProcess.close] at run
  split at run
  · obtain rfl := Option.some.inj run
    exact h
  · split at run
    · cases run
    obtain rfl := Option.some.inj run
    exact h.same rfl rfl rfl

theorem Apart.call {c : Call} (h : st.Apart) (apart : st.MapsApart c)
    (run : st.call c = some st') : st'.Apart := by
  cases c with
  | open_ opened =>
    obtain ⟨⟨mid, fd⟩, done, rfl⟩ := Option.map_eq_some_iff.mp run
    exact h.open_ done
  | close fd => exact h.close run
  | mmap fd upage length reopens install stale =>
    obtain ⟨⟨mid, mapid⟩, done, rfl⟩ := Option.map_eq_some_iff.mp run
    exact h.mmap apart done
  | munmap mapid stale =>
    obtain rfl := Option.some.inj run
    exact h.munmap stale mapid
  | fault addr above back setPage =>
    obtain rfl := Option.some.inj run
    exact h.fault addr above back setPage
  | evict upage =>
    obtain rfl := Option.some.inj run
    exact h.same rfl rfl rfl

theorem Apart.step {c : Call} (h : st.Apart) (apart : st.MapsApart c)
    (run : st.step c = some st') : st'.Apart := by
  rw [UserProcess.step] at run
  split at run
  swap
  · cases run
  obtain rfl := Option.some.inj run
  cases called : st.call c with
  | some result => exact h.call apart called
  | none => exact h.same rfl rfl rfl

/-- An `mmap` over a page that is taken adds entries, or the process comes to no return. -/
theorem RefusesOverlap.apart {c : Call} (h : st.Apart) (refuses : st.RefusesOverlap c) :
    st.MapsApart c := by
  cases c with
  | mmap fd upage length reopens install stale =>
    rintro ⟨checked, isFile, goes, page, later, taken⟩
    obtain ⟨st', run, pageTable, -⟩ :=
      refuses isFile ⟨page, List.mem_of_mem_tail later, taken⟩
    have long : 0 < length := by
      apply Nat.pos_of_ne_zero
      rintro rfl
      cases later
    rcases goes with locked | reopened
    · simp [UserProcess.mmap, checked, locked] at run
    · obtain ⟨success, mapped⟩ := mmap_mapped ⟨checked, isFile, long, reopened⟩ run
      obtain ⟨count, eq⟩ := pages_pos long
      rw [eq] at mapped
      have grows := mapped.grows h.mapids
      have same : st'.upages = st.upages := congrArg (List.map SupPage.upage) pageTable
      rw [same] at grows
      exact Nat.lt_irrefl _ grows
  | open_ | close | munmap | fault | evict => trivial

/-- The pages of a process do not overlap, and `mmap` refuses a range with a page that is taken,
exactly when the segments of its executable and its first stack page do not overlap and no `mmap`
gets past its first page with a later page of its range taken. -/
theorem mappings_apart_iff {openCnt : Nat → Nat} {parentDir : Option Nat} {reopens : Bool}
    {exe : Executable} (calls : List Call)
    (loaded : spawn openCnt parentDir reopens exe = some st) :
    Always UserProcess.step NoOverlap st calls ∧ Each UserProcess.step RefusesOverlap st calls ↔
      (loadPages exe).Nodup ∧ Each UserProcess.step MapsApart st calls := by
  obtain ⟨upages, mmapList⟩ := spawn_upages loaded
  have start : st.NoOverlap ↔ (loadPages exe).Nodup := by rw [NoOverlap, upages]
  by_cases apart : st.NoOverlap
  · have init : st.Apart := by
      refine ⟨apart, ?_⟩
      rw [mmapList]
      exact fun m mem => nomatch mem
    rw [always_and_each_iff (fun _ h => h.noOverlap) (fun _ _ _ h apart hs => h.step apart hs)
      (fun _ _ _ _ apart _ => .of_apart apart) (fun _ _ _ h _ refuses _ => refuses.apart h) calls
      init]
    exact (and_iff_right (start.mp apart)).symm
  · refine iff_of_false (fun both => apart both.1.head) fun both => ?_
    exact apart (start.mpr both.1)

/-- `open` of inode 5, and two mappings of it: of one page, and of two pages from `upage` on. -/
def mapTwice (upage : Nat) : List Call :=
  [.open_ (.file 5), .mmap 2 0x10000000 10 true (fun _ => ⟨false, true⟩) fun _ _ => 0,
    .mmap 2 upage 5000 true (fun _ => ⟨false, true⟩) fun _ _ => 0]

/-- The second mapping is after the first one. -/
theorem mappings_apart_after : ∃ st st' : UserProcess,
    spawn (fun _ => 0) none true emptyExecutable = some st ∧
      exec UserProcess.step st (mapTwice 0x10001000) = some st' ∧
      st'.upages = [0xbffff000, 0x10000000, 0x10001000, 0x10002000] ∧
      Always UserProcess.step NoOverlap st (mapTwice 0x10001000) ∧
      Each UserProcess.step RefusesOverlap st (mapTwice 0x10001000) := by
  refine ⟨_, _, rfl, rfl, rfl, ?_⟩
  apply (mappings_apart_iff (mapTwice 0x10001000)
    (show spawn (fun _ => 0) none true emptyExecutable = some _ from rfl)).mpr
  exact ⟨by decide, Each.eval (by decide)⟩

/-- The second page of the second mapping is the page of the first one. -/
theorem mapping_runs_into_mapping : ¬∀ (openCnt : Nat → Nat) (parentDir : Option Nat)
    (reopens : Bool) (exe : Executable) (calls : List Call) (st : UserProcess),
    spawn openCnt parentDir reopens exe = some st →
      Always UserProcess.step NoOverlap st calls ∧
        Each UserProcess.step RefusesOverlap st calls := by
  intro claim
  obtain ⟨always, -⟩ := claim (fun _ => 0) none true emptyExecutable (mapTwice 0xffff000) _ rfl
  have last := ((always.2 _ rfl).2 _ rfl).2 _ rfl
  have twice : [0xbffff000, 0x10000000, 0xffff000, 0x10000000].Nodup := last
  exact absurd twice (by decide)

end Runs

end UserProcess

end Pintos.Userprog
