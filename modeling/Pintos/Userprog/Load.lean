import Pintos.Userprog.AddressSpace

/-! What `install_file`, `load_segment` and `load` add to `page_table`. -/

namespace Pintos.Userprog

open Vm

/-- A number of pages from an address on. -/
def pagesFrom : Nat → Nat → List Nat
  | _, 0 => []
  | upage, count + 1 => upage :: pagesFrom (upage + pgsize) count

namespace UserProcess

def upages (st : UserProcess) : List Nat := st.pageTable.map SupPage.upage

section Pages

variable {st mid st' : UserProcess}

/-- Entries for some pages are new, and besides them the page directory may change. -/
structure AddsPages (st : UserProcess) (more : List Nat) (st' : UserProcess) : Prop where
  upages : st'.upages = st.upages ++ more
  others : ∃ pageTable present fresh, st' = { st with pageTable, present, fresh }

theorem AddsPages.refl (st : UserProcess) : AddsPages st [] st :=
  ⟨(List.append_nil _).symm, st.pageTable, st.present, st.fresh, rfl⟩

theorem AddsPages.trans {more others : List Nat} (first : AddsPages st more mid)
    (rest : AddsPages mid others st') : AddsPages st (more ++ others) st' := by
  constructor
  · rw [rest.upages, first.upages, List.append_assoc]
  · obtain ⟨_, _, _, rfl⟩ := first.others
    obtain ⟨pageTable, present, fresh, rfl⟩ := rest.others
    exact ⟨pageTable, present, fresh, rfl⟩

theorem AddsPages.sptInit (st : UserProcess) (upage : Nat) (present : Nat → Bool) :
    AddsPages st [upage] { st.sptInit upage with present } := by
  constructor
  · simp [UserProcess.upages, UserProcess.sptInit]
  · exact ⟨_, present, _, rfl⟩

theorem AddsPages.mmapList {more : List Nat} (adds : AddsPages st more st') :
    st'.mmapList = st.mmapList := by
  obtain ⟨_, _, _, rfl⟩ := adds.others
  rfl

theorem AddsPages.nextMapid {more : List Nat} (adds : AddsPages st more st') :
    st'.nextMapid = st.nextMapid := by
  obtain ⟨_, _, _, rfl⟩ := adds.others
  rfl

theorem installPage_eq (st : UserProcess) (upage : Nat) (setPage : Bool) :
    ∃ present, st.installPage upage setPage =
        ({ st with present }, !st.present upage && setPage) ∧
      ∀ page, page ≠ upage → present page = st.present page := by
  rw [installPage]
  split
  next set => exact ⟨st.present, by simp [set], fun _ _ => rfl⟩
  next clear =>
    split
    next memory =>
      refine ⟨Function.update st.present upage true, by simp [clear, memory], fun page ne => ?_⟩
      exact Function.update_of_ne ne ..
    next full => exact ⟨st.present, by simp [full], fun _ _ => rfl⟩

/-- A page gets an entry, also when a frame is found for it and `install_page` fails. -/
theorem installFile_eq {upage : Nat} {install : Install} {success : Bool}
    (run : st.installFile upage install = some (st', success)) :
    ∃ present, st' = { st.sptInit upage with present } ∧
      (success = false ↔
        install.matched = true ∧ (st.present upage = true ∨ install.setPage = false)) ∧
      ∀ page, page ≠ upage → st'.present page = st.present page := by
  rw [installFile] at run
  split at run
  swap
  · cases run
  simp only at run
  split at run
  next found =>
    obtain ⟨present, eq, others⟩ := (st.sptInit upage).installPage_eq upage install.setPage
    rw [eq] at run
    obtain ⟨rfl, rfl⟩ := Prod.mk.inj (Option.some.inj run)
    refine ⟨present, rfl, ?_, others⟩
    rw [found, UserProcess.sptInit]
    cases st.present upage <;> cases install.setPage <;> decide
  next none =>
    obtain ⟨rfl, rfl⟩ := Prod.mk.inj (Option.some.inj run)
    refine ⟨Function.update st.present upage false, rfl, by simp [none], fun page ne => ?_⟩
    exact Function.update_of_ne ne ..

theorem AddsPages.installFile {upage : Nat} {install : Install} {success : Bool}
    (run : st.installFile upage install = some (st', success)) : AddsPages st [upage] st' := by
  obtain ⟨present, rfl, -⟩ := installFile_eq run
  exact .sptInit st upage present

theorem AddsPages.installStack (st : UserProcess) (upage : Nat) (setPage : Bool) :
    AddsPages st [upage] (st.installStack upage setPage).1 := by
  obtain ⟨present, eq, -⟩ := (st.sptInit upage).installPage_eq upage setPage
  rw [UserProcess.installStack, eq]
  exact .sptInit st upage present

end Pages

section Load

variable {st st' : UserProcess}

/-- The pages of a segment. -/
def segmentPages (phdr : Phdr) : List Nat :=
  let pageOffset := phdr.vaddr.toNat % pgsize
  pagesFrom (phdr.vaddr.toNat - pageOffset) (pages (pageOffset + phdr.memsz.toNat))

/-- `load` goes on after a program header. -/
def accepts (exe : Executable) (phdr : Phdr) : Bool :=
  phdr.readable && if phdr.type = 1 then validateSegment phdr exe.fileLength
    else ¬(phdr.type = 2 ∨ phdr.type = 3 ∨ phdr.type = 5)

/-- The pages of the segments up to the first header that is not accepted. -/
def segmentsPages (exe : Executable) (phdrs : List Phdr) : List Nat :=
  ((phdrs.takeWhile (accepts exe)).filter fun phdr => phdr.type = 1).flatMap segmentPages

/-- The pages that `load` makes entries for. -/
def loadPages (exe : Executable) : List Nat :=
  match exe.opened, exe.header with
  | .file _, true =>
    segmentsPages exe exe.phdrs ++
      if exe.phdrs.all (accepts exe) then [physBase - pgsize] else []
  | _, _ => []

theorem AddsPages.loadSegment {install : Nat → Install} {count upage readBytes zeroBytes : Nat}
    (total : readBytes + zeroBytes = count * pgsize)
    (run : st.loadSegment install upage readBytes zeroBytes = some st') :
    AddsPages st (pagesFrom upage count) st' := by
  have size : pgsize = 4096 := rfl
  induction count generalizing st upage readBytes zeroBytes with
  | zero =>
    rw [Nat.zero_mul] at total
    rw [UserProcess.loadSegment, if_pos (by omega)] at run
    obtain rfl := Option.some.inj run
    exact .refl st
  | succ count ih =>
    rw [Nat.succ_mul] at total
    rw [UserProcess.loadSegment, if_neg (by omega)] at run
    simp only at run
    split at run
    next => cases run
    next mid success first =>
      have rest := ih (by omega) run
      exact (AddsPages.installFile first).trans rest

theorem AddsPages.loadPhdr {install : Nat → Install} {phdr : Phdr} {fileLength : Nat}
    (valid : validateSegment phdr fileLength = true)
    (run : st.loadPhdr install phdr = some st') : AddsPages st (segmentPages phdr) st' := by
  have sizes : phdr.filesz.toNat ≤ phdr.memsz.toNat := by
    simp only [validateSegment, decide_eq_true_eq] at valid
    exact valid.2.2.1
  have up : ∀ x, x ≤ roundUp x := by
    intro x
    have size : pgsize = 4096 := rfl
    rw [roundUp, size]
    omega
  refine AddsPages.loadSegment ?_ run
  have le := up (phdr.vaddr.toNat % pgsize + phdr.memsz.toNat)
  have eq : roundUp (phdr.vaddr.toNat % pgsize + phdr.memsz.toNat) =
    pages (phdr.vaddr.toNat % pgsize + phdr.memsz.toNat) * pgsize := rfl
  rw [← eq]
  split <;> omega

theorem AddsPages.loadPhdrs {exe : Executable} {phdrs : List Phdr} {success : Bool}
    (run : st.loadPhdrs exe phdrs = some (st', success)) :
    AddsPages st (segmentsPages exe phdrs) st' ∧ success = phdrs.all (accepts exe) := by
  induction phdrs generalizing st with
  | nil =>
    obtain ⟨rfl, rfl⟩ := Prod.mk.inj (Option.some.inj run)
    exact ⟨.refl st, rfl⟩
  | cons phdr rest ih =>
    have stops : accepts exe phdr = false → some (st, false) = some (st', success) →
        AddsPages st (segmentsPages exe (phdr :: rest)) st' ∧
          success = (phdr :: rest).all (accepts exe) := by
      intro refused eq
      obtain ⟨rfl, rfl⟩ := Prod.mk.inj (Option.some.inj eq)
      rw [segmentsPages, List.takeWhile_cons, refused, List.all_cons, refused]
      exact ⟨.refl st, rfl⟩
    rw [UserProcess.loadPhdrs] at run
    split at run
    next unreadable =>
      exact stops (by simp_all [accepts]) run
    next readable =>
      split at run
      next segment =>
        split at run
        next valid =>
          obtain ⟨mid, first, run⟩ := Option.bind_eq_some_iff.mp run
          have accepted : accepts exe phdr = true := by simp_all [accepts]
          obtain ⟨more, result⟩ := ih run
          have adds := (AddsPages.loadPhdr valid first).trans more
          rw [segmentsPages, List.takeWhile_cons, if_pos accepted, List.filter_cons_of_pos,
            List.flatMap_cons, List.all_cons, accepted, Bool.true_and]
          · exact ⟨adds, result⟩
          · exact decide_eq_true segment
        next invalid =>
          exact stops (by simp_all [accepts]) run
      next other =>
        split at run
        next bad =>
          exact stops (by simp_all [accepts]) run
        next ignored =>
          have accepted : accepts exe phdr = true := by simp_all [accepts]
          obtain ⟨more, result⟩ := ih run
          rw [segmentsPages, List.takeWhile_cons, if_pos accepted, List.filter_cons_of_neg,
            List.all_cons, accepted, Bool.true_and]
          · exact ⟨more, result⟩
          · simp [other]

theorem inodeOpen_openCnt (st : UserProcess) (opened inode : Nat) :
    (st.inodeOpen opened).openCnt inode =
      st.openCnt inode + if opened = inode then 1 else 0 := by
  simp only [inodeOpen, Function.update_apply]
  by_cases same : inode = opened
  · rw [if_pos same, if_pos same.symm, same]
  · rw [if_neg same, if_neg (Ne.symm same), Nat.add_zero]

/-- Opens that nobody has a file for. -/
theorem foldl_inodeOpen (st : UserProcess) (left : List Nat) :
    ∃ cnt, left.foldl inodeOpen st = { st with openCnt := cnt } ∧
      ∀ inode, cnt inode = st.openCnt inode + left.count inode := by
  induction left generalizing st with
  | nil => exact ⟨st.openCnt, rfl, fun _ => rfl⟩
  | cons opened left ih =>
    obtain ⟨cnt, eq, counts⟩ := ih (st.inodeOpen opened)
    refine ⟨cnt, eq, fun inode => ?_⟩
    rw [counts, inodeOpen_openCnt, List.count_cons]
    simp only [beq_iff_eq]
    omega

/-- A process after `filesys_open` of its executable. -/
def openExecutable (st : UserProcess) : Opened → UserProcess
  | .file inode => { (st.fileOpen inode).1 with file := some (st.fileOpen inode).2 }
  | .null left => left.foldl inodeOpen st

theorem AddsPages.load {exe : Executable} {success : Bool}
    (run : st.load exe = some (st', success)) :
    AddsPages (st.openExecutable exe.opened) (loadPages exe) st' := by
  rw [UserProcess.load] at run
  split at run
  next left opened =>
    obtain ⟨rfl, -⟩ := Prod.mk.inj (Option.some.inj run)
    rw [loadPages, opened]
    exact .refl _
  next inode opened =>
    simp only at run
    rw [opened, openExecutable]
    split at run
    next header =>
      rw [loadPages, opened, header]
      simp only
      split at run
      next mid all =>
        obtain ⟨rfl, -⟩ := Prod.mk.inj (Option.some.inj run)
        obtain ⟨segments, accepted⟩ := AddsPages.loadPhdrs all
        rw [if_pos accepted.symm]
        exact segments.trans (.installStack mid _ _)
      next result stopped =>
        obtain ⟨segments, accepted⟩ := AddsPages.loadPhdrs run
        have refused : ¬exe.phdrs.all (accepts exe) = true := by
          intro all
          rw [← accepted] at all
          rw [all] at run
          exact stopped _ run
        rw [if_neg refused]
        exact segments.trans (.refl st')
    next header =>
      obtain ⟨rfl, -⟩ := Prod.mk.inj (Option.some.inj run)
      rw [loadPages, opened, Bool.eq_false_iff.mpr header]
      exact .refl _

end Load

end UserProcess

end Pintos.Userprog
