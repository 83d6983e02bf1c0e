import Pintos.Userprog.Load

/-! What a process opens and what its exit closes, counted by inode. -/

namespace Pintos.Userprog

open Transition Vm

/-- The files of a list that have an inode. -/
def opensOf (files : List File) (inode : Nat) : Nat := files.countP fun f => f.inode = inode

theorem opensOf_cons (f : File) (files : List File) (inode : Nat) :
    opensOf (f :: files) inode = opensOf files inode + if f.inode = inode then 1 else 0 := by
  simp [opensOf, List.countP_cons]

theorem opensOf_append (files more : List File) (inode : Nat) :
    opensOf (files ++ more) inode = opensOf files inode + opensOf more inode :=
  List.countP_append ..

theorem opensOf_erase {f : File} {files : List File} (mem : f ∈ files) (inode : Nat) :
    opensOf files inode = opensOf (files.erase f) inode + if f.inode = inode then 1 else 0 := by
  rw [← opensOf_cons]
  exact (List.perm_cons_erase mem).countP_eq _

theorem opensOf_eq_zero (files : List File) : (∀ inode, opensOf files inode = 0) ↔ files = [] := by
  constructor
  · intro none
    cases files with
    | nil => rfl
    | cons f files =>
      have one := none f.inode
      rw [opensOf_cons, if_pos rfl] at one
      omega
  · rintro rfl inode
    rfl

/-- The opens that a failed `filesys_open` leaves. -/
def Opened.left : Opened → List Nat
  | .file _ => []
  | .null left => left

namespace UserProcess

/-- The opens that the process has the files or the directory for. -/
def held (st : UserProcess) (inode : Nat) : Nat :=
  opensOf st.file.toList inode + opensOf (st.fileList.map Prod.snd) inode +
    opensOf st.mmapFileList inode + st.curDir.toList.count inode

/-- The opens are those from before, those that the process holds, and `lost` ones. -/
def Accounted (base lost : Nat → Nat) (st : UserProcess) : Prop :=
  ∀ inode, st.openCnt inode = base inode + st.held inode + lost inode

/-- The opens and what the process holds are the same. -/
structure SameFiles (st st' : UserProcess) : Prop where
  openCnt : st'.openCnt = st.openCnt
  file : st'.file = st.file
  fileList : st'.fileList = st.fileList
  mmapFileList : st'.mmapFileList = st.mmapFileList
  curDir : st'.curDir = st.curDir

section Steps

variable {base lost : Nat → Nat} {st st' : UserProcess}

theorem SameFiles.accounted (same : SameFiles st st') (h : st.Accounted base lost) :
    st'.Accounted base lost := by
  intro inode
  rw [held, same.openCnt, same.file, same.fileList, same.mmapFileList, same.curDir]
  exact h inode

theorem SameFiles.refl (st : UserProcess) : SameFiles st st := ⟨rfl, rfl, rfl, rfl, rfl⟩

theorem Accounted.congr {more : Nat → Nat} (h : st.Accounted base lost)
    (same : ∀ inode, more inode = lost inode) : st.Accounted base more :=
  fun inode => same inode ▸ h inode

theorem fileClose_openCnt (st : UserProcess) (f : File) (inode : Nat) :
    (st.fileClose f).openCnt inode =
      st.openCnt inode - if f.inode = inode then 1 else 0 := by
  simp only [fileClose, inodeClose, Function.update_apply]
  by_cases same : inode = f.inode
  · rw [if_pos same, if_pos same.symm, same]
  · rw [if_neg same, if_neg (Ne.symm same), Nat.sub_zero]

theorem Accounted.leave (h : st.Accounted base lost) (left : List Nat) :
    (left.foldl inodeOpen st).Accounted base fun inode => lost inode + left.count inode := by
  obtain ⟨cnt, eq, counts⟩ := st.foldl_inodeOpen left
  intro inode
  have before := h inode
  rw [eq, held]
  rw [held] at before
  simp only [counts]
  omega

theorem SameFiles.of_adds {more : List Nat} (adds : AddsPages st more st') : SameFiles st st' := by
  obtain ⟨pageTable, present, fresh, rfl⟩ := adds.others
  exact ⟨rfl, rfl, rfl, rfl, rfl⟩

/-- A file that is closed is taken out of `mmap_file_list` too. -/
theorem Accounted.unmapPage (h : st.Accounted base lost) (stale : Stale) (mmap : MmapElem) :
    (st.unmapPage stale mmap).Accounted base lost := by
  have free : (st.freePage mmap).Accounted base lost :=
    SameFiles.accounted ⟨rfl, rfl, rfl, rfl, rfl⟩ h
  rw [UserProcess.unmapPage]
  simp only
  split
  next fe found =>
    have mem : fe ∈ st.mmapFileList := List.mem_of_find?_eq_some found
    intro inode
    have before := free inode
    have taken := opensOf_erase mem inode
    rw [held] at before ⊢
    simp only [fileClose_openCnt]
    simp only [freePage, fileClose, inodeClose] at before ⊢
    omega
  next => exact free

theorem Accounted.munmapLoop (stale : Stale) (mapid : Int) (mmaps : List MmapElem)
    (h : st.Accounted base lost) : (munmapLoop stale mapid mmaps st).Accounted base lost := by
  induction mmaps generalizing st with
  | nil => exact h
  | cons mmap rest ih =>
    rw [UserProcess.munmapLoop]
    split
    · exact ih (h.unmapPage stale mmap)
    · exact ih h

end Steps

section Mmap

variable {base lost : Nat → Nat} {st st' : UserProcess} {install : Nat → Install}

/-- `install_page` fails for one of `count` pages from `upage` on. -/
def InstallFails (install : Nat → Install) (st : UserProcess) (upage count : Nat) : Prop :=
  ∃ k < count, (install (upage + k * pgsize)).matched = true ∧
    (st.present (upage + k * pgsize) = true ∨ (install (upage + k * pgsize)).setPage = false)

instance (install : Nat → Install) (st : UserProcess) (upage count : Nat) :
    Decidable (InstallFails install st upage count) :=
  inferInstanceAs (Decidable (∃ k < count, _ ∧ (_ ∨ _)))

/-- `mmap` has reopened the file when `install_page` fails for one of its pages. -/
def MmapFails (install : Nat → Install) (st : UserProcess) (fd : Int) (upage length : Nat)
    (reopens : Bool) : Prop :=
  st.MapsFile fd upage length reopens ∧ InstallFails install st upage (pages length)

instance (install : Nat → Install) (st : UserProcess) (fd : Int) (upage length : Nat)
    (reopens : Bool) : Decidable (MmapFails install st fd upage length reopens) :=
  inferInstanceAs (Decidable (_ ∧ _))

/-- The first page, or one of the others, whose entries in the page directory stay. -/
theorem installFails_succ {upage count : Nat}
    (others : ∀ page, page ≠ upage → st'.present page = st.present page) :
    InstallFails install st upage (count + 1) ↔
      ((install upage).matched = true ∧
        (st.present upage = true ∨ (install upage).setPage = false)) ∨
      InstallFails install st' (upage + pgsize) count := by
  have later : ∀ k, upage + (k + 1) * pgsize = upage + pgsize + k * pgsize := by
    intro k
    rw [Nat.succ_mul]
    omega
  have keeps : ∀ k, st'.present (upage + pgsize + k * pgsize) =
      st.present (upage + pgsize + k * pgsize) := by
    intro k
    apply others
    have : pgsize = 4096 := rfl
    omega
  constructor
  · rintro ⟨k, bound, found, fails⟩
    cases k with
    | zero =>
      rw [Nat.zero_mul, Nat.add_zero] at found fails
      exact .inl ⟨found, fails⟩
    | succ k =>
      rw [later] at found fails
      rw [← keeps] at fails
      exact .inr ⟨k, by omega, found, fails⟩
  · rintro (first | ⟨k, bound, found, fails⟩)
    · refine ⟨0, by omega, ?_⟩
      rw [Nat.zero_mul, Nat.add_zero]
      exact first
    · refine ⟨k + 1, by omega, ?_⟩
      rw [later, ← keeps]
      exact ⟨found, fails⟩

theorem munmapLoop_locked (stale : Stale) (mapid : Int) (mmaps : List MmapElem)
    (st : UserProcess) : (munmapLoop stale mapid mmaps st).locked = st.locked := by
  induction mmaps generalizing st with
  | nil => rfl
  | cons mmap mmaps ih =>
    rw [UserProcess.munmapLoop, ih]
    split
    · unfold unmapPage
      dsimp only
      split <;> rfl
    · rfl

/-- The loop of `mmap` fails at the first page that cannot be installed. -/
theorem mmapLoop_fails {stale : Stale} {mapid : Int} {file : File} {count upage : Nat}
    {success : Bool}
    (run : st.mmapLoop install stale mapid file count upage = some (st', success)) :
    (success = false ↔ InstallFails install st upage count) ∧ st'.locked = st.locked := by
  induction count generalizing st upage with
  | zero =>
    obtain ⟨rfl, rfl⟩ := Prod.mk.inj (Option.some.inj run)
    refine ⟨⟨fun no => (nomatch no), ?_⟩, rfl⟩
    rintro ⟨k, bound, -⟩
    omega
  | succ count ih =>
    rw [mmapLoop] at run
    split at run
    next => cases run
    next mid first =>
      obtain ⟨rfl, rfl⟩ := Prod.mk.inj (Option.some.inj run)
      obtain ⟨present, eq, fails, others⟩ := installFile_eq first
      refine ⟨iff_of_true rfl ((installFails_succ others).mpr (.inl (fails.mp rfl))), ?_⟩
      rw [munmap, munmapLoop_locked, eq]
      rfl
    next mid first =>
      obtain ⟨present, eq, fails, others⟩ := installFile_eq first
      split at run
      next => cases run
      next spt _ =>
        obtain ⟨rest, locked⟩ := ih run
        refine ⟨?_, locked.trans ?_⟩
        · rw [rest, installFails_succ others, or_iff_right fun first => ?_]
          · rfl
          · exact absurd (fails.mpr first) (by decide)
        · rw [eq]
          rfl

theorem Accounted.mmapLoop {stale : Stale} {mapid : Int} {file : File} {count upage : Nat}
    {success : Bool} (h : st.Accounted base lost)
    (run : st.mmapLoop install stale mapid file count upage = some (st', success)) :
    st'.Accounted base lost := by
  induction count generalizing st upage with
  | zero =>
    obtain ⟨rfl, -⟩ := Prod.mk.inj (Option.some.inj run)
    exact h
  | succ count ih =>
    rw [UserProcess.mmapLoop] at run
    split at run
    next => cases run
    next mid first =>
      obtain ⟨rfl, -⟩ := Prod.mk.inj (Option.some.inj run)
      have same := SameFiles.of_adds (.installFile first)
      exact (same.accounted h).munmapLoop stale mapid _
    next mid first =>
      have same := SameFiles.of_adds (.installFile first)
      split at run
      next => cases run
      next spt _ =>
        have added : SameFiles st { mid with mmapList := mid.mmapList ++ [⟨mapid, file, spt⟩] } :=
          ⟨same.openCnt, same.file, same.fileList, same.mmapFileList, same.curDir⟩
        exact ih (added.accounted h) run

end Mmap

section Calls

variable {base lost : Nat → Nat} {st st' : UserProcess}

theorem eq_nil_iff_count (left : List Nat) : left = [] ↔ ∀ inode, left.count inode = 0 := by
  rw [List.eq_nil_iff_forall_not_mem]
  simp only [List.count_eq_zero]

/-- The opens that a call leaves without a file in the lists of the process. -/
def leak (st : UserProcess) : Call → Nat → Nat
  | .open_ opened, inode => opened.left.count inode
  | .mmap fd upage length reopens install _, inode =>
    if st.MmapFails install fd upage length reopens then opensOf (st.findFile fd).toList inode
    else 0
  | _, _ => 0

theorem leak_mmap (st : UserProcess) (fd : Int) (upage length : Nat) (reopens : Bool)
    (install : Nat → Install) (stale : Stale) (inode : Nat) :
    st.leak (.mmap fd upage length reopens install stale) inode =
      if st.MmapFails install fd upage length reopens then opensOf (st.findFile fd).toList inode
      else 0 := rfl

/-- A failed `filesys_open` leaves no open, and no `mmap` fails after its `file_reopen`. -/
def GivesBack (st : UserProcess) : Call → Prop
  | .open_ opened => opened.left = []
  | .mmap fd upage length reopens install _ => ¬st.MmapFails install fd upage length reopens
  | _ => True

instance (st : UserProcess) : (c : Call) → Decidable (st.GivesBack c)
  | .open_ opened => inferInstanceAs (Decidable (opened.left = []))
  | .mmap fd upage length reopens install _ =>
    inferInstanceAs (Decidable ¬st.MmapFails install fd upage length reopens)
  | .close _ | .munmap .. | .fault .. | .evict _ => isTrue trivial

theorem givesBack_iff (st : UserProcess) (c : Call) :
    st.GivesBack c ↔ ∀ inode, st.leak c inode = 0 := by
  cases c with
  | open_ opened => exact eq_nil_iff_count opened.left
  | mmap fd upage length reopens install stale =>
    rw [GivesBack]
    by_cases fails : st.MmapFails install fd upage length reopens
    · refine iff_of_false (not_not.mpr fails) fun zero => ?_
      obtain ⟨f, found⟩ := Option.isSome_iff_exists.mp fails.1.2.1
      have one := zero f.inode
      rw [leak_mmap, if_pos fails, found, Option.toList, opensOf_cons, if_pos rfl] at one
      omega
    · exact iff_of_true fails fun inode => if_neg fails
  | close fd | munmap mapid stale | fault addr above back setPage | evict upage =>
    exact iff_of_true trivial fun _ => rfl

theorem Accounted.fileOpen (h : st.Accounted base lost) (opened : Nat) :
    (st.fileOpen opened).1.Accounted base fun inode =>
      lost inode + if opened = inode then 1 else 0 := by
  intro inode
  have before := h inode
  have more := st.inodeOpen_openCnt opened inode
  rw [held] at before
  rw [UserProcess.fileOpen, held]
  simp only [inodeOpen] at more ⊢
  omega

/-- A file that was opened goes to a list of the process. -/
theorem Accounted.keep {opened : Nat}
    (h : st.Accounted base fun inode => lost inode + if opened = inode then 1 else 0)
    (openCnt : st'.openCnt = st.openCnt)
    (more : ∀ inode, st'.held inode = st.held inode + if opened = inode then 1 else 0) :
    st'.Accounted base lost := by
  intro inode
  have before : st.openCnt inode =
    base inode + st.held inode + (lost inode + if opened = inode then 1 else 0) := h inode
  rw [openCnt, before, more]
  omega

theorem Accounted.open_ {opened : Opened} {result : Int} (h : st.Accounted base lost)
    (run : st.open_ opened = some (st', result)) :
    st'.Accounted base fun inode => lost inode + opened.left.count inode := by
  unfold UserProcess.open_ at run
  split at run
  · cases run
  split at run
  next left =>
    obtain ⟨rfl, -⟩ := Prod.mk.inj (Option.some.inj run)
    exact h.leave left
  next inode =>
    obtain ⟨rfl, -⟩ := Prod.mk.inj (Option.some.inj run)
    refine (h.fileOpen inode).keep rfl fun other => ?_
    simp only [held, List.map_append, opensOf_append, UserProcess.fileOpen, inodeOpen,
      List.map_cons, List.map_nil, opensOf_cons]
    simp only [opensOf, List.countP_nil]
    omega

theorem Accounted.close {fd : Int} (h : st.Accounted base lost) (run : st.close fd = some st') :
    st'.Accounted base lost := by
  rw [UserProcess.close] at run
  split at run
  next =>
    obtain rfl := Option.some.inj run
    exact h
  next fe found =>
    split at run
    · cases run
    obtain rfl := Option.some.inj run
    have mem : fe ∈ st.fileList := List.mem_of_find?_eq_some found
    intro inode
    have before := h inode
    have taken : opensOf (st.fileList.map Prod.snd) inode =
        opensOf ((st.fileList.erase fe).map Prod.snd) inode +
          if fe.2.inode = inode then 1 else 0 := by
      rw [← opensOf_cons]
      exact ((List.perm_cons_erase mem).map Prod.snd).countP_eq _
    rw [held] at before ⊢
    simp only [fileClose_openCnt]
    simp only [fileClose, inodeClose] at before ⊢
    omega

theorem Accounted.mmap {install : Nat → Install} {stale : Stale} {fd : Int} {upage length : Nat}
    {reopens : Bool} {result : Int} (h : st.Accounted base lost)
    (run : st.mmap install stale fd upage length reopens = some (st', result)) :
    st'.Accounted base fun inode =>
      lost inode + st.leak (.mmap fd upage length reopens install stale) inode := by
  obtain ⟨refused, locked, rfl⟩ | ⟨maps, -, found, mid, success, isFile, loop, rfl⟩ :=
    mmap_cases run
  · have same : SameFiles st { st with locked } := ⟨rfl, rfl, rfl, rfl, rfl⟩
    refine (same.accounted h).congr fun inode => ?_
    rw [leak_mmap, if_neg fun fails => refused fails.1, Nat.add_zero]
  · have numbered : UserProcess.Accounted base _
        { (st.fileOpen found.inode).1 with nextMapid := st.nextMapid + 1 } :=
      SameFiles.accounted ⟨rfl, rfl, rfl, rfl, rfl⟩ (h.fileOpen found.inode)
    have accounted := numbered.mmapLoop loop
    have fails := (mmapLoop_fails loop).1
    cases success with
    | false =>
      -- the reopened file is in no list
      have lost : UserProcess.Accounted base _ { mid with locked := true } :=
        SameFiles.accounted ⟨rfl, rfl, rfl, rfl, rfl⟩ accounted
      refine lost.congr fun inode => ?_
      rw [leak_mmap, if_pos ⟨maps, fails.mp rfl⟩, isFile, Option.toList, opensOf_cons]
      simp only [opensOf, List.countP_nil, Nat.zero_add]
    | true =>
      have given : UserProcess.Accounted base lost
          { mid with mmapFileList := mid.mmapFileList ++ [(st.fileOpen found.inode).2] } := by
        refine accounted.keep rfl fun inode => ?_
        simp only [held, opensOf_append, opensOf_cons, UserProcess.fileOpen]
        simp only [opensOf, List.countP_nil]
        omega
      have succeeds : ¬st.MmapFails install fd upage length reopens :=
        fun all => nomatch fails.mpr all.2
      refine given.congr fun inode => ?_
      rw [leak_mmap, if_neg succeeds, Nat.add_zero]

theorem Accounted.load {exe : Executable} {success : Bool} (h : st.Accounted base lost)
    (created : st.file = none) (run : st.load exe = some (st', success)) :
    st'.Accounted base fun inode => lost inode + exe.opened.left.count inode := by
  apply (SameFiles.of_adds (AddsPages.load run)).accounted
  cases exe.opened with
  | null left => exact h.leave left
  | file inode =>
    refine (h.fileOpen inode).keep rfl fun other => ?_
    simp only [held, openExecutable, UserProcess.fileOpen, inodeOpen, created, Option.toList,
      opensOf_cons]
    simp only [opensOf, List.countP_nil]
    omega

theorem fault_same (st : UserProcess) (addr : Nat) (above back setPage : Bool) :
    SameFiles st (st.fault addr above back setPage) := by
  have stack := SameFiles.of_adds (.installStack st (addr - addr % pgsize) setPage)
  rw [fault]
  simp only
  split
  · exact ⟨rfl, rfl, rfl, rfl, rfl⟩
  split
  · exact .refl st
  split
  · split <;> exact ⟨rfl, rfl, rfl, rfl, rfl⟩
  split
  · split
    · exact stack
    · exact ⟨stack.openCnt, stack.file, stack.fileList, stack.mmapFileList, stack.curDir⟩
  · exact ⟨rfl, rfl, rfl, rfl, rfl⟩

/-- What a call opens is held afterwards, or lost in it. -/
theorem Accounted.call {c : Call} (h : st.Accounted base lost) (run : st.call c = some st') :
    st'.Accounted base fun inode => lost inode + st.leak c inode := by
  cases c with
  | open_ opened =>
    obtain ⟨⟨mid, fd⟩, done, rfl⟩ := Option.map_eq_some_iff.mp run
    exact h.open_ done
  | close fd => exact h.close run
  | mmap fd upage length reopens install stale =>
    obtain ⟨⟨mid, mapid⟩, done, rfl⟩ := Option.map_eq_some_iff.mp run
    exact h.mmap done
  | munmap mapid stale =>
    obtain rfl := Option.some.inj run
    exact h.munmapLoop stale mapid st.mmapList
  | fault addr above back setPage =>
    obtain rfl := Option.some.inj run
    exact (st.fault_same addr above back setPage).accounted h
  | evict upage =>
    obtain rfl := Option.some.inj run
    exact SameFiles.accounted ⟨rfl, rfl, rfl, rfl, rfl⟩ h

end Calls

section Runs

variable {base lost : Nat → Nat} {st st' : UserProcess}

/-- The opens that a process starts with are those of its executable and its directory. -/
theorem spawn_accounted {parentDir : Option Nat} {reopens : Bool} {exe : Executable}
    (run : spawn base parentDir reopens exe = some st) :
    st.Accounted base fun inode => exe.opened.left.count inode := by
  obtain ⟨⟨mid, success⟩, loaded, rfl⟩ := Option.map_eq_some_iff.mp run
  have start : (create base parentDir reopens).Accounted base fun _ => 0 := by
    intro inode
    cases parentDir with
    | none => rfl
    | some dir =>
      cases reopens with
      | false => rfl
      | true =>
        have more := inodeOpen_openCnt
          ⟨.running, base, none, [], 2, [], fun _ => false, [], 1, [], none, false, 0, []⟩ dir inode
        unfold create
        simp only [if_true, held, inodeOpen, Option.toList, List.map_nil, opensOf, List.countP_nil,
          List.count_singleton, beq_iff_eq] at more ⊢
        omega
  have file : (create base parentDir reopens).file = none := by
    cases parentDir with
    | none => rfl
    | some dir => cases reopens <;> rfl
  have balanced := start.load file loaded
  exact (SameFiles.accounted ⟨rfl, rfl, rfl, rfl, rfl⟩ balanced).congr fun inode =>
    (Nat.zero_add _).symm

/-- Over calls that all come to their end, opens are lost exactly in those that do not give them
back. -/
theorem Accounted.run {calls : List Call} (h : st.Accounted base lost)
    (run : exec step st calls = some st') (returned : st'.stage ≠ .panicked) :
    ∃ total, st'.Accounted base total ∧
      ((∀ inode, total inode = 0) ↔ (∀ inode, lost inode = 0) ∧ Each step GivesBack st calls) := by
  induction calls generalizing st lost with
  | nil =>
    obtain rfl := Option.some.inj run
    exact ⟨lost, h, by simp [Each]⟩
  | cons c calls ih =>
    obtain ⟨mid, first, rest⟩ := exec_cons run
    have ready : st.stage = .running := by
      by_contra other
      rw [step, if_neg other] at first
      cases first
    have done : st.call c = some mid := by
      rw [step, if_pos ready] at first
      cases called : st.call c with
      | some result => rw [← Option.some.inj first, called]; rfl
      | none =>
        rw [called] at first
        obtain rfl := Option.some.inj first
        cases calls with
        | nil =>
          obtain rfl := Option.some.inj rest
          exact absurd rfl returned
        | cons d calls =>
          obtain ⟨_, stuck, -⟩ := exec_cons rest
          cases stuck
    obtain ⟨total, accounted, zero⟩ := ih (h.call done) rest
    refine ⟨total, accounted, zero.trans ?_⟩
    have each : Each step GivesBack st (c :: calls) ↔
        st.GivesBack c ∧ Each step GivesBack mid calls := by
      constructor
      · exact fun all => all mid first
      · rintro both next eq
        obtain rfl := Option.some.inj (first.symm.trans eq)
        exact both
    rw [each, givesBack_iff]
    simp only [Nat.add_eq_zero_iff, forall_and]
    exact and_assoc

/-- `munmap_all` takes files out of `mmap_file_list` and closes none. -/
theorem munmapAll_same (stale : Stale) (mmaps : List MmapElem) (st : UserProcess) :
    (munmapAll stale mmaps st).openCnt = st.openCnt ∧ (munmapAll stale mmaps st).file = st.file ∧
      (munmapAll stale mmaps st).fileList = st.fileList := by
  induction mmaps generalizing st with
  | nil => exact ⟨rfl, rfl, rfl⟩
  | cons mmap rest ih =>
    rw [munmapAll]
    split <;> exact ih _

theorem closeAll_openCnt (files : List (Int × File)) (st : UserProcess) (inode : Nat) :
    (closeAll files st).openCnt inode =
      st.openCnt inode - opensOf (files.map Prod.snd) inode := by
  induction files generalizing st with
  | nil => rfl
  | cons fe rest ih =>
    rw [closeAll, ih, List.map_cons, opensOf_cons]
    have closed := st.fileClose_openCnt fe.2 inode
    rw [closed]
    omega

theorem processExit_openCnt (stale : Stale) (st : UserProcess) (inode : Nat) :
    (st.processExit stale).openCnt inode =
      st.openCnt inode -
        (opensOf st.file.toList inode + opensOf (st.fileList.map Prod.snd) inode) := by
  obtain ⟨openCnt, file, fileList⟩ := munmapAll_same stale st.mmapList st
  rw [processExit]
  simp only [file]
  cases st.file with
  | none =>
    simp only [closeAll_openCnt, fileList, openCnt, Option.toList]
    simp only [opensOf, List.countP_nil, Nat.zero_add]
  | some f =>
    have closed := fileClose_openCnt
      { munmapAll stale st.mmapList st with pageTable := [] } f inode
    simp only [fileClose, inodeClose] at closed
    simp only [closeAll_openCnt, fileClose, inodeClose, fileList, Option.toList, opensOf_cons]
    simp only [openCnt] at closed ⊢
    simp only [opensOf, List.countP_nil] at closed ⊢
    omega

/-- The exit of a process gives back its opens exactly when it has no directory, every mapped file
was closed by a `munmap`, no `mmap` failed after its `file_reopen`, and no failed `filesys_open`
left opens. -/
theorem exit_balanced_iff {parentDir : Option Nat} {reopens : Bool} {exe : Executable}
    {calls : List Call} (stale : Stale) (loaded : spawn base parentDir reopens exe = some st)
    (run : exec step st calls = some st') (returned : st'.stage ≠ .panicked) :
    (∀ inode, (st'.processExit stale).openCnt inode = base inode) ↔
      exe.opened.left = [] ∧ Each step GivesBack st calls ∧ st'.mmapFileList = [] ∧
        st'.curDir = none := by
  obtain ⟨total, accounted, zero⟩ := (spawn_accounted loaded).run run returned
  have exit : ∀ inode, (st'.processExit stale).openCnt inode =
      base inode + opensOf st'.mmapFileList inode + st'.curDir.toList.count inode +
        total inode := by
    intro inode
    have balance := accounted inode
    rw [processExit_openCnt, balance, held]
    omega
  have none : st'.curDir = none ↔ ∀ inode, st'.curDir.toList.count inode = 0 := by
    rw [← eq_nil_iff_count]
    cases st'.curDir <;> simp
  rw [eq_nil_iff_count, none, ← opensOf_eq_zero, ← and_assoc, ← zero]
  constructor
  · intro same
    have zeros : ∀ inode, total inode = 0 ∧ opensOf st'.mmapFileList inode = 0 ∧
        st'.curDir.toList.count inode = 0 := by
      intro inode
      have eq := (exit inode).symm.trans (same inode)
      omega
    exact ⟨fun inode => (zeros inode).1, fun inode => (zeros inode).2.1,
      fun inode => (zeros inode).2.2⟩
  · rintro ⟨lost, mapped, dir⟩ inode
    rw [exit, lost, mapped, dir]
    rfl

/-- `open` of inode 5, and `mmap` of its 10 bytes. -/
def openAndMap : List Call :=
  [.open_ (.file 5), .mmap 2 0x10000000 10 true (fun _ => ⟨false, true⟩) fun _ _ => 0]

/-- A process that takes out its mapping and leaves its descriptor open. -/
theorem exit_balanced_munmap : ∃ st st' : UserProcess,
    spawn (fun _ => 0) none true emptyExecutable = some st ∧
      exec step st (openAndMap ++ [.munmap 1 fun _ _ => 0]) = some st' ∧
      st'.openCnt 1 = 1 ∧ st'.openCnt 5 = 1 ∧
      ∀ inode, (st'.processExit fun _ _ => 0).openCnt inode = 0 := by
  refine ⟨_, _, rfl, rfl, rfl, rfl, ?_⟩
  apply (exit_balanced_iff _ (show spawn (fun _ => 0) none true emptyExecutable = some _ from rfl)
    (show exec step _ (openAndMap ++ [.munmap 1 fun _ _ => 0]) = some _ from rfl) (by decide)).mpr
  exact ⟨rfl, Each.eval (by decide), rfl, rfl⟩

/-- The same process exits with its mapping: inode 5 stays open. -/
theorem exit_keeps_mapped_open : ¬∀ (base : Nat → Nat) (parentDir : Option Nat) (reopens : Bool)
    (exe : Executable) (calls : List Call) (stale : Stale) (st st' : UserProcess),
    spawn base parentDir reopens exe = some st → exec step st calls = some st' →
      st'.stage ≠ .panicked → ∀ inode, (st'.processExit stale).openCnt inode = base inode := by
  intro claim
  have closed := claim (fun _ => 0) none true emptyExecutable openAndMap (fun _ _ => 0) _ _ rfl rfl
    (by decide) 5
  revert closed
  decide

end Runs

end UserProcess

end Pintos.Userprog
