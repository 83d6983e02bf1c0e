import Pintos.Userprog.Munmap

/-! `munmap` over whole runs of a process: `mmap` gives each mapping a handle and pages of its own,
and a `munmap` that is right leaves the others theirs. -/

namespace Pintos.Userprog

open Transition Vm UserProcess

namespace Mappings

section Calls

variable {m m' : Mappings}

/-- A handle is closed. -/
theorem Inv.close_handle (inv : m.Inv) {file : File} {handles : List File}
    (perm : m.handles.Perm (file :: handles)) :
    (handles.map (·.id)).Nodup ∧
      (∀ f ∈ handles, f.id < m.proc.fresh ∧ f.id ∉ file.id :: m.proc.freed) ∧
      ∀ id ∈ file.id :: m.proc.freed, id < m.proc.fresh := by
  have nodup := (perm.map (·.id)).nodup_iff.mp inv.handles
  obtain ⟨out, nodup⟩ := List.nodup_cons.mp nodup
  refine ⟨nodup, fun f mem => ?_, fun id mem => ?_⟩
  · obtain ⟨small, live⟩ := inv.live f (perm.mem_iff.mpr (List.mem_cons_of_mem _ mem))
    refine ⟨small, fun closed => ?_⟩
    rcases List.mem_cons.mp closed with same | old
    · exact out (List.mem_map.mpr ⟨f, mem, same⟩)
    · exact live old
  · rcases List.mem_cons.mp mem with rfl | old
    · exact (inv.live file (perm.mem_iff.mpr List.mem_cons_self)).1
    · exact inv.old id old

/-- A handle is opened. -/
theorem Inv.open_handle (inv : m.Inv) {file : File} {handles : List File} {fresh : Nat}
    (new : file.id = m.proc.fresh) (grows : m.proc.fresh < fresh)
    (perm : handles.Perm (file :: m.handles)) :
    (handles.map (·.id)).Nodup ∧
      (∀ f ∈ handles, f.id < fresh ∧ f.id ∉ m.proc.freed) ∧ ∀ id ∈ m.proc.freed, id < fresh := by
  refine ⟨?_, fun f mem => ?_, fun id mem => Nat.lt_trans (inv.old id mem) grows⟩
  · refine (perm.map (·.id)).nodup_iff.mpr (List.nodup_cons.mpr ⟨fun mem => ?_, inv.handles⟩)
    obtain ⟨f, mem, same⟩ := List.mem_map.mp mem
    have small := (inv.live f mem).1
    dsimp only at same
    omega
  · rcases List.mem_cons.mp (perm.mem_iff.mp mem) with rfl | old
    · exact ⟨by omega, fun freed => Nat.ne_of_lt (inv.old _ freed) new⟩
    · obtain ⟨small, live⟩ := inv.live f old
      exact ⟨Nat.lt_trans small grows, live⟩

/-- The mappings and the handles are the same. -/
theorem Inv.same (inv : m.Inv) (mmapList : m'.proc.mmapList = m.proc.mmapList)
    (nextMapid : m'.proc.nextMapid = m.proc.nextMapid)
    (pageTable : m.proc.pageTable ⊆ m'.proc.pageTable) (fresh : m.proc.fresh ≤ m'.proc.fresh)
    (files : m'.proc.mmapFileList = m.proc.mmapFileList)
    (fileList : m'.proc.fileList = m.proc.fileList) (freed : m'.proc.freed = m.proc.freed)
    (frames : ∀ id, (m'.frames id).file = (m.frames id).file) : m'.Inv := by
  have handles : m'.handles = m.handles := by rw [Mappings.handles, fileList, files]; rfl
  refine ⟨fun mmap mem => ?_, ?_, ?_, ?_, fun f mem => ?_, fun id mem => ?_⟩
  · rw [mmapList] at mem
    obtain ⟨mapid, spt, small, file, frame⟩ := inv.pages mmap mem
    rw [nextMapid, files, frames]
    exact ⟨mapid, pageTable spt, Nat.lt_of_lt_of_le small fresh, file, frame⟩
  · rw [mmapList]
    exact inv.apart
  · rw [mmapList]
    exact inv.handle
  · rw [handles]
    exact inv.handles
  · rw [handles] at mem
    obtain ⟨small, live⟩ := inv.live f mem
    rw [freed]
    exact ⟨Nat.lt_of_lt_of_le small fresh, live⟩
  · rw [freed] at mem
    exact Nat.lt_of_lt_of_le (inv.old id mem) fresh

theorem setFrame_file (m : Mappings) (upage : Nat) (change : MappedFrame → MappedFrame)
    (keeps : ∀ frame, (change frame).file = frame.file) (id : Nat) :
    (m.setFrame upage change id).file = (m.frames id).file := by
  rw [setFrame]
  cases m.proc.findSpt upage with
  | some spt =>
    by_cases here : id = spt.id
    · rw [here]
      exact (congrArg MappedFrame.file (Function.update_self ..)).trans (keeps _)
    · exact congrArg MappedFrame.file (Function.update_of_ne here ..)
  | none => rfl

theorem Inv.open_ {opened : Opened} {result : UserProcess × Int} (inv : m.Inv)
    (run : m.proc.open_ opened = some result) : Inv { m with proc := result.1 } := by
  unfold UserProcess.open_ at run
  split at run
  · cases run
  split at run
  next left =>
    obtain rfl := Option.some.inj run
    obtain ⟨cnt, eq, -⟩ := m.proc.foldl_inodeOpen left
    dsimp only
    rw [eq]
    exact inv.same rfl rfl (List.Subset.refl _) (Nat.le_refl _) rfl rfl rfl fun _ => rfl
  next inode =>
    obtain rfl := Option.some.inj run
    let file : File := ⟨m.proc.fresh, inode⟩
    have perm : ((m.proc.fileList ++ [(m.proc.nextFd, file)]).map Prod.snd ++
        m.proc.mmapFileList).Perm (file :: m.handles) := by
      rw [List.map_append, List.append_assoc]
      exact List.perm_middle
    obtain ⟨handles, live, old⟩ := inv.open_handle rfl (Nat.lt_succ_self _) perm
    refine ⟨fun mmap mem => ?_, inv.apart, inv.handle, handles, live, old⟩
    obtain ⟨mapid, spt, small, file⟩ := inv.pages mmap mem
    exact ⟨mapid, spt, Nat.lt_succ_of_lt small, file⟩

theorem Inv.close {fd : Int} {proc : UserProcess} (inv : m.Inv)
    (run : m.proc.close fd = some proc) : Inv { m with proc } := by
  rw [UserProcess.close] at run
  split at run
  · obtain rfl := Option.some.inj run
    exact inv
  next fe found =>
    split at run
    · cases run
    obtain rfl := Option.some.inj run
    have perm : m.handles.Perm
        (fe.2 :: ((m.proc.fileList.erase fe).map Prod.snd ++ m.proc.mmapFileList)) :=
      ((List.perm_cons_erase (List.mem_of_find?_eq_some found)).map Prod.snd).append_right _
    obtain ⟨handles, live, old⟩ := inv.close_handle perm
    exact ⟨inv.pages, inv.apart, inv.handle, handles, live, old⟩

theorem Inv.munmap {stale : Stale} {mapid : Int} (inv : m.Inv)
    (right : m.Unmaps mapid (m.munmap stale mapid)) : (m.munmap stale mapid).1.Inv := by
  obtain ⟨nextMapid, fresh, fileList⟩ := munmapLoop_else stale mapid m.proc.mmapList m.proc
  have eq : (m.munmap stale mapid).1 =
      { m with proc := m.proc.munmapLoop stale mapid m.proc.mmapList } := munmapLoop_frames ..
  have listed : ∀ mmap ∈ (m.munmap stale mapid).1.proc.mmapList, mmap ∈ m.proc.mmapList :=
    fun mmap mem => List.mem_of_mem_filter (right.mmapList ▸ mem)
  cases pages : m.pagesOf mapid with
  | nil =>
    have same := right.absent pages
    rw [eq] at same ⊢
    dsimp only at same
    rw [same]
    exact inv
  | cons mmap rest =>
    have split := inv.split pages
    obtain ⟨freed, files⟩ := right.closed mmap (pages ▸ List.mem_cons_self)
    have perm : m.handles.Perm (mmap.file ::
        (m.proc.fileList.map Prod.snd ++ m.proc.mmapFileList.erase mmap.file)) :=
      ((List.perm_cons_erase (inv.pages mmap split.first).2.2.2.1).append_left _).trans
        List.perm_middle
    obtain ⟨handles, live, old⟩ := inv.close_handle perm
    have mapids : (m.munmap stale mapid).1.proc.nextMapid = m.proc.nextMapid := by
      rw [eq, nextMapid]
    have freshes : (m.munmap stale mapid).1.proc.fresh = m.proc.fresh := by rw [eq, fresh]
    have lists : (m.munmap stale mapid).1.handles =
        m.proc.fileList.map Prod.snd ++ m.proc.mmapFileList.erase mmap.file := by
      rw [Mappings.handles, files, eq, fileList]
    refine ⟨fun page mem => ?_, ?_, fun page mem other mem' => ?_, ?_, ?_, ?_⟩
    · obtain ⟨less, -, small, -, frame⟩ := inv.pages page (listed page mem)
      obtain ⟨spt, file, -, kept⟩ := right.others page mem
      rw [mapids, freshes, kept]
      exact ⟨less, spt, small, file, frame⟩
    · rw [right.mmapList]
      exact inv.apart.sublist (List.filter_sublist.map _)
    · exact inv.handle page (listed page mem) other (listed other mem')
    · rw [lists]
      exact handles
    · rw [lists, freshes, freed]
      exact live
    · rw [freshes, freed]
      exact old

/-- The stack may grow, and pages come and go. -/
theorem fault_else (st : UserProcess) (addr : Nat) (above back setPage : Bool) :
    ∃ stage present pageTable fresh, st.fault addr above back setPage =
      { st with stage, present, pageTable, fresh } ∧ st.pageTable ⊆ pageTable ∧
      st.fresh ≤ fresh := by
  rw [UserProcess.fault]
  dsimp only
  split
  · exact ⟨_, _, _, _, rfl, List.Subset.refl _, Nat.le_refl _⟩
  split
  · exact ⟨_, _, _, _, rfl, List.Subset.refl _, Nat.le_refl _⟩
  split
  · split
    · exact ⟨_, _, _, _, rfl, List.Subset.refl _, Nat.le_refl _⟩
    · exact ⟨_, _, _, _, rfl, List.Subset.refl _, Nat.le_refl _⟩
  split
  · obtain ⟨present, eq, -⟩ :=
      (st.sptInit (addr - addr % pgsize)).installPage_eq (addr - addr % pgsize) setPage
    rw [installStack, eq]
    dsimp only
    split
    · exact ⟨_, _, _, _, rfl, List.subset_append_left _ _, Nat.le_succ _⟩
    · exact ⟨_, _, _, _, rfl, List.subset_append_left _ _, Nat.le_succ _⟩
  · exact ⟨_, _, _, _, rfl, List.Subset.refl _, Nat.le_refl _⟩

theorem Inv.fault (inv : m.Inv) (addr : Nat) (above back setPage : Bool) :
    (m.fault addr above back setPage).Inv := by
  have frames : ∀ id, ((m.fault addr above back setPage).frames id).file = (m.frames id).file := by
    intro id
    rw [Mappings.fault]
    dsimp only
    split
    · refine setFrame_file m _ _ (fun frame => ?_) id
      rfl
    · rfl
  obtain ⟨stage, present, pageTable, fresh, eq, more, grows⟩ :=
    fault_else m.proc addr above back setPage
  have proc : (m.fault addr above back setPage).proc =
      { m.proc with stage, present, pageTable, fresh } := eq
  exact inv.same (by rw [proc]) (by rw [proc]) (by rw [proc]; exact more)
    (by rw [proc]; exact grows) (by rw [proc]) (by rw [proc]) (by rw [proc]) frames

theorem mmapLoop_proc (stale : Stale) (frames : Nat → MappedFrame) (proc : UserProcess)
    {mapid : Int} {file : File} {count upage ofs readBytes : Nat} :
    proc.mmapLoop (fun _ => ⟨false, false⟩) stale mapid file count upage =
      (mmapLoop mapid file count upage ofs readBytes { proc, frames }).map fun m =>
        (m.proc, true) := by
  induction count generalizing proc frames upage ofs readBytes with
  | zero => rfl
  | succ count ih =>
    rw [mmapLoop, UserProcess.mmapLoop, installFrame]
    by_cases user : upage < physBase
    · obtain ⟨mid, installed⟩ : ∃ mid,
          proc.installFile upage ⟨false, false⟩ = some (mid, true) := ⟨_, if_pos user⟩
      rw [installed, Option.map_some]
      dsimp only
      cases mid.findSpt upage with
      | none => rfl
      | some spt => exact ih _ _
    · have refused : proc.installFile upage ⟨false, false⟩ = none := if_neg user
      rw [refused]
      rfl

/-- Without the frames this is `mmap` of the model that leaves them out. -/
theorem mmap_proc (stale : Stale) (fd : Int) (upage length : Nat) (reopens : Bool) :
    (m.mmap fd upage length reopens).map (fun result => (result.1.proc, result.2)) =
      m.proc.mmap (fun _ => ⟨false, false⟩) stale fd upage length reopens := by
  rw [Mappings.mmap, UserProcess.mmap]
  split
  · rfl
  split
  · rfl
  cases m.proc.findFile fd with
  | none => rfl
  | some found =>
    dsimp only
    split
    · rfl
    rw [mmapLoop_proc stale m.frames]
    generalize mmapLoop _ _ _ _ _ _ _ = loop
    cases loop with
    | none => rfl
    | some mid => rfl

/-- What the loop of `mmap` adds. -/
structure Adds (m m' : Mappings) (mapid : Int) (file : File) (more : List MmapElem) : Prop where
  mmapList : m'.proc.mmapList = m.proc.mmapList ++ more
  pageTable : m.proc.pageTable ⊆ m'.proc.pageTable
  fresh : m.proc.fresh ≤ m'.proc.fresh
  others : ∃ mmapList pageTable present fresh, m'.proc =
    { m.proc with mmapList, pageTable, present, fresh }
  frames : ∀ id < m.proc.fresh, m'.frames id = m.frames id
  new : ∀ mmap ∈ more, mmap.mapid = mapid ∧ mmap.file = file ∧ mmap.spt ∈ m'.proc.pageTable ∧
    m.proc.fresh ≤ mmap.spt.id ∧ mmap.spt.id < m'.proc.fresh ∧
    (m'.frames mmap.spt.id).file = file
  apart : (more.map (·.spt)).Nodup

theorem installFrame_adds {upage ofs pageReadBytes : Nat} {file : File}
    (run : m.installFrame upage file ofs pageReadBytes = some m') (new : upage ∉ m.proc.upages) :
    (∃ present, m'.proc = { m.proc.sptInit upage with present }) ∧
      m'.frames = Function.update m.frames m.proc.fresh ⟨file, ofs, pageReadBytes, false, false⟩ ∧
      m'.proc.findSpt upage = some ⟨m.proc.fresh, upage⟩ := by
  obtain ⟨⟨proc, success⟩, installed, rfl⟩ := Option.map_eq_some_iff.mp run
  obtain ⟨present, eq, -⟩ := installFile_eq installed
  refine ⟨⟨present, eq⟩, rfl, ?_⟩
  have absent := (findSpt_eq_none_iff m.proc upage).mpr new
  have table : proc.pageTable = m.proc.pageTable ++ [⟨m.proc.fresh, upage⟩] := by rw [eq]; rfl
  rw [findSpt] at absent ⊢
  rw [table, List.find?_append, absent]
  simp

theorem mmapLoop_adds {mapid : Int} {file : File} {count upage ofs readBytes : Nat}
    (run : m.mmapLoop mapid file count upage ofs readBytes = some m')
    (free : ∀ page ∈ pagesFrom upage count, page ∉ m.proc.upages) :
    ∃ more, Adds m m' mapid file more := by
  have size : pgsize = 4096 := rfl
  induction count generalizing m upage ofs readBytes with
  | zero =>
    obtain rfl := Option.some.inj run
    exact ⟨[], (List.append_nil _).symm, List.Subset.refl _, Nat.le_refl _, ⟨_, _, _, _, rfl⟩,
      fun _ _ => rfl, nofun, List.nodup_nil⟩
  | succ count ih =>
    rw [pagesFrom] at free
    have here := free upage List.mem_cons_self
    rw [mmapLoop] at run
    dsimp only at run
    split at run
    · cases run
    next mid installed =>
      obtain ⟨⟨present, proc⟩, frames, found⟩ := installFrame_adds installed here
      rw [found] at run
      dsimp only at run
      have table : mid.proc.pageTable = m.proc.pageTable ++ [⟨m.proc.fresh, upage⟩] := by
        rw [proc]
        rfl
      have next : mid.proc.fresh = m.proc.fresh + 1 := by
        rw [proc]
        rfl
      have before : mid.proc.mmapList = m.proc.mmapList := by
        rw [proc]
        rfl
      obtain ⟨more, adds⟩ := ih run fun page mem taken => by
        have above := pagesFrom_le mem
        rw [UserProcess.upages, table, List.map_append, List.mem_append] at taken
        rcases taken with old | new
        · exact free page (List.mem_cons_of_mem _ mem) old
        · have same : page = upage := List.mem_singleton.mp new
          omega
      have kept : ∀ id ≤ m.proc.fresh, m'.frames id = mid.frames id :=
        fun id le => adds.frames id (Nat.lt_of_le_of_lt le (by rw [next]; exact Nat.lt_succ_self _))
      have later : m.proc.fresh < m'.proc.fresh :=
        Nat.le_trans (Nat.le_of_eq next.symm) adds.fresh
      refine ⟨⟨mapid, file, ⟨m.proc.fresh, upage⟩⟩ :: more, ?_, ?_, Nat.le_of_lt later, ?_,
        fun id lt => ?_, fun mmap mem => ?_, ?_⟩
      · rw [adds.mmapList, before, List.append_assoc]
        rfl
      · exact fun spt mem => adds.pageTable (table ▸ List.mem_append_left _ mem)
      · obtain ⟨mmapList, pageTable, present', fresh, eq⟩ := adds.others
        rw [proc] at eq
        exact ⟨mmapList, pageTable, present', fresh, eq⟩
      · rw [kept id (Nat.le_of_lt lt), frames, Function.update_of_ne (Nat.ne_of_lt lt)]
      · rcases List.mem_cons.mp mem with rfl | mem
        · refine ⟨rfl, rfl, adds.pageTable (table ▸ List.mem_append_right _ List.mem_cons_self),
            Nat.le_refl _, later, ?_⟩
          rw [kept _ (Nat.le_refl _), frames, Function.update_self]
        · obtain ⟨same, own, listed, low, high⟩ := adds.new mmap mem
          rw [next] at low
          exact ⟨same, own, listed, Nat.le_of_succ_le low, high⟩
      · refine List.nodup_cons.mpr ⟨fun mem => ?_, adds.apart⟩
        obtain ⟨mmap, mem, same⟩ := List.mem_map.mp mem
        have low := (adds.new mmap mem).2.2.2.1
        rw [same, next] at low
        exact Nat.lt_irrefl _ low

/-- A mapping is added, with a handle that no other mapping has. -/
theorem Inv.adds {mid : Mappings} {inode : Nat} {more : List MmapElem} (inv : m.Inv)
    (adds : Adds { m with proc :=
        { (m.proc.fileOpen inode).1 with nextMapid := m.proc.nextMapid + 1 } }
      mid m.proc.nextMapid (m.proc.fileOpen inode).2 more) :
    Inv { mid with proc :=
      { mid.proc with
        mmapFileList := mid.proc.mmapFileList ++ [(m.proc.fileOpen inode).2] } } := by
  obtain ⟨mmapList, pageTable, grows, ⟨_, _, _, fresh, others⟩, frames, new, apart⟩ := adds
  have nextMapid : mid.proc.nextMapid = m.proc.nextMapid + 1 := by rw [others]
  have files : mid.proc.mmapFileList = m.proc.mmapFileList := by rw [others]; rfl
  have fileList : mid.proc.fileList = m.proc.fileList := by rw [others]; rfl
  have freed : mid.proc.freed = m.proc.freed := by rw [others]; rfl
  have grows : m.proc.fresh < mid.proc.fresh := grows
  have file_id : (m.proc.fileOpen inode).2.id = m.proc.fresh := rfl
  have perm : (mid.proc.fileList.map Prod.snd ++
      (mid.proc.mmapFileList ++ [(m.proc.fileOpen inode).2])).Perm
        ((m.proc.fileOpen inode).2 :: m.handles) := by
    rw [fileList, files, ← List.append_assoc]
    exact List.perm_append_comm
  obtain ⟨handles, live, old⟩ := inv.open_handle file_id grows perm
  rw [← freed] at live old
  have listed : mid.proc.mmapList = m.proc.mmapList ++ more := mmapList
  have below : ∀ mmap ∈ m.proc.mmapList, mmap.file.id < m.proc.fresh := fun mmap mem =>
    (inv.live _ (inv.mem_handles mem)).1
  refine ⟨fun mmap mem => ?_, ?_, fun mmap mem other mem' => ?_, handles, live, old⟩
  · dsimp only at mem ⊢
    rw [listed] at mem
    rw [nextMapid, files]
    rcases List.mem_append.mp mem with before | added
    · obtain ⟨mapid, spt, small, file, frame⟩ := inv.pages mmap before
      refine ⟨Int.lt_trans mapid (Int.lt_succ _), pageTable spt, Nat.lt_trans small grows,
        List.mem_append_left _ file, ?_⟩
      rw [frames _ (Nat.lt_succ_of_lt small)]
      exact frame
    · obtain ⟨mapid, file, spt, -, small, frame⟩ := new mmap added
      rw [mapid, file]
      exact ⟨Int.lt_succ _, spt, small, List.mem_append_right _ List.mem_cons_self, frame⟩
  · dsimp only
    rw [listed, List.map_append, List.nodup_append]
    refine ⟨inv.apart, apart, fun spt before _ added same => ?_⟩
    obtain ⟨mmap, mem, rfl⟩ := List.mem_map.mp before
    obtain ⟨mmap', mem', eq⟩ := List.mem_map.mp added
    have small := (inv.pages mmap mem).2.2.1
    have low : m.proc.fresh + 1 ≤ mmap'.spt.id := (new mmap' mem').2.2.2.1
    rw [eq, ← same] at low
    omega
  · dsimp only at mem mem'
    rw [listed] at mem mem'
    rcases List.mem_append.mp mem with before | added
    · rcases List.mem_append.mp mem' with before' | added'
      · exact inv.handle mmap before other before'
      · obtain ⟨mapid, file, -⟩ := new other added'
        refine iff_of_false (fun same => ?_) fun same => ?_
        · have less := (inv.pages mmap before).1
          omega
        · have less := below mmap before
          rw [same, file, file_id] at less
          exact Nat.lt_irrefl _ less
    · obtain ⟨mapid, file, -⟩ := new mmap added
      rcases List.mem_append.mp mem' with before' | added'
      · refine iff_of_false (fun same => ?_) fun same => ?_
        · have less := (inv.pages other before').1
          omega
        · have less := below other before'
          rw [← same, file, file_id] at less
          exact Nat.lt_irrefl _ less
      · obtain ⟨mapid', file', -⟩ := new other added'
        exact iff_of_true (mapid.trans mapid'.symm) (file.trans file'.symm)

/-- No `mmap` gets past its first page with a later page of its range taken. -/
def Separate (m : Mappings) : MapCall → Prop
  | .mmap fd upage length reopens =>
    m.proc.MapsApart (.mmap fd upage length reopens (fun _ => ⟨false, false⟩) fun _ _ => 0)
  | _ => True

theorem Inv.mmap {fd : Int} {upage length : Nat} {reopens : Bool} {result : Mappings × Int}
    (inv : m.Inv) (apart : m.Separate (.mmap fd upage length reopens))
    (run : m.mmap fd upage length reopens = some result) : result.1.Inv := by
  rw [Mappings.mmap] at run
  split at run
  · obtain rfl := Option.some.inj run
    exact inv
  next checked =>
    split at run
    · cases run
    split at run
    · obtain rfl := Option.some.inj run
      exact inv.same rfl rfl (List.Subset.refl _) (Nat.le_refl _) rfl rfl rfl fun _ => rfl
    next found isFile =>
      split at run
      · obtain rfl := Option.some.inj run
        exact inv.same rfl rfl (List.Subset.refl _) (Nat.le_refl _) rfl rfl rfl fun _ => rfl
      next goes =>
        dsimp only at run
        split at run
        · cases run
        next mid loop =>
          obtain rfl := Option.some.inj run
          have check : m.proc.checkMmapAddr upage = true := by simpa using checked
          have reopened : reopens = true := by simpa using (not_or.mp goes).2
          have free := range_free check fun later =>
            apart ⟨check, by rw [isFile]; rfl, .inr reopened, later⟩
          obtain ⟨more, adds⟩ := mmapLoop_adds loop fun page mem listed =>
            free ⟨page, mem, .inr listed⟩
          exact inv.adds adds

/-- What a `munmap` needs to be right. -/
def ClosesOwnHandle (m : Mappings) : MapCall → Prop
  | .munmap mapid stale => ClosesOwn stale m mapid
  | _ => True

/-- A `munmap` is right. -/
def UnmapsRight (m : Mappings) : MapCall → Prop
  | .munmap mapid stale => m.Unmaps mapid (m.munmap stale mapid)
  | _ => True

theorem Inv.unmapsRight_iff (inv : m.Inv) (c : MapCall) :
    m.UnmapsRight c ↔ m.ClosesOwnHandle c := by
  cases c with
  | munmap mapid stale => exact inv.unmaps_iff
  | open_ | close | mmap | fault | evict | store => exact Iff.rfl

theorem Inv.call {c : MapCall} (inv : m.Inv) (apart : m.Separate c)
    (closes : m.ClosesOwnHandle c) (run : m.call c = some m') : m'.Inv := by
  cases c with
  | open_ opened =>
    obtain ⟨result, done, rfl⟩ := Option.map_eq_some_iff.mp run
    exact inv.open_ done
  | close fd =>
    obtain ⟨proc, done, rfl⟩ := Option.map_eq_some_iff.mp run
    exact inv.close done
  | mmap fd upage length reopens =>
    obtain ⟨result, done, rfl⟩ := Option.map_eq_some_iff.mp run
    exact inv.mmap apart done
  | munmap mapid stale =>
    obtain rfl := Option.some.inj run
    exact inv.munmap (inv.unmaps closes)
  | fault addr above back setPage =>
    obtain rfl := Option.some.inj run
    exact inv.fault addr above back setPage
  | evict upage =>
    obtain rfl := Option.some.inj run
    exact inv.same rfl rfl (List.Subset.refl _) (Nat.le_refl _) rfl rfl rfl
      (setFrame_file m upage _ fun _ => rfl)
  | store upage =>
    obtain rfl := Option.some.inj run
    rw [Mappings.store]
    split
    · exact inv.same rfl rfl (List.Subset.refl _) (Nat.le_refl _) rfl rfl rfl
        (setFrame_file m upage _ fun _ => rfl)
    · exact inv

theorem Inv.step {c : MapCall} (inv : m.Inv) (apart : m.Separate c)
    (closes : m.ClosesOwnHandle c) (run : m.step c = some m') : m'.Inv := by
  rw [Mappings.step] at run
  split at run
  swap
  · cases run
  obtain rfl := Option.some.inj run
  cases called : m.call c with
  | some result => exact inv.call apart closes called
  | none => exact inv.same rfl rfl (List.Subset.refl _) (Nat.le_refl _) rfl rfl rfl fun _ => rfl

theorem Inv.of_empty (mmapList : m.proc.mmapList = []) (fileList : m.proc.fileList = [])
    (mmapFileList : m.proc.mmapFileList = []) (freed : m.proc.freed = []) : m.Inv := by
  have handles : m.handles = [] := by
    rw [Mappings.handles, fileList, mmapFileList]
    rfl
  constructor
  · rw [mmapList]
    nofun
  · rw [mmapList]
    exact List.nodup_nil
  · rw [mmapList]
    nofun
  · rw [handles]
    exact List.nodup_nil
  · rw [handles]
    nofun
  · rw [freed]
    nofun

/-- A process that was loaded has no mappings and no handles. -/
theorem spawn_inv {proc : UserProcess} {openCnt : Nat → Nat} {parentDir : Option Nat}
    {reopens : Bool} {exe : Executable} (run : spawn openCnt parentDir reopens exe = some proc)
    (frames : Nat → MappedFrame) : Inv { proc, frames } := by
  obtain ⟨⟨mid, success⟩, loaded, rfl⟩ := Option.map_eq_some_iff.mp run
  obtain ⟨pageTable, present, fresh, rfl⟩ := (AddsPages.load loaded).others
  have created : (create openCnt parentDir reopens).mmapList = [] ∧
      (create openCnt parentDir reopens).fileList = [] ∧
      (create openCnt parentDir reopens).mmapFileList = [] ∧
      (create openCnt parentDir reopens).freed = [] := by
    cases parentDir with
    | none => exact ⟨rfl, rfl, rfl, rfl⟩
    | some dir => cases reopens <;> exact ⟨rfl, rfl, rfl, rfl⟩
  have start : ((create openCnt parentDir reopens).openExecutable exe.opened).mmapList = [] ∧
      ((create openCnt parentDir reopens).openExecutable exe.opened).fileList = [] ∧
      ((create openCnt parentDir reopens).openExecutable exe.opened).mmapFileList = [] ∧
      ((create openCnt parentDir reopens).openExecutable exe.opened).freed = [] := by
    cases exe.opened with
    | file inode => exact created
    | null left =>
      obtain ⟨cnt, eq, -⟩ := (create openCnt parentDir reopens).foldl_inodeOpen left
      rw [openExecutable, eq]
      exact created
  obtain ⟨mmapList, fileList, mmapFileList, freed⟩ := start
  exact .of_empty mmapList fileList mmapFileList freed

instance (stale : Stale) (m : Mappings) (mapid : Int) : Decidable (ClosesOwn stale m mapid) :=
  match eq : m.pagesOf mapid with
  | [] => isTrue (by rw [ClosesOwn, eq]; trivial)
  | mmap :: rest => decidable_of_iff
      (m.proc.mmapFileList.find? (fun fe => fe.inode = mmap.file.inode) = some mmap.file ∧
        (rest = [] ∨
          (∀ later ∈ rest,
            ¬((m.frames later.spt.id).load = true ∧ (m.frames later.spt.id).dirty = true)) ∧
          ∀ fe ∈ m.proc.mmapFileList.erase mmap.file,
            fe.inode ≠ stale (mmap.file.id :: m.proc.freed) mmap.file.id))
      (by rw [ClosesOwn, eq])

instance (m : Mappings) : (c : MapCall) → Decidable (m.ClosesOwnHandle c)
  | .munmap mapid stale => inferInstanceAs (Decidable (ClosesOwn stale m mapid))
  | .open_ _ | .close _ | .mmap .. | .fault .. | .evict _ | .store _ => isTrue trivial

instance (m : Mappings) : (c : MapCall) → Decidable (m.Separate c)
  | .mmap fd upage length reopens => inferInstanceAs (Decidable
      (m.proc.MapsApart (.mmap fd upage length reopens (fun _ => ⟨false, false⟩) fun _ _ => 0)))
  | .open_ _ | .close _ | .munmap .. | .fault .. | .evict _ | .store _ => isTrue trivial

def noFrames : Nat → MappedFrame := fun _ => ⟨⟨0, 0⟩, 0, 0, false, false⟩

/-- A file of one page is mapped, its page is written, and the mapping is taken out. -/
def mapAndStore : List MapCall :=
  [.open_ (.file 5), .mmap 2 0x10000000 10 true, .fault 0x10000000 false true true,
    .store 0x10000000, .munmap 1 fun _ _ => 0]

/-- A file is mapped twice, and the second mapping is taken out. -/
def mapFileTwice : List MapCall :=
  [.open_ (.file 5), .mmap 2 0x10000000 10 true, .mmap 2 0x20000000 10 true,
    .munmap 2 fun _ _ => 0]

end Calls

end Mappings

end Pintos.Userprog
