import Pintos.Userprog.Overlap

/-! `munmap` with what it writes back: the frames of the mapped pages, the handles that `mmap`
reopens, and which of them are closed. -/

namespace Pintos.Userprog

open Transition Vm UserProcess

/-- What `munmap` reads of the `struct frame_elem` of a mapped page, and the dirty bit of its
address.  Frames are not shared. -/
structure MappedFrame where
  file : File
  ofs : Nat
  pageReadBytes : Nat
  load : Bool
  dirty : Bool

/-- A `file_write_at` of a page: the handle, whether it is open, and the place in the file. -/
structure WriteBack where
  file : File
  isOpen : Bool
  ofs : Nat
  size : Nat
  deriving DecidableEq

/-- A process with the frames of its pages, by their `struct sup_page_table`. -/
structure Mappings where
  proc : UserProcess
  frames : Nat → MappedFrame

namespace Mappings

/-- `install_frame` of a page of a mapping. -/
def installFrame (m : Mappings) (upage : Nat) (file : File) (ofs pageReadBytes : Nat) :
    Option Mappings :=
  (m.proc.installFile upage ⟨false, false⟩).map fun result =>
    { proc := result.1
      frames := Function.update m.frames m.proc.fresh ⟨file, ofs, pageReadBytes, false, false⟩ }

/-- The loop of `mmap` over `count` pages. -/
def mmapLoop (mapid : Int) (file : File) : Nat → Nat → Nat → Nat → Mappings → Option Mappings
  | 0, _, _, _, m => some m
  | count + 1, upage, ofs, readBytes, m =>
    let pageReadBytes := if readBytes < pgsize then readBytes else pgsize
    match m.installFrame upage file ofs pageReadBytes with
    | none => none
    | some m =>
      match m.proc.findSpt upage with
      | none => none
      | some spt =>
        mmapLoop mapid file count (upage + pgsize) (ofs + pageReadBytes) (readBytes - pageReadBytes)
          { m with proc := { m.proc with mmapList := m.proc.mmapList ++ [⟨mapid, file, spt⟩] } }

def mmap (m : Mappings) (fd : Int) (upage length : Nat) (reopens : Bool) :
    Option (Mappings × Int) :=
  if !m.proc.checkMmapAddr upage then some (m, -1)
  else if m.proc.locked then none
  else
    match m.proc.findFile fd with
    | none => some ({ m with proc := { m.proc with locked := true } }, -1)
    | some found =>
      if length = 0 ∨ !reopens then some ({ m with proc := { m.proc with locked := true } }, -1)
      else
        let (proc, file) := m.proc.fileOpen found.inode
        let mapid := proc.nextMapid
        let m := { m with proc := { proc with nextMapid := proc.nextMapid + 1 } }
        match m.mmapLoop mapid file (pages length) upage 0 length with
        | none => none
        | some m =>
          some ({ m with proc := { m.proc with mmapFileList := m.proc.mmapFileList ++ [file] } },
            mapid)

/-- A `file_write_at` of the page of a frame, to a handle that is open or not. -/
def writeAt (frame : MappedFrame) (isOpen : Bool) : List WriteBack :=
  if frame.load ∧ frame.dirty then [⟨frame.file, isOpen, frame.ofs, frame.pageReadBytes⟩] else []

/-- What the body of the loop in `munmap` writes. -/
def writeBack (m : Mappings) (mmap : MmapElem) : List WriteBack :=
  let frame := m.frames mmap.spt.id
  writeAt frame (frame.file.id ∉ m.proc.freed)

/-- The loop of `munmap`, with what it writes. -/
def munmapLoop (stale : Stale) (mapid : Int) :
    List MmapElem → Mappings → Mappings × List WriteBack
  | [], m => (m, [])
  | mmap :: rest, m =>
    if mapid = mmap.mapid then
      let (m', writes) :=
        munmapLoop stale mapid rest { m with proc := m.proc.unmapPage stale mmap }
      (m', m.writeBack mmap ++ writes)
    else munmapLoop stale mapid rest m

def munmap (stale : Stale) (m : Mappings) (mapid : Int) : Mappings × List WriteBack :=
  munmapLoop stale mapid m.proc.mmapList m

/-- The frame of the page at an address is changed, if there is one. -/
def setFrame (m : Mappings) (upage : Nat) (change : MappedFrame → MappedFrame) :
    Nat → MappedFrame :=
  match m.proc.findSpt upage with
  | some spt => Function.update m.frames spt.id (change (m.frames spt.id))
  | none => m.frames

/-- A page that comes in has a clear dirty bit. -/
def fault (m : Mappings) (addr : Nat) (above back setPage : Bool) : Mappings where
  proc := m.proc.fault addr above back setPage
  frames :=
    let upage := addr - addr % pgsize
    if m.proc.present upage = false ∧ back = true then
      m.setFrame upage fun frame => { frame with load := true, dirty := false }
    else m.frames

def evict (m : Mappings) (upage : Nat) : Mappings where
  proc := { m.proc with present := Function.update m.proc.present upage false }
  frames := m.setFrame upage fun frame => { frame with load := false }

/-- A store of the process to a page that is present. -/
def store (m : Mappings) (upage : Nat) : Mappings :=
  if m.proc.present upage then
    { m with frames := m.setFrame upage fun frame => { frame with dirty := true } }
  else m

end Mappings

inductive MapCall
  | open_ (opened : Opened)
  | close (fd : Int)
  | mmap (fd : Int) (upage length : Nat) (reopens : Bool)
  | munmap (mapid : Int) (stale : Stale)
  | fault (addr : Nat) (above back setPage : Bool)
  | evict (upage : Nat)
  | store (upage : Nat)

namespace Mappings

def call (m : Mappings) : MapCall → Option Mappings
  | .open_ opened => (m.proc.open_ opened).map fun result => { m with proc := result.1 }
  | .close fd => (m.proc.close fd).map fun proc => { m with proc }
  | .mmap fd upage length reopens => (m.mmap fd upage length reopens).map Prod.fst
  | .munmap mapid stale => some (m.munmap stale mapid).1
  | .fault addr above back setPage => some (m.fault addr above back setPage)
  | .evict upage => some (m.evict upage)
  | .store upage => some (m.store upage)

/-- One call of a process that runs.  After a failed assertion there are no more. -/
def step (m : Mappings) (c : MapCall) : Option Mappings :=
  if m.proc.stage = .running then
    some ((m.call c).getD { m with proc := { m.proc with stage := .panicked } })
  else none

/-- The pages of a mapping. -/
def pagesOf (m : Mappings) (mapid : Int) : List MmapElem :=
  m.proc.mmapList.filter fun mmap => mapid = mmap.mapid

/-- A `munmap` writes the dirty pages of the mapping through its open handle, removes its pages,
closes its handle once, and leaves the other mappings as they are. -/
structure Unmaps (m : Mappings) (mapid : Int) (result : Mappings × List WriteBack) : Prop where
  writes : result.2 = (m.pagesOf mapid).flatMap fun mmap =>
    writeAt { m.frames mmap.spt.id with file := mmap.file } true
  mmapList : result.1.proc.mmapList = m.proc.mmapList.filter fun mmap => mapid ≠ mmap.mapid
  pageTable : result.1.proc.pageTable = m.proc.pageTable.diff ((m.pagesOf mapid).map (·.spt))
  present : ∀ upage, result.1.proc.present upage =
    (m.proc.present upage && !(m.pagesOf mapid).any fun mmap => mmap.spt.upage = upage)
  closed : ∀ mmap ∈ m.pagesOf mapid, result.1.proc.freed = mmap.file.id :: m.proc.freed ∧
    result.1.proc.mmapFileList = m.proc.mmapFileList.erase mmap.file
  absent : m.pagesOf mapid = [] → result.1.proc = m.proc
  others : ∀ mmap ∈ result.1.proc.mmapList, mmap.spt ∈ result.1.proc.pageTable ∧
    mmap.file ∈ result.1.proc.mmapFileList ∧ mmap.file.id ∉ result.1.proc.freed ∧
    result.1.frames mmap.spt.id = m.frames mmap.spt.id

/-- The handle of the mapping is the first one of its inode; no page after the first is dirty in
memory, and the inode that its freed handle reads as then is that of no other mapping. -/
def ClosesOwn (stale : Stale) (m : Mappings) (mapid : Int) : Prop :=
  match m.pagesOf mapid with
  | [] => True
  | mmap :: rest =>
    m.proc.mmapFileList.find? (fun fe => fe.inode = mmap.file.inode) = some mmap.file ∧
      (rest = [] ∨
        (∀ later ∈ rest,
          ¬((m.frames later.spt.id).load = true ∧ (m.frames later.spt.id).dirty = true)) ∧
        ∀ fe ∈ m.proc.mmapFileList.erase mmap.file,
          fe.inode ≠ stale (mmap.file.id :: m.proc.freed) mmap.file.id)

end Mappings

section Loop

variable {st : UserProcess} {stale : Stale} {mapid : Int} {pages : List MmapElem}

theorem unmapPage_pages (stale : Stale) (st : UserProcess) (mmap : MmapElem) :
    (st.unmapPage stale mmap).mmapList = st.mmapList.erase mmap ∧
      (st.unmapPage stale mmap).pageTable = st.pageTable.erase mmap.spt ∧
      (st.unmapPage stale mmap).present = Function.update st.present mmap.spt.upage false := by
  unfold UserProcess.unmapPage
  dsimp only
  split
  · exact ⟨rfl, rfl, rfl⟩
  · exact ⟨rfl, rfl, rfl⟩

theorem unmapPage_else (stale : Stale) (st : UserProcess) (mmap : MmapElem) :
    (st.unmapPage stale mmap).nextMapid = st.nextMapid ∧
      (st.unmapPage stale mmap).fresh = st.fresh ∧
      (st.unmapPage stale mmap).fileList = st.fileList := by
  unfold UserProcess.unmapPage
  dsimp only
  split
  · exact ⟨rfl, rfl, rfl⟩
  · exact ⟨rfl, rfl, rfl⟩

/-- The first handle with the inode is closed, if there is one. -/
theorem unmapPage_handles (stale : Stale) (st : UserProcess) (mmap : MmapElem) :
    (∃ fe, st.findMappedFile stale mmap.file = some fe ∧
      (st.unmapPage stale mmap).freed = fe.id :: st.freed ∧
      (st.unmapPage stale mmap).mmapFileList = st.mmapFileList.erase fe) ∨
    st.findMappedFile stale mmap.file = none ∧
      (st.unmapPage stale mmap).freed = st.freed ∧
      (st.unmapPage stale mmap).mmapFileList = st.mmapFileList := by
  have same : (st.freePage mmap).findMappedFile stale mmap.file =
    st.findMappedFile stale mmap.file := rfl
  unfold UserProcess.unmapPage
  dsimp only
  rw [same]
  split
  next fe found => exact .inl ⟨fe, found, rfl, rfl⟩
  next nothing => exact .inr ⟨nothing, rfl, rfl⟩

/-- The loop passes over the pages of other mappings. -/
theorem munmapLoop_filter (stale : Stale) (mapid : Int) (mmaps : List MmapElem) (m : Mappings) :
    Mappings.munmapLoop stale mapid mmaps m =
      Mappings.munmapLoop stale mapid (mmaps.filter fun mmap => mapid = mmap.mapid) m := by
  induction mmaps generalizing m with
  | nil => rfl
  | cons mmap rest ih =>
    rw [Mappings.munmapLoop, List.filter_cons]
    by_cases same : mapid = mmap.mapid
    · rw [if_pos same, if_pos (decide_eq_true same), Mappings.munmapLoop, if_pos same, ih]
    · rw [if_neg same, if_neg (by simpa using same), ih]

theorem munmapLoop_frames (stale : Stale) (mapid : Int) (mmaps : List MmapElem) (m : Mappings) :
    (Mappings.munmapLoop stale mapid mmaps m).1 =
      { m with proc := m.proc.munmapLoop stale mapid mmaps } := by
  induction mmaps generalizing m with
  | nil => rfl
  | cons mmap rest ih =>
    rw [Mappings.munmapLoop, UserProcess.munmapLoop]
    split
    next => exact ih _
    next => exact ih _

theorem munmapLoop_else (stale : Stale) (mapid : Int) (mmaps : List MmapElem)
    (st : UserProcess) :
    (st.munmapLoop stale mapid mmaps).nextMapid = st.nextMapid ∧
      (st.munmapLoop stale mapid mmaps).fresh = st.fresh ∧
      (st.munmapLoop stale mapid mmaps).fileList = st.fileList := by
  induction mmaps generalizing st with
  | nil => exact ⟨rfl, rfl, rfl⟩
  | cons mmap rest ih =>
    rw [UserProcess.munmapLoop]
    split
    next =>
      obtain ⟨mapids, freshes, files⟩ := ih (st.unmapPage stale mmap)
      rw [mapids, freshes, files]
      exact unmapPage_else stale st mmap
    next => exact ih st

variable (own : ∀ mmap ∈ pages, mapid = mmap.mapid)

include own

variable (st stale) in
theorem munmapLoop_pages :
    (st.munmapLoop stale mapid pages).mmapList = st.mmapList.diff pages ∧
      (st.munmapLoop stale mapid pages).pageTable = st.pageTable.diff (pages.map (·.spt)) ∧
      ∀ upage, (st.munmapLoop stale mapid pages).present upage =
        (st.present upage && !pages.any fun mmap => mmap.spt.upage = upage) := by
  induction pages generalizing st with
  | nil => exact ⟨rfl, rfl, fun upage => (Bool.and_true _).symm⟩
  | cons mmap rest ih =>
    obtain ⟨mmapList, pageTable, present⟩ := unmapPage_pages stale st mmap
    obtain ⟨mmapLists, pageTables, presents⟩ :=
      ih (st.unmapPage stale mmap) fun later mem => own later (List.mem_cons_of_mem _ mem)
    rw [UserProcess.munmapLoop, if_pos (own mmap List.mem_cons_self)]
    refine ⟨?_, ?_, fun upage => ?_⟩
    · rw [mmapLists, mmapList, List.diff_cons]
    · rw [pageTables, pageTable, List.map_cons, List.diff_cons]
    · rw [presents, present, List.any_cons]
      by_cases here : mmap.spt.upage = upage
      · rw [here, Function.update_self, decide_eq_true rfl]
        simp
      · rw [Function.update_of_ne (Ne.symm here), decide_eq_false here, Bool.false_or]

variable (st stale) in
/-- Handles are only closed. -/
theorem munmapLoop_freed :
    ∃ closed, (st.munmapLoop stale mapid pages).freed = closed ++ st.freed := by
  induction pages generalizing st with
  | nil => exact ⟨[], rfl⟩
  | cons mmap rest ih =>
    obtain ⟨closed, eq⟩ :=
      ih (st.unmapPage stale mmap) fun later mem => own later (List.mem_cons_of_mem _ mem)
    rw [UserProcess.munmapLoop, if_pos (own mmap List.mem_cons_self), eq]
    obtain ⟨fe, -, freed, -⟩ | ⟨-, freed, -⟩ := unmapPage_handles stale st mmap
    · exact ⟨closed ++ [fe.id], by rw [freed, List.append_assoc]; rfl⟩
    · exact ⟨closed, by rw [freed]⟩

/-- Pages for which no handle is found leave the handles alone. -/
theorem munmapLoop_quiet {file : File} (same : ∀ mmap ∈ pages, mmap.file = file)
    (quiet : st.findMappedFile stale file = none) :
    (st.munmapLoop stale mapid pages).freed = st.freed ∧
      (st.munmapLoop stale mapid pages).mmapFileList = st.mmapFileList := by
  induction pages generalizing st with
  | nil => exact ⟨rfl, rfl⟩
  | cons mmap rest ih =>
    rw [UserProcess.munmapLoop, if_pos (own mmap List.mem_cons_self)]
    obtain ⟨fe, found, -⟩ | ⟨-, freed, files⟩ := unmapPage_handles stale st mmap
    · rw [same mmap List.mem_cons_self, quiet] at found
      cases found
    · have still : (st.unmapPage stale mmap).findMappedFile stale file = none := by
        rw [← quiet, UserProcess.findMappedFile, UserProcess.findMappedFile, UserProcess.inodeOf,
          UserProcess.inodeOf, freed, files]
      obtain ⟨freeds, filess⟩ := ih (fun later mem => own later (List.mem_cons_of_mem _ mem))
        (fun later mem => same later (List.mem_cons_of_mem _ mem)) still
      exact ⟨freeds.trans freed, filess.trans files⟩

/-- After its handle is closed, the dirty pages of a mapping are written through a freed one. -/
theorem munmapLoop_writes {m : Mappings} {file : File}
    (same : ∀ mmap ∈ pages, (m.frames mmap.spt.id).file = file) (closed : file.id ∈ m.proc.freed) :
    (Mappings.munmapLoop stale mapid pages m).2 =
      pages.flatMap fun mmap => Mappings.writeAt (m.frames mmap.spt.id) false := by
  induction pages generalizing m with
  | nil => rfl
  | cons mmap rest ih =>
    have still : file.id ∈ (m.proc.unmapPage stale mmap).freed := by
      obtain ⟨fe, -, freed, -⟩ | ⟨-, freed, -⟩ := unmapPage_handles stale m.proc mmap
      · rw [freed]
        exact List.mem_cons_of_mem _ closed
      · rw [freed]
        exact closed
    have rests := ih (m := { m with proc := m.proc.unmapPage stale mmap })
      (fun later mem => own later (List.mem_cons_of_mem _ mem))
      (fun later mem => same later (List.mem_cons_of_mem _ mem)) still
    have first : m.writeBack mmap = Mappings.writeAt (m.frames mmap.spt.id) false := by
      rw [Mappings.writeBack, same mmap List.mem_cons_self, decide_eq_false (not_not.mpr closed)]
    rw [Mappings.munmapLoop, if_pos (own mmap List.mem_cons_self)]
    dsimp only
    rw [rests, first, List.flatMap_cons]

end Loop

namespace Mappings

/-- The handles of `open` and of `mmap`. -/
def handles (m : Mappings) : List File := m.proc.fileList.map Prod.snd ++ m.proc.mmapFileList

/-- Each mapping has pages and a handle of its own, which is open. -/
structure Inv (m : Mappings) : Prop where
  pages : ∀ mmap ∈ m.proc.mmapList, mmap.mapid < m.proc.nextMapid ∧
    mmap.spt ∈ m.proc.pageTable ∧ mmap.spt.id < m.proc.fresh ∧
    mmap.file ∈ m.proc.mmapFileList ∧ (m.frames mmap.spt.id).file = mmap.file
  apart : (m.proc.mmapList.map (·.spt)).Nodup
  handle : ∀ mmap ∈ m.proc.mmapList, ∀ other ∈ m.proc.mmapList,
    (mmap.mapid = other.mapid ↔ mmap.file = other.file)
  handles : (m.handles.map (·.id)).Nodup
  live : ∀ file ∈ m.handles, file.id < m.proc.fresh ∧ file.id ∉ m.proc.freed
  old : ∀ id ∈ m.proc.freed, id < m.proc.fresh

section Munmap

variable {m : Mappings} {stale : Stale} {mapid : Int} {mmap : MmapElem} {rest : List MmapElem}

theorem mem_pagesOf :
    mmap ∈ m.pagesOf mapid ↔ mmap ∈ m.proc.mmapList ∧ mapid = mmap.mapid := by
  rw [pagesOf, List.mem_filter, decide_eq_true_eq]

theorem Inv.mem_handles (inv : m.Inv) (mem : mmap ∈ m.proc.mmapList) :
    mmap.file ∈ m.handles :=
  List.mem_append_right _ (inv.pages mmap mem).2.2.2.1

theorem Inv.eq_of_id (inv : m.Inv) {file other : File} (mem : file ∈ m.handles)
    (mem' : other ∈ m.handles) (same : file.id = other.id) : file = other :=
  List.inj_on_of_nodup_map inv.handles mem mem' same

theorem Inv.eq_of_spt (inv : m.Inv) {other : MmapElem} (mem : mmap ∈ m.proc.mmapList)
    (mem' : other ∈ m.proc.mmapList) (same : mmap.spt = other.spt) : mmap = other :=
  List.inj_on_of_nodup_map inv.apart mem mem' same

/-- What a `munmap` does to the pages. -/
theorem Inv.munmap_pages (inv : m.Inv) (stale : Stale) (mapid : Int) :
    (m.munmap stale mapid).1.proc.mmapList =
      m.proc.mmapList.filter (fun mmap => mapid ≠ mmap.mapid) ∧
    (m.munmap stale mapid).1.proc.pageTable =
      m.proc.pageTable.diff ((m.pagesOf mapid).map (·.spt)) ∧
    ∀ upage, (m.munmap stale mapid).1.proc.present upage =
      (m.proc.present upage && !(m.pagesOf mapid).any fun mmap => mmap.spt.upage = upage) := by
  rw [munmap, munmapLoop_filter, munmapLoop_frames]
  have own : ∀ mmap ∈ m.pagesOf mapid, mapid = mmap.mapid := fun _ mem => (mem_pagesOf.mp mem).2
  obtain ⟨mmapList, pageTable, present⟩ := munmapLoop_pages m.proc stale own
  refine ⟨mmapList.trans ?_, pageTable, present⟩
  rw [inv.apart.of_map.sdiff_eq_filter]
  refine List.filter_congr fun mmap mem => ?_
  simp [mem_pagesOf, mem]

/-- A page whose frame belongs to the mapping is written through the handle of the mapping. -/
theorem Inv.writeAt_file (inv : m.Inv) (mem : mmap ∈ m.proc.mmapList) (isOpen : Bool) :
    writeAt { m.frames mmap.spt.id with file := mmap.file } isOpen =
      writeAt (m.frames mmap.spt.id) isOpen := by
  rw [← (inv.pages mmap mem).2.2.2.2]

variable (stale) in
theorem munmap_cons (eq : m.pagesOf mapid = mmap :: rest) :
    (m.munmap stale mapid).1.proc = (m.proc.unmapPage stale mmap).munmapLoop stale mapid rest ∧
      (m.munmap stale mapid).2 = m.writeBack mmap ++ (munmapLoop stale mapid rest
        { m with proc := m.proc.unmapPage stale mmap }).2 := by
  have own : mapid = mmap.mapid :=
    (mem_pagesOf.mp (eq ▸ List.mem_cons_self : mmap ∈ m.pagesOf mapid)).2
  have filter : m.proc.mmapList.filter (fun mmap => mapid = mmap.mapid) = mmap :: rest := eq
  rw [munmap, munmapLoop_filter, filter, munmapLoop, if_pos own]
  exact ⟨congrArg Mappings.proc (munmapLoop_frames ..), rfl⟩

variable (stale) in
/-- The first page closes the first handle of the inode. -/
theorem Inv.first_page (inv : m.Inv) (mem : mmap ∈ m.proc.mmapList) :
    ∃ fe, m.proc.mmapFileList.find? (fun fe => fe.inode = mmap.file.inode) = some fe ∧
      (m.proc.unmapPage stale mmap).freed = fe.id :: m.proc.freed ∧
      (m.proc.unmapPage stale mmap).mmapFileList = m.proc.mmapFileList.erase fe := by
  have live := (inv.live _ (inv.mem_handles mem)).2
  have find : m.proc.findMappedFile stale mmap.file =
      m.proc.mmapFileList.find? (fun fe => fe.inode = mmap.file.inode) := by
    rw [UserProcess.findMappedFile, UserProcess.inodeOf, if_neg live]
  obtain ⟨fe, found, closed⟩ | ⟨nothing, -⟩ := unmapPage_handles stale m.proc mmap
  · exact ⟨fe, find.symm.trans found, closed⟩
  · rw [find, List.find?_eq_none] at nothing
    exact absurd (decide_eq_true rfl) (nothing _ (inv.pages mmap mem).2.2.2.1)

/-- The later pages find a handle exactly when one has the inode that the freed one reads as. -/
theorem findMappedFile_closed {st : UserProcess} {file : File} {freed : List Nat}
    (closed : st.freed = file.id :: freed) :
    st.findMappedFile stale file = none ↔
      ∀ fe ∈ st.mmapFileList, fe.inode ≠ stale (file.id :: freed) file.id := by
  rw [UserProcess.findMappedFile, UserProcess.inodeOf, closed, if_pos List.mem_cons_self,
    List.find?_eq_none]
  simp only [decide_eq_true_eq, ne_eq]

/-- If a page closes nothing, it finds no handle. -/
theorem munmapLoop_unclosed {st : UserProcess} (same : (st.munmapLoop stale mapid
    (mmap :: rest)).freed = st.freed) (own : ∀ later ∈ mmap :: rest, mapid = later.mapid) :
    st.findMappedFile stale mmap.file = none := by
  rw [UserProcess.munmapLoop, if_pos (own mmap List.mem_cons_self)] at same
  obtain ⟨closed, more⟩ := munmapLoop_freed (st.unmapPage stale mmap) stale
    fun later mem => own later (List.mem_cons_of_mem _ mem)
  obtain ⟨fe, -, freed, -⟩ | ⟨nothing, -⟩ := unmapPage_handles stale st mmap
  · rw [more, freed] at same
    have length := congrArg List.length same
    simp only [List.length_append, List.length_cons] at length
    omega
  · exact nothing

theorem mem_writeAt {frame : MappedFrame} {isOpen : Bool} {w : WriteBack}
    (mem : w ∈ writeAt frame isOpen) : w.isOpen = isOpen := by
  rw [writeAt] at mem
  split at mem
  · rw [List.mem_singleton.mp mem]
  · cases mem

theorem writeAt_eq_nil_iff {frame : MappedFrame} {isOpen : Bool} :
    writeAt frame isOpen = [] ↔ ¬(frame.load = true ∧ frame.dirty = true) := by
  rw [writeAt]
  split
  next dirty => exact iff_of_false (List.cons_ne_nil _ _) (not_not.mpr dirty)
  next clean => exact iff_of_true rfl clean

/-- The pages of one mapping, split at the first. -/
structure Split (m : Mappings) (mapid : Int) (mmap : MmapElem) (rest : List MmapElem) : Prop where
  eq : m.pagesOf mapid = mmap :: rest
  first : mmap ∈ m.proc.mmapList
  own : ∀ later ∈ rest, mapid = later.mapid
  listed : ∀ later ∈ rest, later ∈ m.proc.mmapList
  file : ∀ later ∈ rest, later.file = mmap.file

theorem Inv.split (inv : m.Inv)
    (eq : m.pagesOf mapid = mmap :: rest) : m.Split mapid mmap rest := by
  have page : ∀ page ∈ mmap :: rest, page ∈ m.proc.mmapList ∧ mapid = page.mapid :=
    fun page mem => mem_pagesOf.mp (eq ▸ mem)
  have first := page mmap List.mem_cons_self
  have later : ∀ later ∈ rest, later ∈ m.proc.mmapList ∧ mapid = later.mapid :=
    fun later mem => page later (List.mem_cons_of_mem _ mem)
  refine ⟨eq, first.1, fun e mem => (later e mem).2, fun e mem => (later e mem).1, fun e mem => ?_⟩
  exact (inv.handle e (later e mem).1 mmap first.1).mp ((later e mem).2.symm.trans first.2)

theorem Split.frames (split : m.Split mapid mmap rest) (inv : m.Inv) :
    ∀ later ∈ rest, (m.frames later.spt.id).file = mmap.file := fun later mem =>
  (inv.pages later (split.listed later mem)).2.2.2.2.trans (split.file later mem)

theorem Inv.writeBack_first (inv : m.Inv) (split : m.Split mapid mmap rest) :
    m.writeBack mmap = writeAt { m.frames mmap.spt.id with file := mmap.file } true := by
  have live := (inv.live _ (inv.mem_handles split.first)).2
  rw [inv.writeAt_file split.first, writeBack, (inv.pages mmap split.first).2.2.2.2,
    decide_eq_true live]

/-- What the later pages of a mapping write once its handle is closed. -/
theorem Inv.writes_rest (inv : m.Inv) (split : m.Split mapid mmap rest)
    (closed : mmap.file.id ∈ (m.proc.unmapPage stale mmap).freed) :
    (munmapLoop stale mapid rest { m with proc := m.proc.unmapPage stale mmap }).2 =
      rest.flatMap fun later => writeAt (m.frames later.spt.id) false :=
  munmapLoop_writes split.own (split.frames inv) closed

theorem Inv.closesOwn (inv : m.Inv) (right : m.Unmaps mapid (m.munmap stale mapid)) :
    ClosesOwn stale m mapid := by
  rw [ClosesOwn]
  split
  next => trivial
  next mmap rest eq =>
    have split := inv.split eq
    obtain ⟨proc, writes⟩ := munmap_cons stale eq
    obtain ⟨fe, found, freed, files⟩ := inv.first_page stale split.first
    obtain ⟨closed, more⟩ := munmapLoop_freed (m.proc.unmapPage stale mmap) stale split.own
    have once := (right.closed mmap (eq ▸ List.mem_cons_self)).1
    -- Nothing is closed besides the handle of the mapping.
    rw [proc, more, freed] at once
    have none : closed = [] := by
      have length := congrArg List.length once
      simp only [List.length_append, List.length_cons] at length
      exact List.length_eq_zero_iff.mp (by omega)
    subst none
    have same : fe.id = mmap.file.id := (List.cons.inj once).1
    have mem : fe ∈ m.handles := List.mem_append_right _ (List.mem_of_find?_eq_some found)
    obtain rfl := inv.eq_of_id mem (inv.mem_handles split.first) same
    refine ⟨found, ?_⟩
    cases rest with
    | nil => exact .inl rfl
    | cons next others =>
      refine .inr ⟨fun later mem dirty => ?_, ?_⟩
      · have after := inv.writes_rest split (freed ▸ List.mem_cons_self)
        have some : writeAt (m.frames later.spt.id) false ≠ [] :=
          fun nothing => writeAt_eq_nil_iff.mp nothing dirty
        obtain ⟨w, mem_w⟩ := List.exists_mem_of_ne_nil _ some
        have written : w ∈ (m.munmap stale mapid).2 := by
          rw [writes, after]
          exact List.mem_append_right _ (List.mem_flatMap.mpr ⟨later, mem, mem_w⟩)
        rw [right.writes] at written
        obtain ⟨page, -, mem_page⟩ := List.mem_flatMap.mp written
        exact Bool.false_ne_true ((mem_writeAt mem_w).symm.trans (mem_writeAt mem_page))
      · have nothing := munmapLoop_unclosed (more.trans (List.nil_append _)) split.own
        rw [split.file next List.mem_cons_self, findMappedFile_closed freed, files] at nothing
        exact nothing

/-- The handle of the mapping is closed, and no other. -/
theorem Inv.closes_once (inv : m.Inv) (split : m.Split mapid mmap rest)
    (closes : ClosesOwn stale m mapid) :
    (m.munmap stale mapid).1.proc.freed = mmap.file.id :: m.proc.freed ∧
      (m.munmap stale mapid).1.proc.mmapFileList = m.proc.mmapFileList.erase mmap.file ∧
      (m.munmap stale mapid).2 =
        writeAt { m.frames mmap.spt.id with file := mmap.file } true ∧
      ∀ later ∈ rest, ∀ file isOpen,
        writeAt { m.frames later.spt.id with file := file } isOpen = [] := by
  rw [ClosesOwn, split.eq] at closes
  obtain ⟨found, only⟩ := closes
  obtain ⟨proc, writes⟩ := munmap_cons stale split.eq
  obtain ⟨fe, found', freed, files⟩ := inv.first_page stale split.first
  obtain rfl := Option.some.inj (found'.symm.trans found)
  rw [proc, writes, inv.writeBack_first split]
  rcases only with rfl | ⟨clean, apart⟩
  · exact ⟨freed, files, List.append_nil _, nofun⟩
  · rw [← files] at apart
    obtain ⟨freeds, filess⟩ := munmapLoop_quiet split.own split.file
      ((findMappedFile_closed freed).mpr apart)
    have nothing : rest.flatMap (fun later => writeAt (m.frames later.spt.id) false) = [] :=
      List.flatMap_eq_nil_iff.mpr fun later mem => writeAt_eq_nil_iff.mpr (clean later mem)
    rw [inv.writes_rest split (freed ▸ List.mem_cons_self), nothing]
    exact ⟨freeds.trans freed, filess.trans files, List.append_nil _,
      fun later mem _ _ => writeAt_eq_nil_iff.mpr (clean later mem)⟩

/-- The other mappings keep their pages and their handle. -/
theorem Inv.others (inv : m.Inv) {other : MmapElem} (mem : other ∈ m.proc.mmapList)
    (ne : mapid ≠ other.mapid) :
    other.spt ∈ m.proc.pageTable.diff ((m.pagesOf mapid).map (·.spt)) ∧
      ∀ mmap ∈ m.pagesOf mapid, other.file ∈ m.proc.mmapFileList.erase mmap.file ∧
        other.file.id ∉ mmap.file.id :: m.proc.freed := by
  obtain ⟨-, spt, -, file, -⟩ := inv.pages other mem
  refine ⟨List.mem_diff_of_mem spt fun taken => ?_, fun mmap page => ?_⟩
  · obtain ⟨mmap, page, same⟩ := List.mem_map.mp taken
    obtain ⟨listed, own⟩ := mem_pagesOf.mp page
    obtain rfl := inv.eq_of_spt listed mem same
    exact ne own
  · obtain ⟨listed, own⟩ := mem_pagesOf.mp page
    have apart : other.file ≠ mmap.file := fun same =>
      ne (own.trans ((inv.handle other mem mmap listed).mpr same).symm)
    refine ⟨(List.mem_erase_of_ne apart).mpr file, fun closed => ?_⟩
    rcases List.mem_cons.mp closed with same | old
    · exact apart (inv.eq_of_id (inv.mem_handles mem) (inv.mem_handles listed) same)
    · exact (inv.live _ (inv.mem_handles mem)).2 old

theorem Inv.unmaps (inv : m.Inv) (closes : ClosesOwn stale m mapid) :
    m.Unmaps mapid (m.munmap stale mapid) := by
  obtain ⟨mmapList, pageTable, present⟩ := inv.munmap_pages stale mapid
  have frames : (m.munmap stale mapid).1.frames = m.frames := by
    rw [munmap, munmapLoop_frames]
  have listed : ∀ other ∈ (m.munmap stale mapid).1.proc.mmapList,
      other ∈ m.proc.mmapList ∧ mapid ≠ other.mapid := fun other mem => by
    rw [mmapList, List.mem_filter, decide_eq_true_eq] at mem
    exact mem
  cases eq : m.pagesOf mapid with
  | nil =>
    have filter : m.proc.mmapList.filter (fun mmap => mapid = mmap.mapid) = [] := eq
    have none : m.munmap stale mapid = (m, []) := by
      rw [munmap, munmapLoop_filter, filter]
      rfl
    refine ⟨?_, mmapList, pageTable, present, ?_, fun _ => by rw [none], fun other mem => ?_⟩
    · rw [none, eq]
      rfl
    · rw [eq]
      nofun
    · obtain ⟨-, spt, -, file, -⟩ := inv.pages other (listed other mem).1
      rw [none]
      exact ⟨spt, file, (inv.live _ (inv.mem_handles (listed other mem).1)).2, rfl⟩
  | cons mmap rest =>
    have split := inv.split eq
    obtain ⟨freed, files, writes, clean⟩ := inv.closes_once split closes
    refine ⟨?_, mmapList, pageTable, present, fun page mem => ?_, fun empty => ?_,
      fun other mem => ?_⟩
    · have nothing : rest.flatMap (fun later =>
          writeAt { m.frames later.spt.id with file := later.file } true) = [] :=
        List.flatMap_eq_nil_iff.mpr fun later mem => clean later mem _ _
      rw [writes, eq, List.flatMap_cons, nothing, List.append_nil]
    · have same : page.file = mmap.file := by
        rw [eq] at mem
        rcases List.mem_cons.mp mem with rfl | later
        · rfl
        · exact split.file page later
      rw [freed, files, same]
      exact ⟨rfl, rfl⟩
    · rw [eq] at empty
      cases empty
    · obtain ⟨spt, kept⟩ := inv.others (listed other mem).1 (listed other mem).2
      obtain ⟨file, live⟩ := kept mmap (eq ▸ List.mem_cons_self)
      rw [pageTable, files, freed, frames]
      exact ⟨spt, file, live, rfl⟩

theorem Inv.unmaps_iff (inv : m.Inv) :
    m.Unmaps mapid (m.munmap stale mapid) ↔ ClosesOwn stale m mapid :=
  ⟨inv.closesOwn, inv.unmaps⟩

end Munmap

end Mappings

end Pintos.Userprog
