import Pintos.Userprog.AddressSpace

/-! A stack page that cannot be mapped: what `install_frame` and `frame_destroy` leave of it, and
how `process_exit` comes to that. -/

namespace Pintos.Userprog

open Vm UserProcess

/-- The `struct frame_elem` of a page, without what a file or swap has of it. -/
structure FrameElem where
  kpage : Nat
  load : Bool
  deriving DecidableEq

/-- A process with `frame_table`, the frames in memory by the `struct sup_page_table` of their page,
and the pages that were given back.  A frame that was freed is no longer in memory. -/
structure Frames where
  proc : UserProcess
  frame : Nat → Option FrameElem
  frameTable : List Nat
  freedPages : List Nat

namespace Frames

/-- `frame_table_insert` of a loaded page, before `spt_init`. -/
def frameTableInsert (st : Frames) (kpage : Nat) : Frames :=
  { st with
    frame := Function.update st.frame st.proc.fresh (some ⟨kpage, true⟩)
    frameTable := st.frameTable ++ [st.proc.fresh] }

/-- `install_frame` of a page that is backed by swap. -/
def installFrame (st : Frames) (upage kpage : Nat) (setPage : Bool) : Frames × Bool :=
  let st := st.frameTableInsert kpage
  let installed := st.proc.installStack upage setPage
  ({ st with proc := installed.1 }, installed.2)

/-- The first frame of `frame_table` with the page. -/
def frameOf (st : Frames) (kpage : Nat) : Option Nat :=
  st.frameTable.find? fun f => (st.frame f).any fun fe => fe.kpage = kpage

def frameDestroy (st : Frames) (kpage : Nat) : Frames :=
  match st.frameOf kpage with
  | none => st
  | some f =>
    { st with
      frameTable := st.frameTable.erase f
      frame := Function.update st.frame f none
      freedPages := kpage :: st.freedPages }

/-- A page for the stack, which the callers hand to `frame_destroy` when it cannot be mapped. -/
def installStackPage (st : Frames) (upage kpage : Nat) (setPage : Bool) : Frames × Bool :=
  let installed := st.installFrame upage kpage setPage
  if installed.2 then installed else (installed.1.frameDestroy kpage, false)

/-- `setup_stack` up to the arguments. -/
def setupStack (st : Frames) (kpage : Nat) (setPage : Bool) : Frames × Bool :=
  st.installStackPage (physBase - pgsize) kpage setPage

/-- `page_fault` and `check_valid_esp` where they grow the stack. -/
def growStack (st : Frames) (addr kpage : Nat) (setPage : Bool) : Frames × Bool :=
  st.installStackPage (addr - addr % pgsize) kpage setPage

/-- `spt_free` and `frame_free` of a page, without a result where its frame was freed. -/
def freePage (st : Frames) (spt : SupPage) : Option Frames :=
  (st.frame spt.id).map fun fe =>
    { proc := { st.proc with
        present :=
          if fe.load then Function.update st.proc.present spt.upage false else st.proc.present
        pageTable := st.proc.pageTable.erase spt }
      frame := Function.update st.frame spt.id none
      frameTable := if fe.load then st.frameTable.erase spt.id else st.frameTable
      freedPages := if fe.load then fe.kpage :: st.freedPages else st.freedPages }

def exitLoop : List SupPage → Frames → Option Frames
  | [], st => some st
  | spt :: rest, st => (st.freePage spt).bind (exitLoop rest)

/-- The loop of `process_exit` over `page_table`. -/
def exitPages (st : Frames) : Option Frames := exitLoop st.proc.pageTable st

/-- Both tables are as they were, the pages refer to frames in memory if they did, and the page was
given back once. -/
structure Undone (st after : Frames) (kpage : Nat) : Prop where
  frameTable : after.frameTable = st.frameTable
  frames : ∀ f ∈ st.frameTable, after.frame f = st.frame f
  pageTable : after.proc.pageTable = st.proc.pageTable
  live : (∀ spt ∈ st.proc.pageTable, st.frame spt.id ≠ none) →
    ∀ spt ∈ after.proc.pageTable, after.frame spt.id ≠ none
  freed : after.freedPages = kpage :: st.freedPages

section Install

variable {st after : Frames} {upage kpage : Nat} {setPage : Bool}

theorem frameDestroy_proc (st : Frames) (kpage : Nat) : (st.frameDestroy kpage).proc = st.proc := by
  unfold frameDestroy
  split
  · rfl
  · rfl

/-- Without the frames this is `install_frame` of the model that leaves them out. -/
theorem installStackPage_proc (st : Frames) (upage kpage : Nat) (setPage : Bool) :
    ((st.installStackPage upage kpage setPage).1.proc,
      (st.installStackPage upage kpage setPage).2) = st.proc.installStack upage setPage := by
  have installed : (st.installFrame upage kpage setPage).2 =
      (st.proc.installStack upage setPage).2 := rfl
  unfold installStackPage
  dsimp only
  split
  · rfl
  next fails =>
    rw [frameDestroy_proc]
    rw [installed] at fails
    exact Prod.ext rfl (Bool.eq_false_iff.mpr fails).symm

/-- A fault that grows the stack ends the process when the page cannot be mapped. -/
theorem growStack_fault {addr : Nat} (user : ¬(physBase ≤ addr ∨ addr ≤ codeBase))
    (absent : st.proc.present (addr - addr % pgsize) = false)
    (new : st.proc.findSpt (addr - addr % pgsize) = none) (kpage : Nat) (back setPage : Bool) :
    st.proc.fault addr true back setPage =
      let grown := st.growStack addr kpage setPage
      if grown.2 then grown.1.proc else { grown.1.proc with stage := .ending } := by
  have grown := st.installStackPage_proc (addr - addr % pgsize) kpage setPage
  rw [fault]
  simp only [user, absent, new, if_false, if_true, Bool.false_eq_true, Option.isSome_none]
  rw [← grown]
  rfl

theorem installStack_pageTable (proc : UserProcess) (upage : Nat) (setPage : Bool) :
    (proc.installStack upage setPage).1.pageTable = proc.pageTable ++ [⟨proc.fresh, upage⟩] := by
  unfold UserProcess.installStack installPage
  split
  · rfl
  split
  · rfl
  · rfl

theorem installStackPage_pageTable (st : Frames) (upage kpage : Nat) (setPage : Bool) :
    (st.installStackPage upage kpage setPage).1.proc.pageTable =
      st.proc.pageTable ++ [⟨st.proc.fresh, upage⟩] := by
  have proc := congrArg Prod.fst (st.installStackPage_proc upage kpage setPage)
  dsimp only at proc
  rw [proc, installStack_pageTable]

/-- `frame_destroy` takes back the frame of a page that no other frame has, but not the entry in
`page_table` that refers to it. -/
theorem installStackPage_failed (fails : (st.installStackPage upage kpage setPage).2 = false)
    (fresh : st.proc.fresh ∉ st.frameTable)
    (new : ∀ f ∈ st.frameTable, ∀ fe ∈ st.frame f, fe.kpage ≠ kpage) :
    (st.installStackPage upage kpage setPage).1 =
      { st with
        proc := (st.proc.installStack upage setPage).1
        frame := Function.update st.frame st.proc.fresh none
        freedPages := kpage :: st.freedPages } := by
  have result := congrArg Prod.snd (st.installStackPage_proc upage kpage setPage)
  dsimp only at result
  rw [fails] at result
  have installed : (st.installFrame upage kpage setPage).2 = false := result.symm
  have found : (st.installFrame upage kpage setPage).1.frameOf kpage = some st.proc.fresh := by
    have others : st.frameTable.find? (fun f =>
        ((Function.update st.frame st.proc.fresh (some ⟨kpage, true⟩)) f).any fun fe =>
          fe.kpage = kpage) = none := by
      rw [List.find?_eq_none]
      intro f listed
      have other : f ≠ st.proc.fresh := fun same => fresh (same ▸ listed)
      rw [Function.update_of_ne other]
      cases here : st.frame f with
      | none => simp
      | some fe => simpa using new f listed fe here
    have table : (st.installFrame upage kpage setPage).1.frameTable =
        st.frameTable ++ [st.proc.fresh] := rfl
    rw [frameOf, table, List.find?_append]
    refine (congrArg (Option.or · _) others).trans ?_
    simp [installFrame, frameTableInsert]
  unfold installStackPage
  dsimp only
  rw [installed, frameDestroy, found]
  have erased : (st.frameTable ++ [st.proc.fresh]).erase st.proc.fresh = st.frameTable := by
    rw [List.erase_append_right _ fresh]
    simp
  simp [installFrame, frameTableInsert, erased]

theorem installStackPage_succeeds_iff (st : Frames) (upage kpage : Nat) (setPage : Bool) :
    (st.installStackPage upage kpage setPage).2 = true ↔
      st.proc.present upage = false ∧ setPage = true := by
  have result := congrArg Prod.snd (st.installStackPage_proc upage kpage setPage)
  dsimp only at result
  have present : (st.proc.sptInit upage).present = st.proc.present := rfl
  rw [result, UserProcess.installStack, installPage, present]
  cases st.proc.present upage <;> cases setPage <;> simp

/-- The entry in `page_table` is never taken back. -/
theorem not_undone (st : Frames) (upage kpage : Nat) (setPage : Bool) :
    ¬Undone st (st.installStackPage upage kpage setPage).1 kpage := by
  intro undone
  have table := undone.pageTable
  rw [installStackPage_pageTable] at table
  simp at table

/-- A failed installation would have to be undone, so there must not be one. -/
theorem installStackPage_undone_iff (st : Frames) (upage kpage : Nat) (setPage : Bool) :
    ((st.installStackPage upage kpage setPage).2 = false →
        Undone st (st.installStackPage upage kpage setPage).1 kpage) ↔
      st.proc.present upage = false ∧ setPage = true := by
  rw [← installStackPage_succeeds_iff st upage kpage setPage, ← Bool.not_eq_false]
  constructor
  · intro undone fails
    exact not_undone st upage kpage setPage (undone fails)
  · intro succeeds fails
    exact absurd fails succeeds

/-- A process that starts, with no page in memory but the one for its stack. -/
def starting : Frames := ⟨create (fun _ => 0) none true, fun _ => none, [], []⟩

/-- Without memory for a page table, `setup_stack` gives the page back and leaves the entry, whose
frame was freed. -/
theorem setupStack_not_undone :
    (starting.setupStack 4096 false).2 = false ∧
      (starting.setupStack 4096 false).1.freedPages = [4096] ∧
      (starting.setupStack 4096 false).1.proc.pageTable = [⟨0, physBase - pgsize⟩] ∧
      (starting.setupStack 4096 false).1.frame 0 = none ∧
      ¬Undone starting (starting.setupStack 4096 false).1 4096 :=
  ⟨rfl, rfl, rfl, rfl, not_undone starting _ 4096 false⟩

end Install

section Exit

variable {st after : Frames} {upage kpage : Nat} {setPage : Bool}

/-- The loop of `process_exit` comes to every entry of `page_table`. -/
theorem exitLoop_freed {pages : List SupPage} {spt : SupPage} (mem : spt ∈ pages)
    (freed : st.frame spt.id = none) : exitLoop pages st = none := by
  induction pages generalizing st with
  | nil => cases mem
  | cons first rest ih =>
    rw [exitLoop, freePage]
    by_cases here : st.frame first.id = none
    · rw [here]
      rfl
    · obtain ⟨fe, some⟩ := Option.ne_none_iff_exists'.mp here
      have later : spt ∈ rest := by
        rcases List.mem_cons.mp mem with rfl | later
        · exact absurd freed here
        · exact later
      rw [some, Option.map_some, Option.bind_some]
      apply ih later
      have other : spt.id ≠ first.id := fun same => here (same ▸ freed)
      simpa [Function.update_of_ne other] using freed

/-- After a stack page that could not be mapped, `process_exit` comes to a frame that was freed. -/
theorem installStackPage_exit (fails : (st.installStackPage upage kpage setPage).2 = false)
    (fresh : st.proc.fresh ∉ st.frameTable)
    (new : ∀ f ∈ st.frameTable, ∀ fe ∈ st.frame f, fe.kpage ≠ kpage) :
    (st.installStackPage upage kpage setPage).1.exitPages = none := by
  have entry : (⟨st.proc.fresh, upage⟩ : SupPage) ∈
      (st.installStackPage upage kpage setPage).1.proc.pageTable := by
    rw [installStackPage_pageTable]
    simp
  refine exitLoop_freed entry ?_
  rw [installStackPage_failed fails fresh new]
  exact Function.update_self ..

end Exit

end Frames

end Pintos.Userprog
