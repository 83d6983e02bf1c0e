import Mathlib.Data.List.Perm.Basic
import Pintos.Filesys.OpenCounts

/-! Handles on directories over runs of the functions of `directory.c`: a directory that
`dir_remove` takes away while another handle has it open can get entries again. -/

namespace Pintos.Filesys

open Words CStrings ByteFiles Transition Filesys.Tree

/-- The tree, with the sector of the inode of each `struct dir`. -/
structure DirHandles where
  tree : Tree
  handles : List UInt32

inductive HandleCall
  | dirOpenRoot (mem : Memory)
  | dirOpen (handle : Nat) (name : CString) (mem : Memory)
  | dirReopen (handle : Nat) (mem : Memory)
  | dirAdd (handle : Nat) (name : CString) (sector : UInt32) (junk : Bytes)
  | dirRemove (handle : Nat) (name : CString) (mem : Memory)
  | dirClose (handle : Nat)

namespace DirHandles

/-- `dir_open` of the inode of sector `s`, which was opened in `t`. -/
def dirOpen (st : DirHandles) (t : Tree) (s : UInt32) (mem : Memory) : DirHandles :=
  match t.dirOpen s mem.handle with
  | (t, some d) => ⟨t, st.handles ++ [d]⟩
  | (t, none) => ⟨t, st.handles⟩

/-- One call with a handle that there is.  `dirOpen` is `dir_lookup` and, when that finds a
directory, `dir_open`; an inode of another kind is closed. -/
def step (st : DirHandles) : HandleCall → Option DirHandles
  | .dirOpenRoot mem =>
    match st.tree.inodeOpen 1 mem.inode with
    | none => some st
    | some t => some (st.dirOpen t 1 mem)
  | .dirOpen handle name mem =>
    st.handles[handle]?.map fun d =>
      match lookup (st.tree.file d) name with
      | none => st
      | some (e, _) =>
        match st.tree.inodeOpen (inodeSector e) mem.inode with
        | none => st
        | some t =>
          if (t.record (inodeSector e)).isdir then st.dirOpen t (inodeSector e) mem
          else ⟨t.inodeClose (inodeSector e), st.handles⟩
  | .dirReopen handle mem =>
    st.handles[handle]?.bind fun d =>
      (st.tree.inodeOpen d true).map fun t => st.dirOpen t d mem
  | .dirAdd handle name sector junk =>
    st.handles[handle]?.map fun d => ⟨(st.tree.dirAdd d name sector junk).1, st.handles⟩
  | .dirRemove handle name mem =>
    st.handles[handle]?.bind fun d =>
      (st.tree.dirRemove mem d name).map fun result => ⟨result.1, st.handles⟩
  | .dirClose handle =>
    st.handles[handle]?.map fun d => ⟨st.tree.inodeClose d, st.handles.eraseIdx handle⟩

/-- No directory that was removed has an entry. -/
def StaysEmpty (st : DirHandles) : Prop :=
  ∀ s, st.tree.removed s = true → (st.tree.record s).isdir = true →
    dirIsEmpty (st.tree.file s) = true

/-- A `dir_remove` that succeeds on a directory does so on one without entries and without
handles. -/
def RemovesUnused (st : DirHandles) : HandleCall → Prop
  | .dirRemove handle name mem =>
    ∀ d t e ofs, st.handles[handle]? = some d → st.tree.dirRemove mem d name = some (t, true) →
      lookup (st.tree.file d) name = some (e, ofs) →
      (st.tree.record (inodeSector e)).isdir = true →
        dirIsEmpty (st.tree.file (inodeSector e)) = true ∧ inodeSector e ∉ st.handles
  | _ => True

/-- The call is no `dir_remove` of a directory without entries that is open just once. -/
def Spares (st : DirHandles) : HandleCall → Prop
  | .dirRemove handle name _ =>
    ∀ d e ofs, st.handles[handle]? = some d → lookup (st.tree.file d) name = some (e, ofs) →
      (st.tree.record (inodeSector e)).isdir = true →
      dirIsEmpty (st.tree.file (inodeSector e)) = true → st.tree.openCnt (inodeSector e) ≠ 1
  | _ => True

/-- The handles are all there is on directories, and no directory that is open was removed. -/
structure Handled (st : DirHandles) : Prop where
  counted : st.tree.Counted
  root : (st.tree.record 1).isdir = true
  dirs : ∀ d ∈ st.handles, (st.tree.record d).isdir = true
  openers : ∀ s, (st.tree.record s).isdir = true → st.tree.openCnt s = st.handles.count s
  kept : ∀ s, st.tree.removed s = true → (st.tree.record s).isdir = false

section Steps

variable {st st' : DirHandles} {t : Tree} {s d : UInt32} {call : HandleCall}

theorem Handled.alike {mark : UInt32 → Prop} (h : Handled st) (alike : Alike st.tree t mark)
    (spared : ∀ s, mark s → (st.tree.record s).isdir = true → st.tree.openCnt s = 0) :
    Handled ⟨t, st.handles⟩ := by
  refine ⟨alike.counted h.counted, (alike.isdir 1).trans h.root,
    fun d mem => (alike.isdir d).trans (h.dirs d mem), fun s isdir => ?_, fun s marked => ?_⟩
  · rw [alike.isdir] at isdir
    rw [alike.openCnt]
    exact h.openers s isdir
  · show (t.record s).isdir = false
    rw [alike.isdir]
    rcases alike.removed s marked with old | new
    · exact h.kept s old
    · have positive := (alike.counted h.counted).openCnt_pos marked
      rw [alike.openCnt] at positive
      by_contra isdir
      have zero := spared s new (Bool.not_eq_false _ ▸ isdir)
      omega

/-- One more handle, or none for lack of memory. -/
theorem Handled.dirOpen (h : Handled st) (opens : st.tree.OpensOne t s)
    (isdir : (st.tree.record s).isdir = true) (mem : Memory) : Handled (st.dirOpen t s mem) := by
  rw [DirHandles.dirOpen, Tree.dirOpen]
  by_cases memory : mem.handle = true
  · rw [if_pos memory]
    refine ⟨opens.counted h.counted, ?_, fun d mem => ?_, fun u dir => ?_, fun u marked => ?_⟩
    · rw [opens.record]
      exact h.root
    · rw [opens.record]
      rcases List.mem_append.mp mem with old | new
      · exact h.dirs d old
      · rw [List.mem_singleton.mp new]
        exact isdir
    · rw [opens.record] at dir
      have count := h.openers u dir
      show t.openCnt u = (st.handles ++ [s]).count u
      rw [opens.openCnt, List.count_append, Function.update_apply]
      by_cases eq : u = s
      · subst eq
        simp [count]
      · simp [eq, count, Ne.symm eq]
    · rw [opens.record]
      rw [opens.removed] at marked
      exact h.kept u marked
  · rw [if_neg memory]
    have closes := Tree.inodeClose_closesOne (opens.counted h.counted) s
    exact h.alike ((Alike.refl t fun _ => False).between opens closes) fun _ none => none.elim

theorem Handled.dirClose {handle : Nat} (h : Handled st) (here : st.handles[handle]? = some d) :
    Handled ⟨st.tree.inodeClose d, st.handles.eraseIdx handle⟩ := by
  have closes := Tree.inodeClose_closesOne h.counted d
  obtain ⟨inside, eq⟩ := List.getElem?_eq_some_iff.mp here
  have perm := List.getElem_cons_eraseIdx_perm inside
  rw [eq] at perm
  refine ⟨closes.counted h.counted, ?_, fun u mem => ?_, fun u dir => ?_, fun u marked => ?_⟩
  · rw [closes.record]
    exact h.root
  · rw [closes.record]
    exact h.dirs u (List.mem_of_mem_eraseIdx mem)
  · rw [closes.record] at dir
    have count := h.openers u dir
    rw [← perm.count_eq, List.count_cons] at count
    show (st.tree.inodeClose d).openCnt u = (st.handles.eraseIdx handle).count u
    rw [closes.openCnt, Function.update_apply]
    by_cases eq : u = d
    · subst eq
      simp only [BEq.rfl, if_true] at count
      rw [if_pos rfl]
      omega
    · have other : (d == u) = false := beq_false_of_ne (Ne.symm eq)
      rw [other] at count
      rw [if_neg eq]
      simpa using count
  · rw [closes.record]
    exact h.kept u (closes.removed u marked)

theorem Handled.step (h : Handled st) (spares : Spares st call) (run : st.step call = some st') :
    Handled st' := by
  cases call with
  | dirOpenRoot mem =>
    rw [DirHandles.step] at run
    cases opened : st.tree.inodeOpen 1 mem.inode with
    | none =>
      rw [opened] at run
      exact Option.some.inj run ▸ h
    | some t =>
      rw [opened] at run
      exact Option.some.inj run ▸ h.dirOpen (Tree.inodeOpen_opensOne opened) h.root mem
  | dirOpen handle name mem =>
    obtain ⟨d, here, rfl⟩ := Option.map_eq_some_iff.mp run
    cases found : lookup (st.tree.file d) name with
    | none => exact h
    | some result =>
      obtain ⟨e, ofs⟩ := result
      dsimp only
      cases opened : st.tree.inodeOpen (inodeSector e) mem.inode with
      | none => exact h
      | some t =>
        have opens := Tree.inodeOpen_opensOne opened
        dsimp only
        split
        next isdir =>
          rw [opens.record] at isdir
          exact h.dirOpen opens isdir mem
        next =>
          have closes := Tree.inodeClose_closesOne (opens.counted h.counted) (inodeSector e)
          exact h.alike ((Alike.refl t fun _ => False).between opens closes) fun _ none => none.elim
  | dirReopen handle mem =>
    obtain ⟨d, here, run⟩ := Option.bind_eq_some_iff.mp run
    obtain ⟨t, opened, rfl⟩ := Option.map_eq_some_iff.mp run
    exact h.dirOpen (Tree.inodeOpen_opensOne opened) (h.dirs d (List.mem_of_getElem? here)) mem
  | dirAdd handle name sector junk =>
    obtain ⟨d, here, rfl⟩ := Option.map_eq_some_iff.mp run
    exact h.alike (dirAdd_alike st.tree d name sector junk fun _ => False) fun _ none => none.elim
  | dirRemove handle name mem =>
    obtain ⟨d, here, run⟩ := Option.bind_eq_some_iff.mp run
    obtain ⟨⟨t, success⟩, removed, rfl⟩ := Option.map_eq_some_iff.mp run
    obtain ⟨-, alike⟩ | ⟨e, ofs, -, found, alike, unused⟩ := dirRemove_cases h.counted removed
    · exact h.alike alike fun _ none => none.elim
    · refine h.alike alike fun s mark isdir => ?_
      subst mark
      obtain ⟨empty, few⟩ := unused isdir
      have several := spares d e ofs here found isdir empty
      omega
  | dirClose handle =>
    obtain ⟨d, here, rfl⟩ := Option.map_eq_some_iff.mp run
    exact h.dirClose here

theorem Handled.staysEmpty (h : Handled st) : StaysEmpty st := by
  intro s marked isdir
  cases (h.kept s marked).symm.trans isdir

theorem Handled.removesUnused (h : Handled st) (spares : Spares st call) :
    RemovesUnused st call := by
  cases call with
  | dirRemove handle name mem =>
    intro d t e ofs here removed found isdir
    obtain ⟨fail, -⟩ | ⟨e', ofs', -, found', -, unused⟩ := dirRemove_cases h.counted removed
    · cases fail
    · obtain ⟨rfl, rfl⟩ := Prod.mk.inj (Option.some.inj (found.symm.trans found'))
      obtain ⟨empty, few⟩ := unused isdir
      refine ⟨empty, fun mem => ?_⟩
      have several := spares d e ofs here found isdir empty
      have count := h.openers _ isdir
      have positive := List.count_pos_iff.mpr mem
      omega
  | dirOpenRoot | dirOpen | dirReopen | dirAdd | dirClose => trivial

/-- A directory without entries and with one handle is removed. -/
theorem Handled.spares (h : Handled st) (unused : RemovesUnused st call)
    (run : st.step call = some st') : Spares st call := by
  cases call with
  | dirRemove handle name mem =>
    intro d e ofs here found isdir empty once
    obtain ⟨d', here', run⟩ := Option.bind_eq_some_iff.mp run
    obtain rfl := Option.some.inj (here.symm.trans here')
    obtain ⟨⟨t, success⟩, removed, -⟩ := Option.map_eq_some_iff.mp run
    obtain rfl := dirRemove_once found empty once removed
    apply (unused d t e ofs here removed found isdir).2
    rw [← List.count_pos_iff, ← h.openers _ isdir, once]
    exact Nat.one_pos
  | dirOpenRoot | dirOpen | dirReopen | dirAdd | dirClose => trivial

end Steps

/-- In a run of calls on the handles of a tree, directories that were removed stay empty and
`dir_remove` takes away only directories without entries and handles, exactly when no `dir_remove`
is of a directory without entries that just one handle has open. -/
theorem removed_stays_empty_iff {st : DirHandles} (handled : Handled st)
    (calls : List HandleCall) :
    Always step StaysEmpty st calls ∧ Each step RemovesUnused st calls ↔
      Each step Spares st calls := by
  apply always_and_each_iff _ _ _ _ calls handled
  · exact fun s h => h.staysEmpty
  · exact fun s call s' h spares run => h.step spares run
  · exact fun s call s' h spares _ => h.removesUnused spares
  · exact fun s call s' h _ unused run => h.spares unused run

/-- The root directory with the directory `a`, without handles. -/
def twoDirs : DirHandles := ⟨rootWithA, []⟩

theorem twoDirs_handled : Handled twoDirs := by
  refine ⟨rootWithA_counted, rfl, fun d mem => ?_, fun s _ => rfl, fun s marked => ?_⟩
  · cases mem
  · cases marked

/-- `a` is removed through the only handle, which is one on the root. -/
theorem removed_stays_empty_unopened :
    Always step StaysEmpty twoDirs [.dirOpenRoot ample, .dirRemove 0 ⟨[97], by decide⟩ ample] := by
  have spares : Each step Spares twoDirs
      [.dirOpenRoot ample, .dirRemove 0 ⟨[97], by decide⟩ ample] := by
    intro st first
    refine ⟨trivial, fun st' _ => ⟨fun d e ofs here found _ _ => ?_, trivial⟩⟩
    obtain rfl := Option.some.inj ((rfl : _ = some _).symm.trans first)
    obtain rfl : 1 = d := Option.some.inj here
    have sector : some (inodeSector e) = some 10 :=
      (congrArg (Option.map fun result : Bytes × Nat => inodeSector result.1) found).symm
    rw [Option.some.inj sector]
    decide
  exact ((removed_stays_empty_iff twoDirs_handled _).mpr spares).1

/-- `a` has another handle when it is removed, through which `b` is added to it. -/
theorem removed_dir_gets_entry : ¬∀ (st : DirHandles) (calls : List HandleCall), Handled st →
    Always step StaysEmpty st calls ∧ Each step RemovesUnused st calls := by
  intro claim
  obtain ⟨always, -⟩ := claim twoDirs [.dirOpenRoot ample, .dirOpen 0 ⟨[97], by decide⟩ ample,
    .dirRemove 0 ⟨[97], by decide⟩ ample, .dirAdd 1 ⟨[98], by decide⟩ 11 fun _ => 0] twoDirs_handled
  obtain ⟨st, run, entered⟩ := (Option.any_eq_true
    (fun st => st.tree.removed 10 && (st.tree.record 10).isdir && !dirIsEmpty (st.tree.file 10))
    (exec step twoDirs [.dirOpenRoot ample, .dirOpen 0 ⟨[97], by decide⟩ ample,
      .dirRemove 0 ⟨[97], by decide⟩ ample, .dirAdd 1 ⟨[98], by decide⟩ 11 fun _ => 0])).mp
    (by decide)
  simp only [Bool.and_eq_true, Bool.not_eq_true'] at entered
  obtain ⟨⟨marked, isdir⟩, used⟩ := entered
  rw [always.last run 10 marked isdir] at used
  cases used

end DirHandles

end Pintos.Filesys
