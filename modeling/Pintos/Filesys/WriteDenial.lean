import Pintos.Filesys.Contents

/-! Write denial: the `deny_write` flags of the open files of `file.c` and the `deny_write_cnt` of
their inodes. -/

namespace Pintos.Filesys

open Words Transition Results

/-- `struct file`, with the sector of its inode. -/
structure FileHandle where
  inode : Nat
  pos : Nat
  denyWrite : Bool

/-- The files of the device and the open `struct file`s by address. -/
structure FileTable where
  files : Files
  file : Nat → FileHandle
  openFiles : List Nat

/-- `inode_deny_write`; there is no result when its `ASSERT` fires. -/
def inodeDenyWrite (inode : OpenInode) : Option OpenInode :=
  let inode := { inode with denyWriteCnt := inode.denyWriteCnt + 1 }
  if inode.denyWriteCnt ≤ inode.openCnt then some inode else none

/-- `inode_allow_write`; there is no result when one of its `ASSERT`s fires. -/
def inodeAllowWrite (inode : OpenInode) : Option OpenInode :=
  if 0 < inode.denyWriteCnt ∧ inode.denyWriteCnt ≤ inode.openCnt then
    some { inode with denyWriteCnt := inode.denyWriteCnt - 1 }
  else none

/-- `open_` and `reopen` have the address that `calloc` returns, if it returns one. -/
inductive FileCall
  | open_ (sector : Nat) (a : Option Nat) (dev : Nat → Bytes)
  | reopen (f : Nat) (a : Option Nat) (dev : Nat → Bytes)
  | denyWrite (f : Nat)
  | allowWrite (f : Nat)
  | close (f : Nat) (dev : Nat → Bytes)
  | writeAt (sector : Nat) (buffer : Bytes) (size offset : Nat)

namespace FileTable

def setOpen (st : FileTable) (s : Nat) (inode : OpenInode) : FileTable :=
  { st with files := { st.files with opens := Function.update st.files.opens s (some inode) } }

def setDenyWrite (st : FileTable) (f : Nat) (deny : Bool) : FileTable :=
  { st with file := Function.update st.file f { st.file f with denyWrite := deny } }

/-- `file_open` of an inode. -/
def fileOpen (st : FileTable) (s : Nat) (dev : Nat → Bytes) : Option Nat → Option FileTable
  | some a =>
    if a ∈ st.openFiles then none
    else
      some { st with
        file := Function.update st.file a ⟨s, 0, false⟩, openFiles := a :: st.openFiles }
  | none => (st.files.inodeClose dev s).toOption.map fun files => { st with files := files }

/-- `inode_reopen` of the inode of an open file. -/
def inodeReopen (st : FileTable) (s : Nat) : Option FileTable :=
  (st.files.opens s).map fun inode => st.setOpen s { inode with openCnt := inode.openCnt + 1 }

def fileDenyWrite (st : FileTable) (f : Nat) : Option FileTable :=
  if (st.file f).denyWrite then some st
  else
    (st.files.opens (st.file f).inode).bind fun inode =>
      (inodeDenyWrite inode).map fun inode =>
        (st.setDenyWrite f true).setOpen (st.file f).inode inode

def fileAllowWrite (st : FileTable) (f : Nat) : Option FileTable :=
  if (st.file f).denyWrite then
    (st.files.opens (st.file f).inode).bind fun inode =>
      (inodeAllowWrite inode).map fun inode =>
        (st.setDenyWrite f false).setOpen (st.file f).inode inode
  else some st

def fileClose (st : FileTable) (f : Nat) (dev : Nat → Bytes) : Option FileTable :=
  (st.fileAllowWrite f).bind fun st =>
    (st.files.inodeClose dev (st.file f).inode).toOption.map fun files =>
      { st with files := files, openFiles := st.openFiles.erase f }

/-- One call on files that are open.  There is no next state after a fault or an `ASSERT`. -/
def step (st : FileTable) : FileCall → Option FileTable
  | .open_ s a dev => { st with files := st.files.inodeOpen s }.fileOpen s dev a
  | .reopen f a dev =>
    if f ∈ st.openFiles then
      (st.inodeReopen (st.file f).inode).bind fun st => st.fileOpen (st.file f).inode dev a
    else none
  | .denyWrite f => if f ∈ st.openFiles then st.fileDenyWrite f else none
  | .allowWrite f => if f ∈ st.openFiles then st.fileAllowWrite f else none
  | .close f dev => if f ∈ st.openFiles then st.fileClose f dev else none
  | .writeAt s buffer size offset =>
    (st.files.opens s).bind fun inode =>
      match inodeWriteAt st.files.fs inode buffer size offset with
      | .ok (fs, inode, _) =>
        some { st with files := { st.files with
          fs := fs, opens := Function.update st.files.opens s (some inode) } }
      | .error _ => none

/-- No file is open. -/
def Start (st : FileTable) : Prop := st.openFiles = [] ∧ ∀ s, st.files.opens s = none

/-- The open files on an inode. -/
def filesOn (st : FileTable) (s : Nat) : Nat := st.openFiles.countP fun f => (st.file f).inode == s

/-- The open files on an inode that deny writes. -/
def denying (st : FileTable) (s : Nat) : Nat :=
  st.openFiles.countP fun f => (st.file f).inode == s && (st.file f).denyWrite

/-- The two counters of an inode, which are 0 when it is not open. -/
def counters : Option OpenInode → Nat × Nat
  | some inode => (inode.openCnt, inode.denyWriteCnt)
  | none => (0, 0)

/-- The counters are right, for `held s` opens of the inode in sector `s` that are in no file. -/
structure Counted (st : FileTable) (held : Nat → Nat) : Prop where
  nodup : st.openFiles.Nodup
  counters : ∀ s, counters (st.files.opens s) = (st.filesOn s + held s, st.denying s)
  pos : ∀ s inode, st.files.opens s = some inode → 1 ≤ inode.openCnt

def noneHeld : Nat → Nat := fun _ => 0

def oneHeld (s : Nat) : Nat → Nat := fun t => if t = s then 1 else 0

variable {st st' : FileTable} {s f : Nat} {held : Nat → Nat} {inode : OpenInode} {dev : Nat → Bytes}

theorem Counted.of_open (inv : Counted st held) (isOpen : st.files.opens s = some inode) :
    inode.openCnt = st.filesOn s + held s ∧ inode.denyWriteCnt = st.denying s := by
  have eq := inv.counters s
  rw [isOpen] at eq
  exact Prod.mk.inj eq

theorem denying_le_filesOn (st : FileTable) (s : Nat) : st.denying s ≤ st.filesOn s := by
  refine List.countP_mono_left fun f _ both => ?_
  exact ((Bool.and_eq_true _ _).mp both).1

/-- The inode of an open file is open. -/
theorem Counted.isOpen (inv : Counted st held) (mem : f ∈ st.openFiles) :
    ∃ inode, st.files.opens (st.file f).inode = some inode := by
  cases none : st.files.opens (st.file f).inode with
  | some inode => exact ⟨inode, rfl⟩
  | none =>
    have eq := inv.counters (st.file f).inode
    rw [none] at eq
    have here : 0 < st.filesOn (st.file f).inode := List.countP_pos_iff.mpr ⟨f, mem, by simp⟩
    have zero := (Prod.mk.inj eq).1
    omega

/-- Only the counters of one inode change. -/
theorem Counted.update (inv : Counted st held) {held' : Nat → Nat} {opens : Option OpenInode}
    {fs : Fs} {live : Nat → Bool} (other : ∀ t, t ≠ s → held' t = held t)
    (here : FileTable.counters opens = (st.filesOn s + held' s, st.denying s))
    (pos : ∀ inode, opens = some inode → 1 ≤ inode.openCnt) :
    Counted { st with files := ⟨fs, Function.update st.files.opens s opens, live⟩ } held' := by
  refine ⟨inv.nodup, fun t => ?_, fun t inode isOpen => ?_⟩
  · show FileTable.counters (Function.update st.files.opens s opens t) =
      (st.filesOn t + held' t, st.denying t)
    by_cases eq : t = s
    · subst eq
      rw [Function.update_self]
      exact here
    · rw [Function.update_of_ne eq, other t eq]
      exact inv.counters t
  · have isOpen : Function.update st.files.opens s opens t = some inode := isOpen
    by_cases eq : t = s
    · subst eq
      rw [Function.update_self] at isOpen
      exact pos inode isOpen
    · rw [Function.update_of_ne eq] at isOpen
      exact inv.pos t inode isOpen

/-- `inode_open`, before the file is there. -/
theorem Counted.inodeOpen (inv : Counted st noneHeld) (s : Nat) :
    Counted { st with files := st.files.inodeOpen s } (oneHeld s) := by
  have before := inv.counters s
  have other : ∀ t, t ≠ s → oneHeld s t = noneHeld t := fun t ne => if_neg ne
  have here : oneHeld s s = 1 := if_pos rfl
  unfold Files.inodeOpen
  split
  next inode isOpen =>
    obtain ⟨count, deny⟩ := inv.of_open isOpen
    refine inv.update other ?_ fun inode' eq => ?_
    · rw [here]
      exact Prod.ext (congrArg (· + 1) count) deny
    · rw [← Option.some.inj eq]
      exact Nat.le_add_left 1 _
  next closed =>
    rw [closed] at before
    obtain ⟨count, deny⟩ := Prod.mk.inj before
    refine inv.update other ?_ fun inode' eq => ?_
    · rw [here]
      exact Prod.ext (congrArg (· + 1) count) deny
    · obtain rfl := Option.some.inj eq
      exact Nat.le_refl 1

theorem Counted.inodeReopen (inv : Counted st noneHeld) (run : st.inodeReopen s = some st') :
    Counted st' (oneHeld s) ∧ st'.file = st.file := by
  obtain ⟨inode, isOpen, rfl⟩ := Option.map_eq_some_iff.mp run
  obtain ⟨count, deny⟩ := inv.of_open isOpen
  have here : oneHeld s s = 1 := if_pos rfl
  refine ⟨inv.update (fun t ne => if_neg ne) ?_ fun inode' eq => ?_, rfl⟩
  · rw [here]
    exact Prod.ext (congrArg (· + 1) count) deny
  · rw [← Option.some.inj eq]
    exact Nat.le_add_left 1 _

/-- `inode_close` of an open that is in no file. -/
theorem Counted.inodeClose (inv : Counted st (oneHeld s)) {files : Files}
    (run : st.files.inodeClose dev s = .ok files) :
    Counted { st with files := files } noneHeld := by
  have here : oneHeld s s = 1 := if_pos rfl
  have other : ∀ t, t ≠ s → noneHeld t = oneHeld s t := fun t ne => (if_neg ne).symm
  have le := st.denying_le_filesOn s
  rw [Files.inodeClose] at run
  split at run
  next closed =>
    have eq := inv.counters s
    rw [closed, here] at eq
    exact absurd (Prod.mk.inj eq).1 (by omega)
  next inode isOpen =>
    obtain ⟨count, deny⟩ := inv.of_open isOpen
    rw [here] at count
    split at run
    next last =>
      have none : st.filesOn s = 0 := by omega
      have zero : st.denying s = 0 := by omega
      have counters : FileTable.counters Option.none =
          (st.filesOn s + noneHeld s, st.denying s) := by
        rw [none, zero]
        rfl
      rw [Files.lastClose] at run
      split at run
      next =>
        obtain ⟨fs, _, run⟩ := bind_ok run
        obtain ⟨fs', _, run⟩ := bind_ok run
        obtain rfl := Except.ok.inj run
        exact inv.update other counters fun _ eq => (by cases eq)
      next =>
        obtain rfl := Except.ok.inj run
        exact inv.update other counters fun _ eq => (by cases eq)
    next more =>
      obtain rfl := Except.ok.inj run
      refine inv.update other (Prod.ext ?_ deny) fun inode' eq => ?_
      · show inode.openCnt - 1 = st.filesOn s + 0
        omega
      · rw [← Option.some.inj eq]
        exact Nat.one_le_iff_ne_zero.mpr more

/-- The held open becomes a file. -/
theorem Counted.addFile (inv : Counted st (oneHeld s)) {a : Nat} (fresh : a ∉ st.openFiles) :
    Counted { st with
      file := Function.update st.file a ⟨s, 0, false⟩, openFiles := a :: st.openFiles }
      noneHeld := by
  have other : ∀ g ∈ st.openFiles, Function.update st.file a ⟨s, 0, false⟩ g = st.file g := by
    intro g mem
    have ne : g ≠ a := fun eq => fresh (eq ▸ mem)
    exact Function.update_of_ne ne _ _
  have files : ∀ t, (a :: st.openFiles).countP
      (fun g => (Function.update st.file a ⟨s, 0, false⟩ g).inode == t) =
        st.filesOn t + oneHeld s t := by
    intro t
    rw [List.countP_cons, List.countP_congr fun g mem => by rw [other g mem], Function.update_self]
    by_cases eq : t = s
    · simp [filesOn, oneHeld, eq]
    · simp [filesOn, oneHeld, eq, Ne.symm eq]
  have deny : ∀ t, (a :: st.openFiles).countP
      (fun g => (Function.update st.file a ⟨s, 0, false⟩ g).inode == t &&
        (Function.update st.file a ⟨s, 0, false⟩ g).denyWrite) = st.denying t := by
    intro t
    rw [List.countP_cons, List.countP_congr fun g mem => by rw [other g mem], Function.update_self]
    simp [denying]
  refine ⟨List.nodup_cons.mpr ⟨fresh, inv.nodup⟩, fun t => ?_, inv.pos⟩
  rw [inv.counters t]
  exact Prod.ext (files t).symm (deny t).symm

theorem Counted.fileOpen (inv : Counted st (oneHeld s)) {a : Option Nat}
    (run : st.fileOpen s dev a = some st') : Counted st' noneHeld := by
  cases a with
  | some a =>
    simp only [FileTable.fileOpen] at run
    split at run
    next => cases run
    next fresh =>
      obtain rfl := Option.some.inj run
      exact inv.addFile fresh
  | none =>
    obtain ⟨files, close, rfl⟩ := Option.map_eq_some_iff.mp run
    exact inv.inodeClose (ok_of_toOption close)

/-- An open file apart from the others. -/
theorem countP_split {l : List Nat} (mem : f ∈ l) (p : Nat → Bool) :
    l.countP p = (l.erase f).countP p + if p f then 1 else 0 := by
  rw [(List.perm_cons_erase mem).countP_eq, List.countP_cons]

/-- The file that is closed becomes a held open. -/
theorem Counted.dropFile (inv : Counted st noneHeld) (mem : f ∈ st.openFiles)
    (allows : (st.file f).denyWrite = false) :
    Counted { st with openFiles := st.openFiles.erase f } (oneHeld (st.file f).inode) := by
  refine ⟨inv.nodup.erase f, fun t => (inv.counters t).trans (Prod.ext ?_ ?_), inv.pos⟩
  · show st.filesOn t + 0 = (st.openFiles.erase f).countP _ + oneHeld _ t
    rw [filesOn, countP_split mem]
    by_cases eq : t = (st.file f).inode
    · simp [oneHeld, eq]
    · simp [oneHeld, eq, Ne.symm eq]
  · show st.denying t = (st.openFiles.erase f).countP _
    rw [denying, countP_split mem]
    simp [allows]

/-- The flag of an open file. -/
theorem denying_setDenyWrite (nodup : st.openFiles.Nodup) (mem : f ∈ st.openFiles) (deny : Bool)
    (t : Nat) :
    (st.setDenyWrite f deny).filesOn t = st.filesOn t ∧
    (st.setDenyWrite f deny).denying t +
        (if (st.file f).inode = t ∧ (st.file f).denyWrite then 1 else 0) =
      st.denying t + if (st.file f).inode = t ∧ deny then 1 else 0 := by
  have other : ∀ g ∈ st.openFiles.erase f, (st.setDenyWrite f deny).file g = st.file g := by
    intro g left
    have ne : g ≠ f := fun eq => nodup.not_mem_erase (eq ▸ left)
    exact Function.update_of_ne ne _ _
  have self : (st.setDenyWrite f deny).file f = { st.file f with denyWrite := deny } :=
    Function.update_self ..
  constructor
  · show st.openFiles.countP _ = st.openFiles.countP _
    rw [countP_split mem, countP_split mem (fun g => (st.file g).inode == t),
      List.countP_congr fun g left => by rw [other g left], self]
  · show st.openFiles.countP _ + _ = st.openFiles.countP _ + _
    rw [countP_split mem,
      countP_split mem (fun g => (st.file g).inode == t && (st.file g).denyWrite),
      List.countP_congr fun g left => by rw [other g left], self]
    simp only [Bool.and_eq_true, beq_iff_eq]
    omega

/-- The flag of a file and the count of its inode change together. -/
theorem Counted.setFlag (inv : Counted st noneHeld) (mem : f ∈ st.openFiles)
    (isOpen : st.files.opens (st.file f).inode = some inode) {inode' : OpenInode} {deny : Bool}
    (opens : inode'.openCnt = inode.openCnt)
    (count : inode'.denyWriteCnt + (if (st.file f).denyWrite then 1 else 0) =
      inode.denyWriteCnt + if deny then 1 else 0) :
    Counted ((st.setDenyWrite f deny).setOpen (st.file f).inode inode') noneHeld := by
  have flag := denying_setDenyWrite inv.nodup mem deny
  obtain ⟨before, denies⟩ := inv.of_open isOpen
  refine ⟨inv.nodup, fun t => ?_, fun t o isOpen' => ?_⟩
  · show FileTable.counters (Function.update st.files.opens (st.file f).inode (some inode') t) =
      ((st.setDenyWrite f deny).filesOn t + 0, (st.setDenyWrite f deny).denying t)
    obtain ⟨same, change⟩ := flag t
    rw [same]
    by_cases eq : t = (st.file f).inode
    · subst eq
      rw [Function.update_self]
      simp only [true_and] at change
      apply Prod.ext (opens.trans before)
      show inode'.denyWriteCnt = _
      omega
    · rw [Function.update_of_ne eq, inv.counters t]
      simp only [Ne.symm eq, false_and, if_false, Nat.add_zero] at change
      rw [change]
      rfl
  · have now : Function.update st.files.opens (st.file f).inode (some inode') t = some o := isOpen'
    by_cases eq : t = (st.file f).inode
    · subst eq
      rw [Function.update_self] at now
      rw [← Option.some.inj now, opens]
      exact inv.pos _ inode isOpen
    · rw [Function.update_of_ne eq] at now
      exact inv.pos t o now

/-- A file that does not deny writes is one more than those that do. -/
theorem denying_lt_filesOn (mem : f ∈ st.openFiles) (allows : (st.file f).denyWrite = false) :
    st.denying (st.file f).inode < st.filesOn (st.file f).inode := by
  have le : (st.openFiles.erase f).countP
      (fun g => (st.file g).inode == (st.file f).inode && (st.file g).denyWrite) ≤
      (st.openFiles.erase f).countP fun g => (st.file g).inode == (st.file f).inode :=
    List.countP_mono_left fun g _ both => ((Bool.and_eq_true _ _).mp both).1
  rw [denying, filesOn, countP_split mem,
    countP_split mem fun g => (st.file g).inode == (st.file f).inode]
  simp only [allows, Bool.and_false, Bool.false_eq_true, if_false, beq_self_eq_true, if_true]
  omega

/-- `file_deny_write` of an open file meets no `ASSERT` that fires. -/
theorem Counted.fileDenyWrite (inv : Counted st noneHeld) (mem : f ∈ st.openFiles) :
    ∃ st', st.fileDenyWrite f = some st' ∧ Counted st' noneHeld := by
  rw [FileTable.fileDenyWrite]
  split
  next => exact ⟨st, rfl, inv⟩
  next allows =>
    have allows : (st.file f).denyWrite = false := (Bool.not_eq_true _).mp allows
    obtain ⟨inode, isOpen⟩ := inv.isOpen mem
    obtain ⟨count, deny⟩ := inv.of_open isOpen
    have room := denying_lt_filesOn mem allows
    have may : inode.denyWriteCnt + 1 ≤ inode.openCnt := by
      rw [count, deny]
      omega
    simp only [isOpen, inodeDenyWrite, may, if_true, Option.bind_some, Option.map_some]
    exact ⟨_, rfl, inv.setFlag mem isOpen rfl (by simp [allows])⟩

theorem Counted.fileAllowWrite (inv : Counted st noneHeld) (mem : f ∈ st.openFiles) :
    ∃ st', st.fileAllowWrite f = some st' ∧ Counted st' noneHeld ∧
      st'.openFiles = st.openFiles ∧ (st'.file f).denyWrite = false := by
  rw [FileTable.fileAllowWrite]
  split
  next denies =>
    obtain ⟨inode, isOpen⟩ := inv.isOpen mem
    obtain ⟨count, deny⟩ := inv.of_open isOpen
    have le := st.denying_le_filesOn (st.file f).inode
    have pos : 0 < st.denying (st.file f).inode :=
      List.countP_pos_iff.mpr ⟨f, mem, by simp [denies]⟩
    have may : 0 < inode.denyWriteCnt ∧ inode.denyWriteCnt ≤ inode.openCnt := by
      rw [count, deny]
      exact ⟨pos, Nat.le_trans le (Nat.le_add_right _ _)⟩
    simp only [isOpen, inodeAllowWrite, may, and_self, if_true, Option.bind_some, Option.map_some]
    refine ⟨_, rfl, inv.setFlag mem isOpen rfl ?_, rfl, ?_⟩
    · simp only [denies, if_true, Bool.false_eq_true, if_false]
      omega
    · show (Function.update st.file f _ f).denyWrite = false
      rw [Function.update_self]
  next allows => exact ⟨st, rfl, inv, rfl, (Bool.not_eq_true _).mp allows⟩

theorem Counted.fileClose (inv : Counted st noneHeld) (mem : f ∈ st.openFiles)
    (run : st.fileClose f dev = some st') : Counted st' noneHeld := by
  obtain ⟨mid, allow, inv, same, allows⟩ := inv.fileAllowWrite mem
  rw [FileTable.fileClose, allow, Option.bind_some] at run
  obtain ⟨files, close, rfl⟩ := Option.map_eq_some_iff.mp run
  exact (inv.dropFile (same ▸ mem) allows).inodeClose (ok_of_toOption close)

/-- `inode_write_at` leaves the counters alone. -/
theorem inodeWriteAt_counters {fs fs' : Fs} {inode' : OpenInode} {buffer : Bytes}
    {size offset w : Nat} (run : inodeWriteAt fs inode buffer size offset = .ok (fs', inode', w)) :
    inode'.openCnt = inode.openCnt ∧ inode'.denyWriteCnt = inode.denyWriteCnt := by
  rw [inodeWriteAt] at run
  split at run
  next =>
    obtain ⟨_, same⟩ := Prod.mk.inj (Except.ok.inj run)
    obtain ⟨rfl, _⟩ := Prod.mk.inj same
    exact ⟨rfl, rfl⟩
  next =>
    obtain ⟨⟨fs₁, d⟩, _, run⟩ := bind_ok run
    obtain ⟨⟨fs₂, w'⟩, _, run⟩ := bind_ok run
    obtain ⟨_, same⟩ := Prod.mk.inj (Except.ok.inj run)
    obtain ⟨rfl, _⟩ := Prod.mk.inj same
    exact ⟨rfl, rfl⟩

theorem Counted.step {call : FileCall} (inv : Counted st noneHeld)
    (hstep : st.step call = some st') : Counted st' noneHeld := by
  cases call with
  | open_ s a dev => exact (inv.inodeOpen s).fileOpen hstep
  | reopen f a dev =>
    simp only [FileTable.step] at hstep
    split at hstep
    next mem =>
      obtain ⟨mid, reopen, hstep⟩ := Option.bind_eq_some_iff.mp hstep
      obtain ⟨held, same⟩ := inv.inodeReopen reopen
      rw [same] at hstep
      exact held.fileOpen hstep
    next => cases hstep
  | denyWrite f =>
    simp only [FileTable.step] at hstep
    split at hstep
    next mem =>
      obtain ⟨next, run, inv'⟩ := inv.fileDenyWrite mem
      rw [← Option.some.inj (run.symm.trans hstep)]
      exact inv'
    next => cases hstep
  | allowWrite f =>
    simp only [FileTable.step] at hstep
    split at hstep
    next mem =>
      obtain ⟨next, run, inv', _⟩ := inv.fileAllowWrite mem
      rw [← Option.some.inj (run.symm.trans hstep)]
      exact inv'
    next => cases hstep
  | close f dev =>
    simp only [FileTable.step] at hstep
    split at hstep
    next mem => exact inv.fileClose mem hstep
    next => cases hstep
  | writeAt s buffer size offset =>
    obtain ⟨inode, isOpen, hstep⟩ := Option.bind_eq_some_iff.mp hstep
    split at hstep
    next fs inode' w run =>
      obtain rfl := Option.some.inj hstep
      obtain ⟨count, deny⟩ := inv.of_open isOpen
      obtain ⟨count', deny'⟩ := inodeWriteAt_counters run
      refine inv.update (fun _ _ => rfl) (Prod.ext (count'.trans count) (deny'.trans deny)) ?_
      intro o eq
      rw [← Option.some.inj eq, count']
      exact inv.pos s inode isOpen
    next => cases hstep

theorem Start.counted (start : Start st) : Counted st noneHeld := by
  obtain ⟨files, closed⟩ := start
  refine ⟨?_, fun s => ?_, fun s inode isOpen => ?_⟩
  · rw [files]
    exact List.nodup_nil
  · rw [closed s, filesOn, denying, files]
    rfl
  · rw [closed s] at isOpen
    cases isOpen

/-- In every run, `deny_write_cnt` of an inode is the number of its open files that deny writes and
at most `open_cnt`, no `ASSERT` fires, and `inode_write_at` does nothing when a file denies writes
and writes all it is given otherwise. -/
theorem write_denial_counted (reach : Reach (Fires step) (fun _ _ => True) Start st) :
    (∀ s inode, st.files.opens s = some inode →
      inode.denyWriteCnt = st.denying s ∧ inode.denyWriteCnt ≤ inode.openCnt) ∧
    (∀ f ∈ st.openFiles,
      (st.fileDenyWrite f).isSome = true ∧ (st.fileAllowWrite f).isSome = true) ∧
    (∀ s inode buffer size offset, st.files.opens s = some inode →
      (0 < st.denying s →
        inodeWriteAt st.files.fs inode buffer size offset = .ok (st.files.fs, inode, 0)) ∧
      (st.denying s = 0 → ∀ fs inode' w,
        inodeWriteAt st.files.fs inode buffer size offset = .ok (fs, inode', w) → w = size)) := by
  have inv : Counted st noneHeld :=
    reach.invariant (P := (Counted · noneHeld)) (fun _ start => start.counted)
      fun _ _ _ inv _ hstep => inv.step hstep
  refine ⟨fun s inode isOpen => ?_, fun f mem => ?_, fun s inode buffer size offset isOpen => ?_⟩
  · obtain ⟨count, deny⟩ := inv.of_open isOpen
    have le := st.denying_le_filesOn s
    exact ⟨deny, by omega⟩
  · obtain ⟨denied, run, _⟩ := inv.fileDenyWrite mem
    obtain ⟨allowed, run', _⟩ := inv.fileAllowWrite mem
    rw [run, run']
    exact ⟨rfl, rfl⟩
  · obtain ⟨_, deny⟩ := inv.of_open isOpen
    constructor
    · intro denied
      rw [inodeWriteAt, if_pos (by omega)]
    · intro none fs inode' w run
      exact inodeWriteAt_written (deny.trans none) run

/-- Two files on an inode of 10 bytes, one of which denies writes twice and is closed. -/
theorem write_denial_counted_shared :
    ∃ st st', Reach (Fires step) (fun _ _ => True) Start st ∧
      Reach (Fires step) (fun _ _ => True) Start st' ∧
      ((st.files.opens 1).map fun inode => (inode.openCnt, inode.denyWriteCnt)) = some (2, 1) ∧
      st.denying 1 = 1 ∧ st.files.fs.data 2 0 = 7 ∧
      ((st'.files.opens 1).map fun inode => (inode.openCnt, inode.denyWriteCnt)) = some (1, 0) ∧
      st'.denying 1 = 0 ∧ st'.files.fs.data 2 0 = 9 := by
  let data : Nat → Bytes := fun s i =>
    if s = 1 then if i = 0 then 10 else if i = 4 then 2 else 0 else 7
  let free : FreeMap := ⟨4, fun _ => true, some fun _ => true, fun _ => none, 0, by decide⟩
  let empty : FileTable :=
    ⟨⟨⟨data, free, []⟩, fun _ => none, fun s => s = 1⟩, fun _ => ⟨0, 0, false⟩, []⟩
  have start : Start empty := ⟨rfl, fun _ => rfl⟩
  obtain ⟨st, reach, counters, byte⟩ : ∃ st,
      Reach (Fires step) (fun _ _ => True) (· = empty) st ∧
      ((st.files.opens 1).map fun inode => (inode.openCnt, inode.denyWriteCnt)) = some (2, 1) ∧
      st.files.fs.data 2 0 = 7 :=
    Reach.eval [.open_ 1 (some 20) fun _ _ => 0, .open_ 1 (some 21) fun _ _ => 0, .denyWrite 20,
      .denyWrite 20, .writeAt 1 (fun _ => 9) 2 0] (by decide)
  obtain ⟨st', reach', counters', byte'⟩ : ∃ st,
      Reach (Fires step) (fun _ _ => True) (· = empty) st ∧
      ((st.files.opens 1).map fun inode => (inode.openCnt, inode.denyWriteCnt)) = some (1, 0) ∧
      st.files.fs.data 2 0 = 9 :=
    Reach.eval [.open_ 1 (some 20) fun _ _ => 0, .reopen 20 (some 21) fun _ _ => 0, .denyWrite 20,
      .close 20 fun _ _ => 0, .writeAt 1 (fun _ => 9) 2 0] (by decide)
  obtain ⟨inode, isOpen, eq⟩ := Option.map_eq_some_iff.mp counters
  obtain ⟨inode', isOpen', eq'⟩ := Option.map_eq_some_iff.mp counters'
  have denying := (write_denial_counted (reach.of_start start)).1 1 inode isOpen
  have denying' := (write_denial_counted (reach'.of_start start)).1 1 inode' isOpen'
  exact ⟨st, st', reach.of_start start, reach'.of_start start, counters,
    denying.1.symm.trans (Prod.mk.inj eq).2, byte, counters',
    denying'.1.symm.trans (Prod.mk.inj eq').2, byte'⟩

end FileTable

end Pintos.Filesys
