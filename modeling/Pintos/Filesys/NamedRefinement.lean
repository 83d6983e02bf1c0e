import Pintos.Filesys.NameCalls
import Pintos.Lib.Simulation

/-! The file system refines `Store`: every run of careful calls from a formatted device comes to its
end, with the answers of a map from names to files. -/

namespace Pintos.Filesys

open Words CStrings Filesys.Tree Files

namespace FileTable

/-- A file that a user of `filesys.c` has open. -/
def Own (st : FileTable) (f : Nat) : Prop := f ∈ st.openFiles ∧ (st.file f).inode ≠ 0

instance (st : FileTable) (f : Nat) : Decidable (st.Own f) := inferInstanceAs (Decidable (_ ∧ _))

/-- A file can be made in the root directory. -/
def Room (st : FileTable) (size : Nat) : Prop :=
  size ≤ 129 * 512 ∧ (st.files.inode 1).length + 20 ≤ 129 * 512 ∧
    1 + growthSectors 0 size +
      growthSectors (st.files.inode 1).length ((st.files.inode 1).length + 20) ≤
        st.files.fs.free.freeCount

instance (st : FileTable) (size : Nat) : Decidable (st.Room size) :=
  inferInstanceAs (Decidable (_ ∧ _))

/-- A write that is in one piece with the file, and for which there are sectors. -/
def Fits (st : FileTable) (s pos size : Nat) : Prop :=
  pos ≤ (st.files.inode s).length ∧
    ((st.files.inode s).length < pos + size → pos + size ≤ 16513 * 512 ∧
      OneTable (st.files.inode s).length (pos + size) ∧
      growthSectors (st.files.inode s).length (pos + size) ≤ st.files.fs.free.freeCount)

instance (st : FileTable) (s pos size : Nat) : Decidable (st.Fits s pos size) :=
  inferInstanceAs (Decidable (_ ∧ _))

instance (path : CString) (P : CString → Prop) [DecidablePred P] :
    Decidable (∃ c, Single path c ∧ P c) :=
  match h : components 47 path.1 with
  | [c] => decidable_of_iff (P c) ⟨fun p => ⟨c, h, p⟩, fun ⟨c', single, p⟩ => by
      obtain rfl : c = c' := by simpa [Single, h] using single
      exact p⟩
  | [] => .isFalse fun ⟨_, single, _⟩ => by simp [Single, h] at single
  | _ :: _ :: _ => .isFalse fun ⟨_, single, _⟩ => by simp [Single, h] at single

/-- What a call needs: names in the root directory, open files of its own, sectors for what it
writes, and nothing to delete from two blocks on. -/
def Careful (st : FileTable) : NameCall → Prop
  | .create path size _ _ => (∃ c, Single path c ∧ ¬(c = dot ∨ c = dotdot)) ∧ st.Room size
  | .open_ path a _ => (∃ c, Single path c ∧ c ≠ dot ∧ c ≠ dotdot) ∧ a ∉ st.openFiles
  | .read f _ | .tell f | .length f | .denyWrite f | .allowWrite f => st.Own f
  | .write f _ size => st.Own f ∧
      ∀ o ∈ st.files.opens (st.file f).inode, o.denyWriteCnt = 0 →
        st.Fits (st.file f).inode (st.file f).pos size
  | .seek f pos => st.Own f ∧ pos < 2 ^ 31
  | .close f _ => st.Own f ∧ ∀ o ∈ st.files.opens (st.file f).inode,
      o.removed = true → o.openCnt ≤ 1 → o.data.length < 1024
  | .remove path _ => ∃ c, Single path c ∧ ∀ s ∈ st.files.lookup 1 c,
      st.files.opens s = none → (st.files.inode s).length < 1024
  | .reboot dev cache bitmap _ => (∀ f ∈ st.openFiles, (st.file f).inode = 0) ∧
      bitmap.Writable ∧ bitmap.size = st.files.fs.free.size ∧
      ∀ files, st.files.filesysDone dev [0] = .ok files → cache.Models files.fs.data

/-- A careful call that is no new start. -/
def Runs (st : FileTable) : NameCall → Prop
  | .reboot .. => False
  | call => st.Careful call

instance (st : FileTable) : (call : NameCall) → Decidable (st.Runs call)
  | .create path size _ _ => inferInstanceAs (Decidable
      ((∃ c, Single path c ∧ ¬(c = dot ∨ c = dotdot)) ∧ st.Room size))
  | .open_ path a _ => inferInstanceAs (Decidable
      ((∃ c, Single path c ∧ c ≠ dot ∧ c ≠ dotdot) ∧ a ∉ st.openFiles))
  | .read f _ | .tell f | .length f | .denyWrite f | .allowWrite f =>
    inferInstanceAs (Decidable (st.Own f))
  | .write f _ size => inferInstanceAs (Decidable (st.Own f ∧
      ∀ o ∈ st.files.opens (st.file f).inode, o.denyWriteCnt = 0 →
        st.Fits (st.file f).inode (st.file f).pos size))
  | .seek f pos => inferInstanceAs (Decidable (st.Own f ∧ pos < 2 ^ 31))
  | .close f _ => inferInstanceAs (Decidable (st.Own f ∧
      ∀ o ∈ st.files.opens (st.file f).inode,
        o.removed = true → o.openCnt ≤ 1 → o.data.length < 1024))
  | .remove path _ => inferInstanceAs (Decidable (∃ c, Single path c ∧
      ∀ s ∈ st.files.lookup 1 c, st.files.opens s = none → (st.files.inode s).length < 1024))
  | .reboot .. => .isFalse id

theorem Runs.careful {st : FileTable} : {call : NameCall} → st.Runs call → st.Careful call
  | .create .., runs | .open_ .., runs | .read .., runs | .write .., runs | .seek .., runs
  | .tell .., runs | .length .., runs | .denyWrite .., runs | .allowWrite .., runs
  | .close .., runs | .remove .., runs => runs

variable {st st' : FileTable} {t : Store} {f g s : Nat} {h : FileHandle} {held : Nat → Nat}
  {files : Files}

/-- The counters stay. -/
theorem Counted.of_opens (counted : Counted st held)
    (same : ∀ s, (files.opens s).map (fun i => (i.openCnt, i.denyWriteCnt)) =
      (st.files.opens s).map fun i => (i.openCnt, i.denyWriteCnt)) :
    Counted { st with files := files } held := by
  have kept : ∀ s, FileTable.counters (files.opens s) = FileTable.counters (st.files.opens s) := by
    intro s
    have eq := same s
    cases new : files.opens s <;> cases old : st.files.opens s <;> rw [new, old] at eq <;>
      simp_all [FileTable.counters]
  refine ⟨counted.nodup, fun s => (kept s).trans (counted.counters s), fun s i isOpen => ?_⟩
  have eq := same s
  rw [show files.opens s = some i from isOpen] at eq
  obtain ⟨j, old, counts⟩ := Option.map_eq_some_iff.mp eq.symm
  have := counted.pos s j old
  have := congrArg Prod.fst counts
  simp only at this
  omega

end FileTable

/-- The file system has the names and the files of the store. -/
structure Serves (st : FileTable) (t : Store) : Prop where
  sound : st.files.Sound
  counted : st.Counted FileTable.noneHeld
  freeMap : st.filesOn 0 = 1
  users : ∀ f ∈ st.openFiles, (st.file f).inode ≠ 1
  names : t.names = st.files.lookup 1
  bytes : ∀ s, s ≠ 0 → s ≠ 1 → st.files.live s = true → t.bytes s = st.files.content s
  handle : ∀ f, t.handle f = if st.Own f then some (st.file f) else none

namespace Serves

variable {st st' : FileTable} {t t' : Store} {f g s : Nat} {h : FileHandle} {o : OpenInode}
  {files : Files} {c path : CString}

theorem handle_of_own (serves : Serves st t) (own : st.Own f) : t.handle f = some (st.file f) := by
  rw [serves.handle, if_pos own]

theorem rootClosed (serves : Serves st t) : st.files.opens 1 = none := by
  have none : st.filesOn 1 = 0 := by
    refine List.countP_eq_zero.mpr fun f mem => ?_
    simpa using serves.users f mem
  cases isOpen : st.files.opens 1 with
  | none => rfl
  | some o =>
    have count := (serves.counted.of_open isOpen).1
    have positive := serves.counted.pos 1 o isOpen
    rw [none] at count
    simp [FileTable.noneHeld] at count
    omega

/-- The inode of an open file. -/
theorem isOpen (serves : Serves st t) (own : st.Own f) :
    (st.file f).inode ≠ 0 ∧ (st.file f).inode ≠ 1 ∧
      ∃ o, st.files.opens (st.file f).inode = some o ∧ st.files.live (st.file f).inode = true ∧
        st.files.inode (st.file f).inode = o.data := by
  obtain ⟨o, isOpen⟩ := serves.counted.isOpen own.1
  exact ⟨own.2, serves.users f own.1, o, isOpen, serves.sound.wellFormed.live_of_open isOpen,
    inode_of_open isOpen⟩

theorem opened_iff (serves : Serves st t) (ne : s ≠ 0) : t.Opened s ↔ st.files.opens s ≠ none := by
  constructor
  · rintro ⟨f, h, is, rfl⟩
    rw [serves.handle] at is
    split at is
    next own =>
      obtain rfl := Option.some.inj is
      obtain ⟨-, -, o, isOpen, -⟩ := serves.isOpen own
      simp [isOpen]
    next => cases is
  · intro some
    obtain ⟨o, isOpen⟩ := Option.ne_none_iff_exists'.mp some
    have count := (serves.counted.of_open isOpen).1
    have positive := serves.counted.pos s o isOpen
    have many : 0 < st.filesOn s := by simp only [FileTable.noneHeld] at count; omega
    obtain ⟨f, mem, on⟩ := List.countP_pos_iff.mp many
    have eq : (st.file f).inode = s := by simpa using on
    exact ⟨f, _, serves.handle_of_own ⟨mem, eq ▸ ne⟩, eq⟩

theorem denied_iff (serves : Serves st t) (ne : s ≠ 0) (isOpen : st.files.opens s = some o) :
    t.Denied s ↔ o.denyWriteCnt ≠ 0 := by
  have count := (serves.counted.of_open isOpen).2
  rw [count, ← Nat.pos_iff_ne_zero]
  constructor
  · rintro ⟨f, h, is, rfl, deny⟩
    rw [serves.handle] at is
    split at is
    next own =>
      obtain rfl := Option.some.inj is
      exact List.countP_pos_iff.mpr ⟨f, own.1, by simp [deny]⟩
    next => cases is
  · intro many
    obtain ⟨f, mem, on⟩ := List.countP_pos_iff.mp many
    have both : (st.file f).inode = s ∧ (st.file f).denyWrite = true := by simpa using on
    exact ⟨f, _, serves.handle_of_own ⟨mem, both.1 ▸ ne⟩, both⟩

/-- A call that keeps the open files, but for what one of them has besides its inode. -/
theorem setFile (serves : Serves st t) (own : st.Own f) (inode : h.inode = (st.file f).inode)
    (sound : files.Sound)
    (counted : FileTable.Counted ⟨files, Function.update st.file f h, st.openFiles⟩
      FileTable.noneHeld)
    (names : files.lookup 1 = st.files.lookup 1) {bytes : Nat → List UInt8}
    (same : ∀ s, s ≠ 0 → s ≠ 1 → files.live s = true → bytes s = files.content s) :
    Serves ⟨files, Function.update st.file f h, st.openFiles⟩
      { t.setHandle f (some h) with bytes := bytes } := by
  have inodes : ∀ g, (Function.update st.file f h g).inode = (st.file g).inode := by
    intro g
    rw [Function.update_apply]
    split
    next eq => rw [eq, inode]
    next => rfl
  refine ⟨sound, counted, ?_, fun g mem => ?_, serves.names.trans names.symm, same, fun g => ?_⟩
  · rw [← serves.freeMap]
    exact List.countP_congr fun g _ => by simp [inodes]
  · rw [inodes]
    exact serves.users g mem
  · have owns : FileTable.Own ⟨files, Function.update st.file f h, st.openFiles⟩ g ↔ st.Own g := by
      simp only [FileTable.Own, inodes]
    show (Function.update t.handle f (some h)) g = _
    by_cases eq : g = f
    · subst eq
      rw [Function.update_self, if_pos (owns.mpr own)]
      show some h = some (Function.update st.file g h g)
      rw [Function.update_self]
    · rw [Function.update_of_ne eq, serves.handle]
      show _ = if _ then some (Function.update st.file f h g) else none
      simp only [owns, Function.update_of_ne eq]

/-- The counters of the inodes and the flags of the open files stay. -/
theorem recount (serves : Serves st t) (inode : h.inode = (st.file f).inode)
    (deny : h.denyWrite = (st.file f).denyWrite)
    (opens : ∀ s, (files.opens s).map (fun i => (i.openCnt, i.denyWriteCnt)) =
      (st.files.opens s).map fun i => (i.openCnt, i.denyWriteCnt)) :
    FileTable.Counted ⟨files, Function.update st.file f h, st.openFiles⟩ FileTable.noneHeld := by
  have same : ∀ g, (Function.update st.file f h g).inode = (st.file g).inode ∧
      (Function.update st.file f h g).denyWrite = (st.file g).denyWrite := by
    intro g
    rw [Function.update_apply]
    split
    next eq => rw [eq, inode, deny]; exact ⟨rfl, rfl⟩
    next => exact ⟨rfl, rfl⟩
  have counted := serves.counted.of_opens opens
  refine ⟨counted.nodup, fun s => (counted.counters s).trans ?_, counted.pos⟩
  simp only [FileTable.filesOn, FileTable.denying, same]

/-- Nothing changes but the position of an open file. -/
theorem setPos (serves : Serves st t) (own : st.Own f) (pos : Nat) :
    Serves (st.setPos f pos) (t.setHandle f (some { st.file f with pos := pos })) :=
  serves.setFile (h := { st.file f with pos := pos }) own rfl serves.sound
    (serves.recount rfl rfl fun _ => rfl) rfl serves.bytes

theorem read (serves : Serves st t) (own : st.Own f) (size : Nat) :
    Simulation.Follows FileTable.call Store.Admits Serves st t (.read f size) := by
  obtain ⟨ne, ne', o, isOpen, live, inode⟩ := serves.isOpen own
  have read := inodeReadAt_live serves.sound.toInv live size (st.file f).pos
  rw [inode] at read
  have bytes : (List.range (min size (o.data.length - (st.file f).pos))).map (fun i =>
      byteAt st.files.fs o.data ((st.file f).pos + i)) =
        ((t.bytes (st.file f).inode).drop (st.file f).pos).take size := by
    rw [serves.bytes _ ne ne' live, content, inode]
    refine List.ext_getElem (by simp) fun i inside _ => ?_
    simp
  rw [bytes] at read
  refine ⟨_, _, _, ?_, .read (serves.handle_of_own own), serves.setPos own _⟩
  simp only [FileTable.call, own.1, if_true, FileTable.fileRead, isOpen, Option.bind_some, read,
    FileTable.setPos, Option.map_some]

theorem write (serves : Serves st t) (own : st.Own f) (buffer : Bytes) (size : Nat)
    (fits : ∀ o ∈ st.files.opens (st.file f).inode, o.denyWriteCnt = 0 →
      st.Fits (st.file f).inode (st.file f).pos size) :
    Simulation.Follows FileTable.call Store.Admits Serves st t (.write f buffer size) := by
  obtain ⟨ne, ne', o, isOpen, live, inode⟩ := serves.isOpen own
  by_cases allowed : o.denyWriteCnt = 0
  · obtain ⟨place, room⟩ := fits o isOpen allowed
    have scope : InScope st.files (.writeAt (st.file f).inode buffer size (st.file f).pos) :=
      fun longer => ⟨(room longer).1, (room longer).2.2⟩
    have careful : Files.Careful st.files
        (.writeAt (st.file f).inode buffer size (st.file f).pos) :=
      fun longer => (room longer).2.1
    obtain ⟨fs, o', run, isdir, written⟩ :=
      serves.sound.toInv.inodeWriteAt_ok isOpen allowed scope careful
    obtain ⟨d, now, -⟩ := written.opens
    have here : Function.update st.files.opens (st.file f).inode (some o') (st.file f).inode =
      some o' := Function.update_self ..
    obtain rfl := Option.some.inj (here.symm.trans now)
    have after : Files.inode { st.files with
        fs := fs
        opens := Function.update st.files.opens (st.file f).inode (some { o with data := d }) }
        (st.file f).inode = d := inode_of_open (o := { o with data := d }) here
    have sound := serves.sound.written ne ne' isOpen written (by rw [after, inode]; exact isdir)
    have names := funext (written.others.leaves.lookup (Ne.symm ne') serves.sound.root.1)
    have content := written.content place
    refine ⟨_, _, _, ?_, .wrote (serves.handle_of_own own)
      ((serves.denied_iff ne isOpen).not.mpr (not_not.mpr allowed)),
      serves.setFile (h := { st.file f with pos := (st.file f).pos + size }) own rfl sound
        (serves.recount rfl rfl fun s => ?_) names fun s at0 at1 alive => ?_⟩
    · simp only [FileTable.call, own.1, if_true, FileTable.fileWrite, isOpen, Option.bind_some, run,
        FileTable.setPos, FileTable.setOpen, Option.map_some]
    · dsimp only
      rw [Function.update_apply]
      split
      next eq => rw [eq, isOpen]; rfl
      next => rfl
    · rw [Function.update_apply]
      split
      next eq => rw [eq, content, serves.bytes _ ne ne' live]
      next other =>
        rw [written.others.leaves.content other alive]
        exact serves.bytes s at0 at1 alive
  · have denied := (serves.denied_iff ne isOpen).mpr allowed
    have same : st.setPos f (st.file f).pos = st := by
      simp only [FileTable.setPos, Function.update_eq_self]
    have kept : Function.update st.files.opens (st.file f).inode (some o) = st.files.opens := by
      rw [← isOpen, Function.update_eq_self]
    refine ⟨st, _, _, ?_, .denied (serves.handle_of_own own) denied, serves⟩
    simp only [FileTable.call, own.1, if_true, FileTable.fileWrite, isOpen, Option.bind_some,
      inodeWriteAt, ne_eq, allowed, not_false_eq_true, Nat.add_zero, Option.map_some,
      FileTable.setOpen, kept]
    rw [same]

theorem setHandle_self (serves : Serves st t) (own : st.Own f) :
    t.setHandle f (some (st.file f)) = t := by
  rw [← serves.handle_of_own own, Store.setHandle, Function.update_eq_self]

/-- The flag of an open file and the count of its inode change. -/
theorem setFlag (serves : Serves st t) (own : st.Own f) {o' : OpenInode} {deny : Bool}
    (isOpen : st.files.opens (st.file f).inode = some o) (data : o'.data = o.data)
    (removed : o'.removed = o.removed)
    (counted : ((st.setDenyWrite f deny).setOpen (st.file f).inode o').Counted FileTable.noneHeld) :
    Serves ((st.setDenyWrite f deny).setOpen (st.file f).inode o')
      (t.setHandle f (some { st.file f with denyWrite := deny })) := by
  have live := serves.sound.wellFormed.live_of_open isOpen
  have same : o'.data = st.files.inode (st.file f).inode := data.trans (inode_of_open isOpen).symm
  have leaves := (sameView_opens same).leaves fun _ => True
  refine serves.setFile (h := { st.file f with denyWrite := deny }) own rfl
    (serves.sound.setOpen live same ?_) counted
    (funext (leaves.lookup (t := 1) trivial serves.sound.root.1)) fun s ne ne' alive => ?_
  · rw [isOpen, removed]
    rfl
  · rw [serves.bytes s ne ne' alive]
    exact (leaves.content (t := s) trivial alive).symm

/-- `file_deny_write`, or another one after it. -/
theorem denyWrite (serves : Serves st t) (own : st.Own f) :
    Simulation.Follows FileTable.call Store.Admits Serves st t (.denyWrite f) := by
  obtain ⟨st', run, counted⟩ := serves.counted.fileDenyWrite own.1
  refine ⟨st', _, _, ?_, .deniedWrite (serves.handle_of_own own), ?_⟩
  · simp only [FileTable.call, own.1, if_true, run, Option.map_some]
  rw [FileTable.fileDenyWrite] at run
  split at run
  next denies =>
    obtain rfl := Option.some.inj run
    have same : ({ st.file f with denyWrite := true } : FileHandle) = st.file f := by rw [← denies]
    rw [same, serves.setHandle_self own]
    exact serves
  next =>
    obtain ⟨o, isOpen, run⟩ := Option.bind_eq_some_iff.mp run
    obtain ⟨o', denied, rfl⟩ := Option.map_eq_some_iff.mp run
    simp only [inodeDenyWrite] at denied
    split at denied
    · obtain rfl := Option.some.inj denied
      exact serves.setFlag own isOpen rfl rfl counted
    · cases denied

/-- `file_allow_write` of an open file. -/
theorem fileAllowWrite (serves : Serves st t) (own : st.Own f)
    (isOpen : st.files.opens (st.file f).inode = some o) :
    ∃ st' o', st.fileAllowWrite f = some st' ∧ st'.openFiles = st.openFiles ∧
      (st'.file f).inode = (st.file f).inode ∧
      st'.files.opens (st.file f).inode = some o' ∧ o'.openCnt = o.openCnt ∧
      o'.removed = o.removed ∧ o'.data = o.data ∧
      Serves st' (t.setHandle f (some { st.file f with denyWrite := false })) := by
  obtain ⟨st', run, counted, openFiles, -⟩ := serves.counted.fileAllowWrite own.1
  have run' := run
  rw [FileTable.fileAllowWrite] at run
  split at run
  next =>
    rw [isOpen, Option.bind_some] at run
    obtain ⟨o', allowed, rfl⟩ := Option.map_eq_some_iff.mp run
    simp only [inodeAllowWrite] at allowed
    split at allowed
    · obtain rfl := Option.some.inj allowed
      refine ⟨_, _, run', openFiles, ?_, Function.update_self .., rfl, rfl, rfl,
        serves.setFlag own isOpen rfl rfl counted⟩
      show (Function.update st.file f { st.file f with denyWrite := false } f).inode = _
      rw [Function.update_self]
    · cases allowed
  next allows =>
    obtain rfl := Option.some.inj run
    have same : ({ st.file f with denyWrite := false } : FileHandle) = st.file f := by
      rw [← Bool.not_eq_true _ |>.mp allows]
    rw [same, serves.setHandle_self own]
    exact ⟨_, o, run', rfl, rfl, isOpen, rfl, rfl, rfl, serves⟩

theorem allowWrite (serves : Serves st t) (own : st.Own f) :
    Simulation.Follows FileTable.call Store.Admits Serves st t (.allowWrite f) := by
  obtain ⟨-, -, o, isOpen, -⟩ := serves.isOpen own
  obtain ⟨st', o', run, -, -, -, -, -, -, serves'⟩ := serves.fileAllowWrite own isOpen
  refine ⟨st', _, _, ?_, .allowedWrite (serves.handle_of_own own), serves'⟩
  simp only [FileTable.call, own.1, if_true, run, Option.map_some]

/-- The last open file of a removed inode takes it along. -/
theorem close (serves : Serves st t) (own : st.Own f) (dev : Nat → Bytes)
    (short : ∀ o ∈ st.files.opens (st.file f).inode,
      o.removed = true → o.openCnt ≤ 1 → o.data.length < 1024) :
    Simulation.Follows FileTable.call Store.Admits Serves st t (.close f dev) := by
  obtain ⟨-, -, o, isOpen, -⟩ := serves.isOpen own
  obtain ⟨mid, o', allow, openFiles, inode, isOpen', count, removed, data, between⟩ :=
    serves.fileAllowWrite own isOpen
  have own' : mid.Own f := ⟨openFiles ▸ own.1, inode ▸ own.2⟩
  obtain ⟨ne, ne', -⟩ := between.isOpen own'
  rw [← inode] at isOpen'
  obtain ⟨files, run, sound, opens, leaves⟩ := between.sound.inodeClose isOpen' ne (absurd · ne')
    (fun gone last => by
      rw [data]
      exact short o isOpen (removed ▸ gone) (count ▸ last)) dev
  have closed : st.fileClose f dev =
      some { mid with files := files, openFiles := mid.openFiles.erase f } := by
    rw [FileTable.fileClose, allow, Option.bind_some, run]
    rfl
  have counted := serves.counted.fileClose own.1 closed
  have names := funext (leaves.lookup sound.root.1 between.sound.root.1)
  have nodup := between.counted.nodup
  refine ⟨_, _, _, ?_, .closed (serves.handle_of_own own), sound, counted, ?_,
    fun g mem => between.users g (List.mem_of_mem_erase mem), between.names.trans names.symm,
    fun s at0 at1 alive => ?_, fun g => ?_⟩
  · simp only [FileTable.call, own.1, if_true, closed, Option.map_some]
  · have others := FileTable.countP_split own'.1 fun g => (mid.file g).inode == 0
    have kept := between.freeMap
    rw [FileTable.filesOn, others, if_neg (by simpa using ne)] at kept
    exact kept
  · have before := between.bytes s at0 at1 ((leaves.live s alive).symm.trans alive)
    exact before.trans (leaves.content (t := s) alive ((leaves.live s alive).symm.trans alive)).symm
  · show Function.update t.handle f none g = _
    by_cases eq : g = f
    · subst eq
      rw [Function.update_self, if_neg]
      exact fun mine => (List.Nodup.mem_erase_iff nodup).mp mine.1 |>.1 rfl
    · have same := between.handle g
      have shown : (t.setHandle f (some { st.file f with denyWrite := false })).handle g =
        t.handle g := Function.update_of_ne eq _ _
      rw [shown] at same
      have owns : FileTable.Own ⟨files, mid.file, mid.openFiles.erase f⟩ g ↔ mid.Own g := by
        simp only [FileTable.Own, List.mem_erase_of_ne eq]
      rw [Function.update_of_ne eq, same]
      simp only [owns]

/-- The names or the files that are not open change. -/
theorem setFiles (serves : Serves st t) (sound : files.Sound)
    (opens : ∀ s, (files.opens s).map (fun i => (i.openCnt, i.denyWriteCnt)) =
      (st.files.opens s).map fun i => (i.openCnt, i.denyWriteCnt))
    {bytes : Nat → List UInt8}
    (same : ∀ s, s ≠ 0 → s ≠ 1 → files.live s = true → bytes s = files.content s) :
    Serves { st with files := files } ⟨files.lookup 1, bytes, t.handle⟩ :=
  ⟨sound, serves.counted.of_opens opens, serves.freeMap, serves.users, rfl, same, serves.handle⟩

theorem create (serves : Serves st t) (single : Single path c) (dots : ¬(c = dot ∨ c = dotdot))
    {size : Nat} (room : st.Room size) (dev : Nat → Bytes) (junk : Bytes) :
    Simulation.Follows FileTable.call Store.Admits Serves st t (.create path size dev junk) := by
  obtain ⟨fits, bound, enough⟩ := room
  by_cases refused : nameMax < c.1.length ∨ ∃ s, st.files.lookup 1 c = some s
  · obtain ⟨files, run, sound, opens, names, leaves⟩ :=
      serves.sound.createRefused serves.rootClosed single dots refused fits (by omega) dev junk
    have bytes : ∀ u, u ≠ 0 → u ≠ 1 → files.live u = true → t.bytes u = files.content u := by
      intro u at0 at1 alive
      have before := (leaves.live u alive).symm.trans alive
      rw [serves.bytes u at0 at1 before, leaves.content (t := u) alive before]
    have serves' := serves.setFiles sound (fun s => by rw [opens]) bytes
    rw [names, ← serves.names] at serves'
    refine ⟨_, _, _, ?_, .notCreated single (by rwa [serves.names]), serves'⟩
    simp only [FileTable.call, run, Option.map_some]
  · obtain ⟨short, absent⟩ := not_or.mp refused
    have absent : st.files.lookup 1 c = none := by
      cases found : st.files.lookup 1 c with
      | none => rfl
      | some s => exact absurd ⟨s, found⟩ absent
    obtain ⟨files, s, run, sound, opens, dead, names, zeros, leaves⟩ :=
      serves.sound.create serves.rootClosed single dots (Nat.le_of_not_lt short) absent fits bound
        enough dev junk
    have ne : s ≠ 0 := by
      rintro rfl
      obtain ⟨o, zero, -⟩ := serves.sound.freeMap
      cases dead.symm.trans (serves.sound.wellFormed.live_of_open zero)
    have ne' : s ≠ 1 := by
      rintro rfl
      cases dead.symm.trans serves.sound.root.1
    have bytes : ∀ u, u ≠ 0 → u ≠ 1 → files.live u = true →
        Function.update t.bytes s (List.replicate size 0) u = files.content u := by
      intro u at0 at1 alive
      rw [Function.update_apply]
      split
      next eq => rw [eq, zeros]
      next other =>
        have before := (leaves.live u ⟨other, at1⟩).symm.trans alive
        rw [serves.bytes u at0 at1 before, leaves.content (t := u) ⟨other, at1⟩ before]
    have serves' := serves.setFiles sound (fun s => by rw [opens]) bytes
    rw [names, ← serves.names] at serves'
    refine ⟨{ st with files := files }, _, _, ?_,
      .created single (Nat.le_of_not_lt short) (by rw [serves.names]; exact absent) ?_ ?_, serves'⟩
    · simp only [FileTable.call, run, Option.map_some]
    · rintro ⟨c', named⟩
      rw [serves.names] at named
      cases dead.symm.trans ((serves.sound.tidy s ne ne').file c' named).1
    · rw [serves.opened_iff ne, not_not]
      exact serves.sound.opened s dead

theorem open_ (serves : Serves st t) (single : Single path c) (dots : c ≠ dot ∧ c ≠ dotdot)
    {a : Nat} (fresh : a ∉ st.openFiles) (dev : Nat → Bytes) :
    Simulation.Follows FileTable.call Store.Admits Serves st t (.open_ path a dev) := by
  obtain ⟨files, run, sound, opens, names, leaves⟩ :=
    serves.sound.open_ serves.rootClosed single dots dev
  have bytes : ∀ u, u ≠ 0 → u ≠ 1 → files.live u = true → t.bytes u = files.content u := by
    intro u at0 at1 alive
    have before := (leaves.live u trivial).symm.trans alive
    rw [serves.bytes u at0 at1 before, leaves.content (t := u) trivial before]
  cases found : st.files.lookup 1 c with
  | none =>
    rw [found] at run opens
    have serves' := serves.setFiles sound (fun s => by rw [opens]; rfl) bytes
    rw [names, ← serves.names] at serves'
    refine ⟨_, _, _, ?_, .notFound single (by rw [serves.names, found]), serves'⟩
    simp only [FileTable.call, FileTable.filesysOpen, run, Option.bind_some, Option.map_some]
  | some s =>
    rw [found] at run opens
    obtain ⟨ne, ne'⟩ := serves.sound.reserved c s found
    have counted : FileTable.Counted ⟨files, st.file, st.openFiles⟩ (FileTable.oneHeld s) :=
      (serves.counted.inodeOpen s).of_opens fun u => by rw [opens]; rfl
    have counted := counted.addFile fresh
    have old : ∀ g ∈ st.openFiles, Function.update st.file a ⟨s, 0, false⟩ g = st.file g := by
      intro g mem
      refine Function.update_of_ne ?_ _ _
      rintro rfl
      exact fresh mem
    have free : t.handle a = none := by
      rw [serves.handle, if_neg fun own => fresh own.1]
    refine ⟨⟨files, Function.update st.file a ⟨s, 0, false⟩, a :: st.openFiles⟩, _, _, ?_,
      .opened single (by rw [serves.names, found]) free, sound, counted, ?_, fun g mem => ?_,
      serves.names.trans names.symm, bytes, fun g => ?_⟩
    · simp only [FileTable.call, FileTable.filesysOpen, run, Option.bind_some, FileTable.fileOpen,
        fresh, if_false, Option.map_some]
    · rw [← serves.freeMap, FileTable.filesOn, List.countP_cons_of_neg (by simpa using ne)]
      exact List.countP_congr fun g mem => by simp only [old g mem]
    · show (Function.update st.file a ⟨s, 0, false⟩ g).inode ≠ 1
      rcases List.mem_cons.mp mem with rfl | mem
      · rw [Function.update_self]
        exact ne'
      · rw [old g mem]
        exact serves.users g mem
    · show Function.update t.handle a (some ⟨s, 0, false⟩) g =
        if _ then some (Function.update st.file a ⟨s, 0, false⟩ g) else none
      by_cases eq : g = a
      · subst eq
        rw [Function.update_self, Function.update_self, if_pos]
        refine ⟨List.mem_cons_self, ?_⟩
        show (Function.update st.file g ⟨s, 0, false⟩ g).inode ≠ 0
        rw [Function.update_self]
        exact ne
      · have owns : FileTable.Own ⟨files, Function.update st.file a ⟨s, 0, false⟩,
            a :: st.openFiles⟩ g ↔ st.Own g := by
          simp only [FileTable.Own, List.mem_cons, eq, false_or, Function.update_of_ne eq]
        rw [Function.update_of_ne eq, Function.update_of_ne eq, serves.handle]
        simp only [owns]

theorem remove (serves : Serves st t) (single : Single path c) (dev : Nat → Bytes)
    (short : ∀ s ∈ st.files.lookup 1 c, st.files.opens s = none →
      (st.files.inode s).length < 1024) :
    Simulation.Follows FileTable.call Store.Admits Serves st t (.remove path dev) := by
  cases found : st.files.lookup 1 c with
  | none =>
    obtain ⟨files, run, sound, opens, names, leaves⟩ :=
      serves.sound.removeRefused serves.rootClosed single found dev
    have bytes : ∀ u, u ≠ 0 → u ≠ 1 → files.live u = true → t.bytes u = files.content u := by
      intro u at0 at1 alive
      have before := (leaves.live u trivial).symm.trans alive
      rw [serves.bytes u at0 at1 before, leaves.content (t := u) trivial before]
    have serves' := serves.setFiles sound (fun s => by rw [opens]) bytes
    rw [names, ← serves.names] at serves'
    refine ⟨_, _, _, ?_, .notRemoved single (by rw [serves.names, found]), serves'⟩
    simp only [FileTable.call, run, Option.map_some]
  | some s =>
    obtain ⟨files, run, sound, opens, names, leaves⟩ := serves.sound.remove serves.rootClosed single
      found (fun i isOpen => serves.counted.pos s i isOpen) (short s found) dev
    have bytes : ∀ u, u ≠ 0 → u ≠ 1 → files.live u = true → t.bytes u = files.content u := by
      intro u at0 at1 alive
      have before := (leaves.live u ⟨at1, alive⟩).symm.trans alive
      rw [serves.bytes u at0 at1 before, leaves.content (t := u) ⟨at1, alive⟩ before]
    have serves' := serves.setFiles sound (fun u => by
      rw [opens, Function.update_apply]
      split
      next eq => rw [eq, Option.map_map]; rfl
      next => rfl) bytes
    rw [names, ← serves.names] at serves'
    refine ⟨_, _, _, ?_, .removed single (by rw [serves.names]; exact found), serves'⟩
    simp only [FileTable.call, run, Option.map_some]

theorem reboot (serves : Serves st t) (idle : ∀ f ∈ st.openFiles, (st.file f).inode = 0)
    {dev : Nat → Bytes} {cache : Cache Bytes} {bitmap : FreeMap} (a : Nat)
    (writable : bitmap.Writable) (size : bitmap.size = st.files.fs.free.size)
    (models : ∀ files, st.files.filesysDone dev [0] = .ok files → cache.Models files.fs.data) :
    Simulation.Follows FileTable.call Store.Admits Serves st t (.reboot dev cache bitmap a) := by
  obtain ⟨o, isOpen, -⟩ := serves.sound.freeMap
  have once : o.openCnt = 1 := (serves.counted.of_open isOpen).1.trans (by rw [serves.freeMap]; rfl)
  have unowned : ∀ f, t.handle f = none := by
    intro f
    rw [serves.handle, if_neg]
    exact fun own => own.2 (idle f own.1)
  have closed : ∀ u, u ≠ 0 → st.files.opens u = none := by
    intro u ne
    by_contra some
    obtain ⟨f, h, is, -⟩ := (serves.opened_iff ne).mpr some
    cases (unowned f).symm.trans is
  obtain ⟨files, done, start⟩ := serves.sound.reboot isOpen once closed dev writable size
  obtain ⟨sound, ⟨c, opens⟩, names, leaves⟩ := start cache (models files done)
  have zero : ∀ u, FileTable.counters ((files.mount (freeCache cache).disk bitmap).opens u) =
      (if u = 0 then 1 else 0, 0) := by
    intro u
    rw [opens, Function.update_apply]
    split
    next => rfl
    next ne => rw [closed u ne]; rfl
  refine ⟨⟨files.mount (freeCache cache).disk bitmap, Function.update st.file a ⟨0, 0, false⟩, [a]⟩,
    _, t, ?_, .rebooted unowned, sound,
    ⟨List.nodup_singleton a, fun u => ?_, fun u i here => ?_⟩, ?_, fun f mem => ?_, serves.names.trans names.symm, fun u at0 at1 alive => ?_, fun f => ?_⟩
  · simp only [FileTable.call, FileTable.reboot, done, Except.toOption, Option.map_some]
  · rw [zero]
    by_cases eq : u = 0
    · simp [FileTable.filesOn, FileTable.denying, FileTable.noneHeld, eq]
    · simp [FileTable.filesOn, FileTable.denying, FileTable.noneHeld, eq, Ne.symm eq]
  · rw [opens, Function.update_apply] at here
    split at here
    next => cases here; exact Nat.le_refl 1
    next ne => cases (closed u ne).symm.trans here
  · simp [FileTable.filesOn]
  · obtain rfl := List.mem_singleton.mp mem
    simp
  · have before := (leaves.live u trivial).symm.trans alive
    rw [serves.bytes u at0 at1 before, leaves.content (t := u) trivial before]
  · rw [unowned, if_neg]
    rintro ⟨mem, own⟩
    obtain rfl := List.mem_singleton.mp mem
    simp at own

end Serves

section Main

variable {st : FileTable} {t : Store}

/-- A careful call gets the answer that the store gives. -/
theorem Serves.call (serves : Serves st t) (call : NameCall) (careful : st.Careful call) :
    Simulation.Follows FileTable.call Store.Admits Serves st t call := by
  cases call with
  | create path size dev junk =>
    obtain ⟨⟨c, single, dots⟩, room⟩ := careful
    exact serves.create single dots room dev junk
  | open_ path a dev =>
    obtain ⟨⟨c, single, dots⟩, fresh⟩ := careful
    exact serves.open_ single dots fresh dev
  | read f size => exact serves.read careful size
  | write f buffer size => exact serves.write careful.1 buffer size careful.2
  | seek f pos =>
    obtain ⟨own, small⟩ := careful
    refine ⟨_, _, _, ?_, .sought (serves.handle_of_own own), serves.setPos own pos⟩
    simp only [FileTable.call, own.1, if_true, FileTable.fileSeek, small, Option.map_some]
  | tell f =>
    refine ⟨st, _, _, ?_, .told (serves.handle_of_own careful), serves⟩
    simp only [FileTable.call, careful.1, if_true]
  | length f =>
    obtain ⟨ne, ne', o, isOpen, live, inode⟩ := serves.isOpen careful
    have length : (t.bytes (st.file f).inode).length = o.data.length := by
      rw [serves.bytes _ ne ne' live, length_content, inode]
    refine ⟨st, _, _, ?_, .measured (serves.handle_of_own careful), serves⟩
    simp only [FileTable.call, careful.1, if_true, isOpen, Option.map_some, length]
  | denyWrite f => exact serves.denyWrite careful
  | allowWrite f => exact serves.allowWrite careful
  | close f dev => exact serves.close careful.1 dev careful.2
  | remove path dev =>
    obtain ⟨c, single, short⟩ := careful
    exact serves.remove single dev short
  | reboot dev cache bitmap a =>
    obtain ⟨idle, writable, size, models⟩ := careful
    exact serves.reboot idle a writable size models

/-- A formatted device whose free-map file is open at `m`. -/
def formattedAt (files : Files) (m : Nat) : FileTable := ⟨files, fun _ => ⟨0, 0, false⟩, [m]⟩

theorem formattedAt_serves {dev : Nat → Bytes} {bitmap : FreeMap} {files : Files}
    (blank : Files.Blank bitmap) (one : OneTable 0 (bitmapFileSize bitmap.size))
    (run : format dev bitmap = .ok files) (m : Nat) : Serves (formattedAt files m) .empty := by
  obtain ⟨⟨c, freeMap⟩, closed, -⟩ := format_opens blank one run
  obtain ⟨sound, names⟩ := format_sound blank one run
  have live := format_live run
  refine ⟨sound, ⟨List.nodup_singleton m, fun u => ?_, fun u i isOpen => ?_⟩, rfl, fun f _ => ?_,
    (funext names).symm, fun u at0 at1 alive => ?_, fun f => ?_⟩
  · by_cases eq : u = 0
    · subst eq
      simp only [formattedAt, freeMap]
      rfl
    · simp [formattedAt, closed u eq, FileTable.counters, FileTable.filesOn, FileTable.denying,
        FileTable.noneHeld, Ne.symm eq]
  · by_cases eq : u = 0
    · subst eq
      obtain rfl := Option.some.inj (freeMap.symm.trans isOpen)
      exact Nat.le_refl 1
    · cases (closed u eq).symm.trans isOpen
  · exact Nat.zero_ne_one
  · simp [formattedAt, live, at0, at1] at alive
  · rw [if_neg fun own => own.2 rfl]
    rfl

/-- A file is made, opened, written in part, read from its second byte on, and closed. -/
def readBack : List NameCall :=
  let path : CString := ⟨[47, 102], by decide⟩
  [.create path 10 (fun _ _ => 0) fun _ => 0, .open_ path 5 fun _ _ => 0,
    .write 5 (fun i => .ofNat (65 + i)) 3, .seek 5 1, .read 5 4, .close 5 fun _ _ => 0]

end Main

end Pintos.Filesys
