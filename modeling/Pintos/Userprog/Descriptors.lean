import Mathlib.Data.List.Perm.Basic
import Pintos.Userprog.AddressSpace

/-! The file descriptors of a process: `open`, `find_file`, `read`, `write`, `seek`, `tell`, `close`
and `close_all` in `syscall.c`, on the `struct file`s of `file.c` with their positions. -/

namespace Pintos.Userprog

open Transition

/-- `struct file`, with its inode. -/
structure OpenFile where
  inode : Nat
  pos : Int32

/-- `file_list` and `next_fd` of a process, and the `struct file`s in memory by address.  The last
five fields are for the statements: the descriptors handed out with their files, those closed since,
what `filesys_open` returned, what `file_close` was called with, and whether a file was used that
is not in memory. -/
structure Descriptors where
  fileList : List (Int32 × Nat)
  nextFd : Int32
  file : Nat → OpenFile
  allocated : Nat → Bool
  ended : Bool
  opens : List (Int32 × Nat)
  closes : List Int32
  opened : List Nat
  closed : List Nat
  useAfterFree : Bool

/-- The system calls on descriptors, with what `filesys_open`, `malloc`, `inode_read_at` and
`inode_write_at` return; a file that `filesys_open` returns has an address and an inode. -/
inductive DescriptorCall
  | open_ (opened : Option (Nat × Nat)) (memory : Bool)
  | close (fd : Int32)
  | read (fd : Int32) (size : UInt32) (bytesRead : Int32)
  | write (fd : Int32) (size : UInt32) (bytesWritten : Int32)
  | seek (fd : Int32) (position : UInt32)
  | tell (fd : Int32)

/-- The descriptor that a call is about. -/
def DescriptorCall.fd : DescriptorCall → Option Int32
  | .open_ _ _ => none
  | .close fd | .read fd _ _ | .write fd _ _ | .seek fd _ | .tell fd => some fd

namespace Descriptors

/-- `child_init`. -/
def childInit : Descriptors where
  fileList := []
  nextFd := 2
  file := fun _ => ⟨0, 0⟩
  allocated := fun _ => false
  ended := false
  opens := []
  closes := []
  opened := []
  closed := []
  useAfterFree := false

/-- An access to a `struct file`. -/
def access (st : Descriptors) (a : Nat) : Descriptors :=
  { st with useAfterFree := st.useAfterFree || !st.allocated a }

def setPos (st : Descriptors) (a : Nat) (pos : Int32) : Descriptors :=
  { st.access a with file := Function.update st.file a { st.file a with pos := pos } }

/-- `file_read` and `file_write` move the position by what they read or wrote. -/
def fileRead (st : Descriptors) (a : Nat) (bytesRead : Int32) : Descriptors :=
  st.setPos a ((st.file a).pos + bytesRead)

def fileWrite (st : Descriptors) (a : Nat) (bytesWritten : Int32) : Descriptors :=
  st.setPos a ((st.file a).pos + bytesWritten)

/-- `file_seek`, which asserts that the position is not negative. -/
def fileSeek (st : Descriptors) (a : Nat) (newPos : Int32) : Option Descriptors :=
  if 0 ≤ newPos then some (st.setPos a newPos) else none

def fileClose (st : Descriptors) (a : Nat) : Descriptors :=
  { st.access a with
    allocated := Function.update st.allocated a false
    closed := st.closed ++ [a] }

def findFile (st : Descriptors) (fd : Int32) : Option Nat :=
  (st.fileList.find? fun fe => fe.1 = fd).map Prod.snd

/-- `open` and its result.  Without memory for the `struct file_elem` it faults, and the process
calls `exit`; `filesys_open` returns no file that is in memory already. -/
def open_ (st : Descriptors) (opened : Option (Nat × Nat)) (memory : Bool) :
    Option (Descriptors × Option Int32) :=
  match opened with
  | none => some (st, some (-1))
  | some (a, inode) =>
    if st.allocated a then none
    else
      let st := { st with
        file := Function.update st.file a ⟨inode, 0⟩
        allocated := Function.update st.allocated a true
        opened := st.opened ++ [a] }
      if memory then
        some ({ st with
          fileList := st.fileList ++ [(st.nextFd, a)]
          nextFd := st.nextFd + 1
          opens := st.opens ++ [(st.nextFd, a)] }, some st.nextFd)
      else some ({ st with ended := true }, none)

/-- `read` from the keyboard has descriptor 0. -/
def read (st : Descriptors) (fd : Int32) (size : UInt32) (bytesRead : Int32) :
    Descriptors × Int32 :=
  if fd = 0 then (st, size.toInt32)
  else
    match st.findFile fd with
    | none => (st, -1)
    | some a => (st.fileRead a bytesRead, bytesRead)

/-- `write` to the console has descriptor 1. -/
def write (st : Descriptors) (fd : Int32) (size : UInt32) (bytesWritten : Int32) :
    Descriptors × Int32 :=
  if fd = 1 then (st, size.toInt32)
  else
    match st.findFile fd with
    | none => (st, -1)
    | some a => (st.fileWrite a bytesWritten, bytesWritten)

def seek (st : Descriptors) (fd : Int32) (position : UInt32) : Option Descriptors :=
  match st.findFile fd with
  | none => some st
  | some a => st.fileSeek a position.toInt32

def tell (st : Descriptors) (fd : Int32) : Descriptors × Int32 :=
  match st.findFile fd with
  | none => (st, -1)
  | some a => (st.access a, (st.file a).pos)

def close (st : Descriptors) (fd : Int32) : Descriptors :=
  let closes := if fd ∈ st.opens.map Prod.fst then fd :: st.closes else st.closes
  match st.fileList.find? fun fe => fe.1 = fd with
  | none => { st with closes }
  | some fe => { st.fileClose fe.2 with fileList := st.fileList.erase fe, closes }

def closeAllLoop : List (Int32 × Nat) → Descriptors → Descriptors
  | [], st => st
  | fe :: rest, st => closeAllLoop rest { st.fileClose fe.2 with fileList := rest }

def closeAll (st : Descriptors) : Descriptors := closeAllLoop st.fileList st

/-- A call of a process that has not ended, without a next state after a failed assertion. -/
def step (st : Descriptors) (call : DescriptorCall) : Option Descriptors :=
  if st.ended then none
  else
    match call with
    | .open_ opened memory => (st.open_ opened memory).map Prod.fst
    | .close fd => some (st.close fd)
    | .read fd size bytesRead => some (st.read fd size bytesRead).1
    | .write fd size bytesWritten => some (st.write fd size bytesWritten).1
    | .seek fd position => st.seek fd position
    | .tell fd => some (st.tell fd).1

/-- The descriptors are distinct and at least 2, none is handed out twice, each names the file that
was opened for it until it is closed, and `close_all` leaves every opened file closed once. -/
structure Good (st : Descriptors) : Prop where
  distinct : (st.fileList.map Prod.fst).Nodup
  least : ∀ fe ∈ st.fileList, 2 ≤ fe.1
  once : (st.opens.map Prod.fst).Nodup
  named : ∀ fd a, st.findFile fd = some a ↔ (fd, a) ∈ st.opens ∧ fd ∉ st.closes
  closed : st.closeAll.closed.Perm st.opened ∧ st.closeAll.useAfterFree = false

/-- The call leaves the file and the position of every other descriptor. -/
def Apart (st : Descriptors) (call : DescriptorCall) : Prop :=
  ∀ st', st.step call = some st' → ∀ fd a, call.fd ≠ some fd → st.findFile fd = some a →
    st'.findFile fd = some a ∧ st'.file a = st.file a

/-- A file is opened only with memory for its `struct file_elem`, and while descriptors are left. -/
def Granted (st : Descriptors) : DescriptorCall → Prop
  | .open_ (some _) memory => memory = true ∧ st.opens.length < 2 ^ 31 - 2
  | _ => True

section Tables

variable {α β : Type} [DecidableEq α] {l : List (α × β)} {k : α} {v : β}

/-- In a list of pairs with distinct keys, each pair is the one that is found for its key. -/
theorem find?_key_iff (nodup : (l.map Prod.fst).Nodup) :
    (l.find? fun e => e.1 = k).map Prod.snd = some v ↔ (k, v) ∈ l := by
  induction l with
  | nil => simp
  | cons e l ih =>
    obtain ⟨away, rest⟩ := List.nodup_cons.mp nodup
    by_cases here : e.1 = k
    · subst here
      have none : (e.1, v) ∉ l := fun mem => away (List.mem_map.mpr ⟨_, mem, rfl⟩)
      rw [List.find?_cons_of_pos (by simp), Option.map_some, Option.some.injEq, List.mem_cons]
      exact ⟨fun eq => .inl (eq ▸ rfl), fun mem => (mem.resolve_right none) ▸ rfl⟩
    · rw [List.find?_cons_of_neg (by simpa using here), ih rest, List.mem_cons]
      exact ⟨.inr, fun mem => mem.resolve_left fun eq => here (eq ▸ rfl)⟩

/-- To erase the pair of a key is to leave out the key. -/
theorem erase_key [DecidableEq β] (nodup : (l.map Prod.fst).Nodup) (mem : (k, v) ∈ l) :
    l.erase (k, v) = l.filter fun e => e.1 ≠ k := by
  rw [(List.Nodup.of_map Prod.fst nodup).erase_eq_filter]
  refine List.filter_congr fun e here => ?_
  by_cases key : e.1 = k
  · rw [List.inj_on_of_nodup_map nodup here mem key]
    simp
  · have ne : e ≠ (k, v) := fun eq => key (eq ▸ rfl)
    simp [key, ne]

end Tables

/-- The descriptors that are handed out are counted up from 2, and `file_list` has those that are
not closed, with files that are in memory. -/
structure Inv (st : Descriptors) : Prop where
  running : st.ended = false
  next : st.nextFd = Int32.ofNat (2 + st.opens.length)
  few : st.opens.length ≤ 2 ^ 31 - 2
  fds : st.opens.map Prod.fst = (List.range st.opens.length).map fun i => Int32.ofNat (2 + i)
  past : ∀ fd ∈ st.closes, fd ∈ st.opens.map Prod.fst
  list : st.fileList = st.opens.filter fun o => o.1 ∉ st.closes
  live : ∀ a, st.allocated a = true ↔ a ∈ st.fileList.map Prod.snd
  nodup : (st.fileList.map Prod.snd).Nodup
  closed : (st.closed ++ st.fileList.map Prod.snd).Perm st.opened
  safe : st.useAfterFree = false

section Keep

variable {st st' : Descriptors} {fd : Int32} {a : Nat}

theorem childInit_inv : Inv childInit where
  running := rfl
  next := rfl
  few := Nat.zero_le _
  fds := rfl
  past _ mem := by cases mem
  list := rfl
  live a := by simp [childInit]
  nodup := .nil
  closed := .nil
  safe := rfl

theorem toInt_fd {i : Nat} (small : i < 2 ^ 31 - 2) : (Int32.ofNat (2 + i)).toInt = 2 + i := by
  rw [Int32.toInt_ofNat_of_lt (by omega)]
  rfl

theorem Inv.once (inv : Inv st) : (st.opens.map Prod.fst).Nodup := by
  rw [inv.fds]
  refine List.Nodup.map_on (fun i hi j hj eq => ?_) List.nodup_range
  have few := inv.few
  have toInt := congrArg Int32.toInt eq
  rw [toInt_fd (by have := List.mem_range.mp hi; omega),
    toInt_fd (by have := List.mem_range.mp hj; omega)] at toInt
  omega

theorem Inv.least (inv : Inv st) (mem : fd ∈ st.opens.map Prod.fst) : 2 ≤ fd := by
  rw [inv.fds] at mem
  obtain ⟨i, hi, rfl⟩ := List.mem_map.mp mem
  have few := inv.few
  rw [Int32.le_iff_toInt_le, toInt_fd (by have := List.mem_range.mp hi; omega)]
  exact Int.le_add_of_nonneg_right (Int.natCast_nonneg i)

theorem Inv.sub (inv : Inv st) : st.fileList.Sublist st.opens := by
  rw [inv.list]
  exact List.filter_sublist

theorem Inv.distinct (inv : Inv st) : (st.fileList.map Prod.fst).Nodup :=
  inv.once.sublist (inv.sub.map Prod.fst)

theorem Inv.findFile_iff (inv : Inv st) : st.findFile fd = some a ↔ (fd, a) ∈ st.fileList :=
  find?_key_iff inv.distinct

theorem Inv.named (inv : Inv st) :
    st.findFile fd = some a ↔ (fd, a) ∈ st.opens ∧ fd ∉ st.closes := by
  rw [inv.findFile_iff, inv.list]
  simp

/-- A file with a descriptor is in memory. -/
theorem Inv.allocated (inv : Inv st) (found : st.findFile fd = some a) : st.allocated a = true :=
  (inv.live a).mpr (List.mem_map.mpr ⟨_, inv.findFile_iff.mp found, rfl⟩)

/-- `close_all` closes what is in `file_list`, in order. -/
theorem closeAllLoop_closed {files : List (Int32 × Nat)} (nodup : (files.map Prod.snd).Nodup)
    (live : ∀ fe ∈ files, st.allocated fe.2 = true) :
    (closeAllLoop files st).closed = st.closed ++ files.map Prod.snd ∧
      (closeAllLoop files st).useAfterFree = st.useAfterFree ∧
      (closeAllLoop files st).opened = st.opened := by
  induction files generalizing st with
  | nil => simp [closeAllLoop]
  | cons fe rest ih =>
    obtain ⟨away, distinct⟩ := List.nodup_cons.mp nodup
    have here := live fe List.mem_cons_self
    have later : ∀ other ∈ rest, ({ st.fileClose fe.2 with fileList := rest } :
        Descriptors).allocated other.2 = true := by
      intro other mem
      have ne : other.2 ≠ fe.2 := fun eq => away (eq ▸ List.mem_map.mpr ⟨other, mem, rfl⟩)
      rw [← live other (List.mem_cons_of_mem fe mem)]
      exact Function.update_of_ne ne ..
    obtain ⟨closed, safe, opened⟩ := ih distinct later
    rw [closeAllLoop]
    refine ⟨closed.trans ?_, safe.trans ?_, opened⟩
    · simp [fileClose]
    · simp [fileClose, access, here]

theorem Inv.good (inv : Inv st) : Good st where
  distinct := inv.distinct
  least fe mem := inv.least (List.mem_map.mpr ⟨fe, inv.sub.subset mem, rfl⟩)
  once := inv.once
  named fd a := inv.named
  closed := by
    obtain ⟨closed, safe, -⟩ := closeAllLoop_closed inv.nodup fun fe mem =>
      (inv.live fe.2).mpr (List.mem_map.mpr ⟨fe, mem, rfl⟩)
    rw [closeAll, closed, safe]
    exact ⟨inv.closed, inv.safe⟩

/-- A use of a file that leaves the tables alone. -/
theorem Inv.setPos (inv : Inv st) (found : st.findFile fd = some a) (pos : Int32) :
    Inv (st.setPos a pos) := by
  refine ⟨inv.running, inv.next, inv.few, inv.fds, inv.past, inv.list, inv.live, inv.nodup,
    inv.closed, ?_⟩
  simp [Descriptors.setPos, access, inv.safe, inv.allocated found]

theorem Inv.access (inv : Inv st) (found : st.findFile fd = some a) : Inv (st.access a) := by
  refine ⟨inv.running, inv.next, inv.few, inv.fds, inv.past, inv.list, inv.live, inv.nodup,
    inv.closed, ?_⟩
  simp [Descriptors.access, inv.safe, inv.allocated found]

/-- What `close` does with a descriptor that is not open. -/
theorem Inv.close_none (inv : Inv st) (none : st.findFile fd = none) :
    ∃ closes, st.close fd = { st with closes } ∧ ∀ other, other ∈ closes ↔ other ∈ st.closes := by
  have missing : st.fileList.find? (fun fe => fe.1 = fd) = .none := Option.map_eq_none_iff.mp none
  refine ⟨if fd ∈ st.opens.map Prod.fst then fd :: st.closes else st.closes, ?_, fun other => ?_⟩
  · rw [Descriptors.close, missing]
  · split
    next handed =>
      have closed : fd ∈ st.closes := by
        by_contra still
        obtain ⟨o, mem, rfl⟩ := List.mem_map.mp handed
        have found := inv.named.mpr ⟨mem, still⟩
        rw [none] at found
        cases found
      rw [List.mem_cons]
      exact ⟨fun mem => mem.elim (fun eq => eq ▸ closed) id, .inr⟩
    next => exact Iff.rfl

/-- What `close` does with one that is. -/
theorem Inv.close_some (inv : Inv st) (found : st.findFile fd = some a) :
    st.close fd = { st.fileClose a with
      fileList := st.fileList.filter fun fe => fe.1 ≠ fd
      closes := fd :: st.closes } := by
  have mem := inv.findFile_iff.mp found
  have handed : fd ∈ st.opens.map Prod.fst := List.mem_map.mpr ⟨_, inv.sub.subset mem, rfl⟩
  obtain ⟨fe, first, second⟩ := Option.map_eq_some_iff.mp found
  have key : fe.1 = fd := by simpa using List.find?_some first
  obtain rfl : fe = (fd, a) := Prod.ext key second
  rw [Descriptors.close, if_pos handed, first]
  dsimp only
  rw [erase_key inv.distinct mem]

theorem Inv.close (inv : Inv st) (fd : Int32) : Inv (st.close fd) := by
  cases found : st.findFile fd with
  | none =>
    obtain ⟨closes, eq, same⟩ := inv.close_none found
    rw [eq]
    refine ⟨inv.running, inv.next, inv.few, inv.fds, fun other mem => ?_, ?_, inv.live, inv.nodup,
      inv.closed, inv.safe⟩
    · exact inv.past other ((same other).mp mem)
    · exact inv.list.trans (List.filter_congr fun o _ => by simp [same])
  | some a =>
    have mem := inv.findFile_iff.mp found
    rw [inv.close_some found]
    have erased := erase_key inv.distinct mem
    have perm : (a :: (st.fileList.filter fun fe => fe.1 ≠ fd).map Prod.snd).Perm
        (st.fileList.map Prod.snd) := by
      rw [← erased]
      exact ((List.perm_cons_erase mem).map Prod.snd).symm
    have distinct := perm.symm.nodup inv.nodup
    obtain ⟨away, rest⟩ := List.nodup_cons.mp distinct
    refine ⟨inv.running, inv.next, inv.few, inv.fds, ?_, ?_, fun b => ?_, rest, ?_, ?_⟩
    · intro other past
      rcases List.mem_cons.mp past with rfl | before
      · exact List.mem_map.mpr ⟨_, inv.sub.subset mem, rfl⟩
      · exact inv.past other before
    · show st.fileList.filter _ = _
      rw [inv.list, List.filter_filter]
      exact List.filter_congr fun o _ => by simp
    · show Function.update st.allocated a false b = true ↔ _
      by_cases eq : b = a
      · subst eq
        simpa using away
      · rw [Function.update_of_ne eq, inv.live b, ← perm.mem_iff, List.mem_cons]
        exact ⟨fun mem => mem.resolve_left eq, .inr⟩
    · show ((st.closed ++ [a]) ++ _).Perm st.opened
      rw [List.append_assoc]
      exact (perm.append_left st.closed).trans inv.closed
    · simp [fileClose, Descriptors.access, inv.safe, inv.allocated found]

theorem Inv.open_ {opened : Option (Nat × Nat)} {memory : Bool} {result : Option Int32}
    (inv : Inv st) (granted : st.Granted (.open_ opened memory))
    (run : st.open_ opened memory = some (st', result)) : Inv st' := by
  cases opened with
  | none =>
    cases run
    exact inv
  | some file =>
    obtain ⟨a, inode⟩ := file
    obtain ⟨rfl, few⟩ := granted
    rw [Descriptors.open_] at run
    obtain ⟨fresh, taken⟩ := Option.ite_none_left_eq_some.mp run
    cases taken
    have fds : (st.opens ++ [(st.nextFd, a)]).map Prod.fst =
        (List.range (st.opens.length + 1)).map fun i => Int32.ofNat (2 + i) := by
      rw [List.map_append, inv.fds, List.range_succ, List.map_append, inv.next]
      rfl
    have unused : st.nextFd ∉ st.closes := by
      intro past
      have handed := inv.past _ past
      rw [inv.fds, inv.next] at handed
      obtain ⟨i, hi, eq⟩ := List.mem_map.mp handed
      have less := List.mem_range.mp hi
      have toInt := congrArg Int32.toInt eq
      rw [toInt_fd (by omega), toInt_fd (by omega)] at toInt
      omega
    refine ⟨inv.running, ?_, ?_, ?_, fun fd past => ?_, ?_, fun b => ?_, ?_, ?_, inv.safe⟩
    · simp only [inv.next, List.length_append, List.length_cons, List.length_nil]
      rw [← Nat.add_assoc, Int32.ofNat_add _ (0 + 1)]
      rfl
    · simp only [List.length_append, List.length_cons, List.length_nil]
      omega
    · simpa using fds
    · rw [List.map_append]
      exact List.mem_append_left _ (inv.past fd past)
    · show st.fileList ++ _ = _
      rw [inv.list]
      simp [unused]
    · show Function.update st.allocated a true b = true ↔ _
      by_cases eq : b = a
      · subst eq
        simp
      · rw [Function.update_of_ne eq, inv.live b]
        simp [eq]
    · have away : a ∉ st.fileList.map Prod.snd := fun mem => fresh ((inv.live a).mpr mem)
      rw [List.map_append]
      refine List.nodup_append.mpr ⟨inv.nodup, by simp, fun b mem c single eq => away ?_⟩
      rw [List.mem_singleton.mp single] at eq
      obtain rfl : b = a := eq
      exact mem
    · show (st.closed ++ (st.fileList ++ [(st.nextFd, a)]).map Prod.snd).Perm (st.opened ++ [a])
      rw [List.map_append, ← List.append_assoc]
      exact inv.closed.append_right [a]

/-- A step of a call that is granted keeps the tables. -/
theorem Inv.step {call : DescriptorCall} (inv : Inv st) (granted : st.Granted call)
    (run : st.step call = some st') : Inv st' := by
  unfold Descriptors.step at run
  rw [inv.running] at run
  cases call with
  | open_ opened memory =>
    obtain ⟨result, opens, rfl⟩ := Option.map_eq_some_iff.mp run
    exact inv.open_ granted opens
  | close fd =>
    cases run
    exact inv.close fd
  | read fd size bytesRead =>
    cases run
    unfold Descriptors.read
    split
    · exact inv
    · split
      · exact inv
      next found => exact inv.setPos found _
  | write fd size bytesWritten =>
    cases run
    unfold Descriptors.write
    split
    · exact inv
    · split
      · exact inv
      next found => exact inv.setPos found _
  | seek fd position =>
    have moved : st.seek fd position = some st' := run
    unfold Descriptors.seek at moved
    split at moved
    · cases moved
      exact inv
    next found =>
      obtain ⟨-, set⟩ := Option.ite_none_right_eq_some.mp moved
      cases set
      exact inv.setPos found _
  | tell fd =>
    cases run
    unfold Descriptors.tell
    split
    · exact inv
    next found => exact inv.access found

/-- Two descriptors have two files. -/
theorem Inv.other_file (inv : Inv st) {other : Int32} {b : Nat} (found : st.findFile fd = some a)
    (also : st.findFile other = some b) (ne : fd ≠ other) : b ≠ a := by
  intro eq
  have same := List.inj_on_of_nodup_map inv.nodup (inv.findFile_iff.mp found)
    (inv.findFile_iff.mp also) eq.symm
  exact ne (Prod.mk.inj same).1

theorem Inv.setPos_apart (inv : Inv st) (found : st.findFile fd = some a) (pos : Int32)
    {other : Int32} {b : Nat} (ne : fd ≠ other) (also : st.findFile other = some b) :
    (st.setPos a pos).findFile other = some b ∧ (st.setPos a pos).file b = st.file b :=
  ⟨also, Function.update_of_ne (inv.other_file found also ne) ..⟩

theorem Inv.apart {call : DescriptorCall} (inv : Inv st) : st.Apart call := by
  intro st' run other b about also
  unfold Descriptors.step at run
  rw [inv.running] at run
  cases call with
  | open_ opened memory =>
    obtain ⟨result, opens, rfl⟩ := Option.map_eq_some_iff.mp run
    cases opened with
    | none =>
      cases opens
      exact ⟨also, rfl⟩
    | some file =>
      obtain ⟨a, inode⟩ := file
      rw [Descriptors.open_] at opens
      obtain ⟨fresh, taken⟩ := Option.ite_none_left_eq_some.mp opens
      have ne : b ≠ a := fun eq => fresh (eq ▸ inv.allocated also)
      cases memory with
      | false =>
        cases taken
        exact ⟨also, Function.update_of_ne ne ..⟩
      | true =>
        cases taken
        refine ⟨?_, Function.update_of_ne ne ..⟩
        obtain ⟨fe, first, second⟩ := Option.map_eq_some_iff.mp also
        rw [findFile, List.find?_append, first, Option.some_or, Option.map_some, second]
  | close fd =>
    cases run
    have ne : fd ≠ other := fun eq => about (congrArg some eq)
    cases found : st.findFile fd with
    | none =>
      obtain ⟨closes, eq, -⟩ := inv.close_none found
      rw [eq]
      exact ⟨also, rfl⟩
    | some a =>
      refine ⟨?_, ?_⟩
      · rw [(inv.close fd).findFile_iff, inv.close_some found]
        simpa [ne.symm] using inv.findFile_iff.mp also
      · rw [inv.close_some found]
        rfl
  | read fd size bytesRead =>
    cases run
    have ne : fd ≠ other := fun eq => about (congrArg some eq)
    unfold Descriptors.read
    split
    · exact ⟨also, rfl⟩
    · split
      · exact ⟨also, rfl⟩
      next found => exact inv.setPos_apart found _ ne also
  | write fd size bytesWritten =>
    cases run
    have ne : fd ≠ other := fun eq => about (congrArg some eq)
    unfold Descriptors.write
    split
    · exact ⟨also, rfl⟩
    · split
      · exact ⟨also, rfl⟩
      next found => exact inv.setPos_apart found _ ne also
  | seek fd position =>
    have ne : fd ≠ other := fun eq => about (congrArg some eq)
    have moved : st.seek fd position = some st' := run
    unfold Descriptors.seek at moved
    split at moved
    · cases moved
      exact ⟨also, rfl⟩
    next found =>
      obtain ⟨-, set⟩ := Option.ite_none_right_eq_some.mp moved
      cases set
      exact inv.setPos_apart found _ ne also
  | tell fd =>
    cases run
    unfold Descriptors.tell
    split
    · exact ⟨also, rfl⟩
    · exact ⟨also, rfl⟩

/-- A state in which everything is right comes from a call that is granted. -/
theorem Inv.granted {call : DescriptorCall} (inv : Inv st) (good : Good st')
    (run : st.step call = some st') : st.Granted call := by
  cases call with
  | close _ | read _ _ _ | write _ _ _ | seek _ _ | tell _ => trivial
  | open_ opened memory =>
    cases opened with
    | none => trivial
    | some file =>
      obtain ⟨a, inode⟩ := file
      unfold Descriptors.step at run
      rw [inv.running] at run
      obtain ⟨result, opens, rfl⟩ := Option.map_eq_some_iff.mp run
      rw [Descriptors.open_] at opens
      obtain ⟨-, taken⟩ := Option.ite_none_left_eq_some.mp opens
      cases memory with
      | false =>
        -- the file that was opened is not in `file_list`
        cases taken
        have length := good.closed.1.length_eq
        have before := inv.closed.length_eq
        have live : ∀ fe ∈ st.fileList, Function.update st.allocated a true fe.2 = true := by
          intro fe mem
          by_cases eq : fe.2 = a
          · rw [eq, Function.update_self]
          · rw [Function.update_of_ne eq]
            exact (inv.live fe.2).mpr (List.mem_map.mpr ⟨fe, mem, rfl⟩)
        rw [closeAll, (closeAllLoop_closed inv.nodup live).1] at length
        simp only [List.length_append, List.length_cons, List.length_nil] at length before
        omega
      | true =>
        cases taken
        refine ⟨rfl, ?_⟩
        by_contra all
        have few := inv.few
        have last : st.opens.length = 2 ^ 31 - 2 := by omega
        have least : 2 ≤ st.nextFd :=
          good.least (st.nextFd, a) (List.mem_append_right _ List.mem_cons_self)
        rw [inv.next, last] at least
        exact absurd least (by decide)

/-- In a run everything is right with the descriptors, and no call touches another one, exactly when
every call is granted. -/
theorem descriptors_right_iff (calls : List DescriptorCall) :
    (Always step Good childInit calls ∧ Each step Apart childInit calls) ↔
      Each step Granted childInit calls :=
  always_and_each_iff (fun _ inv => inv.good) (fun _ _ _ inv granted run => inv.step granted run)
    (fun _ _ _ inv _ _ => inv.apart) (fun _ _ _ inv good _ run => inv.granted good run) calls
    childInit_inv

/-- A number of opens of files in memory of their own. -/
def manyOpens (count : Nat) : List DescriptorCall :=
  (List.range count).map fun a => .open_ (some (a, 0)) true

theorem manyOpens_succ (count : Nat) :
    manyOpens (count + 1) = manyOpens count ++ [.open_ (some (count, 0)) true] := by
  simp [manyOpens, List.range_succ]

theorem exec_manyOpens (count : Nat) : ∃ st, exec step childInit (manyOpens count) = some st ∧
    st.ended = false ∧ st.opens.length = count ∧ ∀ a, count ≤ a → st.allocated a = false := by
  induction count with
  | zero => exact ⟨childInit, rfl, rfl, rfl, fun _ _ => rfl⟩
  | succ count ih =>
    obtain ⟨st, run, running, length, free⟩ := ih
    refine ⟨{ st with
      file := Function.update st.file count ⟨0, 0⟩
      allocated := Function.update st.allocated count true
      opened := st.opened ++ [count]
      fileList := st.fileList ++ [(st.nextFd, count)]
      nextFd := st.nextFd + 1
      opens := st.opens ++ [(st.nextFd, count)] }, ?_, running, by simp [length], fun a high => ?_⟩
    · rw [manyOpens_succ, exec_append, run]
      simp [exec, Descriptors.step, Descriptors.open_, running, free count (Nat.le_refl count)]
    · have ne : a ≠ count := by omega
      rw [← free a (by omega)]
      exact Function.update_of_ne ne ..

theorem always_good_iff (calls : List DescriptorCall) :
    Always step Good childInit calls ↔ Each step Granted childInit calls :=
  always_iff_each (fun _ inv => inv.good) (fun _ _ _ inv granted run => inv.step granted run)
    (fun _ _ _ inv good run => inv.granted good run) calls childInit_inv

/-- The descriptors run out. -/
theorem not_always_manyOpens {count : Nat} (last : 2 ^ 31 - 2 ≤ count) :
    ¬Always step Good childInit (manyOpens (count + 1)) := by
  intro always
  have each := (always_good_iff _).mp always
  obtain ⟨st, run, running, length, free⟩ := exec_manyOpens count
  obtain ⟨st', final, -⟩ := exec_manyOpens (count + 1)
  rw [manyOpens_succ] at each final
  rw [exec_append, run, Option.bind_some] at final
  obtain ⟨_, taken, -⟩ := exec_cons final
  have few := (each.last run taken).2
  omega

/-- A file that was opened without memory for its `struct file_elem` is never closed, and the last
of `2 ^ 31 - 1` opens has a negative descriptor. -/
theorem descriptors_wrong :
    ¬Always step Good childInit [.open_ (some (100, 5)) false] ∧
      ¬Always step Good childInit (manyOpens 2147483647) := by
  refine ⟨fun always => ?_, not_always_manyOpens (by decide)⟩
  have first := ((always_good_iff _).mp always _ rfl).1
  cases first.1

end Keep

section Process

variable {st st' : Descriptors} {proc : UserProcess} {fd : Int32} {a inode : Nat}

/-- The file of an entry in the model of a process with its pages. -/
def entry (st : Descriptors) (fe : Int32 × Nat) : Int × File :=
  (fe.1.toInt, ⟨fe.2, (st.file fe.2).inode⟩)

/-- The descriptors are those of the process. -/
structure Matches (st : Descriptors) (proc : UserProcess) : Prop where
  fileList : proc.fileList = st.fileList.map st.entry
  nextFd : proc.nextFd = st.nextFd.toInt

theorem Matches.find? (same : Matches st proc) :
    proc.fileList.find? (fun fe => fe.1 = fd.toInt) =
      (st.fileList.find? fun fe => fe.1 = fd).map st.entry := by
  have key : (fun fe : Int32 × Nat => decide ((st.entry fe).1 = fd.toInt)) =
      fun fe => decide (fe.1 = fd) := by
    funext fe
    simp [entry, Int32.toInt_inj]
  rw [same.fileList, List.find?_map]
  exact congrArg (fun p => (st.fileList.find? p).map st.entry) key

theorem Matches.findFile (same : Matches st proc) : proc.findFile fd.toInt =
    (st.findFile fd).map fun a => ⟨a, (st.file a).inode⟩ := by
  rw [UserProcess.findFile, same.find?, Descriptors.findFile, Option.map_map, Option.map_map]
  rfl

/-- `open` of the process, while the next descriptor is not the last. -/
theorem Matches.open_ (same : Matches st proc) (inv : Inv st) (unlocked : proc.locked = false)
    (few : st.opens.length < 2 ^ 31 - 3) {result : Option Int32}
    (run : st.open_ (some (proc.fresh, inode)) true = some (st', result)) :
    ∃ proc' fd, proc.open_ (.file inode) = some (proc', fd) ∧ Matches st' proc' ∧
      result.map Int32.toInt = some fd := by
  rw [Descriptors.open_] at run
  obtain ⟨fresh, taken⟩ := Option.ite_none_left_eq_some.mp run
  cases taken
  rw [UserProcess.open_, unlocked]
  refine ⟨_, _, rfl, ⟨?_, ?_⟩, congrArg some same.nextFd.symm⟩
  · show proc.fileList ++ [(proc.nextFd, _)] = _
    rw [same.fileList, same.nextFd, List.map_append]
    refine congrArg₂ (· ++ ·) (List.map_congr_left fun fe mem => ?_) ?_
    · have ne : fe.2 ≠ proc.fresh := fun eq =>
        fresh (eq ▸ (inv.live fe.2).mpr (List.mem_map.mpr ⟨fe, mem, rfl⟩))
      simp [entry, Function.update_of_ne ne]
    · simp [entry]
  · have value : ∀ n < 2 ^ 31, (Int32.ofNat n).toInt = n := fun n less =>
      Int32.toInt_ofNat_of_lt less
    show proc.nextFd + 1 = (st.nextFd + Int32.ofNat 1).toInt
    rw [same.nextFd, inv.next, ← Int32.ofNat_add, value _ (by omega), value _ (by omega)]
    rfl

/-- `close` of the process. -/
theorem Matches.close (same : Matches st proc) (inv : Inv st) (unlocked : proc.locked = false)
    (fd : Int32) : ∃ proc', proc.close fd.toInt = some proc' ∧ Matches (st.close fd) proc' := by
  rw [UserProcess.close, same.find?]
  cases found : st.findFile fd with
  | none =>
    have missing : st.fileList.find? (fun fe => fe.1 = fd) = none := Option.map_eq_none_iff.mp found
    obtain ⟨closes, eq, -⟩ := inv.close_none found
    rw [missing, eq]
    exact ⟨proc, rfl, same.fileList, same.nextFd⟩
  | some a =>
    obtain ⟨fe, first, second⟩ := Option.map_eq_some_iff.mp found
    have mem : (fd, a) ∈ st.fileList := inv.findFile_iff.mp found
    have key : fe.1 = fd := by simpa using List.find?_some first
    obtain rfl : fe = (fd, a) := Prod.ext key second
    rw [first, inv.close_some found, unlocked]
    refine ⟨_, rfl, ?_, same.nextFd⟩
    show proc.fileList.erase (st.entry (fd, a)) =
      (st.fileList.filter fun fe => fe.1 ≠ fd).map st.entry
    have injective : Function.Injective st.entry := fun fe other eq =>
      Prod.ext (Int32.toInt_inj.mp (Prod.mk.inj eq).1) (congrArg (File.id ∘ Prod.snd) eq)
    rw [same.fileList, ← List.map_erase injective, erase_key inv.distinct mem]

end Process

end Descriptors

end Pintos.Userprog
