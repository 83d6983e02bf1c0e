import Pintos.Filesys.Paths

/-! The opens of a path lookup: `true_dir` opens one inode and closes another at every name, and
keeps the last directory open when it gives up. -/

namespace Pintos.Filesys

open Words CStrings ByteFiles

def NameInDir.dir : NameInDir → Option UInt32
  | .null => none
  | .nid dir _ => dir

namespace Tree

/-- The open counts with `dir` open once more. -/
def held (t : Tree) : Option UInt32 → UInt32 → Nat
  | none => t.openCnt
  | some d => Function.update t.openCnt d (t.openCnt d + 1)

/-- The inode of sector `s` is in memory while `true_dir` has `dir` open. -/
def InMemory (t : Tree) (dir : Option UInt32) (s : UInt32) : Bool :=
  dir == some s || (t.opens s).isSome

/-- The inode that a name on the way stands for: the parent of `inode`, or that of an entry of
`dir`.  There is none after an `ASSERT` that fails or a pointer to an inode that was freed. -/
def target (t : Tree) (dir inode : Option UInt32) (token : CString) : Option (Option UInt32) :=
  if token = dotdot then
    match inode with
    | none => some none
    | some s =>
      if t.InMemory dir s then
        some (if (t.record s).parent = 0 then none else some (t.record s).parent)
      else none
  else dir.map fun d => (lookup (t.file d) token).map fun result => inodeSector result.1

/-- The directory that is open after a name that stands for `s`. -/
def entered (mem : Memory) (t : Tree) (dir : Option UInt32) (s : UInt32) (more : Nat) :
    Option UInt32 :=
  if (t.record s).isdir then if mem.dir more then some s else none else dir

/-- With a directory open, `true_dir` comes to a name, before any `"."`, that stands for nothing or
for an inode that it gets no memory for. -/
def GivesUp (mem : Memory) (t : Tree) :
    Option UInt32 → Option UInt32 → CString → List CString → Prop
  | _, _, _, [] => False
  | dir, inode, token, next :: rest =>
    if token = dot then False
    else
      match t.target dir inode token with
      | none => False
      | some none => dir ≠ none
      | some (some s) =>
        if t.InMemory dir s || mem.node rest.length then
          GivesUp mem t (entered mem t dir s rest.length) (some s) next rest
        else if token = dotdot then GivesUp mem t dir none next rest
        else True

/-- The tree `t₀` with `dir` open once more. -/
structure Holds (t₀ t : Tree) (dir : Option UInt32) : Prop where
  openCnt : t.openCnt = t₀.held dir
  record : t.record = t₀.record
  bytes : t.bytes = t₀.bytes
  counted : t.Counted

/-- `true_dir` gives up with a directory open. -/
def LeavesOpen (mem : Memory) (t : Tree) (cur : Option UInt32) (path : CString) : Prop :=
  match strtok 47 path.1.length path with
  | [] => False
  | token :: rest =>
    GivesUp mem t (some (startDir cur path)) (some (startDir cur path)) token rest

/-- `true_dir` leaves one more open of the directory that it returns, and none when it returns a
null pointer; the calls that fail leave none. -/
structure Balanced (mem : Memory) (t : Tree) (cur : Option UInt32) (path : CString) : Prop where
  trueDir : ∀ t' nid, trueDirAt mem t cur path = some (t', nid) → t'.openCnt = t.held nid.dir
  opens : ∀ t', filesysOpen mem t cur path = some (t', none) → t'.openCnt = t.openCnt
  create : ∀ size isdir sector junk t',
    filesysCreateAt mem t cur path size isdir sector junk = some (t', false) →
      t'.openCnt = t.openCnt
  remove : ∀ t', filesysRemoveAt mem t cur path = some (t', false) → t'.openCnt = t.openCnt

/-- What is left of `t₀` when `true_dir` returns, which `gives` up or not.  Only without a
directory does it return a null pointer in other cases. -/
def Outcome (t₀ : Tree) (gives lost : Prop) : Option (Tree × NameInDir) → Prop
  | none => ¬gives
  | some (t, nid) =>
    gives ∧ nid = .null ∧ (∃ d, Holds t₀ t (some d)) ∨
    ¬gives ∧ Holds t₀ t nid.dir ∧ (nid = .null → lost)

section Walk

variable {t₀ t t' : Tree} {dir inode : Option UInt32} {mem : Memory} {s d : UInt32}

theorem Counted.isSome_opens (h : t.Counted) (s : UInt32) :
    (t.opens s).isSome = true ↔ 0 < t.openCnt s := by
  rw [Tree.openCnt]
  cases here : t.opens s with
  | none => simp
  | some node => simpa using h s node here

theorem Holds.file (here : Holds t₀ t dir) : t.file = t₀.file := by
  funext u
  rw [Tree.file, Tree.file, here.record, here.bytes]

theorem Holds.inMemory (counted : t₀.Counted) (here : Holds t₀ t dir) (s : UInt32) :
    (t.opens s).isSome = t₀.InMemory dir s := by
  rw [Bool.eq_iff_iff, here.counted.isSome_opens, here.openCnt, InMemory, Bool.or_eq_true,
    counted.isSome_opens]
  cases dir with
  | none => simp [held]
  | some d =>
    by_cases eq : d = s
    · subst eq
      simp [held]
    · simp [held, Function.update_of_ne (Ne.symm eq), eq]

theorem inodeOpen_isSome (t : Tree) (s : UInt32) (memory : Bool) :
    (t.inodeOpen s memory).isSome = ((t.opens s).isSome || memory) := by
  unfold inodeOpen
  cases t.opens s with
  | some node => rfl
  | none => cases memory <;> rfl

/-- A name on the way opens the inode that it stands for. -/
theorem Holds.component (counted : t₀.Counted) (here : Holds t₀ t dir) (token : CString)
    (more : Nat) :
    component mem t dir inode token more =
      match t₀.target dir inode token with
      | none => none
      | some none => some (t, .failed)
      | some (some s) =>
        match t.inodeOpen s (mem.node more) with
        | some t => some (t, .inode (some s))
        | none => if token = dotdot then some (t, .inode none) else some (t, .failed) := by
  unfold Tree.component target
  by_cases up : token = dotdot
  · simp only [if_pos up]
    cases inode with
    | none => rfl
    | some s =>
      have loaded := here.inMemory counted s
      cases isOpen : t.opens s with
      | none =>
        rw [isOpen] at loaded
        simp only [isOpen, ← loaded]
        rfl
      | some node =>
        have data : node.data = t₀.record s := by
          rw [← here.record, Tree.record, isOpen]
        rw [isOpen] at loaded
        simp only [isOpen, ← loaded, data, Option.isSome_some, if_true]
        by_cases none : (t₀.record s).parent = 0
        · simp only [if_pos none]
        · cases opened : t.inodeOpen (t₀.record s).parent (mem.node more) <;>
            simp only [if_neg none, opened]
  · simp only [if_neg up]
    cases dir with
    | none => rfl
    | some d =>
      simp only [here.file, Option.map_some]
      cases lookup (t₀.file d) token with
      | none => rfl
      | some result =>
        cases opened : t.inodeOpen (inodeSector result.1) (mem.node more) <;>
          simp only [Option.map_some, opened]

theorem Holds.close (here : Holds t₀ t dir) : Holds t₀ (t.close dir) none := by
  cases dir with
  | none => exact here
  | some d =>
    have closes := inodeClose_closesOne here.counted d
    refine ⟨?_, closes.record.trans here.record, closes.bytes.trans here.bytes,
      closes.counted here.counted⟩
    rw [show t.close (some d) = t.inodeClose d from rfl, closes.openCnt, here.openCnt]
    simp [held]

/-- Another inode is opened, and the directory closed. -/
theorem Holds.move (here : Holds t₀ t dir) (opens : t.OpensOne t' s) :
    Holds t₀ (t'.close dir) (some s) := by
  have counted := opens.counted here.counted
  have count : ∀ u, t'.openCnt u = t₀.held dir u + if u = s then 1 else 0 := by
    intro u
    rw [opens.openCnt, here.openCnt, Function.update_apply]
    split
    next eq => rw [eq]
    next => rfl
  cases dir with
  | none =>
    refine ⟨funext fun u => ?_, opens.record.trans here.record, opens.bytes.trans here.bytes,
      counted⟩
    rw [show t'.close none = t' from rfl, count, held, held, Function.update_apply]
    split
    next eq => rw [eq]
    next => rfl
  | some d =>
    have closes := inodeClose_closesOne counted d
    refine ⟨funext fun u => ?_, closes.record.trans (opens.record.trans here.record),
      closes.bytes.trans (opens.bytes.trans here.bytes), closes.counted counted⟩
    rw [show t'.close (some d) = t'.inodeClose d from rfl, closes.openCnt, Function.update_apply,
      count, count, held, held, Function.update_apply, Function.update_apply,
      Function.update_apply, if_pos rfl]
    by_cases old : u = d
    · subst old
      by_cases new : u = s
      · subst new
        simp
      · simp [new]
    · by_cases new : u = s
      · subst new
        simp [old]
      · simp [old, new]

/-- Another inode is opened and closed. -/
theorem Holds.visit (here : Holds t₀ t dir) (opens : t.OpensOne t' s) :
    Holds t₀ (t'.inodeClose s) dir := by
  have counted := opens.counted here.counted
  have closes := inodeClose_closesOne counted s
  refine ⟨?_, closes.record.trans (opens.record.trans here.record),
    closes.bytes.trans (opens.bytes.trans here.bytes), closes.counted counted⟩
  rw [closes.openCnt, opens.openCnt, Function.update_self, Function.update_idem,
    Nat.add_sub_cancel, Function.update_eq_self, here.openCnt]

/-- The directory after a name: the one before is closed, or the inode itself. -/
theorem Holds.enter (mem : Memory) (here : Holds t₀ t dir) (opens : t.OpensOne t' s) (more : Nat) :
    (enter mem t' dir (some s) more).2 = entered mem t₀ dir s more ∧
      Holds t₀ (enter mem t' dir (some s) more).1 (entered mem t₀ dir s more) := by
  have kind : t'.record s = t₀.record s := by rw [opens.record, here.record]
  unfold Tree.enter entered
  simp only [kind]
  by_cases isdir : (t₀.record s).isdir = true
  · simp only [if_pos isdir]
    unfold dirOpen
    by_cases memory : mem.dir more = true
    · simp only [if_pos memory]
      exact ⟨trivial, here.move opens⟩
    · simp only [if_neg memory]
      exact ⟨trivial, (here.move opens).close⟩
  · simp only [if_neg isdir]
    exact ⟨trivial, here.visit opens⟩

theorem walk_dot (mem : Memory) (t : Tree) (dir inode : Option UInt32) (rest : List CString) :
    walk mem t dir inode dot rest = some (t, .nid dir (some dot)) := by
  induction rest with
  | nil => rfl
  | cons next rest ih => rw [walk, if_pos rfl, ih]

theorem Outcome.mono {gives lost lost' : Prop} {result : Option (Tree × NameInDir)}
    (h : Outcome t₀ gives lost result) (imp : lost → lost') : Outcome t₀ gives lost' result := by
  cases result with
  | none => exact h
  | some result => exact h.imp_right fun ⟨kept, here, null⟩ => ⟨kept, here, imp ∘ null⟩

theorem entered_none {more : Nat} (none : entered mem t dir s more = none) :
    dir = .none ∨ ∃ more, mem.dir more = false := by
  unfold entered at none
  split at none
  · split at none
    · cases none
    next memory => exact .inr ⟨more, Bool.eq_false_iff.mpr memory⟩
  · exact .inl none

/-- The walk gives up, or it closes everything but the directory that it returns. -/
theorem Holds.walk (counted : t₀.Counted) (here : Holds t₀ t dir) (token : CString)
    (rest : List CString) :
    Outcome t₀ (GivesUp mem t₀ dir inode token rest) (dir = none ∨ ∃ more, mem.dir more = false)
      (walk mem t dir inode token rest) := by
  induction rest generalizing t dir inode token with
  | nil => exact .inr ⟨id, here, fun null => nomatch null⟩
  | cons next rest ih =>
    by_cases stays : token = dot
    · rw [stays, walk_dot, GivesUp, if_pos rfl]
      exact .inr ⟨id, here, fun null => nomatch null⟩
    rw [Tree.walk, GivesUp, if_neg stays, if_neg stays, here.component counted]
    cases found : t₀.target dir inode token with
    | none => exact id
    | some stands =>
      cases stands with
      | none =>
        cases dir with
        | none => exact .inr ⟨fun open_ => open_ rfl, here, fun _ => .inl rfl⟩
        | some d => exact .inl ⟨Option.some_ne_none d, rfl, d, here⟩
      | some s =>
        have memory := inodeOpen_isSome t s (mem.node rest.length)
        rw [here.inMemory counted] at memory
        cases opened : t.inodeOpen s (mem.node rest.length) with
        | some t' =>
          rw [opened] at memory
          simp only [opened, ← memory, Option.isSome_some, if_true]
          obtain ⟨dir_eq, next⟩ := here.enter mem (inodeOpen_opensOne opened) rest.length
          have lost : entered mem t₀ dir s rest.length = none →
              dir = none ∨ ∃ more, mem.dir more = false := entered_none
          rw [← dir_eq] at next lost ⊢
          exact (ih next _).mono fun h => h.elim lost .inr
        | none =>
          rw [opened] at memory
          simp only [opened, ← memory, Option.isSome_none, Bool.false_eq_true, if_false]
          by_cases up : token = dotdot
          · simp only [if_pos up]
            exact ih here _
          · simp only [if_neg up]
            unfold target at found
            rw [if_neg up] at found
            obtain ⟨d, rfl, -⟩ := Option.map_eq_some_iff.mp found
            exact .inl ⟨trivial, rfl, d, here⟩

/-- `true_dir` gives up with a directory open, or leaves open what it returns. -/
theorem trueDirAt_outcome (mem : Memory) (counted : t.Counted) (cur : Option UInt32)
    (path : CString) :
    Outcome t (LeavesOpen mem t cur path) True (trueDirAt mem t cur path) := by
  unfold trueDirAt LeavesOpen
  by_cases empty : path.1 = []
  · rw [if_pos empty, empty]
    exact .inr ⟨id, ⟨rfl, rfl, rfl, counted⟩, fun _ => trivial⟩
  rw [if_neg empty]
  obtain ⟨t', opened⟩ := inodeOpen_memory t (startDir cur path)
  have opens := inodeOpen_opensOne opened
  have here : Holds t t' (some (startDir cur path)) :=
    ⟨opens.openCnt, opens.record, opens.bytes, opens.counted counted⟩
  simp only [opened, Option.bind_some]
  cases strtok 47 path.1.length path with
  | nil => exact .inr ⟨id, here, fun _ => trivial⟩
  | cons token rest => exact (here.walk counted token rest).mono fun _ => trivial

end Walk

section Calls

variable {t₀ t t' : Tree} {mem : Memory} {s d : UInt32} {name : CString} {success : Bool}

/-- The same openers. -/
structure SameOpens (t t' : Tree) : Prop where
  openCnt : t'.openCnt = t.openCnt
  counted : t.Counted → t'.Counted

theorem SameOpens.trans {mid : Tree} (h : SameOpens t mid) (h' : SameOpens mid t') :
    SameOpens t t' :=
  ⟨h'.openCnt.trans h.openCnt, h'.counted ∘ h.counted⟩

theorem Alike.sameOpens {mark : UInt32 → Prop} (h : Alike t t' mark) : SameOpens t t' :=
  ⟨h.openCnt, h.counted⟩

theorem Holds.closed {t₁ : Tree} (here : Holds t₀ t (some d)) (same : SameOpens t t₁) :
    (t₁.inodeClose d).openCnt = t₀.openCnt := by
  have closes := inodeClose_closesOne (same.counted here.counted) d
  rw [closes.openCnt, same.openCnt, here.openCnt]
  simp [held]

theorem sameOpens_of_opens (same : t'.opens = t.opens) : SameOpens t t' := by
  refine ⟨funext fun s => ?_, fun counted s node isOpen => ?_⟩
  · rw [openCnt, openCnt, same]
  · rw [same] at isOpen
    exact counted s node isOpen

theorem createEntry_sameOpens (mem : Memory) (t : Tree) (d : UInt32) (name : CString) (size : Nat)
    (isdir : Bool) (sector : UInt32) (junk : Bytes) :
    SameOpens t (createEntry mem t d name size isdir sector junk).1 := by
  unfold createEntry
  cases mem.record with
  | false => exact sameOpens_of_opens rfl
  | true =>
    have created : SameOpens t
        ({ t with used := Function.update t.used sector true }.inodeCreate sector size isdir) :=
      sameOpens_of_opens rfl
    have added := created.trans (dirAdd_alike _ d name sector junk fun _ => False).sameOpens
    simp only [if_true]
    split
    · exact added
    · exact added.trans (sameOpens_of_opens rfl)

theorem inodeSetParent_sameOpens (t : Tree) (s parent : UInt32) :
    SameOpens t (t.inodeSetParent s parent) := by
  unfold inodeSetParent
  cases here : t.opens s with
  | none => exact ⟨rfl, id⟩
  | some node =>
    refine ⟨funext fun u => ?_, fun counted u other isOpen => ?_⟩
    · by_cases eq : u = s
      · subst eq
        simp [openCnt, here]
      · simp [openCnt, eq]
    · by_cases eq : u = s
      · subst eq
        simp only [Function.update_self, Option.some.injEq] at isOpen
        subst isOpen
        exact counted u node here
      · simp only [Function.update_of_ne eq] at isOpen
        exact counted u other isOpen

theorem setParent_sameOpens (counted : t.Counted) (mem : Memory) (d sector : UInt32)
    (success : Bool) : SameOpens t (setParent mem t d sector success).1 := by
  unfold setParent
  cases opened : t.inodeOpen sector mem.inode with
  | none => exact ⟨rfl, id⟩
  | some t₁ =>
    have opens := inodeOpen_opensOne opened
    have set := inodeSetParent_sameOpens t₁ sector d
    have closes := inodeClose_closesOne (set.counted (opens.counted counted)) sector
    refine ⟨?_, fun c => closes.counted (set.counted (opens.counted c))⟩
    show (((t₁.inodeSetParent sector d).inodeClose sector)).openCnt = t.openCnt
    rw [closes.openCnt, set.openCnt, opens.openCnt, Function.update_self, Function.update_idem,
      Nat.add_sub_cancel, Function.update_eq_self]

theorem openInode_cases {memory : Bool} {inode : Option UInt32}
    (run : t.openInode s memory = (t', inode)) :
    (inode = none ∧ t' = t) ∨ ∃ u, inode = some u ∧ t.OpensOne t' u := by
  unfold openInode at run
  cases opened : t.inodeOpen s memory with
  | none =>
    rw [opened] at run
    cases run
    exact .inl ⟨rfl, rfl⟩
  | some t₁ =>
    rw [opened] at run
    cases run
    exact .inr ⟨s, rfl, inodeOpen_opensOne opened⟩

theorem lastInode_cases {inode : Option UInt32} (run : lastInode mem t d name = (t', inode)) :
    (inode = none ∧ t' = t) ∨ ∃ s, inode = some s ∧ t.OpensOne t' s := by
  unfold lastInode dirLookup at run
  split at run
  · split at run
    · cases run
      exact .inl ⟨rfl, rfl⟩
    · exact openInode_cases run
  · split at run
    · cases run
      exact .inl ⟨rfl, rfl⟩
    · exact openInode_cases run

theorem filesysOpen_failed {cur : Option UInt32} {path : CString}
    (balanced : ∀ t' nid, trueDirAt mem t cur path = some (t', nid) → Holds t t' nid.dir)
    (run : filesysOpen mem t cur path = some (t', none)) : t'.openCnt = t.openCnt := by
  unfold filesysOpen at run
  cases walked : trueDirAt mem t cur path with
  | none =>
    rw [walked] at run
    cases run
  | some result =>
    obtain ⟨t₁, nid⟩ := result
    have here := balanced t₁ nid walked
    simp only [walked] at run
    match nid, here, run with
    | .null, here, failed =>
      cases failed
      exact here.openCnt
    | .nid none none, here, failed | .nid none (some _), here, failed =>
      cases failed
      exact here.openCnt
    | .nid (some d) (some name), here, failed =>
      dsimp only at failed
      split at failed
      · cases failed
      obtain ⟨t₂, inode, last⟩ : ∃ t₂ inode, lastInode mem t₁ d name = (t₂, inode) := ⟨_, _, rfl⟩
      rw [last] at failed
      rcases lastInode_cases last with ⟨rfl, rfl⟩ | ⟨s, rfl, opens⟩
      · cases failed
        exact here.close.openCnt
      · dsimp only at failed
        split at failed
        · cases failed
        · have moved := here.move opens
          unfold dirOpen at failed
          split at failed
          · cases failed
          · cases failed
            exact moved.close.openCnt

theorem filesysCreateAt_failed {cur : Option UInt32} {path : CString}
    (balanced : ∀ t' nid, trueDirAt mem t cur path = some (t', nid) → Holds t t' nid.dir)
    {size : Nat} {isdir : Bool} {sector : Option UInt32} {junk : Bytes}
    (run : filesysCreateAt mem t cur path size isdir sector junk = some (t', success)) :
    t'.openCnt = t.openCnt := by
  unfold filesysCreateAt at run
  cases walked : trueDirAt mem t cur path with
  | none =>
    rw [walked] at run
    cases run
  | some result =>
    obtain ⟨t₁, nid⟩ := result
    have here := balanced t₁ nid walked
    simp only [walked] at run
    match nid, here, run with
    | .null, here, run =>
      cases run
      exact here.openCnt
    | .nid dir (some name), here, run =>
      dsimp only at run
      split at run
      · cases run
        exact here.close.openCnt
      cases dir with
      | none =>
        cases run
        exact here.openCnt
      | some d =>
        dsimp only at run
        split at run
        · cases run
        have closed : ∀ made : Tree × Bool, SameOpens t₁ made.1 →
            ((if isdir then setParent mem made.1 d (sector.getD 0) made.2
              else made).1.inodeClose d).openCnt = t.openCnt := by
          intro made same
          split
          · exact here.closed
              (same.trans (setParent_sameOpens (same.counted here.counted) mem d _ _))
          · exact here.closed same
        cases sector with
        | none =>
          cases run
          exact closed (t₁, false) (sameOpens_of_opens rfl)
        | some s =>
          cases run
          exact closed _ (createEntry_sameOpens ..)

theorem filesysRemoveAt_failed {cur : Option UInt32} {path : CString}
    (balanced : ∀ t' nid, trueDirAt mem t cur path = some (t', nid) → Holds t t' nid.dir)
    (run : filesysRemoveAt mem t cur path = some (t', success)) : t'.openCnt = t.openCnt := by
  unfold filesysRemoveAt at run
  cases walked : trueDirAt mem t cur path with
  | none =>
    rw [walked] at run
    cases run
  | some result =>
    obtain ⟨t₁, nid⟩ := result
    have here := balanced t₁ nid walked
    simp only [walked] at run
    match nid, here, run with
    | .null, here, run =>
      cases run
      exact here.openCnt
    | .nid dir none, here, run =>
      cases run
      exact here.close.openCnt
    | .nid none (some _), here, run =>
      cases run
      exact here.openCnt
    | .nid (some d) (some name), here, run =>
      obtain ⟨⟨t₂, ok⟩, removed, eq⟩ := Option.map_eq_some_iff.mp run
      cases eq
      rcases dirRemove_cases here.counted removed with ⟨-, same⟩ | ⟨e, ofs, -, -, same, -⟩
      · exact here.closed same.sameOpens
      · exact here.closed same.sameOpens

end Calls

/-- Path lookup balances its opens exactly when `true_dir` does not give up with a directory
open. -/
theorem path_opens_balanced_iff {t : Tree} (counted : t.Counted) (mem : Memory)
    (cur : Option UInt32) (path : CString) :
    Balanced mem t cur path ↔ ¬LeavesOpen mem t cur path := by
  have outcome := trueDirAt_outcome mem counted cur path
  constructor
  · intro balanced gives
    cases walked : trueDirAt mem t cur path with
    | none =>
      rw [walked] at outcome
      exact outcome gives
    | some result =>
      rw [walked] at outcome
      rcases outcome with ⟨-, null, d, here⟩ | ⟨kept, -⟩
      · have count := balanced.trueDir result.1 result.2 walked
        rw [null, here.openCnt] at count
        have more := congrFun count d
        simp [held, NameInDir.dir] at more
      · exact kept gives
  · intro kept
    have balanced : ∀ t' nid, trueDirAt mem t cur path = some (t', nid) → Holds t t' nid.dir := by
      intro t' nid walked
      rw [walked] at outcome
      exact (outcome.resolve_left fun gives => kept gives.1).2.1
    exact {
      trueDir := fun t' nid walked => (balanced t' nid walked).openCnt
      opens := fun t' run => filesysOpen_failed balanced run
      create := fun _ _ _ _ t' run => filesysCreateAt_failed balanced run
      remove := fun t' run => filesysRemoveAt_failed balanced run }

/-- `"/a/b"`, where `a` is there. -/
theorem path_opens_balanced_found :
    Balanced ample rootWithA none ⟨[47, 97, 47, 98], by decide⟩ :=
  (path_opens_balanced_iff rootWithA_counted ample none _).mpr id

/-- `"/b/c"`, where `b` is missing: the root directory stays open. -/
theorem missing_name_leaves_open : ¬∀ (mem : Memory) (t : Tree) (cur : Option UInt32)
    (path : CString), t.Counted → Balanced mem t cur path := by
  intro claim
  have balanced := claim ample rootWithA none ⟨[47, 98, 47, 99], by decide⟩ rootWithA_counted
  have count := congrFun (balanced.trueDir _ _ rfl) 1
  exact absurd count (by decide)

end Tree

end Pintos.Filesys
