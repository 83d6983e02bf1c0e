import Pintos.Filesys.Tree

/-! The tree of directories over whole runs: every entry in use leads to an inode that is there, no
two lead to the same one, and the parent of a directory is the directory that its entry is in. -/

namespace Pintos.Filesys

open Words CStrings ByteFiles Transition

namespace Tree

/-- The inodes that exist and were not removed, with the names in their directories. -/
def names (t : Tree) : NameTree UInt32 CString where
  live s := t.used s = true ∧ (t.opens s).any (fun node => node.removed) = false
  isdir s := (t.record s).isdir = true
  parent s := (t.record s).parent
  binds d := Binds (t.file d)

/-- Inodes are open in sectors in use, where both copies have the same kind and parent. -/
structure Inv (t : Tree) : Prop where
  opened : ∀ s node, t.opens s = some node → t.used s = true ∧ 0 < node.openCnt ∧
    (t.disk s).isdir = node.data.isdir ∧ (t.disk s).parent = node.data.parent
  freeMap : t.names.live 0
  apart : ∀ d n, t.names.Dir d → ¬Binds (t.file d) n 0
  tidy : ∀ d, t.names.Dir d → DirOk (t.file d)
  coherent : t.names.Coherent 1

/-- The inodes of `t` are those of `t'`. -/
structure Same (t t' : Tree) : Prop where
  live : ∀ s, t'.names.live s ↔ t.names.live s
  record : ∀ s, t.names.live s → t'.record s = t.record s
  bytes : ∀ s, t.names.live s → t'.bytes s = t.bytes s

section Handles

variable {t t' : Tree} {s : UInt32} {dir inode : Option UInt32} {mem : Memory}

theorem Same.refl (t : Tree) : Same t t :=
  ⟨fun _ => Iff.rfl, fun _ _ => rfl, fun _ _ => rfl⟩

theorem Same.file (same : Same t t') {d : UInt32} (live : t.names.live d) :
    t'.file d = t.file d := by
  rw [Tree.file, Tree.file, same.bytes d live, same.record d live]

theorem Same.isdir (same : Same t t') {d : UInt32} (h : t.names.Dir d) : t'.names.Dir d := by
  refine ⟨(same.live d).mpr h.1, ?_⟩
  show (t'.record d).isdir = true
  rw [same.record d h.1]
  exact h.2

theorem Same.of_isdir (same : Same t t') {d : UInt32} (h : t'.names.Dir d) : t.names.Dir d := by
  have live := (same.live d).mp h.1
  refine ⟨live, ?_⟩
  show (t.record d).isdir = true
  rw [← same.record d live]
  exact h.2

theorem Inv.same (inv : Inv t) (same : Same t t')
    (opened : ∀ s node, t'.opens s = some node → t'.used s = true ∧ 0 < node.openCnt ∧
      (t'.disk s).isdir = node.data.isdir ∧ (t'.disk s).parent = node.data.parent) : Inv t' := by
  refine ⟨opened, (same.live 0).mpr inv.freeMap, fun d n h => ?_, fun d h => ?_, ?_⟩
  · rw [same.file (same.of_isdir h).1]
    exact inv.apart d n (same.of_isdir h)
  · rw [same.file (same.of_isdir h).1]
    exact inv.tidy d (same.of_isdir h)
  · refine inv.coherent.congr same.live (fun s live => ?_) (fun s live => ?_) fun d live n s => ?_
    · show (t'.record s).isdir = true ↔ (t.record s).isdir = true
      rw [same.record s live]
    · show (t'.record s).parent = (t.record s).parent
      rw [same.record s live]
    · show Binds (t'.file d) n s ↔ Binds (t.file d) n s
      rw [same.file live]

theorem record_of_open {node : Node} (here : t.opens s = some node) : t.record s = node.data := by
  rw [record, here]

theorem record_of_closed (here : t.opens s = none) : t.record s = t.disk s := by
  rw [record, here]

theorem inodeOpen_eq {memory : Bool} (h : t.inodeOpen s memory = some t') :
    ∃ node, t' = { t with opens := Function.update t.opens s (some node) } ∧
      node.data = t.record s ∧ node.removed = (t.opens s).any (fun node => node.removed) ∧
      0 < node.openCnt ∧ ∀ old, t.opens s = some old → node.openCnt = old.openCnt + 1 := by
  unfold inodeOpen at h
  cases here : t.opens s with
  | some node =>
    simp only [here, Option.some.injEq] at h
    refine ⟨_, h.symm, (record_of_open here).symm, rfl, Nat.succ_pos _, ?_⟩
    rintro old ⟨⟩
    rfl
  | none =>
    simp only [here] at h
    split at h
    · cases h
      refine ⟨_, rfl, (record_of_closed here).symm, rfl, Nat.one_pos, ?_⟩
      rintro old ⟨⟩
    · cases h

theorem inodeOpen_same {memory : Bool} (h : t.inodeOpen s memory = some t') : Same t t' := by
  obtain ⟨node, rfl, data, removed, _, _⟩ := inodeOpen_eq h
  refine ⟨fun u => ?_, fun u _ => ?_, fun _ _ => rfl⟩
  · by_cases eq : u = s
    · subst eq
      simp [names, removed]
    · simp [names, eq]
  · by_cases eq : u = s
    · subst eq
      rw [← data]
      simp [record]
    · simp [record, eq]

theorem Inv.inodeOpen {memory : Bool} (inv : Inv t) (used : t.used s = true)
    (h : t.inodeOpen s memory = some t') : Inv t' := by
  apply inv.same (inodeOpen_same h)
  obtain ⟨node, rfl, data, _, count, _⟩ := inodeOpen_eq h
  intro u other here
  by_cases eq : u = s
  · subst eq
    simp only [Function.update_self, Option.some.injEq] at here
    subst here
    refine ⟨used, count, ?_⟩
    rw [data, record]
    cases was : t.opens u with
    | some node => exact (inv.opened u node was).2.2
    | none => exact ⟨rfl, rfl⟩
  · simp only [Function.update_of_ne eq] at here
    exact inv.opened u other here

theorem inodeClose_same (inv : Inv t) (s : UInt32) : Same t (t.inodeClose s) := by
  unfold Tree.inodeClose
  cases here : t.opens s with
  | none => exact .refl t
  | some node =>
    have used := (inv.opened s node here).1
    dsimp only
    split
    · refine ⟨fun u => ?_, fun u _ => ?_, fun _ _ => rfl⟩
      · by_cases eq : u = s
        · subst eq
          cases removed : node.removed <;> simp [names, here, removed, used]
        · cases node.removed <;> simp [names, eq]
      · by_cases eq : u = s
        · subst eq
          simp [record, here]
        · simp [record, eq]
    · refine ⟨fun u => ?_, fun u _ => ?_, fun _ _ => rfl⟩
      · by_cases eq : u = s
        · subst eq
          simp [names, here]
        · simp [names, eq]
      · by_cases eq : u = s
        · subst eq
          simp [record, here]
        · simp [record, eq]

theorem inodeClose_opens (t : Tree) {s u : UInt32} (ne : u ≠ s) :
    (t.inodeClose s).opens u = t.opens u := by
  unfold inodeClose
  cases t.opens s with
  | none => rfl
  | some node =>
    dsimp only
    split <;> simp [ne]

theorem inodeClose_shared {node : Node} (here : t.opens s = some node) (more : 2 ≤ node.openCnt) :
    (t.inodeClose s).opens s = some { node with openCnt := node.openCnt - 1 } := by
  simp [inodeClose, here, show node.openCnt - 1 ≠ 0 by omega]

theorem Inv.inodeClose (inv : Inv t) (s : UInt32) : Inv (t.inodeClose s) := by
  refine inv.same (inodeClose_same inv s) fun u node here => ?_
  unfold Tree.inodeClose at here ⊢
  cases was : t.opens s with
  | none =>
    rw [was] at here
    exact inv.opened u node here
  | some old =>
    simp only [was] at here ⊢
    by_cases last : old.openCnt - 1 = 0
    · simp only [last, if_true] at here ⊢
      have ne : u ≠ s := by
        rintro rfl
        simp at here
      rw [Function.update_of_ne ne] at here
      rw [Function.update_of_ne ne]
      have opened := inv.opened u node here
      cases old.removed with
      | true => simpa [ne] using opened
      | false => exact opened
    · simp only [last, if_false] at here ⊢
      by_cases eq : u = s
      · subst eq
        simp only [Function.update_self, Option.some.injEq] at here
        subst here
        obtain ⟨used, _, copies⟩ := inv.opened u old was
        exact ⟨used, Nat.pos_of_ne_zero last, copies⟩
      · rw [Function.update_of_ne eq] at here
        exact inv.opened u node here

theorem Inv.close (inv : Inv t) (pointer : Option UInt32) : Inv (t.close pointer) := by
  cases pointer with
  | none => exact inv
  | some s => exact inv.inodeClose s

theorem close_same (inv : Inv t) (pointer : Option UInt32) : Same t (t.close pointer) := by
  cases pointer with
  | none => exact .refl t
  | some s => exact inodeClose_same inv s

end Handles

section Walk

variable {t t' : Tree} {s : UInt32} {dir inode : Option UInt32} {mem : Memory}

/-- The pointers of `true_dir` between two names: `dir` has its inode open, and `inode` was not
removed, also when it is closed. -/
structure At (t : Tree) (dir inode : Option UInt32) : Prop where
  inv : Inv t
  dir : ∀ d, dir = some d → t.names.Dir d ∧ (t.opens d).isSome
  inode : ∀ s, inode = some s → t.names.live s

/-- `inode` is open apart from the handle of `dir`. -/
def Opened (t : Tree) (dir inode : Option UInt32) : Prop :=
  ∀ s, inode = some s → ∃ node, t.opens s = some node ∧ (dir = some s → 2 ≤ node.openCnt)

theorem At.open_ (here : At t dir inode) (live : t.names.live s) {memory : Bool}
    (h : t.inodeOpen s memory = some t') : At t' dir (some s) ∧ Opened t' dir (some s) := by
  have same := inodeOpen_same h
  have inv := here.inv.inodeOpen live.1 h
  obtain ⟨node, rfl, -, -, -, again⟩ := inodeOpen_eq h
  refine ⟨⟨inv, fun d eq => ?_, ?_⟩, ?_⟩
  · obtain ⟨isdir, isOpen⟩ := here.dir d eq
    refine ⟨same.isdir isdir, ?_⟩
    by_cases eq : d = s
    · simp [eq]
    · simpa [eq] using isOpen
  · rintro _ ⟨⟩
    exact (same.live s).mpr live
  · rintro _ ⟨⟩
    refine ⟨node, by simp, fun eq => ?_⟩
    obtain ⟨old, was⟩ := Option.isSome_iff_exists.mp (here.dir s eq).2
    have positive := (here.inv.opened s old was).2.1
    rw [again old was]
    omega

theorem component_at {token : CString} {more : Nat} {found : Found} (here : At t dir inode)
    (h : component mem t dir inode token more = some (t', found)) :
    Inv t' ∧ ∀ p, found = .inode p → At t' dir p ∧ Opened t' dir p := by
  have null : At t dir none ∧ Opened t dir none :=
    ⟨⟨here.inv, here.dir, fun _ eq => by cases eq⟩, fun _ eq => by cases eq⟩
  unfold component at h
  split at h
  · cases inode with
    | none =>
      cases h
      exact ⟨here.inv, fun _ eq => by cases eq⟩
    | some s =>
      dsimp only at h
      cases isOpen : t.opens s with
      | none =>
        rw [isOpen] at h
        cases h
      | some node =>
        simp only [isOpen] at h
        split at h
        · cases h
          exact ⟨here.inv, fun _ eq => by cases eq⟩
        · have parent := here.inv.coherent.dir_parent (here.inode s rfl)
          have eq : t.names.parent s = node.data.parent := by
            show (t.record s).parent = _
            rw [record_of_open isOpen]
          rw [eq] at parent
          split at h
          · rename_i opened
            cases h
            have next := here.open_ parent.1 opened
            refine ⟨next.1.inv, ?_⟩
            rintro p ⟨⟩
            exact next
          · cases h
            refine ⟨here.inv, ?_⟩
            rintro p ⟨⟩
            exact null
  · cases dir with
    | none => cases h
    | some d =>
      dsimp only at h
      obtain ⟨isdir, -⟩ := here.dir d rfl
      rcases (here.inv.tidy d isdir).lookup_eq token with
        ⟨k, e, found, inside, used, named, bytes⟩ | ⟨missing, -⟩
      · simp only [found] at h
        have bound : t.names.binds d token (inodeSector e) :=
          ⟨k, inside, used, named, (inodeSector_congr bytes).symm⟩
        have live := (here.inv.coherent.target d token _ isdir bound).1
        split at h
        · rename_i opened
          cases h
          have next := here.open_ live opened
          refine ⟨next.1.inv, ?_⟩
          rintro p ⟨⟩
          exact next
        · cases h
          exact ⟨here.inv, fun _ eq => by cases eq⟩
      · simp only [missing] at h
        cases h
        exact ⟨here.inv, fun _ eq => by cases eq⟩

theorem enter_at (here : At t dir inode) (opened : Opened t dir inode) (more : Nat) :
    At (enter mem t dir inode more).1 (enter mem t dir inode more).2 inode := by
  unfold enter
  cases inode with
  | none => exact here
  | some s =>
    obtain ⟨node, isOpen, shared⟩ := opened s rfl
    have live := here.inode s rfl
    dsimp only
    split
    · rename_i isdir
      have closed := here.inv.close dir
      have same := close_same here.inv dir
      unfold dirOpen
      split
      · refine ⟨closed, ?_, fun u eq => (same.live u).mpr (here.inode u eq)⟩
        rintro _ ⟨⟩
        refine ⟨same.isdir ⟨live, isdir⟩, ?_⟩
        -- closing the directory before does not close this one
        cases dir with
        | none =>
          show (t.opens s).isSome
          rw [isOpen]
          rfl
        | some d =>
          show ((t.inodeClose d).opens s).isSome
          by_cases eq : s = d
          · subst eq
            rw [inodeClose_shared isOpen (shared rfl)]
            rfl
          · rw [inodeClose_opens t eq, isOpen]
            rfl
      · have again := inodeClose_same closed s
        refine ⟨closed.inodeClose s, ?_,
          fun u eq => (again.live u).mpr ((same.live u).mpr (here.inode u eq))⟩
        rintro d ⟨⟩
    · rename_i leaf
      have same := inodeClose_same here.inv s
      refine ⟨here.inv.inodeClose s, fun d eq => ?_,
        fun u eq => (same.live u).mpr (here.inode u eq)⟩
      obtain ⟨isdir, isOpen⟩ := here.dir d eq
      refine ⟨same.isdir isdir, ?_⟩
      have ne : d ≠ s := by
        rintro rfl
        exact leaf isdir.2
      show ((t.inodeClose s).opens d).isSome
      rw [inodeClose_opens t ne]
      exact isOpen

/-- A path leads to a directory that exists, and leaves it open. -/
theorem walk_at {token : CString} {rest : List CString} {nid : NameInDir} (here : At t dir inode)
    (h : walk mem t dir inode token rest = some (t', nid)) :
    Inv t' ∧ ∀ d name, nid = .nid (some d) name → t'.names.Dir d ∧ (t'.opens d).isSome := by
  induction rest generalizing t dir inode token with
  | nil =>
    cases h
    refine ⟨here.inv, ?_⟩
    rintro d name ⟨⟩
    exact here.dir d rfl
  | cons next rest ih =>
    rw [walk] at h
    split at h
    · exact ih here h
    · cases step : component mem t dir inode token rest.length with
      | none =>
        rw [step] at h
        cases h
      | some found =>
        obtain ⟨t₁, found⟩ := found
        obtain ⟨inv, moves⟩ := component_at here step
        simp only [step] at h
        cases found with
        | failed =>
          cases h
          exact ⟨inv, fun _ _ eq => by cases eq⟩
        | inode pointer =>
          obtain ⟨here, opened⟩ := moves pointer rfl
          exact ih (enter_at here opened rest.length) h

theorem trueDir_at {path : CString} {nid : NameInDir} (inv : Inv t)
    (h : trueDir mem t path = some (t', nid)) :
    Inv t' ∧ ∀ d name, nid = .nid (some d) name → t'.names.Dir d ∧ (t'.opens d).isSome := by
  obtain ⟨t₁, opened, h⟩ := Option.bind_eq_some_iff.mp h
  have same := inodeOpen_same opened
  have root := inv.coherent.base
  have inv₁ := inv.inodeOpen root.1.1 opened
  have isOpen : (t₁.opens 1).isSome := by
    obtain ⟨node, rfl, -⟩ := inodeOpen_eq opened
    simp
  split at h
  · cases h
    refine ⟨inv₁, ?_⟩
    rintro d name ⟨⟩
    exact ⟨same.isdir root, isOpen⟩
  · refine walk_at ⟨inv₁, ?_, ?_⟩ h
    · rintro d ⟨⟩
      exact ⟨same.isdir root, isOpen⟩
    · rintro s ⟨⟩
      exact (same.isdir root).1

end Walk

section Entries

variable {t t' : Tree} {d s : UInt32} {name : CString} {mem : Memory} {node : Node}

theorem Inv.closed (inv : Inv t) (unused : t.used s = false) : t.opens s = none := by
  cases here : t.opens s with
  | none => rfl
  | some other =>
    have used := (inv.opened s other here).1
    rw [unused] at used
    cases used

theorem ne_of_unused (unused : t.used s = false) {u : UInt32} (used : t.used u = true) : u ≠ s := by
  rintro rfl
  rw [unused] at used
  cases used

/-- The directory in sector `d` has the contents `f` now, and the inodes of `P` are else as they
were. -/
structure Rewrites (t t' : Tree) (d : UInt32) (f : ByteFile) (P : UInt32 → Prop) : Prop where
  dir_record : t'.record d = { t.record d with length := f.length }
  dir_file : t'.file d = f
  record : ∀ u, P u → u ≠ d → t'.record u = t.record u
  file : ∀ u, P u → u ≠ d → t'.file u = t.file u

namespace Rewrites

variable {f : ByteFile} {P : UInt32 → Prop}

theorem kept (h : Rewrites t t' d f P) {u : UInt32} (old : P u) :
    (t'.record u).isdir = (t.record u).isdir ∧ (t'.record u).parent = (t.record u).parent := by
  by_cases eq : u = d
  · rw [eq, h.dir_record]
    exact ⟨rfl, rfl⟩
  · rw [h.record u old eq]
    exact ⟨rfl, rfl⟩

theorem isdir_iff (h : Rewrites t t' d f P) {u : UInt32} (old : P u) :
    t'.names.isdir u ↔ t.names.isdir u := by
  show (t'.record u).isdir = true ↔ (t.record u).isdir = true
  rw [(h.kept old).1]

theorem tidy (h : Rewrites t t' d f P) (inv : Inv t) (ok : DirOk f) {u : UInt32} (old : P u)
    (sub : t.names.Dir u) : DirOk (t'.file u) := by
  by_cases eq : u = d
  · rw [eq, h.dir_file]
    exact ok
  · rw [h.file u old eq]
    exact inv.tidy u sub

theorem apart (h : Rewrites t t' d f P) (inv : Inv t) (off : ∀ n, ¬Binds f n 0) {u : UInt32}
    (old : P u) (sub : t.names.Dir u) (n : CString) : ¬Binds (t'.file u) n 0 := by
  by_cases eq : u = d
  · rw [eq, h.dir_file]
    exact off n
  · rw [h.file u old eq]
    exact inv.apart u n sub

end Rewrites

section Attach

variable {f : ByteFile} {size : Nat} {kind : Bool} {parent : UInt32}

/-- The tree with a new inode in sector `s`, and `f` for the directory. -/
theorem attach_rewrites (isOpen : t.opens d = some node) (closed : t.opens s = none) (ne : s ≠ d)
    (after : Tree.mk (Function.update t.disk s ⟨size, kind, parent⟩)
      (Function.update (Function.update t.bytes s fun _ => 0) d f.bytes)
      (Function.update t.opens d
        (some { node with data := { node.data with length := f.length } }))
      (Function.update t.used s true) = t') :
    (∀ u, t'.names.live u ↔ u = s ∨ t.names.live u) ∧ t'.record s = ⟨size, kind, parent⟩ ∧
      t'.file s = ⟨fun _ => 0, size⟩ ∧ Rewrites t t' d f (· ≠ s) := by
  have record_new : t'.record s = ⟨size, kind, parent⟩ := by
    rw [← after]
    simp [record, ne, closed]
  have record_dir : t'.record d = { t.record d with length := f.length } := by
    rw [← after]
    simp [record, isOpen]
  have record_old : ∀ u, u ≠ s → u ≠ d → t'.record u = t.record u := by
    intro u new eq
    rw [← after]
    simp [record, new, eq]
  refine ⟨fun u => ?_, record_new, ?_, record_dir, ?_, record_old, fun u new eq => ?_⟩
  · rw [← after]
    by_cases new : u = s
    · subst new
      simp [names, ne, closed]
    · by_cases eq : u = d
      · subst eq
        simp [names, new, isOpen]
      · simp [names, new, eq]
  · rw [file, record_new, ← after]
    simp [ne]
  · rw [file, record_dir, ← after]
    simp
  · rw [file, record_old u new eq, ← after]
    simp [file, new, eq]

/-- A new inode with its entry. -/
theorem Inv.attach (inv : Inv t) (isdir : t.names.Dir d) (isOpen : t.opens d = some node)
    (unused : t.used s = false) (ok : DirOk f)
    (binds : ∀ n u, Binds f n u ↔ n = name ∧ u = s ∨ Binds (t.file d) n u)
    (parent : UInt32) (whole : kind = true → size % 20 = 0)
    (up : kind = true → parent = d) (leaf : kind = false → parent = 1) :
    Inv { disk := Function.update t.disk s ⟨size, kind, parent⟩
          bytes := Function.update (Function.update t.bytes s fun _ => 0) d f.bytes
          opens := Function.update t.opens d
            (some { node with data := { node.data with length := f.length } })
          used := Function.update t.used s true } := by
  have closed := inv.closed unused
  have ne_of_live : ∀ {u}, t.names.live u → u ≠ s := fun live => ne_of_unused unused live.1
  have fresh : ¬t.names.live s := fun live => ne_of_live live rfl
  have ne : s ≠ d := (ne_of_live isdir.1).symm
  generalize after : Tree.mk _ _ _ _ = t'
  obtain ⟨live, record_new, file_new, rewrites⟩ := attach_rewrites isOpen closed ne after
  have sub_of : t'.names.isdir s → kind = true := fun sub => by
    have sub : (t'.record s).isdir = true := sub
    rwa [record_new] at sub
  have empty : t'.names.isdir s → Represents (t'.file s) fun _ => none := by
    intro sub
    have zeros := dirCreate_represents (size / 20)
    have eq : size / 20 * 20 = size := by
      have := whole (sub_of sub)
      omega
    rw [dirCreate, eq] at zeros
    rw [file_new]
    exact zeros
  have none_new : t'.names.isdir s → ∀ n u, ¬Binds (t'.file s) n u := by
    intro sub n u bound
    cases ((empty sub).binds n u).mp bound
  have was : ∀ {u}, t'.names.Dir u → u ≠ s → t.names.Dir u := by
    intro u sub new
    exact ⟨((live u).mp sub.1).resolve_left new, (rewrites.isdir_iff new).mp sub.2⟩
  have off : ∀ n, ¬Binds f n 0 := by
    intro n bound
    rcases (binds n 0).mp bound with ⟨-, zero⟩ | bound
    · exact fresh (zero ▸ inv.freeMap)
    · exact inv.apart d n isdir bound
  constructor
  · intro u other here
    rw [← after] at here ⊢
    by_cases eq : u = d
    · subst eq
      simp only [Function.update_self, Option.some.injEq] at here
      subst here
      simpa [Ne.symm ne] using inv.opened u node isOpen
    · simp only [Function.update_of_ne eq] at here
      have new : u ≠ s := by
        rintro rfl
        rw [closed] at here
        cases here
      simpa [new] using inv.opened u other here
  · exact (live 0).mpr (.inr inv.freeMap)
  · intro u n sub
    by_cases new : u = s
    · subst new
      exact none_new sub.2 n 0
    · exact rewrites.apart inv off new (was sub new) n
  · intro u sub
    by_cases new : u = s
    · subst new
      exact (empty sub.2).ok
    · exact rewrites.tidy inv ok new (was sub new)
  · refine inv.coherent.attach name isdir fresh live
      (fun u old => rewrites.isdir_iff (ne_of_live old))
      (fun u old => (rewrites.kept (ne_of_live old)).2) (fun n u => ?_) (fun u old eq n v => ?_)
      none_new ?_ ?_
    · show Binds (t'.file d) n u ↔ _
      rw [rewrites.dir_file]
      exact binds n u
    · show Binds (t'.file u) n v ↔ Binds (t.file u) n v
      rw [rewrites.file u (ne_of_live old) eq]
    · intro sub
      show (t'.record s).parent = d
      rw [record_new]
      exact up (sub_of sub)
    · intro sub
      show (t'.record s).parent = 1
      rw [record_new]
      apply leaf
      have not : ¬(t'.record s).isdir = true := sub
      rw [record_new] at not
      exact Bool.eq_false_iff.mpr not

end Attach

/-- Nothing refers to a sector that is not in use. -/
theorem Inv.of_unused (inv : Inv t) (unused : t.used s = false) (opens : t'.opens = t.opens)
    (used : t'.used = t.used) (disk : ∀ u, u ≠ s → t'.disk u = t.disk u)
    (bytes : ∀ u, u ≠ s → t'.bytes u = t.bytes u) : Inv t' := by
  have same : Same t t' := by
    refine ⟨fun u => ?_, fun u live => ?_, fun u live => bytes u (ne_of_unused unused live.1)⟩
    · show _ ∧ _ ↔ _ ∧ _
      rw [opens, used]
    · rw [record, record, opens, disk u (ne_of_unused unused live.1)]
  refine inv.same same fun u node here => ?_
  rw [opens] at here
  have opened := inv.opened u node here
  rw [used, disk u (ne_of_unused unused opened.1)]
  exact opened

theorem setParent_eq (closed : t.opens s = none) (success : Bool) :
    setParent mem t d s success =
      if mem.inode then
        ({ t with disk := Function.update t.disk s { t.disk s with parent := d } }, success)
      else (t, false) := by
  cases memory : mem.inode with
  | false => simp [setParent, inodeOpen, closed, memory]
  | true =>
    have opens : Function.update t.opens s none = t.opens := by
      rw [← closed]
      exact Function.update_eq_self s t.opens
    simp [setParent, inodeOpen, closed, memory, inodeSetParent, inodeClose, opens]

/-- `filesys_create` leaves an unused sector behind, or the inode with its entry. -/
theorem createEntry_cases (inv : Inv t) (isdir : t.names.Dir d) (isOpen : t.opens d = some node)
    (unused : t.used s = false) (mem : Memory) (name : CString) (size : Nat) (kind : Bool)
    (junk : Bytes) :
    (∃ t', createEntry mem t d name size kind s junk = (t', false) ∧ t'.opens = t.opens ∧
      t'.used = t.used ∧ (∀ u, u ≠ s → t'.disk u = t.disk u) ∧
      ∀ u, u ≠ s → t'.bytes u = t.bytes u) ∨
    ∃ f, createEntry mem t d name size kind s junk =
        ({ disk := Function.update t.disk s ⟨size, kind, 1⟩
           bytes := Function.update (Function.update t.bytes s fun _ => 0) d f.bytes
           opens := Function.update t.opens d
             (some { node with data := { node.data with length := f.length } })
           used := Function.update t.used s true }, true) ∧
      DirOk f ∧ (∀ n u, Binds f n u ↔ n = name ∧ u = s ∨ Binds (t.file d) n u) ∧
      mem.record = true ∧ (Filesys.dirAdd (t.file d) name s junk).2 = true := by
  have ne : d ≠ s := ne_of_unused unused isdir.1.1
  have released : Function.update (Function.update t.used s true) s false = t.used := by
    rw [Function.update_idem, ← unused]
    exact Function.update_eq_self s t.used
  unfold createEntry
  cases mem.record with
  | false => exact .inl ⟨t, by simp [released], rfl, rfl, fun _ _ => rfl, fun _ _ => rfl⟩
  | true =>
    have file : ({ t with used := Function.update t.used s true }.inodeCreate s size kind).file d =
        t.file d := by
      simp [Tree.file, record, inodeCreate, isOpen, ne]
    simp only [if_true, dirAdd, file]
    rcases (inv.tidy d isdir).dirAdd name s junk with ⟨-, run⟩ | ⟨-, f, run, ok, binds⟩
    · rw [run]
      refine .inl ⟨t.inodeCreate s size kind, by simp [inodeCreate, released], rfl, rfl,
        fun u new => ?_, fun u new => ?_⟩
      · exact Function.update_of_ne new ..
      · exact Function.update_of_ne new ..
    · refine .inr ⟨f, ?_, ok, binds, trivial, by rw [run]⟩
      rw [run]
      simp [write, inodeCreate, isOpen]

/-- The new inode of a directory has its parent set before anyone sees it. -/
theorem Inv.enterNew (inv : Inv t) (isdir : t.names.Dir d) (isOpen : t.opens d = some node)
    (unused : t.used s = false) (mem : Memory) (name : CString) {size : Nat} {kind : Bool}
    (junk : Bytes) (whole : kind = true → size % 20 = 0)
    (memory : kind = true → d ≠ 1 → mem.record = true →
      (Filesys.dirAdd (t.file d) name s junk).2 = true → mem.inode = true) :
    Inv (if kind then
      setParent mem (createEntry mem t d name size kind s junk).1 d s
        (createEntry mem t d name size kind s junk).2
      else createEntry mem t d name size kind s junk).1 := by
  have closed := inv.closed unused
  have ne : s ≠ d := (ne_of_unused unused isdir.1.1).symm
  rcases createEntry_cases inv isdir isOpen unused mem name size kind junk
    with ⟨t₁, run, opens, used, disk, bytes⟩ | ⟨f, run, ok, binds, made, added⟩
  · rw [run]
    have unused₁ := inv.of_unused unused opens used disk bytes
    cases kind with
    | false => exact unused₁
    | true =>
      rw [if_pos rfl, setParent_eq (by rw [opens, closed])]
      split
      · refine inv.of_unused unused opens used (fun u new => ?_) bytes
        rw [← disk u new]
        exact Function.update_of_ne new ..
      · exact unused₁
  · rw [run]
    have attached := fun parent => inv.attach isdir isOpen unused ok binds parent whole
    cases kind with
    | false => exact attached 1 (by simp) (by simp)
    | true =>
      rw [if_pos rfl, setParent_eq (by simp [ne, closed])]
      split
      · simpa using attached d (by simp) (by simp)
      · -- without memory the parent is still the root
        rename_i none
        by_cases root : d = 1
        · exact attached 1 (fun _ => root.symm) (by simp)
        · exact absurd (memory rfl root made added) none

theorem detach_rewrites (isOpen : t.opens d = some node) {gone : Node}
    (marked : t.opens s = some gone) (ne : s ≠ d) (f : ByteFile) :
    (∀ u, ((t.write d f).inodeRemove s).names.live u ↔ u ≠ s ∧ t.names.live u) ∧
      Rewrites t ((t.write d f).inodeRemove s) d f fun _ => True := by
  generalize after : (t.write d f).inodeRemove s = t'
  have record_dir : t'.record d = { t.record d with length := f.length } := by
    rw [← after]
    simp [record, inodeRemove, write, ne.symm, isOpen]
  have record_old : ∀ u, u ≠ d → t'.record u = t.record u := by
    intro u eq
    rw [← after]
    by_cases eq' : u = s
    · subst eq'
      simp [record, inodeRemove, write, eq, marked]
    · simp [record, inodeRemove, write, eq, eq']
  refine ⟨fun u => ?_, record_dir, ?_, fun u _ => record_old u, fun u _ eq => ?_⟩
  · rw [← after]
    by_cases eq : u = s
    · subst eq
      simp [names, inodeRemove, write, ne, marked]
    · by_cases eq' : u = d
      · subst eq'
        simp [names, inodeRemove, write, eq, isOpen]
      · simp [names, inodeRemove, write, eq, eq']
  · rw [file, record_dir, ← after]
    simp [inodeRemove, write]
  · rw [file, record_old u eq, ← after]
    simp [file, inodeRemove, write, eq]

/-- An entry is erased and its inode marked; a directory is empty then. -/
theorem Inv.detach (inv : Inv t) (isdir : t.names.Dir d) (isOpen : t.opens d = some node)
    {gone : Node} (marked : t.opens s = some gone) (bound : Binds (t.file d) name s)
    (empty : t.names.isdir s → ∀ n u, ¬Binds (t.file s) n u) {f : ByteFile} (ok : DirOk f)
    (binds : ∀ n u, Binds f n u ↔ n ≠ name ∧ Binds (t.file d) n u) :
    Inv ((t.write d f).inodeRemove s) := by
  have ne : s ≠ d := by
    rintro rfl
    exact empty isdir.2 name s bound
  have zero : (0 : UInt32) ≠ s := by
    rintro rfl
    exact inv.apart d name isdir bound
  obtain ⟨live, rewrites⟩ := detach_rewrites isOpen marked ne f
  have was : ∀ {u}, ((t.write d f).inodeRemove s).names.Dir u → t.names.Dir u :=
    fun {u} sub => ⟨((live u).mp sub.1).2, (rewrites.isdir_iff trivial).mp sub.2⟩
  have off : ∀ n, ¬Binds f n 0 := fun n bound' =>
    inv.apart d n isdir ((binds n 0).mp bound').2
  constructor
  · intro u other here
    by_cases eq : u = s
    · subst eq
      simp only [inodeRemove, write, Function.update_self, Function.update_of_ne ne, marked,
        Option.map_some, Option.some.injEq] at here
      subst here
      exact inv.opened u gone marked
    · by_cases eq' : u = d
      · subst eq'
        simp only [inodeRemove, write, Function.update_self, Function.update_of_ne eq, isOpen,
          Option.map_some, Option.some.injEq] at here
        subst here
        exact inv.opened u node isOpen
      · simp only [inodeRemove, write, Function.update_of_ne eq, Function.update_of_ne eq'] at here
        exact inv.opened u other here
  · exact (live 0).mpr ⟨zero, inv.freeMap⟩
  · exact fun u n sub => rewrites.apart inv off trivial (was sub) n
  · exact fun u sub => rewrites.tidy inv ok trivial (was sub)
  · refine inv.coherent.detach isdir bound
      (fun u other => (inv.tidy d isdir).functional other bound) empty live
      (fun u _ => rewrites.isdir_iff trivial) (fun u _ => (rewrites.kept trivial).2)
      (fun n u => ?_) fun u _ eq n v => ?_
    · show Binds (((t.write d f).inodeRemove s).file d) n u ↔ _
      rw [rewrites.dir_file]
      exact binds n u
    · show Binds (((t.write d f).inodeRemove s).file u) n v ↔ Binds (t.file u) n v
      rw [rewrites.file u trivial eq]

theorem Inv.dirRemove {success : Bool} (inv : Inv t) (isdir : t.names.Dir d)
    (isOpen : (t.opens d).isSome) (h : Tree.dirRemove mem t d name = some (t', success)) :
    Inv t' := by
  unfold Tree.dirRemove at h
  rcases (inv.tidy d isdir).lookup_eq name with
    ⟨k, e, found, inside, used, named, bytes⟩ | ⟨missing, -⟩
  · have bound : Binds (t.file d) name (inodeSector e) :=
      ⟨k, inside, used, named, (inodeSector_congr bytes).symm⟩
    have live := (inv.coherent.target d name _ isdir bound).1
    simp only [found] at h
    split at h
    · cases h
      exact inv
    rename_i t₁ opened
    have here : At t (some d) none :=
      ⟨inv, by rintro _ ⟨⟩; exact ⟨isdir, isOpen⟩, by rintro _ ⟨⟩⟩
    obtain ⟨here, isOpen₁⟩ := here.open_ live opened
    obtain ⟨isdir₁, isOpen⟩ := here.dir d rfl
    obtain ⟨node, isOpen⟩ := Option.isSome_iff_exists.mp isOpen
    obtain ⟨gone, marked, -⟩ := isOpen₁ _ rfl
    have inv₁ := here.inv
    have same := inodeOpen_same opened
    split at h
    · cases h
    rcases (inv₁.tidy d isdir₁).dirRemove name t₁.busy with
      ⟨-, run⟩ | ⟨s, f, bound₁, free, run, ok, binds⟩
    · rw [run] at h
      cases h
      exact inv₁.inodeClose _
    · rw [run] at h
      cases h
      obtain rfl : s = inodeSector e := by
        rw [same.file isdir.1] at bound₁
        exact (inv.tidy d isdir).functional bound₁ bound
      refine (inv₁.detach isdir₁ isOpen marked bound₁ (fun sub => ?_) ok binds).inodeClose _
      have sub : (t₁.record (inodeSector e)).isdir = true := sub
      have empty : dirIsEmpty (t₁.file (inodeSector e)) = true := by
        simp only [busy, sub, Bool.true_and, Bool.or_eq_false_iff] at free
        simpa using free.1
      exact (inv₁.tidy _ ⟨here.inode _ rfl, sub⟩).dirIsEmpty empty
  · rw [missing] at h
    cases h
    exact inv

end Entries

/-- `filesys_create` makes an entry in a directory other than the root. -/
def entersBelowRoot (mem : Memory) (t : Tree) (path : CString) (sector : UInt32) (junk : Bytes) :
    Bool :=
  match trueDir mem t path with
  | some (t, .nid (some d) (some name)) =>
    decide (d ≠ 1 ∧ name ≠ dot ∧ name ≠ dotdot) && mem.record &&
      (Filesys.dirAdd (t.file d) name sector junk).2
  | _ => false

/-- Directories are created with whole entries. -/
def InDomain (_ : Tree) : Op → Prop
  | .create _ size isdir .. => isdir = true → size % 20 = 0
  | .remove .. => True

/-- A new directory below another one gets the memory to set its parent. -/
def Careful (t : Tree) : Op → Prop
  | .create path size isdir sector junk mem =>
    (isdir = true → size % 20 = 0) ∧
      (isdir = true → entersBelowRoot mem t path sector junk = true → mem.inode = true)
  | .remove .. => True

instance (t : Tree) : (op : Op) → Decidable (InDomain t op)
  | .create .. => inferInstanceAs (Decidable (_ → _))
  | .remove .. => inferInstanceAs (Decidable True)

instance (t : Tree) : (op : Op) → Decidable (Careful t op)
  | .create .. => inferInstanceAs (Decidable (_ ∧ _))
  | .remove .. => inferInstanceAs (Decidable True)

section Steps

variable {t t' : Tree} {mem : Memory} {path : CString} {ok : Bool}

theorem Inv.filesysCreate {size : Nat} {kind : Bool} {s : UInt32} {junk : Bytes} (inv : Inv t)
    (whole : kind = true → size % 20 = 0)
    (memory : kind = true → entersBelowRoot mem t path s junk = true → mem.inode = true)
    (h : filesysCreate mem t path size kind s junk = some (t', ok)) : Inv t' := by
  unfold Tree.filesysCreate at h
  split at h
  · cases h
    exact inv
  unfold entersBelowRoot at memory
  cases walked : trueDir mem t path with
  | none =>
    rw [walked] at h
    cases h
  | some result =>
    obtain ⟨t₁, nid⟩ := result
    obtain ⟨inv, leads⟩ := trueDir_at inv walked
    simp only [walked] at h memory
    match nid, leads, h, memory with
    | .null, _, h, _ =>
      cases h
      exact inv
    | .nid dir (some name), leads, h, memory =>
      dsimp only at h
      split at h
      · cases h
        exact inv.close dir
      rename_i proper
      obtain ⟨not_dot, not_dotdot⟩ := not_or.mp proper
      cases dir with
      | none =>
        cases h
        exact inv
      | some d =>
        obtain ⟨isdir, isOpen⟩ := leads d (some name) rfl
        obtain ⟨node, isOpen⟩ := Option.isSome_iff_exists.mp isOpen
        dsimp only at h memory
        split at h
        · cases h
        rename_i unused
        have unused := Bool.eq_false_iff.mpr unused
        have next := inv.enterNew isdir isOpen unused mem name junk whole
          fun sub below made added => memory sub (by simp [below, not_dot, not_dotdot, made, added])
        cases kind <;> cases h <;> exact next.inodeClose d

theorem Inv.filesysRemove (inv : Inv t) (h : filesysRemove mem t path = some (t', ok)) :
    Inv t' := by
  unfold Tree.filesysRemove at h
  split at h
  · cases h
    exact inv
  cases walked : trueDir mem t path with
  | none =>
    rw [walked] at h
    cases h
  | some result =>
    obtain ⟨t₁, nid⟩ := result
    obtain ⟨inv, leads⟩ := trueDir_at inv walked
    simp only [walked] at h
    match nid, leads, h with
    | .null, _, h =>
      cases h
      exact inv
    | .nid dir none, _, h =>
      cases h
      exact inv.close dir
    | .nid none (some _), _, h =>
      cases h
      exact inv
    | .nid (some d) (some name), leads, h =>
      obtain ⟨isdir, isOpen⟩ := leads d (some name) rfl
      obtain ⟨⟨t₂, success⟩, removed, eq⟩ := Option.map_eq_some_iff.mp h
      cases eq
      exact (inv.dirRemove isdir isOpen removed).inodeClose d

theorem Inv.step {op : Op} (inv : Inv t) (careful : Careful t op) (h : Tree.step t op = some t') :
    Inv t' := by
  cases op with
  | create path size isdir sector junk mem =>
    obtain ⟨⟨t₁, success⟩, created, rfl⟩ := Option.map_eq_some_iff.mp h
    exact inv.filesysCreate careful.1 careful.2 created
  | remove path mem =>
    obtain ⟨⟨t₁, success⟩, removed, rfl⟩ := Option.map_eq_some_iff.mp h
    exact inv.filesysRemove removed

theorem format_inv {disk : UInt32 → Record} {bytes : UInt32 → Bytes} {size : Nat}
    (h : format disk bytes size = some t) : Inv t := by
  simp only [format, inodeOpen, inodeCreate, inodeClose, Option.bind_eq_bind, Option.bind_some,
    Function.update_self, if_true, Nat.sub_self, Bool.false_eq_true, if_false,
    Option.some.injEq] at h
  have live : ∀ s, t.names.live s ↔ s = 0 ∨ s = 1 := by
    intro s
    rw [← h]
    by_cases zero : s = 0
    · simp [names, zero]
    · simp [names, zero]
  have free_map : (t.record 0).isdir = false ∧ (t.record 0).parent = 1 := by
    rw [← h]
    simp [record]
  have root : t.record 1 = ⟨16 * 20, true, 1⟩ := by
    rw [← h]
    simp [record]
  have empty : Represents (t.file 1) fun _ => none := by
    rw [file, root, ← h]
    exact dirCreate_represents 16
  have only : ∀ {d}, t.names.Dir d → d = 1 := by
    intro d sub
    apply ((live d).mp sub.1).resolve_left
    rintro rfl
    have isdir : (t.record 0).isdir = true := sub.2
    rw [free_map.1] at isdir
    cases isdir
  have none : ∀ {d}, t.names.Dir d → ∀ n s, ¬Binds (t.file d) n s := by
    intro d sub n s bound
    rw [only sub] at bound
    cases (empty.binds n s).mp bound
  refine ⟨fun s node here => ?_, (live 0).mpr (.inl rfl), fun d n sub => none sub n 0,
    fun d sub => ?_, ?_⟩
  · rw [← h] at here ⊢
    by_cases zero : s = 0
    · subst zero
      simp only [Function.update_self, Option.some.injEq] at here
      subst here
      simp
    · simp [zero] at here
  · rw [only sub]
    exact empty.ok
  · constructor
    · refine ⟨(live 1).mpr (.inr rfl), ?_⟩
      show (t.record 1).isdir = true
      rw [root]
    · show (t.record 1).parent = 1
      rw [root]
    · intro d n s sub bound
      exact absurd bound (none sub n s)
    · intro d n s sub bound
      exact absurd bound (none sub n s)
    · intro d d' n n' s sub _ bound
      exact absurd bound (none sub n s)
    · intro s sub ne
      exact absurd (only sub) ne
    · intro s alive leaf
      rcases (live s).mp alive with rfl | rfl
      · exact free_map.2
      · refine absurd ?_ leaf
        show (t.record 1).isdir = true
        rw [root]

end Steps

/-- Entry `k` of a directory is in use and names the inode of sector `s`. -/
def EntryAt (t : Tree) (d : UInt32) (k : Nat) (s : UInt32) : Prop :=
  20 * k < (t.file d).length ∧ inUse (entry (t.file d) k) = true ∧
    inodeSector (entry (t.file d) k) = s

instance (t : Tree) (d : UInt32) (k : Nat) (s : UInt32) : Decidable (EntryAt t d k s) :=
  inferInstanceAs (Decidable (_ ∧ _ ∧ _))

/-- Every entry in use of a directory leads to an inode that was not removed, no other entry leads
to it, and the parent of a directory is the one that its entry is in, in memory and in its sector:
in all runs where directories below others get the memory to set their parent. -/
theorem tree_coherent {disk : UInt32 → Record} {bytes : UInt32 → Bytes} {size : Nat} {t : Tree}
    (reach : Reach (Fires step) Careful (fun t => format disk bytes size = some t) t)
    {d s : UInt32} {k : Nat} (isdir : t.names.Dir d) (here : EntryAt t d k s) :
    t.names.live s ∧
    (∀ d' k', t.names.Dir d' → EntryAt t d' k' s → d' = d ∧ k' = k) ∧
    ((t.record s).isdir = true → (t.record s).parent = d ∧ (t.disk s).parent = d) := by
  have inv : Inv t := reach.invariant (fun _ => format_inv) fun _ _ _ inv careful h =>
    inv.step careful h
  have binds : ∀ {d k}, t.names.Dir d → EntryAt t d k s → ∃ name,
      nameIs (entry (t.file d) k) name = true ∧ Binds (t.file d) name s := by
    rintro d k sub ⟨inside, used, sector⟩
    obtain ⟨name, named, -⟩ := (inv.tidy d sub).valid k inside used
    exact ⟨name, named, k, inside, used, named, sector⟩
  obtain ⟨name, named, bound⟩ := binds isdir here
  refine ⟨(inv.coherent.target d name s isdir bound).1, fun d' k' sub other => ?_, fun sub => ?_⟩
  · obtain ⟨name', named', bound'⟩ := binds sub other
    obtain ⟨rfl, rfl⟩ := inv.coherent.unique d' d name' name s sub isdir bound' bound
    refine ⟨rfl, ?_⟩
    exact (inv.tidy d' sub).distinct k' k name' other.1 here.1 other.2.1 here.2.1 named' named
  · have parent : (t.record s).parent = d := inv.coherent.up d name s isdir bound sub
    refine ⟨parent, ?_⟩
    cases isOpen : t.opens s with
    | none => rwa [record_of_closed isOpen] at parent
    | some node =>
      rw [record_of_open isOpen] at parent
      rw [(inv.opened s node isOpen).2.2.2, parent]

section Runs

/-- A formatted device, and the paths `"/a"` and `"/a/b"`. -/
def formatted : Tree := (format (fun _ => ⟨0, false, 0⟩) (fun _ _ => 0) 4).get rfl

def pathA : CString := ⟨[47, 97], by decide⟩

def pathAB : CString := ⟨[47, 97, 47, 98], by decide⟩

def plenty : Memory := ⟨fun _ => true, fun _ => true, true, true, true⟩

instance (t : Tree) (d : UInt32) : Decidable (t.names.Dir d) :=
  inferInstanceAs (Decidable ((t.used d = true ∧ (t.opens d).any _ = false) ∧
    (t.record d).isdir = true))

/-- `"/a/b"` is made without memory for the last `inode_open`: `filesys_create` returns early, and
leaves a directory in `"/a"` whose parent is the root. -/
theorem parent_not_set : ∃ t, Reach (Fires step) InDomain (· = formatted) t ∧ t.names.Dir 10 ∧
    EntryAt t 10 0 11 ∧ (t.record 11).isdir = true ∧ (t.record 11).parent ≠ 10 :=
  Reach.eval [.create pathA 0 true 10 (fun _ => 0) plenty,
    .create pathAB 0 true 11 (fun _ => 0) { plenty with inode := false }] (by decide +kernel)

/-- With memory, the parent of `"/a/b"` is `"/a"`; without, no harm is done in the root. -/
theorem tree_coherent_nested : ∃ t, t.names.Dir 10 ∧ EntryAt t 10 0 11 ∧ t.names.live 11 ∧
    (t.record 11).parent = 10 := by
  obtain ⟨t, reach, isdir, here, sub⟩ : ∃ t, Reach (Fires step) Careful (· = formatted) t ∧
      t.names.Dir 10 ∧ EntryAt t 10 0 11 ∧ (t.record 11).isdir = true :=
    Reach.eval [.create pathA 0 true 10 (fun _ => 0) { plenty with inode := false },
      .create pathAB 0 true 11 (fun _ => 0) plenty] (by decide +kernel)
  have start : format (fun _ => ⟨0, false, 0⟩) (fun _ _ => 0) 4 = some formatted :=
    (Option.some_get _).symm
  obtain ⟨live, -, parent⟩ := tree_coherent (reach.of_start start) isdir here
  exact ⟨t, isdir, here, live, (parent sub).1⟩

end Runs

end Tree

end Pintos.Filesys
