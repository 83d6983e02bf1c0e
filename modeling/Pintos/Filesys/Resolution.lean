import Pintos.Filesys.PathOpens
import Pintos.Filesys.TreeRuns

/-! Where paths lead: `true_dir` against the resolution of a path component by component. -/

namespace Pintos.Filesys

open Words CStrings ByteFiles

namespace Tree

/-- The parent of a directory; 0 stands for none. -/
def up (t : Tree) (d : UInt32) : Option UInt32 :=
  if (t.record d).parent = 0 then none else some (t.record d).parent

/-- The inode of an entry. -/
def child (t : Tree) (d : UInt32) (name : CString) : Option UInt32 :=
  (lookup (t.file d) name).map fun result => inodeSector result.1

/-- The inode of a name other than `"."`. -/
def next (t : Tree) (d : UInt32) (name : CString) : Option UInt32 :=
  if name = dotdot then t.up d else t.child d name

/-- The directory that a component on the way leads to, if there is one. -/
def move (t : Tree) (d : UInt32) (name : CString) : Option UInt32 :=
  if name = dot then some d else (t.next d name).filter fun s => (t.record s).isdir

/-- The directory before the last component, and the last component. -/
def resolve (t : Tree) (start : UInt32) (names : List CString) : NameInDir :=
  match names.dropLast.foldlM t.move start with
  | none => .null
  | some d => .nid (some d) names.getLast?

/-- `true_dir` resolves the path, and `filesys_create` and `filesys_remove` fail when it has no
component. -/
structure Resolves (mem : Memory) (t : Tree) (cur : Option UInt32) (path : CString) : Prop where
  trueDir : components 47 path.1 ≠ [] → ∃ t', trueDirAt mem t cur path =
    some (t', t.resolve (startDir cur path) (components 47 path.1))
  create : components 47 path.1 = [] → ∀ size isdir sector junk, ∃ t',
    filesysCreateAt mem t cur path size isdir sector junk = some (t', false)
  remove : components 47 path.1 = [] → ∃ t', filesysRemoveAt mem t cur path = some (t', false)

/-- On the way from `d`, the names after the first `"."` lead back to where it stands and end in
`"."`, and `true_dir` gives up at a name after the first inode that is not a directory. -/
def Straight (mem : Memory) (t : Tree) : UInt32 → CString → List CString → Prop
  | _, _, [] => True
  | d, token, following :: rest =>
    if token = dot then t.resolve d (following :: rest) = .nid (some d) (some dot)
    else
      match t.next d token with
      | none => True
      | some s =>
        if (t.record s).isdir then Straight mem t s following rest
        else GivesUp mem t (some d) (some s) following rest

/-- The path has a component, and is straight. -/
def Plain (mem : Memory) (t : Tree) (cur : Option UInt32) (path : CString) : Prop :=
  match components 47 path.1 with
  | [] => False
  | token :: rest => Straight mem t (startDir cur path) token rest

/-- `true_dir` gets its memory. -/
structure Enough (mem : Memory) : Prop where
  node : ∀ more, mem.node more = true
  dir : ∀ more, mem.dir more = true

section Walk

variable {t₀ t : Tree} {mem : Memory} {d s : UInt32} {token : CString}

theorem resolve_cons (t : Tree) (d : UInt32) (token following : CString) (rest : List CString) :
    t.resolve d (token :: following :: rest) =
      match t.move d token with
      | none => .null
      | some s => t.resolve s (following :: rest) := by
  rw [resolve, List.dropLast_cons_cons, List.foldlM_cons, List.getLast?_cons_cons]
  cases t.move d token with
  | none => rfl
  | some s => rfl

theorem target_dir (t : Tree) (d : UInt32) (token : CString) :
    t.target (some d) (some d) token = some (t.next d token) := by
  have loaded : t.InMemory (some d) d = true := by simp [InMemory]
  unfold target next
  by_cases up : token = dotdot
  · simp only [if_pos up, loaded, if_true]
    rfl
  · simp only [if_neg up]
    rfl

/-- With memory, the walk returns a null pointer only when it gives up. -/
theorem Holds.walk_null (counted : t₀.Counted) (enough : Enough mem) (here : Holds t₀ t (some d))
    (inode : Option UInt32) (token : CString) (rest : List CString) :
    (∃ t', Tree.walk mem t (some d) inode token rest = some (t', .null)) ↔
      GivesUp mem t₀ (some d) inode token rest := by
  have outcome : Tree.Outcome t₀ (GivesUp mem t₀ (some d) inode token rest) _
      (Tree.walk mem t (some d) inode token rest) := here.walk counted token rest
  constructor
  · rintro ⟨t', run⟩
    rw [run] at outcome
    rcases outcome with ⟨gives, -⟩ | ⟨-, -, lost⟩
    · exact gives
    · rcases lost rfl with none | ⟨more, none⟩
      · cases none
      · rw [enough.dir] at none
        cases none
  · intro gives
    cases run : Tree.walk mem t (some d) inode token rest with
    | none =>
      rw [run] at outcome
      exact absurd gives outcome
    | some result =>
      rw [run] at outcome
      rcases outcome with ⟨-, null, -⟩ | ⟨kept, -⟩
      · exact ⟨result.1, by rw [← null]⟩
      · exact absurd gives kept

/-- The walk resolves the names exactly when they are straight. -/
theorem Holds.resolves (counted : t₀.Counted) (enough : Enough mem) (here : Holds t₀ t (some d))
    (token : CString) (rest : List CString) :
    (∃ t', Tree.walk mem t (some d) (some d) token rest = some (t', t₀.resolve d (token :: rest))) ↔
      Straight mem t₀ d token rest := by
  induction rest generalizing t d token with
  | nil => exact ⟨fun _ => trivial, fun _ => ⟨t, rfl⟩⟩
  | cons following rest ih =>
    rw [resolve_cons, Straight]
    by_cases stays : token = dot
    · subst stays
      rw [walk_dot, if_pos rfl, Tree.move, if_pos rfl]
      constructor
      · rintro ⟨t', run⟩
        exact (Prod.mk.inj (Option.some.inj run)).2.symm
      · intro back
        exact ⟨t, congrArg (fun nid => some (t, nid)) back.symm⟩
    rw [Tree.walk, if_neg stays, if_neg stays, here.component counted, target_dir, Tree.move,
      if_neg stays]
    cases t₀.next d token with
    | none => exact ⟨fun _ => trivial, fun _ => ⟨t, rfl⟩⟩
    | some s =>
      obtain ⟨t', opened⟩ := inodeOpen_memory t s
      simp only [enough.node, opened]
      obtain ⟨dir_eq, moved⟩ := here.enter mem (inodeOpen_opensOne opened) rest.length
      rw [← dir_eq] at moved
      by_cases isdir : (t₀.record s).isdir = true
      · have entered : entered mem t₀ (some d) s rest.length = some s := by
          rw [Tree.entered, if_pos isdir, enough.dir, if_pos rfl]
        rw [dir_eq, entered] at moved ⊢
        simp only [Option.filter_some, isdir, if_true]
        exact ih moved following
      · have entered : entered mem t₀ (some d) s rest.length = some d := by
          rw [Tree.entered, if_neg isdir]
        rw [dir_eq, entered] at moved ⊢
        simp only [Option.filter_some, isdir, Bool.false_eq_true, if_false]
        exact moved.walk_null counted enough (some s) following rest

/-- For a directory of the tree, a component moves as the names say. -/
theorem Inv.move_iff (inv : Inv t) (dir : t.names.Dir d) (name : CString) :
    t.move d name = some s ↔ name = dot ∧ s = d ∨ name = dotdot ∧ s = t.names.parent d ∨
      name ≠ dot ∧ name ≠ dotdot ∧ t.names.binds d name s ∧ t.names.isdir s := by
  have parent := inv.coherent.dir_parent dir.1
  have there : (t.record d).parent ≠ 0 := by
    intro zero
    have map : t.names.Dir 0 := zero ▸ parent
    obtain ⟨above, n, bound⟩ := inv.coherent.named 0 map (by decide)
    exact inv.apart _ n above bound
  unfold Tree.move Tree.next
  by_cases stays : name = dot
  · subst stays
    have ne : dot ≠ dotdot := by decide
    simp [ne, eq_comm]
  by_cases above : name = dotdot
  · subst above
    have isdir : (t.record (t.record d).parent).isdir = true := parent.2
    have ne : dotdot ≠ dot := by decide
    rw [if_neg ne, if_pos rfl, up, if_neg there, Option.filter_some, if_pos isdir,
      Option.some.injEq]
    constructor
    · rintro rfl
      exact .inr (.inl ⟨rfl, rfl⟩)
    · rintro (⟨eq, -⟩ | ⟨-, rfl⟩ | ⟨-, other, -⟩)
      · exact absurd eq ne
      · rfl
      · exact absurd rfl other
  · simp only [stays, above, if_false, false_and, false_or, ne_eq, not_false_eq_true, true_and,
      Option.filter_eq_some_iff]
    refine and_congr_left fun _ => ?_
    rcases (inv.tidy d dir).lookup_eq name with
      ⟨k, e, found, inside, used, named, bytes⟩ | ⟨missing, none⟩
    · have bound : t.names.binds d name (inodeSector e) :=
        ⟨k, inside, used, named, (inodeSector_congr bytes).symm⟩
      simp only [child, found, Option.map_some, Option.some.injEq]
      constructor
      · rintro rfl
        exact bound
      · exact (inv.tidy d dir).functional bound
    · simp only [child, missing, Option.map_none, reduceCtorEq, false_iff]
      rintro ⟨k, inside, used, named, -⟩
      rw [none k inside used] at named
      cases named

end Walk

/-- `true_dir` resolves paths component by component exactly when they have a component and are
straight. -/
theorem path_resolves_iff {t : Tree} (counted : t.Counted) {mem : Memory} (enough : Enough mem)
    (cur : Option UInt32) {path : CString} (nonempty : path.1 ≠ []) :
    Resolves mem t cur path ↔ Plain mem t cur path := by
  have tokens := strtok_eq_components 47 path (Nat.le_refl _)
  obtain ⟨t', opened⟩ := inodeOpen_memory t (startDir cur path)
  have opens := inodeOpen_opensOne opened
  have here : Holds t t' (some (startDir cur path)) :=
    ⟨opens.openCnt, opens.record, opens.bytes, opens.counted counted⟩
  have walked : trueDirAt mem t cur path = match components 47 path.1 with
      | [] => some (t', .nid (some (startDir cur path)) none)
      | token :: rest =>
        walk mem t' (some (startDir cur path)) (some (startDir cur path)) token rest := by
    rw [trueDirAt, if_neg nonempty, ← tokens]
    dsimp only
    rw [opened]
    rfl
  unfold Plain
  cases names : components 47 path.1 with
  | nil =>
    refine ⟨fun resolves => ?_, fun plain => plain.elim⟩
    obtain ⟨t'', created⟩ := resolves.create names 0 false none fun _ => 0
    rw [names] at walked
    rw [filesysCreateAt, walked] at created
    cases created
  | cons token rest =>
    show _ ↔ Straight mem t (startDir cur path) token rest
    rw [← here.resolves counted enough token rest]
    rw [names] at walked
    have none : token :: rest ≠ [] := List.cons_ne_nil token rest
    constructor
    · intro resolves
      have result := resolves.trueDir (names ▸ none)
      rwa [walked, names] at result
    · intro result
      refine ⟨fun _ => ?_, fun empty => ?_, fun empty => ?_⟩
      · rwa [walked, names]
      · exact absurd (names.symm.trans empty) none
      · exact absurd (names.symm.trans empty) none

theorem ample_enough : Enough ample := ⟨fun _ => rfl, fun _ => rfl⟩

/-- `"/a/../a/b"`. -/
theorem path_resolves_up :
    Resolves ample rootWithA none ⟨[47, 97, 47, 46, 46, 47, 97, 47, 98], by decide⟩ :=
  (path_resolves_iff rootWithA_counted ample_enough none (by decide)).mpr trivial

/-- `"/./a/b"` leads to `"."` in the root. -/
theorem dot_ends_path : ¬∀ (mem : Memory) (t : Tree) (cur : Option UInt32) (path : CString),
    t.Counted → Enough mem → path.1 ≠ [] → Resolves mem t cur path := by
  intro claim
  obtain ⟨t', run⟩ := (claim ample rootWithA none ⟨[47, 46, 47, 97, 47, 98], by decide⟩
    rootWithA_counted ample_enough (by decide)).trueDir (by decide)
  have result := congrArg (Option.map Prod.snd) run
  have parts : (NameInDir.nid (some 1) (some dot)) = .nid (some 10) (some ⟨[98], by decide⟩) :=
    Option.some.inj result
  cases parts

end Tree

end Pintos.Filesys
