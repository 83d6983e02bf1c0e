import Pintos.Lib.Transition
import Pintos.Userprog.KernelMap

/-! The page directories of running processes: `load`, `process_activate` and `process_exit` in
`process.c`, and `thread_schedule_tail` in `thread.c`, with a context switch between any two
statements. -/

namespace Pintos.Userprog

open Vm Transition

/-- How far a thread is with its page directory: it has none, it has created it, it runs user code,
or it is in `process_exit` after `cur->pagedir = NULL`, or after `pagedir_activate (NULL)`, with the
local `pd`. -/
inductive Phase
  | bare
  | loading
  | user
  | leaving (pd : Nat)
  | left (pd : Nat)
  | gone
  deriving DecidableEq

structure Task where
  pagedir : Nat
  phase : Phase
  deriving DecidableEq

/-- What the kernel does with the page directory of some thread. -/
inductive DirOp
  | setPage (upage kpage : Nat) (writable : Bool) (page : Option Nat)
  | getPage (uaddr : Nat)
  | clearPage (upage : Nat)
  | isDirty (vpage : Nat)
  | isAccessed (vpage : Nat)
  | setDirty (vpage : Nat) (on : Bool)
  | setAccessed (vpage : Nat) (on : Bool)
  | setWritable (vpage : Nat) (on : Bool)

def DirOp.call (pd : Nat) : DirOp → PageCall
  | .setPage upage kpage writable page => .setPage pd upage kpage writable page
  | .getPage uaddr => .getPage pd uaddr
  | .clearPage upage => .clearPage pd upage
  | .isDirty vpage => .isDirty pd vpage
  | .isAccessed vpage => .isAccessed pd vpage
  | .setDirty vpage on => .setDirty pd vpage on
  | .setAccessed vpage on => .setAccessed pd vpage on
  | .setWritable vpage on => .setWritable pd vpage on

inductive ProcessStep
  | create (page : Option Nat)
  | activate
  | onDir (thread : Nat) (op : DirOp)
  | getFrame (page : Option Nat) (zero : Bool)
  | freeFrame (page : Nat)
  | access (user : Bool) (write : Option Word) (vaddr : Nat)
  | forget (vaddr : Nat)
  | exitClear
  | exitActivate
  | exitDestroy
  | switch (next : Nat)

/-- The threads and the one that runs, by `tid`. -/
structure Processes where
  mmu : Mmu
  task : Nat → Task
  current : Nat

namespace Processes

variable (fmt : PageFormat)

def phase (s : Processes) : Phase := (s.task s.current).phase

def setTask (s : Processes) (task : Task) : Processes :=
  { s with task := Function.update s.task s.current task }

def call (s : Processes) (c : PageCall) : Option Processes :=
  (s.mmu.call fmt c).map fun r => { s with mmu := r.1 }

/-- A step of the running thread, which has no result where it cannot be the next one. -/
def step (s : Processes) : ProcessStep → Option Processes
  | .create page =>
    if s.phase = .bare then
      let (mmu, pd) := s.mmu.pagedirCreate page
      some ({ s with mmu := mmu }.setTask ⟨pd, if pd = 0 then .bare else .loading⟩)
    else none
  | .activate =>
    if s.phase = .loading then
      let pd := (s.task s.current).pagedir
      some ({ s with mmu := s.mmu.pagedirActivate pd }.setTask ⟨pd, .user⟩)
    else none
  | .onDir thread op => s.call fmt (op.call (s.task thread).pagedir)
  | .getFrame page zero => s.call fmt (.getFrame page zero)
  | .freeFrame page => s.call fmt (.freeFrame page)
  | .access user write vaddr =>
    if user = true → s.phase = .user then s.call fmt (.access user write vaddr) else none
  | .forget vaddr => s.call fmt (.forget vaddr)
  | .exitClear =>
    match s.phase with
    | .bare => some (s.setTask ⟨0, .gone⟩)
    | .user => some (s.setTask ⟨0, .leaving (s.task s.current).pagedir⟩)
    | _ => none
  | .exitActivate =>
    match s.phase with
    | .leaving pd => some ({ s with mmu := s.mmu.pagedirActivate 0 }.setTask ⟨0, .left pd⟩)
    | _ => none
  | .exitDestroy =>
    match s.phase with
    | .left pd => (s.mmu.pagedirDestroy fmt pd).map fun mmu =>
      { s with mmu := mmu }.setTask ⟨0, .gone⟩
    | _ => none
  | .switch next =>
    if (s.task next).phase = .gone then none
    else some { s with mmu := s.mmu.pagedirActivate (s.task next).pagedir, current := next }

/-- The step is one that the running thread can be at, and its call is made as it may be.  Of the
page directory it is only asked that the thread still has it. -/
def Ok (s : Processes) : ProcessStep → Prop
  | .create page => s.phase = .bare ∧ s.mmu.Fresh fmt page
  | .activate => s.phase = .loading
  | .onDir thread op => (s.task thread).pagedir ≠ 0 ∧
      (s.mmu.dirs (s.task thread).pagedir = true →
        s.mmu.Careful fmt (op.call (s.task thread).pagedir))
  | .getFrame page zero => s.mmu.Careful fmt (.getFrame page zero)
  | .freeFrame page => s.mmu.Careful fmt (.freeFrame page)
  | .access user write vaddr => (user = true → s.phase = .user) ∧
      s.mmu.Careful fmt (.access user write vaddr)
  | .forget _ => True
  | .exitClear => s.phase = .bare ∨ s.phase = .user
  | .exitActivate => ∃ pd, s.phase = .leaving pd
  | .exitDestroy => ∃ pd, s.phase = .left pd ∧ Mmu.Freeable fmt s.mmu pd
  | .switch next => (s.task next).phase ≠ .gone

end Processes

/-- The page directory that a thread has, also while it only is in the local `pd`. -/
def Task.dir (task : Task) : Option Nat :=
  match task.phase with
  | .bare | .gone => none
  | .loading | .user => some task.pagedir
  | .leaving pd | .left pd => some pd

/-- `thread->pagedir` is set from `pagedir_create` to `cur->pagedir = NULL`. -/
def Task.Fits (task : Task) : Prop :=
  match task.phase with
  | .loading | .user => task.pagedir ≠ 0
  | .bare | .gone | .leaving _ | .left _ => task.pagedir = 0

/-- What page directory is active while the thread runs. -/
def Task.Active (task : Task) (active : Nat) : Prop :=
  match task.phase with
  | .bare | .gone | .left _ => active = 0
  | .loading => active = 0 ∨ active = task.pagedir
  | .user => active = task.pagedir
  | .leaving pd => active = 0 ∨ active = pd

namespace Processes

variable {fmt : PageFormat} {s : Processes}

/-- Each thread has a page directory of its own, and the active one is not another thread's. -/
structure Inv (fmt : PageFormat) (s : Processes) (t : Spaces) : Prop where
  serves : Mmu.Serves fmt s.mmu t
  fits : ∀ tid, (s.task tid).Fits
  live : ∀ tid, ∀ d ∈ (s.task tid).dir, (t.space d).isSome = true
  apart : ∀ tid tid', ∀ d ∈ (s.task tid).dir, d ∈ (s.task tid').dir → tid = tid'
  active : (s.task s.current).Active t.active

/-- The page directories are the same ones. -/
structure SameDirs (t t' : Spaces) : Prop where
  space : ∀ d, (t'.space d).isSome = (t.space d).isSome
  active : t'.active = t.active

theorem SameDirs.setBit {t t' : Spaces} {b : Bit} {pd u : Nat} {on : Bool}
    (set : t.SetBit fmt b pd u on t') : SameDirs t t' := by
  rcases set with ⟨-, rfl⟩ | rfl
  · exact ⟨fun _ => rfl, rfl⟩
  · exact ⟨setEntry_isSome _, setEntry_active _⟩

theorem SameDirs.accessed {t t' : Spaces} {user : Bool} {write r : Option Word} {vaddr : Nat}
    (accessed : t.Accessed fmt user write vaddr r t') : SameDirs t t' := by
  cases r with
  | none =>
    obtain ⟨rfl, -⟩ := accessed
    exact ⟨fun _ => rfl, rfl⟩
  | some w =>
    obtain ⟨-, -, rfl⟩ := accessed
    cases write with
    | none => exact ⟨setEntry_isSome _, setEntry_active _⟩
    | some w => exact ⟨setEntry_isSome _, setEntry_active _⟩

theorem SameDirs.onDir {t t' : Spaces} {op : DirOp} {pd : Nat} {answer : PageAnswer}
    (admitted : t.Admits fmt (op.call pd) answer t') : SameDirs t t' := by
  have same : ∀ t' : Spaces, t' = t → SameDirs t t' := by
    rintro _ rfl
    exact ⟨fun _ => rfl, rfl⟩
  cases op with
  | setPage upage kpage writable page =>
    cases answer <;> try exact admitted.elim
    obtain ⟨-, ⟨-, -, eq⟩ | ⟨-, rfl⟩⟩ := admitted
    · exact same _ eq
    · exact ⟨setEntry_isSome _, setEntry_active _⟩
  | getPage uaddr => cases answer <;> first | exact same _ admitted.1 | exact admitted.elim
  | clearPage upage =>
    cases answer <;> try exact admitted.elim
    obtain rfl : t' = t.setEntry fmt pd upage _ := admitted
    exact ⟨setEntry_isSome _, setEntry_active _⟩
  | isDirty vpage => cases answer <;> first | exact same _ admitted.1 | exact admitted.elim
  | isAccessed vpage => cases answer <;> first | exact same _ admitted.1 | exact admitted.elim
  | setDirty vpage on => cases answer <;> first | exact .setBit admitted | exact admitted.elim
  | setAccessed vpage on => cases answer <;> first | exact .setBit admitted | exact admitted.elim
  | setWritable vpage on => cases answer <;> first | exact .setBit admitted | exact admitted.elim

section Steps

variable {t : Spaces}

/-- A call that leaves the page directories as they are. -/
theorem Inv.call (inv : Inv fmt s t) (law : fmt.Lawful) {c : PageCall}
    (ok : s.mmu.Careful fmt c)
    (same : ∀ answer t', t.Admits fmt c answer t' → SameDirs t t') :
    ∃ s' t', s.call fmt c = some s' ∧ Inv fmt s' t' := by
  obtain ⟨mmu, answer, t', run, admitted, serves⟩ := inv.serves.call law ok
  have dirs := same answer t' admitted
  refine ⟨{ s with mmu := mmu }, t', by rw [Processes.call, run, Option.map_some], serves, inv.fits,
    fun tid d has => (dirs.space d).trans (inv.live tid d has), inv.apart, ?_⟩
  rw [dirs.active]
  exact inv.active

/-- The running thread is at another statement. -/
theorem Inv.setTask (inv : Inv fmt s t) {mmu : Mmu} {t' : Spaces} {task : Task}
    (serves : Mmu.Serves fmt mmu t') (fits : task.Fits)
    (dir : ∀ d ∈ task.dir, (t'.space d).isSome = true ∧
      ∀ tid, d ∈ (s.task tid).dir → tid = s.current)
    (others : ∀ tid, tid ≠ s.current → ∀ d ∈ (s.task tid).dir, (t'.space d).isSome = true)
    (active : task.Active t'.active) : Inv fmt ({ s with mmu := mmu }.setTask task) t' := by
  have here : ({ s with mmu := mmu }.setTask task).task s.current = task :=
    Function.update_self ..
  have there : ∀ tid, tid ≠ s.current →
      ({ s with mmu := mmu }.setTask task).task tid = s.task tid :=
    fun tid ne => Function.update_of_ne ne _ _
  refine ⟨serves, fun tid => ?_, fun tid d has => ?_, fun tid tid' d has has' => ?_, ?_⟩
  · by_cases eq : tid = s.current
    · rw [eq, here]
      exact fits
    · rw [there tid eq]
      exact inv.fits tid
  · by_cases eq : tid = s.current
    · rw [eq, here] at has
      exact (dir d has).1
    · rw [there tid eq] at has
      exact others tid eq d has
  · by_cases eq : tid = s.current <;> by_cases eq' : tid' = s.current
    · rw [eq, eq']
    · rw [eq, here] at has
      rw [there tid' eq'] at has'
      exact absurd ((dir d has).2 tid' has') eq'
    · rw [there tid eq] at has
      rw [eq', here] at has'
      exact absurd ((dir d has').2 tid has) eq
    · rw [there tid eq] at has
      rw [there tid' eq'] at has'
      exact inv.apart tid tid' d has has'
  · show (({ s with mmu := mmu }.setTask task).task s.current).Active t'.active
    rw [here]
    exact active

theorem Inv.live_pagedir (inv : Inv fmt s t) {tid : Nat} (set : (s.task tid).pagedir ≠ 0) :
    (s.task tid).pagedir ∈ (s.task tid).dir := by
  have fits := inv.fits tid
  unfold Task.Fits at fits
  unfold Task.dir
  cases phase : (s.task tid).phase <;> simp only [phase] at fits ⊢ <;>
    first | rfl | exact absurd fits set

theorem Inv.step (inv : Inv fmt s t) (law : fmt.Lawful) {op : ProcessStep} (ok : Ok fmt s op) :
    ∃ s' t', step fmt s op = some s' ∧ Inv fmt s' t' := by
  have mine : (s.task s.current).phase = s.phase := rfl
  have own : ∀ d ∈ (s.task s.current).dir, ∀ tid, d ∈ (s.task tid).dir → tid = s.current :=
    fun d has tid has' => inv.apart tid s.current d has' has
  have fits := inv.fits s.current
  have active := inv.active
  unfold Task.Fits at fits
  unfold Task.Active at active
  rw [mine] at fits active
  cases op with
  | create page =>
    obtain ⟨bare, fresh⟩ := ok
    rw [bare] at active
    obtain ⟨mmu, answer, t', run, admitted, serves⟩ := inv.serves.create fresh
    obtain ⟨rfl, rfl⟩ := Prod.mk.inj (Option.some.inj run)
    rw [Processes.step, if_pos bare]
    refine ⟨_, t', rfl, ?_⟩
    cases page with
    | none =>
      obtain ⟨zero, rfl⟩ := admitted
      exact inv.setTask serves rfl (fun d has => by cases has) (fun tid _ => inv.live tid) active
    | some p =>
      obtain ⟨-, ne, none, rfl⟩ := admitted
      simp only [if_neg ne]
      refine inv.setTask serves ne (fun d has => ?_) (fun tid _ d has => ?_) (.inl active)
      · obtain rfl := Option.some.inj has
        refine ⟨by simp, fun tid has' => ?_⟩
        have live := inv.live tid p has'
        rw [none] at live
        cases live
      · have ne' : d ≠ p := by
          rintro rfl
          have live := inv.live tid d has
          rw [none] at live
          cases live
        simpa [ne'] using inv.live tid d has
  | activate =>
    have loading : s.phase = .loading := ok
    rw [loading] at fits active
    have has : (s.task s.current).pagedir ∈ (s.task s.current).dir := inv.live_pagedir fits
    have live : s.mmu.dirs (s.task s.current).pagedir = true :=
      (inv.serves.shows_.live _).symm.trans (inv.live _ _ has)
    obtain ⟨mmu, answer, t', run, admitted, serves⟩ := inv.serves.activate (.inr live)
    obtain ⟨rfl, rfl⟩ := Prod.mk.inj (Option.some.inj run)
    obtain rfl : t' = { t with active := (s.task s.current).pagedir } := admitted
    rw [Processes.step, if_pos loading]
    refine ⟨_, _, rfl, inv.setTask serves fits (fun d here => ?_) (fun tid _ => inv.live tid) rfl⟩
    obtain rfl := Option.some.inj here
    exact ⟨inv.live _ _ has, own _ has⟩
  | onDir thread op =>
    obtain ⟨set, careful⟩ := ok
    have live : s.mmu.dirs (s.task thread).pagedir = true :=
      (inv.serves.shows_.live _).symm.trans (inv.live _ _ (inv.live_pagedir set))
    exact inv.call law (careful live) fun _ _ => .onDir
  | getFrame page zero =>
    refine inv.call law ok fun answer t' admitted => ?_
    cases answer <;> try exact admitted.elim
    obtain ⟨-, rest⟩ := admitted
    cases page with
    | none =>
      obtain rfl := rest
      exact ⟨fun _ => rfl, rfl⟩
    | some p =>
      obtain ⟨-, rfl⟩ := rest
      exact ⟨fun _ => rfl, rfl⟩
  | freeFrame page =>
    refine inv.call law ok fun answer t' admitted => ?_
    cases answer <;> try exact admitted.elim
    obtain ⟨-, space, -, -, active, -⟩ := admitted
    exact ⟨fun d => by rw [space], active⟩
  | access user write vaddr =>
    rw [Processes.step, if_pos ok.1]
    refine inv.call law ok.2 fun answer t' admitted => ?_
    cases answer <;> first | exact .accessed admitted | exact admitted.elim
  | forget vaddr =>
    refine inv.call law trivial fun answer t' admitted => ?_
    cases answer <;> try exact admitted.elim
    obtain rfl : t' = t := admitted
    exact ⟨fun _ => rfl, rfl⟩
  | exitClear =>
    rcases ok with bare | user
    · rw [bare] at active
      rw [Processes.step, bare]
      exact ⟨_, t, rfl, inv.setTask inv.serves rfl (fun d has => by cases has)
        (fun tid _ => inv.live tid) active⟩
    · rw [user] at fits active
      have has := inv.live_pagedir fits
      rw [Processes.step, user]
      refine ⟨_, t, rfl, inv.setTask inv.serves rfl (fun d here => ?_) (fun tid _ => inv.live tid)
        (.inr active)⟩
      obtain rfl := Option.some.inj here
      exact ⟨inv.live _ _ has, own _ has⟩
  | exitActivate =>
    obtain ⟨pd, leaving⟩ := ok
    have has : pd ∈ (s.task s.current).dir := by
      unfold Task.dir
      rw [mine, leaving]
      rfl
    obtain ⟨mmu, answer, t', run, admitted, serves⟩ := inv.serves.activate (.inl rfl)
    obtain ⟨rfl, rfl⟩ := Prod.mk.inj (Option.some.inj run)
    obtain rfl : t' = { t with active := 0 } := admitted
    rw [Processes.step, leaving]
    refine ⟨_, _, rfl, inv.setTask serves rfl (fun d here => ?_) (fun tid _ => inv.live tid) rfl⟩
    obtain rfl := Option.some.inj here
    exact ⟨inv.live _ _ has, own _ has⟩
  | exitDestroy =>
    obtain ⟨pd, left, freeable⟩ := ok
    rw [left] at active
    have has : pd ∈ (s.task s.current).dir := by
      unfold Task.dir
      rw [mine, left]
      rfl
    have live : s.mmu.dirs pd = true :=
      (inv.serves.shows_.live _).symm.trans (inv.live _ _ has)
    have ne : pd ≠ 0 := by
      obtain ⟨owner, owned⟩ := inv.serves.shows_.owned
      exact owned.root_ne (.inr live)
    -- The base page directory is active, whatever ran since `pagedir_activate (NULL)`.
    have idle : s.mmu.cr3 ≠ pd := fun is =>
      ne (((inv.serves.shows_.active_iff live).mpr is).symm.trans active)
    obtain ⟨mmu, answer, t', run, admitted, serves⟩ :=
      inv.serves.destroy law (.inr ⟨live, idle, freeable⟩)
    obtain ⟨mmu', destroyed, made⟩ := Option.map_eq_some_iff.mp run
    obtain ⟨rfl, rfl⟩ := Prod.mk.inj made
    rw [Processes.step, left]
    refine ⟨{ s with mmu := mmu' }.setTask ⟨0, .gone⟩, t', ?_, ?_⟩
    · simp only [destroyed, Option.map_some]
    obtain ⟨zero, -⟩ | ⟨space, -, gone, -, -, still, -⟩ := admitted
    · exact absurd zero ne
    refine inv.setTask serves rfl (fun d has => by cases has) (fun tid other d has' => ?_)
      (still.trans active)
    have ne' : d ≠ pd := by
      rintro rfl
      exact other (own d has tid has')
    rw [gone, Function.update_of_ne ne']
    exact inv.live tid d has'
  | switch next =>
    have alive : (s.task next).phase ≠ .gone := ok
    have may : (s.task next).pagedir = 0 ∨ s.mmu.dirs (s.task next).pagedir = true := by
      by_cases set : (s.task next).pagedir = 0
      · exact .inl set
      · exact .inr ((inv.serves.shows_.live _).symm.trans
          (inv.live _ _ (inv.live_pagedir set)))
    obtain ⟨mmu, answer, t', run, admitted, serves⟩ := inv.serves.activate may
    obtain ⟨rfl, rfl⟩ := Prod.mk.inj (Option.some.inj run)
    obtain rfl : t' = { t with active := (s.task next).pagedir } := admitted
    rw [Processes.step, if_neg alive]
    refine ⟨_, _, rfl, serves, inv.fits, inv.live, inv.apart, ?_⟩
    have fits := inv.fits next
    unfold Task.Fits at fits
    show (s.task next).Active (s.task next).pagedir
    unfold Task.Active
    split at fits <;> simp_all

end Steps

/-- Before any thread has a page directory. -/
def boot (mmu : Mmu) : Processes := ⟨mmu, fun _ => ⟨0, .bare⟩, 0⟩

theorem Inv.boot {m b : Mmu} (law : fmt.Lawful) {start endText : Nat} {pages : List Nat}
    (alone : ∀ d, m.dirs d = false) (supply : Mmu.Supply fmt m pages)
    (run : m.pagingInit fmt start endText pages = some b) :
    Inv fmt (Processes.boot b) (.boot fmt (fun v => start ≤ v && v < endText) b) where
  serves := pagingInit_serves law alone supply run
  fits _ := rfl
  live _ d has := by cases has
  apart _ _ d has := by cases has
  active := rfl

/-- The active page directory is in use, and a thread runs user code on its own. -/
structure Safe (s : Processes) : Prop where
  inUse : s.mmu.used s.mmu.cr3 = true
  root : s.mmu.Root s.mmu.cr3
  own : s.phase = .user → s.mmu.cr3 = (s.task s.current).pagedir ∧
    ∀ tid, s.mmu.cr3 ∈ (s.task tid).dir → tid = s.current

theorem Inv.safe {t : Spaces} (inv : Inv fmt s t) : s.Safe := by
  obtain ⟨owner, owned⟩ := inv.serves.shows_.owned
  refine ⟨?_, owned.active, fun user => ?_⟩
  · rcases owned.root_owner owned.active with own | own <;> exact (owned.inUse _ _ own).1
  · have fits := inv.fits s.current
    have active := inv.active
    have user : (s.task s.current).phase = .user := user
    rw [Task.Fits, user] at fits
    rw [Task.Active, user] at active
    have has := inv.live_pagedir fits
    have live : s.mmu.dirs (s.task s.current).pagedir = true :=
      (inv.serves.shows_.live _).symm.trans (inv.live _ _ has)
    have is := (inv.serves.shows_.active_iff live).mp active
    rw [is]
    exact ⟨rfl, fun tid has' => inv.apart tid s.current _ has' has⟩

instance (s : Processes) : (op : ProcessStep) → Decidable (s.Ok fmt op)
  | .create _ => inferInstanceAs (Decidable (_ ∧ _))
  | .activate => inferInstanceAs (Decidable (_ = _))
  | .onDir .. => inferInstanceAs (Decidable (_ ∧ (_ → _)))
  | .getFrame page zero => inferInstanceAs (Decidable (s.mmu.Careful fmt (.getFrame page zero)))
  | .freeFrame page => inferInstanceAs (Decidable (s.mmu.Careful fmt (.freeFrame page)))
  | .access .. => inferInstanceAs (Decidable ((_ → _) ∧ _))
  | .forget _ => inferInstanceAs (Decidable True)
  | .exitClear => inferInstanceAs (Decidable (_ ∨ _))
  | .exitActivate => decidable_of_iff
      ((match s.phase with | .leaving _ => true | _ => false) = true)
      (by
        refine ⟨fun h => ?_, ?_⟩
        · split at h
          next pd is => exact ⟨pd, is⟩
          next => cases h
        · rintro ⟨pd, is⟩
          rw [is])
  | .exitDestroy => decidable_of_iff
      ((match s.phase with | .left pd => decide (Mmu.Freeable fmt s.mmu pd) | _ => false) = true)
      (by
        refine ⟨fun h => ?_, ?_⟩
        · split at h
          next pd is => exact ⟨pd, is, of_decide_eq_true h⟩
          next => cases h
        · rintro ⟨pd, is, freeable⟩
          rw [is]
          exact decide_eq_true freeable)
  | .switch _ => inferInstanceAs (Decidable (_ ≠ _))

/-- Two processes; the second one runs between the statements of the first one's exit. -/
def exitRun : List ProcessStep :=
  let code := 0x08048000
  [.create (some (pageAt 3)), .activate, .getFrame (some (pageAt 50)) true,
    .onDir 0 (.setPage code (pageAt 50) true (some (pageAt 4))), .access true (some 5) code,
    .switch 1, .create (some (pageAt 5)), .switch 0, .exitClear, .switch 1, .activate,
    .getFrame (some (pageAt 51)) true, .onDir 1 (.setPage code (pageAt 51) true (some (pageAt 6))),
    .access true (some 6) code, .switch 0, .exitActivate, .switch 1, .access true none code,
    .switch 0, .exitDestroy, .switch 1, .access true (some 7) code]

end Processes

end Pintos.Userprog
