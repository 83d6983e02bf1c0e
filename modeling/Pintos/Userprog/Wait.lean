import Pintos.Userprog.Process

/-! The wait protocol of a parent that stays alive: what `process_wait` returns, whichever of parent
and child comes first. -/

namespace Pintos.Userprog

open Transition

/-- The call of `process_wait` has not taken the record of the child out of the list yet. -/
def ParentPc.pending : ParentPc → Option Tid
  | .getChild t | .testChild t _ | .setProcessWait t | .waitReturn t | .testExit t | .setStatus t
  | .getStatus t | .removeChild t _ => some t
  | _ => none

/-- The child of the call of `process_wait` that the parent is in. -/
def ParentPc.call : ParentPc → Option Tid
  | .freeChild t _ | .returned t _ => some t
  | pc => pc.pending

/-- The statements left to the end of the call. -/
def ParentPc.rank : ParentPc → Nat
  | .getChild _ => 9
  | .testChild _ _ => 8
  | .setProcessWait _ => 7
  | .waitReturn _ => 6
  | .testExit _ => 5
  | .setStatus _ => 4
  | .getStatus _ => 3
  | .removeChild _ _ => 2
  | .freeChild _ _ => 1
  | _ => 0

/-- The record says how the child ended. -/
def Told (cause : Option Cause) (r : ChildProcess) : Prop :=
  (∃ status, cause = some (.exited status) ∧ r.exit = true ∧ r.status = status) ∨
    (cause = some .killed ∧ r.exit = false)

/-- The record of a child agrees with where the child is; `downed` says whether the parent has been
through its semaphore. -/
def ChildOk (cause : Option Cause) (r : ChildProcess) (downed : Bool) : ChildPc → Prop
  | .unborn => downed = false
  | .running => r.exit = false ∧ r.waitBarrier = 0 ∧ downed = false
  | .testParent status | .setStatus status =>
    cause = some (.exited status) ∧ r.exit = false ∧ r.waitBarrier = 0 ∧ downed = false
  | .setExit status =>
    cause = some (.exited status) ∧ r.status = status ∧ r.waitBarrier = 0 ∧ downed = false
  | .semaUp => Told cause r ∧ r.waitBarrier = 0 ∧ downed = false
  | .testFiles | .popFile | .done => Told cause r ∧ r.waitBarrier = if downed then 0 else 1

theorem ChildOk.raised {cause : Option Cause} {r : ChildProcess} {pc : ChildPc}
    (h : ChildOk cause r true pc) : pc.Raised ∧ Told cause r := by
  cases pc <;> simp_all [ChildOk, ChildPc.Raised]

theorem ChildOk.of_barrier {cause : Option Cause} {r : ChildProcess} {pc : ChildPc} {downed : Bool}
    (h : ChildOk cause r downed pc) (raised : r.waitBarrier ≠ 0) (born : pc ≠ .unborn) :
    pc.Raised ∧ Told cause r ∧ r.waitBarrier = 1 := by
  cases pc <;> cases downed <;> simp_all [ChildOk, ChildPc.Raised]

theorem ChildOk.barrier {cause : Option Cause} {r : ChildProcess} {pc : ChildPc}
    (h : ChildOk cause r false pc) (raised : pc.Raised) : r.waitBarrier = 1 := by
  cases pc with
  | testFiles | popFile | done => exact h.2
  | unborn | running | testParent | setStatus | setExit | semaUp => cases raised

theorem ChildOk.mark {cause : Option Cause} {r : ChildProcess} {pc : ChildPc} {downed : Bool}
    (h : ChildOk cause r downed pc) : ChildOk cause { r with processWait := true } downed pc := by
  cases pc <;> exact h

/-- The parent goes through the semaphore. -/
theorem ChildOk.down {cause : Option Cause} {r : ChildProcess} {pc : ChildPc} {downed : Bool}
    (h : ChildOk cause r downed pc) (raised : r.waitBarrier ≠ 0) (born : pc ≠ .unborn) :
    ChildOk cause { r with waitBarrier := r.waitBarrier - 1 } true pc := by
  obtain ⟨past, told, one⟩ := h.of_barrier raised born
  cases pc with
  | testFiles | popFile | done => exact ⟨told, by simp [one]⟩
  | unborn | running | testParent | setStatus | setExit | semaUp => cases past

/-- Past the semaphore, no `exit` means that the child was killed. -/
theorem ChildOk.unset {cause : Option Cause} {r : ChildProcess} {pc : ChildPc}
    (h : ChildOk cause r true pc) (none : r.exit = false) :
    ChildOk cause { r with status := -1 } true pc := by
  have told : Told cause { r with status := -1 } := by
    rcases h.raised.2 with ⟨_, _, exit, _⟩ | killed
    · rw [none] at exit
      cases exit
    · exact Or.inr killed
  cases pc with
  | testFiles | popFile | done => exact ⟨told, h.2⟩
  | unborn | running | testParent | setStatus | setExit | semaUp => cases h.raised.1

/-- The status that the parent reads is the one to return. -/
theorem Told.value {cause : Option Cause} {r : ChildProcess} (h : Told cause r)
    (unset : r.exit = false → r.status = -1) : ∃ c, cause = some c ∧ r.status = c.value := by
  rcases h with ⟨status, is, _, eq⟩ | ⟨is, none⟩
  · exact ⟨.exited status, is, eq⟩
  · exact ⟨.killed, is, unset none⟩

theorem ChildPc.Raised.inProcessExit {pc : ChildPc} (h : pc.Raised) : pc.InProcessExit := by
  cases pc <;> first | exact h | trivial

namespace Procs

/-- The status to return for a child. -/
def Returns (s : Procs) (t : Tid) (status : Int) : Prop :=
  ∃ cause, s.cause t = some cause ∧ status = cause.value

/-- A first wait for a child, before or after its semaphore. -/
def FirstWait (s : Procs) (t : Tid) (downed : Bool) : Prop :=
  s.downed t = downed ∧ s.fresh = true ∧ s.created t = true ∧ s.waited t = true

def ParentOk (s : Procs) : ParentPc → Prop
  | .idle => True
  | .getChild t =>
    (s.fresh = true → s.FirstWait t false ∧ t ∈ s.children ∧ (s.record t).processWait = false) ∧
    (s.fresh = false → t ∉ s.children)
  | .testChild t found =>
    found = s.fresh ∧
    (s.fresh = true → s.FirstWait t false ∧ t ∈ s.children ∧ (s.record t).processWait = false)
  | .setProcessWait t | .waitReturn t => s.FirstWait t false ∧ t ∈ s.children
  | .testExit t => s.FirstWait t true ∧ t ∈ s.children
  | .setStatus t => s.FirstWait t true ∧ t ∈ s.children ∧ (s.record t).exit = false
  | .getStatus t => s.FirstWait t true ∧ t ∈ s.children ∧
    ((s.record t).exit = false → (s.record t).status = -1)
  | .removeChild t status | .freeChild t status => s.FirstWait t true ∧ s.Returns t status
  | .returned t status =>
    (s.fresh = true → s.FirstWait t true ∧ s.Returns t status) ∧ (s.fresh = false → status = -1)
  | .popChildren | .freePopped _ | .leaving | .gone => False

structure WaitInv (s : Procs) : Prop where
  child : ∀ t, ChildOk (s.cause t) (s.record t) (s.downed t) (s.childPc t)
  born : ∀ t, s.created t = true ↔ s.childPc t ≠ .unborn
  known : ∀ t, s.waited t = true → s.created t = true
  nodup : s.children.Nodup
  unwaited : ∀ t, s.created t = true → s.waited t = false →
    t ∈ s.children ∧ (s.record t).processWait = false ∧ s.downed t = false
  settled : ∀ t ∈ s.children, s.created t = true ∧
    (s.waited t = true → s.fresh = true ∧ s.parentPc.pending = some t)
  parent : s.ParentOk s.parentPc

variable {s s' : Procs} {t : Tid}

/-- A child takes a step that keeps what its record says once the parent is past the semaphore. -/
theorem WaitInv.move_child (h : WaitInv s) {pc : ChildPc} {cause : Option Cause}
    {r : ChildProcess} {flag : Bool} (created : s.created t = true) (born : pc ≠ .unborn)
    (ok : ChildOk cause r (s.downed t) pc) (mark : r.processWait = (s.record t).processWait)
    (late : s.downed t = true →
      r.exit = (s.record t).exit ∧ r.status = (s.record t).status ∧ cause = s.cause t) :
    WaitInv { s with
      childPc := Function.update s.childPc t pc
      record := Function.update s.record t r
      cause := Function.update s.cause t cause
      useAfterFree := flag } := by
  have marks : ∀ u, (Function.update s.record t r u).processWait = (s.record u).processWait := by
    intro u
    by_cases eq : u = t
    · rw [eq, Function.update_self, mark]
    · rw [Function.update_of_ne eq]
  have kept : ∀ u, s.downed u = true → (Function.update s.record t r u).exit = (s.record u).exit ∧
      (Function.update s.record t r u).status = (s.record u).status ∧
      Function.update s.cause t cause u = s.cause u := by
    intro u down
    by_cases eq : u = t
    · subst eq
      rw [Function.update_self, Function.update_self]
      exact late down
    · rw [Function.update_of_ne eq, Function.update_of_ne eq]
      exact ⟨rfl, rfl, rfl⟩
  refine ⟨fun u => ?_, fun u => ?_, h.known, h.nodup, fun u born waited => ?_, h.settled, ?_⟩
  · by_cases eq : u = t
    · subst eq
      simpa only [Function.update_self] using ok
    · simpa only [Function.update_of_ne eq] using h.child u
  · by_cases eq : u = t
    · subst eq
      simpa only [Function.update_self] using iff_of_true created born
    · simpa only [Function.update_of_ne eq] using h.born u
  · obtain ⟨listed, mark, down⟩ := h.unwaited u born waited
    exact ⟨listed, (marks u).trans mark, down⟩
  · have parent := h.parent
    show ParentOk _ s.parentPc
    cases place : s.parentPc with
    | idle | setProcessWait u | waitReturn u | testExit u | popChildren | freePopped u | leaving
    | gone =>
      rw [place] at parent
      exact parent
    | getChild u | testChild u found =>
      rw [place] at parent
      simpa only [ParentOk, FirstWait, marks] using parent
    | setStatus u =>
      rw [place] at parent
      obtain ⟨first, listed, exit⟩ := parent
      exact ⟨first, listed, (kept u first.1).1.trans exit⟩
    | getStatus u =>
      rw [place] at parent
      obtain ⟨first, listed, status⟩ := parent
      obtain ⟨exit, same, _⟩ := kept u first.1
      exact ⟨first, listed, fun none => same.trans (status (exit.symm.trans none))⟩
    | removeChild u status | freeChild u status =>
      rw [place] at parent
      obtain ⟨first, cause, is, value⟩ := parent
      exact ⟨first, cause, (kept u first.1).2.2.trans is, value⟩
    | returned u status =>
      rw [place] at parent
      refine ⟨fun fresh => ?_, parent.2⟩
      obtain ⟨first, cause, is, value⟩ := parent.1 fresh
      exact ⟨first, cause, (kept u first.1).2.2.trans is, value⟩

/-- A child takes a step with an access to its record. -/
theorem WaitInv.access_move (h : WaitInv s) {pc : ChildPc} (f : ChildProcess → ChildProcess)
    (created : s.created t = true) (born : pc ≠ .unborn)
    (ok : ChildOk (s.cause t) (f (s.record t)) (s.downed t) pc)
    (mark : (f (s.record t)).processWait = (s.record t).processWait)
    (late : s.downed t = true →
      (f (s.record t)).exit = (s.record t).exit ∧ (f (s.record t)).status = (s.record t).status) :
    WaitInv ((s.access t f).move t pc) := by
  have same : Function.update s.cause t (s.cause t) = s.cause := Function.update_eq_self t s.cause
  have moved : WaitInv { s with
      childPc := Function.update s.childPc t pc
      record := Function.update s.record t (f (s.record t))
      cause := Function.update s.cause t (s.cause t)
      useAfterFree := s.useAfterFree || s.freed t } :=
    h.move_child created born ok mark fun down => ⟨(late down).1, (late down).2, rfl⟩
  rw [same] at moved
  exact moved

/-- A child takes a step that leaves its record alone. -/
theorem WaitInv.move (h : WaitInv s) {pc : ChildPc} {cause : Option Cause}
    (created : s.created t = true) (born : pc ≠ .unborn)
    (ok : ChildOk cause (s.record t) (s.downed t) pc) (early : s.downed t = false) :
    WaitInv ({ s with cause := Function.update s.cause t cause }.move t pc) := by
  have same : Function.update s.record t (s.record t) = s.record :=
    Function.update_eq_self t s.record
  have moved : WaitInv { s with
      childPc := Function.update s.childPc t pc
      record := Function.update s.record t (s.record t)
      cause := Function.update s.cause t cause
      useAfterFree := s.useAfterFree } := by
    refine h.move_child created born ok rfl fun down => ?_
    rw [early] at down
    cases down
  rw [same] at moved
  exact moved

theorem WaitInv.childStep (h : WaitInv s) (hstep : s.childStep t = some s') : WaitInv s' := by
  have ok := h.child t
  have created : s.childPc t ≠ .unborn → s.created t = true := (h.born t).mpr
  unfold Procs.childStep at hstep
  split at hstep
  next status pc =>
    obtain rfl := Option.some.inj hstep
    have alive : s.parentPc ≠ .gone := by
      intro gone
      have parent := h.parent
      rw [gone] at parent
      exact parent
    have keep : Function.update s.cause t (s.cause t) = s.cause :=
      Function.update_eq_self t s.cause
    rw [pc] at ok
    have moved : WaitInv ({ s with
        cause := Function.update s.cause t (s.cause t) }.move t (.setStatus status)) :=
      h.move (created (by simp [pc])) (by simp) ok ok.2.2.2
    rw [keep] at moved
    rw [if_neg alive]
    exact moved
  next status pc =>
    obtain rfl := Option.some.inj hstep
    rw [pc] at ok
    obtain ⟨cause, exit, barrier, early⟩ := ok
    refine h.access_move _ (created (by simp [pc])) (by simp) ⟨cause, rfl, barrier, early⟩ rfl ?_
    intro down
    rw [early] at down
    cases down
  next status pc =>
    obtain rfl := Option.some.inj hstep
    rw [pc] at ok
    obtain ⟨cause, is, barrier, early⟩ := ok
    refine h.access_move _ (created (by simp [pc])) (by simp)
      ⟨Or.inl ⟨status, cause, rfl, is⟩, barrier, early⟩ rfl ?_
    intro down
    rw [early] at down
    cases down
  next pc =>
    obtain rfl := Option.some.inj hstep
    rw [pc] at ok
    obtain ⟨told, barrier, early⟩ := ok
    refine h.access_move _ (created (by simp [pc])) (by simp) ⟨told, ?_⟩ rfl fun _ => ⟨rfl, rfl⟩
    simp [barrier, early]
  next pc =>
    obtain rfl := Option.some.inj hstep
    rw [pc] at ok
    refine h.access_move id (created (by simp [pc])) ?_ ?_ rfl fun _ => ⟨rfl, rfl⟩
    · split <;> simp
    · split <;> exact ok
  next pc =>
    obtain rfl := Option.some.inj hstep
    rw [pc] at ok
    exact h.access_move _ (created (by simp [pc])) (by simp) ok rfl fun _ => ⟨rfl, rfl⟩
  all_goals cases hstep

theorem WaitInv.goto (h : WaitInv s) {pc : ParentPc}
    (settle : s.fresh = true → ∀ u ∈ s.children, s.parentPc.pending = some u → pc.pending = some u)
    (parent : s.ParentOk pc) : WaitInv (s.goto pc) := by
  refine ⟨h.child, h.born, h.known, h.nodup, h.unwaited, fun u listed => ?_, parent⟩
  obtain ⟨created, only⟩ := h.settled u listed
  refine ⟨created, fun waited => ?_⟩
  obtain ⟨fresh, pending⟩ := only waited
  exact ⟨fresh, settle fresh u listed pending⟩

/-- The parent changes the record of the child that it waits for, or takes it out of its list. -/
theorem WaitInv.move_parent (h : WaitInv s) {pc : ParentPc} {r : ChildProcess} {down flag : Bool}
    {children : List Tid} {freed : Tid → Bool} (waited : s.waited t = true)
    (ok : ChildOk (s.cause t) r down (s.childPc t)) (sub : children.Sublist s.children)
    (stay : ∀ u ∈ s.children, u ≠ t → u ∈ children)
    (settle : ∀ u ∈ children, s.parentPc.pending = some u → pc.pending = some u)
    (parent : ParentOk { s with
      record := Function.update s.record t r
      downed := Function.update s.downed t down
      children := children
      freed := freed
      useAfterFree := flag
      parentPc := pc } pc) :
    WaitInv { s with
      record := Function.update s.record t r
      downed := Function.update s.downed t down
      children := children
      freed := freed
      useAfterFree := flag
      parentPc := pc } := by
  refine ⟨fun u => ?_, h.born, h.known, h.nodup.sublist sub, fun u born unwaited => ?_,
    fun u listed => ?_, parent⟩
  · by_cases eq : u = t
    · subst eq
      simpa only [Function.update_self] using ok
    · simpa only [Function.update_of_ne eq] using h.child u
  · have ne : u ≠ t := by
      rintro rfl
      have before : s.waited u = false := unwaited
      rw [waited] at before
      cases before
    obtain ⟨listed, mark, early⟩ := h.unwaited u born unwaited
    simp only [Function.update_of_ne ne]
    exact ⟨stay u listed ne, mark, early⟩
  · obtain ⟨created, only⟩ := h.settled u (sub.subset listed)
    exact ⟨created, fun past => ⟨(only past).1, settle u listed (only past).2⟩⟩

/-- The parent stays in its call, and the child in its list. -/
theorem WaitInv.access_goto (h : WaitInv s) {pc : ParentPc} (f : ChildProcess → ChildProcess)
    {down : Bool} (first : s.FirstWait t (s.downed t))
    (ok : ChildOk (s.cause t) (f (s.record t)) down (s.childPc t))
    (settle : s.parentPc.pending = some t ∧ pc.pending = some t)
    (parent : ParentOk (({ s with downed := Function.update s.downed t down }.access t f).goto pc)
      pc) :
    WaitInv (({ s with downed := Function.update s.downed t down }.access t f).goto pc) := by
  refine h.move_parent first.2.2.2 ok (List.Sublist.refl _) (fun u listed _ => listed) ?_ parent
  intro u _ pending
  rw [settle.1] at pending
  rw [settle.2, pending]

theorem WaitInv.keep (h : WaitInv s) {pc : ParentPc} (f : ChildProcess → ChildProcess)
    (first : s.FirstWait t (s.downed t))
    (ok : ChildOk (s.cause t) (f (s.record t)) (s.downed t) (s.childPc t))
    (settle : s.parentPc.pending = some t ∧ pc.pending = some t)
    (parent : ParentOk ((s.access t f).goto pc) pc) : WaitInv ((s.access t f).goto pc) := by
  have same : { s with downed := Function.update s.downed t (s.downed t) } = s := by
    rw [Function.update_eq_self]
  have moved : WaitInv (({ s with
      downed := Function.update s.downed t (s.downed t) }.access t f).goto pc) :=
    h.access_goto f first ok settle (by rw [same]; exact parent)
  rw [same] at moved
  exact moved

theorem WaitInv.parentStep (h : WaitInv s) (hstep : s.parentStep = some s') : WaitInv s' := by
  have parent := h.parent
  have same : ∀ t, (s.access t id).record t = s.record t := fun t => Function.update_self ..
  unfold Procs.parentStep at hstep
  split at hstep
  next t pc =>
    obtain rfl := Option.some.inj hstep
    rw [pc] at parent
    refine h.goto ?_ ⟨?_, parent.1⟩
    · intro _ u _ pending
      rw [pc] at pending
      exact pending
    · cases fresh : s.fresh with
      | true => exact decide_eq_true (parent.1 fresh).2.1
      | false => exact decide_eq_false (parent.2 fresh)
  next t pc =>
    obtain rfl := Option.some.inj hstep
    rw [pc] at parent
    have stale : s.fresh = false := parent.1.symm
    refine h.goto (fun fresh => ?_) ⟨fun fresh => ?_, fun _ => rfl⟩
    all_goals
      rw [stale] at fresh
      cases fresh
  next t pc =>
    obtain rfl := Option.some.inj hstep
    rw [pc] at parent
    obtain ⟨first, listed, mark⟩ := parent.2 parent.1.symm
    rw [if_neg (by simp [mark])]
    refine h.keep id ⟨rfl, first.2⟩ (h.child t) ⟨by rw [pc]; rfl, rfl⟩ ⟨first, listed⟩
  next t pc =>
    obtain rfl := Option.some.inj hstep
    rw [pc] at parent
    obtain ⟨first, listed⟩ := parent
    exact h.keep _ ⟨rfl, first.2⟩ (h.child t).mark ⟨by rw [pc]; rfl, rfl⟩ ⟨first, listed⟩
  next t pc =>
    split at hstep
    · cases hstep
    next raised =>
      obtain rfl := Option.some.inj hstep
      rw [pc] at parent
      obtain ⟨first, listed⟩ := parent
      have born := (h.born t).mp first.2.2.1
      apply h.access_goto _ ⟨rfl, first.2⟩ ((h.child t).down raised born) ⟨by rw [pc]; rfl, rfl⟩
      exact ⟨⟨Function.update_self .., first.2⟩, listed⟩
  next t pc =>
    obtain rfl := Option.some.inj hstep
    rw [pc] at parent
    obtain ⟨first, listed⟩ := parent
    split
    next exit =>
      refine h.keep id ⟨rfl, first.2⟩ (h.child t) ⟨by rw [pc]; rfl, rfl⟩ ⟨first, listed, ?_⟩
      intro none
      have unset : ((s.access t id).record t).exit = false := none
      rw [same t, exit] at unset
      cases unset
    next none =>
      refine h.keep id ⟨rfl, first.2⟩ (h.child t) ⟨by rw [pc]; rfl, rfl⟩ ⟨first, listed, ?_⟩
      show ((s.access t id).record t).exit = false
      rw [same t]
      exact (Bool.not_eq_true _).mp none
  next t pc =>
    obtain rfl := Option.some.inj hstep
    rw [pc] at parent
    obtain ⟨first, listed, none⟩ := parent
    have ok := h.child t
    rw [first.1] at ok
    refine h.keep _ ⟨rfl, first.2⟩ ?_ ⟨by rw [pc]; rfl, rfl⟩ ⟨first, listed, fun _ => ?_⟩
    · rw [first.1]
      exact ok.unset none
    · show (Function.update s.record t _ t).status = -1
      rw [Function.update_self]
  next t pc =>
    obtain rfl := Option.some.inj hstep
    rw [pc] at parent
    obtain ⟨first, listed, unset⟩ := parent
    have ok := h.child t
    rw [first.1] at ok
    exact h.keep id ⟨rfl, first.2⟩ (h.child t) ⟨by rw [pc]; rfl, rfl⟩
      ⟨first, ok.raised.2.value unset⟩
  next t status pc =>
    obtain rfl := Option.some.inj hstep
    rw [pc] at parent
    have down : Function.update s.downed t (s.downed t) = s.downed := Function.update_eq_self ..
    have moved : WaitInv { s with
        record := Function.update s.record t (s.record t)
        downed := Function.update s.downed t (s.downed t)
        children := s.children.erase t
        useAfterFree := s.useAfterFree || s.freed t
        parentPc := .freeChild t status } := by
      refine h.move_parent parent.1.2.2.2 (h.child t) List.erase_sublist
        (fun u listed ne => (List.mem_erase_of_ne ne).mpr listed) ?_ (by rw [down]; exact parent)
      intro u listed pending
      rw [pc] at pending
      obtain rfl := Option.some.inj pending
      exact absurd listed h.nodup.not_mem_erase
    rw [down] at moved
    exact moved
  next t status pc =>
    obtain rfl := Option.some.inj hstep
    rw [pc] at parent
    refine WaitInv.goto ?_ ?_ ⟨fun _ => parent, fun stale => ?_⟩
    · exact ⟨h.child, h.born, h.known, h.nodup, h.unwaited, h.settled, h.parent⟩
    · intro _ u _ pending
      rw [pc] at pending
      cases pending
    · have fresh := parent.1.2.1
      rw [stale] at fresh
      cases fresh
  next t status pc =>
    obtain rfl := Option.some.inj hstep
    refine h.goto (fun _ u _ pending => ?_) trivial
    rw [pc] at pending
    cases pending
  next pc =>
    rw [pc] at parent
    cases parent
  next pc =>
    rw [pc] at parent
    cases parent
  next pc =>
    rw [pc] at parent
    cases parent
  next => cases hstep
  next => cases hstep

theorem WaitInv.create (h : WaitInv s) (idle : s.parentPc = .idle) (missing : s.created t = false)
    (status : Int) :
    WaitInv ({ s with
      record := Function.update s.record t (createChild status)
      children := s.children ++ [t]
      created := Function.update s.created t true }.move t .running) := by
  have unborn : s.childPc t = .unborn := by
    by_contra born
    rw [(h.born t).mpr born] at missing
    cases missing
  have early : s.downed t = false := by
    have ok := h.child t
    rw [unborn] at ok
    exact ok
  have absent : t ∉ s.children := by
    intro listed
    rw [(h.settled t listed).1] at missing
    cases missing
  have other : ∀ u, s.created u = true → Function.update s.created t true u = true := by
    intro u born
    rw [Function.update_apply]
    split
    · rfl
    · exact born
  refine ⟨fun u => ?_, fun u => ?_, fun u waited => other u (h.known u waited), ?_,
    fun u born unwaited => ?_, fun u listed => ?_, ?_⟩
  · by_cases eq : u = t
    · subst eq
      simpa [Procs.move, ChildOk, createChild] using early
    · simpa only [Procs.move, Function.update_of_ne eq] using h.child u
  · by_cases eq : u = t
    · subst eq
      simp [Procs.move]
    · simpa only [Procs.move, Function.update_of_ne eq] using h.born u
  · refine List.nodup_append.mpr ⟨h.nodup, List.nodup_singleton t, ?_⟩
    rintro a old b new rfl
    exact absent (List.mem_singleton.mp new ▸ old)
  · by_cases eq : u = t
    · subst eq
      refine ⟨List.mem_append_right _ (List.mem_singleton_self u), ?_, early⟩
      simp [Procs.move, createChild]
    · have before : s.created u = true := by
        simpa only [Procs.move, Function.update_of_ne eq] using born
      obtain ⟨listed, mark, down⟩ := h.unwaited u before unwaited
      refine ⟨List.mem_append_left _ listed, ?_, down⟩
      simpa only [Procs.move, Function.update_of_ne eq] using mark
  · rcases List.mem_append.mp listed with old | new
    · obtain ⟨born, only⟩ := h.settled u old
      exact ⟨other u born, only⟩
    · obtain rfl := List.mem_singleton.mp new
      refine ⟨Function.update_self .., fun waited => ?_⟩
      rw [h.known u waited] at missing
      cases missing
  · show ParentOk _ s.parentPc
    rw [idle]
    trivial

theorem WaitInv.wait (h : WaitInv s) (idle : s.parentPc = .idle) :
    WaitInv ({ s with
      fresh := s.created t && !s.waited t
      waited := Function.update s.waited t (s.waited t || s.created t) }.goto (.getChild t)) := by
  -- between two calls the parent has waited for none of the children in its list
  have unwaited : ∀ u ∈ s.children, s.waited u = false := by
    intro u listed
    by_contra waited
    have pending := ((h.settled u listed).2 ((Bool.not_eq_false _).mp waited)).2
    rw [idle] at pending
    cases pending
  refine ⟨h.child, h.born, fun u waited => ?_, h.nodup, fun u born past => ?_, fun u listed => ?_,
    fun fresh => ?_, fun stale listed => ?_⟩
  · by_cases eq : u = t
    · subst eq
      rcases (Bool.or_eq_true _ _).mp ((Function.update_self u _ s.waited).symm.trans waited) with
        before | created
      · exact h.known u before
      · exact created
    · exact h.known u ((Function.update_of_ne eq _ s.waited).symm.trans waited)
  · by_cases eq : u = t
    · subst eq
      have now := (Function.update_self u _ s.waited).symm.trans past
      exact h.unwaited u born ((Bool.or_eq_false_iff.mp now).1)
    · exact h.unwaited u born ((Function.update_of_ne eq _ s.waited).symm.trans past)
  · obtain ⟨created, _⟩ := h.settled u listed
    refine ⟨created, fun waited => ?_⟩
    by_cases eq : u = t
    · subst eq
      exact ⟨by simp [Procs.goto, created, unwaited u listed], rfl⟩
    · have before := (Function.update_of_ne eq _ s.waited).symm.trans waited
      rw [unwaited u listed] at before
      cases before
  · obtain ⟨created, first⟩ := (Bool.and_eq_true _ _).mp fresh
    have none : s.waited t = false := by simpa using first
    obtain ⟨listed, mark, down⟩ := h.unwaited t created none
    refine ⟨⟨down, fresh, created, ?_⟩, listed, mark⟩
    show Function.update s.waited t (s.waited t || s.created t) t = true
    rw [Function.update_self, created, Bool.or_true]
  · have fresh : (s.created t && !s.waited t) = true := by
      rw [(h.settled t listed).1, unwaited t listed]
      rfl
    have not : (s.created t && !s.waited t) = false := stale
    rw [fresh] at not
    cases not

theorem WaitInv.openFile (h : WaitInv s) (running : s.childPc t = .running) :
    WaitInv (s.access t fun r => { r with files := r.files + 1 }) := by
  have ok := h.child t
  have same : Function.update s.childPc t .running = s.childPc := by
    rw [← running]
    exact Function.update_eq_self t s.childPc
  rw [running] at ok
  have moved : WaitInv ((s.access t fun r => { r with files := r.files + 1 }).move t .running) :=
    h.access_move _ ((h.born t).mpr (by simp [running])) (by simp) ok rfl fun _ => ⟨rfl, rfl⟩
  have record : (s.access t fun r => { r with files := r.files + 1 }).move t .running =
      s.access t fun r => { r with files := r.files + 1 } := by
    simp only [Procs.move, Procs.access, same]
  rw [record] at moved
  exact moved

theorem WaitInv.step {act : Act} (h : WaitInv s) (stays : act ≠ .processExit)
    (hstep : s.step act = some s') : WaitInv s' := by
  cases act with
  | parent => exact h.parentStep hstep
  | child t => exact h.childStep hstep
  | processExit => exact absurd rfl stays
  | create t status =>
    simp only [Procs.step] at hstep
    split at hstep
    next may =>
      obtain rfl := Option.some.inj hstep
      exact h.create may.1 may.2 status
    next => cases hstep
  | wait t =>
    simp only [Procs.step] at hstep
    split at hstep
    next idle =>
      obtain rfl := Option.some.inj hstep
      exact h.wait idle
    next => cases hstep
  | openFile t =>
    simp only [Procs.step] at hstep
    split at hstep
    next running =>
      obtain rfl := Option.some.inj hstep
      exact h.openFile running
    next => cases hstep
  | exit t status =>
    simp only [Procs.step] at hstep
    split at hstep
    next running =>
      obtain rfl := Option.some.inj hstep
      have ok := h.child t
      rw [running] at ok
      exact h.move ((h.born t).mpr (by simp [running])) (by simp) ⟨rfl, ok⟩ ok.2.2
    next => cases hstep
  | kill t =>
    simp only [Procs.step] at hstep
    split at hstep
    next running =>
      obtain rfl := Option.some.inj hstep
      have ok := h.child t
      rw [running] at ok
      exact h.move ((h.born t).mpr (by simp [running])) (by simp)
        ⟨Or.inr ⟨rfl, ok.1⟩, ok.2⟩ ok.2.2
    next => cases hstep

theorem WaitInv.init : WaitInv init :=
  ⟨fun _ => rfl, fun _ => by simp [Procs.init], fun _ waited => (by cases waited), List.nodup_nil,
    fun _ created => (by cases created), fun _ listed => (by cases listed), trivial⟩

/-- What a call of `process_wait` for `t` is to return: the first for a child how the child ended,
after it came to `process_exit`, and any other -1. -/
def Answer (s : Procs) (t : Tid) (status : Int) : Prop :=
  (s.fresh = true → s.Returns t status ∧ (s.childPc t).InProcessExit) ∧
  (s.fresh = false → status = -1)

theorem WaitInv.answer (h : WaitInv s) {status : Int} (pc : s.parentPc = .returned t status) :
    s.Answer t status := by
  have parent := h.parent
  rw [pc] at parent
  refine ⟨fun fresh => ?_, parent.2⟩
  obtain ⟨first, returns⟩ := parent.1 fresh
  have ok := h.child t
  rw [first.1] at ok
  exact ⟨returns, ok.raised.1.inProcessExit⟩

/-- The parent goes on with its call, with nothing else changed that its answer is about. -/
def Advances (s s' : Procs) (t : Tid) : Prop :=
  s'.parentPc.call = some t ∧ s'.parentPc.rank < s.parentPc.rank ∧ s'.fresh = s.fresh ∧
    s'.cause = s.cause ∧ s'.childPc = s.childPc

theorem Advances.of_goto {mid : Procs} {pc : ParentPc} (call : pc.call = some t)
    (fewer : pc.rank < s.parentPc.rank) (fresh : mid.fresh = s.fresh) (cause : mid.cause = s.cause)
    (childPc : mid.childPc = s.childPc) : s.Advances (mid.goto pc) t :=
  ⟨call, fewer, fresh, cause, childPc⟩

/-- The parent is blocked in a first wait only, by a child that has not raised the semaphore. -/
theorem WaitInv.advances (h : WaitInv s) (call : s.parentPc.call = some t)
    (left : s.parentPc.rank ≠ 0) (free : s.fresh = false ∨ (s.childPc t).Raised) :
    ∃ s', s.step .parent = some s' ∧ s.Advances s' t := by
  have parent := h.parent
  show ∃ s', s.parentStep = some s' ∧ s.Advances s' t
  cases pc : s.parentPc with
  | waitReturn u =>
    rw [pc] at parent call
    obtain rfl := Option.some.inj call
    have raised : (s.childPc u).Raised := by
      rcases free with stale | raised
      · rw [parent.1.2.1] at stale
        cases stale
      · exact raised
    have ok := h.child u
    rw [parent.1.1] at ok
    simp only [Procs.parentStep, pc, if_neg (show (s.record u).waitBarrier ≠ 0 by
      rw [ok.barrier raised]; decide)]
    exact ⟨_, rfl, .of_goto rfl (by simp [pc, ParentPc.rank]) rfl rfl rfl⟩
  | testChild u found =>
    rw [pc] at call
    cases found with
    | false =>
      simp only [Procs.parentStep, pc]
      exact ⟨_, rfl, .of_goto call (by simp [pc, ParentPc.rank]) rfl rfl rfl⟩
    | true =>
      simp only [Procs.parentStep, pc]
      refine ⟨_, rfl, .of_goto ?_ ?_ rfl rfl rfl⟩
      · split <;> exact call
      · split <;> simp [pc, ParentPc.rank]
  | testExit u =>
    rw [pc] at call
    simp only [Procs.parentStep, pc]
    refine ⟨_, rfl, .of_goto ?_ ?_ rfl rfl rfl⟩
    · split <;> exact call
    · split <;> simp [pc, ParentPc.rank]
  | getChild u | setProcessWait u | setStatus u | getStatus u | removeChild u status
  | freeChild u status =>
    rw [pc] at call
    simp only [Procs.parentStep, pc]
    exact ⟨_, rfl, .of_goto call (by simp [pc, ParentPc.rank]) rfl rfl rfl⟩
  | returned | idle | popChildren | freePopped | leaving | gone =>
    rw [pc] at left
    exact absurd rfl left

/-- From there on the parent alone brings the call to its end. -/
theorem WaitInv.returns (h : WaitInv s) (call : s.parentPc.call = some t)
    (free : s.fresh = false ∨ (s.childPc t).Raised) :
    ∃ n s' status, exec Procs.step s (List.replicate n .parent) = some s' ∧
      s'.parentPc = .returned t status ∧ s.Answer t status := by
  induction rank : s.parentPc.rank using Nat.strongRecOn generalizing s with
  | ind rest ih =>
    by_cases left : s.parentPc.rank = 0
    · have pc : ∃ status, s.parentPc = .returned t status := by
        cases place : s.parentPc with
        | returned u status =>
          rw [place] at call
          obtain rfl := Option.some.inj call
          exact ⟨status, rfl⟩
        | idle | popChildren | freePopped | leaving | gone =>
          rw [place] at call
          cases call
        | getChild | testChild | setProcessWait | waitReturn | testExit | setStatus | getStatus
        | removeChild | freeChild =>
          rw [place] at left
          cases left
      obtain ⟨status, pc⟩ := pc
      exact ⟨0, s, status, rfl, pc, h.answer pc⟩
    · obtain ⟨mid, hstep, call, fewer, fresh, cause, childPc⟩ := h.advances call left free
      have inv : WaitInv mid := h.step (by simp) hstep
      have still : mid.fresh = false ∨ (mid.childPc t).Raised := by
        rw [fresh, childPc]
        exact free
      obtain ⟨n, s', status, run, pc, answer⟩ :=
        ih mid.parentPc.rank (rank ▸ fewer) inv call still rfl
      refine ⟨n + 1, s', status, ?_, pc, ?_⟩
      · rw [List.replicate_succ]
        show (s.step .parent).bind _ = some s'
        rw [hstep]
        exact run
      · rw [Answer, Returns, fresh, cause, childPc] at answer
        exact answer

end Procs

end Pintos.Userprog
