import Pintos.Userprog.Process

/-! The lifetime of the records of the children: an access after the parent has freed the record. -/

namespace Pintos.Userprog

open Transition

/-- The record that the parent holds the address of. -/
def ParentPc.holds : ParentPc → Option Tid
  | .testChild t true | .setProcessWait t | .waitReturn t | .testExit t | .setStatus t
  | .getStatus t | .removeChild t _ | .freeChild t _ | .freePopped t => some t
  | _ => none

/-- The parent is about to free a record. -/
def ParentPc.frees : ParentPc → Option Tid
  | .freeChild t _ | .freePopped t => some t
  | _ => none

namespace Procs

/-- The parent frees the record of a child only when the child has finished `close_all`. -/
def FreesDone (s : Procs) : Act → Prop
  | .parent => ∀ t ∈ s.parentPc.frees, s.childPc t = .done
  | _ => True

instance (s : Procs) : (act : Act) → Decidable (FreesDone s act)
  | .parent => inferInstanceAs (Decidable (∀ t ∈ s.parentPc.frees, s.childPc t = .done))
  | .create .. | .wait _ | .processExit | .openFile _ | .exit .. | .kill _ | .child _ =>
    inferInstanceAs (Decidable True)

/-- A record that is freed is one of a child that is done, and the records in the list and in the
hands of the parent are not freed. -/
structure RecordsInv (s : Procs) : Prop where
  safe : s.useAfterFree = false
  done : ∀ t, s.freed t = true → s.childPc t = .done
  born : ∀ t, s.created t = false → s.freed t = false
  nodup : s.children.Nodup
  listed : ∀ t ∈ s.children, s.created t = true ∧ s.freed t = false
  held : ∀ t ∈ s.parentPc.holds, s.created t = true ∧ s.freed t = false
  unlinked : ∀ t ∈ s.parentPc.frees, t ∉ s.children

variable {s : Procs} {t : Tid}

theorem RecordsInv.access (h : RecordsInv s) (f : ChildProcess → ChildProcess)
    (live : s.freed t = false) : RecordsInv (s.access t f) := by
  refine ⟨?_, h.done, h.born, h.nodup, h.listed, h.held, h.unlinked⟩
  simp [Procs.access, h.safe, live]

theorem RecordsInv.goto (h : RecordsInv s) {pc : ParentPc}
    (held : ∀ u ∈ pc.holds, s.created u = true ∧ s.freed u = false)
    (unlinked : ∀ u ∈ pc.frees, u ∉ s.children) : RecordsInv (s.goto pc) :=
  ⟨h.safe, h.done, h.born, h.nodup, h.listed, held, unlinked⟩

/-- The parent goes to a place where it has no record. -/
theorem RecordsInv.goto_away (h : RecordsInv s) {pc : ParentPc}
    (none : pc.holds = none ∧ pc.frees = none) : RecordsInv (s.goto pc) := by
  refine h.goto (fun u hu => ?_) fun u hu => ?_
  · rw [none.1] at hu
    cases hu
  · rw [none.2] at hu
    cases hu

/-- The parent accesses the record that it has and keeps it. -/
theorem RecordsInv.keep (h : RecordsInv s) (held : s.parentPc.holds = some t)
    (f : ChildProcess → ChildProcess) {pc : ParentPc} (same : pc.holds = some t)
    (none : pc.frees = none) : RecordsInv ((s.access t f).goto pc) := by
  have live := h.held t held
  refine (h.access f live.2).goto (fun u hu => ?_) fun u hu => ?_
  · rw [same] at hu
    obtain rfl := Option.some.inj hu
    exact live
  · rw [none] at hu
    cases hu

theorem RecordsInv.move (h : RecordsInv s) {pc : ChildPc} (live : s.freed t = false) :
    RecordsInv (s.move t pc) := by
  refine ⟨h.safe, fun u hu => ?_, h.born, h.nodup, h.listed, h.held, h.unlinked⟩
  have ne : u ≠ t := by
    rintro rfl
    have freed : s.freed u = true := hu
    rw [live] at freed
    cases freed
  show Function.update s.childPc t pc u = .done
  rw [Function.update_of_ne ne]
  exact h.done u hu

/-- A child that is not done has its record. -/
theorem RecordsInv.live (h : RecordsInv s) (busy : s.childPc t ≠ .done) : s.freed t = false := by
  by_contra freed
  exact busy (h.done t ((Bool.not_eq_false _).mp freed))

/-- The ghost fields play no part. -/
theorem RecordsInv.ghost (h : RecordsInv s) (cause : Tid → Option Cause)
    (waited downed : Tid → Bool)
    (fresh : Bool) : RecordsInv { s with
      cause := cause, waited := waited, downed := downed, fresh := fresh } :=
  ⟨h.safe, h.done, h.born, h.nodup, h.listed, h.held, h.unlinked⟩

theorem RecordsInv.free (h : RecordsInv s) (frees : t ∈ s.parentPc.frees)
    (done : s.childPc t = .done) {pc : ParentPc} (none : pc.holds = none ∧ pc.frees = none)
    (created : s.created t = true) :
    RecordsInv ({ s with freed := Function.update s.freed t true }.goto pc) := by
  have away := h.unlinked t frees
  have other : ∀ u, u ≠ t → Function.update s.freed t true u = s.freed u := fun u ne =>
    Function.update_of_ne ne _ _
  refine ⟨h.safe, fun u hu => ?_, fun u hu => ?_, h.nodup, fun u hu => ?_, ?_, ?_⟩
  · by_cases ne : u = t
    · subst ne
      exact done
    · exact h.done u ((other u ne).symm.trans hu)
  · have ne : u ≠ t := by
      rintro rfl
      have missing : s.created u = false := hu
      rw [created] at missing
      cases missing
    exact (other u ne).trans (h.born u hu)
  · have ne : u ≠ t := fun eq => away (eq ▸ hu)
    exact ⟨(h.listed u hu).1, (other u ne).trans (h.listed u hu).2⟩
  · intro u hu
    have held : u ∈ pc.holds := hu
    rw [none.1] at held
    cases held
  · intro u hu
    have freeing : u ∈ pc.frees := hu
    rw [none.2] at freeing
    cases freeing

/-- The parent takes a record out of its list. -/
theorem RecordsInv.unlink (h : RecordsInv s) {rest : List Tid} {pc : ParentPc}
    (sub : rest.Sublist s.children) (away : t ∉ rest)
    (live : s.created t = true ∧ s.freed t = false)
    (holds : pc.holds = some t) (frees : pc.frees = some t) :
    RecordsInv ({ s.access t id with children := rest }.goto pc) := by
  refine ⟨?_, h.done, h.born, h.nodup.sublist sub, fun u hu => h.listed u (sub.subset hu), ?_, ?_⟩
  · exact (h.access id live.2).safe
  · intro u hu
    have held : u ∈ pc.holds := hu
    rw [holds] at held
    obtain rfl := Option.some.inj held
    exact live
  · intro u hu
    have freeing : u ∈ pc.frees := hu
    rw [frees] at freeing
    obtain rfl := Option.some.inj freeing
    exact away

theorem RecordsInv.parentStep {s' : Procs} (h : RecordsInv s)
    (careful : ∀ t ∈ s.parentPc.frees, s.childPc t = .done) (hstep : s.parentStep = some s') :
    RecordsInv s' := by
  unfold Procs.parentStep at hstep
  split at hstep
  next t pc =>
    obtain rfl := Option.some.inj hstep
    by_cases found : t ∈ s.children
    · rw [decide_eq_true found]
      refine h.goto (fun u hu => ?_) fun u hu => (by cases hu)
      obtain rfl := Option.some.inj hu
      exact h.listed _ found
    · rw [decide_eq_false found]
      exact h.goto_away ⟨rfl, rfl⟩
  next t pc =>
    obtain rfl := Option.some.inj hstep
    exact h.goto_away ⟨rfl, rfl⟩
  next t pc =>
    obtain rfl := Option.some.inj hstep
    have held : s.parentPc.holds = some t := by rw [pc]; rfl
    split
    · exact (h.access id (h.held t held).2).goto_away ⟨rfl, rfl⟩
    · exact h.keep held id rfl rfl
  next t pc =>
    obtain rfl := Option.some.inj hstep
    exact h.keep (by rw [pc]; rfl) _ rfl rfl
  next t pc =>
    split at hstep
    · cases hstep
    · obtain rfl := Option.some.inj hstep
      have ghost := h.ghost s.cause s.waited (Function.update s.downed t true) s.fresh
      have held : s.parentPc.holds = some t := by rw [pc]; rfl
      exact ghost.keep held _ rfl rfl
  next t pc =>
    obtain rfl := Option.some.inj hstep
    have held : s.parentPc.holds = some t := by rw [pc]; rfl
    split
    · exact h.keep held id rfl rfl
    · exact h.keep held id rfl rfl
  next t pc =>
    obtain rfl := Option.some.inj hstep
    exact h.keep (by rw [pc]; rfl) _ rfl rfl
  next t pc =>
    obtain rfl := Option.some.inj hstep
    exact h.keep (by rw [pc]; rfl) id rfl rfl
  next t status pc =>
    obtain rfl := Option.some.inj hstep
    have held : s.parentPc.holds = some t := by rw [pc]; rfl
    exact h.unlink List.erase_sublist h.nodup.not_mem_erase (h.held t held) rfl rfl
  next t status pc =>
    obtain rfl := Option.some.inj hstep
    have frees : t ∈ s.parentPc.frees := by rw [pc]; rfl
    exact h.free frees (careful t frees) ⟨rfl, rfl⟩ (h.held t (by rw [pc]; rfl)).1
  next =>
    obtain rfl := Option.some.inj hstep
    exact h.goto_away ⟨rfl, rfl⟩
  next pc =>
    split at hstep
    next =>
      obtain rfl := Option.some.inj hstep
      exact h.goto_away ⟨rfl, rfl⟩
    next t rest list =>
      obtain rfl := Option.some.inj hstep
      have nodup := h.nodup
      rw [list] at nodup
      refine h.unlink ?_ (List.nodup_cons.mp nodup).1 (h.listed t ?_) rfl rfl
      · rw [list]
        exact List.sublist_cons_self t rest
      · rw [list]
        exact List.mem_cons_self
  next t pc =>
    obtain rfl := Option.some.inj hstep
    have frees : t ∈ s.parentPc.frees := by rw [pc]; rfl
    exact h.free frees (careful t frees) ⟨rfl, rfl⟩ (h.held t (by rw [pc]; rfl)).1
  next =>
    obtain rfl := Option.some.inj hstep
    exact h.goto_away ⟨rfl, rfl⟩
  next => cases hstep
  next => cases hstep

theorem RecordsInv.childStep {s' : Procs} (h : RecordsInv s) (hstep : s.childStep t = some s') :
    RecordsInv s' := by
  by_cases done : s.childPc t = .done
  · simp [Procs.childStep, done] at hstep
  · have live := h.live done
    unfold Procs.childStep at hstep
    split at hstep <;> cases hstep
    · exact h.move live
    all_goals exact (h.access _ live).move live

theorem RecordsInv.create (h : RecordsInv s) (missing : s.created t = false) (status : Int) :
    RecordsInv ({ s with
      record := Function.update s.record t (createChild status)
      children := s.children ++ [t]
      created := Function.update s.created t true }.move t .running) := by
  have other : ∀ u, s.created u = true → Function.update s.created t true u = true := by
    intro u born
    rw [Function.update_apply]
    split
    · rfl
    · exact born
  have absent : t ∉ s.children := by
    intro listed
    rw [(h.listed t listed).1] at missing
    cases missing
  refine ⟨h.safe, fun u freed => ?_, fun u born => ?_, ?_, fun u listed => ?_,
    fun u held => ⟨other u (h.held u held).1, (h.held u held).2⟩, fun u frees listed => ?_⟩
  · have ne : u ≠ t := by
      rintro rfl
      have before : s.freed u = true := freed
      rw [h.born u missing] at before
      cases before
    show Function.update s.childPc t .running u = .done
    rw [Function.update_of_ne ne]
    exact h.done u freed
  · have ne : u ≠ t := by
      rintro rfl
      have still : Function.update s.created u true u = false := born
      rw [Function.update_self] at still
      cases still
    have before : Function.update s.created t true u = false := born
    rw [Function.update_of_ne ne] at before
    exact h.born u before
  · refine List.nodup_append.mpr ⟨h.nodup, List.nodup_singleton t, ?_⟩
    rintro a old b new rfl
    exact absent (List.mem_singleton.mp new ▸ old)
  · rcases List.mem_append.mp listed with old | new
    · exact ⟨other u (h.listed u old).1, (h.listed u old).2⟩
    · obtain rfl := List.mem_singleton.mp new
      exact ⟨Function.update_self _ _ _, h.born u missing⟩
  · rcases List.mem_append.mp listed with old | new
    · exact h.unlinked u frees old
    · obtain rfl := List.mem_singleton.mp new
      have held : ∀ pc : ParentPc, u ∈ pc.frees → u ∈ pc.holds := by
        intro pc
        cases pc <;> exact fun h => (by first | exact h | cases h)
      rw [(h.held u (held _ frees)).1] at missing
      cases missing

theorem RecordsInv.step {s' : Procs} {act : Act} (h : RecordsInv s) (careful : FreesDone s act)
    (hstep : s.step act = some s') : RecordsInv s' := by
  cases act with
  | parent => exact h.parentStep careful hstep
  | child t => exact h.childStep hstep
  | create t status =>
    simp only [Procs.step] at hstep
    split at hstep
    next may =>
      obtain rfl := Option.some.inj hstep
      exact h.create may.2 status
    next => cases hstep
  | wait t =>
    simp only [Procs.step] at hstep
    split at hstep
    next =>
      obtain rfl := Option.some.inj hstep
      exact (h.ghost s.cause _ s.downed _).goto_away ⟨rfl, rfl⟩
    next => cases hstep
  | processExit =>
    simp only [Procs.step] at hstep
    split at hstep
    next =>
      obtain rfl := Option.some.inj hstep
      exact h.goto_away ⟨rfl, rfl⟩
    next => cases hstep
  | openFile t =>
    simp only [Procs.step] at hstep
    split at hstep
    next running =>
      obtain rfl := Option.some.inj hstep
      exact h.access _ (h.live (by simp [running]))
    next => cases hstep
  | exit t status =>
    simp only [Procs.step] at hstep
    split at hstep
    next running =>
      obtain rfl := Option.some.inj hstep
      exact (h.ghost _ s.waited s.downed s.fresh).move (h.live (by simp [running]))
    next => cases hstep
  | kill t =>
    simp only [Procs.step] at hstep
    split at hstep
    next running =>
      obtain rfl := Option.some.inj hstep
      exact (h.ghost _ s.waited s.downed s.fresh).move (h.live (by simp [running]))
    next => cases hstep

/-- In a run in which the parent frees records only of children that are done with them, no step
accesses a record that was freed. -/
theorem no_use_after_free (reach : Reach (Fires step) FreesDone (· = init) s) :
    s.useAfterFree = false := by
  have inv : RecordsInv s := by
    refine reach.invariant (P := RecordsInv) ?_ fun _ _ _ h careful hstep => h.step careful hstep
    rintro _ rfl
    exact ⟨rfl, fun _ freed => (by cases freed), fun _ _ => rfl, List.nodup_nil,
      fun _ listed => (by cases listed), fun _ held => (by cases held),
      fun _ frees => (by cases frees)⟩
  exact inv.safe

/-- A parent waits for a child with an open file, which exits with 5 and closes the file before the
parent goes on. -/
theorem no_use_after_free_waited : ∃ s, Reach (Fires step) FreesDone (· = init) s ∧
    s.useAfterFree = false ∧ s.freed 1 = true ∧ s.parentPc = .returned 1 5 := by
  obtain ⟨s, reach, freed, pc⟩ : ∃ s, Reach (Fires step) FreesDone (· = init) s ∧
      s.freed 1 = true ∧ s.parentPc = .returned 1 5 :=
    Reach.eval [.create 1 0, .openFile 1, .wait 1, .parent, .parent, .parent, .exit 1 5,
      .child 1, .child 1, .child 1, .child 1, .child 1, .child 1, .child 1,
      .parent, .parent, .parent, .parent,
      .parent] (by decide)
  exact ⟨s, reach, no_use_after_free reach, freed, pc⟩

/-- The child raises its semaphore, the parent returns from the wait and frees the record, and the
child then looks for files to close. -/
theorem wait_frees_record_in_use : ∃ s, Reach (Fires step) (fun _ _ => True) (· = init) s ∧
    s.useAfterFree = true :=
  Reach.eval [.create 1 0, .wait 1, .parent, .parent, .parent, .exit 1 5, .child 1, .child 1,
    .child 1, .child 1, .parent, .parent, .parent, .parent, .parent, .child 1] (by decide)

end Procs

end Pintos.Userprog
