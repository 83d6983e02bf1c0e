import Pintos.Userprog.Exec

/-! Interleavings of `exec` with the child and the other threads: where the call is fit, every one
reports the result of `load`, and where it is not, one goes wrong. -/

namespace Pintos.LockUse

open Locking LockId

/-- The part of `load` before the label, with `file_lock` acquired once there is a page
directory. -/
theorem loadBody_eq (x : Loading) : loadBody x =
    if !x.pagedir then pure false else acquire LockId.fileLock >>= fun _ => loadLocked x := rfl

/-- `page_back` ends with `frame_lock` given back. -/
theorem pageBack_frame (evictions : List Eviction) :
    Keeps (do let _ ← pageBack evictions) (LockId.frameLock ∉ ·) := by
  apply Keeps.of_wp
  intro held _ before
  simp only [pageBack, wp_bind] at before
  refine not_wp_false (each evict evictions) (wp_mono (fun _ after rest => ?_) before)
  obtain ⟨-, rest⟩ := wp_acquire.mp rest
  have back := (wp_release.mp ((sback_clean _ _).mp rest).2).2
  simp at back

/-- So is `setup_stack` once the page has its frame. -/
theorem setupStack_frame (s : StackSetup) : Keeps (setupStack s) (LockId.frameLock ∉ ·) := by
  let rest : Uses Bool := do
    if !s.installs then
      frameDestroy
      return false
    each (fun evictions => do let _ ← pageBack evictions) s.faults
    return s.fits
  have keeps : Keeps rest (LockId.frameLock ∉ ·) :=
    .ite (.bind (Clean.touch LockId.frameLock).keeps fun _ => .pure false)
      (.bind (.each pageBack_frame s.faults) fun _ => .pure s.fits)
  have parts : setupStack s =
      (each evict s.evictions >>= fun _ => frameTableInsert >>= fun _ => rest) := rfl
  apply Keeps.of_wp
  intro held _ before
  rw [parts, wp_bind] at before
  refine not_wp_false (each evict s.evictions) (wp_mono (fun _ after next => ?_) before)
  rw [wp_bind] at next
  obtain ⟨free, next⟩ := (Clean.touch LockId.frameLock _ _).mp next
  exact keeps.not_wp (free _ (by simp)) (fun _ _ here there => there here) next

theorem loadFile_frame (x : Loading) (inode : Nat) :
    Keeps (loadFile x inode) (LockId.frameLock ∉ ·) := by
  refine .bind (withIo_clean inode).keeps fun _ => ?_
  refine .bind (inodeReadAt_clean inode _).keeps fun _ => ?_
  refine .ite (.pure false) (.bind (loadPhdrs_clean inode x.phdrs).keeps fun success => ?_)
  exact .ite (.pure false) (setupStack_frame x.stack)

/-- `load` misuses no lock exactly when its second part comes to the label with `file_lock`. -/
theorem loadLocked_iff {x : Loading} (pagedir : x.pagedir = true) :
    wp (loadLocked x) (fun _ after => LockId.fileLock ∈ after) {LockId.fileLock} ↔ x.Ok ∅ := by
  have whole : x.Ok ∅ ↔ wp (loadLocked x) (fun _ after => LockId.fileLock ∈ after ∧
      after.erase LockId.fileLock = ∅) {LockId.fileLock} := by
    rw [← load_balances_iff, Balances, LockUse.load, loadBody_eq, pagedir]
    simp only [Bool.not_true, Bool.false_eq_true, if_false, wp_bind, wp_acquire, wp_pure,
      Finset.notMem_empty, not_false_eq_true, true_and, insert_empty_eq]
    exact ⟨wp_mono fun _ _ => wp_release.mp,
      wp_mono fun _ _ both => wp_release.mpr ⟨both.1, both.2⟩⟩
  rw [whole]
  refine ⟨fun before => ?_, wp_mono fun _ _ both => both.1⟩
  have opens := filesysOpen_settles x.opening
  unfold loadLocked at before ⊢
  cases settled : x.opening.settled with
  | none =>
    rw [settled] at opens
    rw [wp_bind] at before
    exact absurd before (opens _ _ (Finset.mem_singleton_self _))
  | some result =>
    obtain ⟨takes, file⟩ := result
    rw [settled] at opens
    rw [wp_bind, opens] at before ⊢
    refine before.imp_right fun rest => ?_
    cases file with
    | none => simp
    | some inode =>
      obtain ⟨_, goes⟩ := loadFile_restores x inode {LockId.fileLock}
      have free : LockId.frameLock ∉ ({LockId.fileLock} : Finset LockId) := by decide
      have both := (loadFile_frame x inode).wp_and free rest
      rw [goes.wp_iff] at both
      · refine wp_mono (fun _ after same => ?_) ((goes.wp_iff (fun _ after =>
          after = {LockId.fileLock}) ?_).mpr ⟨both.1, rfl⟩)
        · rw [same]
          decide
        · rintro _ after lost rfl
          exact not_lost _ lost
      · rintro _ after (⟨-, gone⟩ | ⟨-, frame⟩) ⟨here, away⟩
        · exact gone here
        · exact away frame

end Pintos.LockUse

namespace Pintos.Userprog

open CStrings Locking LockUse Transition LockUse.LockId

namespace ExecState

section Fit

variable {call : ExecCall} {st st' : ExecState} {r : LoadRecord}

/-- The record of the child, and how far `load` is. -/
def Carries (loaded : Option Bool) (signals : Nat) (r : LoadRecord) : StartPc → Prop
  | .unborn => False
  | .pagedirCreate | .determineArgument | .lockAcquire | .filesysOpen | .done _ =>
    loaded = none ∧ signals = 0
  | .lockRelease success | .semaUp success => loaded = none ∧ signals = 0 ∧ r.load = success
  | .running | .exiting | .gone => loaded = some r.load ∧ signals = 1

/-- The child has `file_lock` where `load` is past its acquisition, and the caller never does. -/
def Locks (holder : Option LockHolder) (held : Finset LockId) : StartPc → Prop
  | .filesysOpen => holder = some .child ∧ held = {fileLock}
  | .done _ | .lockRelease _ => holder = some .child ∧ fileLock ∈ held
  | _ => holder ≠ some .child ∧ holder ≠ some .caller

/-- Where the caller is once there is a child. -/
def Waits (call : ExecCall) (st : ExecState) (r : LoadRecord) : CallerPc → Prop
  | .pallocGetPage | .determineArgument | .threadCreate | .faulted => False
  | .getChild pid => pid = call.nextTid ∧ r.loadBarrier = st.signals
  | .semaDown child pid =>
    child = some call.children.length ∧ pid = call.nextTid ∧ r.loadBarrier = st.signals
  | .testLoad child pid =>
    child = call.children.length ∧ pid = call.nextTid ∧ r.loadBarrier = 0 ∧ st.signals = 1
  | .returned pid => r.loadBarrier = 0 ∧ st.signals = 1 ∧
    pid = if st.loaded = some true then call.nextTid else -1

/-- Nothing is created yet. -/
structure Early (call : ExecCall) (st : ExecState) : Prop where
  caller : st.caller = .pallocGetPage ∨ st.caller = .determineArgument ∨ st.caller = .threadCreate
  child : st.child = .unborn
  children : st.children = call.children
  loaded : st.loaded = none ∧ st.signals = 0

structure Late (call : ExecCall) (st : ExecState) (r : LoadRecord) : Prop where
  children : st.children = call.children ++ [r]
  pid : r.pid = call.nextTid
  carries : Carries st.loaded st.signals r st.child
  waits : Waits call st r st.caller

structure ExecInv (call : ExecCall) (st : ExecState) : Prop where
  fine : st.panicked = false
  locks : Locks st.holder st.held st.child
  phase : Early call st ∨ ∃ r, Late call st r

/-- Once `load_barrier` was raised, the record has what `load` returned. -/
theorem Carries.raised {loaded : Option Bool} {signals : Nat} {child : StartPc}
    (h : Carries loaded signals r child) (up : signals ≠ 0) :
    signals = 1 ∧ loaded = some r.load := by
  cases child with
  | unborn => exact h.elim
  | pagedirCreate | determineArgument | lockAcquire | filesysOpen | done success =>
    exact absurd h.2 up
  | lockRelease success | semaUp success => exact absurd h.2.1 up
  | running | exiting | gone => exact ⟨h.2, h.1⟩

/-- Of the record only `load` counts. -/
theorem Carries.congr {loaded : Option Bool} {signals : Nat} {child : StartPc} {r' : LoadRecord}
    (h : Carries loaded signals r child) (same : r'.load = r.load) :
    Carries loaded signals r' child := by
  cases child with
  | unborn => exact h
  | pagedirCreate | determineArgument | lockAcquire | filesysOpen | done success => exact h
  | lockRelease success | semaUp success => exact ⟨h.1, h.2.1, same.trans h.2.2⟩
  | running | exiting | gone => exact ⟨h.1.trans (congrArg some same.symm), h.2⟩

theorem getChild_created (children : st.children = call.children ++ [r])
    (pid : r.pid = call.nextTid) : st.getChild call.nextTid = some call.children.length := by
  have others : call.children.findIdx? (fun r => r.pid = call.nextTid) = none := by
    rw [List.findIdx?_eq_none_iff]
    intro old mem
    simpa using (call.older old mem).2.ne
  rw [getChild, children, List.findIdx?_append, others]
  simp [pid]

theorem modify_last (records : List LoadRecord) (f : LoadRecord → LoadRecord) :
    (records ++ [r]).modify records.length f = records ++ [f r] := by
  induction records with
  | nil => rfl
  | cons first records ih => exact congrArg (first :: ·) ih

theorem write_created (children : st.children = call.children ++ [r])
    (f : LoadRecord → LoadRecord) : (st.write call f).children = call.children ++ [f r] := by
  rw [write, children]
  exact modify_last ..

theorem start_inv (fit : call.holder ≠ some .caller) : ExecInv call (start call) where
  fine := rfl
  locks := ⟨call.unborn, fit⟩
  phase := .inl ⟨.inl rfl, rfl, rfl, rfl, rfl⟩

theorem callerStep_inv (fit : Fit call) (inv : ExecInv call st)
    (run : st.callerStep call = some st') : ExecInv call st' := by
  obtain ⟨copy, name, page, record, -⟩ := fit.memory
  rcases inv.phase with early | ⟨r, late⟩
  · rcases early.caller with pc | pc | pc
    · rw [callerStep, pc, copy] at run
      cases run
      exact ⟨inv.fine, inv.locks, .inl ⟨.inr (.inl rfl), early.child, early.children, early.loaded⟩⟩
    · rw [callerStep, pc, name] at run
      cases run
      exact ⟨inv.fine, inv.locks, .inl ⟨.inr (.inr rfl), early.child, early.children, early.loaded⟩⟩
    · have named := call.named fit.name
      simp only [callerStep, pc, page, record, named, if_true, if_false] at run
      cases run
      have locks := inv.locks
      rw [early.child] at locks
      refine ⟨inv.fine, locks, .inr ⟨.create call.nextTid, ?_, rfl, early.loaded, rfl, ?_⟩⟩
      · exact congrArg (· ++ _) early.children
      · exact early.loaded.2.symm
  · have waits := late.waits
    cases pc : st.caller with
    | pallocGetPage | determineArgument | threadCreate | faulted =>
      rw [pc] at waits
      exact waits.elim
    | getChild pid =>
      rw [pc] at waits
      obtain ⟨rfl, barrier⟩ := waits
      rw [callerStep, pc] at run
      dsimp only at run
      rw [getChild_created late.children late.pid] at run
      cases run
      exact ⟨inv.fine, inv.locks,
        .inr ⟨r, late.children, late.pid, late.carries, rfl, rfl, barrier⟩⟩
    | semaDown child pid =>
      rw [pc] at waits
      obtain ⟨rfl, rfl, barrier⟩ := waits
      simp only [callerStep, pc, late.children, List.getElem?_concat_length,
        Option.bind_some] at run
      split at run
      · cases run
      next up =>
        cases run
        rw [barrier] at up
        have one := (late.carries.raised up).1
        refine ⟨inv.fine, inv.locks,
          .inr ⟨{ r with loadBarrier := r.loadBarrier - 1 }, ?_, late.pid, ?_, rfl, rfl, ?_, one⟩⟩
        · exact modify_last call.children _
        · exact late.carries.congr rfl
        · show r.loadBarrier - 1 = 0
          omega
    | testLoad child pid =>
      rw [pc] at waits
      obtain ⟨rfl, rfl, down, one⟩ := waits
      simp only [callerStep, pc, late.children, List.getElem?_concat_length, Option.map_some] at run
      cases run
      refine ⟨inv.fine, inv.locks,
        .inr ⟨r, late.children, late.pid, late.carries, down, one, ?_⟩⟩
      have told : st.loaded = some r.load := (late.carries.raised (by omega)).2
      simp [goto, told]
    | returned pid =>
      rw [callerStep, pc] at run
      cases run

/-- Where the caller waits does not depend on what `load` or the end of the child writes. -/
theorem Waits.congr {caller : CallerPc} {r' : LoadRecord} (h : Waits call st r caller)
    (same : r'.loadBarrier = r.loadBarrier) (signals : st'.signals = st.signals)
    (loaded : st'.loaded = st.loaded) : Waits call st' r' caller := by
  cases caller with
  | pallocGetPage | determineArgument | threadCreate | faulted => exact h.elim
  | getChild pid => exact ⟨h.1, by rw [same, signals, h.2]⟩
  | semaDown child pid => exact ⟨h.1, h.2.1, by rw [same, signals, h.2.2]⟩
  | testLoad child pid => exact ⟨h.1, h.2.1, by rw [same, h.2.2.1], by rw [signals, h.2.2.2]⟩
  | returned pid => exact ⟨by rw [same, h.1], by rw [signals, h.2.1], by rw [loaded]; exact h.2.2⟩

/-- `load` raises `load_barrier` before the caller is past it. -/
theorem Waits.raise {caller : CallerPc} {r' : LoadRecord} (h : Waits call st r caller)
    (first : st.signals = 0) (raised : r'.loadBarrier = r.loadBarrier + 1)
    (signals : st'.signals = st.signals + 1) : Waits call st' r' caller := by
  cases caller with
  | pallocGetPage | determineArgument | threadCreate | faulted => exact h.elim
  | getChild pid => exact ⟨h.1, by rw [raised, signals, h.2]⟩
  | semaDown child pid => exact ⟨h.1, h.2.1, by rw [raised, signals, h.2.2]⟩
  | testLoad child pid =>
    have one := h.2.2.2
    omega
  | returned pid =>
    have one := h.2.1
    omega

/-- A step of the child that leaves its record alone. -/
theorem Late.moves (late : Late call st r) (fine : st'.panicked = false)
    (locks : Locks st'.holder st'.held st'.child) (children : st'.children = st.children)
    (signals : st'.signals = st.signals) (loaded : st'.loaded = st.loaded)
    (caller : st'.caller = st.caller) (carries : Carries st.loaded st.signals r st'.child) :
    ExecInv call st' := by
  refine ⟨fine, locks, .inr ⟨r, children.trans late.children, late.pid, ?_, ?_⟩⟩
  · rw [loaded, signals]
    exact carries
  · rw [caller]
    exact late.waits.congr rfl signals loaded

theorem childStep_inv (fit : Fit call) (inv : ExecInv call st)
    (run : st.childStep call = some st') : ExecInv call st' := by
  rcases inv.phase with early | ⟨r, late⟩
  · rw [childStep, early.child] at run
    cases run
  have carries := late.carries
  have locks := inv.locks
  cases pc : st.child with
  | unborn | running | gone =>
    rw [childStep, pc] at run
    cases run
  | pagedirCreate =>
    rw [pc] at carries locks
    rw [childStep, pc, fit.load.1] at run
    cases run
    exact late.moves inv.fine locks rfl rfl rfl rfl carries
  | determineArgument =>
    rw [pc] at carries locks
    rw [childStep, pc, fit.memory.2.2.2.2] at run
    cases run
    exact late.moves inv.fine locks rfl rfl rfl rfl carries
  | lockAcquire =>
    rw [pc] at carries
    rw [childStep, pc] at run
    obtain ⟨-, acquired⟩ := Option.ite_none_right_eq_some.mp run
    cases acquired
    exact late.moves inv.fine ⟨rfl, rfl⟩ rfl rfl rfl rfl carries
  | filesysOpen =>
    rw [pc] at carries locks
    have back := (loadLocked_iff fit.load.1).mpr fit.load
    unfold wp at back
    cases loaded : loadLocked call.loading {fileLock} with
    | none =>
      rw [loaded] at back
      exact back.elim
    | some result =>
      rw [loaded] at back
      have here : fileLock ∈ result.2 := back
      simp only [childStep, pc, fit.name, if_false, locks.2, loaded, here, if_true] at run
      cases run
      exact late.moves inv.fine ⟨locks.1, here⟩ rfl rfl rfl rfl carries
  | done success =>
    rw [pc] at carries locks
    rw [childStep, pc] at run
    cases run
    refine ⟨inv.fine, locks, .inr ⟨{ r with load := success }, write_created late.children _,
      late.pid, ⟨carries.1, carries.2, rfl⟩, late.waits.congr rfl rfl rfl⟩⟩
  | lockRelease success =>
    rw [pc] at carries locks
    simp only [childStep, pc, locks.2, if_true] at run
    cases run
    exact late.moves inv.fine ⟨by simp, by simp⟩ rfl rfl rfl rfl carries
  | semaUp success =>
    rw [pc] at carries locks
    obtain ⟨none, zero, load⟩ := carries
    rw [childStep, pc] at run
    cases run
    refine ⟨inv.fine, ?_, .inr ⟨{ r with loadBarrier := r.loadBarrier + 1 },
      write_created late.children _, late.pid, ?_, late.waits.raise zero rfl rfl⟩⟩
    · cases success <;> exact locks
    · cases success <;> exact ⟨congrArg some load.symm, congrArg (· + 1) zero⟩
  | exiting =>
    rw [pc] at carries locks
    rw [childStep, pc] at run
    cases run
    refine ⟨inv.fine, ?_, .inr ⟨{ r with exit := true, waitBarrier := r.waitBarrier + 1 },
      write_created late.children _, late.pid, carries, late.waits.congr rfl rfl rfl⟩⟩
    simpa [move, Locks, locks.1] using locks

theorem Locks.others {holder new : Option LockHolder} {held : Finset LockId} {child : StartPc}
    (h : Locks holder held child) (free : holder ≠ some .child) (notChild : new ≠ some .child)
    (notCaller : new ≠ some .caller) : Locks new held child := by
  cases child with
  | filesysOpen | done success | lockRelease success => exact absurd h.1 free
  | unborn | pagedirCreate | determineArgument | lockAcquire | semaUp success | running | exiting
  | gone => exact ⟨notChild, notCaller⟩

/-- Another thread takes or gives back `file_lock`. -/
theorem ExecInv.others {holder : Option LockHolder} (inv : ExecInv call st)
    (eq : st' = { st with holder := holder, panicked := false })
    (locks : Locks holder st.held st.child) : ExecInv call st' := by
  subst eq
  refine ⟨rfl, locks, inv.phase.imp (fun early => ?_) fun ⟨r, late⟩ => ⟨r, ?_⟩⟩
  · exact ⟨early.caller, early.child, early.children, early.loaded⟩
  · exact ⟨late.children, late.pid, late.carries, late.waits.congr rfl rfl rfl⟩

theorem reach_inv (fit : Fit call) (reached : Reached call st) : ExecInv call st := by
  refine reached.invariant (fun _ eq => eq ▸ start_inv fit.lock) fun st act st' inv _ run => ?_
  replace run : st.step call act = some st' := run
  unfold step at run
  rw [inv.fine] at run
  cases act with
  | caller => exact callerStep_inv fit inv run
  | child => exact childStep_inv fit inv run
  | exit =>
    obtain ⟨running, exits⟩ := Option.ite_none_right_eq_some.mp run
    cases exits
    have locks := inv.locks
    rw [running] at locks
    rcases inv.phase with early | ⟨r, late⟩
    · rw [early.child] at running
      cases running
    · have carries := late.carries
      rw [running] at carries
      exact late.moves inv.fine locks rfl rfl rfl rfl carries
  | acquire =>
    obtain ⟨free, acquired⟩ := Option.ite_none_right_eq_some.mp run
    cases acquired
    exact inv.others rfl (inv.locks.others (by rw [free]; decide) (by decide) (by decide))
  | release =>
    obtain ⟨taken, released⟩ := Option.ite_none_right_eq_some.mp run
    cases released
    exact inv.others rfl (inv.locks.others (by rw [taken]; decide) (by decide) (by decide))

/-- Where `load` has not raised `load_barrier` the child goes on, unless another thread has
`file_lock`. -/
theorem ExecInv.goes (inv : ExecInv call st) (late : Late call st r) (first : st.signals = 0)
    (free : st.holder ≠ some .other) : st.childStep call ≠ none := by
  have carries := late.carries
  have locks := inv.locks
  unfold childStep
  cases pc : st.child with
  | unborn =>
    rw [pc] at carries
    exact carries.elim
  | pagedirCreate | determineArgument | done success | semaUp success | exiting => simp
  | lockAcquire =>
    rw [pc] at locks
    have none : st.holder = none := by
      cases holder : st.holder with
      | none => rfl
      | some h =>
        rw [holder] at free locks
        cases h with
        | caller => exact absurd rfl locks.2
        | child => exact absurd rfl locks.1
        | other => exact absurd rfl free
    simp [none]
  | filesysOpen =>
    dsimp only
    split
    · simp
    · split <;> simp
  | lockRelease success =>
    dsimp only
    split <;> simp
  | running | gone =>
    rw [pc] at carries
    have one := carries.2
    omega

/-- Where nobody can go on, `load` has raised `load_barrier` and `exec` has returned. -/
theorem ExecInv.stuck (fit : Fit call) (inv : ExecInv call st) (stuck : st.Stuck call) :
    st.signals = 1 ∧ ∃ pid, st.caller = .returned pid := by
  obtain ⟨caller, child, free⟩ := stuck
  simp only [step, inv.fine, Bool.false_eq_true, if_false] at caller child
  rcases inv.phase with early | ⟨r, late⟩
  · obtain ⟨copy, name, page, record, -⟩ := fit.memory
    have named := call.named fit.name
    rcases early.caller with pc | pc | pc <;>
      simp [callerStep, pc, page, named, record] at caller
  · have raised : st.signals = 1 := by
      by_contra other
      have zero : st.signals = 0 := by
        by_contra up
        exact other (late.carries.raised up).1
      exact inv.goes late zero free child
    refine ⟨raised, ?_⟩
    have waits := late.waits
    cases pc : st.caller with
    | pallocGetPage | determineArgument | threadCreate | faulted =>
      rw [pc] at waits
      exact waits.elim
    | getChild pid => simp [callerStep, pc] at caller
    | semaDown record pid =>
      rw [pc] at waits
      obtain ⟨rfl, rfl, barrier⟩ := waits
      simp [callerStep, pc, late.children, barrier, raised] at caller
    | testLoad record pid =>
      rw [pc] at waits
      obtain ⟨rfl, -⟩ := waits
      simp [callerStep, pc, late.children] at caller
    | returned pid => exact ⟨pid, rfl⟩

theorem Fit.reports (fit : Fit call) : Reports call where
  value st reached pid pc := by
    rcases (reach_inv fit reached).phase with early | ⟨r, late⟩
    · rcases early.caller with other | other | other <;> rw [pc] at other <;> cases other
    · have waits := late.waits
      rw [pc] at waits
      exact waits.2.2
  present st reached pid pc := by
    rcases (reach_inv fit reached).phase with early | ⟨r, late⟩
    · rcases early.caller with other | other | other <;> rw [pc] at other <;> cases other
    · have waits := late.waits
      rw [pc] at waits
      cases waits.1
  once st reached := by
    have inv := reach_inv fit reached
    refine ⟨?_, fun stuck _ => (inv.stuck fit stuck).1⟩
    rcases inv.phase with early | ⟨r, late⟩
    · rw [early.loaded.2]
      exact Nat.zero_le 1
    · by_cases first : st.signals = 0
      · rw [first]
        exact Nat.zero_le 1
      · exact (late.carries.raised first).1.le
  returns st reached stuck := ((reach_inv fit reached).stuck fit stuck).2
  ends _ _ run := exec_ends run

end Fit

section Unfit

variable {call : ExecCall} {r : LoadRecord} {holder : Option LockHolder}

/-- The state of a call before there is a child. -/
def earlyState (call : ExecCall) (holder : Option LockHolder) (caller : CallerPc) : ExecState :=
  ⟨caller, .unborn, call.children, holder, ∅, false, none, 0⟩

/-- Once other threads have given back `file_lock`. -/
theorem reached_free (call : ExecCall) : ∃ holder, holder ≠ some .other ∧
    (call.holder = some .caller → holder = some .caller) ∧
    (call.holder ≠ some .caller → holder = none) ∧
    Reached call (earlyState call holder .pallocGetPage) := by
  cases holder : call.holder with
  | none =>
    refine ⟨none, by decide, fun eq => (by cases eq), fun _ => rfl, .start ?_⟩
    rw [start, holder]
    rfl
  | some h =>
    cases h with
    | caller =>
      refine ⟨some .caller, by decide, fun _ => rfl, fun other => absurd rfl other, .start ?_⟩
      rw [start, holder]
      rfl
    | child => exact absurd holder call.unborn
    | other =>
      refine ⟨none, by decide, fun eq => (by cases eq), fun _ => rfl, ?_⟩
      refine Reach.take (.start rfl) .release trivial ?_
      simp [step, start, holder, earlyState]

/-- The state of a call in which the caller waits at `load_barrier`. -/
def waitState (call : ExecCall) (r : LoadRecord) (holder : Option LockHolder)
    (held : Finset LockId) (child : StartPc) : ExecState :=
  ⟨.semaDown (some call.children.length) call.nextTid, child, call.children ++ [r], holder, held,
    false, none, 0⟩

theorem Reports.early_stuck (reports : Reports call) {caller : CallerPc}
    (reached : Reached call (earlyState call holder caller)) (free : holder ≠ some .other)
    (stuck : (earlyState call holder caller).callerStep call = none)
    (busy : ∀ pid, caller ≠ .returned pid) : False := by
  obtain ⟨pid, pc⟩ := reports.returns _ reached ⟨stuck, rfl, free⟩
  exact busy pid pc

/-- The caller finds no record for the error value. -/
theorem Reports.no_error (reports : Reports call)
    (reached : Reached call (earlyState call holder (.getChild (-1)))) : False := by
  have missing : (earlyState call holder (.getChild (-1))).getChild (-1) = none := by
    rw [getChild, List.findIdx?_eq_none_iff]
    intro old mem
    have positive := (call.older old mem).1
    simp only [decide_eq_false_iff_not]
    intro eq
    rw [eq] at positive
    cases positive
  have next : Reached call (earlyState call holder (.semaDown none (-1))) := by
    refine reached.caller rfl ?_
    rw [callerStep]
    dsimp only [earlyState] at missing ⊢
    rw [missing]
    rfl
  exact reports.present _ next (-1) rfl

/-- A panic is no way to return. -/
theorem Reports.no_panic (reports : Reports call) {st : ExecState} (reached : Reached call st)
    (panicked : st.panicked = true) (free : st.holder ≠ some .other)
    (busy : ∀ pid, st.caller ≠ .returned pid) : False := by
  have stopped : ∀ act, st.step call act = none := by simp [step, panicked]
  obtain ⟨pid, pc⟩ := reports.returns _ reached ⟨stopped _, stopped _, free⟩
  exact busy pid pc

/-- The caller waits for ever for a child that does not go on. -/
theorem Reports.no_wait (reports : Reports call) {child : StartPc} {held : Finset LockId}
    (reached : Reached call (waitState call r holder held child)) (down : r.loadBarrier = 0)
    (stuck : (waitState call r holder held child).childStep call = none)
    (free : holder ≠ some .other) : False := by
  have caller : (waitState call r holder held child).callerStep call = none := by
    simp [waitState, callerStep, down]
  obtain ⟨pid, pc⟩ := reports.returns _ reached ⟨caller, stuck, free⟩
  cases pc

/-- With its memory and a name the caller makes the child and waits for it. -/
theorem reached_wait (reached : Reached call (earlyState call holder .pallocGetPage))
    (copy : call.copyPage = true) (name : call.nameBlock = true) (page : call.threadPage = true)
    (named : determineArgument call.cmdLine ≠ none) (record : call.recordBlock = true) :
    Reached call (waitState call (.create call.nextTid) holder ∅ .pagedirCreate) := by
  have first : Reached call (earlyState call holder .determineArgument) :=
    reached.caller rfl (by simp [earlyState, callerStep, copy, goto])
  have second : Reached call (earlyState call holder .threadCreate) :=
    first.caller rfl (by simp [earlyState, callerStep, name, goto])
  let created : ExecState := { earlyState call holder (.getChild call.nextTid) with
    child := .pagedirCreate
    children := call.children ++ [.create call.nextTid] }
  have third : Reached call created :=
    second.caller rfl (by simp [created, earlyState, callerStep, page, named, record, goto])
  have found : created.getChild call.nextTid = some call.children.length :=
    getChild_created rfl rfl
  refine third.caller rfl ?_
  rw [callerStep]
  dsimp only [created, earlyState] at found ⊢
  rw [found]
  rfl

theorem Reports.memory (reports : Reports call) : call.copyPage = true ∧ call.nameBlock = true ∧
    call.threadPage = true ∧ determineArgument call.cmdLine ≠ none ∧ call.recordBlock = true := by
  obtain ⟨holder, free, -, -, reached⟩ := reached_free call
  cases copy : call.copyPage with
  | false =>
    have error : Reached call (earlyState call holder (.getChild (-1))) :=
      reached.caller rfl (by simp [earlyState, callerStep, copy, goto])
    exact (reports.no_error error).elim
  | true =>
  have first : Reached call (earlyState call holder .determineArgument) :=
    reached.caller rfl (by simp [earlyState, callerStep, copy, goto])
  cases name : call.nameBlock with
  | false =>
    have faulted : Reached call (earlyState call holder .faulted) :=
      first.caller rfl (by simp [earlyState, callerStep, name, goto])
    exact (reports.early_stuck faulted free rfl (by simp)).elim
  | true =>
  have second : Reached call (earlyState call holder .threadCreate) :=
    first.caller rfl (by simp [earlyState, callerStep, name, goto])
  cases page : call.threadPage with
  | false =>
    have error : Reached call (earlyState call holder (.getChild (-1))) :=
      second.caller rfl (by simp [earlyState, callerStep, page, goto])
    exact (reports.no_error error).elim
  | true =>
  have named : determineArgument call.cmdLine ≠ none := by
    intro empty
    have panicked : Reached call (earlyState call holder .threadCreate).panic :=
      second.caller rfl (by simp [earlyState, callerStep, page, empty])
    exact reports.no_panic panicked rfl free (by simp [panic, earlyState])
  cases record : call.recordBlock with
  | false =>
    have faulted : Reached call (earlyState call holder .faulted) :=
      second.caller rfl (by simp [earlyState, callerStep, page, named, record, goto])
    exact (reports.early_stuck faulted free rfl (by simp)).elim
  | true => exact ⟨rfl, rfl, rfl, named, rfl⟩

/-- A child that comes to its end in `exit` without raising `load_barrier`. -/
theorem Reports.no_exit (reports : Reports call) {held : Finset LockId}
    (reached : Reached call (waitState call r holder held .exiting)) (down : r.loadBarrier = 0)
    (free : holder ≠ some .other) : False := by
  obtain ⟨left, back, gone⟩ : ∃ left, left ≠ some .other ∧ Reached call (waitState call
      { r with exit := true, waitBarrier := r.waitBarrier + 1 } left ∅ .gone) := by
    by_cases child : holder = some .child
    · subst child
      refine ⟨none, by decide, reached.child rfl ?_⟩
      simp [waitState, childStep, write, modify_last, move]
    · refine ⟨holder, free, reached.child rfl ?_⟩
      simp [waitState, childStep, write, modify_last, move, child]
  exact reports.no_wait gone down rfl back

/-- A child that comes to the end of `load` without `file_lock`. -/
theorem Reports.no_release (reports : Reports call) {held : Finset LockId} {success : Bool}
    (reached : Reached call (waitState call r holder held (.done success))) (lost : fileLock ∉ held)
    (free : holder ≠ some .other) : False := by
  let released := waitState call { r with load := success } holder held (.lockRelease success)
  have last : Reached call released :=
    reached.child rfl (by simp [released, waitState, childStep, write, modify_last, move])
  have panicked : Reached call released.panic :=
    last.child rfl (by simp [released, waitState, childStep, lost])
  exact reports.no_panic panicked rfl free (by simp [released, panic, waitState])

/-- Where the call is not fit, some interleaving goes wrong. -/
theorem Reports.fit (reports : Reports call) : Fit call := by
  obtain ⟨copy, name, page, named, record⟩ := reports.memory
  obtain ⟨holder, free, mine, others, reached⟩ := reached_free call
  have created := reached_wait reached copy name page named record
  cases pagedir : call.loading.pagedir with
  | false =>
    have done : Reached call (waitState call (.create call.nextTid) holder ∅ (.done false)) :=
      created.child rfl (by simp [waitState, childStep, pagedir, move])
    exact (reports.no_release done (by simp) free).elim
  | true =>
  have second : Reached call (waitState call (.create call.nextTid) holder ∅ .determineArgument) :=
    created.child rfl (by simp [waitState, childStep, pagedir, move])
  cases block : call.childNameBlock with
  | false =>
    have exits : Reached call (waitState call (.create call.nextTid) holder ∅ .exiting) :=
      second.child rfl (by simp [waitState, childStep, block, move])
    exact (reports.no_exit exits rfl free).elim
  | true =>
  have third : Reached call (waitState call (.create call.nextTid) holder ∅ .lockAcquire) :=
    second.child rfl (by simp [waitState, childStep, block, move])
  have lock : call.holder ≠ some .caller := by
    intro held
    have taken := mine held
    subst taken
    exact reports.no_wait third rfl (by simp [waitState, childStep]) free
  obtain rfl := others lock
  let locked := waitState call (.create call.nextTid) (some .child) {fileLock}
  have fourth : Reached call (locked .filesysOpen) :=
    third.child rfl (by simp [locked, waitState, childStep])
  have copied : determineArgument call.fnCopy ≠ none := by
    intro empty
    have exits : Reached call (locked .exiting) :=
      fourth.child rfl (by simp [locked, waitState, childStep, empty, move])
    exact reports.no_exit exits rfl (by simp)
  refine ⟨⟨copy, name, page, record, block⟩, copied, (loadLocked_iff pagedir).mp ?_, lock⟩
  unfold wp
  cases loaded : loadLocked call.loading {fileLock} with
  | none =>
    have panicked : Reached call (locked .filesysOpen).panic :=
      fourth.child rfl (by simp [locked, waitState, childStep, copied, loaded])
    have busy : ∀ pid, (locked .filesysOpen).panic.caller ≠ .returned pid := by
      simp [locked, panic, waitState]
    exact (reports.no_panic panicked rfl (by simp [locked, panic, waitState]) busy).elim
  | some result =>
    obtain ⟨success, held⟩ := result
    show fileLock ∈ held
    by_contra lost
    have done : Reached call (waitState call (.create call.nextTid) none held (.done success)) :=
      fourth.child rfl (by simp [locked, waitState, childStep, copied, loaded, lost])
    exact reports.no_release done lost (by simp)

end Unfit

/-- What `load` meets where the working directory has no such name. -/
def missingFile : Loading where
  pagedir := true
  opening := ⟨false, .cur 1, [], some 1, .name [] none, ⟨1, none⟩, none⟩
  header := ⟨true, []⟩
  valid := false
  phdrs := []
  stack := ⟨[], true, [], true⟩

/-- A call by a process without children. -/
def firstExec (copyPage : Bool) (loading : Loading) : ExecCall where
  cmdLine := ⟨[101, 99, 104, 111], by decide⟩
  copyPage := copyPage
  nameBlock := true
  threadPage := true
  recordBlock := true
  childNameBlock := true
  loading := loading
  nextTid := 4
  children := []
  older := by simp
  positive := by decide
  holder := none
  unborn := by decide

end ExecState

end Pintos.Userprog
