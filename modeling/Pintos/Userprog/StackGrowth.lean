import Pintos.Userprog.FailedInstall

/-! The two decisions about a page of the stack that is not there yet: `page_fault` goes by the
stack pointer of the trap frame, `check_valid_esp` by the one that the thread remembers. -/

namespace Pintos.Userprog

open Transition Vm UserProcess

/-- What paging answers: `load_back`, `palloc_get_page` with the loop of `evict` around it, neither
with a result where the kernel panics, and whether `pagedir_set_page` has memory. -/
structure Pager where
  loadBack : Frames → SupPage → Option (Frames × Bool)
  getPage : Frames → Option (Frames × Nat)
  setPage : Bool

/-- A process with `esp` of its `struct thread`. -/
structure StackProcess where
  frames : Frames
  esp : UInt32

namespace StackProcess

def pgRoundDown (va : UInt32) : UInt32 := va - va % 4096

theorem pgRoundDown_toNat (va : UInt32) :
    (pgRoundDown va).toNat = va.toNat - va.toNat % pgsize := by
  have le : va % 4096 ≤ va := by
    rw [UInt32.le_iff_toNat_le, UInt32.toNat_mod]
    exact Nat.mod_le ..
  rw [pgRoundDown, UInt32.toNat_sub_of_le _ _ le, UInt32.toNat_mod]
  rfl

/-- `pagedir_get_page` is not null. -/
def mapped (st : StackProcess) (addr : UInt32) : Bool :=
  st.frames.proc.present (pgRoundDown addr).toNat

def exit (st : StackProcess) : StackProcess :=
  { st with frames := { st.frames with proc := { st.frames.proc with stage := .ending } } }

/-- `setup_stack` up to the arguments. -/
def setupStack (st : StackProcess) (kpage : Nat) (setPage : Bool) : StackProcess × Bool :=
  let (frames, success) := st.frames.setupStack kpage setPage
  (⟨frames, if success then 0xbffff000 else st.esp⟩, success)

/-- What both do for an address that is not mapped, with the stack pointer they go by.  The process
goes on or has called `exit`. -/
def bringIn (pager : Pager) (st : StackProcess) (addr esp : UInt32) :
    Option (StackProcess × Bool) :=
  match st.frames.proc.findSpt (pgRoundDown addr).toNat with
  | some spt =>
    (pager.loadBack st.frames spt).map fun (frames, success) =>
      let st := { st with frames }
      (if success then st else st.exit, success)
  | none =>
    if esp - 33 < addr then
      (pager.getPage st.frames).map fun (frames, kpage) =>
        let (frames, success) := frames.growStack addr.toNat kpage pager.setPage
        (if success then ⟨frames, pgRoundDown addr⟩ else exit { st with frames }, success)
    else some (st.exit, false)

def checkValidEsp (pager : Pager) (st : StackProcess) (ptr esp : UInt32) :
    Option (StackProcess × Bool) :=
  if physBase ≤ ptr.toNat ∨ ptr.toNat ≤ codeBase then some (st.exit, false)
  else if st.mapped ptr then some (st, true)
  else st.bringIn pager ptr esp

/-- `page_fault` with `esp` of the trap frame.  A page that is mapped ends the process. -/
def pageFault (pager : Pager) (st : StackProcess) (notPresent : Bool) (faultAddr esp : UInt32) :
    Option (StackProcess × Bool) :=
  if !notPresent ∨ physBase ≤ faultAddr.toNat ∨ faultAddr.toNat ≤ codeBase then
    some (st.exit, false)
  else if st.mapped faultAddr then some (st.exit, false)
  else st.bringIn pager faultAddr esp

/-- The check that `syscall_handler` makes. -/
def syscallCheck (pager : Pager) (st : StackProcess) (ptr : UInt32) :
    Option (StackProcess × Bool) :=
  st.checkValidEsp pager ptr st.esp

/-- An access by the program with its stack pointer, which faults where nothing is mapped. -/
def touch (pager : Pager) (st : StackProcess) (addr esp : UInt32) : Option (StackProcess × Bool) :=
  if st.mapped addr then some (st, true) else st.pageFault pager true addr esp

/-- The process goes on. -/
def goesOn (result : Option (StackProcess × Bool)) : Bool := result.any Prod.snd

/-- A page for the stack can be had and mapped. -/
def canGrow (pager : Pager) (st : StackProcess) (addr : UInt32) : Bool :=
  (pager.getPage st.frames).any fun (frames, _) =>
    !frames.proc.present (pgRoundDown addr).toNat && pager.setPage

section Decisions

variable (pager : Pager) (st : StackProcess) {addr : UInt32}

/-- A page with an entry in `page_table` is loaded, whatever the stack pointer is. -/
theorem bringIn_spt (esp u : UInt32)
    (entry : st.frames.proc.findSpt (pgRoundDown addr).toNat ≠ none) :
    st.bringIn pager addr esp = st.bringIn pager addr u := by
  obtain ⟨spt, found⟩ := Option.ne_none_iff_exists'.mp entry
  simp only [bringIn, found]

/-- Another page is one for the stack if it is above the stack pointer and can be had. -/
theorem bringIn_grow (esp : UInt32)
    (new : st.frames.proc.findSpt (pgRoundDown addr).toNat = none) :
    goesOn (st.bringIn pager addr esp) = true ↔
      esp - 33 < addr ∧ st.canGrow pager addr = true := by
  rw [bringIn, new]
  dsimp only
  by_cases above : esp - 33 < addr
  · rw [if_pos above]
    cases got : pager.getPage st.frames with
    | none => simp [goesOn, canGrow, got]
    | some page =>
      have grown := page.1.installStackPage_succeeds_iff (addr.toNat - addr.toNat % pgsize) page.2
        pager.setPage
      simp only [goesOn, canGrow, got, Option.map_some, Option.any_some, above, true_and,
        pgRoundDown_toNat, Bool.and_eq_true, Bool.not_eq_true']
      exact grown
  · rw [if_neg above]
    simp [goesOn, above]

/-- Within the user's addresses the check comes to what an access with the remembered stack pointer
would. -/
theorem checkValidEsp_eq_touch (low : codeBase < addr.toNat) (high : addr.toNat < physBase)
    (esp : UInt32) : st.checkValidEsp pager addr esp = st.touch pager addr esp := by
  have inside : ¬(physBase ≤ addr.toNat ∨ addr.toNat ≤ codeBase) := by omega
  rw [checkValidEsp, touch, pageFault, if_neg inside]
  cases mapped : st.mapped addr with
  | true => rfl
  | false => simp [inside]

theorem touch_mapped (mapped : st.mapped addr = true) (esp : UInt32) :
    st.touch pager addr esp = some (st, true) := by
  rw [touch, if_pos mapped]

theorem touch_absent (low : codeBase < addr.toNat) (high : addr.toNat < physBase)
    (absent : st.mapped addr = false) (esp : UInt32) :
    st.touch pager addr esp = st.bringIn pager addr esp := by
  rw [← checkValidEsp_eq_touch pager st low high, checkValidEsp, absent]
  have inside : ¬(physBase ≤ addr.toNat ∨ addr.toNat ≤ codeBase) := by omega
  simp [inside]

/-- The stack pointer counts for an address only if there is a page to grow the stack with and none
to load. -/
def Settled (addr : UInt32) : Prop :=
  st.mapped addr = true ∨ st.frames.proc.findSpt (pgRoundDown addr).toNat ≠ none ∨
    st.canGrow pager addr = false

/-- The two decisions agree where the stack pointer does not count, or where the address is on the
same side of both. -/
theorem syscallCheck_agrees_iff (addr u : UInt32) (low : codeBase < addr.toNat)
    (high : addr.toNat < physBase) :
    (goesOn (st.syscallCheck pager addr) = true ↔ goesOn (st.touch pager addr u) = true) ↔
      st.Settled pager addr ∨ (st.esp - 33 < addr ↔ u - 33 < addr) := by
  rw [syscallCheck, checkValidEsp_eq_touch pager st low high]
  cases mapped : st.mapped addr with
  | true =>
    rw [touch_mapped pager st mapped, touch_mapped pager st mapped]
    exact ⟨fun _ => .inl (.inl mapped), fun _ => Iff.rfl⟩
  | false =>
    rw [touch_absent pager st low high mapped, touch_absent pager st low high mapped]
    by_cases new : st.frames.proc.findSpt (pgRoundDown addr).toNat = none
    · rw [bringIn_grow pager st _ new, bringIn_grow pager st _ new]
      cases room : st.canGrow pager addr with
      | false => exact ⟨fun _ => .inl (.inr (.inr room)), fun _ => by simp⟩
      | true =>
        have unsettled : ¬st.Settled pager addr := by simp [Settled, mapped, new, room]
        simp [unsettled]
    · rw [bringIn_spt pager st st.esp u new]
      exact ⟨fun _ => .inl (.inr (.inl new)), fun _ => Iff.rfl⟩

/-- A pager that loads a page by its entry alone. -/
def Pager.answers (kpage : Nat) (back setPage : Bool) : Pager where
  loadBack frames spt :=
    let present := Function.update frames.proc.present spt.upage true
    some (if back then { frames with proc := { frames.proc with present } } else frames, back)
  getPage frames := some (frames, kpage)
  setPage := setPage

/-- Without the frames and `esp` the check is the fault of the process alone. -/
theorem checkValidEsp_fault (addr esp : UInt32) (kpage : Nat) (back setPage : Bool) :
    (st.checkValidEsp (Pager.answers kpage back setPage) addr esp).map (fun r => r.1.frames.proc) =
      some (st.frames.proc.fault addr.toNat (esp - 33 < addr) back setPage) := by
  have page : (pgRoundDown addr).toNat = addr.toNat - addr.toNat % pgsize := pgRoundDown_toNat addr
  by_cases outside : physBase ≤ addr.toNat ∨ addr.toNat ≤ codeBase
  · rw [checkValidEsp, fault, if_pos outside]
    simp only [outside, if_true]
    rfl
  cases absent : st.mapped addr with
  | true =>
    rw [mapped, page] at absent
    simp [checkValidEsp, fault, outside, mapped, page, absent]
  | false =>
    have present : st.frames.proc.present (addr.toNat - addr.toNat % pgsize) = false := by
      rw [← page]
      exact absent
    rw [checkValidEsp, if_neg outside, absent, if_neg (by decide), bringIn]
    cases entry : st.frames.proc.findSpt (pgRoundDown addr).toNat with
    | some spt =>
      have found : spt.upage = addr.toNat - addr.toNat % pgsize := by
        rw [← page]
        simpa using List.find?_some entry
      rw [page] at entry
      cases back <;> simp [fault, outside, present, entry, Pager.answers, found, exit]
    | none =>
      rw [page] at entry
      by_cases above : esp - 33 < addr
      · have grown := Frames.growStack_fault outside present entry kpage back setPage
        simp only [above, if_true, decide_true]
        rw [grown]
        by_cases success : (st.frames.growStack addr.toNat kpage setPage).2 = true
        · simp [Pager.answers, success]
        · simp [Pager.answers, success, exit]
      · simp [fault, outside, present, entry, above, exit]

/-- Memory for every page. -/
def plenty : Pager :=
  ⟨fun frames _ => some (frames, true), fun frames => some (frames, 8192), true⟩

/-- What `setup_stack` leaves of a new process. -/
def started : StackProcess := (setupStack ⟨Frames.starting, 0⟩ 4096 true).1

theorem syscallCheck_agrees_started :
    (codeBase < (0xbffff010 : UInt32).toNat ∧ (0xbffff010 : UInt32).toNat < physBase) ∧
      ((goesOn (started.syscallCheck plenty 0xbffff010) = true ↔
          goesOn (started.touch plenty 0xbffff010 0xbfffff00) = true) ↔
        started.Settled plenty 0xbffff010 ∨
          (started.esp - 33 < 0xbffff010 ↔ (0xbfffff00 : UInt32) - 33 < 0xbffff010)) :=
  ⟨by decide, syscallCheck_agrees_iff plenty started 0xbffff010 0xbfffff00 (by decide) (by decide)⟩

/-- The program has lowered its stack pointer by three pages.  It may touch the page there, but a
system call that is given the same address ends it.  Once it has touched the page and has raised the
stack pointer again, a system call grows the stack for a page in between and an access does not. -/
theorem syscallCheck_disagrees :
    ¬(goesOn (started.syscallCheck plenty 0xbfffd000) = true ↔
        goesOn (started.touch plenty 0xbfffd000 0xbfffd000) = true) ∧
      ∃ grown, started.touch plenty 0xbfffd000 0xbfffd000 = some (grown, true) ∧
        ¬(goesOn (grown.syscallCheck plenty 0xbfffe000) = true ↔
          goesOn (grown.touch plenty 0xbfffe000 0xbffffff0) = true) :=
  ⟨by decide, _, rfl, by decide⟩

end Decisions

section History

variable {pager : Pager} {st st' : StackProcess} {addr esp : UInt32}

/-- What a process does: a system call checks an address, the program touches one, or anything else,
which leaves `esp` as it is. -/
inductive StackOp
  | check (pager : Pager) (ptr : UInt32)
  | touch (pager : Pager) (addr esp : UInt32)
  | other (frames : Frames)

/-- A step after which the process goes on. -/
def step (st : StackProcess) : StackOp → Option StackProcess
  | .check pager ptr =>
    (st.syscallCheck pager ptr).bind fun (st, on) => if on then some st else none
  | .touch pager addr esp =>
    (st.touch pager addr esp).bind fun (st, on) => if on then some st else none
  | .other frames => some { st with frames }

/-- The remembered stack pointer is the start of a page of the user's. -/
structure Remembered (st : StackProcess) : Prop where
  aligned : st.esp.toNat % pgsize = 0
  low : codeBase ≤ st.esp.toNat
  high : st.esp.toNat + pgsize ≤ physBase

/-- `esp` changes only where the stack grows, to the page that it grows by. -/
theorem bringIn_esp {on : Bool} (run : st.bringIn pager addr esp = some (st', on)) :
    st'.esp = st.esp ∨ st'.esp = pgRoundDown addr := by
  unfold bringIn at run
  split at run
  · obtain ⟨loaded, -, result⟩ := Option.map_eq_some_iff.mp run
    obtain ⟨rfl, -⟩ := Prod.mk.inj result
    left
    split <;> rfl
  · split at run
    · obtain ⟨page, -, result⟩ := Option.map_eq_some_iff.mp run
      obtain ⟨rfl, -⟩ := Prod.mk.inj result
      split
      · right
        rfl
      · left
        rfl
    · cases run
      left
      rfl

/-- The remembered stack pointer stays, or moves to the page of an address of the user's. -/
def Moved (st st' : StackProcess) : Prop :=
  st'.esp = st.esp ∨ ∃ addr : UInt32, codeBase < addr.toNat ∧ addr.toNat < physBase ∧
    st'.esp = pgRoundDown addr

theorem touch_moved (run : st.touch pager addr esp = some (st', true)) : Moved st st' := by
  cases mapped : st.mapped addr with
  | true =>
    rw [touch_mapped pager st mapped] at run
    cases run
    exact .inl rfl
  | false =>
    by_cases inside : codeBase < addr.toNat ∧ addr.toNat < physBase
    · rw [touch_absent pager st inside.1 inside.2 mapped] at run
      exact (bringIn_esp run).imp_right fun grown => ⟨addr, inside.1, inside.2, grown⟩
    · have outside : physBase ≤ addr.toNat ∨ addr.toNat ≤ codeBase := by omega
      rw [touch, mapped, pageFault, if_neg (by decide), if_pos (.inr outside)] at run
      cases run

theorem checkValidEsp_moved (run : st.checkValidEsp pager addr esp = some (st', true)) :
    Moved st st' := by
  by_cases inside : codeBase < addr.toNat ∧ addr.toNat < physBase
  · rw [checkValidEsp_eq_touch pager st inside.1 inside.2] at run
    exact touch_moved run
  · have outside : physBase ≤ addr.toNat ∨ addr.toNat ≤ codeBase := by omega
    rw [checkValidEsp, if_pos outside] at run
    cases run

theorem step_moved {op : StackOp} (run : st.step op = some st') : Moved st st' := by
  have kept : ∀ {result : Option (StackProcess × Bool)},
      (result.bind fun r => if r.2 then some r.1 else none) = some st' →
        result = some (st', true) := by
    intro result eq
    obtain ⟨⟨after, on⟩, rfl, taken⟩ := Option.bind_eq_some_iff.mp eq
    cases on with
    | false => cases taken
    | true =>
      cases taken
      rfl
  cases op with
  | check pager ptr => exact checkValidEsp_moved (kept run)
  | touch pager addr esp => exact touch_moved (kept run)
  | other frames =>
    cases run
    exact .inl rfl

theorem Remembered.moved (inv : Remembered st) (moved : Moved st st') : Remembered st' := by
  rcases moved with same | ⟨addr, low, high, page⟩
  · exact ⟨same ▸ inv.aligned, same ▸ inv.low, same ▸ inv.high⟩
  · have start : st'.esp.toNat = addr.toNat - addr.toNat % pgsize := by
      rw [page, pgRoundDown_toNat]
    unfold codeBase at low
    unfold physBase at high
    constructor
    · rw [start, pgsize]
      omega
    · rw [start, pgsize, codeBase]
      omega
    · rw [start, pgsize, physBase]
      omega

/-- The initial stack pointer of a process that `setup_stack` gave a stack. -/
theorem setupStack_remembered {kpage : Nat} {setPage : Bool}
    (success : (st.setupStack kpage setPage).2 = true) :
    Remembered (st.setupStack kpage setPage).1 := by
  have esp : (st.setupStack kpage setPage).1.esp = 0xbffff000 := if_pos success
  constructor <;> rw [esp] <;> decide

/-- In every state of a run a system call lets the stack grow for the addresses from 32 bytes below
the page of the last growth on, whatever the stack pointer of the program is. -/
theorem reach_syscallCheck_iff {init : StackProcess} (base : Remembered init)
    (reach : Reach (Fires step) (fun _ _ => True) (· = init) st) (pager : Pager)
    (low : codeBase < addr.toNat) (high : addr.toNat < physBase) (absent : st.mapped addr = false)
    (new : st.frames.proc.findSpt (pgRoundDown addr).toNat = none) :
    goesOn (st.syscallCheck pager addr) = true ↔
      st.esp.toNat < addr.toNat + 33 ∧ st.canGrow pager addr = true := by
  have inv : Remembered st :=
    reach.invariant (fun _ eq => eq ▸ base) fun _ _ _ inv _ run => inv.moved (step_moved run)
  have room : (33 : UInt32) ≤ st.esp := by
    have code : codeBase = 0x08048000 := rfl
    have page := inv.low
    rw [UInt32.le_iff_toNat_le]
    simp only [UInt32.reduceToNat]
    omega
  have below : st.esp - 33 < addr ↔ st.esp.toNat < addr.toNat + 33 := by
    have bytes : (33 : UInt32).toNat = 33 := rfl
    rw [UInt32.lt_iff_toNat_lt, UInt32.toNat_sub_of_le _ _ room, bytes]
    rw [UInt32.le_iff_toNat_le, bytes] at room
    omega
  rw [syscallCheck, checkValidEsp_eq_touch pager st low high,
    touch_absent pager st low high absent, bringIn_grow pager st _ new, below]

end History

end StackProcess

end Pintos.Userprog
