import Pintos.Threads.Semaphore

/-! Priority donation of `synch.c`.  `donate_lock` follows the locks that the holders wait for in
turn and raises each holder to the donor's priority; the recursion ends because every call that
goes on raises one more thread to that priority. -/

namespace Pintos.Threads

open Transition OrderedList

/-- The address of a `struct lock`. -/
abbrev LockId := Nat

/-- The next statement of a thread in `lock_acquire` or `lock_release` of a lock; a blocked thread
is in the waiters of its semaphore. -/
inductive LockPc
  | idle
  | testing (lock : LockId)
  | blocked (lock : LockId)
  | settingHolder (lock : LockId)
  | removingWait (lock : LockId)
  | settingPriority (lock : LockId)
  | inserting (lock : LockId)
  | sorting (lock : LockId)
  | restoring (lock : LockId)
  | clearingHolder (lock : LockId)
  | raising (lock : LockId)
  deriving DecidableEq

/-- The members of `struct thread` and `struct lock` that donation uses, with `threads` the threads
there are. -/
structure Locks where
  threads : List Tid
  priority : Tid → Int
  originalPriority : Tid → Int
  waitLockList : Tid → List LockId
  lockList : Tid → List LockId
  holder : LockId → Option Tid
  lockPriority : LockId → Int
  semaphore : LockId → Semaphore
  pc : Tid → LockPc

namespace Locks

/-- `if (lock->priority < priority) lock->priority = priority`. -/
def raiseLock (s : Locks) (lock : LockId) (priority : Int) : Locks :=
  if s.lockPriority lock < priority then
    { s with lockPriority := Function.update s.lockPriority lock priority }
  else s

def setPriority (s : Locks) (t : Tid) (priority : Int) : Locks :=
  { s with priority := Function.update s.priority t priority }

/-- `donate_lock`, with `fuel` bounding the depth of its recursion. -/
def donateLock : Nat → LockId → Tid → Locks → Option Locks
  | 0, _, _, _ => none
  | fuel + 1, lock, cur, s =>
    match s.holder lock with
    | none => some s
    | some t =>
      let s := s.raiseLock lock (s.priority cur)
      if s.priority t < s.priority cur then
        let s := s.setPriority t (s.priority cur)
        (s.waitLockList t).foldlM (fun s lock => donateLock fuel lock t s) s
      else some s

/-- `s'` is `s` after some threads below `p` were raised to `p`, and some locks with them. -/
structure Raised (p : Int) (s s' : Locks) : Prop where
  threads : s'.threads = s.threads
  original : s'.originalPriority = s.originalPriority
  waits : s'.waitLockList = s.waitLockList
  locks : s'.lockList = s.lockList
  holder : s'.holder = s.holder
  semaphore : s'.semaphore = s.semaphore
  pc : s'.pc = s.pc
  priority : ∀ t, s'.priority t = s.priority t ∨ s.priority t < p ∧ s'.priority t = p
  lockPriority : ∀ lock, s.lockPriority lock ≤ s'.lockPriority lock

/-- Where `w` waits for `lock`, its priority is at most that of the holder, and at most the one
that a lock of `recorded` records. -/
structure CoveredAt (recorded : LockId → Prop) (s : Locks) (w : Tid) (lock : LockId) : Prop where
  holder : ∀ h, s.holder lock = some h → s.priority w ≤ s.priority h
  lock : recorded lock → s.holder lock ≠ none → s.priority w ≤ s.lockPriority lock

/-- Every wait is covered but those of `except`. -/
def Covered (recorded : LockId → Prop) (except : Tid → LockId → Prop) (s : Locks) : Prop :=
  ∀ w lock, lock ∈ s.waitLockList w → ¬except w lock → CoveredAt recorded s w lock

/-- The number of threads below `p`. -/
def below (s : Locks) (p : Int) : Nat := s.threads.countP fun t => s.priority t < p

namespace Raised

variable {p : Int} {s s' s'' : Locks}

theorem refl (p : Int) (s : Locks) : Raised p s s :=
  ⟨rfl, rfl, rfl, rfl, rfl, rfl, rfl, fun _ => .inl rfl, fun _ => le_refl _⟩

theorem trans (h : Raised p s s') (h' : Raised p s' s'') : Raised p s s'' := by
  refine ⟨h'.threads.trans h.threads, h'.original.trans h.original, h'.waits.trans h.waits,
    h'.locks.trans h.locks, h'.holder.trans h.holder, h'.semaphore.trans h.semaphore,
    h'.pc.trans h.pc, fun t => ?_, fun lock => (h.lockPriority lock).trans (h'.lockPriority lock)⟩
  rcases h.priority t with same | ⟨low, raised⟩
  · rw [← same]
    exact h'.priority t
  · rcases h'.priority t with same' | ⟨low', _⟩
    · exact .inr ⟨low, same'.trans raised⟩
    · exact absurd raised (ne_of_lt low')

theorem le (h : Raised p s s') (t : Tid) : s.priority t ≤ s'.priority t := by
  rcases h.priority t with same | ⟨low, raised⟩
  · exact le_of_eq same.symm
  · exact le_of_lt (raised ▸ low)

/-- A thread that is at `p` stays there. -/
theorem fixed (h : Raised p s s') {t : Tid} (at_p : s.priority t = p) : s'.priority t = p := by
  rcases h.priority t with same | ⟨_, raised⟩
  · exact same.trans at_p
  · exact raised

/-- Only priorities of threads and locks change. -/
theorem eq (h : Raised p s s') :
    s' = { s with priority := s'.priority, lockPriority := s'.lockPriority } := by
  obtain ⟨threads, original, waits, locks, holder, semaphore, pc, -, -⟩ := h
  cases s'
  cases threads
  cases original
  cases waits
  cases locks
  cases holder
  cases semaphore
  cases pc
  rfl

theorem below_le (h : Raised p s s') : s'.below p ≤ s.below p := by
  unfold below
  rw [h.threads]
  refine List.countP_mono_left fun t _ low => ?_
  simp only [decide_eq_true_eq] at low ⊢
  exact lt_of_le_of_lt (h.le t) low

end Raised

theorem raiseLock_raised (s : Locks) (lock : LockId) (p q : Int) :
    Raised p s (s.raiseLock lock q) ∧ q ≤ (s.raiseLock lock q).lockPriority lock ∧
      (s.raiseLock lock q).priority = s.priority := by
  unfold raiseLock
  split
  next low =>
    refine ⟨⟨rfl, rfl, rfl, rfl, rfl, rfl, rfl, fun _ => .inl rfl, fun l => ?_⟩, ?_, rfl⟩
    · by_cases same : l = lock
      · subst same
        simp only [Function.update_self]
        omega
      · simp only [Function.update_of_ne same, le_refl]
    · simp
  next high => exact ⟨.refl p s, by omega, rfl⟩

theorem CoveredAt.mono {recorded : LockId → Prop} {s s' : Locks} {w : Tid} {lock : LockId} {p : Int}
    (h : CoveredAt recorded s w lock) (raised : Raised p s s')
    (same : s'.priority w = s.priority w) : CoveredAt recorded s' w lock := by
  refine ⟨fun t held => ?_, fun rec held => ?_⟩
  · rw [raised.holder] at held
    rw [same]
    exact (h.holder t held).trans (raised.le t)
  · rw [raised.holder] at held
    rw [same]
    exact (h.lock rec held).trans (raised.lockPriority lock)

/-- What a call of `donate_lock` does when at most `fuel` threads can still be raised: the wait
that it is called for is covered afterwards, and no other wait loses its cover. -/
def Donates (recorded : LockId → Prop) (fuel : Nat) : Prop :=
  ∀ (lock : LockId) (cur : Tid) (s : Locks) (except : Tid → LockId → Prop),
    s.below (s.priority cur) < fuel → (∀ l h, s.holder l = some h → h ∈ s.threads) →
    Covered recorded (fun w l => except w l ∨ w = cur ∧ l = lock) s →
    ∃ s', donateLock fuel lock cur s = some s' ∧ Raised (s.priority cur) s s' ∧
      Covered recorded except s'

/-- The loop over the locks that a raised thread waits for. -/
theorem Donates.loop {recorded : LockId → Prop} {fuel : Nat} (donates : Donates recorded fuel)
    {t : Tid} (locks : List LockId) {s : Locks} {except : Tid → LockId → Prop}
    (room : s.below (s.priority t) < fuel) (holders : ∀ l h, s.holder l = some h → h ∈ s.threads)
    (covered : Covered recorded (fun w l => except w l ∨ w = t ∧ l ∈ locks) s) :
    ∃ s', locks.foldlM (fun s lock => donateLock fuel lock t s) s = some s' ∧
      Raised (s.priority t) s s' ∧ Covered recorded except s' := by
  induction locks generalizing s with
  | nil =>
    refine ⟨s, rfl, .refl _ s, fun w l waits out => covered w l waits ?_⟩
    simpa using out
  | cons lock locks ih =>
    have first : Covered recorded
        (fun w l => (except w l ∨ w = t ∧ l ∈ locks) ∨ w = t ∧ l = lock) s := by
      intro w l waits out
      refine covered w l waits fun other => out ?_
      rcases other with exc | ⟨rfl, mem⟩
      · exact .inl (.inl exc)
      · rcases List.mem_cons.mp mem with rfl | rest
        · exact .inr ⟨rfl, rfl⟩
        · exact .inl (.inr ⟨rfl, rest⟩)
    obtain ⟨mid, call, raised, covered_mid⟩ := donates lock t s _ room holders first
    have at_p : mid.priority t = s.priority t := raised.fixed rfl
    have room_mid : mid.below (mid.priority t) < fuel := by
      rw [at_p]
      exact lt_of_le_of_lt raised.below_le room
    have holders_mid : ∀ l h, mid.holder l = some h → h ∈ mid.threads := by
      rw [raised.holder, raised.threads]
      exact holders
    obtain ⟨s', rest, raised', covered'⟩ := ih room_mid holders_mid covered_mid
    rw [at_p] at raised'
    refine ⟨s', ?_, raised.trans raised', covered'⟩
    rw [List.foldlM_cons, call]
    exact rest

theorem setPriority_self (s : Locks) (t : Tid) (p : Int) : (s.setPriority t p).priority t = p :=
  Function.update_self ..

theorem setPriority_of_ne (s : Locks) {t u : Tid} (p : Int) (ne : u ≠ t) :
    (s.setPriority t p).priority u = s.priority u :=
  Function.update_of_ne ne ..

theorem setPriority_raised {s : Locks} {t : Tid} {p : Int} (low : s.priority t < p) :
    Raised p s (s.setPriority t p) := by
  refine ⟨rfl, rfl, rfl, rfl, rfl, rfl, rfl, fun u => ?_, fun _ => le_refl _⟩
  by_cases same : u = t
  · subst same
    exact .inr ⟨low, setPriority_self s u p⟩
  · exact .inl (setPriority_of_ne s p same)

theorem setPriority_below {s : Locks} {t : Tid} {p : Int} (low : s.priority t < p)
    (mem : t ∈ s.threads) : (s.setPriority t p).below p < s.below p := by
  have le : ∀ list : List Tid, list.countP (fun u => decide ((s.setPriority t p).priority u < p)) ≤
      list.countP fun u => decide (s.priority u < p) := by
    intro list
    refine List.countP_mono_left fun u _ low' => ?_
    simp only [decide_eq_true_eq] at low' ⊢
    exact lt_of_le_of_lt ((setPriority_raised low).le u) low'
  have raised := setPriority_self s t p
  obtain ⟨pre, post, eq⟩ := List.append_of_mem mem
  have le_pre := le pre
  have le_post := le post
  unfold below
  change s.threads.countP _ < _
  rw [eq, List.countP_append, List.countP_append, List.countP_cons, List.countP_cons, raised]
  simp only [lt_irrefl, decide_false, low, decide_true, if_true, Bool.false_eq_true, if_false]
  omega

section Call

variable {recorded : LockId → Prop} {except : Tid → LockId → Prop} {s : Locks} {lock : LockId}
  {cur t : Tid}

/-- The call finds no holder. -/
theorem Covered.unheld (covered : Covered recorded (fun w l => except w l ∨ w = cur ∧ l = lock) s)
    (free : s.holder lock = none) : Covered recorded except s := by
  intro w l waits out
  by_cases here : w = cur ∧ l = lock
  · obtain ⟨rfl, rfl⟩ := here
    exact ⟨fun h held => by simp [free] at held, fun _ held => absurd free held⟩
  · exact covered w l waits (by simp [out, here])

/-- The lock records the donor's priority, and the holder already has it. -/
theorem Covered.raiseLock
    (covered : Covered recorded (fun w l => except w l ∨ w = cur ∧ l = lock) s)
    (held : s.holder lock = some t) (high : s.priority cur ≤ s.priority t) :
    Covered recorded except (s.raiseLock lock (s.priority cur)) := by
  obtain ⟨raised, record, same⟩ := raiseLock_raised s lock (s.priority cur) (s.priority cur)
  intro w l waits out
  rw [raised.waits] at waits
  by_cases here : w = cur ∧ l = lock
  · obtain ⟨rfl, rfl⟩ := here
    refine ⟨fun h other => ?_, fun _ _ => ?_⟩
    · rw [raised.holder, held] at other
      obtain rfl := Option.some.inj other
      rw [same]
      exact high
    · rw [same]
      exact record
  · exact (covered w l waits (by simp [out, here])).mono raised (congrFun same w)

/-- The holder is raised to the donor's priority, so its own waits are the ones to look at. -/
theorem Covered.raise (covered : Covered recorded (fun w l => except w l ∨ w = cur ∧ l = lock) s)
    (held : s.holder lock = some t) (low : s.priority t < s.priority cur) :
    Covered recorded (fun w l => except w l ∨ w = t ∧ l ∈ s.waitLockList t)
      ((s.raiseLock lock (s.priority cur)).setPriority t (s.priority cur)) := by
  obtain ⟨raised, record, same⟩ := raiseLock_raised s lock (s.priority cur) (s.priority cur)
  have up := setPriority_raised (lt_of_eq_of_lt (congrFun same t) low)
  intro w l waits out
  rw [up.waits, raised.waits] at waits
  have not_t : w ≠ t := by
    rintro rfl
    exact out (.inr ⟨rfl, waits⟩)
  have same_w : ((s.raiseLock lock (s.priority cur)).setPriority t (s.priority cur)).priority w =
      s.priority w := (setPriority_of_ne _ _ not_t).trans (congrFun same w)
  by_cases here : w = cur ∧ l = lock
  · obtain ⟨rfl, rfl⟩ := here
    refine ⟨fun h other => ?_, fun _ _ => ?_⟩
    · rw [up.holder, raised.holder, held] at other
      obtain rfl := Option.some.inj other
      rw [same_w]
      exact le_of_eq (setPriority_self _ _ _).symm
    · rw [same_w]
      exact record
  · exact (covered w l waits fun other => out (.inl (other.resolve_right here))).mono
      (raised.trans up) same_w

end Call

theorem donateLock_donates (recorded : LockId → Prop) (fuel : Nat) : Donates recorded fuel := by
  induction fuel with
  | zero =>
    intro lock cur s except room
    exact absurd room (Nat.not_lt_zero _)
  | succ fuel ih =>
    intro lock cur s except room holders covered
    unfold donateLock
    cases held : s.holder lock with
    | none => exact ⟨s, rfl, .refl _ s, covered.unheld held⟩
    | some t =>
      obtain ⟨raised, _, same⟩ := raiseLock_raised s lock (s.priority cur) (s.priority cur)
      simp only [same]
      split
      next low =>
        have low' := lt_of_eq_of_lt (congrFun same t) low
        have up := setPriority_raised low'
        have at_t := setPriority_self (s.raiseLock lock (s.priority cur)) t (s.priority cur)
        have mem : t ∈ (s.raiseLock lock (s.priority cur)).threads := by
          rw [raised.threads]
          exact holders lock t held
        have room' : ((s.raiseLock lock (s.priority cur)).setPriority t (s.priority cur)).below
            (s.priority cur) < fuel := by
          have fewer := setPriority_below low' mem
          have le := raised.below_le
          omega
        have both := raised.trans up
        obtain ⟨s', loop, raised', covered'⟩ := ih.loop (s.waitLockList t) (at_t.symm ▸ room')
          (by rw [both.holder, both.threads]; exact holders) (covered.raise held low)
        rw [at_t] at raised'
        refine ⟨s', ?_, both.trans raised', covered'⟩
        rw [both.waits]
        exact loop
      next high => exact ⟨_, rfl, raised, covered.raiseLock held (not_lt.mp high)⟩

section Restored

variable {s s' : Locks} {lock : LockId} {cur : Tid}

/-- A loop has the result that it had when its calls keep theirs. -/
theorem foldlM_mono {call call' : Locks → LockId → Option Locks}
    (keeps : ∀ s lock s', call s lock = some s' → call' s lock = some s') {locks : List LockId}
    (run : locks.foldlM call s = some s') : locks.foldlM call' s = some s' := by
  induction locks generalizing s with
  | nil => exact run
  | cons lock locks ih =>
    rw [List.foldlM_cons] at run ⊢
    obtain ⟨mid, first, rest⟩ := Option.bind_eq_some_iff.mp run
    exact Option.bind_eq_some_iff.mpr ⟨mid, keeps s lock mid first, ih rest⟩

/-- More fuel changes nothing. -/
theorem donateLock_succ {fuel : Nat} (run : donateLock fuel lock cur s = some s') :
    donateLock (fuel + 1) lock cur s = some s' := by
  induction fuel generalizing lock cur s s' with
  | zero => cases run
  | succ fuel ih =>
    rw [donateLock] at run ⊢
    cases held : s.holder lock with
    | none =>
      rw [held] at run
      exact run
    | some t =>
      rw [held] at run
      dsimp only at run ⊢
      split at run
      next low =>
        rw [if_pos low]
        exact foldlM_mono (fun _ _ _ call => ih call) run
      next high =>
        rw [if_neg high]
        exact run

theorem donateLock_mono {fuel more : Nat} (le : fuel ≤ more)
    (run : donateLock fuel lock cur s = some s') : donateLock more lock cur s = some s' := by
  induction le with
  | refl => exact run
  | step _ ih => exact donateLock_succ ih

/-- What a thread waits for has its priority at least, and so has the holder. -/
def InOrder (s : Locks) (w : Tid) : Prop :=
  ∀ m ∈ s.waitLockList w, ∀ h, s.holder m = some h →
    s.priority w ≤ s.priority h ∧ s.priority w ≤ s.lockPriority m

theorem inOrder_iff (s : Locks) (w : Tid) :
    s.InOrder w ↔ ∀ m ∈ s.waitLockList w, CoveredAt (fun _ => True) s w m := by
  refine forall_congr' fun m => forall_congr' fun _ => ⟨fun order => ?_, fun covered h held => ?_⟩
  · refine ⟨fun h held => (order h held).1, fun _ held => ?_⟩
    obtain ⟨h, held⟩ := Option.ne_none_iff_exists'.mp held
    exact (order h held).2
  · exact ⟨covered.holder h held, covered.lock trivial (by simp [held])⟩

/-- `donate_lock` ends, whatever the threads wait for.  It raises priorities of threads and locks
only, and after it the threads are in order if all but the donor were, which waits for this lock. -/
theorem donateLock_restores (s : Locks) (lock : LockId) (cur : Tid)
    (holders : ∀ m h, s.holder m = some h → h ∈ s.threads) :
    ∃ s', (∀ fuel, s.threads.length < fuel → donateLock fuel lock cur s = some s') ∧
      s' = { s with priority := s'.priority, lockPriority := s'.lockPriority } ∧
      (∀ t, s.priority t ≤ s'.priority t) ∧ (∀ m, s.lockPriority m ≤ s'.lockPriority m) ∧
      ((∀ w ∈ s.threads, w ≠ cur → s.InOrder w) → s.waitLockList cur = [lock] →
        ∀ w ∈ s.threads, s'.InOrder w) := by
  have room : s.below (s.priority cur) < s.threads.length + 1 :=
    Nat.lt_succ_of_le List.countP_le_length
  -- The waits that are not covered before are left out, but for the one of the donor.
  have covered : Covered (fun _ => True) (fun w m =>
      (¬CoveredAt (fun _ => True) s w m ∧ ¬(w = cur ∧ m = lock)) ∨ w = cur ∧ m = lock) s := by
    intro w m _ out
    by_contra un
    exact out (.inl ⟨un, fun here => out (.inr here)⟩)
  obtain ⟨s', run, raised, covered'⟩ := donateLock_donates _ _ lock cur s _ room holders covered
  refine ⟨s', fun fuel more => donateLock_mono more run, ?_, raised.le, raised.lockPriority,
    fun order waits w mem => ?_⟩
  · exact raised.eq
  · rw [inOrder_iff]
    intro m mem'
    refine covered' w m mem' fun out => ?_
    rw [raised.waits] at mem'
    by_cases eq : w = cur
    · subst eq
      rw [waits, List.mem_singleton] at mem'
      exact out.2 ⟨rfl, mem'⟩
    · exact out.1 ((inOrder_iff s w).mp (order w mem eq) m mem')

/-- Two threads that each wait for the lock of the other. -/
def deadlock : Locks where
  threads := [1, 2]
  priority := fun t => if t = 1 then 40 else 31
  originalPriority := fun _ => 31
  waitLockList := fun t => if t = 1 then [2] else if t = 2 then [1] else []
  lockList := fun t => [t]
  holder := fun m => if m = 1 then some 1 else if m = 2 then some 2 else none
  lockPriority := fun _ => 31
  semaphore := fun _ => ⟨0, []⟩
  pc := fun _ => .idle

theorem donateLock_restores_deadlock :
    ∃ s', donateLock 3 2 1 deadlock = some s' ∧ ∀ w ∈ deadlock.threads, s'.InOrder w := by
  have holders : ∀ m h, deadlock.holder m = some h → h ∈ deadlock.threads := by
    intro m h held
    simp only [deadlock] at held ⊢
    split at held
    · cases held
      simp
    · split at held
      · cases held
        simp
      · cases held
  obtain ⟨s', ends, -, -, -, order⟩ := donateLock_restores deadlock 2 1 holders
  refine ⟨s', ends 3 (by decide), order (fun w mem ne => ?_) rfl⟩
  obtain rfl : w = 2 := by simpa [deadlock, ne] using mem
  simp [InOrder, deadlock]

end Restored

section Donee

/-- The threads below `p` that the locks of `start` lead to: their holders, and then the holders of
the locks that these wait for. -/
inductive Donee (s : Locks) (p : Int) (start : LockId → Prop) : Tid → Prop
  | holder {lock : LockId} {t : Tid} : start lock → s.holder lock = some t → s.priority t < p →
      Donee s p start t
  | next {u t : Tid} {lock : LockId} : Donee s p start u → lock ∈ s.waitLockList u →
      s.holder lock = some t → s.priority t < p → Donee s p start t

/-- `s'` is `s` with those threads at `p` and the others as they were. -/
structure Reached (p : Int) (start : LockId → Prop) (s s' : Locks) : Prop
    extends Raised p s s' where
  donee : ∀ t, s.priority t < s'.priority t → Donee s p start t
  first : ∀ lock t, start lock → s.holder lock = some t → p ≤ s'.priority t
  closed : ∀ u, s.priority u < s'.priority u → ∀ lock ∈ s.waitLockList u, ∀ t,
    s.holder lock = some t → p ≤ s'.priority t

variable {p : Int} {start start' : LockId → Prop} {s s' mid : Locks} {t : Tid}

/-- Threads that are higher, or fewer locks to start from, leave fewer donees. -/
theorem Donee.mono (donee : Donee s' p start' t) (raised : Raised p s s')
    (sub : ∀ lock, start' lock → start lock) : Donee s p start t := by
  induction donee with
  | holder first held low =>
    rw [raised.holder] at held
    exact .holder (sub _ first) held (lt_of_le_of_lt (raised.le _) low)
  | next _ waits held low ih =>
    rw [raised.waits] at waits
    rw [raised.holder] at held
    exact .next ih waits held (lt_of_le_of_lt (raised.le _) low)

theorem Donee.low (donee : Donee s p start t) : s.priority t < p := by
  cases donee with
  | holder _ _ low => exact low
  | next _ _ _ low => exact low

/-- What the waits of a donee lead to. -/
theorem Donee.through {u : Tid} (via : Donee s p start t)
    (donee : Donee s p (· ∈ s.waitLockList t) u) : Donee s p start u := by
  induction donee with
  | holder first held low => exact .next via first held low
  | next _ waits held low ih => exact .next ih waits held low

theorem Reached.of_same (raised : Raised p s s') (same : s'.priority = s.priority)
    (first : ∀ lock t, start lock → s.holder lock = some t → p ≤ s.priority t) :
    Reached p start s s' := by
  refine ⟨raised, fun t up => ?_, fun lock t begins held => ?_, fun u up => ?_⟩
  · rw [same] at up
    exact absurd up (lt_irrefl _)
  · rw [same]
    exact first lock t begins held
  · rw [same] at up
    exact absurd up (lt_irrefl _)

theorem Reached.trans (h : Reached p start s mid) (h' : Reached p start' mid s') :
    Reached p (fun lock => start lock ∨ start' lock) s s' := by
  have before : ∀ t, s.priority t < s'.priority t → s.priority t < mid.priority t ∨
      mid.priority t < s'.priority t := by
    intro t up
    by_cases low : s.priority t < mid.priority t
    · exact .inl low
    · exact .inr (lt_of_le_of_lt (not_lt.mp low) up)
  refine ⟨h.toRaised.trans h'.toRaised, fun t up => ?_, fun lock t begins held => ?_,
    fun u up lock waits t held => ?_⟩
  · rcases before t up with up | up
    · exact (h.donee t up).mono (.refl p s) fun _ => .inl
    · exact (h'.donee t up).mono h.toRaised fun _ => .inr
  · rcases begins with begins | begins
    · exact (h.first lock t begins held).trans (h'.le t)
    · rw [← h.holder] at held
      exact h'.first lock t begins held
  · rcases before u up with up | up
    · exact (h.closed u up lock waits t held).trans (h'.le t)
    · rw [← h.waits] at waits
      rw [← h.holder] at held
      exact h'.closed u up lock waits t held

/-- The holder of a lock is raised, and then those that its waits lead to. -/
theorem Reached.raise {lock : LockId} (held : s.holder lock = some t) (low : s.priority t < p)
    (raised : Raised p s mid) (same : mid.priority = s.priority)
    (h : Reached p (· ∈ s.waitLockList t) (mid.setPriority t p) s') :
    Reached p (· = lock) s s' := by
  have up := setPriority_raised (lt_of_eq_of_lt (congrFun same t) low)
  have both := raised.trans up
  have at_t := setPriority_self mid t p
  have others : ∀ u, u ≠ t → (mid.setPriority t p).priority u = s.priority u := fun u ne =>
    (setPriority_of_ne mid p ne).trans (congrFun same u)
  have start : Donee s p (· = lock) t := .holder rfl held low
  refine ⟨both.trans h.toRaised, fun u up => ?_, fun l u begins held' => ?_,
    fun u up l waits v held' => ?_⟩
  · by_cases eq : u = t
    · rw [eq]
      exact start
    · rw [← others u eq] at up
      exact start.through ((h.donee u up).mono both fun _ => id)
  · subst begins
    obtain rfl := Option.some.inj (held'.symm.trans held)
    exact le_of_eq_of_le at_t.symm (h.le u)
  · by_cases eq : u = t
    · subst eq
      rw [← both.holder] at held'
      exact h.first l v waits held'
    · rw [← others u eq] at up
      rw [← both.waits] at waits
      rw [← both.holder] at held'
      exact h.closed u up l waits v held'

/-- The loop over the locks that a raised thread waits for, when each call does so. -/
theorem Reached.loop {call : Locks → LockId → Option Locks} {P : Locks → Prop}
    (calls : ∀ lock s s', P s → call s lock = some s' → Reached p (· = lock) s s' ∧ P s')
    (locks : List LockId) (hP : P s) (run : locks.foldlM call s = some s') :
    Reached p (· ∈ locks) s s' := by
  induction locks generalizing s with
  | nil =>
    cases run
    exact .of_same (.refl p _) rfl fun lock t begins => nomatch begins
  | cons lock locks ih =>
    rw [List.foldlM_cons] at run
    obtain ⟨mid, first, rest⟩ := Option.bind_eq_some_iff.mp run
    obtain ⟨reached, hP⟩ := calls lock _ mid hP first
    have both := reached.trans (ih hP rest)
    simpa only [List.mem_cons] using both

/-- `donate_lock` raises the threads that the lock leads to, and no others. -/
theorem donateLock_reached {fuel : Nat} {lock : LockId} {cur : Tid}
    (run : donateLock fuel lock cur s = some s') :
    Reached (s.priority cur) (· = lock) s s' := by
  induction fuel generalizing lock cur s s' with
  | zero => exact nomatch run
  | succ fuel ih =>
    unfold donateLock at run
    cases held : s.holder lock with
    | none =>
      rw [held] at run
      cases run
      refine .of_same (.refl _ s) rfl fun l t begins held' => ?_
      subst begins
      exact nomatch held.symm.trans held'
    | some t =>
      obtain ⟨raised, -, same⟩ := raiseLock_raised s lock (s.priority cur) (s.priority cur)
      simp only [held, same] at run
      split at run
      next low =>
        have waits : ((s.raiseLock lock (s.priority cur)).setPriority t
            (s.priority cur)).waitLockList t = s.waitLockList t := congrFun raised.waits t
        rw [waits] at run
        refine .raise held low raised same (Reached.loop
          (P := fun s₁ => s₁.priority t = s.priority cur) (fun l s₁ s₂ at_p call => ?_) _
          (setPriority_self _ _ _) run)
        have reached := ih call
        rw [at_p] at reached
        exact ⟨reached, reached.fixed at_p⟩
      next high =>
        cases run
        refine .of_same raised same fun l u begins held' => ?_
        subst begins
        obtain rfl := Option.some.inj (held'.symm.trans held)
        exact not_lt.mp high

/-- The priority of a donee is the donor's, and the others keep theirs. -/
theorem Reached.priority_eq (h : Reached p start s s') (t : Tid) :
    (Donee s p start t → s'.priority t = p) ∧
      (¬Donee s p start t → s'.priority t = s.priority t) := by
  refine ⟨fun donee => ?_, fun none => ?_⟩
  · have high : p ≤ s'.priority t := by
      induction donee with
      | holder first held _ => exact h.first _ _ first held
      | next before waits held _ ih =>
        exact h.closed _ (lt_of_lt_of_le before.low ih) _ waits _ held
    rcases h.priority t with same | ⟨-, raised⟩
    · exact absurd (same ▸ high) (not_le.mpr donee.low)
    · exact raised
  · rcases h.priority t with same | ⟨low, raised⟩
    · exact same
    · exact absurd (h.donee t (raised ▸ low)) none

end Donee

end Locks

end Pintos.Threads
