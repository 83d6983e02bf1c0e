import Pintos.Lib.LinkedList
import Pintos.Threads.Lock

/-! The loop of `thread_exit` that releases the locks of the thread.  It unlinks each lock a second
time, after `lock_release` has unlinked it and sorted the others, so here the elements of
`lock_list` store their neighbours. -/

namespace Pintos.Threads

open OrderedList LinkedList

/-- The `struct list_elem`s of the lists `lock_list`: the two ends of each thread's list, and the
`elem` of each lock. -/
inductive LockElem
  | head (t : Tid)
  | lock (lock : LockId)
  | tail (t : Tid)
  deriving DecidableEq

/-- The locks with the links of the lists, and the locks that were released so far. -/
structure LinkedLocks where
  locks : Locks
  links : Links LockElem
  released : List LockId

namespace LinkedLocks

def elemPriority (s : LinkedLocks) : LockElem → Int
  | .lock lock => s.locks.lockPriority lock
  | .head _ | .tail _ => 0

/-- The priority that `lock_release` gives back to the holder. -/
def restored (s : LinkedLocks) (t : Tid) : Int :=
  let front := s.links.next (.head t)
  if front = .tail t ∨ s.locks.originalPriority t ≥ s.elemPriority front then
    s.locks.originalPriority t
  else s.elemPriority front

/-- `lock_release`, with the locks sorted by their priorities; `fuel` bounds the walk over the
list. -/
def lockRelease (s : LinkedLocks) (fuel : Nat) (t : Tid) (lock : LockId) : Option LinkedLocks :=
  if s.locks.holder lock = some t then
    ((s.links.remove (.lock lock)).reorder (sortOrdered s.elemPriority) fuel (.head t)
      (.tail t)).map fun links =>
        let s := { s with links := links }
        { s with
          locks := ((s.locks.setPriority t (s.restored t)).setHolder lock none).wake lock
          released := s.released ++ [lock] }
  else none

/-- The list element is of another thread's list. -/
def Elsewhere (s : LinkedLocks) (t : Tid) (lock : LockId) : LockElem → Prop
  | .head u | .tail u => u ≠ t
  | .lock l => l ≠ lock ∧ s.locks.holder l ≠ some t

instance (s : LinkedLocks) (t : Tid) (lock : LockId) : DecidablePred (s.Elsewhere t lock)
  | .head u => inferInstanceAs (Decidable (u ≠ t))
  | .tail u => inferInstanceAs (Decidable (u ≠ t))
  | .lock _ => inferInstanceAs (Decidable (_ ∧ _))

/-- The end of `lock_acquire` in a thread `u` that has waited for the lock, which it inserts in
front of the element `e` of its own list. -/
def takeOver (s : LinkedLocks) (lock : LockId) (u : Tid) (e : LockElem) : LinkedLocks :=
  { s with
    locks := ((s.locks.setSemaphore lock { s.locks.semaphore lock with
      value := (s.locks.semaphore lock).value - 1 }).setHolder lock (some u)).setLockPriority lock
        (s.locks.originalPriority u)
    links := s.links.insert (.lock lock) e }

/-- What happens after the release of a lock and before `lock_release` returns: by `taker` another
thread that waited for the lock may run and take it. -/
def afterRelease (s : LinkedLocks) (taker : LockId → Option (Tid × LockElem)) (t : Tid)
    (lock : LockId) : LinkedLocks :=
  match taker lock with
  | some (u, e) =>
    if u ≠ t ∧ s.Elsewhere t lock e ∧ s.Elsewhere t lock (s.links.prev e) then s.takeOver lock u e
    else s
  | none => s

/-- The loop of `thread_exit` from the element `e`. -/
def exitLoop (taker : LockId → Option (Tid × LockElem)) (t : Tid) :
    Nat → LockElem → LinkedLocks → Option LinkedLocks
  | 0, _, _ => none
  | fuel + 1, e, s =>
    if e = .tail t then some s
    else
      match e with
      | .lock lock =>
        (s.lockRelease fuel t lock).bind fun released =>
          let after := released.afterRelease taker t lock
          exitLoop taker t fuel (s.links.next (.lock lock))
            { after with links := after.links.remove (.lock lock) }
      | .head _ | .tail _ => none

/-- The part of `thread_exit` that releases the thread's locks. -/
def threadExit (s : LinkedLocks) (taker : LockId → Option (Tid × LockElem)) (fuel : Nat) (t : Tid) :
    Option LinkedLocks :=
  exitLoop taker t fuel (s.links.next (.head t)) s

/-- The elements of a thread's list with its two ends. -/
def elems (t : Tid) (list : List LockId) : List LockElem :=
  .head t :: list.map .lock ++ [.tail t]

/-- The thread holds the locks of its `lock_list`, which is well linked, and no others. -/
structure Holds (s : LinkedLocks) (t : Tid) (list : List LockId) : Prop where
  nodup : list.Nodup
  linked : s.links.Linked (elems t list)
  holder : ∀ lock, s.locks.holder lock = some t ↔ lock ∈ list

/-- The loop of `thread_exit` ends, with each lock of the list released once, the list empty, and no
lock held by the thread. -/
def ReleasesAll (s : LinkedLocks) (taker : LockId → Option (Tid × LockElem)) (t : Tid)
    (list : List LockId) : Prop :=
  ∃ fuel s', s.threadExit taker fuel t = some s' ∧
    (∃ order, s'.released = s.released ++ order ∧ order.Perm list) ∧
    s'.links.Linked (elems t []) ∧ ∀ lock, s'.locks.holder lock ≠ some t

section Round

variable {s s' : LinkedLocks} {t : Tid} {lock : LockId} {list before after : List LockId}

/-- The element that comes after the head or before the tail of such a list. -/
def first (t : Tid) : List LockId → LockElem
  | [] => .tail t
  | lock :: _ => .lock lock

theorem first_eq (t : Tid) (list : List LockId) :
    (list.map LockElem.lock ++ [LockElem.tail t]).head? = some (first t list) := by
  cases list <;> rfl

theorem last_exists (t : Tid) (list : List LockId) :
    ∃ e, (LockElem.head t :: list.map .lock).getLast? = some e :=
  Option.isSome_iff_exists.mp (by simp)

theorem elems_append (t : Tid) (before after : List LockId) :
    elems t (before ++ after) =
      (.head t :: before.map .lock) ++ (after.map .lock ++ [.tail t]) := by
  simp [elems]

theorem elems_cut (t : Tid) (before : List LockId) (lock : LockId) (after : List LockId) :
    elems t (before ++ lock :: after) =
      (.head t :: before.map .lock) ++ .lock lock :: (after.map .lock ++ [.tail t]) := by
  simp [elems]

theorem mem_elems {e : LockElem} :
    e ∈ elems t list ↔ e = .head t ∨ (∃ l ∈ list, e = .lock l) ∨ e = .tail t := by
  simp [elems, eq_comm]

theorem lock_not_mem_elems (out : lock ∉ list) : LockElem.lock lock ∉ elems t list := by
  intro mem
  rcases mem_elems.mp mem with eq | ⟨l, member, eq⟩ | eq
  · cases eq
  · exact out (LockElem.lock.inj eq ▸ member)
  · cases eq

theorem elems_nodup (nodup : list.Nodup) : (elems t list).Nodup := by
  have locks : (list.map LockElem.lock).Nodup := nodup.map fun _ _ => LockElem.lock.inj
  simp [elems, List.nodup_append, locks]

/-- `s'` is `s` after the release of a lock, whose element still stores its neighbours or is linked
elsewhere. -/
structure Unlinked (s s' : LinkedLocks) (t : Tid) (lock : LockId) (list : List LockId) :
    Prop where
  linked : s'.links.Linked (elems t list)
  released : s'.released = s.released ++ [lock]
  holder : ∀ l, s'.locks.holder l = some t ↔ s.locks.holder l = some t ∧ l ≠ lock
  lockPriority : ∀ l ≠ lock, s'.locks.lockPriority l = s.locks.lockPriority l
  stored : s'.links.prev (.lock lock) = s.links.prev (.lock lock) ∧
      s'.links.next (.lock lock) = s.links.next (.lock lock) ∨
    s'.links.prev (.lock lock) ∉ elems t list ∧ s'.links.next (.lock lock) ∉ elems t list

theorem wake_holder (s : Locks) (lock : LockId) : (s.wake lock).holder = s.holder := by
  unfold Locks.wake
  dsimp only
  split <;> rfl

theorem wake_lockPriority (s : Locks) (lock : LockId) :
    (s.wake lock).lockPriority = s.lockPriority := by
  unfold Locks.wake
  dsimp only
  split <;> rfl

/-- `lock_release` unlinks the lock and sorts the others. -/
theorem lockRelease_unlinked {fuel : Nat} (nodup : (before ++ lock :: after).Nodup)
    (linked : s.links.Linked (elems t (before ++ lock :: after)))
    (held : s.locks.holder lock = some t) (enough : (before ++ after).length < fuel) :
    ∃ s', s.lockRelease fuel t lock = some s' ∧
      Unlinked s s' t lock (sortOrdered s.locks.lockPriority (before ++ after)) := by
  obtain ⟨x, last⟩ := last_exists t before
  have nodup_elems := elems_nodup (t := t) nodup
  rw [elems_cut] at linked nodup_elems
  have unlinked : (s.links.remove (.lock lock)).Linked (elems t (before ++ after)) := by
    rw [elems_append]
    exact linked.remove last (first_eq t after) nodup_elems
  have sorted : sortOrdered s.elemPriority ((before ++ after).map .lock) =
      (sortOrdered s.locks.lockPriority (before ++ after)).map .lock :=
    sortOrdered_map s.elemPriority LockElem.lock (before ++ after)
  obtain ⟨out, rest⟩ := List.nodup_cons.mp (List.nodup_middle.mp nodup)
  have away := lock_not_mem_elems (t := t) out
  obtain ⟨links, reordered, linked', same⟩ := unlinked.reorder (elems_nodup rest)
    (sortOrdered_perm s.elemPriority _) ((List.length_map ..).trans_lt enough)
  obtain ⟨prev, next⟩ := linked.stored last (first_eq t after)
  obtain ⟨-, -, apart⟩ := List.nodup_append.mp nodup_elems
  have ne_prev : LockElem.lock lock ≠ s.links.prev (.lock lock) := by
    rw [prev]
    exact (apart x (List.mem_of_getLast? last) _ List.mem_cons_self).symm
  have ne_next : LockElem.lock lock ≠ s.links.next (.lock lock) := by
    rw [next]
    intro eq
    rw [elems_append] at away
    exact away (eq ▸ List.mem_append_right _ (List.mem_of_head? (first_eq t after)))
  unfold lockRelease
  rw [if_pos held, reordered]
  refine ⟨_, rfl, ⟨?_, rfl, fun l => ?_, fun l _ => ?_, .inl ?_⟩⟩
  · rw [sorted] at linked'
    exact linked'
  · rw [wake_holder]
    by_cases eq : l = lock
    · simp [eq, Locks.setHolder_self]
    · simp only [Locks.setHolder_of_ne _ _ eq, ne_eq, eq, not_false_eq_true, and_true]
      rfl
  · rw [wake_lockPriority]
    rfl
  · obtain ⟨same_next, same_prev⟩ := same _ away
    refine ⟨same_prev.trans ?_, same_next.trans ?_⟩
    · exact (Links.link_prev ..).trans (if_neg ne_next)
    · exact (Links.link_next ..).trans (if_neg ne_prev)

/-- A thread that takes the lock over links it into its own list. -/
theorem Unlinked.afterRelease (h : Unlinked s s' t lock list)
    (taker : LockId → Option (Tid × LockElem))
    (held : ∀ l ∈ list, s'.locks.holder l = some t) (out : lock ∉ list) :
    Unlinked s (s'.afterRelease taker t lock) t lock list := by
  have inside : ∀ e, s'.Elsewhere t lock e → e ∉ elems t list ∧ LockElem.lock lock ≠ e := by
    intro e elsewhere
    refine ⟨fun mem => ?_, fun eq => ?_⟩
    · rcases mem_elems.mp mem with rfl | ⟨l, member, rfl⟩ | rfl
      · exact elsewhere rfl
      · exact elsewhere.2 (held l member)
      · exact elsewhere rfl
    · subst eq
      exact elsewhere.1 rfl
  have away := lock_not_mem_elems (t := t) out
  unfold LinkedLocks.afterRelease
  split
  next u e _ =>
    split
    next guard =>
      obtain ⟨other, behind, before⟩ := guard
      obtain ⟨out_e, ne_e⟩ := inside e behind
      obtain ⟨out_p, ne_p⟩ := inside _ before
      refine ⟨?_, h.released, fun l => ?_, fun l ne => ?_, .inr ⟨?_, ?_⟩⟩
      · exact (h.linked.link_apart out_p away).link_apart away out_e
      · rw [← h.holder l]
        by_cases eq : l = lock
        · subst eq
          have free : s'.locks.holder l ≠ some t := fun mine => ((h.holder l).mp mine).2 rfl
          refine iff_of_false (fun mine => other ?_) free
          exact Option.some.inj ((Locks.setHolder_self _ l (some u)).symm.trans mine)
        · exact iff_of_eq (congrArg (· = some t) (Locks.setHolder_of_ne _ (some u) eq))
      · exact (Locks.setLockPriority_of_ne _ _ ne).trans (h.lockPriority l ne)
      · have prev : (s'.takeOver lock u e).links.prev (.lock lock) = s'.links.prev e := by
          refine (Links.link_prev ..).trans ((if_neg ne_e).trans ?_)
          exact (Links.link_prev ..).trans (if_pos rfl)
        rw [prev]
        exact out_p
      · have next : (s'.takeOver lock u e).links.next (.lock lock) = e :=
          (Links.link_next ..).trans (if_pos rfl)
        rw [next]
        exact out_e
    next => exact h
  next => exact h

/-- The second `list_remove` of the loop. -/
def unlinkAgain (s : LinkedLocks) (lock : LockId) : LinkedLocks :=
  { s with links := s.links.remove (.lock lock) }

/-- One round of the loop, up to the second `list_remove`. -/
theorem exitLoop_round (taker : LockId → Option (Tid × LockElem)) (before : List LockId)
    (fuel : Nat) (nodup : (before ++ lock :: after).Nodup)
    (linked : s.links.Linked (elems t (before ++ lock :: after)))
    (held : ∀ l ∈ before ++ lock :: after, s.locks.holder l = some t)
    (enough : (before ++ after).length < fuel) :
    ∃ mid, Unlinked s mid t lock (sortOrdered s.locks.lockPriority (before ++ after)) ∧
      exitLoop taker t (fuel + 1) (.lock lock) s =
        exitLoop taker t fuel (first t after) (mid.unlinkAgain lock) := by
  obtain ⟨x, last⟩ := last_exists t before
  have mine : s.locks.holder lock = some t := held lock (by simp)
  obtain ⟨released, run, unlinked⟩ := lockRelease_unlinked nodup linked mine enough
  obtain ⟨out, -⟩ := List.nodup_cons.mp (List.nodup_middle.mp nodup)
  refine ⟨released.afterRelease taker t lock, ?_, ?_⟩
  · refine unlinked.afterRelease taker (fun l mem => ?_) fun mem => ?_
    · have member := (mem_sortOrdered _).mp mem
      refine (unlinked.holder l).mpr ⟨held l ?_, ne_of_mem_of_not_mem member out⟩
      exact List.perm_middle.symm.subset (List.mem_cons_of_mem lock member)
    · exact out ((mem_sortOrdered _).mp mem)
  · rw [elems_cut] at linked
    rw [exitLoop, if_neg (nomatch ·), (linked.stored last (first_eq t after)).2, run]
    rfl

/-- Where the list is sorted, the loop releases the locks from its element on. -/
theorem exitLoop_ordered (taker : LockId → Option (Tid × LockElem)) (fuel : Nat)
    (nodup : (before ++ after).Nodup) (linked : s.links.Linked (elems t (before ++ after)))
    (held : ∀ l ∈ before ++ after, s.locks.holder l = some t)
    (ordered : Ordered s.locks.lockPriority (before ++ after))
    (enough : (before ++ after).length < fuel) :
    ∃ s', exitLoop taker t fuel (first t after) s = some s' ∧
      s'.released = s.released ++ after ∧ s'.links.Linked (elems t before) ∧
      ∀ l, s'.locks.holder l = some t ↔ s.locks.holder l = some t ∧ l ∉ after := by
  induction after generalizing s fuel with
  | nil =>
    obtain ⟨fuel, rfl⟩ := Nat.exists_eq_succ_of_ne_zero (Nat.ne_zero_of_lt enough)
    rw [List.append_nil] at linked
    exact ⟨s, if_pos rfl, (List.append_nil _).symm, linked, fun l => by simp⟩
  | cons lock after ih =>
    obtain ⟨fuel, rfl⟩ := Nat.exists_eq_succ_of_ne_zero (Nat.ne_zero_of_lt enough)
    have fewer : (before ++ after).length < fuel := by
      rw [List.length_append, List.length_cons] at enough
      rw [List.length_append]
      omega
    have sub : (before ++ after).Sublist (before ++ lock :: after) :=
      (List.sublist_cons_self lock after).append_left before
    obtain ⟨mid, unlinked, round⟩ := exitLoop_round taker before fuel nodup linked held fewer
    obtain ⟨out, rest⟩ := List.nodup_cons.mp (List.nodup_middle.mp nodup)
    rw [Ordered.sortOrdered_eq (ordered.sublist sub)] at unlinked
    have same : ∀ l ∈ before ++ after, mid.locks.lockPriority l = s.locks.lockPriority l :=
      fun l mem => unlinked.lockPriority l (ne_of_mem_of_not_mem mem out)
    -- the second unlinking joins two neighbours, or acts elsewhere
    have linked' : (mid.unlinkAgain lock).links.Linked (elems t (before ++ after)) := by
      rcases unlinked.stored with ⟨prev, next⟩ | ⟨prev, next⟩
      · obtain ⟨x, last⟩ := last_exists t before
        rw [elems_cut] at linked
        obtain ⟨prev', next'⟩ := linked.stored last (first_eq t after)
        have at_cut := unlinked.linked
        rw [elems_append] at at_cut
        unfold unlinkAgain Links.remove
        dsimp only
        rw [prev, next, prev', next', at_cut.link_at_cut last (first_eq t after)]
        exact unlinked.linked
      · exact unlinked.linked.link_apart prev next
    obtain ⟨s', run, released, empty, holder⟩ := ih fuel rest linked'
      (fun l mem => (unlinked.holder l).mpr
        ⟨held l (sub.subset mem), ne_of_mem_of_not_mem mem out⟩)
      ((ordered_congr _ same).mpr (ordered.sublist sub)) fewer
    refine ⟨s', round.trans run, ?_, empty, fun l => ?_⟩
    · rw [released, List.append_cons, ← unlinked.released]
      rfl
    · rw [holder, List.mem_cons, not_or, ← and_assoc, ← unlinked.holder]
      rfl

end Round

section Exit

variable {s s' : LinkedLocks} {t : Tid} {list dropped kept rest : List LockId} {a : LockId}
  {taker : LockId → Option (Tid × LockElem)} {fuel : Nat}

/-- The first round sorts the locks after the first one and goes on with the one that was second,
and the locks now before that one are left out. -/
theorem threadExit_cons (taker : LockId → Option (Tid × LockElem)) (holds : s.Holds t (a :: rest))
    (sorted : sortOrdered s.locks.lockPriority rest = dropped ++ kept)
    (start : first t kept = first t rest) :
    ∃ fuel s' left, s.threadExit taker fuel t = some s' ∧
      s'.released = s.released ++ a :: kept ∧ s'.links.Linked (elems t left) ∧
      left ⊆ dropped ∧
      ∀ l, s'.locks.holder l = some t ↔ s.locks.holder l = some t ∧ l ∉ a :: kept := by
  have linked : s.links.Linked
      ([.head t] ++ .lock a :: (rest.map .lock ++ [LockElem.tail t])) := holds.linked
  have perm : (dropped ++ kept).Perm rest := sorted ▸ sortOrdered_perm _ rest
  obtain ⟨out, nodup⟩ := List.nodup_cons.mp holds.nodup
  have held : ∀ l ∈ a :: rest, s.locks.holder l = some t := fun l mem => (holds.holder l).mpr mem
  obtain ⟨mid, unlinked, round⟩ := exitLoop_round taker [] (rest.length + 1) holds.nodup
    holds.linked held (Nat.lt_succ_self rest.length)
  rw [List.nil_append, sorted] at unlinked
  have ordered : Ordered s.locks.lockPriority (dropped ++ kept) :=
    sorted ▸ sortOrdered_ordered _ rest
  -- the second unlinking cuts out what is now before the second lock, or acts elsewhere
  obtain ⟨left, sub, linked_left⟩ : ∃ left, left.Sublist dropped ∧
      (mid.unlinkAgain a).links.Linked (elems t (left ++ kept)) := by
    rcases unlinked.stored with ⟨prev, next⟩ | ⟨prev, next⟩
    · refine ⟨[], List.nil_sublist _, ?_⟩
      obtain ⟨prev', next'⟩ := linked.stored rfl (first_eq t rest)
      obtain ⟨back, cut⟩ := List.head?_eq_some_iff.mp (first_eq t kept)
      have suffix := unlinked.linked
      rw [elems_append, cut] at suffix
      have whole : elems t kept = [] ++ .head t :: first t kept :: back := by
        rw [← cut]
        rfl
      have nodup_kept : kept.Nodup :=
        (perm.nodup_iff.mpr nodup).sublist (List.sublist_append_right dropped kept)
      rw [List.nil_append, whole]
      unfold unlinkAgain Links.remove
      dsimp only
      rw [prev, next, prev', next', ← start]
      exact Links.Linked.link (.singleton _) suffix.right (whole ▸ elems_nodup nodup_kept)
    · exact ⟨dropped, .refl _, unlinked.linked.link_apart prev next⟩
  have inside : ∀ l ∈ left ++ kept, l ∈ rest := fun l mem =>
    perm.subset ((sub.append_right kept).subset mem)
  obtain ⟨s', run, released, linked', holder⟩ := exitLoop_ordered taker (rest.length + 1)
    ((perm.nodup_iff.mpr nodup).sublist (sub.append_right kept)) linked_left
    (fun l mem => (unlinked.holder l).mpr ⟨held l (List.mem_cons_of_mem a (inside l mem)),
      ne_of_mem_of_not_mem (inside l mem) out⟩)
    ((ordered_congr _ fun l mem => unlinked.lockPriority l
      (ne_of_mem_of_not_mem (inside l mem) out)).mpr (ordered.sublist (sub.append_right kept)))
    (Nat.lt_succ_of_le (perm.length_eq ▸ (sub.append_right kept).length_le))
  refine ⟨rest.length + 2, s', left, ?_, ?_, linked', sub.subset, fun l => ?_⟩
  · have entry : s.links.next (.head t) = .lock a := (linked.at_cut rfl rfl).1
    unfold threadExit
    rw [entry, round, ← start]
    exact run
  · rw [released, List.append_cons, ← unlinked.released]
    rfl
  · rw [holder, List.mem_cons, not_or, ← and_assoc, ← unlinked.holder]
    rfl

theorem lockRelease_mono {lock : LockId} (run : s.lockRelease fuel t lock = some s') :
    s.lockRelease (fuel + 1) t lock = some s' := by
  unfold lockRelease at run ⊢
  split at run
  next held =>
    obtain ⟨links, reordered, same⟩ := Option.map_eq_some_iff.mp run
    rw [if_pos held, Links.reorder_mono reordered, ← same]
    rfl
  next => cases run

theorem exitLoop_mono {e : LockElem} (run : exitLoop taker t fuel e s = some s') :
    exitLoop taker t (fuel + 1) e s = some s' := by
  induction fuel generalizing e s with
  | zero => cases run
  | succ fuel ih =>
    unfold exitLoop at run ⊢
    split at run
    next here => rw [if_pos here, run]
    next there =>
      rw [if_neg there]
      cases e with
      | lock lock =>
        obtain ⟨mid, released, rest⟩ := Option.bind_eq_some_iff.mp run
        dsimp only
        rw [lockRelease_mono released]
        exact ih rest
      | head u => cases run
      | tail u => cases run

/-- Two runs of the loop that end do so in the same state. -/
theorem threadExit_unique {fuel' : Nat} {s'' : LinkedLocks}
    (run : s.threadExit taker fuel t = some s') (run' : s.threadExit taker fuel' t = some s'') :
    s' = s'' := by
  have more : ∀ n k, ∀ r, s.threadExit taker n t = some r →
      s.threadExit taker (n + k) t = some r := by
    intro n k r h
    induction k with
    | zero => exact h
    | succ k ih => exact exitLoop_mono ih
  have both := more fuel fuel' s' run
  rw [Nat.add_comm, more fuel' fuel s'' run'] at both
  exact (Option.some.inj both).symm

/-- The loop releases all locks exactly when none is left out in its first round. -/
theorem releasesAll_iff_dropped (holds : s.Holds t (a :: rest))
    (sorted : sortOrdered s.locks.lockPriority rest = dropped ++ kept)
    (start : first t kept = first t rest) :
    s.ReleasesAll taker t (a :: rest) ↔ dropped = [] := by
  have perm : (dropped ++ kept).Perm rest := sorted ▸ sortOrdered_perm _ rest
  obtain ⟨fuel, s', left, run, released, linked, sub, holder⟩ :=
    threadExit_cons taker holds sorted start
  constructor
  · rintro ⟨fuel', s'', run', ⟨order, released', same⟩, -⟩
    obtain rfl := threadExit_unique run run'
    obtain rfl := List.append_cancel_left (released'.symm.trans released)
    have length := same.length_eq.trans (congrArg (· + 1) perm.length_eq.symm)
    rw [List.length_cons, List.length_append] at length
    exact List.eq_nil_of_length_eq_zero (by omega)
  · rintro rfl
    obtain rfl := List.eq_nil_of_subset_nil sub
    refine ⟨fuel, s', run, ⟨a :: kept, released, perm.cons a⟩, linked, fun l mine => ?_⟩
    obtain ⟨before, out⟩ := (holder l).mp mine
    exact out ((perm.cons a).symm.subset ((holds.holder l).mp before))

end Exit

/-- A thread that has acquired the locks of a list, which now have these priorities. -/
def holding (t : Tid) (list : List LockId) (lockPriority : LockId → Int) : LinkedLocks where
  locks := { Locks.init [t] (fun _ => 31) lockPriority with
    lockList := Function.update (fun _ => []) t list
    holder := fun lock => if lock ∈ list then some t else none
    semaphore := fun lock => if lock ∈ list then semaInit 0 else semaInit 1 }
  links := (Links.mk id id).relink (elems t list)
  released := []

theorem holding_holds (t : Tid) {list : List LockId} (lockPriority : LockId → Int)
    (nodup : list.Nodup) : (holding t list lockPriority).Holds t list :=
  ⟨nodup, Links.relink_linked _ (elems_nodup nodup), fun lock => by simp [holding]⟩

end LinkedLocks

end Pintos.Threads
