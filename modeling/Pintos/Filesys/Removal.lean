import Pintos.Filesys.Contents
import Pintos.Filesys.NoAlias

/-! Removed inodes: `inode_remove` marks an inode, and the `inode_close` of its last handle deletes
it.  `inode_delete` is a parameter here. -/

namespace Pintos.Filesys

open Words Role Transition Results

/-- `inode_delete` of an inode, with what the device holds in the sectors that it removes from the
cache. -/
abbrev Delete := (Nat → Bytes) → Fs → InodeDisk → Except Fault Fs

/-- `inode_delete` leaves alone what is not a sector of the inode that it is given. -/
def ReleasesOnly (delete : Delete) : Prop :=
  ∀ dev fs d fs', Maps fs d (Upto (nextBlock d.length)) → delete dev fs d = .ok fs' →
    ∀ x, (∀ r, Upto (nextBlock d.length) r → sectorAt fs d r ≠ x) →
      fs'.data x = fs.data x ∧ (fs.free.Used x → fs'.free.Used x)

/-- The files, with the bytes last written to each, the inodes that `inode_remove` was called for,
and those that `inode_delete` was called for, by their sectors. -/
structure Removal where
  files : Files
  content : Nat → Nat → UInt8
  marked : Nat → Bool
  deleted : List Nat

inductive Access
  | open_ (sector : Nat)
  | reopen (sector : Nat)
  | remove (sector : Nat)
  | readAt (sector size offset : Nat)
  | writeAt (sector : Nat) (buffer : Bytes) (size offset : Nat)
  | close (sector : Nat) (dev : Nat → Bytes)

namespace Removal

def setOpen (st : Removal) (s : Nat) (inode : OpenInode) : Removal :=
  { st with files := { st.files with
      opens := Function.update st.files.opens s (some inode) } }

/-- The last `inode_close` of an inode. -/
def lastClose (delete : Delete) (dev : Nat → Bytes) (st : Removal) (s : Nat) (inode : OpenInode) :
    Except Fault Removal :=
  let fs := st.files.fs.put s (inode.data.copyTo (st.files.fs.data s))
  let opens := Function.update st.files.opens s none
  if inode.removed then do
    let fs ← delete dev fs inode.data
    let fs ← releaseSector dev fs s
    .ok { st with
      files := ⟨fs, opens, Function.update st.files.live s false⟩, deleted := st.deleted ++ [s] }
  else .ok { st with files := ⟨fs, opens, st.files.live⟩ }

/-- One call on an inode that is open, or `inode_open`.  Writes are inside the file. -/
def step (delete : Delete) (st : Removal) : Access → Option Removal
  | .open_ s => if st.files.live s then some { st with files := st.files.inodeOpen s } else none
  | .reopen s =>
    (st.files.opens s).map fun inode => st.setOpen s { inode with openCnt := inode.openCnt + 1 }
  | .remove s =>
    (st.files.opens s).map fun inode =>
      { st.setOpen s { inode with removed := true } with
        marked := Function.update st.marked s true }
  | .readAt s size offset =>
    (st.files.opens s).bind fun inode =>
      match inodeReadAt st.files.fs inode.data size offset with
      | .ok _ => some st
      | .error _ => none
  | .writeAt s buffer size offset =>
    (st.files.opens s).bind fun inode =>
      if offset + size ≤ inode.data.length then
        match inodeWriteAt st.files.fs inode buffer size offset with
        | .ok (fs, inode, written) =>
          some { st.setOpen s inode with
            files := { (st.setOpen s inode).files with fs := fs }
            content := Function.update st.content s fun p =>
              if offset ≤ p ∧ p < offset + written then buffer (p - offset) else st.content s p }
        | .error _ => none
      else none
  | .close s dev =>
    (st.files.opens s).bind fun inode =>
      if inode.openCnt - 1 = 0 then (st.lastClose delete dev s inode).toOption
      else some (st.setOpen s { inode with openCnt := inode.openCnt - 1 })

/-- With the `inode_delete` of the code, the last close is that of `Files`. -/
theorem lastClose_files (dev : Nat → Bytes) (st : Removal) (s : Nat) (inode : OpenInode) :
    (st.lastClose inodeDelete dev s inode).map Removal.files = st.files.lastClose dev s inode := by
  unfold Removal.lastClose Files.lastClose
  simp only
  split
  next =>
    cases inodeDelete dev (st.files.fs.put s (inode.data.copyTo (st.files.fs.data s)))
      inode.data with
    | error e => rfl
    | ok fs =>
      simp only [bind, Except.bind]
      cases releaseSector dev fs s <;> rfl
  next => rfl

/-- Well-formed files with disjoint sectors, none of which is open. -/
structure Start (st : Removal) : Prop where
  wellFormed : Files.WellFormed st.files
  closed : ∀ s, st.files.opens s = none
  content : ∀ s p, st.content s p = byteAt st.files.fs (st.files.inode s) p
  marked : ∀ s, st.marked s = false
  deleted : st.deleted = []

/-- What holds of the inode in sector `s`, from `st₀` on. -/
structure DeferredAt (st₀ st : Removal) (s : Nat) : Prop where
  inode : st.files.live s = true → st.files.inode s = st₀.files.inode s
  sector : st.files.live s = true → ∀ x, st.files.Refers s x →
    st.files.sector s x = st₀.files.sector s x
  content : st.files.live s = true → ∀ p < (st.files.inode s).length,
    byteAt st.files.fs (st.files.inode s) p = st.content s p
  live : st.files.live s = true ↔
    st₀.files.live s = true ∧ (st.marked s = true → st.files.opens s ≠ none)
  removed : ∀ inode, st.files.opens s = some inode → inode.removed = st.marked s
  file : st.marked s = true → st₀.files.live s = true
  deleted : st.deleted.count s = if st.marked s = true ∧ st.files.opens s = none then 1 else 0

structure Deferred (st₀ st : Removal) : Prop where
  wellFormed : Files.WellFormed st.files
  at_ : ∀ s, DeferredAt st₀ st s

variable {st₀ st st' : Removal} {s t : Nat} {delete : Delete}

theorem Start.deferred (start : Start st) : Deferred st st := by
  refine ⟨start.wellFormed, fun s => ⟨fun _ => rfl, fun _ _ _ => rfl, fun _ p _ => ?_, ?_, ?_, ?_,
    ?_⟩⟩
  · exact (start.content s p).symm
  · simp [start.marked]
  · simp [start.closed]
  · simp [start.marked]
  · simp [start.marked, start.deleted]

/-- The other inodes do not see the call. -/
theorem DeferredAt.congr (h : DeferredAt st₀ st t) (others : Files.Others st.files st'.files s)
    (ne : t ≠ s) (content : st'.content t = st.content t) (marked : st'.marked t = st.marked t)
    (deleted : st'.deleted.count t = st.deleted.count t) : DeferredAt st₀ st' t := by
  have lives := others.live t ne
  have opens := others.opens t ne
  refine ⟨fun live => ?_, fun live x refers => ?_, fun live p inside => ?_, ?_, ?_, ?_, ?_⟩
  · rw [lives] at live
    rw [others.inode ne live]
    exact h.inode live
  · rw [lives] at live
    have refers := (others.refers ne live x).mp refers
    rw [others.sector ne live refers]
    exact h.sector live x refers
  · rw [lives] at live
    rw [others.inode ne live] at inside
    rw [others.byteAt ne live inside, content]
    exact h.content live p inside
  · rw [lives, marked, opens]
    exact h.live
  · rw [marked, opens]
    exact h.removed
  · rw [marked]
    exact h.file
  · rw [deleted, marked, opens]
    exact h.deleted

theorem Deferred.step_of (inv : Deferred st₀ st) (wf : Files.WellFormed st'.files)
    (others : Files.Others st.files st'.files s) (content : ∀ t ≠ s, st'.content t = st.content t)
    (marked : ∀ t ≠ s, st'.marked t = st.marked t)
    (deleted : ∀ t ≠ s, st'.deleted.count t = st.deleted.count t) (here : DeferredAt st₀ st' s) :
    Deferred st₀ st' := by
  refine ⟨wf, fun t => ?_⟩
  by_cases eq : t = s
  · rw [eq]
    exact here
  · exact (inv.at_ t).congr others eq (content t eq) (marked t eq) (deleted t eq)

/-- A live inode is not deleted. -/
theorem DeferredAt.undeleted (h : DeferredAt st₀ st s) (live : st.files.live s = true) :
    st.deleted.count s = 0 := by
  rw [h.deleted, if_neg]
  rintro ⟨marked, closed⟩
  exact (h.live.mp live).2 marked closed

/-- A call that changes the counters or the mark of an inode. -/
theorem Deferred.setOpen (inv : Deferred st₀ st) (live : st.files.live s = true)
    {inode : OpenInode} (same : inode.data = st.files.inode s) :
    Deferred st₀ { st.setOpen s inode with
      marked := Function.update st.marked s inode.removed } := by
  have h := inv.at_ s
  have view := Files.sameView_opens same
  refine inv.step_of (s := s) (inv.wellFormed.opens live same) ⟨fun _ _ => rfl, fun t ne => ?_,
    fun _ _ _ _ _ => rfl, fun t x _ live refers => inv.wellFormed.used t x live refers⟩
    (fun _ _ => rfl) (fun t ne => ?_) (fun _ _ => rfl) ?_
  · exact Function.update_of_ne ne _ _
  · exact Function.update_of_ne ne _ _
  · refine ⟨fun _ => (view.inode s).trans (h.inode live), fun _ x refers => ?_,
      fun _ p inside => ?_, ?_, fun o isOpen => ?_, fun _ => (h.live.mp live).1, ?_⟩
    · exact (view.sector s x).trans (h.sector live x ((view.refers s x).mp refers))
    · have inside : p < (st.files.inode s).length := (view.inode s) ▸ inside
      have eq := h.content live p inside
      rw [← view.inode s] at eq
      exact eq
    · refine iff_of_true live ⟨(h.live.mp live).1, fun _ => ?_⟩
      show Function.update st.files.opens s (some inode) s ≠ none
      rw [Function.update_self]
      exact Option.some_ne_none _
    · have now : Function.update st.files.opens s (some inode) s = some o := isOpen
      rw [Function.update_self] at now
      show o.removed = Function.update st.marked s inode.removed s
      rw [Function.update_self, Option.some.inj now]
    · show st.deleted.count s = _
      rw [h.undeleted live, if_neg]
      rintro ⟨_, closed⟩
      have now : Function.update st.files.opens s (some inode) s = none := closed
      rw [Function.update_self] at now
      cases now

theorem Deferred.setOpen_same (inv : Deferred st₀ st) (live : st.files.live s = true)
    {inode : OpenInode} (same : inode.data = st.files.inode s)
    (removed : inode.removed = st.marked s) : Deferred st₀ (st.setOpen s inode) := by
  have marked := inv.setOpen live same
  rw [removed, Function.update_eq_self] at marked
  exact marked

theorem Deferred.open_ (inv : Deferred st₀ st) (live : st.files.live s = true) :
    Deferred st₀ { st with files := st.files.inodeOpen s } := by
  have h := inv.at_ s
  unfold Files.inodeOpen
  split
  next o isOpen =>
    exact inv.setOpen_same live (Files.inode_of_open isOpen).symm (h.removed o isOpen)
  next closed =>
    have unmarked : st.marked s = false := by
      by_contra marked
      exact (h.live.mp live).2 ((Bool.not_eq_false _).mp marked) closed
    exact inv.setOpen_same live (Files.inode_of_closed closed).symm unmarked.symm

/-- The last close of an inode that stays. -/
theorem Deferred.record (inv : Deferred st₀ st) (start : Start st₀) {inode : OpenInode}
    (isOpen : st.files.opens s = some inode) (unmarked : st.marked s = false) :
    Deferred st₀ { st with files := ⟨st.files.fs.put s (inode.data.copyTo (st.files.fs.data s)),
      Function.update st.files.opens s none, st.files.live⟩ } := by
  have h := inv.at_ s
  have live := inv.wellFormed.live_of_open isOpen
  have before := Files.inode_of_open isOpen
  have maps := inv.wellFormed.maps live
  have off := inv.wellFormed.off_own live live
  have own : InodeDisk.read (inode.data.copyTo (st.files.fs.data s)) = inode.data := by
    rw [← before, h.inode live, Files.inode_of_closed (start.closed s)]
    exact Files.read_copyTo_small (Files.read_small _) _
  rw [before] at maps off
  obtain ⟨_, same⟩ := Files.maps_copyTo (c := st.files.fs.data s) maps off
  rw [own] at same
  have after : Files.inode ⟨st.files.fs.put s (inode.data.copyTo (st.files.fs.data s)),
      Function.update st.files.opens s none, st.files.live⟩ s = inode.data := by
    rw [Files.inode_of_closed (Function.update_self ..), Fs.put_self, own]
  refine inv.step_of (s := s) (inv.wellFormed.record isOpen rfl rfl rfl)
    (inv.wellFormed.record_others isOpen rfl rfl rfl) (fun _ _ => rfl) (fun _ _ => rfl)
    (fun _ _ => rfl) ?_
  refine ⟨fun _ => ?_, fun _ x refers => ?_, fun _ p inside => ?_, ?_, fun o isOpen => ?_,
    fun _ => (h.live.mp live).1, ?_⟩
  · rw [after, ← before]
    exact h.inode live
  · cases x with
    | own => rfl
    | part r =>
      rw [Files.Refers, after] at refers
      have mine : st.files.Refers s (.part r) := by
        rw [Files.Refers, before]
        exact refers
      rw [Files.sector, after, same r refers, ← h.sector live (.part r) mine, Files.sector, before]
  · rw [after] at inside ⊢
    have block : Upto (nextBlock inode.data.length) (.data (p / 512)) := by
      simp only [Upto, nextBlock, bytesToSectors]
      omega
    rw [byteAt_congr (same _ block) (Fs.put_of_ne _ _ (off _ block)), ← before]
    exact h.content live p (before ▸ inside)
  · refine iff_of_true live ⟨(h.live.mp live).1, fun marked => ?_⟩
    rw [unmarked] at marked
    cases marked
  · have now : Function.update st.files.opens s none s = some o := isOpen
    rw [Function.update_self] at now
    cases now
  · show st.deleted.count s = _
    rw [h.undeleted live, if_neg]
    rintro ⟨marked, _⟩
    rw [unmarked] at marked
    cases marked

/-- The last close of a removed inode. -/
theorem Deferred.release (inv : Deferred st₀ st) (only : ReleasesOnly delete) {inode : OpenInode}
    (isOpen : st.files.opens s = some inode) (marked : st.marked s = true) {dev : Nat → Bytes}
    {fs fs' : Fs}
    (run : delete dev (st.files.fs.put s (inode.data.copyTo (st.files.fs.data s))) inode.data =
      .ok fs)
    (release : releaseSector dev fs s = .ok fs') :
    Deferred st₀ { st with
      files := ⟨fs', Function.update st.files.opens s none, Function.update st.files.live s false⟩
      deleted := st.deleted ++ [s] } := by
  have h := inv.at_ s
  have live := inv.wellFormed.live_of_open isOpen
  obtain ⟨maps, parts⟩ := inv.wellFormed.maps_put isOpen
  -- what another inode refers to is neither the sector of this one nor one that it refers to
  have kept : ∀ t x, t ≠ s → st.files.live t = true → st.files.Refers t x →
      fs'.data (st.files.sector t x) = st.files.fs.data (st.files.sector t x) ∧
        fs'.free.Used (st.files.sector t x) := by
    intro t x ne live' refers
    have own := inv.wellFormed.apart_own live t x ne live' refers
    obtain ⟨data, used⟩ := only dev _ _ _ maps run (st.files.sector t x) fun r hr eq => by
      rw [(parts r hr).1] at eq
      exact (parts r hr).2.2 ⟨t, x, ne, live', refers, eq⟩
    have released := Files.releaseSector_kept (P := (· ≠ s)) release fun ne => ne rfl
    refine ⟨?_, released.used _ own.symm (used (inv.wellFormed.used t x live' refers))⟩
    rw [released.data _ own.symm, data, Fs.put_of_ne _ _ own.symm]
  have others : Files.Others st.files ⟨fs', Function.update st.files.opens s none,
      Function.update st.files.live s false⟩ s :=
    ⟨fun t ne => Function.update_of_ne ne _ _, fun t ne => Function.update_of_ne ne _ _,
      fun t x ne live refers => (kept t x ne live refers).1,
      fun t x ne live refers => (kept t x ne live refers).2⟩
  have dead : Function.update st.files.live s false s = false := Function.update_self ..
  refine inv.step_of (inv.wellFormed.step_of others (fun live' => ?_) fun _ => ?_) others
    (fun _ _ => rfl) (fun _ _ => rfl) (fun t ne => ?_) ?_
  · exact absurd (dead.symm.trans live') Bool.false_ne_true
  · exact Function.update_self ..
  · show (st.deleted ++ [s]).count t = st.deleted.count t
    simp [List.count_append, Ne.symm ne]
  refine ⟨fun live' => ?_, fun live' => ?_, fun live' => ?_, ?_, fun o isOpen => ?_,
    fun _ => (h.live.mp live).1, ?_⟩
  · exact absurd (dead.symm.trans live') Bool.false_ne_true
  · exact absurd (dead.symm.trans live') Bool.false_ne_true
  · exact absurd (dead.symm.trans live') Bool.false_ne_true
  · apply iff_of_false (fun live' => absurd (dead.symm.trans live') Bool.false_ne_true)
    rintro ⟨_, isOpen⟩
    exact isOpen marked (Function.update_self ..)
  · have now : Function.update st.files.opens s none s = some o := isOpen
    rw [Function.update_self] at now
    cases now
  · show (st.deleted ++ [s]).count s = _
    rw [if_pos ⟨marked, Function.update_self ..⟩, List.count_append, h.undeleted live]
    simp

/-- A write inside the file. -/
theorem Deferred.write (inv : Deferred st₀ st) {inode : OpenInode} {buffer : Bytes} {fs : Fs}
    {size offset : Nat} (isOpen : st.files.opens s = some inode)
    (wrote : Wrote inode.data (Upto (nextBlock inode.data.length)) buffer offset size
      st.files.fs fs) :
    Deferred st₀ { st with
      files := { st.files with fs := fs }
      content := Function.update st.content s fun p =>
        if offset ≤ p ∧ p < offset + size then buffer (p - offset) else st.content s p } := by
  have h := inv.at_ s
  have live := inv.wellFormed.live_of_open isOpen
  have before := Files.inode_of_open isOpen
  have maps := inv.wellFormed.maps live
  rw [before] at maps
  have after : Files.inode { st.files with fs := fs } s = inode.data := Files.inode_of_open isOpen
  have used : ∀ x, st.files.fs.free.Used x → fs.free.Used x := by
    rw [wrote.free]
    exact fun _ => id
  have apart : ∀ r t y, Upto (nextBlock inode.data.length) r → t ≠ s → st.files.live t = true →
      st.files.Refers t y → sectorAt st.files.fs inode.data r ≠ st.files.sector t y := by
    intro r t y hr ne live' refers eq
    rw [← before] at eq hr
    exact ne (inv.wellFormed.distinct s t (.part r) y live live' hr refers eq).1.symm
  have others : Files.Others st.files { st.files with fs := fs } s :=
    ⟨fun _ _ => rfl, fun _ _ => rfl,
      fun t y ne live' refers => wrote.frame _ fun b hb => apart _ t y hb ne live' refers,
      fun t y _ live' refers => used _ (inv.wellFormed.used t y live' refers)⟩
  refine inv.step_of (inv.wellFormed.step_of others (fun _ => ?_) fun dead => ?_) others
    (fun t ne => Function.update_of_ne ne _ _) (fun _ _ => rfl) (fun _ _ => rfl) ?_
  · refine inv.wellFormed.target_of_same live after (by rw [before]) (wrote.maps maps)
      (used s (inv.wellFormed.used s .own live trivial)) fun r hr => ?_
    rw [before] at hr ⊢
    exact wrote.sector r hr
  · exact absurd (live.symm.trans dead) Bool.noConfusion
  refine ⟨fun _ => ?_, fun _ x refers => ?_, fun _ p inside => ?_, h.live, h.removed, h.file,
    h.deleted⟩
  · rw [after, ← before]
    exact h.inode live
  · cases x with
    | own => rfl
    | part r =>
      rw [Files.Refers, after] at refers
      have mine : st.files.Refers s (.part r) := by
        rw [Files.Refers, before]
        exact refers
      rw [Files.sector, after, ← h.sector live (.part r) mine, Files.sector, before]
      exact wrote.sector r refers
  · rw [after] at inside ⊢
    have old := h.content live p (before ▸ inside)
    rw [before] at old
    show byteAt fs inode.data p = Function.update st.content s _ s p
    rw [wrote.bytes p inside, Function.update_self, old]

theorem Deferred.writeAt (inv : Deferred st₀ st) {inode inode' : OpenInode} {buffer : Bytes}
    {fs : Fs} {size offset written : Nat} (isOpen : st.files.opens s = some inode)
    (fits : offset + size ≤ inode.data.length)
    (run : inodeWriteAt st.files.fs inode buffer size offset = .ok (fs, inode', written)) :
    Deferred st₀ { st.setOpen s inode' with
      files := { (st.setOpen s inode').files with fs := fs }
      content := Function.update st.content s fun p =>
        if offset ≤ p ∧ p < offset + written then buffer (p - offset) else st.content s p } := by
  have live := inv.wellFormed.live_of_open isOpen
  have before := Files.inode_of_open isOpen
  have maps := inv.wellFormed.maps live
  rw [before] at maps
  have cover : ∀ p < inode.data.length, Upto (nextBlock inode.data.length) (.data (p / 512)) := by
    intro p inside
    simp only [Upto, nextBlock, bytesToSectors]
    omega
  have wrote : inode' = inode ∧ Wrote inode.data (Upto (nextBlock inode.data.length)) buffer offset
      written st.files.fs fs := by
    rw [inodeWriteAt] at run
    split at run
    next =>
      obtain ⟨rfl, same⟩ := Prod.mk.inj (Except.ok.inj run)
      obtain ⟨rfl, rfl⟩ := Prod.mk.inj same
      exact ⟨rfl, rfl, fun _ _ => rfl, fun _ _ => rfl, fun p _ => by rw [if_neg (by omega)]⟩
    next =>
      have short : extend st.files.fs inode.data size offset = .ok (st.files.fs, inode.data) :=
        if_neg (by omega)
      obtain ⟨fs', chunks, wrote⟩ := maps.layout.writeChunks buffer cover (Nat.le_refl size) fits 0
      simp only [short, chunks, bind, Except.bind, Nat.zero_add] at run wrote
      obtain ⟨rfl, same⟩ := Prod.mk.inj (Except.ok.inj run)
      obtain ⟨rfl, rfl⟩ := Prod.mk.inj same
      exact ⟨rfl, wrote⟩
  obtain ⟨rfl, wrote⟩ := wrote
  have opens : Function.update st.files.opens s (some inode') = st.files.opens := by
    rw [← isOpen]
    exact Function.update_eq_self s st.files.opens
  simp only [Removal.setOpen, opens]
  exact inv.write isOpen wrote

theorem Deferred.lastClose (inv : Deferred st₀ st) (start : Start st₀) (only : ReleasesOnly delete)
    {inode : OpenInode} (isOpen : st.files.opens s = some inode) {dev : Nat → Bytes}
    (run : st.lastClose delete dev s inode = .ok st') : Deferred st₀ st' := by
  have removed := (inv.at_ s).removed inode isOpen
  rw [Removal.lastClose] at run
  split at run
  next marked =>
    obtain ⟨fs, deletes, run⟩ := bind_ok run
    obtain ⟨fs', release, run⟩ := bind_ok run
    obtain rfl := Except.ok.inj run
    exact inv.release only isOpen (removed.symm.trans marked) deletes release
  next unmarked =>
    obtain rfl := Except.ok.inj run
    exact inv.record start isOpen (removed.symm.trans ((Bool.not_eq_true _).mp unmarked))

theorem Deferred.step {access : Access} (inv : Deferred st₀ st) (start : Start st₀)
    (only : ReleasesOnly delete) (hstep : st.step delete access = some st') :
    Deferred st₀ st' := by
  cases access with
  | open_ s =>
    simp only [Removal.step] at hstep
    split at hstep
    next live =>
      obtain rfl := Option.some.inj hstep
      exact inv.open_ live
    next => cases hstep
  | reopen s =>
    obtain ⟨inode, isOpen, rfl⟩ := Option.map_eq_some_iff.mp hstep
    exact inv.setOpen_same (inv.wellFormed.live_of_open isOpen) (Files.inode_of_open isOpen).symm
      ((inv.at_ s).removed inode isOpen)
  | remove s =>
    obtain ⟨inode, isOpen, rfl⟩ := Option.map_eq_some_iff.mp hstep
    exact inv.setOpen (inv.wellFormed.live_of_open isOpen) (Files.inode_of_open isOpen).symm
  | readAt s size offset =>
    obtain ⟨inode, isOpen, hstep⟩ := Option.bind_eq_some_iff.mp hstep
    split at hstep
    next =>
      obtain rfl := Option.some.inj hstep
      exact inv
    next => cases hstep
  | writeAt s buffer size offset =>
    obtain ⟨inode, isOpen, hstep⟩ := Option.bind_eq_some_iff.mp hstep
    split at hstep
    next fits =>
      split at hstep
      next fs inode' written run =>
        obtain rfl := Option.some.inj hstep
        exact inv.writeAt isOpen fits run
      next => cases hstep
    next => cases hstep
  | close s dev =>
    obtain ⟨inode, isOpen, hstep⟩ := Option.bind_eq_some_iff.mp hstep
    split at hstep
    next =>
      exact inv.lastClose start only isOpen (ok_of_toOption hstep)
    next =>
      obtain rfl := Option.some.inj hstep
      exact inv.setOpen_same (inv.wellFormed.live_of_open isOpen)
        (Files.inode_of_open isOpen).symm ((inv.at_ s).removed inode isOpen)

/-- A handle reads the bytes last written. -/
theorem Deferred.reads (inv : Deferred st₀ st) {inode : OpenInode}
    (isOpen : st.files.opens s = some inode) (size offset : Nat) :
    inodeReadAt st.files.fs inode.data size offset =
      .ok ((List.range (min size ((st₀.files.inode s).length - offset))).map fun i =>
        st.content s (offset + i)) := by
  have h := inv.at_ s
  have live := inv.wellFormed.live_of_open isOpen
  have before := Files.inode_of_open isOpen
  have maps := inv.wellFormed.maps live
  rw [inodeReadAt_eq (before ▸ maps) (fun p inside => ?_), ← h.inode live, before]
  · refine congrArg Except.ok (List.map_congr_left fun i hi => ?_)
    have small := List.mem_range.mp hi
    rw [← before]
    exact h.content live _ (by rw [before]; omega)
  · simp only [Upto, nextBlock, bytesToSectors]
    omega

/-- In every run, as long as a file is not both marked and closed, its sectors are in use and its
handles read the bytes last written.  `inode_delete` is called for an inode once it is both, and
once. -/
theorem deferred_deletion (only : ReleasesOnly delete) (start : Start st₀)
    (reach : Reach (Fires (step delete)) (fun _ _ => True) (· = st₀) st) :
    (∀ s, st₀.files.live s = true → (st.marked s = true → st.files.opens s ≠ none) →
      (∀ x, st₀.files.Refers s x → st.files.fs.free.Used (st₀.files.sector s x)) ∧
      ∀ inode, st.files.opens s = some inode → ∀ size offset,
        inodeReadAt st.files.fs inode.data size offset =
          .ok ((List.range (min size ((st₀.files.inode s).length - offset))).map fun i =>
            st.content s (offset + i))) ∧
    (∀ s, st.deleted.count s = if st.marked s = true ∧ st.files.opens s = none then 1 else 0) := by
  have inv : Deferred st₀ st := by
    refine reach.invariant (P := Deferred st₀) ?_ fun _ _ _ inv _ hstep => inv.step start only hstep
    rintro _ rfl
    exact start.deferred
  refine ⟨fun s file pending => ⟨fun x refers => ?_, fun inode isOpen => inv.reads isOpen⟩,
    fun s => (inv.at_ s).deleted⟩
  have h := inv.at_ s
  have live := h.live.mpr ⟨file, pending⟩
  have now : st.files.Refers s x := by
    cases x with
    | own => trivial
    | part r =>
      rw [Files.Refers, h.inode live]
      exact refers
  rw [← h.sector live x now]
  exact inv.wellFormed.used s x live now

/-- `inode_delete` of files of less than two blocks. -/
def shortDelete : Delete := fun dev fs d =>
  if d.length < 1024 then inodeDelete dev fs d else .error .subscript

theorem shortDelete_releasesOnly : ReleasesOnly shortDelete := by
  intro dev fs d fs' maps run x away
  rw [shortDelete] at run
  split at run
  next short =>
    have kept : Files.Kept (· = x) fs fs' := Files.inodeDelete_kept maps short away run
    exact ⟨kept.data x rfl, kept.used x rfl⟩
  next => cases run

/-- A file of 10 bytes, with its inode in sector 1 and its block in sector 2. -/
def oneFile : Removal :=
  let data : Nat → Bytes := fun s i =>
    if s = 1 then if i = 0 then 10 else if i = 4 then 2 else 0 else 7
  let free : FreeMap := ⟨4, fun _ => true, some fun _ => true, fun _ => none, 0, by decide⟩
  let files : Files := ⟨⟨data, free, []⟩, fun _ => none, fun s => s = 1⟩
  ⟨files, fun s p => byteAt files.fs (files.inode s) p, fun _ => false, []⟩

theorem oneFile_start : Start oneFile := by
  have inode : oneFile.files.inode 1 = ⟨10, 2, 0, 0, false, 0⟩ := by decide
  have file : ∀ s, oneFile.files.live s = true → s = 1 := fun s live => of_decide_eq_true live
  have refers : ∀ x, oneFile.files.Refers 1 x → x = .own ∨ x = .part (.data 0) := by
    intro x hx
    cases x with
    | own => exact .inl rfl
    | part r =>
      rw [Files.Refers, inode] at hx
      cases r <;> simp [Upto, nextBlock, bytesToSectors] at hx
      subst hx
      exact .inr rfl
  have block : oneFile.files.sector 1 (.part (.data 0)) = 2 := by decide
  refine ⟨⟨⟨fun s x live hx => ?_, fun s s' x x' live live' hx hx' eq => ?_⟩, fun s live => ?_,
    fun _ _ => rfl⟩, fun _ => rfl, fun _ _ => rfl, fun _ => rfl, rfl⟩
  · obtain rfl := file s live
    rcases refers x hx with rfl | rfl
    · exact ⟨by decide, rfl⟩
    · rw [block]
      exact ⟨by decide, rfl⟩
  · obtain rfl := file s live
    obtain rfl := file s' live'
    refine ⟨rfl, ?_⟩
    rcases refers x hx with rfl | rfl <;> rcases refers x' hx' with rfl | rfl
    · rfl
    · rw [block] at eq
      cases eq
    · rw [block] at eq
      cases eq
    · rfl
  · obtain rfl := file s live
    rw [inode]
    decide

/-- A file that is opened twice and removed keeps its bytes until the second close. -/
theorem deferred_deletion_twice :
    (∃ st, Reach (Fires (step shortDelete)) (fun _ _ => True) (· = oneFile) st ∧
      st.marked 1 = true ∧ st.deleted.count 1 = 0 ∧ st.files.fs.free.Used 2 ∧
      st.content 1 3 = 9) ∧
    (∃ st, Reach (Fires (step shortDelete)) (fun _ _ => True) (· = oneFile) st ∧
      st.deleted.count 1 = 1 ∧ st.files.fs.free.used 2 = false) := by
  obtain ⟨st, reach, marked, isOpen, content⟩ : ∃ st,
      Reach (Fires (step shortDelete)) (fun _ _ => True) (· = oneFile) st ∧
      st.marked 1 = true ∧ (st.files.opens 1).isSome = true ∧ st.content 1 3 = 9 :=
    Reach.eval [.open_ 1, .reopen 1, .remove 1, .writeAt 1 (fun _ => 9) 2 2, .close 1 fun _ _ => 0,
      .readAt 1 10 0] (by decide)
  obtain ⟨st', reach', marked', closed', free'⟩ : ∃ st,
      Reach (Fires (step shortDelete)) (fun _ _ => True) (· = oneFile) st ∧
      st.marked 1 = true ∧ (st.files.opens 1).isNone = true ∧ st.files.fs.free.used 2 = false :=
    Reach.eval [.open_ 1, .reopen 1, .remove 1, .close 1 fun _ _ => 0, .close 1 fun _ _ => 0]
      (by decide)
  have still : st.files.opens 1 ≠ none := by
    intro none
    rw [none] at isOpen
    cases isOpen
  obtain ⟨pending, count⟩ := deferred_deletion shortDelete_releasesOnly oneFile_start reach
  obtain ⟨_, count'⟩ := deferred_deletion shortDelete_releasesOnly oneFile_start reach'
  refine ⟨⟨st, reach, marked, ?_, ?_, content⟩, ⟨st', reach', ?_, free'⟩⟩
  · rw [count 1, if_neg fun both => still both.2]
  · have block : Upto (nextBlock (oneFile.files.inode 1).length) (.data 0) := by decide
    exact (pending 1 rfl fun _ => still).1 (.part (.data 0)) block
  · rw [count' 1, if_pos ⟨marked', Option.isNone_iff_eq_none.mp closed'⟩]

end Removal

end Pintos.Filesys
