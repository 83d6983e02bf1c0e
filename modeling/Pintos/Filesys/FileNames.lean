import Pintos.Filesys.FailedCreation
import Pintos.Filesys.NamedFiles
import Pintos.Filesys.Persistence

/-! The names in the root directory and the files under them, and what the calls on inodes do to
them. -/

namespace Pintos.Filesys

open Words Role CStrings ByteFiles Results Filesys.Tree

/-- A directory is well formed when its bytes are those of one that is. -/
theorem DirOk.congr {f f' : ByteFile} (ok : DirOk f) (length : f'.length = f.length)
    (bytes : ∀ p < f.length, f'.bytes p = f.bytes p) : DirOk f' := by
  have whole := ok.whole
  have same : ∀ k, 20 * k < f'.length → ∀ i < 20, entry f' k i = entry f k i :=
    fun k inside i small => bytes _ (by omega)
  refine ⟨by rwa [length], fun k inside used => ?_,
    fun k l name kin lin kused lused kname lname => ?_⟩
  · rw [inUse_congr (same k inside)] at used
    obtain ⟨name, named, full, short⟩ := ok.valid k (by omega) used
    exact ⟨name, by rwa [nameIs_congr (same k inside) short], full, short⟩
  · rw [inUse_congr (same k kin)] at kused
    rw [inUse_congr (same l lin)] at lused
    obtain ⟨kvalid, knamed, -, kshort⟩ := ok.valid k (by omega) kused
    obtain ⟨lvalid, lnamed, -, lshort⟩ := ok.valid l (by omega) lused
    rw [nameIs_copy (same k kin) knamed kshort] at kname
    rw [nameIs_copy (same l lin) lnamed lshort] at lname
    exact ok.distinct k l name (by omega) (by omega) kused lused kname lname

namespace Files

variable {st mid st' : Files} {s t d : Nat} {c : CString} {P : Nat → Prop} {o : OpenInode}
  {dev : Nat → Bytes}

/-- The bytes of the inode in sector `s`. -/
def content (st : Files) (s : Nat) : List UInt8 :=
  (List.range (st.inode s).length).map (byteAt st.fs (st.inode s))

@[simp] theorem length_content (st : Files) (s : Nat) :
    (st.content s).length = (st.inode s).length := by
  simp [content]

/-- The inodes of `P` are the same in both states, and so are their bytes. -/
structure Leaves (st st' : Files) (P : Nat → Prop) : Prop where
  live : ∀ t, P t → st'.live t = st.live t
  inode : ∀ t, P t → st.live t = true → st'.inode t = st.inode t
  bytes : ∀ t, P t → st.live t = true → ∀ p < (st.inode t).length,
    byteAt st'.fs (st'.inode t) p = byteAt st.fs (st.inode t) p

section Leaves

theorem Leaves.trans (h : Leaves st mid P) (h' : Leaves mid st' P) : Leaves st st' P := by
  refine ⟨fun t ht => (h'.live t ht).trans (h.live t ht), fun t ht live => ?_,
    fun t ht live p inside => ?_⟩
  · exact (h'.inode t ht ((h.live t ht).trans live)).trans (h.inode t ht live)
  · have same := h.inode t ht live
    exact (h'.bytes t ht ((h.live t ht).trans live) p (by rwa [same])).trans
      (h.bytes t ht live p inside)

theorem Leaves.mono {Q : Nat → Prop} (h : Leaves st st' P) (sub : ∀ t, Q t → P t) :
    Leaves st st' Q :=
  ⟨fun t ht => h.live t (sub t ht), fun t ht => h.inode t (sub t ht),
    fun t ht => h.bytes t (sub t ht)⟩

theorem SameView.leaves (same : SameView st st') (P : Nat → Prop) : Leaves st st' P := by
  refine ⟨fun t _ => by rw [same.live], fun t _ _ => same.inode t, fun t _ _ p _ => ?_⟩
  have sector := same.sector t (.part (.data (p / 512)))
  rw [Files.sector, Files.sector] at sector
  rw [byteAt, byteAt, sector, same.data]

theorem Others.leaves (others : Others st st' s) : Leaves st st' (· ≠ s) :=
  ⟨fun t ne => others.live t ne, fun _ ne live => others.inode ne live,
    fun _ ne live _ inside => others.byteAt ne live inside⟩

/-- The last close of an inode that stays. -/
theorem Closed.leaves (closed : Closed st st' s false) (live : st.live s = true) (P : Nat → Prop) :
    Leaves st st' P := by
  have apart := closed.others.leaves
  refine ⟨fun t _ => ?_, fun t _ alive => ?_, fun t _ alive => ?_⟩ <;> by_cases eq : t = s
  · rw [eq, live, closed.live rfl]
  · exact apart.live t eq
  · rw [eq]
    exact closed.inode rfl
  · exact apart.inode t eq alive
  · rw [eq]
    exact closed.bytes rfl
  · exact apart.bytes t eq alive

theorem Leaves.content (h : Leaves st st' P) (ht : P t) (live : st.live t = true) :
    st'.content t = st.content t := by
  have same := h.inode t ht live
  rw [Files.content, Files.content, same]
  refine List.map_congr_left fun p inside => ?_
  have kept := h.bytes t ht live p (List.mem_range.mp inside)
  rwa [same] at kept

theorem Leaves.lookup (h : Leaves st st' P) (ht : P t) (live : st.live t = true) (c : CString) :
    st'.lookup t c = st.lookup t c := by
  rw [Files.lookup, Files.lookup, lookup_congr]
  · exact congrArg InodeDisk.length (h.inode t ht live)
  · exact h.bytes t ht live

theorem Leaves.dirOk (h : Leaves st st' P) (ht : P t) (live : st.live t = true)
    (ok : DirOk (st.byteFile t)) : DirOk (st'.byteFile t) :=
  DirOk.congr ok (congrArg InodeDisk.length (h.inode t ht live)) (h.bytes t ht live)

end Leaves

/-- A file has at most one name, and none exactly when it is removed. -/
structure Tidy (st : Files) (s : Nat) : Prop where
  file : ∀ c, st.lookup 1 c = some s → st.live s = true ∧ (st.inode s).isdir = false
  once : ∀ c c', st.lookup 1 c = some s → st.lookup 1 c' = some s → c = c'
  removed : ∀ o, st.opens s = some o → (o.removed = true ↔ ∀ c, st.lookup 1 c ≠ some s)
  named : st.live s = true → st.opens s = none → ∃ c, st.lookup 1 c = some s

/-- A file system with files in its root directory only. -/
structure Sound (st : Files) : Prop extends Inv st where
  small : ∀ s o, st.opens s = some o → Small o.data
  synced : st.fs.free.file.isSome ∧ st.fs.free.Synced
  freeMap : ∃ o, st.opens 0 = some o ∧ o.removed = false
  root : st.live 1 = true ∧ (st.inode 1).isdir = true
  dir : DirOk (st.byteFile 1)
  reserved : ∀ c s, st.lookup 1 c = some s → s ≠ 0 ∧ s ≠ 1
  tidy : ∀ s, s ≠ 0 → s ≠ 1 → Tidy st s

section Sound

theorem Tidy.congr (tidy : Tidy st t)
    (lookup : ∀ c, st'.lookup 1 c = some t ↔ st.lookup 1 c = some t)
    (live : st'.live t = st.live t) (inode : st.live t = true → st'.inode t = st.inode t)
    (opens : st'.opens t = st.opens t) : Tidy st' t := by
  refine ⟨fun c bound => ?_, fun c c' bound bound' => ?_, fun o isOpen => ?_,
    fun alive closed => ?_⟩
  · obtain ⟨alive, file⟩ := tidy.file c ((lookup c).mp bound)
    rw [live, inode alive]
    exact ⟨alive, file⟩
  · exact tidy.once c c' ((lookup c).mp bound) ((lookup c').mp bound')
  · rw [opens] at isOpen
    simp only [ne_eq, lookup]
    exact tidy.removed o isOpen
  · rw [live] at alive
    rw [opens] at closed
    obtain ⟨c, bound⟩ := tidy.named alive closed
    exact ⟨c, (lookup c).mpr bound⟩

/-- A call that leaves the inodes of `P` and the names for them. -/
theorem Sound.of_leaves (sound : Sound st) (inv : Inv st') (leaves : Leaves st st' P)
    (opens : ∀ t, P t → st'.opens t = st.opens t)
    (names : ∀ c t, P t → (st'.lookup 1 c = some t ↔ st.lookup 1 c = some t))
    (reserved : ∀ c s, st'.lookup 1 c = some s → s ≠ 0 ∧ s ≠ 1)
    (small : ∀ t o, ¬P t → st'.opens t = some o → Small o.data)
    (synced : st'.fs.free.file.isSome ∧ st'.fs.free.Synced)
    (freeMap : ¬P 0 → ∃ o, st'.opens 0 = some o ∧ o.removed = false)
    (root : ¬P 1 → (st'.live 1 = true ∧ (st'.inode 1).isdir = true) ∧ DirOk (st'.byteFile 1))
    (tidy : ∀ t, ¬P t → t ≠ 0 → t ≠ 1 → Tidy st' t) : Sound st' := by
  have atRoot : (st'.live 1 = true ∧ (st'.inode 1).isdir = true) ∧ DirOk (st'.byteFile 1) := by
    by_cases kept : P 1
    · refine ⟨⟨(leaves.live 1 kept).trans sound.root.1, ?_⟩,
        leaves.dirOk kept sound.root.1 sound.dir⟩
      rw [leaves.inode 1 kept sound.root.1]
      exact sound.root.2
    · exact root kept
  refine { inv with
    small := fun t o isOpen => ?_, synced := synced, freeMap := ?_, root := atRoot.1,
    dir := atRoot.2, reserved := reserved, tidy := fun t ne ne' => ?_ }
  · by_cases kept : P t
    · exact sound.small t o (by rwa [← opens t kept])
    · exact small t o kept isOpen
  · by_cases kept : P 0
    · rw [opens 0 kept]
      exact sound.freeMap
    · exact freeMap kept
  · by_cases kept : P t
    · exact (sound.tidy t ne ne').congr (fun c => names c t kept) (leaves.live t kept)
        (leaves.inode t kept) (opens t kept)
    · exact tidy t kept ne ne'

/-- A call on the inode in sector `s` that leaves the names. -/
theorem Sound.step_of (sound : Sound st) (inv : Inv st') (leaves : Leaves st st' (· ≠ s))
    (opens : ∀ t, t ≠ s → st'.opens t = st.opens t) (names : ∀ c, st'.lookup 1 c = st.lookup 1 c)
    (small : ∀ o, st'.opens s = some o → Small o.data)
    (synced : st'.fs.free.file.isSome ∧ st'.fs.free.Synced)
    (freeMap : s = 0 → ∃ o, st'.opens 0 = some o ∧ o.removed = false)
    (root : s = 1 → (st'.live 1 = true ∧ (st'.inode 1).isdir = true) ∧ DirOk (st'.byteFile 1))
    (tidy : s ≠ 0 → s ≠ 1 → Tidy st' s) : Sound st' := by
  refine sound.of_leaves inv leaves opens (fun c t _ => by rw [names])
    (fun c t bound => sound.reserved c t (by rwa [← names])) (fun t o here isOpen => ?_) synced
    (fun here => freeMap (not_not.mp here).symm) (fun here => root (not_not.mp here).symm)
    fun t here ne ne' => ?_
  · obtain rfl := not_not.mp here
    exact small o isOpen
  · obtain rfl := not_not.mp here
    exact tidy ne ne'

/-- The counters of an inode change, or it is opened. -/
theorem Sound.setOpen (sound : Sound st) (live : st.live s = true) (data : o.data = st.inode s)
    (removed : o.removed = (st.opens s).any (·.removed)) :
    Sound { st with opens := Function.update st.opens s (some o) } := by
  have here : Function.update st.opens s (some o) s = some o := Function.update_self ..
  have same := sameView_opens data
  have leaves := same.leaves fun _ => True
  have names := leaves.lookup (t := 1) trivial sound.root.1
  refine sound.step_of (sound.toInv.opens live data) (leaves.mono fun _ _ => trivial)
    (fun t ne => Function.update_of_ne ne _ _) names (fun i isOpen => ?_) sound.synced
    (fun zero => ?_) (fun one => ?_) fun ne ne' => ?_
  · obtain rfl := Option.some.inj (here.symm.trans isOpen)
    rw [data]
    cases old : st.opens s with
    | none =>
      rw [inode_of_closed old]
      exact read_small _
    | some i =>
      rw [inode_of_open old]
      exact sound.small s i old
  · subst zero
    obtain ⟨i, isOpen, kept⟩ := sound.freeMap
    refine ⟨o, here, ?_⟩
    rw [removed, isOpen]
    exact kept
  · exact ⟨⟨sound.root.1, (congrArg InodeDisk.isdir (same.inode 1)).trans sound.root.2⟩,
      leaves.dirOk trivial sound.root.1 sound.dir⟩
  · have tidy := sound.tidy s ne ne'
    refine ⟨fun c bound => ?_, fun c c' bound bound' => ?_, fun i isOpen => ?_, fun _ closed => ?_⟩
    · rw [names] at bound
      rw [same.inode s]
      exact tidy.file c bound
    · rw [names] at bound bound'
      exact tidy.once c c' bound bound'
    · obtain rfl := Option.some.inj (here.symm.trans isOpen)
      simp only [names, removed]
      cases old : st.opens s with
      | none =>
        obtain ⟨c, bound⟩ := tidy.named live old
        exact ⟨(fun bound => by cases bound), fun nameless => absurd bound (nameless c)⟩
      | some i => exact tidy.removed i old
    · cases here.symm.trans closed

theorem Sound.inodeOpen (sound : Sound st) (live : st.live s = true) : Sound (st.inodeOpen s) := by
  rw [inodeOpen_bump]
  refine sound.setOpen live ?_ ?_ <;> cases old : st.opens s <;> simp [bump, inode, old]

/-- The last close of an inode. -/
theorem Sound.lastClose (sound : Sound st) (isOpen : st.opens s = some o) (ne : s ≠ 0)
    (root : s = 1 → o.removed = false) (short : o.removed = true → o.data.length < 1024)
    (dev : Nat → Bytes) :
    ∃ st', st.lastClose dev s o = .ok st' ∧ Sound st' ∧ Closed st st' s o.removed := by
  obtain ⟨st', run⟩ := sound.wellFormed.lastClose_ok dev isOpen sound.synced.1 short
  have closed := sound.toInv.closed isOpen (sound.small s o isOpen) short run
  have live := sound.wellFormed.live_of_open isOpen
  have names : ∀ c, st'.lookup 1 c = st.lookup 1 c := by
    intro c
    by_cases eq : s = 1
    · have stays : Closed st st' s false := root eq ▸ closed
      exact (stays.leaves live (fun _ => True)).lookup trivial sound.root.1 c
    · exact closed.others.leaves.lookup (Ne.symm eq) sound.root.1 c
  refine ⟨st', run, sound.step_of closed.inv closed.others.leaves closed.others.opens names
    (fun i again => ?_) (closed.synced sound.synced) (absurd · ne) (fun one => ?_)
    fun _ ne' => ?_, closed⟩
  · cases closed.opens.symm.trans again
  · subst one
    have stays : Closed st st' 1 false := root rfl ▸ closed
    have leaves := stays.leaves live fun _ => True
    refine ⟨⟨(leaves.live 1 trivial).trans live, ?_⟩, leaves.dirOk trivial live sound.dir⟩
    rw [leaves.inode 1 trivial live]
    exact sound.root.2
  · have tidy := sound.tidy s ne ne'
    refine ⟨fun c bound => ?_, fun c c' bound bound' => ?_, fun i again => ?_, fun alive _ => ?_⟩
    · rw [names] at bound
      have kept : o.removed = false := by
        by_contra removed
        exact (tidy.removed o isOpen).mp (by simpa using removed) c bound
      rw [kept] at closed
      rw [closed.live rfl, closed.inode rfl]
      exact ⟨rfl, (tidy.file c bound).2⟩
    · rw [names] at bound bound'
      exact tidy.once c c' bound bound'
    · cases closed.opens.symm.trans again
    · simp only [names]
      by_contra nameless
      have removed := (tidy.removed o isOpen).mpr fun c bound => nameless ⟨c, bound⟩
      rw [closed.dead removed] at alive
      cases alive

/-- What a close leaves of an open inode. -/
def OpenInode.drop (o : OpenInode) : Option OpenInode :=
  if o.openCnt - 1 = 0 then none else some { o with openCnt := o.openCnt - 1 }

/-- A close, after which the inodes that are left are as they were. -/
theorem Sound.inodeClose (sound : Sound st) (isOpen : st.opens s = some o) (ne : s ≠ 0)
    (root : s = 1 → o.removed = false)
    (short : o.removed = true → o.openCnt ≤ 1 → o.data.length < 1024) (dev : Nat → Bytes) :
    ∃ st', st.inodeClose dev s = .ok st' ∧ Sound st' ∧
      st'.opens = Function.update st.opens s (OpenInode.drop o) ∧
      Leaves st st' fun t => st'.live t = true := by
  have live := sound.wellFormed.live_of_open isOpen
  rw [Files.inodeClose, isOpen, OpenInode.drop]
  by_cases last : o.openCnt - 1 = 0
  · obtain ⟨st', run, sound', closed⟩ :=
      sound.lastClose isOpen ne root (fun removed => short removed (by omega)) dev
    refine ⟨st', by simp only [last, if_true, run], sound', ?_, ?_⟩
    · funext t
      rw [if_pos last, Function.update_apply]
      split
      next eq => rw [eq, closed.opens]
      next eq => exact closed.others.opens t eq
    · cases kept : o.removed with
      | false =>
        rw [kept] at closed
        exact closed.leaves live _
      | true =>
        refine closed.others.leaves.mono fun t alive => ?_
        rintro rfl
        cases (closed.dead kept).symm.trans alive
  · simp only [last, if_false]
    have data : { o with openCnt := o.openCnt - 1 }.data = st.inode s := (inode_of_open isOpen).symm
    exact ⟨_, rfl, sound.setOpen live data (by rw [isOpen]; rfl), rfl,
      (sameView_opens data).leaves _⟩

end Sound

end Files

end Pintos.Filesys
