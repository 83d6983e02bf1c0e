import Pintos.Filesys.FileBytes
import Pintos.Filesys.Shutdown

/-! What `filesys_done` leaves on the device, after any run: the inodes and the bytes last written,
when no open file has an inode that is not in its sector. -/

namespace Pintos.Filesys

open Words Role Transition Results

namespace Files

section Close

variable {st st' : Files} {s : Nat} {o : OpenInode} {dev : Nat → Bytes}

/-- What the last close of the inode in sector `s` leaves: the inode as it was, unless it was
removed. -/
structure Closed (st st' : Files) (s : Nat) (removed : Bool) : Prop where
  inv : Inv st'
  others : Others st st' s
  opens : st'.opens s = none
  live : removed = false → st'.live s = true
  dead : removed = true → st'.live s = false
  inode : removed = false → st'.inode s = st.inode s
  bytes : removed = false → ∀ p < (st.inode s).length,
    byteAt st'.fs (st'.inode s) p = byteAt st.fs (st.inode s) p
  synced : st.fs.free.file.isSome ∧ st.fs.free.Synced →
    st'.fs.free.file.isSome ∧ st'.fs.free.Synced

theorem Inv.closed (inv : Inv st) (isOpen : st.opens s = some o) (small : Small o.data)
    (short : o.removed = true → o.data.length < 1024)
    (run : st.lastClose dev s o = .ok st') : Closed st st' s o.removed := by
  have inv' := inv.lastClose isOpen short run
  have live := inv.wellFormed.live_of_open isOpen
  have before := inode_of_open isOpen
  rw [Files.lastClose] at run
  split at run
  next removed =>
    obtain ⟨fs, delete, run⟩ := bind_ok run
    obtain ⟨fs', release, run⟩ := bind_ok run
    obtain rfl := Except.ok.inj run
    have others : Others st
        ⟨fs', Function.update st.opens s none, Function.update st.live s false⟩ s :=
      inv.wellFormed.delete_others isOpen (short removed) delete release rfl rfl
    have kept : ∀ {p : Prop}, o.removed = false → p := fun stays => by
      rw [removed] at stays
      cases stays
    refine ⟨inv', others, Function.update_self .., kept, fun _ => Function.update_self .., kept,
      kept, fun _ => ?_⟩
    obtain ⟨free, freed, put⟩ := bind_ok release
    obtain rfl := Except.ok.inj put
    obtain ⟨file, synced⟩ := FreeMap.release_synced freed
    exact ⟨file, synced inv'.writable⟩
  next stays =>
    obtain rfl := Except.ok.inj run
    have maps : Maps st.fs o.data (Upto (nextBlock o.data.length)) :=
      before ▸ inv.wellFormed.maps live
    have off : ∀ r, Upto (nextBlock o.data.length) r → sectorAt st.fs o.data r ≠ s :=
      before ▸ inv.wellFormed.off_own live live
    obtain ⟨-, same⟩ := maps_copyTo (c := st.fs.data s) maps off
    have own := read_copyTo_small small (st.fs.data s)
    have after : Files.inode ⟨st.fs.put s (o.data.copyTo (st.fs.data s)),
        Function.update st.opens s none, st.live⟩ s = o.data := by
      rw [inode_of_closed (Function.update_self ..), Fs.put_self, own]
    rw [own] at same
    refine ⟨inv', inv.wellFormed.record_others isOpen rfl rfl rfl, Function.update_self ..,
      fun _ => live, fun removed => absurd removed stays, fun _ => after.trans before.symm,
      fun _ p inside => ?_, id⟩
    rw [before] at inside ⊢
    rw [after]
    have block : Upto (nextBlock o.data.length) (.data (p / 512)) := by
      simp only [Upto, nextBlock, bytesToSectors]
      omega
    exact byteAt_congr (same _ block) (Fs.put_of_ne _ _ (off _ block))

/-- The last close of an inode does not fault, unless it deletes a longer file. -/
theorem WellFormed.lastClose_ok (inv : WellFormed st) (dev : Nat → Bytes)
    (isOpen : st.opens s = some o) (file : st.fs.free.file.isSome)
    (short : o.removed = true → o.data.length < 1024) :
    ∃ st', st.lastClose dev s o = .ok st' := by
  rw [Files.lastClose]
  split
  next removed =>
    have live := inv.live_of_open isOpen
    obtain ⟨maps, parts⟩ := inv.maps_put isOpen
    obtain ⟨fs, delete, file'⟩ := inodeDelete_ok dev maps (short removed) file
    -- The own sector is none of those that the deletion releases.
    have off : ∀ r, Upto (nextBlock o.data.length) r →
        ¬sectorAt (st.fs.put s (o.data.copyTo (st.fs.data s))) o.data r = s := by
      intro r hr
      rw [(parts r hr).1]
      exact (parts r hr).2.1
    have kept := inodeDelete_kept (P := (· = s)) maps (short removed) off delete
    obtain ⟨fs', release, -⟩ :=
      releaseSector_ok dev (kept.used s rfl (inv.used s .own live trivial)) file'
    refine ⟨⟨fs', Function.update st.opens s none, Function.update st.live s false⟩, ?_⟩
    simp only [delete, release, bind, Except.bind]
  next => exact ⟨_, rfl⟩

end Close

section Parent

/-- The inode is given a parent, in memory and in its sector, which is no part of its map. -/
theorem Inv.putParent {st files : Files} {s : Nat} (inv : Inv st) {o : OpenInode}
    (isOpen : st.opens s = some o) {parent : Nat} {d : InodeDisk}
    (set : d = { o.data with parent := parent })
    (fs : files.fs = st.fs.put s (d.copyTo (st.fs.data s)))
    (opens : files.opens = Function.update st.opens s (some { o with data := d }))
    (lives : files.live = st.live) :
    Inv files ∧ Others st files s ∧
      ∀ p < o.data.length, byteAt files.fs (files.inode s) p = byteAt st.fs (st.inode s) p := by
  have live := inv.wellFormed.live_of_open isOpen
  have before := inode_of_open isOpen
  have maps := inv.wellFormed.maps live
  have off := inv.wellFormed.off_own live live
  rw [before] at maps off
  have length : d.length = o.data.length := by rw [set]
  have same : ∀ r, Upto (nextBlock o.data.length) r →
      sectorAt (st.fs.put s (d.copyTo (st.fs.data s))) d r = sectorAt st.fs o.data r := by
    intro r hr
    rw [set, sectorAt_parent]
    exact maps.layout.sectorAt_write (fun R hR _ => off R hR) rfl r hr
  have inode : files.inode s = d := by
    apply inode_of_open (o := { o with data := d })
    rw [opens]
    exact Function.update_self ..
  have others : Others st files s := by
    refine ⟨fun t _ => congrFun lives t, fun t other => ?_, fun t y other live' hy => ?_,
      fun t y _ live' hy => ?_⟩
    · rw [opens]
      exact Function.update_of_ne other _ _
    · rw [fs]
      exact Fs.put_of_ne _ _ (inv.wellFormed.apart_own live t y other live' hy).symm
    · rw [fs]
      exact inv.used t y live' hy
  have target : Target st files s := by
    refine inv.wellFormed.target_of_same live inode ?_ ?_ ?_ fun r hr => ?_
    · rw [length, before]
    · rw [length, fs]
      exact maps.of_same same fun _ => id
    · rw [fs]
      exact inv.used s .own live trivial
    · rw [before] at hr ⊢
      rw [fs]
      exact same r hr
  have writable : files.fs.free.Writable := by
    rw [fs]
    exact inv.writable
  have wf := inv.wellFormed.step_of others (fun _ => target) fun dead => by
    rw [lives, live] at dead
    cases dead
  refine ⟨wf.inv writable, others, fun p inside => ?_⟩
  have block : Upto (nextBlock o.data.length) (.data (p / 512)) := by
    simp only [Upto, nextBlock, bytesToSectors]
    omega
  rw [inode, before, fs]
  exact byteAt_congr (same _ block) (Fs.put_of_ne _ _ (off _ block))

theorem Inv.setParent {st : Files} {s : Nat} (inv : Inv st) {o : OpenInode}
    (isOpen : st.opens s = some o) (parent : Nat) :
    (st.inodeSetParent s parent).opens s =
        some { o with data := { o.data with parent := parent } } ∧
      Inv (st.inodeSetParent s parent) ∧ Others st (st.inodeSetParent s parent) s ∧
      (∀ p < o.data.length, byteAt (st.inodeSetParent s parent).fs
        ((st.inodeSetParent s parent).inode s) p = byteAt st.fs (st.inode s) p) ∧
      (st.inodeSetParent s parent).fs.free = st.fs.free := by
  generalize set : ({ o.data with parent := parent } : InodeDisk) = d
  have shape : st.inodeSetParent s parent = ⟨st.fs.put s (d.copyTo (st.fs.data s)),
      Function.update st.opens s (some { o with data := d }), st.live⟩ := by
    rw [inodeSetParent, isOpen, ← set]
  have fs : (st.inodeSetParent s parent).fs = st.fs.put s (d.copyTo (st.fs.data s)) := by
    rw [shape]
  have opens : (st.inodeSetParent s parent).opens =
      Function.update st.opens s (some { o with data := d }) := by rw [shape]
  have lives : (st.inodeSetParent s parent).live = st.live := by rw [shape]
  obtain ⟨inv', others, bytes⟩ := inv.putParent isOpen set.symm fs opens lives
  refine ⟨?_, inv', others, bytes, ?_⟩
  · rw [opens]
    exact Function.update_self ..
  · rw [fs]
    rfl

end Parent

section Mount

/-- What a mount reads is on the device. -/
theorem mount_inode (st : Files) (image : Nat → Bytes) (bitmap : FreeMap) (s : Nat) :
    (st.mount image bitmap).inode s = .read (image s) := by
  obtain ⟨o, eq, same⟩ := Files.inodeOpen_eq
    ⟨⟨image, { freeMapInit bitmap with file := st.fs.free.file }, []⟩, fun _ => none, st.live⟩ 0
  rw [mount, eq]
  exact (sameView_opens same).inode s

theorem mount_data (st : Files) (image : Nat → Bytes) (bitmap : FreeMap) :
    (st.mount image bitmap).fs.data = image := rfl

theorem mount_used (st : Files) (image : Nat → Bytes) (bitmap : FreeMap)
    (file : st.fs.free.file.isSome) (synced : st.fs.free.Synced) :
    (st.mount image bitmap).fs.free.used = st.fs.free.used := by
  obtain ⟨bits, some⟩ := Option.isSome_iff_exists.mp file
  have read : (FreeMap.bitmapRead { freeMapInit bitmap with file := st.fs.free.file }).used =
      bits := by
    rw [FreeMap.bitmapRead, some]
  exact read.trans (synced bits some)

end Mount

end Files

namespace Session

structure Inv (st : Session) : Prop where
  files : Files.Inv st.files
  freeMap : ∃ o, st.files.opens 0 = some o ∧ o.openCnt = 1 ∧ o.removed = false
  nodup : st.openInodes.Nodup
  listed : ∀ s, s ∈ st.openInodes ↔ st.files.opens s ≠ none
  small : ∀ s o, st.files.opens s = some o → Files.Small o.data
  synced : st.files.fs.free.file.isSome ∧ st.files.fs.free.Synced
  written : ∀ s p b, st.files.live s = true → st.written s p = some b →
    p < (st.files.inode s).length ∧ byteAt st.files.fs (st.files.inode s) p = b

variable {st st' : Session} {s : Nat}

section Runs

/-- A call for the inode in sector `s`. -/
theorem Inv.step_of (inv : Inv st) (ne : s ≠ 0) (files : Files.Inv st'.files)
    (others : Files.Others st.files st'.files s) (nodup : st'.openInodes.Nodup)
    (list : ∀ t, t ≠ s → (t ∈ st'.openInodes ↔ t ∈ st.openInodes))
    (listed : s ∈ st'.openInodes ↔ st'.files.opens s ≠ none)
    (small : ∀ o, st'.files.opens s = some o → Files.Small o.data)
    (synced : st'.files.fs.free.file.isSome ∧ st'.files.fs.free.Synced)
    (note : ∀ t, t ≠ s → st'.written t = st.written t)
    (written : st'.files.live s = true → ∀ p b, st'.written s p = some b →
      p < (st'.files.inode s).length ∧ byteAt st'.files.fs (st'.files.inode s) p = b) :
    Inv st' := by
  refine ⟨files, ?_, nodup, fun t => ?_, fun t o isOpen => ?_, synced, fun t p b live noted => ?_⟩
  · rw [others.opens 0 ne.symm]
    exact inv.freeMap
  · by_cases eq : t = s
    · rw [eq]
      exact listed
    · rw [list t eq, others.opens t eq]
      exact inv.listed t
  · by_cases eq : t = s
    · subst eq
      exact small o isOpen
    · rw [others.opens t eq] at isOpen
      exact inv.small t o isOpen
  · by_cases eq : t = s
    · subst eq
      exact written live p b noted
    · rw [others.live t eq] at live
      rw [note t eq] at noted
      obtain ⟨inside, byte⟩ := inv.written t p b live noted
      rw [others.byteAt eq live inside, others.inode eq live]
      exact ⟨inside, byte⟩

/-- A call that changes the counters or the mark of an open inode, or opens it. -/
theorem Inv.setOpen (inv : Inv st) (ne : s ≠ 0) (live : st.files.live s = true) {o : OpenInode}
    (same : o.data = st.files.inode s) :
    Inv { st with
      files := { st.files with opens := Function.update st.files.opens s (some o) }
      openInodes := if (st.files.opens s).isSome then st.openInodes else s :: st.openInodes } := by
  have view := Files.sameView_opens same
  have now : Function.update st.files.opens s (some o) s = some o := Function.update_self ..
  have others : Files.Others st.files
      { st.files with opens := Function.update st.files.opens s (some o) } s :=
    ⟨fun _ _ => rfl, fun t other => Function.update_of_ne other _ _, fun _ _ _ _ _ => rfl,
      fun t x _ live' refers => inv.files.used t x live' refers⟩
  refine inv.step_of ne (inv.files.opens live same) others ?_ (fun t other => ?_) ?_
    (fun o' isOpen => ?_) inv.synced (fun _ _ => rfl) (fun _ p b noted => ?_)
  · dsimp only
    split
    next => exact inv.nodup
    next closed =>
      refine List.nodup_cons.mpr ⟨fun mem => closed ?_, inv.nodup⟩
      exact Option.isSome_iff_ne_none.mpr ((inv.listed s).mp mem)
  · dsimp only
    split
    next => exact Iff.rfl
    next => simp [other]
  · refine iff_of_true ?_ ?_
    · dsimp only
      split
      next isOpen => exact (inv.listed s).mpr (Option.isSome_iff_ne_none.mp isOpen)
      next => exact List.mem_cons_self
    · show Function.update st.files.opens s (some o) s ≠ none
      rw [now]
      exact Option.some_ne_none o
  · have isOpen : Function.update st.files.opens s (some o) s = some o' := isOpen
    rw [now] at isOpen
    rw [← Option.some.inj isOpen, same]
    cases before : st.files.opens s with
    | some o₀ =>
      rw [Files.inode_of_open before]
      exact inv.small s o₀ before
    | none =>
      rw [Files.inode_of_closed before]
      exact Files.read_small _
  · obtain ⟨inside, byte⟩ := inv.written s p b live noted
    rw [view.inode s]
    exact ⟨inside, byte⟩

/-- The same for an inode that is open before. -/
theorem Inv.reset (inv : Inv st) (ne : s ≠ 0) {o i : OpenInode}
    (isOpen : st.files.opens s = some o) (same : i.data = o.data) :
    Inv { st with
      files := { st.files with opens := Function.update st.files.opens s (some i) } } := by
  have live := inv.files.wellFormed.live_of_open isOpen
  have kept := inv.setOpen ne live (o := i) (same.trans (Files.inode_of_open isOpen).symm)
  rw [isOpen] at kept
  exact kept

theorem Inv.create (inv : Inv st) {length : Nat} {isdir : Bool}
    (scope : Files.InScope st.files (.create length isdir))
    (careful : Files.Careful st.files (.create length isdir)) {files : Files}
    (run : st.files.step (.create length isdir) = some files) :
    Inv ⟨files, st.openInodes, st.note (.create length isdir)⟩ := by
  have inv' := Files.step_inv inv.files ⟨scope, careful⟩ run
  obtain ⟨bound, room⟩ := scope
  obtain ⟨free, s, alloc, takes⟩ := FreeMap.allocate_takes inv.files.writable (by omega)
  obtain ⟨mid, spare⟩ := inv.files.spare_of_takes takes
  have fewer := takes.freeCount_succ
  have room' : growthSectors 0 length ≤ free.freeCount := by omega
  have unused : ¬st.files.fs.free.Used s := FreeMap.not_used_of_free takes.free
  have dead : st.files.live s = false := spare.dead
  have closed := inv.files.opened s dead
  have ne : s ≠ 0 := by
    rintro rfl
    obtain ⟨o, isOpen, _⟩ := inv.freeMap
    rw [closed] at isOpen
    cases isOpen
  simp only [Files.step, alloc] at run
  split at run
  next fs created =>
    obtain rfl := Option.some.inj run
    have view : Files.SameView st.files { st.files with fs := { st.files.fs with free := free } } :=
      ⟨rfl, fun x used => (takes.used_iff x).mpr (.inl used), rfl, fun _ => rfl⟩
    have others : Files.Others { st.files with fs := { st.files.fs with free := free } }
        { st.files with fs := fs, live := Function.update st.files.live s true } s :=
      mid.create_others spare created bound careful room' rfl rfl
    obtain ⟨_, _, _, _, _, _, synced, file⟩ :=
      Files.inodeCreate_maps spare.used mid.writable created bound careful room'
    refine inv.step_of ne inv' (others.of_sameView view rfl) inv.nodup (fun _ _ => Iff.rfl) ?_
      (fun o isOpen => ?_) ?_ (fun t other => ?_) fun _ p b noted => ?_
    · exact inv.listed s
    · exact absurd (closed.symm.trans isOpen) (Option.some_ne_none o).symm
    · exact ⟨file ▸ takes.file ▸ inv.synced.1, synced (takes.synced inv.synced.2)⟩
    · show st.note (.create length isdir) t = st.written t
      simp [note, alloc, other]
    · have none : st.note (.create length isdir) s p = none := by simp [note, alloc]
      cases none.symm.trans noted
  next => cases run

theorem Inv.writeAt (inv : Inv st) (ne : s ≠ 0) {buffer : Bytes} {size offset : Nat}
    (scope : Files.InScope st.files (.writeAt s buffer size offset))
    (careful : Files.Careful st.files (.writeAt s buffer size offset)) {files : Files}
    (run : st.files.step (.writeAt s buffer size offset) = some files) :
    Inv ⟨files, st.openInodes, st.note (.writeAt s buffer size offset)⟩ := by
  obtain ⟨o, isOpen, run⟩ := Option.bind_eq_some_iff.mp run
  have live := inv.files.wellFormed.live_of_open isOpen
  split at run
  next fs o' w wrote =>
    obtain rfl := Option.some.inj run
    simp only [note, isOpen]
    by_cases allowed : o.denyWriteCnt = 0
    · have written := inv.files.written isOpen scope careful allowed wrote
      obtain ⟨d, now, small⟩ := written.opens
      have length := written.length
      rw [if_pos allowed]
      refine inv.step_of ne written.inv written.others inv.nodup (fun _ _ => Iff.rfl)
        (iff_of_true ?_ ?_) (fun i isOpen' => ?_) (written.synced inv.synced)
        (fun t other => Function.update_of_ne other _ _) fun _ p b noted => ?_
      · rw [inv.listed s, isOpen]
        exact Option.some_ne_none o
      · exact fun none => Option.some_ne_none _ (now.symm.trans none)
      · obtain rfl := Option.some.inj (now.symm.trans isOpen')
        exact small (inv.small s o isOpen)
      · have noted : Function.update st.written s _ s p = some b := noted
        rw [Function.update_self] at noted
        split at noted
        next inside =>
          obtain rfl := Option.some.inj noted
          exact ⟨by rw [length]; omega, written.bytes p inside⟩
        next outside =>
          obtain ⟨inside, byte⟩ := inv.written s p b live noted
          exact ⟨by rw [length]; omega, (written.kept p inside outside).trans byte⟩
    · rw [inodeWriteAt, if_pos allowed] at wrote
      obtain ⟨rfl, same⟩ := Prod.mk.inj (Except.ok.inj wrote)
      obtain ⟨rfl, rfl⟩ := Prod.mk.inj same
      rw [if_neg allowed]
      exact inv.reset ne isOpen rfl
  next => cases run

/-- The last close of an inode, which leaves `open_inodes`. -/
theorem Inv.drop (inv : Inv st) (ne : s ≠ 0) {o : OpenInode} (isOpen : st.files.opens s = some o)
    {files : Files} (closed : Files.Closed st.files files s o.removed) :
    Inv ⟨files, st.openInodes.erase s, st.written⟩ := by
  have live := inv.files.wellFormed.live_of_open isOpen
  refine inv.step_of ne closed.inv closed.others (inv.nodup.erase s)
    (fun t other => List.mem_erase_of_ne other) (iff_of_false ?_ ?_) (fun o' isOpen' => ?_)
    (closed.synced inv.synced) (fun _ _ => rfl) fun stays p b noted => ?_
  · exact fun mem => (inv.nodup.mem_erase_iff.mp mem).1 rfl
  · exact fun some => some closed.opens
  · exact absurd (closed.opens.symm.trans isOpen') (Option.some_ne_none o').symm
  · have kept : o.removed = false := by
      by_contra removed
      have dead := closed.dead ((Bool.not_eq_false _).mp removed)
      cases dead.symm.trans stays
    obtain ⟨inside, byte⟩ := inv.written s p b live noted
    show p < (files.inode s).length ∧ byteAt files.fs (files.inode s) p = b
    rw [closed.bytes kept p inside, closed.inode kept]
    exact ⟨inside, byte⟩

theorem Inv.close (inv : Inv st) (ne : s ≠ 0) {dev : Nat → Bytes}
    (careful : Files.Careful st.files (.close s dev)) {files : Files}
    (run : st.files.inodeClose dev s = .ok files) :
    Inv ⟨files, if (files.opens s).isSome then st.openInodes else st.openInodes.erase s,
      st.written⟩ := by
  rw [Files.inodeClose] at run
  split at run
  next none =>
    obtain rfl := Except.ok.inj run
    have absent : s ∉ st.openInodes := fun mem => (inv.listed s).mp mem none
    rw [none]
    simp only [Option.isSome_none, Bool.false_eq_true, if_false, List.erase_of_not_mem absent]
    exact inv
  next o isOpen =>
    split at run
    next last =>
      have closed := inv.files.closed isOpen (inv.small s o isOpen)
        (fun removed => careful o isOpen removed (by omega)) run
      rw [closed.opens]
      exact inv.drop ne isOpen closed
    next =>
      obtain rfl := Except.ok.inj run
      simp only [Function.update_self, Option.isSome_some, if_true]
      exact inv.reset ne isOpen rfl

theorem Inv.setParent (inv : Inv st) (ne : s ≠ 0) {parent : Nat} (small : parent < 2 ^ 32) :
    Inv { st with files := st.files.inodeSetParent s parent } := by
  cases isOpen : st.files.opens s with
  | none =>
    rw [Files.inodeSetParent, isOpen]
    exact inv
  | some o =>
    have live := inv.files.wellFormed.live_of_open isOpen
    obtain ⟨now, inv', others, bytes, free⟩ := inv.files.setParent isOpen parent
    refine inv.step_of ne inv' others inv.nodup (fun _ _ => Iff.rfl) (iff_of_true ?_ ?_)
      (fun i isOpen' => ?_) ?_ (fun _ _ => rfl) fun _ p b noted => ?_
    · rw [inv.listed s, isOpen]
      exact Option.some_ne_none o
    · exact fun none => Option.some_ne_none _ (now.symm.trans none)
    · obtain rfl := Option.some.inj (now.symm.trans isOpen')
      obtain ⟨a, b, c, e, -⟩ := inv.small s o isOpen
      exact ⟨a, b, c, e, small⟩
    · show (st.files.inodeSetParent s parent).fs.free.file.isSome ∧
        (st.files.inodeSetParent s parent).fs.free.Synced
      rw [free]
      exact inv.synced
    · obtain ⟨inside, byte⟩ := inv.written s p b live noted
      rw [Files.inode_of_open isOpen] at inside
      refine ⟨?_, (bytes p inside).trans byte⟩
      show p < ((st.files.inodeSetParent s parent).inode s).length
      rw [Files.inode_of_open now]
      exact inside

theorem Inv.file (inv : Inv st) {op : Files.Op} (other : (Call.file op).sector ≠ some 0)
    (ok : Files.InScope st.files op ∧ Files.Careful st.files op) {files : Files}
    (run : st.files.step op = some files) :
    Inv ⟨files, relist st.files files st.openInodes op, st.note op⟩ := by
  cases op with
  | create length isdir => exact inv.create ok.1 ok.2 run
  | open_ s =>
    have ne : s ≠ 0 := fun eq => other (congrArg some eq)
    rw [Files.step] at run
    split at run
    next live =>
      obtain ⟨o, eq, same⟩ := st.files.inodeOpen_eq s
      rw [eq] at run
      obtain rfl := Option.some.inj run
      exact inv.setOpen ne live same
    next => cases run
  | writeAt s buffer size offset =>
    exact inv.writeAt (fun eq => other (congrArg some eq)) ok.1 ok.2 run
  | remove s =>
    obtain ⟨o, isOpen, rfl⟩ := Option.map_eq_some_iff.mp run
    exact inv.reset (fun eq => other (congrArg some eq)) isOpen rfl
  | close s dev =>
    exact inv.close (fun eq => other (congrArg some eq)) ok.2 (ok_of_toOption run)

/-- A create for which no sector is free changes nothing. -/
theorem Inv.full (inv : Inv st) {op : Files.Op} (full : Full st.files op) {files : Files}
    (run : st.files.step op = some files) :
    Inv ⟨files, relist st.files files st.openInodes op, st.note op⟩ := by
  cases op with
  | create length isdir =>
    have alloc := FreeMap.allocate_full full
    simp only [Files.step, alloc] at run
    obtain rfl := Option.some.inj run
    simp only [note, alloc]
    exact inv
  | _ => cases full

theorem Inv.step (inv : Inv st) {call : Call} (careful : Careful st call)
    (run : st.step call = some st') : Inv st' := by
  unfold Session.step at run
  split at run
  next => cases run
  next other =>
    cases call with
    | setParent s parent =>
      obtain rfl := Option.some.inj run
      exact inv.setParent (fun eq => other (congrArg some eq)) careful
    | file op =>
      obtain ⟨files, done, rfl⟩ := Option.map_eq_some_iff.mp run
      rcases careful with full | ⟨ok, _⟩
      · exact inv.full full done
      · exact inv.file other ok done

theorem Started.inv {st : Session} (started : Started (OneTable 0) st) : Inv st := by
  obtain ⟨⟨dev, bitmap, blank, one, run⟩, list, none⟩ := started
  obtain ⟨⟨c, freeMap⟩, closed, synced⟩ := Files.format_opens blank one run
  refine ⟨Files.format_inv blank one run, ⟨_, freeMap, rfl, rfl⟩, ?_, fun s => ?_,
    fun s o isOpen => ?_, synced, fun s p b _ noted => ?_⟩
  · rw [list]
    exact List.nodup_singleton 0
  · rw [list, List.mem_singleton]
    by_cases zero : s = 0
    · subst zero
      rw [freeMap]
      exact iff_of_true rfl (Option.some_ne_none _)
    · exact iff_of_false zero fun some => some (closed s zero)
  · by_cases zero : s = 0
    · subst zero
      obtain rfl := Option.some.inj (freeMap.symm.trans isOpen)
      exact Files.read_small c
    · cases (closed s zero).symm.trans isOpen
  · cases (none s p).symm.trans noted

end Runs

section Close

/-- The inodes that exist in `st` are in `files` as they were. -/
structure Stays (st : Session) (files : Files) : Prop where
  live : ∀ s, st.Exists s → files.live s = true
  inode : ∀ s, st.Exists s → files.inode s = st.files.inode s
  bytes : ∀ s, st.Exists s → ∀ p < (st.files.inode s).length,
    byteAt files.fs (files.inode s) p = byteAt st.files.fs (st.files.inode s) p

theorem Stays.setOpen {cur : Files} (h : Stays st cur) {o : OpenInode}
    (same : o.data = cur.inode s) :
    Stays st { cur with opens := Function.update cur.opens s (some o) } := by
  have view := Files.sameView_opens same
  refine ⟨h.live, fun t there => (view.inode t).trans (h.inode t there), fun t there p inside => ?_⟩
  rw [view.inode t]
  exact h.bytes t there p inside

/-- A last close writes the inode to its sector and keeps the sectors of the others. -/
theorem Stays.close {cur files : Files} (h : Stays st cur) {removed : Bool}
    (kept : st.Exists s → removed = false) (closed : Files.Closed cur files s removed) :
    Stays st files ∧
      (st.Exists s → InodeDisk.read (files.fs.data s) = st.files.inode s) ∧
      ∀ t, t ≠ s → st.Exists t → files.fs.data t = cur.fs.data t := by
  have own : st.Exists s → files.inode s = st.files.inode s := fun there =>
    (closed.inode (kept there)).trans (h.inode s there)
  refine ⟨⟨fun t there => ?_, fun t there => ?_, fun t there p inside => ?_⟩, fun there => ?_,
    fun t ne there => closed.others.data t .own ne (h.live t there) trivial⟩
  · by_cases eq : t = s
    · subst eq
      exact closed.live (kept there)
    · rw [closed.others.live t eq]
      exact h.live t there
  · by_cases eq : t = s
    · subst eq
      exact own there
    · rw [closed.others.inode eq (h.live t there)]
      exact h.inode t there
  · have inside' : p < (cur.inode t).length := by
      rw [h.inode t there]
      exact inside
    refine Eq.trans ?_ (h.bytes t there p inside)
    by_cases eq : t = s
    · subst eq
      exact closed.bytes (kept there) p inside'
    · exact closed.others.byteAt eq (h.live t there) inside'
  · rw [← own there]
    exact (Files.inode_of_closed closed.opens).symm

/-- The loop of `inode_close_all` in `st`, with the inodes of `rest` before it: the directories
before them are in their sectors, and no other sector of an inode was written. -/
structure Closing (st : Session) (rest : List Nat) (cur : Session) : Prop extends
    Stays st cur.files where
  inv : Inv cur
  opens : ∀ s, s ∈ rest ∨ s = 0 → cur.files.opens s = st.files.opens s
  saved : ∀ s, s ≠ 0 → st.Exists s → s ∉ rest → ∀ o, st.files.opens s = some o →
    o.data.isdir = true → InodeDisk.read (cur.files.fs.data s) = o.data
  record : ∀ s, s ≠ 0 → st.Exists s →
    (∀ o, st.files.opens s = some o → o.data.isdir = true → s ∈ rest) →
    cur.files.fs.data s = st.files.fs.data s

theorem Closing.start (inv : Inv st) : Closing st st.openInodes st := by
  refine ⟨⟨fun _ there => there.1, fun _ _ => rfl, fun _ _ _ _ => rfl⟩, inv, fun _ _ => rfl,
    fun s _ _ off o isOpen => ?_, fun _ _ _ _ => rfl⟩
  have closed := (not_congr (inv.listed s)).mp off
  rw [isOpen] at closed
  exact absurd (Option.some_ne_none o) closed

/-- The inode at the front is no directory, or the free-map file. -/
theorem Closing.skip {rest : List Nat} {cur : Session} (h : Closing st (s :: rest) cur)
    {o : OpenInode} (isOpen : st.files.opens s = some o) (other : ¬(o.data.isdir = true ∧ s ≠ 0)) :
    Closing st rest cur := by
  refine ⟨h.toStays, h.inv, fun t ht => h.opens t (ht.imp_left (List.mem_cons_of_mem s)),
    fun t ne there off o' isOpen' dir => ?_, fun t ne there listed => ?_⟩
  · refine h.saved t ne there (fun mem => ?_) o' isOpen' dir
    rcases List.mem_cons.mp mem with eq | mem
    · subst eq
      obtain rfl := Option.some.inj (isOpen.symm.trans isOpen')
      exact other ⟨dir, ne⟩
    · exact off mem
  · exact h.record t ne there fun o' isOpen' dir =>
      List.mem_cons_of_mem s (listed o' isOpen' dir)

/-- The directory at the front is closed, however often it was opened. -/
theorem Closing.close {rest : List Nat} {cur : Session} (h : Closing st (s :: rest) cur)
    (nodup : (s :: rest).Nodup) (ne : s ≠ 0) {o : OpenInode} (isOpen : st.files.opens s = some o)
    (isdir : o.data.isdir = true) (short : o.removed = true → o.data.length < 1024)
    (dev : Nat → Bytes) :
    ∃ files, Files.inodeClose dev { cur.files with
        opens := Function.update cur.files.opens s (some { o with openCnt := 1 }) } s = .ok files ∧
      Closing st rest ⟨files, cur.openInodes.erase s, cur.written⟩ := by
  have absent : s ∉ rest := (List.nodup_cons.mp nodup).1
  have open' : cur.files.opens s = some o := (h.opens s (.inl List.mem_cons_self)).trans isOpen
  have inv := h.inv.reset ne open' (i := { o with openCnt := 1 }) rfl
  have stays := h.toStays.setOpen (o := { o with openCnt := 1 })
    (Files.inode_of_open open').symm
  generalize hmid : Files.mk cur.files.fs
    (Function.update cur.files.opens s (some { o with openCnt := 1 })) cur.files.live = mid
    at inv stays
  have once : mid.opens s = some { o with openCnt := 1 } := by
    rw [← hmid]
    exact Function.update_self ..
  have fs : mid.fs = cur.files.fs := by rw [← hmid]
  obtain ⟨files, run⟩ := inv.files.wellFormed.lastClose_ok dev once inv.synced.1 short
  have closed := inv.files.closed once (inv.small s _ once) short run
  obtain ⟨stays, own, others⟩ := stays.close (fun there => there.2 o isOpen) closed
  refine ⟨files, ?_, stays, inv.drop ne once closed, fun t ht => ?_,
    fun t ne' there off o' isOpen' dir => ?_, fun t ne' there listed => ?_⟩
  · simp only [Files.inodeClose, once, Nat.sub_self, if_true]
    exact run
  · have other : t ≠ s := by
      rintro rfl
      exact ht.elim absent ne
    show files.opens t = st.files.opens t
    rw [closed.others.opens t other, ← hmid]
    exact (Function.update_of_ne other _ _).trans
      (h.opens t (ht.imp_left (List.mem_cons_of_mem s)))
  · show InodeDisk.read (files.fs.data t) = o'.data
    by_cases eq : t = s
    · subst eq
      exact (own there).trans (Files.inode_of_open isOpen')
    · rw [others t eq there, fs]
      exact h.saved t ne' there (fun mem => off ((List.mem_cons.mp mem).resolve_left eq)) o'
        isOpen' dir
  · have other : t ≠ s := by
      rintro rfl
      exact absent (listed o isOpen isdir)
    show files.fs.data t = st.files.fs.data t
    rw [others t other there, fs]
    exact h.record t ne' there fun o' isOpen' dir => List.mem_cons_of_mem s (listed o' isOpen' dir)

theorem Closing.run {rest : List Nat} {cur : Session} (h : Closing st rest cur) (inv : Inv st)
    (nodup : rest.Nodup) (sub : ∀ s ∈ rest, s ∈ st.openInodes) (short : st.Short)
    (dev : Nat → Bytes) :
    ∃ last, cur.files.inodeCloseAll dev rest = .ok last.files ∧ Closing st [] last := by
  induction rest generalizing cur with
  | nil => exact ⟨cur, rfl, h⟩
  | cons s rest ih =>
    have sub' : ∀ t ∈ rest, t ∈ st.openInodes := fun t mem => sub t (List.mem_cons_of_mem s mem)
    have mem := sub s List.mem_cons_self
    cases isOpen : st.files.opens s with
    | none => exact absurd isOpen ((inv.listed s).mp mem)
    | some o =>
      have open' := (h.opens s (.inl List.mem_cons_self)).trans isOpen
      rw [Files.inodeCloseAll, open']
      by_cases dir : o.data.isdir = true ∧ s ≠ 0
      · have short' : o.removed = true → o.data.length < 1024 := fun removed =>
          short s mem dir.2 o isOpen removed dir.1
        obtain ⟨files, run, next⟩ := h.close nodup dir.2 isOpen dir.1 short' dev
        obtain ⟨last, run', closing⟩ := ih next (List.nodup_cons.mp nodup).2 sub'
        refine ⟨last, ?_, closing⟩
        simp only [if_pos dir, run, bind, Except.bind]
        exact run'
      · simp only [if_neg dir]
        exact ih (h.skip isOpen dir) (List.nodup_cons.mp nodup).2 sub'

/-- What `filesys_done` leaves: the directories and the free-map file are in their sectors, and the
sectors of the other inodes are as they were. -/
structure Done (st : Session) (files : Files) : Prop extends Stays st files where
  inv : Files.Inv files
  synced : files.fs.free.file.isSome ∧ files.fs.free.Synced
  freeMap : InodeDisk.read (files.fs.data 0) = st.files.inode 0
  saved : ∀ s, s ≠ 0 → st.Exists s → ∀ o, st.files.opens s = some o → o.data.isdir = true →
    InodeDisk.read (files.fs.data s) = o.data
  record : ∀ s, s ≠ 0 → st.Exists s → (∀ o, st.files.opens s = some o → o.data.isdir = false) →
    files.fs.data s = st.files.fs.data s

theorem Inv.exists_zero (inv : Inv st) : st.Exists 0 := by
  obtain ⟨o, isOpen, -, stays⟩ := inv.freeMap
  refine ⟨inv.files.wellFormed.live_of_open isOpen, fun o' isOpen' => ?_⟩
  obtain rfl := Option.some.inj (isOpen.symm.trans isOpen')
  exact stays

theorem Inv.filesysDone (inv : Inv st) (short : st.Short) (dev : Nat → Bytes) :
    ∃ files, st.files.filesysDone dev st.openInodes = .ok files ∧ Done st files := by
  obtain ⟨last, run, closing⟩ := (Closing.start inv).run inv inv.nodup (fun _ => id) short dev
  obtain ⟨o, isOpen, once, stays⟩ := closing.inv.freeMap
  have kept : o.removed = true → o.data.length < 1024 := fun removed => by
    rw [stays] at removed
    cases removed
  obtain ⟨files, close⟩ := closing.inv.files.wellFormed.lastClose_ok dev isOpen
    closing.inv.synced.1 kept
  have closed := closing.inv.files.closed isOpen (closing.inv.small 0 o isOpen) kept close
  obtain ⟨stays, own, others⟩ := closing.toStays.close (fun _ => stays) closed
  refine ⟨files, ?_, stays, closed.inv, closed.synced closing.inv.synced, own inv.exists_zero,
    fun s ne there o' isOpen' dir => ?_, fun s ne there files => ?_⟩
  · have close : last.files.inodeClose dev 0 = .ok files := by
      simp only [Files.inodeClose, isOpen, once, Nat.sub_self, if_true]
      exact close
    simp only [Files.filesysDone, run, bind, Except.bind]
    exact close
  · rw [others s ne there]
    exact closing.saved s ne there List.not_mem_nil o' isOpen' dir
  · rw [others s ne there]
    refine closing.record s ne there fun o' isOpen' dir => ?_
    cases (files o' isOpen').symm.trans dir

end Close

section Mount

theorem readChunks_congr {fs fs' : Fs} (same : fs'.data = fs.data) (d : InodeDisk)
    (fuel size offset : Nat) (buffer : List UInt8) :
    readChunks fs' d fuel size offset buffer = readChunks fs d fuel size offset buffer := by
  induction fuel generalizing size offset buffer with
  | zero => rfl
  | succ fuel ih =>
    have sector : byteToSector fs' d offset = byteToSector fs d offset := by
      unfold byteToSector
      simp only [Fs.index, same]
    simp only [readChunks, sector, same, ih]

theorem inodeReadAt_congr {fs fs' : Fs} (same : fs'.data = fs.data) (d : InodeDisk)
    (size offset : Nat) : inodeReadAt fs' d size offset = inodeReadAt fs d size offset := by
  rw [inodeReadAt, inodeReadAt, readChunks_congr same]

variable {files : Files}

theorem Done.reads (h : Done st files) (inv : Inv st) (there : st.Exists s) (size offset : Nat) :
    inodeReadAt files.fs (files.inode s) size offset =
      inodeReadAt st.files.fs (st.files.inode s) size offset := by
  have length : (files.inode s).length = (st.files.inode s).length :=
    congrArg InodeDisk.length (h.inode s there)
  rw [Files.inodeReadAt_live h.inv (h.live s there), Files.inodeReadAt_live inv.files there.1,
    length]
  refine congrArg Except.ok (List.map_congr_left fun i hi => ?_)
  have inside := List.mem_range.mp hi
  exact h.bytes s there _ (by omega)

/-- The records are on the device when those of the files that are open are. -/
theorem Done.all_saved (h : Done st files) (inv : Inv st) (saved : st.Saved) (there : st.Exists s) :
    InodeDisk.read (files.fs.data s) = st.files.inode s := by
  by_cases zero : s = 0
  · subst zero
    exact h.freeMap
  cases isOpen : st.files.opens s with
  | none =>
    rw [h.record s zero there fun o isOpen' => nomatch isOpen.symm.trans isOpen']
    exact (Files.inode_of_closed isOpen).symm
  | some o =>
    rw [Files.inode_of_open isOpen]
    cases dir : o.data.isdir with
    | true => exact h.saved s zero there o isOpen dir
    | false =>
      have regular : ∀ o', st.files.opens s = some o' → o'.data.isdir = false := by
        intro o' isOpen'
        obtain rfl := Option.some.inj (isOpen.symm.trans isOpen')
        exact dir
      have mem : s ∈ st.openInodes := by
        rw [inv.listed s, isOpen]
        exact Option.some_ne_none o
      rw [h.record s zero there regular]
      exact saved s mem zero o isOpen (there.2 o isOpen) dir

theorem Done.persists (h : Done st files) (inv : Inv st) (saved : st.Saved)
    (run : st.files.filesysDone dev st.openInodes = .ok files) : st.Persists dev := by
  refine ⟨files, run, fun cache models s there => ?_⟩
  have disk : (freeCache cache).disk = files.fs.data := models.1.freeCache
  have record := h.all_saved inv saved there
  rw [disk]
  have inode : ∀ bitmap, (files.mount files.fs.data bitmap).inode s = st.files.inode s :=
    fun bitmap => (files.mount_inode _ bitmap s).trans record
  have reads : ∀ bitmap size offset,
      inodeReadAt (files.mount files.fs.data bitmap).fs
        ((files.mount files.fs.data bitmap).inode s) size offset =
      inodeReadAt st.files.fs (st.files.inode s) size offset := by
    intro bitmap size offset
    rw [inode bitmap, inodeReadAt_congr (files.mount_data _ bitmap), ← h.inode s there]
    apply (h.reads inv there size offset).trans
    rw [h.inode s there]
  refine ⟨h.live s there, record, fun bitmap => ⟨?_, inode bitmap, reads bitmap,
    fun p b noted => ?_⟩⟩
  · exact files.mount_used _ bitmap h.synced.1 h.synced.2
  · obtain ⟨inside, byte⟩ := inv.written s p b there.1 noted
    have one : min 1 ((st.files.inode s).length - p) = 1 := by omega
    rw [reads bitmap, Files.inodeReadAt_live inv.files there.1, one, ← byte]
    rfl

/-- The sector of an open file is not written, so that its record has to be there before. -/
theorem Done.saved_of_persists (h : Done st files) (inv : Inv st) (persists : st.Persists dev)
    (run : st.files.filesysDone dev st.openInodes = .ok files) : st.Saved := by
  intro s _ ne o isOpen stays regular
  have only : ∀ o', st.files.opens s = some o' → o' = o := fun o' isOpen' =>
    Option.some.inj (isOpen'.symm.trans isOpen)
  have there : st.Exists s := by
    refine ⟨inv.files.wellFormed.live_of_open isOpen, fun o' isOpen' => ?_⟩
    rw [only o' isOpen']
    exact stays
  obtain ⟨files', run', all⟩ := persists
  obtain rfl := Except.ok.inj (run'.symm.trans run)
  obtain ⟨-, record, -⟩ := all _ (cacheSystemInit_models files'.fs.data) s there
  have disk : (freeCache (cacheSystemInit files'.fs.data)).disk = files'.fs.data := rfl
  rw [disk, Files.inode_of_open isOpen] at record
  rw [← record, h.record s ne there fun o' isOpen' => only o' isOpen' ▸ regular]

end Mount

section Result

instance (st : Files) (op : Files.Op) : Decidable (InBlock st op) :=
  match op with
  | .writeAt _ _ _ _ => inferInstanceAs (Decidable (_ → _))
  | .create _ _ | .open_ _ | .remove _ | .close _ _ => .isTrue trivial

instance (st : Files) (op : Files.Op) : Decidable (Full st op) :=
  match op with
  | .create _ _ => inferInstanceAs (Decidable (_ = 0))
  | .open_ _ | .writeAt _ _ _ _ | .remove _ | .close _ _ => .isFalse id

instance (st : Session) (call : Call) : Decidable (Careful st call) :=
  match call with
  | .file op =>
    inferInstanceAs (Decidable (Full st.files op ∨
      (Files.InScope st.files op ∧ Files.Careful st.files op) ∧ InBlock st.files op))
  | .setParent _ parent => inferInstanceAs (Decidable (parent < 2 ^ 32))

instance (st : Session) : Decidable st.Short :=
  inferInstanceAs (Decidable (∀ s ∈ st.openInodes, s ≠ 0 → ∀ o ∈ st.files.opens s, _))

instance (st : Session) : Decidable st.Saved :=
  inferInstanceAs (Decidable (∀ s ∈ st.openInodes, s ≠ 0 → ∀ o ∈ st.files.opens s, _))

/-- A state that a given run reaches on a zeroed device of 64 sectors, found by evaluation. -/
theorem reach_small (calls : List Call) {P : Session → Prop} [DecidablePred P]
    (h : ((format (fun _ _ => 0) Files.smallBitmap).toOption.bind fun files =>
      Transition.exec (guarded step Careful)
        ⟨files, [0], fun _ _ => none⟩ calls).any (fun st => decide (P st)) = true) :
    ∃ st, Reach (Fires step) Careful (Started (OneTable 0)) st ∧ P st := by
  obtain ⟨st, run, hP⟩ := (Option.any_eq_true _ _).mp h
  obtain ⟨files, formatted, run⟩ := Option.bind_eq_some_iff.mp run
  have start : Started (OneTable 0) ⟨files, [0], fun _ _ => none⟩ :=
    ⟨⟨_, Files.smallBitmap, Files.smallBitmap_blank, by decide, ok_of_toOption formatted⟩,
      rfl, fun _ _ => rfl⟩
  exact ⟨st, (Reach.start start).exec run, of_decide_eq_true hP⟩

theorem Inv.reach (reach : Reach (Fires Session.step) Careful (Started (OneTable 0)) st) : Inv st :=
  reach.invariant (fun _ started => started.inv) fun _ _ _ inv ok run => inv.step ok run

/-- After every run of careful calls, `filesys_done` leaves on the device all that exists, with the
bytes last written, exactly when no file is open whose inode is not in its sector. -/
theorem shutdown_persists (reach : Reach (Fires step) Careful (Started (OneTable 0)) st)
    (short : st.Short) (dev : Nat → Bytes) : st.Persists dev ↔ st.Saved := by
  have inv := Inv.reach reach
  obtain ⟨files, run, done⟩ := inv.filesysDone short dev
  constructor
  · intro persists
    exact done.saved_of_persists inv persists run
  · intro saved
    exact done.persists inv saved run

/-- A directory stays open in which a file is created, which is written and closed. -/
theorem shutdown_persists_open_directory :
    ∃ st : Session, st.openInodes = [6, 0] ∧ st.written 9 99 = some 7 ∧ ∀ dev, st.Persists dev := by
  obtain ⟨st, reach, short, saved, list, noted⟩ := reach_small
    (P := fun st => st.Short ∧ st.Saved ∧ st.openInodes = [6, 0] ∧ st.written 9 99 = some 7)
    [.file (.create 320 true), .file (.open_ 6), .setParent 6 1,
      .file (.writeAt 6 (fun _ => 3) 20 0), .file (.create 0 false), .file (.open_ 9),
      .file (.writeAt 9 (fun _ => 7) 100 0), .file (.close 9 fun _ _ => 0)]
    (by decide +kernel)
  exact ⟨st, list, noted, fun dev => (shutdown_persists reach short dev).mpr saved⟩

/-- A file is created, opened and extended, and then left open: `inode_close_all` closes directories
only. -/
theorem open_file_lost :
    ∃ st : Session, Reach (Fires step) Careful (Started (OneTable 0)) st ∧ st.Short ∧
      ∀ dev, ¬st.Persists dev := by
  obtain ⟨st, reach, short, lost⟩ := reach_small (P := fun st => st.Short ∧ ¬st.Saved)
    [.file (.create 0 false), .file (.open_ 6), .file (.writeAt 6 (fun _ => 7) 10 0)]
    (by decide +kernel)
  refine ⟨st, reach, short, fun dev persists => lost ?_⟩
  obtain ⟨files, run, done⟩ := (Inv.reach reach).filesysDone short dev
  exact done.saved_of_persists (Inv.reach reach) persists run

end Result

end Session

end Pintos.Filesys
