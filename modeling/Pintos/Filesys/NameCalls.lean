import Pintos.Filesys.FileNames

/-! The calls of `filesys.c` on a file system with files in its root directory: each changes one
name, and leaves the other files as they are. -/

namespace Pintos.Filesys

open Words Role CStrings ByteFiles Results Filesys.Tree

section Lookup

variable {f f' : ByteFile} {c : CString} {k : Nat}

theorem DirOk.lookup_iff (ok : DirOk f) (c : CString) (t : Nat) :
    (Filesys.lookup f c).map (fun found => (inodeSector found.1).toNat) = some t ↔
      ∃ u, Binds f c u ∧ u.toNat = t := by
  rcases ok.lookup_eq c with ⟨k, e, found, inside, used, named, same⟩ | ⟨missing, none⟩
  · have bound : Binds f c (inodeSector e) :=
      ⟨k, inside, used, named, (inodeSector_congr same).symm⟩
    simp only [found, Option.map_some, Option.some.injEq]
    refine ⟨fun eq => ⟨_, bound, eq⟩, fun ⟨u, other, eq⟩ => ?_⟩
    rw [← eq, ok.functional bound other]
  · simp only [missing, Option.map_none, reduceCtorEq, false_iff]
    rintro ⟨u, ⟨k, inside, used, named, -⟩, -⟩
    rw [none k inside used] at named
    cases named

end Lookup

namespace Files

variable {st mid st' : Files} {s t d : Nat} {c : CString} {o : OpenInode} {dev : Nat → Bytes}
  {buffer : Bytes} {size offset : Nat}

section Write

theorem inodeWriteAt_isdir {fs fs' : Fs} {o' : OpenInode} {n : Nat}
    (run : inodeWriteAt fs o buffer size offset = .ok (fs', o', n)) :
    o'.data.isdir = o.data.isdir := by
  unfold inodeWriteAt at run
  split at run
  · cases run
    rfl
  obtain ⟨⟨fs₁, d⟩, grown, run⟩ := bind_ok run
  obtain ⟨⟨fs₂, w⟩, chunks, run⟩ := bind_ok run
  cases run
  unfold extend at grown
  split at grown
  · obtain ⟨sp, ind, din, rfl, -⟩ := fileGrowth_inode grown
    rfl
  · cases grown
    rfl

/-- `inode_write_at` of an inode that may be written has a result when there are sectors for it. -/
theorem Inv.inodeWriteAt_ok (inv : Inv st) (isOpen : st.opens s = some o)
    (allowed : o.denyWriteCnt = 0)
    (scope : InScope st (.writeAt s buffer size offset))
    (careful : Careful st (.writeAt s buffer size offset)) :
    ∃ fs o', inodeWriteAt st.fs o buffer size offset = .ok (fs, o', size) ∧
      o'.data.isdir = o.data.isdir ∧
      Written st { st with fs := fs, opens := Function.update st.opens s (some o') } s o buffer size
        offset := by
  have before := inode_of_open isOpen
  have maps := inv.wellFormed.maps (inv.wellFormed.live_of_open isOpen)
  have start : ∃ fs d, Filesys.extend st.fs o.data size offset = .ok (fs, d) := by
    rw [Filesys.extend]
    split
    next longer =>
      rw [InScope, before] at scope
      rw [Careful, before] at careful
      rw [before] at maps
      have blocks : Maps st.fs o.data (Upto (bytesToSectors o.data.length)) :=
        maps.mono (fun r hr => hr.mono (Nat.le_max_right 1 _)) fun r R k hr slot => hr.closed slot
      obtain ⟨fs, d, _, run, _⟩ := blocks.grown_fileGrowth inv.writable (.inl longer)
        (careful longer) (scope longer).2
      exact ⟨fs, d, run⟩
    next => exact ⟨_, _, rfl⟩
  obtain ⟨fs₁, d, start⟩ := start
  obtain ⟨_, _, U, grown, -, -, cover, -⟩ := inv.extend isOpen scope careful start
  have blocks : ∀ p < d.length, U (.data (p / 512)) := by
    intro p inside
    apply cover
    simp only [Upto, nextBlock, bytesToSectors]
    omega
  have length := extend_length start
  obtain ⟨fs₂, chunks, -⟩ := grown.maps.layout.writeChunks buffer blocks (Nat.le_refl size)
    (show offset + size ≤ d.length by omega) 0
  have run : inodeWriteAt st.fs o buffer size offset =
      .ok (fs₂, { o with data := d }, 0 + size) := by
    simp only [inodeWriteAt, allowed, ne_eq, not_true_eq_false, if_false, start, chunks, bind,
      Except.bind]
  rw [Nat.zero_add] at run
  exact ⟨_, _, run, inodeWriteAt_isdir run, inv.written isOpen scope careful allowed run⟩

theorem Written.content (written : Written st st' s o buffer size offset)
    (place : offset ≤ (st.inode s).length) :
    st'.content s = Store.overwrite (st.content s) offset ((List.range size).map buffer) := by
  have length := written.length
  refine List.ext_getElem ?_ fun p inside _ => ?_
  · simp only [Store.overwrite, length_content, List.length_append, List.length_take,
      List.length_map, List.length_range, List.length_drop]
    omega
  · rw [length_content] at inside
    simp only [Store.overwrite, Files.content, List.getElem_append, List.getElem_take,
      List.getElem_drop, List.getElem_map, List.getElem_range, List.length_append,
      List.length_take, List.length_map, List.length_range]
    by_cases new : offset ≤ p ∧ p < offset + size
    · rw [written.bytes p new, dif_pos (by omega), dif_neg (by omega)]
      congr 1
      omega
    · rw [written.kept p (by omega) new]
      split
      · rw [dif_pos (by omega)]
      · congr 1
        omega

/-- A write to a file. -/
theorem Sound.written (sound : Sound st) (ne : s ≠ 0) (ne' : s ≠ 1) (isOpen : st.opens s = some o)
    (written : Written st st' s o buffer size offset)
    (isdir : (st'.inode s).isdir = (st.inode s).isdir) : Sound st' := by
  have leaves := written.others.leaves
  have names := leaves.lookup (Ne.symm ne') sound.root.1
  have live := sound.wellFormed.live_of_open isOpen
  obtain ⟨d, now, small⟩ := written.opens
  have tidy := sound.tidy s ne ne'
  refine sound.step_of written.inv leaves written.others.opens names (fun i again => ?_)
    (written.synced sound.synced) (absurd · ne) (absurd · ne') fun _ _ => ?_
  · obtain rfl := Option.some.inj (now.symm.trans again)
    exact small (sound.small s o isOpen)
  · refine ⟨fun c bound => ?_, fun c c' bound bound' => ?_, fun i again => ?_, fun _ closed => ?_⟩
    · rw [names] at bound
      exact ⟨written.inv.wellFormed.live_of_open now, isdir.trans (tidy.file c bound).2⟩
    · rw [names] at bound bound'
      exact tidy.once c c' bound bound'
    · obtain rfl := Option.some.inj (now.symm.trans again)
      simp only [ne_eq, names]
      exact tidy.removed o isOpen
    · cases now.symm.trans closed

end Write

section Entries

/-- The root directory, open for an entry to be written. -/
structure RootOpen (st : Files) (o : OpenInode) : Prop where
  isOpen : st.opens 1 = some o
  allowed : o.denyWriteCnt = 0
  isdir : o.data.isdir = true
  ok : DirOk (st.byteFile 1)

theorem lookup_iff (ok : DirOk (st.byteFile d)) (c : CString) (t : Nat) :
    st.lookup d c = some t ↔ ∃ u, Binds (st.byteFile d) c u ∧ u.toNat = t :=
  ok.lookup_iff c t

/-- An entry is written to the root directory, in place of another or after the last. -/
theorem RootOpen.writeEntry (inv : Inv st) (open_ : RootOpen st o) {k : Nat}
    (place : 20 * k ≤ (st.inode 1).length)
    (ok : DirOk ((st.byteFile 1).writeAt buffer 20 (20 * k)))
    (bound : (st.inode 1).length < 20 * k + 20 → (st.inode 1).length + 20 ≤ 129 * 512 ∧
      growthSectors (st.inode 1).length ((st.inode 1).length + 20) ≤ st.fs.free.freeCount) :
    ∃ fs o', inodeWriteAt st.fs o buffer 20 (20 * k) = .ok (fs, o', 20) ∧
      Written st { st with fs := fs, opens := Function.update st.opens 1 (some o') } 1 o buffer 20
        (20 * k) ∧
      RootOpen { st with fs := fs, opens := Function.update st.opens 1 (some o') } o' ∧
      o'.openCnt = o.openCnt ∧ o'.removed = o.removed ∧
      ∀ c t, Files.lookup { st with
          fs := fs, opens := Function.update st.opens 1 (some o') } 1 c = some t ↔
        ∃ u, Binds ((st.byteFile 1).writeAt buffer 20 (20 * k)) c u ∧ u.toNat = t := by
  have whole : (st.inode 1).length % 20 = 0 := open_.ok.whole
  have scope : InScope st (.writeAt 1 buffer 20 (20 * k)) := by
    intro longer
    have atEnd : 20 * k = (st.inode 1).length := by omega
    rw [atEnd]
    exact ⟨by have := (bound longer).1; omega, (bound longer).2⟩
  have careful : Careful st (.writeAt 1 buffer 20 (20 * k)) := by
    intro longer
    exact .inl (by have := (bound longer).1; omega)
  obtain ⟨fs, o', run, isdir, written⟩ :=
    inv.inodeWriteAt_ok open_.isOpen open_.allowed scope careful
  obtain ⟨d, now, -⟩ := written.opens
  have here : Function.update st.opens 1 (some o') 1 = some o' := Function.update_self ..
  obtain rfl := Option.some.inj (here.symm.trans now)
  have same := written.byteFile place
  have bytes := fun p inside => same.2 p (by rwa [same.1])
  refine ⟨fs, _, run, written, ⟨here, open_.allowed, isdir.trans open_.isdir,
    DirOk.congr ok same.1 bytes⟩, rfl, rfl, fun c t => ?_⟩
  rw [Files.lookup, lookup_congr same.1 bytes c]
  exact ok.lookup_iff c t

/-- A name is added to the root directory. -/
theorem RootOpen.dirAdd (inv : Inv st) (open_ : RootOpen st o) (full : c.1 ≠ [])
    (short : c.1.length ≤ nameMax) (absent : st.lookup 1 c = none) (small : s < 2 ^ 32)
    (bound : (st.inode 1).length + 20 ≤ 129 * 512)
    (room : growthSectors (st.inode 1).length ((st.inode 1).length + 20) ≤ st.fs.free.freeCount)
    (junk : Bytes) :
    ∃ st' o' buffer offset, st.dirAdd 1 c s junk = .ok (st', true) ∧
      Written st st' 1 o buffer 20 offset ∧ RootOpen st' o' ∧ o'.openCnt = o.openCnt ∧
      o'.removed = o.removed ∧ st'.lookup 1 = Function.update (st.lookup 1) c (some s) := by
  have toNat : (UInt32.ofNat s).toNat = s := UInt32.toNat_ofNat_of_lt' small
  obtain ⟨k, e, found, slot, place, -⟩ := open_.ok.freeSlot junk
  have missing : Filesys.lookup (st.byteFile 1) c = none := by simpa [Files.lookup] using absent
  have valid : ¬(c.1 = [] ∨ nameMax < c.1.length) := not_or.mpr ⟨full, Nat.not_lt.mpr short⟩
  have added : Filesys.dirAdd (st.byteFile 1) c (.ofNat s) junk =
      ((st.byteFile 1).writeAt (newEntry e c (.ofNat s)) 20 (20 * k), true) := by
    simp [Filesys.dirAdd, valid, missing, slot]
  rcases open_.ok.dirAdd c (.ofNat s) junk with
    ⟨-, refused⟩ | ⟨⟨-, -, unbound⟩, f', again, ok, binds⟩
  · cases congrArg Prod.snd (added.symm.trans refused)
  obtain rfl := congrArg Prod.fst (added.symm.trans again)
  obtain ⟨fs, o', run, written, open', count, removed, names⟩ :=
    open_.writeEntry inv place ok fun _ => ⟨bound, room⟩
  refine ⟨_, o', _, 20 * k, ?_, written, open', count, removed, ?_⟩
  · simp [Files.dirAdd, valid, absent, open_.isOpen, slot, run, bind, Except.bind]
  · funext n
    refine Option.ext fun t => ?_
    rw [names, Function.update_apply]
    simp only [binds]
    split
    next eq =>
      subst eq
      constructor
      · rintro ⟨u, ⟨-, rfl⟩ | old, rfl⟩
        · rw [toNat]
        · exact absurd old (unbound u)
      · rintro ⟨⟩
        exact ⟨_, .inl ⟨rfl, rfl⟩, toNat⟩
    next ne =>
      simp only [ne, false_and, false_or]
      exact (lookup_iff open_.ok n t).symm

/-- The entry of a name is made free. -/
theorem RootOpen.clear (inv : Inv st) (open_ : RootOpen st o) {e : Bytes} {offset : Nat}
    (found : Filesys.lookup (st.byteFile 1) c = some (e, offset)) :
    ∃ fs o' buffer, inodeWriteAt st.fs o (Function.update e 19 0) 20 offset = .ok (fs, o', 20) ∧
      Written st { st with fs := fs, opens := Function.update st.opens 1 (some o') } 1 o buffer 20
        offset ∧
      RootOpen { st with fs := fs, opens := Function.update st.opens 1 (some o') } o' ∧
      o'.openCnt = o.openCnt ∧ o'.removed = o.removed ∧
      Files.lookup { st with fs := fs, opens := Function.update st.opens 1 (some o') } 1 =
        Function.update (st.lookup 1) c none := by
  rcases open_.ok.lookup_eq c with ⟨k, e', found', inside, -⟩ | ⟨missing, -⟩
  · obtain ⟨rfl, rfl⟩ := Prod.mk.inj (Option.some.inj (found.symm.trans found'))
    have whole : (st.inode 1).length % 20 = 0 := open_.ok.whole
    have inside : 20 * k < (st.inode 1).length := inside
    have removed : Filesys.dirRemove (st.byteFile 1) c (fun _ => false) =
        ((st.byteFile 1).writeAt (Function.update e 19 0) 20 (20 * k), true) := by
      simp [Filesys.dirRemove, found]
    rcases open_.ok.dirRemove c fun _ => false with ⟨-, refused⟩ | ⟨u, f', -, -, again, ok, binds⟩
    · cases congrArg Prod.snd (removed.symm.trans refused)
    obtain rfl := congrArg Prod.fst (removed.symm.trans again)
    obtain ⟨fs, o', run, written, open', count, kept, names⟩ :=
      open_.writeEntry inv (Nat.le_of_lt inside) ok (by omega)
    refine ⟨fs, o', _, run, written, open', count, kept, ?_⟩
    funext n
    refine Option.ext fun t => ?_
    rw [names, Function.update_apply]
    simp only [binds]
    split
    next eq => simp [eq]
    next ne =>
      simp only [ne_eq, ne, not_false_eq_true, true_and]
      exact (lookup_iff open_.ok n t).symm
  · cases missing.symm.trans found

end Entries

section Root

/-- The root directory is opened. -/
theorem Sound.openRoot (sound : Sound st) (closed : st.opens 1 = none) :
    ∃ o, Sound (st.inodeOpen 1) ∧ RootOpen (st.inodeOpen 1) o ∧ o.openCnt = 1 ∧
      o.removed = false ∧ SameView st (st.inodeOpen 1) ∧
      ∀ t, t ≠ 1 → (st.inodeOpen 1).opens t = st.opens t := by
  have root := inode_of_closed closed
  have same : SameView st { st with
      opens := Function.update st.opens 1 (some ⟨1, false, 0, .read (st.fs.data 1)⟩) } :=
    sameView_opens root.symm
  have sound' := sound.inodeOpen sound.root.1
  have here : Function.update st.opens 1 (some ⟨1, false, 0, .read (st.fs.data 1)⟩) 1 =
    some ⟨1, false, 0, .read (st.fs.data 1)⟩ := Function.update_self ..
  simp only [Files.inodeOpen, closed] at sound' ⊢
  refine ⟨_, sound', ⟨here, rfl, ?_, sound'.dir⟩, rfl, rfl, same,
    fun t ne => Function.update_of_ne ne _ _⟩
  rw [← root]
  exact sound.root.2

/-- The root directory is closed, and nothing else changes. -/
theorem Sound.closeRoot (sound : Sound st) (open_ : RootOpen st o) (once : o.openCnt = 1)
    (kept : o.removed = false) (dev : Nat → Bytes) :
    ∃ st', st.inodeClose dev 1 = .ok st' ∧ Sound st' ∧
      st'.opens = Function.update st.opens 1 none ∧ Leaves st st' fun _ => True := by
  obtain ⟨st', run, sound', closed⟩ := sound.lastClose open_.isOpen (by decide) (fun _ => kept)
    (fun removed => by cases kept.symm.trans removed) dev
  refine ⟨st', ?_, sound', ?_, ?_⟩
  · rw [Files.inodeClose, open_.isOpen]
    simp only [once, Nat.sub_self, if_true, run]
  · funext t
    by_cases eq : t = 1
    · rw [eq, Function.update_self, closed.opens]
    · rw [Function.update_of_ne eq, closed.others.opens t eq]
  · rw [kept] at closed
    exact closed.leaves sound.root.1 _

/-- The root directory is opened and closed. -/
theorem Sound.visitRoot (sound : Sound st) (closed : st.opens 1 = none) (dev : Nat → Bytes) :
    ∃ st', (st.inodeOpen 1).inodeClose dev 1 = .ok st' ∧ Sound st' ∧ st'.opens = st.opens ∧
      Leaves st st' fun _ => True := by
  obtain ⟨o, opened, root, once, kept, view, opens⟩ := sound.openRoot closed
  obtain ⟨st', close, sound', shut, all⟩ := opened.closeRoot root once kept dev
  refine ⟨st', close, sound', ?_, (view.leaves _).trans all⟩
  funext t
  rw [shut, Function.update_apply]
  split
  next eq => rw [eq, closed]
  next eq => exact opens t eq

theorem trueDir_single {path : CString} (single : Single path c) (dev : Nat → Bytes) (st : Files) :
    st.trueDir dev none path = some (st.inodeOpen 1, some (1, some c)) := by
  rw [trueDir, if_neg single.ne_nil, startDir]
  dsimp only
  rw [strtok_eq_components 47 path (Nat.le_refl _), single]
  rfl

end Root

section Create

/-- A file of zeros is made in a free sector. -/
theorem Inv.newFile (inv : Inv st) (synced : st.fs.free.file.isSome ∧ st.fs.free.Synced)
    (single : size ≤ 129 * 512) (room : 1 + growthSectors 0 size ≤ st.fs.free.freeCount) :
    ∃ free s fs, st.fs.free.allocate 1 = (free, some s) ∧
      inodeCreate { st.fs with free := free } s size false = .ok fs ∧
      Inv { st with fs := fs, live := Function.update st.live s true } ∧
      Others st { st with fs := fs, live := Function.update st.live s true } s ∧
      (st.live s = false ∧ st.opens s = none ∧ s < 2 ^ 32) ∧
      (Files.inode { st with fs := fs, live := Function.update st.live s true } s).isdir = false ∧
      Files.content { st with fs := fs, live := Function.update st.live s true } s =
        List.replicate size 0 ∧
      (fs.free.file.isSome ∧ fs.free.Synced) ∧
      fs.free.freeCount + (1 + growthSectors 0 size) = st.fs.free.freeCount := by
  obtain ⟨free, s, alloc, takes⟩ := FreeMap.allocate_takes inv.writable (by omega)
  obtain ⟨inv', spare⟩ := inv.spare_of_takes takes
  have fewer := takes.freeCount_succ
  have one : OneTable 0 size := .inl single
  have closed : st.opens s = none := inv.opened s spare.dead
  have enough : growthSectors 0 size ≤ free.freeCount := by omega
  obtain ⟨fs, d, run, isOpen, length, isdir, -, zeros⟩ := new_file_reads_zeros
    { st with fs := { st.fs with free := free } } s size false spare.used closed single
    inv'.writable (by rwa [← growthCalls_of_oneTable one])
  obtain ⟨-, -, -, -, -, count, keeps, file⟩ :=
    inodeCreate_maps spare.used inv'.writable run (by omega) one enough
  have made : Inv { st with fs := fs, live := Function.update st.live s true } :=
    And.left (inv'.create spare run (by omega) one enough rfl rfl)
  have same : SameView st { st with fs := { st.fs with free := free } } :=
    ⟨rfl, fun x used => (takes.used_iff x).mpr (.inl used), rfl, fun _ => rfl⟩
  have others : Others { st with fs := { st.fs with free := free } }
      { st with fs := fs, live := Function.update st.live s true } s :=
    inv'.create_others spare run (by omega) one enough rfl rfl
  have others := others.of_sameView same rfl
  have inode : Files.inode { st with fs := fs, live := Function.update st.live s true } s = d := by
    simp only [Files.inodeOpen, closed, Function.update_self, Option.some.injEq,
      OpenInode.mk.injEq] at isOpen
    have shut : Files.opens { st with
        fs := fs, live := Function.update st.live s true } s = none := closed
    exact (inode_of_closed shut).trans isOpen.2.2.2
  refine ⟨free, s, fs, alloc, run, made, others, ⟨spare.dead, closed, ?_⟩, inode ▸ isdir, ?_,
    ⟨file.trans (takes.file.trans synced.1), keeps (takes.synced synced.2)⟩, ?_⟩
  · exact Nat.lt_of_lt_of_le takes.free.1 st.fs.free.small
  · have read := inodeReadAt_live made (Function.update_self ..) size 0
    rw [inode] at read
    have all := Except.ok.inj (read.symm.trans (zeros size 0 (by omega)))
    rw [Files.content, inode, ← all, length, Nat.sub_zero, Nat.min_self]
    simp
  · have count : fs.free.freeCount + growthSectors 0 size = free.freeCount := count
    omega

/-- Only the sector of the inode is released when there is no entry for it. -/
theorem Inv.forget (inv : Inv st) (live : st.live s = true) (closed : st.opens s = none)
    (file : st.fs.free.file.isSome) :
    ∃ free, st.fs.free.release s 1 = .ok free ∧
      Inv ⟨{ st.fs with free := free }, st.opens, Function.update st.live s false⟩ ∧
      Others st ⟨{ st.fs with free := free }, st.opens, Function.update st.live s false⟩ s ∧
      (free.file.isSome ∧ free.Synced) := by
  obtain ⟨free, run⟩ := FreeMap.release_of_used (inv.used s .own live trivial) file
  obtain ⟨used, writable⟩ := FreeMap.release_one run
  have others : Others st
      ⟨{ st.fs with free := free }, st.opens, Function.update st.live s false⟩ s :=
    ⟨fun t ne => Function.update_of_ne ne _ _, fun _ _ => rfl, fun _ _ _ _ _ => rfl,
      fun t y ne alive hy => used _ (inv.wellFormed.apart_own live t y ne alive hy).symm
        (inv.used t y alive hy)⟩
  have wf := inv.wellFormed.step_of others
    (fun alive => by cases (Function.update_self ..).symm.trans alive) fun _ => closed
  obtain ⟨some, synced⟩ := FreeMap.release_synced run
  exact ⟨free, run, wf.inv (writable inv.writable), others, some, synced (writable inv.writable)⟩

/-- The name of a new file is in the root directory. -/
theorem Sound.addName (sound : Sound st) (others : Others st mid s)
    (new : st.live s = false ∧ st.opens s = none)
    (file : mid.live s = true ∧ (mid.inode s).isdir = false) (closed : mid.opens s = none)
    (small : Small o.data)
    (synced : mid.fs.free.file.isSome ∧ mid.fs.free.Synced)
    (written : Written mid st' 1 o buffer size offset) {o' : OpenInode} (open' : RootOpen st' o')
    (absent : st.lookup 1 c = none)
    (names : st'.lookup 1 = Function.update (mid.lookup 1) c (some s)) :
    Sound st' ∧ (∀ t, t ≠ 1 → st'.opens t = st.opens t) ∧
      st'.lookup 1 = Function.update (st.lookup 1) c (some s) ∧
      Leaves st st' fun t => t ≠ s ∧ t ≠ 1 := by
  have apart : ∀ t, st.live t = true → t ≠ s := by
    rintro t live rfl
    cases new.1.symm.trans live
  have ne : s ≠ 1 := (apart 1 sound.root.1).symm
  obtain ⟨i, zero, -⟩ := sound.freeMap
  have ne' : s ≠ 0 := (apart 0 (sound.wellFormed.live_of_open zero)).symm
  have old : mid.lookup 1 = st.lookup 1 :=
    funext (others.leaves.lookup (Ne.symm ne) sound.root.1)
  rw [old] at names
  have leaves : Leaves st st' fun t => t ≠ s ∧ t ≠ 1 :=
    (others.leaves.mono fun _ => And.left).trans (written.others.leaves.mono fun _ => And.right)
  have opens : ∀ t, t ≠ 1 → st'.opens t = mid.opens t := fun t => written.others.opens t
  have before : ∀ t, t ≠ 1 → st'.opens t = st.opens t := by
    intro t other
    rw [opens t other]
    by_cases eq : t = s
    · rw [eq, closed, new.2]
    · exact others.opens t eq
  have unnamed : ∀ c', st.lookup 1 c' ≠ some s := fun c' bound =>
    apart s ((sound.tidy s ne' ne).file c' bound).1 rfl
  have bound_iff : ∀ c' t, st'.lookup 1 c' = some t ↔
      c' = c ∧ t = s ∨ st.lookup 1 c' = some t := by
    intro c' t
    rw [names, Function.update_apply]
    split
    next eq => simp [eq, absent, eq_comm]
    next other => simp [other]
  have onFile : Leaves mid st' (· ≠ 1) := written.others.leaves
  obtain ⟨d, now, keeps⟩ := written.opens
  obtain rfl := Option.some.inj (open'.isOpen.symm.trans now)
  refine ⟨sound.of_leaves written.inv leaves (fun t other => before t other.2)
    (fun c' t other => ?_) (fun c' t bound => ?_) (fun t i changed isOpen => ?_)
    (written.synced synced)
    (fun changed => absurd ⟨ne'.symm, by decide⟩ changed)
    (fun _ => ⟨⟨written.inv.wellFormed.live_of_open now, ?_⟩, open'.ok⟩)
    fun t changed _ other => ?_, before, names, leaves⟩
  · rw [bound_iff, or_iff_right fun eq => other.1 eq.2]
  · rcases (bound_iff c' t).mp bound with ⟨-, rfl⟩ | bound
    · exact ⟨ne', ne⟩
    · exact sound.reserved c' t bound
  · by_cases root : t = 1
    · subst root
      obtain rfl := Option.some.inj (now.symm.trans isOpen)
      exact keeps small
    · rw [before t root] at isOpen
      exact sound.small t i isOpen
  · rw [inode_of_open now]
    exact open'.isdir
  · obtain rfl : t = s := by
      by_contra eq
      exact changed ⟨eq, other⟩
    refine ⟨fun c' _ => ?_, fun c₁ c₂ bound bound' => ?_, fun i isOpen => ?_, fun _ _ => ?_⟩
    · rw [onFile.live t other, onFile.inode t other file.1]
      exact file
    · obtain ⟨rfl, -⟩ := ((bound_iff c₁ t).mp bound).resolve_right (unnamed c₁)
      exact (((bound_iff c₂ t).mp bound').resolve_right (unnamed c₂)).1.symm
    · cases (new.2.symm.trans (before t other).symm).trans isOpen
    · exact ⟨c, (bound_iff c t).mpr (.inl ⟨rfl, rfl⟩)⟩

/-- `filesys_create` of a name that is not there makes a file of zeros. -/
theorem Sound.create (sound : Sound st) (closed : st.opens 1 = none) {path : CString}
    (single : Single path c) (dots : ¬(c = dot ∨ c = dotdot)) (short : c.1.length ≤ nameMax)
    (absent : st.lookup 1 c = none) (fits : size ≤ 129 * 512)
    (bound : (st.inode 1).length + 20 ≤ 129 * 512)
    (room : 1 + growthSectors 0 size +
      growthSectors (st.inode 1).length ((st.inode 1).length + 20) ≤ st.fs.free.freeCount) (dev : Nat → Bytes) (junk : Bytes) :
    ∃ st' s, st.filesysCreate dev none path size false true true junk = some (st', true) ∧
      Sound st' ∧ st'.opens = st.opens ∧ st.live s = false ∧
      st'.lookup 1 = Function.update (st.lookup 1) c (some s) ∧
      st'.content s = List.replicate size 0 ∧ Leaves st st' fun t => t ≠ s ∧ t ≠ 1 := by
  obtain ⟨o, opened, root, once, kept, view, opens⟩ := sound.openRoot closed
  have fs : (st.inodeOpen 1).fs = st.fs := by rw [inodeOpen_bump]
  obtain ⟨free, s, fs', alloc, run, inv, others, ⟨dead, shut, low⟩, file, zeros, synced, count⟩ :=
    opened.toInv.newFile opened.synced fits (by rw [fs]; omega)
  have leaves₀ := view.leaves fun _ => True
  have names₀ := leaves₀.lookup (t := 1) trivial sound.root.1
  have ne : s ≠ 1 := by
    rintro rfl
    cases dead.symm.trans opened.root.1
  have leaves₁ := others.leaves
  have rootInode := leaves₁.inode 1 (Ne.symm ne) opened.root.1
  have rootOpen : RootOpen { st.inodeOpen 1 with
      fs := fs', live := Function.update (st.inodeOpen 1).live s true } o :=
    ⟨root.isOpen, root.allowed, root.isdir, leaves₁.dirOk (Ne.symm ne) opened.root.1 root.ok⟩
  rw [view.inode 1] at rootInode
  have enough : growthSectors (st.inode 1).length ((st.inode 1).length + 20) ≤
      fs'.free.freeCount := by
    rw [fs] at count
    omega
  obtain ⟨added, o', buffer, offset, add, written, rootOpen', once', kept', names⟩ :=
    rootOpen.dirAdd inv single.nonempty short
      (by rw [leaves₁.lookup (Ne.symm ne) opened.root.1, names₀, absent]) low
      (by rwa [rootInode]) (by rwa [rootInode]) junk
  obtain ⟨sound', opens', names', leaves'⟩ := opened.addName others ⟨dead, shut⟩
    ⟨Function.update_self .., file⟩ shut (opened.small 1 o root.isOpen) synced written
    rootOpen' ((names₀ c).trans absent) names
  obtain ⟨st', close, sound'', shut', all⟩ :=
    sound'.closeRoot rootOpen' (once'.trans once) (kept'.trans kept) dev
  refine ⟨st', s, ?_, sound'', ?_, ?_, ?_, ?_, ?_⟩
  · rw [filesysCreate, trueDir_single single]
    simp [dots, createEntry, alloc, inodeCreateResult_calloc, run, Except.map, bind, Except.bind,
      add, close, Except.toOption]
  · funext t
    rw [shut', Function.update_apply]
    split
    next eq => rw [eq, closed]
    next eq => rw [opens' t eq, opens t eq]
  · rw [← view.live]
    exact dead
  · funext n
    rw [all.lookup (P := fun _ => True) trivial sound'.root.1, names', funext names₀]
  · have live : added.live s = true :=
      (written.others.live s ne).trans (Function.update_self ..)
    rw [all.content (P := fun _ => True) trivial live,
      written.others.leaves.content ne (Function.update_self ..), zeros]
  · exact ((leaves₀.mono fun _ _ => trivial).trans leaves').trans (all.mono fun _ _ => trivial)

/-- `filesys_create` refuses a name that is too long or there already, and takes back the inode that
it has made, but not the blocks of the file. -/
theorem Sound.createRefused (sound : Sound st) (closed : st.opens 1 = none) {path : CString}
    (single : Single path c) (dots : ¬(c = dot ∨ c = dotdot))
    (refused : nameMax < c.1.length ∨ ∃ t, st.lookup 1 c = some t) (fits : size ≤ 129 * 512)
    (room : 1 + growthSectors 0 size ≤ st.fs.free.freeCount) (dev : Nat → Bytes) (junk : Bytes) :
    ∃ st', st.filesysCreate dev none path size false true true junk = some (st', false) ∧
      Sound st' ∧ st'.opens = st.opens ∧ st'.lookup 1 = st.lookup 1 ∧
      Leaves st st' fun t => st'.live t = true := by
  obtain ⟨o, opened, root, once, kept, view, opens⟩ := sound.openRoot closed
  have fs : (st.inodeOpen 1).fs = st.fs := by rw [inodeOpen_bump]
  obtain ⟨free, s, fs', alloc, run, inv, others, ⟨dead, shut, -⟩, -, -, synced, -⟩ :=
    opened.toInv.newFile opened.synced fits (by rwa [fs])
  have leaves₀ := view.leaves fun _ => True
  have names₀ := leaves₀.lookup (t := 1) trivial sound.root.1
  have apart : ∀ t, (st.inodeOpen 1).live t = true → t ≠ s := by
    rintro t live rfl
    cases dead.symm.trans live
  have ne := apart 1 opened.root.1
  obtain ⟨i, zero, -⟩ := opened.freeMap
  have ne' := apart 0 (opened.wellFormed.live_of_open zero)
  have fail : Files.dirAdd { st.inodeOpen 1 with
      fs := fs', live := Function.update (st.inodeOpen 1).live s true } 1 c s junk =
        .ok ({ st.inodeOpen 1 with
          fs := fs', live := Function.update (st.inodeOpen 1).live s true }, false) := by
    rw [Files.dirAdd]
    rcases refused with long | ⟨t, bound⟩
    · rw [if_pos (.inr long)]
    · rw [others.leaves.lookup ne opened.root.1, names₀, bound]
      simp
  obtain ⟨free', release, inv', others', synced'⟩ :=
    inv.forget (Function.update_self ..) shut synced.1
  have leaves₁ := others.leaves.trans others'.leaves
  have names₁ := leaves₁.lookup ne opened.root.1
  have unnamed : ∀ c', (st.inodeOpen 1).lookup 1 c' ≠ some s := fun c' bound =>
    apart s ((opened.tidy s ne'.symm ne.symm).file c' bound).1 rfl
  have sound' := opened.step_of inv' leaves₁ (fun _ _ => rfl) names₁
    (fun i isOpen => by cases shut.symm.trans isOpen) synced' (absurd · ne'.symm)
    (absurd · ne.symm) fun _ _ =>
      ⟨fun c' bound => absurd ((names₁ c').symm.trans bound) (unnamed c'),
        fun c' _ bound => absurd ((names₁ c').symm.trans bound) (unnamed c'),
        (fun i isOpen => by cases shut.symm.trans isOpen),
        (fun alive => by cases (Function.update_self ..).symm.trans alive)⟩
  have root' : RootOpen ⟨{ fs' with free := free' }, (st.inodeOpen 1).opens,
      Function.update (Function.update (st.inodeOpen 1).live s true) s false⟩ o :=
    ⟨root.isOpen, root.allowed, root.isdir, sound'.dir⟩
  obtain ⟨st', close, sound'', shut', all⟩ := sound'.closeRoot root' once kept dev
  refine ⟨st', ?_, sound'', ?_, ?_, ?_⟩
  · rw [filesysCreate, trueDir_single single]
    rw [Function.update_idem] at close
    simp [dots, createEntry, alloc, inodeCreateResult_calloc, run, Except.map, bind, Except.bind,
      fail, release, close, Except.toOption, ne'.symm]
  · funext t
    rw [shut', Function.update_apply]
    split
    next eq => rw [eq, closed]
    next eq => exact opens t eq
  · funext n
    rw [all.lookup (P := fun _ => True) trivial sound'.root.1, names₁, names₀]
  · refine ((leaves₀.mono fun _ _ => trivial).trans (leaves₁.mono fun t live => ?_)).trans
      (all.mono fun _ _ => trivial)
    rintro rfl
    rw [all.live t trivial] at live
    cases (Function.update_self ..).symm.trans live

end Create

section Open

/-- `filesys_open` of a name finds its inode and opens it. -/
theorem Sound.open_ (sound : Sound st) (closed : st.opens 1 = none) {path : CString}
    (single : Single path c) (dots : c ≠ dot ∧ c ≠ dotdot) (dev : Nat → Bytes) :
    ∃ st', st.filesysOpen dev none path = some (st', st.lookup 1 c) ∧ Sound st' ∧
      st'.opens = ((st.lookup 1 c).elim st st.inodeOpen).opens ∧
      st'.lookup 1 = st.lookup 1 ∧ Leaves st st' fun _ => True := by
  obtain ⟨o, opened, root, once, kept, view, opens⟩ := sound.openRoot closed
  have leaves₀ := view.leaves fun _ => True
  have names₀ := leaves₀.lookup (t := 1) trivial sound.root.1
  cases found : st.lookup 1 c with
  | none =>
    obtain ⟨st', close, sound', same, leaves⟩ := sound.visitRoot closed dev
    refine ⟨st', ?_, sound', same, ?_, leaves⟩
    · rw [filesysOpen, trueDir_single single]
      simp [dots, lastInode, names₀, found, close, Except.toOption]
    · funext n
      exact leaves.lookup (t := 1) trivial sound.root.1 n
  | some s =>
    obtain ⟨-, ne⟩ := sound.reserved c s found
    have live : (st.inodeOpen 1).live s = true := by
      rw [view.live]
      exact ((sound.tidy s (sound.reserved c s found).1 ne).file c found).1
    have sound₁ := opened.inodeOpen live
    have other : ∀ t, t ≠ s →
        ((st.inodeOpen 1).inodeOpen s).opens t = (st.inodeOpen 1).opens t := by
      intro t eq
      rw [inodeOpen_bump (st.inodeOpen 1)]
      exact Function.update_of_ne eq _ _
    have root₁ : RootOpen ((st.inodeOpen 1).inodeOpen s) o :=
      ⟨(other 1 (Ne.symm ne)).trans root.isOpen, root.allowed, root.isdir, sound₁.dir⟩
    have view₁ : SameView (st.inodeOpen 1) ((st.inodeOpen 1).inodeOpen s) := by
      obtain ⟨i, eq, data⟩ := inodeOpen_eq (st.inodeOpen 1) s
      rw [eq]
      exact sameView_opens data
    obtain ⟨st', close, sound', shut, all⟩ := sound₁.closeRoot root₁ once kept dev
    have leaves₁ := leaves₀.trans ((view₁.leaves _).trans all)
    refine ⟨st', ?_, sound', ?_, ?_, leaves₁⟩
    · rw [filesysOpen, trueDir_single single]
      simp [dots, lastInode, names₀, found, close, Except.toOption]
    · funext t
      rw [shut, Function.update_apply]
      split
      next eq =>
        rw [eq, Option.elim_some, inodeOpen_bump st]
        exact ((Function.update_of_ne (Ne.symm ne) _ _).trans closed).symm
      next eq =>
        have same : (st.inodeOpen 1).bump s = st.bump s := by
          simp only [bump, opens s ne, view.data]
        rw [Option.elim_some, inodeOpen_bump (st.inodeOpen 1) s, inodeOpen_bump st s, same]
        simp only [Function.update_apply, opens t eq]
    · funext n
      exact leaves₁.lookup (t := 1) trivial sound.root.1 n

end Open

section Remove

/-- `filesys_remove` of a name that is not there. -/
theorem Sound.removeRefused (sound : Sound st) (closed : st.opens 1 = none) {path : CString}
    (single : Single path c) (absent : st.lookup 1 c = none) (dev : Nat → Bytes) :
    ∃ st', st.filesysRemove dev none path = some (st', false) ∧ Sound st' ∧
      st'.opens = st.opens ∧ st'.lookup 1 = st.lookup 1 ∧ Leaves st st' fun _ => True := by
  obtain ⟨o, -, -, -, -, view, -⟩ := sound.openRoot closed
  obtain ⟨st', close, sound', same, leaves⟩ := sound.visitRoot closed dev
  have missing : Filesys.lookup ((st.inodeOpen 1).byteFile 1) c = none := by
    have none := (view.leaves fun _ => True).lookup (t := 1) trivial sound.root.1 c
    rw [absent] at none
    simpa [Files.lookup] using none
  refine ⟨st', ?_, sound', same, ?_, leaves⟩
  · rw [filesysRemove, trueDir_single single]
    simp [Files.dirRemove, missing, bind, Except.bind, close, Except.toOption]
  · funext n
    exact leaves.lookup (t := 1) trivial sound.root.1 n

/-- The file that has lost its name is marked as removed. -/
theorem Sound.dropName (sound : Sound st) (open_ : RootOpen st o) (bound : st.lookup 1 c = some s)
    {i : OpenInode} (isOpen : st.opens s = some i) (written : Written st mid 1 o buffer size offset)
    {o' : OpenInode} (open' : RootOpen mid o')
    (names : mid.lookup 1 = Function.update (st.lookup 1) c none) :
    Sound (mid.inodeRemove s) ∧
      (mid.inodeRemove s).opens = Function.update mid.opens s (some { i with removed := true }) ∧
      (mid.inodeRemove s).lookup 1 = Function.update (st.lookup 1) c none ∧
      Leaves st (mid.inodeRemove s) (· ≠ 1) := by
  obtain ⟨ne, ne'⟩ := sound.reserved c s bound
  have tidy := sound.tidy s ne ne'
  have still : mid.opens s = some i := (written.others.opens s ne').trans isOpen
  have shape : mid.inodeRemove s =
      { mid with opens := Function.update mid.opens s (some { i with removed := true }) } := by
    rw [inodeRemove, still]
  have data : { i with removed := true }.data = mid.inode s := (inode_of_open still).symm
  have view := sameView_opens data
  have inv := written.inv.opens (written.inv.wellFormed.live_of_open still) data
  rw [← shape] at view inv
  have leaves : Leaves st (mid.inodeRemove s) (· ≠ 1) :=
    written.others.leaves.trans (view.leaves _)
  have opens : (mid.inodeRemove s).opens =
      Function.update mid.opens s (some { i with removed := true }) := by rw [shape]
  have at_s : (mid.inodeRemove s).opens s = some { i with removed := true } := by
    rw [opens, Function.update_self]
  obtain ⟨d, now, keeps⟩ := written.opens
  have live := written.inv.wellFormed.live_of_open now
  have names' : (mid.inodeRemove s).lookup 1 = Function.update (st.lookup 1) c none := by
    funext n
    rw [(view.leaves fun _ => True).lookup (t := 1) trivial live, names]
  have at_one : (mid.inodeRemove s).opens 1 = mid.opens 1 := by
    rw [opens, Function.update_of_ne (Ne.symm ne')]
  have bound_iff : ∀ c' t, (mid.inodeRemove s).lookup 1 c' = some t ↔
      c' ≠ c ∧ st.lookup 1 c' = some t := by
    intro c' t
    rw [names', Function.update_apply]
    split
    next eq => simp [eq]
    next other => simp [other]
  have unnamed : ∀ c', (mid.inodeRemove s).lookup 1 c' ≠ some s := by
    intro c' again
    obtain ⟨other, old⟩ := (bound_iff c' s).mp again
    exact other (tidy.once c' c old bound)
  have free : (mid.inodeRemove s).fs.free = mid.fs.free := by rw [shape]
  refine ⟨sound.of_leaves (P := fun t => t ≠ s ∧ t ≠ 1) inv (leaves.mono fun _ => And.right)
    (fun t other => ?_) (fun c' t other => ?_) (fun c' t again => ?_) (fun t j changed again => ?_)
    (free ▸ written.synced sound.synced) (fun changed => absurd ⟨ne.symm, by decide⟩ changed)
    (fun _ => ⟨⟨?_, ?_⟩, ?_⟩) fun t changed _ other => ?_, opens, names', leaves⟩
  · rw [opens, Function.update_of_ne other.1, written.others.opens t other.2]
  · rw [bound_iff, and_iff_right_iff_imp]
    rintro old rfl
    exact other.1 (Option.some.inj (old.symm.trans bound))
  · exact sound.reserved c' t ((bound_iff c' t).mp again).2
  · by_cases root : t = 1
    · subst root
      rw [at_one] at again
      obtain rfl := Option.some.inj (now.symm.trans again)
      exact keeps (sound.small 1 o open_.isOpen)
    · obtain rfl : t = s := by
        by_contra eq
        exact changed ⟨eq, root⟩
      obtain rfl := Option.some.inj (at_s.symm.trans again)
      exact sound.small t i isOpen
  · rw [view.live]
    exact live
  · rw [view.inode, inode_of_open open'.isOpen]
    exact open'.isdir
  · exact (view.leaves fun _ => True).dirOk (t := 1) trivial live open'.ok
  · obtain rfl : t = s := by
      by_contra eq
      exact changed ⟨eq, other⟩
    exact ⟨fun c' again => absurd again (unnamed c'), fun c' _ again => absurd again (unnamed c'),
      (fun j again => by
        obtain rfl := Option.some.inj (at_s.symm.trans again)
        exact ⟨fun _ => unnamed, fun _ => rfl⟩),
      (fun _ shut => by cases at_s.symm.trans shut)⟩

/-- `filesys_remove` of a name takes it away; an open file stays until it is closed. -/
theorem Sound.remove (sound : Sound st) (closed : st.opens 1 = none) {path : CString}
    (single : Single path c) (bound : st.lookup 1 c = some s)
    (positive : ∀ i, st.opens s = some i → 0 < i.openCnt)
    (short : st.opens s = none → (st.inode s).length < 1024) (dev : Nat → Bytes) :
    ∃ st', st.filesysRemove dev none path = some (st', true) ∧ Sound st' ∧
      st'.opens = Function.update st.opens s
        ((st.opens s).map fun i => { i with removed := true }) ∧
      st'.lookup 1 = Function.update (st.lookup 1) c none ∧
      Leaves st st' fun t => t ≠ 1 ∧ st'.live t = true := by
  obtain ⟨o, opened, root, once, kept, view, opens⟩ := sound.openRoot closed
  obtain ⟨ne, ne'⟩ := sound.reserved c s bound
  have leaves₀ := view.leaves fun _ => True
  have names₀ := leaves₀.lookup (t := 1) trivial sound.root.1
  obtain ⟨live, file⟩ := (sound.tidy s ne ne').file c bound
  have sound₁ := opened.inodeOpen (by rwa [view.live])
  have shape := inodeOpen_bump (st.inodeOpen 1) s
  have bump : (st.inodeOpen 1).bump s = st.bump s := by
    simp only [Files.bump, opens s ne', view.data]
  have isOpen : ((st.inodeOpen 1).inodeOpen s).opens s = some (st.bump s) := by
    rw [shape, bump]
    exact Function.update_self ..
  have other : ∀ t, t ≠ s → ((st.inodeOpen 1).inodeOpen s).opens t = (st.inodeOpen 1).opens t := by
    intro t eq
    rw [shape]
    exact Function.update_of_ne eq _ _
  have view₁ : SameView (st.inodeOpen 1) ((st.inodeOpen 1).inodeOpen s) := by
    obtain ⟨i, eq, data⟩ := inodeOpen_eq (st.inodeOpen 1) s
    rw [eq]
    exact sameView_opens data
  have leaves₁ := leaves₀.trans (view₁.leaves _)
  have names₁ := leaves₁.lookup (t := 1) trivial sound.root.1
  have root₁ : RootOpen ((st.inodeOpen 1).inodeOpen s) o :=
    ⟨(other 1 (Ne.symm ne')).trans root.isOpen, root.allowed, root.isdir, sound₁.dir⟩
  obtain ⟨⟨e, offset⟩, found, sector⟩ := Option.map_eq_some_iff.mp
    (show ((st.inodeOpen 1).inodeOpen s).lookup 1 c = some s from (names₁ c).trans bound)
  have before : Filesys.lookup ((st.inodeOpen 1).byteFile 1) c = some (e, offset) := by
    rw [← found]
    have byte := view₁.leaves fun _ => True
    exact (lookup_congr (congrArg InodeDisk.length (byte.inode 1 trivial opened.root.1))
      (byte.bytes 1 trivial opened.root.1) c).symm
  have idle : ((st.inodeOpen 1).inodeOpen s).busy s = false := by
    rw [busy, view₁.inode, view.inode, file, Bool.false_and]
  obtain ⟨fs, o', buffer, run, written, root₂, once', kept', names₂⟩ :=
    root₁.clear sound₁.toInv found
  obtain ⟨sound₃, opens₃, names₃, leaves₃⟩ := sound₁.dropName root₁
    ((names₁ c).trans bound) isOpen written root₂ names₂
  have marked : (Files.inodeRemove { (st.inodeOpen 1).inodeOpen s with
      fs := fs
      opens := Function.update ((st.inodeOpen 1).inodeOpen s).opens 1 (some o') } s).opens s =
      some { st.bump s with removed := true } := by
    rw [opens₃, Function.update_self]
  have few : { st.bump s with removed := true }.openCnt ≤ 1 → (st.bump s).data.length < 1024 := by
    intro last
    cases old : st.opens s with
    | some i =>
      have := positive i old
      simp only [Files.bump, old] at last
      omega
    | none =>
      have length := short old
      rw [inode_of_closed old] at length
      simpa only [Files.bump, old] using length
  obtain ⟨st₄, close, sound₄, opens₄, leaves₄⟩ :=
    sound₃.inodeClose marked ne (absurd · ne') (fun _ => few) dev
  have drop : OpenInode.drop { st.bump s with removed := true } =
      (st.opens s).map fun i => { i with removed := true } := by
    cases old : st.opens s with
    | some i =>
      have := positive i old
      simp only [OpenInode.drop, Files.bump, old, Option.map_some, Nat.add_sub_cancel]
      rw [if_neg (by omega)]
    | none => simp [OpenInode.drop, Files.bump, old]
  have root₄ : RootOpen st₄ o' := by
    refine ⟨?_, root₂.allowed, root₂.isdir, sound₄.dir⟩
    rw [opens₄, Function.update_of_ne (Ne.symm ne'), opens₃, Function.update_of_ne (Ne.symm ne')]
    exact root₂.isOpen
  obtain ⟨st', close', sound', shut, all⟩ :=
    sound₄.closeRoot root₄ (once'.trans once) (kept'.trans kept) dev
  have live : ∀ t, st'.live t = true → st₄.live t = true := fun t alive =>
    (all.live t trivial).symm.trans alive
  refine ⟨st', ?_, sound', ?_, ?_, ?_⟩
  · rw [filesysRemove, trueDir_single single]
    simp [Files.dirRemove, before, sector, root₁.isOpen, idle, run, bind, Except.bind, close,
      close', Except.toOption]
  · funext t
    rw [shut, opens₄, opens₃, drop]
    simp only [Function.update_apply]
    split
    next eq =>
      subst eq
      rw [if_neg (Ne.symm ne'), closed]
    next root =>
      split
      next => rfl
      next eq => rw [other t eq, opens t root]
  · funext n
    have last := leaves₄.lookup (t := 1) sound₄.root.1 sound₃.root.1 n
    rw [all.lookup (P := fun _ => True) trivial sound₄.root.1, last, names₃, funext names₁]
  · refine (leaves₁.mono fun _ _ => trivial).trans ((leaves₃.mono fun _ => And.left).trans ?_)
    exact (leaves₄.mono fun t alive => live t alive.2).trans (all.mono fun _ _ => trivial)

end Remove

section Start

/-- After a format the root directory is empty. -/
theorem format_root {bitmap : FreeMap} (blank : Blank bitmap)
    (one : OneTable 0 (bitmapFileSize bitmap.size)) (run : format dev bitmap = .ok st) :
    (st.inode 1).isdir = true ∧ (st.inode 1).length = 320 ∧
      ∀ p < 320, byteAt st.fs (st.inode 1) p = 0 := by
  obtain ⟨fs, create, run⟩ := bind_ok run
  obtain ⟨inv, spare, room, synced⟩ := blank.freeMapCreate one create
  obtain ⟨fs', create', run⟩ := bind_ok run
  obtain ⟨_, _, _, _, _, _, synced', _⟩ :=
    inodeCreate_maps spare.used inv.writable create' (by omega) (.inl (by omega)) room
  have live : (fun s => decide (s = 0) || decide (s = 1)) =
      Function.update (fun s => decide (s = 0)) 1 true := by
    funext s
    by_cases h : s = 1 <;> simp [h]
  have created : Inv ⟨fs', (Files.inodeOpen ⟨fs, fun _ => none, fun s => s = 0⟩ 0).opens,
      fun s => s = 0 || s = 1⟩ :=
    And.left (inv.create spare create' (by omega) (.inl (by omega)) room rfl live)
  -- The inode of the root is in its sector, and its bytes are zeros.
  obtain ⟨fs₂, d, create₂, isOpen, length, isdir, -, zeros⟩ := new_file_reads_zeros _ 1 320 true
    spare.used (inv.opened 1 spare.dead) (by decide) inv.writable
    (by rwa [← growthCalls_of_oneTable (.inl (by decide))])
  obtain rfl := Except.ok.inj (create₂.symm.trans create')
  have shut : Files.opens ⟨fs₂, (Files.inodeOpen ⟨fs, fun _ => none, fun s => s = 0⟩ 0).opens,
      fun s => s = 0 || s = 1⟩ 1 = none := inv.opened 1 spare.dead
  have inode : Files.inode ⟨fs₂, (Files.inodeOpen ⟨fs, fun _ => none, fun s => s = 0⟩ 0).opens,
      fun s => s = 0 || s = 1⟩ 1 = d := by
    rw [inode_of_closed shut]
    simpa [Files.inodeOpen] using isOpen
  have read := inodeReadAt_live created (s := 1) rfl 320 0
  rw [inode, length] at read
  have bytes := Except.ok.inj (read.symm.trans (zeros 320 0 (by omega)))
  obtain ⟨closed, close, run⟩ := bind_ok run
  obtain rfl := Except.ok.inj run
  have once : (Files.inodeOpen ⟨fs, fun _ => none, fun s => s = 0⟩ 0).opens 0 =
      some ⟨1, false, 0, .read (fs.data 0)⟩ := by
    simp [Files.inodeOpen]
  have lastClose := close
  simp only [inodeClose, once, Nat.sub_self, if_true] at lastClose
  have leaves : Leaves ⟨fs₂, (Files.inodeOpen ⟨fs, fun _ => none, fun s => s = 0⟩ 0).opens,
      fun s => s = 0 || s = 1⟩ closed fun _ => True :=
    (created.closed once (read_small _) (by simp) lastClose).leaves rfl _
  have alive : closed.live 1 = true := (leaves.live 1 trivial).trans rfl
  obtain ⟨o, eq, same⟩ := closed.inodeOpen_eq 0
  have reopened : Leaves closed { closed.inodeOpen 0 with
      fs := { (closed.inodeOpen 0).fs with free := (closed.inodeOpen 0).fs.free.bitmapRead } }
      fun _ => True := by
    rw [eq]
    have view := sameView_opens same
    refine ⟨fun _ _ => rfl, fun t _ _ => view.inode t, fun t _ live p inside => ?_⟩
    exact (view.leaves fun _ => True).bytes t trivial live p inside
  have all := leaves.trans reopened
  have last := all.inode 1 trivial rfl
  rw [inode] at last
  refine ⟨last ▸ isdir, last ▸ length, fun p inside => ?_⟩
  have kept := all.bytes 1 trivial rfl p (by rwa [inode, length])
  rw [kept, inode]
  refine (List.eq_replicate_iff.mp bytes).2 _ (List.mem_map.mpr ⟨p, ?_, by rw [Nat.zero_add]⟩)
  exact List.mem_range.mpr (by omega)

theorem format_sound {bitmap : FreeMap} (blank : Blank bitmap)
    (one : OneTable 0 (bitmapFileSize bitmap.size)) (run : format dev bitmap = .ok st) :
    Sound st ∧ ∀ c, st.lookup 1 c = none := by
  obtain ⟨⟨x, freeMap⟩, closed, synced⟩ := format_opens blank one run
  obtain ⟨isdir, length, zeros⟩ := format_root blank one run
  have live := format_live run
  have empty := (dirCreate_represents 16).ok
  have ok : DirOk (st.byteFile 1) := DirOk.congr empty length zeros
  have names : ∀ c, st.lookup 1 c = none := by
    intro c
    rw [Files.lookup, show Filesys.lookup (st.byteFile 1) c = Filesys.lookup (dirCreate 16) c from
      lookup_congr length zeros c]
    rcases empty.lookup_eq c with ⟨k, -, -, -, used, -⟩ | ⟨none, -⟩
    · cases used
    · rw [none, Option.map_none]
  refine ⟨{ format_inv blank one run with
    small := fun s o isOpen => ?_, synced := synced, freeMap := ⟨_, freeMap, rfl⟩
    root := ⟨by simp [live], isdir⟩, dir := ok,
    reserved := fun c s bound => by cases (names c).symm.trans bound
    tidy := fun s ne ne' => ?_ }, names⟩
  · by_cases zero : s = 0
    · subst zero
      obtain rfl := Option.some.inj (freeMap.symm.trans isOpen)
      exact read_small x
    · cases (closed s zero).symm.trans isOpen
  · have dead : st.live s = false := by simp [live, ne, ne']
    exact ⟨(fun c bound => by cases (names c).symm.trans bound),
      (fun c _ bound => by cases (names c).symm.trans bound),
      (fun o isOpen => by cases (closed s ne).symm.trans isOpen),
      (fun alive => by cases dead.symm.trans alive)⟩

/-- `filesys_done` and a new start, with only the free-map file open. -/
theorem Sound.reboot (sound : Sound st) (isOpen : st.opens 0 = some o) (once : o.openCnt = 1)
    (closed : ∀ t, t ≠ 0 → st.opens t = none) (dev : Nat → Bytes) {bitmap : FreeMap}
    (writable : bitmap.Writable) (size : bitmap.size = st.fs.free.size) :
    ∃ files, st.filesysDone dev [0] = .ok files ∧ ∀ cache : Cache Bytes,
      cache.Models files.fs.data →
      Sound (files.mount (freeCache cache).disk bitmap) ∧
      (∃ c, (files.mount (freeCache cache).disk bitmap).opens =
        Function.update st.opens 0 (some ⟨1, false, 0, c⟩)) ∧
      (files.mount (freeCache cache).disk bitmap).lookup 1 = st.lookup 1 ∧
      Leaves st (files.mount (freeCache cache).disk bitmap) fun _ => True := by
  obtain ⟨i, isOpen', kept⟩ := sound.freeMap
  obtain rfl := Option.some.inj (isOpen.symm.trans isOpen')
  have live := sound.wellFormed.live_of_open isOpen
  obtain ⟨files, shape⟩ : ∃ files : Files, files = ⟨st.fs.put 0 (o.data.copyTo (st.fs.data 0)),
    Function.update st.opens 0 none, st.live⟩ := ⟨_, rfl⟩
  have close : st.lastClose dev 0 o = .ok files := by
    rw [Files.lastClose, if_neg (by simp [kept]), shape]
  have done := sound.toInv.closed isOpen (sound.small 0 o isOpen) (fun removed =>
    by cases kept.symm.trans removed) close
  rw [kept] at done
  have free : files.fs.free = st.fs.free := by rw [shape]; rfl
  have shut : ∀ t, files.opens t = none := by
    intro t
    by_cases zero : t = 0
    · rw [zero, done.opens]
    · rw [done.others.opens t zero, closed t zero]
  refine ⟨files, ?_, fun cache models => ?_⟩
  · simp [filesysDone, inodeCloseAll, isOpen, Files.inodeClose, once, close, bind, Except.bind]
  have disk : (freeCache cache).disk = files.fs.data := models.1.freeCache
  have synced : files.fs.free.file.isSome ∧ files.fs.free.Synced := by
    rw [free]
    exact sound.synced
  have freeMap : (files.mount (freeCache cache).disk bitmap).fs.free =
      { freeMapInit bitmap with file := files.fs.free.file, used := files.fs.free.used } := by
    obtain ⟨bits, some⟩ := Option.isSome_iff_exists.mp synced.1
    simp only [mount, inodeOpen_bump, FreeMap.bitmapRead, some, synced.2 bits some]
  have alive : (files.mount (freeCache cache).disk bitmap).live = files.live := by
    rw [mount, inodeOpen_bump]
  have opens : (files.mount (freeCache cache).disk bitmap).opens = Function.update (fun _ => none) 0
      (some ⟨1, false, 0, .read (files.fs.data 0)⟩) := by
    rw [mount, inodeOpen_bump, disk]
    rfl
  have view : SameView files (files.mount (freeCache cache).disk bitmap) := by
    refine ⟨disk, fun x marked => ?_, alive, fun t => ?_⟩
    · rw [freeMap]
      refine ⟨?_, marked.2⟩
      show x < bitmap.size
      rw [size, ← free]
      exact marked.1
    · rw [mount_inode, disk, inode_of_closed (shut t)]
  have leaves := (done.leaves live fun _ => True).trans (view.leaves _)
  have names : ∀ c, (files.mount (freeCache cache).disk bitmap).lookup 1 c = st.lookup 1 c :=
    leaves.lookup (t := 1) trivial sound.root.1
  have opens_of_ne : ∀ t, t ≠ 0 → (files.mount (freeCache cache).disk bitmap).opens t = none :=
    fun t ne => by rw [opens, Function.update_of_ne ne]
  have zero : (files.mount (freeCache cache).disk bitmap).opens 0 =
      some ⟨1, false, 0, .read (files.fs.data 0)⟩ := by rw [opens, Function.update_self]
  have wf := done.inv.wellFormed.congr view fun t dead => by
    by_cases eq : t = 0
    · rw [eq, leaves.live 0 trivial, live] at dead
      cases dead
    · exact opens_of_ne t eq
  refine ⟨sound.step_of (wf.inv ?_) (leaves.mono fun _ _ => trivial) (fun t ne => ?_) names
    (fun i again => ?_) ?_ (fun _ => ⟨_, zero, rfl⟩) (fun one => absurd one (by decide))
    (fun ne _ => absurd rfl ne), ⟨.read (files.fs.data 0), ?_⟩, funext names, leaves⟩
  · rw [freeMap]
    exact writable
  · rw [opens_of_ne t ne, closed t ne]
  · obtain rfl := Option.some.inj (zero.symm.trans again)
    exact read_small _
  · rw [freeMap]
    exact synced
  · funext t
    rw [opens, Function.update_apply, Function.update_apply]
    split
    next => rfl
    next ne => exact (closed t ne).symm

end Start

end Files

end Pintos.Filesys
