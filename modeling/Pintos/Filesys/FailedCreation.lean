import Pintos.Filesys.GrowthKeeps
import Pintos.Filesys.Mounted

/-! What a `filesys_create` that fails leaves behind: nothing when it fails before the inode is
made, and a sector, or an erased one, when it fails later. -/

namespace Pintos.Filesys

open Words Role CStrings ByteFiles Filesys.Tree Results

namespace Files

/-- When the path leads to a name in a directory, no sector is free, and the inode of sector 0 has
that directory as its parent if another one was to be made; or there is no memory for the record of
the inode. -/
def StopsEarly (dev : Nat → Bytes) (st : Files) (cur : Option Nat) (path : CString)
    (isdir calloc : Bool) : Prop :=
  ∀ st' d name, st.trueDir dev cur path = some (st', some (d, some name)) →
    name ≠ dot → name ≠ dotdot →
      if st.fs.free.freeCount = 0 then isdir = true → (st.inode 0).parent = d else calloc = false

section Create

variable {st₀ st st' : Files} {d s : Nat} {dev : Nat → Bytes} {name : CString} {junk : Bytes}

/-- The parent is set in an inode that was not open, if there is memory for it. -/
theorem setParent_closed (closed : st.opens s = none) (dev : Nat → Bytes) (d : Nat)
    (malloc success : Bool) :
    ∃ c, st.setParent dev d s malloc success =
      .ok (if malloc then ({ st with fs := st.fs.put s c }, success) else (st, false)) := by
  unfold setParent
  cases malloc with
  | false =>
    rw [closed]
    exact ⟨fun _ => 0, rfl⟩
  | true =>
    have first : st.bump s = ⟨1, false, 0, .read (st.fs.data s)⟩ := by rw [bump, closed]
    have back : ∀ o, Function.update (Function.update st.opens s o) s none = st.opens := by
      intro o
      rw [Function.update_idem, ← closed, Function.update_eq_self]
    simp only [closed, inodeOpen_bump, first, inodeSetParent, inodeClose, lastClose,
      Function.update_self, Function.update_idem, back, Fs.put, Nat.sub_self, if_true,
      Bool.false_eq_true, if_false, Option.isNone_none, Bool.not_true, Bool.and_false]
    exact ⟨_, rfl⟩

/-- A sector is written that is free, or has the record of an open inode again. -/
theorem Intact.put (intact : Intact st₀ st) {c : Bytes}
    (live : st₀.live s = true →
      (st.opens s).isSome ∧ InodeDisk.read c = .read (st₀.fs.data s))
    (dead : st₀.live s = false → ¬st₀.fs.free.Used s) :
    Intact st₀ { st with fs := st.fs.put s c } := by
  refine ⟨intact.used, fun t alive => ?_, fun t alive => ?_, fun t used spare => ?_⟩
  · rw [← intact.inode t alive]
    unfold Files.inode
    by_cases eq : t = s
    · subst eq
      obtain ⟨o, isOpen⟩ := Option.isSome_iff_exists.mp (live alive).1
      simp only [isOpen]
    · simp only [Fs.put_of_ne _ _ eq]
  · by_cases eq : t = s
    · subst eq
      simp only [Fs.put_self]
      exact (live alive).2
    · simp only [Fs.put_of_ne _ _ eq]
      exact intact.record t alive
  · have ne : t ≠ s := by
      rintro rfl
      exact dead spare used
    simp only [Fs.put_of_ne _ _ ne]
    exact intact.data t used spare

theorem Mounted.ne_zero (mounted : Mounted st₀) (visits : Visits st₀ st d) : d ≠ 0 := by
  rintro rfl
  exact nomatch mounted.freeMap.2.symm.trans visits.dir.2

theorem Mounted.zero_open (mounted : Mounted st₀) (visits : Visits st₀ st d) {o : OpenInode}
    (isOpen : st₀.opens 0 = some o) : st.opens 0 = some o := by
  rw [visits.opens, Function.update_of_ne (mounted.ne_zero visits).symm, isOpen]

/-- The parent of the inode of sector 0 becomes `d`. -/
theorem Mounted.setParent_zero (mounted : Mounted st₀) (visits : Visits st₀ st d)
    (dev : Nat → Bytes) (malloc success : Bool) :
    ∃ o, st₀.opens 0 = some o ∧ st.setParent dev d 0 malloc success = .ok (⟨st.fs.put 0
        ({ o.data with parent := d }.copyTo (st.fs.data 0)),
      Function.update st.opens 0 (some { o with data := { o.data with parent := d } }), st.live⟩,
      success) := by
  obtain ⟨o, isOpen, copy, -⟩ := mounted.freeMapFile
  have positive := mounted.counted 0 o isOpen
  have here := mounted.zero_open visits isOpen
  have again : st.bump 0 = { o with openCnt := o.openCnt + 1 } := by rw [bump, here]
  refine ⟨o, isOpen, ?_⟩
  unfold setParent
  simp only [here, inodeOpen_bump, again, inodeSetParent, inodeClose, Function.update_self,
    Function.update_idem, Nat.add_sub_cancel, if_neg (Nat.ne_of_gt positive), Option.isNone_some,
    Bool.false_and, Bool.false_eq_true, if_false]
  rfl

/-- It was `d` before. -/
theorem Mounted.setParent_same (mounted : Mounted st₀) (visits : Visits st₀ st d)
    (same : (st₀.inode 0).parent = d) (dev : Nat → Bytes) (malloc success : Bool) :
    ∃ st', st.setParent dev d 0 malloc success = .ok (st', success) ∧ Visits st₀ st' d := by
  obtain ⟨o, isOpen, run⟩ := mounted.setParent_zero visits dev malloc success
  obtain ⟨o', isOpen', copy, -⟩ := mounted.freeMapFile
  obtain rfl := Option.some.inj (isOpen.symm.trans isOpen')
  have data : { o.data with parent := d } = o.data := by
    rw [← same, inode_of_open isOpen]
  have here := mounted.zero_open visits isOpen
  have opens : Function.update st.opens 0 (some o) = st.opens := by
    rw [← here, Function.update_eq_self]
  rw [data] at run
  simp only [opens] at run
  refine ⟨_, run, visits.toIntact.put (fun _ => ⟨by simp [here], ?_⟩) (fun dead => ?_), visits.free,
    visits.live, visits.opens, visits.dir⟩
  · rw [copy]
    exact read_copyTo_small (read_small _) _
  · exact nomatch mounted.freeMap.1.symm.trans dead

end Create

section Growth

theorem used_keeps (x : Nat) : GrowthKeeps fun fs => fs.free.used x = true := by
  refine ⟨fun _ _ _ _ marked => marked, fun fs old marked => ?_,
    fun fs fs' table k marked run => ?_⟩
  · have kept := FreeMap.allocate_sets marked
    unfold Fs.allocPointer
    split <;> next alloc => rwa [alloc] at kept
  · have kept := FreeMap.allocate_sets marked
    unfold Fs.allocEntry at run
    split at run
    · split at run <;> next alloc =>
        cases run
        rwa [alloc] at kept
    · cases run

/-- On a full device, nothing but zeros is written. -/
theorem full_blank_keeps : GrowthKeeps fun fs => fs.free.freeCount = 0 ∧ Filesys.Blank fs 0 := by
  refine ⟨fun fs s start count ⟨full, blank⟩ => ⟨full, blank.memset s start count⟩,
    fun fs old ⟨full, blank⟩ => ?_, fun fs fs' table k ⟨full, blank⟩ run => ?_⟩
  · rw [Fs.allocPointer, FreeMap.allocate_full full]
    exact ⟨full, blank⟩
  · rw [Fs.allocEntry, FreeMap.allocate_full full] at run
    split at run
    · cases run
      exact ⟨full, blank⟩
    · cases run

/-- A sector that was free before is marked, or sector 0 is erased. -/
def Marks (before fs : Fs) : Prop :=
  (∃ x, before.free.used x = false ∧ fs.free.used x = true) ∨ Filesys.Blank fs 0

/-- The inode gets a sector for its first block; when there is none, that block is sector 0. -/
theorem inodeCreateResult_marks {fs fs' : Fs} {s size : Nat} {isdir made : Bool}
    (writable : fs.free.Writable) (ne : s ≠ 0)
    (run : inodeCreateResult fs s size isdir true = .ok (fs', made)) :
    Marks fs fs' ∧ ∀ x, fs.free.used x = true → fs'.free.used x = true := by
  rw [inodeCreateResult, if_pos rfl] at run
  obtain ⟨⟨fs₁, d, ok⟩, alloc, run⟩ := bind_ok run
  obtain ⟨⟨fs₂, grown⟩, growth, alloc⟩ := bind_ok alloc
  cases alloc
  cases run
  have kept : ∀ x, fs.free.used x = true → fs₁.free.used x = true :=
    fun x marked => (used_keeps x).fileGrowth marked growth
  refine ⟨?_, kept⟩
  by_cases room : 0 < fs.free.freeCount
  · obtain ⟨m, x, alloc, takes⟩ := FreeMap.allocate_takes writable room
    have marked : m.used x = true := by rw [takes.used, Function.update_self]
    have taken : fs₁.free.used x = true := by
      refine (used_keeps x).fileGrowth_new rfl ?_ growth
      simp only [Fs.allocPointer, alloc]
      exact marked
    exact .inl ⟨x, takes.free.2, taken⟩
  · have full : fs.free.freeCount = 0 := by omega
    have erased := full_blank_keeps.fileGrowth_new rfl (by
      simp only [Fs.allocPointer, FreeMap.allocate_full full]
      exact ⟨full, memset_blank _ 0⟩) growth
    exact .inr (erased.2.of_data (Fs.put_of_ne _ _ ne.symm))

theorem Marks.mono {before fs fs' : Fs} (marks : Marks before fs)
    (used : ∀ x, fs.free.used x = true → before.free.used x = false → fs'.free.used x = true)
    (data : fs'.data 0 = fs.data 0) : Marks before fs' := by
  rcases marks with ⟨x, clear, marked⟩ | erased
  · exact .inl ⟨x, clear, used x marked clear⟩
  · exact .inr (erased.of_data data)

end Growth

section Entry

variable {st₀ st st' : Files} {d s : Nat} {dev : Nat → Bytes} {name : CString} {junk : Bytes}

/-- The marks are a trace. -/
theorem Mounted.marks_trace (mounted : Mounted st₀) (marks : Marks st₀.fs st.fs) :
    ¬NoTrace st₀ st := by
  intro none
  rcases marks with ⟨x, clear, marked⟩ | erased
  · rw [none.used, clear] at marked
    cases marked
  · obtain ⟨o, isOpen, copy, long⟩ := mounted.freeMapFile
    have same := congrArg InodeDisk.length (none.record 0 mounted.freeMap.1)
    have zero : (InodeDisk.read (st.fs.data 0)).length = 0 := by
      show getWord (st.fs.data 0) 0 = 0
      simp [getWord, erased 0, erased 1, erased 2, erased 3]
    rw [zero, ← copy] at same
    exact long same.symm

/-- A free sector is of no inode. -/
theorem Mounted.free_unused (mounted : Mounted st₀) (free : st₀.fs.free.Free s) :
    st₀.live s = false ∧ st₀.opens s = none ∧ ¬st₀.fs.free.Used s := by
  have unused := FreeMap.not_used_of_free free
  have dead : st₀.live s = false :=
    Bool.eq_false_iff.mpr fun live => unused (mounted.used s .own live trivial)
  exact ⟨dead, mounted.opened s dead, unused⟩

theorem Mounted.free_ne_zero (mounted : Mounted st₀) (free : st₀.fs.free.Free s) : s ≠ 0 := by
  rintro rfl
  cases mounted.freeMap.1.symm.trans (mounted.free_unused free).1

theorem Mounted.free_ne (mounted : Mounted st₀) (visits : Visits st₀ st d)
    (free : st₀.fs.free.Free s) : s ≠ d := by
  rintro rfl
  cases visits.dir.1.symm.trans (mounted.free_unused free).1

/-- The last close of an inode that was not removed, and any other one, leave the free map and the
other inodes. -/
theorem inodeClose_quiet {o : OpenInode} (here : st.opens d = some o)
    (kept : o.openCnt = 1 → o.removed = false) (positive : 0 < o.openCnt)
    (run : st.inodeClose dev d = .ok st') :
    st'.fs.free = st.fs.free ∧
      ∀ t, t ≠ d → st'.fs.data t = st.fs.data t ∧ st'.opens t = st.opens t := by
  unfold inodeClose at run
  simp only [here] at run
  split at run
  next last =>
    unfold lastClose at run
    rw [if_neg (by simp [kept (by omega)])] at run
    cases run
    exact ⟨rfl, fun t ne => ⟨Fs.put_of_ne _ _ ne, Function.update_of_ne ne ..⟩⟩
  next =>
    cases run
    exact ⟨rfl, fun t ne => ⟨rfl, Function.update_of_ne ne ..⟩⟩

theorem writeChunks_free {fs fs' : Fs} {ino : InodeDisk} {buffer : Bytes}
    {fuel size offset written n : Nat}
    (run : writeChunks ino buffer fuel size offset written fs = .ok (fs', n)) :
    fs'.free = fs.free := by
  induction fuel generalizing size offset written fs with
  | zero =>
    cases run
    rfl
  | succ fuel ih =>
    rw [writeChunks] at run
    split at run
    · cases run
      rfl
    obtain ⟨sector, -, run⟩ := bind_ok run
    dsimp only at run
    split at run
    · cases run
      rfl
    · exact (ih run).trans rfl

theorem inodeWriteAt_keeps {fs fs' : Fs} {o o' : OpenInode} {buffer : Bytes} {size offset n : Nat}
    (run : inodeWriteAt fs o buffer size offset = .ok (fs', o', n)) :
    (∀ x, fs.free.used x = true → fs'.free.used x = true) ∧ o'.openCnt = o.openCnt ∧
      o'.removed = o.removed := by
  unfold inodeWriteAt at run
  split at run
  · cases run
    exact ⟨fun _ => id, rfl, rfl⟩
  obtain ⟨⟨fs₁, d⟩, grown, run⟩ := bind_ok run
  obtain ⟨⟨fs₂, w⟩, chunks, run⟩ := bind_ok run
  cases run
  refine ⟨fun x marked => ?_, rfl, rfl⟩
  rw [writeChunks_free chunks]
  unfold extend at grown
  split at grown
  · exact (used_keeps x).fileGrowth marked grown
  · cases grown
    exact marked

/-- `dir_add` that fails writes nothing, and in any case it frees no sector. -/
theorem dirAdd_cases {sector : Nat} {success : Bool} {o : OpenInode} (here : st.opens d = some o)
    (run : st.dirAdd d name sector junk = .ok (st', success)) :
    (success = false → st'.fs = st.fs) ∧
    (∀ x, st.fs.free.used x = true → st'.fs.free.used x = true) ∧
    (∀ t, t ≠ d → st'.opens t = st.opens t) ∧
    ∃ o', st'.opens d = some o' ∧ o'.openCnt = o.openCnt ∧ o'.removed = o.removed := by
  have same : (success = false → st.fs = st.fs) ∧
      (∀ x, st.fs.free.used x = true → st.fs.free.used x = true) ∧
      (∀ t, t ≠ d → st.opens t = st.opens t) ∧
      ∃ o', st.opens d = some o' ∧ o'.openCnt = o.openCnt ∧ o'.removed = o.removed :=
    ⟨fun _ => rfl, fun _ => id, fun _ _ => rfl, o, here, rfl, rfl⟩
  unfold dirAdd at run
  split at run
  · cases run
    exact same
  split at run
  · cases run
    exact same
  simp only [here] at run
  obtain ⟨⟨fs, inode, written⟩, write, run⟩ := bind_ok run
  cases run
  obtain ⟨kept, count, removed⟩ := inodeWriteAt_keeps write
  refine ⟨fun failed => ?_, kept, fun t ne => Function.update_of_ne ne .., inode,
    Function.update_self .., count, removed⟩
  by_cases allowed : o.denyWriteCnt = 0
  · simp [inodeWriteAt_written allowed write] at failed
  · rw [inodeWriteAt, if_pos allowed] at write
    cases write
    rfl

theorem createEntry_full {size : Nat} {isdir calloc : Bool} (full : st.fs.free.freeCount = 0) :
    st.createEntry d name size isdir calloc junk = .ok (st, 0, false) := by
  rw [createEntry, FreeMap.allocate_full full]

theorem Visits.writable (mounted : Mounted st₀) (visits : Visits st₀ st d) :
    st.fs.free.Writable := by
  rw [visits.free]
  exact mounted.writable

/-- Without memory for the record, the sector that was taken for it is released. -/
theorem Mounted.createEntry_memory (mounted : Mounted st₀) (visits : Visits st₀ st d)
    (room : st.fs.free.freeCount ≠ 0) {size : Nat} {isdir success : Bool}
    (run : st.createEntry d name size isdir false junk = .ok (st', s, success)) :
    success = false ∧ st₀.fs.free.Free s ∧ Intact st₀ st' ∧ st'.opens = st.opens := by
  obtain ⟨m, x, alloc, takes⟩ :=
    FreeMap.allocate_takes (visits.writable mounted) (Nat.pos_of_ne_zero room)
  have spare := takes.free
  rw [visits.free] at spare
  have ne := mounted.free_ne_zero spare
  rw [createEntry, alloc] at run
  simp only [inodeCreateResult, bind, Except.bind, ne, if_false, Bool.false_eq_true, Bool.not_false,
    Bool.true_and, bne_iff_ne, ne_eq, not_false_eq_true, if_true] at run
  obtain ⟨free, release, run⟩ := bind_ok run
  cases run
  have back : free.used = st.fs.free.used := by
    rw [FreeMap.release_update release, takes.used, Function.update_idem, ← takes.free.2,
      Function.update_eq_self]
  refine ⟨rfl, spare, ?_, rfl⟩
  have intact := visits.toIntact
  exact ⟨back.trans intact.used, intact.inode, intact.record, intact.data⟩

/-- With memory for it, the new inode or its first block is left. -/
theorem Mounted.createEntry_marks (mounted : Mounted st₀) (visits : Visits st₀ st d)
    (room : st.fs.free.freeCount ≠ 0) {size : Nat} {isdir success : Bool}
    (run : st.createEntry d name size isdir true junk = .ok (st', s, success)) :
    Marks st₀.fs st'.fs ∧ st₀.fs.free.Free s ∧ st'.opens s = none ∧
      ∃ o, st'.opens d = some o ∧ (o.openCnt = 1 → o.removed = false) ∧ 0 < o.openCnt := by
  obtain ⟨m, x, alloc, takes⟩ :=
    FreeMap.allocate_takes (visits.writable mounted) (Nat.pos_of_ne_zero room)
  have writable := takes.writable (visits.writable mounted)
  rw [visits.free] at takes
  obtain ⟨-, closed, -⟩ := mounted.free_unused takes.free
  have ne := mounted.free_ne_zero takes.free
  have other := mounted.free_ne visits takes.free
  rw [createEntry, alloc] at run
  obtain ⟨⟨fs, made⟩, create, run⟩ := bind_ok run
  obtain rfl := inodeCreateResult_true create
  obtain ⟨marks, kept⟩ := inodeCreateResult_marks writable ne create
  simp only [if_true] at run
  obtain ⟨⟨st₁, result⟩, add, run⟩ := bind_ok run
  have here : (⟨fs, st.opens, Function.update st.live x true⟩ : Files).opens d =
      some (st₀.bump d) := visits.here
  obtain ⟨unwritten, used, opens, o, isOpen, count, removed⟩ := dirAdd_cases here add
  have shut : st₁.opens x = none := by
    rw [opens x other]
    show st.opens x = none
    rw [visits.opens, Function.update_of_ne other, closed]
  have counts : (o.openCnt = 1 → o.removed = false) ∧ 0 < o.openCnt := by
    rw [count, removed]
    exact mounted.bump_counts d
  have marked : m.used x = true := by rw [takes.used, Function.update_self]
  dsimp only at run
  split at run
  next failed =>
    obtain ⟨free, release, run⟩ := bind_ok run
    cases run
    have same := unwritten (by simpa [ne] using failed)
    refine ⟨?_, takes.free, shut, o, isOpen, counts⟩
    rcases marks with ⟨y, clear, taken⟩ | erased
    · have apart : y ≠ s := fun eq => nomatch (eq ▸ clear).symm.trans marked
      rw [takes.used, Function.update_of_ne apart] at clear
      refine .inl ⟨y, clear, ?_⟩
      rw [FreeMap.release_update release, same, Function.update_of_ne apart]
      exact taken
    · refine .inr (erased.of_data ?_)
      rw [same]
  next made =>
    cases run
    exact ⟨.inl ⟨s, takes.free.2, used s (kept s marked)⟩, takes.free, shut, o, isOpen, counts⟩

end Entry

section NoTrace

variable {st₀ st st₁ st₂ st' : Files} {d s : Nat} {dev : Nat → Bytes} {name : CString}
  {junk : Bytes} {isdir malloc success result : Bool}

/-- The directory is closed, after which nothing is left of the call. -/
theorem Mounted.close_noTrace (mounted : Mounted st₀) (intact : Intact st₀ st)
    (live : st₀.live d = true) (here : st.opens d = some (st₀.bump d))
    (close : st.inodeClose dev d = .ok st') : NoTrace st₀ st' := by
  obtain ⟨st₁, run, intact', -⟩ := mounted.close intact live here dev
  obtain rfl := Except.ok.inj (run.symm.trans close)
  exact intact'.noTrace mounted.toInv.wellFormed

/-- Without a free sector, only the parent of the inode of sector 0 may change. -/
theorem Mounted.full_noTrace_iff (mounted : Mounted st₀) (visits : Visits st₀ st d)
    (parent : (if isdir then st.setParent dev d 0 malloc false else .ok (st, false)) =
      .ok (st₁, result))
    (close : st₁.inodeClose dev d = .ok st') :
    NoTrace st₀ st' ↔ (isdir = true → (st₀.inode 0).parent = d) := by
  cases isdir with
  | false =>
    cases parent
    exact ⟨fun _ => nofun,
      fun _ => mounted.close_noTrace visits.toIntact visits.dir.1 visits.here close⟩
  | true =>
    rw [if_pos rfl] at parent
    refine ⟨fun none _ => ?_, fun same => ?_⟩
    · obtain ⟨o, -, run⟩ := mounted.setParent_zero visits dev malloc false
      cases run.symm.trans parent
      have ne := mounted.ne_zero visits
      have old : Function.update st.opens 0
          (some { o with data := { o.data with parent := d } }) d = some (st₀.bump d) := by
        rw [Function.update_of_ne ne, visits.here]
      obtain ⟨kept, positive⟩ := mounted.bump_counts d
      have zero := ((inodeClose_quiet old kept positive close).2 0 ne.symm).2
      dsimp only at zero
      rw [Function.update_self] at zero
      rw [← none.inode 0 mounted.freeMap.1, inode_of_open zero]
    · obtain ⟨st₂, run, visits'⟩ := mounted.setParent_same visits (same rfl) dev malloc false
      cases run.symm.trans parent
      exact mounted.close_noTrace visits'.toIntact visits'.dir.1 visits'.here close

/-- Without memory for the record, the parent is set in a free sector. -/
theorem Mounted.memory_noTrace (mounted : Mounted st₀) (visits : Visits st₀ st d)
    (intact : Intact st₀ st₁) (free : st₀.fs.free.Free s) (opens : st₁.opens = st.opens)
    (parent : (if isdir then st₁.setParent dev d s malloc success else .ok (st₁, success)) =
      .ok (st₂, result))
    (close : st₂.inodeClose dev d = .ok st') : NoTrace st₀ st' := by
  obtain ⟨dead, closed, unused⟩ := mounted.free_unused free
  have here : st₁.opens d = some (st₀.bump d) := by rw [opens, visits.here]
  have other := mounted.free_ne visits free
  have shut : st₁.opens s = none := by rw [opens, visits.opens, Function.update_of_ne other, closed]
  cases isdir with
  | false =>
    cases parent
    exact mounted.close_noTrace intact visits.dir.1 here close
  | true =>
    obtain ⟨c, run⟩ := setParent_closed shut dev d malloc success
    rw [if_pos rfl, run] at parent
    cases malloc with
    | false =>
      cases parent
      exact mounted.close_noTrace intact visits.dir.1 here close
    | true =>
      cases parent
      have put : Intact st₀ { st₁ with fs := st₁.fs.put s c } :=
        intact.put (fun live => nomatch live.symm.trans dead) fun _ => unused
      exact mounted.close_noTrace put visits.dir.1 here close

/-- What is left of the inode stays. -/
theorem Mounted.marks_left (mounted : Mounted st₀) (visits : Visits st₀ st d)
    (marks : Marks st₀.fs st₁.fs) (free : st₀.fs.free.Free s) (shut : st₁.opens s = none)
    {o : OpenInode} (here : st₁.opens d = some o) (kept : o.openCnt = 1 → o.removed = false)
    (positive : 0 < o.openCnt)
    (parent : (if isdir then st₁.setParent dev d s malloc success else .ok (st₁, success)) =
      .ok (st₂, result))
    (close : st₂.inodeClose dev d = .ok st') : ¬NoTrace st₀ st' := by
  have ne := mounted.free_ne_zero free
  have after : ∀ st₂ : Files, Marks st₀.fs st₂.fs → st₂.opens d = some o →
      st₂.inodeClose dev d = .ok st' → ¬NoTrace st₀ st' := by
    intro st₂ marks here close
    obtain ⟨same, others⟩ := inodeClose_quiet here kept positive close
    refine mounted.marks_trace (marks.mono (fun x marked _ => ?_) ?_)
    · rw [same]
      exact marked
    · exact (others 0 (mounted.ne_zero visits).symm).1
  cases isdir with
  | false =>
    cases parent
    exact after _ marks here close
  | true =>
    obtain ⟨c, run⟩ := setParent_closed shut dev d malloc success
    rw [if_pos rfl, run] at parent
    cases malloc with
    | false =>
      cases parent
      exact after _ marks here close
    | true =>
      cases parent
      have kept : (st₁.fs.put s c).data 0 = st₁.fs.data 0 := Fs.put_of_ne _ _ ne.symm
      refine after { st₁ with fs := st₁.fs.put s c } ?_ here close
      exact marks.mono (fun _ marked _ => marked) kept

theorem stopsEarly_iff {cur : Option Nat} {path : CString} {calloc : Bool}
    (resolved : st₀.trueDir dev cur path = some (st, some (d, some name)))
    (dots : ¬(name = dot ∨ name = dotdot)) :
    StopsEarly dev st₀ cur path isdir calloc ↔
      if st₀.fs.free.freeCount = 0 then isdir = true → (st₀.inode 0).parent = d
      else calloc = false := by
  refine ⟨fun early => early st d name resolved (dots <| .inl ·) (dots <| .inr ·), ?_⟩
  intro holds st' d' name' same _ _
  cases resolved.symm.trans same
  exact holds

/-- A creation that fails leaves no trace exactly when it stops early. -/
theorem failed_create_no_trace_iff {cur : Option Nat} {path : CString} {size : Nat} {calloc : Bool}
    (mounted : Mounted st)
    (here : ∀ d, cur = some d → st.live d = true ∧ (st.inode d).isdir = true)
    (failed : st.filesysCreate dev cur path size isdir calloc malloc junk = some (st', false)) :
    NoTrace st st' ↔ StopsEarly dev st cur path isdir calloc := by
  unfold filesysCreate at failed
  split at failed
  · cases failed
  next st₁ resolved =>
    -- there is no directory of the path
    cases failed
    refine ⟨fun _ st₂ d name same => (nomatch resolved.symm.trans same), fun _ => ?_⟩
    exact (mounted.trueDir here resolved).1.noTrace mounted.toInv.wellFormed
  · cases failed
  next st₁ d name resolved =>
    have visits := (mounted.trueDir here resolved).2 d _ rfl
    split at failed
    next dots =>
      obtain ⟨st₂, close, same⟩ := Option.map_eq_some_iff.mp failed
      cases same
      refine ⟨fun _ st₂ d' name' same => ?_, fun _ => ?_⟩
      · cases resolved.symm.trans same
        intro one two
        exact absurd dots (by simp [one, two])
      · exact mounted.close_noTrace visits.toIntact visits.dir.1 visits.here (ok_of_toOption close)
    next dots =>
      rw [stopsEarly_iff resolved dots]
      have run := ok_of_toOption failed
      obtain ⟨⟨st₂, s, success⟩, entry, run⟩ := bind_ok run
      have run : ((if isdir then st₂.setParent dev d s malloc success else .ok (st₂, success)) >>=
          fun r => do
            let st ← inodeClose dev r.1 d
            .ok (st, r.2)) = Except.ok (st', false) := by
        cases isdir <;> exact run
      obtain ⟨⟨st₃, result⟩, parent, run⟩ := bind_ok run
      obtain ⟨st₄, close, run⟩ := bind_ok run
      cases run
      by_cases full : st.fs.free.freeCount = 0
      · rw [if_pos full]
        rw [createEntry_full (by rw [visits.free, full])] at entry
        cases entry
        exact mounted.full_noTrace_iff visits parent close
      · rw [if_neg full]
        have room : st₁.fs.free.freeCount ≠ 0 := by rwa [visits.free]
        cases calloc with
        | false =>
          obtain ⟨-, free, intact, opens⟩ := mounted.createEntry_memory visits room entry
          exact iff_of_true (mounted.memory_noTrace visits intact free opens parent close) rfl
        | true =>
          obtain ⟨marks, free, shut, o, isOpen, kept, positive⟩ :=
            mounted.createEntry_marks visits room entry
          exact iff_of_false
            (mounted.marks_left visits marks free shut isOpen kept positive parent close) nofun

end NoTrace

section Formatted

variable {st : Files} {dev : Nat → Bytes}

theorem format_live {bitmap : FreeMap} (run : format dev bitmap = .ok st) (s : Nat) :
    st.live s = (decide (s = 0) || decide (s = 1)) := by
  obtain ⟨fs, -, run⟩ := bind_ok run
  obtain ⟨fs', -, run⟩ := bind_ok run
  obtain ⟨closed, close, run⟩ := bind_ok run
  obtain rfl := Except.ok.inj run
  simp only [Files.inodeOpen, inodeClose, Function.update_self, Nat.sub_self, if_true,
    Files.lastClose, Bool.false_eq_true, if_false] at close
  obtain rfl := Except.ok.inj close
  simp only [Files.inodeOpen, Function.update_self]

/-- What is left to evaluate of a formatted device. -/
def Fresh (st : Files) : Prop :=
  ((st.opens 0).map OpenInode.data = some (.read (st.fs.data 0)) ∧ (st.inode 0).length ≠ 0 ∧
    (st.inode 0).isdir = false ∧ (st.inode 0).parent = 1) ∧
    (st.inode 1).isdir = true ∧ (st.inode 1).parent = 1 ∧ (st.inode 1).length = 320 ∧
    ∀ p < 320, byteAt st.fs (st.inode 1) p = 0

instance (st : Files) : Decidable st.Fresh := inferInstanceAs (Decidable (_ ∧ _))

theorem Fresh.mounted {bitmap : FreeMap} (blank : Blank bitmap)
    (one : OneTable 0 (bitmapFileSize bitmap.size)) (run : format dev bitmap = .ok st)
    (fresh : st.Fresh) : Mounted st := by
  obtain ⟨⟨c, freeMap⟩, closed, -⟩ := format_opens blank one run
  obtain ⟨⟨copy, long, file, up⟩, isdir, parent, length, zeros⟩ := fresh
  have live := format_live run
  refine { format_inv blank one run with
    counted := fun s o isOpen => ?_
    freeMap := ⟨by simp [live], file⟩
    freeMapFile := ⟨_, freeMap, ?_, ?_⟩
    root := ⟨by simp [live], isdir⟩
    entries := fun d name s alive kind found => ?_
    parents := fun s alive => ?_ }
  · by_cases zero : s = 0
    · subst zero
      obtain rfl := Option.some.inj (freeMap.symm.trans isOpen)
      exact Nat.one_pos
    · exact nomatch (closed s zero).symm.trans isOpen
  · rw [freeMap] at copy
    exact Option.some.inj copy
  · rwa [inode_of_open freeMap] at long
  · -- The root has no entries, and the file in sector 0 is no directory.
    have root : d = 1 := by
      by_cases zero : d = 0
      · subst zero
        exact nomatch file.symm.trans kind
      · simpa [live, zero] using alive
    subst root
    have empty : Filesys.lookup (st.byteFile 1) name = Filesys.lookup (dirCreate 16) name :=
      lookup_congr length zeros name
    rcases (dirCreate_represents 16).ok.lookup_eq name with ⟨k, -, -, -, used, -⟩ | ⟨none, -⟩
    · exact nomatch used
    · rw [Files.lookup, empty, none] at found
      cases found
  · have one : (st.inode s).parent = 1 := by
      by_cases zero : s = 0
      · rw [zero, up]
      · rw [show s = 1 by simpa [live, zero] using alive, parent]
    rw [one, live]
    rfl

/-- What a failed `filesys_create` does to a formatted device of 64 sectors without contents, found
by evaluation. -/
theorem create_small (path : CString) (size : Nat) (isdir calloc malloc : Bool)
    {P : Files → Files → Prop} [∀ st st', Decidable (P st st')]
    (h : ((format (fun _ _ => 0) smallBitmap).toOption.bind fun st =>
      (st.filesysCreate (fun _ _ => 0) none path size isdir calloc malloc fun _ => 0).map
        fun result => (st, result)).any
          (fun r => decide (r.1.Fresh ∧ r.2.2 = false ∧ P r.1 r.2.1)) = true) :
    ∃ st st', format (fun _ _ => 0) smallBitmap = .ok st ∧ Mounted st ∧
      st.filesysCreate (fun _ _ => 0) none path size isdir calloc malloc (fun _ => 0) =
        some (st', false) ∧ P st st' := by
  obtain ⟨⟨st, st', result⟩, run, holds⟩ := (Option.any_eq_true _ _).mp h
  obtain ⟨fresh, rfl, left⟩ := of_decide_eq_true holds
  obtain ⟨st₀, formatted, run⟩ := Option.bind_eq_some_iff.mp run
  obtain ⟨created, create, same⟩ := Option.map_eq_some_iff.mp run
  cases same
  have format := ok_of_toOption formatted
  exact ⟨st, st', format, fresh.mounted smallBitmap_blank (by decide) format, create, left⟩

/-- There is no memory for the record of the file. -/
theorem failed_create_no_trace_memory :
    ∃ st st', format (fun _ _ => 0) smallBitmap = .ok st ∧
      st.filesysCreate (fun _ _ => 0) none ⟨[47, 98], by decide⟩ 600 false false true
        (fun _ => 0) = some (st', false) ∧ NoTrace st st' := by
  obtain ⟨st, st', format, mounted, failed, -⟩ :=
    create_small ⟨[47, 98], by decide⟩ 600 false false true
      (P := fun _ st' => st'.fs.free.used 6 = false) (by decide +kernel)
  refine ⟨st, st', format, failed, ?_⟩
  refine (failed_create_no_trace_iff mounted (by nofun) failed).mpr fun st₁ d name _ _ _ => ?_
  split
  · nofun
  · rfl

/-- A path to a name of 15 characters in the root. -/
def longPath : CString := ⟨47 :: List.replicate 15 97, by decide⟩

/-- A file of 600 bytes with that name is not created, but one of its sectors stays marked. -/
theorem failed_create_marks_sector :
    ∃ st st', format (fun _ _ => 0) smallBitmap = .ok st ∧ Mounted st ∧
      st.filesysCreate (fun _ _ => 0) none longPath 600 false true true (fun _ => 0) =
        some (st', false) ∧ ¬NoTrace st st' := by
  obtain ⟨st, st', format, mounted, failed, clear, marked⟩ :=
    create_small longPath 600 false true true
      (P := fun st st' => st.fs.free.used 7 = false ∧ st'.fs.free.used 7 = true) (by decide +kernel)
  refine ⟨st, st', format, mounted, failed, fun none => ?_⟩
  rw [none.used, clear] at marked
  cases marked

end Formatted

end Files

end Pintos.Filesys
