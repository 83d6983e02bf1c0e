import Pintos.Filesys.NoAlias

/-! Runs of calls on the files of a device.  From a formatted device on, no sector gets a second use
as long as every growth stays in one second-level index and every deleted file is shorter than two
blocks. -/

namespace Pintos.Filesys

open Words Role Transition Results

theorem Grown.writeChunks {fs₀ fs fs' : Fs} {ino₀ d : InodeDisk} {U₀ U : Role → Prop} {n : Nat}
    {buffer : Bytes} {fuel size offset written w : Nat} (h : Grown fs₀ ino₀ U₀ n fs d U)
    (cover : ∀ p < d.length, U (.data (p / 512)))
    (run : writeChunks d buffer fuel size offset written fs = .ok (fs', w)) :
    Grown fs₀ ino₀ U₀ n fs' d U := by
  induction fuel generalizing size offset written fs with
  | zero =>
    obtain ⟨rfl, rfl⟩ := Prod.mk.inj (Except.ok.inj run)
    exact h
  | succ fuel ih =>
    rw [Filesys.writeChunks] at run
    split at run
    next =>
      obtain ⟨rfl, rfl⟩ := Prod.mk.inj (Except.ok.inj run)
      exact h
    next =>
      obtain ⟨sector, found, run⟩ := bind_ok run
      simp only at run
      split at run
      next =>
        obtain ⟨rfl, rfl⟩ := Prod.mk.inj (Except.ok.inj run)
        exact h
      next some_ =>
        have inside : offset < d.length := by omega
        have mapped := cover offset inside
        have same := h.maps.byteToSector_eq inside mapped
        obtain rfl := Except.ok.inj (found.symm.trans same)
        refine ih ?_ run
        exact h.rewrite mapped rfl rfl

namespace Files

variable {st st' : Files} {s : Nat}

section Calls

/-- The calls that a run is about: files of at most 16513 blocks, and enough free sectors. -/
def InScope (st : Files) : Op → Prop
  | .create length _ => length ≤ 16513 * 512 ∧ growthSectors 0 length < st.fs.free.freeCount
  | .writeAt s _ size offset =>
    (st.inode s).length < offset + size → offset + size ≤ 16513 * 512 ∧
      growthSectors (st.inode s).length (offset + size) ≤ st.fs.free.freeCount
  | _ => True

/-- The condition on a call: what it maps is in one second-level index, and what it deletes is
shorter than two blocks. -/
def Careful (st : Files) : Op → Prop
  | .create length _ => OneTable 0 length
  | .writeAt s _ size offset =>
    (st.inode s).length < offset + size → OneTable (st.inode s).length (offset + size)
  | .close s _ => ∀ o ∈ st.opens s, o.removed = true → o.openCnt ≤ 1 → o.data.length < 1024
  | _ => True

/-- The start of a write leaves the inode with a map of its blocks. -/
theorem Inv.extend (inv : Inv st) {o : OpenInode} (isOpen : st.opens s = some o) {buffer : Bytes}
    {size offset : Nat} {fs : Fs} {d : InodeDisk}
    (scope : InScope st (.writeAt s buffer size offset))
    (careful : Careful st (.writeAt s buffer size offset))
    (run : Filesys.extend st.fs o.data size offset = .ok (fs, d)) :
    ∃ U₀ n U, Lengthened o.data.length st.fs o.data U₀ n fs d U ∧
      (∀ r, U₀ r → Upto (nextBlock o.data.length) r) ∧
      (∀ r, Upto (bytesToSectors o.data.length) r → U₀ r) ∧
      (∀ r, Upto (nextBlock d.length) r → U r) ∧ d.length ≤ 16513 * 512 := by
  have live := inv.wellFormed.live_of_open isOpen
  have before := inode_of_open isOpen
  have wf : Maps st.fs o.data (Upto (nextBlock o.data.length)) := before ▸ inv.wellFormed.maps live
  rw [InScope, before] at scope
  rw [Careful, before] at careful
  rw [Filesys.extend] at run
  split at run
  next longer =>
    obtain ⟨bound, room⟩ := scope longer
    have sub : ∀ r, Upto (bytesToSectors o.data.length) r → Upto (nextBlock o.data.length) r :=
      fun r hr => hr.mono (Nat.le_max_right 1 _)
    have blocks := wf.mono sub fun r R k hr slot => hr.closed slot
    obtain ⟨fs', d', U, grow, len, grown, cover⟩ :=
      blocks.grown_fileGrowth inv.writable (.inl longer) (careful longer) room
    obtain ⟨rfl, rfl⟩ := Prod.mk.inj (Except.ok.inj (grow.symm.trans run))
    rw [← len] at cover bound
    exact ⟨_, _, U, grown, sub, fun _ => id, cover, bound⟩
  next =>
    obtain ⟨rfl, rfl⟩ := Prod.mk.inj (Except.ok.inj run)
    exact ⟨_, 0, _, wf.lengthened inv.writable _, fun _ => id,
      fun r hr => hr.mono (Nat.le_max_right 1 _), fun _ => id,
      before ▸ inv.bounded s live⟩

theorem Inv.writeAt (inv : Inv st) {o o' : OpenInode} (isOpen : st.opens s = some o)
    {buffer : Bytes}
    {size offset w : Nat} {fs : Fs} (scope : InScope st (.writeAt s buffer size offset))
    (careful : Careful st (.writeAt s buffer size offset))
    (run : inodeWriteAt st.fs o buffer size offset = .ok (fs, o', w)) :
    Inv { st with fs := fs, opens := Function.update st.opens s (some o') } := by
  rw [inodeWriteAt] at run
  split at run
  next =>
    obtain ⟨rfl, same⟩ := Prod.mk.inj (Except.ok.inj run)
    obtain ⟨rfl, rfl⟩ := Prod.mk.inj same
    exact inv.opens (inv.wellFormed.live_of_open isOpen) (inode_of_open isOpen).symm
  next =>
    obtain ⟨⟨fs₁, d⟩, start, run⟩ := bind_ok run
    obtain ⟨⟨fs₂, written⟩, chunks, run⟩ := bind_ok run
    obtain ⟨rfl, same⟩ := Prod.mk.inj (Except.ok.inj run)
    obtain ⟨rfl, rfl⟩ := Prod.mk.inj same
    obtain ⟨U₀, n, U, grown, sub, _, cover, bound⟩ := inv.extend isOpen scope careful start
    have blocks : ∀ p < d.length, U (.data (p / 512)) := by
      intro p inside
      apply cover
      simp only [Upto, nextBlock, bytesToSectors]
      omega
    exact inv.grow isOpen (grown.writeChunks blocks chunks) sub rfl rfl cover bound

theorem Inv.lastClose (inv : Inv st) {o : OpenInode} (isOpen : st.opens s = some o)
    {dev : Nat → Bytes} (short : o.removed = true → o.data.length < 1024)
    (run : st.lastClose dev s o = .ok st') : Inv st' := by
  rw [Files.lastClose] at run
  split at run
  next removed =>
    obtain ⟨fs, delete, run⟩ := bind_ok run
    obtain ⟨fs', release, run⟩ := bind_ok run
    obtain rfl := Except.ok.inj run
    exact inv.delete isOpen (short removed) delete release rfl rfl
  next =>
    obtain rfl := Except.ok.inj run
    exact WellFormed.inv (inv.wellFormed.record isOpen rfl rfl rfl) inv.writable

theorem Inv.close (inv : Inv st) {dev : Nat → Bytes} (careful : Careful st (.close s dev))
    (run : st.inodeClose dev s = .ok st') : Inv st' := by
  rw [inodeClose] at run
  split at run
  next =>
    obtain rfl := Except.ok.inj run
    exact inv
  next o isOpen =>
    split at run
    next last =>
      refine inv.lastClose isOpen (fun removed => ?_) run
      exact careful o isOpen removed (by omega)
    next =>
      obtain rfl := Except.ok.inj run
      exact inv.opens (inv.wellFormed.live_of_open isOpen) (inode_of_open isOpen).symm

/-- A sector from `free_map_allocate` is spare. -/
theorem Inv.spare_of_takes (inv : Inv st) {free : FreeMap} (takes : st.fs.free.Takes free s) :
    Inv { st with fs := { st.fs with free := free } } ∧
      Spare { st with fs := { st.fs with free := free } } s := by
  have same : SameView st { st with fs := { st.fs with free := free } } :=
    ⟨rfl, fun x used => (takes.used_iff x).mpr (.inl used), rfl, fun _ => rfl⟩
  have unused : ¬st.fs.free.Used s := FreeMap.not_used_of_free takes.free
  refine ⟨(inv.wellFormed.congr same inv.opened).inv (takes.writable inv.writable),
    (takes.used_iff s).mpr (.inr rfl), ?_, fun t y live refers eq => ?_⟩
  · refine Bool.eq_false_iff.mpr fun live => ?_
    exact unused (inv.used s .own live trivial)
  · rw [same.sector] at eq
    exact unused (eq ▸ inv.used t y live ((same.refers t y).mp refers))

theorem step_inv {op : Op} (inv : Inv st) (ok : InScope st op ∧ Careful st op)
    (hstep : st.step op = some st') : Inv st' := by
  obtain ⟨scope, careful⟩ := ok
  cases op with
  | create length isdir =>
    obtain ⟨bound, room⟩ := scope
    obtain ⟨free, s, alloc, takes⟩ := FreeMap.allocate_takes inv.writable (by omega)
    obtain ⟨inv', spare⟩ := inv.spare_of_takes takes
    have fewer := takes.freeCount_succ
    simp only [step, alloc] at hstep
    split at hstep
    next fs run =>
      obtain rfl := Option.some.inj hstep
      have room' : growthSectors 0 length ≤ free.freeCount := by omega
      exact And.left (inv'.create spare run bound careful room' rfl rfl)
    next => exact nomatch hstep
  | open_ s =>
    rw [step] at hstep
    split at hstep
    next live =>
      obtain ⟨o, eq, same⟩ := st.inodeOpen_eq s
      rw [eq] at hstep
      obtain rfl := Option.some.inj hstep
      exact inv.opens live same
    next => exact nomatch hstep
  | writeAt s buffer size offset =>
    obtain ⟨o, isOpen, hstep⟩ := Option.bind_eq_some_iff.mp hstep
    split at hstep
    next fs o' w run =>
      obtain rfl := Option.some.inj hstep
      exact inv.writeAt isOpen scope careful run
    next => exact nomatch hstep
  | remove s =>
    obtain ⟨o, isOpen, rfl⟩ := Option.map_eq_some_iff.mp hstep
    exact inv.opens (inv.wellFormed.live_of_open isOpen) (inode_of_open isOpen).symm
  | close s dev => exact inv.close careful (ok_of_toOption hstep)

end Calls

section Format

/-- A bitmap as `bitmap_create` makes it, for a device with room for the free-map file and the root
directory. -/
structure Blank (bitmap : FreeMap) : Prop where
  clear : ∀ s, bitmap.used s = false
  file : bitmap.file = none
  writable : bitmap.Writable
  bounded : bitmapFileSize bitmap.size ≤ 16513 * 512
  room : 2 + growthSectors 0 (bitmapFileSize bitmap.size) + growthSectors 0 320 ≤ bitmap.size

theorem Blank.takes {bitmap : FreeMap} (blank : Blank bitmap) :
    bitmap.Takes (bitmap.setMultiple 0 1 true) 0 ∧
      (bitmap.setMultiple 0 1 true).Takes (freeMapInit bitmap) 1 := by
  have room := blank.room
  have clear : (bitmap.setMultiple 0 1 true).used 1 = false := by
    rw [FreeMap.setMultiple_one]
    exact blank.clear 1
  have synced : ∀ m : FreeMap, m.file = none → m.Synced := by
    intro m none bits some
    exact nomatch none.symm.trans some
  exact ⟨⟨⟨by omega, blank.clear 0⟩, rfl, FreeMap.setMultiple_one _ _ _, rfl, rfl,
      fun _ => synced _ blank.file⟩,
    ⟨⟨show 1 < bitmap.size by omega, clear⟩, rfl, FreeMap.setMultiple_one _ _ _, rfl, rfl,
      fun _ => synced _ blank.file⟩⟩

theorem Blank.freeCount {bitmap : FreeMap} (blank : Blank bitmap) :
    (freeMapInit bitmap).freeCount + 2 = bitmap.size := by
  have all : bitmap.freeCount = bitmap.size := by
    rw [FreeMap.freeCount, List.countP_eq_length.mpr, List.length_range]
    intro s _
    simp [blank.clear s]
  have first := blank.takes.1.freeCount_succ
  have second := blank.takes.2.freeCount_succ
  omega

theorem bitmapRead_eq {m : FreeMap} (synced : m.Synced) : m.bitmapRead = m := by
  rw [FreeMap.bitmapRead]
  split
  next bits some => rw [synced bits some]
  next => rfl

/-- The device before the first inode. -/
theorem Blank.start {bitmap : FreeMap} (blank : Blank bitmap) (dev : Nat → Bytes) :
    Inv ⟨⟨dev, freeMapInit bitmap, []⟩, fun _ => none, fun _ => false⟩ ∧
      Spare ⟨⟨dev, freeMapInit bitmap, []⟩, fun _ => none, fun _ => false⟩ 0 ∧
      Spare ⟨⟨dev, freeMapInit bitmap, []⟩, fun _ => none, fun _ => false⟩ 1 := by
  have marked : ∀ x, x = 0 ∨ x = 1 → (freeMapInit bitmap).Used x := by
    intro x hx
    rw [blank.takes.2.used_iff, blank.takes.1.used_iff]
    rcases hx with rfl | rfl
    · exact .inl (.inr rfl)
    · exact .inr rfl
  have none : ∀ {p : Prop}, false = true → p := fun live => nomatch live
  exact ⟨⟨⟨fun _ _ => none, fun _ _ _ _ => none⟩, fun _ => none, fun _ _ => rfl, blank.writable⟩,
    ⟨marked 0 (.inl rfl), rfl, fun _ _ => none⟩, ⟨marked 1 (.inr rfl), rfl, fun _ _ => none⟩⟩

/-- The free-map file is created and opened. -/
theorem Blank.freeMapCreate {bitmap : FreeMap} (blank : Blank bitmap) {dev : Nat → Bytes} {fs : Fs}
    (one : OneTable 0 (bitmapFileSize bitmap.size))
    (run : inodeCreate ⟨dev, freeMapInit bitmap, []⟩ 0 (bitmapFileSize bitmap.size) false =
      .ok fs) :
    let st := Files.inodeOpen ⟨fs, fun _ => none, fun s => s = 0⟩ 0
    let st' : Files := { st with fs := { fs with free := fs.free.bitmapWrite.1 } }
    Inv st' ∧ Spare st' 1 ∧ growthSectors 0 320 ≤ st'.fs.free.freeCount ∧ st'.fs.free.Synced := by
  have room := blank.room
  have count := blank.freeCount
  obtain ⟨inv, spare, spare'⟩ := blank.start dev
  have enough : growthSectors 0 (bitmapFileSize bitmap.size) ≤ (freeMapInit bitmap).freeCount := by
    omega
  obtain ⟨_, _, _, writable, _, fewer, _⟩ :=
    inodeCreate_maps spare.used inv.writable run blank.bounded one enough
  have live : (fun s => decide (s = 0)) = Function.update (fun _ => false) 0 true := by
    funext s
    simp [Function.update_apply]
  have created : Inv ⟨fs, fun _ => none, fun s => s = 0⟩ ∧
      ∀ x, x ≠ 0 → Spare _ x → Spare ⟨fs, fun _ => none, fun s => s = 0⟩ x :=
    inv.create spare run blank.bounded one enough rfl live
  obtain ⟨inv, keeps⟩ := created
  have opened := sameView_opens (s := 0) (o := ⟨1, false, 0, .read (fs.data 0)⟩)
    (rfl : _ = Files.inode ⟨fs, fun _ => none, fun s => s = 0⟩ 0)
  have inv := inv.opens (s := 0) (o := ⟨1, false, 0, .read (fs.data 0)⟩) rfl rfl
  have spare := (keeps 1 (by omega) spare').congr opened
  obtain ⟨size, used, fails⟩ := fs.free.bitmapWrite_same
  intro st st'
  have written : SameView st st' := by
    refine ⟨rfl, fun x marked => ?_, rfl, fun _ => rfl⟩
    show x < fs.free.bitmapWrite.1.size ∧ fs.free.bitmapWrite.1.used x = true
    rw [size, used]
    exact marked
  refine ⟨(inv.wellFormed.congr written inv.opened).inv ?_, spare.congr written, ?_,
    FreeMap.synced_bitmapWrite writable⟩
  · show ∀ n, fs.free.bitmapWrite.1.writeFails n = none
    rw [fails]
    exact writable
  · show growthSectors 0 320 ≤ (List.range fs.free.bitmapWrite.1.size).countP
      fun s => !fs.free.bitmapWrite.1.used s
    rw [size, used]
    have fewer : fs.free.freeCount + growthSectors 0 (bitmapFileSize bitmap.size) =
      (freeMapInit bitmap).freeCount := fewer
    exact show growthSectors 0 320 ≤ fs.free.freeCount by omega

theorem format_inv {dev : Nat → Bytes} {bitmap : FreeMap} (blank : Blank bitmap)
    (one : OneTable 0 (bitmapFileSize bitmap.size)) (run : format dev bitmap = .ok st) :
    Inv st := by
  obtain ⟨fs, create, run⟩ := bind_ok run
  obtain ⟨inv, spare, room, synced⟩ := blank.freeMapCreate one create
  obtain ⟨fs', create', run⟩ := bind_ok run
  obtain ⟨_, _, _, _, _, _, synced', _⟩ :=
    inodeCreate_maps spare.used inv.writable create' (by omega) (.inl (by omega)) room
  have live : (fun s => decide (s = 0) || decide (s = 1)) =
      Function.update (fun s => decide (s = 0)) 1 true := by
    funext s
    by_cases h : s = 1 <;> simp [h]
  have created : Inv ⟨fs', (Files.inodeOpen ⟨fs, fun _ => none, fun s => s = 0⟩ 0).opens,
      fun s => s = 0 || s = 1⟩ :=
    And.left (inv.create spare create' (by omega) (.inl (by omega)) room rfl live)
  -- The free-map file is open once, so that its close writes the inode back.
  have once : (Files.inodeOpen ⟨fs, fun _ => none, fun s => s = 0⟩ 0).opens 0 =
      some ⟨1, false, 0, .read (fs.data 0)⟩ := by
    simp [Files.inodeOpen]
  obtain ⟨closed, close, run⟩ := bind_ok run
  obtain rfl := Except.ok.inj run
  have stays : Careful ⟨fs', (Files.inodeOpen ⟨fs, fun _ => none, fun s => s = 0⟩ 0).opens,
      fun s => s = 0 || s = 1⟩ (.close 0 dev) := by
    intro o isOpen removed
    obtain rfl := Option.some.inj (once.symm.trans isOpen)
    exact nomatch removed
  have recorded := created.close stays close
  simp only [inodeClose, once, Nat.sub_self, if_true, Files.lastClose, Bool.false_eq_true, if_false]
    at close
  have shape := Except.ok.inj close
  have live₀ : closed.live 0 = true := by
    rw [← shape]
    rfl
  have free : closed.fs.free = fs'.free := by
    rw [← shape]
    rfl
  obtain ⟨o, eq, same⟩ := closed.inodeOpen_eq 0
  have reopened := recorded.opens live₀ same
  rw [eq]
  have read : closed.fs.free.bitmapRead = closed.fs.free := by
    rw [free]
    exact bitmapRead_eq (synced' synced)
  simp only [read]
  exact reopened

/-- After a format the free-map file is open once, nothing else is, and the file has the bitmap. -/
theorem format_opens {dev : Nat → Bytes} {bitmap : FreeMap} (blank : Blank bitmap)
    (one : OneTable 0 (bitmapFileSize bitmap.size)) (run : format dev bitmap = .ok st) :
    (∃ c, st.opens 0 = some ⟨1, false, 0, .read c⟩) ∧ (∀ s, s ≠ 0 → st.opens s = none) ∧
      st.fs.free.file.isSome ∧ st.fs.free.Synced := by
  obtain ⟨fs, create, run⟩ := bind_ok run
  obtain ⟨inv, spare, room, synced⟩ := blank.freeMapCreate one create
  obtain ⟨fs', create', run⟩ := bind_ok run
  obtain ⟨_, _, _, _, _, _, synced', file⟩ :=
    inodeCreate_maps spare.used inv.writable create' (by omega) (.inl (by omega)) room
  obtain ⟨closed, close, run⟩ := bind_ok run
  obtain rfl := Except.ok.inj run
  simp only [Files.inodeOpen, inodeClose, Function.update_self, Nat.sub_self, if_true,
    Files.lastClose, Bool.false_eq_true, if_false] at close
  obtain rfl := Except.ok.inj close
  have synced := synced' synced
  have read : fs'.free.bitmapRead = fs'.free := bitmapRead_eq synced
  simp only [Files.inodeOpen, Function.update_self]
  refine ⟨⟨_, rfl⟩, fun s ne => ?_, ?_⟩
  · simp only [Function.update_of_ne ne]
  · show fs'.free.bitmapRead.file.isSome ∧ fs'.free.bitmapRead.Synced
    rw [read, file]
    exact ⟨FreeMap.bitmapWrite_file _, synced⟩

end Format

/-- The states of a formatted device, with `one` on the size of its free-map file. -/
def Formatted (one : Nat → Prop) (st : Files) : Prop :=
  ∃ dev bitmap, Blank bitmap ∧ one (bitmapFileSize bitmap.size) ∧ format dev bitmap = .ok st

instance (st : Files) (op : Op) : Decidable (InScope st op) :=
  match op with
  | .create _ _ => inferInstanceAs (Decidable (_ ∧ _))
  | .writeAt _ _ _ _ => inferInstanceAs (Decidable (_ → _))
  | .open_ _ | .remove _ | .close _ _ => .isTrue trivial

instance (st : Files) (op : Op) : Decidable (Careful st op) :=
  match op with
  | .create _ _ => inferInstanceAs (Decidable (OneTable _ _))
  | .writeAt _ _ _ _ => inferInstanceAs (Decidable (_ → _))
  | .close s _ => inferInstanceAs (Decidable (∀ o ∈ st.opens s, _))
  | .open_ _ | .remove _ => .isTrue trivial

/-- The bitmap of a device of 64 sectors. -/
def smallBitmap : FreeMap where
  size := 64
  used := fun _ => false
  file := none
  writeFails := fun _ => none
  writes := 0
  small := by decide

theorem smallBitmap_blank : Blank smallBitmap :=
  ⟨fun _ => rfl, rfl, fun _ => rfl, by decide, by decide⟩

/-- A state that a given run reaches on a zeroed device of 64 sectors, found by evaluation. -/
theorem reach_small (ok : Files → Op → Prop) [∀ st op, Decidable (ok st op)] (one : Nat → Prop)
    (fits : one (bitmapFileSize 64)) (ops : List Op) {P : Files → Prop} [DecidablePred P]
    (h : ((format (fun _ _ => 0) smallBitmap).toOption.bind fun st =>
      Transition.exec (guarded step ok) st ops).any (fun st => decide (P st)) = true) :
    ∃ st, Reach (Fires step) ok (Formatted one) st ∧ P st := by
  obtain ⟨st, run, hP⟩ := (Option.any_eq_true _ _).mp h
  obtain ⟨start, formatted, run⟩ := Option.bind_eq_some_iff.mp run
  have reach : Reach (Fires step) ok (Formatted one) start :=
    .start ⟨_, smallBitmap, smallBitmap_blank, fits, ok_of_toOption formatted⟩
  exact ⟨st, reach.exec run, of_decide_eq_true hP⟩

end Files

end Pintos.Filesys
