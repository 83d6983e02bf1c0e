import Pintos.Filesys.Contents
import Pintos.Filesys.GrowthCalls
import Pintos.Filesys.GrowthSound

/-! The bounds of a growth: which `memset` calls stay inside their cache entry and past the end of
the file, and for which offsets and sizes the subscripts of `file_growth` and `byte_to_sector` stay
inside an index block. -/

namespace Pintos.Filesys

open Words Role Results

section ZeroFill

/-- The `memset` calls from `fs` to `fs'`. -/
def newMemsets (fs fs' : Fs) : List Memset := fs'.memsets.drop fs.memsets.length

/-- A byte of the cache entry that a `memset` zeroes; a negative count is converted to `size_t`. -/
def Memset.Touches (m : Memset) (i : Nat) : Prop :=
  m.start ≤ i ∧ i < m.start + (m.count % 2 ^ 32).toNat

/-- A `memset` that zeroes no byte of the file below its length. -/
def Memset.PastEnd (fs : Fs) (ino : InodeDisk) (m : Memset) : Prop :=
  ∀ p < ino.length, sectorAt fs ino (.data (p / 512)) = m.sector → ¬m.Touches (p % 512)

variable (fs : Fs) (ino : InodeDisk) (pos size : Nat)

/-- Every `memset` of the growth is inside its cache entry. -/
def FillsInSector : Prop :=
  ∀ fs' ino', fileGrowth fs ino pos size = .ok (fs', ino') → ∀ m ∈ newMemsets fs fs', m.InSector

/-- Every `memset` of the growth is past the end of the file. -/
def FillsPastEnd : Prop :=
  ∀ fs' ino', fileGrowth fs ino pos size = .ok (fs', ino') → ∀ m ∈ newMemsets fs fs',
    m.PastEnd fs ino

/-- A growth inside the last block is one of the first block, by a write that starts at the end of
the file or after it. -/
def TailFits (L pos size : Nat) : Prop :=
  (pos + size) / 512 = L / 512 → L % 512 ≠ 0 → L < 512 ∧ L ≤ pos

instance (L pos size : Nat) : Decidable (TailFits L pos size) :=
  inferInstanceAs (Decidable (_ → _ → _))

variable {fs ino pos size}

theorem Filled.newMemsets {tail : Memset → Prop} {n : Nat} {fs' : Fs} (h : Filled tail n fs fs') :
    ∀ m ∈ newMemsets fs fs', m.InSector ∧
      (fs.free.Writable → n ≤ fs.free.freeCount → fs.free.Free m.sector ∨ tail m) := by
  obtain ⟨new, log, inside⟩ := h.log
  rw [Filesys.newMemsets, log, List.drop_left]
  exact inside

/-- What is zeroed in the last block from the end of the file on, or in a sector that was free, is
no byte of the file. -/
theorem Maps.pastEnd (maps : Maps fs ino (Upto (bytesToSectors ino.length))) {m : Memset}
    (fresh : fs.free.Free m.sector ∨ IsTail fs ino ino.length m) : m.PastEnd fs ino := by
  intro p inside sector touches
  have block : Upto (bytesToSectors ino.length) (.data (p / 512)) := by
    simp only [Upto, bytesToSectors]
    omega
  rcases fresh with free | ⟨last, start, partial_⟩
  · apply FreeMap.not_used_of_free free
    rw [← sector]
    exact maps.used _ block
  · have mapped : Upto (bytesToSectors ino.length) (.data (ino.length / 512)) := by
      simp only [Upto, bytesToSectors]
      omega
    have role := maps.distinct _ _ block mapped (sector.trans last)
    have same : p / 512 = ino.length / 512 := by injection role
    have low := touches.1
    omega

/-- A `memset` of a growth that fits is inside its cache entry, that of a sector that was free or
that of the last block from the end of the file on. -/
theorem memset_of_fits {fs' : Fs} {ino' : InodeDisk} {m : Memset} (grow : ino.length < pos + size)
    (fits : TailFits ino.length pos size) (run : fileGrowth fs ino pos size = .ok (fs', ino'))
    (mem : m ∈ newMemsets fs fs') :
    m.InSector ∧ (fs.free.Writable → growthCalls ino.length (pos + size) ≤ fs.free.freeCount →
      fs.free.Free m.sector ∨ IsTail fs ino ino.length m) := by
  by_cases same : (pos + size) / 512 = ino.length / 512 ∧ ino.length % 512 ≠ 0
  · rw [fileGrowth_tail fs ino grow same] at run
    obtain ⟨short, past⟩ := fits same.1 same.2
    rw [if_pos (by omega)] at run
    obtain ⟨rfl, -⟩ := Prod.mk.inj (Except.ok.inj run)
    rw [newMemsets, Fs.memset, List.drop_left] at mem
    obtain rfl := List.mem_singleton.mp mem
    refine ⟨?_, fun _ _ => .inr ⟨rfl, (Nat.mod_eq_of_lt short).symm, same.2⟩⟩
    constructor <;> simp only <;> omega
  · by_cases high : (pos + size) / 512 < 16513
    · obtain ⟨fs₁, ino₁, eq, filled⟩ := fileGrowth_filled fs ino same (.inl grow) high
      obtain ⟨rfl, -⟩ := Prod.mk.inj (Except.ok.inj (run.symm.trans eq))
      exact filled.newMemsets m mem
    · rw [fileGrowth_fault fs ino same grow (by omega)] at run
      cases run

theorem fillsInSector_of_fits (grow : ino.length < pos + size)
    (fits : TailFits ino.length pos size) : FillsInSector fs ino pos size :=
  fun _ _ run _ mem => (memset_of_fits grow fits run mem).1

/-- A growth that finds its sectors zeroes nothing of a sound file but what is past its end. -/
theorem Maps.fillsPastEnd (maps : Maps fs ino (Upto (bytesToSectors ino.length)))
    (writable : fs.free.Writable) (grow : ino.length < pos + size)
    (fits : TailFits ino.length pos size)
    (room : growthCalls ino.length (pos + size) ≤ fs.free.freeCount) :
    FillsPastEnd fs ino pos size := by
  intro fs' ino' run m mem
  exact maps.pastEnd ((memset_of_fits grow fits run mem).2 writable room)

/-- A file of 100 bytes in sector 2. -/
def smallFile : InodeDisk := ⟨100, 2, 0, 0, false, 1⟩

theorem smallFile_maps : Maps smallFs smallFile (Upto (bytesToSectors smallFile.length)) := by
  refine ⟨fun r R k hr slot => ?_, fun r hr => ?_, fun r r' hr hr' _ => ?_⟩
  all_goals
    have first : ∀ r, Upto (bytesToSectors smallFile.length) r → r = .data 0 := by
      intro r hr
      cases r <;> simp [Upto, bytesToSectors, smallFile] at hr ⊢
      exact hr
  · cases first r hr
    cases slot
  · cases first r hr
    exact ⟨by decide, rfl⟩
  · rw [first r hr, first r' hr']

end ZeroFill

section Limits

/-- `offset + size` of two `off_t` values that are not negative, in 32 bits. -/
def offAdd (offset size : Nat) : Int :=
  if offset + size < 2 ^ 31 then offset + size else offset + size - (2 ^ 32 : Nat)

/-- `inode_write_at`, with the sum of offset and size in 32 bits. -/
def inodeWriteAtOff (fs : Fs) (inode : OpenInode) (buffer : Bytes) (size offset : Nat) :
    Except Fault (Fs × OpenInode × Nat) :=
  if inode.denyWriteCnt ≠ 0 then .ok (fs, inode, 0)
  else do
    let (fs, d) ←
      if (inode.data.length : Int) < offAdd offset size then fileGrowth fs inode.data offset size
      else .ok (fs, inode.data)
    let (fs, written) ← writeChunks d buffer size size offset 0 fs
    .ok (fs, { inode with data := d }, written)

/-- What is asked of a call of `inode_write_at`: the subscripts are inside index blocks, the sum is
exact when the call goes on to write, and a write past the last block is refused. -/
structure WriteInRange (fs : Fs) (inode : OpenInode) (buffer : Bytes) (size offset : Nat) :
    Prop where
  subscripts : ∃ result, inodeWriteAtOff fs inode buffer size offset = .ok result
  exact_ : ∀ fs' inode' w, inodeWriteAtOff fs inode buffer size offset = .ok (fs', inode', w) →
    2 ^ 31 ≤ offset + size → w = 0 ∧ fs' = fs
  refused : ∀ fs' inode' w, inodeWriteAtOff fs inode buffer size offset = .ok (fs', inode', w) →
    0 < size → 16513 * 512 < offset + size → w = 0 ∧ inode' = inode

/-- The calls of `inode_write_at` that stay in range, for a file of length `L`. -/
def WriteFits (L : Nat) (denied : Bool) (size offset : Nat) : Prop :=
  denied = true ∨
    if 2 ^ 31 ≤ offset + size then L ≤ offset
    else if L < offset + size then offset + size < 16513 * 512
    else size = 0 ∨ offset + size ≤ 16513 * 512

/-- The calls of `inode_read_at` that stay in range. -/
def ReadFits (L size offset : Nat) : Prop :=
  size = 0 ∨ L ≤ offset ∨ min L (offset + size) ≤ 16513 * 512

variable {fs : Fs} {d : InodeDisk} {fuel size offset : Nat}

theorem offAdd_of_lt (small : offset + size < 2 ^ 31) :
    offAdd offset size = (offset + size : Nat) := by
  rw [offAdd, if_pos small]
  rfl

theorem offAdd_neg (offset_small : offset < 2 ^ 31) (size_small : size < 2 ^ 31)
    (large : 2 ^ 31 ≤ offset + size) : offAdd offset size < 0 := by
  rw [offAdd, if_neg (by omega)]
  omega

/-- Without overflow the sum is that of the numbers. -/
theorem inodeWriteAtOff_eq (fs : Fs) (inode : OpenInode) (buffer : Bytes)
    (small : offset + size < 2 ^ 31) :
    inodeWriteAtOff fs inode buffer size offset = inodeWriteAt fs inode buffer size offset := by
  unfold inodeWriteAtOff inodeWriteAt extend
  simp only [offAdd_of_lt small, Int.ofNat_lt]
  split
  next => rfl
  next => split <;> rfl

/-- One turn of the loop at a block that there is leaves the question to the others. -/
theorem readFits_chunk {L : Nat} (inside : offset < L)
    (place : offset / 512 < 16513) :
    ReadFits L (size - min size (min (L - offset) (512 - offset % 512)))
        (offset + min size (min (L - offset) (512 - offset % 512))) ↔ ReadFits L size offset := by
  unfold ReadFits
  omega

theorem not_readFits {L : Nat} (some : size ≠ 0) (inside : offset < L)
    (past : ¬offset / 512 < 16513) : ¬ReadFits L size offset := by
  unfold ReadFits
  omega

/-- The loop of `inode_read_at` comes to no block past the last one exactly when the bytes that it
reads end before it. -/
theorem readChunks_ok_iff (fs : Fs) (d : InodeDisk) (enough : size ≤ fuel) (buffer : List UInt8) :
    (∃ bytes, readChunks fs d fuel size offset buffer = .ok bytes) ↔
      ReadFits d.length size offset := by
  induction fuel generalizing size offset buffer with
  | zero => simp [readChunks, ReadFits, Nat.le_zero.mp enough]
  | succ fuel ih =>
    rw [readChunks]
    by_cases none : size = 0
    · simp [none, ReadFits]
    rw [if_neg none]
    by_cases inside : offset < d.length
    · rw [byteToSector_inside fs inside]
      split
      next place =>
        simp only [bind, Except.bind]
        rw [if_neg (by omega), ih (by omega)]
        exact readFits_chunk inside place
      next past =>
        simp only [bind, Except.bind, reduceCtorEq, exists_false, false_iff]
        exact not_readFits none inside past
    · have past : d.length - offset = 0 := by omega
      have out := byteToSector_outside fs (Nat.le_of_not_lt inside)
      have fits : ReadFits d.length size offset := .inr (.inl (by omega))
      simp [out, past, fits, bind, Except.bind]

/-- The loop of `inode_write_at` comes to the same blocks, and writes something when there is
something to write. -/
theorem writeChunks_ok_iff (fs : Fs) (d : InodeDisk) (buffer : Bytes) (enough : size ≤ fuel)
    (written : Nat) :
    (∃ result, writeChunks d buffer fuel size offset written fs = .ok result) ↔
      ReadFits d.length size offset := by
  induction fuel generalizing size offset written fs with
  | zero => simp [writeChunks, ReadFits, Nat.le_zero.mp enough]
  | succ fuel ih =>
    rw [writeChunks]
    by_cases none : size = 0
    · simp [none, ReadFits]
    rw [if_neg none]
    by_cases inside : offset < d.length
    · rw [byteToSector_inside fs inside]
      split
      next place =>
        simp only [bind, Except.bind]
        rw [if_neg (by omega), ih _ (by omega)]
        exact readFits_chunk inside place
      next past =>
        simp only [bind, Except.bind, reduceCtorEq, exists_false, false_iff]
        exact not_readFits none inside past
    · have past : d.length - offset = 0 := by omega
      have out := byteToSector_outside fs (Nat.le_of_not_lt inside)
      have fits : ReadFits d.length size offset := .inr (.inl (by omega))
      simp [out, past, fits, bind, Except.bind]

theorem written_le_of_writeChunks {buffer : Bytes} {written w : Nat} {fs' : Fs}
    (run : writeChunks d buffer fuel size offset written fs = .ok (fs', w)) : written ≤ w := by
  induction fuel generalizing size offset written fs with
  | zero =>
    obtain ⟨-, rfl⟩ := Prod.mk.inj (Except.ok.inj run)
    exact Nat.le_refl written
  | succ fuel ih =>
    rw [writeChunks] at run
    split at run
    next =>
      obtain ⟨-, rfl⟩ := Prod.mk.inj (Except.ok.inj run)
      exact Nat.le_refl written
    next =>
      obtain ⟨sector, -, run⟩ := bind_ok run
      simp only at run
      split at run
      next =>
        obtain ⟨-, rfl⟩ := Prod.mk.inj (Except.ok.inj run)
        exact Nat.le_refl written
      next =>
        have more := ih run
        omega

/-- Bytes inside the file are written before the loop can stop. -/
theorem writeChunks_pos {buffer : Bytes} {w : Nat} {fs' : Fs}
    (inside : offset < d.length) (some : size ≠ 0)
    (run : writeChunks d buffer size size offset 0 fs = .ok (fs', w)) : w ≠ 0 := by
  obtain ⟨fuel, rfl⟩ := Nat.exists_eq_succ_of_ne_zero some
  rw [writeChunks, if_neg some] at run
  obtain ⟨sector, -, run⟩ := bind_ok run
  simp only at run
  split at run
  next => omega
  next =>
    have more := written_le_of_writeChunks run
    omega

/-- Past the end of the file there is nothing to write to. -/
theorem writeChunks_outside {buffer : Bytes} (outside : d.length ≤ offset) :
    writeChunks d buffer size size offset 0 fs = .ok (fs, 0) := by
  cases size with
  | zero => rfl
  | succ size =>
    have out := byteToSector_outside fs outside
    simp [writeChunks, out, Nat.sub_eq_zero_of_le outside, bind, Except.bind]

section Cases

variable {inode : OpenInode} {buffer : Bytes} (allowed : inode.denyWriteCnt = 0)

include allowed

/-- A sum that overflows is negative, and nothing grows. -/
theorem writeInRange_overflow (offset_small : offset < 2 ^ 31) (size_small : size < 2 ^ 31)
    (large : 2 ^ 31 ≤ offset + size) :
    WriteInRange fs inode buffer size offset ↔ inode.data.length ≤ offset := by
  have loop : inodeWriteAtOff fs inode buffer size offset = (do
      let (fs, written) ← writeChunks inode.data buffer size size offset 0 fs
      .ok (fs, { inode with data := inode.data }, written)) := by
    have negative := offAdd_neg offset_small size_small large
    rw [inodeWriteAtOff, if_neg (by omega), if_neg (by omega)]
    rfl
  constructor
  · intro h
    obtain ⟨⟨fs', inode', w⟩, run⟩ := h.subscripts
    have none := (h.exact_ fs' inode' w run large).1
    rw [loop] at run
    obtain ⟨⟨fs₁, w₁⟩, chunks, run⟩ := bind_ok run
    obtain ⟨-, same⟩ := Prod.mk.inj (Except.ok.inj run)
    obtain ⟨-, rfl⟩ := Prod.mk.inj same
    by_contra inside
    exact writeChunks_pos (by omega) (by omega) chunks none
  · intro outside
    rw [writeChunks_outside outside] at loop
    refine ⟨⟨_, loop⟩, fun fs' inode' w run _ => ?_, fun fs' inode' w run _ _ => ?_⟩
    all_goals
      obtain ⟨rfl, same⟩ := Prod.mk.inj (Except.ok.inj (run.symm.trans loop))
      obtain ⟨rfl, rfl⟩ := Prod.mk.inj same
      exact ⟨rfl, rfl⟩

/-- A write inside the file asks for the blocks that it covers. -/
theorem writeInRange_inside (small : offset + size < 2 ^ 31)
    (inside : offset + size ≤ inode.data.length) :
    WriteInRange fs inode buffer size offset ↔ size = 0 ∨ offset + size ≤ 16513 * 512 := by
  have loop : inodeWriteAtOff fs inode buffer size offset = (do
      let (fs, written) ← writeChunks inode.data buffer size size offset 0 fs
      .ok (fs, { inode with data := inode.data }, written)) := by
    rw [inodeWriteAtOff_eq fs inode buffer small, inodeWriteAt, if_neg (by omega), extend,
      if_neg (by omega)]
    rfl
  have chunks : (∃ result, writeChunks inode.data buffer size size offset 0 fs = .ok result) ↔
      ReadFits inode.data.length size offset :=
    writeChunks_ok_iff fs inode.data buffer (Nat.le_refl size) 0
  constructor
  · intro h
    obtain ⟨⟨fs', inode', w⟩, run⟩ := h.subscripts
    rw [loop] at run
    obtain ⟨result, ok, -⟩ := bind_ok run
    have fits := chunks.mp ⟨result, ok⟩
    unfold ReadFits at fits
    omega
  · intro fits
    obtain ⟨⟨fs', w⟩, ok⟩ := chunks.mpr (by
      unfold ReadFits
      omega)
    refine ⟨⟨(fs', { inode with data := inode.data }, w), ?_⟩, by omega, by omega⟩
    rw [loop, ok]
    rfl

/-- A write that extends the file grows it up to the block after its last byte. -/
theorem writeInRange_grow (small : offset + size < 2 ^ 31)
    (grow : inode.data.length < offset + size) :
    WriteInRange fs inode buffer size offset ↔ offset + size < 16513 * 512 := by
  have extends_ : inodeWriteAtOff fs inode buffer size offset = (do
      let (fs, d) ← fileGrowth fs inode.data offset size
      let (fs, written) ← writeChunks d buffer size size offset 0 fs
      .ok (fs, { inode with data := d }, written)) := by
    rw [inodeWriteAtOff_eq fs inode buffer small, inodeWriteAt, if_neg (by omega), extend,
      if_pos grow]
  constructor
  · intro h
    obtain ⟨⟨fs', inode', w⟩, run⟩ := h.subscripts
    rw [extends_] at run
    obtain ⟨⟨fs₁, d⟩, grown, -⟩ := bind_ok run
    by_contra high
    by_cases same : (offset + size) / 512 = inode.data.length / 512 ∧ inode.data.length % 512 ≠ 0
    · rw [fileGrowth_tail fs inode.data grow same, if_neg (by omega)] at grown
      cases grown
    · rw [fileGrowth_fault fs inode.data same grow (by omega)] at grown
      cases grown
  · intro fits
    have grown : ∃ fs₁ d, fileGrowth fs inode.data offset size = .ok (fs₁, d) := by
      by_cases same : (offset + size) / 512 = inode.data.length / 512 ∧
          inode.data.length % 512 ≠ 0
      · rw [fileGrowth_tail fs inode.data grow same, if_pos (by omega)]
        exact ⟨_, _, rfl⟩
      · obtain ⟨fs₁, d, run, -⟩ :=
          fileGrowth_filled fs inode.data same (.inl grow) (by omega)
        exact ⟨fs₁, d, run⟩
    obtain ⟨fs₁, d, grown⟩ := grown
    have length := fileGrowth_length grown
    obtain ⟨⟨fs', w⟩, ok⟩ := (writeChunks_ok_iff fs₁ d buffer (Nat.le_refl size) 0).mpr (by
      unfold ReadFits
      omega : ReadFits d.length size offset)
    refine ⟨⟨(fs', { inode with data := d }, w), ?_⟩, by omega, by omega⟩
    simp only [extends_, grown, ok, bind, Except.bind]

end Cases

/-- A denied write comes to no subscript and no sum. -/
theorem writeInRange_denied {inode : OpenInode} (buffer : Bytes) (denied : inode.denyWriteCnt ≠ 0) :
    WriteInRange fs inode buffer size offset := by
  have none : inodeWriteAtOff fs inode buffer size offset = .ok (fs, inode, 0) := if_pos denied
  refine ⟨⟨_, none⟩, fun fs' inode' w run _ => ?_, fun fs' inode' w run _ _ => ?_⟩
  all_goals
    obtain ⟨rfl, same⟩ := Prod.mk.inj (Except.ok.inj (run.symm.trans none))
    obtain ⟨rfl, rfl⟩ := Prod.mk.inj same
    exact ⟨rfl, rfl⟩

/-- The reads and writes of any inode that stay in range. -/
theorem subscripts_in_range_iff (fs : Fs) (inode : OpenInode) (buffer : Bytes) (size offset : Nat)
    (offset_small : offset < 2 ^ 31) (size_small : size < 2 ^ 31) :
    (WriteInRange fs inode buffer size offset ↔
      WriteFits inode.data.length (inode.denyWriteCnt != 0) size offset) ∧
    ((∃ bytes, inodeReadAt fs inode.data size offset = .ok bytes) ↔
      ReadFits inode.data.length size offset) := by
  constructor
  · unfold WriteFits
    by_cases denied : inode.denyWriteCnt ≠ 0
    · simp [writeInRange_denied buffer denied, denied]
    have allowed : inode.denyWriteCnt = 0 := not_not.mp denied
    rw [allowed]
    simp only [bne_self_eq_false, Bool.false_eq_true, false_or]
    split
    next large => exact writeInRange_overflow allowed offset_small size_small large
    next small =>
      split
      next grow => exact writeInRange_grow allowed (by omega) grow
      next inside => exact writeInRange_inside allowed (by omega) (by omega)
  · rw [inodeReadAt]
    split
    next past =>
      refine ⟨fun _ => .inr (.inl (by omega)), fun _ => ⟨[], rfl⟩⟩
    next => exact readChunks_ok_iff fs inode.data (Nat.le_refl size) []

/-- 500 bytes are written at the end of the file of 100 bytes, and 100 bytes are read. -/
theorem subscripts_in_range_small :
    WriteInRange smallFs ⟨1, false, 0, smallFile⟩ (fun _ => 1) 500 100 ∧
      ∃ bytes, inodeReadAt smallFs smallFile 100 0 = .ok bytes :=
  ⟨(subscripts_in_range_iff smallFs ⟨1, false, 0, smallFile⟩ (fun _ => 1) 500 100 (by decide)
      (by decide)).1.mpr (.inr (by decide)),
    (subscripts_in_range_iff smallFs ⟨1, false, 0, smallFile⟩ (fun _ => 1) 100 0 (by decide)
      (by decide)).2.mpr (.inr (.inr (by decide)))⟩

/-- A byte written after a seek to the end of the last block is not refused. -/
theorem far_write_not_refused :
    ¬WriteInRange smallFs ⟨1, false, 0, smallFile⟩ (fun _ => 1) 1 (16513 * 512) := by
  rw [writeInRange_grow rfl (by decide) (by decide)]
  decide

end Limits

end Pintos.Filesys
