import Pintos.Filesys.NoAlias

/-! The bytes of a file: `inode_read_at`, and what it reads after `inode_write_at` inside the
file. -/

namespace Pintos.Filesys

open Words Role Results

/-- The loop of `inode_read_at`, for at most `fuel` chunks. -/
def readChunks (fs : Fs) (d : InodeDisk) :
    Nat → Nat → Nat → List UInt8 → Except Fault (List UInt8)
  | 0, _, _, buffer => .ok buffer
  | fuel + 1, size, offset, buffer =>
    if size = 0 then .ok buffer
    else do
      let sector ← byteToSector fs d offset
      let sectorOfs := offset % 512
      let chunk := min size (min (d.length - offset) (512 - sectorOfs))
      if chunk = 0 then .ok buffer
      else
        let bytes := (List.range chunk).map fun i => fs.data sector (sectorOfs + i)
        readChunks fs d fuel (size - chunk) (offset + chunk) (buffer ++ bytes)

/-- `inode_read_at`, with the bytes that it copies. -/
def inodeReadAt (fs : Fs) (d : InodeDisk) (size offset : Nat) : Except Fault (List UInt8) :=
  if d.length < offset then .ok [] else readChunks fs d size size offset []

/-- The byte of a file at a position. -/
def byteAt (fs : Fs) (d : InodeDisk) (p : Nat) : UInt8 :=
  fs.data (sectorAt fs d (.data (p / 512))) (p % 512)

variable {fs fs' : Fs} {d : InodeDisk} {U : Role → Prop} {fuel size offset : Nat}

theorem byteAt_congr {d' : InodeDisk} (sector : sectorAt fs' d' (.data (offset / 512)) =
      sectorAt fs d (.data (offset / 512)))
    (data : fs'.data (sectorAt fs d (.data (offset / 512))) =
      fs.data (sectorAt fs d (.data (offset / 512)))) :
    byteAt fs' d' offset = byteAt fs d offset := by
  rw [byteAt, byteAt, sector, data]

/-- The bytes of an inode stay in a call on another one. -/
theorem Files.Others.byteAt {st st' : Files} {s t p : Nat} (h : Files.Others st st' s) (ne : t ≠ s)
    (live : st.live t = true) (inside : p < (st.inode t).length) :
    byteAt st'.fs (st'.inode t) p = byteAt st.fs (st.inode t) p := by
  have refers : st.Refers t (.part (.data (p / 512))) := by
    simp only [Files.Refers, Upto, nextBlock, bytesToSectors]
    omega
  have same := h.sector ne live refers
  rw [Files.sector, h.inode ne live] at same
  rw [h.inode ne live]
  exact byteAt_congr same (h.data t _ ne live refers)

/-- The bytes that were there stay in a growth. -/
theorem Lengthened.byteAt {fs₀ : Fs} {ino₀ : InodeDisk} {U₀ : Role → Prop} {n L p : Nat}
    (h : Lengthened L fs₀ ino₀ U₀ n fs d U) (old : U₀ (.data (p / 512))) (inside : p < L) :
    byteAt fs d p = byteAt fs₀ ino₀ p := by
  have small : p % 512 < 512 := Nat.mod_lt _ (by omega)
  have place : 512 * (p / 512) + p % 512 = p := Nat.div_add_mod p 512
  rw [Filesys.byteAt, (h.old _ old).2, h.kept _ _ old small (by omega), Filesys.byteAt]

/-- The bytes of a chunk are in the sector of its first byte. -/
theorem byteAt_chunk (fs : Fs) (d : InodeDisk) {i : Nat} (same : offset % 512 + i < 512) :
    byteAt fs d (offset + i) =
      fs.data (sectorAt fs d (.data (offset / 512))) (offset % 512 + i) := by
  have block : (offset + i) / 512 = offset / 512 := by omega
  have place : (offset + i) % 512 = offset % 512 + i := by omega
  rw [byteAt, block, place]

theorem readChunks_eq
    (sector : ∀ p < d.length, byteToSector fs d p = .ok (sectorAt fs d (.data (p / 512))))
    (enough : size ≤ fuel) (buffer : List UInt8) :
    readChunks fs d fuel size offset buffer = .ok (buffer ++
      (List.range (min size (d.length - offset))).map fun i => byteAt fs d (offset + i)) := by
  induction fuel generalizing size offset buffer with
  | zero =>
    have none : size = 0 := by omega
    simp [readChunks, none]
  | succ fuel ih =>
    rw [readChunks]
    by_cases none : size = 0
    · simp [none]
    rw [if_neg none]
    by_cases inside : offset < d.length
    · rw [sector offset inside]
      generalize hc : min size (min (d.length - offset) (512 - offset % 512)) = chunk
      simp only [bind, Except.bind]
      rw [hc, if_neg (by omega), ih (by omega), List.append_assoc]
      have rest : min size (d.length - offset) =
          chunk + min (size - chunk) (d.length - (offset + chunk)) := by omega
      rw [rest, List.range_add, List.map_append, List.map_map]
      congr 3
      · refine List.map_congr_left fun i hi => (byteAt_chunk fs d ?_).symm
        have := List.mem_range.mp hi
        omega
      · refine List.map_congr_left fun i _ => ?_
        simp [Nat.add_assoc]
    · have past : d.length - offset = 0 := by omega
      have out := byteToSector_outside fs (Nat.le_of_not_lt inside)
      simp [out, past, bind, Except.bind]

/-- `inode_read_at` returns the bytes of the file, up to its end. -/
theorem inodeReadAt_eq (maps : Maps fs d U) (cover : ∀ p < d.length, U (.data (p / 512)))
    (size offset : Nat) :
    inodeReadAt fs d size offset =
      .ok ((List.range (min size (d.length - offset))).map fun i => byteAt fs d (offset + i)) := by
  rw [inodeReadAt]
  split
  next past =>
    have none : d.length - offset = 0 := by omega
    simp [none]
  next =>
    have sector := fun p inside => maps.byteToSector_eq inside (cover p inside)
    rw [readChunks_eq sector (Nat.le_refl size), List.nil_append]

/-- From `fs` to `fs'` the bytes of the file from `offset` on were replaced by `size` bytes of
`source`, and nothing else changed. -/
structure Wrote (d : InodeDisk) (U : Role → Prop) (source : Bytes) (offset size : Nat)
    (fs fs' : Fs) : Prop where
  free : fs'.free = fs.free
  sector : ∀ r, U r → sectorAt fs' d r = sectorAt fs d r
  frame : ∀ x, (∀ b, U (.data b) → sectorAt fs d (.data b) ≠ x) → fs'.data x = fs.data x
  bytes : ∀ p < d.length, byteAt fs' d p =
    if offset ≤ p ∧ p < offset + size then source (p - offset) else byteAt fs d p

theorem Wrote.maps {source : Bytes} (h : Wrote d U source offset size fs fs') (maps : Maps fs d U) :
    Maps fs' d U := by
  refine maps.of_same h.sector fun s used => ?_
  rw [h.free]
  exact used

/-- A write, and one of the bytes after it. -/
theorem Wrote.trans {source : Bytes} {chunk : Nat} {mid : Fs}
    (h : Wrote d U source offset chunk fs mid)
    (h' : Wrote d U (fun i => source (chunk + i)) (offset + chunk) size mid fs') :
    Wrote d U source offset (chunk + size) fs fs' := by
  refine ⟨h'.free.trans h.free, fun r hr => (h'.sector r hr).trans (h.sector r hr),
    fun x away => ?_, fun p inside => ?_⟩
  · rw [h'.frame x fun b hb => h.sector _ hb ▸ away b hb, h.frame x away]
  · rw [h'.bytes p inside, h.bytes p inside]
    by_cases second : offset + chunk ≤ p ∧ p < offset + chunk + size
    · have place : chunk + (p - (offset + chunk)) = p - offset := by omega
      rw [if_pos second, if_pos (by omega), place]
    · rw [if_neg second]
      by_cases first : offset ≤ p ∧ p < offset + chunk
      · rw [if_pos first, if_pos (by omega)]
      · rw [if_neg first, if_neg (by omega)]

/-- A chunk, which is in one sector. -/
theorem Layout.copyIn (layout : Layout fs d U) {chunk : Nat} (source : Bytes)
    (cover : ∀ p < d.length, U (.data (p / 512))) (mapped : U (.data (offset / 512)))
    (fits : offset % 512 + chunk ≤ 512) :
    Wrote d U source offset chunk fs
      (fs.copyIn (sectorAt fs d (.data (offset / 512))) (offset % 512) chunk source) := by
  generalize hx : sectorAt fs d (.data (offset / 512)) = x
  have away : ∀ R, U R → R.IsIndex → sectorAt fs d R ≠ x := by
    intro R hR index eq
    obtain rfl := layout.distinct R _ hR mapped (eq.trans hx.symm)
    exact index
  have same : ∀ r, U r →
      sectorAt (fs.copyIn x (offset % 512) chunk source) d r = sectorAt fs d r :=
    layout.sectorAt_write away rfl
  refine ⟨rfl, same, fun y other => Fs.put_of_ne _ _ ?_, fun p inside => ?_⟩
  · rintro rfl
    exact other _ mapped hx
  · rw [byteAt, same _ (cover p inside), byteAt]
    by_cases block : p / 512 = offset / 512
    · have place : offset % 512 ≤ p % 512 ∧ p % 512 < offset % 512 + chunk ↔
          offset ≤ p ∧ p < offset + chunk := by omega
      rw [block, hx, Fs.copyIn, Fs.put_self]
      by_cases within : offset ≤ p ∧ p < offset + chunk
      · have index : p % 512 - offset % 512 = p - offset := by omega
        rw [if_pos (place.mpr within), if_pos within, index]
      · rw [if_neg fun h => within (place.mp h), if_neg within]
    · have ne : sectorAt fs d (.data (p / 512)) ≠ x := by
        intro eq
        have role := layout.distinct _ _ (cover p inside) mapped (eq.trans hx.symm)
        exact block (by injection role)
      rw [Fs.copyIn, Fs.put_of_ne _ _ ne, if_neg (by omega)]

/-- The loop of `inode_write_at` inside the file writes all the bytes. -/
theorem Layout.writeChunks (layout : Layout fs d U) (buffer : Bytes)
    (cover : ∀ p < d.length, U (.data (p / 512))) (enough : size ≤ fuel)
    (fits : offset + size ≤ d.length) (written : Nat) :
    ∃ fs', writeChunks d buffer fuel size offset written fs = .ok (fs', written + size) ∧
      Wrote d U (fun i => buffer (written + i)) offset size fs fs' := by
  induction fuel generalizing size offset written fs with
  | zero =>
    obtain rfl : size = 0 := by omega
    exact ⟨fs, rfl, rfl, fun _ _ => rfl, fun _ _ => rfl, fun p _ => by rw [if_neg (by omega)]⟩
  | succ fuel ih =>
    rw [Filesys.writeChunks]
    by_cases none : size = 0
    · subst none
      exact ⟨fs, rfl, rfl, fun _ _ => rfl, fun _ _ => rfl, fun p _ => by rw [if_neg (by omega)]⟩
    have inside : offset < d.length := by omega
    have mapped := cover offset inside
    rw [if_neg none, layout.byteToSector_eq inside mapped]
    generalize hc : min size (min (d.length - offset) (512 - offset % 512)) = chunk
    have within : offset % 512 + chunk ≤ 512 := by omega
    have first := layout.copyIn (fun i => buffer (written + i)) cover mapped within
    have left : offset + chunk + (size - chunk) ≤ d.length := by omega
    obtain ⟨fs', run, rest⟩ := ih (layout.of_same first.sector) (by omega) left (written + chunk)
    have total : written + chunk + (size - chunk) = written + size := by omega
    have both : chunk + (size - chunk) = size := by omega
    refine ⟨fs', ?_, ?_⟩
    · simp only [bind, Except.bind]
      rw [hc, if_neg (by omega), run, total]
    · rw [← both]
      apply first.trans
      simpa only [Nat.add_assoc] using rest

/-- Inside the file the loop of `inode_write_at` does not stop before all is written. -/
theorem writeChunks_written {buffer : Bytes} {written w : Nat} (enough : size ≤ fuel)
    (fits : offset + size ≤ d.length)
    (run : writeChunks d buffer fuel size offset written fs = .ok (fs', w)) :
    w = written + size := by
  induction fuel generalizing size offset written fs with
  | zero =>
    obtain ⟨_, rfl⟩ := Prod.mk.inj (Except.ok.inj run)
    omega
  | succ fuel ih =>
    rw [writeChunks] at run
    split at run
    next none =>
      obtain ⟨_, rfl⟩ := Prod.mk.inj (Except.ok.inj run)
      omega
    next =>
      obtain ⟨sector, _, run⟩ := bind_ok run
      simp only at run
      split at run
      next => omega
      next =>
        have rest := ih (by omega) (by omega) run
        omega

theorem allocPointer_lt (fs : Fs) {old : Nat} (small : old < 2 ^ 32) :
    (fs.allocPointer old).2 < 2 ^ 32 := by
  rw [Fs.allocPointer]
  split
  next m s alloc => exact Nat.lt_of_lt_of_le (FreeMap.allocate_lt alloc) fs.free.small
  next => exact small

/-- `file_growth` sets the length to the end of the write, and pointers to sectors. -/
theorem fileGrowth_inode {ino : InodeDisk} {pos : Nat}
    (run : fileGrowth fs ino pos size = .ok (fs', d)) :
    ∃ sp ind din, d = { ino with length := pos + size, sp := sp, ind := ind, din := din } ∧
      (ino.sp < 2 ^ 32 → sp < 2 ^ 32) ∧ (ino.ind < 2 ^ 32 → ind < 2 ^ 32) ∧
      (ino.din < 2 ^ 32 → din < 2 ^ 32) := by
  have direct : ∀ fs ino length current, ∃ sp,
      (growDirect fs ino length current).2.1 = { ino with sp := sp } ∧
        (ino.sp < 2 ^ 32 → sp < 2 ^ 32) := by
    intro fs ino length current
    refine ⟨(if length = 0 then fs.allocPointer ino.sp else (fs, ino.sp)).2, ?_, fun small => ?_⟩
    · unfold growDirect
      simp only
      split <;> rfl
    · split
      next => exact allocPointer_lt fs small
      next => exact small
  have index : ∀ (fs : Fs) (old : Nat) (c : Prop) [Decidable c], old < 2 ^ 32 →
      (if c then fs.allocPointer old else (fs, old)).2 < 2 ^ 32 := by
    intro fs old c _ small
    split
    next => exact allocPointer_lt fs small
    next => exact small
  rw [fileGrowth] at run
  simp only at run
  split at run
  next =>
    obtain ⟨sid, _, run⟩ := bind_ok run
    obtain ⟨_, rfl⟩ := Prod.mk.inj (Except.ok.inj run)
    exact ⟨ino.sp, ino.ind, ino.din, rfl, id, id, id⟩
  next =>
    obtain ⟨sp, eq, small⟩ := direct fs { ino with length := pos + size } ino.length
      (ino.length / 512)
    rw [eq] at run
    simp only at run
    split at run
    next =>
      obtain ⟨_, rfl⟩ := Prod.mk.inj (Except.ok.inj run)
      exact ⟨sp, ino.ind, ino.din, rfl, small, id, id⟩
    next =>
      split at run
      next =>
        obtain ⟨fs₁, _, run⟩ := bind_ok run
        obtain ⟨_, rfl⟩ := Prod.mk.inj (Except.ok.inj run)
        exact ⟨sp, _, ino.din, rfl, small, index _ _ _, id⟩
      next =>
        obtain ⟨⟨fs₁, length, current⟩, _, run⟩ := bind_ok run
        simp only at run
        split at run
        next =>
          obtain ⟨_, rfl⟩ := Prod.mk.inj (Except.ok.inj run)
          exact ⟨sp, _, ino.din, rfl, small, index _ _ _, id⟩
        next =>
          obtain ⟨⟨fs₂, current'⟩, _, run⟩ := bind_ok run
          obtain ⟨fs₃, _, run⟩ := bind_ok run
          obtain ⟨fs₄, _, run⟩ := bind_ok run
          obtain ⟨fs₅, _, run⟩ := bind_ok run
          obtain ⟨_, rfl⟩ := Prod.mk.inj (Except.ok.inj run)
          exact ⟨sp, _, _, rfl, small, index _ _ _, index _ _ _⟩

theorem fileGrowth_length {ino : InodeDisk} {pos : Nat}
    (run : fileGrowth fs ino pos size = .ok (fs', d)) : d.length = pos + size := by
  obtain ⟨_, _, _, rfl, _⟩ := fileGrowth_inode run
  rfl

/-- A file that a write may have to extend has the length for it then. -/
theorem extend_length {ino : InodeDisk} (run : extend fs ino size offset = .ok (fs', d)) :
    d.length = max ino.length (offset + size) := by
  rw [extend] at run
  split at run
  next =>
    have length := fileGrowth_length run
    omega
  next =>
    obtain ⟨_, rfl⟩ := Prod.mk.inj (Except.ok.inj run)
    omega

/-- `inode_write_at` that is not denied writes all its bytes. -/
theorem inodeWriteAt_written {inode inode' : OpenInode} {buffer : Bytes} {w : Nat}
    (allowed : inode.denyWriteCnt = 0)
    (run : inodeWriteAt fs inode buffer size offset = .ok (fs', inode', w)) : w = size := by
  rw [inodeWriteAt, if_neg (by simp [allowed])] at run
  obtain ⟨⟨fs₁, d⟩, start, run⟩ := bind_ok run
  obtain ⟨⟨fs₂, w'⟩, chunks, run⟩ := bind_ok run
  obtain ⟨_, same⟩ := Prod.mk.inj (Except.ok.inj run)
  obtain ⟨_, rfl⟩ := Prod.mk.inj same
  have length := extend_length start
  have all := writeChunks_written (Nat.le_refl size) (by omega) chunks
  omega

end Pintos.Filesys
