import Pintos.Filesys.GrowthBounds
import Pintos.Filesys.ReadWrite

/-! The contents of a file as one list of bytes: `inode_read_at` copies a slice of it, and
`inode_write_at` inside the file replaces one. -/

namespace Pintos.Filesys

open Words Role Threads

section Contents

/-- The contents of a file: its block sectors one after the other, cut to its length. -/
def contents (fs : Fs) (d : InodeDisk) : List UInt8 :=
  ((List.range (bytesToSectors d.length)).flatMap fun b =>
    (List.range 512).map (fs.data (sectorAt fs d (.data b)))).take d.length

/-- Blocks of 512 elements each, one after the other. -/
theorem flatMap_blocks {α : Type} (f : Nat → Nat → α) (n : Nat) :
    ((List.range n).flatMap fun b => (List.range 512).map (f b)) =
      (List.range (n * 512)).map fun p => f (p / 512) (p % 512) := by
  induction n with
  | zero => rfl
  | succ n ih =>
    have last : List.range (n + 1) = List.range n ++ [n] := List.range_succ
    rw [last, List.flatMap_append, ih, Nat.succ_mul, List.range_add, List.map_append, List.map_map,
      List.flatMap_singleton]
    refine congrArg (_ ++ ·) (List.map_congr_left fun i hi => ?_)
    have small := List.mem_range.mp hi
    have block : (n * 512 + i) / 512 = n := by omega
    have place : (n * 512 + i) % 512 = i := by omega
    simp only [Function.comp_apply, block, place]

theorem contents_eq (fs : Fs) (d : InodeDisk) :
    contents fs d = (List.range d.length).map (byteAt fs d) := by
  have enough : min d.length (bytesToSectors d.length * 512) = d.length := by
    unfold bytesToSectors
    omega
  rw [contents, flatMap_blocks (fun b => fs.data (sectorAt fs d (.data b))), ← List.map_take,
    List.take_range, enough]
  rfl

/-- A slice of the contents. -/
theorem contents_slice (fs : Fs) (d : InodeDisk) (size offset : Nat) :
    ((contents fs d).drop offset).take size =
      (List.range (min size (d.length - offset))).map fun i => byteAt fs d (offset + i) := by
  rw [contents_eq, ← List.map_drop, ← List.map_take]
  have slice : ((List.range d.length).drop offset).take size =
      (List.range (min size (d.length - offset))).map (offset + ·) := by
    apply List.ext_getElem
    · simp
    · intro i _ _
      simp
  rw [slice, List.map_map]
  rfl

/-- Elements replaced by others between two places. -/
theorem map_range_splice {α : Type} (f g : Nat → α) {offset size n : Nat}
    (fits : offset + size ≤ n) :
    ((List.range n).map fun p => if offset ≤ p ∧ p < offset + size then g (p - offset) else f p) =
      ((List.range n).map f).take offset ++ (List.range size).map g ++
        ((List.range n).map f).drop (offset + size) := by
  obtain ⟨rest, rfl⟩ := Nat.exists_eq_add_of_le fits
  have front : ((List.range (offset + size + rest)).map f).take offset =
      (List.range offset).map f := by
    have low : min offset (offset + size + rest) = offset := by omega
    rw [← List.map_take, List.take_range, low]
  have back : ((List.range (offset + size + rest)).map f).drop (offset + size) =
      (List.range rest).map fun i => f (offset + size + i) := by
    rw [List.range_add, List.map_append, List.drop_left' (by simp), List.map_map]
    rfl
  rw [front, back, List.range_add, List.range_add, List.map_append, List.map_append, List.map_map,
    List.map_map]
  congr 1
  · congr 1
    · refine List.map_congr_left fun p hp => ?_
      have low := List.mem_range.mp hp
      rw [if_neg (by omega)]
    · refine List.map_congr_left fun i hi => ?_
      have low := List.mem_range.mp hi
      simp only [Function.comp_apply]
      rw [if_pos (by omega), Nat.add_sub_cancel_left]
  · refine List.map_congr_left fun i _ => ?_
    simp only [Function.comp_apply]
    rw [if_neg (by omega)]

end Contents

section Read

/-- `memcpy (buffer + start, source, count)`. -/
def memcpy (buffer : Bytes) (start count : Nat) (source : Bytes) : Bytes := fun i =>
  if start ≤ i ∧ i < start + count then source (i - start) else buffer i

/-- What a call of `inode_read_at` works on. -/
structure ReadState where
  fs : Fs
  inode : InodeDisk
  io : Monitor
  buffer : Bytes

/-- `chunk_size`, from what is left of the request, of the file and of the sector. -/
def chunkSize (size inodeLeft sectorLeft : Int) : Int :=
  let minLeft := if inodeLeft < sectorLeft then inodeLeft else sectorLeft
  if size < minLeft then size else minLeft

/-- The loop of `inode_read_at`, with no result while it needs more than `fuel` rounds. -/
def readLoop : Nat → ReadState → Int → Nat → Nat → Option (Except Fault (ReadState × Nat))
  | 0, _, _, _, _ => none
  | fuel + 1, st, size, offset, bytesRead =>
    if 0 < size then
      match byteToSector st.fs st.inode offset with
      | .error fault => some (.error fault)
      | .ok sector =>
        let sectorOfs := offset % 512
        let chunk := chunkSize size (st.inode.length - offset) (512 - sectorOfs)
        if chunk ≤ 0 then some (.ok (st, bytesRead))
        else
          let buffer := memcpy st.buffer bytesRead chunk.toNat fun i =>
            st.fs.data sector (sectorOfs + i)
          readLoop fuel { st with buffer := buffer } (size - chunk) (offset + chunk.toNat)
            (bytesRead + chunk.toNat)
    else some (.ok (st, bytesRead))

/-- `inode_read_at` by thread `t`.  There is no result while the thread waits for the lock
either. -/
def inodeReadCall (t : Tid) (fuel : Nat) (st : ReadState) (size : Int) (offset : Nat) :
    Option (Except Fault (ReadState × Nat)) := do
  let io ← readInode st.io t
  let st := { st with io := io }
  let result ←
    if st.inode.length < offset then some (.ok (st, 0)) else readLoop fuel st size offset 0
  match result with
  | .error fault => some (.error fault)
  | .ok (st, bytesRead) =>
    let io ← readEnd st.io t
    some (.ok ({ st with io := io }, bytesRead))

theorem chunkSize_eq (size inodeLeft sectorLeft : Int) :
    chunkSize size inodeLeft sectorLeft = min size (min inodeLeft sectorLeft) := by
  unfold chunkSize
  simp only
  split <;> split <;> omega

theorem memcpy_zero (buffer : Bytes) (start : Nat) (source : Bytes) :
    memcpy buffer start 0 source = buffer := by
  funext i
  exact if_neg (by omega)

/-- A copy, and one of the bytes after it. -/
theorem memcpy_memcpy (buffer : Bytes) (start count more : Nat) (source : Bytes) :
    memcpy (memcpy buffer start count source) (start + count) more
      (fun i => source (count + i)) = memcpy buffer start (count + more) source := by
  funext i
  simp only [memcpy]
  by_cases second : start + count ≤ i ∧ i < start + count + more
  · have place : count + (i - (start + count)) = i - start := by omega
    rw [if_pos second, if_pos (by omega), place]
  · rw [if_neg second]
    by_cases first : start ≤ i ∧ i < start + count
    · rw [if_pos first, if_pos (by omega)]
    · rw [if_neg first, if_neg (by omega)]

/-- The copy of a chunk has the bytes of the file. -/
theorem memcpy_chunk (st : ReadState) {offset chunk : Nat} (start : Nat)
    (fits : offset % 512 + chunk ≤ 512) :
    (memcpy st.buffer start chunk fun i =>
      st.fs.data (sectorAt st.fs st.inode (.data (offset / 512))) (offset % 512 + i)) =
        memcpy st.buffer start chunk fun i => byteAt st.fs st.inode (offset + i) := by
  funext i
  simp only [memcpy]
  split
  next range => exact (byteAt_chunk st.fs st.inode (by omega)).symm
  next => rfl

/-- The loop copies what there is from `offset` on, and comes to its end. -/
theorem readLoop_eq (st : ReadState) (range : st.inode.length ≤ 16513 * 512)
    {fuel offset : Nat} {size : Int} (enough : size.toNat < fuel)
    (inside : offset ≤ st.inode.length) (bytesRead : Nat) :
    readLoop fuel st size offset bytesRead =
      some (.ok ({ st with
        buffer := memcpy st.buffer bytesRead (min size.toNat (st.inode.length - offset)) fun i =>
          byteAt st.fs st.inode (offset + i) },
        bytesRead + min size.toNat (st.inode.length - offset))) := by
  induction fuel generalizing st offset size bytesRead with
  | zero => omega
  | succ fuel ih =>
    rw [readLoop]
    by_cases some : 0 < size
    swap
    · have none : size.toNat = 0 := by omega
      rw [if_neg some, none, Nat.zero_min, memcpy_zero, Nat.add_zero]
    rw [if_pos some]
    by_cases before : offset < st.inode.length
    swap
    · have out := byteToSector_outside st.fs (Nat.le_of_not_lt before)
      have none : st.inode.length - offset = 0 := by omega
      simp only [out, none, Nat.min_zero, memcpy_zero, Nat.add_zero, chunkSize_eq]
      exact if_pos (by omega)
    have block : offset / 512 < 16513 := by omega
    have sector : byteToSector st.fs st.inode offset =
        .ok (sectorAt st.fs st.inode (.data (offset / 512))) := by
      rw [byteToSector_inside st.fs before, if_pos block]
    obtain ⟨chunk, eq, pos⟩ : ∃ chunk : Nat,
        chunk = min size.toNat (min (st.inode.length - offset) (512 - offset % 512)) ∧ 0 < chunk :=
      ⟨_, rfl, by omega⟩
    have first :
        chunkSize size (st.inode.length - offset) (512 - (offset % 512 : Nat)) = chunk := by
      rw [chunkSize_eq]
      omega
    have total : min size.toNat (st.inode.length - offset) =
        chunk + min (size - chunk).toNat (st.inode.length - (offset + chunk)) := by omega
    simp only [sector, first]
    rw [if_neg (by omega), Int.toNat_natCast, memcpy_chunk st bytesRead (by omega), total,
      ← memcpy_memcpy]
    have rest := ih { st with
      buffer := memcpy st.buffer bytesRead chunk fun i => byteAt st.fs st.inode (offset + i) } range
      (by omega : (size - chunk).toNat < fuel) (by omega : offset + chunk ≤ st.inode.length)
      (bytesRead + chunk)
    simpa only [Nat.add_assoc] using rest

/-- `read_end` after `read_inode` has `read_cnt` as it was. -/
theorem readEnd_readInode {m : Monitor} {t : Tid} (outside : m.pc t = .outside)
    (unlocked : m.holder = none) :
    ∃ m₁ m₂, readInode m t = some m₁ ∧ readEnd m₁ t = some m₂ ∧ m₂.readCnt = m.readCnt := by
  have enter : readInode m t = some ({ m with readCnt := m.readCnt + 1 }.at_ t .reading) :=
    if_pos ⟨outside, unlocked⟩
  have reading : ({ m with readCnt := m.readCnt + 1 }.at_ t .reading).pc t = .reading := by
    rw [Monitor.at_pc, if_pos rfl]
  refine ⟨_, _, enter, if_pos ⟨reading, unlocked⟩, ?_⟩
  have signal : ∀ m : Monitor, m.signal.readCnt = m.readCnt := by
    intro m
    rw [Monitor.signal]
    split <;> rfl
  have counted : m.readCnt + 1 - 1 = m.readCnt := by omega
  split
  next => rw [signal]; exact counted
  next => exact counted

/-- A read of any size at any offset comes to its end with the bytes of the file that there are, and
changes nothing else. -/
theorem read_returns_slice (t : Tid) (st : ReadState) (size : Int) (offset : Nat)
    (outside : st.io.pc t = .outside) (unlocked : st.io.holder = none)
    (range : st.inode.length ≤ 16513 * 512) :
    ∃ st' result fuel, (∀ more, fuel ≤ more →
        inodeReadCall t more st size offset = some (.ok (st', result))) ∧
      (result : Int) = max 0 (min size (st.inode.length - offset)) ∧
      (List.range result).map st'.buffer = ((contents st.fs st.inode).drop offset).take result ∧
      (∀ i, result ≤ i → st'.buffer i = st.buffer i) ∧
      st'.fs = st.fs ∧ st'.inode = st.inode ∧ st'.io.readCnt = st.io.readCnt := by
  obtain ⟨m₁, m₂, enter, leave, counted⟩ := readEnd_readInode outside unlocked
  generalize hn : min size.toNat (st.inode.length - offset) = result
  refine ⟨{ st with
      io := m₂, buffer := memcpy st.buffer 0 result fun i => byteAt st.fs st.inode (offset + i) },
    result, size.toNat + 1, fun more enough => ?_, by omega, ?_, fun i beyond => ?_, rfl, rfl,
    counted⟩
  · simp only [inodeReadCall, enter, Option.bind_eq_bind, Option.bind_some]
    by_cases past : st.inode.length < offset
    · have none : result = 0 := by omega
      rw [if_pos past, none, memcpy_zero]
      simp only [Option.bind_some, leave]
    · rw [if_neg past, readLoop_eq { st with io := m₁ } range (by omega) (by simp only; omega), hn,
        Nat.zero_add]
      simp only [Option.bind_some, leave]
  · rw [contents_slice]
    have all : min result (st.inode.length - offset) = result := by omega
    rw [all]
    refine List.map_congr_left fun i hi => ?_
    have low := List.mem_range.mp hi
    exact if_pos (by omega)
  · exact if_neg (by omega)

/-- The file of 100 bytes, which nobody reads or writes. -/
def smallRead : ReadState := ⟨smallFs, smallFile, .init, fun _ => 7⟩

/-- Of 50 bytes from offset 80 on there are 20. -/
theorem read_returns_slice_end :
    ∃ st' fuel, inodeReadCall 1 fuel smallRead 50 80 = some (.ok (st', 20)) := by
  obtain ⟨st', result, fuel, returns, count, -⟩ :=
    read_returns_slice 1 smallRead 50 80 rfl rfl (by decide)
  have length : smallRead.inode.length = 100 := rfl
  obtain rfl : result = 20 := by omega
  exact ⟨st', fuel, returns fuel (Nat.le_refl fuel)⟩

/-- `inode_read_at` of the smaller model has the same slice. -/
theorem inodeReadAt_slice (fs : Fs) (d : InodeDisk) (range : d.length ≤ 16513 * 512)
    (size offset : Nat) :
    inodeReadAt fs d size offset = .ok (((contents fs d).drop offset).take size) := by
  have sector : ∀ p < d.length, byteToSector fs d p = .ok (sectorAt fs d (.data (p / 512))) := by
    intro p inside
    rw [byteToSector_inside fs inside, if_pos (by omega)]
  rw [contents_slice, inodeReadAt]
  split
  next past =>
    have none : d.length - offset = 0 := by omega
    simp [none]
  next => rw [readChunks_eq sector (Nat.le_refl size), List.nil_append]

end Read

section Write

variable {fs : Fs}

/-- Files whose sectors a write did not touch keep their contents. -/
theorem contents_frame {fs' : Fs} {d : InodeDisk}
    (same : ∀ r, Upto (bytesToSectors d.length) r →
      fs'.data (sectorAt fs d r) = fs.data (sectorAt fs d r)) :
    contents fs' d = contents fs d := by
  have sector : ∀ r, Upto (bytesToSectors d.length) r → sectorAt fs' d r = sectorAt fs d r :=
    fun r hr => sectorAt_congr (fun r R k hr slot => hr.closed slot)
      (fun r _ => sectorAt_direct fs fs' d)
      (fun r R k hr slot => by rw [same R (hr.closed slot)]) hr
  rw [contents_eq, contents_eq]
  refine List.map_congr_left fun p hp => ?_
  have inside := List.mem_range.mp hp
  have block : Upto (bytesToSectors d.length) (.data (p / 512)) := by
    simp only [Upto, bytesToSectors]
    omega
  exact byteAt_congr (sector _ block) (same _ block)

/-- A write inside a file replaces the slice, other files stay, and a read has the bytes written. -/
theorem write_replaces_slice (inode : OpenInode) (buffer : Bytes) (size offset : Nat)
    (allowed : inode.denyWriteCnt = 0) (range : inode.data.length ≤ 16513 * 512)
    (distinct : ∀ r r', Upto (bytesToSectors inode.data.length) r →
      Upto (bytesToSectors inode.data.length) r' →
        sectorAt fs inode.data r = sectorAt fs inode.data r' → r = r')
    (fits : offset + size ≤ inode.data.length) :
    ∃ fs', inodeWriteAt fs inode buffer size offset = .ok (fs', inode, size) ∧
      fs'.free = fs.free ∧
      contents fs' inode.data = (contents fs inode.data).take offset ++
        (List.range size).map buffer ++ (contents fs inode.data).drop (offset + size) ∧
      (∀ d, (∀ r r', Upto (bytesToSectors d.length) r →
          Upto (bytesToSectors inode.data.length) r' →
            sectorAt fs d r ≠ sectorAt fs inode.data r') →
        contents fs' d = contents fs d) ∧
      ∀ t st, st.fs = fs' → st.inode = inode.data → st.io.pc t = .outside → st.io.holder = none →
        ∃ st' fuel, (∀ more, fuel ≤ more →
            inodeReadCall t more st size offset = some (.ok (st', size))) ∧
          (List.range size).map st'.buffer = (List.range size).map buffer := by
  have layout : Layout fs inode.data (Upto (bytesToSectors inode.data.length)) := by
    refine ⟨fun r R k hr slot => ⟨hr.closed slot, hr.subscript ?_ slot⟩, distinct⟩
    unfold bytesToSectors
    omega
  have cover : ∀ p < inode.data.length,
      Upto (bytesToSectors inode.data.length) (.data (p / 512)) := by
    intro p inside
    simp only [Upto, bytesToSectors]
    omega
  obtain ⟨fs', run, wrote⟩ := layout.writeChunks buffer cover (Nat.le_refl size) fits 0
  rw [Nat.zero_add] at run
  simp only [Nat.zero_add] at wrote
  refine ⟨fs', ?_, wrote.free, ?_, fun d apart => contents_frame fun r hr => ?_,
    fun t st sectors file outside unlocked => ?_⟩
  · have short : extend fs inode.data size offset = .ok (fs, inode.data) := if_neg (by omega)
    rw [inodeWriteAt, if_neg (not_not.mpr allowed), short]
    simp only [run, bind, Except.bind]
  · rw [contents_eq, contents_eq, ← map_range_splice _ _ fits]
    exact List.map_congr_left fun p hp => wrote.bytes p (List.mem_range.mp hp)
  · exact wrote.frame _ fun b hb => (apart r (.data b) hr hb).symm
  · obtain ⟨st', result, fuel, returns, count, slice, -⟩ :=
      read_returns_slice t st size offset outside unlocked (by rw [file]; exact range)
    rw [file] at count slice
    obtain rfl : result = size := by omega
    refine ⟨st', fuel, returns, slice.trans ?_⟩
    have all : min result (inode.data.length - offset) = result := by omega
    rw [contents_slice, sectors, all]
    refine List.map_congr_left fun i hi => ?_
    have low := List.mem_range.mp hi
    rw [wrote.bytes _ (by omega), if_pos (by omega), Nat.add_sub_cancel_left]

/-- 50 bytes from offset 30 on are replaced. -/
theorem write_replaces_slice_small :
    ∃ fs', inodeWriteAt smallFs ⟨1, false, 0, smallFile⟩ (fun _ => 1) 50 30 =
        .ok (fs', ⟨1, false, 0, smallFile⟩, 50) ∧
      contents fs' smallFile = (contents smallFs smallFile).take 30 ++
        (List.range 50).map (fun _ => 1) ++ (contents smallFs smallFile).drop 80 := by
  obtain ⟨fs', run, -, slice, -⟩ := write_replaces_slice ⟨1, false, 0, smallFile⟩ (fun _ => 1) 50 30
    rfl (by decide) smallFile_maps.distinct (by decide)
  exact ⟨fs', run, slice⟩

end Write

end Pintos.Filesys
