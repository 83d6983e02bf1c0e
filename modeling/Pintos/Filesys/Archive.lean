import Pintos.Lib.CStrings

/-! `fsutil_append` of `fsutil.c`, which writes files one after the other to the scratch device, and
what the device then holds. -/

namespace Pintos.Filesys

open Words CStrings ByteFiles

abbrev Sector := Fin 512 → UInt8

def Sector.zero : Sector := fun _ => 0

/-- The sector that is written from memory. -/
def Sector.ofBytes (buffer : Bytes) : Sector := fun i => buffer i

/-- The memory into which a sector is read. -/
def Sector.into (s : Sector) (buffer : Bytes) : Bytes := fun i =>
  if h : i < 512 then s ⟨i, h⟩ else buffer i

theorem Sector.ofBytes_into (s : Sector) (buffer : Bytes) : ofBytes (s.into buffer) = s := by
  funext i
  exact dif_pos i.isLt

/-- What `ustar_parse_header` finds: an error, or the type with the name and the size. -/
inductive UstarHeader
  | error
  | eof
  | directory (name : CString)
  | regular (name : CString) (size : Nat)

/-- `ustar_make_header` for a regular file, which fails for a name that is too long, and
`ustar_parse_header`, of the library. -/
structure Ustar where
  makeHeader : CString → Nat → Option Sector
  parseHeader : Sector → UstarHeader

structure Ustar.Lawful (u : Ustar) : Prop where
  inverse : ∀ name size header, size < 2 ^ 31 → u.makeHeader name size = some header →
    u.parseHeader header = .regular name size
  eof : u.parseHeader Sector.zero = .eof

/-- The scratch device. -/
structure Scratch where
  size : Nat
  sector : Nat → Sector

def Scratch.set (dev : Scratch) (n : Nat) (s : Sector) : Scratch :=
  { dev with sector := Function.update dev.sector n s }

/-- `block_read` and `block_write`, which panic past the end of the device. -/
def Scratch.blockRead (dev : Scratch) (sector : Nat) (buffer : Bytes) : Option Bytes :=
  if sector < dev.size then some ((dev.sector sector).into buffer) else none

def Scratch.blockWrite (dev : Scratch) (sector : Nat) (buffer : Bytes) : Option Scratch :=
  if sector < dev.size then some (dev.set sector (.ofBytes buffer)) else none

/-- A call of `fsutil_append`: the name, the file that `filesys_open` returns for it, and the
memory from the block on that `malloc` returns. -/
structure AppendCall where
  name : CString
  file : ByteFile
  small : file.length < 2 ^ 31
  buffer : Option Bytes

/-- The number of sectors for so many bytes. -/
def dataSectors (size : Nat) : Nat := (size + 511) / 512

def AppendCall.sectors (call : AppendCall) : Nat := 1 + dataSectors call.file.length

/-- The sectors of an archive before its end. -/
def archiveSize (calls : List AppendCall) : Nat := (calls.map AppendCall.sectors).sum

/-- The copy loop of `fsutil_append`, from `ofs` in the file on. -/
def appendData (file : ByteFile) :
    Nat → Scratch → Nat → Nat → Nat → Bytes → Option (Scratch × Nat × Bytes)
  | 0, dev, sector, _, _, buffer => some (dev, sector, buffer)
  | fuel + 1, dev, sector, size, ofs, buffer =>
    if size = 0 then some (dev, sector, buffer)
    else
      let chunkSize := min size 512
      if dev.size ≤ sector then none
      else
        let (count, buffer) := file.readAt buffer chunkSize ofs
        if count ≠ chunkSize then none
        else
          let buffer := fillZero buffer chunkSize (512 - chunkSize)
          (dev.blockWrite sector buffer).bind fun dev =>
            appendData file fuel dev (sector + 1) (size - chunkSize) (ofs + chunkSize) buffer

/-- `fsutil_append`, with the device and its `sector`.  There is no result after a panic. -/
def fsutilAppend (u : Ustar) (call : AppendCall) (dev : Scratch) (sector : Nat) :
    Option (Scratch × Nat) := do
  let buffer ← call.buffer
  let size := call.file.length
  let header ← u.makeHeader call.name size
  let buffer := header.into buffer
  let dev ← dev.blockWrite sector buffer
  let (dev, sector, buffer) ← appendData call.file size dev (sector + 1) size 0 buffer
  let buffer := fillZero buffer 0 512
  let dev ← dev.blockWrite sector buffer
  -- the second sector of the marker goes to the same place, from the byte behind on
  let dev ← dev.blockWrite sector fun i => buffer (i + 1)
  return (dev, sector)

def appendAll (u : Ustar) : List AppendCall → Scratch → Nat → Option (Scratch × Nat)
  | [], dev, sector => some (dev, sector)
  | call :: calls, dev, sector =>
    (fsutilAppend u call dev sector).bind fun (dev, sector) => appendAll u calls dev sector

/-- A part of a file, with zeros behind its end. -/
def dataSector (file : ByteFile) (k : Nat) : Sector := fun i =>
  if 512 * k + i < file.length then file.bytes (512 * k + i) else 0

/-- From a sector on there is a header and the data for each file. -/
def FilesAt (u : Ustar) (dev : Scratch) : Nat → List AppendCall → Prop
  | _, [] => True
  | n, call :: calls =>
    u.makeHeader call.name call.file.length = some (dev.sector n) ∧
      (∀ k < dataSectors call.file.length, dev.sector (n + 1 + k) = dataSector call.file k) ∧
      FilesAt u dev (n + call.sectors) calls

/-- The archive of the files, with its end. -/
def ArchiveAt (u : Ustar) (dev : Scratch) (n : Nat) (calls : List AppendCall) : Prop :=
  FilesAt u dev n calls ∧ dev.sector (n + archiveSize calls) = .zero ∧
    dev.sector (n + archiveSize calls + 1) = .zero

/-- What the last `fsutil_append` leaves as the end of the archive: zeros, and the byte behind its
buffer. -/
def markerSector (buffer : Bytes) : Sector := fun i => if i = 511 then buffer 512 else 0

/-- `fsutil_append` gets its memory, and the name fits in a header. -/
def AppendCall.Granted (u : Ustar) (call : AppendCall) : Prop :=
  call.buffer ≠ none ∧ u.makeHeader call.name call.file.length ≠ none

/-- The end of the archive is zero: the byte behind the buffer of the last call, or without calls
the first sector of the device, and the sector behind, which `fsutil_append` does not write. -/
structure BlankEnd (dev : Scratch) (calls : List AppendCall) : Prop where
  stray : ∀ call ∈ calls.getLast?, ∀ buffer ∈ call.buffer, buffer 512 = 0
  first : calls = [] → dev.sector 0 = .zero
  second : dev.sector (archiveSize calls + 1) = .zero

/-- Only the sectors from `n` on before `m` are written. -/
structure Scratch.Writes (dev dev' : Scratch) (n m : Nat) : Prop where
  size : dev'.size = dev.size
  before : ∀ j < n, dev'.sector j = dev.sector j
  behind : ∀ j, m ≤ j → dev'.sector j = dev.sector j

section Appends

variable {u : Ustar} {dev dev' dev'' : Scratch} {call : AppendCall} {calls : List AppendCall}
  {n m l : Nat} {buffer : Bytes}

@[simp] theorem Scratch.set_size (dev : Scratch) (n : Nat) (s : Sector) :
    (dev.set n s).size = dev.size := rfl

@[simp] theorem Scratch.set_self (dev : Scratch) (n : Nat) (s : Sector) :
    (dev.set n s).sector n = s :=
  Function.update_self ..

theorem Scratch.set_of_ne (dev : Scratch) (s : Sector) (ne : l ≠ n) :
    (dev.set n s).sector l = dev.sector l :=
  Function.update_of_ne ne ..

theorem Scratch.blockWrite_eq (inside : n < dev.size) (buffer : Bytes) :
    dev.blockWrite n buffer = some (dev.set n (.ofBytes buffer)) := by
  rw [Scratch.blockWrite, if_pos inside]

theorem Scratch.Writes.refl (dev : Scratch) (n m : Nat) : dev.Writes dev n m :=
  ⟨rfl, fun _ _ => rfl, fun _ _ => rfl⟩

theorem Scratch.Writes.trans (first : dev.Writes dev' n m) (then_ : dev'.Writes dev'' n m) :
    dev.Writes dev'' n m where
  size := then_.size.trans first.size
  before j low := (then_.before j low).trans (first.before j low)
  behind j high := (then_.behind j high).trans (first.behind j high)

theorem Scratch.Writes.mono {n' m' : Nat} (writes : dev.Writes dev' n m) (low : n' ≤ n)
    (high : m ≤ m') : dev.Writes dev' n' m' where
  size := writes.size
  before j less := writes.before j (by omega)
  behind j more := writes.behind j (by omega)

theorem Scratch.set_writes (dev : Scratch) (s : Sector) (low : n ≤ l) (high : l < m) :
    dev.Writes (dev.set l s) n m where
  size := rfl
  before j less := dev.set_of_ne s (by omega)
  behind j more := dev.set_of_ne s (by omega)

theorem FilesAt.congr (same : ∀ j, n ≤ j → j < n + archiveSize calls →
      dev'.sector j = dev.sector j) (files : FilesAt u dev n calls) : FilesAt u dev' n calls := by
  induction calls generalizing n with
  | nil => trivial
  | cons call calls ih =>
    obtain ⟨header, data, rest⟩ := files
    simp only [archiveSize, List.map_cons, List.sum_cons, AppendCall.sectors] at same ih
    refine ⟨?_, fun k less => ?_, ih (fun j low high => same j ?_ ?_) rest⟩
    · rw [same n (Nat.le_refl n) (by omega)]
      exact header
    · rw [same _ (by omega) (by omega)]
      exact data k less
    · rw [AppendCall.sectors] at low
      omega
    · rw [AppendCall.sectors] at high
      omega

theorem dataSectors_succ {size : Nat} (more : size ≠ 0) :
    dataSectors size = 1 + dataSectors (size - min size 512) := by
  unfold dataSectors
  omega

/-- A chunk that was read, with zeros behind it, is the part of the file. -/
theorem ofBytes_chunk {file : ByteFile} {size k : Nat} (rest : 512 * k + size = file.length)
    (buffer : Bytes) :
    Sector.ofBytes (fillZero (file.readAt buffer (min size 512) (512 * k)).2 (min size 512)
      (512 - min size 512)) = dataSector file k := by
  funext i
  have small := i.isLt
  simp only [Sector.ofBytes, fillZero, ByteFile.readAt, dataSector]
  by_cases inside : 512 * k + i < file.length
  · have read : (i : Nat) < min (min size 512) (file.length - 512 * k) := by omega
    rw [if_neg (by omega), if_pos read, if_pos inside]
  · rw [if_pos (by omega), if_neg inside]

/-- The copy loop writes the rest of the file from part `k` on. -/
theorem appendData_eq {file : ByteFile} {fuel size ofs k : Nat} (rest : ofs + size = file.length)
    (aligned : size ≠ 0 → ofs = 512 * k) (enough : size ≤ fuel)
    (fits : n + dataSectors size ≤ dev.size) (buffer : Bytes) :
    ∃ dev' buffer', appendData file fuel dev n size ofs buffer =
        some (dev', n + dataSectors size, buffer') ∧
      dev.Writes dev' n (n + dataSectors size) ∧ buffer' 512 = buffer 512 ∧
      ∀ j < dataSectors size, dev'.sector (n + j) = dataSector file (k + j) := by
  induction fuel generalizing dev n size ofs k buffer with
  | zero =>
    obtain rfl : size = 0 := by omega
    exact ⟨dev, buffer, rfl, .refl .., rfl, fun j less => absurd less (Nat.not_lt_zero j)⟩
  | succ fuel ih =>
    rw [appendData]
    by_cases none : size = 0
    · subst none
      exact ⟨dev, buffer, if_pos rfl, .refl .., rfl, fun j less => absurd less (Nat.not_lt_zero j)⟩
    have count := dataSectors_succ none
    obtain rfl := aligned none
    have inside : n < dev.size := by omega
    have read : (file.readAt buffer (min size 512) (512 * k)).1 = min size 512 := by
      simp only [ByteFile.readAt]
      omega
    simp only [none, if_false, Nat.not_le.mpr inside, read, ne_eq, not_true_eq_false,
      Scratch.blockWrite_eq inside, Option.bind_some, ofBytes_chunk rest buffer]
    generalize filled : fillZero (file.readAt buffer (min size 512) (512 * k)).2 (min size 512)
      (512 - min size 512) = chunk
    have kept : chunk 512 = buffer 512 := by
      rw [← filled, fillZero, if_neg (by omega), ByteFile.readAt]
      exact if_neg (by omega)
    have rest' : 512 * k + min size 512 + (size - min size 512) = file.length := by omega
    have aligned' : size - min size 512 ≠ 0 → 512 * k + min size 512 = 512 * (k + 1) := by omega
    have fits' : n + 1 + dataSectors (size - min size 512) ≤
        (dev.set n (dataSector file k)).size := by
      simp only [Scratch.set_size]
      omega
    have sum : n + 1 + dataSectors (size - min size 512) = n + dataSectors size := by omega
    obtain ⟨dev', buffer', run, writes, same, data⟩ := ih rest' aligned' (by omega) fits' chunk
    rw [sum] at run writes
    refine ⟨dev', buffer', run, ?_, same.trans kept, fun j less => ?_⟩
    · have first := dev.set_writes (dataSector file k) (Nat.le_refl n)
        (show n < n + dataSectors size by omega)
      exact first.trans (writes.mono (Nat.le_succ n) (Nat.le_refl _))
    · cases j with
      | zero =>
        rw [Nat.add_zero, writes.before n (Nat.lt_succ_self n), Scratch.set_self]
        rfl
      | succ j =>
        rw [Nat.add_comm j 1, ← Nat.add_assoc, ← Nat.add_assoc]
        exact data j (by omega)

/-- `fsutil_append` with its memory and a header writes the file behind those before. -/
theorem fsutilAppend_eq {header : Sector} (memory : call.buffer = some buffer)
    (made : u.makeHeader call.name call.file.length = some header)
    (fits : n + call.sectors < dev.size) :
    ∃ dev', fsutilAppend u call dev n = some (dev', n + call.sectors) ∧
      dev.Writes dev' n (n + call.sectors + 1) ∧ FilesAt u dev' n [call] ∧
      dev'.sector (n + call.sectors) = markerSector buffer := by
  have inside : n < dev.size := by omega
  have sectors : n + 1 + dataSectors call.file.length = n + call.sectors := by
    rw [AppendCall.sectors, Nat.add_assoc]
  have all : 0 + call.file.length = call.file.length := Nat.zero_add _
  have start : call.file.length ≠ 0 → 0 = 512 * 0 := fun _ => rfl
  have room : n + 1 + dataSectors call.file.length ≤ (dev.set n header).size := by
    simp only [Scratch.set_size]
    omega
  obtain ⟨dev₁, buffer₁, run, writes, kept, data⟩ :=
    appendData_eq all start (Nat.le_refl _) room (header.into buffer)
  rw [sectors] at run writes
  have behind : header.into buffer 512 = buffer 512 := dif_neg (by omega)
  have last : Sector.ofBytes (fun i => fillZero buffer₁ 0 512 (i + 1)) = markerSector buffer := by
    funext i
    have small := i.isLt
    simp only [Sector.ofBytes, fillZero, markerSector]
    by_cases top : i = 511
    · subst top
      rw [if_pos rfl, ← behind, ← kept]
      rfl
    · have low : (i : Nat) ≠ 511 := fun eq => top (Fin.ext eq)
      rw [if_pos (by omega), if_neg top]
  have size : dev₁.size = dev.size := writes.size
  let dev₂ := dev₁.set (n + call.sectors) (.ofBytes (fillZero buffer₁ 0 512))
  have second : n + call.sectors < dev₂.size := by
    simp only [dev₂, Scratch.set_size]
    omega
  have low : n ≤ n + call.sectors := by omega
  have high : n + call.sectors < n + call.sectors + 1 := by omega
  have before : ∀ j < n + call.sectors,
      (dev₂.set (n + call.sectors) (markerSector buffer)).sector j = dev₁.sector j := by
    intro j less
    rw [dev₂.set_of_ne _ (by omega), dev₁.set_of_ne _ (by omega)]
  refine ⟨dev₂.set (n + call.sectors) (markerSector buffer), ?_, ?_,
    ⟨?_, fun k less => ?_, trivial⟩, dev₂.set_self ..⟩
  · simp only [fsutilAppend, memory, made, Option.bind_eq_bind, Option.bind_some,
      Sector.ofBytes_into, Scratch.blockWrite_eq inside, run]
    rw [Scratch.blockWrite_eq (by omega), Option.bind_some, Scratch.blockWrite_eq second, last]
    rfl
  · have written := (dev.set_writes header (Nat.le_refl n) (by omega)).trans
      (writes.mono (Nat.le_succ n) (Nat.le_succ _))
    exact (written.trans (dev₁.set_writes _ low high)).trans (dev₂.set_writes _ low high)
  · rw [before n (by rw [AppendCall.sectors]; omega), writes.before n (Nat.lt_succ_self n),
      Scratch.set_self]
    exact made
  · rw [before _ (by omega), data k less, Nat.zero_add]

theorem fsutilAppend_granted {result : Scratch × Nat}
    (run : fsutilAppend u call dev n = some result) : call.Granted u := by
  simp only [fsutilAppend, Option.bind_eq_bind] at run
  obtain ⟨buffer, memory, run⟩ := Option.bind_eq_some_iff.mp run
  obtain ⟨header, made, -⟩ := Option.bind_eq_some_iff.mp run
  exact ⟨by simp [memory], by simp [made]⟩

theorem appendAll_granted {result : Scratch × Nat} (run : appendAll u calls dev n = some result) :
    ∀ call ∈ calls, call.Granted u := by
  induction calls generalizing dev n with
  | nil => simp
  | cons call calls ih =>
    obtain ⟨next, first, rest⟩ := Option.bind_eq_some_iff.mp run
    exact List.forall_mem_cons.mpr ⟨fsutilAppend_granted first, ih rest⟩

theorem FilesAt.cons (first : FilesAt u dev n [call])
    (rest : FilesAt u dev (n + call.sectors) calls) : FilesAt u dev n (call :: calls) :=
  ⟨first.1, first.2.1, rest⟩

/-- The calls write one file after the other, each over the end of the archive before. -/
theorem appendAll_eq (granted : ∀ call ∈ calls, call.Granted u)
    (fits : n + archiveSize calls < dev.size) :
    ∃ dev', appendAll u calls dev n = some (dev', n + archiveSize calls) ∧
      dev.Writes dev' n (n + archiveSize calls + 1) ∧ FilesAt u dev' n calls ∧
      (calls = [] → dev' = dev) ∧ ∀ call ∈ calls.getLast?, ∀ buffer ∈ call.buffer,
        dev'.sector (n + archiveSize calls) = markerSector buffer := by
  induction calls generalizing dev n with
  | nil => exact ⟨dev, rfl, .refl .., trivial, fun _ => rfl, by simp⟩
  | cons call calls ih =>
    obtain ⟨⟨memory, name⟩, others⟩ := List.forall_mem_cons.mp granted
    obtain ⟨buffer, memory⟩ := Option.ne_none_iff_exists'.mp memory
    obtain ⟨header, made⟩ := Option.ne_none_iff_exists'.mp name
    have split : n + archiveSize (call :: calls) = n + call.sectors + archiveSize calls := by
      simp only [archiveSize, List.map_cons, List.sum_cons, Nat.add_assoc]
    rw [split] at fits ⊢
    have here : n + call.sectors < dev.size := by omega
    obtain ⟨dev₁, first, writes, file, marker⟩ := fsutilAppend_eq memory made here
    have room : n + call.sectors + archiveSize calls < dev₁.size := by rwa [writes.size]
    obtain ⟨dev', run, rest, files, same, last⟩ := ih others room
    refine ⟨dev', ?_, ?_, ?_, by simp, ?_⟩
    · rw [appendAll, first]
      exact run
    · exact (writes.mono (Nat.le_refl n) (by omega)).trans (rest.mono (by omega) (Nat.le_refl _))
    · refine .cons (file.congr fun j low high => rest.before j ?_) files
      simpa [archiveSize] using high
    · cases calls with
      | nil =>
        rw [same rfl]
        simpa [archiveSize, memory] using marker
      | cons next calls => simpa using last

theorem appendAll_size (fits : n + archiveSize calls < dev.size)
    (run : appendAll u calls dev n = some (dev', m)) : dev'.size = dev.size := by
  obtain ⟨_, run', writes, -⟩ := appendAll_eq (appendAll_granted run) fits
  rw [run] at run'
  cases run'
  exact writes.size

theorem markerSector_eq_zero (buffer : Bytes) : markerSector buffer = .zero ↔ buffer 512 = 0 := by
  constructor
  · intro eq
    exact congrFun eq 511
  · intro zero
    funext i
    simp [markerSector, zero, Sector.zero]

/-- The device has the archive exactly when its end was left blank. -/
theorem archiveAt_iff (fits : archiveSize calls + 2 ≤ dev.size) :
    (∃ dev' sector, appendAll u calls dev 0 = some (dev', sector) ∧ ArchiveAt u dev' 0 calls) ↔
      (∀ call ∈ calls, call.Granted u) ∧ BlankEnd dev calls := by
  by_cases granted : ∀ call ∈ calls, call.Granted u
  · obtain ⟨dev', run, writes, files, none, last⟩ :=
      appendAll_eq granted (show 0 + archiveSize calls < dev.size by omega)
    rw [Nat.zero_add] at run writes last
    have behind : dev'.sector (archiveSize calls + 1) = dev.sector (archiveSize calls + 1) :=
      writes.behind _ (Nat.le_refl _)
    have first : dev'.sector (archiveSize calls) = .zero ↔
        (∀ call ∈ calls.getLast?, ∀ buffer ∈ call.buffer, buffer 512 = 0) ∧
          (calls = [] → dev.sector 0 = .zero) := by
      cases calls.eq_nil_or_concat with
      | inl empty =>
        subst empty
        rw [none rfl]
        simp [archiveSize]
      | inr concat =>
        obtain ⟨before, call, rfl⟩ := concat
        obtain ⟨buffer, memory⟩ := Option.ne_none_iff_exists'.mp (granted call (by simp)).1
        rw [last call (by simp) buffer memory, markerSector_eq_zero]
        simp [memory]
    constructor
    · rintro ⟨_, _, again, -, zero, also⟩
      rw [run] at again
      cases again
      rw [Nat.zero_add] at zero also
      exact ⟨granted, (first.mp zero).1, (first.mp zero).2, behind ▸ also⟩
    · rintro ⟨-, stray, start, second⟩
      refine ⟨dev', _, run, files, ?_, ?_⟩
      · rw [Nat.zero_add]
        exact first.mpr ⟨stray, start⟩
      · rw [Nat.zero_add, behind]
        exact second
  · constructor
    · rintro ⟨_, _, run, -⟩
      exact absurd (appendAll_granted run) granted
    · exact fun both => absurd both.1 granted

end Appends

end Pintos.Filesys
