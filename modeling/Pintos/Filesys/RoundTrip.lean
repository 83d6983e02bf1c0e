import Mathlib.Data.List.GetD
import Mathlib.Data.List.TakeWhile
import Pintos.Filesys.Extraction

/-! The round trip from `fsutil_append` through `fsutil_extract` to an empty file system. -/

namespace Pintos.Filesys

open Words CStrings ByteFiles

/-- There is room for the files, under names of the root that are plain, new and distinct. -/
structure Puttable (vol : Volume) (m : DirMap) (k : Nat) (calls : List AppendCall) : Prop where
  names : ∀ call ∈ calls, ∃ c, Single call.name c ∧ Plain c ∧ m c = none
  distinct : (calls.map fun call => components 47 call.name.1).Nodup
  sizes : ∀ call ∈ calls, OneTable 0 call.file.length
  granted : ∀ i < calls.length, (vol.putting (k + i)).Granted

section Runs

variable {u : Ustar} {vol : Volume} {dev : Scratch} {t : Tree} {m : DirMap} {c : CString}
  {call : AppendCall} {calls : List AppendCall} {n k fuel : Nat} {s : UInt32}

theorem Single.unique {path d : CString} (single : Single path c) (other : Single path d) :
    d = c := by
  have eq : [c] = [d] := single.symm.trans other
  cases eq
  rfl

theorem Puttable.cons_iff (single : Single call.name c) (s : UInt32) :
    Puttable vol m k (call :: calls) ↔
      (Plain c ∧ m c = none ∧ OneTable 0 call.file.length ∧ (vol.putting k).Granted) ∧
        Puttable vol (Function.update m c (some s)) (k + 1) calls := by
  constructor
  · rintro ⟨names, distinct, sizes, granted⟩
    obtain ⟨first, others⟩ := List.forall_mem_cons.mp names
    obtain ⟨size, sizes⟩ := List.forall_mem_cons.mp sizes
    obtain ⟨away, distinct⟩ := List.nodup_cons.mp distinct
    obtain ⟨d, here, plain, free⟩ := first
    obtain rfl := single.unique here
    refine ⟨⟨plain, free, size, granted 0 (Nat.zero_lt_succ _)⟩, fun other mem => ?_, distinct,
      sizes, fun i less => ?_⟩
    · obtain ⟨e, there, plain', free'⟩ := others other mem
      have ne : e ≠ d := by
        rintro rfl
        exact away (List.mem_map.mpr ⟨other, mem, there.trans here.symm⟩)
      exact ⟨e, there, plain', by rwa [Function.update_of_ne ne]⟩
    · rw [Nat.add_right_comm]
      exact granted (i + 1) (Nat.succ_lt_succ less)
  · rintro ⟨⟨plain, free, size, here⟩, names, distinct, sizes, granted⟩
    have away : ∀ other ∈ calls, ∃ d, Single other.name d ∧ Plain d ∧ m d = none ∧ d ≠ c := by
      intro other mem
      obtain ⟨d, there, plain', free'⟩ := names other mem
      have ne : d ≠ c := by
        rintro rfl
        rw [Function.update_self] at free'
        cases free'
      rw [Function.update_of_ne ne] at free'
      exact ⟨d, there, plain', free', ne⟩
    refine ⟨List.forall_mem_cons.mpr ⟨⟨c, single, plain, free⟩, fun other mem => ?_⟩,
      List.nodup_cons.mpr ⟨fun mem => ?_, distinct⟩, List.forall_mem_cons.mpr ⟨size, sizes⟩,
      fun i less => ?_⟩
    · obtain ⟨d, there, plain', free', -⟩ := away other mem
      exact ⟨d, there, plain', free'⟩
    · obtain ⟨other, mem, eq⟩ := List.mem_map.mp mem
      obtain ⟨d, there, -, -, ne⟩ := away other mem
      exact ne (single.unique (eq.symm.trans there))
    · cases i with
      | zero => exact here
      | succ i =>
        have next := granted i (Nat.lt_of_succ_lt_succ less)
        rwa [Nat.add_right_comm] at next

/-- The loop makes the files of the archive, one after the other. -/
theorem extractLoop_puts (lawful : u.Lawful) (flat : Flat t m)
    (past : ∀ c s, m c = some s → ∃ j < k, (vol.putting j).sector = some s)
    (files : FilesAt u dev n calls) (zero : dev.sector (n + archiveSize calls) = .zero)
    (inside : n + archiveSize calls < dev.size)
    (single : ∀ call ∈ calls, ∃ c, Single call.name c) (enough : calls.length < fuel)
    (header data : Bytes) :
    (Puttable vol m k calls ∧ ∃ t' m', extractLoop u vol dev fuel t n k header data = some t' ∧
        Flat t' m' ∧ (∀ c s, m c = some s → m' c = some s ∧ t.Keeps t' s) ∧
        (∀ call ∈ calls, ∃ c s, Single call.name c ∧ m' c = some s ∧ t'.Has s call.file) ∧
        ∀ c s, m' c = some s → m c = some s ∨ ∃ call ∈ calls, Single call.name c) ∨
      (¬Puttable vol m k calls ∧ extractLoop u vol dev fuel t n k header data = none) := by
  induction calls generalizing t m n k fuel header data with
  | nil =>
    obtain ⟨fuel, rfl⟩ := Nat.exists_eq_succ_of_ne_zero (Nat.ne_zero_of_lt enough)
    refine .inl ⟨⟨by simp, .nil, by simp, by simp⟩, t, m, ?_, flat,
      fun c s bound => ⟨bound, rfl, rfl⟩, by simp, fun c s bound => .inl bound⟩
    have eof : dev.sector n = .zero := zero
    rw [extractLoop, Scratch.blockRead, if_pos (show n < dev.size from inside), Option.bind_some,
      Sector.ofBytes_into, eof, lawful.eof]
  | cons call calls ih =>
    obtain ⟨fuel, rfl⟩ := Nat.exists_eq_succ_of_ne_zero (Nat.ne_zero_of_lt enough)
    obtain ⟨⟨c, here⟩, others⟩ := List.forall_mem_cons.mp single
    obtain ⟨made, sectors, rest⟩ := files
    have split : n + archiveSize (call :: calls) = n + call.sectors + archiveSize calls := by
      simp only [archiveSize, List.map_cons, List.sum_cons, Nat.add_assoc]
    have sum : n + 1 + dataSectors call.file.length = n + call.sectors := by
      rw [AppendCall.sectors, Nat.add_assoc]
    rw [split] at zero inside
    have parsed := lawful.inverse _ _ _ call.small made
    have new : ∀ s ∈ (vol.putting k).sector, s ≠ 0 ∧ s ≠ 1 ∧ t.used s = false := by
      intro s sector
      obtain ⟨zero, one, before⟩ := vol.fresh k s sector
      refine ⟨zero, one, Bool.eq_false_iff.mpr fun used => ?_⟩
      obtain ⟨d, bound⟩ := (((flat.used s).mp used).resolve_left zero).resolve_left one
      obtain ⟨j, less, again⟩ := past d s bound
      exact before j less again
    rw [extractLoop, Scratch.blockRead, if_pos (show n < dev.size by omega), Option.bind_some,
      Sector.ofBytes_into, parsed]
    dsimp only
    rcases flat.putFile here new (by omega) sectors data with
      ⟨s, t₁, data₁, run, sector, flat₁, has, keeps, may⟩ | ⟨run, refused⟩
    · rw [run, sum, Option.bind_some]
      dsimp only
      have past' : ∀ d v, Function.update m c (some s) d = some v →
          ∃ j < k + 1, (vol.putting j).sector = some v := by
        intro d v bound
        by_cases eq : d = c
        · rw [eq, Function.update_self] at bound
          exact ⟨k, Nat.lt_succ_self k, sector.trans bound⟩
        · rw [Function.update_of_ne eq] at bound
          obtain ⟨j, less, before⟩ := past d v bound
          exact ⟨j, Nat.lt_succ_of_lt less, before⟩
      have enough' : calls.length < fuel := Nat.lt_of_succ_lt_succ enough
      rcases ih flat₁ past' rest zero inside others enough' ((dev.sector n).into header) data₁ with
        ⟨puttable, t', m', runs, flat', kept, files, only⟩ | ⟨refused, runs⟩
      · refine .inl ⟨(Puttable.cons_iff here s).mpr ⟨may, puttable⟩, t', m', runs, flat',
          fun d v bound => ?_, List.forall_mem_cons.mpr ⟨?_, files⟩, fun d v bound => ?_⟩
        · have ne : d ≠ c := by
            rintro rfl
            rw [may.2.1] at bound
            cases bound
          obtain ⟨bound', keeps'⟩ := kept d v (by rwa [Function.update_of_ne ne])
          exact ⟨bound', (keeps d v bound).trans keeps'⟩
        · obtain ⟨bound, keeps'⟩ := kept c s (Function.update_self ..)
          exact ⟨c, s, here, bound, has.keeps keeps'⟩
        · rcases only d v bound with old | ⟨other, mem, named⟩
          · by_cases eq : d = c
            · exact .inr ⟨call, List.mem_cons_self, eq ▸ here⟩
            · rw [Function.update_of_ne eq] at old
              exact .inl old
          · exact .inr ⟨other, List.mem_cons_of_mem _ mem, named⟩
      · exact .inr ⟨fun puttable => refused ((Puttable.cons_iff here s).mp puttable).2, runs⟩
    · rw [run]
      exact .inr ⟨fun puttable => refused ((Puttable.cons_iff here 0).mp puttable).1, rfl⟩

theorem length_le_archiveSize (calls : List AppendCall) : calls.length ≤ archiveSize calls := by
  induction calls with
  | nil => exact Nat.le_refl 0
  | cons call calls ih =>
    have eq : archiveSize (call :: calls) = call.sectors + archiveSize calls := by
      simp only [archiveSize, List.map_cons, List.sum_cons]
    rw [eq, AppendCall.sectors, List.length_cons]
    omega

theorem format_flat (disk : UInt32 → Record) (bytes : UInt32 → Bytes) (size : Nat) :
    ∃ t, Tree.format disk bytes size = some t ∧ Flat t fun _ => none := by
  refine ⟨_, rfl, fun s => ?_, fun s ne => ?_, ?_, fun c s bound => by cases bound⟩
  · simp [Tree.inodeCreate, Tree.inodeClose]
  · simp [Tree.inodeCreate, Tree.inodeClose, ne]
  · exact dirCreate_represents 16

/-- `fsutil_extract` in an empty file system, from a device with an archive. -/
theorem fsutilExtract_iff (lawful : u.Lawful) (flat : Flat t fun _ => none)
    (archive : ArchiveAt u dev 0 calls) (fits : archiveSize calls + 2 ≤ dev.size) :
    (∃ t' dev', fsutilExtract u vol dev t = some (t', dev') ∧ Recreated t' calls) ↔
      (vol.header ≠ none ∧ vol.data ≠ none) ∧ Puttable vol (fun _ => none) 0 calls := by
  obtain ⟨files, zero, -⟩ := archive
  have inside : 0 + archiveSize calls < dev.size := by omega
  have enough : calls.length < dev.size := by
    have := length_le_archiveSize calls
    omega
  have past : ∀ c s, (fun _ => none : DirMap) c = some s →
      ∃ j < 0, (vol.putting j).sector = some s := fun c s bound => by cases bound
  constructor
  · rintro ⟨t', dev', run, made⟩
    simp only [fsutilExtract, Option.bind_eq_bind] at run
    obtain ⟨header, header', run⟩ := Option.bind_eq_some_iff.mp run
    obtain ⟨data, data', run⟩ := Option.bind_eq_some_iff.mp run
    obtain ⟨t₁, loop, -⟩ := Option.bind_eq_some_iff.mp run
    have single : ∀ call ∈ calls, ∃ c, Single call.name c := by
      intro call mem
      obtain ⟨c, s, here, -⟩ := made.files call mem
      exact ⟨c, here⟩
    refine ⟨⟨by simp [header'], by simp [data']⟩, ?_⟩
    rcases extractLoop_puts lawful flat past files zero inside single enough header data with
      ⟨puttable, -⟩ | ⟨-, none⟩
    · exact puttable
    · rw [none] at loop
      cases loop
  · rintro ⟨⟨header, data⟩, puttable⟩
    obtain ⟨header, header'⟩ := Option.ne_none_iff_exists'.mp header
    obtain ⟨data, data'⟩ := Option.ne_none_iff_exists'.mp data
    have single : ∀ call ∈ calls, ∃ c, Single call.name c := by
      intro call mem
      obtain ⟨c, here, -⟩ := puttable.names call mem
      exact ⟨c, here⟩
    rcases extractLoop_puts lawful flat past files zero inside single enough header data with
      ⟨-, t', m', loop, flat', -, files', only⟩ | ⟨refused, -⟩
    · have first : 0 < dev.size := by omega
      let dev₁ := dev.set 0 (.ofBytes (fillZero header 0 512))
      have second : 1 < dev₁.size := by
        simp only [dev₁, Scratch.set_size]
        omega
      refine ⟨t', dev₁.set 1 (.ofBytes (fillZero header 0 512)), ?_, ?_⟩
      · simp only [fsutilExtract, header', data', Option.bind_eq_bind, Option.bind_some, loop,
          Scratch.blockWrite_eq first]
        rw [Scratch.blockWrite_eq second]
        rfl
      · have binds := flat'.map.binds
        refine ⟨fun call mem => ?_, fun c s bound => ?_, fun s used => ?_⟩
        · obtain ⟨c, s, here, bound, has⟩ := files' call mem
          exact ⟨c, s, here, (binds c s).mpr bound, has⟩
        · exact (only c s ((binds c s).mp bound)).resolve_left (by simp)
        · simpa [binds] using (flat'.used s).mp used
    · exact absurd puttable refused

/-- The calls of `fsutil_append` leave the archive of their files on the device, and
`fsutil_extract` makes these files in an empty file system. -/
def RoundTrip (u : Ustar) (vol : Volume) (dev : Scratch) (calls : List AppendCall)
    (disk : UInt32 → Record) (bytes : UInt32 → Bytes) (size : Nat) : Prop :=
  ∃ dev' sector, appendAll u calls dev 0 = some (dev', sector) ∧ ArchiveAt u dev' 0 calls ∧
    ∃ t₀ t dev'', Tree.format disk bytes size = some t₀ ∧
      fsutilExtract u vol dev' t₀ = some (t, dev'') ∧ Recreated t calls

/-- The end of the archive is zero before the calls, the names are plain and distinct, and there is
room for what is made. -/
structure Archivable (u : Ustar) (vol : Volume) (dev : Scratch) (calls : List AppendCall) :
    Prop where
  blank : BlankEnd dev calls
  append : ∀ call ∈ calls, call.Granted u
  extract : vol.header ≠ none ∧ vol.data ≠ none
  put : Puttable vol (fun _ => none) 0 calls

/-- The files make the round trip through the scratch device exactly when its end of the archive was
left blank, and the files can be made. -/
theorem archive_round_trip_iff (u : Ustar) (lawful : u.Lawful) (vol : Volume) (dev : Scratch)
    (calls : List AppendCall) (fits : archiveSize calls + 2 ≤ dev.size)
    (disk : UInt32 → Record) (bytes : UInt32 → Bytes) (size : Nat) :
    RoundTrip u vol dev calls disk bytes size ↔ Archivable u vol dev calls := by
  obtain ⟨t₀, formats, flat⟩ := format_flat disk bytes size
  have room : 0 + archiveSize calls < dev.size := by omega
  constructor
  · rintro ⟨dev', sector, run, archive, t, t', dev'', format, extracts, made⟩
    rw [formats] at format
    cases format
    obtain ⟨granted, blank⟩ := (archiveAt_iff fits).mp ⟨dev', sector, run, archive⟩
    have same := appendAll_size room run
    obtain ⟨buffers, puttable⟩ := (fsutilExtract_iff lawful flat archive (by rwa [same])).mp
      ⟨t', dev'', extracts, made⟩
    exact ⟨blank, granted, buffers, puttable⟩
  · intro may
    obtain ⟨dev', sector, run, archive⟩ := (archiveAt_iff fits).mpr ⟨may.append, may.blank⟩
    have same := appendAll_size room run
    obtain ⟨t', dev'', extracts, made⟩ :=
      (fsutilExtract_iff lawful flat archive (by rwa [same])).mpr ⟨may.extract, may.put⟩
    exact ⟨dev', sector, run, archive, t₀, t', dev'', formats, extracts, made⟩

end Runs

section Headers

/-- The name, the size in octal, the type and the magic number at their places in a header. -/
def ustarHeader (name : CString) (size : Nat) : Sector := fun i =>
  if (i : Nat) < 100 then name.1.getD i 0
  else if 124 ≤ (i : Nat) ∧ (i : Nat) < 135 then UInt8.ofNat (48 + size / 8 ^ (134 - (i : Nat)) % 8)
  else if (i : Nat) = 156 then 48
  else if 257 ≤ (i : Nat) then [117, 115, 116, 97, 114].getD (i - 257) 0
  else 0

def headerName (b : Bytes) : CString :=
  ⟨((List.range 100).map b).takeWhile (· != 0), fun mem => by
    simpa using List.mem_takeWhile_imp mem⟩

/-- The first `k` digits of the size. -/
def headerSize (b : Bytes) : Nat → Nat
  | 0 => 0
  | k + 1 => headerSize b k * 8 + ((b (124 + k)).toNat - 48)

/-- Headers with what the archive needs of them. -/
def plainUstar : Ustar where
  makeHeader name size := if name.1.length < 100 then some (ustarHeader name size) else none
  parseHeader s :=
    let b := s.into fun _ => 0
    if ∀ i, s i = 0 then .eof
    else if b 156 = 48 then .regular (headerName b) (headerSize b 11)
    else if b 156 = 53 then .directory (headerName b)
    else .error

theorem headerName_eq {name : CString} (short : name.1.length < 100) (size : Nat) :
    headerName ((ustarHeader name size).into fun _ => 0) = name := by
  have bytes : (List.range 100).map ((ustarHeader name size).into fun _ => 0) =
      name.1 ++ List.replicate (100 - name.1.length) 0 := by
    refine List.ext_getElem (by simp; omega) fun i low high => ?_
    have inside : i < 100 := by simpa using low
    rw [List.getElem_map, List.getElem_range, Sector.into, dif_pos (by omega), ustarHeader,
      if_pos inside, List.getElem_append]
    split
    next here => exact List.getD_eq_getElem _ _ here
    next past =>
      rw [List.getElem_replicate]
      exact List.getD_eq_default _ _ (show name.1.length ≤ i by omega)
  apply Subtype.ext
  dsimp only [headerName]
  have nonzero : ∀ x ∈ name.1, (x != 0) = true := by
    intro x mem
    have ne : x ≠ 0 := by
      rintro rfl
      exact name.2 mem
    simpa using ne
  obtain ⟨rest, more⟩ : ∃ rest, 100 - name.1.length = rest + 1 :=
    ⟨99 - name.1.length, by omega⟩
  rw [bytes, List.takeWhile_append_of_pos nonzero, more, List.replicate_succ]
  simp

theorem headerSize_eq {size k : Nat} (small : size < 8 ^ 11) (name : CString) (digits : k ≤ 11) :
    headerSize ((ustarHeader name size).into fun _ => 0) k = size / 8 ^ (11 - k) := by
  induction k with
  | zero => exact (Nat.div_eq_of_lt small).symm
  | succ k ih =>
    rw [headerSize, ih (by omega), Sector.into, dif_pos (by omega), ustarHeader]
    have place : 134 - (124 + k) = 11 - (k + 1) := by omega
    rw [if_neg (by dsimp only; omega), if_pos (by dsimp only; omega)]
    dsimp only
    rw [place]
    have power : 8 ^ (11 - k) = 8 ^ (11 - (k + 1)) * 8 := by
      rw [← Nat.pow_succ]
      congr 1
      omega
    rw [power, ← Nat.div_div_eq_div_mul]
    generalize size / 8 ^ (11 - (k + 1)) = rest
    have digit : (UInt8.ofNat (48 + rest % 8)).toNat = 48 + rest % 8 := by
      rw [UInt8.toNat_ofNat']
      omega
    rw [digit]
    omega

theorem plainUstar_lawful : plainUstar.Lawful where
  inverse name size header small made := by
    obtain ⟨short, eq⟩ := Option.ite_none_right_eq_some.mp made
    cases eq
    have type : ustarHeader name size ⟨156, by omega⟩ = 48 := rfl
    have some : ¬∀ i, ustarHeader name size i = 0 := by
      intro zero
      rw [zero] at type
      cases type
    have digits : size < 8 ^ 11 := by omega
    simp only [plainUstar, some, if_false]
    rw [headerName_eq short, headerSize_eq digits name (Nat.le_refl 11), Nat.sub_self, Nat.pow_zero,
      Nat.div_one]
    exact if_pos rfl
  eof := by
    have zero : ∀ i, Sector.zero i = 0 := fun _ => rfl
    simp only [plainUstar, zero, implies_true, if_true]

/-- A file `"f"` of 600 bytes, appended with what the memory behind the buffer has. -/
def appendF (stray : UInt8) : AppendCall where
  name := ⟨[102], by decide⟩
  file := ⟨fun _ => 7, 600⟩
  small := by decide
  buffer := some fun _ => stray

/-- A scratch device that holds old data in a sector. -/
def scratchWith (old : UInt8) : Scratch := ⟨8, fun n _ => if n = 4 then old else 0⟩

/-- Memory and room for one file. -/
def roomForOne : Volume where
  header := some fun _ => 0
  data := some fun _ => 0
  putting k :=
    let memory : Memory := ⟨fun _ => true, fun _ => true, true, true, true⟩
    ⟨memory, memory, if k = 0 then some 2 else none, true, fun _ => 0⟩
  fresh k s sector := by
    obtain ⟨rfl, eq⟩ := Option.ite_none_right_eq_some.mp sector
    cases eq
    exact ⟨by decide, by decide, fun j less => absurd less (Nat.not_lt_zero j)⟩

theorem archive_round_trip_one : (plainUstar.Lawful ∧
    archiveSize [appendF 0] + 2 ≤ (scratchWith 0).size) ∧
    (RoundTrip plainUstar roomForOne (scratchWith 0) [appendF 0] (fun _ => ⟨0, false, 0⟩)
        (fun _ _ => 0) 4 ↔ Archivable plainUstar roomForOne (scratchWith 0) [appendF 0]) :=
  ⟨⟨plainUstar_lawful, by decide⟩,
    archive_round_trip_iff plainUstar plainUstar_lawful roomForOne (scratchWith 0) [appendF 0]
      (by decide) _ _ 4⟩

/-- The byte behind the buffer ends up in the marker, and what the device had in the next sector is
still there: either way the archive has no end. -/
theorem archive_without_end : plainUstar.Lawful ∧
    (∀ stray old, archiveSize [appendF stray] + 2 ≤ (scratchWith old).size ∧
      ∀ call ∈ [appendF stray], call.Granted plainUstar) ∧
    (¬∃ dev sector, appendAll plainUstar [appendF 0xcc] (scratchWith 0) 0 = some (dev, sector) ∧
      ArchiveAt plainUstar dev 0 [appendF 0xcc]) ∧
    ¬∃ dev sector, appendAll plainUstar [appendF 0] (scratchWith 7) 0 = some (dev, sector) ∧
      ArchiveAt plainUstar dev 0 [appendF 0] := by
  have sectors : ∀ stray, archiveSize [appendF stray] = 3 := by
    simp [archiveSize, AppendCall.sectors, appendF, dataSectors]
  have fits : ∀ stray old, archiveSize [appendF stray] + 2 ≤ (scratchWith old).size := by
    intro stray old
    rw [sectors]
    exact Nat.le_of_ble_eq_true rfl
  refine ⟨plainUstar_lawful, fun stray old => ⟨fits stray old, ?_⟩, fun archive => ?_,
    fun archive => ?_⟩
  · simp [AppendCall.Granted, appendF, plainUstar]
  · have stray := ((archiveAt_iff (fits 0xcc 0)).mp archive).2.stray
    have byte : (0xcc : UInt8) = 0 := stray (appendF 0xcc) rfl _ rfl
    cases byte
  · have second := ((archiveAt_iff (fits 0 7)).mp archive).2.second
    rw [sectors] at second
    have byte : (7 : UInt8) = 0 := congrFun second 0
    cases byte

end Headers

end Pintos.Filesys
