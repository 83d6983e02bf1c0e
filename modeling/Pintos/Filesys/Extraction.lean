import Pintos.Filesys.Archive
import Pintos.Filesys.Growth
import Pintos.Filesys.Paths

/-! `fsutil_extract` of `fsutil.c`, which makes the files of the archive on the scratch device. -/

namespace Pintos.Filesys

open Words CStrings ByteFiles

/-- What the calls for one file meet: the memory for `filesys_create` and `filesys_open`, the sector
that `free_map_allocate` returns for the inode, whether `file_growth` finds all the sectors that it
asks for, and what `dir_add` has on its stack. -/
structure Putting where
  create : Memory
  opening : Memory
  sector : Option UInt32
  blocks : Bool
  junk : Bytes

/-- What `fsutil_extract` meets: the blocks that it gets for `header` and `data`, and what is there
for each regular file.  `free_map_allocate` returns no sector that is in use. -/
structure Volume where
  header : Option Bytes
  data : Option Bytes
  putting : Nat → Putting
  fresh : ∀ k s, (putting k).sector = some s → s ≠ 0 ∧ s ≠ 1 ∧ ∀ j < k, (putting j).sector ≠ some s

/-- The copy loop of `fsutil_extract`, to the open file of inode `s`. -/
def putData (dev : Scratch) (s : UInt32) :
    Nat → Tree → Nat → Nat → Nat → Bytes → Option (Tree × Nat × Bytes)
  | 0, t, sector, _, _, data => some (t, sector, data)
  | fuel + 1, t, sector, size, pos, data =>
    if size = 0 then some (t, sector, data)
    else
      let chunkSize := min size 512
      (dev.blockRead sector data).bind fun data =>
        putData dev s fuel (t.write s ((t.file s).writeAt data chunkSize pos)) (sector + 1)
          (size - chunkSize) (pos + chunkSize) data

/-- What `fsutil_extract` does for a regular file.  There is no result where a block of the file is
not in a sector of its own: `file_growth` goes on without a sector when it gets none, and through
second-level indexes that it did not allocate. -/
def putFile (dev : Scratch) (p : Putting) (t : Tree) (sector : Nat) (name : CString) (size : Nat)
    (data : Bytes) : Option (Tree × Nat × Bytes) :=
  if p.blocks = false ∨ ¬OneTable 0 size then none
  else
    match Tree.filesysCreateAt p.create t none name size false p.sector p.junk with
    | some (t, true) =>
      match Tree.filesysOpen p.opening t none name with
      | some (t, some dst) =>
        (putData dev dst size t sector size 0 data).map fun (t, sector, data) =>
          (t.inodeClose dst, sector, data)
      | _ => none
    | _ => none

/-- The loop of `fsutil_extract` after `k` regular files.  Each round reads a sector that was not
read before, so that there are no more rounds than sectors. -/
def extractLoop (u : Ustar) (vol : Volume) (dev : Scratch) :
    Nat → Tree → Nat → Nat → Bytes → Bytes → Option Tree
  | 0, _, _, _, _, _ => none
  | fuel + 1, t, sector, k, header, data =>
    (dev.blockRead sector header).bind fun header =>
      match u.parseHeader (.ofBytes header) with
      | .error => none
      | .eof => some t
      | .directory _ => extractLoop u vol dev fuel t (sector + 1) k header data
      | .regular name size =>
        (putFile dev (vol.putting k) t (sector + 1) name size data).bind fun (t, sector, data) =>
          extractLoop u vol dev fuel t sector (k + 1) header data

/-- `fsutil_extract`, which erases the first two sectors at its end.  There is no result after a
panic. -/
def fsutilExtract (u : Ustar) (vol : Volume) (dev : Scratch) (t : Tree) :
    Option (Tree × Scratch) := do
  let header ← vol.header
  let data ← vol.data
  let t ← extractLoop u vol dev dev.size t 0 0 header data
  let header := fillZero header 0 512
  let dev ← dev.blockWrite 0 header
  let dev ← dev.blockWrite 1 header
  return (t, dev)

/-- The path has one part only. -/
def Single (path c : CString) : Prop := components 47 path.1 = [c]

/-- A name that an entry of a directory can have. -/
structure Plain (c : CString) : Prop where
  dot : c ≠ dot
  dotdot : c ≠ dotdot
  short : c.1.length ≤ nameMax

/-- There is room for the file. -/
structure Putting.Granted (p : Putting) : Prop where
  record : p.create.record = true
  sector : p.sector ≠ none
  blocks : p.blocks = true
  inode : p.opening.inode = true
  handle : p.opening.handle = true

/-- A regular file with these contents. -/
structure Tree.Has (t : Tree) (s : UInt32) (file : ByteFile) : Prop where
  regular : (t.record s).isdir = false
  length : (t.record s).length = file.length
  bytes : ∀ i < file.length, t.bytes s i = file.bytes i

/-- The file system has the files of the calls, each under its name in the root directory, and
nothing else. -/
structure Recreated (t : Tree) (calls : List AppendCall) : Prop where
  files : ∀ call ∈ calls, ∃ c s, Single call.name c ∧ Binds (t.file 1) c s ∧ t.Has s call.file
  names : ∀ c s, Binds (t.file 1) c s → ∃ call ∈ calls, Single call.name c
  inodes : ∀ s, t.used s = true → s = 0 ∨ s = 1 ∨ ∃ c, Binds (t.file 1) c s

section Paths

variable {t : Tree} {mem : Memory} {path c : CString} {s : UInt32}

theorem Single.nonempty (single : Single path c) : c.1 ≠ [] := by
  have mem : c ∈ components 47 path.1 := by simp [show components 47 path.1 = [c] from single]
  obtain ⟨l, -, made⟩ := List.mem_filterMap.mp mem
  unfold nonEmpty at made
  split at made
  next both =>
    cases made
    exact both.2
  next => cases made

theorem Single.ne_nil (single : Single path c) : path.1 ≠ [] := by
  intro empty
  rw [Single, empty] at single
  cases single

namespace Tree

/-- With an inode open that was closed. -/
def opened (t : Tree) (s : UInt32) : Tree :=
  { t with opens := Function.update t.opens s (some ⟨1, false, t.disk s⟩) }

theorem inodeOpen_closed (closed : t.opens s = none) : t.inodeOpen s true = some (t.opened s) := by
  rw [inodeOpen, closed]
  rfl

theorem opened_inodeClose (closed : t.opens s = none) : (t.opened s).inodeClose s = t := by
  have opens : Function.update t.opens s none = t.opens := by
    rw [← closed]
    exact Function.update_eq_self s t.opens
  simp [inodeClose, opened, opens]

theorem opened_file (closed : t.opens s = none) (d : UInt32) : (t.opened s).file d = t.file d := by
  by_cases eq : d = s
  · subst eq
    simp [file, record, opened, closed]
  · simp [file, record, opened, eq]

theorem trueDirAt_single (closed : t.opens 1 = none) (single : Single path c) :
    trueDirAt mem t none path = some (t.opened 1, .nid (some 1) (some c)) := by
  rw [trueDirAt, if_neg single.ne_nil, startDir]
  dsimp only
  rw [inodeOpen_closed closed, Option.bind_some, strtok_eq_components 47 path (Nat.le_refl _),
    single]
  rfl

/-- With a new file and its entry in the root. -/
def added (t : Tree) (s : UInt32) (size : Nat) (f : ByteFile) : Tree where
  disk := Function.update (Function.update t.disk s ⟨size, false, 1⟩) 1
    { t.disk 1 with length := f.length }
  bytes := Function.update (Function.update t.bytes s fun _ => 0) 1 f.bytes
  opens := t.opens
  used := Function.update t.used s true

end Tree

end Paths

/-- A file system with a root directory only, closed but for the free map. -/
structure Flat (t : Tree) (m : DirMap) : Prop where
  used : ∀ s, t.used s = true ↔ s = 0 ∨ s = 1 ∨ ∃ c, m c = some s
  closed : ∀ s, s ≠ 0 → t.opens s = none
  map : Represents (t.file 1) m
  apart : ∀ c s, m c = some s → s ≠ 0 ∧ s ≠ 1

section Calls

variable {t : Tree} {m : DirMap} {p : Putting} {path c : CString} {s : UInt32}

theorem Flat.root (flat : Flat t m) : t.opens 1 = none := flat.closed 1 (by decide)

/-- `dir_add` in the root. -/
theorem Represents.dirAdd {f : ByteFile} (map : Represents f m) (c : CString) (s : UInt32)
    (junk : Bytes) : (∃ f', Filesys.dirAdd f c s junk = (f', true) ∧ c.1.length ≤ nameMax ∧
        m c = none ∧ Represents f' (Function.update m c (some s))) ∨
      ((Filesys.dirAdd f c s junk).2 = false ∧
        ¬(c.1 ≠ [] ∧ c.1.length ≤ nameMax ∧ m c = none)) := by
  obtain ⟨answer, next, -⟩ := map.add c s junk
  simp only [dirStep, mapStep] at answer next
  split at answer
  next may =>
    rw [if_pos may] at next
    exact .inl ⟨_, Prod.ext rfl (DirAnswer.success.inj answer), may.2.1, may.2.2, next⟩
  next may => exact .inr ⟨DirAnswer.success.inj answer, may⟩

/-- `filesys_create` makes the entry of a new plain name in the root if it gets its memory and a
sector, and fails otherwise. -/
theorem Flat.create (flat : Flat t m) (single : Single path c) (size : Nat)
    (new : ∀ s ∈ p.sector, s ≠ 1 ∧ t.used s = false) :
    (∃ s f, Tree.filesysCreateAt p.create t none path size false p.sector p.junk =
        some (t.added s size f, true) ∧ p.sector = some s ∧
        Represents f (Function.update m c (some s)) ∧
        Plain c ∧ m c = none ∧ p.create.record = true) ∨
      ((∀ t', Tree.filesysCreateAt p.create t none path size false p.sector p.junk ≠
        some (t', true)) ∧ ¬(Plain c ∧ m c = none ∧ p.create.record = true ∧ p.sector ≠ none)) := by
  rw [Tree.filesysCreateAt, Tree.trueDirAt_single flat.root single]
  dsimp only
  by_cases special : c = dot ∨ c = dotdot
  · rw [if_pos special]
    refine .inr ⟨fun t' => by simp, fun may => ?_⟩
    exact special.elim may.1.dot may.1.dotdot
  rw [if_neg special]
  cases sector : p.sector with
  | none => exact .inr ⟨fun t' => by simp, fun may => may.2.2.2 rfl⟩
  | some s =>
    obtain ⟨other, unused⟩ := new s sector
    have unused' : (t.opened 1).used s = false := unused
    simp only [Option.any_some, unused', Bool.false_eq_true, if_false]
    cases record : p.create.record with
    | false =>
      refine .inr ⟨fun t' eq => ?_, fun may => Bool.noConfusion may.2.2.1⟩
      simp [Tree.createEntry, record] at eq
    | true =>
      have file : (Tree.inodeCreate { t.opened 1 with
          used := Function.update (t.opened 1).used s true } s size false).file 1 = t.file 1 := by
        simp [Tree.file, Tree.record, Tree.inodeCreate, Tree.opened, flat.root, other.symm]
      rcases flat.map.dirAdd c s p.junk with ⟨f, run, short, free, next⟩ | ⟨run, refused⟩
      · refine .inl ⟨s, f, ?_, rfl, next, ⟨fun eq => special (.inl eq), fun eq =>
          special (.inr eq), short⟩, free, rfl⟩
        have opens : Function.update t.opens 1 none = t.opens := by
          rw [← flat.root]
          exact Function.update_eq_self 1 t.opens
        simp only [Tree.createEntry, record, if_true, Tree.dirAdd, file, run]
        simp [Tree.write, Tree.inodeClose, Tree.opened, Tree.inodeCreate, Tree.added, opens]
      · refine .inr ⟨fun t' => ?_, fun may => refused ⟨single.nonempty, may.1.short, may.2.1⟩⟩
        obtain ⟨f, run⟩ : ∃ f, Filesys.dirAdd (t.file 1) c s p.junk = (f, false) :=
          ⟨_, Prod.ext rfl run⟩
        simp only [Tree.createEntry, record, if_true, Tree.dirAdd, file, run]
        simp

theorem Flat.added {f : ByteFile} (flat : Flat t m) (size : Nat) (free : m c = none)
    (zero : s ≠ 0) (one : s ≠ 1) (map : Represents f (Function.update m c (some s))) :
    Flat (t.added s size f) (Function.update m c (some s)) := by
  have new : ∀ u, (∃ d, Function.update m c (some s) d = some u) ↔ u = s ∨ ∃ d, m d = some u := by
    intro u
    constructor
    · rintro ⟨d, bound⟩
      by_cases eq : d = c
      · rw [eq, Function.update_self] at bound
        exact .inl (Option.some.inj bound).symm
      · rw [Function.update_of_ne eq] at bound
        exact .inr ⟨d, bound⟩
    · rintro (rfl | ⟨d, bound⟩)
      · exact ⟨c, Function.update_self ..⟩
      · have ne : d ≠ c := fun eq => Option.some_ne_none u (by rw [← bound, eq, free])
        exact ⟨d, by rw [Function.update_of_ne ne, bound]⟩
  refine ⟨fun u => ?_, flat.closed, ?_, fun d u bound => ?_⟩
  · rw [new]
    by_cases eq : u = s
    · simp [Tree.added, eq]
    · simp [Tree.added, eq, flat.used]
  · have file : (t.added s size f).file 1 = f := by
      simp [Tree.file, Tree.record, Tree.added, flat.root]
    rwa [file]
  · rcases (new u).mp ⟨d, bound⟩ with rfl | ⟨old, here⟩
    · exact ⟨zero, one⟩
    · exact flat.apart old u here

theorem Flat.rewrite (flat : Flat t m) (ne : s ≠ 1) (bytes : Bytes) :
    Flat { t with bytes := Function.update t.bytes s bytes } m := by
  have file : Tree.file { t with bytes := Function.update t.bytes s bytes } 1 = t.file 1 := by
    simp [Tree.file, Tree.record, ne.symm]
  refine ⟨flat.used, flat.closed, ?_, flat.apart⟩
  rw [file]
  exact flat.map

/-- `filesys_open` of a file in the root. -/
theorem Flat.open_ (flat : Flat t m) (single : Single path c) (plain : Plain c)
    (bound : m c = some s) (regular : (t.disk s).isdir = false) :
    if p.opening.inode = true ∧ p.opening.handle = true then
      Tree.filesysOpen p.opening t none path = some (t.opened s, some s)
    else ∀ t' dst, Tree.filesysOpen p.opening t none path ≠ some (t', some dst) := by
  obtain ⟨zero, one⟩ := flat.apart c s bound
  have closed : (t.opened 1).opens s = none := by
    simp [Tree.opened, one, flat.closed s zero]
  have found : (lookup ((t.opened 1).file 1) c).map (fun found => inodeSector found.1) =
      some s := by
    rw [Tree.opened_file flat.root, ← bound]
    exact DirAnswer.sector.inj (flat.map.lookup c)
  obtain ⟨⟨e, ofs⟩, lookup, sector⟩ := Option.map_eq_some_iff.mp found
  have other : ((t.opened 1).opened s).inodeClose 1 = t.opened s := by
    have opens : Function.update (Function.update (Function.update t.opens 1
        (some ⟨1, false, t.disk 1⟩)) s (some ⟨1, false, t.disk s⟩)) 1 none =
          Function.update t.opens s (some ⟨1, false, t.disk s⟩) := by
      rw [Function.update_comm one, Function.update_idem, ← flat.root, Function.update_eq_self]
    simp [Tree.opened, Tree.inodeClose, one.symm, opens]
  simp only [Tree.filesysOpen, Tree.trueDirAt_single flat.root single, if_neg plain.dot,
    Tree.lastInode, if_neg plain.dotdot, Tree.dirLookup, lookup, sector, Tree.openInode]
  cases memory : p.opening.inode with
  | false => simp [Tree.inodeOpen, closed]
  | true =>
    rw [Tree.inodeOpen_closed closed]
    have file : ((t.opened s).record s).isdir = false := by
      simp [Tree.record, Tree.opened, regular]
    simp only [other, file]
    cases handle : p.opening.handle <;> simp [Tree.dirOpen]

/-- A write within the file leaves its length. -/
theorem Tree.write_inside {node : Node} {f : ByteFile} (here : t.opens s = some node)
    (length : f.length = node.data.length) :
    t.write s f = { t with bytes := Function.update t.bytes s f.bytes } := by
  have opens : Function.update t.opens s (some node) = t.opens := by
    rw [← here]
    exact Function.update_eq_self s t.opens
  simp [Tree.write, here, length, opens]

/-- The copy loop puts the rest of the file in place. -/
theorem putData_eq {dev : Scratch} {file : ByteFile} {node : Node} {fuel n size pos k : Nat}
    (rest : pos + size = file.length) (aligned : size ≠ 0 → pos = 512 * k) (enough : size ≤ fuel)
    (fits : n + dataSectors size ≤ dev.size)
    (sectors : ∀ j < dataSectors size, dev.sector (n + j) = dataSector file (k + j))
    (here : t.opens s = some node) (length : node.data.length = file.length)
    (done : ∀ i < pos, t.bytes s i = file.bytes i) (data : Bytes) :
    ∃ bytes data', putData dev s fuel t n size pos data =
        some ({ t with bytes := Function.update t.bytes s bytes }, n + dataSectors size, data') ∧
      ∀ i < file.length, bytes i = file.bytes i := by
  induction fuel generalizing t n size pos k data with
  | zero =>
    obtain rfl : size = 0 := by omega
    refine ⟨t.bytes s, data, ?_, fun i less => done i (by omega)⟩
    rw [Function.update_eq_self]
    rfl
  | succ fuel ih =>
    rw [putData]
    by_cases none : size = 0
    · subst none
      refine ⟨t.bytes s, data, ?_, fun i less => done i (by omega)⟩
      rw [Function.update_eq_self, if_pos rfl]
      rfl
    have count := dataSectors_succ none
    obtain rfl := aligned none
    have inside : n < dev.size := by omega
    have read : dev.sector n = dataSector file k := sectors 0 (by omega)
    simp only [none, if_false, Scratch.blockRead, if_pos inside, Option.bind_some, read]
    have contents : t.file s = ⟨t.bytes s, file.length⟩ := by
      rw [Tree.file, Tree.record, here, length]
    have same : ((t.file s).writeAt ((dataSector file k).into data) (min size 512)
        (512 * k)).length = node.data.length := by
      simp only [contents, ByteFile.writeAt, length]
      omega
    rw [Tree.write_inside here same]
    have bytes : ∀ i < 512 * k + min size 512,
        ((t.file s).writeAt ((dataSector file k).into data) (min size 512) (512 * k)).bytes i =
          file.bytes i := by
      intro i less
      simp only [contents, ByteFile.writeAt, Sector.into, dataSector]
      by_cases old : i < 512 * k
      · rw [if_neg (by omega), if_neg (by omega), done i old]
      · have low : i - 512 * k < 512 := by omega
        have place : 512 * k + (i - 512 * k) = i := by omega
        rw [if_pos (by omega), dif_pos low]
        simp only [place]
        rw [if_pos (by omega)]
    generalize (t.file s).writeAt ((dataSector file k).into data) (min size 512) (512 * k) = f
      at bytes
    let next : Tree := { t with bytes := Function.update t.bytes s f.bytes }
    have rest' : 512 * k + min size 512 + (size - min size 512) = file.length := by omega
    have aligned' : size - min size 512 ≠ 0 → 512 * k + min size 512 = 512 * (k + 1) := by omega
    have fits' : n + 1 + dataSectors (size - min size 512) ≤ dev.size := by omega
    have sectors' : ∀ j < dataSectors (size - min size 512),
        dev.sector (n + 1 + j) = dataSector file (k + 1 + j) := by
      intro j less
      rw [Nat.add_assoc, Nat.add_assoc, Nat.add_comm 1 j]
      exact sectors (j + 1) (by omega)
    have here' : next.opens s = some node := here
    have done' : ∀ i < 512 * k + min size 512, next.bytes s i = file.bytes i := by
      intro i less
      rw [← bytes i less]
      exact congrFun (Function.update_self ..) i
    obtain ⟨bytes', data', run, all⟩ :=
      ih rest' aligned' (by omega) fits' sectors' here' done' ((dataSector file k).into data)
    refine ⟨bytes', data', ?_, all⟩
    simp only [next] at run
    rw [run, Function.update_idem, show n + 1 + dataSectors (size - min size 512) =
      n + dataSectors size by omega]

/-- What a sector has stays while only other files are made. -/
structure Tree.Keeps (t t' : Tree) (s : UInt32) : Prop where
  record : t'.record s = t.record s
  bytes : t'.bytes s = t.bytes s

theorem Tree.Keeps.trans {t' t'' : Tree} (keeps : t.Keeps t' s) (keeps' : t'.Keeps t'' s) :
    t.Keeps t'' s :=
  ⟨keeps'.record.trans keeps.record, keeps'.bytes.trans keeps.bytes⟩

theorem Tree.Has.keeps {t' : Tree} {file : ByteFile} (has : t.Has s file) (keeps : t.Keeps t' s) :
    t'.Has s file := by
  refine ⟨?_, ?_, fun i less => ?_⟩
  · rw [keeps.record]
    exact has.regular
  · rw [keeps.record]
    exact has.length
  · rw [keeps.bytes]
    exact has.bytes i less

variable {dev : Scratch} {file : ByteFile} {n : Nat}

/-- A regular file of the archive is made exactly if there is room for it and its name is plain and
new. -/
theorem Flat.putFile (flat : Flat t m) (single : Single path c)
    (new : ∀ s ∈ p.sector, s ≠ 0 ∧ s ≠ 1 ∧ t.used s = false)
    (fits : n + dataSectors file.length ≤ dev.size)
    (sectors : ∀ j < dataSectors file.length, dev.sector (n + j) = dataSector file j)
    (data : Bytes) :
    (∃ s t' data', Filesys.putFile dev p t n path file.length data =
        some (t', n + dataSectors file.length, data') ∧ p.sector = some s ∧
        Flat t' (Function.update m c (some s)) ∧ t'.Has s file ∧
        (∀ d u, m d = some u → t.Keeps t' u) ∧
        Plain c ∧ m c = none ∧ OneTable 0 file.length ∧ p.Granted) ∨
      (Filesys.putFile dev p t n path file.length data = none ∧
        ¬(Plain c ∧ m c = none ∧ OneTable 0 file.length ∧ p.Granted)) := by
  rw [Filesys.putFile]
  by_cases own : p.blocks = false ∨ ¬OneTable 0 file.length
  · rw [if_pos own]
    refine .inr ⟨rfl, fun may => own.elim (fun short => ?_) fun long => long may.2.2.1⟩
    rw [may.2.2.2.blocks] at short
    cases short
  rw [if_neg own]
  rw [not_or, Bool.not_eq_false, not_not] at own
  rcases flat.create single file.length fun s here => (new s here).2 with
    ⟨s, f, run, sector, map, plain, free, record⟩ | ⟨run, refused⟩
  · obtain ⟨zero, one, unused⟩ := new s sector
    have flat' := flat.added file.length free zero one map
    have bound : Function.update m c (some s) c = some s := Function.update_self ..
    have made : (t.added s file.length f).disk s = ⟨file.length, false, 1⟩ := by
      simp [Tree.added, one]
    have opens := flat'.open_ single plain bound (p := p) (by rw [made])
    rw [run]
    dsimp only
    by_cases granted : p.opening.inode = true ∧ p.opening.handle = true
    · rw [if_pos granted] at opens
      rw [opens]
      dsimp only
      have closed : (t.added s file.length f).opens s = none := flat.closed s zero
      have here : ((t.added s file.length f).opened s).opens s =
          some ⟨1, false, ⟨file.length, false, 1⟩⟩ := by
        rw [← made]
        exact Function.update_self ..
      have rest : 0 + file.length = file.length := Nat.zero_add _
      have start : file.length ≠ 0 → 0 = 512 * 0 := fun _ => rfl
      have sectors' : ∀ j < dataSectors file.length,
          dev.sector (n + j) = dataSector file (0 + j) := by
        simpa using sectors
      obtain ⟨bytes, data', copies, all⟩ := putData_eq rest start (Nat.le_refl _) fits sectors' here
        rfl (fun i less => absurd less (Nat.not_lt_zero i)) data
      let t' : Tree := { t.added s file.length f with
        bytes := Function.update (t.added s file.length f).bytes s bytes }
      have ends : (t'.opened s).inodeClose s = t' := Tree.opened_inodeClose closed
      have there : t'.record s = ⟨file.length, false, 1⟩ := by
        simp only [t', Tree.record, closed, made]
      rw [copies]
      refine .inl ⟨s, t', data', ?_, sector, flat'.rewrite one bytes, ⟨?_, ?_, fun i less => ?_⟩,
        fun d u old => ?_, plain, free, own.2, record, by simp [sector], own.1, granted.1,
        granted.2⟩
      · rw [Option.map_some]
        exact congrArg (fun t => some (t, _, data')) ends
      · rw [there]
      · rw [there]
      · rw [← all i less]
        exact congrFun (Function.update_self ..) i
      · have ne : u ≠ s := by
          rintro rfl
          rw [(flat.used u).mpr (.inr (.inr ⟨d, old⟩))] at unused
          cases unused
        have other := (flat.apart d u old).2
        constructor
        · simp [t', Tree.record, Tree.added, ne, other]
        · simp [t', Tree.added, ne, other]
    · rw [if_neg granted] at opens
      refine .inr ⟨?_, fun may => granted ⟨may.2.2.2.inode, may.2.2.2.handle⟩⟩
      split
      next opened => exact absurd opened (opens _ _)
      next => rfl
  · refine .inr ⟨?_, fun may => refused ⟨may.1, may.2.1, may.2.2.2.record, may.2.2.2.sector⟩⟩
    split
    next made => exact absurd made (run _)
    next => rfl

end Calls

end Pintos.Filesys
