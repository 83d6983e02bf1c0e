import Pintos.Filesys.FileSlices
import Pintos.Filesys.GrowthExact

/-! A file that `inode_create` has made, up to the last single-indirect block: whatever its sectors
had before, it reads as zeros. -/

namespace Pintos.Filesys

open Words Role

/-- The sector has zeros only. -/
def Blank (fs : Fs) (s : Nat) : Prop := ∀ i < 512, fs.data s i = 0

theorem memset_blank (fs : Fs) (s : Nat) : Blank (fs.memset s 0 512) s := by
  intro i small
  have count : ((512 : Int) % 2 ^ 32).toNat = 512 := by decide
  simp only [Fs.memset, Function.update_self, fillZero, count]
  exact if_pos (by omega)

theorem Blank.memset {fs : Fs} {t : Nat} (h : Blank fs t) (s start : Nat) (count : Int) :
    Blank (fs.memset s start count) t := by
  intro i small
  simp only [Fs.memset, Function.update_apply]
  split
  next same =>
    subst same
    rw [fillZero]
    split
    · rfl
    · exact h i small
  next => exact h i small

theorem Blank.of_data {fs fs' : Fs} {t : Nat} (h : Blank fs t) (same : fs'.data t = fs.data t) :
    Blank fs' t := by
  intro i small
  rw [same]
  exact h i small

/-- `n` allocations have mapped the roles `U` of a new file, and all of its blocks are blank. -/
structure BlankFile (fs₀ : Fs) (ino₀ : InodeDisk) (n : Nat) (fs : Fs) (ino : InodeDisk)
    (U : Role → Prop) : Prop extends Lengthened 0 fs₀ ino₀ (Upto 0) n fs ino U where
  blank : ∀ b, U (.data b) → Blank fs (sectorAt fs ino (.data b))

namespace BlankFile

variable {fs₀ fs : Fs} {ino₀ ino : InodeDisk} {U V : Role → Prop} {n b count : Nat}

theorem congr (h : BlankFile fs₀ ino₀ n fs ino U) (same : ∀ r, U r ↔ V r) :
    BlankFile fs₀ ino₀ n fs ino V := by
  obtain rfl : U = V := funext fun r => propext (same r)
  exact h

/-- The direct block of a file of length 0, allocated and zeroed. -/
theorem direct (fs : Fs) (ino : InodeDisk) (empty : ino.length = 0) (writable : fs.free.Writable)
    (length : Nat) (room : 0 < fs.free.freeCount) :
    let sp := fs.allocPointer ino.sp
    BlankFile fs ino 1 (sp.1.memset sp.2 0 512) { ino with length := length, sp := sp.2 }
      (Upto 1) := by
  have none : Maps fs ino (Upto 0) := by
    have maps := maps_empty fs ino empty
    rw [empty] at maps
    exact maps
  have grown := ((none.lengthened writable 0).set_length length).allocPointer (r := .data 0) room
    (Nat.lt_irrefl 0) rfl
    (fun _ s => (rfl : sectorAt _ { ino with length := length, sp := s } (.data 0) = s))
    (fun _ s r' hr' => by cases r' <;> simp [Upto] at hr') ino.sp
  have mapped := (grown.congr upto_one).memset (b := 0) Nat.one_pos 0 (fun _ => Nat.zero_le _) 512
  refine ⟨mapped, fun b hb => ?_⟩
  obtain rfl : b = 0 := Nat.lt_one_iff.mp hb
  exact memset_blank _ _

/-- The single-level index of a file of one block. -/
theorem allocInd (h : BlankFile fs₀ ino₀ n fs ino (Upto 1)) (enough : n < fs₀.free.freeCount) :
    let ind := fs.allocPointer ino.ind
    BlankFile fs₀ ino₀ (n + 1) ind.1 { ino with ind := ind.2 } (SingleTo 1) := by
  have grown := h.toLengthened.allocPointer (r := .ind) enough (Nat.lt_irrefl 1) rfl
    (fun _ s => (rfl : sectorAt _ { ino with ind := s } .ind = s))
    (fun _ s r' hr' => by
      cases r' with
      | data b =>
        obtain rfl : b = 0 := Nat.lt_one_iff.mp hr'
        rfl
      | ind | din | second i => simp [Upto] at hr') ino.ind
  refine ⟨grown, fun b hb => ?_⟩
  obtain rfl : b = 0 := by
    rcases hb with hb | hb
    · exact Nat.lt_one_iff.mp hb
    · cases hb
  refine (h.blank 0 Nat.one_pos).of_data (congrFun ?_ _)
  rw [Fs.allocPointer]
  split <;> rfl

/-- One more block. -/
theorem growEntry (h : BlankFile fs₀ ino₀ n fs ino U) (enough : n < fs₀.free.freeCount)
    {R : Role} {k : Nat} (hR : U R) (out : ¬U (.data b)) (slot : (Role.data b).slot = some (R, k))
    (bound : k < 128) :
    ∃ fs', fs.growEntry (sectorAt fs ino R) k = .ok fs' ∧
      BlankFile fs₀ ino₀ (n + 1) fs' ino fun r' => U r' ∨ r' = .data b := by
  obtain ⟨mid, alloc, added, same, others⟩ := h.toGrown.allocEntry enough hR out slot bound
  obtain ⟨fs', grow, grown⟩ := h.toLengthened.growEntry enough hR out slot bound
  refine ⟨fs', grow, grown, fun c hc => ?_⟩
  have here : sectorAt mid ino (.data b) = getWord (mid.data (sectorAt fs ino R)) k := by
    rw [sectorAt_slot mid ino slot, same R hR]
  obtain rfl : mid.memset (sectorAt mid ino (.data b)) 0 512 = fs' := by
    simp only [Fs.growEntry, alloc, Fs.index_of_lt _ _ bound, ← here, bind, Except.bind] at grow
    exact Except.ok.inj grow
  -- The zeroed sector is no index, so that all roles stay where they are.
  have away : ∀ R', U R' ∨ R' = .data b → R'.IsIndex →
      sectorAt mid ino R' ≠ sectorAt mid ino (.data b) := by
    intro R' hR' index eq
    obtain rfl := added.maps.distinct R' (.data b) hR' (.inr rfl) eq
    exact index
  have moved : sectorAt (mid.memset (sectorAt mid ino (.data b)) 0 512) ino (.data c) =
      sectorAt mid ino (.data c) := added.maps.layout.sectorAt_write away rfl _ hc
  rw [moved]
  rcases hc with old | new
  · rw [same _ old]
    refine ((h.blank c old).of_data (others _ fun eq => ?_)).memset _ 0 512
    obtain rfl := h.maps.distinct _ _ old hR eq
    exact Role.isIndex_of_slot slot
  · rw [new]
    exact memset_blank mid _

theorem growEntries (h : BlankFile fs₀ ino₀ n fs ino (SingleTo b)) (low : 1 ≤ b)
    (high : b + count ≤ 129) (enough : n + count ≤ fs₀.free.freeCount) :
    ∃ fs', Fs.growEntries ino.ind (b - 1) count fs = .ok fs' ∧
      BlankFile fs₀ ino₀ (n + count) fs' ino (SingleTo (b + count)) := by
  refine Fs.growEntries_rounds
    (P := fun i fs => BlankFile fs₀ ino₀ (n + i) fs ino (SingleTo (b + i))) ?_ h
  intro i fs hi h
  have out : ¬SingleTo (b + i) (.data (b + i)) := by simp [SingleTo, Upto]
  obtain ⟨fs', grow, grown⟩ := h.growEntry (by omega) (.inr rfl) out
    (slot_single (by omega) (by omega)) (by omega)
  refine ⟨fs', ?_, grown.congr (singleTo_succ (by omega) (by omega))⟩
  rw [show b - 1 + i = b + i - 1 by omega]
  exact grow

end BlankFile

/-- `inode_alloc` up to the last single-indirect block, as one sequence of allocations. -/
theorem fileGrowth_new (fs : Fs) {ino : InodeDisk} (empty : ino.length = 0) {length : Nat}
    (single : length ≤ 129 * 512) :
    let sp := fs.allocPointer ino.sp
    let first := sp.1.memset sp.2 0 512
    let ind := first.allocPointer ino.ind
    fileGrowth fs ino 0 length =
      if length = 512 then .ok (first, { ino with length := length, sp := sp.2 })
      else (Fs.growEntries ind.2 0 (min (length / 512) 128) ind.1).map fun fs =>
        (fs, { ino with length := length, sp := sp.2, ind := ind.2 }) := by
  intro sp first ind
  have direct : growDirect fs { ino with length := length } 0 0 =
      (first, { ino with length := length, sp := sp.2 }, 512, 1) := rfl
  have tail : ∀ (fs : Fs) (ino : InodeDisk), fillTail fs ino 512 1 = .ok (fs, 1) :=
    fun _ _ => rfl
  have blocks : ¬(length / 512 = 0 ∧ 0 ≠ 0) := fun h => h.2 rfl
  simp only [fileGrowth, empty, Nat.zero_add, Nat.zero_div, Nat.zero_mod, if_neg blocks, direct,
    if_true, growSingle, fillSingle, tail]
  by_cases one : length = 512
  · have block : length / 512 = 1 ∧ length % 512 = 0 := by omega
    rw [if_pos one, if_pos block]
  have past : ¬(length / 512 = 1 ∧ length % 512 = 0) := by omega
  rw [if_neg one, if_neg past]
  by_cases below : length / 512 < 129
  · have count : min (length / 512) 128 = length / 512 := by omega
    rw [if_pos below, count]
    show (do
      let fs ← Fs.growEntries ind.2 0 (length / 512 + 1 - 1) ind.1
      Except.ok (fs, { ino with length := length, sp := sp.2, ind := ind.2 })) = _
    rw [Nat.add_sub_cancel]
    cases Fs.growEntries ind.2 0 (length / 512) ind.1 <;> rfl
  · have last : length / 512 = 129 ∧ length % 512 = 0 := by omega
    have count : min (length / 512) 128 = 128 := by omega
    rw [if_neg below, count, if_pos (by decide : 512 < 129 * 512)]
    simp only [if_pos last]
    show ((Fs.growEntries ind.2 0 128 ind.1 >>= fun fs => Except.ok (fs, 129 * 512, 129)) >>=
      fun result => Except.ok (result.1,
        { ino with length := length, sp := sp.2, ind := ind.2 })) = _
    cases Fs.growEntries ind.2 0 128 ind.1 <;> rfl

/-- The calls of `free_map_allocate` that it makes. -/
theorem growthCalls_new {length : Nat} (single : length ≤ 129 * 512) :
    growthCalls 0 length = if length = 512 then 1 else 2 + min (length / 512) 128 := by
  have blocks : ¬(length / 512 = 0 / 512 ∧ 0 % 512 ≠ 0) := fun h => h.2 rfl
  have next : nextBlock 0 = 1 := rfl
  simp only [growthCalls, if_neg blocks, next, if_true, if_pos (Nat.zero_le 512)]
  by_cases one : length = 512
  · subst one
    rfl
  have past : ¬(length / 512 = 1 ∧ length % 512 = 0) := by omega
  rw [if_neg past, if_neg one]
  by_cases below : length / 512 < 129
  · rw [if_pos below]
    omega
  · have last : length / 512 = 129 ∧ length % 512 = 0 := by omega
    rw [if_neg below, if_pos last]
    omega

/-- `inode_alloc` of a length up to the last single-indirect block ends with a blank file. -/
theorem fileGrowth_blank (fs : Fs) {ino : InodeDisk} (empty : ino.length = 0) {length : Nat}
    (single : length ≤ 129 * 512) (writable : fs.free.Writable)
    (room : growthCalls 0 length ≤ fs.free.freeCount) :
    ∃ fs' ino', fileGrowth fs ino 0 length = .ok (fs', ino') ∧ ∃ U,
      BlankFile fs ino (growthCalls 0 length) fs' ino' U ∧
        ∀ r, Upto (bytesToSectors length) r → U r := by
  rw [growthCalls_new single] at room ⊢
  rw [fileGrowth_new fs empty single]
  by_cases one : length = 512
  · rw [if_pos one] at room ⊢
    rw [if_pos one]
    refine ⟨_, _, rfl, Upto 1, .direct fs ino empty writable length room, fun r hr => ?_⟩
    rw [one] at hr
    exact hr
  · rw [if_neg one] at room ⊢
    rw [if_neg one]
    have start := (BlankFile.direct fs ino empty writable length (by omega)).allocInd (by omega)
    obtain ⟨fs', run, grown⟩ := start.growEntries (Nat.le_refl 1)
      (by omega : 1 + min (length / 512) 128 ≤ 129) room
    refine ⟨fs', _, by rw [run]; rfl, _, grown, fun r hr => ?_⟩
    apply upto_of_singleTo _ hr
    unfold bytesToSectors
    omega

/-- The bytes of a blank file. -/
theorem BlankFile.byteAt {fs₀ fs : Fs} {ino₀ ino : InodeDisk} {U : Role → Prop} {n p : Nat}
    (h : BlankFile fs₀ ino₀ n fs ino U) (mapped : U (.data (p / 512))) :
    Filesys.byteAt fs ino p = 0 :=
  h.blank _ mapped (p % 512) (Nat.mod_lt p (by decide))

/-- A new inode in a sector that is in use and not open has the length, the type and the root as
parent when it is opened, and all of its bytes read as zero, whatever the free sectors had. -/
theorem new_file_reads_zeros (st : Files) (sector length : Nat) (isdir : Bool)
    (allocated : st.fs.free.Used sector) (closed : st.opens sector = none)
    (single : length ≤ 129 * 512) (writable : st.fs.free.Writable)
    (room : growthCalls 0 length ≤ st.fs.free.freeCount) :
    ∃ fs' d, inodeCreate st.fs sector length isdir = .ok fs' ∧
      (Files.inodeOpen { st with fs := fs' } sector).opens sector = some ⟨1, false, 0, d⟩ ∧
      d.length = length ∧ d.isdir = isdir ∧ d.parent = 1 ∧
      ∀ size offset, offset + size ≤ length →
        inodeReadAt fs' d size offset = .ok (List.replicate size 0) := by
  have empty : InodeDisk.length ⟨0, 0, 0, 0, isdir, 0⟩ = 0 := rfl
  obtain ⟨fs₁, d₁, run, U, blank, mapped⟩ := fileGrowth_blank st.fs empty single writable room
  obtain ⟨sp, ind, din, record, small_sp, small_ind, small_din⟩ := fileGrowth_inode run
  -- The sectors of the file were free before, so the record goes to none of them.
  have off : ∀ r, U r → sectorAt fs₁ d₁ r ≠ sector := by
    rintro r hr rfl
    exact FreeMap.not_used_of_free (blank.new r hr (by cases r <;> simp [Upto])) allocated
  have small : Files.Small { d₁ with parent := 1 } := by
    have zero : 0 < 2 ^ 32 := by decide
    have one : 1 < 2 ^ 32 := by decide
    rw [record]
    exact ⟨by simp only; omega, small_sp zero, small_ind zero, small_din zero, one⟩
  obtain ⟨maps, same⟩ := Files.maps_copyTo (d := { d₁ with parent := 1 }) (c := fs₁.data sector)
    (blank.maps.of_same (fun r _ => Files.sectorAt_parent fs₁ d₁ 1 r) fun _ => id)
    (fun r hr => (Files.sectorAt_parent fs₁ d₁ 1 r).symm ▸ off r hr)
  rw [Files.read_copyTo_small small] at maps same
  have length_eq : d₁.length = length := by
    rw [record]
    exact Nat.zero_add length
  refine ⟨fs₁.put sector (({ d₁ with parent := 1 } : InodeDisk).copyTo (fs₁.data sector)),
    { d₁ with parent := 1 }, ?_, ?_, length_eq, ?_, rfl, fun size offset inside => ?_⟩
  · rw [inodeCreate, run]
    rfl
  · simp only [Files.inodeOpen, closed, Function.update_self, Fs.put_self]
    rw [Files.read_copyTo_small small]
  · rw [record]
  · have cover : ∀ p < d₁.length, U (.data (p / 512)) := by
      intro p hp
      apply mapped
      simp only [Upto, bytesToSectors]
      omega
    have all : min size (d₁.length - offset) = size := by omega
    rw [inodeReadAt_eq maps cover, all]
    refine congrArg Except.ok (List.eq_replicate_iff.mpr ⟨by simp, fun byte mem => ?_⟩)
    obtain ⟨i, hi, rfl⟩ := List.mem_map.mp mem
    have block : U (.data ((offset + i) / 512)) := by
      apply cover
      rw [List.mem_range] at hi
      omega
    have sector_eq := (same _ block).trans (Files.sectorAt_parent fs₁ d₁ 1 _)
    exact (byteAt_congr sector_eq (Fs.put_of_ne fs₁ _ (off _ block))).trans (blank.byteAt block)

/-- Old contents everywhere; the sectors 0, 1 and 2 are in use. -/
def usedDisk : Files where
  fs := {
    data := fun s i => UInt8.ofNat (s + i + 1)
    free := {
      size := 12
      used := fun s => s < 3
      file := some fun s => s < 3
      writeFails := fun _ => none
      writes := 0
      small := by decide }
    memsets := [] }
  opens := fun _ => none
  live := fun s => s < 2

/-- A file of 700 bytes in sector 2. -/
theorem new_file_reads_zeros_two_blocks :
    ∃ fs' d, inodeCreate usedDisk.fs 2 700 false = .ok fs' ∧ d.length = 700 ∧
      inodeReadAt fs' d 200 500 = .ok (List.replicate 200 0) := by
  obtain ⟨fs', d, run, -, length, -, -, zeros⟩ := new_file_reads_zeros usedDisk 2 700 false
    ⟨by decide, rfl⟩ rfl (by decide) (fun _ => rfl) (by decide)
  exact ⟨fs', d, run, length, zeros 200 500 (by decide)⟩

end Pintos.Filesys
