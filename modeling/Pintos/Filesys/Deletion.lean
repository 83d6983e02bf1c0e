import Mathlib.Data.List.Nodup
import Pintos.Filesys.NoAlias

/-! Which sectors `inode_delete` releases, against those of the layout that the length of the file
asks for. -/

namespace Pintos.Filesys

open Words Role Results

/-- `n` entries of an index, from entry `k` on. -/
def entries (index : Bytes) (k n : Nat) : List Nat := (List.range' k n).map (getWord index)

/-- `free_map_release` of one sector after the other. -/
def releaseAll (dev : Nat → Bytes) : List Nat → Fs → Except Fault Fs
  | [], fs => .ok fs
  | s :: rest, fs => do
    let fs ← releaseSector dev fs s
    releaseAll dev rest fs

section Release

variable {dev : Nat → Bytes} {fs fs' : Fs} {s : Nat}

/-- A release takes the mark from its sector, which was marked. -/
theorem releaseSector_used (run : releaseSector dev fs s = .ok fs') :
    fs.free.Used s ∧ fs'.free.file.isSome ∧ ∀ t, fs'.free.Used t ↔ fs.free.Used t ∧ t ≠ s := by
  obtain ⟨free, release, put⟩ := bind_ok run
  obtain rfl := Except.ok.inj put
  obtain ⟨marked, used⟩ := FreeMap.release_used release
  exact ⟨marked, (FreeMap.release_synced release).1, used⟩

theorem releaseAll_used {list : List Nat} (run : releaseAll dev list fs = .ok fs') (t : Nat) :
    fs'.free.Used t ↔ fs.free.Used t ∧ t ∉ list := by
  induction list generalizing fs with
  | nil =>
    obtain rfl := Except.ok.inj run
    simp
  | cons s rest ih =>
    obtain ⟨mid, first, run⟩ := bind_ok run
    obtain ⟨-, -, used⟩ := releaseSector_used first
    rw [ih run, used, List.mem_cons, not_or, and_assoc]

/-- Releases go through when every sector is marked and none comes twice. -/
theorem releaseAll_ok_iff {list : List Nat} (file : fs.free.file.isSome) :
    (∃ fs', releaseAll dev list fs = .ok fs') ↔ list.Nodup ∧ ∀ s ∈ list, fs.free.Used s := by
  induction list generalizing fs with
  | nil => simp [releaseAll]
  | cons s rest ih =>
    rw [List.nodup_cons, List.forall_mem_cons]
    constructor
    · rintro ⟨fs', run⟩
      obtain ⟨mid, first, run⟩ := bind_ok run
      obtain ⟨marked, file', used⟩ := releaseSector_used first
      obtain ⟨nodup, all⟩ := (ih file').mp ⟨fs', run⟩
      refine ⟨⟨fun again => ?_, nodup⟩, marked, fun t mem => ((used t).mp (all t mem)).1⟩
      exact ((used s).mp (all s again)).2 rfl
    · rintro ⟨⟨new, nodup⟩, marked, all⟩
      obtain ⟨mid, first, file'⟩ := Files.releaseSector_ok dev marked file
      obtain ⟨-, -, used⟩ := releaseSector_used first
      obtain ⟨fs', run⟩ := (ih file').mpr ⟨nodup, fun t mem => by
        apply (used t).mpr ⟨all t mem, ?_⟩
        rintro rfl
        exact new mem⟩
      refine ⟨fs', ?_⟩
      rw [releaseAll, first]
      exact run

theorem releaseEntries_eq (index : Bytes) {k count : Nat} (bound : k + count ≤ 128) (fs : Fs) :
    releaseEntries dev index k count fs = releaseAll dev (entries index k count) fs := by
  induction count generalizing k fs with
  | zero => rfl
  | succ count ih =>
    rw [releaseEntries, if_pos (by omega), entries, List.range'_succ, List.map_cons, releaseAll]
    congr 1
    funext mid
    exact ih (by omega) mid

/-- The loop over the single-level index does not get past its end. -/
theorem releaseEntries_bound {index : Bytes} {k count : Nat} (some : count ≠ 0)
    (run : releaseEntries dev index k count fs = .ok fs') : k + count ≤ 128 := by
  induction count generalizing k fs with
  | zero => exact absurd rfl some
  | succ count ih =>
    rw [releaseEntries] at run
    split at run
    next inside =>
      obtain ⟨mid, -, run⟩ := bind_ok run
      by_cases last : count = 0
      · omega
      · have rest := ih last run
        omega
    next => cases run

end Release

/-- A deletion makes the sectors of the layout available and no others.  A release asserts that its
sector is marked, so that none of them was passed twice. -/
def ReleasesExactly (dev : Nat → Bytes) (fs : Fs) (d : InodeDisk) : Prop :=
  ∃ fs', inodeDelete dev fs d = .ok fs' ∧ ∀ s, fs.free.Used s ∧ ¬fs'.free.Used s ↔
    ∃ r, Upto (bytesToSectors d.length) r ∧ sectorAt fs d r = s

/-- The entries that a deletion takes, `block_current` of them from `block_current - 1` on, are
those of the blocks: there is one, or the stale entries after it repeat the first ones. -/
def TakesOwnEntries (fs : Fs) (d : InodeDisk) : Prop :=
  d.length ≤ 512 ∨ d.length < 65 * 512 ∧ d.length % 512 ≠ 0 ∧
    (entries (fs.data d.ind) (d.length / 512) (d.length / 512 - 1)).Perm
      (entries (fs.data d.ind) 0 (d.length / 512 - 1))

instance (fs : Fs) (d : InodeDisk) : Decidable (TakesOwnEntries fs d) :=
  inferInstanceAs (Decidable (_ ∨ _ ∧ _ ∧ _))

/-- The sectors of a file that needs no double-level index. -/
def ownSectors (fs : Fs) (d : InodeDisk) : List Nat :=
  if d.length ≤ 512 then [d.sp]
  else d.sp :: d.ind :: entries (fs.data d.ind) 0 (bytesToSectors d.length - 1)

/-- The sectors that the deletion of such a file passes to `free_map_release`. -/
def deletedSectors (fs : Fs) (d : InodeDisk) : List Nat :=
  if d.length ≤ 512 then [d.sp]
  else d.sp :: d.ind :: entries (fs.data d.ind) (d.length / 512 - 1) (d.length / 512)

section Lists

variable {fs : Fs} {d : InodeDisk}

theorem mem_entries {index : Bytes} {k n s : Nat} :
    s ∈ entries index k n ↔ ∃ i < n, getWord index (k + i) = s := by
  simp only [entries, List.mem_map, List.mem_range'_1]
  constructor
  · rintro ⟨j, ⟨low, high⟩, rfl⟩
    exact ⟨j - k, by omega, by rw [Nat.add_sub_of_le low]⟩
  · rintro ⟨i, small, rfl⟩
    exact ⟨k + i, ⟨by omega, by omega⟩, rfl⟩

theorem mem_ownSectors (some : 0 < d.length) (single : d.length ≤ 129 * 512) (s : Nat) :
    s ∈ ownSectors fs d ↔ ∃ r, Upto (bytesToSectors d.length) r ∧ sectorAt fs d r = s := by
  have short : bytesToSectors d.length ≤ 129 ∧ (d.length ≤ 512 ↔ bytesToSectors d.length ≤ 1) ∧
      0 < bytesToSectors d.length := by
    unfold bytesToSectors
    omega
  rw [ownSectors]
  constructor
  · intro mem
    split at mem
    next =>
      obtain rfl := List.mem_singleton.mp mem
      exact ⟨.data 0, short.2.2, rfl⟩
    next long =>
      rcases List.mem_cons.mp mem with rfl | mem
      · exact ⟨.data 0, short.2.2, rfl⟩
      rcases List.mem_cons.mp mem with rfl | mem
      · exact ⟨.ind, by simp only [Upto]; omega, rfl⟩
      obtain ⟨i, small, rfl⟩ := mem_entries.mp mem
      refine ⟨.data (i + 1), by simp only [Upto]; omega, ?_⟩
      rw [sectorAt_slot fs d (slot_single (by omega) (by omega)), Nat.zero_add]
      rfl
  · rintro ⟨r, hr, rfl⟩
    cases r with
    | data b =>
      simp only [Upto] at hr
      by_cases first : b = 0
      · subst first
        split
        next => exact List.mem_singleton_self _
        next => exact List.mem_cons_self
      · rw [if_neg (by omega), sectorAt_slot fs d (slot_single (by omega) (by omega))]
        apply List.mem_cons_of_mem _
        apply List.mem_cons_of_mem _ (mem_entries.mpr ⟨b - 1, by omega, ?_⟩)
        rw [Nat.zero_add]
        rfl
    | ind =>
      simp only [Upto] at hr
      rw [if_neg (by omega)]
      exact List.mem_cons_of_mem _ List.mem_cons_self
    | din | second i =>
      simp only [Upto] at hr
      omega

theorem Maps.nodup_ownSectors (maps : Maps fs d (Upto (bytesToSectors d.length)))
    (single : d.length ≤ 129 * 512) : (ownSectors fs d).Nodup := by
  rw [ownSectors]
  split
  next => simp
  next long =>
    have direct : Upto (bytesToSectors d.length) (.data 0) := by
      simp only [Upto, bytesToSectors]
      omega
    have ind : Upto (bytesToSectors d.length) .ind := by
      simp only [Upto, bytesToSectors]
      omega
    have entry : ∀ i < bytesToSectors d.length - 1, Upto (bytesToSectors d.length) (.data (i + 1)) ∧
        sectorAt fs d (.data (i + 1)) = getWord (fs.data d.ind) (0 + i) := by
      intro i small
      have few : bytesToSectors d.length ≤ 129 := by
        unfold bytesToSectors
        omega
      refine ⟨by simp only [Upto]; omega, ?_⟩
      rw [sectorAt_slot fs d (slot_single (by omega) (by omega)), Nat.zero_add]
      rfl
    refine List.nodup_cons.mpr ⟨fun mem => ?_, List.nodup_cons.mpr ⟨fun mem => ?_, ?_⟩⟩
    · rcases List.mem_cons.mp mem with eq | mem
      · cases maps.distinct (.data 0) .ind direct ind eq
      · obtain ⟨i, small, eq⟩ := mem_entries.mp mem
        obtain ⟨block, word⟩ := entry i small
        cases maps.distinct _ (.data 0) block direct (word.trans eq)
    · obtain ⟨i, small, eq⟩ := mem_entries.mp mem
      obtain ⟨block, word⟩ := entry i small
      cases maps.distinct _ .ind block ind (word.trans eq)
    · rw [entries]
      refine List.Nodup.map_on (fun i hi j hj eq => ?_) List.nodup_range'
      rw [List.mem_range'_1] at hi hj
      obtain ⟨block, word⟩ := entry i (by omega)
      obtain ⟨block', word'⟩ := entry j (by omega)
      rw [Nat.zero_add] at word word'
      have role := maps.distinct _ _ block block' (word.trans (eq.trans word'.symm))
      injection role with same
      omega

/-- Both lists are the same up to order exactly when the deletion takes the entries of the
blocks. -/
theorem deletedSectors_perm_iff (short : d.length < 65 * 512) :
    (deletedSectors fs d).Perm (ownSectors fs d) ↔ TakesOwnEntries fs d := by
  rw [deletedSectors, ownSectors, TakesOwnEntries]
  split
  next one => exact ⟨fun _ => .inl one, fun _ => .refl _⟩
  next long =>
    rw [List.perm_cons, List.perm_cons]
    obtain ⟨c, blocks⟩ : ∃ c, d.length / 512 = c + 1 := ⟨d.length / 512 - 1, by omega⟩
    rw [blocks, Nat.add_sub_cancel]
    have first : entries (fs.data d.ind) c (c + 1) =
        getWord (fs.data d.ind) c :: entries (fs.data d.ind) (c + 1) c := by
      rw [entries, List.range'_succ, List.map_cons]
      rfl
    rw [first]
    by_cases whole : d.length % 512 = 0
    · have less : bytesToSectors d.length - 1 = c := by
        unfold bytesToSectors
        omega
      rw [less]
      constructor
      · intro perm
        have length := perm.length_eq
        simp [entries] at length
      · omega
    · have more : bytesToSectors d.length - 1 = c + 1 := by
        unfold bytesToSectors
        omega
      have last : entries (fs.data d.ind) 0 (c + 1) =
          entries (fs.data d.ind) 0 c ++ [getWord (fs.data d.ind) c] := by
        rw [entries, List.range'_concat, List.map_append]
        simp [entries]
      rw [more, last, (List.perm_append_singleton _ _).congr_right, List.perm_cons]
      exact ⟨fun perm => .inr ⟨short, whole, perm⟩, fun own => (own.resolve_left long).2.2⟩

end Lists

section Delete

variable {dev : Nat → Bytes} {fs : Fs} {d : InodeDisk}

theorem deleteDouble_short (dev : Nat → Bytes) (fs : Fs) (short : d.length < 129 * 512) :
    deleteDouble dev fs d = .ok fs := by
  rw [deleteDouble, if_neg (by omega)]

/-- Up to 65 blocks the deletion is a release of these sectors, in their order. -/
theorem Maps.inodeDelete_eq (maps : Maps fs d (Upto (bytesToSectors d.length)))
    (dev : Nat → Bytes) (short : d.length < 65 * 512) :
    inodeDelete dev fs d = releaseAll dev (deletedSectors fs d) fs := by
  unfold inodeDelete deletedSectors
  by_cases one : d.length ≤ 512
  · have single : ∀ fs, deleteSingle dev fs d = .ok fs := fun fs => if_neg (by omega)
    rw [if_pos one, releaseAll]
    congr 1
    funext fs₁
    rw [single]
    exact deleteDouble_short dev fs₁ (by omega)
  · rw [if_neg one, releaseAll]
    cases first : releaseSector dev fs d.sp with
    | error e => rfl
    | ok fs₁ =>
      -- The index is read after the release of the direct block.
      have index : fs₁.data d.ind = fs.data d.ind := by
        apply (Files.releaseSector_kept (P := (· ≠ d.sp)) first (fun ne => ne rfl)).data
        intro eq
        have ind : Upto (bytesToSectors d.length) .ind := by
          simp only [Upto, bytesToSectors]
          omega
        have direct : Upto (bytesToSectors d.length) (.data 0) := by
          simp only [Upto, bytesToSectors]
          omega
        cases maps.distinct .ind (.data 0) ind direct eq
      have single : deleteSingle dev fs₁ d = releaseSector dev fs₁ d.ind >>=
          releaseEntries dev (fs.data d.ind) (d.length / 512 - 1) (d.length / 512) := by
        rw [← index]
        exact if_pos (by omega)
      show (deleteSingle dev fs₁ d >>= fun fs => deleteDouble dev fs d) = releaseAll dev _ fs₁
      rw [single, releaseAll, bind_assoc]
      congr 1
      funext fs₂
      rw [releaseEntries_eq _ (by omega)]
      cases releaseAll dev _ fs₂ with
      | error e => rfl
      | ok fs₃ => exact deleteDouble_short dev fs₃ (by omega)

/-- From 65 blocks on the deletion runs past the end of the index. -/
theorem inodeDelete_long {fs' : Fs} (long : 65 * 512 ≤ d.length) :
    inodeDelete dev fs d ≠ .ok fs' := by
  intro run
  obtain ⟨fs₁, -, run⟩ := bind_ok run
  obtain ⟨fs₂, single, -⟩ := bind_ok run
  unfold deleteSingle at single
  rw [if_pos (by omega)] at single
  obtain ⟨fs₃, -, loop⟩ := bind_ok single
  have bound := releaseEntries_bound (by omega) loop
  omega

/-- The deletions that release exactly the sectors of the file. -/
theorem delete_releases_exactly_iff (dev : Nat → Bytes) (fs : Fs) (d : InodeDisk)
    (some : 0 < d.length) (maps : Maps fs d (Upto (bytesToSectors d.length)))
    (file : fs.free.file.isSome) : ReleasesExactly dev fs d ↔ TakesOwnEntries fs d := by
  by_cases short : d.length < 65 * 512
  · have own : ∀ s, s ∈ ownSectors fs d ↔
        ∃ r, Upto (bytesToSectors d.length) r ∧ sectorAt fs d r = s :=
      mem_ownSectors some (by omega)
    rw [ReleasesExactly, maps.inodeDelete_eq dev short, ← deletedSectors_perm_iff short]
    constructor
    · rintro ⟨fs', run, freed⟩
      obtain ⟨nodup, marked⟩ := (releaseAll_ok_iff file).mp ⟨fs', run⟩
      apply (List.perm_ext_iff_of_nodup nodup (maps.nodup_ownSectors (by omega))).mpr
      intro s
      rw [own, ← freed, releaseAll_used run]
      constructor
      · exact fun mem => ⟨marked s mem, fun both => both.2 mem⟩
      · exact fun both => by_contra fun out => both.2 ⟨both.1, out⟩
    · intro perm
      have marked : ∀ s ∈ deletedSectors fs d, fs.free.Used s := by
        intro s mem
        obtain ⟨r, hr, rfl⟩ := (own s).mp (perm.mem_iff.mp mem)
        exact maps.used r hr
      obtain ⟨fs', run⟩ := (releaseAll_ok_iff file).mpr
        ⟨perm.nodup_iff.mpr (maps.nodup_ownSectors (by omega)), marked⟩
      refine ⟨fs', run, fun s => ?_⟩
      rw [← own, ← perm.mem_iff, releaseAll_used run]
      constructor
      · exact fun both => by_contra fun out => both.2 ⟨both.1, out⟩
      · exact fun mem => ⟨marked s mem, fun both => both.2 mem⟩
  · constructor
    · rintro ⟨fs', run, -⟩
      exact absurd run (inodeDelete_long (by omega))
    · intro own
      unfold TakesOwnEntries at own
      omega

end Delete

section Runs

/-- A device of sixteen sectors, eight of them in use, with an index in sector 3. -/
def indexFs : Fs where
  data := fun s => if s = 3 then ofWords fun k => 4 + k else fun _ => 0
  free := {
    size := 16
    used := fun s => decide (s < 8)
    file := some fun s => decide (s < 8)
    writeFails := fun _ => none
    writes := 0
    small := by decide }
  memsets := []

/-- A file whose direct block is in sector 2. -/
def indexFile (length : Nat) : InodeDisk := ⟨length, 2, 3, 0, false, 1⟩

theorem indexFile_block (length : Nat) : sectorAt indexFs (indexFile length) (.data 1) = 4 :=
  getWord_ofWords (fun k => 4 + k) (by decide)

theorem indexFile_maps {length : Nat} (two : bytesToSectors length = 2) :
    Maps indexFs (indexFile length) (Upto (bytesToSectors (indexFile length).length)) := by
  have roles : ∀ r, Upto (bytesToSectors (indexFile length).length) r →
      r = .data 0 ∨ r = .data 1 ∨ r = .ind := by
    intro r hr
    have two : bytesToSectors (indexFile length).length = 2 := two
    rw [two] at hr
    cases r <;> simp only [Upto] at hr <;> simp <;> omega
  refine ⟨fun r R k hr slot => ⟨hr.closed slot, ?_⟩, fun r hr => ?_, fun r r' hr hr' eq => ?_⟩
  · rcases roles r hr with rfl | rfl | rfl
    · cases slot
    · cases slot
      decide
    · cases slot
  · rcases roles r hr with rfl | rfl | rfl
    · exact ⟨show 2 < 16 by decide, rfl⟩
    · rw [indexFile_block]
      exact ⟨by decide, rfl⟩
    · exact ⟨show 3 < 16 by decide, rfl⟩
  · have block := indexFile_block length
    rcases roles r hr with rfl | rfl | rfl <;> rcases roles r' hr' with rfl | rfl | rfl <;>
      simp [sectorAt, indexFile] at block eq ⊢ <;> omega

/-- The deletion of 600 bytes. -/
theorem delete_releases_exactly_short : ReleasesExactly (fun _ _ => 0) indexFs (indexFile 600) :=
  (delete_releases_exactly_iff (fun _ _ => 0) indexFs (indexFile 600) (by decide)
    (indexFile_maps (by decide)) rfl).mpr (by decide)

/-- The deletion of 1024 bytes releases sectors 5 and 6, which are not of the file. -/
theorem delete_releases_foreign : ¬ReleasesExactly (fun _ _ => 0) indexFs (indexFile 1024) := by
  rintro ⟨fs', run, freed⟩
  obtain rfl := Except.ok.inj run
  obtain ⟨r, hr, sector⟩ := (freed 5).mp ⟨⟨by decide, rfl⟩, fun used => nomatch used.2⟩
  have block := indexFile_block 1024
  cases r with
  | data b =>
    have two : b < 2 := hr
    obtain rfl | rfl : b = 0 ∨ b = 1 := by omega
    · cases sector
    · rw [block] at sector
      cases sector
  | ind => cases sector
  | din => exact absurd hr (by decide)
  | second i =>
    have small : 129 + 128 * i < 2 := hr
    omega

end Runs

end Pintos.Filesys
