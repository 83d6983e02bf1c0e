import Pintos.Filesys.NewFile

/-! What `file_growth` keeps, whatever the inode is and whether or not sectors are left: it is made
of zero fills and of allocations into pointers and index entries. -/

namespace Pintos.Filesys

open Words Results

/-- The parts of `file_growth` keep `P`. -/
structure GrowthKeeps (P : Fs → Prop) : Prop where
  memset : ∀ fs s start count, P fs → P (fs.memset s start count)
  pointer : ∀ fs old, P fs → P (fs.allocPointer old).1
  entry : ∀ fs fs' table k, P fs → fs.allocEntry table k = .ok fs' → P fs'

namespace GrowthKeeps

variable {P : Fs → Prop} {fs fs' : Fs} {ino ino' : InodeDisk} {length blockCurrent block n m : Nat}

theorem growEntry (keeps : GrowthKeeps P) {table k : Nat} (h : P fs)
    (run : fs.growEntry table k = .ok fs') : P fs' := by
  obtain ⟨mid, alloc, run⟩ := bind_ok run
  obtain ⟨s, -, run⟩ := bind_ok run
  cases run
  exact keeps.memset _ _ _ _ (keeps.entry _ _ _ _ h alloc)

theorem growEntries (keeps : GrowthKeeps P) {table k count : Nat} (h : P fs)
    (run : Fs.growEntries table k count fs = .ok fs') : P fs' := by
  induction count generalizing k fs with
  | zero =>
    cases run
    exact h
  | succ count ih =>
    obtain ⟨mid, first, rest⟩ := bind_ok run
    exact ih (keeps.growEntry h first) rest

theorem allocEntries (keeps : GrowthKeeps P) {table k count : Nat} (h : P fs)
    (run : Fs.allocEntries table k count fs = .ok fs') : P fs' := by
  induction count generalizing k fs with
  | zero =>
    cases run
    exact h
  | succ count ih =>
    obtain ⟨mid, first, rest⟩ := bind_ok run
    exact ih (keeps.entry _ _ _ _ h first) rest

theorem growTable (keeps : GrowthKeeps P) {din i j count : Nat} (h : P fs)
    (run : Fs.growTable din i j count fs = .ok fs') : P fs' := by
  induction count generalizing j fs with
  | zero =>
    cases run
    exact h
  | succ count ih =>
    obtain ⟨table, -, run⟩ := bind_ok run
    obtain ⟨mid, first, rest⟩ := bind_ok run
    exact ih (keeps.growEntry h first) rest

theorem growTables (keeps : GrowthKeeps P) {din mj nj mi ni i count : Nat} (h : P fs)
    (run : Fs.growTables din mj nj mi ni i count fs = .ok fs') : P fs' := by
  induction count generalizing i fs with
  | zero =>
    cases run
    exact h
  | succ count ih =>
    obtain ⟨mid, first, rest⟩ := bind_ok run
    exact ih (keeps.growTable h first) rest

theorem fillTail (keeps : GrowthKeeps P) (h : P fs)
    (run : fillTail fs ino length blockCurrent = .ok (fs', n)) : P fs' := by
  unfold Filesys.fillTail at run
  split at run
  · obtain ⟨s, -, run⟩ := bind_ok run
    cases run
    exact keeps.memset _ _ _ _ h
  · cases run
    exact h

theorem growSingle (keeps : GrowthKeeps P) (h : P fs)
    (run : growSingle fs ino length blockCurrent block = .ok fs') : P fs' := by
  obtain ⟨⟨mid, b⟩, tail, run⟩ := bind_ok run
  exact keeps.growEntries (keeps.fillTail h tail) run

theorem fillSingle (keeps : GrowthKeeps P) (h : P fs)
    (run : fillSingle fs ino length blockCurrent = .ok (fs', n, m)) : P fs' := by
  unfold Filesys.fillSingle at run
  split at run
  · obtain ⟨⟨mid, b⟩, tail, run⟩ := bind_ok run
    obtain ⟨fs₁, fill, run⟩ := bind_ok run
    cases run
    exact keeps.growEntries (keeps.fillTail h tail) fill
  · cases run
    exact h

theorem fillTailDouble (keeps : GrowthKeeps P) (h : P fs)
    (run : fillTailDouble fs ino length blockCurrent = .ok (fs', n)) : P fs' := by
  unfold Filesys.fillTailDouble at run
  split at run
  · obtain ⟨table, -, run⟩ := bind_ok run
    obtain ⟨s, -, run⟩ := bind_ok run
    cases run
    exact keeps.memset _ _ _ _ h
  · cases run
    exact h

theorem growDouble (keeps : GrowthKeeps P) (h : P fs)
    (run : growDouble fs ino length blockCurrent block = .ok (fs', ino')) : P fs' := by
  have din : P (if length = 512 * 129 then fs.allocPointer ino.din else (fs, ino.din)).1 := by
    split
    · exact keeps.pointer _ _ h
    · exact h
  obtain ⟨⟨fs₁, b⟩, tail, run⟩ := bind_ok run
  obtain ⟨fs₂, table, run⟩ := bind_ok run
  obtain ⟨fs₃, tables, run⟩ := bind_ok run
  obtain ⟨fs₄, grow, run⟩ := bind_ok run
  cases run
  have first : P fs₂ := by
    unfold Fs.allocTable at table
    split at table
    · exact keeps.entry _ _ _ _ (keeps.fillTailDouble din tail) table
    · cases table
      exact keeps.fillTailDouble din tail
  exact keeps.growTables (keeps.allocEntries first tables) grow

/-- The parts of `file_growth` after the direct block. -/
theorem fileGrowth_of_direct (keeps : GrowthKeeps P) {pos size : Nat}
    (direct : P (growDirect fs { ino with length := pos + size } ino.length (ino.length / 512)).1)
    (tail : (pos + size) / 512 = ino.length / 512 → ino.length % 512 ≠ 0 → P fs)
    (run : fileGrowth fs ino pos size = .ok (fs', ino')) : P fs' := by
  unfold fileGrowth at run
  dsimp only at run
  split at run
  next same =>
    obtain ⟨s, -, run⟩ := bind_ok run
    cases run
    exact keeps.memset _ _ _ _ (tail same.1 same.2)
  generalize growDirect fs { ino with length := pos + size } ino.length (ino.length / 512) = start
    at run direct
  obtain ⟨fs₁, ino₁, length, blockCurrent⟩ := start
  dsimp only at run
  split at run
  · cases run
    exact direct
  have ind : P (if length = 512 then fs₁.allocPointer ino₁.ind else (fs₁, ino₁.ind)).1 := by
    split
    · exact keeps.pointer _ _ direct
    · exact direct
  split at run
  · obtain ⟨fs₂, single, run⟩ := bind_ok run
    cases run
    exact keeps.growSingle ind single
  · obtain ⟨⟨fs₂, length, blockCurrent⟩, fill, run⟩ := bind_ok run
    have filled := keeps.fillSingle ind fill
    dsimp only at run
    split at run
    · cases run
      exact filled
    · exact keeps.growDouble filled run

theorem fileGrowth (keeps : GrowthKeeps P) {pos size : Nat} (h : P fs)
    (run : fileGrowth fs ino pos size = .ok (fs', ino')) : P fs' := by
  refine keeps.fileGrowth_of_direct ?_ (fun _ _ => h) run
  have start : P (if ino.length = 0 then fs.allocPointer ino.sp else (fs, ino.sp)).1 := by
    split
    · exact keeps.pointer _ _ h
    · exact h
  unfold growDirect
  dsimp only
  split
  · exact keeps.memset _ _ _ _ start
  · exact start

/-- A growth from nothing keeps what its first block establishes. -/
theorem fileGrowth_new (keeps : GrowthKeeps P) (empty : ino.length = 0)
    (first : P ((fs.allocPointer ino.sp).1.memset (fs.allocPointer ino.sp).2 0 512))
    (run : Filesys.fileGrowth fs ino 0 length = .ok (fs', ino')) : P fs' := by
  refine keeps.fileGrowth_of_direct ?_ (fun _ some => absurd (by rw [empty]) some) run
  unfold growDirect
  simp only [empty, if_true, Nat.zero_div]
  exact first

end GrowthKeeps

end Pintos.Filesys
