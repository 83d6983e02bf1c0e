import Pintos.Filesys.Growth

/-! What `file_growth` asks of the free map and what it zeroes, whatever the inode is and whether
or not sectors are left: the number of calls of `free_map_allocate`, the arguments of `memset`, and
the lengths for which a subscript leaves an index block. -/

namespace Pintos.Filesys

open Words Role

/-- A `memset` of bytes of the cache entry. -/
def Memset.InSector (m : Memset) : Prop := 0 ≤ m.count ∧ m.start + m.count ≤ 512

instance (m : Memset) : Decidable m.InSector := inferInstanceAs (Decidable (_ ∧ _))

/-- A `memset` from the end of the file on, in its partial last block. -/
def IsTail (fs : Fs) (ino : InodeDisk) (L : Nat) (m : Memset) : Prop :=
  m.sector = sectorAt fs ino (.data (L / 512)) ∧ m.start = L % 512 ∧ L % 512 ≠ 0

/-- From `fs` to `fs'` there are `n` calls of `free_map_allocate`.  What is zeroed on the way is
inside a sector, and when the calls succeed it is the end of a block, as in `tail`, or a sector that
was free. -/
structure Filled (tail : Memset → Prop) (n : Nat) (fs fs' : Fs) : Prop where
  free : fs'.free = fs.free.allocs n
  log : ∃ new, fs'.memsets = fs.memsets ++ new ∧ ∀ m ∈ new, m.InSector ∧
    (fs.free.Writable → n ≤ fs.free.freeCount → fs.free.Free m.sector ∨ tail m)

section Parts

variable {tail : Memset → Prop} {fs fs' : Fs} {n : Nat}

theorem Filled.refl (fs : Fs) : Filled tail 0 fs fs :=
  ⟨rfl, [], (List.append_nil _).symm, fun _ mem => nomatch mem⟩

theorem Filled.trans {mid : Fs} {k : Nat} (h : Filled tail n fs mid) (h' : Filled tail k mid fs') :
    Filled tail (n + k) fs fs' := by
  obtain ⟨new, log, inside⟩ := h.log
  obtain ⟨new', log', inside'⟩ := h'.log
  refine ⟨?_, new ++ new', ?_, fun m mem => ?_⟩
  · rw [h'.free, h.free, FreeMap.allocs_add]
  · rw [log', log, List.append_assoc]
  · rcases List.mem_append.mp mem with first | second
    · obtain ⟨range, fresh⟩ := inside m first
      exact ⟨range, fun writable enough => fresh writable (by omega)⟩
    · obtain ⟨range, fresh⟩ := inside' m second
      refine ⟨range, fun writable enough => ?_⟩
      have count := FreeMap.allocs_freeCount writable (by omega : n ≤ fs.free.freeCount)
      rw [h.free] at fresh
      apply (fresh (FreeMap.allocs_writable writable) (by omega)).imp_left
      exact FreeMap.free_of_allocs

theorem Filled.recount {k : Nat} (h : Filled tail n fs fs') (eq : n = k) : Filled tail k fs fs' :=
  eq ▸ h

/-- A call without a `memset`. -/
theorem Filled.of_call (free : fs'.free = (fs.free.allocate 1).1) (log : fs'.memsets = fs.memsets) :
    Filled tail 1 fs fs' := by
  refine ⟨free, [], ?_, fun m mem => nomatch mem⟩
  rw [log, List.append_nil]

theorem Filled.of_memset {m : Memset} (free : fs'.free = fs.free)
    (log : fs'.memsets = fs.memsets ++ [m]) (range : m.InSector) (here : tail m) :
    Filled tail 0 fs fs' := by
  refine ⟨free, [m], log, fun m' mem => ?_⟩
  obtain rfl := List.mem_singleton.mp mem
  exact ⟨range, fun _ _ => .inr here⟩

variable (tail)

theorem allocPointer_filled (fs : Fs) (old : Nat) :
    Filled tail 1 fs (fs.allocPointer old).1 ∧ (fs.allocPointer old).1.data = fs.data := by
  rw [Fs.allocPointer]
  split
  next m s alloc => exact ⟨.of_call (by rw [alloc]) rfl, rfl⟩
  next m alloc => exact ⟨.of_call (by rw [alloc]) rfl, rfl⟩

theorem allocEntry_filled (fs : Fs) (table : Nat) {k : Nat} (bound : k < 128) :
    ∃ fs', fs.allocEntry table k = .ok fs' ∧ Filled tail 1 fs fs' := by
  rw [Fs.allocEntry, if_pos bound]
  split
  next m s alloc => exact ⟨_, rfl, .of_call (by rw [alloc]) rfl⟩
  next m alloc => exact ⟨_, rfl, .of_call (by rw [alloc]) rfl⟩

/-- A new block is the sector of the call, when that succeeds. -/
theorem growEntry_filled (fs : Fs) (table : Nat) {k : Nat} (bound : k < 128) :
    ∃ fs', fs.growEntry table k = .ok fs' ∧ Filled tail 1 fs fs' := by
  obtain ⟨mid, alloc, filled⟩ := allocEntry_filled tail fs table bound
  obtain ⟨new, log, inside⟩ := filled.log
  refine ⟨mid.memset (getWord (mid.data table) k) 0 512, ?_, filled.free,
    new ++ [⟨getWord (mid.data table) k, 0, 512⟩], ?_, fun m mem => ?_⟩
  · simp only [Fs.growEntry, alloc, Fs.index_of_lt _ _ bound, bind, Except.bind]
  · rw [Fs.memset, log, List.append_assoc]
  · rcases List.mem_append.mp mem with old | last
    · exact inside m old
    · obtain rfl := List.mem_singleton.mp last
      refine ⟨⟨Int.natCast_nonneg 512, Int.le_refl 512⟩, fun writable enough => .inl ?_⟩
      obtain ⟨m, s, call, takes⟩ := FreeMap.allocate_takes writable enough
      have small : s < 2 ^ 32 := Nat.lt_of_lt_of_le takes.free.1 fs.free.small
      rw [Fs.allocEntry, if_pos bound, call] at alloc
      obtain rfl := Except.ok.inj alloc
      simp only [Function.update_self, getWord_setWord_self _ _ small]
      exact takes.free

section Loops

theorem growEntries_filled (table : Nat) {k count : Nat} (fs : Fs) (range : k + count ≤ 128) :
    ∃ fs', Fs.growEntries table k count fs = .ok fs' ∧ Filled tail count fs fs' := by
  induction count generalizing k fs with
  | zero => exact ⟨fs, rfl, .refl fs⟩
  | succ count ih =>
    obtain ⟨mid, first, filled⟩ := growEntry_filled tail fs table (by omega : k < 128)
    obtain ⟨fs', rest, filled'⟩ := ih (k := k + 1) mid (by omega)
    refine ⟨fs', ?_, (filled.trans filled').recount (by omega)⟩
    rw [Fs.growEntries, first]
    exact rest

theorem growTable_filled (din : Nat) {i j count : Nat} (fs : Fs) (index : i < 128)
    (range : j + count ≤ 128) :
    ∃ fs', Fs.growTable din i j count fs = .ok fs' ∧ Filled tail count fs fs' := by
  induction count generalizing j fs with
  | zero => exact ⟨fs, rfl, .refl fs⟩
  | succ count ih =>
    obtain ⟨mid, first, filled⟩ := growEntry_filled tail fs (getWord (fs.data din) i)
      (by omega : j < 128)
    obtain ⟨fs', rest, filled'⟩ := ih (j := j + 1) mid (by omega)
    refine ⟨fs', ?_, (filled.trans filled').recount (by omega)⟩
    simp only [Fs.growTable, Fs.index_of_lt _ _ index, first, bind, Except.bind]
    exact rest

variable (din : Nat) {mj mi i count : Nat}

/-- The tables from `i` to `mi` get the blocks up to entry `ni` of the last one. -/
theorem growTables_filled (nj ni : Nat) (fs : Fs) (low : mj ≤ i) (last : i + count = mi + 1)
    (tables : mi < 128) (first_entry : nj < 128) (last_entry : ni < 128)
    (order : mi = mj → nj ≤ ni) :
    ∃ fs', Fs.growTables din mj nj mi ni i count fs = .ok fs' ∧
      Filled tail (128 * mi + ni + 1 - (128 * i + if i = mj then nj else 0)) fs fs' := by
  induction count generalizing i fs with
  | zero => exact ⟨fs, rfl, (Filled.refl fs).recount (by omega)⟩
  | succ count ih =>
    generalize hlow : (if i = mj then nj else 0) = start
    generalize hhigh : (if i = mi then ni + 1 else 128) = stop
    have within : start ≤ stop ∧ stop ≤ 128 := by
      split at hlow <;> split at hhigh <;> omega
    obtain ⟨mid, fill, filled⟩ := growTable_filled tail din fs (by omega : i < 128)
      (by omega : start + (stop - start) ≤ 128)
    obtain ⟨fs', rest, filled'⟩ := ih (i := i + 1) mid (by omega) (by omega)
    rw [if_neg (by omega)] at filled'
    refine ⟨fs', ?_, (filled.trans filled').recount ?_⟩
    · simp only [Fs.growTables, hlow, hhigh, fill, bind, Except.bind]
      exact rest
    · split at hhigh <;> omega

/-- There is no place for a table after the last entry of the double-level index. -/
theorem growTables_fault (fs : Fs) (low : mj ≤ i) (last : i + count = mi + 1) (more : 0 < count)
    (tables : 128 ≤ mi) (first_entry : nj < 128) (order : mi = mj → nj ≤ ni) :
    Fs.growTables din mj nj mi ni i count fs = .error .subscript := by
  induction count generalizing i fs with
  | zero => omega
  | succ count ih =>
    generalize hlow : (if i = mj then nj else 0) = start
    generalize hhigh : (if i = mi then ni + 1 else 128) = stop
    simp only [Fs.growTables, hlow, hhigh, bind, Except.bind]
    by_cases inside : i < 128
    · rw [if_neg (by omega)] at hhigh
      have entry : start ≤ 128 := by split at hlow <;> omega
      obtain ⟨mid, fill, _⟩ := growTable_filled (fun _ => True) din fs inside
        (by omega : start + (stop - start) ≤ 128)
      rw [fill]
      exact ih mid (by omega) (by omega) (by omega)
    · have some : stop - start = stop - start - 1 + 1 := by
        split at hlow <;> split at hhigh <;> omega
      rw [some, Fs.growTable, Fs.index, if_neg inside]
      rfl

end Loops

end Parts

/-- The number of calls of `free_map_allocate` in a growth from length `L` to length `N`. -/
def growthCalls (L N : Nat) : Nat :=
  if N / 512 = L / 512 ∧ L % 512 ≠ 0 then 0
  else (if L = 0 then 1 else 0) +
    if N / 512 = 1 ∧ N % 512 = 0 then 0
    else (if L ≤ 512 then 1 else 0) +
      if N / 512 < 129 then N / 512 + 1 - nextBlock L
      else 129 - nextBlock L +
        if N / 512 = 129 ∧ N % 512 = 0 then 0
        else (if L ≤ 129 * 512 then 1 else 0) +
          (if (nextDouble L - 129) % 128 = 0 then 1 else 0) + (N / 512 + 1 - nextDouble L)

/-- `growthSectors` counts the second-level indexes too that the code allocates none for. -/
theorem growthCalls_of_oneTable {L N : Nat} (one : OneTable L N) :
    growthSectors L N = growthCalls L N := by
  rw [growthSectors, growthCalls]
  by_cases tail : N / 512 = L / 512 ∧ L % 512 ≠ 0
  · rw [if_pos tail, if_pos tail]
  rw [if_neg tail, if_neg tail]
  by_cases short : N ≤ 129 * 512
  · by_cases single : N / 512 < 129
    · simp only [if_pos single]
    · have last : N / 512 = 129 ∧ N % 512 = 0 := by omega
      simp only [if_neg single, if_pos last]
  · have table := (one.resolve_left short).resolve_left tail
    simp only [table.1, Nat.sub_self, Nat.add_zero]

section Inode

variable {fs₀ : Fs} {ino₀ : InodeDisk} {L : Nat}

/-- `fs` and `ino` are what a growth from length `L` has come to after `n` calls.  Where the file
reaches past `start`, nothing was done yet. -/
structure Grows (fs₀ : Fs) (ino₀ : InodeDisk) (L start n : Nat) (fs : Fs) (ino : InodeDisk) :
    Prop where
  filled : Filled (IsTail fs₀ ino₀ L) n fs₀ fs
  length : ino.length = ino₀.length
  same : start < L → fs = fs₀ ∧ ino = ino₀

variable {fs : Fs} {ino : InodeDisk} {n start : Nat}

theorem growDirect_grows (fs₀ : Fs) (ino₀ : InodeDisk) (L : Nat) :
    ∃ fs ino, growDirect fs₀ ino₀ L (L / 512) = (fs, ino, max 512 L, max 1 (L / 512)) ∧
      Grows fs₀ ino₀ L 511 (if L = 0 then 1 else 0) fs ino := by
  by_cases empty : L = 0
  · subst empty
    obtain ⟨filled, _⟩ := allocPointer_filled (IsTail fs₀ ino₀ 0) fs₀ ino₀.sp
    obtain ⟨new, log, inside⟩ := filled.log
    refine ⟨(fs₀.allocPointer ino₀.sp).1.memset (fs₀.allocPointer ino₀.sp).2 0 512,
      { ino₀ with sp := (fs₀.allocPointer ino₀.sp).2 }, rfl, ⟨filled.free,
        new ++ [⟨(fs₀.allocPointer ino₀.sp).2, 0, 512⟩], ?_, fun m mem => ?_⟩, rfl, by omega⟩
    · rw [Fs.memset, log, List.append_assoc]
    · rcases List.mem_append.mp mem with old | last
      · exact inside m old
      · obtain rfl := List.mem_singleton.mp last
        refine ⟨⟨Int.natCast_nonneg 512, Int.le_refl 512⟩, fun writable enough => .inl ?_⟩
        obtain ⟨m, s, call, takes⟩ := FreeMap.allocate_takes writable enough
        simp only [Fs.allocPointer, call]
        exact takes.free
  · rw [if_neg empty]
    by_cases small : L < 512
    · refine ⟨fs₀.memset ino₀.sp L (512 - L), ino₀, ?_, .of_memset rfl rfl ?_ ?_, rfl, by omega⟩
      · rw [growDirect, if_neg empty, if_pos (by omega), Nat.max_eq_left (by omega),
          Nat.max_eq_left (by omega), show L / 512 + 1 = 1 by omega]
      · constructor <;> simp only <;> omega
      · refine ⟨?_, (Nat.mod_eq_of_lt small).symm, by omega⟩
        rw [Nat.div_eq_of_lt small]
        rfl
    · refine ⟨fs₀, ino₀, ?_, .refl fs₀, rfl, fun _ => ⟨rfl, rfl⟩⟩
      rw [growDirect, if_neg empty, if_neg (by omega), Nat.max_eq_right (by omega),
        Nat.max_eq_right (by omega)]

theorem Grows.allocInd (h : Grows fs₀ ino₀ L 511 n fs ino) :
    ∃ ind, (if max 512 L = 512 then fs.allocPointer ino.ind else (fs, ino.ind)) = ind ∧
      Grows fs₀ ino₀ L 512 (n + if L ≤ 512 then 1 else 0) ind.1 { ino with ind := ind.2 } := by
  refine ⟨_, rfl, ?_⟩
  by_cases small : L ≤ 512
  · rw [if_pos (Nat.max_eq_left small), if_pos small]
    have filled := (allocPointer_filled (IsTail fs₀ ino₀ L) fs ino.ind).1
    exact ⟨h.filled.trans filled, h.length, by omega⟩
  · rw [if_neg (by omega : ¬max 512 L = 512), if_neg small]
    exact ⟨h.filled, h.length, fun long => h.same (by omega)⟩

/-- The end of the last block is zeroed before anything else is. -/
theorem Grows.fillTail (h : Grows fs₀ ino₀ L 512 n fs ino) (range : L < 129 * 512) :
    ∃ fs', Filesys.fillTail fs ino (max 512 L) (max 1 (L / 512)) = .ok (fs', nextBlock L) ∧
      Grows fs₀ ino₀ L (129 * 512) n fs' ino := by
  by_cases partial_ : max 512 L % 512 = 0
  · have next : max 1 (L / 512) = nextBlock L := by
      unfold nextBlock bytesToSectors
      omega
    refine ⟨fs, ?_, h.filled, h.length, by omega⟩
    rw [Filesys.fillTail, if_neg (by simpa using partial_), next]
  · have next : max 1 (L / 512) + 1 = nextBlock L := by
      unfold nextBlock bytesToSectors
      omega
    obtain ⟨rfl, rfl⟩ := h.same (by omega)
    have long : max 512 L = L := by omega
    have block : max 1 (L / 512) = L / 512 := by omega
    have entry : L / 512 - 1 < 128 := by omega
    have last := sectorAt_slot fs ino (slot_single (by omega : 1 ≤ L / 512) (by omega))
    have filled : Filled (IsTail fs ino L) 0 fs
        (fs.memset (sectorAt fs ino (.data (L / 512))) (L % 512) (512 - (L : Nat) % 512)) :=
      .of_memset rfl rfl (by constructor <;> simp only <;> omega) ⟨rfl, rfl, by omega⟩
    refine ⟨_, ?_, (h.filled.trans filled).recount (by omega), rfl, by omega⟩
    rw [long] at partial_ ⊢
    rw [block] at next ⊢
    simp only [Filesys.fillTail, if_pos partial_, Fs.index_of_lt _ _ entry, bind, Except.bind, next,
      last]
    rfl

theorem Grows.growSingle (h : Grows fs₀ ino₀ L 512 n fs ino) (range : L < 129 * 512) {block : Nat}
    (high : block < 129) :
    ∃ fs', Filesys.growSingle fs ino (max 512 L) (max 1 (L / 512)) block = .ok fs' ∧
      Grows fs₀ ino₀ L (129 * 512) (n + (block + 1 - nextBlock L)) fs' ino := by
  obtain ⟨mid, tail, grows⟩ := h.fillTail range
  have low : 1 ≤ nextBlock L := Nat.le_max_left 1 _
  have small : nextBlock L ≤ 129 := by
    unfold nextBlock bytesToSectors
    omega
  obtain ⟨fs', rest, filled⟩ := growEntries_filled (IsTail fs₀ ino₀ L) ino.ind mid
    (by omega : nextBlock L - 1 + (block + 1 - nextBlock L) ≤ 128)
  refine ⟨fs', ?_, grows.filled.trans filled, h.length, by omega⟩
  rw [Filesys.growSingle, tail]
  exact rest

theorem Grows.fillSingle (h : Grows fs₀ ino₀ L 512 n fs ino) :
    ∃ fs', Filesys.fillSingle fs ino (max 512 L) (max 1 (L / 512)) =
        .ok (fs', max (129 * 512) L, max 129 (L / 512)) ∧
      Grows fs₀ ino₀ L (129 * 512 - 1) (n + (129 - nextBlock L)) fs' ino := by
  by_cases range : L < 129 * 512
  · obtain ⟨fs', grown, grows⟩ := h.growSingle range (by omega : 128 < 129)
    refine ⟨fs', ?_, grows.filled, h.length, by omega⟩
    obtain ⟨mid, tail, _⟩ := h.fillTail range
    rw [Filesys.growSingle, tail] at grown
    rw [Filesys.fillSingle, if_pos (by omega), tail, Nat.max_eq_left (by omega),
      Nat.max_eq_left (by omega)]
    simp only [bind, Except.bind] at grown ⊢
    rw [grown]
  · have none : 129 - nextBlock L = 0 := by
      unfold nextBlock bytesToSectors
      omega
    refine ⟨fs, ?_, h.filled.recount (by omega), h.length, fun _ => h.same (by omega)⟩
    rw [Filesys.fillSingle, if_neg (by omega)]
    congr 3 <;> omega

theorem Grows.allocDin (h : Grows fs₀ ino₀ L (129 * 512 - 1) n fs ino) :
    ∃ din,
      (if max (129 * 512) L = 512 * 129 then fs.allocPointer ino.din else (fs, ino.din)) = din ∧
      Grows fs₀ ino₀ L (129 * 512) (n + if L ≤ 129 * 512 then 1 else 0) din.1
        { ino with din := din.2 } := by
  refine ⟨_, rfl, ?_⟩
  by_cases small : L ≤ 129 * 512
  · rw [if_pos (Nat.max_eq_left small), if_pos small]
    have filled := (allocPointer_filled (IsTail fs₀ ino₀ L) fs ino.din).1
    exact ⟨h.filled.trans filled, h.length, by omega⟩
  · rw [if_neg (by omega : ¬max (129 * 512) L = 512 * 129), if_neg small]
    exact ⟨h.filled, h.length, fun long => h.same (by omega)⟩

theorem Grows.fillTailDouble (h : Grows fs₀ ino₀ L (129 * 512) n fs ino) (range : L < 16513 * 512) :
    ∃ fs', Filesys.fillTailDouble fs ino (max (129 * 512) L) (max 129 (L / 512)) =
        .ok (fs', nextDouble L) ∧ Filled (IsTail fs₀ ino₀ L) n fs₀ fs' := by
  by_cases partial_ : max (129 * 512) L % 512 = 0
  · have next : max 129 (L / 512) = nextDouble L := by
      unfold nextDouble bytesToSectors
      omega
    refine ⟨fs, ?_, h.filled⟩
    rw [Filesys.fillTailDouble, if_neg (by simpa using partial_), next]
  · have next : max 129 (L / 512) + 1 = nextDouble L := by
      unfold nextDouble bytesToSectors
      omega
    obtain ⟨rfl, rfl⟩ := h.same (by omega)
    have long : max (129 * 512) L = L := by omega
    have block : max 129 (L / 512) = L / 512 := by omega
    have table : (L / 512 - 129) / 128 < 128 := by omega
    have entry : (L / 512 - 129) % 128 < 128 := by omega
    have last := sectorAt_slot fs ino (slot_double (by omega : 129 ≤ L / 512))
    have filled : Filled (IsTail fs ino L) 0 fs
        (fs.memset (sectorAt fs ino (.data (L / 512))) (L % 512) (512 - (L : Nat) % 512)) :=
      .of_memset rfl rfl (by constructor <;> simp only <;> omega) ⟨rfl, rfl, by omega⟩
    refine ⟨_, ?_, (h.filled.trans filled).recount (by omega)⟩
    rw [long] at partial_ ⊢
    rw [block] at next ⊢
    simp only [Filesys.fillTailDouble, if_pos partial_, Fs.index_of_lt _ _ table,
      Fs.index_of_lt _ _ entry, bind, Except.bind, next, last]
    rfl

theorem allocTable_filled (tail : Memset → Prop) (fs : Fs) (din : Nat) {mj : Nat} (nj : Nat)
    (bound : mj < 128) :
    ∃ fs', fs.allocTable din mj nj = .ok fs' ∧ Filled tail (if nj = 0 then 1 else 0) fs fs' := by
  rw [Fs.allocTable]
  split
  next => exact allocEntry_filled tail fs din bound
  next => exact ⟨fs, rfl, .refl fs⟩

/-- The double-indirect part, for blocks that have a place in the double-level index. -/
theorem Grows.growDouble (h : Grows fs₀ ino₀ L (129 * 512 - 1) n fs ino) {block : Nat}
    (low : nextDouble L ≤ block) (high : block < 16513) :
    ∃ fs' ino', Filesys.growDouble fs ino (max (129 * 512) L) (max 129 (L / 512)) block =
        .ok (fs', ino') ∧
      Filled (IsTail fs₀ ino₀ L) (n + ((if L ≤ 129 * 512 then 1 else 0) +
        (if (nextDouble L - 129) % 128 = 0 then 1 else 0) +
          (block + 1 - nextDouble L))) fs₀ fs' := by
  have first : 129 ≤ nextDouble L := Nat.le_max_left 129 _
  have range : L < 16513 * 512 := by
    unfold nextDouble bytesToSectors at low
    omega
  obtain ⟨din, alloc, grows⟩ := h.allocDin
  obtain ⟨mid, tail, filled⟩ := grows.fillTailDouble range
  obtain ⟨fs₁, table, filled₁⟩ := allocTable_filled (IsTail fs₀ ino₀ L) mid din.2
    ((nextDouble L - 129) % 128) (by omega : (nextDouble L - 129) / 128 < 128)
  obtain ⟨fs', tables, filled₂⟩ := growTables_filled (IsTail fs₀ ino₀ L) din.2
    ((nextDouble L - 129) % 128) ((block - 129) % 128) fs₁
    (Nat.le_refl ((nextDouble L - 129) / 128))
    (by omega : (nextDouble L - 129) / 128 +
      ((block - 129) / 128 + 1 - (nextDouble L - 129) / 128) = (block - 129) / 128 + 1)
    (by omega) (by omega) (by omega) (by omega)
  rw [if_pos rfl] at filled₂
  have none : (nextDouble L - 129) / 128 - (block - 129) / 128 = 0 := by omega
  refine ⟨fs', { ino with din := din.2 }, ?_,
    ((filled.trans filled₁).trans filled₂).recount (by omega)⟩
  simp only [Filesys.growDouble, alloc, tail, table, none, Fs.allocEntries, tables, bind,
    Except.bind]

/-- The double-indirect part needs a place for its last block in the double-level index. -/
theorem Grows.growDouble_fault (h : Grows fs₀ ino₀ L (129 * 512 - 1) n fs ino) {block : Nat}
    (low : nextDouble L ≤ block) (high : 16513 ≤ block) :
    Filesys.growDouble fs ino (max (129 * 512) L) (max 129 (L / 512)) block =
      .error .subscript := by
  have first : 129 ≤ nextDouble L := Nat.le_max_left 129 _
  obtain ⟨din, alloc, grows⟩ := h.allocDin
  by_cases tail : L % 512 ≠ 0 ∧ 16513 ≤ L / 512
  · have partial_ : max (129 * 512) L % 512 ≠ 0 := by omega
    have table : ¬(max 129 (L / 512) - 129) / 128 < 128 := by omega
    simp only [Filesys.growDouble, alloc, Filesys.fillTailDouble, if_pos partial_, Fs.index,
      if_neg table, bind, Except.bind]
  · have filled : ∃ mid, Filesys.fillTailDouble din.1 { ino with din := din.2 }
        (max (129 * 512) L) (max 129 (L / 512)) = .ok (mid, nextDouble L) := by
      by_cases range : L < 16513 * 512
      · obtain ⟨mid, tail, _⟩ := grows.fillTailDouble range
        exact ⟨mid, tail⟩
      · refine ⟨din.1, ?_⟩
        have next : max 129 (L / 512) = nextDouble L := by
          unfold nextDouble bytesToSectors
          omega
        rw [Filesys.fillTailDouble, if_neg (by omega), next]
    obtain ⟨mid, tail⟩ := filled
    have none : (nextDouble L - 129) / 128 - (block - 129) / 128 = 0 := by omega
    have tables : ∀ fs₁, Fs.growTables din.2 ((nextDouble L - 129) / 128)
        ((nextDouble L - 129) % 128) ((block - 129) / 128) ((block - 129) % 128)
        ((nextDouble L - 129) / 128) ((block - 129) / 128 + 1 - (nextDouble L - 129) / 128) fs₁ =
          .error .subscript := by
      intro fs₁
      apply growTables_fault <;> omega
    simp only [Filesys.growDouble, alloc, tail, bind, Except.bind]
    by_cases fresh : (nextDouble L - 129) % 128 = 0
    · by_cases inside : (nextDouble L - 129) / 128 < 128
      · obtain ⟨fs₁, table, _⟩ := allocTable_filled (fun _ => True) mid din.2
          ((nextDouble L - 129) % 128) inside
        simp only [table, none, Fs.allocEntries, tables]
      · simp only [Fs.allocTable, if_pos fresh, Fs.allocEntry, if_neg inside]
    · simp only [Fs.allocTable, if_neg fresh, none, Fs.allocEntries, tables]

end Inode

section Growth

variable (fs : Fs) (ino : InodeDisk) {pos size : Nat}
  (blocks : ¬((pos + size) / 512 = ino.length / 512 ∧ ino.length % 512 ≠ 0))

include blocks

/-- A growth past the first block up to where it goes on in the single-level index. -/
theorem fileGrowth_enter (past : ¬((pos + size) / 512 = 1 ∧ (pos + size) % 512 = 0)) :
    ∃ fs' ino', fileGrowth fs ino pos size = (
        if (pos + size) / 512 < 129 then do
          let fs ← growSingle fs' ino' (max 512 ino.length) (max 1 (ino.length / 512))
            ((pos + size) / 512)
          .ok (fs, ino')
        else do
          let (fs, length, blockCurrent) ←
            fillSingle fs' ino' (max 512 ino.length) (max 1 (ino.length / 512))
          if (pos + size) / 512 = 129 ∧ (pos + size) % 512 = 0 then .ok (fs, ino')
          else growDouble fs ino' length blockCurrent ((pos + size) / 512)) ∧
      Grows fs { ino with length := pos + size } ino.length 512
        ((if ino.length = 0 then 1 else 0) + if ino.length ≤ 512 then 1 else 0) fs' ino' := by
  obtain ⟨fs₁, ino₁, direct, grows⟩ :=
    growDirect_grows fs { ino with length := pos + size } ino.length
  obtain ⟨ind, alloc, grows⟩ := grows.allocInd
  refine ⟨ind.1, { ino₁ with ind := ind.2 }, ?_, grows⟩
  simp only [fileGrowth, if_neg blocks, direct, if_neg past, alloc]

/-- A growth into the double-indirect range up to its last part. -/
theorem fileGrowth_double (double : 129 * 512 < pos + size) :
    ∃ fs' ino', fileGrowth fs ino pos size =
        growDouble fs' ino' (max (129 * 512) ino.length) (max 129 (ino.length / 512))
          ((pos + size) / 512) ∧
      Grows fs { ino with length := pos + size } ino.length (129 * 512 - 1)
        ((if ino.length = 0 then 1 else 0) + (if ino.length ≤ 512 then 1 else 0) +
          (129 - nextBlock ino.length)) fs' ino' := by
  obtain ⟨fs₁, ino₁, enter, grows⟩ := fileGrowth_enter fs ino blocks (by omega)
  obtain ⟨fs', full, grows⟩ := grows.fillSingle
  refine ⟨fs', ino₁, ?_, grows⟩
  have single : ¬(pos + size) / 512 < 129 := by omega
  have last : ¬((pos + size) / 512 = 129 ∧ (pos + size) % 512 = 0) := by omega
  simp only [enter, if_neg single, full, if_neg last, bind, Except.bind]

/-- A growth beyond the last block faults. -/
theorem fileGrowth_fault (grow : ino.length < pos + size) (high : 16513 ≤ (pos + size) / 512) :
    fileGrowth fs ino pos size = .error .subscript := by
  obtain ⟨fs', ino', enter, grows⟩ := fileGrowth_double fs ino blocks (by omega)
  rw [enter]
  refine grows.growDouble_fault (Nat.max_le.mpr ⟨by omega, ?_⟩) high
  unfold bytesToSectors
  omega

/-- A growth up to the last block returns. -/
theorem fileGrowth_filled (grow : ino.length < pos + size ∨ ino.length = 0)
    (high : (pos + size) / 512 < 16513) :
    ∃ fs' ino', fileGrowth fs ino pos size = .ok (fs', ino') ∧
      Filled (IsTail fs ino ino.length) (growthCalls ino.length (pos + size)) fs fs' := by
  rw [growthCalls, if_neg blocks]
  by_cases first : (pos + size) / 512 = 1 ∧ (pos + size) % 512 = 0
  · obtain ⟨fs', ino', direct, grows⟩ :=
      growDirect_grows fs { ino with length := pos + size } ino.length
    rw [if_pos first]
    refine ⟨fs', ino', ?_, grows.filled.recount (by omega)⟩
    simp only [fileGrowth, if_neg blocks, direct, if_pos first]
  rw [if_neg first]
  by_cases single : (pos + size) / 512 < 129
  · obtain ⟨mid, ino', enter, grows⟩ := fileGrowth_enter fs ino blocks first
    obtain ⟨fs', fill, grows⟩ := grows.growSingle (by omega) single
    rw [if_pos single]
    refine ⟨fs', ino', ?_, grows.filled.recount (by omega)⟩
    simp only [enter, if_pos single, fill, bind, Except.bind]
  rw [if_neg single]
  by_cases last : (pos + size) / 512 = 129 ∧ (pos + size) % 512 = 0
  · obtain ⟨mid, ino', enter, grows⟩ := fileGrowth_enter fs ino blocks first
    obtain ⟨fs', fill, grows⟩ := grows.fillSingle
    rw [if_pos last]
    refine ⟨fs', ino', ?_, grows.filled.recount (by omega)⟩
    simp only [enter, if_neg single, if_pos last, fill, bind, Except.bind]
  rw [if_neg last]
  obtain ⟨mid, ino₁, enter, grows⟩ := fileGrowth_double fs ino blocks (by omega)
  have low : nextDouble ino.length ≤ (pos + size) / 512 := by
    refine Nat.max_le.mpr ⟨by omega, ?_⟩
    unfold bytesToSectors
    omega
  obtain ⟨fs', ino', fill, filled⟩ := grows.growDouble low high
  exact ⟨fs', ino', enter.trans fill, filled.recount (by omega)⟩

end Growth

/-- A position in the file is found when its block has a place in the indexes. -/
theorem byteToSector_inside (fs : Fs) {ino : InodeDisk} {p : Nat} (inside : p < ino.length) :
    byteToSector fs ino p =
      if p / 512 < 16513 then .ok (sectorAt fs ino (.data (p / 512))) else .error .subscript := by
  by_cases single : p / 512 < 129
  · rw [if_pos (by omega), byteToSector_single fs inside single]
  · have slot := slot_double (Nat.le_of_not_lt single)
    have entry : (p / 512 - 129) % 128 < 128 := by omega
    rw [byteToSector, if_pos inside, if_neg (by omega), if_neg single]
    split
    next high =>
      have table : (p / 512 - 129) / 128 < 128 := by omega
      simp only [Fs.index_of_lt _ _ table, Fs.index_of_lt _ _ entry, bind, Except.bind]
      rw [sectorAt_slot fs ino slot]
      rfl
    next high =>
      have table : ¬(p / 512 - 129) / 128 < 128 := by omega
      simp only [Fs.index, if_neg table, bind, Except.bind]

/-- The one `memset` of a growth within the last block takes its arguments from the old length and
the position of the write. -/
theorem fileGrowth_tail (fs : Fs) (ino : InodeDisk) {pos size : Nat}
    (grow : ino.length < pos + size)
    (same : (pos + size) / 512 = ino.length / 512 ∧ ino.length % 512 ≠ 0) :
    fileGrowth fs ino pos size =
      if ino.length / 512 < 16513 then
        .ok (fs.memset (sectorAt fs ino (.data (ino.length / 512))) ino.length (pos - ino.length),
          { ino with length := pos + size })
      else .error .subscript := by
  have sid : byteToSector fs { ino with length := pos + size } ino.length =
      if ino.length / 512 < 16513 then .ok (sectorAt fs ino (.data (ino.length / 512)))
      else .error .subscript := byteToSector_inside fs grow
  simp only [fileGrowth, if_pos same, sid]
  split <;> rfl

/-- The free map after a growth that returns. -/
theorem fileGrowth_calls {fs fs' : Fs} {ino ino' : InodeDisk} {pos size : Nat}
    (grow : ino.length < pos + size ∨ ino.length = 0)
    (run : fileGrowth fs ino pos size = .ok (fs', ino')) :
    fs'.free = fs.free.allocs (growthCalls ino.length (pos + size)) := by
  by_cases tail : (pos + size) / 512 = ino.length / 512 ∧ ino.length % 512 ≠ 0
  · rw [fileGrowth_tail fs ino (by omega) tail] at run
    split at run
    · obtain ⟨rfl, -⟩ := Prod.mk.inj (Except.ok.inj run)
      rw [growthCalls, if_pos tail]
      rfl
    · cases run
  · by_cases high : (pos + size) / 512 < 16513
    · obtain ⟨fs₁, ino₁, run₁, filled⟩ := fileGrowth_filled fs ino tail grow high
      obtain ⟨rfl, -⟩ := Prod.mk.inj (Except.ok.inj (run.symm.trans run₁))
      exact filled.free
    · rw [fileGrowth_fault fs ino tail (by omega) (by omega)] at run
      cases run

end Pintos.Filesys
