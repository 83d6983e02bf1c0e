import Pintos.Filesys.GrowthSound

/-! Growths that run into a second-level index after the first.  `file_growth` allocates none for
them (its loop over `k` is bounded by `mj - mi`), so it follows whatever the double-level index has
in the next entry.  For every such pair of lengths there is a well formed inode whose block map it
breaks. -/

namespace Pintos.Filesys

open Words Role

section Reach

variable {fs : Fs} {ino : InodeDisk} (wf : Maps fs ino (Upto (bytesToSectors ino.length)))
  (writable : fs.free.Writable) {pos size : Nat}
  (blocks : ¬((pos + size) / 512 = ino.length / 512 ∧ ino.length % 512 ≠ 0))
  (double : 129 * 512 < pos + size)
  (room : growthSectors ino.length (pos + size) ≤ fs.free.freeCount)

include wf writable blocks double room

/-- A growth into the double-indirect range reaches its last part with the rest of its sectors. -/
theorem Maps.reachDouble :
    ∃ fs' ino' n, fileGrowth fs ino pos size =
        growDouble fs' ino' (max (129 * 512) ino.length) (max 129 (ino.length / 512))
          ((pos + size) / 512) ∧
      ino'.length = pos + size ∧
      Lengthened ino.length fs ino (Upto (bytesToSectors ino.length)) n fs' ino'
        (SingleTo (nextDouble ino.length)) ∧
      n + ((if ino.length ≤ 129 * 512 then 1 else 0) +
        (if (nextDouble ino.length - 129) % 128 = 0 then 1 else 0) +
        ((pos + size) / 512 + 1 - nextDouble ino.length)) ≤ fs.free.freeCount ∧
      n ≤ 130 := by
  have first : ¬((pos + size) / 512 = 1 ∧ (pos + size) % 512 = 0) := by omega
  have single : ¬(pos + size) / 512 < 129 := by omega
  have last : ¬((pos + size) / 512 = 129 ∧ (pos + size) % 512 = 0) := by omega
  rw [growthSectors, if_neg blocks, if_neg first, if_neg single, if_neg last] at room
  obtain ⟨fs', ino', enter, length, grown⟩ := wf.fillSingle writable blocks (by omega) (by omega)
  rw [if_neg last] at enter
  refine ⟨fs', ino', _, enter, length, grown, by omega, ?_⟩
  unfold nextBlock
  split <;> split <;> omega

/-- Without a place in the double-level index for the first new block, the growth faults. -/
theorem Maps.fault_of_full (shorter : ino.length < 16513 * 512)
    (full : nextDouble ino.length = 16513) :
    fileGrowth fs ino pos size = .error .subscript := by
  obtain ⟨fs₁, ino₁, n, enter, _, grown, enough, _⟩ := wf.reachDouble writable blocks double room
  obtain ⟨din, alloc, grown⟩ := grown.allocDin (by omega)
  obtain ⟨fs₂, tail, _⟩ := grown.fillTailDouble shorter
  rw [enter]
  simp only [growDouble, alloc, tail, bind, Except.bind]
  rw [full]
  rfl

/-- A growth into a second table has filled the first one when it comes to the next entry of the
double-level index. -/
theorem Maps.reachNext (range : nextDouble ino.length < 16513)
    (next : (nextDouble ino.length - 129) / 128 < ((pos + size) / 512 - 129) / 128) :
    ∃ fs' ino' n, fileGrowth fs ino pos size = (do
        let mj := (nextDouble ino.length - 129) / 128
        let mi := ((pos + size) / 512 - 129) / 128
        let fs ← fs'.growTables ino'.din mj ((nextDouble ino.length - 129) % 128) mi
          (((pos + size) / 512 - 129) % 128) (mj + 1) (mi - mj)
        .ok (fs, ino')) ∧
      ino'.length = pos + size ∧
      Lengthened ino.length fs ino (Upto (bytesToSectors ino.length)) n fs' ino'
        (DoubleTo ((nextDouble ino.length - 129) / 128)
          (129 + 128 * ((nextDouble ino.length - 129) / 128 + 1))) ∧
      n ≤ 300 := by
  obtain ⟨fs₁, ino₁, n, enter, length, grown, enough, few⟩ :=
    wf.reachDouble writable blocks double room
  have low : 129 ≤ nextDouble ino.length := Nat.le_max_left 129 _
  obtain ⟨fs₂, ino₂, tables, length', grown⟩ :=
    grown.enterDouble range ((pos + size) / 512) (by omega)
  obtain ⟨fs₃, fill, grown⟩ := grown.growTable (j := (nextDouble ino.length - 129) % 128)
    (by omega) (by omega)
    (by omega : _ + (128 - (nextDouble ino.length - 129) % 128) ≤ 128) (by omega)
  have blocks : nextDouble ino.length + (128 - (nextDouble ino.length - 129) % 128) =
      129 + 128 * ((nextDouble ino.length - 129) / 128 + 1) := by omega
  rw [blocks] at grown
  refine ⟨fs₃, ino₂, _, ?_, length'.trans length, grown, ?_⟩
  · have none : (nextDouble ino.length - 129) / 128 - ((pos + size) / 512 - 129) / 128 = 0 := by
      omega
    have more : ((pos + size) / 512 - 129) / 128 + 1 - (nextDouble ino.length - 129) / 128 =
        ((pos + size) / 512 - 129) / 128 - (nextDouble ino.length - 129) / 128 + 1 := by omega
    rw [enter, tables]
    simp only [none, more, Fs.allocEntries, Fs.growTables, if_true, if_neg (Nat.ne_of_lt next),
      fill,
      bind, Except.bind]
  · split <;> split <;> omega

end Reach

/-- `fs'` has the sector `din` as `fs` has it, after `n` allocations. -/
structure Bypass (din n : Nat) (fs fs' : Fs) : Prop where
  data : fs'.data din = fs.data din
  used : ∀ s, fs.free.Used s → fs'.free.Used s
  writable : fs'.free.Writable
  count : fs'.free.freeCount + n = fs.free.freeCount

section Bypass

variable {din : Nat} {fs fs' : Fs}

theorem Bypass.trans {n m : Nat} {mid : Fs} (h : Bypass din n fs mid) (h' : Bypass din m mid fs') :
    Bypass din (n + m) fs fs' := by
  refine ⟨h'.data.trans h.data, fun s used => h'.used s (h.used s used), h'.writable, ?_⟩
  have first := h.count
  have second := h'.count
  omega

/-- A new block in whatever sector `table` is. -/
theorem growEntry_takes (table : Nat) {k : Nat} (bound : k < 128) (writable : fs.free.Writable)
    (room : 0 < fs.free.freeCount) :
    ∃ fs' s, fs.growEntry table k = .ok fs' ∧ fs.free.Takes fs'.free s ∧
      (∀ t, t ≠ s →
        fs'.data t = Function.update fs.data table (setWord (fs.data table) k s) t) ∧
      ∀ j < 128, getWord (fs'.data s) j = 0 := by
  obtain ⟨m, s, alloc, takes⟩ := FreeMap.allocate_takes writable room
  have small : s < 2 ^ 32 := Nat.lt_of_lt_of_le takes.free.1 fs.free.small
  let mid : Fs := { fs with
    free := m, data := Function.update fs.data table (setWord (fs.data table) k s) }
  refine ⟨mid.memset s 0 512, s, ?_, takes, fun t ne => ?_, fun j hj => ?_⟩
  · simp only [Fs.growEntry, Fs.allocEntry, if_pos bound, alloc, Fs.index_of_lt _ _ bound, bind,
      Except.bind, Function.update_self, getWord_setWord_self _ _ small]
    rfl
  · exact Function.update_of_ne ne _ mid.data
  · have here : (mid.memset s 0 512).data s = fillZero (mid.data s) 0 512 :=
      Function.update_self s _ mid.data
    rw [here]
    exact getWord_fillZero _ (by omega) (by omega)

/-- A new block in a table other than `din` leaves `din` alone. -/
theorem bypass_growEntry {table k : Nat} (other : din ≠ table) (used : fs.free.Used din)
    (bound : k < 128) (writable : fs.free.Writable) (room : 0 < fs.free.freeCount) :
    ∃ fs', fs.growEntry table k = .ok fs' ∧ Bypass din 1 fs fs' := by
  obtain ⟨fs', s, run, takes, data, _⟩ := growEntry_takes table bound writable room
  have new : din ≠ s := by
    rintro rfl
    exact FreeMap.not_used_of_free takes.free used
  refine ⟨fs', run, ?_, fun t h => (takes.used_iff t).mpr (.inl h), takes.writable writable,
    takes.freeCount_succ⟩
  rw [data din new, Function.update_of_ne other]

theorem bypass_growTable {table i j count : Nat} (entry : getWord (fs.data din) i = table)
    (other : din ≠ table) (used : fs.free.Used din) (index : i < 128) (bound : j + count ≤ 128)
    (writable : fs.free.Writable) (room : count ≤ fs.free.freeCount) :
    ∃ fs', Fs.growTable din i j count fs = .ok fs' ∧ Bypass din count fs fs' := by
  induction count generalizing fs j with
  | zero => exact ⟨fs, rfl, rfl, fun _ => id, writable, rfl⟩
  | succ count ih =>
    obtain ⟨mid, first, bypass⟩ :=
      bypass_growEntry other used (by omega : j < 128) writable (by omega)
    have entry' : getWord (mid.data din) i = table := by rw [bypass.data, entry]
    have fewer := bypass.count
    obtain ⟨fs', rest, bypass'⟩ := ih entry' (bypass.used _ used) (by omega : j + 1 + count ≤ 128)
      bypass.writable (by omega)
    refine ⟨fs', ?_, ?_⟩
    · simp only [Fs.growTable, Fs.index_of_lt _ _ index, entry, first, bind, Except.bind]
      exact rest
    · rw [Nat.add_comm count 1]
      exact bypass.trans bypass'

/-- The tables after the first, when all their entries in `din` name one other sector. -/
theorem bypass_growTables {table mj nj mi ni i count : Nat} (later : mj < i) (last : ni < 128)
    (entries : ∀ k, i ≤ k → k < 128 → getWord (fs.data din) k = table) (other : din ≠ table)
    (used : fs.free.Used din) (writable : fs.free.Writable)
    (room : 128 * count ≤ fs.free.freeCount)
    (run : Fs.growTables din mj nj mi ni i count fs = .ok fs') : fs'.data din = fs.data din := by
  induction count generalizing fs i with
  | zero =>
    obtain rfl := Except.ok.inj run
    rfl
  | succ count ih =>
    by_cases index : i < 128
    · have high : (if i = mi then ni + 1 else 128) ≤ 128 := by split <;> omega
      obtain ⟨mid, table_, bypass⟩ := bypass_growTable (entries i (Nat.le_refl i) index) other used
        index (by omega : 0 + ((if i = mi then ni + 1 else 128) - 0) ≤ 128) writable (by omega)
      have fewer := bypass.count
      simp only [Fs.growTables, if_neg (Nat.ne_of_gt later), table_, bind, Except.bind] at run
      have rest := ih (Nat.lt_succ_of_lt later) (fun k low bound => ?_) (bypass.used _ used)
        bypass.writable (by omega) run
      · exact rest.trans bypass.data
      · rw [bypass.data]
        exact entries k (by omega) bound
    · have some_ : (if i = mi then ni + 1 else 128) ≠ 0 := by split <;> omega
      obtain ⟨c, high⟩ := Nat.exists_eq_succ_of_ne_zero some_
      simp only [Fs.growTables, if_neg (Nat.ne_of_gt later), high, Nat.sub_zero, Fs.growTable,
        Fs.index, if_neg index, bind, Except.bind, reduceCtorEq] at run

end Bypass

section Layout

/-- Where `layout` has the sectors of its inode. -/
def layoutSector : Role → Nat
  | .ind => 2
  | .din => 3
  | .second i => 4 + i
  | .data b => 200 + b

/-- The sectors of a device with an inode of length `L`.  What is left over in a sector `t`, in the
entries that the inode does not use, is the number `v t`. -/
def layoutData (L : Nat) (v : Nat → Nat) (t : Nat) : Bytes :=
  if t = 2 then ofWords fun k => 201 + k
  else if t = 3 then ofWords fun i => if 129 + 128 * i < bytesToSectors L then 4 + i else v 3
  else if t < 200 then ofWords fun j => 329 + 128 * (t - 4) + j
  else ofWords fun _ => v t

/-- A device with 20000 sectors in use and 40000 free ones. -/
def layout (L : Nat) (v : Nat → Nat) : Fs where
  data := layoutData L v
  free := {
    size := 60000
    used := fun s => decide (s < 20000)
    file := some fun s => decide (s < 20000)
    writeFails := fun _ => none
    writes := 0
    small := by decide }
  memsets := []

def layoutInode (L : Nat) : InodeDisk := ⟨L, 200, 2, 3, false, 1⟩

variable {L : Nat} {v : Nat → Nat}

theorem layout_din : (layout L v).data 3 =
    ofWords fun i => if 129 + 128 * i < bytesToSectors L then 4 + i else v 3 := rfl

theorem layout_other {t : Nat} (high : 200 ≤ t) : (layout L v).data t = ofWords fun _ => v t := by
  show layoutData L v t = _
  rw [layoutData, if_neg (by omega), if_neg (by omega), if_neg (by omega)]

theorem layout_table {t : Nat} (low : 4 ≤ t) (high : t < 200) :
    (layout L v).data t = ofWords fun j => 329 + 128 * (t - 4) + j := by
  show layoutData L v t = _
  rw [layoutData, if_neg (by omega), if_neg (by omega), if_pos high]

theorem layout_sectorAt (range : L ≤ 16513 * 512) {r : Role} (hr : Upto (bytesToSectors L) r) :
    sectorAt (layout L v) (layoutInode L) r = layoutSector r := by
  have blocks : bytesToSectors L ≤ 16513 := by
    unfold bytesToSectors
    omega
  have second : ∀ i, 129 + 128 * i < bytesToSectors L →
      getWord ((layout L v).data 3) i = 4 + i := by
    intro i inside
    rw [layout_din, getWord_ofWords _ (by rw [if_pos inside]; omega), if_pos inside]
  cases r with
  | ind | din => rfl
  | second i => exact second i hr
  | data b =>
    simp only [Upto] at hr
    by_cases zero : b = 0
    · subst zero
      rfl
    by_cases single : b < 129
    · have ind : (layout L v).data (sectorAt (layout L v) (layoutInode L) .ind) =
          ofWords fun k => 201 + k := rfl
      rw [sectorAt_slot _ _ (slot_single (by omega) single), ind, getWord_ofWords _ (by omega),
        layoutSector]
      omega
    · have inside : 129 + 128 * ((b - 129) / 128) < bytesToSectors L := by omega
      have table : sectorAt (layout L v) (layoutInode L) (.second ((b - 129) / 128)) =
          4 + (b - 129) / 128 := second _ inside
      rw [sectorAt_slot _ _ (slot_double (by omega)), table, layout_table (by omega) (by omega),
        getWord_ofWords _ (by omega), layoutSector]
      omega

theorem layout_maps (range : L ≤ 16513 * 512) :
    Maps (layout L v) (layoutInode L) (Upto (bytesToSectors L)) := by
  have blocks : bytesToSectors L ≤ 16513 := by
    unfold bytesToSectors
    omega
  refine ⟨fun r R k hr slot => ⟨hr.closed slot, hr.subscript blocks slot⟩, fun r hr => ?_,
    fun r r' hr hr' eq => ?_⟩
  · rw [layout_sectorAt range hr]
    have low : layoutSector r < 20000 := by
      cases r <;> simp only [layoutSector, Upto] at hr ⊢ <;> omega
    have size : (layout L v).free.size = 60000 := rfl
    exact ⟨by omega, decide_eq_true low⟩
  · rw [layout_sectorAt range hr, layout_sectorAt range hr'] at eq
    cases r <;> cases r' <;> simp only [layoutSector, Upto, reduceCtorEq] at hr hr' eq ⊢ <;>
      grind

theorem layout_writable : (layout L v).free.Writable := fun _ => rfl

theorem countP_range_ge (a b : Nat) :
    (List.range (a + b)).countP (fun s => !decide (s < a)) = b := by
  have low : (List.range a).countP (fun s => !decide (s < a)) = 0 := by
    rw [List.countP_eq_zero]
    intro s mem
    simpa using mem
  have high : ((List.range b).map (a + ·)).countP (fun s => !decide (s < a)) = b := by
    rw [List.countP_eq_length.mpr, List.length_map, List.length_range]
    intro s mem
    obtain ⟨t, _, rfl⟩ := List.mem_map.mp mem
    simp
  rw [List.range_add, List.countP_append, low, high, Nat.zero_add]

theorem layout_freeCount : (layout L v).free.freeCount = 40000 := countP_range_ge 20000 40000

theorem growthSectors_le (L : Nat) {N : Nat} (range : N ≤ 16513 * 512) :
    growthSectors L N ≤ 17000 := by
  have blocks : N / 512 ≤ 16513 := by omega
  have tables : (N / 512 - 129) / 128 ≤ 128 := by omega
  have pointer : ∀ (c : Prop) [Decidable c], (if c then 1 else 0) ≤ 1 := fun c _ => by
    split <;> omega
  have direct := pointer (L = 0)
  have single := pointer (L ≤ 512)
  have double := pointer (L ≤ 129 * 512)
  have table := pointer ((nextDouble L - 129) % 128 = 0)
  rw [growthSectors]
  by_cases tail : N / 512 = L / 512 ∧ L % 512 ≠ 0
  · rw [if_pos tail]
    omega
  rw [if_neg tail]
  by_cases first : N / 512 = 1 ∧ N % 512 = 0
  · rw [if_pos first]
    omega
  rw [if_neg first]
  by_cases low : N / 512 < 129
  · rw [if_pos low]
    omega
  rw [if_neg low]
  by_cases last : N / 512 = 129 ∧ N % 512 = 0
  · rw [if_pos last]
    omega
  · rw [if_neg last]
    omega

theorem layout_room {N : Nat} (range : N ≤ 16513 * 512) :
    growthSectors L N ≤ (layout L v).free.freeCount := by
  rw [layout_freeCount]
  exact Nat.le_trans (growthSectors_le L range) (by omega)

theorem layout_grown_din {fs' : Fs} {ino' : InodeDisk} {n : Nat} {U : Role → Prop}
    (grown : Grown (layout L v) (layoutInode L) (Upto (bytesToSectors L)) n fs' ino' U)
    (din : U .din) : ino'.din = 3 ∨ 20000 ≤ ino'.din ∧ ino'.din < 60000 := by
  by_cases before : Upto (bytesToSectors L) .din
  · exact .inl (grown.old .din before).2
  · obtain ⟨inside, unused⟩ := grown.new .din din before
    exact .inr ⟨Nat.le_of_not_lt (of_decide_eq_false unused), inside⟩

/-- The leftover entries of the double-level index, when the growth comes to them. -/
theorem layout_stale (small : ∀ t < 60000, v t < 2 ^ 32) {fs' : Fs}
    {ino' : InodeDisk} {n i : Nat}
    (grown : Grown (layout L v) (layoutInode L) (Upto (bytesToSectors L)) n fs' ino'
      (DoubleTo i (129 + 128 * (i + 1))))
    (first : bytesToSectors L ≤ 129 + 128 * (i + 1)) {k : Nat} (later : i < k) :
    getWord (fs'.data ino'.din) k = v ino'.din := by
  have din : DoubleTo i (129 + 128 * (i + 1)) .din := .inr (.inl rfl)
  have none : ∀ r, DoubleTo i (129 + 128 * (i + 1)) r → r.slot ≠ some (.din, k) := by
    intro r hr slot
    obtain rfl : r = .second k := Role.slot_inj slot rfl
    simp only [DoubleTo, Upto, reduceCtorEq, Role.second.injEq, false_or] at hr
    omega
  apply (grown.stale .din k din trivial none).trans
  show getWord ((layout L v).data ino'.din) k = _
  rcases layout_grown_din grown din with at_3 | ⟨high, inside⟩
  · rw [at_3, layout_din, getWord_ofWords _ (by rw [if_neg (by omega)]; exact small 3 (by omega)),
      if_neg (by omega)]
  · rw [layout_other (by omega), getWord_ofWords (fun _ => v ino'.din) (small _ inside)]

end Layout

section Crossing

variable {L N : Nat}

/-- Every inode that is well formed at length `L` grows soundly to length `N`. -/
def SoundGrowth (L N : Nat) : Prop :=
  ∀ (fs : Fs) (ino : InodeDisk) (pos size : Nat), ino.length = L → pos + size = N →
    Maps fs ino (Upto (bytesToSectors L)) → growthSectors L N ≤ fs.free.freeCount →
    fs.free.Writable →
    ∃ fs' ino', fileGrowth fs ino pos size = .ok (fs', ino') ∧ ino'.length = N ∧
      DoubleSound fs ino fs' ino'

theorem soundGrowth_of_oneTable (grow : L < N) (one : OneTable L N) : SoundGrowth L N := by
  rintro fs ino pos size rfl rfl wf room writable
  obtain ⟨fs', ino', U, run, length, grown, mapped⟩ :=
    wf.grown_fileGrowth writable (.inl grow) one room
  refine ⟨fs', ino', run, length, grown.doubleSound wf (by omega) fun r hr => mapped r ?_⟩
  rw [length] at hr
  exact hr.mono (Nat.le_max_right 1 _)

/-- What a sound growth gives on the layout with the leftovers `v`. -/
theorem SoundGrowth.layout {v : Nat → Nat} (sound : SoundGrowth L N) (grow : L < N)
    (range : N ≤ 16513 * 512) :
    ∃ fs' ino', fileGrowth (layout L v) (layoutInode L) L (N - L) = .ok (fs', ino') ∧
      ino'.length = N ∧ DoubleSound (Filesys.layout L v) (layoutInode L) fs' ino' := by
  exact sound (Filesys.layout L v) (layoutInode L) L (N - L) rfl (by omega)
    (layout_maps (by omega)) (layout_room range) layout_writable

variable (grow : L < N) (double : 129 * 512 < N) (range : N ≤ 16513 * 512)
  (blocks : ¬(N / 512 = L / 512 ∧ L % 512 ≠ 0)) (place : nextDouble L < 16513)
  (next : (nextDouble L - 129) / 128 < (N / 512 - 129) / 128)

include grow double range blocks place next

theorem layout_reachNext {v : Nat → Nat} (small : ∀ t < 60000, v t < 2 ^ 32) :
    ∃ fs' ino' n, fileGrowth (layout L v) (layoutInode L) L (N - L) = (do
        let mj := (nextDouble L - 129) / 128
        let mi := (N / 512 - 129) / 128
        let fs ← fs'.growTables ino'.din mj ((nextDouble L - 129) % 128) mi ((N / 512 - 129) % 128)
          (mj + 1) (mi - mj)
        .ok (fs, ino')) ∧
      Grown (layout L v) (layoutInode L) (Upto (bytesToSectors L)) n fs' ino'
        (DoubleTo ((nextDouble L - 129) / 128) (129 + 128 * ((nextDouble L - 129) / 128 + 1))) ∧
      n ≤ 300 ∧
      ∀ k, (nextDouble L - 129) / 128 < k → getWord (fs'.data ino'.din) k = v ino'.din := by
  obtain ⟨size, rfl⟩ : ∃ size, N = L + size := ⟨N - L, by omega⟩
  rw [Nat.add_sub_cancel_left]
  have wf : Maps (layout L v) (layoutInode L) (Upto (bytesToSectors (layoutInode L).length)) :=
    layout_maps (by omega)
  obtain ⟨fs', ino', n, run, _, grown, few⟩ :=
    wf.reachNext layout_writable blocks double (layout_room range) place next
  refine ⟨fs', ino', n, run, grown.toGrown, few, fun k later => ?_⟩
  refine layout_stale small grown.toGrown ?_ later
  have low : bytesToSectors L ≤ nextDouble L := Nat.le_max_right 129 _
  have first : 129 ≤ nextDouble L := Nat.le_max_left 129 _
  show bytesToSectors L ≤ 129 + 128 * ((nextDouble L - 129) / 128 + 1)
  omega

/-- With entries of the double-level index that name a sector of another file, blocks past the first
table are reached through that sector. -/
theorem layout_far (far : 129 + 128 * ((nextDouble L - 129) / 128 + 1) < bytesToSectors N)
    {fs' : Fs}
    {ino' : InodeDisk}
    (run : fileGrowth (layout L fun _ => 0) (layoutInode L) L (N - L) = .ok (fs', ino'))
    (length : ino'.length = N) :
    ¬DoubleSound (layout L fun _ => 0) (layoutInode L) fs' ino' := by
  intro sound
  obtain ⟨mid, ino₁, n, reach, grown, few, stale⟩ :=
    layout_reachNext (v := fun _ => 0) grow double range blocks place next fun _ _ => by omega
  rw [reach] at run
  cases tables : Fs.growTables ino₁.din ((nextDouble L - 129) / 128) ((nextDouble L - 129) % 128)
    ((N / 512 - 129) / 128) ((N / 512 - 129) % 128) ((nextDouble L - 129) / 128 + 1)
    ((N / 512 - 129) / 128 - (nextDouble L - 129) / 128) mid with
  | error e =>
    simp only [tables, bind, Except.bind, reduceCtorEq] at run
  | ok fs =>
    simp only [tables, bind, Except.bind, Except.ok.injEq, Prod.mk.injEq] at run
    obtain ⟨rfl, rfl⟩ := run
    have din : DoubleTo ((nextDouble L - 129) / 128)
        (129 + 128 * ((nextDouble L - 129) / 128 + 1)) .din := .inr (.inl rfl)
    have other : ino₁.din ≠ 0 := by
      have := layout_grown_din grown din
      omega
    have count := grown.count
    rw [layout_freeCount] at count
    have same := bypass_growTables (Nat.lt_succ_self _) (Nat.mod_lt _ (by omega))
      (fun k later _ => stale k later) other (grown.maps.used _ din) grown.writable (by omega)
      tables
    -- The first block that would be in the next table.
    have block : 512 * (129 + 128 * ((nextDouble L - 129) / 128 + 1)) / 512 =
        129 + 128 * ((nextDouble L - 129) / 128 + 1) := by omega
    have entry : (129 + 128 * ((nextDouble L - 129) / 128 + 1) - 129) / 128 =
        (nextDouble L - 129) / 128 + 1 := by omega
    have inside : 512 * (129 + 128 * ((nextDouble L - 129) / 128 + 1)) < N := by
      unfold bytesToSectors at far
      omega
    obtain ⟨t, _, table, _, own, _⟩ := sound.reached _ (by rw [length]; exact inside) (by omega)
    rw [block, entry, Fs.index_of_lt _ _ (by omega), same, stale _ (Nat.lt_succ_self _)] at table
    obtain rfl := Except.ok.inj table
    rcases own with free | ⟨before, _⟩
    · cases free.2
    · have low : bytesToSectors L ≤ nextDouble L := Nat.le_max_right 129 _
      have before : 129 + 128 * ((nextDouble L - 129) / 128 + 1) < bytesToSectors L := by
        rw [block, entry] at before
        exact before
      omega

omit grow double range blocks place next in
/-- The blocks of a first table without entries. -/
theorem byteToSector_of_zero {fs : Fs} {ino : InodeDisk} {b : Nat} (low : 129 ≤ b) (high : b < 257)
    (inside : 512 * b < ino.length)
    (zero : ∀ k < 128, getWord (fs.data (getWord (fs.data ino.din) 0)) k = 0) :
    byteToSector fs ino (512 * b) = .ok 0 := by
  have block : 512 * b / 512 = b := by omega
  have table : (b - 129) / 128 = 0 := by omega
  have entry : (b - 129) % 128 < 128 := by omega
  rw [byteToSector, if_pos inside, block, if_neg (by omega), if_neg (by omega), table]
  simp only [Fs.index_of_lt _ _ (Nat.zero_lt_succ 127), Fs.index_of_lt _ _ entry, bind, Except.bind,
    zero _ entry]

/-- A growth to the end of a table goes on to the next entry all the same.  When that names the
double-level index itself, the first second-level index is lost. -/
theorem layout_edge (edge : N = 512 * (129 + 128 * ((nextDouble L - 129) / 128 + 1))) {fs' : Fs}
    {ino' : InodeDisk} (run : fileGrowth (layout L id) (layoutInode L) L (N - L) = .ok (fs', ino'))
    (length : ino'.length = N) : ¬DoubleSound (layout L id) (layoutInode L) fs' ino' := by
  intro sound
  obtain ⟨mid, ino₁, n, reach, grown, few, stale⟩ :=
    layout_reachNext (v := id) grow double range blocks place next fun t small => by
      show t < 2 ^ 32
      omega
  have last : (N / 512 - 129) / 128 = (nextDouble L - 129) / 128 + 1 := by omega
  have entry : (N / 512 - 129) % 128 = 0 := by omega
  have once : (nextDouble L - 129) / 128 + 1 - (nextDouble L - 129) / 128 = 1 := by omega
  have new : (nextDouble L - 129) / 128 + 1 ≠ (nextDouble L - 129) / 128 := by omega
  simp only [reach, last, entry, once, Fs.growTables, if_neg new, if_true, Nat.sub_zero,
    Fs.growTable] at run
  by_cases index : (nextDouble L - 129) / 128 + 1 < 128
  · have count := grown.count
    rw [layout_freeCount] at count
    obtain ⟨fs, s, grew, takes, data, zero⟩ :=
      growEntry_takes ino₁.din (by omega : 0 < 128) grown.writable (by omega)
    have small : s < 2 ^ 32 := Nat.lt_of_lt_of_le takes.free.1 mid.free.small
    have apart : ino₁.din ≠ s := by
      rintro rfl
      exact FreeMap.not_used_of_free takes.free (grown.maps.used .din (.inr (.inl rfl)))
    have first : getWord (fs.data ino₁.din) 0 = s := by
      rw [data _ apart, Function.update_self, getWord_setWord_self _ _ small]
    simp only [Fs.index_of_lt _ _ index, stale _ (Nat.lt_succ_self _), id, grew, bind, Except.bind,
      Except.ok.injEq, Prod.mk.injEq] at run
    obtain ⟨rfl, rfl⟩ := run
    have sector : ∀ b, 129 ≤ b → b < 131 → byteToSector fs ino₁ (512 * b) = .ok 0 := by
      intro b low high
      apply byteToSector_of_zero low (by omega) (by omega)
      rw [first]
      exact zero
    have same := sound.distinct (512 * 129) (512 * 130) (by omega) (by omega) (by omega) (by omega)
      ((sector 129 (by omega) (by omega)).trans (sector 130 (by omega) (by omega)).symm)
    omega
  · simp only [Fs.index, if_neg index, bind, Except.bind, reduceCtorEq] at run

end Crossing

end Pintos.Filesys
