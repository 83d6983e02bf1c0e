import Pintos.Filesys.BlockMap

/-! Soundness of `file_growth`: each of its parts adds the blocks and indexes that it is for, and
the call as a whole maps the blocks of the new length. -/

namespace Pintos.Filesys

open Words Role

def bytesToSectors (size : Nat) : Nat := (size + 511) / 512

section Loops

variable {fs₀ fs : Fs} {ino₀ ino : InodeDisk} {U₀ : Role → Prop} {L n b count : Nat}

/-- The single-level index with `b` blocks mapped, itself ready for more. -/
def SingleTo (b : Nat) (r : Role) : Prop := Upto b r ∨ r = .ind

/-- The second-level index `i` with `b` blocks mapped, itself ready for more. -/
def DoubleTo (i b : Nat) (r : Role) : Prop := Upto b r ∨ r = .din ∨ r = .second i

theorem singleTo_succ (low : 1 ≤ b) (high : b < 129) (r : Role) :
    SingleTo b r ∨ r = .data b ↔ SingleTo (b + 1) r := by
  cases r <;> simp [SingleTo, Upto] <;> omega

theorem doubleTo_succ {i j : Nat} (place : b = 129 + 128 * i + j) (high : j < 128) (r : Role) :
    DoubleTo i b r ∨ r = .data b ↔ DoubleTo i (b + 1) r := by
  cases r <;> simp [DoubleTo, Upto] <;> omega

/-- The loop over the single-level index, from what a round of it does. -/
theorem Fs.growEntries_rounds {table k count : Nat} {P : Nat → Fs → Prop}
    (round : ∀ i fs, i < count → P i fs →
      ∃ fs', Fs.growEntry fs table (k + i) = .ok fs' ∧ P (i + 1) fs')
    {fs : Fs} (start : P 0 fs) :
    ∃ fs', Fs.growEntries table k count fs = .ok fs' ∧ P count fs' := by
  induction count generalizing k P fs with
  | zero => exact ⟨fs, rfl, start⟩
  | succ count ih =>
    obtain ⟨mid, first, next⟩ := round 0 fs (Nat.succ_pos count) start
    have later : ∀ i fs, i < count → P (i + 1) fs →
        ∃ fs', Fs.growEntry fs table (k + 1 + i) = .ok fs' ∧ P (i + 1 + 1) fs' := by
      intro i fs hi h
      rw [Nat.add_assoc, Nat.add_comm 1 i]
      exact round (i + 1) fs (Nat.succ_lt_succ hi) h
    obtain ⟨fs', rest, finish⟩ := ih later next
    refine ⟨fs', ?_, finish⟩
    rw [Nat.add_zero] at first
    rw [Fs.growEntries, first]
    exact rest

theorem Lengthened.growEntries (h : Lengthened L fs₀ ino₀ U₀ n fs ino (SingleTo b)) (low : 1 ≤ b)
    (high : b + count ≤ 129) (enough : n + count ≤ fs₀.free.freeCount) :
    ∃ fs', Fs.growEntries ino.ind (b - 1) count fs = .ok fs' ∧
      Lengthened L fs₀ ino₀ U₀ (n + count) fs' ino (SingleTo (b + count)) := by
  refine Fs.growEntries_rounds
    (P := fun i fs => Lengthened L fs₀ ino₀ U₀ (n + i) fs ino (SingleTo (b + i))) ?_ h
  intro i fs hi h
  have out : ¬SingleTo (b + i) (.data (b + i)) := by simp [SingleTo, Upto]
  obtain ⟨fs', grow, grown⟩ := h.growEntry (by omega) (.inr rfl) out
    (slot_single (by omega) (by omega)) (by omega)
  refine ⟨fs', ?_, grown.congr (singleTo_succ (by omega) (by omega))⟩
  rw [show b - 1 + i = b + i - 1 by omega]
  exact grow

theorem Lengthened.growTable {i j : Nat} (h : Lengthened L fs₀ ino₀ U₀ n fs ino (DoubleTo i b))
    (place : b = 129 + 128 * i + j) (index : i < 128) (high : j + count ≤ 128)
    (enough : n + count ≤ fs₀.free.freeCount) :
    ∃ fs', Fs.growTable ino.din i j count fs = .ok fs' ∧
      Lengthened L fs₀ ino₀ U₀ (n + count) fs' ino (DoubleTo i (b + count)) := by
  induction count generalizing fs n b j with
  | zero => exact ⟨fs, rfl, h⟩
  | succ count ih =>
    have out : ¬DoubleTo i b (.data b) := by simp [DoubleTo, Upto]
    have slot : (Role.data b).slot = some (.second i, j) := by
      rw [slot_double (by omega)]
      have quotient : (b - 129) / 128 = i := by omega
      have remainder : (b - 129) % 128 = j := by omega
      rw [quotient, remainder]
    obtain ⟨mid, first, grown⟩ := h.growEntry (by omega) (.inr (.inr rfl)) out slot (by omega)
    obtain ⟨fs', rest, grown'⟩ := ih (j := j + 1)
      (grown.congr (doubleTo_succ place (by omega))) (by omega) (by omega) (by omega)
    refine ⟨fs', ?_, ?_⟩
    · have entry : getWord (fs.data ino.din) i = sectorAt fs ino (.second i) := rfl
      simp only [Fs.growTable, Fs.index_of_lt _ _ index, entry, first, bind, Except.bind]
      exact rest
    · rw [show n + (count + 1) = n + 1 + count by omega,
        show b + (count + 1) = b + 1 + count by omega]
      exact grown'

end Loops

/-- The first block after the direct one that a growth from length `L` has to map. -/
def nextBlock (L : Nat) : Nat := max 1 (bytesToSectors L)

/-- The first block in the double-indirect range that a growth from length `L` has to map. -/
def nextDouble (L : Nat) : Nat := max 129 (bytesToSectors L)

section Parts

variable {fs₀ fs : Fs} {ino₀ ino : InodeDisk} {U₀ : Role → Prop} {n L : Nat}

theorem upto_one (r : Role) : Upto 0 r ∨ r = .data 0 ↔ Upto 1 r := by
  cases r <;> simp [Upto]

/-- After the direct part `length` is at least 512, and `block_current` at least 1. -/
theorem Lengthened.growDirect (h : Lengthened L fs₀ ino₀ U₀ n fs ino (Upto (bytesToSectors L)))
    (enough : n + (if L = 0 then 1 else 0) ≤ fs₀.free.freeCount) :
    ∃ fs' ino', Filesys.growDirect fs ino L (L / 512) = (fs', ino', max 512 L, max 1 (L / 512)) ∧
      ino'.length = ino.length ∧
      Lengthened L fs₀ ino₀ U₀ (n + if L = 0 then 1 else 0) fs' ino' (Upto (nextBlock L)) := by
  by_cases empty : L = 0
  · subst empty
    rw [if_pos rfl] at enough
    have grown := h.allocPointer (r := .data 0) (by omega) (by simp [Upto, bytesToSectors]) rfl
      (fun _ s => (rfl : sectorAt _ { ino with sp := s } (.data 0) = s))
      (fun _ s r' hr' => by cases r' <;> simp [Upto, bytesToSectors] at hr') ino.sp
    have grown :=
      (grown.congr upto_one).memset (b := 0) (by simp [Upto]) 0 (fun _ => Nat.le_refl 0) 512
    exact ⟨_, _, rfl, rfl, grown⟩
  · rw [if_neg empty, Nat.add_zero]
    by_cases small : L < 512
    · have one : bytesToSectors L = 1 := by
        unfold bytesToSectors
        omega
      have grown := h.memset (b := 0) (by simp [Upto, one]) L (fun _ => by omega) (512 - L)
      refine ⟨fs.memset ino.sp L (512 - L), ino, ?_, rfl, ?_⟩
      · rw [Filesys.growDirect, if_neg empty, if_pos (by omega), Nat.max_eq_left (by omega),
          Nat.max_eq_left (by omega), show L / 512 + 1 = 1 by omega]
      · rw [nextBlock, one]
        rw [one] at grown
        exact grown
    · have many : max 1 (bytesToSectors L) = bytesToSectors L := by
        unfold bytesToSectors
        omega
      refine ⟨fs, ino, ?_, rfl, ?_⟩
      · rw [Filesys.growDirect, if_neg empty, if_neg (by omega), Nat.max_eq_right (by omega),
          Nat.max_eq_right (by omega)]
      · rw [nextBlock, many]
        exact h

/-- The single-level index is there once `length` has passed the direct block. -/
theorem Lengthened.allocInd (h : Lengthened L fs₀ ino₀ U₀ n fs ino (Upto (nextBlock L)))
    (enough : n + (if L ≤ 512 then 1 else 0) ≤ fs₀.free.freeCount) :
    ∃ ind, (if max 512 L = 512 then fs.allocPointer ino.ind else (fs, ino.ind)) = ind ∧
      Lengthened L fs₀ ino₀ U₀ (n + if L ≤ 512 then 1 else 0) ind.1 { ino with ind := ind.2 }
        (SingleTo (nextBlock L)) := by
  refine ⟨_, rfl, ?_⟩
  by_cases small : L ≤ 512
  · have one : nextBlock L = 1 := by
      unfold nextBlock bytesToSectors
      omega
    rw [if_pos small] at enough
    rw [if_pos small, if_pos (Nat.max_eq_left small), one]
    rw [one] at h
    have grown := h.allocPointer (r := .ind) (by omega) (by simp [Upto]) rfl
      (fun _ s => (rfl : sectorAt _ { ino with ind := s } .ind = s))
      (fun _ s r' hr' => by
        cases r' with
        | data b =>
          obtain rfl : b = 0 := Nat.lt_one_iff.mp hr'
          rfl
        | ind | din | second i => simp [Upto] at hr') ino.ind
    exact grown.congr fun r => Iff.rfl
  · rw [if_neg small, if_neg (by omega)]
    refine h.congr fun r => ⟨.inl, fun hr => ?_⟩
    rcases hr with hr | rfl
    · exact hr
    · simp only [Upto, nextBlock, bytesToSectors]
      omega

/-- A partial last block in the single-level index is zeroed and then counted. -/
theorem Lengthened.fillTail (h : Lengthened L fs₀ ino₀ U₀ n fs ino (SingleTo (nextBlock L)))
    (range : L < 129 * 512) :
    ∃ fs', Filesys.fillTail fs ino (max 512 L) (max 1 (L / 512)) = .ok (fs', nextBlock L) ∧
      Lengthened L fs₀ ino₀ U₀ n fs' ino (SingleTo (nextBlock L)) := by
  by_cases partial_ : max 512 L % 512 = 0
  · have next : max 1 (L / 512) = nextBlock L := by
      unfold nextBlock bytesToSectors
      omega
    refine ⟨fs, ?_, h⟩
    rw [Filesys.fillTail, if_neg (by simpa using partial_), next]
  · have next : max 1 (L / 512) + 1 = nextBlock L := by
      unfold nextBlock bytesToSectors
      omega
    have mapped : SingleTo (nextBlock L) (.data (max 1 (L / 512))) := .inl (by
      simp only [Upto]
      omega)
    have last : sectorAt fs ino (.data (max 1 (L / 512))) =
        getWord (fs.data ino.ind) (max 1 (L / 512) - 1) :=
      sectorAt_slot fs ino (slot_single (by omega) (by omega))
    have past : L ≤ 512 * max 1 (L / 512) + max 512 L % 512 := by omega
    refine ⟨_, ?_, h.memset mapped (max 512 L % 512) (fun _ => past)
      (512 - (max 512 L : Nat) % 512)⟩
    have entry : max 1 (L / 512) - 1 < 128 := by omega
    simp only [Filesys.fillTail, if_pos partial_, Fs.index_of_lt _ _ entry, bind, Except.bind, next,
      last]

/-- The branch for files that stay in the single-level index. -/
theorem Lengthened.growSingle (h : Lengthened L fs₀ ino₀ U₀ n fs ino (SingleTo (nextBlock L)))
    (range : L < 129 * 512) {block : Nat} (low : nextBlock L ≤ block + 1) (high : block < 129)
    (enough : n + (block + 1 - nextBlock L) ≤ fs₀.free.freeCount) :
    ∃ fs', Filesys.growSingle fs ino (max 512 L) (max 1 (L / 512)) block = .ok fs' ∧
      Lengthened L fs₀ ino₀ U₀ (n + (block + 1 - nextBlock L)) fs' ino (SingleTo (block + 1)) := by
  obtain ⟨mid, tail, grown⟩ := h.fillTail range
  obtain ⟨fs', rest, grown'⟩ := grown.growEntries (Nat.le_max_left 1 _)
    (by omega : nextBlock L + (block + 1 - nextBlock L) ≤ 129) enough
  refine ⟨fs', ?_, ?_⟩
  · rw [Filesys.growSingle, tail]
    exact rest
  · rw [Nat.add_sub_of_le low] at grown'
    exact grown'

/-- The single-level index is full before the double-indirect part begins. -/
theorem Lengthened.fillSingle (h : Lengthened L fs₀ ino₀ U₀ n fs ino (SingleTo (nextBlock L)))
    (enough : n + (129 - nextBlock L) ≤ fs₀.free.freeCount) :
    ∃ fs', Filesys.fillSingle fs ino (max 512 L) (max 1 (L / 512)) =
        .ok (fs', max (129 * 512) L, max 129 (L / 512)) ∧
      Lengthened L fs₀ ino₀ U₀ (n + (129 - nextBlock L)) fs' ino (SingleTo (nextDouble L)) := by
  by_cases range : L < 129 * 512
  · have low : nextBlock L ≤ 129 := by
      unfold nextBlock bytesToSectors
      omega
    have full : nextDouble L = 129 := by
      unfold nextDouble bytesToSectors
      omega
    obtain ⟨mid, tail, grown⟩ := h.fillTail range
    obtain ⟨fs', rest, grown'⟩ := grown.growEntries (Nat.le_max_left 1 _)
      (by omega : nextBlock L + (129 - nextBlock L) ≤ 129) enough
    refine ⟨fs', ?_, ?_⟩
    · rw [Filesys.fillSingle, if_pos (by omega), tail, Nat.max_eq_left (by omega),
        Nat.max_eq_left (by omega)]
      show (do
        let fs ← Fs.growEntries ino.ind (nextBlock L - 1) (129 - nextBlock L) mid
        Except.ok (fs, 129 * 512, 129)) = _
      rw [rest]
      rfl
    · rw [Nat.add_sub_of_le low] at grown'
      rw [full]
      exact grown'
  · have full : nextDouble L = nextBlock L := by
      unfold nextDouble nextBlock bytesToSectors
      omega
    have none : 129 - nextBlock L = 0 := by
      unfold nextBlock bytesToSectors
      omega
    refine ⟨fs, ?_, ?_⟩
    · rw [Filesys.fillSingle, if_neg (by omega)]
      congr 3 <;> omega
    · rw [full, none]
      exact h

/-- The double-level index is there once `length` has passed the single-level one. -/
theorem Lengthened.allocDin (h : Lengthened L fs₀ ino₀ U₀ n fs ino (SingleTo (nextDouble L)))
    (enough : n + (if L ≤ 129 * 512 then 1 else 0) ≤ fs₀.free.freeCount) :
    ∃ din,
      (if max (129 * 512) L = 512 * 129 then fs.allocPointer ino.din else (fs, ino.din)) = din ∧
      Lengthened L fs₀ ino₀ U₀ (n + if L ≤ 129 * 512 then 1 else 0) din.1 { ino with din := din.2 }
        fun r => Upto (nextDouble L) r ∨ r = .din := by
  have ind : ∀ r, SingleTo (nextDouble L) r ↔ Upto (nextDouble L) r := by
    intro r
    refine ⟨fun hr => ?_, .inl⟩
    rcases hr with hr | rfl
    · exact hr
    · exact Nat.lt_of_lt_of_le (by omega) (Nat.le_max_left 129 _)
  refine ⟨_, rfl, ?_⟩
  by_cases small : L ≤ 129 * 512
  · have first : nextDouble L = 129 := by
      unfold nextDouble bytesToSectors
      omega
    rw [if_pos small] at enough
    rw [if_pos small, if_pos (Nat.max_eq_left small), first]
    rw [first] at h ind
    have others : ∀ fs' s r', Upto 129 r' →
        sectorAt fs' { ino with din := s } r' = sectorAt fs' ino r' := by
      intro fs' s r' hr'
      cases r' with
      | data b =>
        have low : b < 129 := hr'
        simp only [sectorAt, if_pos low]
      | ind => rfl
      | din | second i =>
        simp only [Upto] at hr'
        omega
    exact (h.congr ind).allocPointer (by omega) (by simp [Upto]) rfl (fun _ _ => rfl) others ino.din
  · rw [if_neg small, if_neg (by omega)]
    refine (h.congr ind).congr fun r => ⟨.inl, fun hr => ?_⟩
    rcases hr with hr | rfl
    · exact hr
    · simp only [Upto, nextDouble, bytesToSectors]
      omega

/-- A partial last block in a second-level index is zeroed and then counted. -/
theorem Lengthened.fillTailDouble
    (h : Lengthened L fs₀ ino₀ U₀ n fs ino fun r => Upto (nextDouble L) r ∨ r = .din)
    (range : L < 16513 * 512) :
    ∃ fs', Filesys.fillTailDouble fs ino (max (129 * 512) L) (max 129 (L / 512)) =
        .ok (fs', nextDouble L) ∧
      Lengthened L fs₀ ino₀ U₀ n fs' ino fun r => Upto (nextDouble L) r ∨ r = .din := by
  by_cases partial_ : max (129 * 512) L % 512 = 0
  · have next : max 129 (L / 512) = nextDouble L := by
      unfold nextDouble bytesToSectors
      omega
    refine ⟨fs, ?_, h⟩
    rw [Filesys.fillTailDouble, if_neg (by simpa using partial_), next]
  · have next : max 129 (L / 512) + 1 = nextDouble L := by
      unfold nextDouble bytesToSectors
      omega
    have mapped : Upto (nextDouble L) (.data (max 129 (L / 512))) := by
      simp only [Upto]
      omega
    have last := sectorAt_slot fs ino (slot_double (Nat.le_max_left 129 (L / 512)))
    have past : L ≤ 512 * max 129 (L / 512) + max (129 * 512) L % 512 := by omega
    refine ⟨_, ?_, h.memset (.inl mapped) (max (129 * 512) L % 512) (fun _ => past)
      (512 - (max (129 * 512) L : Nat) % 512)⟩
    have table : (max 129 (L / 512) - 129) / 128 < 128 := by omega
    have entry : (max 129 (L / 512) - 129) % 128 < 128 := by omega
    simp only [Filesys.fillTailDouble, if_pos partial_, Fs.index_of_lt _ _ table,
      Fs.index_of_lt _ _ entry, bind, Except.bind, next, last]
    rfl

/-- The second-level index of the first new block is there before the loops. -/
theorem Lengthened.allocTable
    (h : Lengthened L fs₀ ino₀ U₀ n fs ino fun r => Upto (nextDouble L) r ∨ r = .din)
    (range : nextDouble L < 16513)
    (enough : n + (if (nextDouble L - 129) % 128 = 0 then 1 else 0) ≤ fs₀.free.freeCount) :
    ∃ fs', fs.allocTable ino.din ((nextDouble L - 129) / 128) ((nextDouble L - 129) % 128) =
        .ok fs' ∧
      Lengthened L fs₀ ino₀ U₀ (n + if (nextDouble L - 129) % 128 = 0 then 1 else 0) fs' ino
        (DoubleTo ((nextDouble L - 129) / 128) (nextDouble L)) := by
  have low : 129 ≤ nextDouble L := Nat.le_max_left 129 _
  by_cases fresh : (nextDouble L - 129) % 128 = 0
  · rw [if_pos fresh] at enough
    rw [Fs.allocTable, if_pos fresh, if_pos fresh]
    have out : ¬(Upto (nextDouble L) (.second ((nextDouble L - 129) / 128)) ∨
        Role.second ((nextDouble L - 129) / 128) = .din) := by
      simp only [Upto, reduceCtorEq, or_false]
      omega
    have bound : (nextDouble L - 129) / 128 < 128 := by omega
    obtain ⟨fs', alloc, grown, _⟩ := h.allocEntry (by omega) (.inr rfl) out rfl bound
    exact ⟨fs', alloc, grown.congr fun r => or_assoc⟩
  · rw [Fs.allocTable, if_neg fresh, if_neg fresh]
    refine ⟨fs, rfl, h.congr fun r => ⟨?_, ?_⟩⟩
    · exact fun hr => hr.imp_right .inl
    · rintro (hr | rfl | rfl)
      · exact .inl hr
      · exact .inr rfl
      · left
        simp only [Upto]
        omega

/-- The double-indirect part up to its loops over the tables. -/
theorem Lengthened.enterDouble (h : Lengthened L fs₀ ino₀ U₀ n fs ino (SingleTo (nextDouble L)))
    (range : nextDouble L < 16513) (block : Nat)
    (enough : n + ((if L ≤ 129 * 512 then 1 else 0) +
      if (nextDouble L - 129) % 128 = 0 then 1 else 0) ≤ fs₀.free.freeCount) :
    ∃ fs' ino', growDouble fs ino (max (129 * 512) L) (max 129 (L / 512)) block = (do
        let mi := (block - 129) / 128
        let mj := (nextDouble L - 129) / 128
        let fs ← fs'.allocEntries ino'.din (mj + 1) (mj - mi)
        let fs ← fs.growTables ino'.din mj ((nextDouble L - 129) % 128) mi ((block - 129) % 128)
          mj (mi + 1 - mj)
        .ok (fs, ino')) ∧
      ino'.length = ino.length ∧
      Lengthened L fs₀ ino₀ U₀ (n + ((if L ≤ 129 * 512 then 1 else 0) +
        if (nextDouble L - 129) % 128 = 0 then 1 else 0)) fs' ino'
        (DoubleTo ((nextDouble L - 129) / 128) (nextDouble L)) := by
  have bound : L < 16513 * 512 := by
    unfold nextDouble bytesToSectors at range
    omega
  obtain ⟨din, alloc, grown⟩ := h.allocDin (by omega)
  obtain ⟨mid, tail, grown⟩ := grown.fillTailDouble bound
  obtain ⟨fs', table, grown⟩ := grown.allocTable range (by omega)
  rw [Nat.add_assoc] at grown
  refine ⟨fs', { ino with din := din.2 }, ?_, rfl, grown⟩
  simp only [growDouble, alloc, tail, table, bind, Except.bind]

/-- The double-indirect part, when all new blocks are in one second-level index. -/
theorem Lengthened.growDouble (h : Lengthened L fs₀ ino₀ U₀ n fs ino (SingleTo (nextDouble L)))
    (range : nextDouble L < 16513) {block : Nat} (low : nextDouble L ≤ block)
    (one : (block - 129) / 128 = (nextDouble L - 129) / 128)
    (enough : n + ((if L ≤ 129 * 512 then 1 else 0) +
      (if (nextDouble L - 129) % 128 = 0 then 1 else 0) + (block + 1 - nextDouble L)) ≤
        fs₀.free.freeCount) :
    ∃ fs' ino', Filesys.growDouble fs ino (max (129 * 512) L) (max 129 (L / 512)) block =
        .ok (fs', ino') ∧
      ino'.length = ino.length ∧
      Lengthened L fs₀ ino₀ U₀ (n + ((if L ≤ 129 * 512 then 1 else 0) +
        (if (nextDouble L - 129) % 128 = 0 then 1 else 0) + (block + 1 - nextDouble L))) fs' ino'
        (DoubleTo ((nextDouble L - 129) / 128) (block + 1)) := by
  obtain ⟨mid, ino', enter, length, grown⟩ := h.enterDouble range block (by omega)
  have first : 129 ≤ nextDouble L := Nat.le_max_left 129 _
  obtain ⟨fs', fill, grown⟩ := grown.growTable (j := (nextDouble L - 129) % 128)
    (by omega) (by omega) (by omega : _ + (block + 1 - nextDouble L) ≤ 128) (by omega)
  refine ⟨fs', ino', ?_, length, ?_⟩
  · have none : (nextDouble L - 129) / 128 - (nextDouble L - 129) / 128 = 0 := by omega
    have once : (nextDouble L - 129) / 128 + 1 - (nextDouble L - 129) / 128 = 1 := by omega
    have count :
        (block - 129) % 128 + 1 - (nextDouble L - 129) % 128 = block + 1 - nextDouble L := by
      omega
    rw [enter]
    simp only [one, none, once, Fs.allocEntries, Fs.growTables, if_true, count, fill, bind,
      Except.bind]
  · rw [Nat.add_sub_of_le (Nat.le_succ_of_le low), Nat.add_assoc] at grown
    exact grown

end Parts

/-- The number of sectors that a growth from length `L` to length `N` needs. -/
def growthSectors (L N : Nat) : Nat :=
  if N / 512 = L / 512 ∧ L % 512 ≠ 0 then 0
  else (if L = 0 then 1 else 0) +
    if N / 512 = 1 ∧ N % 512 = 0 then 0
    else (if L ≤ 512 then 1 else 0) +
      if N / 512 < 129 then N / 512 + 1 - nextBlock L
      else 129 - nextBlock L +
        if N / 512 = 129 ∧ N % 512 = 0 then 0
        else (if L ≤ 129 * 512 then 1 else 0) +
          (if (nextDouble L - 129) % 128 = 0 then 1 else 0) + (N / 512 + 1 - nextDouble L) +
          ((N / 512 - 129) / 128 - (nextDouble L - 129) / 128)

/-- No block that a growth from `L` to `N` maps in the double-indirect range is in another
second-level index than the first one. -/
def OneTable (L N : Nat) : Prop :=
  N ≤ 129 * 512 ∨ N / 512 = L / 512 ∧ L % 512 ≠ 0 ∨
    (N / 512 - 129) / 128 = (nextDouble L - 129) / 128 ∧ nextDouble L < 16513

instance (L N : Nat) : Decidable (OneTable L N) := inferInstanceAs (Decidable (_ ∨ _ ∨ _))

section Growth

variable {fs : Fs} {ino : InodeDisk} {U : Role → Prop}

theorem byteToSector_single (fs : Fs) {p : Nat} (inside : p < ino.length) (single : p / 512 < 129) :
    byteToSector fs ino p = .ok (sectorAt fs ino (.data (p / 512))) := by
  rw [byteToSector, if_pos inside]
  by_cases direct : p / 512 < 1
  · rw [if_pos direct, sectorAt, if_pos (by omega)]
  · rw [if_neg direct, if_pos single, sectorAt_slot fs ino (slot_single (by omega) single),
      fs.index_of_lt _ (by omega)]
    rfl

theorem Layout.byteToSector_eq (h : Layout fs ino U) {p : Nat} (inside : p < ino.length)
    (mapped : U (.data (p / 512))) :
    byteToSector fs ino p = .ok (sectorAt fs ino (.data (p / 512))) := by
  by_cases single : p / 512 < 129
  · exact byteToSector_single fs inside single
  · have slot := slot_double (Nat.le_of_not_lt single)
    have table := (h.closed _ _ _ mapped slot).1
    have bound := (h.closed _ _ _ table rfl).2
    have entry : (p / 512 - 129) % 128 < 128 := by omega
    rw [byteToSector, if_pos inside, if_neg (by omega), if_neg single, sectorAt_slot fs ino slot]
    simp only [fs.index_of_lt _ bound, fs.index_of_lt _ entry, bind, Except.bind]
    rfl

theorem Maps.byteToSector_eq (h : Maps fs ino U) {p : Nat} (inside : p < ino.length)
    (mapped : U (.data (p / 512))) :
    byteToSector fs ino p = .ok (sectorAt fs ino (.data (p / 512))) :=
  h.layout.byteToSector_eq inside mapped

theorem upto_of_singleTo {b c : Nat} (le : b ≤ c) {r : Role} (h : Upto b r) : SingleTo c r :=
  .inl (h.mono le)

theorem upto_of_doubleTo {i b c : Nat} (le : b ≤ c) {r : Role} (h : Upto b r) : DoubleTo i c r :=
  .inl (h.mono le)

/-- A growth within the last block maps nothing new. -/
theorem Maps.growTail (wf : Maps fs ino (Upto (bytesToSectors ino.length)))
    (writable : fs.free.Writable) {pos size : Nat} (grow : ino.length < pos + size)
    (same : (pos + size) / 512 = ino.length / 512) (tail : ino.length % 512 ≠ 0) :
    ∃ fs' ino', fileGrowth fs ino pos size = .ok (fs', ino') ∧ ino'.length = pos + size ∧
      Lengthened ino.length fs ino (Upto (bytesToSectors ino.length)) 0 fs' ino'
        (Upto (bytesToSectors (pos + size))) := by
  have blocks : bytesToSectors (pos + size) = bytesToSectors ino.length := by
    unfold bytesToSectors
    omega
  have mapped : Upto (bytesToSectors ino.length) (.data (ino.length / 512)) := by
    simp only [Upto, bytesToSectors]
    omega
  have grown := (wf.lengthened writable ino.length).set_length (pos + size)
  have sid := grown.maps.byteToSector_eq grow mapped
  have grown := grown.memset mapped ino.length (fun _ => by omega) (pos - ino.length)
  rw [blocks]
  refine ⟨_, _, ?_, rfl, grown⟩
  simp only [fileGrowth, if_pos (And.intro same tail), sid, bind, Except.bind]

section Blocks

variable (wf : Maps fs ino (Upto (bytesToSectors ino.length))) (writable : fs.free.Writable)
  {pos size : Nat} (blocks : ¬((pos + size) / 512 = ino.length / 512 ∧ ino.length % 512 ≠ 0))

include wf writable blocks

/-- A growth to exactly one block maps the direct block. -/
theorem Maps.growOne (one : (pos + size) / 512 = 1 ∧ (pos + size) % 512 = 0)
    (grow : ino.length ≤ pos + size)
    (room : (if ino.length = 0 then 1 else 0) ≤ fs.free.freeCount) :
    ∃ fs' ino', fileGrowth fs ino pos size = .ok (fs', ino') ∧ ino'.length = pos + size ∧
      Lengthened ino.length fs ino (Upto (bytesToSectors ino.length))
        (if ino.length = 0 then 1 else 0) fs' ino' (Upto 1) := by
  obtain ⟨fs', ino', direct, length, grown⟩ :=
    ((wf.lengthened writable ino.length).set_length (pos + size)).growDirect (by omega)
  have next : nextBlock ino.length = 1 := by
    unfold nextBlock bytesToSectors
    omega
  rw [next] at grown
  refine ⟨fs', ino', ?_, length, grown.recount (by omega)⟩
  simp only [fileGrowth, if_neg blocks, direct, if_pos one]

/-- A growth past the first block has the single-level index before it fills entries. -/
theorem Maps.enterSingle (past : ¬((pos + size) / 512 = 1 ∧ (pos + size) % 512 = 0))
    (room : (if ino.length = 0 then 1 else 0) + (if ino.length ≤ 512 then 1 else 0) ≤
      fs.free.freeCount) :
    ∃ fs' ino', fileGrowth fs ino pos size = (
        if (pos + size) / 512 < 129 then do
          let fs ← growSingle fs' ino' (max 512 ino.length) (max 1 (ino.length / 512))
            ((pos + size) / 512)
          .ok (fs, ino')
        else do
          let (fs, length, blockCurrent) ←
            fillSingle fs' ino' (max 512 ino.length) (max 1 (ino.length / 512))
          if (pos + size) / 512 = 129 ∧ (pos + size) % 512 = 0 then .ok (fs, ino')
          else growDouble fs ino' length blockCurrent ((pos + size) / 512)) ∧
      ino'.length = pos + size ∧
      Lengthened ino.length fs ino (Upto (bytesToSectors ino.length))
        ((if ino.length = 0 then 1 else 0) + if ino.length ≤ 512 then 1 else 0) fs' ino'
        (SingleTo (nextBlock ino.length)) := by
  obtain ⟨fs₁, ino₁, direct, length, grown⟩ :=
    ((wf.lengthened writable ino.length).set_length (pos + size)).growDirect (by omega)
  obtain ⟨ind, alloc, grown⟩ := grown.allocInd (by omega)
  refine ⟨ind.1, { ino₁ with ind := ind.2 }, ?_, length, grown.recount (by omega)⟩
  simp only [fileGrowth, if_neg blocks, direct, if_neg past, alloc]

/-- A growth past block 129 has the single-level index full before its double-indirect part. -/
theorem Maps.fillSingle (past : 129 ≤ (pos + size) / 512)
    (room : (if ino.length = 0 then 1 else 0) + (if ino.length ≤ 512 then 1 else 0) +
      (129 - nextBlock ino.length) ≤ fs.free.freeCount) :
    ∃ fs' ino', fileGrowth fs ino pos size = (
        if (pos + size) / 512 = 129 ∧ (pos + size) % 512 = 0 then .ok (fs', ino')
        else growDouble fs' ino' (max (129 * 512) ino.length) (max 129 (ino.length / 512))
          ((pos + size) / 512)) ∧
      ino'.length = pos + size ∧
      Lengthened ino.length fs ino (Upto (bytesToSectors ino.length))
        ((if ino.length = 0 then 1 else 0) + (if ino.length ≤ 512 then 1 else 0) +
          (129 - nextBlock ino.length)) fs' ino' (SingleTo (nextDouble ino.length)) := by
  obtain ⟨fs₁, ino₁, enter, length, grown⟩ := wf.enterSingle writable blocks (by omega) (by omega)
  obtain ⟨fs', full, grown⟩ := grown.fillSingle room
  refine ⟨fs', ino₁, ?_, length, grown⟩
  simp only [enter, if_neg (Nat.not_lt.mpr past), full, bind, Except.bind]

end Blocks

/-- `file_growth` maps the blocks of the new length, when it stays in one second-level index. -/
theorem Maps.grown_fileGrowth (wf : Maps fs ino (Upto (bytesToSectors ino.length)))
    (writable : fs.free.Writable) {pos size : Nat} (grow : ino.length < pos + size ∨ ino.length = 0)
    (one : OneTable ino.length (pos + size))
    (room : growthSectors ino.length (pos + size) ≤ fs.free.freeCount) :
    ∃ fs' ino' U, fileGrowth fs ino pos size = .ok (fs', ino') ∧
      ino'.length = pos + size ∧
      Lengthened ino.length fs ino (Upto (bytesToSectors ino.length))
        (growthSectors ino.length (pos + size)) fs' ino' U ∧
      ∀ r, Upto (nextBlock (pos + size)) r → U r := by
  by_cases tail : (pos + size) / 512 = ino.length / 512 ∧ ino.length % 512 ≠ 0
  · have grow : ino.length < pos + size := by omega
    obtain ⟨fs', ino', run, length, grown⟩ := wf.growTail writable grow tail.1 tail.2
    rw [growthSectors, if_pos tail]
    refine ⟨fs', ino', _, run, length, grown, fun r hr => hr.mono ?_⟩
    unfold nextBlock bytesToSectors
    omega
  rw [growthSectors, if_neg tail] at room ⊢
  by_cases first : (pos + size) / 512 = 1 ∧ (pos + size) % 512 = 0
  · obtain ⟨fs', ino', run, length, grown⟩ :=
      wf.growOne writable tail first (by omega) (by omega)
    rw [if_pos first]
    refine ⟨fs', ino', _, run, length, grown, fun r hr => hr.mono ?_⟩
    unfold nextBlock bytesToSectors
    omega
  rw [if_neg first] at room ⊢
  by_cases single : (pos + size) / 512 < 129
  · rw [if_pos single] at room ⊢
    obtain ⟨mid, ino', enter, length, grown⟩ := wf.enterSingle writable tail first (by omega)
    have low : nextBlock ino.length ≤ (pos + size) / 512 + 1 := by
      unfold nextBlock bytesToSectors
      omega
    obtain ⟨fs', fill, grown⟩ := grown.growSingle (by omega) low single (by omega)
    refine ⟨fs', ino', _, ?_, length, grown.recount (by omega), fun r => upto_of_singleTo ?_⟩
    · simp only [enter, if_pos single, fill, bind, Except.bind]
    · unfold nextBlock bytesToSectors
      omega
  rw [if_neg single] at room ⊢
  obtain ⟨mid, ino₁, enter, length, grown⟩ := wf.fillSingle writable tail (by omega) (by omega)
  by_cases last : (pos + size) / 512 = 129 ∧ (pos + size) % 512 = 0
  · rw [if_pos last] at enter ⊢
    refine ⟨mid, ino₁, _, enter, length, grown.recount (by omega), fun r => upto_of_singleTo ?_⟩
    unfold nextBlock nextDouble bytesToSectors
    omega
  rw [if_neg last] at room enter ⊢
  have low : nextDouble ino.length ≤ (pos + size) / 512 := by
    clear room
    refine Nat.max_le.mpr ⟨by omega, ?_⟩
    unfold bytesToSectors
    omega
  have table := (one.resolve_left (by omega)).resolve_left tail
  obtain ⟨fs', ino', fill, length', grown⟩ := grown.growDouble table.2 low table.1 (by omega)
  refine ⟨fs', ino', _, enter.trans fill, length'.trans length, grown.recount (by omega),
    fun r => upto_of_doubleTo ?_⟩
  unfold nextBlock bytesToSectors
  omega

end Growth

end Pintos.Filesys
