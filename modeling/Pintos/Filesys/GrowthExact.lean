import Mathlib.Data.List.Nodup
import Mathlib.Data.List.Perm.Subperm
import Pintos.Filesys.GrowthBounds

/-! Which sectors a growth marks in the free map, against those that the layout of the new length
has and that of the old length has not. -/

namespace Pintos.Filesys

open Words Role Results

/-- `inode_alloc`: the record is grown from length 0 to its own. -/
def inodeAlloc (fs : Fs) (diskInode : InodeDisk) : Except Fault (Fs × InodeDisk × Bool) := do
  let (fs, grown) ← fileGrowth fs { diskInode with length := 0 } 0 diskInode.length
  .ok (fs, grown, true)

/-- A sector that is marked from `fs` to `fs'`. -/
def NewlyUsed (fs fs' : Fs) (s : Nat) : Prop := fs'.free.Used s ∧ ¬fs.free.Used s

/-- The growth marks the sectors that the new length needs, and no others, and the pointers that
there were stay. -/
def GrowsExactly (fs : Fs) (ino : InodeDisk) (pos size : Nat) : Prop :=
  ∃ fs' ino', fileGrowth fs ino pos size = .ok (fs', ino') ∧
    (∀ s, NewlyUsed fs fs' s ↔ ∃ r, Upto (bytesToSectors (pos + size)) r ∧
      ¬Upto (bytesToSectors ino.length) r ∧ sectorAt fs' ino' r = s) ∧
    ∀ r, Upto (bytesToSectors ino.length) r → sectorAt fs' ino' r = sectorAt fs ino r

/-- `inode_alloc` marks the sectors that the length needs, and no others. -/
def AllocatesExactly (fs : Fs) (diskInode : InodeDisk) : Prop :=
  ∃ fs' d ok, inodeAlloc fs diskInode = .ok (fs', d, ok) ∧ ∀ s, NewlyUsed fs fs' s ↔
    ∃ r, Upto (bytesToSectors diskInode.length) r ∧ sectorAt fs' d r = s

/-- The new length ends inside a block, and the file does not stay in its first block from empty, or
it is that of exactly one block or of exactly the blocks before the double-indirect ones. -/
def GrowthFits (L N : Nat) : Prop :=
  N = 512 ∨ N = 129 * 512 ∨ N % 512 ≠ 0 ∧ (0 < L ∨ 512 < N)

instance (L N : Nat) : Decidable (GrowthFits L N) := inferInstanceAs (Decidable (_ ∨ _ ∨ _ ∧ _))

/-- The roles that a growth below the double-indirect range maps. -/
def grownRoles (L N : Nat) : Role → Prop :=
  if N / 512 = L / 512 ∧ L % 512 ≠ 0 then Upto (bytesToSectors N)
  else if N / 512 = 1 ∧ N % 512 = 0 then Upto 1
  else if N / 512 < 129 then SingleTo (N / 512 + 1)
  else SingleTo 129

/-- The roles that the layout of length `N` has and that of length `L` has not. -/
def newRoles (L N : Nat) : List Role :=
  (if bytesToSectors L ≤ 1 ∧ 1 < bytesToSectors N then [.ind] else []) ++
    (List.range' (bytesToSectors L) (bytesToSectors N - bytesToSectors L)).map .data

section Roles

variable {L N : Nat}

theorem mem_newRoles (single : N ≤ 129 * 512) (r : Role) :
    r ∈ newRoles L N ↔ Upto (bytesToSectors N) r ∧ ¬Upto (bytesToSectors L) r := by
  have short : bytesToSectors N ≤ 129 := by
    unfold bytesToSectors
    omega
  rw [newRoles, List.mem_append]
  cases r with
  | data b =>
    simp only [List.mem_map, List.mem_range'_1, Upto]
    constructor
    · rintro (mem | ⟨c, range, eq⟩)
      · split at mem <;> simp at mem
      · injection eq with eq
        omega
    · exact fun range => .inr ⟨b, by omega, rfl⟩
  | ind =>
    simp only [Upto]
    split <;> simp <;> omega
  | din | second i =>
    simp only [Upto]
    split <;> simp <;> omega

theorem nodup_newRoles : (newRoles L N).Nodup := by
  rw [newRoles]
  apply List.nodup_append.mpr
  refine ⟨by split <;> simp, ?_, ?_⟩
  · exact List.Nodup.map (fun _ _ eq => by injection eq) List.nodup_range'
  · intro r first r' second eq
    obtain ⟨b, -, rfl⟩ := List.mem_map.mp second
    subst eq
    split at first <;> simp at first

theorem length_newRoles (fits : GrowthFits L N) (grow : L < N ∨ L = 0) (single : N ≤ 129 * 512) :
    (newRoles L N).length = growthCalls L N := by
  have length : (newRoles L N).length =
      (if bytesToSectors L ≤ 1 ∧ 1 < bytesToSectors N then 1 else 0) +
        (bytesToSectors N - bytesToSectors L) := by
    rw [newRoles, List.length_append, List.length_map, List.length_range']
    congr 1
    split <;> rfl
  rw [length, growthCalls]
  clear length
  unfold nextBlock bytesToSectors
  unfold GrowthFits at fits
  by_cases tail : N / 512 = L / 512 ∧ L % 512 ≠ 0
  · rw [if_pos tail]
    split <;> omega
  rw [if_neg tail]
  by_cases first : N / 512 = 1 ∧ N % 512 = 0
  · rw [if_pos first]
    split <;> split <;> omega
  rw [if_neg first]
  by_cases below : N / 512 < 129
  · rw [if_pos below]
    split <;> split <;> split <;> omega
  · have last : N / 512 = 129 ∧ N % 512 = 0 := by omega
    rw [if_neg below, if_pos last]
    split <;> split <;> split <;> omega

end Roles

/-- A list without repetitions that is as long as one that contains it has all of its elements. -/
theorem subset_of_nodup {list other : List Nat} (nodup : list.Nodup) (sub : list ⊆ other)
    (length : other.length ≤ list.length) : other ⊆ list :=
  ((List.subperm_of_subset nodup sub).perm_of_length_le length).symm.subset

section Exact

variable {fs : Fs} {ino : InodeDisk} {pos size : Nat}

/-- A growth below the double-indirect range maps these roles. -/
theorem Maps.grown_single (wf : Maps fs ino (Upto (bytesToSectors ino.length)))
    (writable : fs.free.Writable) (grow : ino.length < pos + size ∨ ino.length = 0)
    (single : pos + size ≤ 129 * 512)
    (room : growthCalls ino.length (pos + size) ≤ fs.free.freeCount) :
    ∃ fs' ino', fileGrowth fs ino pos size = .ok (fs', ino') ∧
      Lengthened ino.length fs ino (Upto (bytesToSectors ino.length))
        (growthCalls ino.length (pos + size)) fs' ino' (grownRoles ino.length (pos + size)) := by
  rw [growthCalls] at room ⊢
  rw [grownRoles]
  by_cases tail : (pos + size) / 512 = ino.length / 512 ∧ ino.length % 512 ≠ 0
  · obtain ⟨fs', ino', run, -, grown⟩ := wf.growTail writable (by omega) tail.1 tail.2
    rw [if_pos tail, if_pos tail]
    exact ⟨fs', ino', run, grown⟩
  rw [if_neg tail] at room
  rw [if_neg tail, if_neg tail]
  by_cases first : (pos + size) / 512 = 1 ∧ (pos + size) % 512 = 0
  · obtain ⟨fs', ino', run, -, grown⟩ := wf.growOne writable tail first (by omega) (by omega)
    rw [if_pos first, if_pos first]
    exact ⟨fs', ino', run, grown.recount (by omega)⟩
  rw [if_neg first] at room
  rw [if_neg first, if_neg first]
  by_cases below : (pos + size) / 512 < 129
  · rw [if_pos below] at room
    obtain ⟨mid, ino', enter, -, grown⟩ := wf.enterSingle writable tail first (by omega)
    have low : nextBlock ino.length ≤ (pos + size) / 512 + 1 := by
      unfold nextBlock bytesToSectors
      omega
    obtain ⟨fs', fill, grown⟩ := grown.growSingle (by omega) low below (by omega)
    rw [if_pos below, if_pos below]
    refine ⟨fs', ino', ?_, grown.recount (by omega)⟩
    simp only [enter, if_pos below, fill, bind, Except.bind]
  · have last : (pos + size) / 512 = 129 ∧ (pos + size) % 512 = 0 := by omega
    rw [if_neg below, if_pos last] at room
    obtain ⟨fs', ino', enter, -, grown⟩ := wf.fillSingle writable tail (by omega) (by omega)
    have full : nextDouble ino.length = 129 := by
      unfold nextDouble bytesToSectors
      omega
    rw [if_pos last] at enter
    rw [full] at grown
    rw [if_neg below, if_neg below, if_pos last]
    exact ⟨fs', ino', enter, grown.recount (by omega)⟩

theorem upto_grownRoles {L N : Nat} (single : N ≤ 129 * 512) {r : Role}
    (hr : Upto (bytesToSectors N) r) : grownRoles L N r := by
  rw [grownRoles]
  split
  next => exact hr
  next =>
    split
    next =>
      apply hr.mono
      unfold bytesToSectors
      omega
    next =>
      split
      next =>
        apply upto_of_singleTo _ hr
        unfold bytesToSectors
        omega
      next =>
        apply upto_of_singleTo _ hr
        unfold bytesToSectors
        omega

variable (wf : Maps fs ino (Upto (bytesToSectors ino.length))) (writable : fs.free.Writable)
  (grow : ino.length < pos + size ∨ ino.length = 0) (single : pos + size ≤ 129 * 512)
  (room : growthCalls ino.length (pos + size) ≤ fs.free.freeCount)

include wf writable grow single room

/-- Another length needs a block after the last one, or an index for the first block. -/
theorem Maps.fits_of_growsExactly (exact_ : GrowsExactly fs ino pos size) :
    GrowthFits ino.length (pos + size) := by
  obtain ⟨fs', ino', run, grown⟩ := wf.grown_single writable grow single room
  obtain ⟨fs₁, ino₁, run₁, marked, -⟩ := exact_
  obtain ⟨rfl, rfl⟩ := Prod.mk.inj (Except.ok.inj (run.symm.trans run₁))
  have needed : ∀ r, grownRoles ino.length (pos + size) r →
      ¬Upto (bytesToSectors ino.length) r → Upto (bytesToSectors (pos + size)) r := by
    intro r hr new
    have free := grown.new r hr new
    obtain ⟨r', hr', -, same⟩ := (marked (sectorAt fs' ino' r)).mp
      ⟨grown.maps.used r hr, FreeMap.not_used_of_free free⟩
    exact grown.maps.distinct r' r (upto_grownRoles single hr') hr same ▸ hr'
  by_contra out
  unfold GrowthFits at out
  have tail : ¬((pos + size) / 512 = ino.length / 512 ∧ ino.length % 512 ≠ 0) := by omega
  have first : ¬((pos + size) / 512 = 1 ∧ (pos + size) % 512 = 0) := by omega
  have below : (pos + size) / 512 < 129 := by omega
  rw [grownRoles, if_neg tail, if_neg first, if_pos below] at needed
  by_cases whole : (pos + size) % 512 = 0
  · have more := needed (.data ((pos + size) / 512)) (.inl (Nat.lt_succ_self _)) (by
      simp only [Upto, bytesToSectors]
      omega)
    simp only [Upto, bytesToSectors] at more
    omega
  · have index := needed .ind (.inr rfl) (by
      simp only [Upto, bytesToSectors]
      omega)
    simp only [Upto, bytesToSectors] at index
    omega

/-- The calls of `free_map_allocate` are as many as the roles that are needed. -/
theorem Maps.growsExactly_of_fits (fits : GrowthFits ino.length (pos + size)) :
    GrowsExactly fs ino pos size := by
  obtain ⟨fs', ino', run, grown⟩ := wf.grown_single writable grow single room
  refine ⟨fs', ino', run, fun s => ?_, fun r hr => (grown.old r hr).2⟩
  have calls := fileGrowth_calls grow run
  have fresh : ∀ r ∈ newRoles ino.length (pos + size), grownRoles ino.length (pos + size) r ∧
      NewlyUsed fs fs' (sectorAt fs' ino' r) := by
    intro r mem
    obtain ⟨hr, new⟩ := (mem_newRoles single r).mp mem
    have mapped : grownRoles ino.length (pos + size) r := upto_grownRoles single hr
    exact ⟨mapped, grown.maps.used r mapped,
      FreeMap.not_used_of_free (grown.new r mapped new)⟩
  constructor
  · rintro ⟨used, before⟩
    obtain ⟨marked, few, covers⟩ :=
      fs.free.allocs_marks (growthCalls ino.length (pos + size))
    rw [← calls] at covers
    have nodup : ((newRoles ino.length (pos + size)).map (sectorAt fs' ino')).Nodup :=
      List.Nodup.map_on (fun r hr r' hr' eq =>
        grown.maps.distinct r r' (fresh r hr).1 (fresh r' hr').1 eq) nodup_newRoles
    have sub : (newRoles ino.length (pos + size)).map (sectorAt fs' ino') ⊆ marked := by
      intro t mem
      obtain ⟨r, hr, rfl⟩ := List.mem_map.mp mem
      obtain ⟨-, now, old⟩ := fresh r hr
      exact (covers _ now).resolve_left old
    have all := subset_of_nodup nodup sub (by
      rw [List.length_map, length_newRoles fits grow single]
      exact few)
    obtain ⟨r, mem, eq⟩ := List.mem_map.mp (all ((covers s used).resolve_left before))
    obtain ⟨hr, new⟩ := (mem_newRoles single r).mp mem
    exact ⟨r, hr, new, eq⟩
  · rintro ⟨r, hr, new, rfl⟩
    exact (fresh r ((mem_newRoles single r).mpr ⟨hr, new⟩)).2

end Exact

/-- An inode of length 0 has no roles to map. -/
theorem maps_empty (fs : Fs) (ino : InodeDisk) (empty : ino.length = 0) :
    Maps fs ino (Upto (bytesToSectors ino.length)) := by
  have none : ∀ r, ¬Upto (bytesToSectors ino.length) r := by
    intro r hr
    rw [empty] at hr
    cases r <;> simp [Upto, bytesToSectors] at hr
  exact ⟨fun r _ _ hr => absurd hr (none r), fun r hr => absurd hr (none r),
    fun r _ hr => absurd hr (none r)⟩

/-- `inode_alloc` marks exactly what is needed when the growth from length 0 does. -/
theorem allocatesExactly_iff (fs : Fs) (diskInode : InodeDisk) :
    AllocatesExactly fs diskInode ↔
      GrowsExactly fs { diskInode with length := 0 } 0 diskInode.length := by
  have none : ∀ r, ¬Upto (bytesToSectors 0) r := by
    intro r hr
    cases r <;> simp [Upto, bytesToSectors] at hr
  constructor
  · rintro ⟨fs', d, ok, run, marked⟩
    obtain ⟨⟨fs₁, d₁⟩, grown, rest⟩ := bind_ok run
    obtain ⟨rfl, same⟩ := Prod.mk.inj (Except.ok.inj rest)
    obtain ⟨rfl, -⟩ := Prod.mk.inj same
    refine ⟨fs₁, d₁, grown, fun s => ?_, fun r hr => absurd hr (none r)⟩
    rw [marked, Nat.zero_add]
    simp only [none, not_false_eq_true, true_and]
  · rintro ⟨fs', d, grown, marked, -⟩
    refine ⟨fs', d, true, ?_, fun s => ?_⟩
    · rw [inodeAlloc, grown]
      rfl
    · rw [marked, Nat.zero_add]
      simp only [none, not_false_eq_true, true_and]

theorem smallFs_writable : smallFs.free.Writable := fun _ => rfl

end Pintos.Filesys
