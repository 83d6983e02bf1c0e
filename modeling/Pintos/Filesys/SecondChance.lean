import Pintos.Filesys.Cache

/-! Which entry `cache_evict` takes out. -/

namespace Pintos.Filesys

variable {α : Type}

def CacheEntry.clearAb (c : CacheEntry α) : CacheEntry α := { c with ab := false }

/-- The second-chance rule, with the entries before, the victim, and the entries after: the first
one without `AB`, the ones before it lose it; or the head, if all have `AB`, and all lose it. -/
inductive SecondChance : List (CacheEntry α) → CacheEntry α → List (CacheEntry α) → Prop
  | first {pre post : List (CacheEntry α)} {c : CacheEntry α} :
    (∀ d ∈ pre, d.ab = true) → c.ab = false →
      SecondChance (pre ++ c :: post) c (pre.map CacheEntry.clearAb ++ post)
  | head {rest : List (CacheEntry α)} {c : CacheEntry α} :
    (∀ d ∈ c :: rest, d.ab = true) → SecondChance (c :: rest) c (rest.map CacheEntry.clearAb)

/-- One entry leaves by the rule; its data is on disk if it was dirty, and the rest of the disk
stays as it is. -/
structure EvictsOne (s : Cache α) (c : CacheEntry α) (s' : Cache α) : Prop where
  rule : SecondChance s.cacheList c s'.cacheList
  written : c.db = true → s'.disk c.sid = c.data
  clean : c.db = false → s'.disk c.sid = s.disk c.sid
  others : ∀ x, x ≠ c.sid → s'.disk x = s.disk x
  used : s'.usedCache = s.usedCache - 1
  nextAddr : s'.nextAddr = s.nextAddr

theorem EvictsOne.of_rule {s : Cache α} {c : CacheEntry α} {list : List (CacheEntry α)}
    (rule : SecondChance s.cacheList c list) :
    EvictsOne s c ⟨list, s.usedCache - 1, writeBack s.disk c, s.nextAddr⟩ := by
  refine ⟨rule, fun dirty => ?_, fun clean => ?_, fun x ne => ?_, rfl, rfl⟩
  · simp [writeBack, dirty]
  · simp [writeBack, clean]
  · rw [writeBack]
    split
    · exact Function.update_of_ne ne ..
    · rfl

/-- The loop comes to its end in its first pass or in its second. -/
theorem cacheEvict_evictsOne {s : Cache α} (nonempty : s.cacheList ≠ []) :
    ∃ c s', EvictsOne s c s' ∧ ∀ fuel, cacheEvict (fuel + 2) s = some s' := by
  rcases evictScan_cases s.cacheList with ⟨cleared, all⟩ | ⟨pre, c, post, split, before, clear, eq⟩
  · obtain ⟨c, rest, list⟩ := List.exists_cons_of_ne_nil nonempty
    have second : evictScan (s.cacheList.map fun c => { c with ab := false }) =
        (rest.map CacheEntry.clearAb, some c.clearAb) := by
      rw [list, List.map_cons, evictScan, if_neg Bool.false_ne_true]
      rfl
    have rule : SecondChance s.cacheList c (rest.map CacheEntry.clearAb) := by
      rw [list] at all ⊢
      exact .head all
    refine ⟨c, ⟨_, _, writeBack s.disk c, _⟩, .of_rule rule, fun fuel => ?_⟩
    exact (cacheEvict_again (fuel + 1) cleared).trans
      (cacheEvict_found (c := c.clearAb) fuel second)
  · have rule : SecondChance s.cacheList c (pre.map CacheEntry.clearAb ++ post) := by
      rw [split]
      exact .first before clear
    exact ⟨c, _, .of_rule rule, fun fuel => cacheEvict_found (fuel + 1) eq⟩

/-- More turns of the loop do not matter once it has ended. -/
theorem cacheEvict_mono {s s' : Cache α} {fuel : Nat} (run : cacheEvict fuel s = some s') :
    cacheEvict (fuel + 1) s = some s' := by
  induction fuel generalizing s with
  | zero => cases run
  | succ fuel ih =>
    rw [cacheEvict] at run ⊢
    split at run
    next list c eq => exact run
    next list eq => exact ih run

/-- On an empty list the loop of `cache_evict` has no end. -/
theorem cacheEvict_empty {s : Cache α} (empty : s.cacheList = []) (fuel : Nat) :
    cacheEvict fuel s = none := by
  induction fuel generalizing s with
  | zero => rfl
  | succ fuel ih =>
    have pass : evictScan s.cacheList = ([], none) := by rw [empty]; rfl
    rw [cacheEvict_again fuel pass]
    exact ih rfl

/-- `cache_evict` on a list that is not empty comes to its end, and takes out the one entry of the
second-chance rule. -/
theorem cache_evict_second_chance (s : Cache α) (nonempty : s.cacheList ≠ []) :
    ∃ c s', EvictsOne s c s' ∧ (∀ fuel, 2 ≤ fuel → cacheEvict fuel s = some s') ∧
      ∀ fuel t, cacheEvict fuel s = some t → t = s' := by
  obtain ⟨c, s', evicts, ends⟩ := cacheEvict_evictsOne nonempty
  refine ⟨c, s', evicts, fun fuel enough => ?_, fun fuel t run => ?_⟩
  · obtain ⟨more, rfl⟩ := Nat.exists_eq_add_of_le' enough
    exact ends more
  · have longer := cacheEvict_mono (cacheEvict_mono run)
    exact Option.some.inj (longer.symm.trans (ends fuel))

/-- Three entries, of which the second one is dirty and has no `AB`. -/
def threeEntries : Cache Nat :=
  ⟨[⟨0, 4, true, false, 7⟩, ⟨1, 5, false, true, 8⟩, ⟨2, 6, true, false, 9⟩], 3, fun _ => 0, 3⟩

theorem cache_evict_second_chance_three : ∃ c s', EvictsOne threeEntries c s' ∧
    s'.cacheList = [⟨0, 4, false, false, 7⟩, ⟨2, 6, true, false, 9⟩] ∧ s'.disk 5 = 8 := by
  obtain ⟨c, s', evicts, ends, -⟩ :=
    cache_evict_second_chance threeEntries (by decide : threeEntries.cacheList ≠ [])
  obtain rfl := Option.some.inj (ends 2 (Nat.le_refl 2))
  exact ⟨c, _, evicts, rfl, rfl⟩

end Pintos.Filesys
