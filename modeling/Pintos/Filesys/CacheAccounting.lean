import Pintos.Lib.Transition
import Pintos.Filesys.SecondChance

/-! `used_cache` against the number of entries, over calls of the functions of `cache.c`.
`cache_remove` takes an entry out of `cache_list` and leaves `used_cache` as it is. -/

namespace Pintos.Filesys

open Transition

variable {α : Type}

/-- `cache_remove` of the entry at `addr`, which must be in the list. -/
def cacheRemove (addr : Nat) (s : Cache α) : Option (Cache α) :=
  if s.cacheList.any fun c => c.addr = addr then
    some { s with cacheList := s.cacheList.eraseP fun c => c.addr = addr }
  else none

inductive CacheCall
  | cacheBlock (sid : Nat) (type : Bool)
  | cacheRemove (addr : Nat)
  | writeToDisk
  | freeCache

/-- One call, with its loops bounded by `fuel`. -/
def cacheCall (fuel : Nat) (s : Cache α) : CacheCall → Option (Cache α)
  | .cacheBlock sid type => (cacheBlock fuel sid type s).map Prod.snd
  | .cacheRemove addr => cacheRemove addr s
  | .writeToDisk => some (writeToDisk s)
  | .freeCache => some (freeCache s)

/-- The loops of `create_cache` and `cache_evict` come to their end at every miss. -/
def Cache.MissReturns (s : Cache α) : Prop :=
  ∀ sid type, findCache sid s = none → ∃ fuel r, cacheBlock fuel sid type s = some r

def Cache.Accounted (s : Cache α) : Prop := s.usedCache = s.cacheList.length ∧ s.MissReturns

/-- The call is no `cache_remove`. -/
def RemovesNone (_ : Cache α) : CacheCall → Prop
  | .cacheRemove _ => False
  | _ => True

instance (s : Cache α) : (call : CacheCall) → Decidable (RemovesNone s call)
  | .cacheRemove _ => isFalse id
  | .cacheBlock .. | .writeToDisk | .freeCache => isTrue trivial

section Room

variable {s s' : Cache α}

/-- A miss in a cache that is full makes room by one eviction, and one that is not full evicts
nothing. -/
theorem makeRoom_cases {fuel : Nat} (bound : s.usedCache ≤ cacheSize)
    (run : makeRoom fuel s = some s') :
    (s.usedCache < cacheSize ∧ s' = s) ∨
      (s.usedCache = cacheSize ∧ s.cacheList ≠ [] ∧ ∃ c, EvictsOne s c s') := by
  by_cases full : s.usedCache ≥ cacheSize
  · right
    have nonempty : s.cacheList ≠ [] := by
      intro empty
      cases fuel with
      | zero =>
        rw [makeRoom, if_pos full] at run
        cases run
      | succ fuel =>
        rw [makeRoom, if_pos full, cacheEvict_empty empty] at run
        cases run
    obtain ⟨c, t, evicts, ends⟩ := cacheEvict_evictsOne nonempty
    refine ⟨by omega, nonempty, c, ?_⟩
    cases fuel with
    | zero =>
      rw [makeRoom, if_pos full] at run
      cases run
    | succ fuel =>
      rw [makeRoom, if_pos full] at run
      obtain ⟨mid, first, rest⟩ := Option.bind_eq_some_iff.mp run
      have longer := cacheEvict_mono (cacheEvict_mono first)
      obtain rfl := Option.some.inj (longer.symm.trans (ends fuel))
      have room : ¬mid.usedCache ≥ cacheSize := by
        rw [evicts.used]
        omega
      cases fuel <;>
      · rw [makeRoom, if_neg room] at rest
        obtain rfl := Option.some.inj rest
        exact evicts
  · left
    refine ⟨by omega, ?_⟩
    cases fuel <;>
    · rw [makeRoom, if_neg full] at run
      exact (Option.some.inj run).symm

theorem makeRoom_returns (bound : s.usedCache ≤ cacheSize)
    (entries : s.usedCache = cacheSize → s.cacheList ≠ []) (fuel : Nat) :
    ∃ s', makeRoom (fuel + 3) s = some s' := by
  by_cases full : s.usedCache ≥ cacheSize
  · obtain ⟨c, t, evicts, ends⟩ := cacheEvict_evictsOne (entries (by omega))
    refine ⟨t, ?_⟩
    have room : ¬t.usedCache ≥ cacheSize := by
      rw [evicts.used]
      omega
    rw [makeRoom, if_pos full, ends fuel, Option.bind_some, makeRoom, if_neg room]
  · exact ⟨s, by rw [makeRoom, if_neg full]⟩

/-- A full cache without entries is one in which a miss never returns. -/
theorem makeRoom_hangs (full : cacheSize ≤ s.usedCache) (empty : s.cacheList = []) (fuel : Nat) :
    makeRoom fuel s = none := by
  cases fuel with
  | zero => exact if_pos full
  | succ fuel => rw [makeRoom, if_pos full, cacheEvict_empty empty, Option.bind_none]

end Room

section Calls

variable {s s' : Cache α}

theorem SecondChance.length {list rest : List (CacheEntry α)} {c : CacheEntry α}
    (rule : SecondChance list c rest) : list.length = rest.length + 1 := by
  cases rule with
  | first before clear =>
    simp only [List.length_append, List.length_cons, List.length_map]
    omega
  | head all => simp

/-- `used_cache` counts the entries, and there are not more than `CACHE_SIZE`. -/
structure Cache.Counts (s : Cache α) : Prop where
  used : s.usedCache = s.cacheList.length
  bound : s.usedCache ≤ cacheSize

theorem EvictsOne.counts {c : CacheEntry α} (evicts : EvictsOne s c s') (h : s.Counts) :
    s'.Counts := by
  have length := evicts.rule.length
  have used := evicts.used
  have before := h.used
  have bound := h.bound
  constructor <;> omega

/-- A sector is looked up or gets an entry. -/
theorem cacheBlock_cases {fuel sid addr : Nat} {type : Bool}
    (run : cacheBlock fuel sid type s = some (addr, s')) :
    (∃ c, findCache sid s = some c ∧ addr = c.addr ∧ s' = { s with
      cacheList := modifyAt c.addr (fun c => { c with ab := true, db := c.db || type })
        s.cacheList }) ∨
    (findCache sid s = none ∧ ∃ t, makeRoom fuel s = some t ∧ addr = t.nextAddr ∧ s' = { t with
      cacheList := t.cacheList ++ [⟨t.nextAddr, sid, true, type, t.disk sid⟩]
      usedCache := t.usedCache + 1
      nextAddr := t.nextAddr + 1 }) := by
  unfold cacheBlock at run
  cases found : findCache sid s with
  | some c =>
    rw [found] at run
    obtain ⟨rfl, rfl⟩ := Prod.mk.inj (Option.some.inj run)
    exact .inl ⟨c, rfl, rfl, rfl⟩
  | none =>
    rw [found] at run
    obtain ⟨t, room, eq⟩ := Option.map_eq_some_iff.mp run
    obtain ⟨rfl, rfl⟩ := Prod.mk.inj eq
    exact .inr ⟨rfl, t, room, rfl, rfl⟩

theorem Cache.Counts.cacheBlock {fuel sid addr : Nat} {type : Bool} (h : s.Counts)
    (run : cacheBlock fuel sid type s = some (addr, s')) : s'.Counts := by
  obtain ⟨c, -, -, rfl⟩ | ⟨-, t, room, -, rfl⟩ := cacheBlock_cases run
  · refine ⟨?_, h.bound⟩
    rw [modifyAt, List.length_map]
    exact h.used
  · have made : t.Counts ∧ t.usedCache < cacheSize := by
      obtain ⟨free, rfl⟩ | ⟨full, -, c, evicts⟩ := makeRoom_cases h.bound room
      · exact ⟨h, free⟩
      · refine ⟨evicts.counts h, ?_⟩
        rw [evicts.used]
        omega
    have used := made.1.used
    have room := made.2
    constructor
    · show t.usedCache + 1 = ((t.cacheList ++ [_]).length : Int)
      rw [List.length_append, List.length_singleton]
      omega
    · show t.usedCache + 1 ≤ (cacheSize : Int)
      omega

theorem Cache.Counts.missReturns (h : s.Counts) : s.MissReturns := by
  intro sid type missing
  have entries : s.usedCache = cacheSize → s.cacheList ≠ [] := by
    intro full empty
    have used := h.used
    rw [full, empty] at used
    cases used
  obtain ⟨t, room⟩ := makeRoom_returns h.bound entries 0
  exact ⟨3, _, by rw [Filesys.cacheBlock, missing]; exact congrArg (Option.map _) room⟩

theorem Cache.Counts.cacheCall {fuel : Nat} {call : CacheCall} (h : s.Counts)
    (removes : RemovesNone s call) (run : Filesys.cacheCall fuel s call = some s') : s'.Counts := by
  cases call with
  | cacheBlock sid type =>
    obtain ⟨⟨addr, t⟩, block, rfl⟩ := Option.map_eq_some_iff.mp run
    exact h.cacheBlock block
  | cacheRemove addr => exact removes.elim
  | writeToDisk =>
    obtain rfl := Option.some.inj run
    refine ⟨?_, h.bound⟩
    rw [writeToDisk, List.length_map]
    exact h.used
  | freeCache =>
    obtain rfl := Option.some.inj run
    have used := h.used
    refine ⟨?_, ?_⟩
    · simp only [freeCache, List.length_nil]
      omega
    · simp only [freeCache, cacheSize]
      omega

/-- After a `cache_remove` the counter is one above the number of entries. -/
theorem Cache.Counts.removesNone {fuel : Nat} {call : CacheCall} (h : s.Counts)
    (accounted : s'.Accounted) (run : Filesys.cacheCall fuel s call = some s') :
    RemovesNone s call := by
  cases call with
  | cacheRemove addr =>
    have removed : cacheRemove addr s = some s' := run
    rw [cacheRemove] at removed
    split at removed
    swap
    · cases removed
    next some =>
      obtain rfl := Option.some.inj removed
      have used : s.usedCache = (s.cacheList.eraseP fun c => c.addr = addr).length := accounted.1
      have before := h.used
      have positive : 0 < s.cacheList.length := by
        apply List.length_pos_of_ne_nil
        intro empty
        rw [empty] at some
        cases some
      rw [List.length_eraseP, if_pos some] at used
      omega
  | cacheBlock | writeToDisk | freeCache => trivial

/-- In a run of calls from the empty cache `used_cache` counts the entries and every miss returns,
in all states, exactly when the run has no `cache_remove`. -/
theorem cache_accounted_iff (disk : Nat → α) (fuel : Nat) (calls : List CacheCall) :
    Always (cacheCall fuel) Cache.Accounted (cacheSystemInit disk) calls ↔
      Each (cacheCall fuel) RemovesNone (cacheSystemInit disk) calls := by
  have start : (cacheSystemInit disk).Counts := ⟨rfl, (by decide : (0 : Int) ≤ cacheSize)⟩
  apply always_iff_each _ _ _ calls start
  · exact fun s h => ⟨h.used, h.missReturns⟩
  · exact fun s call s' h removes run => h.cacheCall removes run
  · exact fun s call s' h accounted run => h.removesNone accounted run

/-- An entry is made and removed: the counter stays at one. -/
theorem removed_entry_counted : ¬∀ (disk : Nat → Nat) (fuel : Nat) (calls : List CacheCall),
    Always (cacheCall fuel) Cache.Accounted (cacheSystemInit disk) calls := by
  intro claim
  have always := claim (fun _ => 0) 3 [.cacheBlock 7 readBlock, .cacheRemove 0]
  have last : Cache.Accounted _ := (always.2 _ rfl).2 _ rfl
  have counted : (1 : Int) = 0 := last.1
  cases counted

end Calls

end Pintos.Filesys
