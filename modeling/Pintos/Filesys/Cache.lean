import Mathlib.Data.List.Nodup
import Mathlib.Logic.Function.Basic

/-! The buffer cache of `cache.c` with its operations run one at a time.  `Holds` ties the entries
and the disk to the contents that the cache's users see. -/

namespace Pintos.Filesys

/-- `struct cache`; `addr` is the address that `malloc` returned for it. -/
structure CacheEntry (α : Type) where
  addr : Nat
  sid : Nat
  ab : Bool
  db : Bool
  data : α

/-- The globals of `cache.c` and the device; `nextAddr` is the next address of `malloc`. -/
structure Cache (α : Type) where
  cacheList : List (CacheEntry α)
  usedCache : Int
  disk : Nat → α
  nextAddr : Nat

def cacheSize : Int := 64

def readBlock : Bool := false

def writeBlock : Bool := true

section Functions

variable {α : Type}

/-- `cache_system_init`, without the thread it starts. -/
def cacheSystemInit (disk : Nat → α) : Cache α := ⟨[], 0, disk, 0⟩

/-- Writes the members of the entry at `addr`. -/
def modifyAt (addr : Nat) (f : CacheEntry α → CacheEntry α) (list : List (CacheEntry α)) :
    List (CacheEntry α) :=
  list.map fun c => if c.addr = addr then f c else c

def findCache (sid : Nat) (s : Cache α) : Option (CacheEntry α) :=
  s.cacheList.find? fun c => c.sid = sid

/-- The `for` loop of `cache_evict`: entries with `AB` lose it, the first one without leaves. -/
def evictScan : List (CacheEntry α) → List (CacheEntry α) × Option (CacheEntry α)
  | [] => ([], none)
  | c :: rest =>
    if c.ab then ({ c with ab := false } :: (evictScan rest).1, (evictScan rest).2)
    else (rest, some c)

/-- `block_write` when the entry is dirty. -/
def writeBack (disk : Nat → α) (c : CacheEntry α) : Nat → α :=
  if c.db then Function.update disk c.sid c.data else disk

/-- `cache_evict`, its `while (1)` bounded by `fuel`. -/
def cacheEvict : Nat → Cache α → Option (Cache α)
  | 0, _ => none
  | fuel + 1, s =>
    match evictScan s.cacheList with
    | (list, some c) =>
      some { s with
        cacheList := list
        usedCache := s.usedCache - 1
        disk := writeBack s.disk c }
    | (list, none) => cacheEvict fuel { s with cacheList := list }

/-- The loop of `create_cache` that evicts while the cache is full. -/
def makeRoom : Nat → Cache α → Option (Cache α)
  | 0, s => if s.usedCache ≥ cacheSize then none else some s
  | fuel + 1, s =>
    if s.usedCache ≥ cacheSize then (cacheEvict fuel s).bind (makeRoom fuel) else some s

def createCache (fuel sid : Nat) (type : Bool) (s : Cache α) : Option (Nat × Cache α) :=
  (makeRoom fuel s).map fun s =>
    (s.nextAddr, { s with
      cacheList := s.cacheList ++ [⟨s.nextAddr, sid, true, type, s.disk sid⟩]
      usedCache := s.usedCache + 1
      nextAddr := s.nextAddr + 1 })

/-- `cache_block`, which returns the address of the entry. -/
def cacheBlock (fuel sid : Nat) (type : Bool) (s : Cache α) : Option (Nat × Cache α) :=
  match findCache sid s with
  | some c =>
    some (c.addr, { s with
      cacheList := modifyAt c.addr (fun c => { c with ab := true, db := c.db || type })
        s.cacheList })
  | none => createCache fuel sid type s

def writeToDisk (s : Cache α) : Cache α :=
  { s with
    disk := s.cacheList.foldl writeBack s.disk
    cacheList := s.cacheList.map fun c => if c.db then { c with db := false } else c }

def freeCache (s : Cache α) : Cache α :=
  { s with
    disk := s.cacheList.foldl (fun disk c => Function.update disk c.sid c.data) s.disk
    cacheList := []
    usedCache := s.usedCache - s.cacheList.length }

end Functions

/-- The users see `m`: every entry holds the contents of its sector, and a sector without a dirty
entry has them on disk. -/
structure Holds {α : Type} (list : List (CacheEntry α)) (disk m : Nat → α) : Prop where
  sids : (list.map CacheEntry.sid).Nodup
  data : ∀ c ∈ list, c.data = m c.sid
  clean : ∀ x, (∀ c ∈ list, c.sid = x → c.db = false) → disk x = m x

/-- Addresses are distinct and come from `malloc`; `used_cache` counts the entries, at most
`CACHE_SIZE` of them. -/
structure Cache.Counted {α : Type} (s : Cache α) : Prop where
  addrs : (s.cacheList.map CacheEntry.addr).Nodup
  fresh : ∀ c ∈ s.cacheList, c.addr < s.nextAddr
  used : s.usedCache = s.cacheList.length
  bound : s.usedCache ≤ cacheSize

/-- All of an entry but its access bit. -/
def CacheEntry.core {α : Type} (c : CacheEntry α) : Nat × Nat × Bool × α :=
  (c.addr, c.sid, c.db, c.data)

namespace Holds

variable {α : Type} {list list' pre post : List (CacheEntry α)} {c : CacheEntry α}
  {disk m : Nat → α}

theorem same_of_sid (h : Holds list disk m) {c' : CacheEntry α} (hc : c ∈ list) (hc' : c' ∈ list)
    (same : c.sid = c'.sid) : c = c' :=
  List.inj_on_of_nodup_map h.sids hc hc' same

/-- Access bits play no part. -/
theorem of_core (h : Holds list disk m)
    (same : list'.map CacheEntry.core = list.map CacheEntry.core) :
    Holds list' disk m := by
  have sid : ∀ l : List (CacheEntry α),
      l.map CacheEntry.sid = (l.map CacheEntry.core).map fun k => k.2.1 := by
    simp [CacheEntry.core]
  refine ⟨by rw [sid, same, ← sid]; exact h.sids, fun c hc => ?_, fun x hx => ?_⟩
  · obtain ⟨d, hd, eq⟩ := List.mem_map.mp (same ▸ List.mem_map_of_mem (f := CacheEntry.core) hc)
    simp only [CacheEntry.core, Prod.mk.injEq] at eq
    rw [← eq.2.1, ← eq.2.2.2]
    exact h.data d hd
  · refine h.clean x fun d hd sid => ?_
    obtain ⟨c, hc, eq⟩ :=
      List.mem_map.mp (same.symm ▸ List.mem_map_of_mem (f := CacheEntry.core) hd)
    simp only [CacheEntry.core, Prod.mk.injEq] at eq
    rw [← eq.2.2.1]
    exact hx c hc (eq.2.1.trans sid)

theorem map_of_keeps (h : Holds list disk m) {f : CacheEntry α → CacheEntry α}
    (keeps : ∀ c, (f c).sid = c.sid ∧ (f c).data = c.data ∧ ((f c).db = false → c.db = false)) :
    Holds (list.map f) disk m := by
  refine ⟨?_, ?_, fun x hx => h.clean x fun c hc same => ?_⟩
  · have eq : CacheEntry.sid ∘ f = CacheEntry.sid := funext fun c => (keeps c).1
    rw [List.map_map, eq]
    exact h.sids
  · intro c hc
    obtain ⟨e, he, rfl⟩ := List.mem_map.mp hc
    rw [(keeps e).1, (keeps e).2.1]
    exact h.data e he
  · exact (keeps c).2.2 (hx (f c) (List.mem_map_of_mem hc) ((keeps c).1.trans same))

theorem evict (h : Holds (pre ++ c :: post) disk m) :
    Holds (pre ++ post) (writeBack disk c) m := by
  have sub : (pre ++ post).Sublist (pre ++ c :: post) :=
    List.Sublist.append_left (List.sublist_cons_self c post) pre
  have mem : c ∈ pre ++ c :: post := by simp
  refine ⟨h.sids.sublist (sub.map _), fun d hd => h.data d (sub.subset hd), fun x hx => ?_⟩
  unfold writeBack
  split
  next dirty =>
    by_cases same : x = c.sid
    · subst same
      rw [Function.update_self]
      exact h.data c mem
    · rw [Function.update_of_ne same]
      refine h.clean x fun d hd sid => ?_
      rcases List.mem_append.mp hd with old | rest
      · exact hx d (List.mem_append_left _ old) sid
      · rcases List.mem_cons.mp rest with rfl | old
        · exact absurd sid.symm same
        · exact hx d (List.mem_append_right _ old) sid
  next clean =>
    refine h.clean x fun d hd sid => ?_
    rcases List.mem_append.mp hd with old | rest
    · exact hx d (List.mem_append_left _ old) sid
    · rcases List.mem_cons.mp rest with rfl | old
      · exact Bool.eq_false_iff.mpr clean
      · exact hx d (List.mem_append_right _ old) sid

theorem insert (h : Holds list disk m) {addr sid : Nat} {ab type : Bool}
    (absent : ∀ c ∈ list, c.sid ≠ sid) :
    Holds (list ++ [⟨addr, sid, ab, type, disk sid⟩]) disk m := by
  refine ⟨?_, fun d hd => ?_, fun x hx => ?_⟩
  · rw [List.map_append, List.map_singleton, List.nodup_append]
    refine ⟨h.sids, by simp, ?_⟩
    rintro a ha b hb rfl
    obtain ⟨c, hc, rfl⟩ := List.mem_map.mp ha
    exact absent c hc (List.mem_singleton.mp hb)
  · rcases List.mem_append.mp hd with old | new
    · exact h.data d old
    · obtain rfl := List.mem_singleton.mp new
      exact h.clean sid fun c hc same => absurd same (absent c hc)
  · exact h.clean x fun c hc same => hx c (List.mem_append_left _ hc) same

/-- Copying into a dirty entry changes what the users see of its sector. -/
theorem copy (h : Holds list disk m) (addrs : (list.map CacheEntry.addr).Nodup) (hc : c ∈ list)
    (dirty : c.db = true) (f : α → α) :
    Holds (modifyAt c.addr (fun c => { c with data := f c.data }) list) disk
      (Function.update m c.sid (f (m c.sid))) := by
  have same_addr : ∀ d ∈ list, d.addr = c.addr → d = c := fun d hd same =>
    List.inj_on_of_nodup_map addrs hd hc same
  refine ⟨?_, fun d hd => ?_, fun x hx => ?_⟩
  · have eq : ∀ d : CacheEntry α,
        (if d.addr = c.addr then { d with data := f d.data } else d).sid = d.sid := by
      intro d
      split <;> rfl
    simpa only [modifyAt, List.map_map, Function.comp_def, eq] using h.sids
  · obtain ⟨e, he, rfl⟩ := List.mem_map.mp hd
    split
    next same =>
      obtain rfl := same_addr e he same
      simp only [Function.update_self, h.data e hc]
    next other =>
      have ne : e.sid ≠ c.sid := by
        intro sid
        exact other (congrArg CacheEntry.addr (h.same_of_sid he hc sid))
      rw [Function.update_of_ne ne]
      exact h.data e he
  · have ne : x ≠ c.sid := by
      rintro rfl
      have clean := hx { c with data := f c.data }
        (List.mem_map.mpr ⟨c, hc, by simp⟩) rfl
      simp [dirty] at clean
    rw [Function.update_of_ne ne]
    refine h.clean x fun d hd sid => ?_
    have other : d.addr ≠ c.addr := by
      intro same
      obtain rfl := same_addr d hd same
      exact ne sid.symm
    exact hx d (List.mem_map.mpr ⟨d, hd, by simp [other]⟩) sid

/-- `write_to_disk` and `free_cache` put the contents of every entry they write on disk. -/
theorem foldl_disk (h : ∀ c ∈ list, c.data = m c.sid) {write : (Nat → α) → CacheEntry α → Nat → α}
    (cases : ∀ disk c, write disk c = disk ∨ write disk c = Function.update disk c.sid c.data)
    {x : Nat} (hx : disk x = m x ∨
      ∃ c ∈ list, c.sid = x ∧ ∀ disk, write disk c = Function.update disk c.sid c.data) :
    list.foldl write disk x = m x := by
  induction list generalizing disk with
  | nil =>
    rcases hx with done | ⟨c, hc, _⟩
    · exact done
    · exact absurd hc (by simp)
  | cons d rest ih =>
    apply ih (fun c hc => h c (List.mem_cons_of_mem d hc))
    have put : Function.update disk d.sid d.data x = m x ∨ x ≠ d.sid := by
      by_cases same : x = d.sid
      · subst same
        exact .inl (by rw [Function.update_self]; exact h d (by simp))
      · exact .inr same
    rcases hx with done | ⟨c, hc, sid, writes⟩
    · left
      rcases cases disk d with skip | wrote
      · rw [skip]
        exact done
      · rw [wrote]
        rcases put with put | ne
        · exact put
        · rw [Function.update_of_ne ne]
          exact done
    · rcases List.mem_cons.mp hc with rfl | later
      · left
        rw [writes]
        exact put.resolve_right fun ne => ne sid.symm
      · exact .inr ⟨c, later, sid, writes⟩

theorem writeToDisk (h : Holds list disk m) :
    Holds (list.map fun c => if c.db then { c with db := false } else c)
      (list.foldl writeBack disk) m := by
  have cases : ∀ (disk : Nat → α) c,
      writeBack disk c = disk ∨ writeBack disk c = Function.update disk c.sid c.data := by
    intro disk c
    unfold writeBack
    split
    · exact .inr rfl
    · exact .inl rfl
  refine ⟨?_, fun d hd => ?_, fun x _ => foldl_disk h.data cases ?_⟩
  · have eq : ∀ c : CacheEntry α, (if c.db then { c with db := false } else c).sid = c.sid := by
      intro c
      split <;> rfl
    simpa only [List.map_map, Function.comp_def, eq] using h.sids
  · obtain ⟨e, he, rfl⟩ := List.mem_map.mp hd
    have := h.data e he
    split <;> exact this
  · by_cases dirty : ∃ c ∈ list, c.sid = x ∧ c.db = true
    · obtain ⟨c, hc, sid, db⟩ := dirty
      exact .inr ⟨c, hc, sid, fun disk => by rw [writeBack, if_pos db]⟩
    · refine .inl (h.clean x fun c hc sid => ?_)
      exact Bool.eq_false_iff.mpr fun db => dirty ⟨c, hc, sid, db⟩

theorem freeCache (h : Holds list disk m) :
    list.foldl (fun disk c => Function.update disk c.sid c.data) disk = m := by
  funext x
  apply foldl_disk h.data (fun _ _ => .inr rfl)
  by_cases cached : ∃ c ∈ list, c.sid = x
  · obtain ⟨c, hc, sid⟩ := cached
    exact .inr ⟨c, hc, sid, fun _ => rfl⟩
  · exact .inl (h.clean x fun c hc sid => absurd ⟨c, hc, sid⟩ cached)

end Holds

section Evict

variable {α : Type}

/-- The `for` loop of `cache_evict` ends at the first entry without `AB`, or clears all. -/
theorem evictScan_cases (list : List (CacheEntry α)) :
    (evictScan list = (list.map fun c => { c with ab := false }, none) ∧ ∀ c ∈ list, c.ab = true) ∨
    ∃ pre c post, list = pre ++ c :: post ∧ (∀ d ∈ pre, d.ab = true) ∧ c.ab = false ∧
      evictScan list = (pre.map (fun c => { c with ab := false }) ++ post, some c) := by
  induction list with
  | nil => exact .inl ⟨rfl, by simp⟩
  | cons c rest ih =>
    by_cases ab : c.ab = true
    · rcases ih with ⟨eq, all⟩ | ⟨pre, d, post, rfl, before, hd, eq⟩
      · left
        refine ⟨by simp [evictScan, ab, eq], ?_⟩
        simpa [ab] using all
      · right
        refine ⟨c :: pre, d, post, rfl, ?_, hd, by simp [evictScan, ab, eq]⟩
        simpa [ab] using before
    · right
      exact ⟨[], c, rest, rfl, by simp, by simpa using ab, by simp [evictScan, ab]⟩

/-- What one eviction does: some access bits are cleared and one entry leaves, written back when it
is dirty. -/
def Evicts (s s' : Cache α) : Prop :=
  ∃ pre c post, s.cacheList = pre ++ c :: post ∧
    s'.cacheList.map CacheEntry.core = (pre ++ post).map CacheEntry.core ∧
    s'.usedCache = s.usedCache - 1 ∧ s'.disk = writeBack s.disk c ∧ s'.nextAddr = s.nextAddr

theorem cacheEvict_found {s : Cache α} {list : List (CacheEntry α)} {c : CacheEntry α} (fuel : Nat)
    (eq : evictScan s.cacheList = (list, some c)) :
    cacheEvict (fuel + 1) s =
      some ⟨list, s.usedCache - 1, writeBack s.disk c, s.nextAddr⟩ := by
  rw [cacheEvict, eq]

theorem cacheEvict_again {s : Cache α} {list : List (CacheEntry α)} (fuel : Nat)
    (eq : evictScan s.cacheList = (list, none)) :
    cacheEvict (fuel + 1) s = cacheEvict fuel { s with cacheList := list } := by
  rw [cacheEvict, eq]

/-- Two passes are enough: the first one clears every access bit. -/
theorem cacheEvict_evicts {s : Cache α} (fuel : Nat) (nonempty : s.cacheList ≠ []) :
    ∃ s', cacheEvict (fuel + 2) s = some s' ∧ Evicts s s' := by
  have core : CacheEntry.core ∘ (fun c : CacheEntry α => { c with ab := false }) =
      CacheEntry.core := rfl
  rcases evictScan_cases s.cacheList with ⟨eq, _⟩ | ⟨pre, c, post, split, _, _, eq⟩
  · obtain ⟨c, rest, list⟩ := List.exists_cons_of_ne_nil nonempty
    have second : evictScan (s.cacheList.map fun c => { c with ab := false }) =
        (rest.map fun c => { c with ab := false }, some { c with ab := false }) := by
      simp [list, evictScan]
    refine ⟨_, (cacheEvict_again _ eq).trans (cacheEvict_found fuel second), ?_⟩
    exact ⟨[], c, rest, list, by rw [List.map_map, core, List.nil_append], rfl, rfl, rfl⟩
  · refine ⟨_, cacheEvict_found _ eq, pre, c, post, split, ?_, rfl, rfl, rfl⟩
    rw [List.map_append, List.map_map, core, List.map_append]

theorem Evicts.holds {s s' : Cache α} {m : Nat → α} (evicts : Evicts s s')
    (h : Holds s.cacheList s.disk m) : Holds s'.cacheList s'.disk m := by
  obtain ⟨pre, c, post, split, core, _, disk, _⟩ := evicts
  rw [split] at h
  rw [disk]
  exact h.evict.of_core core

theorem Evicts.counted {s s' : Cache α} (evicts : Evicts s s') (h : s.Counted) :
    s'.Counted ∧ s'.usedCache < cacheSize := by
  obtain ⟨pre, c, post, split, core, used, _, next⟩ := evicts
  have addr : ∀ l : List (CacheEntry α),
      l.map CacheEntry.addr = (l.map CacheEntry.core).map Prod.fst := by
    simp [CacheEntry.core]
  have sub : (pre ++ post).Sublist s.cacheList := by
    rw [split]
    exact List.Sublist.append_left (List.sublist_cons_self c post) pre
  have length : s'.cacheList.length = (pre ++ post).length := by
    simpa using congrArg List.length core
  have total : s.cacheList.length = (pre ++ post).length + 1 := by
    rw [split]
    simp
    omega
  have := h.used
  have := h.bound
  refine ⟨⟨?_, fun d hd => ?_, by omega, by omega⟩, by omega⟩
  · rw [addr, core, ← addr]
    exact h.addrs.sublist (sub.map _)
  · obtain ⟨e, he, eq⟩ := List.mem_map.mp (core ▸ List.mem_map_of_mem (f := CacheEntry.core) hd)
    have := h.fresh e (sub.subset he)
    simp only [CacheEntry.core, Prod.mk.injEq] at eq
    omega

end Evict

section Operations

variable {α : Type}

/-- What a caller of the cache relies on between its operations. -/
def Cache.Models (s : Cache α) (m : Nat → α) : Prop := Holds s.cacheList s.disk m ∧ s.Counted

theorem makeRoom_models {s : Cache α} {m : Nat → α} (fuel : Nat) (h : s.Models m) :
    ∃ s', makeRoom (fuel + 3) s = some s' ∧ s'.Models m ∧ s'.usedCache < cacheSize ∧
      ∀ c ∈ s'.cacheList, ∃ d ∈ s.cacheList, d.sid = c.sid := by
  by_cases full : s.usedCache ≥ cacheSize
  · have nonempty : s.cacheList ≠ [] := by
      intro empty
      have := h.2.used
      rw [empty] at this
      simp only [cacheSize, List.length_nil] at full this
      omega
    obtain ⟨s', eq, evicts⟩ := cacheEvict_evicts fuel nonempty
    obtain ⟨counted, room⟩ := evicts.counted h.2
    refine ⟨s', ?_, ⟨evicts.holds h.1, counted⟩, room, fun c hc => ?_⟩
    · rw [makeRoom, if_pos full, eq, Option.bind_some, makeRoom, if_neg (by omega)]
    · obtain ⟨pre, d, post, split, core, _⟩ := evicts
      obtain ⟨e, he, same⟩ :=
        List.mem_map.mp (core ▸ List.mem_map_of_mem (f := CacheEntry.core) hc)
      simp only [CacheEntry.core, Prod.mk.injEq] at same
      refine ⟨e, ?_, same.2.1⟩
      rw [split]
      rcases List.mem_append.mp he with left | right
      · exact List.mem_append_left _ left
      · exact List.mem_append_right _ (List.mem_cons_of_mem d right)
  · exact ⟨s, by rw [makeRoom, if_neg full], h, by omega, fun c hc => ⟨c, hc, rfl⟩⟩

theorem createCache_models {s : Cache α} {m : Nat → α} (fuel sid : Nat) (type : Bool)
    (h : s.Models m) (absent : ∀ c ∈ s.cacheList, c.sid ≠ sid) :
    ∃ addr s', createCache (fuel + 3) sid type s = some (addr, s') ∧ s'.Models m ∧
      ∃ c ∈ s'.cacheList, c.addr = addr ∧ c.sid = sid ∧ c.db = type := by
  obtain ⟨t, eq, ⟨holds, counted⟩, room, from_s⟩ := makeRoom_models fuel h
  refine ⟨_, _, by rw [createCache, eq, Option.map_some], ⟨holds.insert ?_, ?_⟩, ?_⟩
  · intro c hc
    obtain ⟨d, hd, same⟩ := from_s c hc
    rw [← same]
    exact absent d hd
  · have := counted.used
    refine ⟨?_, fun c hc => ?_, by simp; omega, by simp only; omega⟩
    · rw [List.map_append, List.map_singleton, List.nodup_append]
      refine ⟨counted.addrs, by simp, ?_⟩
      rintro a ha b hb rfl
      obtain ⟨c, hc, rfl⟩ := List.mem_map.mp ha
      exact absurd (List.mem_singleton.mp hb) (Nat.ne_of_lt (counted.fresh c hc))
    · rcases List.mem_append.mp hc with old | new
      · exact Nat.lt_succ_of_lt (counted.fresh c old)
      · rw [List.mem_singleton.mp new]
        exact Nat.lt_succ_self _
  · exact ⟨_, List.mem_append_right _ (List.mem_singleton.mpr rfl), rfl, rfl, rfl⟩

/-- Changing members other than the address keeps the entries counted. -/
theorem Cache.Counted.map {s : Cache α} (h : s.Counted) {f : CacheEntry α → CacheEntry α}
    (keeps : ∀ c, (f c).addr = c.addr) (disk : Nat → α) :
    Cache.Counted ⟨s.cacheList.map f, s.usedCache, disk, s.nextAddr⟩ := by
  have eq : CacheEntry.addr ∘ f = CacheEntry.addr := funext keeps
  refine ⟨by rw [List.map_map, eq]; exact h.addrs, fun c hc => ?_, ?_, h.bound⟩
  · obtain ⟨d, hd, rfl⟩ := List.mem_map.mp hc
    rw [keeps]
    exact h.fresh d hd
  · rw [List.length_map]
    exact h.used

theorem Cache.Counted.find {s : Cache α} (h : s.Counted) {c : CacheEntry α}
    (hc : c ∈ s.cacheList) : s.cacheList.find? (fun d => d.addr = c.addr) = some c := by
  cases found : s.cacheList.find? fun d => d.addr = c.addr with
  | none => simpa using List.find?_eq_none.mp found c hc
  | some d =>
    have same : d.addr = c.addr := by simpa using List.find?_some found
    rw [List.inj_on_of_nodup_map h.addrs (List.mem_of_find?_eq_some found) hc same]

/-- `cache_block` returns, keeps what the users see, and leaves an entry for the sector that is
dirty if it is asked for to be written. -/
theorem cacheBlock_models {s : Cache α} {m : Nat → α} (fuel sid : Nat) (type : Bool)
    (h : s.Models m) :
    ∃ addr s', cacheBlock (fuel + 3) sid type s = some (addr, s') ∧ s'.Models m ∧
      ∃ c ∈ s'.cacheList, c.addr = addr ∧ c.sid = sid ∧ (type = true → c.db = true) := by
  unfold cacheBlock
  cases found : findCache sid s with
  | none =>
    have absent : ∀ c ∈ s.cacheList, c.sid ≠ sid := by
      simpa [findCache] using found
    obtain ⟨addr, s', eq, models, c, hc, ha, hs, hd⟩ := createCache_models fuel sid type h absent
    exact ⟨addr, s', eq, models, c, hc, ha, hs, fun ht => hd.trans ht⟩
  | some c =>
    have hc : c ∈ s.cacheList := List.mem_of_find?_eq_some found
    have sid_eq : c.sid = sid := by simpa using List.find?_some found
    refine ⟨c.addr, _, rfl, ⟨h.1.map_of_keeps fun d => ?_, h.2.map (fun d => ?_) _⟩, ?_⟩
    · split
      · exact ⟨rfl, rfl, fun hd => (Bool.or_eq_false_iff.mp hd).1⟩
      · exact ⟨rfl, rfl, id⟩
    · split <;> rfl
    · refine ⟨{ c with ab := true, db := c.db || type }, ?_, rfl, sid_eq, fun ht => by simp [ht]⟩
      exact List.mem_map.mpr ⟨c, hc, by simp⟩

/-- One use of the cache: a sector is read whole, changed by copying into its data, or the dirty
entries are written back. -/
inductive CacheOp (α : Type)
  | read (sid : Nat)
  | write (sid : Nat) (copy : α → α)
  | writeToDisk

def dataAt (addr : Nat) (s : Cache α) : Option α :=
  (s.cacheList.find? fun c => c.addr = addr).map CacheEntry.data

/-- Runs one operation; a read returns the data of the entry. -/
def cacheOp (fuel : Nat) (s : Cache α) : CacheOp α → Option (Cache α × Option α)
  | .read sid => (cacheBlock fuel sid readBlock s).map fun r => (r.2, dataAt r.1 r.2)
  | .write sid copy =>
    (cacheBlock fuel sid writeBlock s).map fun r =>
      ({ r.2 with
        cacheList := modifyAt r.1 (fun c => { c with data := copy c.data }) r.2.cacheList }, none)
  | .writeToDisk => some (writeToDisk s, none)

def runCache (fuel : Nat) : Cache α → List (CacheOp α) → Option (Cache α × List (Option α))
  | s, [] => some (s, [])
  | s, op :: ops =>
    (cacheOp fuel s op).bind fun r =>
      (runCache fuel r.1 ops).map fun rest => (rest.1, r.2 :: rest.2)

/-- The operations on a device without a cache. -/
def deviceOp (m : Nat → α) : CacheOp α → (Nat → α) × Option α
  | .read sid => (m, some (m sid))
  | .write sid copy => (Function.update m sid (copy (m sid)), none)
  | .writeToDisk => (m, none)

def runDevice : (Nat → α) → List (CacheOp α) → (Nat → α) × List (Option α)
  | m, [] => (m, [])
  | m, op :: ops =>
    let rest := runDevice (deviceOp m op).1 ops
    (rest.1, (deviceOp m op).2 :: rest.2)

theorem cacheOp_models {s : Cache α} {m : Nat → α} (fuel : Nat) (op : CacheOp α)
    (h : s.Models m) :
    ∃ s', cacheOp (fuel + 3) s op = some (s', (deviceOp m op).2) ∧ s'.Models (deviceOp m op).1 := by
  cases op with
  | read sid =>
    obtain ⟨addr, s', eq, models, c, hc, rfl, rfl, _⟩ := cacheBlock_models fuel sid readBlock h
    refine ⟨s', ?_, models⟩
    simp only [cacheOp, eq, Option.map_some, dataAt, models.2.find hc, deviceOp,
      models.1.data c hc]
  | write sid copy =>
    obtain ⟨addr, s', eq, models, c, hc, rfl, rfl, dirty⟩ :=
      cacheBlock_models fuel sid writeBlock h
    refine ⟨_, by simp only [cacheOp, eq, Option.map_some, deviceOp]; rfl, ?_, ?_⟩
    · exact models.1.copy models.2.addrs hc (dirty rfl) copy
    · exact models.2.map (fun d => by split <;> rfl) _
  | writeToDisk =>
    refine ⟨writeToDisk s, rfl, h.1.writeToDisk, ?_⟩
    exact h.2.map (fun d => by split <;> rfl) _

theorem runCache_models {s : Cache α} {m : Nat → α} (fuel : Nat) (ops : List (CacheOp α))
    (h : s.Models m) :
    ∃ s', runCache (fuel + 3) s ops = some (s', (runDevice m ops).2) ∧
      s'.Models (runDevice m ops).1 := by
  induction ops generalizing s m with
  | nil => exact ⟨s, rfl, h⟩
  | cons op ops ih =>
    obtain ⟨mid, first, models⟩ := cacheOp_models fuel op h
    obtain ⟨s', rest, final⟩ := ih models
    exact ⟨s', by simp only [runCache, first, Option.bind_some, rest, Option.map_some, runDevice],
      final⟩

theorem cacheSystemInit_models (disk : Nat → α) : (cacheSystemInit disk).Models disk :=
  ⟨⟨by simp [cacheSystemInit], by simp [cacheSystemInit], fun _ _ => rfl⟩,
    ⟨by simp [cacheSystemInit], by simp [cacheSystemInit], rfl,
      by simp [cacheSystemInit, cacheSize]⟩⟩

/-- From any disk, any sequence of operations returns, reads what the same operations read on the
device without a cache, keeps at most one entry for a sector and at most `CACHE_SIZE` entries,
and `free_cache` then leaves on disk what was last written. -/
theorem cache_transparent (fuel : Nat) (disk : Nat → α) (ops : List (CacheOp α)) :
    ∃ s, runCache (fuel + 3) (cacheSystemInit disk) ops = some (s, (runDevice disk ops).2) ∧
      (s.cacheList.map CacheEntry.sid).Nodup ∧ s.cacheList.length ≤ 64 ∧
      (freeCache s).disk = (runDevice disk ops).1 := by
  obtain ⟨s, run, holds, counted⟩ := runCache_models fuel ops (cacheSystemInit_models disk)
  refine ⟨s, run, holds.sids, ?_, holds.freeCache⟩
  have used := counted.used
  have bound := counted.bound
  simp only [cacheSize] at bound
  omega

end Operations

end Pintos.Filesys
