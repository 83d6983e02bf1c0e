import Pintos.Filesys.CacheAccounting
import Pintos.Filesys.Files

/-! An index entry that `file_growth` has between `write_cache` and `end_write` while
`free_map_allocate` writes the free-map file through the same cache.  `cache_evict` passes over no
entry because its own thread has it, so the entry can be the victim. -/

namespace Pintos.Filesys

open Transition Words

section Use

variable {α : Type}

/-- The sector that an operation asks `cache_block` for. -/
def CacheOp.sector : CacheOp α → Option Nat
  | .read sid | .write sid _ => some sid
  | .writeToDisk => none

/-- An operation of the thread that has the `io` lock of the entry at `held`; `none` also where
`lock_acquire` fails its `ASSERT` because the thread has that lock. -/
def heldOp (fuel held : Nat) (s : Cache α) (op : CacheOp α) : Option (Cache α) :=
  match op.sector with
  | none => none
  | some sid =>
    if (findCache sid s).any fun c => c.addr = held then none
    else (cacheOp fuel s op).map Prod.fst

/-- `memcpy` into the data of the entry at `addr`, which changes nothing that the cache or the
device has once that entry is freed. -/
def copyInto (addr : Nat) (copy : α → α) (s : Cache α) : Cache α :=
  { s with cacheList := modifyAt addr (fun c => { c with data := copy c.data }) s.cacheList }

/-- The entry that the next `cache_evict` takes out. -/
def nextVictim (list : List (CacheEntry α)) : Option (CacheEntry α) :=
  (list.find? fun c => !c.ab).or list.head?

/-- The operation does not miss in a full cache whose next victim is the entry at `held`. -/
def Spares (held : Nat) (s : Cache α) (op : CacheOp α) : Prop :=
  ∀ sid, op.sector = some sid → findCache sid s = none → s.usedCache = cacheSize →
    ∀ c, nextVictim s.cacheList = some c → c.addr ≠ held

end Use

section FreeMapFile

/-- The byte at `i` of a bitmap of `size` bits. -/
def bitmapByte (size : Nat) (used : Nat → Bool) (i : Nat) : UInt8 :=
  UInt8.ofNat ((List.range 8).foldr
    (fun k byte => 2 * byte + if 8 * i + k < size ∧ used (8 * i + k) then 1 else 0) 0)

/-- `byte_to_sector` for a position in block `b`, and the copy into the sector that it returns. -/
def blockOps (fs : Fs) (ino : InodeDisk) (copy : Bytes → Bytes) (b : Nat) :
    List (CacheOp Bytes) :=
  let sector := sectorAt fs ino (.data b)
  if b < 1 then [.write sector copy]
  else if b < 129 then [.read ino.ind, .write sector copy]
  else [.read ino.din, .read (sectorAt fs ino (.second ((b - 129) / 128))), .write sector copy]

/-- `bitmap_write` of `used` to the free-map file with the inode `ino`, which has had the length of
the bitmap since `free_map_create`. -/
def bitmapWriteOps (fs : Fs) (ino : InodeDisk) (used : Nat → Bool) : List (CacheOp Bytes) :=
  let size := bitmapFileSize fs.free.size
  (List.range (bytesToSectors size)).flatMap fun b =>
    blockOps fs ino (fun old i =>
      if i < min 512 (size - 512 * b) then bitmapByte fs.free.size used (512 * b + i) else old i) b

/-- What `free_map_allocate` of one sector asks of the cache. -/
def freeMapAllocateOps (fs : Fs) (ino : InodeDisk) : List (CacheOp Bytes) :=
  match FreeMap.bitmapScan fs.free.used 1 0 (fs.free.size + 1 - 1), fs.free.file with
  | some sector, some _ => bitmapWriteOps fs ino (fs.free.setMultiple sector 1 true).used
  | _, _ => []

end FreeMapFile

section Sound

variable {α : Type} {s s' : Cache α} {m : Nat → α}

/-- What every cache keeps, with the contents `m` that its users see.  After a `cache_remove` the
counter is above the number of entries, so that is left open. -/
structure Cache.Sound (s : Cache α) (m : Nat → α) : Prop where
  holds : Holds s.cacheList s.disk m
  addrs : (s.cacheList.map CacheEntry.addr).Nodup
  fresh : ∀ c ∈ s.cacheList, c.addr < s.nextAddr
  bound : s.usedCache ≤ cacheSize

theorem Cache.Sound.same_of_addr (h : s.Sound m) {c d : CacheEntry α} (hc : c ∈ s.cacheList)
    (hd : d ∈ s.cacheList) (same : c.addr = d.addr) : c = d :=
  List.inj_on_of_nodup_map h.addrs hc hd same

theorem SecondChance.victim {list rest : List (CacheEntry α)} {c : CacheEntry α}
    (rule : SecondChance list c rest) : nextVictim list = some c := by
  cases rule with
  | @first pre post _ before clear =>
    have none : pre.find? (fun d => !d.ab) = none := by
      rw [List.find?_eq_none]
      intro d hd
      simp [before d hd]
    simp [nextVictim, List.find?_append, none, clear]
  | @head rest _ all =>
    have none : (c :: rest).find? (fun d => !d.ab) = none := by
      rw [List.find?_eq_none]
      intro d hd
      simp [all d hd]
    rw [nextVictim, none, Option.none_or, List.head?_cons]

/-- The other entries stay but for their access bits. -/
theorem SecondChance.split {list rest : List (CacheEntry α)} {c : CacheEntry α}
    (rule : SecondChance list c rest) :
    ∃ pre post, list = pre ++ c :: post ∧
      rest.map CacheEntry.core = (pre ++ post).map CacheEntry.core := by
  have core : CacheEntry.core ∘ CacheEntry.clearAb (α := α) = CacheEntry.core := rfl
  cases rule with
  | @first pre post _ before clear =>
    exact ⟨pre, post, rfl, by rw [List.map_append, List.map_map, core, List.map_append]⟩
  | @head rest _ all => exact ⟨[], rest, rfl, by rw [List.map_map, core, List.nil_append]⟩

theorem EvictsOne.disk {c : CacheEntry α} (evicts : EvictsOne s c s') :
    s'.disk = writeBack s.disk c := by
  funext x
  by_cases same : x = c.sid
  · subst same
    cases dirty : c.db with
    | false => simp [writeBack, dirty, evicts.clean dirty]
    | true => simp [writeBack, dirty, evicts.written dirty]
  · rw [evicts.others x same, writeBack]
    split
    · exact (Function.update_of_ne same ..).symm
    · rfl

theorem EvictsOne.evicts {c : CacheEntry α} (one : EvictsOne s c s') : Evicts s s' := by
  obtain ⟨pre, post, split, core⟩ := one.rule.split
  exact ⟨pre, c, post, split, core, one.used, one.disk, one.nextAddr⟩

theorem EvictsOne.stays {c d : CacheEntry α} (evicts : EvictsOne s c s') (hd : d ∈ s.cacheList)
    (other : d.addr ≠ c.addr) : ∃ d' ∈ s'.cacheList, d'.core = d.core := by
  obtain ⟨pre, post, split, core⟩ := evicts.rule.split
  have mem : d ∈ pre ++ post := by
    rw [split] at hd
    rcases List.mem_append.mp hd with left | right
    · exact List.mem_append_left _ left
    · rcases List.mem_cons.mp right with rfl | right
      · exact absurd rfl other
      · exact List.mem_append_right _ right
  exact List.mem_map.mp (core ▸ List.mem_map_of_mem (f := CacheEntry.core) mem)

theorem EvictsOne.comes_from {c d : CacheEntry α} (evicts : EvictsOne s c s')
    (hd : d ∈ s'.cacheList) : ∃ e ∈ s.cacheList, e.core = d.core := by
  obtain ⟨pre, post, split, core⟩ := evicts.rule.split
  obtain ⟨e, he, same⟩ := List.mem_map.mp (core ▸ List.mem_map_of_mem (f := CacheEntry.core) hd)
  refine ⟨e, ?_, same⟩
  rw [split]
  rcases List.mem_append.mp he with left | right
  · exact List.mem_append_left _ left
  · exact List.mem_append_right _ (List.mem_cons_of_mem c right)

theorem addr_of_core {c d : CacheEntry α} (same : c.core = d.core) : c.addr = d.addr :=
  congrArg Prod.fst same

theorem sid_of_core {c d : CacheEntry α} (same : c.core = d.core) : c.sid = d.sid :=
  congrArg (fun core => core.2.1) same

theorem Cache.Sound.evict {c : CacheEntry α} (h : s.Sound m) (evicts : EvictsOne s c s') :
    s'.Sound m := by
  have addr : ∀ l : List (CacheEntry α),
      l.map CacheEntry.addr = (l.map CacheEntry.core).map Prod.fst := by
    simp [CacheEntry.core]
  obtain ⟨pre, post, split, core⟩ := evicts.rule.split
  have sub : (pre ++ post).Sublist s.cacheList := by
    rw [split]
    exact List.Sublist.append_left (List.sublist_cons_self c post) pre
  refine ⟨evicts.evicts.holds h.holds, ?_, fun d hd => ?_, ?_⟩
  · rw [addr, core, ← addr]
    exact h.addrs.sublist (sub.map _)
  · obtain ⟨e, he, same⟩ := evicts.comes_from hd
    rw [← addr_of_core same, evicts.nextAddr]
    exact h.fresh e he
  · have := h.bound
    rw [evicts.used]
    omega

/-- The victim has left. -/
theorem Cache.Sound.absent {c d : CacheEntry α} (h : s.Sound m) (evicts : EvictsOne s c s')
    (hd : d ∈ s'.cacheList) : d.addr ≠ c.addr := by
  obtain ⟨pre, post, split, core⟩ := evicts.rule.split
  obtain ⟨e, he, same⟩ := List.mem_map.mp (core ▸ List.mem_map_of_mem (f := CacheEntry.core) hd)
  have nodup := h.addrs
  rw [split, List.map_append, List.map_cons, List.nodup_middle, List.nodup_cons,
    ← List.map_append] at nodup
  intro at_
  apply nodup.1
  rw [← at_, ← addr_of_core same]
  exact List.mem_map_of_mem he

/-- Making room evicts at most the next victim. -/
theorem Cache.Sound.makeRoom {fuel : Nat} {t : Cache α} (h : s.Sound m)
    (run : makeRoom fuel s = some t) :
    t.Sound m ∧ t.usedCache < cacheSize ∧ t.nextAddr = s.nextAddr ∧
      (∀ d ∈ t.cacheList, ∃ e ∈ s.cacheList, e.core = d.core) ∧
      (t = s ∧ s.usedCache < cacheSize ∨
        s.usedCache = cacheSize ∧ ∃ c, EvictsOne s c t) := by
  obtain ⟨free, rfl⟩ | ⟨full, -, c, evicts⟩ := makeRoom_cases h.bound run
  · exact ⟨h, free, rfl, fun d hd => ⟨d, hd, rfl⟩, .inl ⟨rfl, free⟩⟩
  · refine ⟨h.evict evicts, ?_, evicts.nextAddr, fun d hd => evicts.comes_from hd,
      .inr ⟨full, c, evicts⟩⟩
    rw [evicts.used]
    omega

/-- Changing members other than the address and the sector keeps the addresses distinct. -/
theorem Cache.Sound.map (h : s.Sound m) {f : CacheEntry α → CacheEntry α} {m' : Nat → α}
    (keeps : ∀ c, (f c).addr = c.addr) (holds : Holds (s.cacheList.map f) s.disk m') :
    Cache.Sound { s with cacheList := s.cacheList.map f } m' := by
  have eq : CacheEntry.addr ∘ f = CacheEntry.addr := funext keeps
  refine ⟨holds, by rw [List.map_map, eq]; exact h.addrs, fun c hc => ?_, h.bound⟩
  obtain ⟨d, hd, rfl⟩ := List.mem_map.mp hc
  rw [keeps]
  exact h.fresh d hd

theorem Cache.Sound.cacheBlock {fuel sid addr : Nat} {type : Bool} (h : s.Sound m)
    (run : Filesys.cacheBlock fuel sid type s = some (addr, s')) :
    s'.Sound m ∧ ∃ c ∈ s'.cacheList, c.addr = addr ∧ c.sid = sid ∧ (type = true → c.db = true) := by
  obtain ⟨c, found, rfl, rfl⟩ | ⟨missing, t, room, rfl, rfl⟩ := cacheBlock_cases run
  · have hc : c ∈ s.cacheList := List.mem_of_find?_eq_some found
    have sid_eq : c.sid = sid := by simpa using List.find?_some found
    refine ⟨h.map (fun d => by split <;> rfl) (h.holds.map_of_keeps fun d => ?_), ?_⟩
    · split
      · exact ⟨rfl, rfl, fun hd => (Bool.or_eq_false_iff.mp hd).1⟩
      · exact ⟨rfl, rfl, id⟩
    · refine ⟨{ c with ab := true, db := c.db || type }, ?_, rfl, sid_eq, fun ht => by simp [ht]⟩
      exact List.mem_map.mpr ⟨c, hc, if_pos rfl⟩
  · obtain ⟨sound, free, next, comes, -⟩ := h.makeRoom room
    have absent : ∀ c ∈ t.cacheList, c.sid ≠ sid := by
      intro c hc same
      obtain ⟨d, hd, core⟩ := comes c hc
      have none := List.find?_eq_none.mp missing d hd
      simp only [decide_eq_true_eq] at none
      exact none ((sid_of_core core).trans same)
    refine ⟨⟨sound.holds.insert absent, ?_, fun c hc => ?_, ?_⟩, _,
      List.mem_append_right _ (List.mem_singleton.mpr rfl), rfl, rfl, id⟩
    · show (List.map CacheEntry.addr (t.cacheList ++ [_])).Nodup
      rw [List.map_append, List.map_singleton, List.nodup_append]
      refine ⟨sound.addrs, by simp, ?_⟩
      rintro a ha b hb rfl
      obtain ⟨c, hc, rfl⟩ := List.mem_map.mp ha
      exact absurd (List.mem_singleton.mp hb) (Nat.ne_of_lt (sound.fresh c hc))
    · rcases List.mem_append.mp hc with old | new
      · exact Nat.lt_succ_of_lt (sound.fresh c old)
      · rw [List.mem_singleton.mp new]
        exact Nat.lt_succ_self _
    · show t.usedCache + 1 ≤ cacheSize
      omega

end Sound

section Held

variable {α : Type} {s s' : Cache α} {m : Nat → α} {fuel held sid x : Nat} {op : CacheOp α}

/-- The entry at `held` is for the sector `sid` and is dirty since `cache_block` was asked for it to
be written. -/
structure Holding (held sid : Nat) (s : Cache α) (m : Nat → α) : Prop where
  sound : s.Sound m
  entry : ∃ c ∈ s.cacheList, c.addr = held ∧ c.sid = sid ∧ c.db = true

/-- The entry at `held` has been freed. -/
structure Gone (held : Nat) (s : Cache α) : Prop where
  bound : s.usedCache ≤ cacheSize
  old : held < s.nextAddr
  absent : ∀ c ∈ s.cacheList, c.addr ≠ held

/-- Another sector is looked up in the cache: the held entry stays, unless it is the victim. -/
theorem Holding.cacheBlock {addr : Nat} {type : Bool} (h : Holding held sid s m) (other : x ≠ sid)
    (run : cacheBlock fuel x type s = some (addr, s'))
    (spared : findCache x s = none → s.usedCache = cacheSize →
      ∀ c, nextVictim s.cacheList = some c → c.addr ≠ held) : Holding held sid s' m := by
  obtain ⟨c, hc, rfl, rfl, dirty⟩ := h.entry
  refine ⟨(h.sound.cacheBlock run).1, ?_⟩
  obtain ⟨d, found, rfl, rfl⟩ | ⟨missing, t, room, rfl, rfl⟩ := cacheBlock_cases run
  · have hd : d ∈ s.cacheList := List.mem_of_find?_eq_some found
    have sid_eq : d.sid = x := by simpa using List.find?_some found
    have ne : c.addr ≠ d.addr := by
      intro same
      obtain rfl := h.sound.same_of_addr hc hd same
      exact other sid_eq.symm
    exact ⟨c, List.mem_map.mpr ⟨c, hc, if_neg ne⟩, rfl, rfl, dirty⟩
  · have stays : ∃ c' ∈ t.cacheList, c'.core = c.core := by
      obtain ⟨-, -, -, -, ⟨rfl, -⟩ | ⟨full, v, evicts⟩⟩ := h.sound.makeRoom room
      · exact ⟨c, hc, rfl⟩
      · exact evicts.stays hc (spared missing full v evicts.rule.victim).symm
    obtain ⟨c', hc', core⟩ := stays
    refine ⟨c', List.mem_append_left _ hc', addr_of_core core, sid_of_core core, ?_⟩
    exact (congrArg (fun core => core.2.2.1) core).trans dirty

/-- What the users see after an operation that does not write sector `sid`. -/
theorem deviceOp_other (sector : op.sector = some x) (other : x ≠ sid) :
    (deviceOp m op).1 sid = m sid := by
  cases op with
  | read y => rfl
  | write y copy =>
    obtain rfl := Option.some.inj sector
    exact Function.update_of_ne other.symm ..
  | writeToDisk => cases sector

/-- An operation is a `cache_block` and, for a write, a copy into the entry. -/
theorem heldOp_cases (sector : op.sector = some x) (run : heldOp fuel held s op = some s') :
    ∃ type addr t, cacheBlock fuel x type s = some (addr, t) ∧
      (type = readBlock ∧ s' = t ∧ (deviceOp m op).1 = m ∨
        ∃ copy, type = writeBlock ∧ s' = copyInto addr copy t ∧
          (deviceOp m op).1 = Function.update m x (copy (m x))) := by
  rw [heldOp, sector] at run
  dsimp only at run
  split at run
  · cases run
  · cases op with
    | read y =>
      obtain rfl := Option.some.inj sector
      obtain ⟨r, read, rfl⟩ := Option.map_eq_some_iff.mp run
      obtain ⟨⟨addr, t⟩, block, rfl⟩ := Option.map_eq_some_iff.mp read
      exact ⟨readBlock, addr, t, block, .inl ⟨rfl, rfl, rfl⟩⟩
    | write y copy =>
      obtain rfl := Option.some.inj sector
      obtain ⟨r, write, rfl⟩ := Option.map_eq_some_iff.mp run
      obtain ⟨⟨addr, t⟩, block, rfl⟩ := Option.map_eq_some_iff.mp write
      exact ⟨writeBlock, addr, t, block, .inr ⟨copy, rfl, rfl, rfl⟩⟩
    | writeToDisk => cases sector

theorem Cache.Sound.copyInto {addr : Nat} {c : CacheEntry α} (h : s.Sound m)
    (hc : c ∈ s.cacheList) (at_ : c.addr = addr) (dirty : c.db = true) (copy : α → α) :
    (copyInto addr copy s).Sound (Function.update m c.sid (copy (m c.sid))) := by
  subst at_
  exact h.map (fun d => by split <;> rfl) (h.holds.copy h.addrs hc dirty copy)

theorem Holding.heldOp (h : Holding held sid s m) (sector : op.sector = some x) (other : x ≠ sid)
    (spared : Spares held s op) (run : heldOp fuel held s op = some s') :
    Holding held sid s' (deviceOp m op).1 := by
  obtain ⟨type, addr, t, block, result⟩ := heldOp_cases (m := m) sector run
  have kept := h.cacheBlock other block (spared x sector)
  obtain ⟨-, rfl, same⟩ | ⟨copy, rfl, rfl, update⟩ := result
  · rw [same]
    exact kept
  · obtain ⟨sound, c, hc, at_, rfl, dirty⟩ := h.sound.cacheBlock block
    rw [update]
    refine ⟨sound.copyInto hc at_ (dirty rfl) copy, ?_⟩
    obtain ⟨e, he, held_eq, sid_eq, wrote⟩ := kept.entry
    have ne : e.addr ≠ addr := by
      intro same
      obtain rfl := sound.same_of_addr he hc (same.trans at_.symm)
      exact other sid_eq
    exact ⟨e, List.mem_map.mpr ⟨e, he, if_neg ne⟩, held_eq, sid_eq, wrote⟩

/-- An operation on another sector returns: its lock is free, and there is an entry to evict. -/
theorem Holding.returns (h : Holding held sid s m) (sector : op.sector = some x)
    (other : x ≠ sid) : ∃ s', Filesys.heldOp (fuel + 3) held s op = some s' := by
  have block : ∀ type, ∃ r, Filesys.cacheBlock (fuel + 3) x type s = some r := by
    intro type
    unfold Filesys.cacheBlock
    cases found : findCache x s with
    | some c => exact ⟨_, rfl⟩
    | none =>
      obtain ⟨c, hc, -⟩ := h.entry
      have entries : s.usedCache = cacheSize → s.cacheList ≠ [] :=
        fun _ => List.ne_nil_of_mem hc
      obtain ⟨t, room⟩ := makeRoom_returns h.sound.bound entries fuel
      exact ⟨_, congrArg (Option.map _) room⟩
  have unlocked : ((findCache x s).any fun c => c.addr = held) = false := by
    rw [Option.any_eq_false]
    intro d found
    obtain ⟨c, hc, rfl, rfl, -⟩ := h.entry
    have hd : d ∈ s.cacheList := List.mem_of_find?_eq_some found
    have sid_eq : d.sid = x := by simpa using List.find?_some found
    simp only [decide_eq_false_iff_not]
    intro same
    obtain rfl := h.sound.same_of_addr hd hc same
    exact other sid_eq.symm
  rw [Filesys.heldOp, sector]
  simp only [unlocked, Bool.false_eq_true, if_false]
  cases op with
  | read y =>
    obtain rfl := Option.some.inj sector
    obtain ⟨r, eq⟩ := block readBlock
    exact ⟨_, by rw [cacheOp, eq]; rfl⟩
  | write y copy =>
    obtain rfl := Option.some.inj sector
    obtain ⟨r, eq⟩ := block writeBlock
    exact ⟨_, by rw [cacheOp, eq]; rfl⟩
  | writeToDisk => cases sector

theorem Gone.evict {c : CacheEntry α} (h : Gone held s) (evicts : EvictsOne s c s') :
    Gone held s' := by
  refine ⟨?_, evicts.nextAddr ▸ h.old, fun d hd => ?_⟩
  · have := h.bound
    rw [evicts.used]
    omega
  · obtain ⟨e, he, core⟩ := evicts.comes_from hd
    rw [← addr_of_core core]
    exact h.absent e he

theorem Gone.map (h : Gone held s) {f : CacheEntry α → CacheEntry α}
    (keeps : ∀ c, (f c).addr = c.addr) : Gone held { s with cacheList := s.cacheList.map f } := by
  refine ⟨h.bound, h.old, fun d hd => ?_⟩
  obtain ⟨e, he, rfl⟩ := List.mem_map.mp hd
  rw [keeps]
  exact h.absent e he

/-- A new entry has a new address. -/
theorem Gone.insert (h : Gone held s) (free : s.usedCache < cacheSize) (type : Bool) :
    Gone held { s with
      cacheList := s.cacheList ++ [⟨s.nextAddr, x, true, type, s.disk x⟩]
      usedCache := s.usedCache + 1
      nextAddr := s.nextAddr + 1 } := by
  refine ⟨?_, Nat.lt_succ_of_lt h.old, fun d hd => ?_⟩
  · show s.usedCache + 1 ≤ cacheSize
    omega
  · rcases List.mem_append.mp hd with old | new
    · exact h.absent d old
    · rw [List.mem_singleton.mp new]
      exact (Nat.ne_of_lt h.old).symm

theorem Gone.heldOp (h : Gone held s) (sector : op.sector = some x)
    (run : heldOp fuel held s op = some s') : Gone held s' := by
  obtain ⟨type, addr, t, block, result⟩ := heldOp_cases (m := s.disk) sector run
  have gone : Gone held t := by
    obtain ⟨d, found, rfl, rfl⟩ | ⟨missing, u, room, rfl, rfl⟩ := cacheBlock_cases block
    · exact h.map fun c => by split <;> rfl
    · obtain ⟨free, rfl⟩ | ⟨full, -, c, evicts⟩ := makeRoom_cases h.bound room
      · exact h.insert free type
      · refine (h.evict evicts).insert ?_ type
        rw [evicts.used]
        omega
  obtain ⟨-, rfl, -⟩ | ⟨copy, -, rfl, -⟩ := result
  · exact gone
  · exact gone.map fun c => by split <;> rfl

/-- The held entry is the victim of an operation that does not spare it. -/
theorem Holding.gone (h : Holding held sid s m) (sector : op.sector = some x)
    (run : Filesys.heldOp fuel held s op = some s') (hit : ¬Spares held s op) : Gone held s' := by
  obtain ⟨type, addr, t, block, result⟩ := heldOp_cases (m := s.disk) sector run
  obtain ⟨y, asks, missing, full, v, victim, at_⟩ : ∃ y, op.sector = some y ∧
      findCache y s = none ∧ s.usedCache = cacheSize ∧
        ∃ v, nextVictim s.cacheList = some v ∧ v.addr = held := by
    simpa [Spares] using hit
  obtain rfl := Option.some.inj (sector.symm.trans asks)
  obtain ⟨c, hc, held_eq, -, -⟩ := h.entry
  have gone : Gone held t := by
    obtain ⟨d, found, -, -⟩ | ⟨-, u, room, -, rfl⟩ := cacheBlock_cases block
    · rw [missing] at found
      cases found
    · obtain ⟨sound, free, next, -, ⟨-, room⟩ | ⟨-, w, evicts⟩⟩ := h.sound.makeRoom room
      · omega
      · obtain rfl := Option.some.inj (victim.symm.trans evicts.rule.victim)
        refine Gone.insert ⟨sound.bound, ?_, fun d hd same => ?_⟩ free type
        · rw [next, ← held_eq]
          exact h.sound.fresh c hc
        · exact h.sound.absent evicts hd (same.trans at_.symm)
  obtain ⟨-, rfl, -⟩ | ⟨copy, -, rfl, -⟩ := result
  · exact gone
  · exact gone.map fun c => by split <;> rfl

/-- In a run that spares the held entry every operation returns and the entry stays. -/
theorem Holding.exec {ops : List (CacheOp α)} (h : Holding held sid s m)
    (others : ∀ op ∈ ops, ∃ x, op.sector = some x ∧ x ≠ sid)
    (each : Each (Filesys.heldOp (fuel + 3) held) (Spares held) s ops) :
    ∃ s' m', exec (Filesys.heldOp (fuel + 3) held) s ops = some s' ∧ Holding held sid s' m' ∧
      m' sid = m sid := by
  induction ops generalizing s m with
  | nil => exact ⟨s, m, rfl, h, rfl⟩
  | cons op ops ih =>
    obtain ⟨x, sector, other⟩ := others op List.mem_cons_self
    obtain ⟨t, first⟩ : ∃ t, Filesys.heldOp (fuel + 3) held s op = some t :=
      h.returns sector other
    obtain ⟨spared, rest⟩ := each t first
    obtain ⟨s', m', run, held', same⟩ := ih (h.heldOp sector other spared first)
      (fun op' mem => others op' (List.mem_cons_of_mem op mem)) rest
    refine ⟨s', m', ?_, held', same.trans (deviceOp_other sector other)⟩
    rw [Transition.exec, first, Option.bind_some, run]

theorem Gone.exec {ops : List (CacheOp α)} (h : Gone held s)
    (others : ∀ op ∈ ops, ∃ x, op.sector = some x ∧ x ≠ sid)
    (run : exec (Filesys.heldOp fuel held) s ops = some s') : Gone held s' := by
  induction ops generalizing s with
  | nil =>
    cases run
    exact h
  | cons op ops ih =>
    obtain ⟨x, sector, -⟩ := others op List.mem_cons_self
    obtain ⟨t, first, rest⟩ := exec_cons run
    exact ih (h.heldOp sector first) (fun op' mem => others op' (List.mem_cons_of_mem op mem)) rest

/-- A run that ends with the held entry spared it at every step. -/
theorem Holding.each {ops : List (CacheOp α)} (h : Holding held sid s m)
    (others : ∀ op ∈ ops, ∃ x, op.sector = some x ∧ x ≠ sid)
    (run : Transition.exec (Filesys.heldOp fuel held) s ops = some s')
    (listed : ∃ d ∈ s'.cacheList, d.addr = held) :
    Each (Filesys.heldOp fuel held) (Spares held) s ops := by
  induction ops generalizing s m with
  | nil => trivial
  | cons op ops ih =>
    obtain ⟨x, sector, other⟩ := others op List.mem_cons_self
    have later : ∀ op' ∈ ops, ∃ x, op'.sector = some x ∧ x ≠ sid :=
      fun op' mem => others op' (List.mem_cons_of_mem op mem)
    obtain ⟨t, first, rest⟩ := exec_cons run
    intro t' first'
    obtain rfl := Option.some.inj (first.symm.trans first')
    have spared : Spares held s op := by
      by_contra hit
      obtain ⟨d, hd, at_⟩ := listed
      exact ((h.gone sector first hit).exec later rest).absent d hd at_
    exact ⟨spared, ih (h.heldOp sector other spared first) later rest⟩

/-- What is copied into the held entry reaches the disk. -/
theorem Holding.flushed (h : Holding held sid s m) (copy : α → α) :
    (freeCache (copyInto held copy s)).disk sid = copy (m sid) := by
  obtain ⟨c, hc, at_, rfl, dirty⟩ := h.entry
  have disk : (freeCache (Filesys.copyInto held copy s)).disk =
      Function.update m c.sid (copy (m c.sid)) :=
    (h.sound.copyInto hc at_ dirty copy).holds.freeCache
  rw [disk, Function.update_self]

end Held

section Allocate

variable {fs : Fs} {freeMapFile : InodeDisk}

/-- The cache is asked for sectors of the free-map file only. -/
theorem freeMapAllocateOps_sector {op : CacheOp Bytes}
    (mem : op ∈ freeMapAllocateOps fs freeMapFile) :
    ∃ r, Role.Upto (bytesToSectors (bitmapFileSize fs.free.size)) r ∧
      op.sector = some (sectorAt fs freeMapFile r) := by
  unfold freeMapAllocateOps at mem
  split at mem
  next sector bits scan file =>
    obtain ⟨b, hb, mem⟩ := List.mem_flatMap.mp mem
    have low : b < bytesToSectors (bitmapFileSize fs.free.size) := List.mem_range.mp hb
    rw [blockOps] at mem
    split at mem
    next direct =>
      obtain rfl := List.mem_singleton.mp mem
      exact ⟨.data b, low, rfl⟩
    next single =>
      split at mem
      next =>
        rcases List.mem_cons.mp mem with rfl | mem
        · exact ⟨.ind, by simp only [Role.Upto]; omega, rfl⟩
        · obtain rfl := List.mem_singleton.mp mem
          exact ⟨.data b, low, rfl⟩
      next double =>
        rcases List.mem_cons.mp mem with rfl | mem
        · exact ⟨.din, by simp only [Role.Upto]; omega, rfl⟩
        · rcases List.mem_cons.mp mem with rfl | mem
          · refine ⟨.second ((b - 129) / 128), ?_, rfl⟩
            simp only [Role.Upto]
            omega
          · obtain rfl := List.mem_singleton.mp mem
            exact ⟨.data b, low, rfl⟩
  next => cases mem

theorem freeMapAllocateOps_others {sid : Nat}
    (other : ∀ r, Role.Upto (bytesToSectors (bitmapFileSize fs.free.size)) r →
      sectorAt fs freeMapFile r ≠ sid) :
    ∀ op ∈ freeMapAllocateOps fs freeMapFile, ∃ x, op.sector = some x ∧ x ≠ sid := by
  intro op hop
  obtain ⟨r, upto, sector⟩ := freeMapAllocateOps_sector hop
  exact ⟨_, sector, other r upto⟩

/-- An index entry that is held, and dirty, while `free_map_allocate` writes the free-map file is
still in `cache_list` when that returns, and what is then copied into it reaches the disk, exactly
when no use of the cache on the way misses a full cache whose next victim is that entry. -/
theorem held_entry_kept_iff (fuel : Nat) {s : Cache Bytes} (sound : s.Sound fs.data)
    {c : CacheEntry Bytes} (mem : c ∈ s.cacheList) (dirty : c.db = true)
    (other : ∀ r, Role.Upto (bytesToSectors (bitmapFileSize fs.free.size)) r →
      sectorAt fs freeMapFile r ≠ c.sid) :
    (∃ s', exec (heldOp (fuel + 3) c.addr) s (freeMapAllocateOps fs freeMapFile) = some s' ∧
      (∃ d ∈ s'.cacheList, d.addr = c.addr) ∧
      ∀ copy, (freeCache (copyInto c.addr copy s')).disk c.sid = copy (fs.data c.sid)) ↔
    Each (heldOp (fuel + 3) c.addr) (Spares c.addr) s (freeMapAllocateOps fs freeMapFile) := by
  have held : Holding c.addr c.sid s fs.data := ⟨sound, c, mem, rfl, rfl, dirty⟩
  have others := freeMapAllocateOps_others other
  constructor
  · rintro ⟨s', run, listed, -⟩
    exact held.each others run listed
  · intro each
    obtain ⟨s', m', run, kept, same⟩ := held.exec others each
    obtain ⟨d, hd, at_, -⟩ := kept.entry
    refine ⟨s', run, ⟨d, hd, at_⟩, fun copy => ?_⟩
    rw [kept.flushed copy, same]

/-- A device of 256 sectors with sector 5 free, and the free-map file in sector 2. -/
def crowdedFs : Fs :=
  ⟨fun _ _ => 0, ⟨256, fun s => s ≠ 5, some fun s => s ≠ 5, fun _ => none, 0, by decide⟩, []⟩

def crowdedFile : InodeDisk := ⟨32, 2, 0, 0, false, 1⟩

/-- The first `n` of the sectors from 70 on have entries, in this order; the first one is dirty. -/
def entriesFrom70 (n : Nat) : Cache Bytes :=
  ⟨(List.range n).map fun i => ⟨i, 70 + i, true, i = 0, fun _ => 0⟩, n, fun _ _ => 0, n⟩

theorem entriesFrom70_sound {n : Nat} (bound : n ≤ 64) :
    (entriesFrom70 n).Sound crowdedFs.data := by
  have list : (entriesFrom70 n).cacheList =
      (List.range n).map fun i => ⟨i, 70 + i, true, i = 0, fun _ => 0⟩ := rfl
  refine ⟨⟨?_, fun c hc => ?_, fun _ _ => rfl⟩, ?_, fun c hc => ?_, ?_⟩
  · rw [list, List.map_map]
    exact List.nodup_range.map fun i j (same : 70 + i = 70 + j) => Nat.add_left_cancel same
  · obtain ⟨i, -, rfl⟩ := List.mem_map.mp hc
    rfl
  · rw [list, List.map_map]
    exact List.nodup_range.map fun i j (same : i = j) => same
  · obtain ⟨i, hi, rfl⟩ := List.mem_map.mp hc
    exact List.mem_range.mp hi
  · exact Int.ofNat_le.mpr bound

theorem crowdedFile_other (r : Role)
    (upto : Role.Upto (bytesToSectors (bitmapFileSize crowdedFs.free.size)) r) :
    sectorAt crowdedFs crowdedFile r ≠ 70 := by
  cases r with
  | data b =>
    obtain rfl : b = 0 := Nat.lt_one_iff.mp upto
    decide
  | ind => exact absurd upto (by decide : ¬1 < 1)
  | din => exact absurd upto (by decide : ¬129 < 1)
  | second i =>
    have below : 129 + 128 * i < 1 := upto
    omega

/-- Sector 70 is the only one in the cache: the write of the free map evicts nothing. -/
theorem held_entry_kept_alone :
    ∃ s', exec (heldOp 3 0) (entriesFrom70 1) (freeMapAllocateOps crowdedFs crowdedFile) =
        some s' ∧ (∃ d ∈ s'.cacheList, d.addr = 0) ∧
      ∀ copy, (freeCache (copyInto 0 copy s')).disk 70 = copy fun _ => 0 := by
  have kept := held_entry_kept_iff 0 (entriesFrom70_sound (by decide : 1 ≤ 64))
    List.mem_cons_self rfl crowdedFile_other
  refine kept.mpr ?_
  exact fun t _ => ⟨fun _ _ _ full => absurd full (by decide : (1 : Int) ≠ 64), trivial⟩

/-- All entries have `AB` and the held one is the first of them: it is evicted. -/
theorem held_entry_evicted : ¬∀ (fuel : Nat) (fs : Fs) (freeMapFile : InodeDisk)
    (s : Cache Bytes) (c : CacheEntry Bytes), s.Sound fs.data → c ∈ s.cacheList → c.db = true →
    (∀ r, Role.Upto (bytesToSectors (bitmapFileSize fs.free.size)) r →
      sectorAt fs freeMapFile r ≠ c.sid) →
    ∃ s', exec (heldOp (fuel + 3) c.addr) s (freeMapAllocateOps fs freeMapFile) = some s' ∧
      (∃ d ∈ s'.cacheList, d.addr = c.addr) ∧
      ∀ copy, (freeCache (copyInto c.addr copy s')).disk c.sid = copy (fs.data c.sid) := by
  intro claim
  have sound := entriesFrom70_sound (by decide : 64 ≤ 64)
  obtain ⟨s', run, listed, -⟩ := claim 0 crowdedFs crowdedFile (entriesFrom70 64)
    ⟨0, 70, true, true, fun _ => 0⟩ sound List.mem_cons_self rfl crowdedFile_other
  have held : Holding 0 70 (entriesFrom70 64) crowdedFs.data :=
    ⟨sound, _, List.mem_cons_self, rfl, rfl, rfl⟩
  have others := freeMapAllocateOps_others crowdedFile_other
  obtain ⟨t, first, -⟩ := exec_cons run
  have spared : Spares 0 (entriesFrom70 64) _ := (held.each others run listed t first).1
  exact spared 2 rfl rfl rfl _ rfl rfl

end Allocate

end Pintos.Filesys
