import Pintos.Filesys.Cache
import Pintos.Filesys.ReadWrite

/-! The buffer cache shared by any number of client threads and the write-back daemon.  Each section
under `cache_lock` or under the `io` lock of an entry is one step, and a thread keeps the address
of its entry between sections.  An access through the address of an entry that has been freed is
undefined, and the run stops there. -/

namespace Pintos.Filesys

open Transition Pintos.Threads

/-- Where a thread is in `cache_block` or `write_to_disk`; while it holds an entry, the monitor of
the entry says more. -/
inductive CachePc
  | idle
  | found (sid : Nat) (type : Bool) (entry : Option Nat)
  | evicting (sid : Nat) (type : Bool) (rest : List Nat)
  | creating (sid : Nat) (type : Bool)
  | holding (type : Bool) (addr : Nat)
  | writingBack (rest : List Nat)

/-- The thread is going to use the entry at `addr`. -/
def CachePc.Uses : CachePc → Nat → Prop
  | .found _ _ (some a), addr | .holding _ a, addr => a = addr
  | _, _ => False

/-- `io`, `read_cnt` and `read_end` of the entry at each address are its `monitor`. -/
structure SharedCache (α : Type) where
  cache : Cache α
  cacheLock : Option Tid
  monitor : Nat → Monitor
  pc : Tid → CachePc

/-- One section of a thread. -/
inductive CacheAct (α : Type)
  | findCache (t : Tid) (sid : Nat) (type : Bool)
  | hit (t : Tid)
  | enterCreate (t : Tid)
  | evictVisit (t : Tid)
  | evictAgain (t : Tid)
  | create (t : Tid)
  | readCache (t : Tid)
  | endRead (t : Tid)
  | writeCache (t : Tid) (priority : Int)
  | resumeWrite (t : Tid)
  | copy (t : Tid) (f : α → α)
  | endWrite (t : Tid)
  | startWriteBack (t : Tid)
  | writeBackVisit (t : Tid)
  | endWriteBack (t : Tid)

namespace SharedCache

variable {α : Type}

def init (disk : Nat → α) : SharedCache α :=
  ⟨cacheSystemInit disk, none, fun _ => Monitor.init, fun _ => .idle⟩

def entry (s : SharedCache α) (addr : Nat) : Option (CacheEntry α) :=
  s.cache.cacheList.find? fun c => c.addr = addr

def at_ (s : SharedCache α) (t : Tid) (pc : CachePc) : SharedCache α :=
  { s with pc := Function.update s.pc t pc }

def modify (s : SharedCache α) (addr : Nat) (f : CacheEntry α → CacheEntry α) : SharedCache α :=
  { s with cache := { s.cache with cacheList := modifyAt addr f s.cache.cacheList } }

def addrs (s : SharedCache α) : List Nat := s.cache.cacheList.map CacheEntry.addr

/-- The test of the loop of `create_cache`. -/
def testRoom (s : SharedCache α) (t : Tid) (sid : Nat) (type : Bool) : SharedCache α :=
  s.at_ t (if s.cache.usedCache ≥ cacheSize then .evicting sid type s.addrs
    else .creating sid type)

/-- `write_to_disk` at one entry, with its `io` lock. -/
def flush (s : SharedCache α) (c : CacheEntry α) : SharedCache α :=
  { s with cache := { s.cache with
    disk := writeBack s.cache.disk c
    cacheList := modifyAt c.addr (fun c => { c with db := false }) s.cache.cacheList } }

/-- `cache_evict` at the entry it frees. -/
def evict (s : SharedCache α) (c : CacheEntry α) : SharedCache α :=
  { s with cache := { s.cache with
    disk := writeBack s.cache.disk c
    cacheList := s.cache.cacheList.filter fun d => d.addr ≠ c.addr
    usedCache := s.cache.usedCache - 1 } }

/-- `create_cache` once there is room. -/
def insert (s : SharedCache α) (sid : Nat) (type : Bool) : SharedCache α :=
  { s with
    cache := { s.cache with
      cacheList := s.cache.cacheList ++ [⟨s.cache.nextAddr, sid, true, type, s.cache.disk sid⟩]
      usedCache := s.cache.usedCache + 1
      nextAddr := s.cache.nextAddr + 1 }
    monitor := Function.update s.monitor s.cache.nextAddr Monitor.init }

/-- The entry at `addr`, for a thread that takes its `io` lock. -/
def unlocked (s : SharedCache α) (addr : Nat) : Option (CacheEntry α) :=
  if (s.monitor addr).holder = none then s.entry addr else none

/-- A thread moves in the monitor of the entry at `addr`. -/
def enter (s : SharedCache α) (addr : Nat) (section_ : Monitor → Option Monitor) :
    Option (SharedCache α) :=
  (s.entry addr).bind fun _ =>
    (section_ (s.monitor addr)).map fun m => { s with monitor := Function.update s.monitor addr m }

def step (s : SharedCache α) : CacheAct α → Option (SharedCache α)
  | .findCache t sid type =>
    match s.pc t, s.cacheLock with
    | .idle, none => some (s.at_ t (.found sid type ((Filesys.findCache sid s.cache).map (·.addr))))
    | _, _ => none
  | .hit t =>
    match s.pc t with
    | .found _ type (some addr) =>
      (s.unlocked addr).map fun _ =>
        (s.modify addr fun c => { c with ab := true, db := c.db || type }).at_ t
          (.holding type addr)
    | _ => none
  | .enterCreate t =>
    match s.pc t, s.cacheLock with
    | .found sid type none, none => some ({ s with cacheLock := some t }.testRoom t sid type)
    | _, _ => none
  | .evictVisit t =>
    match s.pc t with
    | .evicting sid type (addr :: rest) =>
      (s.unlocked addr).map fun c =>
        if c.ab then (s.modify addr fun c => { c with ab := false }).at_ t (.evicting sid type rest)
        else (s.evict c).testRoom t sid type
    | _ => none
  | .evictAgain t =>
    match s.pc t with
    | .evicting sid type [] => some (s.at_ t (.evicting sid type s.addrs))
    | _ => none
  | .create t =>
    match s.pc t with
    | .creating sid type =>
      some ({ s.insert sid type with cacheLock := none }.at_ t (.holding type s.cache.nextAddr))
    | _ => none
  | .readCache t =>
    match s.pc t with
    | .holding false addr => s.enter addr (·.enterRead t)
    | _ => none
  | .endRead t =>
    match s.pc t with
    | .holding false addr => (s.enter addr (·.leaveRead t)).map (·.at_ t .idle)
    | _ => none
  | .writeCache t priority =>
    match s.pc t with
    | .holding true addr => s.enter addr (·.enterWrite t priority)
    | _ => none
  | .resumeWrite t =>
    match s.pc t with
    | .holding true addr => s.enter addr (·.resumeWrite t)
    | _ => none
  | .copy t f =>
    match s.pc t with
    | .holding true addr =>
      if (s.monitor addr).pc t = .writing then
        (s.entry addr).map fun _ => s.modify addr fun c => { c with data := f c.data }
      else none
    | _ => none
  | .endWrite t =>
    match s.pc t with
    | .holding true addr => (s.enter addr (·.leaveWrite t)).map (·.at_ t .idle)
    | _ => none
  | .startWriteBack t =>
    match s.pc t, s.cacheLock with
    | .idle, none => some ({ s with cacheLock := some t }.at_ t (.writingBack s.addrs))
    | _, _ => none
  | .writeBackVisit t =>
    match s.pc t with
    | .writingBack (addr :: rest) =>
      (s.unlocked addr).map fun c => (s.flush c).at_ t (.writingBack rest)
    | _ => none
  | .endWriteBack t =>
    match s.pc t with
    | .writingBack [] => some ({ s with cacheLock := none }.at_ t .idle)
    | _ => none

/-- An entry that differs from its sector on disk and that no client is writing is dirty. -/
def NoLostUpdate (s : SharedCache α) : Prop :=
  ∀ c ∈ s.cache.cacheList, c.data ≠ s.cache.disk c.sid →
    (∀ t, (s.monitor c.addr).pc t ≠ .writing) → c.db = true

/-- The daemon does not clear the dirty bit of an entry that a client has for writing, no entry is
freed while a client is going to use it, and an entry is created only for a sector without one. -/
def Careful (s : SharedCache α) : CacheAct α → Prop
  | .writeBackVisit t => ∀ addr rest, s.pc t = .writingBack (addr :: rest) →
      ∀ c, s.entry addr = some c → c.db = true → ∀ u, s.pc u ≠ .holding true addr
  | .evictVisit t => ∀ sid type addr rest, s.pc t = .evicting sid type (addr :: rest) →
      ∀ c, s.entry addr = some c → c.ab = false → ∀ u, ¬(s.pc u).Uses addr
  | .create t => ∀ sid type, s.pc t = .creating sid type → ∀ c ∈ s.cache.cacheList, c.sid ≠ sid
  | _ => True

/-- Entries are distinct, clean ones agree with the disk, and the entries that clients use are
there, dirty for a client that is to write them. -/
structure Inv (s : SharedCache α) : Prop where
  sids : (s.cache.cacheList.map CacheEntry.sid).Nodup
  addrs : s.addrs.Nodup
  fresh : ∀ c ∈ s.cache.cacheList, c.addr < s.cache.nextAddr
  clean : ∀ c ∈ s.cache.cacheList, c.db = false → c.data = s.cache.disk c.sid
  uses : ∀ t addr, (s.pc t).Uses addr → addr ∈ s.addrs
  writes : ∀ t addr, s.pc t = .holding true addr → ∀ c ∈ s.cache.cacheList, c.addr = addr →
    c.db = true

theorem init_inv (disk : Nat → α) : (init disk).Inv := by
  refine ⟨?_, ?_, ?_, ?_, ?_, ?_⟩ <;>
    simp [init, cacheSystemInit, SharedCache.addrs, CachePc.Uses]

theorem Inv.noLostUpdate {s : SharedCache α} (h : s.Inv) : s.NoLostUpdate := by
  intro c hc differs _
  by_contra clean
  exact differs (h.clean c hc (Bool.eq_false_iff.mpr clean))

theorem Inv.same_of_addr {s : SharedCache α} (h : s.Inv) {c d : CacheEntry α}
    (hc : c ∈ s.cache.cacheList) (hd : d ∈ s.cache.cacheList) (same : c.addr = d.addr) : c = d :=
  List.inj_on_of_nodup_map h.addrs hc hd same

theorem entry_mem {s : SharedCache α} {addr : Nat} {c : CacheEntry α} (h : s.entry addr = some c) :
    c ∈ s.cache.cacheList ∧ c.addr = addr :=
  ⟨List.mem_of_find?_eq_some h, by simpa using List.find?_some h⟩

theorem unlocked_eq {s : SharedCache α} {addr : Nat} {c : CacheEntry α}
    (h : s.unlocked addr = some c) : s.entry addr = some c := by
  unfold unlocked at h
  split at h
  next => exact h
  next => exact nomatch h

theorem enter_eq {s s' : SharedCache α} {addr : Nat} {section_ : Monitor → Option Monitor}
    (h : s.enter addr section_ = some s') : ∃ monitor, s' = { s with monitor := monitor } := by
  obtain ⟨_, _, entered⟩ := Option.bind_eq_some_iff.mp h
  obtain ⟨m, _, rfl⟩ := Option.map_eq_some_iff.mp entered
  exact ⟨_, rfl⟩

/-- What each section does, with the place its thread was at and the entry it found. -/
inductive Effect (s : SharedCache α) : CacheAct α → SharedCache α → Prop
  | findCache (t : Tid) (sid : Nat) (type : Bool) :
    Effect s (.findCache t sid type)
      (s.at_ t (.found sid type ((Filesys.findCache sid s.cache).map (·.addr))))
  | hit {t : Tid} {sid addr : Nat} {type : Bool} (place : s.pc t = .found sid type (some addr)) :
    Effect s (.hit t)
      ((s.modify addr fun c => { c with ab := true, db := c.db || type }).at_ t
        (.holding type addr))
  | enterCreate (t : Tid) (sid : Nat) (type : Bool) :
    Effect s (.enterCreate t) ({ s with cacheLock := some t }.testRoom t sid type)
  | evictVisit {t : Tid} {sid addr : Nat} {type : Bool} {rest : List Nat} {c : CacheEntry α}
    (place : s.pc t = .evicting sid type (addr :: rest)) (found : s.entry addr = some c) :
    Effect s (.evictVisit t)
      (if c.ab then (s.modify addr fun c => { c with ab := false }).at_ t (.evicting sid type rest)
        else (s.evict c).testRoom t sid type)
  | evictAgain (t : Tid) (sid : Nat) (type : Bool) :
    Effect s (.evictAgain t) (s.at_ t (.evicting sid type s.addrs))
  | create {t : Tid} {sid : Nat} {type : Bool} (place : s.pc t = .creating sid type) :
    Effect s (.create t)
      ({ s.insert sid type with cacheLock := none }.at_ t (.holding type s.cache.nextAddr))
  | readCache (t : Tid) (monitor : Nat → Monitor) :
    Effect s (.readCache t) { s with monitor := monitor }
  | endRead (t : Tid) (monitor : Nat → Monitor) :
    Effect s (.endRead t) ({ s with monitor := monitor }.at_ t .idle)
  | writeCache (t : Tid) (priority : Int) (monitor : Nat → Monitor) :
    Effect s (.writeCache t priority) { s with monitor := monitor }
  | resumeWrite (t : Tid) (monitor : Nat → Monitor) :
    Effect s (.resumeWrite t) { s with monitor := monitor }
  | copy {t : Tid} {addr : Nat} (f : α → α) (place : s.pc t = .holding true addr) :
    Effect s (.copy t f) (s.modify addr fun c => { c with data := f c.data })
  | endWrite (t : Tid) (monitor : Nat → Monitor) :
    Effect s (.endWrite t) ({ s with monitor := monitor }.at_ t .idle)
  | startWriteBack (t : Tid) :
    Effect s (.startWriteBack t) ({ s with cacheLock := some t }.at_ t (.writingBack s.addrs))
  | writeBackVisit {t : Tid} {addr : Nat} {rest : List Nat} {c : CacheEntry α}
    (place : s.pc t = .writingBack (addr :: rest)) (found : s.entry addr = some c) :
    Effect s (.writeBackVisit t) ((s.flush c).at_ t (.writingBack rest))
  | endWriteBack (t : Tid) :
    Effect s (.endWriteBack t) ({ s with cacheLock := none }.at_ t .idle)

theorem effect {s s' : SharedCache α} {act : CacheAct α} (hstep : s.step act = some s') :
    s.Effect act s' := by
  cases act with
  | findCache t sid type =>
    simp only [step] at hstep
    split at hstep <;> cases hstep
    exact .findCache t sid type
  | hit t =>
    simp only [step] at hstep
    split at hstep
    next place =>
      obtain ⟨_, _, rfl⟩ := Option.map_eq_some_iff.mp hstep
      exact .hit place
    next => cases hstep
  | enterCreate t =>
    simp only [step] at hstep
    split at hstep <;> cases hstep
    exact .enterCreate t _ _
  | evictVisit t =>
    simp only [step] at hstep
    split at hstep
    next place =>
      obtain ⟨c, found, rfl⟩ := Option.map_eq_some_iff.mp hstep
      exact .evictVisit place (unlocked_eq found)
    next => cases hstep
  | evictAgain t =>
    simp only [step] at hstep
    split at hstep <;> cases hstep
    exact .evictAgain t _ _
  | create t =>
    simp only [step] at hstep
    split at hstep
    next place =>
      obtain rfl := Option.some.inj hstep
      exact .create place
    next => cases hstep
  | readCache t | writeCache t priority | resumeWrite t =>
    simp only [step] at hstep
    split at hstep
    next =>
      obtain ⟨monitor, rfl⟩ := enter_eq hstep
      constructor
    next => cases hstep
  | endRead t | endWrite t =>
    simp only [step] at hstep
    split at hstep
    next =>
      obtain ⟨left, entered, rfl⟩ := Option.map_eq_some_iff.mp hstep
      obtain ⟨monitor, rfl⟩ := enter_eq entered
      constructor
    next => cases hstep
  | copy t f =>
    simp only [step] at hstep
    split at hstep
    next place =>
      split at hstep
      · obtain ⟨_, _, rfl⟩ := Option.map_eq_some_iff.mp hstep
        exact .copy f place
      · cases hstep
    next => cases hstep
  | startWriteBack t =>
    simp only [step] at hstep
    split at hstep <;> cases hstep
    exact .startWriteBack t
  | writeBackVisit t =>
    simp only [step] at hstep
    split at hstep
    next place =>
      obtain ⟨c, found, rfl⟩ := Option.map_eq_some_iff.mp hstep
      exact .writeBackVisit place (unlocked_eq found)
    next => cases hstep
  | endWriteBack t =>
    simp only [step] at hstep
    split at hstep <;> cases hstep
    exact .endWriteBack t

/-- Neither the lock of the cache nor the monitors play a part. -/
theorem Inv.of_locks {s : SharedCache α} (h : s.Inv) (lock : Option Tid) (monitor : Nat → Monitor) :
    Inv { s with cacheLock := lock, monitor := monitor } :=
  ⟨h.sids, h.addrs, h.fresh, h.clean, h.uses, h.writes⟩

/-- A thread moves to a place where the entry it uses is there, and dirty as needed. -/
theorem Inv.move {s : SharedCache α} (h : s.Inv) {t : Tid} {pc : CachePc}
    (uses : ∀ addr, pc.Uses addr → addr ∈ s.addrs)
    (writes : ∀ addr, pc = .holding true addr → ∀ c ∈ s.cache.cacheList, c.addr = addr →
      c.db = true) : (s.at_ t pc).Inv := by
  have at_pc : ∀ u, (s.at_ t pc).pc u = if u = t then pc else s.pc u := by
    intro u
    simp [at_, Function.update_apply]
  refine ⟨h.sids, h.addrs, h.fresh, h.clean, fun u addr => ?_, fun u addr => ?_⟩
  · rw [at_pc]
    split
    · exact uses addr
    · exact h.uses u addr
  · rw [at_pc]
    split
    · exact writes addr
    · exact h.writes u addr

/-- A thread moves to a place where it uses no entry. -/
theorem Inv.move_away {s : SharedCache α} (h : s.Inv) {t : Tid} {pc : CachePc}
    (none : ∀ addr, ¬pc.Uses addr) : (s.at_ t pc).Inv := by
  refine h.move (fun addr hu => absurd hu (none addr)) fun addr place => ?_
  subst place
  exact absurd rfl (none addr)

theorem Inv.modify {s : SharedCache α} (h : s.Inv) (addr : Nat) {f : CacheEntry α → CacheEntry α}
    (keeps : ∀ c, (f c).addr = c.addr ∧ (f c).sid = c.sid)
    (clean : ∀ c ∈ s.cache.cacheList, c.addr = addr → (f c).db = false →
      (f c).data = s.cache.disk c.sid)
    (writes : ∀ t, s.pc t = .holding true addr → ∀ c ∈ s.cache.cacheList, c.addr = addr →
      (f c).db = true) : (s.modify addr f).Inv := by
  have sid : ∀ c, (if c.addr = addr then f c else c).sid = c.sid := by
    intro c
    split
    · exact (keeps c).2
    · rfl
  have same_addr : ∀ c, (if c.addr = addr then f c else c).addr = c.addr := by
    intro c
    split
    · exact (keeps c).1
    · rfl
  have same_addrs : (s.modify addr f).addrs = s.addrs := by
    simp only [SharedCache.addrs, SharedCache.modify, modifyAt, List.map_map,
      Function.comp_def, same_addr]
  refine ⟨?_, ?_, fun c hc => ?_, fun c hc => ?_, ?_, fun t a hw c hc => ?_⟩
  · simpa only [SharedCache.modify, modifyAt, List.map_map, Function.comp_def, sid]
      using h.sids
  · rw [same_addrs]
    exact h.addrs
  · obtain ⟨d, hd, rfl⟩ := List.mem_map.mp hc
    rw [same_addr]
    exact h.fresh d hd
  · obtain ⟨d, hd, rfl⟩ := List.mem_map.mp hc
    rw [sid]
    split
    next here => exact clean d hd here
    next => exact h.clean d hd
  · rw [same_addrs]
    exact h.uses
  · obtain ⟨d, hd, rfl⟩ := List.mem_map.mp hc
    intro here
    rw [same_addr] at here
    split
    next at_addr =>
      obtain rfl : a = addr := here.symm.trans at_addr
      exact writes t hw d hd at_addr
    next => exact h.writes t a hw d hd here

def withDisk (s : SharedCache α) (disk : Nat → α) : SharedCache α :=
  { s with cache := { s.cache with disk := disk } }

/-- Writing an entry back keeps the clean entries of other sectors in agreement with the disk. -/
theorem Inv.writeBack {s : SharedCache α} (h : s.Inv) {c : CacheEntry α}
    (hc : c ∈ s.cache.cacheList) : (s.withDisk (writeBack s.cache.disk c)).Inv := by
  refine ⟨h.sids, h.addrs, h.fresh, fun d hd clean => ?_, h.uses, h.writes⟩
  simp only [withDisk, Filesys.writeBack]
  split
  · by_cases same : d.sid = c.sid
    · obtain rfl := List.inj_on_of_nodup_map h.sids hd hc same
      rw [Function.update_self]
    · rw [Function.update_of_ne same]
      exact h.clean d hd clean
  · exact h.clean d hd clean

theorem writeBack_self (disk : Nat → α) {c : CacheEntry α}
    (h : c.db = false → c.data = disk c.sid) :
    writeBack disk c c.sid = c.data := by
  unfold Filesys.writeBack
  split
  · rw [Function.update_self]
  next clean => exact (h (Bool.eq_false_iff.mpr clean)).symm

theorem Inv.flush {s : SharedCache α} (h : s.Inv) {c : CacheEntry α} (hc : c ∈ s.cache.cacheList)
    (none_writes : c.db = true → ∀ t, s.pc t ≠ .holding true c.addr) : (s.flush c).Inv := by
  refine (h.writeBack hc).modify c.addr (fun _ => ⟨rfl, rfl⟩) (fun d hd here _ => ?_) ?_
  · obtain rfl := h.same_of_addr hd hc here
    exact (writeBack_self _ (h.clean d hd)).symm
  · intro t hw
    exact absurd hw (none_writes (h.writes t c.addr hw c hc rfl) t)

theorem Inv.evict {s : SharedCache α} (h : s.Inv) {c : CacheEntry α} (hc : c ∈ s.cache.cacheList)
    (none_uses : ∀ t, ¬(s.pc t).Uses c.addr) : (s.evict c).Inv := by
  have back := h.writeBack hc
  have sub : (s.cache.cacheList.filter fun d => d.addr ≠ c.addr).Sublist s.cache.cacheList :=
    List.filter_sublist
  refine ⟨h.sids.sublist (sub.map _), h.addrs.sublist (sub.map _),
    fun d hd => h.fresh d (sub.subset hd), fun d hd => back.clean d (sub.subset hd),
    fun t addr hu => ?_, fun t addr hw d hd => h.writes t addr hw d (sub.subset hd)⟩
  obtain ⟨d, hd, rfl⟩ := List.mem_map.mp (h.uses t addr hu)
  refine List.mem_map_of_mem (List.mem_filter.mpr ⟨hd, ?_⟩)
  have ne : d.addr ≠ c.addr := by
    intro same
    exact none_uses t (same ▸ hu)
  simpa using ne

theorem Inv.insert {s : SharedCache α} (h : s.Inv) {sid : Nat} (type : Bool)
    (absent : ∀ c ∈ s.cache.cacheList, c.sid ≠ sid) : (s.insert sid type).Inv := by
  have addr_lt : ∀ addr ∈ s.addrs, addr < s.cache.nextAddr := by
    intro addr ha
    obtain ⟨c, hc, rfl⟩ := List.mem_map.mp ha
    exact h.fresh c hc
  have addrs_eq : (s.insert sid type).addrs = s.addrs ++ [s.cache.nextAddr] := by
    simp [SharedCache.addrs, SharedCache.insert]
  refine ⟨?_, ?_, fun c hc => ?_, fun c hc clean => ?_, fun t addr hu => ?_,
    fun t addr hw c hc here => ?_⟩
  · simp only [SharedCache.insert, List.map_append, List.map_singleton, List.nodup_append]
    refine ⟨h.sids, by simp, ?_⟩
    rintro a ha b hb rfl
    obtain ⟨c, hc, rfl⟩ := List.mem_map.mp ha
    exact absent c hc (List.mem_singleton.mp hb)
  · rw [addrs_eq, List.nodup_append]
    refine ⟨h.addrs, by simp, ?_⟩
    rintro a ha b hb rfl
    exact absurd (List.mem_singleton.mp hb) (Nat.ne_of_lt (addr_lt a ha))
  · rcases List.mem_append.mp hc with old | new
    · exact Nat.lt_succ_of_lt (h.fresh c old)
    · rw [List.mem_singleton.mp new]
      exact Nat.lt_succ_self _
  · rcases List.mem_append.mp hc with old | new
    · exact h.clean c old clean
    · rw [List.mem_singleton.mp new]
      rfl
  · rw [addrs_eq]
    exact List.mem_append_left _ (h.uses t addr hu)
  · rcases List.mem_append.mp hc with old | new
    · exact h.writes t addr hw c old here
    · have place : s.pc t = .holding true addr := hw
      have lt := addr_lt addr (h.uses t addr (by rw [place]; rfl))
      rw [← here, List.mem_singleton.mp new] at lt
      exact absurd lt (Nat.lt_irrefl _)

theorem Inv.testRoom {s : SharedCache α} (h : s.Inv) (t : Tid) (sid : Nat) (type : Bool) :
    (s.testRoom t sid type).Inv := by
  refine h.move_away fun addr hu => ?_
  split at hu <;> exact hu

theorem Inv.findCache {s : SharedCache α} (h : s.Inv) (t : Tid) (sid : Nat) (type : Bool) :
    (s.at_ t (.found sid type ((Filesys.findCache sid s.cache).map (·.addr)))).Inv := by
  cases found : Filesys.findCache sid s.cache with
  | none => exact h.move_away fun _ => id
  | some c =>
    refine h.move (fun addr hu => ?_) fun _ place => nomatch place
    obtain rfl : c.addr = addr := hu
    exact List.mem_map_of_mem (List.mem_of_find?_eq_some found)

/-- The hit path of `cache_block`, which leaves a dirty entry dirty and one to be written dirty. -/
theorem Inv.hit {s : SharedCache α} (h : s.Inv) {t : Tid} {sid : Nat} {type : Bool} {addr : Nat}
    (place : s.pc t = .found sid type (some addr)) :
    ((s.modify addr fun c => { c with ab := true, db := c.db || type }).at_ t
      (.holding type addr)).Inv := by
  have set : (s.modify addr fun c => { c with ab := true, db := c.db || type }).Inv := by
    refine h.modify addr (fun _ => ⟨rfl, rfl⟩) (fun c hc _ clean => ?_) fun u hu c hc here => ?_
    · exact h.clean c hc (Bool.or_eq_false_iff.mp clean).1
    · exact Bool.or_eq_true_iff.mpr (.inl (h.writes u addr hu c hc here))
  refine set.move (fun a hu => ?_) fun a same c hc here => ?_
  · obtain rfl : addr = a := hu
    exact set.uses t addr (by change (s.pc t).Uses addr; rw [place]; rfl)
  · obtain ⟨rfl, rfl⟩ := CachePc.holding.inj same
    obtain ⟨d, hd, rfl⟩ := List.mem_map.mp hc
    split
    · exact Bool.or_true _
    next other =>
      rw [if_neg other] at here
      exact absurd here other

theorem Inv.create {s : SharedCache α} (h : s.Inv) (t : Tid) {sid : Nat} (type : Bool)
    (absent : ∀ c ∈ s.cache.cacheList, c.sid ≠ sid) :
    ({ s.insert sid type with cacheLock := none }.at_ t (.holding type s.cache.nextAddr)).Inv := by
  refine ((h.insert type absent).of_locks none _).move (fun addr hu => ?_)
    fun addr same c hc here => ?_
  · obtain rfl : s.cache.nextAddr = addr := hu
    exact List.mem_map.mpr ⟨_, List.mem_append_right _ (List.mem_singleton_self _), rfl⟩
  · obtain ⟨rfl, rfl⟩ := CachePc.holding.inj same
    rcases List.mem_append.mp hc with old | new
    · exact absurd here (Nat.ne_of_lt (h.fresh c old))
    · rw [List.mem_singleton.mp new]

theorem Inv.copy {s : SharedCache α} (h : s.Inv) {t : Tid} {addr : Nat}
    (place : s.pc t = .holding true addr) (f : α → α) :
    (s.modify addr fun c => { c with data := f c.data }).Inv := by
  refine h.modify addr (fun _ => ⟨rfl, rfl⟩) (fun c hc here clean => ?_)
    fun _ _ c hc here => h.writes t addr place c hc here
  exact absurd (h.writes t addr place c hc here) (Bool.eq_false_iff.mp clean)

/-- The visit of `cache_evict` to one entry: it loses its access bit or its place. -/
theorem Inv.evictVisit {s : SharedCache α} (h : s.Inv) {t : Tid} {sid : Nat} {type : Bool}
    {addr : Nat} {rest : List Nat} {c : CacheEntry α} (found : s.entry addr = some c)
    (careful : c.ab = false → ∀ u, ¬(s.pc u).Uses addr) :
    (if c.ab then (s.modify addr fun c => { c with ab := false }).at_ t (.evicting sid type rest)
      else (s.evict c).testRoom t sid type).Inv := by
  obtain ⟨hc, rfl⟩ := entry_mem found
  split
  next =>
    refine Inv.move_away ?_ fun _ => id
    exact h.modify c.addr (fun _ => ⟨rfl, rfl⟩) (fun d hd _ => h.clean d hd) fun u hu =>
      h.writes u c.addr hu
  next unset => exact (h.evict hc (careful (Bool.eq_false_iff.mpr unset))).testRoom t sid type

theorem step_inv {s s' : SharedCache α} {act : CacheAct α} (h : s.Inv) (careful : s.Careful act)
    (hstep : s.step act = some s') : s'.Inv := by
  cases effect hstep with
  | findCache t sid type => exact h.findCache t sid type
  | hit place => exact h.hit place
  | enterCreate t sid type => exact (h.of_locks (some t) s.monitor).testRoom t sid type
  | evictVisit place found => exact h.evictVisit found (careful _ _ _ _ place _ found)
  | evictAgain t sid type => exact h.move_away fun _ => id
  | create place => exact h.create _ _ (careful _ _ place)
  | readCache t monitor | writeCache t priority monitor | resumeWrite t monitor =>
    exact h.of_locks s.cacheLock monitor
  | endRead t monitor | endWrite t monitor =>
    exact (h.of_locks s.cacheLock monitor).move_away fun _ => id
  | copy f place => exact h.copy place f
  | startWriteBack t => exact (h.of_locks (some t) s.monitor).move_away fun _ => id
  | writeBackVisit place found =>
    obtain ⟨hc, rfl⟩ := entry_mem found
    exact (h.flush hc (careful _ _ place _ found)).move_away fun _ => id
  | endWriteBack t => exact (h.of_locks none s.monitor).move_away fun _ => id

/-- In a run of careful steps no update is lost, and every address that a client holds is that of
an entry. -/
theorem no_update_lost {disk : Nat → α} {s : SharedCache α}
    (reach : Reach (Fires step) Careful (· = init disk) s) :
    s.NoLostUpdate ∧ ∀ t addr, (s.pc t).Uses addr → addr ∈ s.addrs := by
  have inv : s.Inv := by
    refine reach.invariant (P := Inv) ?_ fun _ _ _ h careful hstep => step_inv h careful hstep
    rintro _ rfl
    exact init_inv disk
  exact ⟨inv.noLostUpdate, inv.uses⟩

/-- A client's write of sector 7 that the daemon then writes back. -/
theorem no_update_lost_write :
    ∃ s : SharedCache Nat, Reach (Fires step) Careful (· = init fun _ => 0) s ∧
      s.cache.disk 7 = 9 ∧ s.NoLostUpdate := by
  have start : Reach (Fires step) Careful (· = init fun _ => (0 : Nat)) (init fun _ => 0) :=
    .start rfl
  have entered := (start.take (.findCache 1 7 true) trivial rfl).take (.enterCreate 1) trivial rfl
  have created := entered.take (.create 1) (fun _ _ _ c hc => nomatch hc) rfl
  have copied := (created.take (.writeCache 1 31) trivial rfl).take (.copy 1 fun _ => 9) trivial rfl
  have daemon := (copied.take (.endWrite 1) trivial rfl).take (.startWriteBack 2) trivial rfl
  have visited := daemon.take (.writeBackVisit 2) (fun addr _ _ _ _ _ u => by
    by_cases client : u = 1 <;> by_cases visitor : u = 2 <;>
      simp [at_, SharedCache.modify, testRoom, SharedCache.insert, init, client, visitor]) rfl
  exact ⟨_, visited, rfl, (no_update_lost visited).1⟩

/-- The daemon clears the dirty bit after `cache_block` has set it and before the client copies:
the update is in a clean entry. -/
theorem daemon_clears_dirty_bit :
    ∃ s : SharedCache Nat, Reach (Fires step) (fun _ _ => True) (· = init fun _ => 0) s ∧
      ¬s.NoLostUpdate := by
  have start : Reach (Fires step) (fun _ _ => True) (· = init fun _ => (0 : Nat))
      (init fun _ => 0) := .start rfl
  have created := ((start.take (.findCache 1 7 true) trivial rfl).take (.enterCreate 1)
    trivial rfl).take (.create 1) trivial rfl
  have cleared := ((created.take (.startWriteBack 2) trivial rfl).take (.writeBackVisit 2) trivial
    rfl).take (.endWriteBack 2) trivial rfl
  have copied := (cleared.take (.writeCache 1 31) trivial rfl).take (.copy 1 fun _ => 9) trivial rfl
  have ended := copied.take (.endWrite 1) trivial rfl
  refine ⟨_, ended, fun kept => ?_⟩
  have dirty := kept ⟨0, 7, true, false, 9⟩ (List.Mem.head _) (by decide) fun t => ?_
  · exact nomatch dirty
  · have left : Function.update (Function.update Monitor.init.pc 1 .writing) 1 .outside t ≠
        RwPc.writing := by
      rw [Function.update_idem, Function.update_apply]
      split <;> exact RwPc.noConfusion
    exact left

/-! ### One entry for a sector -/

def sids (s : SharedCache α) : List Nat := s.cache.cacheList.map CacheEntry.sid

/-- No two entries of `cache_list` are for the same sector. -/
def OneEntry (s : SharedCache α) : Prop := s.sids.Nodup

/-- An entry is created only for a sector that has none at that moment. -/
def CreatesAbsent (s : SharedCache α) : CacheAct α → Prop
  | .create t => ∀ sid type, s.pc t = .creating sid type → sid ∉ s.sids
  | _ => True

theorem modify_sids (s : SharedCache α) (addr : Nat) {f : CacheEntry α → CacheEntry α}
    (keeps : ∀ c, (f c).sid = c.sid) : (s.modify addr f).sids.Sublist s.sids := by
  have same : ∀ c, (if c.addr = addr then f c else c).sid = c.sid := by
    intro c
    split
    · exact keeps c
    · rfl
  simp only [sids, SharedCache.modify, modifyAt, List.map_map, Function.comp_def, same]
  exact List.Sublist.refl _

/-- The sectors of the entries after a step: `create` adds one at the end, and the other steps
add none. -/
theorem step_sids {s s' : SharedCache α} {act : CacheAct α} (hstep : s.step act = some s') :
    s'.sids.Sublist s.sids ∨ ∃ t sid type, act = .create t ∧ s.pc t = .creating sid type ∧
      s'.sids = s.sids ++ [sid] := by
  cases effect hstep with
  | create place =>
    refine .inr ⟨_, _, _, rfl, place, ?_⟩
    simp [sids, at_, SharedCache.insert]
  | hit place => exact .inl (modify_sids s _ fun _ => rfl)
  | copy f place => exact .inl (modify_sids s _ fun _ => rfl)
  | writeBackVisit place found => exact .inl (modify_sids s _ fun _ => rfl)
  | evictVisit place found =>
    left
    split
    · exact modify_sids s _ fun _ => rfl
    · exact List.filter_sublist.map _
  | _ => exact .inl (List.Sublist.refl _)

theorem OneEntry.step {s s' : SharedCache α} {act : CacheAct α} (h : s.OneEntry)
    (absent : s.CreatesAbsent act) (hstep : s.step act = some s') : s'.OneEntry := by
  obtain sub | ⟨t, sid, type, rfl, place, eq⟩ := step_sids hstep
  · exact h.sublist sub
  · show s'.sids.Nodup
    rw [eq, List.nodup_append]
    refine ⟨h, List.nodup_singleton sid, ?_⟩
    rintro a old b new rfl
    exact absent sid type place (List.mem_singleton.mp new ▸ old)

/-- A step into a state with one entry for a sector created it for a sector without one. -/
theorem OneEntry.created {s s' : SharedCache α} {act : CacheAct α} (h : s'.OneEntry)
    (hstep : s.step act = some s') : s.CreatesAbsent act := by
  cases act with
  | create t =>
    intro sid type place listed
    simp only [SharedCache.step, place] at hstep
    obtain rfl := Option.some.inj hstep
    have twice : (s.sids ++ [sid]).Nodup := by
      simpa [OneEntry, sids, at_, SharedCache.insert] using h
    exact (List.nodup_append.mp twice).2.2 sid listed sid (List.mem_singleton_self sid) rfl
  | _ => trivial

/-- A run of clients and of the daemon has at most one entry for a sector in all its states exactly
when each `create_cache` of it finds the sector without an entry. -/
theorem one_entry_iff_created_absent (disk : Nat → α) (acts : List (CacheAct α)) :
    Always step OneEntry (init disk) acts ↔ Each step CreatesAbsent (init disk) acts :=
  always_iff_each (fun _ h => h) (fun _ _ _ h absent hstep => h.step absent hstep)
    (fun _ _ _ _ h hstep => h.created hstep) acts (List.nodup_nil : (init disk).OneEntry)

/-- Two clients miss on sector 7 before either of them creates its entry. -/
theorem two_misses_two_entries :
    ∃ s : SharedCache Nat, Reach (Fires step) (fun _ _ => True) (· = init fun _ => 0) s ∧
      ¬s.OneEntry := by
  have start : Reach (Fires step) (fun _ _ => True) (· = init fun _ => (0 : Nat))
      (init fun _ => 0) := .start rfl
  have missed := (start.take (.findCache 1 7 false) trivial rfl).take (.findCache 2 7 false)
    trivial rfl
  have first := (missed.take (.enterCreate 1) trivial rfl).take (.create 1) trivial rfl
  have second := (first.take (.enterCreate 2) trivial rfl).take (.create 2) trivial rfl
  refine ⟨_, second, fun one => ?_⟩
  have twice : [7, 7].Nodup := one
  exact absurd twice (by decide)

end SharedCache

end Pintos.Filesys
