import Pintos.Filesys.GrowthExact

/-! Runs of `free_map_allocate`, `free_map_release`, `free_map_close` and `free_map_open` from a
created free map on: what is allocated is marked in memory and in the free-map file, and nobody else
gets it. -/

namespace Pintos.Filesys

open Transition Results

/-- `free_map_create`, after `free_map_init`.  There is no map after a panic. -/
def freeMapCreate (dev : Nat → Words.Bytes) (bitmap : FreeMap) : Option FreeMap :=
  match inodeCreate ⟨dev, freeMapInit bitmap, []⟩ 0 (bitmapFileSize bitmap.size) false with
  | .error _ => none
  | .ok fs =>
    let result := fs.free.bitmapWrite
    if result.2 then some result.1 else none

namespace FreeMap

/-- `free_map_allocate` with its result and with `*sectorp` afterwards. -/
def allocateInto (m : FreeMap) (cnt sectorp : Nat) : FreeMap × Nat × Bool :=
  match m.allocate cnt with
  | (m, some sector) => (m, sector, true)
  | (m, none) => (m, sectorp, false)

/-- The sectors from `sector` on are on the device and clear. -/
def ClearFrom (m : FreeMap) (sector cnt : Nat) : Prop :=
  sector + cnt ≤ m.size ∧ ∀ i < cnt, m.used (sector + i) = false

/-- A sector that is marked in memory, and in the free-map file. -/
def Marked (m : FreeMap) (t : Nat) : Prop :=
  m.used t = true ∧ ∀ bits, m.file = some bits → bits t = true

/-- The next `bitmap_write` succeeds, or each bit that it leaves in the file is one that was there
or the one in memory. -/
def WritesBits (m : FreeMap) : Prop :=
  ∀ old bits, m.file = some old → m.writeFails m.writes = some bits →
    ∀ t, bits t = old t ∨ bits t = m.used t

variable {m : FreeMap} {sector cnt t : Nat}

theorem setMultiple_out {value : Bool} (out : ¬(sector ≤ t ∧ t < sector + cnt)) :
    (m.setMultiple sector cnt value).used t = m.used t := if_neg out

theorem setMultiple_in {value : Bool} (range : sector ≤ t ∧ t < sector + cnt) :
    (m.setMultiple sector cnt value).used t = value := if_pos range

theorem setMultiple_set (used : m.used t = true) :
    (m.setMultiple sector cnt true).used t = true := by
  by_cases range : sector ≤ t ∧ t < sector + cnt
  · exact setMultiple_in range
  · exact (setMultiple_out range).trans used

theorem ClearFrom.not_used (clear : m.ClearFrom sector cnt)
    (range : sector ≤ t ∧ t < sector + cnt) : m.used t ≠ true := by
  obtain ⟨i, rfl⟩ := Nat.exists_eq_add_of_le range.1
  rw [clear.2 i (by omega)]
  exact Bool.false_ne_true

/-- Sectors that were clear are as before when they are marked and cleared again. -/
theorem ClearFrom.undo (clear : m.ClearFrom sector cnt) :
    ((m.setMultiple sector cnt true).setMultiple sector cnt false).used = m.used := by
  funext t
  by_cases range : sector ≤ t ∧ t < sector + cnt
  · rw [setMultiple_in range, Bool.eq_false_iff.mpr (clear.not_used range)]
  · rw [setMultiple_out range, setMultiple_out range]

/-- A sector stays marked in a write, when the bit in memory and the bit in the file are set. -/
theorem bitmapWrite_marked (writes : m.WritesBits) (used : m.used t = true)
    (file : ∃ old, m.file = some old ∧ old t = true) : m.bitmapWrite.1.Marked t := by
  obtain ⟨old, some, set⟩ := file
  rw [bitmapWrite]
  cases fails : m.writeFails m.writes with
  | none =>
    refine ⟨used, fun bits same => ?_⟩
    rw [← Option.some.inj same]
    exact used
  | some left =>
    refine ⟨used, fun bits same => ?_⟩
    rw [← Option.some.inj same]
    rcases writes old left some fails t with eq | eq
    · rw [eq]
      exact set
    · rw [eq]
      exact used

/-- What is marked in the file is marked in memory when it was read. -/
theorem bitmapRead_same (m : FreeMap) : m.bitmapRead.size = m.size ∧ m.bitmapRead.file = m.file ∧
    ∀ t, m.Marked t → m.bitmapRead.Marked t := by
  rw [bitmapRead]
  split
  next bits file => exact ⟨rfl, rfl, fun t marked => ⟨marked.2 bits file, marked.2⟩⟩
  next => exact ⟨rfl, rfl, fun _ => id⟩

/-- After a write that succeeds the file has what is in memory. -/
theorem bitmapWrite_file_of_succeeds (succeeds : m.writeFails m.writes = none) :
    m.bitmapWrite.1.file = some m.bitmapWrite.1.used := by
  rw [bitmapWrite, succeeds]

/-- With an open file, an allocation finds no sectors, or takes clear ones and writes the map, or
gives them back after a failed write. -/
theorem allocateInto_cases (m : FreeMap) (cnt sectorp : Nat) (file : m.file.isSome) :
    m.allocateInto cnt sectorp = (m, sectorp, false) ∨
      ∃ sector, m.ClearFrom sector cnt ∧
        bitmapScan m.used cnt 0 (m.size + 1 - cnt) = some sector ∧
        (m.writeFails m.writes = none ∧ m.allocateInto cnt sectorp =
            ((m.setMultiple sector cnt true).bitmapWrite.1, sector, true) ∨
          ∃ bits, m.writeFails m.writes = some bits ∧ m.allocateInto cnt sectorp =
            ({ m with file := some bits, writes := m.writes + 1 }, sectorp, false)) := by
  obtain ⟨old, open_⟩ := Option.isSome_iff_exists.mp file
  cases scan : bitmapScan m.used cnt 0 (m.size + 1 - cnt) with
  | none =>
    left
    rw [allocateInto, allocate, scan]
  | some sector =>
    right
    obtain ⟨-, high, clear⟩ := bitmapScan_clear scan
    have range : m.ClearFrom sector cnt := ⟨by omega, clear⟩
    refine ⟨sector, range, rfl, ?_⟩
    cases fails : m.writeFails m.writes with
    | none =>
      refine .inl ⟨rfl, ?_⟩
      simp only [allocateInto, allocate, scan, setMultiple, open_, bitmapWrite, fails, if_true]
    | some bits =>
      refine .inr ⟨bits, rfl, ?_⟩
      have undo := range.undo
      simp only [setMultiple] at undo
      simp only [allocateInto, allocate, scan, setMultiple, open_, bitmapWrite, fails, undo,
        Bool.false_eq_true, if_false]

theorem release_cases {m' : FreeMap} (h : m.release sector cnt = .ok m') :
    m' = (m.setMultiple sector cnt false).bitmapWrite.1 := by
  rw [release] at h
  split at h
  next =>
    split at h
    next => cases h
    next => exact (Except.ok.inj h).symm
  next => cases h

end FreeMap

/-- The free map, whether its file is open, and the ranges that are allocated and not yet released,
by first sector and count. -/
structure Allocations where
  map : FreeMap
  isOpen : Bool
  held : List (Nat × Nat)

/-- A sector of a range. -/
def InRange (r : Nat × Nat) (t : Nat) : Prop := r.1 ≤ t ∧ t < r.1 + r.2

namespace Allocations

inductive Call
  | allocate (cnt sectorp : Nat)
  | release (sector cnt : Nat)
  | close
  | open_

/-- One call.  The map is used and closed while its file is open, ranges are released that are held,
and there is no next state after a fault. -/
def step (st : Allocations) : Call → Option Allocations
  | .allocate cnt sectorp =>
    if st.isOpen then
      match st.map.allocateInto cnt sectorp with
      | (map, sector, true) => some { st with map := map, held := (sector, cnt) :: st.held }
      | (map, _, false) => some { st with map := map }
    else none
  | .release sector cnt =>
    if st.isOpen ∧ (sector, cnt) ∈ st.held then
      match st.map.release sector cnt with
      | .ok map => some { st with map := map, held := st.held.erase (sector, cnt) }
      | .error _ => none
    else none
  | .close => if st.isOpen then some { st with isOpen := false } else none
  | .open_ =>
    if st.isOpen then none else some { st with map := st.map.bitmapRead, isOpen := true }

/-- Allocations are of some sectors, and a `bitmap_write` that fails leaves old and new bits. -/
def Allowed (st : Allocations) : Call → Prop
  | .allocate cnt _ => 0 < cnt ∧ ∀ sector,
    FreeMap.bitmapScan st.map.used cnt 0 (st.map.size + 1 - cnt) = some sector →
      (st.map.setMultiple sector cnt true).WritesBits
  | .release sector cnt => (st.map.setMultiple sector cnt false).WritesBits
  | .close | .open_ => True

/-- What is held, and what was marked to begin with, is marked in memory and in the file, and held
once. -/
structure Inv (reserved : Nat → Prop) (st : Allocations) : Prop where
  file : st.map.file.isSome
  marked : ∀ r ∈ st.held, ∀ t, InRange r t → st.map.Marked t
  kept : ∀ t, reserved t → st.map.Marked t
  apart : st.held.Pairwise fun r r' => ∀ t, InRange r t → ¬InRange r' t
  away : ∀ r ∈ st.held, ∀ t, InRange r t → ¬reserved t
  inside : ∀ r ∈ st.held, r.1 + r.2 ≤ st.map.size

section Step

variable {reserved : Nat → Prop} {st st' : Allocations}

/-- The map may change as long as the marks in use stay. -/
theorem Inv.keep (h : Inv reserved st) {map : FreeMap} (file : map.file.isSome)
    (size : map.size = st.map.size) (marks : ∀ t, st.map.Marked t → map.Marked t) :
    Inv reserved { st with map := map } :=
  ⟨file, fun r hr t range => marks t (h.marked r hr t range), fun t ht => marks t (h.kept t ht),
    h.apart, h.away, fun r hr => size ▸ h.inside r hr⟩

theorem Inv.allocate (h : Inv reserved st) {cnt sectorp : Nat}
    (allowed : st.Allowed (.allocate cnt sectorp))
    (run : st.step (.allocate cnt sectorp) = some st') : Inv reserved st' := by
  obtain ⟨old, file⟩ := Option.isSome_iff_exists.mp h.file
  rw [step] at run
  split at run
  swap
  · cases run
  rcases st.map.allocateInto_cases cnt sectorp h.file with
    full | ⟨sector, clear, scan, ⟨wrote, taken⟩ | ⟨bits, fails, undone⟩⟩
  · rw [full] at run
    obtain rfl := Option.some.inj run
    exact h
  · rw [taken] at run
    obtain rfl := Option.some.inj run
    obtain ⟨size, used, -⟩ := (st.map.setMultiple sector cnt true).bitmapWrite_same
    have kept := h.keep (FreeMap.bitmapWrite_file _) size fun t marked =>
      FreeMap.bitmapWrite_marked (allowed.2 sector scan) (FreeMap.setMultiple_set marked.1)
        ⟨old, file, marked.2 old file⟩
    have fresh : ∀ t, InRange (sector, cnt) t → ¬st.map.Marked t :=
      fun t range marked => clear.not_used range marked.1
    refine ⟨kept.file, ?_, kept.kept, ?_, ?_, ?_⟩
    · refine List.forall_mem_cons.mpr ⟨fun t range => ?_, kept.marked⟩
      have set : (st.map.setMultiple sector cnt true).bitmapWrite.1.used t = true :=
        used ▸ FreeMap.setMultiple_in range
      refine ⟨set, fun bits same => ?_⟩
      have eq := same.symm.trans (FreeMap.bitmapWrite_file_of_succeeds wrote)
      exact Option.some.inj eq ▸ set
    · exact List.pairwise_cons.mpr
        ⟨fun r hr t range other => fresh t range (h.marked r hr t other), h.apart⟩
    · exact List.forall_mem_cons.mpr
        ⟨fun t range held => fresh t range (h.kept t held), h.away⟩
    · exact List.forall_mem_cons.mpr ⟨size.symm ▸ clear.1, kept.inside⟩
  · rw [undone] at run
    obtain rfl := Option.some.inj run
    refine h.keep rfl rfl fun t marked => ⟨marked.1, fun left same => ?_⟩
    obtain rfl := Option.some.inj same
    rcases allowed.2 sector scan old bits file fails t with eq | eq
    · rw [eq]
      exact marked.2 old file
    · rw [eq]
      exact FreeMap.setMultiple_set marked.1

theorem Inv.release (h : Inv reserved st) {sector cnt : Nat}
    (allowed : st.Allowed (.release sector cnt))
    (run : st.step (.release sector cnt) = some st') : Inv reserved st' := by
  obtain ⟨old, file⟩ := Option.isSome_iff_exists.mp h.file
  rw [step] at run
  split at run
  swap
  · cases run
  next guard =>
    split at run
    swap
    · cases run
    next map released =>
      obtain rfl := Option.some.inj run
      obtain rfl := FreeMap.release_cases released
      obtain ⟨size, -, -⟩ := (st.map.setMultiple sector cnt false).bitmapWrite_same
      have perm := List.perm_cons_erase guard.2
      have apart := (List.pairwise_cons.mp (perm.pairwise h.apart fun other t range range' =>
        other t range' range)).1
      have others : ∀ t, ¬InRange (sector, cnt) t → st.map.Marked t →
          (st.map.setMultiple sector cnt false).bitmapWrite.1.Marked t := fun t out marked =>
        FreeMap.bitmapWrite_marked allowed ((FreeMap.setMultiple_out out).trans marked.1)
          ⟨old, file, marked.2 old file⟩
      refine ⟨FreeMap.bitmapWrite_file _, fun r hr t range => ?_, fun t held => ?_,
        h.apart.sublist (List.erase_sublist ..), fun r hr => h.away r (List.mem_of_mem_erase hr),
        fun r hr => ?_⟩
      · exact others t (fun same => apart r hr t same range)
          (h.marked r (List.mem_of_mem_erase hr) t range)
      · exact others t (fun same => h.away _ guard.2 t same held) (h.kept t held)
      · rw [size]
        exact h.inside r (List.mem_of_mem_erase hr)

theorem Inv.step (h : Inv reserved st) {call : Call} (allowed : st.Allowed call)
    (run : st.step call = some st') : Inv reserved st' := by
  cases call with
  | allocate cnt sectorp => exact h.allocate allowed run
  | release sector cnt => exact h.release allowed run
  | close =>
    rw [Allocations.step] at run
    split at run
    · obtain rfl := Option.some.inj run
      exact ⟨h.file, h.marked, h.kept, h.apart, h.away, h.inside⟩
    · cases run
  | open_ =>
    rw [Allocations.step] at run
    split at run
    · cases run
    · obtain rfl := Option.some.inj run
      obtain ⟨size, file, marks⟩ := st.map.bitmapRead_same
      have kept := h.keep (file ▸ h.file) size marks
      exact ⟨kept.file, kept.marked, kept.kept, kept.apart, kept.away, kept.inside⟩

end Step

end Allocations

/-- The map that `free_map_create` leaves has the sectors 0 and 1 marked, and is in the file. -/
theorem freeMapCreate_starts {dev : Nat → Words.Bytes} {bitmap m : FreeMap}
    (create : freeMapCreate dev bitmap = some m) :
    m.file = some m.used ∧ m.used 0 = true ∧ m.used 1 = true := by
  rw [freeMapCreate] at create
  split at create
  next => cases create
  next fs made =>
    dsimp only at create
    split at create
    swap
    · cases create
    next wrote =>
      obtain rfl := Option.some.inj create
      obtain ⟨⟨fs₁, d⟩, grown, put⟩ := bind_ok made
      obtain rfl := Except.ok.inj put
      have calls := fileGrowth_calls (.inr rfl) grown
      obtain ⟨-, used, -⟩ := fs₁.free.bitmapWrite_same
      have sets : ∀ s, (freeMapInit bitmap).used s = true →
          fs₁.free.bitmapWrite.1.used s = true := by
        intro s set
        rw [used, calls]
        exact FreeMap.allocs_sets set
      refine ⟨FreeMap.bitmapWrite_file_of_succeeds ?_, sets 0 rfl, sets 1 rfl⟩
      change fs₁.free.bitmapWrite.2 = true at wrote
      rw [FreeMap.bitmapWrite] at wrote
      split at wrote
      next succeeds => exact succeeds
      next => cases wrote

/-- What a call of `free_map_allocate` does while the free-map file is open: it returns sectors that
were clear and marks them, with the file as the memory is, or it changes nothing in memory. -/
def AllocatesClear (m : FreeMap) (cnt sectorp : Nat) : Prop :=
  let result := m.allocateInto cnt sectorp
  (result.2.2 = true → m.ClearFrom result.2.1 cnt ∧
    result.1.used = (m.setMultiple result.2.1 cnt true).used ∧
    result.1.file = some result.1.used) ∧
  (result.2.2 = false → result.1.used = m.used ∧ result.2.1 = sectorp)

/-- What a call of `free_map_release` does: it comes past its assertion and clears the sectors, with
the file as the memory is if the write succeeds. -/
def ReleasesMarked (m : FreeMap) (sector cnt : Nat) : Prop :=
  ∃ m', m.release sector cnt = .ok m' ∧ m'.used = (m.setMultiple sector cnt false).used ∧
    (m.writeFails m.writes = none → m'.file = some m'.used)

theorem allocatesClear {m : FreeMap} (file : m.file.isSome) (cnt sectorp : Nat) :
    AllocatesClear m cnt sectorp := by
  rw [AllocatesClear]
  rcases m.allocateInto_cases cnt sectorp file with
    full | ⟨sector, clear, -, ⟨wrote, taken⟩ | ⟨bits, -, undone⟩⟩
  · simp [full]
  · obtain ⟨-, used, -⟩ := (m.setMultiple sector cnt true).bitmapWrite_same
    have stored := FreeMap.bitmapWrite_file_of_succeeds (m := m.setMultiple sector cnt true) wrote
    simp only [taken]
    exact ⟨fun _ => ⟨clear, used, stored⟩, fun no => nomatch no⟩
  · simp [undone]

theorem Allocations.Inv.releasesMarked {reserved : Nat → Prop} {st : Allocations}
    (h : Inv reserved st) {r : Nat × Nat} (hr : r ∈ st.held) : ReleasesMarked st.map r.1 r.2 := by
  obtain ⟨old, file⟩ := Option.isSome_iff_exists.mp h.file
  have all : (List.range r.2).all (fun i => st.map.used (r.1 + i)) = true := by
    refine List.all_eq_true.mpr fun i hi => (h.marked r hr (r.1 + i) ⟨by omega, ?_⟩).1
    have := List.mem_range.mp hi
    omega
  refine ⟨(st.map.setMultiple r.1 r.2 false).bitmapWrite.1, ?_,
    (st.map.setMultiple r.1 r.2 false).bitmapWrite_same.2.1, fun succeeds => ?_⟩
  · rw [FreeMap.release, if_pos ⟨h.inside r hr, all⟩, file]
  · exact FreeMap.bitmapWrite_file_of_succeeds (m := st.map.setMultiple r.1 r.2 false) succeeds

/-- A device of ten sectors. -/
def freshMap : FreeMap where
  size := 10
  used := fun _ => false
  file := none
  writeFails := fun _ => none
  writes := 0
  small := by decide

def createdMap : FreeMap := (freeMapCreate (fun _ _ => 0) freshMap).get rfl

end Pintos.Filesys
