import Mathlib.Algebra.Group.Nat.Defs
import Mathlib.Data.List.Basic
import Mathlib.Logic.Function.Basic

/-! The free map of `free-map.c`: first-fit allocation of sectors in a bitmap that is written to
the free-map file after every change. -/

namespace Pintos.Filesys

/-- What stops the kernel: an `ASSERT`, a null pointer, or a subscript outside an index block. -/
inductive Fault
  | notAllocated
  | noFile
  | subscript
  deriving DecidableEq

/-- The bitmap with the contents of the free-map file, once that is open.  `writeFails n` says what
the `n`th `bitmap_write` leaves in the file when it fails, and `writes` counts the calls. -/
structure FreeMap where
  size : Nat
  used : Nat → Bool
  file : Option (Nat → Bool)
  writeFails : Nat → Option (Nat → Bool)
  writes : Nat
  small : size ≤ 2 ^ 32

namespace FreeMap

/-- `bitmap_scan` for `cnt` clear bits from `start` on, with `fuel` places left to try. -/
def bitmapScan (used : Nat → Bool) (cnt : Nat) : Nat → Nat → Option Nat
  | _, 0 => none
  | start, fuel + 1 =>
    if (List.range cnt).all fun i => !used (start + i) then some start
    else bitmapScan used cnt (start + 1) fuel

def setMultiple (m : FreeMap) (start cnt : Nat) (value : Bool) : FreeMap :=
  { m with used := fun s => if start ≤ s ∧ s < start + cnt then value else m.used s }

/-- `bitmap_write (free_map, free_map_file)`. -/
def bitmapWrite (m : FreeMap) : FreeMap × Bool :=
  match m.writeFails m.writes with
  | none => ({ m with file := some m.used, writes := m.writes + 1 }, true)
  | some bits => ({ m with file := some bits, writes := m.writes + 1 }, false)

/-- `free_map_allocate`, which returns the first sector or leaves `*sectorp` alone. -/
def allocate (m : FreeMap) (cnt : Nat) : FreeMap × Option Nat :=
  match bitmapScan m.used cnt 0 (m.size + 1 - cnt) with
  | none => (m, none)
  | some sector =>
    let m := m.setMultiple sector cnt true
    match m.file with
    | none => (m, some sector)
    | some _ =>
      let result := m.bitmapWrite
      if result.2 then (result.1, some sector)
      else (result.1.setMultiple sector cnt false, none)

def release (m : FreeMap) (sector cnt : Nat) : Except Fault FreeMap :=
  if sector + cnt ≤ m.size ∧ ((List.range cnt).all fun i => m.used (sector + i)) = true then
    match m.file with
    | none => .error .noFile
    | some _ => .ok (m.setMultiple sector cnt false).bitmapWrite.1
  else .error .notAllocated

/-- A sector of the device that the map does not mark. -/
def Free (m : FreeMap) (s : Nat) : Prop := s < m.size ∧ m.used s = false

/-- A sector of the device that the map marks. -/
def Used (m : FreeMap) (s : Nat) : Prop := s < m.size ∧ m.used s = true

def freeCount (m : FreeMap) : Nat := (List.range m.size).countP fun s => !m.used s

/-- `bitmap_write` does not fail. -/
def Writable (m : FreeMap) : Prop := ∀ n, m.writeFails n = none

/-- The free-map file, once open, has the bitmap. -/
def Synced (m : FreeMap) : Prop := ∀ bits, m.file = some bits → bits = m.used

theorem not_used_of_free {m : FreeMap} {s : Nat} (h : m.Free s) : ¬m.Used s := by
  rintro ⟨_, used⟩
  rw [h.2] at used
  exact nomatch used

theorem bitmapScan_clear {used : Nat → Bool} {cnt start fuel s : Nat}
    (h : bitmapScan used cnt start fuel = some s) :
    start ≤ s ∧ s < start + fuel ∧ ∀ i < cnt, used (s + i) = false := by
  induction fuel generalizing start with
  | zero => exact nomatch h
  | succ fuel ih =>
    rw [bitmapScan] at h
    split at h
    next clear =>
      obtain rfl := Option.some.inj h
      exact ⟨Nat.le_refl _, by omega, by simpa using clear⟩
    next =>
      obtain ⟨low, high, clear⟩ := ih h
      exact ⟨by omega, by omega, clear⟩

theorem bitmapScan_one {used : Nat → Bool} {start fuel s : Nat}
    (h : bitmapScan used 1 start fuel = some s) :
    start ≤ s ∧ s < start + fuel ∧ used s = false := by
  obtain ⟨low, high, clear⟩ := bitmapScan_clear h
  exact ⟨low, high, clear 0 Nat.one_pos⟩

theorem bitmapScan_one_ne_none {used : Nat → Bool} {start fuel s : Nat} (low : start ≤ s)
    (high : s < start + fuel) (clear : used s = false) : bitmapScan used 1 start fuel ≠ none := by
  induction fuel generalizing start with
  | zero => omega
  | succ fuel ih =>
    rw [bitmapScan]
    split
    next => exact Option.some_ne_none _
    next taken =>
      have ne : s ≠ start := by
        rintro rfl
        simp [clear] at taken
      exact ih (by omega) (by omega)

/-- `m'` is `m` with one more sector `s` marked. -/
structure Takes (m m' : FreeMap) (s : Nat) : Prop where
  free : m.Free s
  size : m'.size = m.size
  used : m'.used = Function.update m.used s true
  fails : m'.writeFails = m.writeFails
  file : m'.file.isSome = m.file.isSome
  synced : m.Synced → m'.Synced

theorem setMultiple_one (m : FreeMap) (s : Nat) (value : Bool) :
    (m.setMultiple s 1 value).used = Function.update m.used s value := by
  funext t
  rw [Function.update_apply]
  have same : (s ≤ t ∧ t < s + 1) ↔ t = s := by omega
  simp only [setMultiple, same]

/-- While sectors are free, an allocation takes one of them. -/
theorem allocate_takes {m : FreeMap} (writable : m.Writable) (room : 0 < m.freeCount) :
    ∃ m' s, m.allocate 1 = (m', some s) ∧ m.Takes m' s := by
  obtain ⟨t, mem, clear⟩ := List.countP_pos_iff.mp room
  rw [Bool.not_eq_true'] at clear
  rw [List.mem_range] at mem
  obtain ⟨s, scan⟩ := Option.ne_none_iff_exists'.mp
    (bitmapScan_one_ne_none (Nat.zero_le t) (by omega) clear :
      bitmapScan m.used 1 0 (m.size + 1 - 1) ≠ none)
  obtain ⟨_, high, clear⟩ := bitmapScan_one scan
  have free : m.Free s := ⟨by omega, clear⟩
  rw [allocate, scan]
  dsimp only
  split
  next none =>
    refine ⟨_, s, rfl, free, rfl, setMultiple_one m s true, rfl, rfl, fun _ bits some => ?_⟩
    exact nomatch none.symm.trans some
  next copy some =>
    have written : (m.setMultiple s 1 true).bitmapWrite =
        ({ m.setMultiple s 1 true with
          file := Option.some (m.setMultiple s 1 true).used, writes := m.writes + 1 }, true) := by
      rw [bitmapWrite]
      split
      next => rfl
      next bits fails => exact nomatch (writable m.writes).symm.trans fails
    rw [written]
    refine ⟨_, s, rfl, free, rfl, setMultiple_one m s true, rfl, ?_,
      fun _ bits same => (Option.some.inj same).symm⟩
    have open_ : m.file = Option.some copy := some
    simp [open_]

theorem allocate_full {m : FreeMap} (full : m.freeCount = 0) : m.allocate 1 = (m, none) := by
  rw [allocate]
  cases scan : bitmapScan m.used 1 0 (m.size + 1 - 1) with
  | none => rfl
  | some s =>
    obtain ⟨_, high, clear⟩ := bitmapScan_one scan
    have taken := List.countP_eq_zero.mp full s (List.mem_range.mpr (by omega))
    simp [clear] at taken

theorem allocate_lt {m m' : FreeMap} {s : Nat} (h : m.allocate 1 = (m', some s)) : s < m.size := by
  rw [allocate] at h
  cases scan : bitmapScan m.used 1 0 (m.size + 1 - 1) with
  | none =>
    rw [scan] at h
    cases h
  | some t =>
    obtain ⟨_, high, _⟩ := bitmapScan_one scan
    rw [scan] at h
    simp only at h
    split at h
    next =>
      obtain rfl := Option.some.inj (Prod.mk.inj h).2
      omega
    next =>
      split at h
      next =>
        obtain rfl := Option.some.inj (Prod.mk.inj h).2
        omega
      next => cases (Prod.mk.inj h).2

theorem bitmapWrite_same (m : FreeMap) :
    m.bitmapWrite.1.size = m.size ∧ m.bitmapWrite.1.used = m.used ∧
      m.bitmapWrite.1.writeFails = m.writeFails := by
  rw [bitmapWrite]
  split <;> exact ⟨rfl, rfl, rfl⟩

/-- A release takes the mark from its sector, which was marked. -/
theorem release_used {m m' : FreeMap} {s : Nat} (h : m.release s 1 = .ok m') :
    m.Used s ∧ ∀ t, m'.Used t ↔ m.Used t ∧ t ≠ s := by
  rw [release] at h
  split at h
  next marked =>
    split at h
    next => cases h
    next =>
      obtain rfl := Except.ok.inj h
      obtain ⟨size, used, -⟩ := (m.setMultiple s 1 false).bitmapWrite_same
      refine ⟨⟨by omega, by simpa using marked.2⟩, fun t => ?_⟩
      rw [Used, size, used, setMultiple_one, Function.update_apply]
      show t < m.size ∧ _ ↔ _
      by_cases eq : t = s
      · simp [eq]
      · simp [eq, Used]
  next => cases h

theorem release_update {m m' : FreeMap} {s : Nat} (h : m.release s 1 = .ok m') :
    m'.used = Function.update m.used s false := by
  rw [release] at h
  split at h
  next =>
    split at h
    next => cases h
    next =>
      obtain rfl := Except.ok.inj h
      rw [(m.setMultiple s 1 false).bitmapWrite_same.2.1, setMultiple_one]
  next => cases h

/-- A release leaves the other sectors as they are. -/
theorem release_one {m m' : FreeMap} {s : Nat} (h : m.release s 1 = .ok m') :
    (∀ t, t ≠ s → m.Used t → m'.Used t) ∧ (m.Writable → m'.Writable) := by
  refine ⟨fun t ne marked => ((release_used h).2 t).mpr ⟨marked, ne⟩, fun writable => ?_⟩
  rw [release] at h
  split at h
  next =>
    split at h
    next => exact nomatch h
    next =>
      obtain rfl := Except.ok.inj h
      obtain ⟨-, -, fails⟩ := (m.setMultiple s 1 false).bitmapWrite_same
      rw [Writable, fails]
      exact writable
  next => exact nomatch h

theorem bitmapWrite_file (m : FreeMap) : m.bitmapWrite.1.file.isSome := by
  rw [bitmapWrite]
  split <;> rfl

theorem synced_bitmapWrite {m : FreeMap} (writable : m.Writable) : m.bitmapWrite.1.Synced := by
  rw [bitmapWrite, writable m.writes]
  exact fun bits same => (Option.some.inj same).symm

/-- A sector in use is released, and the free-map file is up to date then. -/
theorem release_of_used {m : FreeMap} {s : Nat} (used : m.Used s) (file : m.file.isSome) :
    ∃ m', m.release s 1 = .ok m' := by
  obtain ⟨bits, some⟩ := Option.isSome_iff_exists.mp file
  refine ⟨(m.setMultiple s 1 false).bitmapWrite.1, ?_⟩
  rw [release, if_pos ⟨used.1, by simp [used.2]⟩, some]

theorem release_synced {m m' : FreeMap} {s cnt : Nat} (h : m.release s cnt = .ok m') :
    m'.file.isSome ∧ (m'.Writable → m'.Synced) := by
  rw [release] at h
  split at h
  next =>
    split at h
    next => cases h
    next =>
      obtain rfl := Except.ok.inj h
      obtain ⟨_, _, fails⟩ := (m.setMultiple s cnt false).bitmapWrite_same
      refine ⟨bitmapWrite_file _, fun writable => synced_bitmapWrite ?_⟩
      rw [Writable, fails] at writable
      exact writable
  next => cases h

namespace Takes

variable {m m' : FreeMap} {s : Nat}

theorem used_iff (h : m.Takes m' s) (t : Nat) : m'.Used t ↔ m.Used t ∨ t = s := by
  unfold Used
  rw [h.size, h.used, Function.update_apply]
  split
  next same =>
    subst same
    simp [h.free.1]
  next ne => simp [ne]

theorem free_iff (h : m.Takes m' s) (t : Nat) : m'.Free t ↔ m.Free t ∧ t ≠ s := by
  unfold Free
  rw [h.size, h.used, Function.update_apply]
  split
  next same => simp [same]
  next ne => simp [ne]

theorem writable (h : m.Takes m' s) (w : m.Writable) : m'.Writable := by
  unfold Writable
  rw [h.fails]
  exact w

theorem freeCount_succ (h : m.Takes m' s) : m'.freeCount + 1 = m.freeCount := by
  obtain ⟨pre, post, eq⟩ := List.append_of_mem (List.mem_range.mpr h.free.1)
  have nodup : (pre ++ s :: post).Nodup := eq ▸ List.nodup_range
  have same : ∀ list : List Nat, s ∉ list →
      list.countP (fun t => !m'.used t) = list.countP fun t => !m.used t := by
    intro list absent
    refine List.countP_congr fun t mem => ?_
    have ne : t ≠ s := by
      rintro rfl
      exact absent mem
    rw [h.used, Function.update_of_ne ne]
  have absent_pre : s ∉ pre := fun mem =>
    (List.nodup_append.mp nodup).2.2 s mem s List.mem_cons_self rfl
  have absent_post : s ∉ post := (List.nodup_cons.mp (List.nodup_append.mp nodup).2.1).1
  unfold freeCount
  rw [h.size, eq, List.countP_append, List.countP_append, List.countP_cons, List.countP_cons,
    same pre absent_pre, same post absent_post, h.free.2, h.used, Function.update_self]
  simp only [Bool.not_true, Bool.not_false, Bool.false_eq_true, if_false, if_true]
  omega

end Takes

section Calls

/-- The map after `n` calls of `free_map_allocate` for one sector each. -/
def allocs : Nat → FreeMap → FreeMap
  | 0, m => m
  | n + 1, m => allocs n (m.allocate 1).1

/-- One of the next `n` of these calls returns false. -/
def Refuses (m : FreeMap) (n : Nat) : Prop := ∃ k < n, ((m.allocs k).allocate 1).2 = none

variable {m : FreeMap} {n s : Nat}

theorem allocs_add (n k : Nat) (m : FreeMap) : allocs (n + k) m = allocs k (allocs n m) := by
  induction n generalizing m with
  | zero => rw [Nat.zero_add, allocs]
  | succ n ih => rw [Nat.succ_add, allocs, ih, allocs]

/-- A call marks one sector, or no sector. -/
theorem allocate_used (m : FreeMap) :
    (m.allocate 1).1.size = m.size ∧ (m.allocate 1).1.writeFails = m.writeFails ∧
      ((m.allocate 1).1.used = m.used ∨
        ∃ s, m.Free s ∧ (m.allocate 1).1.used = Function.update m.used s true) := by
  rw [allocate]
  cases scan : bitmapScan m.used 1 0 (m.size + 1 - 1) with
  | none => exact ⟨rfl, rfl, .inl rfl⟩
  | some s =>
    obtain ⟨_, high, clear⟩ := bitmapScan_one scan
    have free : m.Free s := ⟨by omega, clear⟩
    obtain ⟨size, used, fails⟩ := (m.setMultiple s 1 true).bitmapWrite_same
    dsimp only
    split
    next => exact ⟨rfl, rfl, .inr ⟨s, free, setMultiple_one m s true⟩⟩
    next =>
      split
      next => exact ⟨size, fails, .inr ⟨s, free, used.trans (setMultiple_one m s true)⟩⟩
      next =>
        refine ⟨size, fails, .inl ?_⟩
        rw [setMultiple_one, used, setMultiple_one, Function.update_idem, ← clear,
          Function.update_eq_self]

theorem allocate_sets (h : m.used s = true) : (m.allocate 1).1.used s = true := by
  obtain ⟨_, _, same | ⟨t, _, used⟩⟩ := m.allocate_used
  · rw [same]
    exact h
  · rw [used, Function.update_apply]
    split
    next => rfl
    next => exact h

theorem allocs_sets (h : m.used s = true) : (m.allocs n).used s = true := by
  induction n generalizing m with
  | zero => exact h
  | succ n ih => exact ih (allocate_sets h)

theorem allocs_same (n : Nat) (m : FreeMap) :
    (m.allocs n).size = m.size ∧ (m.allocs n).writeFails = m.writeFails := by
  induction n generalizing m with
  | zero => exact ⟨rfl, rfl⟩
  | succ n ih =>
    obtain ⟨size, fails, _⟩ := m.allocate_used
    obtain ⟨size', fails'⟩ := ih (m.allocate 1).1
    exact ⟨size'.trans size, fails'.trans fails⟩

theorem allocs_keeps (h : m.Used s) : (m.allocs n).Used s :=
  ⟨(allocs_same n m).1 ▸ h.1, allocs_sets h.2⟩

/-- What is free after calls was free before them. -/
theorem free_of_allocs (h : (m.allocs n).Free s) : m.Free s := by
  obtain ⟨inside, clear⟩ := h
  rw [(allocs_same n m).1] at inside
  refine ⟨inside, Bool.eq_false_iff.mpr fun marked => ?_⟩
  have kept : (m.allocs n).Used s := allocs_keeps ⟨inside, marked⟩
  rw [kept.2] at clear
  cases clear

/-- The calls mark at most one sector each. -/
theorem allocs_marks (n : Nat) (m : FreeMap) :
    ∃ marked : List Nat, marked.length ≤ n ∧ ∀ s, (m.allocs n).Used s → m.Used s ∨ s ∈ marked := by
  induction n generalizing m with
  | zero => exact ⟨[], Nat.le_refl 0, fun s used => .inl used⟩
  | succ n ih =>
    obtain ⟨marked, few, rest⟩ := ih (m.allocate 1).1
    obtain ⟨size, _, same | ⟨t, free, used⟩⟩ := m.allocate_used
    · refine ⟨marked, Nat.le_succ_of_le few, fun s h => ?_⟩
      apply (rest s h).imp_left
      rw [Used, size, same]
      exact id
    · refine ⟨t :: marked, Nat.succ_le_succ few, fun s h => ?_⟩
      rcases rest s h with before | mem
      · rw [Used, size, used, Function.update_apply] at before
        by_cases eq : s = t
        · exact .inr (eq ▸ List.mem_cons_self)
        · rw [if_neg eq] at before
          exact .inl before
      · exact .inr (List.mem_cons_of_mem t mem)

theorem allocs_writable (h : m.Writable) : (m.allocs n).Writable := by
  rw [Writable, (allocs_same n m).2]
  exact h

theorem allocs_freeCount (writable : m.Writable) (enough : n ≤ m.freeCount) :
    (m.allocs n).freeCount + n = m.freeCount := by
  induction n generalizing m with
  | zero => rfl
  | succ n ih =>
    obtain ⟨m', s, alloc, takes⟩ := allocate_takes writable (by omega)
    have fewer := takes.freeCount_succ
    have rest := ih (takes.writable writable) (by omega)
    simp only [allocs, alloc]
    omega

end Calls

end FreeMap

end Pintos.Filesys
