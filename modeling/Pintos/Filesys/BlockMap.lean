import Pintos.Filesys.Inode

/-! The sectors that an inode refers to, by the role they have in its block map.  `Maps` says that
a set of roles is mapped to distinct used sectors, and `Grown` follows such a set through the
allocations of `file_growth`. -/

namespace Pintos.Filesys

open Words

/-- What a sector is for an inode: a block of data, or an index. -/
inductive Role
  | data (b : Nat)
  | ind
  | din
  | second (i : Nat)
  deriving DecidableEq

namespace Role

/-- The index that has the pointer to a sector of this role, and the subscript of the pointer. -/
def slot : Role → Option (Role × Nat)
  | .ind | .din => none
  | .second i => some (.din, i)
  | .data b =>
    if b = 0 then none
    else if b < 129 then some (.ind, b - 1)
    else some (.second ((b - 129) / 128), (b - 129) % 128)

theorem slot_single {b : Nat} (low : 1 ≤ b) (high : b < 129) :
    (Role.data b).slot = some (.ind, b - 1) := by
  rw [slot, if_neg (by omega), if_pos high]

theorem slot_double {b : Nat} (low : 129 ≤ b) :
    (Role.data b).slot = some (.second ((b - 129) / 128), (b - 129) % 128) := by
  rw [slot, if_neg (by omega), if_neg (by omega)]

def IsIndex : Role → Prop
  | .data _ => False
  | _ => True

theorem slot_inj {r r' : Role} {x : Role × Nat} (h : r.slot = some x) (h' : r'.slot = some x) :
    r = r' := by
  unfold slot at h h'
  cases r <;> cases r' <;> simp only at h h' <;> grind

theorem isIndex_of_slot {r R : Role} {k : Nat} (h : r.slot = some (R, k)) : R.IsIndex := by
  unfold slot at h
  cases r <;> simp only at h <;> grind [IsIndex]

/-- The roles of a file of `b` blocks. -/
def Upto (b : Nat) : Role → Prop
  | .data c => c < b
  | .ind => 1 < b
  | .din => 129 < b
  | .second i => 129 + 128 * i < b

instance (b : Nat) : DecidablePred (Upto b)
  | .data _ | .ind | .din | .second _ => inferInstanceAs (Decidable (_ < _))

theorem Upto.mono {b b' : Nat} (le : b ≤ b') {r : Role} (h : Upto b r) : Upto b' r := by
  cases r <;> simp only [Upto] at h ⊢ <;> omega

theorem Upto.closed {b k : Nat} {r R : Role} (h : Upto b r) (slot : r.slot = some (R, k)) :
    Upto b R := by
  unfold Role.slot at slot
  cases r <;> simp only [Upto] at h slot <;> grind [Upto]

theorem Upto.subscript {b k : Nat} {r R : Role} (h : Upto b r) (bound : b ≤ 16513)
    (slot : r.slot = some (R, k)) : k < 128 := by
  unfold Role.slot at slot
  cases r <;> simp only [Upto] at h slot <;> grind

end Role

/-- The sector that the pointers of an inode give for a role. -/
def sectorAt (fs : Fs) (ino : InodeDisk) : Role → Nat
  | .ind => ino.ind
  | .din => ino.din
  | .second i => getWord (fs.data ino.din) i
  | .data b =>
    if b = 0 then ino.sp
    else if b < 129 then getWord (fs.data ino.ind) (b - 1)
    else getWord (fs.data (getWord (fs.data ino.din) ((b - 129) / 128))) ((b - 129) % 128)

theorem sectorAt_slot (fs : Fs) (ino : InodeDisk) {r R : Role} {k : Nat}
    (h : r.slot = some (R, k)) :
    sectorAt fs ino r = getWord (fs.data (sectorAt fs ino R)) k := by
  unfold Role.slot at h
  cases r <;> simp only at h <;> grind [sectorAt]

/-- A pointer that is in no index does not depend on the sectors. -/
theorem sectorAt_direct (fs fs' : Fs) (ino : InodeDisk) {r : Role} (h : r.slot = none) :
    sectorAt fs' ino r = sectorAt fs ino r := by
  unfold Role.slot at h
  cases r <;> simp only at h <;> grind [sectorAt]

theorem Fs.index_of_lt (fs : Fs) (table : Nat) {k : Nat} (h : k < 128) :
    fs.index table k = .ok (getWord (fs.data table) k) := if_pos h

/-- The roles of `U` are mapped to distinct used sectors, and so are the indexes on the way. -/
structure Maps (fs : Fs) (ino : InodeDisk) (U : Role → Prop) : Prop where
  closed : ∀ r R k, U r → r.slot = some (R, k) → U R ∧ k < 128
  used : ∀ r, U r → fs.free.Used (sectorAt fs ino r)
  distinct : ∀ r r', U r → U r' → sectorAt fs ino r = sectorAt fs ino r' → r = r'

/-- The roles of `U` are mapped to distinct sectors, and so are the indexes on the way, whatever the
free map says of them. -/
structure Layout (fs : Fs) (ino : InodeDisk) (U : Role → Prop) : Prop where
  closed : ∀ r R k, U r → r.slot = some (R, k) → U R ∧ k < 128
  distinct : ∀ r r', U r → U r' → sectorAt fs ino r = sectorAt fs ino r' → r = r'

theorem Maps.layout {fs : Fs} {ino : InodeDisk} {U : Role → Prop} (h : Maps fs ino U) :
    Layout fs ino U := ⟨h.closed, h.distinct⟩

/-- Roles keep their sectors when the pointers to them stay. -/
theorem sectorAt_congr {fs fs' : Fs} {ino ino' : InodeDisk} {U : Role → Prop}
    (closed : ∀ r R k, U r → r.slot = some (R, k) → U R)
    (direct : ∀ r, U r → r.slot = none → sectorAt fs' ino' r = sectorAt fs ino r)
    (words : ∀ r R k, U r → r.slot = some (R, k) →
      getWord (fs'.data (sectorAt fs ino R)) k = getWord (fs.data (sectorAt fs ino R)) k)
    {r : Role} (hr : U r) : sectorAt fs' ino' r = sectorAt fs ino r := by
  -- A role at most two indexes away, by the role of the index that has its pointer.
  have through : ∀ r R k, U r → r.slot = some (R, k) →
      sectorAt fs' ino' R = sectorAt fs ino R → sectorAt fs' ino' r = sectorAt fs ino r := by
    intro r R k hr slot same
    rw [sectorAt_slot fs' ino' slot, sectorAt_slot fs ino slot, same]
    exact words r R k hr slot
  cases slot : r.slot with
  | none => exact direct r hr slot
  | some x =>
    obtain ⟨R, k⟩ := x
    apply through r R k hr slot
    have hR := closed r R k hr slot
    cases slot' : R.slot with
    | none => exact direct R hR slot'
    | some y =>
      obtain ⟨R', k'⟩ := y
      refine through R R' k' hR slot' (direct R' (closed R R' k' hR slot') ?_)
      have index := Role.isIndex_of_slot slot
      cases R with
      | second i =>
        obtain ⟨rfl, _⟩ := Prod.mk.inj (Option.some.inj slot')
        rfl
      | ind | din => exact nomatch slot'
      | data b => exact index.elim

namespace Layout

variable {fs fs' : Fs} {ino : InodeDisk} {U : Role → Prop}

theorem of_same (h : Layout fs ino U) (same : ∀ r, U r → sectorAt fs' ino r = sectorAt fs ino r) :
    Layout fs' ino U := by
  refine ⟨h.closed, fun r r' hr hr' eq => ?_⟩
  rw [same r hr, same r' hr'] at eq
  exact h.distinct r r' hr hr' eq

/-- A write to a sector that is no index of `U` moves no role of `U`. -/
theorem sectorAt_write (h : Layout fs ino U) {x : Nat} {c : Bytes}
    (away : ∀ R, U R → R.IsIndex → sectorAt fs ino R ≠ x)
    (data : fs'.data = Function.update fs.data x c) (r : Role) (hr : U r) :
    sectorAt fs' ino r = sectorAt fs ino r := by
  have unchanged : ∀ R, U R → R.IsIndex → fs'.data (sectorAt fs ino R) =
      fs.data (sectorAt fs ino R) := by
    intro R hR index
    rw [data, Function.update_of_ne (away R hR index)]
  refine sectorAt_congr (fun r R k hr slot => (h.closed r R k hr slot).1)
    (fun r _ => sectorAt_direct fs fs' ino) (fun r R k hr slot => ?_) hr
  rw [unchanged R (h.closed r R k hr slot).1 (Role.isIndex_of_slot slot)]

end Layout

namespace Maps

variable {fs fs' : Fs} {ino ino' : InodeDisk} {U V : Role → Prop}

theorem mono (h : Maps fs ino U) (sub : ∀ r, V r → U r)
    (closed : ∀ r R k, V r → r.slot = some (R, k) → V R) : Maps fs ino V :=
  ⟨fun r R k hr slot => ⟨closed r R k hr slot, (h.closed r R k (sub r hr) slot).2⟩,
    fun r hr => h.used r (sub r hr), fun r r' hr hr' => h.distinct r r' (sub r hr) (sub r' hr')⟩

/-- The sectors stay where they are, and used. -/
theorem of_same (h : Maps fs ino U) (same : ∀ r, U r → sectorAt fs' ino' r = sectorAt fs ino r)
    (used : ∀ s, fs.free.Used s → fs'.free.Used s) : Maps fs' ino' U := by
  refine ⟨h.closed, fun r hr => ?_, fun r r' hr hr' eq => ?_⟩
  · rw [same r hr]
    exact used _ (h.used r hr)
  · rw [same r hr, same r' hr'] at eq
    exact h.distinct r r' hr hr' eq

/-- One more role is mapped, to a sector that was free. -/
theorem add (h : Maps fs ino U) {r : Role} {s : Nat}
    (same : ∀ r', U r' → sectorAt fs' ino' r' = sectorAt fs ino r')
    (here : sectorAt fs' ino' r = s) (takes : fs.free.Takes fs'.free s)
    (slot : ∀ R k, r.slot = some (R, k) → U R ∧ k < 128) :
    Maps fs' ino' fun r' => U r' ∨ r' = r := by
  have kept := h.of_same same fun t used => (takes.used_iff t).mpr (.inl used)
  have apart : ∀ r', U r' → sectorAt fs' ino' r' ≠ s := by
    intro r' hr' eq
    rw [same r' hr'] at eq
    exact FreeMap.not_used_of_free takes.free (eq ▸ h.used r' hr')
  refine ⟨fun r' R k hr' slot' => ?_, fun r' hr' => ?_, fun r₁ r₂ h₁ h₂ eq => ?_⟩
  · rcases hr' with hr' | rfl
    · exact (kept.closed r' R k hr' slot').imp_left .inl
    · exact (slot R k slot').imp_left .inl
  · rcases hr' with hr' | rfl
    · exact kept.used r' hr'
    · rw [here]
      exact (takes.used_iff s).mpr (.inr rfl)
  · rcases h₁ with h₁ | rfl <;> rcases h₂ with h₂ | rfl
    · exact kept.distinct r₁ r₂ h₁ h₂ eq
    · exact absurd (eq.trans here) (apart r₁ h₁)
    · exact absurd (eq.symm.trans here) (apart r₂ h₂)
    · rfl

/-- A pointer in an index of `U` is set, for a role outside `U`. -/
theorem sectorAt_entry (h : Maps fs ino U) {r R : Role} {k v : Nat} (hR : U R) (out : ¬U r)
    (slot : r.slot = some (R, k)) (small : v < 2 ^ 32)
    (data : fs'.data = Function.update fs.data (sectorAt fs ino R)
      (setWord (fs.data (sectorAt fs ino R)) k v)) :
    sectorAt fs' ino r = v ∧ ∀ r', U r' → sectorAt fs' ino r' = sectorAt fs ino r' := by
  have same : ∀ r', U r' → sectorAt fs' ino r' = sectorAt fs ino r' := by
    intro r' hr'
    refine sectorAt_congr (fun r R k hr slot => (h.closed r R k hr slot).1)
      (fun r _ => sectorAt_direct fs fs' ino) (fun r' R' k' hr' slot' => ?_) hr'
    rw [data]
    by_cases at_R : R' = R
    · subst at_R
      rw [Function.update_self]
      apply getWord_setWord_of_ne _ _
      rintro rfl
      exact out (Role.slot_inj slot' slot ▸ hr')
    · rw [Function.update_of_ne]
      exact fun eq => at_R (h.distinct R' R (h.closed r' R' k' hr' slot').1 hR eq)
  refine ⟨?_, same⟩
  rw [sectorAt_slot fs' ino slot, same R hR, data, Function.update_self]
  exact getWord_setWord_self _ _ small

end Maps

/-- From `fs₀` with the roles `U₀` of `ino₀` mapped, `n` allocations have led to `fs` with the
roles `U` of `ino`: the old roles keep their sectors, and the new ones have sectors that were free.
Sectors of others, free sectors and index entries of no role in `U` are as they were. -/
structure Grown (fs₀ : Fs) (ino₀ : InodeDisk) (U₀ : Role → Prop) (n : Nat) (fs : Fs)
    (ino : InodeDisk) (U : Role → Prop) : Prop where
  maps : Maps fs ino U
  old : ∀ r, U₀ r → U r ∧ sectorAt fs ino r = sectorAt fs₀ ino₀ r
  new : ∀ r, U r → ¬U₀ r → fs₀.free.Free (sectorAt fs ino r)
  used : ∀ s, fs₀.free.Used s → fs.free.Used s
  frame : ∀ s, fs₀.free.Used s → (∀ r, U₀ r → sectorAt fs₀ ino₀ r ≠ s) → fs.data s = fs₀.data s
  untouched : ∀ s, fs.free.Free s → fs.data s = fs₀.data s
  stale : ∀ R k, U R → R.IsIndex → (∀ r, U r → r.slot ≠ some (R, k)) →
    getWord (fs.data (sectorAt fs ino R)) k = getWord (fs₀.data (sectorAt fs ino R)) k
  count : fs.free.freeCount + n = fs₀.free.freeCount
  writable : fs.free.Writable
  size : fs.free.size = fs₀.free.size
  open_ : fs.free.file.isSome = fs₀.free.file.isSome
  synced : fs₀.free.Synced → fs.free.Synced

theorem Maps.grown {fs : Fs} {ino : InodeDisk} {U : Role → Prop} (h : Maps fs ino U)
    (writable : fs.free.Writable) : Grown fs ino U 0 fs ino U :=
  ⟨h, fun _ hr => ⟨hr, rfl⟩, fun _ hr out => absurd hr out, fun _ => id, fun _ _ _ => rfl,
    fun _ _ => rfl, fun _ _ _ _ _ => rfl, rfl, writable, rfl, rfl, id⟩

namespace Grown

variable {fs₀ fs : Fs} {ino₀ ino : InodeDisk} {U₀ U V : Role → Prop} {n : Nat}

theorem congr (h : Grown fs₀ ino₀ U₀ n fs ino U) (same : ∀ r, U r ↔ V r) :
    Grown fs₀ ino₀ U₀ n fs ino V := by
  obtain rfl : U = V := funext fun r => propext (same r)
  exact h

theorem set_length (h : Grown fs₀ ino₀ U₀ n fs ino U) (length : Nat) :
    Grown fs₀ ino₀ U₀ n fs { ino with length := length } U := by
  have same : ∀ r, sectorAt fs { ino with length := length } r = sectorAt fs ino r := by
    intro r
    cases r <;> rfl
  refine ⟨h.maps.of_same (fun r _ => same r) fun _ => id,
    fun r hr => ?_, fun r hr out => ?_, h.used,
    h.frame, h.untouched, fun R k hR index other => ?_, h.count, h.writable, h.size,
    h.open_, h.synced⟩
  · rw [same]
    exact h.old r hr
  · rw [same]
    exact h.new r hr out
  · rw [same]
    exact h.stale R k hR index other

/-- A sector that is not in use at first, or is one of the old roles, is out of the frame. -/
theorem frame_write (h : Grown fs₀ ino₀ U₀ n fs ino U) {x : Nat} {c : Bytes}
    (mine : (∃ r, U r ∧ sectorAt fs ino r = x) ∨ ¬fs₀.free.Used x) (s : Nat)
    (used : fs₀.free.Used s) (other : ∀ r, U₀ r → sectorAt fs₀ ino₀ r ≠ s) :
    Function.update fs.data x c s = fs₀.data s := by
  rw [Function.update_of_ne]
  · exact h.frame s used other
  · rintro rfl
    rcases mine with ⟨r, hr, rfl⟩ | unused
    · by_cases in_old : U₀ r
      · exact other r in_old (h.old r in_old).2.symm
      · exact FreeMap.not_used_of_free (h.new r hr in_old) used
    · exact unused used

/-- One more role is mapped, to the sector of the next allocation. -/
theorem add (h : Grown fs₀ ino₀ U₀ n fs ino U) {fs' : Fs} {ino' : InodeDisk} {r : Role} {s : Nat}
    (out : ¬U r) (same : ∀ r', U r' → sectorAt fs' ino' r' = sectorAt fs ino r')
    (here : sectorAt fs' ino' r = s) (takes : fs.free.Takes fs'.free s)
    (slot : ∀ R k, r.slot = some (R, k) → U R ∧ k < 128)
    (frame : ∀ s, fs₀.free.Used s → (∀ r, U₀ r → sectorAt fs₀ ino₀ r ≠ s) →
      fs'.data s = fs₀.data s)
    (untouched : ∀ t, fs.free.Free t → fs'.data t = fs.data t)
    (words : ∀ R k, U R → R.IsIndex → r.slot ≠ some (R, k) →
      getWord (fs'.data (sectorAt fs ino R)) k = getWord (fs.data (sectorAt fs ino R)) k) :
    Grown fs₀ ino₀ U₀ (n + 1) fs' ino' fun r' => U r' ∨ r' = r := by
  have free : fs₀.free.Free s := by
    obtain ⟨inside, unused⟩ := takes.free
    rw [h.size] at inside
    refine ⟨inside, Bool.eq_false_iff.mpr fun used => ?_⟩
    exact FreeMap.not_used_of_free takes.free (h.used s ⟨inside, used⟩)
  refine ⟨h.maps.add same here takes slot, fun r' hr' => ?_, fun r' hr' new => ?_,
    fun t used => (takes.used_iff t).mpr (.inl (h.used t used)), frame, fun t ht => ?_,
    fun R k hR index other => ?_, ?_, takes.writable h.writable, takes.size.trans h.size,
    takes.file.trans h.open_, fun synced => takes.synced (h.synced synced)⟩
  · obtain ⟨inU, eq⟩ := h.old r' hr'
    exact ⟨.inl inU, (same r' inU).trans eq⟩
  · rcases hr' with inU | rfl
    · rw [same r' inU]
      exact h.new r' inU new
    · rw [here]
      exact free
  · have before := ((takes.free_iff t).mp ht).1
    rw [untouched t before, h.untouched t before]
  · rcases hR with hR | rfl
    · rw [same R hR, words R k hR index (other r (.inr rfl))]
      exact h.stale R k hR index fun r' hr' => other r' (.inl hr')
    · rw [here, untouched s takes.free, h.untouched s takes.free]
  · have fewer := takes.freeCount_succ
    have count := h.count
    omega

theorem room (h : Grown fs₀ ino₀ U₀ n fs ino U) (enough : n < fs₀.free.freeCount) :
    0 < fs.free.freeCount := by
  have count := h.count
  omega

/-- A new pointer in the inode, to a role that had none. -/
theorem allocPointer (h : Grown fs₀ ino₀ U₀ n fs ino U) (enough : n < fs₀.free.freeCount) {r : Role}
    {set : Nat → InodeDisk} (out : ¬U r) (slot : r.slot = none)
    (here : ∀ fs' s, sectorAt fs' (set s) r = s)
    (others : ∀ fs' s r', U r' → sectorAt fs' (set s) r' = sectorAt fs' ino r') (old : Nat) :
    Grown fs₀ ino₀ U₀ (n + 1) (fs.allocPointer old).1 (set (fs.allocPointer old).2)
      fun r' => U r' ∨ r' = r := by
  obtain ⟨m, s, alloc, takes⟩ := FreeMap.allocate_takes h.writable (h.room enough)
  have eq : fs.allocPointer old = ({ fs with free := m }, s) := by
    rw [Fs.allocPointer, alloc]
  have same : ∀ r', sectorAt { fs with free := m } ino r' = sectorAt fs ino r' := by
    intro r'
    cases r' <;> rfl
  rw [eq]
  refine h.add out (fun r' hr' => (others _ s r' hr').trans (same r')) (here _ s) takes
    (fun R k eq => ?_) h.frame (fun _ _ => rfl) fun _ _ _ _ _ => rfl
  rw [slot] at eq
  exact nomatch eq

/-- A new pointer in an index of `U`. -/
theorem allocEntry (h : Grown fs₀ ino₀ U₀ n fs ino U) (enough : n < fs₀.free.freeCount)
    {r R : Role} {k : Nat} (hR : U R) (out : ¬U r) (slot : r.slot = some (R, k)) (bound : k < 128) :
    ∃ fs', fs.allocEntry (sectorAt fs ino R) k = .ok fs' ∧
      Grown fs₀ ino₀ U₀ (n + 1) fs' ino (fun r' => U r' ∨ r' = r) ∧
      (∀ r', U r' → sectorAt fs' ino r' = sectorAt fs ino r') ∧
      ∀ x, x ≠ sectorAt fs ino R → fs'.data x = fs.data x := by
  obtain ⟨m, s, alloc, takes⟩ := FreeMap.allocate_takes h.writable (h.room enough)
  have small : s < 2 ^ 32 := Nat.lt_of_lt_of_le takes.free.1 fs.free.small
  let table := sectorAt fs ino R
  let fs' : Fs := { fs with
    free := m, data := Function.update fs.data table (setWord (fs.data table) k s) }
  have data : fs'.data = Function.update fs.data table (setWord (fs.data table) k s) := rfl
  obtain ⟨here, same⟩ := h.maps.sectorAt_entry hR out slot small data
  refine ⟨fs', ?_, h.add out same here takes (fun R' k' eq => ?_)
    (h.frame_write (.inl ⟨R, hR, rfl⟩)) (fun t free => ?_) (fun R' k' hR' _ ne => ?_), same,
    fun x ne => Function.update_of_ne ne _ _⟩
  · rw [Fs.allocEntry, if_pos bound, alloc]
  · obtain ⟨rfl, rfl⟩ := Prod.mk.inj (Option.some.inj (slot.symm.trans eq))
    exact ⟨hR, bound⟩
  · rw [data, Function.update_of_ne]
    rintro rfl
    exact FreeMap.not_used_of_free free (h.maps.used R hR)
  · rw [data, Function.update_apply]
    split
    next eq =>
      obtain rfl := h.maps.distinct R' R hR' hR eq
      rw [eq]
      apply getWord_setWord_of_ne _ _
      rintro rfl
      exact ne slot
    next => rfl

/-- New contents for a block of data. -/
theorem rewrite (h : Grown fs₀ ino₀ U₀ n fs ino U) {fs' : Fs} {b : Nat} {c : Bytes}
    (hb : U (.data b)) (free : fs'.free = fs.free)
    (data : fs'.data = Function.update fs.data (sectorAt fs ino (.data b)) c) :
    Grown fs₀ ino₀ U₀ n fs' ino U := by
  have away : ∀ R, U R → R.IsIndex → sectorAt fs ino R ≠ sectorAt fs ino (.data b) := by
    intro R hR index eq
    obtain rfl := h.maps.distinct R (.data b) hR hb eq
    exact index
  have same := h.maps.layout.sectorAt_write away data
  have used : ∀ s, fs.free.Used s → fs'.free.Used s := by
    rw [free]
    exact fun _ => id
  refine ⟨h.maps.of_same same used, fun r hr => ?_, fun r hr new => ?_,
    fun s hs => used s (h.used s hs), fun s hs other => ?_, fun t clear => ?_,
    fun R k hR index other => ?_, ?_, ?_, ?_, ?_, ?_⟩
  · obtain ⟨inU, eq⟩ := h.old r hr
    exact ⟨inU, (same r inU).trans eq⟩
  · rw [same r hr]
    exact h.new r hr new
  · rw [data]
    exact h.frame_write (.inl ⟨.data b, hb, rfl⟩) s hs other
  · rw [free] at clear
    rw [data, Function.update_of_ne]
    · exact h.untouched t clear
    · rintro rfl
      exact FreeMap.not_used_of_free clear (h.maps.used _ hb)
  · rw [same R hR, data, Function.update_of_ne (away R hR index)]
    exact h.stale R k hR index other
  all_goals rw [free]
  · exact h.count
  · exact h.writable
  · exact h.size
  · exact h.open_
  · exact h.synced

theorem memset (h : Grown fs₀ ino₀ U₀ n fs ino U) {b : Nat} (hb : U (.data b)) (start : Nat)
    (count : Int) : Grown fs₀ ino₀ U₀ n (fs.memset (sectorAt fs ino (.data b)) start count) ino U :=
  h.rewrite hb rfl rfl

end Grown

/-- `Grown` from a file of `L` bytes, which stay as they were. -/
structure Lengthened (L : Nat) (fs₀ : Fs) (ino₀ : InodeDisk) (U₀ : Role → Prop) (n : Nat) (fs : Fs)
    (ino : InodeDisk) (U : Role → Prop) : Prop extends Grown fs₀ ino₀ U₀ n fs ino U where
  kept : ∀ b i, U₀ (.data b) → i < 512 → 512 * b + i < L →
    fs.data (sectorAt fs₀ ino₀ (.data b)) i = fs₀.data (sectorAt fs₀ ino₀ (.data b)) i

theorem Maps.lengthened {fs : Fs} {ino : InodeDisk} {U : Role → Prop} (h : Maps fs ino U)
    (writable : fs.free.Writable) (L : Nat) : Lengthened L fs ino U 0 fs ino U :=
  ⟨h.grown writable, fun _ _ _ _ _ => rfl⟩

namespace Lengthened

variable {fs₀ fs : Fs} {ino₀ ino : InodeDisk} {U₀ U V : Role → Prop} {n L : Nat}

theorem congr (h : Lengthened L fs₀ ino₀ U₀ n fs ino U) (same : ∀ r, U r ↔ V r) :
    Lengthened L fs₀ ino₀ U₀ n fs ino V :=
  ⟨h.toGrown.congr same, h.kept⟩

theorem recount {m : Nat} (h : Lengthened L fs₀ ino₀ U₀ n fs ino U) (eq : n = m) :
    Lengthened L fs₀ ino₀ U₀ m fs ino U := eq ▸ h

theorem set_length (h : Lengthened L fs₀ ino₀ U₀ n fs ino U) (length : Nat) :
    Lengthened L fs₀ ino₀ U₀ n fs { ino with length := length } U :=
  ⟨h.toGrown.set_length length, h.kept⟩

/-- An index is none of the blocks. -/
theorem kept_index (h : Lengthened L fs₀ ino₀ U₀ n fs ino U) {R : Role} (hR : U R)
    (index : R.IsIndex) {b : Nat} (hb : U₀ (.data b)) :
    sectorAt fs₀ ino₀ (.data b) ≠ sectorAt fs ino R := by
  obtain ⟨mapped, same⟩ := h.old _ hb
  rw [← same]
  intro eq
  obtain rfl := h.maps.distinct _ _ mapped hR eq
  exact index

theorem allocPointer (h : Lengthened L fs₀ ino₀ U₀ n fs ino U) (enough : n < fs₀.free.freeCount)
    {r : Role} {set : Nat → InodeDisk} (out : ¬U r) (slot : r.slot = none)
    (here : ∀ fs' s, sectorAt fs' (set s) r = s)
    (others : ∀ fs' s r', U r' → sectorAt fs' (set s) r' = sectorAt fs' ino r') (old : Nat) :
    Lengthened L fs₀ ino₀ U₀ (n + 1) (fs.allocPointer old).1 (set (fs.allocPointer old).2)
      fun r' => U r' ∨ r' = r := by
  refine ⟨h.toGrown.allocPointer enough out slot here others old, fun b i hb small inside => ?_⟩
  have data : (fs.allocPointer old).1.data = fs.data := by
    unfold Fs.allocPointer
    split <;> rfl
  rw [data]
  exact h.kept b i hb small inside

theorem allocEntry (h : Lengthened L fs₀ ino₀ U₀ n fs ino U) (enough : n < fs₀.free.freeCount)
    {r R : Role} {k : Nat} (hR : U R) (out : ¬U r) (slot : r.slot = some (R, k)) (bound : k < 128) :
    ∃ fs', fs.allocEntry (sectorAt fs ino R) k = .ok fs' ∧
      Lengthened L fs₀ ino₀ U₀ (n + 1) fs' ino (fun r' => U r' ∨ r' = r) ∧
      ∀ r', U r' → sectorAt fs' ino r' = sectorAt fs ino r' := by
  obtain ⟨fs', run, grown, same, others⟩ := h.toGrown.allocEntry enough hR out slot bound
  refine ⟨fs', run, ⟨grown, fun b i hb small inside => ?_⟩, same⟩
  rw [others _ (h.kept_index hR (Role.isIndex_of_slot slot) hb)]
  exact h.kept b i hb small inside

/-- Bytes from `start` on are zeroed, in a block where the file ends before. -/
theorem memset (h : Lengthened L fs₀ ino₀ U₀ n fs ino U) {b : Nat} (hb : U (.data b)) (start : Nat)
    (past : U₀ (.data b) → L ≤ 512 * b + start) (count : Int) :
    Lengthened L fs₀ ino₀ U₀ n (fs.memset (sectorAt fs ino (.data b)) start count) ino U := by
  refine ⟨h.toGrown.memset hb start count, fun c i hc small inside => ?_⟩
  rw [← h.kept c i hc small inside]
  obtain ⟨mapped, same⟩ := h.old _ hc
  show Function.update fs.data _ _ _ i = _
  by_cases eq : c = b
  · subst eq
    have before := past hc
    rw [← same, Function.update_self, fillZero, if_neg (by omega)]
  · rw [← same, Function.update_of_ne]
    intro eq'
    have role := h.maps.distinct _ _ mapped hb eq'
    exact eq (by injection role)

/-- A new block of data, zeroed. -/
theorem growEntry (h : Lengthened L fs₀ ino₀ U₀ n fs ino U) (enough : n < fs₀.free.freeCount)
    {R : Role} {b k : Nat} (hR : U R) (out : ¬U (.data b)) (slot : (Role.data b).slot = some (R, k))
    (bound : k < 128) :
    ∃ fs', fs.growEntry (sectorAt fs ino R) k = .ok fs' ∧
      Lengthened L fs₀ ino₀ U₀ (n + 1) fs' ino fun r' => U r' ∨ r' = .data b := by
  obtain ⟨mid, alloc, grown, same⟩ := h.allocEntry enough hR out slot bound
  have here : sectorAt mid ino (.data b) = getWord (mid.data (sectorAt fs ino R)) k := by
    rw [sectorAt_slot mid ino slot, same R hR]
  have new : U₀ (.data b) → L ≤ 512 * b + 0 := fun old => absurd (h.old _ old).1 out
  refine ⟨_, ?_, grown.memset (.inr rfl) 0 new 512⟩
  simp only [Fs.growEntry, alloc, Fs.index_of_lt _ _ bound, here, bind, Except.bind]

end Lengthened

end Pintos.Filesys
