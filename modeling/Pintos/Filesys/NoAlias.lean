import Pintos.Filesys.Files
import Pintos.Lib.Results

/-! No sector has two uses: every sector that a live inode refers to is marked in the free map, and
no two references share one.  This is kept by every call that neither runs into a further
second-level index nor deletes a file of two blocks or more. -/

namespace Pintos.Filesys

open Words Role Transition Results

/-- What an inode refers to a sector as. -/
inductive Ref
  | own
  | part (r : Role)
  deriving DecidableEq

namespace Files

/-- The inode in a sector as the file system has it now. -/
def inode (st : Files) (s : Nat) : InodeDisk :=
  match st.opens s with
  | some o => o.data
  | none => .read (st.fs.data s)

def sector (st : Files) (s : Nat) : Ref → Nat
  | .own => s
  | .part r => sectorAt st.fs (st.inode s) r

/-- The references that an inode has for its length. -/
def Refers (st : Files) (s : Nat) : Ref → Prop
  | .own => True
  | .part r => Upto (nextBlock (st.inode s).length) r

structure NoAlias (st : Files) : Prop where
  used : ∀ s x, st.live s = true → st.Refers s x → st.fs.free.Used (st.sector s x)
  distinct : ∀ s s' x x', st.live s = true → st.live s' = true → st.Refers s x → st.Refers s' x' →
    st.sector s x = st.sector s' x' → s = s' ∧ x = x'

structure Inv (st : Files) : Prop extends NoAlias st where
  bounded : ∀ s, st.live s = true → (st.inode s).length ≤ 16513 * 512
  opened : ∀ s, st.live s = false → st.opens s = none
  writable : st.fs.free.Writable

/-- What `Inv` says of the inodes. -/
structure WellFormed (st : Files) : Prop extends NoAlias st where
  bounded : ∀ s, st.live s = true → (st.inode s).length ≤ 16513 * 512
  opened : ∀ s, st.live s = false → st.opens s = none

variable {st st' : Files} {s t : Nat}

theorem Inv.wellFormed (inv : Inv st) : WellFormed st := ⟨inv.toNoAlias, inv.bounded, inv.opened⟩

theorem WellFormed.inv (wf : WellFormed st) (writable : st.fs.free.Writable) : Inv st :=
  ⟨wf.toNoAlias, wf.bounded, wf.opened, writable⟩

theorem nextBlock_le {L : Nat} (range : L ≤ 16513 * 512) : nextBlock L ≤ 16513 := by
  unfold nextBlock bytesToSectors
  omega

theorem inode_of_open {o : OpenInode} (isOpen : st.opens s = some o) : st.inode s = o.data := by
  unfold Files.inode
  rw [isOpen]

theorem inode_of_closed (closed : st.opens s = none) : st.inode s = .read (st.fs.data s) := by
  unfold Files.inode
  rw [closed]

theorem WellFormed.maps (inv : WellFormed st) (live : st.live s = true) :
    Maps st.fs (st.inode s) (Upto (nextBlock (st.inode s).length)) := by
  refine ⟨fun r R k hr slot => ⟨hr.closed slot, ?_⟩, fun r hr => ?_, fun r r' hr hr' eq => ?_⟩
  · exact hr.subscript (nextBlock_le (inv.bounded s live)) slot
  · exact inv.used s (.part r) live hr
  · have same := (inv.distinct s s (.part r) (.part r') live live hr hr' eq).2
    injection same

section View

/-- The inodes and their sectors are the same in both states. -/
structure SameView (st st' : Files) : Prop where
  data : st'.fs.data = st.fs.data
  used : ∀ x, st.fs.free.Used x → st'.fs.free.Used x
  live : st'.live = st.live
  inode : ∀ t, st'.inode t = st.inode t

theorem SameView.refers (same : SameView st st') (t : Nat) (x : Ref) :
    st'.Refers t x ↔ st.Refers t x := by
  cases x with
  | own => exact Iff.rfl
  | part r => rw [Refers, Refers, same.inode]

theorem SameView.sector (same : SameView st st') (t : Nat) (x : Ref) :
    st'.sector t x = st.sector t x := by
  cases x with
  | own => rfl
  | part r =>
    rw [Files.sector, Files.sector, same.inode]
    cases r <;> simp only [sectorAt, same.data]

theorem WellFormed.congr (inv : WellFormed st) (same : SameView st st')
    (opened : ∀ t, st'.live t = false → st'.opens t = none) : WellFormed st' := by
  refine ⟨⟨fun t x live refers => ?_, fun t t' x x' live live' refers refers' eq => ?_⟩,
    fun t live => ?_, opened⟩
  · rw [same.live] at live
    rw [same.sector]
    exact same.used _ (inv.used t x live ((same.refers t x).mp refers))
  · rw [same.live] at live live'
    rw [same.sector, same.sector] at eq
    exact inv.distinct t t' x x' live live' ((same.refers t x).mp refers)
      ((same.refers t' x').mp refers') eq
  · rw [same.live] at live
    rw [same.inode]
    exact inv.bounded t live

/-- Only the counters of an open inode change. -/
theorem sameView_opens {o : OpenInode} (same : o.data = st.inode s) :
    SameView st { st with opens := Function.update st.opens s (some o) } := by
  refine ⟨rfl, fun _ => id, rfl, fun t => ?_⟩
  by_cases at_s : t = s
  · subst at_s
    rw [← same]
    exact inode_of_open (Function.update_self t _ st.opens)
  · unfold Files.inode
    show (match Function.update st.opens s (some o) t with
      | some o => o.data
      | none => .read (st.fs.data t)) = _
    rw [Function.update_of_ne at_s]

theorem WellFormed.opens (inv : WellFormed st) (live : st.live s = true) {o : OpenInode}
    (same : o.data = st.inode s) :
    WellFormed { st with opens := Function.update st.opens s (some o) } := by
  refine inv.congr (sameView_opens same) fun t dead => ?_
  have ne : t ≠ s := by
    rintro rfl
    exact nomatch live.symm.trans dead
  show Function.update st.opens s (some o) t = none
  rw [Function.update_of_ne ne]
  exact inv.opened t dead

theorem Inv.opens (inv : Inv st) (live : st.live s = true) {o : OpenInode}
    (same : o.data = st.inode s) :
    Inv { st with opens := Function.update st.opens s (some o) } :=
  (inv.wellFormed.opens live same).inv inv.writable

theorem inodeOpen_eq (st : Files) (s : Nat) :
    ∃ o, st.inodeOpen s = { st with opens := Function.update st.opens s (some o) } ∧
      o.data = st.inode s := by
  unfold inodeOpen
  split
  next o isOpen => exact ⟨_, rfl, (inode_of_open isOpen).symm⟩
  next closed => exact ⟨_, rfl, (inode_of_closed closed).symm⟩

end View

section Step

/-- What a call on the inode in sector `s` leaves alone: the other inodes, and the sectors that they
refer to. -/
structure Others (st st' : Files) (s : Nat) : Prop where
  live : ∀ t, t ≠ s → st'.live t = st.live t
  opens : ∀ t, t ≠ s → st'.opens t = st.opens t
  data : ∀ t x, t ≠ s → st.live t = true → st.Refers t x →
    st'.fs.data (st.sector t x) = st.fs.data (st.sector t x)
  used : ∀ t x, t ≠ s → st.live t = true → st.Refers t x → st'.fs.free.Used (st.sector t x)

/-- What the inode in sector `s` has to be after the call. -/
structure Target (st st' : Files) (s : Nat) : Prop where
  used : ∀ x, st'.Refers s x → st'.fs.free.Used (st'.sector s x)
  distinct : ∀ x x', st'.Refers s x → st'.Refers s x' → st'.sector s x = st'.sector s x' → x = x'
  apart : ∀ x t y, st'.Refers s x → t ≠ s → st.live t = true → st.Refers t y →
    st'.sector s x ≠ st.sector t y
  bounded : (st'.inode s).length ≤ 16513 * 512

namespace Others

theorem inode (h : Others st st' s) (ne : t ≠ s) (live : st.live t = true) :
    st'.inode t = st.inode t := by
  unfold Files.inode
  rw [h.opens t ne, show st'.fs.data t = st.fs.data t from h.data t .own ne live trivial]

theorem refers (h : Others st st' s) (ne : t ≠ s) (live : st.live t = true) (x : Ref) :
    st'.Refers t x ↔ st.Refers t x := by
  cases x with
  | own => exact Iff.rfl
  | part r => rw [Refers, Refers, h.inode ne live]

theorem sector (h : Others st st' s) (ne : t ≠ s) (live : st.live t = true) {x : Ref}
    (refers : st.Refers t x) : st'.sector t x = st.sector t x := by
  cases x with
  | own => rfl
  | part r =>
    have inside : Upto (nextBlock (st.inode t).length) r := refers
    rw [Files.sector, h.inode ne live]
    refine sectorAt_congr (fun r R k hr slot => hr.closed slot)
      (fun r _ => sectorAt_direct st.fs st'.fs _) (fun r R k hr slot => ?_) inside
    exact congrArg (getWord · k) (h.data t (.part R) ne live (hr.closed slot))

/-- A change of the free map before the call. -/
theorem of_sameView {mid : Files} (h : Others mid st' s) (same : SameView st mid)
    (opens : mid.opens = st.opens) : Others st st' s := by
  refine ⟨fun t ne => ?_, fun t ne => ?_, fun t x ne live refers => ?_,
    fun t x ne live refers => ?_⟩
  · rw [h.live t ne, same.live]
  · rw [h.opens t ne, opens]
  · rw [← same.sector]
    rw [← same.live] at live
    rw [h.data t x ne live ((same.refers t x).mpr refers), same.data]
  · rw [← same.sector]
    rw [← same.live] at live
    exact h.used t x ne live ((same.refers t x).mpr refers)

end Others

theorem WellFormed.step_of (inv : WellFormed st) (others : Others st st' s)
    (target : st'.live s = true → Target st st' s)
    (opened : st'.live s = false → st'.opens s = none) : WellFormed st' := by
  have before : ∀ t, t ≠ s → st'.live t = true → st.live t = true := by
    intro t ne live
    rw [← others.live t ne]
    exact live
  -- A reference of another inode, as it was before.
  have other : ∀ t x, t ≠ s → st'.live t = true → st'.Refers t x →
      st.live t = true ∧ st.Refers t x ∧ st'.sector t x = st.sector t x := by
    intro t x ne live refers
    have refers := (others.refers ne (before t ne live) x).mp refers
    exact ⟨before t ne live, refers, others.sector ne (before t ne live) refers⟩
  refine ⟨⟨fun t x live refers => ?_, fun t t' x x' live live' refers refers' eq => ?_⟩,
    fun t live => ?_, fun t dead => ?_⟩
  · by_cases at_s : t = s
    · subst at_s
      exact (target live).used x refers
    · obtain ⟨live, refers, same⟩ := other t x at_s live refers
      rw [same]
      exact others.used t x at_s live refers
  · by_cases at_s : t = s <;> by_cases at_s' : t' = s
    · subst at_s at_s'
      exact ⟨rfl, (target live).distinct x x' refers refers' eq⟩
    · subst at_s
      obtain ⟨live', refers', same⟩ := other t' x' at_s' live' refers'
      exact absurd (eq.trans same) ((target live).apart x t' x' refers at_s' live' refers')
    · subst at_s'
      obtain ⟨live, refers, same⟩ := other t x at_s live refers
      exact absurd (eq.symm.trans same) ((target live').apart x' t x refers' at_s live refers)
    · obtain ⟨live, refers, same⟩ := other t x at_s live refers
      obtain ⟨live', refers', same'⟩ := other t' x' at_s' live' refers'
      rw [same, same'] at eq
      exact inv.distinct t t' x x' live live' refers refers' eq
  · by_cases at_s : t = s
    · subst at_s
      exact (target live).bounded
    · rw [others.inode at_s (before t at_s live)]
      exact inv.bounded t (before t at_s live)
  · by_cases at_s : t = s
    · subst at_s
      exact opened dead
    · rw [others.opens t at_s]
      rw [others.live t at_s] at dead
      exact inv.opened t dead

theorem Target.of_maps {d : InodeDisk} (inode : st'.inode s = d)
    (maps : Maps st'.fs d (Upto (nextBlock d.length))) (own : st'.fs.free.Used s)
    (off : ∀ r, Upto (nextBlock d.length) r → sectorAt st'.fs d r ≠ s)
    (apart_own : ∀ t y, t ≠ s → st.live t = true → st.Refers t y → s ≠ st.sector t y)
    (apart : ∀ r t y, Upto (nextBlock d.length) r → t ≠ s → st.live t = true → st.Refers t y →
      sectorAt st'.fs d r ≠ st.sector t y)
    (bound : d.length ≤ 16513 * 512) : Target st st' s := by
  subst inode
  refine ⟨fun x hx => ?_, fun x x' hx hx' eq => ?_, fun x t y hx => ?_, bound⟩
  · cases x with
    | own => exact own
    | part r => exact maps.used r hx
  · cases x with
    | own =>
      cases x' with
      | own => rfl
      | part r' => exact absurd eq.symm (off r' hx')
    | part r =>
      cases x' with
      | own => exact absurd eq (off r hx)
      | part r' => rw [maps.distinct r r' hx hx' eq]
  · cases x with
    | own => exact apart_own t y
    | part r => exact apart r t y hx

theorem WellFormed.apart_own (inv : WellFormed st) (live : st.live s = true) (t : Nat) (y : Ref)
    (ne : t ≠ s) (live' : st.live t = true) (refers : st.Refers t y) : s ≠ st.sector t y :=
  fun eq => ne (inv.distinct s t .own y live live' trivial refers eq).1.symm

end Step

section Grow

/-- Growth keeps away from used sectors that are not the inode's. -/
theorem foreign {fs₀ fs : Fs} {ino₀ ino : InodeDisk} {U₀ U : Role → Prop} {n x : Nat}
    (grown : Grown fs₀ ino₀ U₀ n fs ino U) (used : fs₀.free.Used x)
    (other : ∀ r, U₀ r → sectorAt fs₀ ino₀ r ≠ x) {r : Role} (hr : U r) :
    sectorAt fs ino r ≠ x := by
  by_cases before : U₀ r
  · rw [(grown.old r before).2]
    exact other r before
  · rintro rfl
    exact FreeMap.not_used_of_free (grown.new r hr before) used

theorem WellFormed.live_of_open (inv : WellFormed st) {o : OpenInode}
    (isOpen : st.opens s = some o) : st.live s = true := by
  by_contra dead
  rw [inv.opened s (Bool.eq_false_iff.mpr dead)] at isOpen
  exact nomatch isOpen

section Open

variable {o : OpenInode} {d : InodeDisk} {U₀ U : Role → Prop} {n : Nat}

/-- Sectors of other inodes, and the own one, are none of the blocks that a growth starts from. -/
theorem Inv.away (inv : Inv st) (isOpen : st.opens s = some o)
    (sub : ∀ r, U₀ r → Upto (nextBlock o.data.length) r) {y : Ref} (live : st.live t = true)
    (hy : st.Refers t y) (other : t ≠ s ∨ y = .own) {r : Role} (hr : U₀ r) :
    sectorAt st.fs o.data r ≠ st.sector t y := by
  intro eq
  have before := inode_of_open isOpen
  have mine : st.Refers s (.part r) := by
    rw [Refers, before]
    exact sub r hr
  have here : st.sector s (.part r) = sectorAt st.fs o.data r := by rw [Files.sector, before]
  obtain ⟨rfl, rfl⟩ := inv.distinct s t (.part r) y (inv.wellFormed.live_of_open isOpen) live mine
    hy (here.trans eq)
  rcases other with ne | own
  · exact ne rfl
  · cases own

variable (inv : Inv st) (isOpen : st.opens s = some o) (grown : Grown st.fs o.data U₀ n st'.fs d U)
  (sub : ∀ r, U₀ r → Upto (nextBlock o.data.length) r) (lives : st'.live = st.live)
  (opens : st'.opens = Function.update st.opens s (some { o with data := d }))

include inv isOpen grown sub lives opens

theorem Inv.grow_others : Others st st' s := by
  refine ⟨fun t _ => ?_, fun t ne => ?_, fun t y ne live hy => ?_, fun t y ne live hy => ?_⟩
  · rw [lives]
  · rw [opens, Function.update_of_ne ne]
  · exact grown.frame _ (inv.used t y live hy) fun r => inv.away isOpen sub live hy (.inl ne)
  · exact grown.used _ (inv.used t y live hy)

/-- A call that grows or writes an open inode. -/
theorem Inv.grow (cover : ∀ r, Upto (nextBlock d.length) r → U r)
    (bound : d.length ≤ 16513 * 512) : Inv st' := by
  have live := inv.wellFormed.live_of_open isOpen
  have inode : st'.inode s = d := by
    apply inode_of_open (o := { o with data := d })
    rw [opens, Function.update_self]
  have own : st.fs.free.Used s := inv.used s .own live trivial
  refine (inv.wellFormed.step_of (inv.grow_others isOpen grown sub lives opens)
    (fun _ => Target.of_maps inode ?_ (grown.used s own) (fun r hr => ?_)
      (inv.wellFormed.apart_own live) (fun r t y hr ne live' hy => ?_) bound) (fun dead => ?_)).inv
      grown.writable
  · exact grown.maps.mono cover fun r R k hr slot => hr.closed slot
  · exact foreign grown own (fun r => inv.away (y := .own) isOpen sub live trivial (.inr rfl))
      (cover r hr)
  · exact foreign grown (inv.used t y live' hy)
      (fun r => inv.away isOpen sub live' hy (.inl ne)) (cover r hr)
  · rw [lives, live] at dead
    exact nomatch dead

end Open

end Grow

section Record

theorem read_copyTo (d : InodeDisk) (c : Bytes) :
    InodeDisk.read (d.copyTo c) = ⟨d.length % 2 ^ 32, d.sp % 2 ^ 32, d.ind % 2 ^ 32, d.din % 2 ^ 32,
      d.isdir, d.parent % 2 ^ 32⟩ := by
  have isdir : (d.copyTo c 20 != 0) = d.isdir := by
    cases dir : d.isdir <;> simp [InodeDisk.copyTo, setWord, wordByte, dir]
  rw [InodeDisk.read, isdir]
  simp [InodeDisk.copyTo, getWord_setWord_mod, getWord_setWord_of_ne]

/-- The words of an inode fit in a sector. -/
structure Small (d : InodeDisk) : Prop where
  length : d.length < 2 ^ 32
  sp : d.sp < 2 ^ 32
  ind : d.ind < 2 ^ 32
  din : d.din < 2 ^ 32
  parent : d.parent < 2 ^ 32

theorem read_small (c : Bytes) : Small (.read c) :=
  ⟨getWord_lt c 0, getWord_lt c 1, getWord_lt c 2, getWord_lt c 3, getWord_lt c 6⟩

theorem read_copyTo_small {d : InodeDisk} (small : Small d) (c : Bytes) :
    InodeDisk.read (d.copyTo c) = d := by
  rw [read_copyTo, Nat.mod_eq_of_lt small.length, Nat.mod_eq_of_lt small.sp,
    Nat.mod_eq_of_lt small.ind, Nat.mod_eq_of_lt small.din, Nat.mod_eq_of_lt small.parent]

/-- The inode in memory and its copy in a sector that is none of its own have the same map. -/
theorem maps_copyTo {fs : Fs} {d : InodeDisk} {U : Role → Prop} {x : Nat} {c : Bytes}
    (maps : Maps fs d U) (off : ∀ r, U r → sectorAt fs d r ≠ x) :
    Maps (fs.put x (d.copyTo c)) (.read (d.copyTo c)) U ∧
      ∀ r, U r → sectorAt (fs.put x (d.copyTo c)) (.read (d.copyTo c)) r = sectorAt fs d r := by
  have small : ∀ r, U r → sectorAt fs d r % 2 ^ 32 = sectorAt fs d r := fun r hr =>
    Nat.mod_eq_of_lt (Nat.lt_of_lt_of_le (maps.used r hr).1 fs.free.small)
  have same : ∀ r, U r →
      sectorAt (fs.put x (d.copyTo c)) (.read (d.copyTo c)) r = sectorAt fs d r := by
    intro r hr
    refine sectorAt_congr (fun r R k hr slot => (maps.closed r R k hr slot).1) (fun r hr slot => ?_)
      (fun r R k hr slot => ?_) hr
    · have value := small r hr
      rw [read_copyTo]
      cases r with
      | ind | din => exact value
      | second i => cases slot
      | data b =>
        have zero : b = 0 := by
          by_contra ne
          simp only [Role.slot, if_neg ne] at slot
          split at slot <;> cases slot
        subst zero
        exact value
    · rw [Fs.put_of_ne _ _ (off R (maps.closed r R k hr slot).1)]
  exact ⟨maps.of_same same fun _ => id, same⟩

theorem length_copyTo {d : InodeDisk} (bound : d.length ≤ 16513 * 512) (c : Bytes) :
    (InodeDisk.read (d.copyTo c)).length = d.length := by
  rw [read_copyTo]
  exact Nat.mod_eq_of_lt (by omega)

/-- The map of a live inode is in no own sector. -/
theorem WellFormed.off_own (inv : WellFormed st) (live : st.live s = true)
    (live' : st.live t = true) (r : Role) (hr : Upto (nextBlock (st.inode s).length) r) :
    sectorAt st.fs (st.inode s) r ≠ t :=
  fun eq => nomatch (inv.distinct s t (.part r) .own live live' hr trivial eq).2

/-- A step that leaves the sectors of an inode where they are. -/
theorem WellFormed.target_of_same (inv : WellFormed st) (live : st.live s = true) {d : InodeDisk}
    (inode : st'.inode s = d) (length : d.length = (st.inode s).length)
    (maps : Maps st'.fs d (Upto (nextBlock d.length))) (own : st'.fs.free.Used s)
    (same : ∀ r, Upto (nextBlock (st.inode s).length) r →
      sectorAt st'.fs d r = sectorAt st.fs (st.inode s) r) : Target st st' s := by
  refine Target.of_maps inode maps own (fun r hr => ?_) (inv.apart_own live)
    (fun r t y hr ne live' refers eq => ?_) ?_
  · rw [length] at hr
    rw [same r hr]
    exact inv.off_own live live r hr
  · rw [length] at hr
    rw [same r hr] at eq
    exact ne (inv.distinct s t (.part r) y live live' hr refers eq).1.symm
  · rw [length]
    exact inv.bounded s live

section Put

variable {o : OpenInode} (inv : WellFormed st) (isOpen : st.opens s = some o)
  (fs : st'.fs = st.fs.put s (o.data.copyTo (st.fs.data s))) (lives : st'.live = st.live)
  (opens : st'.opens = Function.update st.opens s none)

include inv isOpen fs lives opens

theorem WellFormed.record_others : Others st st' s := by
  have away := inv.apart_own (inv.live_of_open isOpen)
  refine ⟨fun t _ => ?_, fun t ne => ?_, fun t y ne live' hy => ?_, fun t y _ live' hy => ?_⟩
  · rw [lives]
  · rw [opens, Function.update_of_ne ne]
  · rw [fs, Fs.put_of_ne _ _ (away t y ne live' hy).symm]
  · rw [fs]
    exact inv.used t y live' hy

/-- The last close of an inode that stays. -/
theorem WellFormed.record : WellFormed st' := by
  have live := inv.live_of_open isOpen
  have before := inode_of_open isOpen
  have bound : o.data.length ≤ 16513 * 512 := before ▸ inv.bounded s live
  have maps : Maps st.fs o.data (Upto (nextBlock o.data.length)) := before ▸ inv.maps live
  have off : ∀ r, Upto (nextBlock o.data.length) r → sectorAt st.fs o.data r ≠ s :=
    before ▸ inv.off_own live live
  obtain ⟨copy, same⟩ := maps_copyTo (c := st.fs.data s) maps off
  have length := length_copyTo bound (st.fs.data s)
  have inode : st'.inode s = .read (o.data.copyTo (st.fs.data s)) := by
    rw [inode_of_closed (by rw [opens, Function.update_self]), fs, Fs.put_self]
  refine inv.step_of (inv.record_others isOpen fs lives opens)
    (fun _ => inv.target_of_same live inode ?_ ?_ ?_ fun r hr => ?_) (fun dead => ?_)
  · rw [length, before]
  · rw [fs, length]
    exact copy
  · rw [fs]
    exact inv.used s .own live trivial
  · rw [before] at hr ⊢
    rw [fs]
    exact same r hr
  · rw [lives, live] at dead
    exact nomatch dead

end Put

end Record

section Create

/-- A sector that is in use, but not for any inode so far. -/
structure Spare (st : Files) (x : Nat) : Prop where
  used : st.fs.free.Used x
  dead : st.live x = false
  apart : ∀ t y, st.live t = true → st.Refers t y → st.sector t y ≠ x

theorem sectorAt_parent (fs : Fs) (d : InodeDisk) (parent : Nat) (r : Role) :
    sectorAt fs { d with parent := parent } r = sectorAt fs d r := by
  cases r <;> rfl

/-- A new inode has a map of sectors that were free. -/
theorem inodeCreate_maps {fs fs' : Fs} {length : Nat} {isdir : Bool} (own : fs.free.Used s)
    (writable : fs.free.Writable) (run : inodeCreate fs s length isdir = .ok fs')
    (bound : length ≤ 16513 * 512) (one : OneTable 0 length)
    (room : growthSectors 0 length ≤ fs.free.freeCount) :
    (InodeDisk.read (fs'.data s)).length = length ∧
      Maps fs' (.read (fs'.data s)) (Upto (nextBlock length)) ∧
      (∀ x, fs.free.Used x → fs'.free.Used x ∧ (x ≠ s → fs'.data x = fs.data x) ∧
        ∀ r, Upto (nextBlock length) r → sectorAt fs' (.read (fs'.data s)) r ≠ x) ∧
      fs'.free.Writable ∧ fs'.free.size = fs.free.size ∧
      fs'.free.freeCount + growthSectors 0 length = fs.free.freeCount ∧
      (fs.free.Synced → fs'.free.Synced) ∧ fs'.free.file.isSome = fs.free.file.isSome := by
  have none : ∀ r, ¬Upto (bytesToSectors 0) r := by
    intro r hr
    cases r <;> simp [Upto, bytesToSectors] at hr
  have empty : Maps fs ⟨0, 0, 0, 0, isdir, 0⟩ (Upto (bytesToSectors 0)) :=
    ⟨fun r _ _ hr => absurd hr (none r), fun r hr => absurd hr (none r),
      fun r _ hr => absurd hr (none r)⟩
  rw [← Nat.zero_add length] at one room
  obtain ⟨fs₁, d, U, grow, len, grown, cover⟩ :=
    empty.grown_fileGrowth writable (.inr rfl) one room
  rw [Nat.zero_add] at len cover grown
  simp only [inodeCreate, grow, bind, Except.bind, Except.ok.injEq] at run
  subst run
  have away : ∀ x, fs.free.Used x → ∀ r, Upto (nextBlock length) r →
      sectorAt fs₁ { d with parent := 1 } r ≠ x := by
    intro x used r hr
    rw [sectorAt_parent]
    exact foreign grown.toGrown used (fun r hr => absurd hr (none r)) (cover r hr)
  have maps : Maps fs₁ { d with parent := 1 } (Upto (nextBlock length)) := by
    refine (grown.maps.mono cover fun r R k hr slot => hr.closed slot).of_same (fun r _ => ?_)
      fun _ => id
    exact sectorAt_parent fs₁ d 1 r
  obtain ⟨copy, same⟩ := maps_copyTo (c := fs₁.data s) maps (away s own)
  rw [Fs.put_self]
  refine ⟨?_, copy, fun x used => ⟨grown.used x used, fun ne => ?_, fun r hr => ?_⟩, grown.writable,
    grown.size, grown.count, grown.synced, grown.open_⟩
  · exact (length_copyTo (by rw [← len] at bound; exact bound) _).trans len
  · rw [Fs.put_of_ne _ _ ne]
    exact grown.frame x used fun r hr => absurd hr (none r)
  · rw [same r hr]
    exact away x used r hr

theorem Spare.congr {x : Nat} (spare : Spare st x) (same : SameView st st') : Spare st' x := by
  refine ⟨same.used x spare.used, ?_, fun t y live refers => ?_⟩
  · rw [same.live]
    exact spare.dead
  · rw [same.live] at live
    rw [same.sector]
    exact spare.apart t y live ((same.refers t y).mp refers)

section Spare

variable (inv : Inv st) (spare : Spare st s) {length : Nat} {isdir : Bool}
  (run : inodeCreate st.fs s length isdir = .ok st'.fs) (bound : length ≤ 16513 * 512)
  (one : OneTable 0 length) (room : growthSectors 0 length ≤ st.fs.free.freeCount)
  (opens : st'.opens = st.opens) (lives : st'.live = Function.update st.live s true)

include inv spare run bound one room opens lives

theorem Inv.create_others : Others st st' s := by
  obtain ⟨_, _, kept, _⟩ := inodeCreate_maps spare.used inv.writable run bound one room
  refine ⟨fun t ne => ?_, fun t _ => ?_, fun t y _ live hy => ?_, fun t y _ live hy => ?_⟩
  · rw [lives, Function.update_of_ne ne]
  · rw [opens]
  · exact (kept _ (inv.used t y live hy)).2.1 (spare.apart t y live hy)
  · exact (kept _ (inv.used t y live hy)).1

/-- An inode is created in a spare sector. -/
theorem Inv.create : Inv st' ∧ ∀ x, x ≠ s → Spare st x → Spare st' x := by
  obtain ⟨len, maps, kept, writable, _⟩ :=
    inodeCreate_maps spare.used inv.writable run bound one room
  have inode : st'.inode s = .read (st'.fs.data s) :=
    inode_of_closed (by rw [opens, inv.opened s spare.dead])
  have others := inv.create_others spare run bound one room opens lives
  have target : Target st st' s := by
    refine Target.of_maps inode ?_ (kept s spare.used).1 (fun r hr => ?_)
      (fun t y _ live hy => (spare.apart t y live hy).symm) (fun r t y hr _ live hy => ?_) ?_
    · rw [len]
      exact maps
    · rw [len] at hr
      exact (kept s spare.used).2.2 r hr
    · rw [len] at hr
      exact (kept _ (inv.used t y live hy)).2.2 r hr
    · rw [len]
      exact bound
  refine ⟨(inv.wellFormed.step_of others (fun _ => target) fun dead => ?_).inv writable,
    fun x ne other => ?_⟩
  · rw [lives, Function.update_self] at dead
    exact nomatch dead
  · refine ⟨(kept x other.used).1, ?_, fun t y live hy eq => ?_⟩
    · rw [lives, Function.update_of_ne ne]
      exact other.dead
    · by_cases at_s : t = s
      · subst at_s
        cases y with
        | own => exact ne eq.symm
        | part r =>
          rw [Files.sector, inode] at eq
          rw [Refers, inode, len] at hy
          exact (kept x other.used).2.2 r hy eq
      · rw [others.live t at_s] at live
        have hy := (others.refers at_s live y).mp hy
        rw [others.sector at_s live hy] at eq
        exact other.apart t y live hy eq

end Spare

end Create

section Delete

/-- `fs'` has the sectors of `P` as `fs` has them. -/
structure Kept (P : Nat → Prop) (fs fs' : Fs) : Prop where
  data : ∀ u, P u → fs'.data u = fs.data u
  used : ∀ u, P u → fs.free.Used u → fs'.free.Used u
  writable : fs.free.Writable → fs'.free.Writable

theorem Kept.trans {P : Nat → Prop} {fs mid fs' : Fs} (h : Kept P fs mid) (h' : Kept P mid fs') :
    Kept P fs fs' :=
  ⟨fun u hu => (h'.data u hu).trans (h.data u hu), fun u hu used => h'.used u hu (h.used u hu used),
    fun writable => h'.writable (h.writable writable)⟩

theorem kept_put (fs : Fs) {P : Nat → Prop} {x : Nat} (c : Bytes) (out : ¬P x) :
    Kept P fs (fs.put x c) := by
  refine ⟨fun u hu => Fs.put_of_ne _ _ ?_, fun _ _ => id, id⟩
  rintro rfl
  exact out hu

theorem releaseSector_kept {dev : Nat → Bytes} {fs fs' : Fs} {P : Nat → Prop} {x : Nat}
    (run : releaseSector dev fs x = .ok fs') (out : ¬P x) : Kept P fs fs' := by
  obtain ⟨free, release, put⟩ := bind_ok run
  obtain rfl := Except.ok.inj put
  obtain ⟨used, writable⟩ := FreeMap.release_one release
  have freed : Kept P fs { fs with free := free } := by
    refine ⟨fun _ _ => rfl, fun u hu => used u ?_, writable⟩
    rintro rfl
    exact out hu
  exact freed.trans (kept_put _ _ out)

/-- A file of less than two blocks has at most one entry of its index in use. -/
theorem inodeDelete_short {dev : Nat → Bytes} {fs : Fs} {d : InodeDisk} (short : d.length < 1024) :
    inodeDelete dev fs d = (do
      let fs ← releaseSector dev fs d.sp
      if 512 < d.length then
        let index := fs.data d.ind
        let fs ← releaseSector dev fs d.ind
        releaseSector dev fs (getWord index 0)
      else .ok fs) := by
  unfold inodeDelete
  refine congrArg _ (funext fun fs => ?_)
  have double : ∀ fs, deleteDouble dev fs d = .ok fs := fun fs => by
    rw [deleteDouble, if_neg (by omega)]
  by_cases long : 512 < d.length
  · have one : d.length / 512 = 1 := by omega
    rw [deleteSingle, if_pos (by omega), if_pos long, one]
    simp only [releaseEntries, Nat.sub_self, bind, Except.bind]
    cases releaseSector dev fs d.ind with
    | error e => rfl
    | ok mid =>
      simp only [Nat.zero_lt_succ, if_true]
      cases releaseSector dev mid (getWord (fs.data d.ind) 0) with
      | error e => rfl
      | ok last => exact double last
  · rw [deleteSingle, if_neg (by omega), if_neg long]
    exact double fs

/-- The deletion of a file of less than two blocks releases what the file has. -/
theorem inodeDelete_kept {dev : Nat → Bytes} {fs fs' : Fs} {d : InodeDisk} {P : Nat → Prop}
    (maps : Maps fs d (Upto (nextBlock d.length))) (short : d.length < 1024)
    (out : ∀ r, Upto (nextBlock d.length) r → ¬P (sectorAt fs d r))
    (run : inodeDelete dev fs d = .ok fs') : Kept P fs fs' := by
  rw [inodeDelete_short short] at run
  obtain ⟨fs₁, sp, run⟩ := bind_ok run
  have direct : Upto (nextBlock d.length) (.data 0) :=
    Nat.lt_of_lt_of_le Nat.one_pos (Nat.le_max_left 1 _)
  have kept := releaseSector_kept sp (out _ direct)
  split at run
  next long =>
    obtain ⟨fs₂, release, entry⟩ := bind_ok run
    have two : nextBlock d.length = 2 := by
      unfold nextBlock bytesToSectors
      omega
    rw [two] at out maps direct
    have ind : Upto 2 .ind := by simp [Upto]
    have block : Upto 2 (.data 1) := by simp [Upto]
    -- The index is read after the release of the direct block.
    have index : fs₁.data d.ind = fs.data d.ind := by
      refine (releaseSector_kept (P := (· ≠ d.sp)) sp (fun ne => ne rfl)).data _ fun eq => ?_
      cases maps.distinct .ind (.data 0) ind direct eq
    rw [index] at entry
    exact (kept.trans (releaseSector_kept release (out _ ind))).trans
      (releaseSector_kept entry (out _ block))
  next =>
    obtain rfl := Except.ok.inj run
    exact kept

theorem releaseSector_ok (dev : Nat → Bytes) {fs : Fs} {x : Nat} (used : fs.free.Used x)
    (file : fs.free.file.isSome) :
    ∃ fs', releaseSector dev fs x = .ok fs' ∧ fs'.free.file.isSome := by
  obtain ⟨free, release⟩ := FreeMap.release_of_used used file
  refine ⟨{ fs with free := free }.cacheRemove dev x, ?_, (FreeMap.release_synced release).1⟩
  rw [releaseSector, release]
  rfl

/-- The sectors that the deletion releases are in use. -/
theorem inodeDelete_ok (dev : Nat → Bytes) {fs : Fs} {d : InodeDisk}
    (maps : Maps fs d (Upto (nextBlock d.length))) (short : d.length < 1024)
    (file : fs.free.file.isSome) :
    ∃ fs', inodeDelete dev fs d = .ok fs' ∧ fs'.free.file.isSome := by
  rw [inodeDelete_short short]
  have direct : Upto (nextBlock d.length) (.data 0) :=
    Nat.lt_of_lt_of_le Nat.one_pos (Nat.le_max_left 1 _)
  obtain ⟨fs₁, sp, file₁⟩ := releaseSector_ok dev (maps.used _ direct) file
  have sp : releaseSector dev fs d.sp = .ok fs₁ := sp
  rw [sp]
  by_cases long : 512 < d.length
  · have two : nextBlock d.length = 2 := by
      unfold nextBlock bytesToSectors
      omega
    rw [two] at maps direct
    have ind : Upto 2 .ind := by simp [Upto]
    have block : Upto 2 (.data 1) := by simp [Upto]
    have kept := releaseSector_kept (P := (· ≠ d.sp)) sp (fun ne => ne rfl)
    have first : ∀ r, Upto 2 r → r ≠ .data 0 → sectorAt fs d r ≠ d.sp := fun r hr ne eq =>
      ne (maps.distinct r (.data 0) hr direct eq)
    have off : d.ind ≠ d.sp := first .ind ind (by simp)
    obtain ⟨fs₂, release, file₂⟩ := releaseSector_ok dev (kept.used _ off (maps.used _ ind)) file₁
    have release : releaseSector dev fs₁ d.ind = .ok fs₂ := release
    have kept' := releaseSector_kept (P := (· ≠ d.ind)) release (fun ne => ne rfl)
    have used : fs₂.free.Used (sectorAt fs d (.data 1)) := by
      refine kept'.used _ (fun eq => ?_) (kept.used _ (first _ block (by simp)) (maps.used _ block))
      cases maps.distinct (.data 1) .ind block ind eq
    obtain ⟨fs₃, entry, file₃⟩ := releaseSector_ok dev used file₂
    have index : getWord (fs₁.data d.ind) 0 = sectorAt fs d (.data 1) := by
      rw [kept.data _ off]
      rfl
    refine ⟨fs₃, ?_, file₃⟩
    simp only [bind, Except.bind, if_pos long, release, index, entry]
  · exact ⟨fs₁, by simp only [bind, Except.bind, if_neg long], file₁⟩

/-- The sectors of the inodes other than the one in `s`. -/
def Foreign (st : Files) (s u : Nat) : Prop :=
  ∃ t y, t ≠ s ∧ st.live t = true ∧ st.Refers t y ∧ u = st.sector t y

section Release

variable {o : OpenInode} (inv : WellFormed st) (isOpen : st.opens s = some o)
  (short : o.data.length < 1024) {dev : Nat → Bytes} {fs : Fs}
  (delete : inodeDelete dev (st.fs.put s (o.data.copyTo (st.fs.data s))) o.data = .ok fs)
  (release : releaseSector dev fs s = .ok st'.fs)
  (lives : st'.live = Function.update st.live s false)
  (opens : st'.opens = Function.update st.opens s none)

include inv isOpen

/-- Before a deletion the inode is written to its sector, which is no part of its map. -/
theorem WellFormed.maps_put :
    Maps (st.fs.put s (o.data.copyTo (st.fs.data s))) o.data (Upto (nextBlock o.data.length)) ∧
      ∀ r, Upto (nextBlock o.data.length) r →
        sectorAt (st.fs.put s (o.data.copyTo (st.fs.data s))) o.data r = sectorAt st.fs o.data r ∧
          sectorAt st.fs o.data r ≠ s ∧ ¬st.Foreign s (sectorAt st.fs o.data r) := by
  have live := inv.live_of_open isOpen
  have before := inode_of_open isOpen
  have maps : Maps st.fs o.data (Upto (nextBlock o.data.length)) := before ▸ inv.maps live
  have off : ∀ r, Upto (nextBlock o.data.length) r → sectorAt st.fs o.data r ≠ s :=
    before ▸ inv.off_own live live
  have same : ∀ r, Upto (nextBlock o.data.length) r →
      sectorAt (st.fs.put s (o.data.copyTo (st.fs.data s))) o.data r = sectorAt st.fs o.data r :=
    maps.layout.sectorAt_write (fun R hR _ => off R hR) rfl
  refine ⟨maps.of_same same fun _ => id, fun r hr => ⟨same r hr, off r hr, ?_⟩⟩
  rintro ⟨t, y, ne, live', hy, eq⟩
  rw [← before] at hr eq
  exact ne (inv.distinct s t (.part r) y live live' hr hy eq).1.symm

include short delete release

theorem WellFormed.delete_kept : Kept (st.Foreign s) st.fs st'.fs := by
  obtain ⟨maps, parts⟩ := inv.maps_put isOpen
  have own : ¬st.Foreign s s := by
    rintro ⟨t, y, ne, live, hy, eq⟩
    exact inv.apart_own (inv.live_of_open isOpen) t y ne live hy eq
  have out : ∀ r, Upto (nextBlock o.data.length) r →
      ¬st.Foreign s (sectorAt (st.fs.put s (o.data.copyTo (st.fs.data s))) o.data r) := by
    intro r hr
    rw [(parts r hr).1]
    exact (parts r hr).2.2
  exact ((kept_put _ _ own).trans (inodeDelete_kept maps short out delete)).trans
    (releaseSector_kept release own)

include lives opens

theorem WellFormed.delete_others : Others st st' s := by
  have kept := inv.delete_kept isOpen short delete release
  refine ⟨fun t ne => ?_, fun t ne => ?_, fun t y ne live hy => ?_, fun t y ne live hy => ?_⟩
  · rw [lives, Function.update_of_ne ne]
  · rw [opens, Function.update_of_ne ne]
  · exact kept.data _ ⟨t, y, ne, live, hy, rfl⟩
  · exact kept.used _ ⟨t, y, ne, live, hy, rfl⟩ (inv.used t y live hy)

end Release

/-- The last close of a removed inode. -/
theorem Inv.delete (inv : Inv st) {o : OpenInode} (isOpen : st.opens s = some o)
    (short : o.data.length < 1024) {dev : Nat → Bytes} {fs : Fs}
    (delete : inodeDelete dev (st.fs.put s (o.data.copyTo (st.fs.data s))) o.data = .ok fs)
    (release : releaseSector dev fs s = .ok st'.fs)
    (lives : st'.live = Function.update st.live s false)
    (opens : st'.opens = Function.update st.opens s none) : Inv st' := by
  refine (inv.wellFormed.step_of
    (inv.wellFormed.delete_others isOpen short delete release lives opens) (fun live => ?_)
    fun _ => ?_).inv
      ((inv.wellFormed.delete_kept isOpen short delete release).writable inv.writable)
  · rw [lives, Function.update_self] at live
    exact nomatch live
  · rw [opens, Function.update_self]

end Delete

end Files

end Pintos.Filesys
