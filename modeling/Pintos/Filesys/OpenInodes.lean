import Pintos.Filesys.Files

/-! `open_inodes` as `inode.c` keeps it, a list of addresses of `struct inode` in memory:
`inode_open`, `inode_reopen` and `inode_close` of inodes that are not removed, with changes to the
records in memory between them. -/

namespace Pintos.Filesys

open Words Transition

/-- `struct inode`, with the 512 bytes of its `struct inode_disk`. -/
structure InodeMem where
  sector : Nat
  openCnt : Nat
  data : Bytes

/-- `memcpy` of 512 bytes. -/
def memcpySector (dst src : Bytes) : Bytes := fun i => if i < 512 then src i else dst i

theorem memcpySector_of_lt (dst src : Bytes) {i : Nat} (h : i < 512) :
    memcpySector dst src i = src i :=
  if_pos h

theorem InodeDisk.read_congr {c d : Bytes} (same : ∀ i < 512, c i = d i) :
    InodeDisk.read c = InodeDisk.read d := by
  have word : ∀ k < 128, getWord c k = getWord d k := by
    intro k hk
    simp only [getWord, same (4 * k) (by omega), same (4 * k + 1) (by omega),
      same (4 * k + 2) (by omega), same (4 * k + 3) (by omega)]
  simp only [InodeDisk.read, same 20 (by omega), word 0 (by omega), word 1 (by omega),
    word 2 (by omega), word 3 (by omega), word 6 (by omega)]

/-- What an open returned: the address of the inode, with the sector that was asked for. -/
structure Handle where
  sector : Nat
  inode : Nat
  deriving DecidableEq

/-- The inodes in memory by address, the list, and the sectors behind the cache.  `handles` are the
opens without their close, and `lastClose` has the record of an inode at the close of its last
handle. -/
structure InodeTable where
  heap : Nat → InodeMem
  openInodes : List Nat
  sectors : Nat → Bytes
  handles : List Handle
  lastClose : Nat → Option Bytes

/-- `open_` has the address that `malloc` returns if it is called. -/
inductive InodeCall
  | open_ (sector fresh : Nat)
  | reopen (h : Handle)
  | change (inode : Nat) (data : Bytes)
  | close (h : Handle)

namespace InodeTable

def setInode (st : InodeTable) (a : Nat) (inode : InodeMem) : InodeTable :=
  { st with heap := Function.update st.heap a inode }

def inodeReopen (st : InodeTable) (a : Nat) : InodeTable :=
  st.setInode a { st.heap a with openCnt := (st.heap a).openCnt + 1 }

/-- The loop of `inode_open` over the list. -/
def search (st : InodeTable) (sector : Nat) : Option Nat :=
  st.openInodes.find? fun a => (st.heap a).sector == sector

def inodeOpen (st : InodeTable) (sector fresh : Nat) : InodeTable × Nat :=
  match st.search sector with
  | some a => (st.inodeReopen a, a)
  | none =>
    let data := memcpySector (st.heap fresh).data (st.sectors sector)
    ({ st with openInodes := fresh :: st.openInodes }.setInode fresh ⟨sector, 1, data⟩, fresh)

def inodeClose (st : InodeTable) (a : Nat) : InodeTable :=
  let inode := { st.heap a with openCnt := (st.heap a).openCnt - 1 }
  if inode.openCnt = 0 then
    { st with
      openInodes := st.openInodes.erase a
      sectors := Function.update st.sectors inode.sector
        (memcpySector (st.sectors inode.sector) inode.data) }.setInode a inode
  else st.setInode a inode

/-- The close of a handle, with the record if it is the last of its sector. -/
def dropHandle (st : InodeTable) (h : Handle) (data : Bytes) : InodeTable :=
  { st with
    handles := st.handles.erase h
    lastClose :=
      if (st.handles.erase h).any (·.sector == h.sector) then st.lastClose
      else Function.update st.lastClose h.sector (some data) }

def step (st : InodeTable) : InodeCall → Option InodeTable
  | .open_ sector fresh =>
    if fresh ∈ st.openInodes then none
    else
      let (st', a) := st.inodeOpen sector fresh
      some { st' with handles := ⟨sector, a⟩ :: st.handles }
  | .reopen h =>
    if h ∈ st.handles then some { st.inodeReopen h.inode with handles := h :: st.handles } else none
  | .change a data =>
    if a ∈ st.openInodes then
      some (st.setInode a { st.heap a with data := memcpySector (st.heap a).data data })
    else none
  | .close h =>
    if h ∈ st.handles then
      some ((st.inodeClose h.inode).dropHandle h (st.heap h.inode).data)
    else none

/-- No inode is open, and none was. -/
def Start (st : InodeTable) : Prop :=
  st.openInodes = [] ∧ st.handles = [] ∧ ∀ s, st.lastClose s = none

/-- The handles on an inode. -/
def opensOf (st : InodeTable) (a : Nat) : Nat := st.handles.countP (·.inode == a)

structure Coherent (st : InodeTable) : Prop where
  nodup : st.openInodes.Nodup
  apart : ∀ a ∈ st.openInodes, ∀ b ∈ st.openInodes, (st.heap a).sector = (st.heap b).sector → a = b
  count : ∀ a ∈ st.openInodes, (st.heap a).openCnt = st.opensOf a ∧ 1 ≤ st.opensOf a
  listed : ∀ h ∈ st.handles, h.inode ∈ st.openInodes ∧ (st.heap h.inode).sector = h.sector
  stored : ∀ s d, st.lastClose s = some d → (∀ h ∈ st.handles, h.sector ≠ s) →
    ∀ i < 512, st.sectors s i = d i

variable {st st' : InodeTable} {a s : Nat} {h : Handle}

theorem search_eq_some (found : st.search s = some a) :
    a ∈ st.openInodes ∧ (st.heap a).sector = s := by
  refine ⟨List.mem_of_find?_eq_some found, ?_⟩
  simpa using List.find?_some found

theorem search_eq_none (none : st.search s = none) :
    ∀ a ∈ st.openInodes, (st.heap a).sector ≠ s := by
  simpa [search] using none

/-- A listed inode has a handle, which is one on its sector. -/
theorem Coherent.handle (inv : Coherent st) (mem : a ∈ st.openInodes) :
    ∃ h ∈ st.handles, h.inode = a ∧ h.sector = (st.heap a).sector := by
  obtain ⟨h, handle, eq⟩ := List.countP_pos_iff.mp (inv.count a mem).2
  have eq : h.inode = a := by simpa using eq
  refine ⟨h, handle, eq, ?_⟩
  rw [← eq]
  exact (inv.listed h handle).2.symm

theorem countP_cons_handle (handles : List Handle) (b : Nat) :
    (⟨s, a⟩ :: handles).countP (·.inode == b) =
      handles.countP (·.inode == b) + if a = b then 1 else 0 := by
  simp [List.countP_cons]

theorem heap_setInode (inode : InodeMem) (b : Nat) :
    (st.setInode a inode).heap b = if b = a then inode else st.heap b := by
  simp [setInode, Function.update_apply]

/-- The record of an inode changes but not its sector. -/
theorem sector_setInode {inode : InodeMem} (same : inode.sector = (st.heap a).sector) (b : Nat) :
    ((st.setInode a inode).heap b).sector = (st.heap b).sector := by
  rw [heap_setInode]
  split
  next eq => rw [eq, same]
  next => rfl

/-- One more handle on a listed inode. -/
theorem Coherent.reopen (inv : Coherent st) (mem : a ∈ st.openInodes)
    (sector : (st.heap a).sector = s) :
    Coherent { st.inodeReopen a with handles := ⟨s, a⟩ :: st.handles } := by
  have same : ∀ b, ((st.inodeReopen a).heap b).sector = (st.heap b).sector :=
    sector_setInode rfl
  refine ⟨inv.nodup, fun b hb c hc eq => ?_, fun b hb => ?_, fun h handle => ?_,
    fun t d last none => ?_⟩
  · apply inv.apart b hb c hc
    rw [← same b, ← same c]
    exact eq
  · obtain ⟨count, pos⟩ := inv.count b hb
    show ((st.inodeReopen a).heap b).openCnt = (_ :: st.handles).countP _ ∧
      1 ≤ (_ :: st.handles).countP _
    rw [inodeReopen, heap_setInode, countP_cons_handle]
    refine ⟨?_, Nat.le_add_right_of_le pos⟩
    by_cases eq : b = a
    · subst eq
      rw [if_pos rfl, if_pos rfl]
      exact congrArg (· + 1) count
    · rw [if_neg eq, if_neg (Ne.symm eq)]
      exact count
  · rcases List.mem_cons.mp handle with rfl | old
    · exact ⟨mem, (same a).trans sector⟩
    · obtain ⟨mem, eq⟩ := inv.listed h old
      exact ⟨mem, (same h.inode).trans eq⟩
  · exact inv.stored t d last fun h old => none h (List.mem_cons_of_mem _ old)

/-- The first handle on a sector, with a new inode. -/
theorem Coherent.first (inv : Coherent st) {fresh : Nat} (new : fresh ∉ st.openInodes)
    (absent : ∀ b ∈ st.openInodes, (st.heap b).sector ≠ s) (data : Bytes) :
    Coherent { { st with openInodes := fresh :: st.openInodes }.setInode fresh ⟨s, 1, data⟩ with
      handles := ⟨s, fresh⟩ :: st.handles } := by
  have other : ∀ b ∈ st.openInodes, Function.update st.heap fresh ⟨s, 1, data⟩ b = st.heap b := by
    intro b hb
    have ne : b ≠ fresh := fun eq => new (eq ▸ hb)
    exact Function.update_of_ne ne _ _
  have self : Function.update st.heap fresh ⟨s, 1, data⟩ fresh = ⟨s, 1, data⟩ :=
    Function.update_self ..
  have none : st.handles.countP (·.inode == fresh) = 0 := by
    refine List.countP_eq_zero.mpr fun h old is => new ?_
    have eq : h.inode = fresh := by simpa using is
    rw [← eq]
    exact (inv.listed h old).1
  refine ⟨List.nodup_cons.mpr ⟨new, inv.nodup⟩, fun b hb c hc eq => ?_, fun b hb => ?_,
    fun h handle => ?_, fun t d last none => ?_⟩
  · have eq : (Function.update st.heap fresh ⟨s, 1, data⟩ b).sector =
        (Function.update st.heap fresh ⟨s, 1, data⟩ c).sector := eq
    rcases List.mem_cons.mp hb with rfl | oldb <;> rcases List.mem_cons.mp hc with rfl | oldc
    · rfl
    · rw [self, other c oldc] at eq
      exact absurd eq.symm (absent c oldc)
    · rw [self, other b oldb] at eq
      exact absurd eq (absent b oldb)
    · rw [other b oldb, other c oldc] at eq
      exact inv.apart b oldb c oldc eq
  · show (Function.update st.heap fresh ⟨s, 1, data⟩ b).openCnt = (_ :: st.handles).countP _ ∧
      1 ≤ (_ :: st.handles).countP _
    rw [countP_cons_handle]
    rcases List.mem_cons.mp hb with rfl | old
    · rw [self, none, if_pos rfl]
      exact ⟨rfl, Nat.le_refl 1⟩
    · have ne : fresh ≠ b := fun eq => new (eq ▸ old)
      rw [other b old, if_neg ne]
      exact inv.count b old
  · show h.inode ∈ fresh :: st.openInodes ∧
      (Function.update st.heap fresh ⟨s, 1, data⟩ h.inode).sector = h.sector
    rcases List.mem_cons.mp handle with rfl | old
    · exact ⟨List.mem_cons_self, by rw [self]⟩
    · obtain ⟨mem, eq⟩ := inv.listed h old
      exact ⟨List.mem_cons_of_mem _ mem, by rw [other _ mem, eq]⟩
  · exact inv.stored t d last fun h old => none h (List.mem_cons_of_mem _ old)

theorem Coherent.open_ (inv : Coherent st) {fresh : Nat} (new : fresh ∉ st.openInodes) :
    Coherent { (st.inodeOpen s fresh).1 with
      handles := ⟨s, (st.inodeOpen s fresh).2⟩ :: st.handles } := by
  unfold inodeOpen
  split
  next a found =>
    obtain ⟨mem, sector⟩ := search_eq_some found
    exact inv.reopen mem sector
  next none => exact inv.first new (search_eq_none none) _

theorem Coherent.change (inv : Coherent st) (data : Bytes) :
    Coherent (st.setInode a { st.heap a with data := data }) := by
  have same : ∀ b, ((st.setInode a { st.heap a with data := data }).heap b).sector =
      (st.heap b).sector :=
    sector_setInode rfl
  refine ⟨inv.nodup, fun b hb c hc eq => ?_, fun b hb => ?_, fun h handle => ?_, inv.stored⟩
  · apply inv.apart b hb c hc
    rw [← same b, ← same c]
    exact eq
  · rw [heap_setInode]
    split
    next eq =>
      subst eq
      exact inv.count b hb
    next => exact inv.count b hb
  · obtain ⟨mem, eq⟩ := inv.listed h handle
    exact ⟨mem, (same h.inode).trans eq⟩

/-- A handle fewer, with the count of its inode. -/
theorem Coherent.opensOf_erase (handle : h ∈ st.handles) (b : Nat) :
    (st.handles.erase h).countP (·.inode == b) = st.opensOf b - if b = h.inode then 1 else 0 := by
  have all := (List.perm_cons_erase handle).countP_eq (·.inode == b)
  rw [opensOf, all, countP_cons_handle]
  by_cases eq : b = h.inode
  · simp [eq]
  · simp [eq, Ne.symm eq]

/-- A close that is not the last. -/
theorem Coherent.close_kept (inv : Coherent st) (handle : h ∈ st.handles)
    (more : 2 ≤ st.opensOf h.inode) (data : Bytes) :
    Coherent ((st.setInode h.inode
      { st.heap h.inode with openCnt := (st.heap h.inode).openCnt - 1 }).dropHandle h data) := by
  obtain ⟨mem, sector⟩ := inv.listed h handle
  have same : ∀ b, ((st.setInode h.inode
      { st.heap h.inode with openCnt := (st.heap h.inode).openCnt - 1 }).heap b).sector =
      (st.heap b).sector :=
    sector_setInode rfl
  have rest : ∃ h' ∈ st.handles.erase h, h'.sector = h.sector := by
    have left : 0 < (st.handles.erase h).countP (·.inode == h.inode) := by
      rw [Coherent.opensOf_erase handle, if_pos rfl]
      omega
    obtain ⟨h', mem', is⟩ := List.countP_pos_iff.mp left
    have eq : h'.inode = h.inode := by simpa using is
    refine ⟨h', mem', ?_⟩
    rw [← sector, ← eq]
    exact (inv.listed h' (List.mem_of_mem_erase mem')).2.symm
  have any : (st.handles.erase h).any (·.sector == h.sector) = true := by
    obtain ⟨h', mem', eq⟩ := rest
    exact List.any_eq_true.mpr ⟨h', mem', by simpa using eq⟩
  refine ⟨inv.nodup, fun b hb c hc eq => ?_, fun b hb => ?_, fun h' old => ?_,
    fun t d last none => ?_⟩
  · apply inv.apart b hb c hc
    rw [← same b, ← same c]
    exact eq
  · obtain ⟨count, pos⟩ := inv.count b hb
    show ((st.setInode h.inode _).heap b).openCnt = (st.handles.erase h).countP _ ∧
      1 ≤ (st.handles.erase h).countP _
    rw [Coherent.opensOf_erase handle, heap_setInode]
    by_cases eq : b = h.inode
    · subst eq
      rw [if_pos rfl, if_pos rfl]
      exact ⟨congrArg (· - 1) count, by omega⟩
    · rw [if_neg eq, if_neg eq]
      exact ⟨count, pos⟩
  · obtain ⟨mem, eq⟩ := inv.listed h' (List.mem_of_mem_erase old)
    exact ⟨mem, (same h'.inode).trans eq⟩
  · have last : (if (st.handles.erase h).any (·.sector == h.sector) then st.lastClose
        else Function.update st.lastClose h.sector (some data)) t = some d := last
    rw [if_pos any] at last
    refine inv.stored t d last fun h' old eq => ?_
    by_cases is : h' = h
    · obtain ⟨h'', mem'', same⟩ := rest
      exact none h'' mem'' (same.trans (is ▸ eq))
    · exact none h' ((List.mem_erase_of_ne is).mpr old) eq

/-- The last close, which writes the record back. -/
theorem Coherent.close_last (inv : Coherent st) (handle : h ∈ st.handles)
    (once : st.opensOf h.inode = 1) (inode : InodeMem) :
    Coherent (({ st with
      openInodes := st.openInodes.erase h.inode
      sectors := Function.update st.sectors (st.heap h.inode).sector
        (memcpySector (st.sectors (st.heap h.inode).sector) (st.heap h.inode).data) }.setInode
          h.inode inode).dropHandle h (st.heap h.inode).data) := by
  obtain ⟨mem, sector⟩ := inv.listed h handle
  have other : ∀ b ∈ st.openInodes.erase h.inode, b ∈ st.openInodes ∧ b ≠ h.inode ∧
      Function.update st.heap h.inode inode b = st.heap b := by
    intro b hb
    have ne : b ≠ h.inode := fun eq => inv.nodup.not_mem_erase (eq ▸ hb)
    exact ⟨List.mem_of_mem_erase hb, ne, Function.update_of_ne ne _ _⟩
  -- the other handles are on other inodes, and so on other sectors
  have moved : ∀ h' ∈ st.handles.erase h, h'.inode ≠ h.inode := by
    have zero : (st.handles.erase h).countP (·.inode == h.inode) = 0 := by
      rw [Coherent.opensOf_erase handle, if_pos rfl, once]
    intro h' old
    simpa using List.countP_eq_zero.mp zero h' old
  have apart : ∀ h' ∈ st.handles.erase h, h'.sector ≠ h.sector := by
    intro h' old eq
    obtain ⟨mem', sector'⟩ := inv.listed h' (List.mem_of_mem_erase old)
    exact moved h' old (inv.apart _ mem' _ mem (sector'.trans (eq.trans sector.symm)))
  have any : ¬(st.handles.erase h).any (·.sector == h.sector) = true := by
    intro some
    obtain ⟨h', old, eq⟩ := List.any_eq_true.mp some
    exact apart h' old (by simpa using eq)
  refine ⟨inv.nodup.erase _, fun b hb c hc eq => ?_, fun b hb => ?_, fun h' old => ?_,
    fun t d last none i small => ?_⟩
  · obtain ⟨memb, _, sameb⟩ := other b hb
    obtain ⟨memc, _, samec⟩ := other c hc
    have eq : (Function.update st.heap h.inode inode b).sector =
      (Function.update st.heap h.inode inode c).sector := eq
    rw [sameb, samec] at eq
    exact inv.apart b memb c memc eq
  · obtain ⟨memb, ne, same⟩ := other b hb
    show (Function.update st.heap h.inode inode b).openCnt = (st.handles.erase h).countP _ ∧
      1 ≤ (st.handles.erase h).countP _
    rw [Coherent.opensOf_erase handle, if_neg ne, same]
    exact inv.count b memb
  · obtain ⟨mem', eq⟩ := inv.listed h' (List.mem_of_mem_erase old)
    have left := (List.mem_erase_of_ne (moved h' old)).mpr mem'
    refine ⟨left, ?_⟩
    show (Function.update st.heap h.inode inode h'.inode).sector = h'.sector
    rw [(other _ left).2.2, eq]
  · have last : (if (st.handles.erase h).any (·.sector == h.sector) then st.lastClose
        else Function.update st.lastClose h.sector (some (st.heap h.inode).data)) t = some d := last
    rw [if_neg any, Function.update_apply] at last
    show Function.update st.sectors (st.heap h.inode).sector _ t i = d i
    rw [sector, Function.update_apply]
    split at last
    next eq =>
      obtain rfl := Option.some.inj last
      rw [if_pos eq]
      exact memcpySector_of_lt _ _ small
    next ne =>
      rw [if_neg ne]
      refine inv.stored t d last (fun h' old eq => ?_) i small
      have is : h' ≠ h := fun same => ne (eq.symm.trans (congrArg Handle.sector same))
      exact none h' ((List.mem_erase_of_ne is).mpr old) eq

theorem Coherent.close (inv : Coherent st) (handle : h ∈ st.handles) :
    Coherent ((st.inodeClose h.inode).dropHandle h (st.heap h.inode).data) := by
  obtain ⟨count, pos⟩ := inv.count _ (inv.listed h handle).1
  unfold inodeClose
  simp only
  split
  next last => exact inv.close_last handle (by omega) _
  next more => exact inv.close_kept handle (by omega) _

theorem Coherent.step {call : InodeCall} (inv : Coherent st) (hstep : st.step call = some st') :
    Coherent st' := by
  cases call with
  | open_ sector fresh =>
    simp only [InodeTable.step] at hstep
    split at hstep
    next => cases hstep
    next new =>
      obtain rfl := Option.some.inj hstep
      exact inv.open_ new
  | reopen h =>
    simp only [InodeTable.step] at hstep
    split at hstep
    next handle =>
      obtain rfl := Option.some.inj hstep
      obtain ⟨mem, sector⟩ := inv.listed h handle
      exact inv.reopen mem sector
    next => cases hstep
  | change a data =>
    simp only [InodeTable.step] at hstep
    split at hstep
    next =>
      obtain rfl := Option.some.inj hstep
      exact inv.change _
    next => cases hstep
  | close h =>
    simp only [InodeTable.step] at hstep
    split at hstep
    next handle =>
      obtain rfl := Option.some.inj hstep
      exact inv.close handle
    next => cases hstep

theorem Start.coherent (start : Start st) : Coherent st := by
  obtain ⟨list, handles, never⟩ := start
  constructor
  · rw [list]
    exact List.nodup_nil
  · simp [list]
  · simp [list]
  · simp [handles]
  · simp [never]

/-- An open of a sector that is not open reads the record from the sector. -/
theorem Coherent.reads (inv : Coherent st) {fresh : Nat} {d : Bytes}
    (closed : ∀ h ∈ st.handles, h.sector ≠ s) (last : st.lastClose s = some d)
    (hstep : st.step (.open_ s fresh) = some st') :
    ⟨s, fresh⟩ ∈ st'.handles ∧ ∀ i < 512, (st'.heap fresh).data i = d i := by
  have absent : st.search s = none := by
    cases found : st.search s with
    | none => rfl
    | some a =>
      obtain ⟨mem, sector⟩ := search_eq_some found
      obtain ⟨h, handle, _, same⟩ := inv.handle mem
      exact absurd (same.trans sector) (closed h handle)
  simp only [InodeTable.step, inodeOpen, absent] at hstep
  split at hstep
  next => cases hstep
  next =>
    obtain rfl := Option.some.inj hstep
    refine ⟨List.mem_cons_self, fun i small => ?_⟩
    show (Function.update st.heap fresh _ fresh).data i = d i
    rw [Function.update_self]
    exact (memcpySector_of_lt _ _ small).trans (inv.stored s d last closed i small)

end InodeTable

end Pintos.Filesys
