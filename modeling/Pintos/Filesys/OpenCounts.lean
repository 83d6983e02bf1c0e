import Pintos.Filesys.Tree

/-! How many times each inode of the tree is open.  Opening and closing change nothing else that is
read of an inode, and `dir_add` and `dir_remove` do not change the counts. -/

namespace Pintos.Filesys

open Words CStrings ByteFiles

namespace Tree

/-- `inode_open_cnt`, zero for an inode that is not open. -/
def openCnt (t : Tree) (s : UInt32) : Nat := (t.opens s).elim 0 Node.openCnt

/-- The inode of sector `s` is open and was removed. -/
def removed (t : Tree) (s : UInt32) : Bool := (t.opens s).any fun node => node.removed

/-- No inode in the table is open zero times. -/
def Counted (t : Tree) : Prop := ∀ s node, t.opens s = some node → 0 < node.openCnt

variable {t t' : Tree} {s d : UInt32} {f : ByteFile} {name : CString}

theorem Counted.openCnt_pos (h : t.Counted) (mark : t.removed s = true) : 0 < t.openCnt s := by
  obtain ⟨node, here, -⟩ := (Option.any_eq_true _ _).mp mark
  simp only [openCnt, here, Option.elim_some]
  exact h s node here

/-- The tree with one more opener of `s`. -/
structure OpensOne (t t' : Tree) (s : UInt32) : Prop where
  openCnt : t'.openCnt = Function.update t.openCnt s (t.openCnt s + 1)
  record : t'.record = t.record
  bytes : t'.bytes = t.bytes
  removed : t'.removed = t.removed
  counted : t.Counted → t'.Counted

/-- The tree with one opener less of `s`. -/
structure ClosesOne (t t' : Tree) (s : UInt32) : Prop where
  openCnt : t'.openCnt = Function.update t.openCnt s (t.openCnt s - 1)
  record : t'.record = t.record
  bytes : t'.bytes = t.bytes
  removed : ∀ u, t'.removed u = true → t.removed u = true
  counted : t.Counted → t'.Counted

theorem OpensOne.file (h : OpensOne t t' s) : t'.file = t.file := by
  funext u
  rw [Tree.file, Tree.file, h.record, h.bytes]

/-- An inode of the table with another count of openers, and the record that it had. -/
theorem opensOne_update {node : Node} (count : node.openCnt = t.openCnt s + 1)
    (data : node.data = t.record s) (mark : node.removed = t.removed s) :
    OpensOne t { t with opens := Function.update t.opens s (some node) } s := by
  refine ⟨funext fun u => ?_, funext fun u => ?_, rfl, funext fun u => ?_,
    fun counted u other here => ?_⟩
  · by_cases eq : u = s
    · subst eq
      simp [openCnt, count]
    · simp [openCnt, eq]
  · by_cases eq : u = s
    · subst eq
      rw [← data]
      simp [record]
    · simp [record, eq]
  · by_cases eq : u = s
    · subst eq
      rw [← mark]
      simp [removed]
    · simp [removed, eq]
  · by_cases eq : u = s
    · subst eq
      obtain rfl : node = other := by simpa using here
      omega
    · simp only [Function.update_of_ne eq] at here
      exact counted u other here

theorem inodeOpen_opensOne {memory : Bool} (run : t.inodeOpen s memory = some t') :
    OpensOne t t' s := by
  unfold inodeOpen at run
  cases here : t.opens s with
  | some node =>
    simp only [here, Option.some.injEq] at run
    subst run
    exact opensOne_update (by simp [openCnt, here]) (by simp [record, here])
      (by simp [removed, here])
  | none =>
    simp only [here] at run
    split at run
    · cases run
      exact opensOne_update (by simp [openCnt, here]) (by simp [record, here])
        (by simp [removed, here])
    · cases run

theorem inodeOpen_memory (t : Tree) (s : UInt32) : ∃ t', t.inodeOpen s true = some t' := by
  unfold inodeOpen
  cases t.opens s with
  | some node => exact ⟨_, rfl⟩
  | none => exact ⟨_, rfl⟩

theorem inodeClose_closesOne (counted : t.Counted) (s : UInt32) :
    ClosesOne t (t.inodeClose s) s := by
  unfold Tree.inodeClose
  cases here : t.opens s with
  | none =>
    have zero : t.openCnt s = 0 := by simp [openCnt, here]
    refine ⟨?_, rfl, rfl, fun u mark => mark, id⟩
    rw [zero, Nat.zero_sub, ← zero, Function.update_eq_self]
  | some node =>
    dsimp only
    split
    next last =>
      refine ⟨funext fun u => ?_, funext fun u => ?_, rfl, fun u mark => ?_,
        fun _ u other isOpen => ?_⟩
      · by_cases eq : u = s
        · subst eq
          simp [openCnt, here, last]
        · simp [openCnt, eq]
      · by_cases eq : u = s
        · subst eq
          simp [record, here]
        · simp [record, eq]
      · by_cases eq : u = s
        · subst eq
          simp [removed] at mark
        · simpa [removed, eq] using mark
      · by_cases eq : u = s
        · subst eq
          simp at isOpen
        · simp only [Function.update_of_ne eq] at isOpen
          exact counted u other isOpen
    next more =>
      refine ⟨funext fun u => ?_, funext fun u => ?_, rfl, fun u mark => ?_,
        fun _ u other isOpen => ?_⟩
      · by_cases eq : u = s
        · subst eq
          simp [openCnt, here]
        · simp [openCnt, eq]
      · by_cases eq : u = s
        · subst eq
          simp [record, here]
        · simp [record, eq]
      · by_cases eq : u = s
        · subst eq
          have mark : node.removed = true := by simpa [removed] using mark
          simp [removed, here, mark]
        · simpa [removed, eq] using mark
      · by_cases eq : u = s
        · subst eq
          simp only [Function.update_self, Option.some.injEq] at isOpen
          subst isOpen
          exact Nat.pos_of_ne_zero more
        · simp only [Function.update_of_ne eq] at isOpen
          exact counted u other isOpen

/-- The same openers, of inodes of the same kind; what is marked in `t'` was marked in `t` or is in
`mark`. -/
structure Alike (t t' : Tree) (mark : UInt32 → Prop) : Prop where
  openCnt : t'.openCnt = t.openCnt
  isdir : ∀ s, (t'.record s).isdir = (t.record s).isdir
  removed : ∀ s, t'.removed s = true → t.removed s = true ∨ mark s
  counted : t.Counted → t'.Counted

theorem Alike.refl (t : Tree) (mark : UInt32 → Prop) : Alike t t mark :=
  ⟨rfl, fun _ => rfl, fun _ h => .inl h, id⟩

theorem Alike.trans {mid : Tree} {mark : UInt32 → Prop} (h : Alike t mid mark)
    (h' : Alike mid t' mark) : Alike t t' mark :=
  ⟨h'.openCnt.trans h.openCnt, fun s => (h'.isdir s).trans (h.isdir s),
    fun s marked => (h'.removed s marked).elim (h.removed s) .inr,
    fun c => h'.counted (h.counted c)⟩

/-- Members of one inode in the table change, but neither its openers nor its kind. -/
theorem alike_map (t : Tree) (s : UInt32) (bytes : UInt32 → Bytes) (change : Node → Node)
    (mark : UInt32 → Prop) (openCnt : ∀ node, (change node).openCnt = node.openCnt)
    (isdir : ∀ node, (change node).data.isdir = node.data.isdir)
    (removed : ∀ node, (change node).removed = true → node.removed = true ∨ mark s) :
    Alike t { t with
      bytes := bytes, opens := Function.update t.opens s ((t.opens s).map change) } mark := by
  refine ⟨funext fun u => ?_, fun u => ?_, fun u marked => ?_, fun counted u node isOpen => ?_⟩
  · by_cases eq : u = s
    · subst eq
      cases here : t.opens u <;> simp [Tree.openCnt, here, openCnt]
    · simp [Tree.openCnt, eq]
  · by_cases eq : u = s
    · subst eq
      cases here : t.opens u <;> simp [Tree.record, here, isdir]
    · simp [Tree.record, eq]
  · by_cases eq : u = s
    · subst eq
      cases here : t.opens u with
      | none => simp [Tree.removed, here] at marked
      | some node =>
        have marked : (change node).removed = true := by simpa [Tree.removed, here] using marked
        simpa [Tree.removed, here] using removed node marked
    · left
      simpa [Tree.removed, eq] using marked
  · by_cases eq : u = s
    · subst eq
      simp only [Function.update_self] at isOpen
      obtain ⟨old, here, rfl⟩ := Option.map_eq_some_iff.mp isOpen
      rw [openCnt]
      exact counted u old here
    · simp only [Function.update_of_ne eq] at isOpen
      exact counted u node isOpen

theorem write_alike (t : Tree) (d : UInt32) (f : ByteFile) (mark : UInt32 → Prop) :
    Alike t (t.write d f) mark :=
  alike_map t d _ _ mark (fun _ => rfl) (fun _ => rfl) fun _ marked => .inl marked

theorem inodeRemove_alike (t : Tree) (s : UInt32) : Alike t (t.inodeRemove s) (· = s) :=
  alike_map t s t.bytes _ (· = s) (fun _ => rfl) (fun _ => rfl) fun _ _ => .inr rfl

theorem dirAdd_alike (t : Tree) (d : UInt32) (name : CString) (sector : UInt32) (junk : Bytes)
    (mark : UInt32 → Prop) : Alike t (t.dirAdd d name sector junk).1 mark := by
  rw [Tree.dirAdd]
  split
  · exact write_alike t d _ mark
  · exact .refl t mark

/-- An inode is opened and, after the change, closed again. -/
theorem Alike.between {t₁ t₂ : Tree} {mark : UInt32 → Prop} (h : Alike t₁ t₂ mark)
    (opens : t.OpensOne t₁ s) (closes : t₂.ClosesOne t' s) : Alike t t' mark := by
  refine ⟨?_, fun u => ?_, fun u marked => ?_,
    fun c => closes.counted (h.counted (opens.counted c))⟩
  · rw [closes.openCnt, h.openCnt, opens.openCnt, Function.update_self, Function.update_idem,
      Nat.add_sub_cancel, Function.update_eq_self]
  · rw [closes.record, h.isdir, opens.record]
  · rw [← opens.removed]
    exact h.removed u (closes.removed u marked)

/-- `dir_remove` leaves the openers as they are.  When it succeeds it has marked the inode of the
name, and a directory had no entries and at most one opener. -/
theorem dirRemove_cases {mem : Memory} {success : Bool} (counted : t.Counted)
    (run : t.dirRemove mem d name = some (t', success)) :
    (success = false ∧ Alike t t' fun _ => False) ∨
    ∃ e ofs, success = true ∧ lookup (t.file d) name = some (e, ofs) ∧
      Alike t t' (· = inodeSector e) ∧ ((t.record (inodeSector e)).isdir = true →
        dirIsEmpty (t.file (inodeSector e)) = true ∧ t.openCnt (inodeSector e) ≤ 1) := by
  unfold Tree.dirRemove at run
  cases found : lookup (t.file d) name with
  | none =>
    simp only [found, Option.some.injEq, Prod.mk.injEq] at run
    obtain ⟨rfl, rfl⟩ := run
    exact .inl ⟨rfl, .refl t _⟩
  | some result =>
    obtain ⟨e, ofs⟩ := result
    simp only [found] at run
    cases opened : t.inodeOpen (inodeSector e) mem.inode with
    | none =>
      simp only [opened, Option.some.injEq, Prod.mk.injEq] at run
      obtain ⟨rfl, rfl⟩ := run
      exact .inl ⟨rfl, .refl t _⟩
    | some t₁ =>
      have opens := Tree.inodeOpen_opensOne opened
      have counted₁ := opens.counted counted
      simp only [opened] at run
      split at run
      · cases run
      split at run
      next f removed =>
        obtain ⟨rfl, rfl⟩ := Prod.mk.inj (Option.some.inj run)
        refine .inr ⟨e, ofs, rfl, rfl, ?_, fun isdir => ?_⟩
        · have marked := (write_alike t₁ d f (· = inodeSector e)).trans (inodeRemove_alike _ _)
          exact marked.between opens
            (Tree.inodeClose_closesOne (marked.counted counted₁) (inodeSector e))
        · have free : t₁.busy (inodeSector e) = false := by
            rw [opens.file, Filesys.dirRemove, found] at removed
            dsimp only at removed
            split at removed
            · cases removed
            next free => exact Bool.eq_false_iff.mpr free
          have more : t₁.openCnt (inodeSector e) = t.openCnt (inodeSector e) + 1 := by
            rw [opens.openCnt, Function.update_self]
          simp only [Tree.busy, opens.record, opens.file, isdir, Bool.true_and,
            Bool.or_eq_false_iff, Bool.not_eq_false'] at free
          refine ⟨free.1, ?_⟩
          cases here : t₁.opens (inodeSector e) with
          | none =>
            simp only [Tree.openCnt, here, Option.elim_none] at more
            omega
          | some node =>
            simp only [Tree.openCnt, here, Option.elim_some] at more
            have few := free.2
            simp only [here, Option.any_some, decide_eq_false_iff_not] at few
            simp only [Tree.openCnt]
            omega
      next f removed =>
        obtain ⟨rfl, rfl⟩ := Prod.mk.inj (Option.some.inj run)
        exact .inl ⟨rfl, (Alike.refl t₁ _).between opens (Tree.inodeClose_closesOne counted₁ _)⟩

/-- One other opener of a directory does not keep it from being removed. -/
theorem dirRemove_once {mem : Memory} {success : Bool} {e : Bytes} {ofs : Nat}
    (found : lookup (t.file d) name = some (e, ofs))
    (empty : dirIsEmpty (t.file (inodeSector e)) = true) (once : t.openCnt (inodeSector e) = 1)
    (run : t.dirRemove mem d name = some (t', success)) : success = true := by
  unfold Tree.dirRemove at run
  simp only [found] at run
  cases opened : t.inodeOpen (inodeSector e) mem.inode with
  | none =>
    rw [Tree.inodeOpen] at opened
    cases here : t.opens (inodeSector e) with
    | some node => simp [here] at opened
    | none => simp [Tree.openCnt, here] at once
  | some t₁ =>
    have opens := Tree.inodeOpen_opensOne opened
    have twice : t₁.openCnt (inodeSector e) = 2 := by
      rw [opens.openCnt, Function.update_self, once]
    have free : t₁.busy (inodeSector e) = false := by
      have few : (t₁.opens (inodeSector e)).any (fun node => 2 < node.openCnt) = false := by
        rw [Option.any_eq_false]
        intro node here
        simp only [Tree.openCnt, here, Option.elim_some] at twice
        simp [twice]
      rw [Tree.busy, opens.file, empty, few]
      simp
    simp only [opened] at run
    split at run
    · cases run
    · simp only [opens.file, Filesys.dirRemove, found, free, Bool.false_eq_true, if_false] at run
      exact (Prod.mk.inj (Option.some.inj run)).2.symm

/-- Enough memory for every call. -/
def ample : Memory := ⟨fun _ => true, fun _ => true, true, true, true⟩

/-- The root directory with the empty directory `a` in sector 10, and nothing open. -/
def rootWithA : Tree where
  disk s := ⟨if s = 1 then 20 else 0, s = 1 ∨ s = 10, 1⟩
  bytes s := if s = 1 then newEntry (fun _ => 0) ⟨[97], by decide⟩ 10 else fun _ => 0
  opens _ := none
  used s := s = 0 || s = 1 || s = 10

theorem rootWithA_counted : rootWithA.Counted := by
  intro s node isOpen
  cases isOpen

end Tree

end Pintos.Filesys
