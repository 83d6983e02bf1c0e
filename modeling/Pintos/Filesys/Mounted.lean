import Pintos.Filesys.Creation

/-! The way to the directory of a path leaves nothing behind but that directory open once more. -/

namespace Pintos.Filesys

open Words Role CStrings ByteFiles Filesys.Tree

namespace Files

/-- A file system in use: the free-map file is open, the entries of directories lead to inodes that
are there, and so do the parents. -/
structure Mounted (st : Files) : Prop extends Inv st where
  counted : ∀ s o, st.opens s = some o → 0 < o.openCnt
  freeMap : st.live 0 = true ∧ (st.inode 0).isdir = false
  freeMapFile : ∃ o, st.opens 0 = some o ∧ o.data = .read (st.fs.data 0) ∧ o.data.length ≠ 0
  root : st.live 1 = true ∧ (st.inode 1).isdir = true
  entries : ∀ d name s, st.live d = true → (st.inode d).isdir = true → st.lookup d name = some s →
    st.live s = true
  parents : ∀ s, st.live s = true → st.live (st.inode s).parent = true

/-- The free map, the inodes in memory and in their sectors, and the contents of the directories are
those of `st`. -/
structure NoTrace (st st' : Files) : Prop where
  used : st'.fs.free.used = st.fs.free.used
  inode : ∀ s, st.live s = true → st'.inode s = st.inode s
  record : ∀ s, st.live s = true → InodeDisk.read (st'.fs.data s) = .read (st.fs.data s)
  contents : ∀ d, st.live d = true → (st.inode d).isdir = true → ∀ p < (st.inode d).length,
    byteAt st'.fs (st'.inode d) p = byteAt st.fs (st.inode d) p

/-- The free map and the inodes are those of `st₀`, as well as the sectors in use of no inode. -/
structure Intact (st₀ st : Files) : Prop where
  used : st.fs.free.used = st₀.fs.free.used
  inode : ∀ s, st₀.live s = true → st.inode s = st₀.inode s
  record : ∀ s, st₀.live s = true → InodeDisk.read (st.fs.data s) = .read (st₀.fs.data s)
  data : ∀ s, st₀.fs.free.Used s → st₀.live s = false → st.fs.data s = st₀.fs.data s

/-- `inode_open` of an inode that may be open. -/
def bump (st : Files) (s : Nat) : OpenInode :=
  match st.opens s with
  | some o => { o with openCnt := o.openCnt + 1 }
  | none => ⟨1, false, 0, .read (st.fs.data s)⟩

/-- The state `st₀` with the directory `d` open once more. -/
structure Visits (st₀ st : Files) (d : Nat) : Prop extends Intact st₀ st where
  free : st.fs.free = st₀.fs.free
  live : st.live = st₀.live
  opens : st.opens = Function.update st₀.opens d (some (st₀.bump d))
  dir : st₀.live d = true ∧ (st₀.inode d).isdir = true

section Intact

variable {st₀ st : Files} {d s : Nat}

theorem Intact.refl (st : Files) : Intact st st :=
  ⟨rfl, fun _ _ => rfl, fun _ _ => rfl, fun _ _ _ => rfl⟩

theorem inodeOpen_bump (st : Files) (s : Nat) :
    st.inodeOpen s = { st with opens := Function.update st.opens s (some (st.bump s)) } := by
  unfold inodeOpen bump
  cases st.opens s <;> rfl

theorem Intact.byteAt (wf : WellFormed st₀) (intact : Intact st₀ st) (live : st₀.live d = true)
    {p : Nat} (inside : p < (st₀.inode d).length) :
    Filesys.byteAt st.fs (st.inode d) p = Filesys.byteAt st₀.fs (st₀.inode d) p := by
  have part : ∀ r, Upto (nextBlock (st₀.inode d).length) r →
      st.fs.data (sectorAt st₀.fs (st₀.inode d) r) =
        st₀.fs.data (sectorAt st₀.fs (st₀.inode d) r) := by
    intro r hr
    refine intact.data _ (wf.used d (.part r) live hr) (Bool.eq_false_iff.mpr fun other => ?_)
    exact wf.off_own live other r hr rfl
  have block : Upto (nextBlock (st₀.inode d).length) (.data (p / 512)) := by
    simp only [Upto, nextBlock, bytesToSectors]
    omega
  rw [intact.inode d live]
  refine byteAt_congr ?_ (part _ block)
  refine sectorAt_congr (fun r R k hr slot => hr.closed slot)
    (fun r _ => sectorAt_direct st₀.fs st.fs _) (fun r R k hr slot => ?_) block
  exact congrArg (getWord · k) (part R (hr.closed slot))

theorem Intact.noTrace (wf : WellFormed st₀) (intact : Intact st₀ st) : NoTrace st₀ st :=
  ⟨intact.used, intact.inode, intact.record, fun _ live _ _ inside => intact.byteAt wf live inside⟩

theorem Intact.lookup (wf : WellFormed st₀) (intact : Intact st₀ st) (live : st₀.live d = true)
    (name : CString) : st.lookup d name = st₀.lookup d name := by
  have same := intact.inode d live
  have found : Filesys.lookup (st.byteFile d) name = Filesys.lookup (st₀.byteFile d) name :=
    lookup_congr (congrArg InodeDisk.length same) (fun p inside => intact.byteAt wf live inside)
      name
  rw [Files.lookup, Files.lookup, found]

end Intact

section Walk

variable {st₀ st st' : Files} {d s : Nat} {dev : Nat → Bytes}

/-- A close that takes back an open of an inode of `st₀`. -/
theorem Mounted.close (mounted : Mounted st₀) (intact : Intact st₀ st) (live : st₀.live d = true)
    (here : st.opens d = some (st₀.bump d)) (dev : Nat → Bytes) :
    ∃ st', st.inodeClose dev d = .ok st' ∧ Intact st₀ st' ∧ st'.fs.free = st.fs.free ∧
      st'.live = st.live ∧ st'.opens = Function.update st.opens d (st₀.opens d) := by
  have other : ∀ st' : Files, (∀ t, t ≠ d → st'.opens t = st.opens t) →
      (∀ t, t ≠ d → st'.fs.data t = st.fs.data t) → ∀ t, t ≠ d → st₀.live t = true →
        st'.inode t = st₀.inode t := by
    intro st' opens data t ne alive
    rw [← intact.inode t alive]
    unfold Files.inode
    rw [opens t ne, data t ne]
  unfold inodeClose
  rw [here]
  cases was : st₀.opens d with
  | some o =>
    have positive := mounted.counted d o was
    have again : st₀.bump d = { o with openCnt := o.openCnt + 1 } := by rw [bump, was]
    simp only [again, Nat.add_sub_cancel]
    rw [if_neg (by omega)]
    refine ⟨_, rfl, ⟨intact.used, fun t alive => ?_, intact.record, intact.data⟩, rfl, rfl, rfl⟩
    by_cases eq : t = d
    · subst eq
      rw [inode_of_open (Function.update_self t _ _), inode_of_open was]
    · exact other ⟨st.fs, Function.update st.opens d (some o), st.live⟩
        (fun u ne => Function.update_of_ne ne ..) (fun _ _ => rfl) t eq alive
  | none =>
    have first : st₀.bump d = ⟨1, false, 0, .read (st₀.fs.data d)⟩ := by rw [bump, was]
    have written : ∀ c, InodeDisk.read ((InodeDisk.read (st₀.fs.data d)).copyTo c) =
        .read (st₀.fs.data d) := read_copyTo_small (read_small _)
    simp only [first, Nat.sub_self, if_true, lastClose, Bool.false_eq_true, if_false]
    refine ⟨_, rfl, ⟨intact.used, fun t alive => ?_, fun t alive => ?_, fun t used dead => ?_⟩, rfl,
      rfl, rfl⟩
    · by_cases eq : t = d
      · subst eq
        rw [inode_of_closed (Function.update_self t _ _), inode_of_closed was]
        simp only [Fs.put_self]
        exact written _
      · exact other _ (fun t ne => Function.update_of_ne ne _ _)
          (fun t ne => Fs.put_of_ne _ _ ne) t eq alive
    · by_cases eq : t = d
      · subst eq
        simp only [Fs.put_self]
        exact written _
      · simp only [Fs.put_of_ne _ _ eq]
        exact intact.record t alive
    · have ne : t ≠ d := by
        rintro rfl
        cases live.symm.trans dead
      simp only [Fs.put_of_ne _ _ ne]
      exact intact.data t used dead

theorem Visits.bump (visits : Visits st₀ st d) (live : st₀.live s = true) (ne : s ≠ d) :
    st.bump s = st₀.bump s := by
  unfold Files.bump
  rw [visits.opens, Function.update_of_ne ne, visits.record s live]

/-- Another open of an inode. -/
theorem Intact.open_ (intact : Intact st₀ st) (s : Nat) : Intact st₀ (st.inodeOpen s) := by
  obtain ⟨o, eq, same⟩ := st.inodeOpen_eq s
  rw [eq]
  refine ⟨intact.used, fun t alive => ?_, intact.record, intact.data⟩
  rw [(sameView_opens same).inode]
  exact intact.inode t alive

theorem Visits.here (visits : Visits st₀ st d) : st.opens d = some (st₀.bump d) := by
  rw [visits.opens]
  exact Function.update_self ..

theorem Mounted.bump_counts (mounted : Mounted st₀) (s : Nat) :
    ((st₀.bump s).openCnt = 1 → (st₀.bump s).removed = false) ∧ 0 < (st₀.bump s).openCnt := by
  unfold bump
  cases was : st₀.opens s with
  | none => exact ⟨fun _ => rfl, Nat.one_pos⟩
  | some o =>
    have positive := mounted.counted s o was
    exact ⟨fun (one : o.openCnt + 1 = 1) => by omega, Nat.succ_pos _⟩

/-- The directory itself is opened once more and closed again. -/
theorem Mounted.enter_self (mounted : Mounted st₀) (visits : Visits st₀ st d)
    (dev : Nat → Bytes) :
    ∃ st', (st.inodeOpen d).inodeClose dev d = .ok st' ∧ Visits st₀ st' d := by
  have old := visits.here
  have twice : (st.inodeOpen d).opens d =
      some { st₀.bump d with openCnt := (st₀.bump d).openCnt + 1 } := by
    rw [inodeOpen_bump, Files.bump, old]
    exact Function.update_self ..
  have positive : (st₀.bump d).openCnt ≠ 0 := Nat.ne_of_gt (mounted.bump_counts d).2
  have back : Function.update st.opens d (some (st₀.bump d)) = st.opens := by
    rw [← old, Function.update_eq_self]
  refine ⟨st, ?_, visits⟩
  unfold inodeClose
  rw [twice]
  simp only [Nat.add_sub_cancel, if_neg positive]
  rw [inodeOpen_bump]
  simp only [Function.update_idem, back]

/-- Another directory is opened, and the one before closed. -/
theorem Mounted.enter_dir (mounted : Mounted st₀) (visits : Visits st₀ st d) (ne : s ≠ d)
    (live : st₀.live s = true) (isdir : (st₀.inode s).isdir = true) (dev : Nat → Bytes) :
    ∃ st', (st.inodeOpen s).inodeClose dev d = .ok st' ∧ Visits st₀ st' s := by
  have opened := st.inodeOpen_bump s
  have old : (st.inodeOpen s).opens d = some (st₀.bump d) := by
    rw [opened, ← visits.here]
    exact Function.update_of_ne ne.symm ..
  obtain ⟨st', close, intact, free, lives, opens⟩ :=
    mounted.close (visits.toIntact.open_ s) visits.dir.1 old dev
  refine ⟨st', close, intact, ?_, ?_, ?_, live, isdir⟩
  · rw [free, opened]
    exact visits.free
  · rw [lives, opened]
    exact visits.live
  · rw [opens, opened, visits.bump live ne]
    simp only [visits.opens]
    rw [Function.update_comm ne, Function.update_idem, Function.update_eq_self]

/-- What is no directory is opened and closed. -/
theorem Mounted.enter_file (mounted : Mounted st₀) (visits : Visits st₀ st d) (ne : s ≠ d)
    (live : st₀.live s = true) (dev : Nat → Bytes) :
    ∃ st', (st.inodeOpen s).inodeClose dev s = .ok st' ∧ Visits st₀ st' d := by
  have opened := st.inodeOpen_bump s
  have here : (st.inodeOpen s).opens s = some (st₀.bump s) := by
    rw [opened, visits.bump live ne]
    exact Function.update_self ..
  have same : st.opens s = st₀.opens s := by rw [visits.opens, Function.update_of_ne ne]
  obtain ⟨st', close, intact, free, lives, opens⟩ :=
    mounted.close (visits.toIntact.open_ s) live here dev
  refine ⟨st', close, intact, ?_, ?_, ?_, visits.dir⟩
  · rw [free, opened]
    exact visits.free
  · rw [lives, opened]
    exact visits.live
  · rw [opens, opened]
    simp only [Function.update_idem]
    rw [← same, Function.update_eq_self, visits.opens]

/-- A name on the way is followed. -/
theorem Mounted.enter (mounted : Mounted st₀) (visits : Visits st₀ st d)
    (live : st₀.live s = true) (dev : Nat → Bytes) :
    ∃ st' d', st.enter dev d s = some (st', d') ∧ Visits st₀ st' d' := by
  have kind := (visits.toIntact.open_ s).inode s live
  unfold Files.enter
  dsimp only
  rw [kind]
  by_cases isdir : (st₀.inode s).isdir = true
  · rw [if_pos isdir]
    by_cases same : s = d
    · subst same
      obtain ⟨st', close, visits'⟩ := mounted.enter_self visits dev
      exact ⟨st', s, by rw [close]; rfl, visits'⟩
    · obtain ⟨st', close, visits'⟩ := mounted.enter_dir visits same live isdir dev
      exact ⟨st', s, by rw [close]; rfl, visits'⟩
  · have ne : s ≠ d := by
      rintro rfl
      exact isdir visits.dir.2
    rw [if_neg isdir]
    obtain ⟨st', close, visits'⟩ := mounted.enter_file visits ne live dev
    exact ⟨st', d, by rw [close]; rfl, visits'⟩

/-- An inode on the way is one that is there. -/
theorem Mounted.component (mounted : Mounted st₀) (visits : Visits st₀ st d) {inode : Nat}
    (live : st₀.live inode = true) {token : CString}
    (found : st.component d inode token = some (some s)) : st₀.live s = true := by
  unfold Files.component at found
  split at found
  · obtain ⟨o, isOpen, up⟩ := Option.map_eq_some_iff.mp found
    split at up
    · cases up
    · obtain rfl := Option.some.inj up
      have parent := mounted.parents inode live
      rwa [← visits.inode inode live, inode_of_open isOpen] at parent
  · have entry := Option.some.inj found
    rw [visits.toIntact.lookup mounted.toInv.wellFormed visits.dir.1] at entry
    exact mounted.entries d token s visits.dir.1 visits.dir.2 entry

/-- The walk leaves one directory open, the one that it returns. -/
theorem Mounted.walk (mounted : Mounted st₀) (visits : Visits st₀ st d) {inode : Nat}
    (live : st₀.live inode = true) {token : CString} {rest : List CString}
    {result : Option (Nat × Option CString)}
    (run : st.walk dev d inode token rest = some (st', result)) :
    ∃ d', Visits st₀ st' d' ∧ ∀ e name, result = some (e, name) → e = d' := by
  induction rest generalizing st d inode token with
  | nil =>
    cases run
    refine ⟨d, visits, ?_⟩
    rintro e name ⟨⟩
    rfl
  | cons next rest ih =>
    rw [Files.walk] at run
    split at run
    · exact ih visits live run
    · split at run
      · cases run
      · cases run
        exact ⟨d, visits, fun e name found => nomatch found⟩
      next s found =>
        have there := mounted.component visits live found
        obtain ⟨st₁, d₁, entered, visits₁⟩ := mounted.enter visits there dev
        rw [entered] at run
        exact ih visits₁ there run

theorem Mounted.trueDir (mounted : Mounted st₀) {cur : Option Nat}
    (here : ∀ d, cur = some d → st₀.live d = true ∧ (st₀.inode d).isdir = true) {path : CString}
    {result : Option (Nat × Option CString)}
    (run : st₀.trueDir dev cur path = some (st, result)) :
    Intact st₀ st ∧ ∀ d name, result = some (d, name) → Visits st₀ st d := by
  unfold Files.trueDir at run
  split at run
  · cases run
    exact ⟨.refl st₀, fun d name found => nomatch found⟩
  have start : st₀.live (startDir cur path) = true ∧
      (st₀.inode (startDir cur path)).isdir = true := by
    unfold startDir
    cases cur with
    | none => exact mounted.root
    | some d =>
      dsimp only
      split
      · exact mounted.root
      · exact here d rfl
  have visits : Visits st₀ (st₀.inodeOpen (startDir cur path)) (startDir cur path) := by
    have opened := st₀.inodeOpen_bump (startDir cur path)
    refine ⟨(Intact.refl st₀).open_ _, ?_, ?_, ?_, start⟩ <;> rw [opened]
  dsimp only at run
  split at run
  · cases run
    refine ⟨visits.toIntact, ?_⟩
    rintro d name ⟨⟩
    exact visits
  · obtain ⟨d', visits', same⟩ := mounted.walk visits start.1 run
    refine ⟨visits'.toIntact, fun d name found => ?_⟩
    rw [same d name found]
    exact visits'

end Walk

end Files

end Pintos.Filesys
