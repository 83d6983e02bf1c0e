import Mathlib.Data.List.TakeWhile
import Pintos.Filesys.Directory
import Pintos.Lib.Transition

/-! `dir_readdir` from a fresh handle on, with calls of `dir_add` and `dir_remove` on the same
directory in between. -/

namespace Pintos.Filesys

open Words CStrings ByteFiles Transition

/-- The string in `name` after `strlcpy (name, e.name, NAME_MAX + 1)`. -/
def entryName (e : Bytes) : CString :=
  ⟨((List.range nameMax).map fun i => e (4 + i)).takeWhile (· != 0), fun mem => by
    simpa using List.mem_takeWhile_imp mem⟩

/-- `dir_readdir` with `pos`: the name it returns, if any, and `pos` afterwards. -/
def dirReaddir (f : ByteFile) (pos : Nat) (junk : Bytes) : Option CString × Nat :=
  match scanEntries f inUse (f.length / 20 + 1) pos junk with
  | (true, ofs, e) => (some (entryName e), ofs + 20)
  | (false, ofs, _) => (none, ofs)

/-- A handle with the names that it has returned, each with the entry before `pos`, and whether a
call has returned false. -/
structure Iteration where
  file : ByteFile
  pos : Nat
  returned : List (Nat × CString)
  ended : Bool

inductive IterationCall
  | readdir (junk : Bytes)
  | change (call : DirCall)

namespace Iteration

def start (f : ByteFile) : Iteration := ⟨f, 0, [], false⟩

def step (s : Iteration) : IterationCall → Option Iteration
  | .readdir junk =>
    if s.ended then none
    else
      match dirReaddir s.file s.pos junk with
      | (some name, pos) =>
        some { s with pos := pos, returned := s.returned ++ [(pos / 20 - 1, name)] }
      | (none, pos) => some { s with pos := pos, ended := true }
  | .change call => some { s with file := (dirStep s.file call).1 }

end Iteration

/-- Entry `k` is in use. -/
def EntryUsed (f : ByteFile) (k : Nat) : Prop := 20 * k < f.length ∧ inUse (entry f k) = true

/-- The entries in use with their names, in the order of the file. -/
def usedEntries (f : ByteFile) : List (Nat × CString) :=
  ((List.range (f.length / 20)).filter fun k => inUse (entry f k)).map fun k =>
    (k, entryName (entry f k))

/-- What the call returns is the name of an entry that is in use. -/
def ReturnsUsed (s : Iteration) (call : IterationCall) : Prop :=
  ∀ s', s.step call = some s' → ∀ r ∈ s'.returned, r ∉ s.returned →
    EntryUsed s.file r.1 ∧ nameIs (entry s.file r.1) r.2 = true

section Slots

variable {f : ByteFile} {k : Nat} {name : CString}

theorem entryName_congr {e e' : Bytes} (same : ∀ i < 20, e' i = e i) :
    entryName e' = entryName e := by
  apply Subtype.ext
  simp only [entryName]
  refine congrArg (List.takeWhile _) (List.map_congr_left fun i hi => same _ ?_)
  have small : i < 14 := List.mem_range.mp hi
  omega

/-- A name that is valid is returned in full. -/
theorem entryName_eq {e : Bytes} (named : nameIs e name = true) (short : name.1.length ≤ nameMax) :
    entryName e = name :=
  Subtype.ext (takeWhile_of_strcmp name.2 named short)

theorem DirOk.nameIs_entryName (ok : DirOk f) (used : EntryUsed f k) :
    nameIs (entry f k) (entryName (entry f k)) = true := by
  obtain ⟨name, named, -, short⟩ := ok.valid k used.1 used.2
  rw [entryName_eq named short]
  exact named

/-- `dir_readdir` skips entries that are free and stops at one in use or at the end. -/
theorem DirOk.dirReaddir (ok : DirOk f) {c : Nat} (place : 20 * c ≤ f.length) (junk : Bytes) :
    (∃ j, dirReaddir f (20 * c) junk = (some (entryName (entry f j)), 20 * (j + 1)) ∧ c ≤ j ∧
      EntryUsed f j ∧ ∀ l, c ≤ l → l < j → inUse (entry f l) = false) ∨
    (dirReaddir f (20 * c) junk = (none, f.length) ∧
      ∀ l, c ≤ l → 20 * l < f.length → inUse (entry f l) = false) := by
  have p_congr : ∀ j e, 20 * j < f.length → (∀ i < 20, e i = entry f j i) →
      inUse e = inUse (entry f j) := fun _ _ _ same => inUse_congr same
  rw [Filesys.dirReaddir]
  rcases scanEntries_eq (e := junk) ok.whole (f.length / 20 + 1) (by omega) place p_congr with
    ⟨j, e, run, low, inside, used, same, free⟩ | ⟨e, run, free⟩
  · rw [run]
    refine .inl ⟨j, ?_, low, ⟨inside, used⟩, free⟩
    simp only [entryName_congr same, Nat.mul_succ]
  · rw [run]
    exact .inr ⟨rfl, free⟩

/-- A call on the directory changes nothing, or one entry: a free one comes into use, or the entry
is free afterwards. -/
theorem DirOk.dirStep_slot (ok : DirOk f) (call : DirCall) :
    (dirStep f call).1 = f ∨ ∃ b j, (dirStep f call).1 = f.writeAt b 20 (20 * j) ∧
      20 * j ≤ f.length ∧ ((20 * j < f.length → inUse (entry f j) = false) ∨ inUse b = false) := by
  cases call with
  | add name sector junk =>
    simp only [dirStep, Filesys.dirAdd]
    split
    · exact .inl rfl
    split
    · exact .inl rfl
    obtain ⟨j, e, found, run, place, free⟩ := ok.freeSlot junk
    rw [run]
    exact .inr ⟨_, j, rfl, place, .inl free⟩
  | remove name busy =>
    simp only [dirStep, Filesys.dirRemove]
    rcases ok.lookup_eq name with ⟨j, e, found, inside, -, -, -⟩ | ⟨missing, -⟩
    · rw [found]
      dsimp only
      split
      · exact .inl rfl
      · exact .inr ⟨_, j, rfl, Nat.le_of_lt inside, .inr (by simp [inUse])⟩
    · rw [missing]
      exact .inl rfl
  | lookup name => exact .inl rfl

/-- An entry that is in use before and after a call is the same entry. -/
theorem DirOk.dirStep_entry (ok : DirOk f) (call : DirCall) (before : EntryUsed f k)
    (after : EntryUsed (dirStep f call).1 k) :
    ∀ i < 20, entry (dirStep f call).1 k i = entry f k i := by
  obtain same | ⟨b, j, eq, place, free⟩ := ok.dirStep_slot call
  · rw [same]
    exact fun _ _ => rfl
  · rw [eq] at after ⊢
    by_cases here : k = j
    · subst here
      rw [EntryUsed, inUse_congr (entry_writeAt_self f b k)] at after
      rcases free with free | free
      · cases (free before.1).symm.trans before.2
      · cases free.symm.trans after.2
    · exact entry_writeAt_of_ne ok.whole b here before.1

theorem DirOk.dirStep_ok (ok : DirOk f) (call : DirCall) :
    DirOk (dirStep f call).1 ∧ f.length ≤ (dirStep f call).1.length := by
  constructor
  · cases call with
    | add name sector junk =>
      rcases ok.dirAdd name sector junk with ⟨-, run⟩ | ⟨-, f', run, ok', -⟩
      · simp only [dirStep, run]
        exact ok
      · simp only [dirStep, run]
        exact ok'
    | remove name busy =>
      rcases ok.dirRemove name busy with ⟨-, run⟩ | ⟨t, f', -, -, run, ok', -⟩
      · simp only [dirStep, run]
        exact ok
      · simp only [dirStep, run]
        exact ok'
    | lookup name => exact ok
  · obtain same | ⟨b, j, eq, -, -⟩ := ok.dirStep_slot call
    · rw [same]
    · rw [eq]
      exact Nat.le_max_left ..

end Slots

namespace Iteration

variable {s s' : Iteration} {call : IterationCall} {k : Nat} {name : CString}

/-- The cursor is at the entry `c`, and the entries of the names returned are before it, in
order. -/
structure At (s : Iteration) (c : Nat) : Prop where
  ok : DirOk s.file
  pos : s.pos = 20 * c
  inside : 20 * c ≤ s.file.length
  before : ∀ r ∈ s.returned, r.1 < c
  slots : s.returned.Pairwise fun r r' => r.1 < r'.1

/-- What a call can do. -/
theorem At.step_cases {c : Nat} (h : s.At c) (run : s.step call = some s') :
    (∃ junk j, call = .readdir junk ∧ s.ended = false ∧ c ≤ j ∧ EntryUsed s.file j ∧
      (∀ l, c ≤ l → l < j → inUse (entry s.file l) = false) ∧
      s' = { s with
        pos := 20 * (j + 1), returned := s.returned ++ [(j, entryName (entry s.file j))] }) ∨
    (∃ junk, call = .readdir junk ∧ s.ended = false ∧
      (∀ l, c ≤ l → 20 * l < s.file.length → inUse (entry s.file l) = false) ∧
      s' = { s with pos := s.file.length, ended := true }) ∨
    (∃ change, call = .change change ∧ s' = { s with file := (dirStep s.file change).1 }) := by
  cases call with
  | readdir junk =>
    rw [step] at run
    split at run
    next => cases run
    next going =>
      have going := Bool.eq_false_iff.mpr going
      rw [h.pos] at run
      rcases h.ok.dirReaddir h.inside junk with ⟨j, read, low, used, free⟩ | ⟨read, free⟩
      · rw [read] at run
        obtain rfl := Option.some.inj run
        have slot : 20 * (j + 1) / 20 - 1 = j := by omega
        exact .inl ⟨junk, j, rfl, going, low, used, free, by simp only [slot]⟩
      · rw [read] at run
        obtain rfl := Option.some.inj run
        exact .inr (.inl ⟨junk, rfl, going, free, rfl⟩)
  | change change => exact .inr (.inr ⟨change, rfl, (Option.some.inj run).symm⟩)

theorem start_at {f : ByteFile} (ok : DirOk f) : (start f).At 0 :=
  ⟨ok, rfl, Nat.zero_le _, fun _ mem => (List.not_mem_nil mem).elim, .nil⟩

theorem At.step {c : Nat} (h : s.At c) (run : s.step call = some s') : ∃ c', s'.At c' := by
  obtain ⟨junk, j, -, -, low, used, -, rfl⟩ | ⟨junk, -, -, -, rfl⟩ | ⟨change, -, rfl⟩ :=
    h.step_cases run
  · refine ⟨j + 1, h.ok, rfl, ?_, fun r mem => ?_, ?_⟩
    · have inside := used.1
      have whole := h.ok.whole
      show 20 * (j + 1) ≤ s.file.length
      omega
    · rcases List.mem_append.mp mem with old | new
      · have := h.before r old
        omega
      · rw [List.mem_singleton.mp new]
        exact Nat.lt_succ_self j
    · refine List.pairwise_append.mpr ⟨h.slots, List.pairwise_singleton _ _, fun r old r' new => ?_⟩
      rw [List.mem_singleton.mp new]
      exact Nat.lt_of_lt_of_le (h.before r old) low
  · have whole := h.ok.whole
    have inside := h.inside
    have last : s.file.length = 20 * (s.file.length / 20) := by omega
    refine ⟨s.file.length / 20, h.ok, last, Nat.le_of_eq last.symm, fun r mem => ?_, h.slots⟩
    have := h.before r mem
    omega
  · obtain ⟨ok, longer⟩ := h.ok.dirStep_ok change
    exact ⟨c, ok, h.pos, Nat.le_trans h.inside longer, h.before, h.slots⟩

/-- An entry that is in use all the time has its name returned once the cursor has passed it. -/
structure Follows (k : Nat) (name : CString) (s : Iteration) : Prop where
  named : nameIs (entry s.file k) name = true
  passed : s.pos ≤ 20 * k ∨ (k, name) ∈ s.returned
  ended : s.ended = true → (k, name) ∈ s.returned

theorem Follows.step {c : Nat} (h : Follows k name s) (at_ : s.At c) (used : EntryUsed s.file k)
    (run : s.step call = some s') (used' : EntryUsed s'.file k) : Follows k name s' := by
  obtain ⟨valid, named, -, short⟩ := at_.ok.valid k used.1 used.2
  obtain rfl : name = valid := Subtype.ext ((strcmp_iff valid.2 name.2 named).mp h.named)
  obtain ⟨junk, j, -, going, low, usedj, free, rfl⟩ | ⟨junk, -, -, free, rfl⟩ |
    ⟨change, -, rfl⟩ := at_.step_cases run
  · have passed : 20 * (j + 1) ≤ 20 * k ∨
        (k, name) ∈ s.returned ++ [(j, entryName (entry s.file j))] := by
      rcases h.passed with before | done
      · rcases Nat.lt_trichotomy j k with low | rfl | high
        · left
          omega
        · right
          rw [entryName_eq named short]
          exact List.mem_append_right _ List.mem_cons_self
        · rw [at_.pos] at before
          cases (free k (by omega) high).symm.trans used.2
      · exact .inr (List.mem_append_left _ done)
    refine ⟨h.named, passed, fun ended => ?_⟩
    rw [going] at ended
    cases ended
  · have done : (k, name) ∈ s.returned := by
      rcases h.passed with before | done
      · rw [at_.pos] at before
        cases (free k (by omega) used.1).symm.trans used.2
      · exact done
    exact ⟨h.named, .inr done, fun _ => done⟩
  · have same := at_.ok.dirStep_entry change used used'
    exact ⟨(nameIs_congr same short).trans h.named, h.passed, h.ended⟩

theorem Follows.exec {calls : List IterationCall} {c : Nat} (h : Follows k name s) (at_ : s.At c)
    (used : Always Iteration.step (fun s => EntryUsed s.file k) s calls)
    (run : Transition.exec Iteration.step s calls = some s') : Follows k name s' := by
  induction calls generalizing s c with
  | nil =>
    cases run
    exact h
  | cons call calls ih =>
    obtain ⟨mid, first, rest⟩ := exec_cons run
    obtain ⟨c', next⟩ := at_.step first
    have later := used.2 mid first
    exact ih (h.step at_ used.1 first later.head) next later rest

theorem At.exec {calls : List IterationCall} {c : Nat} (h : s.At c)
    (run : Transition.exec Iteration.step s calls = some s') : ∃ c', s'.At c' := by
  induction calls generalizing s c with
  | nil =>
    cases run
    exact ⟨c, h⟩
  | cons call calls ih =>
    obtain ⟨mid, first, rest⟩ := exec_cons run
    obtain ⟨c', next⟩ := h.step first
    exact ih next rest

theorem At.returnsUsed {c : Nat} (h : s.At c) (call : IterationCall) : ReturnsUsed s call := by
  intro s' run r mem new
  obtain ⟨junk, j, -, -, -, used, -, rfl⟩ | ⟨junk, -, -, -, rfl⟩ | ⟨change, -, rfl⟩ :=
    h.step_cases run
  · rcases List.mem_append.mp mem with old | last
    · exact absurd old new
    · rw [List.mem_singleton.mp last]
      exact ⟨used, h.ok.nameIs_entryName used⟩
  · exact absurd mem new
  · exact absurd mem new

theorem At.each {calls : List IterationCall} {c : Nat} (h : s.At c) :
    Each Iteration.step ReturnsUsed s calls := by
  induction calls generalizing s c with
  | nil => trivial
  | cons call calls ih =>
    intro s' run
    obtain ⟨c', next⟩ := h.step run
    exact ⟨h.returnsUsed call, ih next⟩

/-- The names still to come, when the directory does not change. -/
def rest (f : ByteFile) (c : Nat) : List (Nat × CString) :=
  ((List.range' c (f.length / 20 - c)).filter fun k => inUse (entry f k)).map fun k =>
    (k, entryName (entry f k))

theorem rest_next {f : ByteFile} {c j : Nat} (low : c ≤ j) (used : EntryUsed f j)
    (free : ∀ l, c ≤ l → l < j → inUse (entry f l) = false) (whole : f.length % 20 = 0) :
    rest f c = (j, entryName (entry f j)) :: rest f (j + 1) := by
  have inside := used.1
  have split : List.range' c (f.length / 20 - c) =
      List.range' c (j - c) ++ j :: List.range' (j + 1) (f.length / 20 - (j + 1)) := by
    have count : f.length / 20 - c = (j - c) + (f.length / 20 - (j + 1) + 1) := by omega
    have place : c + (j - c) = j := by omega
    rw [count, ← List.range'_append_1, place, List.range'_succ]
  have none : (List.range' c (j - c)).filter (fun k => inUse (entry f k)) = [] := by
    rw [List.filter_eq_nil_iff]
    intro l mem
    obtain ⟨low, high⟩ := List.mem_range'_1.mp mem
    rw [free l low (by omega)]
    exact Bool.false_ne_true
  rw [rest, split, List.filter_append, none, List.nil_append, 
    List.filter_cons_of_pos (p := fun k => inUse (entry f k)) used.2]
  rfl

theorem rest_none {f : ByteFile} {c : Nat}
    (free : ∀ l, c ≤ l → 20 * l < f.length → inUse (entry f l) = false) : rest f c = [] := by
  rw [rest, List.map_eq_nil_iff, List.filter_eq_nil_iff]
  intro l mem
  obtain ⟨low, high⟩ := List.mem_range'_1.mp mem
  rw [free l low (by omega)]
  exact Bool.false_ne_true

/-- Calls of `dir_readdir` alone return what is to come, and then false. -/
theorem At.exec_readdir {junks : List Bytes} {c : Nat} (h : s.At c) (going : s.ended = false)
    (count : junks.length = (rest s.file c).length + 1) :
    ∃ s', Transition.exec Iteration.step s (junks.map .readdir) = some s' ∧ s'.ended = true ∧
      s'.returned = s.returned ++ rest s.file c := by
  induction junks generalizing s c with
  | nil => cases count
  | cons junk junks ih =>
    obtain ⟨s', first⟩ : ∃ s', s.step (.readdir junk) = some s' := by
      rw [Iteration.step, going, if_neg Bool.false_ne_true]
      split <;> exact ⟨_, rfl⟩
    obtain ⟨junk, j, eq, -, low, used, free, rfl⟩ | ⟨junk, eq, -, free, rfl⟩ | ⟨change, eq, -⟩ :=
      h.step_cases first
    · have to_come := rest_next low used free h.ok.whole
      rw [to_come] at count ⊢
      obtain ⟨c', next⟩ := h.step first
      obtain rfl : j + 1 = c' := Nat.eq_of_mul_eq_mul_left (by decide : 0 < 20) next.pos
      obtain ⟨s', run, ended, returned⟩ := ih next going (Nat.succ.inj count)
      refine ⟨s', ?_, ended, ?_⟩
      · rw [List.map_cons, Transition.exec, first]
        exact run
      · rw [returned, List.append_assoc]
        rfl
    · rw [rest_none free] at count ⊢
      obtain rfl := List.length_eq_zero_iff.mp (Nat.succ.inj count)
      refine ⟨{ s with pos := s.file.length, ended := true }, ?_, rfl, (List.append_nil _).symm⟩
      rw [List.map_cons, Transition.exec, first]
      rfl
    · cases eq

end Iteration

theorem filter_slot {list : List (Nat × CString)} {r : Nat × CString}
    (slots : list.Pairwise fun r r' => r.1 < r'.1) (mem : r ∈ list) :
    list.filter (fun r' => r'.1 = r.1) = [r] := by
  induction slots with
  | nil => cases mem
  | @cons x list below slots ih =>
    rcases List.mem_cons.mp mem with rfl | later
    · rw [List.filter_cons_of_pos (by simp), List.filter_eq_nil_iff.mpr]
      intro r' hr'
      have := below r' hr'
      simp only [decide_eq_true_eq]
      omega
    · have := below r later
      rw [List.filter_cons_of_neg (by simp only [decide_eq_true_eq]; omega)]
      exact ih later

/-- Calls of `dir_readdir` up to the one that returns false, with any changes in between, return no
entry twice, and each entry that is in use all the time once, with its name.  A call returns the
name of an entry that is in use.  Without changes the names are those in use, in order. -/
theorem readdir_complete {f : ByteFile} (ok : DirOk f) :
    (∀ calls s', exec Iteration.step (.start f) calls = some s' → s'.ended = true →
      s'.returned.Pairwise (fun r r' => r.1 < r'.1) ∧
      ∀ k, Always Iteration.step (fun s => EntryUsed s.file k) (.start f) calls →
        ∃ name, nameIs (entry f k) name = true ∧
          s'.returned.filter (fun r => r.1 = k) = [(k, name)]) ∧
    (∀ calls, Each Iteration.step ReturnsUsed (.start f) calls) ∧
    ∀ junks : List Bytes, junks.length = (usedEntries f).length + 1 →
      ∃ s', exec Iteration.step (.start f) (junks.map .readdir) = some s' ∧ s'.ended = true ∧
        s'.returned = usedEntries f := by
  have start := Iteration.start_at ok
  refine ⟨fun calls s' run ended => ?_, fun calls => start.each, fun junks count => ?_⟩
  · obtain ⟨c, last⟩ := start.exec run
    refine ⟨last.slots, fun k always => ?_⟩
    have used : EntryUsed f k := always.head
    obtain ⟨name, named, -, -⟩ := ok.valid k used.1 used.2
    have follows : Iteration.Follows k name (.start f) :=
      ⟨named, .inl (Nat.zero_le _), fun ended => nomatch ended⟩
    have returned := (follows.exec start always run).ended ended
    exact ⟨name, named, filter_slot last.slots returned⟩
  · have all : usedEntries f = Iteration.rest f 0 := by
      rw [usedEntries, Iteration.rest, List.range_eq_range', Nat.sub_zero]
    rw [all] at count ⊢
    exact start.exec_readdir rfl count

/-- A directory of two entries, `c` in sector 5 in the first one. -/
def oneName : ByteFile := (dirAdd (dirCreate 2) ⟨[99], by decide⟩ 5 fun _ => 0).1

theorem oneName_ok : DirOk oneName :=
  ((dirCreate_represents 2).ok.dirStep_ok (.add ⟨[99], by decide⟩ 5 fun _ => 0)).1

instance (f : ByteFile) (k : Nat) : Decidable (EntryUsed f k) := inferInstanceAs (Decidable (_ ∧ _))

/-- After the first name was returned, `b` is added and looked for in the rest. -/
theorem readdir_complete_added :
    ∃ s', exec Iteration.step (.start oneName) [.readdir fun _ => 0,
        .change (.add ⟨[98], by decide⟩ 6 fun _ => 0), .readdir fun _ => 0, .readdir fun _ => 0] =
        some s' ∧ ∃ name, s'.returned.filter (fun r => r.1 = 0) = [(0, name)] := by
  obtain ⟨s', run, ended⟩ := (Option.any_eq_true Iteration.ended
    (exec Iteration.step (.start oneName) [.readdir fun _ => 0,
        .change (.add ⟨[98], by decide⟩ 6 fun _ => 0), .readdir fun _ => 0,
        .readdir fun _ => 0])).mp (by decide)
  have used : Always Iteration.step (fun s => EntryUsed s.file 0) (.start oneName)
      [.readdir fun _ => 0, .change (.add ⟨[98], by decide⟩ 6 fun _ => 0), .readdir fun _ => 0,
        .readdir fun _ => 0] := by
    refine ⟨by decide, fun s₁ first => ?_⟩
    obtain rfl := Option.some.inj ((rfl : _ = some _).symm.trans first)
    refine ⟨by decide, fun s₂ second => ?_⟩
    obtain rfl := Option.some.inj ((rfl : _ = some _).symm.trans second)
    refine ⟨by decide, fun s₃ third => ?_⟩
    obtain rfl := Option.some.inj ((rfl : _ = some _).symm.trans third)
    refine ⟨by decide, fun s₄ fourth => ?_⟩
    obtain rfl := Option.some.inj ((rfl : _ = some _).symm.trans fourth)
    show EntryUsed _ 0
    decide
  obtain ⟨name, -, once⟩ := ((readdir_complete oneName_ok).1 _ s' run ended).2 0 used
  exact ⟨s', run, name, once⟩

end Pintos.Filesys
