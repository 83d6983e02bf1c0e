import Pintos.Lib.CStrings

/-! A directory of `directory.c`: a file of 20-byte entries that `lookup`, `dir_add` and
`dir_remove` read and write one at a time. -/

namespace Pintos.Filesys

open Words CStrings ByteFiles

/-- `NAME_MAX`. -/
def nameMax : Nat := 14

/-- The fields of a `struct dir_entry` in memory: the sector in bytes 0 to 3, the name in bytes 4 to
18, and `in_use` in byte 19. -/
def inodeSector (e : Bytes) : UInt32 := UInt32.ofNat (getWord e 0)

def inUse (e : Bytes) : Bool := e 19 != 0

def nameIs (e : Bytes) (name : CString) : Bool := strcmp e 4 name.1

/-- `dir_create`, with all its entries zero. -/
def dirCreate (entryCnt : Nat) : ByteFile := ⟨fun _ => 0, entryCnt * 20⟩

/-- The loops over the entries from `ofs` on, which stop at an entry of `p` or at the end of the
file.  They return whether they found one, `ofs`, and the entry read last. -/
def scanEntries (f : ByteFile) (p : Bytes → Bool) : Nat → Nat → Bytes → Bool × Nat × Bytes
  | 0, ofs, e => (false, ofs, e)
  | fuel + 1, ofs, e =>
    let (n, e) := f.readAt e 20 ofs
    if n = 20 then
      if p e then (true, ofs, e) else scanEntries f p fuel (ofs + 20) e
    else (false, ofs, e)

/-- A loop over the entries from the first on.  What `e` has before is `junk`. -/
def forEntries (f : ByteFile) (p : Bytes → Bool) (junk : Bytes) : Bool × Nat × Bytes :=
  scanEntries f p (f.length / 20 + 1) 0 junk

/-- `lookup`, with the entry and its offset. -/
def lookup (f : ByteFile) (name : CString) : Option (Bytes × Nat) :=
  match forEntries f (fun e => inUse e && nameIs e name) (fun _ => 0) with
  | (true, ofs, e) => some (e, ofs)
  | (false, _, _) => none

def dirIsEmpty (f : ByteFile) : Bool := !(forEntries f inUse fun _ => 0).1

/-- The entry that `dir_add` makes of the one read last. -/
def newEntry (e : Bytes) (name : CString) (sector : UInt32) : Bytes :=
  let e := Function.update e 19 1
  let e := strlcpy e 4 name.1 (nameMax + 1)
  setWord e 0 sector.toNat

/-- `dir_add`. -/
def dirAdd (f : ByteFile) (name : CString) (sector : UInt32) (junk : Bytes) : ByteFile × Bool :=
  if name.1 = [] ∨ nameMax < name.1.length then (f, false)
  else if (lookup f name).isSome then (f, false)
  else
    let (_, ofs, e) := forEntries f (fun e => !inUse e) junk
    (f.writeAt (newEntry e name sector) 20 ofs, true)

/-- `dir_remove`; `busy` says of an inode that it is a directory that is not empty or is open
elsewhere. -/
def dirRemove (f : ByteFile) (name : CString) (busy : UInt32 → Bool) : ByteFile × Bool :=
  match lookup f name with
  | none => (f, false)
  | some (e, ofs) =>
    if busy (inodeSector e) then (f, false)
    else (f.writeAt (Function.update e 19 0) 20 ofs, true)

/-- Entry `k` of a directory. -/
def entry (f : ByteFile) (k : Nat) : Bytes := fun i => f.bytes (20 * k + i)

/-- The entries are whole, and those in use have names that are valid and distinct. -/
structure DirOk (f : ByteFile) : Prop where
  whole : f.length % 20 = 0
  valid : ∀ k, 20 * k < f.length → inUse (entry f k) = true →
    ∃ name : CString, nameIs (entry f k) name = true ∧ name.1 ≠ [] ∧ name.1.length ≤ nameMax
  distinct : ∀ k l name, 20 * k < f.length → 20 * l < f.length →
    inUse (entry f k) = true → inUse (entry f l) = true →
    nameIs (entry f k) name = true → nameIs (entry f l) name = true → k = l

/-- An entry in use binds the name to the sector. -/
def Binds (f : ByteFile) (name : CString) (sector : UInt32) : Prop :=
  ∃ k, 20 * k < f.length ∧ inUse (entry f k) = true ∧ nameIs (entry f k) name = true ∧
    inodeSector (entry f k) = sector

section Entries

variable {f : ByteFile} {p : Bytes → Bool} {e e' : Bytes} {name : CString} {k : Nat}

/-- The fields are in the 20 bytes, a valid name with its terminator as well. -/
theorem inUse_congr (same : ∀ i < 20, e' i = e i) : inUse e' = inUse e := by
  rw [inUse, inUse, same 19 (by omega)]

theorem inodeSector_congr (same : ∀ i < 20, e' i = e i) : inodeSector e' = inodeSector e := by
  simp only [inodeSector, getWord, same 0 (by omega), same 1 (by omega), same 2 (by omega),
    same 3 (by omega), Nat.mul_zero, Nat.zero_add]

theorem nameIs_congr (same : ∀ i < 20, e' i = e i) (short : name.1.length ≤ nameMax) :
    nameIs e' name = nameIs e name := by
  refine strcmp_congr fun i _ high => same i ?_
  unfold nameMax at short
  omega

/-- A copy of an entry in use has the same name. -/
theorem nameIs_copy (same : ∀ i < 20, e' i = e i) {valid : CString} (named : nameIs e valid = true)
    (short : valid.1.length ≤ nameMax) : nameIs e' name = nameIs e name := by
  have named' : nameIs e' valid = true := (nameIs_congr same short).trans named
  rw [Bool.eq_iff_iff]
  exact (strcmp_iff valid.2 name.2 named').trans (strcmp_iff valid.2 name.2 named).symm

/-- What the loops find: the first entry of `p`, or the end of the file. -/
theorem scanEntries_eq (whole : f.length % 20 = 0) (fuel : Nat)
    (enough : f.length < 20 * (k + fuel)) (before : 20 * k ≤ f.length)
    (p_congr : ∀ j e, 20 * j < f.length → (∀ i < 20, e i = entry f j i) →
      p e = p (entry f j)) :
    (∃ j e', scanEntries f p fuel (20 * k) e = (true, 20 * j, e') ∧ k ≤ j ∧ 20 * j < f.length ∧
      p (entry f j) = true ∧ (∀ i < 20, e' i = entry f j i) ∧
      ∀ l, k ≤ l → l < j → p (entry f l) = false) ∨
    (∃ e', scanEntries f p fuel (20 * k) e = (false, f.length, e') ∧
      ∀ j, k ≤ j → 20 * j < f.length → p (entry f j) = false) := by
  induction fuel generalizing k e with
  | zero => omega
  | succ fuel ih =>
    rw [scanEntries]
    by_cases more : 20 * k < f.length
    · obtain ⟨count, bytes⟩ := f.readAt_full e (show 20 * k + 20 ≤ f.length by omega)
      have test := p_congr k _ more bytes
      simp only [count, if_true, test]
      cases hit : p (entry f k) with
      | true => exact .inl ⟨k, _, rfl, Nat.le_refl k, more, hit, bytes, fun l low high => by omega⟩
      | false =>
        simp only [Bool.false_eq_true, if_false]
        have next : 20 * k + 20 = 20 * (k + 1) := by omega
        rw [next]
        have enough' : f.length < 20 * (k + 1 + fuel) := by omega
        have before' : 20 * (k + 1) ≤ f.length := by omega
        rcases ih (e := (f.readAt e 20 (20 * k)).2) enough' before' with
          ⟨j, e', run, low, inside, used, same, none⟩ | ⟨e', run, none⟩
        · refine .inl ⟨j, e', run, by omega, inside, used, same, fun l low high => ?_⟩
          rcases Nat.eq_or_lt_of_le low with rfl | later
          · exact hit
          · exact none l later high
        · refine .inr ⟨e', run, fun j low inside => ?_⟩
          rcases Nat.eq_or_lt_of_le low with rfl | later
          · exact hit
          · exact none j later inside
    · have stop : (f.readAt e 20 (20 * k)).1 ≠ 20 := by
        simp only [ByteFile.readAt]
        omega
      have here : 20 * k = f.length := by omega
      simp only [stop, if_false]
      exact .inr ⟨_, by rw [here], fun j low inside => by omega⟩

theorem forEntries_eq (whole : f.length % 20 = 0) (junk : Bytes)
    (p_congr : ∀ j e, 20 * j < f.length → (∀ i < 20, e i = entry f j i) →
      p e = p (entry f j)) :
    (∃ j e', forEntries f p junk = (true, 20 * j, e') ∧ 20 * j < f.length ∧
      p (entry f j) = true ∧ (∀ i < 20, e' i = entry f j i)) ∨
    (∃ e', forEntries f p junk = (false, f.length, e') ∧
      ∀ j, 20 * j < f.length → p (entry f j) = false) := by
  have enough : f.length < 20 * (0 + (f.length / 20 + 1)) := by omega
  rcases scanEntries_eq (e := junk) whole _ enough (Nat.zero_le _) p_congr with
    ⟨j, e', run, _, inside, hit, same, _⟩ | ⟨e', run, none⟩
  · exact .inl ⟨j, e', run, inside, hit, same⟩
  · exact .inr ⟨e', run, fun j inside => none j (Nat.zero_le j) inside⟩

theorem scanEntries_congr {f' : ByteFile} (same : f'.readAt = f.readAt) (fuel ofs : Nat)
    (e : Bytes) : scanEntries f' p fuel ofs e = scanEntries f p fuel ofs e := by
  induction fuel generalizing ofs e with
  | zero => rfl
  | succ fuel ih => simp only [scanEntries, same, ih]

/-- `lookup` reads the bytes before the end. -/
theorem lookup_congr {f' : ByteFile} (length : f'.length = f.length)
    (bytes : ∀ p < f.length, f'.bytes p = f.bytes p) (name : CString) :
    lookup f' name = lookup f name := by
  unfold lookup forEntries
  rw [scanEntries_congr (ByteFile.readAt_congr length bytes), length]

/-- `lookup` finds the entry of a name, if there is one. -/
theorem DirOk.lookup_eq (ok : DirOk f) (name : CString) :
    (∃ k e, lookup f name = some (e, 20 * k) ∧ 20 * k < f.length ∧ inUse (entry f k) = true ∧
      nameIs (entry f k) name = true ∧ (∀ i < 20, e i = entry f k i)) ∨
    (lookup f name = none ∧ ∀ k, 20 * k < f.length → inUse (entry f k) = true →
      nameIs (entry f k) name = false) := by
  have p_congr : ∀ j e, 20 * j < f.length → (∀ i < 20, e i = entry f j i) →
      (inUse e && nameIs e name) = (inUse (entry f j) && nameIs (entry f j) name) := by
    intro j e inside same
    rw [inUse_congr same]
    cases used : inUse (entry f j) with
    | false => rfl
    | true =>
      obtain ⟨valid, named, _, short⟩ := ok.valid j inside used
      rw [nameIs_copy same named short]
  unfold lookup
  rcases forEntries_eq ok.whole (fun _ => 0) p_congr with
    ⟨k, e, run, inside, hit, same⟩ | ⟨e, run, none⟩
  · obtain ⟨used, named⟩ := (Bool.and_eq_true _ _).mp hit
    rw [run]
    exact .inl ⟨k, e, rfl, inside, used, named, same⟩
  · rw [run]
    refine .inr ⟨rfl, fun k inside used => ?_⟩
    have miss := none k inside
    rw [used] at miss
    exact miss

theorem entry_writeAt_self (f : ByteFile) (b : Bytes) (k : Nat) :
    ∀ i < 20, entry (f.writeAt b 20 (20 * k)) k i = b i :=
  fun _ small => f.writeAt_inside b small

theorem entry_writeAt_of_ne (whole : f.length % 20 = 0) (b : Bytes) {l : Nat} (ne : l ≠ k)
    (inside : 20 * l < f.length) :
    ∀ i < 20, entry (f.writeAt b 20 (20 * k)) l i = entry f l i := by
  intro i small
  refine f.writeAt_outside b ?_ (by omega)
  omega

theorem DirOk.functional (ok : DirOk f) {s t : UInt32} (one : Binds f name s)
    (other : Binds f name t) : s = t := by
  obtain ⟨k, inside, used, named, rfl⟩ := one
  obtain ⟨l, inside', used', named', rfl⟩ := other
  rw [ok.distinct k l name inside inside' used used' named named']

/-- `dir_is_empty` says whether there is a binding. -/
theorem DirOk.dirIsEmpty (ok : DirOk f) (empty : Filesys.dirIsEmpty f = true) (name : CString)
    (s : UInt32) : ¬Binds f name s := by
  rintro ⟨k, inside, used, -⟩
  unfold Filesys.dirIsEmpty at empty
  have p_congr : ∀ j e, 20 * j < f.length → (∀ i < 20, e i = entry f j i) →
      inUse e = inUse (entry f j) := fun _ _ _ same => inUse_congr same
  rcases forEntries_eq ok.whole (fun _ => 0) p_congr with ⟨j, e, run, -⟩ | ⟨e, run, none⟩
  · rw [run] at empty
    cases empty
  · rw [none k inside] at used
    cases used

/-- The bindings of the entries other than `k`. -/
def BindsApart (f : ByteFile) (k : Nat) (name : CString) (sector : UInt32) : Prop :=
  ∃ l, l ≠ k ∧ 20 * l < f.length ∧ inUse (entry f l) = true ∧ nameIs (entry f l) name = true ∧
    inodeSector (entry f l) = sector

/-- What entry `l` says after a write of entry `k`, or of one more. -/
theorem DirOk.entry_writeAt_iff (ok : DirOk f) (b : Bytes) (place : 20 * k ≤ f.length)
    (valid : inUse b = true → ∃ name : CString, nameIs b name = true ∧ name.1.length ≤ nameMax)
    (l : Nat) (name : CString) (sector : UInt32) :
    (20 * l < (f.writeAt b 20 (20 * k)).length ∧ inUse (entry (f.writeAt b 20 (20 * k)) l) = true ∧
      nameIs (entry (f.writeAt b 20 (20 * k)) l) name = true ∧
      inodeSector (entry (f.writeAt b 20 (20 * k)) l) = sector) ↔
    (l = k ∧ inUse b = true ∧ nameIs b name = true ∧ inodeSector b = sector) ∨
      (l ≠ k ∧ 20 * l < f.length ∧ inUse (entry f l) = true ∧ nameIs (entry f l) name = true ∧
        inodeSector (entry f l) = sector) := by
  have whole := ok.whole
  have length : (f.writeAt b 20 (20 * k)).length = max f.length (20 * k + 20) := rfl
  rw [length]
  by_cases eq : l = k
  · subst eq
    have here := entry_writeAt_self f b l
    rw [inUse_congr here, inodeSector_congr here]
    have named : inUse b = true →
        nameIs (entry (f.writeAt b 20 (20 * l)) l) name = nameIs b name := by
      intro used
      obtain ⟨valid, is, short⟩ := valid used
      exact nameIs_copy here is short
    constructor
    · rintro ⟨-, used, is, same⟩
      exact .inl ⟨rfl, used, (named used).symm.trans is, same⟩
    · rintro (⟨-, used, is, same⟩ | ⟨ne, -⟩)
      · exact ⟨by omega, used, (named used).trans is, same⟩
      · exact absurd rfl ne
  · have inside : 20 * l < max f.length (20 * k + 20) ↔ 20 * l < f.length := by omega
    rw [inside]
    constructor
    · rintro ⟨old, used, is, same⟩
      have copy := entry_writeAt_of_ne whole b eq old
      rw [inUse_congr copy] at used
      obtain ⟨valid, is', -, short⟩ := ok.valid l old used
      exact .inr ⟨eq, old, used, (nameIs_copy copy is' short).symm.trans is,
        (inodeSector_congr copy).symm.trans same⟩
    · rintro (⟨same, -⟩ | ⟨-, old, used, is, same⟩)
      · exact absurd same eq
      · have copy := entry_writeAt_of_ne whole b eq old
        obtain ⟨valid, is', -, short⟩ := ok.valid l old used
        exact ⟨old, (inUse_congr copy).trans used, (nameIs_copy copy is' short).trans is,
          (inodeSector_congr copy).trans same⟩

/-- A write of entry `k`, or of one more. -/
theorem DirOk.writeEntry (ok : DirOk f) (b : Bytes) (place : 20 * k ≤ f.length)
    (valid : inUse b = true → ∃ name : CString, nameIs b name = true ∧ name.1 ≠ [] ∧
      name.1.length ≤ nameMax ∧ ∀ sector, ¬BindsApart f k name sector) :
    DirOk (f.writeAt b 20 (20 * k)) ∧
    ∀ name sector, Binds (f.writeAt b 20 (20 * k)) name sector ↔
      (inUse b = true ∧ nameIs b name = true ∧ inodeSector b = sector) ∨
        BindsApart f k name sector := by
  have whole := ok.whole
  have entries := ok.entry_writeAt_iff b place fun used => by
    obtain ⟨name, is, -, short, -⟩ := valid used
    exact ⟨name, is, short⟩
  -- no other entry in use has the name of the new one
  have fresh : ∀ l name, l ≠ k → 20 * l < f.length → inUse (entry f l) = true →
      nameIs (entry f l) name = true → inUse b = true → nameIs b name ≠ true := by
    intro l name ne inside used is usedb isb
    obtain ⟨valid, is', _, _, apart⟩ := valid usedb
    have eq : name = valid := Subtype.ext ((strcmp_iff valid.2 name.2 is').mp isb)
    exact apart _ ⟨l, ne, inside, used, eq ▸ is, rfl⟩
  refine ⟨⟨?_, fun l inside used => ?_, fun l m name inl inm usedl usedm isl ism => ?_⟩,
    fun name sector => ⟨?_, ?_⟩⟩
  · show max f.length (20 * k + 20) % 20 = 0
    omega
  · by_cases eq : l = k
    · subst eq
      rw [inUse_congr (entry_writeAt_self f b l)] at used
      obtain ⟨name, is, some, short, _⟩ := valid used
      obtain ⟨-, -, named, -⟩ := (entries l name _).mpr (.inl ⟨rfl, used, is, rfl⟩)
      exact ⟨name, named, some, short⟩
    · have inside : 20 * l < max f.length (20 * k + 20) := inside
      have old : 20 * l < f.length := by omega
      rw [inUse_congr (entry_writeAt_of_ne whole b eq old)] at used
      obtain ⟨name, is, some, short⟩ := ok.valid l old used
      obtain ⟨-, -, named, -⟩ := (entries l name _).mpr (.inr ⟨eq, old, used, is, rfl⟩)
      exact ⟨name, named, some, short⟩
  · rcases (entries l name _).mp ⟨inl, usedl, isl, rfl⟩ with
        ⟨eql, usedl, isl, -⟩ | ⟨nel, inl, usedl, isl, -⟩ <;>
      rcases (entries m name _).mp ⟨inm, usedm, ism, rfl⟩ with
        ⟨eqm, usedm, ism, -⟩ | ⟨nem, inm, usedm, ism, -⟩
    · rw [eql, eqm]
    · exact absurd isl (fresh m name nem inm usedm ism usedl)
    · exact absurd ism (fresh l name nel inl usedl isl usedm)
    · exact ok.distinct l m name inl inm usedl usedm isl ism
  · rintro ⟨l, bound⟩
    rcases (entries l name sector).mp bound with ⟨-, bound⟩ | bound
    · exact .inl bound
    · exact .inr ⟨l, bound⟩
  · rintro (bound | ⟨l, bound⟩)
    · exact ⟨k, (entries k name sector).mpr (.inl ⟨rfl, bound⟩)⟩
    · exact ⟨l, (entries l name sector).mpr (.inr bound)⟩

theorem inUse_newEntry (e : Bytes) (name : CString) (sector : UInt32) :
    inUse (newEntry e name sector) = true := by
  have high : 4 ≤ 19 ∧ 4 + (nameMax + 1) ≤ 19 := by decide
  simp [inUse, newEntry, setWord, strlcpy_outside _ (Or.inr high.2)]

theorem nameIs_newEntry (e : Bytes) (sector : UInt32) (short : name.1.length ≤ nameMax) :
    nameIs (newEntry e name sector) name = true := by
  have copied := strcmp_strlcpy (Nat.lt_succ_of_le short) (Function.update e 19 1) 4
  refine (strcmp_congr fun i low _ => ?_).trans copied
  have word : i / 4 ≠ 0 := by omega
  simp only [newEntry, setWord, if_neg word]

theorem inodeSector_newEntry (e : Bytes) (name : CString) (sector : UInt32) :
    inodeSector (newEntry e name sector) = sector := by
  have small : sector.toNat < 2 ^ 32 := sector.toNat_lt
  simp only [inodeSector, newEntry, getWord_setWord_self _ _ small]
  exact UInt32.ofNat_toNat

/-- `dir_add` writes to an entry that is free, or to the one past the end. -/
theorem DirOk.freeSlot (ok : DirOk f) (junk : Bytes) :
    ∃ k e found, forEntries f (fun e => !inUse e) junk = (found, 20 * k, e) ∧
      20 * k ≤ f.length ∧ (20 * k < f.length → inUse (entry f k) = false) := by
  have p_congr : ∀ j e, 20 * j < f.length → (∀ i < 20, e i = entry f j i) →
      (!inUse e) = !inUse (entry f j) := fun j e _ same => by rw [inUse_congr same]
  rcases forEntries_eq ok.whole junk p_congr with ⟨k, e, run, inside, free, _⟩ | ⟨e, run, _⟩
  · exact ⟨k, e, true, run, Nat.le_of_lt inside, fun _ => by simpa using free⟩
  · have place : 20 * (f.length / 20) = f.length := by
      have whole := ok.whole
      omega
    exact ⟨f.length / 20, e, false, by rw [run, place], Nat.le_of_eq place, fun _ => by omega⟩

/-- `dir_add` refuses names that are not valid and names that are bound, and binds the others. -/
theorem DirOk.dirAdd (ok : DirOk f) (name : CString) (sector : UInt32) (junk : Bytes) :
    ((name.1 = [] ∨ nameMax < name.1.length ∨ ∃ t, Binds f name t) ∧
      Filesys.dirAdd f name sector junk = (f, false)) ∨
    ((name.1 ≠ [] ∧ name.1.length ≤ nameMax ∧ ∀ t, ¬Binds f name t) ∧ ∃ f',
      Filesys.dirAdd f name sector junk = (f', true) ∧ DirOk f' ∧
      ∀ n t, Binds f' n t ↔ n = name ∧ t = sector ∨ Binds f n t) := by
  unfold Filesys.dirAdd
  by_cases invalid : name.1 = [] ∨ nameMax < name.1.length
  · rw [if_pos invalid]
    exact .inl ⟨invalid.imp_right .inl, rfl⟩
  rw [if_neg invalid]
  obtain ⟨some, short⟩ := not_or.mp invalid
  rcases ok.lookup_eq name with ⟨k, e, found, inside, used, named, _⟩ | ⟨missing, none⟩
  · rw [found]
    exact .inl ⟨.inr (.inr ⟨_, k, inside, used, named, rfl⟩), rfl⟩
  have absent : ∀ t, ¬Binds f name t := by
    rintro t ⟨k, inside, used, named, _⟩
    rw [none k inside used] at named
    cases named
  refine .inr ⟨⟨some, Nat.le_of_not_lt short, absent⟩, ?_⟩
  rw [missing, if_neg (by simp)]
  obtain ⟨k, e, found, run, place, free⟩ := ok.freeSlot junk
  rw [run]
  have apart : ∀ n t, BindsApart f k n t ↔ Binds f n t := by
    intro n t
    constructor
    · rintro ⟨l, _, rest⟩
      exact ⟨l, rest⟩
    · rintro ⟨l, inside, used, rest⟩
      refine ⟨l, ?_, inside, used, rest⟩
      rintro rfl
      rw [free inside] at used
      cases used
  have entry : nameIs (newEntry e name sector) name = true :=
    nameIs_newEntry e sector (Nat.le_of_not_lt short)
  obtain ⟨ok', binds⟩ := ok.writeEntry (newEntry e name sector) place fun _ =>
    ⟨name, entry, some, Nat.le_of_not_lt short, fun t h => absent t ((apart name t).mp h)⟩
  refine ⟨_, rfl, ok', fun n t => (binds n t).trans (or_congr ?_ (apart n t))⟩
  rw [inodeSector_newEntry]
  constructor
  · rintro ⟨_, is, eq⟩
    exact ⟨Subtype.ext ((strcmp_iff name.2 n.2 entry).mp is), eq.symm⟩
  · rintro ⟨rfl, rfl⟩
    exact ⟨inUse_newEntry .., entry, rfl⟩

/-- `dir_remove` unbinds a name that is bound to an inode that is not busy. -/
theorem DirOk.dirRemove (ok : DirOk f) (name : CString) (busy : UInt32 → Bool) :
    ((∀ t, Binds f name t → busy t = true) ∧ Filesys.dirRemove f name busy = (f, false)) ∨
    ∃ t f', Binds f name t ∧ busy t = false ∧ Filesys.dirRemove f name busy = (f', true) ∧
      DirOk f' ∧ ∀ n t, Binds f' n t ↔ n ≠ name ∧ Binds f n t := by
  unfold Filesys.dirRemove
  rcases ok.lookup_eq name with ⟨k, e, found, inside, used, named, same⟩ | ⟨missing, none⟩
  · rw [found]
    have only : ∀ l n, 20 * l < f.length → inUse (entry f l) = true → nameIs (entry f l) n = true →
        (l = k ↔ n = name) := by
      intro l n insidel usedl namedl
      constructor
      · rintro rfl
        exact Subtype.ext ((strcmp_iff name.2 n.2 named).mp namedl)
      · rintro rfl
        exact ok.distinct l k n insidel inside usedl used namedl named
    have sector := inodeSector_congr same
    cases refused : busy (inodeSector e) with
    | true =>
      refine .inl ⟨?_, by simp [refused]⟩
      rintro t ⟨l, insidel, usedl, namedl, rfl⟩
      rw [(only l name insidel usedl namedl).mpr rfl, ← sector]
      exact refused
    | false =>
      simp only [refused, Bool.false_eq_true, if_false]
      have free : inUse (Function.update e 19 0) = false := by simp [inUse]
      obtain ⟨ok', binds⟩ := ok.writeEntry (Function.update e 19 0) (Nat.le_of_lt inside)
        fun used => by
          rw [free] at used
          cases used
      refine .inr ⟨inodeSector e, _, ⟨k, inside, used, named, sector.symm⟩, refused, rfl, ok', ?_⟩
      intro n t
      rw [binds n t, free]
      constructor
      · rintro (⟨used, _⟩ | ⟨l, ne, insidel, usedl, namedl, eq⟩)
        · cases used
        · exact ⟨fun is => ne ((only l n insidel usedl namedl).mpr is),
            l, insidel, usedl, namedl, eq⟩
      · rintro ⟨ne, l, insidel, usedl, namedl, eq⟩
        exact .inr ⟨l, fun is => ne ((only l n insidel usedl namedl).mp is), insidel, usedl, namedl,
          eq⟩
  · rw [missing]
    refine .inl ⟨?_, rfl⟩
    rintro t ⟨k, inside, used, named, _⟩
    rw [none k inside used] at named
    cases named

end Entries

/-- What a directory is: names bound to sectors. -/
abbrev DirMap := CString → Option UInt32

inductive DirCall
  | add (name : CString) (sector : UInt32) (junk : Bytes)
  | remove (name : CString) (busy : UInt32 → Bool)
  | lookup (name : CString)

/-- What a call returns: success or failure, or the sector that a name is bound to. -/
inductive DirAnswer
  | success (result : Bool)
  | sector (result : Option UInt32)

def dirStep (f : ByteFile) : DirCall → ByteFile × DirAnswer
  | .add name sector junk => ((dirAdd f name sector junk).1, .success (dirAdd f name sector junk).2)
  | .remove name busy => ((dirRemove f name busy).1, .success (dirRemove f name busy).2)
  | .lookup name => (f, .sector ((lookup f name).map fun found => inodeSector found.1))

/-- The same calls on the map. -/
def mapStep (m : DirMap) : DirCall → DirMap × DirAnswer
  | .add name sector _ =>
    if name.1 ≠ [] ∧ name.1.length ≤ nameMax ∧ m name = none then
      (Function.update m name (some sector), .success true)
    else (m, .success false)
  | .remove name busy =>
    match m name with
    | some sector =>
      if busy sector then (m, .success false) else (Function.update m name none, .success true)
    | none => (m, .success false)
  | .lookup name => (m, .sector (m name))

def runCalls {σ : Type} (step : σ → DirCall → σ × DirAnswer) : σ → List DirCall → σ × List DirAnswer
  | s, [] => (s, [])
  | s, call :: calls =>
    let rest := runCalls step (step s call).1 calls
    (rest.1, (step s call).2 :: rest.2)

structure Represents (f : ByteFile) (m : DirMap) : Prop where
  ok : DirOk f
  binds : ∀ name sector, Binds f name sector ↔ m name = some sector

section Refinement

variable {f : ByteFile} {m : DirMap}

theorem dirCreate_represents (entryCnt : Nat) : Represents (dirCreate entryCnt) fun _ => none := by
  have free : ∀ k, inUse (entry (dirCreate entryCnt) k) = false := fun _ => rfl
  refine ⟨⟨?_, fun k _ used => ?_, fun k l name _ _ used => ?_⟩, fun name sector => ⟨?_, ?_⟩⟩
  · show entryCnt * 20 % 20 = 0
    omega
  · rw [free k] at used
    cases used
  · rw [free k] at used
    cases used
  · rintro ⟨k, _, used, _⟩
    rw [free k] at used
    cases used
  · intro eq
    cases eq

theorem Represents.add (h : Represents f m) (name : CString) (sector : UInt32) (junk : Bytes) :
    (dirStep f (.add name sector junk)).2 = (mapStep m (.add name sector junk)).2 ∧
    Represents (dirStep f (.add name sector junk)).1 (mapStep m (.add name sector junk)).1 ∧
    ((dirStep f (.add name sector junk)).2 = .success false →
      (dirStep f (.add name sector junk)).1 = f) := by
  simp only [dirStep, mapStep]
  rcases h.ok.dirAdd name sector junk with
    ⟨refused, run⟩ | ⟨⟨some, short, absent⟩, f', run, ok, binds⟩
  · have not : ¬(name.1 ≠ [] ∧ name.1.length ≤ nameMax ∧ m name = none) := by
      rintro ⟨some, short, none⟩
      rcases refused with empty | long | ⟨t, bound⟩
      · exact some empty
      · omega
      · have eq := (h.binds name t).mp bound
        rw [none] at eq
        cases eq
    rw [run, if_neg not]
    exact ⟨rfl, h, fun _ => rfl⟩
  · have none : m name = none := by
      cases bound : m name with
      | none => rfl
      | some t => exact absurd ((h.binds name t).mpr bound) (absent t)
    rw [run, if_pos ⟨some, short, none⟩]
    refine ⟨rfl, ⟨ok, fun n t => (binds n t).trans ?_⟩, fun eq => by cases eq⟩
    show _ ↔ Function.update m name _ n = Option.some t
    rw [h.binds n t, Function.update_apply]
    by_cases is : n = name
    · rw [if_pos is, is, none]
      simp [eq_comm]
    · simp [is]

theorem Represents.remove (h : Represents f m) (name : CString) (busy : UInt32 → Bool) :
    (dirStep f (.remove name busy)).2 = (mapStep m (.remove name busy)).2 ∧
    Represents (dirStep f (.remove name busy)).1 (mapStep m (.remove name busy)).1 ∧
    ((dirStep f (.remove name busy)).2 = .success false →
      (dirStep f (.remove name busy)).1 = f) := by
  simp only [dirStep, mapStep]
  rcases h.ok.dirRemove name busy with ⟨refused, run⟩ | ⟨t, f', bound, may, run, ok, binds⟩
  · rw [run]
    cases bound : m name with
    | none => exact ⟨rfl, h, fun _ => rfl⟩
    | some t =>
      simp only [refused t ((h.binds name t).mpr bound), if_true]
      exact ⟨trivial, h, fun _ => trivial⟩
  · rw [run, (h.binds name t).mp bound]
    simp only [may, Bool.false_eq_true, if_false]
    refine ⟨trivial, ⟨ok, fun n u => (binds n u).trans ?_⟩, fun eq => by cases eq⟩
    rw [h.binds n u, Function.update_apply]
    by_cases is : n = name
    · simp [is]
    · simp [is]

theorem Represents.lookup (h : Represents f m) (name : CString) :
    (dirStep f (.lookup name)).2 = (mapStep m (.lookup name)).2 := by
  simp only [dirStep, mapStep]
  rcases h.ok.lookup_eq name with ⟨k, e, found, inside, used, named, same⟩ | ⟨missing, none⟩
  · have bound : m name = some (inodeSector e) :=
      (h.binds name _).mp ⟨k, inside, used, named, (inodeSector_congr same).symm⟩
    rw [found, bound]
    rfl
  · rw [missing]
    cases bound : m name with
    | none => rfl
    | some t =>
      obtain ⟨k, inside, used, named, _⟩ := (h.binds name t).mpr bound
      rw [none k inside used] at named
      cases named

theorem Represents.step (h : Represents f m) (call : DirCall) :
    (dirStep f call).2 = (mapStep m call).2 ∧ Represents (dirStep f call).1 (mapStep m call).1 ∧
    ((dirStep f call).2 = .success false → (dirStep f call).1 = f) := by
  cases call with
  | add name sector junk => exact h.add name sector junk
  | remove name busy => exact h.remove name busy
  | lookup name => exact ⟨h.lookup name, h, fun _ => rfl⟩

theorem Represents.run (h : Represents f m) (calls : List DirCall) :
    (runCalls dirStep f calls).2 = (runCalls mapStep m calls).2 ∧
    Represents (runCalls dirStep f calls).1 (runCalls mapStep m calls).1 := by
  induction calls generalizing f m with
  | nil => exact ⟨rfl, h⟩
  | cons call calls ih =>
    obtain ⟨answer, next, _⟩ := h.step call
    obtain ⟨answers, last⟩ := ih next
    exact ⟨congrArg₂ List.cons answer answers, last⟩

end Refinement

/-- A directory from `dir_create` on behaves like a map from names to sectors: all calls return what
they return on the map, the entries in use are the bindings of the map, and a call that fails
changes nothing. -/
theorem directory_is_map (entryCnt : Nat) (calls : List DirCall) :
    (runCalls dirStep (dirCreate entryCnt) calls).2 = (runCalls mapStep (fun _ => none) calls).2 ∧
    DirOk (runCalls dirStep (dirCreate entryCnt) calls).1 ∧
    (∀ name sector, Binds (runCalls dirStep (dirCreate entryCnt) calls).1 name sector ↔
      (runCalls mapStep (fun _ => none) calls).1 name = some sector) ∧
    ∀ call, (dirStep (runCalls dirStep (dirCreate entryCnt) calls).1 call).2 = .success false →
      (dirStep (runCalls dirStep (dirCreate entryCnt) calls).1 call).1 =
        (runCalls dirStep (dirCreate entryCnt) calls).1 := by
  obtain ⟨answers, last⟩ := (dirCreate_represents entryCnt).run calls
  exact ⟨answers, last.ok, last.binds, fun call => (last.step call).2.2⟩

end Pintos.Filesys
