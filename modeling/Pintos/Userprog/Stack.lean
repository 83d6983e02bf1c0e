import Pintos.Lib.CStrings
import Pintos.Userprog.AddressSpace

/-! `setup_stack`: the strings of a command line, the pointers to them, and the arguments of `main`,
pushed onto the first page of the user's stack. -/

namespace Pintos.Userprog

open Vm Words CStrings

def checkEsp (esp : Nat) : Bool := ¬(esp ≤ 0x08048000 ∨ esp > physBase)

/-- `esp - n`, which wraps. -/
def espBelow (esp n : Nat) : Nat := if n ≤ esp then esp - n else esp + 2 ^ 32 - n

/-- The size of the local array `argv`. -/
def argvSize : Nat := 64

/-- The user's memory, `*esp`, the array `argv` and `argc`, and the places written so far: addresses
with sizes in the user's memory, and subscripts of `argv`. -/
structure StackSetup where
  mem : Bytes
  esp : Nat
  argv : Nat → Nat
  argc : Nat
  writes : List (Nat × Nat)
  stores : List Nat

namespace StackSetup

def start (mem : Bytes) (esp : Nat) : StackSetup := ⟨mem, esp, fun _ => 0, 0, [], []⟩

def moveEsp (s : StackSetup) (n : Nat) : StackSetup := { s with esp := espBelow s.esp n }

/-- `memcpy` to `*esp`. -/
def memcpy (s : StackSetup) (bytes : List UInt8) : StackSetup :=
  { s with mem := copy s.mem s.esp bytes, writes := (s.esp, bytes.length) :: s.writes }

def setArgv (s : StackSetup) (i v : Nat) : StackSetup :=
  { s with argv := Function.update s.argv i v, stores := i :: s.stores }

/-- A round of the loop over the tokens, after `check_esp`. -/
def pushArg (s : StackSetup) (token : CString) : StackSetup :=
  let s := s.moveEsp (token.1.length + 1)
  let s := (s.setArgv s.argc s.esp).memcpy (token.1 ++ [0])
  { s with argc := s.argc + 1 }

/-- The loop over the tokens, which gives up at an address that is too low and at too many
tokens. -/
def pushArgs : List CString → StackSetup → StackSetup × Bool
  | [], s => (s, true)
  | token :: rest, s =>
    if checkEsp (espBelow s.esp (token.1.length + 1)) then
      let s := s.pushArg token
      if s.argc ≥ argvSize then (s, false) else pushArgs rest s
    else (s, false)

def pushWord (s : StackSetup) (v : Nat) : StackSetup := (s.moveEsp 4).memcpy (wordBytes v)

/-- The loop that pushes the entries of `argv` from entry `k` down. -/
def pushArgv (s : StackSetup) : Nat → StackSetup
  | 0 => s.pushWord (s.argv 0)
  | k + 1 => (s.pushWord (s.argv (k + 1))).pushArgv k

/-- The padding in front of the strings; what is copied then is empty. -/
def align (s : StackSetup) : StackSetup :=
  if s.esp % 4 ≠ 0 then
    let s := s.moveEsp (s.esp % 4)
    s.memcpy ((wordBytes 0).take (s.esp % 4))
  else s

/-- What `setup_stack` does after the strings. -/
def pushPointers (s : StackSetup) : StackSetup × Bool :=
  if checkEsp (espBelow s.esp (4 + 1 + s.argc * 4 + 4 + 4 + 4)) then
    let s := (s.setArgv s.argc 0).align
    let s := s.pushArgv s.argc
    let s := s.pushWord s.esp
    ((s.pushWord s.argc).pushWord 0, true)
  else (s, false)

end StackSetup

/-- `setup_stack` with a zeroed page, which `install_frame` maps at the top of user memory or
not. -/
def setupStack (mem : Bytes) (installed : Bool) (fileName : CString) : StackSetup × Bool :=
  if installed then
    let s := StackSetup.start (fillZero mem (physBase - pgsize) pgsize) physBase
    match StackSetup.pushArgs (strtok 32 fileName.1.length fileName) s with
    | (s, true) => s.pushPointers
    | (s, false) => (s, false)
  else (StackSetup.start mem 0, false)

/-- The tokens of a command line. -/
def tokens (fileName : CString) : List CString := components 32 fileName.1

/-- The bytes of some strings with their terminators. -/
def stringsSize (tokens : List CString) : Nat := (tokens.map fun token => token.1.length + 1).sum

/-- The bytes of the strings, the padding, the pointers with the null one, and the pointer to these,
`argc` and the return address. -/
def imageSize (tokens : List CString) : Nat :=
  (stringsSize tokens + 3) / 4 * 4 + 4 * (tokens.length + 1) + 12

/-- The copy of a command line that `process_execute` hands to the new thread, cut at the size of a
page. -/
def fnCopy (fileName : CString) : CString :=
  ⟨fileName.1.take (pgsize - 1), fun mem => fileName.2 (List.mem_of_mem_take mem)⟩

section Decode

/-- Where the stack at `esp` says that the pointers are. -/
def decodeArgv (mem : Bytes) (esp : Nat) : Nat := getWord mem (esp / 4 + 2)

def decodePointer (mem : Bytes) (esp i : Nat) : Nat := getWord mem (decodeArgv mem esp / 4 + i)

/-- The return address, `argc`, `argv`, the pointers and the strings on the stack, with their
sizes. -/
def stackAreas (mem : Bytes) (esp : Nat) (tokens : List CString) : List (Nat × Nat) :=
  [(esp, 4), (esp + 4, 4), (esp + 8, 4), (decodeArgv mem esp, 4 * (tokens.length + 1))] ++
    tokens.mapIdx fun i token => (decodePointer mem esp i, token.1.length + 1)

def Apart (area other : Nat × Nat) : Prop :=
  area.1 + area.2 ≤ other.1 ∨ other.1 + other.2 ≤ area.1

/-- The stack at `esp` reads as the arguments `tokens` of `main`. -/
structure Decodes (mem : Bytes) (esp : Nat) (tokens : List CString) : Prop where
  aligned : esp % 4 = 0
  returnAddress : getWord mem (esp / 4) = 0
  argc : getWord mem (esp / 4 + 1) = tokens.length
  argv : decodeArgv mem esp % 4 = 0
  strings : ∀ i (h : i < tokens.length), strcmp mem (decodePointer mem esp i) tokens[i].1 = true
  last : decodePointer mem esp tokens.length = 0
  inPage : ∀ area ∈ stackAreas mem esp tokens,
    physBase - pgsize ≤ area.1 ∧ area.1 + area.2 ≤ physBase
  apart : (stackAreas mem esp tokens).Pairwise Apart

/-- The writes of a `setup_stack` are in the page that it installed and in `argv`, and it refuses
arguments that need more than the page. -/
structure StaysInPage (result : StackSetup × Bool) (tokens : List CString) : Prop where
  writes : ∀ w ∈ result.1.writes, physBase - pgsize ≤ w.1 ∧ w.1 + w.2 ≤ physBase
  stores : ∀ i ∈ result.1.stores, i < argvSize
  refuses : pgsize < imageSize tokens → result.2 = false

end Decode

section Push

variable {s s' : StackSetup}

theorem espBelow_eq {esp n : Nat} (le : n ≤ esp) : espBelow esp n = esp - n := if_pos le

theorem checkEsp_iff {esp : Nat} : checkEsp esp = true ↔ 0x08048000 < esp ∧ esp ≤ physBase := by
  simp [checkEsp]

theorem stringsSize_cons (token : CString) (rest : List CString) :
    stringsSize (token :: rest) = token.1.length + 1 + stringsSize rest := by
  simp [stringsSize]

/-- What the strings of `tokens` add below the old `*esp`: each is at the address that `argv` holds
for it. -/
structure Pushed (s s' : StackSetup) (tokens : List CString) : Prop where
  esp : s'.esp + stringsSize tokens = s.esp
  argc : s'.argc = s.argc + tokens.length
  above : ∀ a, s.esp ≤ a → s'.mem a = s.mem a
  older : ∀ i < s.argc, s'.argv i = s.argv i
  address : ∀ i < tokens.length,
    s'.argv (s.argc + i) + stringsSize (tokens.take (i + 1)) = s.esp
  strings : ∀ i (h : i < tokens.length), strcmp s'.mem (s'.argv (s.argc + i)) tokens[i].1 = true

/-- The writes to memory since `s` are in `[low, high)`, and those to `argv` in the array. -/
structure WritesIn (s s' : StackSetup) (low high : Nat) : Prop where
  writes : ∀ w ∈ s'.writes, w ∈ s.writes ∨ low ≤ w.1 ∧ w.1 + w.2 ≤ high
  stores : ∀ i ∈ s'.stores, i ∈ s.stores ∨ i < argvSize

theorem WritesIn.refl (s : StackSetup) (low high : Nat) : WritesIn s s low high :=
  ⟨fun _ => .inl, fun _ => .inl⟩

theorem WritesIn.trans {mid : StackSetup} {low middle high : Nat}
    (first : WritesIn s mid middle high) (rest : WritesIn mid s' low middle)
    (le : low ≤ middle) (le' : middle ≤ high) : WritesIn s s' low high := by
  refine ⟨fun w mem => ?_, fun i mem => ?_⟩
  · rcases rest.writes w mem with old | new
    · exact (first.writes w old).imp_right fun inside => ⟨Nat.le_trans le inside.1, inside.2⟩
    · exact .inr ⟨new.1, Nat.le_trans new.2 le'⟩
  · rcases rest.stores i mem with old | new
    · exact first.stores i old
    · exact .inr new

theorem WritesIn.widen {low low' high : Nat} (h : WritesIn s s' low high) (le : low' ≤ low) :
    WritesIn s s' low' high :=
  ⟨fun w mem => (h.writes w mem).imp_right fun inside => ⟨Nat.le_trans le inside.1, inside.2⟩,
    h.stores⟩

theorem pushArg_esp {token : CString} (room : token.1.length + 1 ≤ s.esp) :
    (s.pushArg token).esp + (token.1.length + 1) = s.esp := by
  have eq : (s.pushArg token).esp = espBelow s.esp (token.1.length + 1) := rfl
  rw [eq, espBelow_eq room]
  omega

theorem pushArg_writesIn {token : CString} (room : token.1.length + 1 ≤ s.esp)
    (few : s.argc < argvSize) :
    WritesIn s (s.pushArg token) (s.pushArg token).esp s.esp := by
  have esp := pushArg_esp room
  refine ⟨fun w mem => ?_, fun i mem => ?_⟩
  · rcases List.mem_cons.mp mem with rfl | old
    · refine .inr ⟨Nat.le_refl _, ?_⟩
      rw [List.length_append, List.length_singleton]
      exact Nat.le_of_eq esp
    · exact .inl old
  · rcases List.mem_cons.mp mem with rfl | old
    · exact .inr few
    · exact .inl old

theorem pushArg_pushed {token : CString} (room : token.1.length + 1 ≤ s.esp) :
    Pushed s (s.pushArg token) [token] := by
  have esp := pushArg_esp room
  have size : stringsSize [token] = token.1.length + 1 := by simp [stringsSize]
  have here : (s.pushArg token).argv s.argc = (s.pushArg token).esp := Function.update_self ..
  refine ⟨?_, rfl, fun a high => ?_, fun i old => ?_, fun i first => ?_, fun i first => ?_⟩
  · rw [size]
    exact esp
  · refine copy_outside (.inr ?_)
    rw [List.length_append, List.length_singleton]
    exact Nat.le_trans (Nat.le_of_eq esp) high
  · exact Function.update_of_ne (Nat.ne_of_lt old) ..
  · obtain rfl := Nat.lt_one_iff.mp first
    rw [Nat.add_zero, here, List.take_one, List.head?_cons, Option.toList_some, size]
    exact esp
  · obtain rfl := Nat.lt_one_iff.mp first
    rw [Nat.add_zero, here]
    exact strcmp_copy ..

/-- More strings are pushed. -/
theorem Pushed.cons {mid : StackSetup} {token : CString} {rest : List CString}
    (first : Pushed s mid [token]) (more : Pushed mid s' rest) : Pushed s s' (token :: rest) := by
  have size : stringsSize [token] = token.1.length + 1 := by simp [stringsSize]
  have first_esp := first.esp
  have argc : mid.argc = s.argc + 1 := first.argc
  have here : s'.argv s.argc = mid.argv s.argc := more.older s.argc (by omega)
  have start := first.address 0 Nat.one_pos
  have text := first.strings 0 Nat.one_pos
  rw [Nat.add_zero, List.take_one, List.head?_cons, Option.toList_some, size] at start
  rw [size] at first_esp
  rw [Nat.add_zero] at text
  refine ⟨?_, ?_, fun a high => ?_, fun i old => ?_, fun i inside => ?_, fun i inside => ?_⟩
  · have more_esp := more.esp
    rw [stringsSize_cons]
    omega
  · rw [more.argc, argc, List.length_cons]
    omega
  · rw [more.above a (by omega), first.above a high]
  · rw [more.older i (by omega), first.older i old]
  · cases i with
    | zero =>
      rw [Nat.add_zero, here, List.take_succ_cons, List.take_zero, size]
      exact start
    | succ i =>
      have later := more.address i (Nat.lt_of_succ_lt_succ inside)
      rw [argc] at later
      rw [List.take_succ_cons, stringsSize_cons, show s.argc + (i + 1) = s.argc + 1 + i by omega]
      omega
  · cases i with
    | zero =>
      rw [Nat.add_zero, here]
      refine (strcmp_congr fun a low _ => more.above a ?_).trans text
      omega
    | succ i =>
      have later := more.strings i (Nat.lt_of_succ_lt_succ inside)
      rw [argc] at later
      rw [show s.argc + (i + 1) = s.argc + 1 + i by omega]
      exact later

/-- The strings are pushed as long as `argv` has room for them. -/
theorem pushArgs_pushed (tokens : List CString) (few : s.argc + tokens.length < argvSize)
    (room : 0x08048000 + stringsSize tokens < s.esp) (top : s.esp ≤ physBase) :
    (StackSetup.pushArgs tokens s).2 = true ∧
      Pushed s (StackSetup.pushArgs tokens s).1 tokens := by
  induction tokens generalizing s with
  | nil =>
    exact ⟨rfl, ⟨Nat.add_zero _, Nat.add_zero _, fun _ _ => rfl, fun _ _ => rfl, nofun, nofun⟩⟩
  | cons token rest ih =>
    rw [stringsSize_cons] at room
    rw [List.length_cons] at few
    have fits : token.1.length + 1 ≤ s.esp := by omega
    have esp := pushArg_esp fits
    have argc : (s.pushArg token).argc = s.argc + 1 := rfl
    have allowed : checkEsp (espBelow s.esp (token.1.length + 1)) = true := by
      rw [espBelow_eq fits, checkEsp_iff]
      omega
    have go_on : ¬(s.pushArg token).argc ≥ argvSize := by omega
    rw [StackSetup.pushArgs, if_pos allowed]
    dsimp only
    rw [if_neg go_on]
    obtain ⟨done, pushed⟩ := ih (s := s.pushArg token) (by omega) (by omega) (by omega)
    exact ⟨done, (pushArg_pushed fits).cons pushed⟩

/-- The strings are pushed below the old `*esp`, and too many of them make the loop give up. -/
theorem pushArgs_writesIn (tokens : List CString) (few : s.argc < argvSize)
    (room : 0x08048000 + stringsSize tokens < s.esp) (top : s.esp ≤ physBase) :
    WritesIn s (StackSetup.pushArgs tokens s).1 (s.esp - stringsSize tokens) s.esp ∧
      ((StackSetup.pushArgs tokens s).2 = true ↔ s.argc + tokens.length < argvSize) := by
  induction tokens generalizing s with
  | nil => exact ⟨.refl s _ _, iff_of_true rfl few⟩
  | cons token rest ih =>
    rw [stringsSize_cons] at room ⊢
    rw [List.length_cons]
    have fits : token.1.length + 1 ≤ s.esp := by omega
    have esp := pushArg_esp fits
    have argc : (s.pushArg token).argc = s.argc + 1 := rfl
    have allowed : checkEsp (espBelow s.esp (token.1.length + 1)) = true := by
      rw [espBelow_eq fits, checkEsp_iff]
      omega
    have first := pushArg_writesIn fits few
    rw [StackSetup.pushArgs, if_pos allowed]
    dsimp only
    split
    next full =>
      refine ⟨first.widen ?_, ?_⟩
      · omega
      · exact iff_of_false nofun (by omega)
    next =>
      obtain ⟨more, done⟩ := ih (s := s.pushArg token) (by omega) (by omega) (by omega)
      refine ⟨?_, done.trans (by omega)⟩
      have low : (s.pushArg token).esp - stringsSize rest =
          s.esp - (token.1.length + 1 + stringsSize rest) := by omega
      rw [low] at more
      exact first.trans more (by omega) (by omega)

end Push

section Pointers

variable {s s' mid : StackSetup} {low middle high k v : Nat}

/-- The words from `low` up to `high` are pushed. -/
structure Filled (s s' : StackSetup) (low high : Nat) : Prop where
  esp : s'.esp = 4 * low
  argv : s'.argv = s.argv
  argc : s'.argc = s.argc
  outside : ∀ a, a < 4 * low ∨ 4 * high ≤ a → s'.mem a = s.mem a
  inside : WritesIn s s' (4 * low) (4 * high)

theorem Filled.trans (first : Filled s mid middle high) (rest : Filled mid s' low middle)
    (le : low ≤ middle) (le' : middle ≤ high) : Filled s s' low high := by
  refine ⟨rest.esp, rest.argv.trans first.argv, rest.argc.trans first.argc, fun a out => ?_, ?_⟩
  · rw [rest.outside a (by omega), first.outside a (by omega)]
  · exact first.inside.trans rest.inside (by omega) (by omega)

theorem Filled.word (h : Filled s s' low high) (out : high ≤ k) :
    getWord s'.mem k = getWord s.mem k :=
  getWord_congr fun _ _ => h.outside _ (.inr (by omega))

theorem pushWord_filled (esp : s.esp = 4 * (k + 1)) :
    Filled s (s.pushWord v) k (k + 1) ∧ getWord (s.pushWord v).mem k = v % 2 ^ 32 := by
  have moved : espBelow s.esp 4 = 4 * k := by
    rw [espBelow_eq (by omega)]
    omega
  have mem : (s.pushWord v).mem = setWord s.mem k v := by
    unfold StackSetup.pushWord StackSetup.moveEsp StackSetup.memcpy
    dsimp only
    rw [moved, copy_wordBytes]
  refine ⟨⟨moved, rfl, rfl, fun a out => ?_, ⟨fun w pushed => ?_, fun _ => .inl⟩⟩, ?_⟩
  · rw [mem, setWord, if_neg (by omega)]
  · rcases List.mem_cons.mp pushed with rfl | old
    · refine .inr ⟨Nat.le_of_eq moved.symm, ?_⟩
      dsimp only
      rw [wordBytes_length, show (s.moveEsp 4).esp = 4 * k from moved]
      omega
    · exact .inl old
  · rw [mem, getWord_setWord_mod]

/-- The entries of `argv` are pushed in their order. -/
theorem pushArgv_filled (esp : s.esp = 4 * (low + k + 1)) :
    Filled s (s.pushArgv k) low (low + k + 1) ∧
      ∀ j ≤ k, getWord (s.pushArgv k).mem (low + j) = s.argv j % 2 ^ 32 := by
  induction k generalizing s with
  | zero =>
    obtain ⟨filled, word⟩ := pushWord_filled (v := s.argv 0) esp
    refine ⟨filled, fun j first => ?_⟩
    obtain rfl := Nat.le_zero.mp first
    exact word
  | succ k ih =>
    obtain ⟨filled, word⟩ := pushWord_filled (v := s.argv (k + 1)) esp
    obtain ⟨rest, words⟩ := ih (s := s.pushWord (s.argv (k + 1))) filled.esp
    refine ⟨filled.trans rest (by omega) (by omega), fun j le => ?_⟩
    rcases Nat.lt_or_eq_of_le le with lt | rfl
    · exact words j (Nat.le_of_lt_succ lt)
    · exact (rest.word (by omega)).trans word

theorem align_aligned (s : StackSetup) :
    s.align.esp = 4 * (s.esp / 4) ∧ s.align.mem = s.mem ∧ s.align.argv = s.argv ∧
      s.align.argc = s.argc ∧ WritesIn s s.align (4 * (s.esp / 4)) s.esp := by
  unfold StackSetup.align
  split
  next odd =>
    have moved : (s.moveEsp (s.esp % 4)).esp = 4 * (s.esp / 4) := by
      refine (espBelow_eq (Nat.mod_le _ _)).trans ?_
      omega
    have none : (wordBytes 0).take ((s.moveEsp (s.esp % 4)).esp % 4) = [] := by
      rw [moved, Nat.mul_mod_right, List.take_zero]
    dsimp only
    rw [none]
    refine ⟨moved, copy_nil _ _, rfl, rfl, ⟨fun w pushed => ?_, fun _ => .inl⟩⟩
    rcases List.mem_cons.mp pushed with rfl | old
    · refine .inr ⟨Nat.le_of_eq moved.symm, ?_⟩
      rw [List.length_nil, moved]
      dsimp only
      omega
    · exact .inl old
  next even => exact ⟨by omega, rfl, rfl, rfl, .refl _ _ _⟩

/-- From word `base` on there are the return address, `argc`, the address of the pointers, and these
with the null pointer. -/
structure Pointers (mem : Bytes) (base n : Nat) (entry : Nat → Nat) : Prop where
  returnAddress : getWord mem base = 0
  argc : getWord mem (base + 1) = n
  argv : getWord mem (base + 2) = 4 * (base + 3)
  entries : ∀ j < n, getWord mem (base + 3 + j) = entry j
  last : getWord mem (base + 3 + n) = 0

theorem pushPointers_pointers {base : Nat} (words : s.esp / 4 = base + 3 + s.argc + 1)
    (few : s.argc < argvSize) (room : 0x08048000 + 17 + s.argc * 4 < s.esp)
    (top : s.esp ≤ physBase) (small : ∀ j < s.argc, s.argv j < 2 ^ 32) :
    s.pushPointers.2 = true ∧ s.pushPointers.1.esp = 4 * base ∧
      Pointers s.pushPointers.1.mem base s.argc s.argv ∧
      (∀ a, s.esp ≤ a → s.pushPointers.1.mem a = s.mem a) ∧
      WritesIn s s.pushPointers.1 (4 * base) s.esp ∧ (4 * base, 4) ∈ s.pushPointers.1.writes := by
  have size : argvSize = 64 := rfl
  have high : physBase = 0xc0000000 := rfl
  have allowed : checkEsp (espBelow s.esp (4 + 1 + s.argc * 4 + 4 + 4 + 4)) = true := by
    rw [espBelow_eq (by omega), checkEsp_iff]
    omega
  have ended : WritesIn s (s.setArgv s.argc 0) s.esp s.esp := by
    refine ⟨fun _ => .inl, fun i mem => ?_⟩
    rcases List.mem_cons.mp mem with rfl | old
    · exact .inr few
    · exact .inl old
  obtain ⟨esp, mem, argv, argc, padded⟩ := align_aligned (s.setArgv s.argc 0)
  unfold StackSetup.pushPointers
  rw [if_pos allowed]
  dsimp only
  generalize (s.setArgv s.argc 0).align = aligned at esp mem argv argc padded
  have start : aligned.esp = 4 * (base + 3 + s.argc + 1) := esp.trans (congrArg (4 * ·) words)
  have count : aligned.argc = s.argc := argc
  rw [count]
  obtain ⟨table, entries⟩ := pushArgv_filled start
  generalize aligned.pushArgv s.argc = t at table entries
  obtain ⟨pointer, at_pointer⟩ := pushWord_filled (k := base + 2) (v := t.esp) table.esp
  generalize t.pushWord t.esp = u at pointer at_pointer
  obtain ⟨number, at_number⟩ := pushWord_filled (k := base + 1) (v := u.argc) pointer.esp
  have counted : u.argc = s.argc := pointer.argc.trans (table.argc.trans count)
  generalize u.pushWord u.argc = w at number at_number
  obtain ⟨null, at_null⟩ := pushWord_filled (k := base) (v := 0) number.esp
  have written : (4 * base, 4) ∈ (w.pushWord 0).writes := by
    have moved : (w.moveEsp 4).esp = 4 * base := null.esp
    have first : ((w.moveEsp 4).esp, (wordBytes 0).length) ∈ (w.pushWord 0).writes :=
      List.mem_cons_self
    rw [moved, wordBytes_length] at first
    exact first
  generalize w.pushWord 0 = last at null at_null written
  have two : Filled u last base (base + 2) := number.trans null (by omega) (by omega)
  have three : Filled t last base (base + 3) := pointer.trans two (by omega) (by omega)
  have whole : Filled aligned last base (base + 3 + s.argc + 1) :=
    table.trans three (by omega) (by omega)
  refine ⟨rfl, null.esp, ⟨at_null, ?_, ?_, fun j lt => ?_, ?_⟩, fun a above => ?_, ?_, written⟩
  · rw [null.word (Nat.le_refl _), at_number, counted, Nat.mod_eq_of_lt (by omega)]
  · rw [two.word (Nat.le_refl _), at_pointer, table.esp, Nat.mod_eq_of_lt (by omega)]
  · rw [three.word (Nat.le_add_right _ _), entries j (Nat.le_of_lt lt), argv]
    have old : (s.setArgv s.argc 0).argv j = s.argv j := Function.update_of_ne (Nat.ne_of_lt lt) ..
    rw [old, Nat.mod_eq_of_lt (small j lt)]
  · rw [three.word (Nat.le_add_right _ _), entries s.argc (Nat.le_refl _), argv]
    have zero : (s.setArgv s.argc 0).argv s.argc = 0 := Function.update_self ..
    rw [zero, Nat.zero_mod]
  · rw [whole.outside a (by omega), mem]
    rfl
  · have below : WritesIn aligned last (4 * base) (4 * (s.esp / 4)) := by
      rw [words]
      exact whole.inside
    have start := padded.trans below (by omega) (Nat.mul_div_le _ _)
    exact ended.trans start (by omega) (Nat.le_refl _)

end Pointers

section Image

/-- The address of string `i`. -/
def stringAt (tokens : List CString) (i : Nat) : Nat :=
  physBase - stringsSize (tokens.take (i + 1))

/-- The arguments are on the stack from word `base` up to its end. -/
structure ArgumentsPushed (s : StackSetup) (tokens : List CString) (base : Nat) : Prop where
  size : 4 * base + imageSize tokens = physBase
  esp : s.esp = 4 * base
  pointers : Pointers s.mem base tokens.length (stringAt tokens)
  strings : ∀ i (h : i < tokens.length), strcmp s.mem (stringAt tokens i) tokens[i].1 = true
  writes : ∀ w ∈ s.writes, 4 * base ≤ w.1 ∧ w.1 + w.2 ≤ physBase
  lowest : (4 * base, 4) ∈ s.writes
  stores : ∀ i ∈ s.stores, i < argvSize

theorem stringsSize_append (tokens rest : List CString) :
    stringsSize (tokens ++ rest) = stringsSize tokens + stringsSize rest := by
  simp [stringsSize]

theorem stringsSize_take_le (tokens : List CString) (i : Nat) :
    stringsSize (tokens.take i) ≤ stringsSize tokens := by
  have whole := stringsSize_append (tokens.take i) (tokens.drop i)
  rw [List.take_append_drop] at whole
  omega

theorem stringsSize_take_succ {tokens : List CString} {i : Nat} (h : i < tokens.length) :
    stringsSize (tokens.take (i + 1)) =
      stringsSize (tokens.take i) + (tokens[i].1.length + 1) := by
  rw [← List.take_append_getElem h, stringsSize_append]
  simp [stringsSize]

theorem strtok_tokens (fileName : CString) :
    strtok 32 fileName.1.length fileName = tokens fileName :=
  strtok_eq_components 32 fileName (Nat.le_refl _)

theorem stringsSize_tokens (fileName : CString) :
    stringsSize (tokens fileName) ≤ fileName.1.length + 1 := by
  rw [← strtok_tokens]
  exact (strtok_size 32 _ fileName).1

variable (mem : Bytes) (fileName : CString)

theorem setupStack_pushes (few : (tokens fileName).length < argvSize)
    (small : stringsSize (tokens fileName) ≤ pgsize) :
    (setupStack mem true fileName).2 = true ∧
      ∃ base, ArgumentsPushed (setupStack mem true fileName).1 (tokens fileName) base := by
  have page : pgsize = 4096 := rfl
  have size : argvSize = 64 := rfl
  have high : physBase = 0xc0000000 := rfl
  rw [setupStack, if_pos rfl, strtok_tokens]
  dsimp only
  generalize tokens fileName = toks at few small
  generalize init : StackSetup.start (fillZero mem (physBase - pgsize) pgsize) physBase = s
  have esp : s.esp = physBase := by rw [← init]; rfl
  have argc : s.argc = 0 := by rw [← init]; rfl
  have writes : s.writes = [] := by rw [← init]; rfl
  have stores : s.stores = [] := by rw [← init]; rfl
  obtain ⟨all, pushed⟩ := pushArgs_pushed toks (s := s) (by omega) (by omega) (by omega)
  have below := (pushArgs_writesIn toks (s := s) (by omega) (by omega) (by omega)).1
  generalize StackSetup.pushArgs toks s = result at all pushed below
  obtain ⟨t, done⟩ := result
  obtain rfl : done = true := all
  dsimp only at pushed below ⊢
  have t_esp := pushed.esp
  have t_argc := pushed.argc
  have address : ∀ i < toks.length, t.argv i = stringAt toks i := fun i lt => by
    have at_i := pushed.address i lt
    rw [argc, Nat.zero_add] at at_i
    rw [stringAt]
    omega
  obtain ⟨base, words⟩ : ∃ base, t.esp / 4 = base + 3 + t.argc + 1 :=
    ⟨t.esp / 4 - (3 + t.argc + 1), by omega⟩
  obtain ⟨success, last_esp, pointers, kept, inside, lowest⟩ :=
    pushPointers_pointers (s := t) words (by omega) (by omega) (by omega) fun j lt => by
      rw [address j (by omega), stringAt]
      omega
  have span : WritesIn s t.pushPointers.1 (4 * base) physBase := by
    rw [show s.esp - stringsSize toks = t.esp by omega, esp] at below
    exact below.trans inside (by omega) (by omega)
  refine ⟨success, base, ?_, last_esp, ?_, fun i lt => ?_, fun w new => ?_, lowest,
    fun i new => ?_⟩
  · rw [imageSize]
    omega
  · have n : t.argc = toks.length := by omega
    rw [n] at pointers
    exact ⟨pointers.returnAddress, pointers.argc, pointers.argv,
      fun j lt => (pointers.entries j lt).trans (address j lt), pointers.last⟩
  · have text := pushed.strings i lt
    have take := stringsSize_take_le toks (i + 1)
    have at_i := pushed.address i lt
    rw [argc, Nat.zero_add] at text at_i
    rw [← address i lt]
    exact (strcmp_congr fun a low _ => kept a (by omega)).trans text
  · exact (span.writes w new).resolve_left (by rw [writes]; exact List.not_mem_nil)
  · exact (span.stores i new).resolve_left (by rw [stores]; exact List.not_mem_nil)

/-- With too many tokens the strings alone are written. -/
theorem setupStack_refuses (many : argvSize ≤ (tokens fileName).length)
    (small : stringsSize (tokens fileName) ≤ pgsize) :
    (setupStack mem true fileName).2 = false ∧
      (∀ w ∈ (setupStack mem true fileName).1.writes,
        physBase - pgsize ≤ w.1 ∧ w.1 + w.2 ≤ physBase) ∧
      ∀ i ∈ (setupStack mem true fileName).1.stores, i < argvSize := by
  have page : pgsize = 4096 := rfl
  have size : argvSize = 64 := rfl
  have high : physBase = 0xc0000000 := rfl
  rw [setupStack, if_pos rfl, strtok_tokens]
  dsimp only
  generalize tokens fileName = toks at many small
  generalize init : StackSetup.start (fillZero mem (physBase - pgsize) pgsize) physBase = s
  have esp : s.esp = physBase := by rw [← init]; rfl
  have argc : s.argc = 0 := by rw [← init]; rfl
  have writes : s.writes = [] := by rw [← init]; rfl
  have stores : s.stores = [] := by rw [← init]; rfl
  obtain ⟨inside, done⟩ := pushArgs_writesIn toks (s := s) (by omega) (by omega) (by omega)
  have failed : (StackSetup.pushArgs toks s).2 = false := by
    rw [← Bool.not_eq_true, done]
    omega
  generalize StackSetup.pushArgs toks s = result at inside failed
  obtain ⟨t, success⟩ := result
  obtain rfl : success = false := failed
  refine ⟨rfl, fun w new => ?_, fun i new => ?_⟩
  · have place := (inside.writes w new).resolve_left (by rw [writes]; exact List.not_mem_nil)
    omega
  · exact (inside.stores i new).resolve_left (by rw [stores]; exact List.not_mem_nil)

theorem ArgumentsPushed.decodes {s : StackSetup} {toks : List CString} {base : Nat}
    (pushed : ArgumentsPushed s toks base) (fits : imageSize toks ≤ pgsize) :
    Decodes s.mem s.esp toks := by
  have page : pgsize = 4096 := rfl
  have high : physBase = 0xc0000000 := rfl
  have size := pushed.size
  have image : imageSize toks =
      (stringsSize toks + 3) / 4 * 4 + 4 * (toks.length + 1) + 12 := rfl
  obtain ⟨null, argc, table, entries, last⟩ := pushed.pointers
  have esp : s.esp / 4 = base := by
    rw [pushed.esp]
    omega
  have argv : decodeArgv s.mem s.esp = 4 * (base + 3) := by rw [decodeArgv, esp, table]
  have quarter : 4 * (base + 3) / 4 = base + 3 := by omega
  have pointer : ∀ i < toks.length, decodePointer s.mem s.esp i = stringAt toks i :=
    fun i lt => by rw [decodePointer, argv, quarter, entries i lt]
  have place : ∀ i (h : i < toks.length), 4 * (base + 3 + toks.length + 1) ≤ stringAt toks i ∧
      stringAt toks i + (toks[i].1.length + 1) + stringsSize (toks.take i) = physBase := by
    intro i lt
    have whole := stringsSize_take_le toks (i + 1)
    have next := stringsSize_take_succ lt
    rw [stringAt]
    omega
  refine ⟨by rw [pushed.esp, Nat.mul_mod_right], by rw [esp, null], by rw [esp, argc],
    by rw [argv, Nat.mul_mod_right], fun i lt => ?_, ?_, fun area mem => ?_, ?_⟩
  · rw [pointer i lt]
    exact pushed.strings i lt
  · rw [decodePointer, argv, quarter, last]
  · rw [stackAreas, argv, pushed.esp, List.mem_append] at mem
    rcases mem with word | string
    · simp only [List.mem_cons, List.not_mem_nil, or_false] at word
      rcases word with rfl | rfl | rfl | rfl <;> dsimp only <;> omega
    · obtain ⟨i, lt, rfl⟩ := List.mem_mapIdx.mp string
      have inside := place i lt
      rw [← pushed.esp, pointer i lt]
      dsimp only
      omega
  · have words : ∀ word ∈ [(s.esp, 4), (s.esp + 4, 4), (s.esp + 8, 4),
        (decodeArgv s.mem s.esp, 4 * (toks.length + 1))],
        word.1 + word.2 ≤ 4 * (base + 3 + toks.length + 1) := by
      intro word mem
      rw [argv, pushed.esp] at mem
      simp only [List.mem_cons, List.not_mem_nil, or_false] at mem
      rcases mem with rfl | rfl | rfl | rfl <;> dsimp only <;> omega
    refine List.pairwise_append.mpr ⟨?_, ?_, fun word mem string mem' => ?_⟩
    · rw [argv, pushed.esp]
      simp only [List.pairwise_cons, List.forall_mem_cons, Apart, List.Pairwise.nil,
        List.not_mem_nil, false_imp_iff, implies_true, and_true]
      omega
    · refine List.pairwise_iff_getElem.mpr fun i j hi hj lt => ?_
      rw [List.length_mapIdx] at hi hj
      rw [List.getElem_mapIdx, List.getElem_mapIdx, pointer i hi, pointer j hj]
      have above := (place i hi).2
      have below := (place j hj).2
      have next := stringsSize_take_succ hi
      have more := stringsSize_take_le (toks.take j) (i + 1)
      rw [List.take_take, Nat.min_eq_left (show i + 1 ≤ j from lt)] at more
      exact .inr (by dsimp only; omega)
    · obtain ⟨i, lt, rfl⟩ := List.mem_mapIdx.mp mem'
      have low := words word mem
      have inside := (place i lt).1
      refine .inl ?_
      dsimp only
      rw [pointer i lt]
      omega

end Image

section Claims

/-- Arguments that fit in the page are on the stack as `main` takes them. -/
theorem setupStack_decodes (mem : Bytes) (fileName : CString)
    (few : (tokens fileName).length < argvSize) (fits : imageSize (tokens fileName) ≤ pgsize) :
    (setupStack mem true fileName).2 = true ∧
      Decodes (setupStack mem true fileName).1.mem (setupStack mem true fileName).1.esp
        (tokens fileName) := by
  have small : stringsSize (tokens fileName) ≤ pgsize := by
    rw [imageSize] at fits
    omega
  obtain ⟨success, base, pushed⟩ := setupStack_pushes mem fileName few small
  exact ⟨success, pushed.decodes fits⟩

/-- The line ` a  b`. -/
theorem setupStack_decodes_two :
    (setupStack (fun _ => 7) true ⟨[32, 97, 32, 32, 98], by decide⟩).2 = true ∧
      Decodes (setupStack (fun _ => 7) true ⟨[32, 97, 32, 32, 98], by decide⟩).1.mem
        (setupStack (fun _ => 7) true ⟨[32, 97, 32, 32, 98], by decide⟩).1.esp
        (tokens ⟨[32, 97, 32, 32, 98], by decide⟩) :=
  setupStack_decodes (fun _ => 7) ⟨[32, 97, 32, 32, 98], by decide⟩ (by decide) (by decide)

theorem ArgumentsPushed.staysInPage_iff {result : StackSetup × Bool} {toks : List CString}
    {base : Nat} (pushed : ArgumentsPushed result.1 toks base) :
    StaysInPage result toks ↔ imageSize toks ≤ pgsize := by
  have size := pushed.size
  constructor
  · intro stays
    have low : physBase - pgsize ≤ 4 * base := (stays.writes _ pushed.lowest).1
    have high : physBase = 0xc0000000 := rfl
    omega
  · intro fits
    refine ⟨fun w new => ?_, pushed.stores, fun large => absurd fits (Nat.not_le.mpr large)⟩
    have place := pushed.writes w new
    omega

theorem stringsSize_fnCopy (fileName : CString) :
    stringsSize (tokens (fnCopy fileName)) ≤ pgsize := by
  have length : (fnCopy fileName).1.length ≤ pgsize - 1 := List.length_take_le _ _
  have page : pgsize = 4096 := rfl
  have size := stringsSize_tokens (fnCopy fileName)
  omega

/-- What `setup_stack` writes is in the page unless it takes all the tokens and needs more. -/
theorem setupStack_staysInPage_iff (mem : Bytes) (installed : Bool) (fileName : CString) :
    StaysInPage (setupStack mem installed (fnCopy fileName)) (tokens (fnCopy fileName)) ↔
      installed = false ∨ argvSize ≤ (tokens (fnCopy fileName)).length ∨
        imageSize (tokens (fnCopy fileName)) ≤ pgsize := by
  have small := stringsSize_fnCopy fileName
  cases installed with
  | false => exact iff_of_true ⟨nofun, nofun, fun _ => rfl⟩ (.inl rfl)
  | true =>
    by_cases many : argvSize ≤ (tokens (fnCopy fileName)).length
    · obtain ⟨failed, writes, stores⟩ := setupStack_refuses mem (fnCopy fileName) many small
      exact iff_of_true ⟨writes, stores, fun _ => failed⟩ (.inr (.inl many))
    · obtain ⟨-, base, pushed⟩ := setupStack_pushes mem (fnCopy fileName) (Nat.not_le.mp many) small
      refine pushed.staysInPage_iff.trans ?_
      simp only [Bool.true_eq_false, many, false_or]

/-- One argument of `n` characters. -/
def oneWord (n : Nat) : CString :=
  ⟨List.replicate n 97, fun mem => absurd (List.eq_of_mem_replicate mem) (by decide)⟩

theorem tokens_oneWord (n : Nat) : tokens (oneWord (n + 1)) = [oneWord (n + 1)] := by
  have word : (32 : UInt8) ∉ (oneWord (n + 1)).1 :=
    fun mem => absurd (List.eq_of_mem_replicate mem) (by decide)
  have first : nonEmpty (oneWord (n + 1)).1 = some (oneWord (n + 1)) :=
    dif_pos ⟨(oneWord (n + 1)).2, List.cons_ne_nil _ _⟩
  rw [tokens, components, List.splitOn_eq_singleton word, List.filterMap_cons_some first]
  rfl

/-- An argument of 4090 characters needs 16 bytes more than the page. -/
theorem setupStack_leaves_page :
    ¬StaysInPage (setupStack (fun _ => 0) true (fnCopy (oneWord 4090)))
      (tokens (fnCopy (oneWord 4090))) := by
  have page : pgsize = 4096 := rfl
  have size : argvSize = 64 := rfl
  have length : (oneWord 4090).1.length = 4090 := List.length_replicate
  have copy : fnCopy (oneWord 4090) = oneWord 4090 :=
    Subtype.ext (List.take_of_length_le (by omega))
  have single : tokens (oneWord 4090) = [oneWord 4090] := tokens_oneWord 4089
  have bytes : stringsSize [oneWord 4090] = 4091 := by
    rw [stringsSize, List.map_singleton, List.sum_singleton, length]
  obtain ⟨-, base, pushed⟩ := setupStack_pushes (fun _ => 0) (oneWord 4090)
    (by rw [single, List.length_singleton]; omega) (by rw [single, bytes]; omega)
  rw [copy, pushed.staysInPage_iff, single, imageSize, bytes, List.length_singleton]
  omega

end Claims

end Pintos.Userprog
