import Mathlib.Algebra.GroupWithZero.Nat
import Pintos.Lib.Words

/-! Strings in memory that end with a zero byte, and the files that hold memory: byte arrays that
grow, with zeros, to the end of a write. -/

namespace CStrings

open Words

/-- The characters of a string, without the terminator. -/
abbrev CString := { s : List UInt8 // 0 ∉ s }

/-- `strcmp (s, c + a) == 0`. -/
def strcmp (c : Bytes) (a : Nat) : List UInt8 → Bool
  | [] => c a == 0
  | x :: s => c a == x && strcmp c (a + 1) s

/-- `strlcpy (c + a, s, size)`: at most `size - 1` characters, and a terminator. -/
def strlcpy (c : Bytes) (a : Nat) (s : List UInt8) (size : Nat) : Bytes := fun i =>
  if a ≤ i ∧ i - a < min s.length (size - 1) then s.getD (i - a) 0
  else if i = a + min s.length (size - 1) ∧ 0 < size then 0
  else c i

/-- The tokens that `strtok_r` finds between the characters `c`, `fuel` of them at most. -/
def strtok (c : UInt8) : Nat → CString → List CString
  | 0, _ => []
  | fuel + 1, s =>
    let rest := s.1.dropWhile (· == c)
    have sub : ∀ x ∈ rest, x ∈ s.1 := fun _ h => (List.dropWhile_sublist _).subset h
    if rest = [] then []
    else
      let token := rest.takeWhile (· != c)
      let tail := rest.dropWhile (· != c)
      ⟨token, fun h => s.2 (sub 0 ((List.takeWhile_sublist _).subset h))⟩ ::
        strtok c fuel ⟨tail, fun h => s.2 (sub 0 ((List.dropWhile_sublist _).subset h))⟩

/-- A string with characters. -/
def nonEmpty (l : List UInt8) : Option CString :=
  if h : 0 ∉ l ∧ l ≠ [] then some ⟨l, h.1⟩ else none

/-- The parts of a string between the characters `c`, without the empty ones. -/
def components (c : UInt8) (l : List UInt8) : List CString := (l.splitOn c).filterMap nonEmpty

theorem components_sep (c : UInt8) (l : List UInt8) : components c (c :: l) = components c l := by
  rw [components, components, List.splitOn_cons_eq_if_modifyHead, if_pos BEq.rfl]
  rfl

theorem components_dropWhile (c : UInt8) (l : List UInt8) :
    components c (l.dropWhile (· == c)) = components c l := by
  induction l with
  | nil => rfl
  | cons x l ih =>
    by_cases sep : x = c
    · subst sep
      rw [List.dropWhile_cons_of_pos (by simp), ih, components_sep]
    · rw [List.dropWhile_cons_of_neg (by simpa using sep)]

/-- The first part is a token, and the rest of the string starts with a separator. -/
theorem components_token {c : UInt8} {l : List UInt8} (zero : 0 ∉ l.takeWhile (· != c))
    (token : l.takeWhile (· != c) ≠ []) :
    components c l = ⟨l.takeWhile (· != c), zero⟩ :: components c (l.dropWhile (· != c)) := by
  have apart : c ∉ l.takeWhile (· != c) := fun mem => by
    simpa using List.all_eq_true.mp List.all_takeWhile c mem
  have first : nonEmpty (l.takeWhile (· != c)) = some ⟨_, zero⟩ := dif_pos ⟨zero, token⟩
  have whole := List.takeWhile_append_dropWhile (p := (· != c)) (l := l)
  cases rest : l.dropWhile (· != c) with
  | nil =>
    rw [rest, List.append_nil] at whole
    have single : l.splitOn c = [l.takeWhile (· != c)] := by
      conv_lhs => rw [← whole]
      exact List.splitOn_eq_singleton apart
    rw [components, single, List.filterMap_cons_some first]
    rfl
  | cons x tail =>
    have sep : x = c := by
      have stop := List.head_dropWhile_not (· != c) (l := l) (by simp [rest])
      simpa [rest] using stop
    subst sep
    rw [rest] at whole
    have parts : l.splitOn x = l.takeWhile (· != x) :: tail.splitOn x := by
      conv_lhs => rw [← whole]
      exact List.splitOn_append_cons_self_of_not_mem apart tail
    rw [components_sep, components, parts, List.filterMap_cons_some first, components]

/-- `strtok_r` finds the parts that are not empty. -/
theorem strtok_eq_components (c : UInt8) {fuel : Nat} (s : CString) (enough : s.1.length ≤ fuel) :
    strtok c fuel s = components c s.1 := by
  induction fuel generalizing s with
  | zero =>
    rw [List.length_eq_zero_iff.mp (Nat.le_zero.mp enough)]
    rfl
  | succ fuel ih =>
    rw [← components_dropWhile, strtok]
    dsimp only
    split
    next none =>
      rw [none]
      rfl
    next some =>
      have token : (s.1.dropWhile (· == c)).takeWhile (· != c) ≠ [] := by
        have stop := List.head_dropWhile_not (· == c) some
        obtain ⟨x, tail, rest⟩ := List.exists_cons_of_ne_nil some
        simp only [rest, List.head_cons] at stop
        rw [rest, List.takeWhile_cons_of_pos (by simpa using stop)]
        exact List.cons_ne_nil _ _
      rw [components_token _ token, ih]
      have whole := congrArg List.length
        (List.takeWhile_append_dropWhile (p := (· != c)) (l := s.1.dropWhile (· == c)))
      have shorter := (List.dropWhile_sublist (l := s.1) (· == c)).length_le
      have positive := List.length_pos_iff.mpr token
      rw [List.length_append] at whole
      show ((s.1.dropWhile (· == c)).dropWhile (· != c)).length ≤ fuel
      omega

/-- The tokens with their terminators take the room of the string with its own; a separator in front
leaves a byte. -/
theorem strtok_size (c : UInt8) (fuel : Nat) (s : CString) :
    ((strtok c fuel s).map fun token => token.1.length + 1).sum ≤ s.1.length + 1 ∧
      ((∀ x, s.1.head? = some x → x = c) →
        ((strtok c fuel s).map fun token => token.1.length + 1).sum ≤ s.1.length) := by
  induction fuel generalizing s with
  | zero => exact ⟨Nat.zero_le _, fun _ => Nat.zero_le _⟩
  | succ fuel ih =>
    rw [strtok]
    dsimp only
    split
    next => exact ⟨Nat.zero_le _, fun _ => Nat.zero_le _⟩
    next more =>
      have whole := congrArg List.length
        (List.takeWhile_append_dropWhile (p := (· != c)) (l := s.1.dropWhile (· == c)))
      have shorter := (List.dropWhile_sublist (l := s.1) (· == c)).length_le
      rw [List.length_append] at whole
      have stop : ∀ x, ((s.1.dropWhile (· == c)).dropWhile (· != c)).head? = some x → x = c := by
        intro x first
        have last := List.head?_dropWhile_not (· != c) (s.1.dropWhile (· == c))
        rw [first] at last
        simpa using last
      have rest := (ih ⟨(s.1.dropWhile (· == c)).dropWhile (· != c), fun mem =>
        s.2 ((List.dropWhile_sublist _).subset ((List.dropWhile_sublist _).subset mem))⟩).2 stop
      rw [List.map_cons, List.sum_cons]
      dsimp only at rest ⊢
      refine ⟨by omega, fun first => ?_⟩
      obtain ⟨x, tail, cons⟩ : ∃ x tail, s.1 = x :: tail := by
        apply List.exists_cons_of_ne_nil
        intro empty
        exact more (by rw [empty, List.dropWhile_nil])
      have sep : x = c := first x (by rw [cons, List.head?_cons])
      have dropped : (s.1.dropWhile (· == c)).length ≤ tail.length := by
        rw [cons, List.dropWhile_cons_of_pos (by simpa using sep)]
        exact (List.dropWhile_sublist _).length_le
      have length : s.1.length = tail.length + 1 := by rw [cons, List.length_cons]
      omega

theorem strcmp_congr {c c' : Bytes} {a : Nat} {s : List UInt8}
    (same : ∀ i, a ≤ i → i ≤ a + s.length → c' i = c i) : strcmp c' a s = strcmp c a s := by
  induction s generalizing a with
  | nil => simp [strcmp, same a (Nat.le_refl a) (Nat.le_add_right a _)]
  | cons x s ih =>
    simp only [List.length_cons] at same
    have rest : strcmp c' (a + 1) s = strcmp c (a + 1) s :=
      ih fun i low high => same i (by omega) (by omega)
    rw [strcmp, strcmp, same a (Nat.le_refl a) (by omega), rest]

/-- The memory holds one string at an address. -/
theorem strcmp_unique {c : Bytes} {a : Nat} {s s' : List UInt8} (zero : 0 ∉ s) (zero' : 0 ∉ s')
    (h : strcmp c a s = true) (h' : strcmp c a s' = true) : s = s' := by
  induction s generalizing a s' with
  | nil =>
    cases s' with
    | nil => rfl
    | cons y s' =>
      simp only [strcmp, Bool.and_eq_true, beq_iff_eq] at h h'
      exact absurd (h'.1.symm.trans h) fun eq => zero' (eq ▸ List.mem_cons_self)
  | cons x s ih =>
    cases s' with
    | nil =>
      simp only [strcmp, Bool.and_eq_true, beq_iff_eq] at h h'
      exact absurd (h.1.symm.trans h') fun eq => zero (eq ▸ List.mem_cons_self)
    | cons y s' =>
      simp only [strcmp, Bool.and_eq_true, beq_iff_eq] at h h'
      have tail := ih (fun mem => zero (List.mem_cons_of_mem x mem))
        (fun mem => zero' (List.mem_cons_of_mem y mem)) h.2 h'.2
      rw [← h.1, ← h'.1, tail]

theorem strcmp_iff {c : Bytes} {a : Nat} {s s' : List UInt8} (zero : 0 ∉ s) (zero' : 0 ∉ s')
    (h : strcmp c a s = true) : strcmp c a s' = true ↔ s' = s := by
  constructor
  · intro h'
    exact strcmp_unique zero' zero h' h
  · rintro rfl
    exact h

/-- The characters up to the terminator, of which there is one among the first `n + 1`. -/
theorem takeWhile_of_strcmp {c : Bytes} {a n : Nat} {s : List UInt8} (zero : 0 ∉ s)
    (h : strcmp c a s = true) (fits : s.length ≤ n) :
    ((List.range n).map fun i => c (a + i)).takeWhile (· != 0) = s := by
  induction s generalizing a n with
  | nil =>
    have last : c a = 0 := by simpa [strcmp] using h
    cases n with
    | zero => rfl
    | succ n => simp [List.range_succ_eq_map, last]
  | cons x s ih =>
    simp only [strcmp, Bool.and_eq_true, beq_iff_eq] at h
    obtain ⟨n, rfl⟩ := Nat.exists_eq_add_of_le' (Nat.lt_of_lt_of_le (Nat.succ_pos _) fits)
    have ne : x ≠ 0 := fun eq => zero (eq ▸ List.mem_cons_self)
    have shift : ((fun i => c (a + i)) ∘ Nat.succ) = fun i => c (a + 1 + i) :=
      funext fun i => congrArg c (by simp only [Nat.succ_eq_add_one]; omega)
    have rest := ih (fun mem => zero (List.mem_cons_of_mem x mem)) h.2 (Nat.le_of_succ_le_succ fits)
    rw [List.range_succ_eq_map, List.map_cons, List.map_map, shift, Nat.add_zero, h.1,
      List.takeWhile_cons_of_pos (by simpa using ne), rest]

theorem strcmp_of_bytes {c : Bytes} {a : Nat} {s : List UInt8}
    (chars : ∀ i < s.length, c (a + i) = s.getD i 0) (last : c (a + s.length) = 0) :
    strcmp c a s = true := by
  induction s generalizing a with
  | nil => simpa [strcmp] using last
  | cons x s ih =>
    have first := chars 0 (by simp)
    simp only [Nat.add_zero, List.getD_cons_zero] at first
    rw [strcmp, first]
    simp only [BEq.rfl, Bool.true_and]
    refine ih (fun i small => ?_) ?_
    · have next := chars (i + 1) (by simpa using small)
      rw [List.getD_cons_succ] at next
      rw [← next]
      congr 1
      omega
    · rw [← last]
      congr 1
      simp only [List.length_cons]
      omega

theorem strcmp_copy (c : Bytes) (a : Nat) (s : List UInt8) :
    strcmp (copy c a (s ++ [0])) a s = true := by
  refine strcmp_of_bytes (fun i small => ?_) ?_
  · rw [copy_inside (by rw [List.length_append]; omega)]
    simp [List.getElem?_append_left small]
  · rw [copy_inside (by simp)]
    simp

/-- A string that fits is there after the copy. -/
theorem strcmp_strlcpy {s : List UInt8} {size : Nat} (fits : s.length < size) (c : Bytes)
    (a : Nat) : strcmp (strlcpy c a s size) a s = true := by
  have all : min s.length (size - 1) = s.length := by omega
  refine strcmp_of_bytes (fun i small => ?_) ?_
  · rw [strlcpy, all, if_pos (by omega), Nat.add_sub_cancel_left]
  · rw [strlcpy, all, if_neg (by omega), if_pos ⟨rfl, by omega⟩]

theorem strlcpy_outside {s : List UInt8} {size i a : Nat} (c : Bytes)
    (out : i < a ∨ a + size ≤ i) : strlcpy c a s size i = c i := by
  rw [strlcpy, if_neg (by omega), if_neg (by omega)]

end CStrings

namespace ByteFiles

open Words

/-- The bytes of a file up to its length. -/
structure ByteFile where
  bytes : Bytes
  length : Nat

namespace ByteFile

/-- Reads up to `size` bytes at `ofs` into `buffer`, with the number of bytes read. -/
def readAt (f : ByteFile) (buffer : Bytes) (size ofs : Nat) : Nat × Bytes :=
  let n := min size (f.length - ofs)
  (n, fun i => if i < n then f.bytes (ofs + i) else buffer i)

/-- Writes `size` bytes at `ofs`; bytes between the old end and the write become zero. -/
def writeAt (f : ByteFile) (buffer : Bytes) (size ofs : Nat) : ByteFile where
  bytes := fun i =>
    if ofs ≤ i ∧ i < ofs + size then buffer (i - ofs)
    else if f.length ≤ i ∧ i < ofs then 0
    else f.bytes i
  length := max f.length (ofs + size)

theorem readAt_full (f : ByteFile) (buffer : Bytes) {size ofs : Nat}
    (fits : ofs + size ≤ f.length) :
    (f.readAt buffer size ofs).1 = size ∧
      ∀ i < size, (f.readAt buffer size ofs).2 i = f.bytes (ofs + i) := by
  have all : min size (f.length - ofs) = size := by omega
  refine ⟨all, fun i small => ?_⟩
  simp only [readAt, all, if_pos small]

/-- What is read are the bytes before the end. -/
theorem readAt_congr {f f' : ByteFile} (length : f'.length = f.length)
    (bytes : ∀ p < f.length, f'.bytes p = f.bytes p) : f'.readAt = f.readAt := by
  funext buffer size ofs
  simp only [readAt, length, Prod.mk.injEq, true_and]
  funext i
  split
  next inside => exact bytes (ofs + i) (by omega)
  next => rfl

theorem writeAt_inside (f : ByteFile) (buffer : Bytes) {size ofs i : Nat} (small : i < size) :
    (f.writeAt buffer size ofs).bytes (ofs + i) = buffer i := by
  simp only [writeAt, if_pos (show ofs ≤ ofs + i ∧ ofs + i < ofs + size by omega),
    Nat.add_sub_cancel_left]

theorem writeAt_outside (f : ByteFile) (buffer : Bytes) {size ofs i : Nat}
    (out : i < ofs ∨ ofs + size ≤ i) (old : i < f.length) :
    (f.writeAt buffer size ofs).bytes i = f.bytes i := by
  simp only [writeAt, if_neg (show ¬(ofs ≤ i ∧ i < ofs + size) by omega),
    if_neg (show ¬(f.length ≤ i ∧ i < ofs) by omega)]

end ByteFile

end ByteFiles
