import Mathlib.Algebra.Group.Nat.Defs
import Mathlib.Logic.Function.Basic
import Mathlib.Tactic.Common

/-! Memory as a function from addresses to bytes, read and written as 32-bit little-endian words. -/

namespace Words

abbrev Bytes := Nat → UInt8

/-- The byte of a word at offset `i % 4`. -/
def wordByte (v i : Nat) : UInt8 := UInt8.ofNat (v / 256 ^ (i % 4))

def getWord (c : Bytes) (k : Nat) : Nat :=
  (c (4 * k)).toNat + 256 * (c (4 * k + 1)).toNat + 65536 * (c (4 * k + 2)).toNat +
    16777216 * (c (4 * k + 3)).toNat

def setWord (c : Bytes) (k v : Nat) : Bytes := fun i => if i / 4 = k then wordByte v i else c i

/-- The memory that holds `f k` as word `k`. -/
def ofWords (f : Nat → Nat) : Bytes := fun i => wordByte (f (i / 4)) i

/-- Zeroes `count` bytes from `start` on. -/
def fillZero (c : Bytes) (start count : Nat) : Bytes := fun i =>
  if start ≤ i ∧ i < start + count then 0 else c i

/-- The memory after bytes are copied to `a`. -/
def copy (c : Bytes) (a : Nat) (bytes : List UInt8) : Bytes := fun i =>
  if a ≤ i ∧ i < a + bytes.length then bytes.getD (i - a) 0 else c i

/-- The four bytes of a word. -/
def wordBytes (v : Nat) : List UInt8 := (List.range 4).map (wordByte v)

theorem getWord_lt (c : Bytes) (k : Nat) : getWord c k < 2 ^ 32 := by
  have h0 := (c (4 * k)).toNat_lt
  have h1 := (c (4 * k + 1)).toNat_lt
  have h2 := (c (4 * k + 2)).toNat_lt
  have h3 := (c (4 * k + 3)).toNat_lt
  rw [getWord]
  omega

theorem getWord_of_bytes {c : Bytes} {k v : Nat}
    (bytes : ∀ r < 4, c (4 * k + r) = UInt8.ofNat (v / 256 ^ r)) : getWord c k = v % 2 ^ 32 := by
  have h0 := bytes 0 (by omega)
  have h1 := bytes 1 (by omega)
  have h2 := bytes 2 (by omega)
  have h3 := bytes 3 (by omega)
  rw [Nat.add_zero] at h0
  simp only [getWord, h0, h1, h2, h3, UInt8.toNat_ofNat']
  omega

theorem getWord_congr {c c' : Bytes} {k : Nat} (same : ∀ r < 4, c' (4 * k + r) = c (4 * k + r)) :
    getWord c' k = getWord c k := by
  have h0 := same 0 (by omega)
  rw [Nat.add_zero] at h0
  simp only [getWord, h0, same 1 (by omega), same 2 (by omega), same 3 (by omega)]

theorem getWord_setWord_mod (c : Bytes) (k v : Nat) : getWord (setWord c k v) k = v % 2 ^ 32 := by
  refine getWord_of_bytes fun r hr => ?_
  have quotient : (4 * k + r) / 4 = k := by omega
  have remainder : (4 * k + r) % 4 = r := by omega
  rw [setWord, if_pos quotient, wordByte, remainder]

theorem getWord_setWord_self (c : Bytes) (k : Nat) {v : Nat} (small : v < 2 ^ 32) :
    getWord (setWord c k v) k = v := by
  rw [getWord_setWord_mod, Nat.mod_eq_of_lt small]

theorem getWord_setWord_of_ne (c : Bytes) {k l : Nat} (v : Nat) (ne : l ≠ k) :
    getWord (setWord c k v) l = getWord c l := by
  refine getWord_congr fun r hr => ?_
  have quotient : (4 * l + r) / 4 ≠ k := by omega
  rw [setWord, if_neg quotient]

theorem getWord_ofWords (f : Nat → Nat) {k : Nat} (small : f k < 2 ^ 32) :
    getWord (ofWords f) k = f k := by
  have word : getWord (ofWords f) k = f k % 2 ^ 32 := by
    refine getWord_of_bytes fun r hr => ?_
    have quotient : (4 * k + r) / 4 = k := by omega
    have remainder : (4 * k + r) % 4 = r := by omega
    rw [ofWords, quotient, wordByte, remainder]
  rw [word, Nat.mod_eq_of_lt small]

theorem getWord_fillZero (c : Bytes) {start count k : Nat} (low : start ≤ 4 * k)
    (high : 4 * k + 4 ≤ start + count) : getWord (fillZero c start count) k = 0 := by
  have zero : ∀ r < 4, fillZero c start count (4 * k + r) = 0 := by
    intro r hr
    rw [fillZero, if_pos (by omega)]
  have h0 := zero 0 (by omega)
  rw [Nat.add_zero] at h0
  simp [getWord, h0, zero 1 (by omega), zero 2 (by omega), zero 3 (by omega)]

theorem copy_outside {c : Bytes} {a i : Nat} {bytes : List UInt8}
    (out : i < a ∨ a + bytes.length ≤ i) : copy c a bytes i = c i := by
  rw [copy, if_neg (by omega)]

theorem copy_inside {c : Bytes} {a i : Nat} {bytes : List UInt8} (inside : i < bytes.length) :
    copy c a bytes (a + i) = bytes.getD i 0 := by
  rw [copy, if_pos (by omega), Nat.add_sub_cancel_left]

theorem copy_nil (c : Bytes) (a : Nat) : copy c a [] = c :=
  funext fun _ => copy_outside (by simp; omega)

theorem wordBytes_length (v : Nat) : (wordBytes v).length = 4 := by simp [wordBytes]

/-- The bytes of a word, copied to the place of word `k`. -/
theorem copy_wordBytes (c : Bytes) (k v : Nat) : copy c (4 * k) (wordBytes v) = setWord c k v := by
  funext i
  by_cases inside : i / 4 = k
  · obtain ⟨r, rfl⟩ : ∃ r, i = 4 * k + r := ⟨i % 4, by omega⟩
    have small : r < 4 := by omega
    have remainder : (4 * k + r) % 4 = r % 4 := by omega
    rw [copy_inside (by rw [wordBytes_length]; exact small), setWord, if_pos inside, wordByte,
      remainder]
    simp [wordBytes, wordByte, small]
  · rw [setWord, if_neg inside]
    exact copy_outside (by rw [wordBytes_length]; omega)

end Words
