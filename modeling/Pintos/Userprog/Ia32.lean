import Pintos.Userprog.AddressSpace
import Pintos.Userprog.PageTables

/-! The page format of IA-32, with memory mapped at `PHYS_BASE`. -/

namespace Pintos.Userprog

open Vm

namespace Ia32

/-- `PTE_ADDR`. -/
def addr : Word := 0xfffff000

def mask : Bit → Word
  | .present => 0x1
  | .writable => 0x2
  | .user => 0x4
  | .accessed => 0x20
  | .dirty => 0x40

/-- An entry with the address of a page and some bits. -/
def word (kpage : Nat) (bits : Word) : Word := BitVec.ofNat 32 (kpage - physBase) ||| bits

def page (w : Word) : Nat := (w &&& addr).toNat + physBase

/-- The format on a machine with so many pages of memory. -/
def format (ramPages : Nat) (userPool : Nat → Bool) : PageFormat where
  physBase := physBase
  pdNo v := v / 4194304
  ptNo v := v / 4096 % 1024
  pgOfs v := v % 4096
  vtop kpage := kpage - physBase
  ptov paddr := paddr + physBase
  ptShift := 12
  initRamPages := ramPages
  mask := mask
  pdeCreate pt := word pt 0x7
  pdeGetPt := page
  pteCreateKernel kpage writable := word kpage (if writable then 0x3 else 0x1)
  pteCreateUser kpage writable := word kpage (if writable then 0x7 else 0x5)
  pteGetPage := page
  userPool := userPool
  scrap _ := 0xcccccccc

theorem ofNat_and_addr {x : Nat} (aligned : x % 4096 = 0) :
    BitVec.ofNat 32 x &&& addr = BitVec.ofNat 32 x := by
  have high : ∀ i < 32, 12 ≤ i → addr.getLsbD i = true := by decide
  apply BitVec.eq_of_getLsbD_eq
  intro i bound
  rw [BitVec.getLsbD_and, BitVec.getLsbD_ofNat]
  by_cases low : i < 12
  · obtain ⟨k, rfl⟩ : ∃ k, x = 2 ^ 12 * k := ⟨x / 4096, by omega⟩
    have clear : (2 ^ 12 * k).testBit i = false := by
      rw [Nat.testBit_two_pow_mul]
      simp [Nat.not_le.mpr low]
    rw [clear, Bool.and_false, Bool.false_and]
  · rw [high i bound (Nat.le_of_not_lt low), Bool.and_true]

theorem page_word {kpage : Nat} {bits : Word} (aligned : (kpage - physBase) % 4096 = 0)
    (low : physBase ≤ kpage) (high : kpage - physBase < 2 ^ 32) (apart : bits &&& addr = 0) :
    page (word kpage bits) = kpage := by
  have same : word kpage bits &&& addr = BitVec.ofNat 32 (kpage - physBase) := by
    rw [word, BitVec.and_or_distrib_right, ofNat_and_addr aligned, apart]
    exact BitVec.or_zero
  rw [page, same, BitVec.toNat_ofNat, Nat.mod_eq_of_lt high]
  omega

theorem word_and {kpage : Nat} {bits m : Word} (aligned : (kpage - physBase) % 4096 = 0)
    (apart : addr &&& m = 0) : word kpage bits &&& m = bits &&& m := by
  have none : BitVec.ofNat 32 (kpage - physBase) &&& m = 0 := by
    rw [← ofNat_and_addr aligned, BitVec.and_assoc, apart]
    exact BitVec.and_zero
  rw [word, BitVec.and_or_distrib_right, none]
  exact BitVec.zero_or

theorem mask_ne (b : Bit) : mask b ≠ 0 := by
  cases b <;> decide

theorem mask_apart (b b' : Bit) (ne : b ≠ b') : mask b &&& mask b' = 0 := by
  cases b <;> cases b' <;> first | exact absurd rfl ne | decide

theorem addr_and_mask (b : Bit) : addr &&& mask b = 0 := by
  cases b <;> decide

theorem put_and_addr (ramPages : Nat) (userPool : Nat → Bool) (w : Word) (b : Bit) (on : Bool) :
    (format ramPages userPool).put w b on &&& addr = w &&& addr := by
  cases on with
  | true =>
    have apart : mask b &&& addr = 0 := by rw [BitVec.and_comm, addr_and_mask]
    show (w ||| mask b) &&& addr = _
    rw [BitVec.and_or_distrib_right, apart]
    exact BitVec.or_zero
  | false =>
    have keep : ~~~mask b &&& addr = addr := by cases b <;> decide
    show w &&& ~~~mask b &&& addr = _
    rw [BitVec.and_assoc, keep]

theorem ram_iff {ramPages : Nat} {userPool : Nat → Bool} {kpage : Nat} :
    (format ramPages userPool).Ram kpage ↔
      kpage % 4096 = 0 ∧ physBase ≤ kpage ∧ (kpage - physBase) / 4096 < ramPages := by
  simp only [PageFormat.Ram, format, Nat.shiftRight_eq_div_pow]
  constructor
  · rintro ⟨-, aligned, high, bound⟩
    exact ⟨aligned, high, bound⟩
  · rintro ⟨aligned, high, bound⟩
    exact ⟨by unfold physBase at high; omega, aligned, high, bound⟩

/-- Up to a gigabyte of memory fits above `PHYS_BASE`. -/
theorem format_lawful {ramPages : Nat} (userPool : Nat → Bool) (fits : ramPages ≤ 262144) :
    (format ramPages userPool).Lawful := by
  have ram : ∀ p, (format ramPages userPool).Ram p →
      (p - physBase) % 4096 = 0 ∧ physBase ≤ p ∧ p - physBase < 2 ^ 32 := by
    intro p isRam
    obtain ⟨aligned, high, bound⟩ := ram_iff.mp isRam
    unfold physBase at high bound ⊢
    omega
  have has_word : ∀ p, (format ramPages userPool).Ram p → ∀ bits b,
      (format ramPages userPool).has (word p bits) b = (bits &&& mask b != 0) := by
    intro p isRam bits b
    show (word p bits &&& mask b != 0) = _
    rw [word_and (ram p isRam).1 (addr_and_mask b)]
  refine ⟨?_, ?_, ?_, ?_, ?_, ?_, ?_, ?_, ?_, ?_, ?_, ?_, ?_, ?_, ?_, ?_⟩
  · exact mask_ne
  · exact mask_apart
  · intro w b on
    show page _ = page w
    rw [page, put_and_addr, page]
  · intro w b on
    show page _ = page w
    rw [page, put_and_addr, page]
  · intro v
    simp only [format, PageFormat.page]
    omega
  · intro v
    simp only [format, PageFormat.page]
    omega
  · intro v
    simp only [format, PageFormat.page]
    omega
  · intro v v' dir table
    simp only [format, PageFormat.page] at dir table ⊢
    omega
  · intro v
    simp only [format, physBase]
    omega
  · intro v
    exact Nat.mod_lt _ (by decide)
  · intro i low j bound
    simp only [format, physBase, ptEntries, pgsize] at low bound
    refine ⟨i * 4194304 + j * 4096, ?_, ?_⟩ <;> simp only [format] <;> omega
  · intro k bound
    rw [ram_iff]
    simp only [format, pgsize, physBase] at bound ⊢
    omega
  · intro k k' le _
    simp only [format, pgsize, physBase]
    omega
  · intro p isRam
    obtain ⟨aligned, low, high⟩ := ram p isRam
    refine ⟨⟨?_, ?_, ?_⟩, page_word aligned low high (by decide)⟩ <;>
      exact (has_word p isRam _ _).trans (by decide)
  · intro p writable isRam
    obtain ⟨aligned, low, high⟩ := ram p isRam
    refine ⟨page_word aligned low high ?_, fun b => (has_word p isRam _ b).trans ?_⟩
    · cases writable <;> decide
    · cases writable <;> cases b <;> decide
  · intro p writable isRam
    obtain ⟨aligned, low, high⟩ := ram p isRam
    refine ⟨page_word aligned low high ?_, fun b => (has_word p isRam _ b).trans ?_⟩
    · cases writable <;> decide
    · cases writable <;> cases b <;> decide

end Ia32

end Pintos.Userprog
