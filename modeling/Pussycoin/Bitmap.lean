import Mathlib

/-! Bitmaps stored in bytes with the most significant bit first: bit `j` of a byte, for
`j < 8`, is the bit of weight `2 ^ (7 - j)`. The lemmas say how masking with `|||`, `&&&`
and `^^^` acts on single bits, and that a byte is determined by its eight bits. -/
namespace Bitmap

/-- Bit `j` of a byte, counted from the most significant bit. -/
def bit (b : UInt8) (j : ℕ) : Bool := b.toNat.testBit (7 - j)

/-- The byte with only bit `j` set. -/
def mask (j : ℕ) : UInt8 := UInt8.ofNat (2 ^ (7 - j))

/-- The byte whose bit `j` is `p j` for the bits below `n`. -/
def ofBitsBelow (p : ℕ → Bool) : ℕ → UInt8
  | 0 => 0
  | n + 1 => (if p n then mask n else 0) ||| ofBitsBelow p n

/-- The byte whose eight bits are `p 0, …, p 7`. -/
def ofBits (p : ℕ → Bool) : UInt8 := ofBitsBelow p 8

variable {a b : UInt8} {j k : ℕ}

theorem mask_toNat (small : k < 8) : (mask k).toNat = 2 ^ (7 - k) := by
  have bound : 2 ^ (7 - k) < 2 ^ 8 := Nat.pow_lt_pow_right (by norm_num) (by omega)
  simp only [mask, UInt8.toNat_ofNat', Nat.mod_eq_of_lt bound]

@[simp] theorem bit_zero (j : ℕ) : bit 0 j = false := by
  simp [bit]

theorem bit_mask (small : k < 8) (smallJ : j < 8) : bit (mask k) j = decide (j = k) := by
  simp only [bit, mask_toNat small, Nat.testBit_two_pow]
  congr 1
  apply propext
  omega

@[simp] theorem bit_or : bit (a ||| b) j = (bit a j || bit b j) := by
  simp [bit, UInt8.toNat_or, Nat.testBit_or]

@[simp] theorem bit_and : bit (a &&& b) j = (bit a j && bit b j) := by
  simp [bit, UInt8.toNat_and, Nat.testBit_and]

@[simp] theorem bit_xor : bit (a ^^^ b) j = (bit a j ^^ bit b j) := by
  simp [bit, UInt8.toNat_xor, Nat.testBit_xor]

theorem bit_ff (smallJ : j < 8) : bit 0xff j = true := by
  have : j = 0 ∨ j = 1 ∨ j = 2 ∨ j = 3 ∨ j = 4 ∨ j = 5 ∨ j = 6 ∨ j = 7 := by omega
  rcases this with rfl | rfl | rfl | rfl | rfl | rfl | rfl | rfl <;> decide

/-- A byte is zero exactly when none of its eight bits is set. -/
theorem eq_zero_iff : b = 0 ↔ ∀ j < 8, bit b j = false := by
  constructor
  · rintro rfl j _
    exact bit_zero j
  · intro clear
    apply UInt8.toNat_inj.1
    apply Nat.eq_of_testBit_eq
    intro i
    by_cases low : i < 8
    · have := clear (7 - i) (by omega)
      simp only [bit, show 7 - (7 - i) = i by omega] at this
      simp [this]
    · rw [Nat.testBit_eq_false_of_lt (lt_of_lt_of_le b.toNat_lt (Nat.pow_le_pow_right (by norm_num) (by omega)))]
      simp

/-- A byte is determined by its eight bits. -/
theorem ext (same : ∀ j < 8, bit a j = bit b j) : a = b := by
  have zero : a ^^^ b = 0 := eq_zero_iff.2 fun j small => by simp [same j small]
  simpa using congrArg (· ^^^ b) zero

/-- Masking with bit `j` leaves a nonzero byte exactly when bit `j` is set. -/
theorem and_mask_ne_zero (smallJ : j < 8) : (a &&& mask j != 0) = bit a j := by
  by_cases set : bit a j
  · have : a &&& mask j ≠ 0 := fun zero => by
      have := eq_zero_iff.1 zero j smallJ
      simp [bit_mask smallJ smallJ, set] at this
    simp [this, set]
  · have : a &&& mask j = 0 := eq_zero_iff.2 fun i smallI => by
      by_cases same : i = j
      · subst same
        simp [set]
      · simp [bit_mask smallJ smallI, same]
    simp [this, set]

/-- Setting bit `k` sets it and keeps the others. -/
theorem bit_or_mask (small : k < 8) (smallJ : j < 8) :
    bit (a ||| mask k) j = (decide (j = k) || bit a j) := by
  rw [bit_or, bit_mask small smallJ, Bool.or_comm]

/-- Clearing bit `k` clears it and keeps the others. -/
theorem bit_and_not_mask (small : k < 8) (smallJ : j < 8) :
    bit (a &&& (0xff ^^^ mask k)) j = (!decide (j = k) && bit a j) := by
  rw [bit_and, bit_xor, bit_ff smallJ, bit_mask small smallJ]
  cases bit a j <;> simp

theorem bit_ofBitsBelow (p : ℕ → Bool) (n : ℕ) (bounded : n ≤ 8) (smallJ : j < 8) :
    bit (ofBitsBelow p n) j = (decide (j < n) && p j) := by
  induction n with
  | zero => simp [ofBitsBelow]
  | succ n ih =>
    simp only [ofBitsBelow, bit_or, ih (by omega)]
    by_cases here : j = n
    · subst here
      cases p j <;> simp [bit_mask smallJ smallJ]
    · have below : j ≤ n ↔ j < n := by omega
      cases hp : p n <;> simp [bit_mask (by omega : n < 8) smallJ, here, below]

@[simp] theorem bit_ofBits (p : ℕ → Bool) (smallJ : j < 8) : bit (ofBits p) j = p j := by
  simp [ofBits, bit_ofBitsBelow p 8 le_rfl smallJ, smallJ]

end Bitmap
