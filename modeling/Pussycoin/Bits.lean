import Mathlib

/-! Numbers as lists of bits, most significant first. `bitsOf n x` is the low `n` bits of `x`
and `ofBits` reads a list back. Position `i` of `bitsOf n x` is bit `n - 1 - i` of `x`, so the
lemmas about the lists come from `Nat.testBit`. -/
namespace Bits

/-- The low `n` bits of `x`, most significant first. -/
def bitsOf : ℕ → ℕ → List Bool
  | 0, _ => []
  | n + 1, x => x.testBit n :: bitsOf n x

/-- The number a list of bits spells, most significant first. -/
def ofBits : List Bool → ℕ
  | [] => 0
  | b :: l => b.toNat * 2 ^ l.length + ofBits l

@[simp] theorem length_bitsOf (n x : ℕ) : (bitsOf n x).length = n := by
  induction n with
  | zero => rfl
  | succ n ih => simp [bitsOf, ih]

theorem getElem_bitsOf {n x i : ℕ} (h : i < (bitsOf n x).length) :
    (bitsOf n x)[i] = x.testBit (n - 1 - i) := by
  induction n generalizing i with
  | zero => simp at h
  | succ n ih =>
    cases i with
    | zero => simp [bitsOf]
    | succ i =>
      simp only [bitsOf, List.getElem_cons_succ, ih]
      congr 1
      simp only [length_bitsOf] at h
      omega

/-- The high `m` of `m + k` bits are the bits of `x >>> k`. -/
theorem bitsOf_add (m k x : ℕ) : bitsOf (m + k) x = bitsOf m (x >>> k) ++ bitsOf k x := by
  induction m with
  | zero => simp [bitsOf]
  | succ m ih =>
    rw [Nat.add_right_comm, bitsOf, ih, bitsOf, Nat.testBit_shiftRight, Nat.add_comm k m, List.cons_append]

/-- Dropping the high `k` bits leaves the low `n - k`. -/
theorem drop_bitsOf {k n : ℕ} (le : k ≤ n) (x : ℕ) : (bitsOf n x).drop k = bitsOf (n - k) x := by
  have split := bitsOf_add k (n - k) x
  rw [Nat.add_sub_cancel' le] at split
  rw [split, List.drop_left' (length_bitsOf k _)]

/-- The high `k` of `n` bits are the bits of `x >>> (n - k)`. -/
theorem take_bitsOf {k n : ℕ} (le : k ≤ n) (x : ℕ) : (bitsOf n x).take k = bitsOf k (x >>> (n - k)) := by
  have split := bitsOf_add k (n - k) x
  rw [Nat.add_sub_cancel' le] at split
  rw [split, List.take_left' (length_bitsOf k _)]

/-- Only the low `n` bits of `x` count. -/
theorem bitsOf_mod (n x : ℕ) {k : ℕ} (le : n ≤ k) : bitsOf n (x % 2 ^ k) = bitsOf n x := by
  induction n with
  | zero => rfl
  | succ n ih =>
    rw [bitsOf, bitsOf, ih (by omega), Nat.testBit_mod_two_pow, decide_eq_true (by omega), Bool.true_and]

theorem bitsOf_two_pow_sub_one {n w : ℕ} (le : n ≤ w) : bitsOf n (2 ^ w - 1) = List.replicate n true := by
  induction n with
  | zero => rfl
  | succ n ih =>
    rw [bitsOf, ih (by omega), Nat.testBit_two_pow_sub_one, decide_eq_true (by omega), List.replicate_succ]

theorem bitsOf_zero (n : ℕ) : bitsOf n 0 = List.replicate n false := by
  induction n with
  | zero => rfl
  | succ n ih => rw [bitsOf, ih, Nat.zero_testBit, List.replicate_succ]

theorem ofBits_append (l l' : List Bool) : ofBits (l ++ l') = ofBits l * 2 ^ l'.length + ofBits l' := by
  induction l with
  | nil => simp [ofBits]
  | cons b l ih =>
    simp only [List.cons_append, ofBits, List.length_append, ih, pow_add]
    ring

theorem ofBits_lt (l : List Bool) : ofBits l < 2 ^ l.length := by
  induction l with
  | nil => simp [ofBits]
  | cons b l ih =>
    have bit : b.toNat ≤ 1 := Bool.toNat_le b
    rw [ofBits, List.length_cons, pow_succ]
    nlinarith

theorem ofBits_bitsOf (n x : ℕ) : ofBits (bitsOf n x) = x % 2 ^ n := by
  induction n with
  | zero => simp [bitsOf, ofBits, Nat.mod_one]
  | succ n ih =>
    -- the top bit of the low `n + 1` is `x / 2 ^ n % 2`
    have top : (x.testBit n).toNat = x / 2 ^ n % 2 := by
      rw [Nat.testBit_eq_decide_div_mod_eq]
      rcases Nat.mod_two_eq_zero_or_one (x / 2 ^ n) with parity | parity <;> simp [parity]
    rw [bitsOf, ofBits, length_bitsOf, ih, top, pow_succ, Nat.mod_mul, Nat.add_comm]
    ring

end Bits
