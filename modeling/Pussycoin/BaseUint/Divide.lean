import Pussycoin.BaseUint.Shift

/-! The long division of `base_uint<BITS>::operator/=`: the divisor is shifted up to the
dividend's top bit, then one quotient bit is settled a round, from the top, by comparing and
subtracting, with the divisor halved after each round. The invariant of the rounds gives the
floor quotient for every nonzero divisor; a zero divisor throws. -/
namespace Pussycoin.BaseUint

open Limbs

variable {WIDTH : ℕ}

/-- The quotient bit of a round: `pn[shift / 32] |= (1 << (shift & 31))`. -/
def setQuotientBit (q : BaseUint WIDTH) (shift : ℕ) : BaseUint WIDTH :=
  ⟨q.pn.modify (shift / 32) (· ||| (1 : UInt32) <<< (shift &&& 31).toUInt32), by simp [q.length_pn]⟩

/-- Setting a clear bit of the quotient adds it. -/
theorem value_setQuotientBit (q : BaseUint WIDTH) {shift : ℕ} (inside : shift < 32 * WIDTH)
    (clear : q.value.testBit shift = false) : (q.setQuotientBit shift).value = q.value + 2 ^ shift := by
  have low : shift &&& 31 = shift % 32 := Nat.and_two_pow_sub_one_eq_mod shift 5
  have bit : ((1 : UInt32) <<< (shift &&& 31).toUInt32).toNat = 2 ^ (shift % 32) := by
    have amount : (shift % 32) % 2 ^ 32 % 32 = shift % 32 := by omega
    rw [UInt32.toNat_shiftLeft, UInt32.toNat_one, low, UInt32.toNat_ofNat', amount, Nat.one_shiftLeft,
      Nat.mod_eq_of_lt (Nat.pow_lt_pow_right (by norm_num) (Nat.mod_lt _ (by norm_num)))]
  have limbClear : (q.pn.getD (shift / 32) 0).toNat.testBit (shift % 32) = false := by
    rw [← testBit_value']
    exact clear
  have set : (q.pn.getD (shift / 32) 0 ||| (1 : UInt32) <<< (shift &&& 31).toUInt32).toNat =
      (q.pn.getD (shift / 32) 0).toNat + 2 ^ (shift % 32) := by
    rw [UInt32.toNat_or, bit, or_two_pow_of_testBit limbClear]
  have changed := value_modify q.pn (· ||| (1 : UInt32) <<< (shift &&& 31).toUInt32)
    (j := shift / 32) (by rw [q.length_pn]; omega)
  simp only [set] at changed
  have weight : 2 ^ (32 * (shift / 32)) * 2 ^ (shift % 32) = 2 ^ shift := by
    rw [← pow_add, Nat.div_add_mod]
  change Limbs.value (q.pn.modify _ _) = _
  unfold value
  rw [← weight]
  linarith

/-- The variables of the loop of `operator/=`: the remainder `num`, the shifted divisor `div`,
and the quotient `*this`. -/
structure DivState (WIDTH : ℕ) where
  num : BaseUint WIDTH
  div : BaseUint WIDTH
  quotient : BaseUint WIDTH

/-- One round of the loop of `operator/=`: where `num >= div`, subtract and set quotient bit
`shift`; then `div >>= 1`. -/
def divRound (s : DivState WIDTH) (shift : ℕ) : DivState WIDTH :=
  if 0 ≤ s.num.compareTo s.div then
    { num := s.num - s.div, div := s.div >>> (1 : UInt32), quotient := s.quotient.setQuotientBit shift }
  else { s with div := s.div >>> (1 : UInt32) }

/-- `operator/=`, `none` where it throws `uint_error("Division by zero")`. The loop runs
`shift = num_bits - div_bits` down to `0`. -/
def divide (a b : BaseUint WIDTH) : Option (BaseUint WIDTH) :=
  let num_bits := a.bits
  let div_bits := b.bits
  if div_bits = 0 then none
  else if div_bits > num_bits then some zero
  else
    let shift := num_bits - div_bits
    some ((List.range (shift + 1)).reverse.foldl divRound ⟨a, b <<< shift.toUInt32, zero⟩).quotient

section Rounds

variable (a b : BaseUint WIDTH)

/-- What holds after the round of bit `i`: the remainder is below `b * 2^i` and the quotient
has no bit below `i`. -/
def Settled (s : DivState WIDTH) (i : ℕ) : Prop :=
  a.value = s.quotient.value * b.value + s.num.value ∧ s.num.value < b.value * 2 ^ i ∧ s.quotient.value % 2 ^ i = 0

/-- What holds before the round of bit `i`: the rounds above it are settled and the divisor
is shifted by `i`. -/
def Ready (s : DivState WIDTH) (i : ℕ) : Prop := Settled a b s (i + 1) ∧ s.div.value = b.value * 2 ^ i

variable {a b}

theorem compareTo_nonneg {x y : BaseUint WIDTH} : 0 ≤ x.compareTo y ↔ y.value ≤ x.value := by
  rw [compareTo_eq]
  split_ifs with below above <;> omega

theorem mod_two_pow_of_succ {q i : ℕ} (aligned : q % 2 ^ (i + 1) = 0) : q % 2 ^ i = 0 := by
  rw [← Nat.mod_mod_of_dvd q (pow_dvd_pow 2 (Nat.le_succ i)), aligned, Nat.zero_mod]

theorem settled_divRound {s : DivState WIDTH} {i : ℕ} (inside : i < 32 * WIDTH) (ready : Ready a b s i) :
    Settled a b (divRound s i) i ∧ (divRound s i).div.value = b.value * 2 ^ i / 2 := by
  obtain ⟨⟨split, below, aligned⟩, shifted⟩ := ready
  have halved : (s.div >>> (1 : UInt32)).value = b.value * 2 ^ i / 2 := by
    rw [value_shiftRight, shifted]
    rfl
  have twice : b.value * 2 ^ (i + 1) = b.value * 2 ^ i + b.value * 2 ^ i := by ring
  unfold divRound
  split_ifs with fits
  · -- the divisor fits: bit `i` of the quotient is set and the remainder drops below `b * 2^i`
    rw [compareTo_nonneg, shifted] at fits
    have clear : s.quotient.value.testBit i = false := by
      have bit := Nat.testBit_mod_two_pow s.quotient.value (i + 1) i
      rw [aligned, Nat.zero_testBit, decide_eq_true (Nat.lt_succ_self i), Bool.true_and] at bit
      exact bit.symm
    have difference : (s.num - s.div).value = s.num.value - b.value * 2 ^ i := by
      rw [value_sub_of_le (by rw [shifted]; exact fits), shifted]
    refine ⟨⟨?_, ?_, ?_⟩, halved⟩
    · rw [difference, value_setQuotientBit _ inside clear, add_mul, mul_comm (2 ^ i) b.value]
      omega
    · rw [difference]
      omega
    · rw [value_setQuotientBit _ inside clear, Nat.add_mod_right]
      exact mod_two_pow_of_succ aligned
  · -- it does not: the remainder is already below `b * 2^i`
    rw [compareTo_nonneg, shifted, not_le] at fits
    exact ⟨⟨split, fits, mod_two_pow_of_succ aligned⟩, halved⟩

/-- The rounds from bit `i` down to bit `0`. -/
theorem settled_rounds : ∀ (i : ℕ) (s : DivState WIDTH), i < 32 * WIDTH → Ready a b s i →
    Settled a b ((List.range (i + 1)).reverse.foldl divRound s) 0
  | 0, s, inside, ready => (settled_divRound inside ready).1
  | i + 1, s, inside, ready => by
    obtain ⟨settled, halved⟩ := settled_divRound inside ready
    rw [List.range_succ, List.reverse_append, List.reverse_singleton, List.singleton_append, List.foldl_cons]
    refine settled_rounds i _ (by omega) ⟨settled, ?_⟩
    rw [halved, pow_succ, ← mul_assoc, Nat.mul_div_cancel _ (by norm_num)]

end Rounds

/-- `operator/=` throws exactly on a zero divisor and otherwise leaves the floor quotient. -/
theorem divide_eq (fits : 32 * WIDTH < 2 ^ 32) (a b : BaseUint WIDTH) :
    (a.divide b).map value = if b.value = 0 then none else some (a.value / b.value) := by
  have topA : a.value.size ≤ 32 * WIDTH := Nat.size_le.2 a.value_lt
  have wideA := Nat.lt_size_self a.value
  unfold divide
  simp only [bits_eq_size]
  by_cases vanishes : b.value = 0
  · rw [if_pos (by rw [vanishes, Nat.size_zero]), if_pos vanishes]
    rfl
  have positive : 0 < b.value.size := Nat.size_pos.2 (Nat.pos_of_ne_zero vanishes)
  have lead : 2 ^ (b.value.size - 1) ≤ b.value := Nat.lt_size.1 (by omega)
  rw [if_neg (by omega), if_neg vanishes]
  split_ifs with past
  · -- the divisor has more bits than the dividend: the quotient is zero
    rw [Option.map_some, value_zero, Nat.div_eq_of_lt]
    calc a.value < 2 ^ a.value.size := wideA
      _ ≤ 2 ^ (b.value.size - 1) := Nat.pow_le_pow_right (by norm_num) (by omega)
      _ ≤ b.value := lead
  · -- the divisor shifted up to the dividend's top bit starts the rounds
    generalize shiftIs : a.value.size - b.value.size = shift
    have inside : shift < 32 * WIDTH := by omega
    have start : Ready a b ⟨a, b <<< shift.toUInt32, zero⟩ shift := by
      have aligned : b.value * 2 ^ shift < 2 ^ (32 * WIDTH) :=
        calc b.value * 2 ^ shift < 2 ^ b.value.size * 2 ^ shift :=
              Nat.mul_lt_mul_of_pos_right (Nat.lt_size_self _) (by positivity)
          _ = 2 ^ a.value.size := by rw [← pow_add]; congr 1; omega
          _ ≤ 2 ^ (32 * WIDTH) := Nat.pow_le_pow_right (by norm_num) topA
      refine ⟨⟨by simp, ?_, by simp⟩, ?_⟩
      · calc a.value < 2 ^ a.value.size := wideA
          _ = 2 ^ (b.value.size - 1) * 2 ^ (shift + 1) := by rw [← pow_add]; congr 1; omega
          _ ≤ b.value * 2 ^ (shift + 1) := Nat.mul_le_mul_right _ lead
      · rw [value_shiftLeft, UInt32.toNat_ofNat', Nat.mod_eq_of_lt (show shift < 2 ^ 32 by omega),
          Nat.mod_eq_of_lt aligned]
    obtain ⟨split, below, -⟩ := settled_rounds shift _ inside start
    generalize (List.range (shift + 1)).reverse.foldl divRound ⟨a, b <<< shift.toUInt32, zero⟩ = final at split below ⊢
    rw [pow_zero, mul_one] at below
    rw [Option.map_some, split, Nat.add_comm, Nat.add_mul_div_right _ _ (Nat.pos_of_ne_zero vanishes),
      Nat.div_eq_of_lt below, zero_add]

end Pussycoin.BaseUint
