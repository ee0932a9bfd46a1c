import Pussycoin.BaseUint.Arith

/-! The shifts of `base_uint<BITS>`: `operator<<=` and `operator>>=` clear every limb and or
each old limb into the one or two limbs it lands in. Read bit by bit, they multiply and divide
the value by `2^shift`, modulo `2^BITS`. -/
namespace Pussycoin.BaseUint

open Limbs

variable {WIDTH : ℕ}

theorem testBit_shiftLeft_limb (x s : UInt32) (hs : s.toNat < 32) {t : ℕ} (ht : t < 32) :
    (x <<< s).toNat.testBit t = (decide (s.toNat ≤ t) && x.toNat.testBit (t - s.toNat)) := by
  rw [UInt32.toNat_shiftLeft, Nat.mod_eq_of_lt hs, Nat.testBit_mod_two_pow, Nat.testBit_shiftLeft]
  simp [ht]

theorem testBit_shiftRight_limb (x s : UInt32) (hs : s.toNat < 32) (t : ℕ) :
    (x >>> s).toNat.testBit t = x.toNat.testBit (s.toNat + t) := by
  rw [UInt32.toNat_shiftRight, Nat.mod_eq_of_lt hs, Nat.testBit_shiftRight]

theorem testBit_limb_of_le (x : UInt32) {j : ℕ} (high : 32 ≤ j) : x.toNat.testBit j = false :=
  Nat.testBit_lt_two_pow ((UInt32.toNat_lt x).trans_le (Nat.pow_le_pow_right (by norm_num) high))

/-- The two halves of a shift amount: whole limbs and the bits within one. -/
theorem toNat_shift_split (shift : UInt32) :
    (shift / 32).toNat = shift.toNat / 32 ∧ (shift % 32).toNat = shift.toNat % 32 :=
  ⟨UInt32.toNat_div _ _, UInt32.toNat_mod _ _⟩

theorem toNat_complement_shift {s : UInt32} (hs : s.toNat < 32) : (32 - s).toNat = 32 - s.toNat := by
  rw [UInt32.toNat_sub_of_le _ _ (by rw [UInt32.le_iff_toNat_le]; exact Nat.le_of_lt (by simpa using hs))]
  rfl

/-! ### `operator<<=` -/

/-- One round of the loop of `operator<<=`: limb `i` of the old value `a` or-ed into limb
`i + k + 1` (its top `shift` bits) and into limb `i + k`. -/
def shiftLeftStep (a : List UInt32) (k : ℕ) (shift : UInt32) (pn : List UInt32) (i : ℕ) : List UInt32 :=
  let pn := if i + k + 1 < a.length ∧ shift ≠ 0 then pn.modify (i + k + 1) (· ||| a.getD i 0 >>> (32 - shift)) else pn
  if i + k < a.length then pn.modify (i + k) (· ||| a.getD i 0 <<< shift) else pn

/-- `operator<<=(unsigned int shift)`: the limbs cleared, then the loop over the old limbs with
`k = shift / 32` and `shift % 32`. -/
def shiftLeftLoop (a : List UInt32) (shift : UInt32) : List UInt32 :=
  (List.range a.length).foldl (shiftLeftStep a (shift / 32).toNat (shift % 32)) (List.replicate a.length 0)

theorem length_shiftLeftStep (a : List UInt32) (k : ℕ) (shift : UInt32) (pn : List UInt32) (i : ℕ) :
    (shiftLeftStep a k shift pn i).length = pn.length := by
  unfold shiftLeftStep
  split_ifs <;> simp

theorem testBit_shiftLeftStep (a : List UInt32) (k : ℕ) (shift : UInt32) (pn : List UInt32) (i m t : ℕ) :
    (((shiftLeftStep a k shift pn i).getD m 0).toNat.testBit t ↔ (pn.getD m 0).toNat.testBit t ∨
      ((i + k + 1 < a.length ∧ shift ≠ 0) ∧ i + k + 1 = m ∧ m < pn.length ∧
          (a.getD i 0 >>> (32 - shift)).toNat.testBit t ∨
        i + k < a.length ∧ i + k = m ∧ m < pn.length ∧ (a.getD i 0 <<< shift).toNat.testBit t)) := by
  have length : (if i + k + 1 < a.length ∧ shift ≠ 0 then pn.modify (i + k + 1) (· ||| a.getD i 0 >>> (32 - shift))
      else pn).length = pn.length := by split_ifs <;> simp
  unfold shiftLeftStep
  dsimp only
  rw [testBit_modify_or, testBit_modify_or, length, or_assoc]

/-- Bit `t` of limb `m` of `a <<= shift`, read back in `a`. -/
theorem testBit_shiftLeftLoop (a : List UInt32) (shift : UInt32) (n : ℕ) :
    (Limbs.value (shiftLeftLoop a shift)).testBit n =
      (decide (n < 32 * a.length) && decide (shift.toNat ≤ n) && (Limbs.value a).testBit (n - shift.toNat)) := by
  obtain ⟨hk, hs⟩ := toNat_shift_split shift
  have small : (shift % 32).toNat < 32 := by omega
  have ht := Nat.mod_lt n (show 0 < 32 by norm_num)
  rw [Bool.eq_iff_iff, testBit_value', shiftLeftLoop,
    testBit_foldl_range _ (fun r i hr => (length_shiftLeftStep a _ _ r i).trans hr)
      (fun r i m t hr => hr ▸ testBit_shiftLeftStep a _ _ r i m t) _ (List.length_replicate) _ _ a.length]
  simp only [getD_replicate_zero, UInt32.toNat_zero, Nat.zero_testBit, Bool.false_eq_true, false_or,
    Bool.and_eq_true, decide_eq_true_eq, testBit_value']
  constructor
  · rintro ⟨i, below, ⟨⟨inside, nonzero⟩, at_m, -, set⟩ | ⟨inside, at_m, -, set⟩⟩
    · -- the top bits of limb `i`, which land at the bottom of limb `i + k + 1`
      have nonzero' : (shift % 32).toNat ≠ 0 := fun zero => nonzero (UInt32.toNat_inj.1 (by simpa using zero))
      rw [testBit_shiftRight_limb _ _ (by rw [toNat_complement_shift small]; omega), toNat_complement_shift small] at set
      have low : 32 - (shift % 32).toNat + n % 32 < 32 := by
        by_contra high
        rw [testBit_limb_of_le _ (by omega)] at set
        exact Bool.false_ne_true set
      refine ⟨⟨by omega, by omega⟩, ?_⟩
      rwa [show (n - shift.toNat) / 32 = i by omega, show (n - shift.toNat) % 32 = 32 - (shift % 32).toNat + n % 32 by
        omega]
    · -- the low bits of limb `i`, which stay in limb `i + k` moved up by `shift % 32`
      rw [testBit_shiftLeft_limb _ _ small ht, Bool.and_eq_true, decide_eq_true_eq] at set
      refine ⟨⟨by omega, by omega⟩, ?_⟩
      rw [show (n - shift.toNat) / 32 = i by omega, show (n - shift.toNat) % 32 = n % 32 - (shift % 32).toNat by omega]
      exact set.2
  · rintro ⟨⟨inside, above⟩, set⟩
    by_cases wraps : (shift % 32).toNat + (n - shift.toNat) % 32 < 32
    · refine ⟨(n - shift.toNat) / 32, by omega, Or.inr ⟨by omega, by omega, by omega, ?_⟩⟩
      rw [testBit_shiftLeft_limb _ _ small ht, Bool.and_eq_true, decide_eq_true_eq]
      exact ⟨by omega, by rwa [show n % 32 - (shift % 32).toNat = (n - shift.toNat) % 32 by omega]⟩
    · refine ⟨(n - shift.toNat) / 32, by omega, Or.inl ⟨⟨by omega, fun zero => ?_⟩, by omega, by omega, ?_⟩⟩
      · rw [zero, UInt32.toNat_zero] at wraps
        omega
      · rw [testBit_shiftRight_limb _ _ (by rw [toNat_complement_shift small]; omega), toNat_complement_shift small]
        rwa [show 32 - (shift % 32).toNat + n % 32 = (n - shift.toNat) % 32 by omega]

theorem value_shiftLeftLoop (a : List UInt32) (shift : UInt32) :
    Limbs.value (shiftLeftLoop a shift) = Limbs.value a * 2 ^ shift.toNat % 2 ^ (32 * a.length) := by
  apply Nat.eq_of_testBit_eq
  intro n
  rw [testBit_shiftLeftLoop, Nat.testBit_mod_two_pow, ← Nat.shiftLeft_eq, Nat.testBit_shiftLeft, Bool.and_assoc]

theorem length_shiftLeftLoop (a : List UInt32) (shift : UInt32) : (shiftLeftLoop a shift).length = a.length :=
  length_foldl_range (fun r i hr => (length_shiftLeftStep a _ _ r i).trans hr) _ _ List.length_replicate

instance : HShiftLeft (BaseUint WIDTH) UInt32 (BaseUint WIDTH) :=
  ⟨fun a shift => ⟨shiftLeftLoop a.pn shift, (length_shiftLeftLoop a.pn shift).trans a.length_pn⟩⟩

theorem value_shiftLeft (a : BaseUint WIDTH) (shift : UInt32) :
    (a <<< shift).value = a.value * 2 ^ shift.toNat % 2 ^ (32 * WIDTH) := by
  change Limbs.value (shiftLeftLoop a.pn shift) = _
  rw [value_shiftLeftLoop, a.length_pn]
  rfl

/-! ### `operator>>=` -/

/-- One round of the loop of `operator>>=`: limb `i` of the old value `a` or-ed into limb
`i - k - 1` (its low `shift` bits, moved to the top) and into limb `i - k`, where these are
limbs at all. -/
def shiftRightStep (a : List UInt32) (k : ℕ) (shift : UInt32) (pn : List UInt32) (i : ℕ) : List UInt32 :=
  let pn := if k + 1 ≤ i ∧ shift ≠ 0 then pn.modify (i - k - 1) (· ||| a.getD i 0 <<< (32 - shift)) else pn
  if k ≤ i then pn.modify (i - k) (· ||| a.getD i 0 >>> shift) else pn

/-- `operator>>=(unsigned int shift)`. -/
def shiftRightLoop (a : List UInt32) (shift : UInt32) : List UInt32 :=
  (List.range a.length).foldl (shiftRightStep a (shift / 32).toNat (shift % 32)) (List.replicate a.length 0)

theorem length_shiftRightStep (a : List UInt32) (k : ℕ) (shift : UInt32) (pn : List UInt32) (i : ℕ) :
    (shiftRightStep a k shift pn i).length = pn.length := by
  unfold shiftRightStep
  split_ifs <;> simp

theorem testBit_shiftRightStep (a : List UInt32) (k : ℕ) (shift : UInt32) (pn : List UInt32) (i m t : ℕ) :
    (((shiftRightStep a k shift pn i).getD m 0).toNat.testBit t ↔ (pn.getD m 0).toNat.testBit t ∨
      ((k + 1 ≤ i ∧ shift ≠ 0) ∧ i - k - 1 = m ∧ m < pn.length ∧ (a.getD i 0 <<< (32 - shift)).toNat.testBit t ∨
        k ≤ i ∧ i - k = m ∧ m < pn.length ∧ (a.getD i 0 >>> shift).toNat.testBit t)) := by
  have length : (if k + 1 ≤ i ∧ shift ≠ 0 then pn.modify (i - k - 1) (· ||| a.getD i 0 <<< (32 - shift))
      else pn).length = pn.length := by split_ifs <;> simp
  unfold shiftRightStep
  dsimp only
  rw [testBit_modify_or, testBit_modify_or, length, or_assoc]

/-- Bit `n` of `a >>= shift` is bit `shift + n` of `a`. -/
theorem testBit_shiftRightLoop (a : List UInt32) (shift : UInt32) (n : ℕ) :
    (Limbs.value (shiftRightLoop a shift)).testBit n = (Limbs.value a).testBit (shift.toNat + n) := by
  obtain ⟨hk, hs⟩ := toNat_shift_split shift
  have small : (shift % 32).toNat < 32 := by omega
  have ht := Nat.mod_lt n (show 0 < 32 by norm_num)
  rw [Bool.eq_iff_iff, testBit_value', shiftRightLoop,
    testBit_foldl_range _ (fun r i hr => (length_shiftRightStep a _ _ r i).trans hr)
      (fun r i m t hr => hr ▸ testBit_shiftRightStep a _ _ r i m t) _ (List.length_replicate) _ _ a.length]
  simp only [getD_replicate_zero, UInt32.toNat_zero, Nat.zero_testBit, Bool.false_eq_true, false_or, testBit_value']
  constructor
  · rintro ⟨i, below, ⟨⟨inside, nonzero⟩, at_m, -, set⟩ | ⟨inside, at_m, -, set⟩⟩
    · -- the low bits of limb `i`, moved to the top of limb `i - k - 1`
      have nonzero' : (shift % 32).toNat ≠ 0 := fun zero => nonzero (UInt32.toNat_inj.1 (by simpa using zero))
      rw [testBit_shiftLeft_limb _ _ (by rw [toNat_complement_shift small]; omega) ht, toNat_complement_shift small,
        Bool.and_eq_true, decide_eq_true_eq] at set
      rw [show (shift.toNat + n) / 32 = i by omega, show (shift.toNat + n) % 32 = n % 32 - (32 - (shift % 32).toNat) by
        omega]
      exact set.2
    · -- the high bits of limb `i`, moved down within limb `i - k`
      rw [testBit_shiftRight_limb _ _ small] at set
      have low : (shift % 32).toNat + n % 32 < 32 := by
        by_contra high
        rw [testBit_limb_of_le _ (by omega)] at set
        exact Bool.false_ne_true set
      rwa [show (shift.toNat + n) / 32 = i by omega, show (shift.toNat + n) % 32 = (shift % 32).toNat + n % 32 by omega]
  · intro set
    have inside : (shift.toNat + n) / 32 < a.length := by
      by_contra past
      rw [List.getD_eq_default _ _ (by omega), UInt32.toNat_zero, Nat.zero_testBit] at set
      exact Bool.false_ne_true set
    refine ⟨(shift.toNat + n) / 32, inside, ?_⟩
    by_cases wraps : (shift % 32).toNat + n % 32 < 32
    · refine Or.inr ⟨by omega, by omega, by omega, ?_⟩
      rw [testBit_shiftRight_limb _ _ small]
      rwa [show (shift % 32).toNat + n % 32 = (shift.toNat + n) % 32 by omega]
    · have nonzero' : (shift % 32).toNat ≠ 0 := by omega
      refine Or.inl ⟨⟨by omega, fun zero => nonzero' (by rw [zero]; rfl)⟩, by omega, by omega, ?_⟩
      rw [testBit_shiftLeft_limb _ _ (by rw [toNat_complement_shift small]; omega) ht, toNat_complement_shift small,
        Bool.and_eq_true, decide_eq_true_eq]
      exact ⟨by omega, by rwa [show n % 32 - (32 - (shift % 32).toNat) = (shift.toNat + n) % 32 by omega]⟩

theorem value_shiftRightLoop (a : List UInt32) (shift : UInt32) :
    Limbs.value (shiftRightLoop a shift) = Limbs.value a / 2 ^ shift.toNat := by
  apply Nat.eq_of_testBit_eq
  intro n
  rw [testBit_shiftRightLoop, ← Nat.shiftRight_eq_div_pow, Nat.testBit_shiftRight]

theorem length_shiftRightLoop (a : List UInt32) (shift : UInt32) : (shiftRightLoop a shift).length = a.length :=
  length_foldl_range (fun r i hr => (length_shiftRightStep a _ _ r i).trans hr) _ _ List.length_replicate

instance : HShiftRight (BaseUint WIDTH) UInt32 (BaseUint WIDTH) :=
  ⟨fun a shift => ⟨shiftRightLoop a.pn shift, (length_shiftRightLoop a.pn shift).trans a.length_pn⟩⟩

theorem value_shiftRight (a : BaseUint WIDTH) (shift : UInt32) : (a >>> shift).value = a.value / 2 ^ shift.toNat :=
  value_shiftRightLoop a.pn shift

end Pussycoin.BaseUint
