import Mathlib

/-! Little-endian lists of 32-bit limbs and the numbers they stand for, base `2^32` through
`Nat.ofDigits`: how a value splits at a limb, its bound, its bits, the change of one limb, and
the carry propagation that every schoolbook loop over limbs performs. -/
namespace Limbs

/-- The number a little-endian list of limbs stands for. -/
def value (pn : List UInt32) : ℕ := Nat.ofDigits (2 ^ 32) (pn.map UInt32.toNat)

@[simp] theorem value_nil : value [] = 0 := rfl

@[simp] theorem value_cons (w : UInt32) (pn : List UInt32) : value (w :: pn) = w.toNat + 2 ^ 32 * value pn :=
  Nat.ofDigits_cons

theorem value_append (pn qn : List UInt32) : value (pn ++ qn) = value pn + 2 ^ (32 * pn.length) * value qn := by
  rw [value, List.map_append, Nat.ofDigits_append, List.length_map, pow_mul]
  rfl

theorem value_lt (pn : List UInt32) : value pn < 2 ^ (32 * pn.length) := by
  have bound := Nat.ofDigits_lt_base_pow_length (b := 2 ^ 32) (l := pn.map UInt32.toNat) (by norm_num) (by
    intro d member
    obtain ⟨w, -, rfl⟩ := List.mem_map.1 member
    exact w.toNat_lt)
  rwa [List.length_map, ← pow_mul] at bound

@[simp] theorem value_replicate_zero (n : ℕ) : value (List.replicate n 0) = 0 := by
  induction n with
  | zero => rfl
  | succ n ih => simp [List.replicate_succ, ih]

/-- A number split at weight `P` keeps its low part modulo `P * Q`. -/
theorem add_mul_mod_mul {a P c : ℕ} (low : a < P) (Q : ℕ) : (a + P * c) % (P * Q) = a + P * (c % Q) := by
  rw [Nat.mod_mul, Nat.add_mul_mod_self_left, Nat.mod_eq_of_lt low, Nat.add_mul_div_left _ _ (by omega),
    Nat.div_eq_of_lt low, zero_add]

@[simp] theorem getD_replicate_zero (n m : ℕ) : (List.replicate n (0 : UInt32)).getD m 0 = 0 := by
  rw [List.getD_eq_getElem?_getD, List.getElem?_replicate]
  split <;> rfl

/-- A value splits at limb `j` into the limbs below and those from `j` on. -/
theorem value_take_add_drop (pn : List UInt32) (j : ℕ) :
    value pn = value (pn.take j) + 2 ^ (32 * j) * value (pn.drop j) := by
  conv_lhs => rw [← List.take_append_drop j pn]
  rw [value_append]
  rcases le_total j pn.length with inside | past
  · rw [List.length_take_of_le inside]
  · rw [List.drop_eq_nil_of_le past, value_nil, mul_zero, mul_zero]

theorem value_take_lt (pn : List UInt32) (j : ℕ) : value (pn.take j) < 2 ^ (32 * j) :=
  (value_lt _).trans_le (Nat.pow_le_pow_right (by norm_num) (by simp))

theorem value_take (pn : List UInt32) (j : ℕ) : value (pn.take j) = value pn % 2 ^ (32 * j) := by
  rw [value_take_add_drop pn j, Nat.add_mul_mod_self_left, Nat.mod_eq_of_lt (value_take_lt pn j)]

theorem value_drop (pn : List UInt32) (j : ℕ) : value (pn.drop j) = value pn / 2 ^ (32 * j) := by
  rw [value_take_add_drop pn j, Nat.add_mul_div_left _ _ (by positivity), Nat.div_eq_of_lt (value_take_lt pn j),
    zero_add]

/-- The limbs up to `j` and one more: the next limb enters at weight `2^(32 j)`. -/
theorem value_take_succ (pn : List UInt32) {j : ℕ} (inside : j < pn.length) :
    value (pn.take (j + 1)) = value (pn.take j) + 2 ^ (32 * j) * (pn.getD j 0).toNat := by
  rw [List.take_add_one, List.getElem?_eq_getElem inside, Option.toList_some, value_append,
    List.length_take_of_le inside.le, List.getD_eq_getElem _ _ inside, value_cons, value_nil, mul_zero, add_zero]

/-- Bit `t` of limb `m` is bit `32 m + t` of the value. -/
theorem testBit_value (pn : List UInt32) (m : ℕ) {t : ℕ} (ht : t < 32) :
    (value pn).testBit (32 * m + t) = (pn.getD m 0).toNat.testBit t := by
  induction pn generalizing m with
  | nil => simp
  | cons w pn ih =>
    rw [value_cons, add_comm w.toNat, Nat.testBit_two_pow_mul_add _ w.toNat_lt]
    cases m with
    | zero => simp [ht]
    | succ m =>
      rw [if_neg (by omega), show 32 * (m + 1) + t - 32 = 32 * m + t by omega, ih]
      simp

/-- Bit `n` of the value, read in its limb. -/
theorem testBit_value' (pn : List UInt32) (n : ℕ) :
    (value pn).testBit n = (pn.getD (n / 32) 0).toNat.testBit (n % 32) := by
  conv_lhs => rw [← Nat.div_add_mod n 32]
  exact testBit_value pn (n / 32) (Nat.mod_lt n (by norm_num))

/-- The value has no bit at or above `32` times the number of limbs. -/
theorem testBit_value_of_le (pn : List UInt32) {n : ℕ} (above : 32 * pn.length ≤ n) : (value pn).testBit n = false :=
  Nat.testBit_lt_two_pow ((value_lt pn).trans_le (Nat.pow_le_pow_right (by norm_num) above))

/-- Two values agree when every limb does. -/
theorem value_eq_of_getD {pn qn : List UInt32} (same : pn.length = qn.length)
    (limbs : ∀ m < pn.length, pn.getD m 0 = qn.getD m 0) : pn = qn := by
  apply List.ext_getElem same
  intro m hp hq
  have limb := limbs m hp
  rwa [List.getD_eq_getElem _ _ hp, List.getD_eq_getElem _ _ hq] at limb

theorem getD_modify (pn : List UInt32) (f : UInt32 → UInt32) (j m : ℕ) :
    (pn.modify j f).getD m 0 = if j = m ∧ m < pn.length then f (pn.getD m 0) else pn.getD m 0 := by
  rw [List.getD_eq_getElem?_getD, List.getElem?_modify, List.getD_eq_getElem?_getD]
  by_cases inside : m < pn.length
  · rw [List.getElem?_eq_getElem inside]
    by_cases here : j = m <;> simp [here, inside]
  · rw [List.getElem?_eq_none (by omega)]
    simp [inside]

/-- Changing limb `j` changes the value by the difference at weight `2^(32 j)`. -/
theorem value_modify (pn : List UInt32) (f : UInt32 → UInt32) {j : ℕ} (inside : j < pn.length) :
    value (pn.modify j f) + 2 ^ (32 * j) * (pn.getD j 0).toNat =
      value pn + 2 ^ (32 * j) * (f (pn.getD j 0)).toNat := by
  induction pn generalizing j with
  | nil => simp at inside
  | cons w pn ih =>
    cases j with
    | zero => simp [List.modify_zero_cons]; omega
    | succ j =>
      have later := ih (j := j) (by simpa using inside)
      rw [List.modify_succ_cons, value_cons, value_cons, List.getD_cons_succ,
        show 32 * (j + 1) = 32 + 32 * j by ring, pow_add]
      calc w.toNat + 2 ^ 32 * value (pn.modify j f) + 2 ^ 32 * 2 ^ (32 * j) * (pn.getD j 0).toNat
          = w.toNat + 2 ^ 32 * (value (pn.modify j f) + 2 ^ (32 * j) * (pn.getD j 0).toNat) := by ring
        _ = w.toNat + 2 ^ 32 * (value pn + 2 ^ (32 * j) * (f (pn.getD j 0)).toNat) := by rw [later]
        _ = _ := by ring

/-! ### Loops that or values into limbs -/

/-- Or-ing in a bit that is clear adds it. -/
theorem or_two_pow_of_testBit {x t : ℕ} (clear : x.testBit t = false) : x ||| 2 ^ t = x + 2 ^ t := by
  obtain ⟨d, even⟩ : ∃ d, x / 2 ^ t = 2 * d := by
    have bit : (x / 2 ^ t) % 2 = 0 := by
      have bit : (x / 2 ^ t).testBit 0 = x.testBit (0 + t) := Nat.testBit_div_two_pow x 0
      rw [zero_add, clear, Nat.testBit_zero] at bit
      simpa using bit
    exact ⟨x / 2 ^ t / 2, by omega⟩
  have split : x = 2 ^ t * (2 * d) + x % 2 ^ t := by rw [← even, Nat.div_add_mod]
  have low := Nat.mod_lt x (show 0 < 2 ^ t by positivity)
  apply Nat.eq_of_testBit_eq
  intro j
  rw [Nat.testBit_or, Nat.testBit_two_pow, split, show 2 ^ t * (2 * d) + x % 2 ^ t + 2 ^ t =
      2 ^ t * (2 * d + 1) + x % 2 ^ t by ring, Nat.testBit_two_pow_mul_add _ low, Nat.testBit_two_pow_mul_add _ low]
  by_cases below : j < t
  · simp [below, show t ≠ j by omega]
  · rw [if_neg below, if_neg below]
    rcases Nat.lt_or_ge t j with above | same
    · obtain ⟨k, past⟩ : ∃ k, j - t = k + 1 := ⟨j - t - 1, by omega⟩
      rw [past, Nat.testBit_succ, Nat.testBit_succ, show (2 * d + 1) / 2 = d by omega, show 2 * d / 2 = d by omega]
      simp [show t ≠ j by omega]
    · rw [show j - t = 0 by omega, Nat.testBit_zero, Nat.testBit_zero]
      simp [show t = j by omega]

/-- Or-ing `v` into limb `j` under a guard sets the bits of `v` there and clears none. -/
theorem testBit_modify_or (g : Prop) [Decidable g] (r : List UInt32) (j : ℕ) (v : UInt32) (m t : ℕ) :
    (((if g then r.modify j (· ||| v) else r).getD m 0).toNat.testBit t ↔
      (r.getD m 0).toNat.testBit t ∨ (g ∧ j = m ∧ m < r.length ∧ v.toNat.testBit t)) := by
  split_ifs with guard
  · rw [getD_modify]
    split_ifs with here
    · rw [UInt32.toNat_or, Nat.testBit_or, Bool.or_eq_true]
      simp [guard, here]
    · constructor
      · exact Or.inl
      · rintro (kept | ⟨-, at_j, inside, -⟩)
        · exact kept
        · exact absurd ⟨at_j, inside⟩ here
  · simp [guard]

section Scatter

variable {body : List UInt32 → ℕ → List UInt32} {L : ℕ}

theorem length_foldl_range (keeps : ∀ r i, r.length = L → (body r i).length = L) :
    ∀ (n : ℕ) (r : List UInt32), r.length = L → ((List.range n).foldl body r).length = L
  | 0, _, hr => hr
  | n + 1, r, hr => by
    rw [List.range_succ, List.foldl_append, List.foldl_cons, List.foldl_nil]
    exact keeps _ _ (length_foldl_range keeps n r hr)

/-- A loop over `i < n` whose step `i` sets the bits `P i` and clears none ends with the bits it
started with and those some step set. -/
theorem testBit_foldl_range (P : ℕ → ℕ → ℕ → Prop) (keeps : ∀ r i, r.length = L → (body r i).length = L)
    (sets : ∀ r i m t, r.length = L →
      (((body r i).getD m 0).toNat.testBit t ↔ (r.getD m 0).toNat.testBit t ∨ P i m t))
    (r : List UInt32) (hr : r.length = L) (m t : ℕ) :
    ∀ n, ((((List.range n).foldl body r).getD m 0).toNat.testBit t ↔ (r.getD m 0).toNat.testBit t ∨ ∃ i < n, P i m t)
  | 0 => by simp
  | n + 1 => by
    rw [List.range_succ, List.foldl_append, List.foldl_cons, List.foldl_nil,
      sets _ _ _ _ (length_foldl_range keeps n r hr), testBit_foldl_range P keeps sets r hr m t n]
    constructor
    · rintro ((start | ⟨i, below, set⟩) | last)
      · exact Or.inl start
      · exact Or.inr ⟨i, by omega, set⟩
      · exact Or.inr ⟨n, by omega, last⟩
    · rintro (start | ⟨i, below, set⟩)
      · exact Or.inl (Or.inl start)
      · rcases Nat.lt_succ_iff_lt_or_eq.1 below with earlier | rfl
        · exact Or.inl (Or.inr ⟨i, earlier, set⟩)
        · exact Or.inr set

end Scatter

/-! ### Carry propagation -/

/-- The carry loop of schoolbook arithmetic: each term with the incoming carry leaves its low
32 bits as a limb and carries the rest. -/
def propagate : List ℕ → ℕ → List UInt32
  | [], _ => []
  | t :: ts, carry => (t + carry).toUInt32 :: propagate ts ((t + carry) / 2 ^ 32)

@[simp] theorem length_propagate (ts : List ℕ) (carry : ℕ) : (propagate ts carry).length = ts.length := by
  induction ts generalizing carry with
  | nil => rfl
  | cons t ts ih => simp [propagate, ih]

/-- Propagation writes the sum of the terms at their weights, cut to as many limbs as terms. -/
theorem value_propagate (ts : List ℕ) (carry : ℕ) :
    value (propagate ts carry) = (Nat.ofDigits (2 ^ 32) ts + carry) % 2 ^ (32 * ts.length) := by
  induction ts generalizing carry with
  | nil => simp [propagate, Nat.mod_one]
  | cons t ts ih =>
    rw [propagate, value_cons, ih, Nat.ofDigits_cons, List.length_cons, UInt32.toNat_ofNat',
      show 32 * (ts.length + 1) = 32 + 32 * ts.length by ring, pow_add, Nat.mod_mul,
      show t + 2 ^ 32 * Nat.ofDigits (2 ^ 32) ts + carry = t + carry + 2 ^ 32 * Nat.ofDigits (2 ^ 32) ts by ring,
      Nat.add_mul_mod_self_left, Nat.add_mul_div_left _ _ (by norm_num), add_comm ((t + carry) / 2 ^ 32)]

/-- A 64-bit accumulator split as the limb loops split it: `n & 0xffffffff` into the limb and
`n >> 32` into the carry. -/
theorem low_limb (n : UInt64) : (n &&& 0xffffffff).toUInt32 = n.toNat.toUInt32 := by
  apply UInt32.toNat_inj.1
  rw [UInt64.toNat_toUInt32, UInt64.toNat_and, UInt32.toNat_ofNat']
  have mask : (0xffffffff : UInt64).toNat = 2 ^ 32 - 1 := rfl
  rw [mask, Nat.and_two_pow_sub_one_eq_mod, Nat.mod_mod]

theorem high_limb (n : UInt64) : (n >>> 32).toNat = n.toNat / 2 ^ 32 := by
  rw [UInt64.toNat_shiftRight, Nat.shiftRight_eq_div_pow]
  rfl

end Limbs
