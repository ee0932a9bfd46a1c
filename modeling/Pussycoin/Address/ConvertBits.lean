import Pussycoin.Positional

/-! `ConvertBits<frombits, tobits, pad>` of `util/strencodings.h`: it regroups `frombits`-bit
values into `tobits`-bit ones through an accumulator `acc` that holds `bits` unread bits. The
model returns the values passed to `outfn`, in order, with what the function returns. The
accumulator is masked to `frombits + tobits - 1` bits, so `size_t` never wraps. -/
namespace Pussycoin.Address

open Positional

/-- The inner loop, `while (bits >= tobits)`: each round emits the `tobits` bits of `acc` below
the top `bits`. It runs at most `bits` rounds, the fuel it is called with. -/
def drainBits (tobits acc : ℕ) : (fuel bits : ℕ) → List ℕ × ℕ
  | 0, bits => ([], bits)
  | fuel + 1, bits =>
    if tobits ≤ bits then
      let (rest, bits') := drainBits tobits acc fuel (bits - tobits)
      (((acc >>> (bits - tobits)) &&& ((1 <<< tobits) - 1)) :: rest, bits')
    else ([], bits)

/-- The loop over the input: the values emitted, and the final `acc` and `bits`. -/
def convertBitsLoop (frombits tobits : ℕ) (acc bits : ℕ) : List ℕ → List ℕ × ℕ × ℕ
  | [] => ([], acc, bits)
  | x :: xs =>
    let acc := ((acc <<< frombits) ||| x) &&& ((1 <<< (frombits + tobits - 1)) - 1)
    let (out, bits) := drainBits tobits acc (bits + frombits) (bits + frombits)
    let (rest, acc, bits) := convertBitsLoop frombits tobits acc bits xs
    (out ++ rest, acc, bits)

def convertBits (frombits tobits : ℕ) (pad : Bool) (input : List ℕ) : List ℕ × Bool :=
  let maxv := (1 <<< tobits) - 1
  let (out, acc, bits) := convertBitsLoop frombits tobits 0 0 input
  if pad then
    (if bits ≠ 0 then out ++ [(acc <<< (tobits - bits)) &&& maxv] else out, true)
  else if bits ≥ frombits ∨ (acc <<< (tobits - bits)) &&& maxv ≠ 0 then (out, false)
  else (out, true)

/-! ### The accumulator invariant -/

/-- The values `out` emitted and the low `rest` bits of `acc` still held spell the number
`pending` of `bits` bits read, as `tobits`-bit digits followed by the rest. -/
structure Spelled (tobits bits pending : ℕ) (out : List ℕ) (acc rest : ℕ) : Prop where
  held : rest < tobits
  count : bits = tobits * out.length + rest
  digits : ∀ d ∈ out, d < 2 ^ tobits
  spell : pending = value (2 ^ tobits) 0 out * 2 ^ rest + acc % 2 ^ rest

section
variable {t : ℕ}

theorem value_two_pow (f p : ℕ) (xs : List ℕ) : value (2 ^ f) p xs = p * 2 ^ (f * xs.length) + value (2 ^ f) 0 xs := by
  rw [value_eq, ← pow_mul]

theorem value_two_pow_append (out rest : List ℕ) :
    value (2 ^ t) 0 (out ++ rest) = value (2 ^ t) 0 out * 2 ^ (t * rest.length) + value (2 ^ t) 0 rest := by
  rw [value_append, value_two_pow]

theorem and_maxv_lt (a : ℕ) : a &&& (1 <<< t) - 1 < 2 ^ t := by
  rw [Nat.one_shiftLeft, Nat.and_two_pow_sub_one_eq_mod]
  exact Nat.mod_lt _ (Nat.two_pow_pos t)

/-- The padding `ConvertBits` emits, or checks is zero, is the held bits shifted to the top. -/
theorem shiftLeft_and_maxv {bits : ℕ} (le : bits ≤ t) (acc : ℕ) :
    (acc <<< (t - bits)) &&& (1 <<< t) - 1 = acc % 2 ^ bits * 2 ^ (t - bits) := by
  have split : 2 ^ t = 2 ^ bits * 2 ^ (t - bits) := by rw [← pow_add, Nat.add_sub_cancel' le]
  rw [Nat.one_shiftLeft, Nat.and_two_pow_sub_one_eq_mod, Nat.shiftLeft_eq, split, Nat.mul_mod_mul_right]

theorem drainBits_spelled (positive : 0 < t) (acc : ℕ) :
    ∀ (fuel : ℕ) {bits : ℕ}, bits ≤ fuel →
      Spelled t bits (acc % 2 ^ bits) (drainBits t acc fuel bits).1 acc (drainBits t acc fuel bits).2
  | 0, bits, enough => by
    obtain rfl : bits = 0 := Nat.le_zero.mp enough
    exact ⟨positive, rfl, by simp [drainBits], by simp [drainBits]⟩
  | fuel + 1, bits, enough => by
    by_cases full : t ≤ bits
    · -- one round takes the top `t` bits off, and the rounds after spell the others
      have ih := drainBits_spelled positive acc fuel (show bits - t ≤ fuel by omega)
      simp only [drainBits, if_pos full]
      generalize drainBits t acc fuel (bits - t) = r at ih ⊢
      obtain ⟨out, rest⟩ := r
      obtain ⟨held, count, digits, spell⟩ := ih
      dsimp only at held count digits spell ⊢
      refine ⟨held, ?_, ?_, ?_⟩
      · rw [List.length_cons, Nat.mul_succ]
        omega
      · intro d mem
        rcases List.mem_cons.mp mem with rfl | mem
        · exact and_maxv_lt _
        · exact digits d mem
      · rw [mod_two_pow_split acc full, spell, value_cons, Nat.zero_mul, Nat.zero_add, Nat.one_shiftLeft,
          value_two_pow t (acc >>> (bits - t) &&& 2 ^ t - 1) out, count, pow_add]
        ring
    · simp only [drainBits, if_neg full]
      exact ⟨by omega, by simp, by simp, by simp⟩

/-- Shifting a value in keeps the bits held below it, since the mask is wide enough. -/
theorem shiftIn_mod {f bits x : ℕ} (held : bits < t) (small : x < 2 ^ f) (acc : ℕ) :
    (((acc <<< f) ||| x) &&& (1 <<< (f + t - 1)) - 1) % 2 ^ (bits + f) = acc % 2 ^ bits * 2 ^ f + x := by
  have within : 2 ^ (bits + f) ∣ 2 ^ (f + t - 1) := Nat.pow_dvd_pow 2 (by omega)
  rw [Nat.one_shiftLeft, Nat.and_two_pow_sub_one_eq_mod, Nat.mod_mod_of_dvd _ within, shiftLeft_or_mod small]

theorem convertBitsLoop_spelled {f : ℕ} (positive : 0 < t) :
    ∀ (xs : List ℕ) (acc : ℕ) {bits : ℕ}, bits < t → (∀ x ∈ xs, x < 2 ^ f) →
      Spelled t (bits + f * xs.length) (value (2 ^ f) (acc % 2 ^ bits) xs) (convertBitsLoop f t acc bits xs).1
        (convertBitsLoop f t acc bits xs).2.1 (convertBitsLoop f t acc bits xs).2.2
  | [], acc, bits, held, _ => ⟨held, by simp [convertBitsLoop], by simp [convertBitsLoop], by simp [convertBitsLoop]⟩
  | x :: xs, acc, bits, held, small => by
    -- the inner loop regroups what is held after `x`; the run over the others continues from there
    have shifted := shiftIn_mod held (small x List.mem_cons_self) acc
    have drained := drainBits_spelled positive (((acc <<< f) ||| x) &&& (1 <<< (f + t - 1)) - 1) (bits + f) le_rfl
    simp only [convertBitsLoop]
    generalize ((acc <<< f) ||| x) &&& (1 <<< (f + t - 1)) - 1 = acc' at shifted drained ⊢
    generalize drainBits t acc' (bits + f) (bits + f) = r at drained ⊢
    obtain ⟨out, rest⟩ := r
    obtain ⟨held1, count1, digits1, spell1⟩ := drained
    dsimp only at held1 count1 digits1 spell1 ⊢
    have ih := convertBitsLoop_spelled positive xs acc' held1 fun x mem => small x (List.mem_cons_of_mem _ mem)
    generalize convertBitsLoop f t acc' rest xs = r at ih ⊢
    obtain ⟨out2, acc2, rest2⟩ := r
    obtain ⟨held2, count2, digits2, spell2⟩ := ih
    dsimp only at held2 count2 digits2 spell2 ⊢
    refine ⟨held2, ?_, ?_, ?_⟩
    · rw [List.length_append, List.length_cons, Nat.mul_add, Nat.mul_add]
      omega
    · intro d mem
      rcases List.mem_append.mp mem with mem | mem
      · exact digits1 d mem
      · exact digits2 d mem
    · have exps : 2 ^ rest * 2 ^ (f * xs.length) = 2 ^ (t * out2.length) * 2 ^ rest2 := by
        rw [← pow_add, ← pow_add, count2]
      rw [value_cons, ← shifted, spell1, value_two_pow, add_mul, add_assoc, ← value_two_pow, spell2,
        value_two_pow_append, mul_assoc, exps]
      ring

/-- `t * n + e` with `e < t` fixes `n` and `e`. -/
theorem mul_add_inj {n m e b : ℕ} (he : e < t) (hb : b < t) (same : t * n + e = t * m + b) : n = m ∧ e = b := by
  have low : e = b := by
    have := congrArg (· % t) same
    simpa [Nat.mul_add_mod, Nat.mod_eq_of_lt he, Nat.mod_eq_of_lt hb] using this
  subst low
  exact ⟨Nat.eq_of_mul_eq_mul_left (by omega) (Nat.add_right_cancel same), rfl⟩

/-- With padding, `ConvertBits` succeeds, and emits the input's bits followed by fewer than
`tobits` zero bits. -/
theorem convertBits_pad {f : ℕ} (positive : 0 < t) {xs : List ℕ} (small : ∀ x ∈ xs, x < 2 ^ f) :
    ∃ e < t, (convertBits f t true xs).2 = true ∧ t * (convertBits f t true xs).1.length = f * xs.length + e ∧
      (∀ d ∈ (convertBits f t true xs).1, d < 2 ^ t) ∧
      value (2 ^ t) 0 (convertBits f t true xs).1 = value (2 ^ f) 0 xs * 2 ^ e := by
  have spelled := convertBitsLoop_spelled positive xs 0 positive small
  simp only [Nat.zero_mod, Nat.zero_add] at spelled
  unfold convertBits
  generalize convertBitsLoop f t 0 0 xs = r at spelled ⊢
  obtain ⟨out, acc, bits⟩ := r
  obtain ⟨held, count, digits, spell⟩ := spelled
  dsimp only at held count digits spell ⊢
  by_cases empty : bits = 0
  · -- nothing is held at the end: no padding
    subst empty
    refine ⟨0, positive, rfl, ?_, digits, ?_⟩
    · simp [count]
    · simp [spell, Nat.mod_one]
  · have padding := shiftLeft_and_maxv (t := t) held.le acc
    simp only [if_true, if_pos empty, padding]
    refine ⟨t - bits, by omega, trivial, ?_, ?_, ?_⟩
    · rw [List.length_append, List.length_singleton, count]
      grind
    · intro d mem
      rcases List.mem_append.mp mem with mem | mem
      · exact digits d mem
      · rw [List.mem_singleton.mp mem]
        calc acc % 2 ^ bits * 2 ^ (t - bits) < 2 ^ bits * 2 ^ (t - bits) :=
              Nat.mul_lt_mul_of_pos_right (Nat.mod_lt _ (Nat.two_pow_pos bits)) (Nat.two_pow_pos _)
          _ = 2 ^ t := by rw [← pow_add, Nat.add_sub_cancel' held.le]
    · rw [value_append, value_cons, value_nil, spell, add_mul, mul_assoc, ← pow_add, Nat.add_sub_cancel' held.le]

/-- Without padding, `ConvertBits` reads back `n` digits of `tobits` bits from values whose bits
are those digits followed by fewer than `frombits` zero bits. -/
theorem convertBits_unpad {f n e w : ℕ} (positive : 0 < t) (he : e < t) (fewer : e < f) {ys : List ℕ}
    (small : ∀ y ∈ ys, y < 2 ^ f) (count : f * ys.length = t * n + e) (spell : value (2 ^ f) 0 ys = w * 2 ^ e) :
    (convertBits f t false ys).2 = true ∧ (convertBits f t false ys).1.length = n ∧
      (∀ d ∈ (convertBits f t false ys).1, d < 2 ^ t) ∧ value (2 ^ t) 0 (convertBits f t false ys).1 = w := by
  have spelled := convertBitsLoop_spelled positive ys 0 positive small
  simp only [Nat.zero_mod, Nat.zero_add] at spelled
  unfold convertBits
  generalize convertBitsLoop f t 0 0 ys = r at spelled ⊢
  obtain ⟨out, acc, bits⟩ := r
  obtain ⟨held, count', digits, spell'⟩ := spelled
  dsimp only at held count' digits spell' ⊢
  -- the digits and the zero bits are where the count puts them
  obtain ⟨rfl, rfl⟩ := mul_add_inj he held (count.symm.trans count')
  have low : acc % 2 ^ e < 2 ^ e := Nat.mod_lt _ (Nat.two_pow_pos e)
  obtain ⟨read, zero⟩ := mul_add_inj (Nat.two_pow_pos e) low
    (show 2 ^ e * w + 0 = 2 ^ e * value (2 ^ t) 0 out + acc % 2 ^ e by
      rw [Nat.add_zero, mul_comm, ← spell, spell', mul_comm])
  -- so the check on the bits left over passes
  rw [if_neg Bool.false_ne_true, shiftLeft_and_maxv held.le, ← zero, Nat.zero_mul, if_neg (by omega)]
  exact ⟨rfl, rfl, digits, read.symm⟩

/-- Regrouped into narrower values with padding and back without, the input comes back and the
check on the padding passes. -/
theorem convertBits_roundTrip {f : ℕ} (positive : 0 < t) (narrower : t ≤ f) {xs : List ℕ}
    (small : ∀ x ∈ xs, x < 2 ^ f) : convertBits t f false (convertBits f t true xs).1 = (xs, true) := by
  obtain ⟨e, he, -, count, digits, spell⟩ := convertBits_pad positive small
  obtain ⟨ok, length, digits', read⟩ :=
    convertBits_unpad (positive.trans_le narrower) (he.trans_le narrower) he digits count spell
  have base : 1 < 2 ^ f := Nat.one_lt_two_pow (by omega)
  exact Prod.ext (value_inj base length digits' small read) ok

end

end Pussycoin.Address
