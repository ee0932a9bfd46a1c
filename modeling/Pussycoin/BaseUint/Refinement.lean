import Pussycoin.BaseUint.Divide

/-! `base_uint<BITS>` refines the `BITS`-bit unsigned integers of `BitVec`: read through the
value its limbs stand for, each operator computes the `BitVec` operation, so arithmetic wraps
modulo `2^BITS`, shifts drop what passes either end, and division is the floor quotient with a
throw where `BitVec` gives zero. For `arith_uint256`, `WIDTH = 8`, the limbs compute the
natural-number model `ArithUint256` that the compact encoding is proved over. -/
namespace Pussycoin.BaseUint

variable {WIDTH : ℕ}

/-- The `BITS`-bit unsigned integer the limbs stand for. -/
def toBitVec (a : BaseUint WIDTH) : BitVec (32 * WIDTH) := BitVec.ofNat _ a.value

@[simp] theorem toNat_toBitVec (a : BaseUint WIDTH) : a.toBitVec.toNat = a.value := by
  rw [toBitVec, BitVec.toNat_ofNat, Nat.mod_eq_of_lt a.value_lt]

theorem toBitVec_inj {a b : BaseUint WIDTH} : a.toBitVec = b.toBitVec ↔ a = b :=
  ⟨fun same => ext_value (by rw [← toNat_toBitVec, same, toNat_toBitVec]), fun same => same ▸ rfl⟩

theorem toNat_one_bitVec : (1 : BitVec (32 * WIDTH)).toNat = 1 % 2 ^ (32 * WIDTH) := BitVec.toNat_ofNat 1 _

section Ring

variable (a b : BaseUint WIDTH)

theorem toBitVec_add : (a + b).toBitVec = a.toBitVec + b.toBitVec := by
  apply BitVec.eq_of_toNat_eq
  rw [toNat_toBitVec, value_add, BitVec.toNat_add, toNat_toBitVec, toNat_toBitVec]

theorem toBitVec_sub : (a - b).toBitVec = a.toBitVec - b.toBitVec := by
  apply BitVec.eq_of_toNat_eq
  rw [toNat_toBitVec, value_sub, BitVec.toNat_sub, toNat_toBitVec, toNat_toBitVec, add_comm]

theorem toBitVec_neg : (-a).toBitVec = -a.toBitVec := by
  apply BitVec.eq_of_toNat_eq
  rw [toNat_toBitVec, value_neg, BitVec.toNat_neg, toNat_toBitVec]

theorem toBitVec_complement : (~~~a).toBitVec = ~~~a.toBitVec := by
  apply BitVec.eq_of_toNat_eq
  rw [toNat_toBitVec, value_complement, BitVec.toNat_not, toNat_toBitVec]

theorem toBitVec_increment : a.increment.toBitVec = a.toBitVec + 1 := by
  apply BitVec.eq_of_toNat_eq
  rw [toNat_toBitVec, value_increment, BitVec.toNat_add, toNat_toBitVec, toNat_one_bitVec, Nat.add_mod_mod]

theorem toBitVec_decrement : a.decrement.toBitVec = a.toBitVec - 1 := by
  apply BitVec.eq_of_toNat_eq
  rw [toNat_toBitVec, value_decrement, BitVec.toNat_sub, toNat_toBitVec, toNat_one_bitVec]
  rcases Nat.eq_zero_or_pos (32 * WIDTH) with empty | positive
  · simp [empty]
  · rw [Nat.one_mod_two_pow positive, add_comm]

theorem toBitVec_mulWord (b32 : UInt32) : (a.mulWord b32).toBitVec = a.toBitVec * BitVec.ofNat _ b32.toNat := by
  apply BitVec.eq_of_toNat_eq
  rw [toNat_toBitVec, value_mulWord, BitVec.toNat_mul, toNat_toBitVec, BitVec.toNat_ofNat, Nat.mul_mod_mod]

theorem toBitVec_mul : (a * b).toBitVec = a.toBitVec * b.toBitVec := by
  apply BitVec.eq_of_toNat_eq
  rw [toNat_toBitVec, value_mul, BitVec.toNat_mul, toNat_toBitVec, toNat_toBitVec]

theorem toBitVec_shiftLeft (shift : UInt32) : (a <<< shift).toBitVec = a.toBitVec <<< shift.toNat := by
  apply BitVec.eq_of_toNat_eq
  rw [toNat_toBitVec, value_shiftLeft, BitVec.toNat_shiftLeft, toNat_toBitVec, Nat.shiftLeft_eq]

theorem toBitVec_shiftRight (shift : UInt32) : (a >>> shift).toBitVec = a.toBitVec >>> shift.toNat := by
  apply BitVec.eq_of_toNat_eq
  rw [toNat_toBitVec, value_shiftRight, BitVec.toNat_ushiftRight, toNat_toBitVec, Nat.shiftRight_eq_div_pow]

end Ring

theorem toBitVec_eq_zero {b : BaseUint WIDTH} : b.toBitVec = 0 ↔ b.value = 0 := by
  rw [← BitVec.toNat_inj, toNat_toBitVec]
  simp

theorem toBitVec_lt {a b : BaseUint WIDTH} : a.toBitVec < b.toBitVec ↔ a.value < b.value := by
  rw [BitVec.lt_def, toNat_toBitVec, toNat_toBitVec]

/-- Every operator of `base_uint` whose loop carries between limbs (`operator+=`, `operator-=`,
`operator-()`, `operator~`, `operator++`, `operator--`, `operator*=(uint32_t)` and
`operator*=(const base_uint&)`) computes the `BITS`-bit `BitVec` operation. -/
theorem carry_loops_refine_bitvec (a b : BaseUint WIDTH) (b32 : UInt32) :
    (a + b).toBitVec = a.toBitVec + b.toBitVec ∧ (a - b).toBitVec = a.toBitVec - b.toBitVec ∧
      (-a).toBitVec = -a.toBitVec ∧ (~~~a).toBitVec = ~~~a.toBitVec ∧
      a.increment.toBitVec = a.toBitVec + 1 ∧ a.decrement.toBitVec = a.toBitVec - 1 ∧
      (a.mulWord b32).toBitVec = a.toBitVec * BitVec.ofNat _ b32.toNat ∧ (a * b).toBitVec = a.toBitVec * b.toBitVec :=
  ⟨toBitVec_add a b, toBitVec_sub a b, toBitVec_neg a, toBitVec_complement a, toBitVec_increment a,
    toBitVec_decrement a, toBitVec_mulWord a b32, toBitVec_mul a b⟩

/-- `operator<<=` and `operator>>=` are the `BitVec` shifts, for every shift amount. -/
theorem shifts_refine_bitvec (a : BaseUint WIDTH) (shift : UInt32) :
    (a <<< shift).toBitVec = a.toBitVec <<< shift.toNat ∧ (a >>> shift).toBitVec = a.toBitVec >>> shift.toNat :=
  ⟨toBitVec_shiftLeft a shift, toBitVec_shiftRight a shift⟩

/-- `operator/=` throws exactly on a zero divisor and otherwise is the `BitVec` unsigned
division. -/
theorem long_division_refines_udiv (fits : 32 * WIDTH < 2 ^ 32) (a b : BaseUint WIDTH) :
    (a.divide b).map toBitVec = if b.toBitVec = 0 then none else some (a.toBitVec / b.toBitVec) := by
  have spec := divide_eq fits a b
  simp only [toBitVec_eq_zero]
  rcases quotient : a.divide b with _ | q
  · rw [quotient, Option.map_none] at spec
    rw [Option.map_none, if_pos (by by_contra nonzero; rw [if_neg nonzero] at spec; cases spec)]
  · rw [quotient, Option.map_some] at spec
    by_cases vanishes : b.value = 0
    · rw [if_pos vanishes] at spec
      cases spec
    · rw [if_neg vanishes, Option.some_inj] at spec
      rw [Option.map_some, if_neg vanishes, Option.some_inj]
      apply BitVec.eq_of_toNat_eq
      rw [toNat_toBitVec, BitVec.toNat_udiv, toNat_toBitVec, toNat_toBitVec, spec]

theorem long_division_refines_udiv_seven :
    ((ofUInt64 (by norm_num) 100 : BaseUint 8).divide (ofUInt64 (by norm_num) 7)).map toBitVec =
      some (100 / 7) :=
  (long_division_refines_udiv (by norm_num) _ _).trans (by
    rw [if_neg (by rw [toBitVec_eq_zero, value_ofUInt64]; decide), Option.some_inj]
    apply BitVec.eq_of_toNat_eq
    rw [BitVec.toNat_udiv, toNat_toBitVec, toNat_toBitVec, value_ofUInt64, value_ofUInt64]
    rfl)

/-- `CompareTo` orders as the `BitVec` values do, `bits()` is their bit length, and for
`BITS ≥ 64` `EqualTo` and `GetLow64` read them against a `uint64_t`. -/
theorem compare_bits_refine (wide : 2 ≤ WIDTH) (a b : BaseUint WIDTH) (x : UInt64) :
    a.compareTo b = (if a.toBitVec < b.toBitVec then -1 else if b.toBitVec < a.toBitVec then 1 else 0) ∧
      a.bits = a.toBitVec.toNat.size ∧ a.equalTo x = decide (a.toBitVec = BitVec.ofNat _ x.toNat) ∧
      a.getLow64.toBitVec = a.toBitVec.setWidth 64 := by
  refine ⟨by simp only [compareTo_eq, toBitVec_lt], by rw [bits_eq_size, toNat_toBitVec], ?_, ?_⟩
  · have small : x.toNat < 2 ^ (32 * WIDTH) :=
      x.toNat_lt.trans_le (Nat.pow_le_pow_right (by norm_num) (by omega))
    rw [equalTo_eq wide]
    exact decide_eq_decide.2 (by rw [← BitVec.toNat_inj, toNat_toBitVec, BitVec.toNat_ofNat, Nat.mod_eq_of_lt small])
  · apply BitVec.eq_of_toNat_eq
    rw [UInt64.toNat_toBitVec, getLow64_toNat wide, BitVec.toNat_setWidth, toNat_toBitVec]

theorem compare_bits_refine_two :
    (ofUInt64 le_rfl 5 : BaseUint 2).compareTo (ofUInt64 le_rfl 7) =
        (if (ofUInt64 le_rfl 5 : BaseUint 2).toBitVec < (ofUInt64 le_rfl 7 : BaseUint 2).toBitVec then -1
          else if (ofUInt64 le_rfl 7 : BaseUint 2).toBitVec < (ofUInt64 le_rfl 5 : BaseUint 2).toBitVec then 1 else 0) ∧
      (ofUInt64 le_rfl 5 : BaseUint 2).bits = (ofUInt64 le_rfl 5 : BaseUint 2).toBitVec.toNat.size ∧
      (ofUInt64 le_rfl 5 : BaseUint 2).equalTo 5 =
        decide ((ofUInt64 le_rfl 5 : BaseUint 2).toBitVec = BitVec.ofNat _ (5 : UInt64).toNat) ∧
      (ofUInt64 le_rfl 5 : BaseUint 2).getLow64.toBitVec = (ofUInt64 le_rfl 5 : BaseUint 2).toBitVec.setWidth 64 :=
  compare_bits_refine le_rfl (ofUInt64 le_rfl 5) (ofUInt64 le_rfl 7) 5

/-- `arith_uint256` is `base_uint<256>`: its limbs compute the natural-number model of
`ArithUint256`. -/
theorem arith_uint256_limbs (a b : BaseUint 8) (b32 shift : UInt32) :
    (a <<< shift).value = ArithUint256.shiftLeft a.value shift.toNat ∧
      (a.mulWord b32).value = ArithUint256.mulU32 a.value b32.toNat ∧
      (a.divide b).map value = ArithUint256.divide a.value b.value ∧
      a.bits = ArithUint256.bits a.value ∧ a.getLow64.toNat = ArithUint256.getLow64 a.value := by
  refine ⟨?_, ?_, divide_eq (by norm_num) a b, ?_, getLow64_toNat (by norm_num) a⟩
  · rw [value_shiftLeft, ArithUint256.shiftLeft, Nat.shiftLeft_eq]
  · rw [value_mulWord, ArithUint256.mulU32, Nat.mod_eq_of_lt b32.toNat_lt]
  · rw [bits_eq_size, ArithUint256.bits_eq_size a.value_lt]

end Pussycoin.BaseUint
