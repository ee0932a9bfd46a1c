import Pussycoin.BaseUint.Refinement

/-! The proof of work of a block, `GetBlockProof` of `chain.cpp`, over the limbs of
`arith_uint256`: the target that `SetCompact` decodes from `nBits`, and `2^256 / (target + 1)`
computed as `~target / (target + 1) + 1` since `2^256` has no `arith_uint256`. It never divides
by zero, and it is the expected number of hashes to meet the target. -/
namespace Pussycoin.Chain

open BaseUint

/-- `arith_uint256::SetCompact` on the limbs: the target, `*pfNegative` and `*pfOverflow`. -/
def setCompactLimbs (nCompact : UInt32) : BaseUint 8 × Bool × Bool :=
  let nSize := (nCompact >>> 24).toNat
  let nWord := nCompact &&& 0x007fffff
  -- a short size shifts the word itself, before the flags read it
  let nWord := if nSize ≤ 3 then nWord >>> (8 * (3 - nSize)).toUInt32 else nWord
  let target : BaseUint 8 :=
    if nSize ≤ 3 then ofUInt64 (by norm_num) nWord.toUInt64
    else ofUInt64 (by norm_num) nWord.toUInt64 <<< (8 * (nSize - 3)).toUInt32
  let negative := nWord != 0 && nCompact &&& 0x00800000 != 0
  let overflow := nWord != 0 && (34 < nSize || (0xff < nWord && 33 < nSize) || (0xffff < nWord && 32 < nSize))
  (target, negative, overflow)

theorem bne_toNat (x y : UInt32) : (x != y) = (x.toNat != y.toNat) := by
  rw [Bool.eq_iff_iff, bne_iff_ne, bne_iff_ne, ne_eq, ne_eq, UInt32.toNat_inj]

theorem decide_lt_toNat (x y : UInt32) : decide (x < y) = decide (x.toNat < y.toNat) :=
  decide_eq_decide.2 UInt32.lt_iff_toNat_lt

/-- The limbs of `SetCompact` compute the natural-number model of `ArithUint256.setCompact`. -/
theorem setCompactLimbs_eq (nCompact : UInt32) :
    (setCompactLimbs nCompact).1.value = (ArithUint256.setCompact nCompact.toNat).1 ∧
      (setCompactLimbs nCompact).2 = (ArithUint256.setCompact nCompact.toNat).2 := by
  have size : (nCompact >>> 24).toNat = nCompact.toNat >>> 24 := by
    rw [UInt32.toNat_shiftRight]
    rfl
  have word : (nCompact &&& 0x007fffff).toNat = nCompact.toNat &&& 0x007fffff := UInt32.toNat_and _ _
  have sign : (nCompact &&& 0x00800000).toNat = nCompact.toNat &&& 0x00800000 := UInt32.toNat_and _ _
  have top : nCompact.toNat >>> 24 < 256 := by
    rw [Nat.shiftRight_eq_div_pow]
    have := nCompact.toNat_lt
    omega
  -- the word after the short-size shift, read as a number
  have shortWord : ∀ d, d ≤ 3 → ((nCompact &&& 0x007fffff) >>> (8 * d).toUInt32).toNat =
      (nCompact.toNat &&& 0x007fffff) >>> (8 * d) := by
    intro d small
    rw [UInt32.toNat_shiftRight, word, UInt32.toNat_ofNat', Nat.mod_eq_of_lt (by omega), Nat.mod_eq_of_lt (by omega)]
  simp only [setCompactLimbs, ArithUint256.setCompact, size]
  split_ifs with short
  · have shifted := shortWord (3 - (nCompact.toNat >>> 24)) (by omega)
    refine ⟨by rw [value_ofUInt64, UInt32.toNat_toUInt64, shifted], ?_⟩
    simp only [bne_toNat, decide_lt_toNat, shifted, sign, UInt32.toNat_zero, UInt32.reduceToNat]
  · refine ⟨?_, ?_⟩
    · rw [value_shiftLeft, value_ofUInt64, UInt32.toNat_toUInt64, word, UInt32.toNat_ofNat',
        Nat.mod_eq_of_lt (show 8 * (nCompact.toNat >>> 24 - 3) < 2 ^ 32 by omega), ArithUint256.shiftLeft,
        Nat.shiftLeft_eq]
    · simp only [bne_toNat, decide_lt_toNat, word, sign, UInt32.toNat_zero, UInt32.reduceToNat]

/-- No compact word decodes to `2^256 - 1`: a short size leaves at most 23 bits, and a long one
shifts by whole bytes, leaving the lowest bit clear. So `bnTarget + 1` never wraps to zero. -/
theorem setCompact_ne_max (nCompact : ℕ) : (ArithUint256.setCompact nCompact).1 ≠ 2 ^ 256 - 1 := by
  have word : nCompact &&& 0x007fffff < 2 ^ 23 := lt_of_le_of_lt Nat.and_le_right (by norm_num)
  simp only [ArithUint256.setCompact]
  split_ifs with short
  · have : (nCompact &&& 0x007fffff) >>> (8 * (3 - nCompact >>> 24)) ≤ nCompact &&& 0x007fffff := by
      rw [Nat.shiftRight_eq_div_pow]
      exact Nat.div_le_self _ _
    omega
  · -- an even number: the shift is by at least a byte
    intro full
    have even : ArithUint256.shiftLeft (nCompact &&& 0x007fffff) (8 * (nCompact >>> 24 - 3)) % 2 = 0 := by
      rw [ArithUint256.shiftLeft, Nat.shiftLeft_eq, Nat.mod_mod_of_dvd _ (dvd_pow_self 2 (by norm_num))]
      exact Nat.mod_eq_zero_of_dvd (Dvd.dvd.mul_left (dvd_pow_self 2 (by omega)) _)
    rw [full] at even
    omega

/-- `GetBlockProof`, `none` where its division would throw: `0` for a negative, overflowing or
zero target, and otherwise `(~bnTarget / (bnTarget + 1)) + 1`. -/
def getBlockProof (nBits : UInt32) : Option (BaseUint 8) :=
  let compact := setCompactLimbs nBits
  let bnTarget := compact.1
  if compact.2.1 || compact.2.2 || bnTarget.equalTo 0 then some (ofUInt64 (by norm_num) 0)
  else ((~~~bnTarget).divide (bnTarget + ofUInt64 (by norm_num) 1)).map (· + ofUInt64 (by norm_num) 1)

/-- `~t / (t + 1) + 1` is `2^256 / (t + 1)` below `2^256`. -/
theorem complement_div_succ {t : ℕ} (small : t < 2 ^ 256 - 1) :
    (2 ^ 256 - 1 - t) / (t + 1) + 1 = 2 ^ 256 / (t + 1) := by
  rw [← Nat.add_div_right _ (Nat.succ_pos t), show 2 ^ 256 - 1 - t + (t + 1) = 2 ^ 256 by omega]

/-- `GetBlockProof` never throws: it is `0` where `SetCompact` flags the target or decodes zero,
and otherwise `2^256 / (target + 1)`, the expected number of hashes to meet the target. -/
theorem get_block_proof_work (nBits : UInt32) :
    ∃ proof, getBlockProof nBits = some proof ∧
      proof.value =
        if (ArithUint256.setCompact nBits.toNat).2.1 = true ∨ (ArithUint256.setCompact nBits.toNat).2.2 = true ∨
            (ArithUint256.setCompact nBits.toNat).1 = 0 then 0
        else 2 ^ 256 / ((ArithUint256.setCompact nBits.toNat).1 + 1) := by
  have notMax := setCompact_ne_max nBits.toNat
  obtain ⟨targetIs, flagsIs⟩ := setCompactLimbs_eq nBits
  unfold getBlockProof
  generalize setCompactLimbs nBits = compact at targetIs flagsIs ⊢
  generalize ArithUint256.setCompact nBits.toNat = model at targetIs flagsIs notMax ⊢
  obtain ⟨target, negative, overflow⟩ := compact
  obtain ⟨t, neg, ovf⟩ := model
  obtain ⟨rfl, rfl⟩ := Prod.mk.inj flagsIs
  dsimp only at targetIs notMax ⊢
  have isZero : target.equalTo 0 = decide (t = 0) := by
    rw [equalTo_eq (by norm_num), targetIs]
    rfl
  rw [isZero]
  by_cases flagged : negative = true ∨ overflow = true ∨ t = 0
  · refine ⟨_, if_pos ?_, by rw [value_ofUInt64, if_pos flagged]; rfl⟩
    simpa [Bool.or_eq_true, or_assoc] using flagged
  · rw [if_neg (by simpa [Bool.or_eq_true, or_assoc, and_assoc] using flagged), if_neg flagged]
    have positive : 0 < t := by omega
    have small : t < 2 ^ 256 - 1 := lt_of_le_of_ne (Nat.le_sub_one_of_lt (targetIs ▸ target.value_lt)) notMax
    have successor : (target + ofUInt64 (by norm_num) 1).value = t + 1 := by
      rw [value_add, value_ofUInt64, targetIs, show UInt64.toNat 1 = 1 from rfl,
        Nat.mod_eq_of_lt (show t + 1 < 2 ^ (32 * 8) by norm_num; omega)]
    have spec := divide_eq (by norm_num) (~~~target) (target + ofUInt64 (by norm_num) 1)
    rw [successor, if_neg (Nat.succ_ne_zero t), value_complement, targetIs, show 32 * 8 = 256 from rfl] at spec
    rcases quotient : (~~~target).divide (target + ofUInt64 (by norm_num) 1) with _ | q
    · rw [quotient] at spec
      cases spec
    · rw [quotient, Option.map_some, Option.some_inj] at spec
      have bounded : q.value + 1 < 2 ^ 256 := by
        have : (2 ^ 256 - 1 - t) / (t + 1) ≤ (2 ^ 256 - 1 - t) / 2 := Nat.div_le_div_left (by omega) (by norm_num)
        omega
      refine ⟨q + ofUInt64 (by norm_num) 1, rfl, ?_⟩
      rw [value_add, value_ofUInt64, Nat.mod_eq_of_lt (by simpa using bounded)]
      rw [show (UInt64.toNat 1) = 1 from rfl, spec, complement_div_succ small]

end Pussycoin.Chain
