import Pussycoin.Emission
import Mathlib.Analysis.SpecialFunctions.Exp

/-! The subsidy schedule is monotone and bounded. The medium-height branch of
`GetCumulativeEmission` evaluates a floating-point expression, and what the schedule needs
of it is `EstimateContract`: it does not decrease with the height, and at height 1001 it
is at least the exact emission of the first 1000 blocks. `expEstimate` is the real number
that expression rounds, and it meets the contract on both schedules. -/
namespace Pussycoin.Emission

variable (params : ConsensusParams) (estimate : ℕ → ℕ)

/-! ### The reward -/

theorem getEmissionSpeedFactor_eq : getEmissionSpeedFactor params = 20 := by
  unfold getEmissionSpeedFactor
  split <;> rfl

theorem getTailReward_le_first : getTailReward params ≤ getMoneySupply params >>> 20 := by
  unfold getTailReward getMoneySupply
  split <;> decide

theorem getTailReward_le_getSmoothEmissionReward (alreadyGenerated : ℕ) :
    getTailReward params ≤ getSmoothEmissionReward params alreadyGenerated := by
  unfold getSmoothEmissionReward
  split
  · exact le_rfl
  · dsimp only
    split <;> omega

theorem getSmoothEmissionReward_le_first (alreadyGenerated : ℕ) :
    getSmoothEmissionReward params alreadyGenerated ≤ getMoneySupply params >>> 20 := by
  have tail := getTailReward_le_first params
  have base : (getMoneySupply params - alreadyGenerated) >>> 20 ≤ getMoneySupply params >>> 20 := by
    simp only [Nat.shiftRight_eq_div_pow]
    exact Nat.div_le_div_right (Nat.sub_le _ _)
  unfold getSmoothEmissionReward
  split
  · exact tail
  · dsimp only
    rw [getEmissionSpeedFactor_eq]
    split <;> omega

/-- More coins generated never raise the reward. -/
theorem getSmoothEmissionReward_antitone {a b : ℕ} (le : a ≤ b) :
    getSmoothEmissionReward params b ≤ getSmoothEmissionReward params a := by
  by_cases past : tailEmissionThreshold params ≤ b
  · rw [getSmoothEmissionReward_of_threshold_le params past]
    exact getTailReward_le_getSmoothEmissionReward params a
  · have before : ¬ tailEmissionThreshold params ≤ a := by omega
    have base : (getMoneySupply params - b) >>> getEmissionSpeedFactor params ≤
        (getMoneySupply params - a) >>> getEmissionSpeedFactor params := by
      simp only [Nat.shiftRight_eq_div_pow]
      exact Nat.div_le_div_right (by omega)
    simp only [getSmoothEmissionReward, if_neg past, if_neg before]
    split <;> split <;> omega

/-! ### The cumulative emission -/

theorem emissionLoop_le (n : ℕ) : emissionLoop params n 0 ≤ n * (getMoneySupply params >>> 20) := by
  induction n with
  | zero => simp [emissionLoop]
  | succ n ih =>
    have paid := getSmoothEmissionReward_le_first params (emissionLoop params n 0)
    rw [emissionLoop_succ, Nat.succ_mul]
    omega

theorem thousand_lt_approxTailStart : 1001 < approxTailStart params := by
  rw [approxTailStart_eq]
  split <;> omega

theorem thousand_first_le_threshold :
    1000 * (getMoneySupply params >>> 20) ≤ tailEmissionThreshold params := by
  unfold tailEmissionThreshold getMoneySupply getTailReward getEmissionSpeedFactor
  split <;> decide

/-- What the schedule asks of the floating-point estimate on the heights where the source
evaluates it. -/
structure EstimateContract : Prop where
  monotone : ∀ m n, 1000 < m → m ≤ n → n < approxTailStart params → estimate m ≤ estimate n
  start : emissionLoop params 1000 0 ≤ estimate 1001

theorem getCumulativeEmission_estimate {n : ℕ} (large : 1000 < n) (below : n < approxTailStart params) :
    getCumulativeEmission params estimate n = min (estimate n) (tailEmissionThreshold params) := by
  have positive : ¬ (n : ℤ) ≤ 0 := by omega
  have notTail : ¬ approxTailStart params * 3 < n := by omega
  have notSmall : ¬ n ≤ 1000 := by omega
  have notReached : ¬ approxTailStart params ≤ n := by omega
  simp only [getCumulativeEmission, if_neg positive, Int.toNat_natCast, if_neg notTail,
    if_neg notSmall, if_neg notReached]

section Contract

variable {params estimate}

/-- One block never lowers the cumulative emission; the cases are the regimes of
`GetCumulativeEmission` at `n` and `n + 1`. -/
theorem getCumulativeEmission_le_succ (contract : EstimateContract params estimate) (n : ℕ) :
    getCumulativeEmission params estimate n ≤ getCumulativeEmission params estimate (n + 1 : ℕ) := by
  have start := thousand_lt_approxTailStart params
  rcases Nat.lt_or_ge n 1000 with exact | large
  · -- both heights run the exact loop
    rw [getCumulativeEmission_exact params estimate exact.le,
      getCumulativeEmission_exact params estimate exact, emissionLoop_succ]
    exact Nat.le_add_right _ _
  rcases Nat.eq_or_lt_of_le large with rfl | large
  · -- the loop hands over to the estimate
    rw [getCumulativeEmission_exact params estimate le_rfl,
      getCumulativeEmission_estimate params estimate (by omega) start]
    exact le_min contract.start
      ((emissionLoop_le params 1000).trans (thousand_first_le_threshold params))
  rcases Nat.lt_or_ge (n + 1) (approxTailStart params) with below | reached
  · rw [getCumulativeEmission_estimate params estimate large (by omega),
      getCumulativeEmission_estimate params estimate (by omega) below]
    exact min_le_min_right _ (contract.monotone n (n + 1) large (Nat.le_succ n) below)
  rcases Nat.lt_or_ge (approxTailStart params * 3) (n + 1) with past | flat
  · rcases Nat.lt_or_ge (approxTailStart params * 3) n with tail | last
    · -- both heights are in the linear tail
      rw [getCumulativeEmission_tail params estimate tail, getCumulativeEmission_tail params estimate past]
      exact Nat.add_le_add_left (Nat.mul_le_mul_right _ (by omega)) _
    · -- the jump from the flat stretch into the tail
      rw [getCumulativeEmission_flat params estimate large (by omega) last,
        getCumulativeEmission_tail params estimate past]
      exact Nat.le_add_right _ _
  · rw [getCumulativeEmission_flat params estimate (by omega) reached flat]
    rcases Nat.lt_or_ge n (approxTailStart params) with below | reachedBefore
    · rw [getCumulativeEmission_estimate params estimate large below]
      exact min_le_right _ _
    · rw [getCumulativeEmission_flat params estimate large reachedBefore (by omega)]

theorem getCumulativeEmission_monotone (contract : EstimateContract params estimate) {a b : ℤ}
    (le : a ≤ b) : getCumulativeEmission params estimate a ≤ getCumulativeEmission params estimate b := by
  by_cases low : a ≤ 0
  · rw [getCumulativeEmission_of_nonpos params estimate low]
    exact Nat.zero_le _
  · obtain ⟨m, rfl⟩ : ∃ m : ℕ, a = m := ⟨a.toNat, by omega⟩
    obtain ⟨n, rfl⟩ : ∃ n : ℕ, b = n := ⟨b.toNat, by omega⟩
    have steps : Monotone fun k : ℕ => getCumulativeEmission params estimate k :=
      monotone_nat_of_le_succ (getCumulativeEmission_le_succ contract)
    exact steps (by omega)

end Contract

/-- The subsidy stays between the tail reward and the first reward and never rises. -/
theorem block_subsidy_monotone_bounded (spacing : params.nPowTargetSpacing = 10)
    (contract : EstimateContract params estimate) (h : ℤ) :
    (getTailReward params : ℤ) ≤ getBlockSubsidy params estimate (h + 1) params ∧
      getBlockSubsidy params estimate (h + 1) params ≤ getBlockSubsidy params estimate h params ∧
      getBlockSubsidy params estimate h params ≤ (getMoneySupply params >>> 20 : ℕ) := by
  have previous : h + 1 - 1 = h := by omega
  have grown := getCumulativeEmission_monotone contract (show h - 1 ≤ h by omega)
  rw [getBlockSubsidy_smooth params estimate spacing, getBlockSubsidy_smooth params estimate spacing,
    previous]
  refine ⟨?_, ?_, ?_⟩
  · exact_mod_cast getTailReward_le_getSmoothEmissionReward params _
  · exact_mod_cast getSmoothEmissionReward_antitone params grown
  · exact_mod_cast getSmoothEmissionReward_le_first params _

/-! ### The real value of the estimate -/

/-- `static_cast<uint64_t>(threshold * (1 - exp(-4.0 * height_ratio)))` evaluated in real
numbers instead of doubles. -/
noncomputable def expEstimate (height : ℕ) : ℕ :=
  ⌊(tailEmissionThreshold params : ℝ) *
      (1 - Real.exp (-4 * ((height : ℝ) / approxTailStart params)))⌋₊

theorem expEstimate_budget :
    1000 * (getMoneySupply params >>> 20) * (approxTailStart params + 4004) ≤
      4004 * tailEmissionThreshold params := by
  rw [approxTailStart_eq]
  unfold tailEmissionThreshold getMoneySupply getTailReward getEmissionSpeedFactor
  split <;> decide

/-- `1 - exp (-x) ≥ x / (1 + x)`, in the form the start of the estimate uses. -/
theorem le_mul_one_sub_exp_neg {threshold bound x : ℝ} (nonneg : 0 ≤ threshold) (positive : 0 < x)
    (scaled : bound * (1 + x) ≤ threshold * x) : bound ≤ threshold * (1 - Real.exp (-x)) := by
  have expBound : Real.exp (-x) * (1 + x) ≤ 1 := by
    calc Real.exp (-x) * (1 + x) ≤ Real.exp (-x) * Real.exp x :=
          mul_le_mul_of_nonneg_left (by linarith [Real.add_one_le_exp x]) (Real.exp_pos _).le
      _ = 1 := by rw [← Real.exp_add, neg_add_cancel, Real.exp_zero]
  have estimated : (1 + x) * bound ≤ (1 + x) * (threshold * (1 - Real.exp (-x))) := by
    nlinarith [mul_le_mul_of_nonneg_left expBound nonneg]
  exact le_of_mul_le_mul_left estimated (by linarith)

/-- The bound at height 1001, over the reals. -/
theorem le_threshold_mul_progress {loop threshold tailStart : ℝ} (first : ℝ) (positive : 0 < tailStart)
    (nonneg : 0 ≤ threshold) (loopLe : loop ≤ 1000 * first)
    (budget : 1000 * first * (tailStart + 4004) ≤ 4004 * threshold) :
    loop ≤ threshold * (1 - Real.exp (-4 * (1001 / tailStart))) := by
  have ratio : 4 * (1001 / tailStart) * tailStart = 4004 := by
    field_simp
    norm_num
  have scaled : 1000 * first * (1 + 4 * (1001 / tailStart)) ≤ threshold * (4 * (1001 / tailStart)) := by
    refine le_of_mul_le_mul_right ?_ positive
    calc 1000 * first * (1 + 4 * (1001 / tailStart)) * tailStart
        = 1000 * first * (tailStart + 4 * (1001 / tailStart) * tailStart) := by ring
      _ ≤ 4004 * threshold := by rw [ratio]; exact budget
      _ = threshold * (4 * (1001 / tailStart)) * tailStart := by rw [mul_assoc, ratio, mul_comm]
  rw [neg_mul]
  exact loopLe.trans (le_mul_one_sub_exp_neg nonneg (by positivity) scaled)

/-- At height 1001 the estimate is already above the exact emission: the first 1000
rewards sum to at most 1000 first rewards. -/
theorem expEstimate_start : emissionLoop params 1000 0 ≤ expEstimate params 1001 := by
  have positive : 0 < approxTailStart params := by
    have := thousand_lt_approxTailStart params
    omega
  unfold expEstimate
  apply Nat.le_floor
  push_cast
  apply le_threshold_mul_progress ((getMoneySupply params >>> 20 : ℕ) : ℝ)
  · exact_mod_cast positive
  · exact Nat.cast_nonneg _
  · exact_mod_cast emissionLoop_le params 1000
  · exact_mod_cast expEstimate_budget params

theorem expEstimate_monotone {m n : ℕ} (le : m ≤ n) : expEstimate params m ≤ expEstimate params n := by
  apply Nat.floor_le_floor
  apply mul_le_mul_of_nonneg_left _ (Nat.cast_nonneg _)
  have ratio : (m : ℝ) / approxTailStart params ≤ n / approxTailStart params :=
    div_le_div_of_nonneg_right (by exact_mod_cast le) (Nat.cast_nonneg _)
  have decays := Real.exp_le_exp.mpr
    (show -4 * ((n : ℝ) / approxTailStart params) ≤ -4 * ((m : ℝ) / approxTailStart params) by linarith)
  linarith

theorem expEstimate_contract : EstimateContract params (expEstimate params) :=
  ⟨fun _ _ _ le _ => expEstimate_monotone params le, expEstimate_start params⟩

theorem block_subsidy_monotone_bounded_main :
    mainParams.nPowTargetSpacing = 10 ∧ EstimateContract mainParams (expEstimate mainParams) ∧
      ((getTailReward mainParams : ℤ) ≤ getBlockSubsidy mainParams (expEstimate mainParams) 2 mainParams ∧
        getBlockSubsidy mainParams (expEstimate mainParams) 2 mainParams ≤
          getBlockSubsidy mainParams (expEstimate mainParams) 1 mainParams ∧
        getBlockSubsidy mainParams (expEstimate mainParams) 1 mainParams ≤
          (getMoneySupply mainParams >>> 20 : ℕ)) :=
  ⟨rfl, expEstimate_contract mainParams,
    block_subsidy_monotone_bounded mainParams (expEstimate mainParams) rfl (expEstimate_contract mainParams) 1⟩

end Pussycoin.Emission
