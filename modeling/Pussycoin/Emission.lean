import Pussycoin.Params
import Mathlib.Tactic.Ring

/-! The smooth emission schedule of `consensus/emission.cpp` and the subsidy that
`GetBlockSubsidy` in `validation.cpp` pays. Amounts are `uint64_t` and stay far below
`2^64` at every `int` height, so they are natural numbers here.

The emission functions read the global chain parameters through `IsRegtestMode`; the
model passes those parameters explicitly. The medium-height branch of
`GetCumulativeEmission` evaluates `threshold * (1 - exp(-4 * ratio))` in IEEE doubles
through the C library. Its value is the parameter `estimate`, and no result below
depends on what that function returns. -/
namespace Pussycoin.Emission

/-- `IsRegtestMode`: regtest is the only network without retargeting. -/
def isRegtestMode (params : ConsensusParams) : Bool := params.fPowNoRetargeting

def getMoneySupply (params : ConsensusParams) : ℕ :=
  if isRegtestMode params then 9226214400 else 922621440000000

def getTailReward (params : ConsensusParams) : ℕ :=
  if isRegtestMode params then 25 else 2500000

def getEmissionSpeedFactor (params : ConsensusParams) : ℕ :=
  if isRegtestMode params then 20 else 20

def tailEmissionThreshold (params : ConsensusParams) : ℕ :=
  getMoneySupply params - (getTailReward params <<< getEmissionSpeedFactor params)

def getSmoothEmissionReward (params : ConsensusParams) (alreadyGenerated : ℕ) : ℕ :=
  if tailEmissionThreshold params ≤ alreadyGenerated then getTailReward params
  else
    let baseReward := (getMoneySupply params - alreadyGenerated) >>> getEmissionSpeedFactor params
    if baseReward < getTailReward params then getTailReward params else baseReward

/-- The exact loop of `GetCumulativeEmission`: `steps` more blocks, each paying the
smooth reward of the running total. -/
def emissionLoop (params : ConsensusParams) : ℕ → ℕ → ℕ
  | 0, total => total
  | steps + 1, total => emissionLoop params steps (total + getSmoothEmissionReward params total)

/-- `approx_tail_start`: the threshold over the first reward, capped at 10,000 blocks
on regtest and 10,000,000 elsewhere. -/
def approxTailStart (params : ConsensusParams) : ℕ :=
  min (tailEmissionThreshold params / (getMoneySupply params >>> getEmissionSpeedFactor params))
    (if isRegtestMode params then 10000 else 10000000)

def getCumulativeEmission (params : ConsensusParams) (estimate : ℕ → ℕ) (nHeight : ℤ) : ℕ :=
  if nHeight ≤ 0 then 0
  else
    let height := nHeight.toNat
    let threshold := tailEmissionThreshold params
    let tailStart := approxTailStart params
    if tailStart * 3 < height then threshold + (height - tailStart) * getTailReward params
    else if height ≤ 1000 then emissionLoop params height 0
    -- `height_ratio >= 1.0` divides two integers below 2^53, so the rounded quotient
    -- reaches 1.0 exactly when the height reaches `approx_tail_start`.
    else if tailStart ≤ height then threshold
    else min (estimate height) threshold

def COIN : ℤ := 100000000

/-- `GetBlockSubsidy`; `params` are the global parameters that `IsRegtestMode` reads,
`consensusParams` the argument. -/
def getBlockSubsidy (params : ConsensusParams) (estimate : ℕ → ℕ) (nHeight : ℤ)
    (consensusParams : ConsensusParams) : ℤ :=
  if consensusParams.nPowTargetSpacing = 10 then
    getSmoothEmissionReward params (getCumulativeEmission params estimate (nHeight - 1))
  else
    let halvings := nHeight.tdiv consensusParams.nSubsidyHalvingInterval
    if 64 ≤ halvings then 0 else (50 * COIN) >>> halvings.toNat

section Regimes

variable (params : ConsensusParams) (estimate : ℕ → ℕ)

theorem emissionLoop_succ (steps total : ℕ) :
    emissionLoop params (steps + 1) total =
      emissionLoop params steps total
        + getSmoothEmissionReward params (emissionLoop params steps total) := by
  induction steps generalizing total with
  | zero => rfl
  | succ steps ih => exact ih (total + getSmoothEmissionReward params total)

theorem getSmoothEmissionReward_of_threshold_le {alreadyGenerated : ℕ}
    (past : tailEmissionThreshold params ≤ alreadyGenerated) :
    getSmoothEmissionReward params alreadyGenerated = getTailReward params := by
  simp only [getSmoothEmissionReward, if_pos past]

theorem approxTailStart_eq :
    approxTailStart params = if isRegtestMode params then 10000 else 1045596 := by
  cases regtest : isRegtestMode params
  · simp only [approxTailStart, getMoneySupply, getTailReward, getEmissionSpeedFactor,
      tailEmissionThreshold, regtest]
    decide
  · simp only [approxTailStart, getMoneySupply, getTailReward, getEmissionSpeedFactor,
      tailEmissionThreshold, regtest]
    decide

/-- The exact loop covers every height up to 1000 on both schedules. -/
theorem thousand_le_tail_start : 1000 ≤ approxTailStart params * 3 := by
  rw [approxTailStart_eq]
  split <;> omega

@[simp] theorem getCumulativeEmission_of_nonpos {nHeight : ℤ} (low : nHeight ≤ 0) :
    getCumulativeEmission params estimate nHeight = 0 := by
  simp only [getCumulativeEmission, if_pos low]

theorem getCumulativeEmission_exact {n : ℕ} (small : n ≤ 1000) :
    getCumulativeEmission params estimate n = emissionLoop params n 0 := by
  have before := thousand_le_tail_start params
  rcases Nat.eq_zero_or_pos n with zero | pos
  · subst zero
    rfl
  · have positive : ¬ (n : ℤ) ≤ 0 := by omega
    have notTail : ¬ approxTailStart params * 3 < n := by omega
    simp only [getCumulativeEmission, if_neg positive, Int.toNat_natCast, if_neg notTail,
      if_pos small]

theorem getCumulativeEmission_tail {n : ℕ} (past : approxTailStart params * 3 < n) :
    getCumulativeEmission params estimate n =
      tailEmissionThreshold params + (n - approxTailStart params) * getTailReward params := by
  have positive : ¬ (n : ℤ) ≤ 0 := by omega
  simp only [getCumulativeEmission, if_neg positive, Int.toNat_natCast, if_pos past]

/-- Between the tail start and three times it, the cumulative emission is flat. -/
theorem getCumulativeEmission_flat {n : ℕ} (large : 1000 < n)
    (reached : approxTailStart params ≤ n) (before : n ≤ approxTailStart params * 3) :
    getCumulativeEmission params estimate n = tailEmissionThreshold params := by
  have positive : ¬ (n : ℤ) ≤ 0 := by omega
  have notTail : ¬ approxTailStart params * 3 < n := by omega
  have notSmall : ¬ n ≤ 1000 := by omega
  simp only [getCumulativeEmission, if_neg positive, Int.toNat_natCast, if_neg notTail,
    if_neg notSmall, if_pos reached]

theorem getBlockSubsidy_smooth (spacing : params.nPowTargetSpacing = 10) (nHeight : ℤ) :
    getBlockSubsidy params estimate nHeight params =
      getSmoothEmissionReward params (getCumulativeEmission params estimate (nHeight - 1)) := by
  simp only [getBlockSubsidy, if_pos spacing]

end Regimes

/-- The running-sum law on the two regimes where it holds: the exact loop and the
linear tail beyond `3 * approx_tail_start + 1`. -/
theorem cumulative_emission_running_sum (params : ConsensusParams) (estimate : ℕ → ℕ)
    (spacing : params.nPowTargetSpacing = 10) :
    getCumulativeEmission params estimate 0 = 0 ∧
    (∀ n : ℤ, 1 ≤ n → n ≤ 1000 →
      (getCumulativeEmission params estimate n : ℤ) =
        getCumulativeEmission params estimate (n - 1) + getBlockSubsidy params estimate n params) ∧
    (∀ n : ℤ, (approxTailStart params * 3 + 2 : ℤ) ≤ n →
      (getCumulativeEmission params estimate n : ℤ) =
        getCumulativeEmission params estimate (n - 1) + getBlockSubsidy params estimate n params) := by
  refine ⟨getCumulativeEmission_of_nonpos params estimate le_rfl, ?_, ?_⟩
  · intro n one small
    obtain ⟨m, rfl⟩ : ∃ m : ℕ, n = (m + 1 : ℕ) := ⟨(n - 1).toNat, by omega⟩
    have previous : ((m + 1 : ℕ) : ℤ) - 1 = (m : ℤ) := by omega
    rw [getBlockSubsidy_smooth params estimate spacing, previous,
      getCumulativeEmission_exact params estimate (by omega),
      getCumulativeEmission_exact params estimate (by omega), emissionLoop_succ]
    push_cast
    ring
  · intro n far
    obtain ⟨m, rfl⟩ : ∃ m : ℕ, n = (m + 1 : ℕ) := ⟨(n - 1).toNat, by omega⟩
    have previous : ((m + 1 : ℕ) : ℤ) - 1 = (m : ℤ) := by omega
    have pastNow : approxTailStart params * 3 < m + 1 := by omega
    have pastBefore : approxTailStart params * 3 < m := by omega
    have startBelow : approxTailStart params ≤ m := by omega
    rw [getBlockSubsidy_smooth params estimate spacing, previous,
      getCumulativeEmission_tail params estimate pastNow,
      getCumulativeEmission_tail params estimate pastBefore,
      getSmoothEmissionReward_of_threshold_le params (Nat.le_add_right _ _)]
    have steps : m + 1 - approxTailStart params = (m - approxTailStart params) + 1 := by omega
    rw [steps]
    push_cast
    ring

theorem cumulative_emission_running_sum_main :
    mainParams.nPowTargetSpacing = 10 ∧
    (getCumulativeEmission mainParams (fun _ => 0) 0 = 0 ∧
    (∀ n : ℤ, 1 ≤ n → n ≤ 1000 →
      (getCumulativeEmission mainParams (fun _ => 0) n : ℤ) =
        getCumulativeEmission mainParams (fun _ => 0) (n - 1)
          + getBlockSubsidy mainParams (fun _ => 0) n mainParams) ∧
    (∀ n : ℤ, (approxTailStart mainParams * 3 + 2 : ℤ) ≤ n →
      (getCumulativeEmission mainParams (fun _ => 0) n : ℤ) =
        getCumulativeEmission mainParams (fun _ => 0) (n - 1)
          + getBlockSubsidy mainParams (fun _ => 0) n mainParams)) :=
  ⟨rfl, cumulative_emission_running_sum mainParams (fun _ => 0) rfl⟩

/-- On main, `approx_tail_start` is 1,045,596: at height 3,136,789 the cumulative jumps
from the threshold by 2,091,193 tail rewards while the block pays one, whatever the
floating-point estimate returns. -/
theorem cumulative_emission_jumps_at_tail_start :
    ¬ ∃ estimate : ℕ → ℕ,
      (getCumulativeEmission mainParams estimate 3136789 : ℤ) =
        getCumulativeEmission mainParams estimate 3136788
          + getBlockSubsidy mainParams estimate 3136789 mainParams := by
  rintro ⟨estimate, law⟩
  have start : approxTailStart mainParams = 1045596 := by
    rw [approxTailStart_eq]
    rfl
  have threshold : tailEmissionThreshold mainParams = 920000000000000 := by decide
  have tail : getTailReward mainParams = 2500000 := rfl
  have jump := getCumulativeEmission_tail mainParams estimate (n := 3136789) (by omega)
  have flat := getCumulativeEmission_flat mainParams estimate (n := 3136788) (by omega)
    (by omega) (by omega)
  have paid : getBlockSubsidy mainParams estimate 3136789 mainParams = 2500000 := by
    rw [getBlockSubsidy_smooth mainParams estimate rfl]
    have previous : (3136789 : ℤ) - 1 = ((3136788 : ℕ) : ℤ) := by norm_num
    rw [previous, flat, getSmoothEmissionReward_of_threshold_le mainParams le_rfl, tail]
    rfl
  rw [paid] at law
  have lhs : getCumulativeEmission mainParams estimate ((3136789 : ℕ) : ℤ) = 925227982500000 := by
    rw [jump, start, threshold, tail]
  have rhs : getCumulativeEmission mainParams estimate ((3136788 : ℕ) : ℤ) = 920000000000000 := by
    rw [flat, threshold]
  push_cast at lhs rhs
  rw [lhs, rhs] at law
  omega

end Pussycoin.Emission
