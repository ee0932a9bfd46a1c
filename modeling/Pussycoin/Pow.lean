import Pussycoin.Params
import Pussycoin.ArithUint256

/-! The difficulty adjustment of `pow.cpp`. A chain is `pindexLast` followed by its
ancestors through `pprev`, newest first and ending at the genesis block, so the height
of `pindexLast` is the number of its ancestors. Only `nTime` and `nBits` of a
`CBlockIndex` are read. `int64_t` arithmetic is integer arithmetic: with the windows of
the three networks no intermediate comes near `2^63`. `none` stands for the
`uint_error` of a division by zero and for a null `pprev`. -/
namespace Pussycoin.Pow

open ArithUint256

/-- The fields of a `CBlockIndex` (or `CBlockHeader`) that proof of work reads. -/
structure BlockHeader where
  nTime : ℕ
  nBits : ℕ
  deriving Repr, DecidableEq

/-- The loop of `GetNextWorkRequiredLWMA3`: `iterations` passes left, the cursors
`blockPreviousTimestamp` and `blockCurrentTimestamp` as depths into `chain`, the weight
`j` and the two sums. Each pass moves the previous cursor onto the current one and the
current one to its `pprev`. -/
def lwmaLoop (chain : List BlockHeader) :
    ℕ → ℕ → ℕ → ℤ → ℤ → ℤ → Option (ℤ × ℤ)
  | 0, _, _, _, sumWeightedSolvetimes, sumWeights => some (sumWeightedSolvetimes, sumWeights)
  | iterations + 1, previous, current, j, sumWeightedSolvetimes, sumWeights => do
    let blockCurrent ← chain[current]?
    let blockPrevious ← chain[previous]?
    let solvetime := max ((blockCurrent.nTime : ℤ) - blockPrevious.nTime) 1
    lwmaLoop chain iterations current (current + 1) (j + 1)
      (sumWeightedSolvetimes + solvetime * (j + 1)) (sumWeights + (j + 1))

/-- The end of `GetNextWorkRequiredLWMA3`, from the two sums of its loop. -/
def lwmaNextTarget (last : BlockHeader) (params : ConsensusParams)
    (sumWeightedSolvetimes sumWeights : ℤ) : Option ℕ := do
  let T := params.nPowTargetSpacing
  let N := params.difficultyAdjustmentInterval
  let k := (N * (N + 1) * T).tdiv 2
  -- `*=` with an `int64_t` argument resolves to `operator*=(uint32_t)`
  let scaled := mulU32 (setCompact last.nBits).1 ((sumWeightedSolvetimes * k) % 2 ^ 32).toNat
  let nextTarget ← divide scaled ((sumWeights * T * T) % 2 ^ 64).toNat
  return getCompact (if params.powLimit < nextTarget then params.powLimit else nextTarget) false

def getNextWorkRequiredLWMA3 (chain : List BlockHeader) (params : ConsensusParams) :
    Option ℕ := do
  let N := params.difficultyAdjustmentInterval
  let height : ℤ := chain.length - 1
  if params.fPowNoRetargeting then return getCompact params.powLimit false
  if height < N then return getCompact params.powLimit false
  -- both cursors start on `pindexLast`
  let (sumWeightedSolvetimes, sumWeights) ← lwmaLoop chain N.toNat 0 0 0 0 0
  let last ← chain.head?
  lwmaNextTarget last params sumWeightedSolvetimes sumWeights

/-- `CalculateNextWorkRequired`, the legacy retarget over one interval. -/
def calculateNextWorkRequired (last : BlockHeader) (nFirstBlockTime : ℤ)
    (params : ConsensusParams) : Option ℕ := do
  if params.fPowNoRetargeting then return last.nBits
  let span := (last.nTime : ℤ) - nFirstBlockTime
  let span := if span < params.nPowTargetTimespan.tdiv 4 then params.nPowTargetTimespan.tdiv 4
    else span
  let span := if params.nPowTargetTimespan * 4 < span then params.nPowTargetTimespan * 4
    else span
  let bnNew := (setCompact last.nBits).1
  -- Litecoin: the intermediate can overflow by one bit
  let fShift := bits params.powLimit - 1 < bits bnNew
  let bnNew := if fShift then bnNew >>> 1 else bnNew
  let bnNew := mulU32 bnNew (span % 2 ^ 32).toNat
  let bnNew ← divide bnNew (params.nPowTargetTimespan % 2 ^ 64).toNat
  let bnNew := if fShift then shiftLeft bnNew 1 else bnNew
  return getCompact (if params.powLimit < bnNew then params.powLimit else bnNew) false

/-- The walk back over blocks mined under the minimum-difficulty rule: from depth
`depth`, while there is a `pprev`, the height is not a multiple of the interval and
`nBits` is the limit. `fuel` is the number of ancestors, so the walk never runs out. -/
def lastNonSpecialBits (chain : List BlockHeader) (interval limitBits : ℤ) :
    ℕ → ℕ → Option ℕ
  | 0, depth => (chain[depth]?).map BlockHeader.nBits
  | fuel + 1, depth => do
    let block ← chain[depth]?
    let height : ℤ := chain.length - 1 - depth
    if depth + 1 < chain.length ∧ height.tmod interval ≠ 0 ∧ (block.nBits : ℤ) = limitBits then
      lastNonSpecialBits chain interval limitBits fuel (depth + 1)
    else return block.nBits

/-- `GetNextWorkRequired`: LWMA-3 for ten-second blocks, the Litecoin retarget
otherwise. `newBlockTime` is `pblock->GetBlockTime()`. -/
def getNextWorkRequired (chain : List BlockHeader) (newBlockTime : ℤ)
    (params : ConsensusParams) : Option ℕ := do
  let last ← chain.head?
  let nProofOfWorkLimit := getCompact params.powLimit false
  if params.nPowTargetSpacing = 10 then return (← getNextWorkRequiredLWMA3 chain params)
  let interval := params.difficultyAdjustmentInterval
  let height : ℤ := chain.length - 1
  if (height + 1).tmod interval ≠ 0 then
    if params.fPowAllowMinDifficultyBlocks then
      if (last.nTime : ℤ) + params.nPowTargetSpacing * 2 < newBlockTime then
        return nProofOfWorkLimit
      return (← lastNonSpecialBits chain interval nProofOfWorkLimit chain.length 0)
    return last.nBits
  let blocksToGoBack := if height + 1 ≠ interval then interval else interval - 1
  -- `pindexFirst` is asserted non-null after the walk
  let first ← chain[blocksToGoBack.toNat]?
  calculateNextWorkRequired last first.nTime params

/-- `CheckProofOfWork` against the proof-of-work hash read as a number. -/
def checkProofOfWork (hash nBits : ℕ) (params : ConsensusParams) : Bool :=
  let (target, negative, overflow) := setCompact nBits
  !(negative || target = 0 || overflow || params.powLimit < target) && !(target < hash)

/-- The target of the LWMA formula over the last `N` blocks: solvetimes newer minus
older, at least 1, weighted `i` from the oldest (`i = 1`) to the newest (`i = N`),
in unbounded arithmetic and capped at the limit. Block `B_{h-N+i}` sits at depth
`N - i`. -/
def lwmaFormulaTarget (chain : List BlockHeader) (params : ConsensusParams) : ℕ :=
  let T := params.nPowTargetSpacing
  let N := params.difficultyAdjustmentInterval.toNat
  let k : ℤ := (N * (N + 1) : ℤ) * T / 2
  let time (depth : ℕ) : ℤ := ((chain.getD depth ⟨0, 0⟩).nTime : ℤ)
  let weighted : ℤ := ∑ i ∈ Finset.Icc 1 N, (i : ℤ) * max (time (N - i) - time (N - i + 1)) 1
  let target : ℤ := (setCompact (chain.headD ⟨0, 0⟩).nBits).1
  min params.powLimit (target * weighted * k / ((N * (N + 1) / 2 : ℤ) * T * T)).toNat

/-- The timestamps of the window never decrease from older to newer block. -/
def AscendingWindow (chain : List BlockHeader) (window : ℕ) : Prop :=
  ∀ depth, depth + 1 ≤ window → ∀ newer older,
    chain[depth]? = some newer → chain[depth + 1]? = some older → older.nTime ≤ newer.nTime

theorem triangle_succ (n : ℕ) : (n + 1) * (n + 1 + 1) / 2 = n * (n + 1) / 2 + (n + 1) := by
  obtain ⟨m, hm⟩ := Nat.even_mul_succ_self n
  rw [show (n + 1) * (n + 1 + 1) = n * (n + 1) + 2 * (n + 1) by ring, hm]
  omega

/-- Past the first pass the current cursor is one block older than the previous one, so
on ascending timestamps every solvetime is clamped to 1 and both sums grow by the
weight alone. -/
theorem lwmaLoop_ascending (chain : List BlockHeader) (iterations depth : ℕ)
    (j sumWeightedSolvetimes sumWeights : ℤ)
    (present : depth + iterations < chain.length)
    (ascending : ∀ d, depth ≤ d → d < depth + iterations → ∀ newer older,
      chain[d]? = some newer → chain[d + 1]? = some older → older.nTime ≤ newer.nTime) :
    lwmaLoop chain iterations depth (depth + 1) j sumWeightedSolvetimes sumWeights =
      some (sumWeightedSolvetimes + (iterations * j + (iterations * (iterations + 1) / 2 : ℕ)),
        sumWeights + (iterations * j + (iterations * (iterations + 1) / 2 : ℕ))) := by
  induction iterations generalizing depth j sumWeightedSolvetimes sumWeights with
  | zero => simp [lwmaLoop]
  | succ n ih =>
    obtain ⟨newer, hNewer⟩ : ∃ b, chain[depth]? = some b :=
      ⟨chain[depth], List.getElem?_eq_getElem (by omega)⟩
    obtain ⟨older, hOlder⟩ : ∃ b, chain[depth + 1]? = some b :=
      ⟨chain[depth + 1], List.getElem?_eq_getElem (by omega)⟩
    have clamped : max ((older.nTime : ℤ) - newer.nTime) 1 = 1 := by
      have le := ascending depth le_rfl (by omega) newer older hNewer hOlder
      omega
    have rest := ih (depth + 1) (j + 1) (sumWeightedSolvetimes + 1 * (j + 1))
      (sumWeights + (j + 1)) (by omega)
      (fun d low high => ascending d (by omega) (by omega))
    simp only [lwmaLoop, hNewer, hOlder, Option.bind_eq_bind, Option.bind_some, clamped]
    rw [rest]
    simp only [triangle_succ, Option.some.injEq, Prod.mk.injEq]
    push_cast
    constructor <;> ring

/-- On every chain whose last `N + 1` timestamps ascend, `GetNextWorkRequiredLWMA3`
ignores the timestamps: the cursors start on the same block and then compare each
block with its parent the wrong way round, so every solvetime is 1 and both sums of
the loop are `N(N+1)/2`. -/
theorem lwma_ignores_ascending_timestamps (chain : List BlockHeader) (params : ConsensusParams)
    (retargeting : params.fPowNoRetargeting = false)
    (long : params.difficultyAdjustmentInterval < chain.length)
    (positive : 0 < params.difficultyAdjustmentInterval)
    (ascending : AscendingWindow chain params.difficultyAdjustmentInterval.toNat) :
    getNextWorkRequiredLWMA3 chain params =
      lwmaNextTarget (chain.headD ⟨0, 0⟩) params
        ((params.difficultyAdjustmentInterval.toNat
          * (params.difficultyAdjustmentInterval.toNat + 1) / 2 : ℕ) : ℤ)
        ((params.difficultyAdjustmentInterval.toNat
          * (params.difficultyAdjustmentInterval.toNat + 1) / 2 : ℕ) : ℤ) := by
  obtain ⟨n, hn⟩ : ∃ n : ℕ, params.difficultyAdjustmentInterval.toNat = n + 1 :=
    ⟨params.difficultyAdjustmentInterval.toNat - 1, by omega⟩
  obtain ⟨head, rest, rfl⟩ : ∃ head rest, chain = head :: rest := by
    cases chain with
    | nil => simp at long; omega
    | cons head rest => exact ⟨head, rest, rfl⟩
  have notShort : ¬ ((head :: rest).length : ℤ) - 1 < params.difficultyAdjustmentInterval := by
    omega
  have loop := lwmaLoop_ascending (head :: rest) n 0 1 1 1 (by omega)
    (fun d _ high newer older hd hd' => ascending d (by omega) newer older hd hd')
  rw [Nat.zero_add] at loop
  have sums : lwmaLoop (head :: rest) (n + 1) 0 0 0 0 0 =
      some (((n * (n + 1) / 2 + (n + 1) : ℕ) : ℤ), ((n * (n + 1) / 2 + (n + 1) : ℕ) : ℤ)) := by
    have step : lwmaLoop (head :: rest) (n + 1) 0 0 0 0 0 = lwmaLoop (head :: rest) n 0 1 1 1 1 := by
      simp [lwmaLoop]
    rw [step, loop]
    simp only [Option.some.injEq, Prod.mk.injEq]
    push_cast
    constructor <;> ring
  simp only [getNextWorkRequiredLWMA3, retargeting, notShort, Bool.false_eq_true,
    if_false, hn, triangle_succ, sums]
  rfl

/-- A main-network chain of 91 blocks ten seconds apart, all at `nBits = 0x1c00ffff`. -/
def steadyChain : List BlockHeader :=
  (List.range 91).reverse.map fun height => ⟨10 * height, 0x1c00ffff⟩

/-- On `steadyChain` the code returns `0x1d01997e` (the target times 409.5) while the
formula gives `0x1d0ffef0` (the target times 4095). -/
theorem lwma_steady_chain_diverges :
    getNextWorkRequiredLWMA3 steadyChain mainParams = some 0x1d01997e ∧
    getCompact (lwmaFormulaTarget steadyChain mainParams) false = 0x1d0ffef0 := by
  constructor <;> decide +kernel

end Pussycoin.Pow
