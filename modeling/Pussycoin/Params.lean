import Mathlib.Data.Int.Basic

/-! Consensus parameters of `consensus/params.h`, restricted to the fields that the
modelled functions read, with the values that `chainparams.cpp` gives the three
networks. `uint256` limits are natural numbers; `int64_t` fields are integers. -/
namespace Pussycoin

/-- The fields of `Consensus::Params` that emission and proof-of-work read. -/
structure ConsensusParams where
  nSubsidyHalvingInterval : ℤ
  powLimit : ℕ
  nPowTargetSpacing : ℤ
  nPowTargetTimespan : ℤ
  fPowAllowMinDifficultyBlocks : Bool
  fPowNoRetargeting : Bool
  deriving Repr, DecidableEq

namespace ConsensusParams

/-- `DifficultyAdjustmentInterval`: `int64_t` division, truncating toward zero. -/
def difficultyAdjustmentInterval (params : ConsensusParams) : ℤ :=
  params.nPowTargetTimespan.tdiv params.nPowTargetSpacing

end ConsensusParams

/-- `uint256S("00000fff…f")`, the proof-of-work limit of main and test. -/
def mainPowLimit : ℕ := 0x00000fffffffffffffffffffffffffffffffffffffffffffffffffffffffffff

/-- `CMainParams`. -/
def mainParams : ConsensusParams where
  nSubsidyHalvingInterval := 0
  powLimit := mainPowLimit
  nPowTargetSpacing := 10
  nPowTargetTimespan := 90 * 10
  fPowAllowMinDifficultyBlocks := false
  fPowNoRetargeting := false

/-- `CTestNetParams`. -/
def testNetParams : ConsensusParams where
  nSubsidyHalvingInterval := 0
  powLimit := mainPowLimit
  nPowTargetSpacing := 10
  nPowTargetTimespan := 90 * 10
  fPowAllowMinDifficultyBlocks := true
  fPowNoRetargeting := false

/-- `CRegTestParams`, whose limit is `uint256S("7fff…f")`. -/
def regTestParams : ConsensusParams where
  nSubsidyHalvingInterval := 0
  powLimit := 0x7fffffffffffffffffffffffffffffffffffffffffffffffffffffffffffffff
  nPowTargetSpacing := 10
  nPowTargetTimespan := 90 * 10
  fPowAllowMinDifficultyBlocks := true
  fPowNoRetargeting := true

example : mainParams.difficultyAdjustmentInterval = 90 := by decide

end Pussycoin
