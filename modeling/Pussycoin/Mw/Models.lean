import Pussycoin.Mmr.Mmr

/-! The MWEB transaction and block models of libmw (`models/tx`, `models/block`,
`consensus/Weight.h`, `consensus/Params.h`, `consensus/Aggregation.h`). Hashes,
commitments and blinding factors are numbers; the curve arithmetic and the signature and
proof checks are the parameters collected in `Crypto`. -/
namespace Pussycoin.Mw

open Pussycoin.Mmr

/-- `EConsensusError`. -/
inductive ConsensusError
  | HASH_MISMATCH | DUPLICATES | BLOCK_WEIGHT | BLOCK_SUMS | STEALTH_SUMS | INVALID_SIG
  | BULLETPROOF | PEGIN_MISMATCH | PEGOUT_MISMATCH | MMR_MISMATCH | UTXO_MISSING
  | UTXO_MISMATCH | NOT_SORTED | BAD_STATE
  deriving DecidableEq, Repr

/-- How a call ends without a result: a `ValidationException`, or a failed `assert`. -/
inductive Failure
  | validation (e : ConsensusError)
  | assertion
  deriving DecidableEq, Repr

abbrev Result (α : Type) := Except Failure α

def throwValidation {α : Type} (e : ConsensusError) : Result α := .error (.validation e)

/-- A call of the MMR code, whose `assert`s are the failures of its model. -/
def asserted {α : Type} : Option α → Result α
  | some a => .ok a
  | none => .error .assertion

@[simp] theorem asserted_eq_ok {α : Type} {x : Option α} {a : α} : asserted x = .ok a ↔ x = some a := by
  cases x <;> simp [asserted]

structure Input where
  outputId : ℕ
  commitment : ℕ
  extraDataSize : ℕ
  deriving DecidableEq, Repr

structure Output where
  outputId : ℕ
  commitment : ℕ
  hasStandardFields : Bool
  extraDataSize : ℕ
  deriving DecidableEq, Repr

structure PegOutCoin where
  amount : ℤ
  scriptPubKeySize : ℕ
  deriving DecidableEq, Repr

structure PegInCoin where
  amount : ℤ
  kernelId : ℕ
  deriving DecidableEq, Repr

structure Kernel where
  kernelId : ℕ
  fee : Option ℤ
  pegin : Option ℤ
  pegouts : List PegOutCoin
  hasStealthExcess : Bool
  extraDataSize : ℕ
  deriving DecidableEq, Repr

namespace Kernel

def getPegIn (kernel : Kernel) : ℤ := kernel.pegin.getD 0

def getPegOutAmount (kernel : Kernel) : ℤ := (kernel.pegouts.map (·.amount)).sum

def getSupplyChange (kernel : Kernel) : ℤ :=
  (kernel.pegin.getD 0 - kernel.fee.getD 0) - kernel.getPegOutAmount

end Kernel

/-- `InputSort`, `OutputSort` and `KernelSort`: the strict orders the bodies are sorted by. -/
def inputSort (a b : Input) : Bool := a.outputId < b.outputId

def outputSort (a b : Output) : Bool := a.outputId < b.outputId

def kernelSort (a b : Kernel) : Bool :=
  a.getSupplyChange > b.getSupplyChange ||
    (a.getSupplyChange == b.getSupplyChange && a.kernelId < b.kernelId)

/-- `std::is_sorted` under a strict order: no element is less than the one before it. -/
def isSorted {α : Type} (comp : α → α → Bool) : List α → Bool
  | a :: b :: rest => !comp b a && isSorted comp (b :: rest)
  | _ => true

/-- `std::sort` under a strict order; which sorted order of equal elements it returns is
not specified, and the model keeps their order. -/
def sortBy {α : Type} (comp : α → α → Bool) (l : List α) : List α :=
  l.insertionSort fun a b => !comp b a

/-- The `contains_duplicates` lambda of `TxBody::Validate`. -/
def containsDuplicates (hashes : List ℕ) : Bool := !decide hashes.Nodup

structure TxBody where
  inputs : List Input
  outputs : List Output
  kernels : List Kernel
  deriving DecidableEq, Repr

namespace TxBody

def getPegIns (body : TxBody) : List PegInCoin :=
  body.kernels.filterMap fun kernel => kernel.pegin.map (⟨·, kernel.kernelId⟩)

def getPegInAmount (body : TxBody) : ℤ := (body.kernels.map Kernel.getPegIn).sum

def getTotalFee (body : TxBody) : ℤ := (body.kernels.map fun kernel => kernel.fee.getD 0).sum

def getSupplyChange (body : TxBody) : ℤ := (body.kernels.map Kernel.getSupplyChange).sum

def getSpentIDs (body : TxBody) : List ℕ := body.inputs.map (·.outputId)

def getOutputIDs (body : TxBody) : List ℕ := body.outputs.map (·.outputId)

def getKernelIDs (body : TxBody) : List ℕ := body.kernels.map (·.kernelId)

def getInputCommits (body : TxBody) : List ℕ := body.inputs.map (·.commitment)

def getOutputCommits (body : TxBody) : List ℕ := body.outputs.map (·.commitment)

end TxBody

/-! ### Weight -/

namespace Weight

def BYTES_PER_WEIGHT : ℕ := 42
def BASE_KERNEL_WEIGHT : ℕ := 2
def STEALTH_EXCESS_WEIGHT : ℕ := 1
def KERNEL_WITH_STEALTH_WEIGHT : ℕ := BASE_KERNEL_WEIGHT + STEALTH_EXCESS_WEIGHT
def BASE_OUTPUT_WEIGHT : ℕ := 17
def STANDARD_OUTPUT_FIELDS_WEIGHT : ℕ := 1
def STANDARD_OUTPUT_WEIGHT : ℕ := BASE_OUTPUT_WEIGHT + STANDARD_OUTPUT_FIELDS_WEIGHT
def MAX_NUM_INPUTS : ℕ := 50000
def MAX_BLOCK_WEIGHT : ℕ := 200000

def extraBytesToWeight (extraBytes : ℕ) : ℕ := (extraBytes + (BYTES_PER_WEIGHT - 1)) / BYTES_PER_WEIGHT

def calcInputWeight (extraDataSize : ℕ) : ℕ := extraBytesToWeight extraDataSize

def calcKernelWeight (hasStealthExcess : Bool) (pegouts : List PegOutCoin) (extraDataSize : ℕ) : ℕ :=
  let baseWeight := if hasStealthExcess then KERNEL_WITH_STEALTH_WEIGHT else BASE_KERNEL_WEIGHT
  let pegoutWeight := (pegouts.map fun pegout => extraBytesToWeight pegout.scriptPubKeySize).sum
  baseWeight + pegoutWeight + extraBytesToWeight extraDataSize

def calcOutputWeight (standardFields : Bool) (extraDataSize : ℕ) : ℕ :=
  let baseWeight := if standardFields then STANDARD_OUTPUT_WEIGHT else BASE_OUTPUT_WEIGHT
  baseWeight + extraBytesToWeight extraDataSize

def calculate (body : TxBody) : ℕ :=
  (body.inputs.map fun input => calcInputWeight input.extraDataSize).sum +
    (body.kernels.map fun kernel =>
      calcKernelWeight kernel.hasStealthExcess kernel.pegouts kernel.extraDataSize).sum +
    (body.outputs.map fun output => calcOutputWeight output.hasStandardFields output.extraDataSize).sum

def exceedsMaximum (body : TxBody) : Bool :=
  body.inputs.length > MAX_NUM_INPUTS || calculate body > MAX_BLOCK_WEIGHT

end Weight

structure Transaction where
  kernelOffset : ℕ
  stealthOffset : ℕ
  body : TxBody
  deriving DecidableEq, Repr

/-- The checks that rest on the curve: Schnorr and bulletproof batch verification, the
kernel sums of a transaction and of a block, the stealth sums, and the sums of blinding
factors and of commitments (`none` where `Pedersen` throws). -/
structure Crypto where
  verifySignatures : TxBody → Bool
  verifyRangeProofs : TxBody → Bool
  kernelSumsForTx : Transaction → Bool
  stealthSums : ℕ → TxBody → Bool
  kernelSumsForBlock : TxBody → ℕ → ℕ → Bool
  addBlindingFactors : List ℕ → ℕ
  addCommitments : List ℕ → List ℕ → Option ℕ

/-- Checks of the curve that accept everything, as they accept transactions and blocks
that honest owners and miners signed. -/
def acceptingCrypto : Crypto :=
  ⟨fun _ => true, fun _ => true, fun _ => true, fun _ _ => true, fun _ _ _ => true, fun _ => 0, fun _ _ => some 1⟩

/-- `TxBody::Validate`. -/
def TxBody.validate (crypto : Crypto) (body : TxBody) : Result Unit :=
  if Weight.exceedsMaximum body then throwValidation .BLOCK_WEIGHT
  else if !isSorted inputSort body.inputs || !isSorted outputSort body.outputs ||
      !isSorted kernelSort body.kernels then throwValidation .NOT_SORTED
  else if containsDuplicates body.getSpentIDs then throwValidation .DUPLICATES
  else if containsDuplicates body.getOutputIDs then throwValidation .DUPLICATES
  else if containsDuplicates body.getKernelIDs then throwValidation .DUPLICATES
  else if !crypto.verifySignatures body then throwValidation .INVALID_SIG
  else if !crypto.verifyRangeProofs body then throwValidation .BULLETPROOF
  else pure ()

/-- `Transaction::Validate`. -/
def Transaction.validate (crypto : Crypto) (tx : Transaction) : Result Unit := do
  tx.body.validate crypto
  if !crypto.kernelSumsForTx tx then throwValidation .BLOCK_SUMS
  if !crypto.stealthSums tx.stealthOffset tx.body then throwValidation .STEALTH_SUMS

/-- `Transaction::Create`: the parts are sorted. -/
def Transaction.create (kernelOffset stealthOffset : ℕ) (inputs : List Input) (outputs : List Output)
    (kernels : List Kernel) : Transaction :=
  ⟨kernelOffset, stealthOffset, ⟨sortBy inputSort inputs, sortBy outputSort outputs, sortBy kernelSort kernels⟩⟩

/-- `Aggregation::Aggregate`. -/
def aggregate (crypto : Crypto) : List Transaction → Transaction
  | [] => ⟨0, 0, ⟨[], [], []⟩⟩
  | [tx] => tx
  | txs =>
    Transaction.create (crypto.addBlindingFactors (txs.map (·.kernelOffset)))
      (crypto.addBlindingFactors (txs.map (·.stealthOffset)))
      (txs.flatMap (·.body.inputs)) (txs.flatMap (·.body.outputs)) (txs.flatMap (·.body.kernels))

/-- `mw::Header`; `outputMMRSize` is `GetNumTXOs`. -/
structure Header (Η : Type) where
  height : ℕ
  outputRoot : Η
  kernelRoot : Η
  leafsetRoot : Η
  kernelOffset : ℕ
  stealthOffset : ℕ
  outputMMRSize : ℕ
  kernelMMRSize : ℕ
  deriving DecidableEq, Repr

structure Block (Η : Type) where
  header : Header Η
  body : TxBody
  deriving DecidableEq, Repr

/-- `UTXO`: an output with the height of its block and its leaf in the output PMMR. -/
structure UTXO where
  blockHeight : ℕ
  leafIdx : LeafIndex
  output : Output
  deriving DecidableEq, Repr

def UTXO.getOutputID (utxo : UTXO) : ℕ := utxo.output.outputId

structure BlockUndo (Η : Type) where
  previousHeader : Option (Header Η)
  coinsSpent : List UTXO
  coinsAdded : List ℕ
  deriving DecidableEq, Repr

/-- The hash functions: `Leaf::CalcHash` and `CalcParentHash` for the output and kernel
MMRs, and the hash of a leaf set's bytes. -/
structure Hashing (Η : Type) where
  output : Hasher ℕ Η
  kernel : Hasher Kernel Η
  leafSet : List UInt8 → Η

/-- Free hashes for both MMRs and the leaf set; a kernel leaf is hashed through its id,
itself the hash of the kernel. -/
def freeHashing : Hashing (HashTerm ℕ) :=
  ⟨freeHasher, ⟨.zero, fun position kernel => .leaf position kernel.kernelId, .parent⟩, .bytes⟩

end Pussycoin.Mw
