import Pussycoin.Mw.Models
import Pussycoin.Serialize

/-! The wire format of libmw's transaction parts (`models/tx/Kernel.h`, `Input.h`,
`Output.h`, `PegOutCoin.h`, `TxBody.h`, `Transaction.h` and `models/block/Header.h`) over the encodings of
`serialize.h`. Keys, commitments, hashes, signatures and proofs are byte strings of fixed
size. `toKernel`, `toInput`, `toOutput`, `toTxBody` and `toTransaction` give the models of `Models` that
weight and validation read. -/
namespace Pussycoin.Mw

open Codec Serialize

/-- `BigInt<n>`, and the keys, commitments and signatures built on it. -/
abbrev Blob (n : ℕ) := {bytes : List UInt8 // bytes.length = n}

def readBlob (n : ℕ) : Reader UInt8 (Blob n) := readExactly n

/-- The number whose little-endian bytes a blob holds, as `Models` names hashes and
commitments. -/
def blobValue {n : ℕ} (blob : Blob n) : ℕ := ofLE blob.val

/-- `m_features & bit`. -/
def hasFeature (features bit : UInt8) : Bool := features &&& bit != 0

/-! ### Peg-outs and kernels -/

structure PegOutData where
  amount : ℤ
  scriptPubKey : List UInt8
  deriving DecidableEq, Repr

namespace PegOutData

def serialize (pegout : PegOutData) : List UInt8 :=
  writeVarInt 64 pegout.amount ++ writeBytes pegout.scriptPubKey

def unserialize : Reader UInt8 PegOutData := do
  let amount ← readVarInt INT64_MAX
  let scriptPubKey ← readBytes
  -- "Pegout scriptPubKey must not be empty"
  if scriptPubKey.isEmpty then failure else pure ⟨amount, scriptPubKey⟩

end PegOutData

structure KernelData where
  features : UInt8
  fee : Option ℤ
  pegin : Option ℤ
  pegouts : List PegOutData
  lockHeight : Option ℤ
  stealthExcess : Option (Blob 33)
  extraData : List UInt8
  excess : Blob 33
  signature : Blob 64
  deriving DecidableEq

namespace KernelData

def FEE_FEATURE_BIT : UInt8 := 0x01
def PEGIN_FEATURE_BIT : UInt8 := 0x02
def PEGOUT_FEATURE_BIT : UInt8 := 0x04
def HEIGHT_LOCK_FEATURE_BIT : UInt8 := 0x08
def STEALTH_EXCESS_FEATURE_BIT : UInt8 := 0x10
def EXTRA_DATA_FEATURE_BIT : UInt8 := 0x20

/-- `Kernel::Serialize`: what is written follows which fields are present. -/
def serialize (kernel : KernelData) : List UInt8 :=
  [kernel.features] ++
    writeOption (writeVarInt 64) kernel.fee ++
    writeOption (writeVarInt 64) kernel.pegin ++
    writeWhen (!·.isEmpty) (writeVector PegOutData.serialize) kernel.pegouts ++
    writeOption (writeVarInt 32) kernel.lockHeight ++
    writeOption Subtype.val kernel.stealthExcess ++
    writeWhen (!·.isEmpty) writeBytes kernel.extraData ++
    kernel.excess.val ++ kernel.signature.val

/-- `Kernel::Unserialize`: what is read follows the feature bits. -/
def unserialize : Reader UInt8 KernelData := do
  let features ← readOne
  let fee ← readOption (hasFeature features FEE_FEATURE_BIT) (Int.ofNat <$> readVarInt INT64_MAX)
  let pegin ← readOption (hasFeature features PEGIN_FEATURE_BIT) (Int.ofNat <$> readVarInt INT64_MAX)
  let pegouts ← readWhen (hasFeature features PEGOUT_FEATURE_BIT) (readVector PegOutData.unserialize) []
  let lockHeight ←
    readOption (hasFeature features HEIGHT_LOCK_FEATURE_BIT) (Int.ofNat <$> readVarInt INT32_MAX)
  let stealthExcess ← readOption (hasFeature features STEALTH_EXCESS_FEATURE_BIT) (readBlob 33)
  let extraData ← readWhen (hasFeature features EXTRA_DATA_FEATURE_BIT) readBytes []
  let excess ← readBlob 33
  let signature ← readBlob 64
  pure ⟨features, fee, pegin, pegouts, lockHeight, stealthExcess, extraData, excess, signature⟩

/-- The kernel as `Models` sees it. Its ID is `Hashed(*this)`, the hash of its
serialization. -/
def toKernel (hash : List UInt8 → ℕ) (kernel : KernelData) : Kernel :=
  ⟨hash kernel.serialize, kernel.fee, kernel.pegin,
    kernel.pegouts.map fun pegout => ⟨pegout.amount, pegout.scriptPubKey.length⟩,
    kernel.stealthExcess.isSome, kernel.extraData.length⟩

end KernelData

/-! ### Inputs and outputs -/

structure InputData where
  features : UInt8
  outputId : Blob 32
  commitment : Blob 33
  inputPubKey : Option (Blob 33)
  outputPubKey : Blob 33
  extraData : List UInt8
  signature : Blob 64
  deriving DecidableEq

namespace InputData

def STEALTH_KEY_FEATURE_BIT : UInt8 := 0x01
def EXTRA_DATA_FEATURE_BIT : UInt8 := 0x02

/-- The `READWRITE` of `Input`: what is written follows the feature bits. Where the stealth
key bit is set the source dereferences the optional input key; an input whose bit is set
without a key writes nothing there in the model. -/
def serialize (input : InputData) : List UInt8 :=
  [input.features] ++ input.outputId.val ++ input.commitment.val ++ input.outputPubKey.val ++
    (if hasFeature input.features STEALTH_KEY_FEATURE_BIT then writeOption Subtype.val input.inputPubKey
      else []) ++
    (if hasFeature input.features EXTRA_DATA_FEATURE_BIT then writeBytes input.extraData else []) ++
    input.signature.val

def unserialize : Reader UInt8 InputData := do
  let features ← readOne
  let outputId ← readBlob 32
  let commitment ← readBlob 33
  let outputPubKey ← readBlob 33
  let inputPubKey ← readOption (hasFeature features STEALTH_KEY_FEATURE_BIT) (readBlob 33)
  let extraData ← readWhen (hasFeature features EXTRA_DATA_FEATURE_BIT) readBytes []
  let signature ← readBlob 64
  pure ⟨features, outputId, commitment, inputPubKey, outputPubKey, extraData, signature⟩

def toInput (input : InputData) : Input :=
  ⟨blobValue input.outputId, blobValue input.commitment, input.extraData.length⟩

end InputData

structure OutputMessageData where
  features : UInt8
  keyExchangePubKey : Blob 33
  viewTag : UInt8
  maskedValue : ℕ
  maskedNonce : Blob 16
  extraData : List UInt8
  deriving DecidableEq

namespace OutputMessageData

def STANDARD_FIELDS_FEATURE_BIT : UInt8 := 0x01
def EXTRA_DATA_FEATURE_BIT : UInt8 := 0x02

/-- The `READWRITE` of `OutputMessage`; `masked_value` is a `uint64_t`. -/
def serialize (message : OutputMessageData) : List UInt8 :=
  [message.features] ++
    (if hasFeature message.features STANDARD_FIELDS_FEATURE_BIT then
      message.keyExchangePubKey.val ++ [message.viewTag] ++ writeLE 8 message.maskedValue ++
        message.maskedNonce.val
    else []) ++
    (if hasFeature message.features EXTRA_DATA_FEATURE_BIT then writeBytes message.extraData else [])

/-- Fields under an unset bit keep the values of a default-constructed message. -/
def unserialize (default : OutputMessageData) : Reader UInt8 OutputMessageData := do
  let features ← readOne
  let standard ← readWhen (hasFeature features STANDARD_FIELDS_FEATURE_BIT)
    (do
      let keyExchangePubKey ← readBlob 33
      let viewTag ← readOne
      let maskedValue ← readLE 8
      let maskedNonce ← readBlob 16
      pure (keyExchangePubKey, viewTag, maskedValue, maskedNonce))
    (default.keyExchangePubKey, default.viewTag, default.maskedValue, default.maskedNonce)
  let extraData ← readWhen (hasFeature features EXTRA_DATA_FEATURE_BIT) readBytes default.extraData
  pure ⟨features, standard.1, standard.2.1, standard.2.2.1, standard.2.2.2, extraData⟩

end OutputMessageData

structure OutputData where
  commitment : Blob 33
  senderPubKey : Blob 33
  receiverPubKey : Blob 33
  message : OutputMessageData
  proof : Blob 675
  signature : Blob 64
  deriving DecidableEq

namespace OutputData

def serialize (output : OutputData) : List UInt8 :=
  output.commitment.val ++ output.senderPubKey.val ++ output.receiverPubKey.val ++
    output.message.serialize ++ output.proof.val ++ output.signature.val

def unserialize (default : OutputMessageData) : Reader UInt8 OutputData := do
  let commitment ← readBlob 33
  let senderPubKey ← readBlob 33
  let receiverPubKey ← readBlob 33
  let message ← OutputMessageData.unserialize default
  let proof ← readBlob 675
  let signature ← readBlob 64
  pure ⟨commitment, senderPubKey, receiverPubKey, message, proof, signature⟩

/-- The output as `Models` sees it; `computeHash` is `Output::ComputeHash`. -/
def toOutput (computeHash : OutputData → ℕ) (output : OutputData) : Output :=
  ⟨computeHash output, blobValue output.commitment,
    hasFeature output.message.features OutputMessageData.STANDARD_FIELDS_FEATURE_BIT,
    output.message.extraData.length⟩

end OutputData

/-! ### Bodies, transactions and headers -/

structure TxBodyData where
  inputs : List InputData
  outputs : List OutputData
  kernels : List KernelData
  deriving DecidableEq

namespace TxBodyData

def serialize (body : TxBodyData) : List UInt8 :=
  writeVector InputData.serialize body.inputs ++ writeVector OutputData.serialize body.outputs ++
    writeVector KernelData.serialize body.kernels

def unserialize (default : OutputMessageData) : Reader UInt8 TxBodyData := do
  let inputs ← readVector InputData.unserialize
  let outputs ← readVector (OutputData.unserialize default)
  let kernels ← readVector KernelData.unserialize
  pure ⟨inputs, outputs, kernels⟩

def toTxBody (hash : List UInt8 → ℕ) (computeHash : OutputData → ℕ) (body : TxBodyData) : TxBody :=
  ⟨body.inputs.map InputData.toInput, body.outputs.map (OutputData.toOutput computeHash),
    body.kernels.map (KernelData.toKernel hash)⟩

end TxBodyData

structure TransactionData where
  kernelOffset : Blob 32
  stealthOffset : Blob 32
  body : TxBodyData
  deriving DecidableEq

namespace TransactionData

def serialize (tx : TransactionData) : List UInt8 :=
  tx.kernelOffset.val ++ tx.stealthOffset.val ++ tx.body.serialize

def unserialize (default : OutputMessageData) : Reader UInt8 TransactionData := do
  let kernelOffset ← readBlob 32
  let stealthOffset ← readBlob 32
  let body ← TxBodyData.unserialize default
  pure ⟨kernelOffset, stealthOffset, body⟩

def toTransaction (hash : List UInt8 → ℕ) (computeHash : OutputData → ℕ) (tx : TransactionData) : Transaction :=
  ⟨blobValue tx.kernelOffset, blobValue tx.stealthOffset, tx.body.toTxBody hash computeHash⟩

end TransactionData

structure HeaderData where
  height : ℤ
  outputRoot : Blob 32
  kernelRoot : Blob 32
  leafsetRoot : Blob 32
  kernelOffset : Blob 32
  stealthOffset : Blob 32
  outputMMRSize : ℕ
  kernelMMRSize : ℕ
  deriving DecidableEq

namespace HeaderData

def serialize (header : HeaderData) : List UInt8 :=
  writeVarInt 32 header.height ++ header.outputRoot.val ++ header.kernelRoot.val ++
    header.leafsetRoot.val ++ header.kernelOffset.val ++ header.stealthOffset.val ++
    writeVarInt 64 header.outputMMRSize ++ writeVarInt 64 header.kernelMMRSize

def unserialize : Reader UInt8 HeaderData := do
  let height ← readVarInt INT32_MAX
  let outputRoot ← readBlob 32
  let kernelRoot ← readBlob 32
  let leafsetRoot ← readBlob 32
  let kernelOffset ← readBlob 32
  let stealthOffset ← readBlob 32
  let outputMMRSize ← readVarInt UINT64_MAX
  let kernelMMRSize ← readVarInt UINT64_MAX
  pure ⟨height, outputRoot, kernelRoot, leafsetRoot, kernelOffset, stealthOffset, outputMMRSize,
    kernelMMRSize⟩

end HeaderData

end Pussycoin.Mw
