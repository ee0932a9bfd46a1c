import Pussycoin.Mw.WireRoundTrip

/-! How the weight of `Weight.h` bounds serialized size, against `MAX_BLOCK_BYTES` of
`Params.h`. A non-empty byte string, a peg-out script or extra data, costs one weight for
every 42 bytes and takes at most 51 bytes per weight with its size and a peg-out amount; a
kernel without them is at most 119 bytes for its weight of 2. Kernels and outputs thus take
at most 59.5 bytes per weight, and an input `INPUT_BYTES + 1` bytes besides: the byte more
than the comment of `Params.h` allows is the size of an empty extra-data vector under its
bit. A peg-out with an empty script costs no weight at all; only the reader of `PegOutCoin`
keeps such peg-outs out of a body. -/
namespace Pussycoin

/-- `MAX_MONEY` of `amount.h`. -/
def MAX_MONEY : ℤ := 84000000 * 100000000

def moneyRange (nValue : ℤ) : Bool := 0 ≤ nValue && nValue ≤ MAX_MONEY

namespace Mw

open Codec Serialize Weight

def Weight.INPUT_BYTES : ℕ := 196

def Weight.MAX_BLOCK_BYTES : ℕ := 180 + 3 * 5 + MAX_NUM_INPUTS * INPUT_BYTES + MAX_BLOCK_WEIGHT * 60

/-! ### Encodings -/

theorem length_writeVarInt_money {n : ℤ} (inRange : moneyRange n = true) :
    (writeVarInt 64 n).length ≤ 8 := by
  have below : n ≤ MAX_MONEY := by
    simp only [moneyRange, Bool.and_eq_true, decide_eq_true_eq] at inRange
    exact inRange.2
  have small : n < 128 ^ (7 + 1) := by
    unfold MAX_MONEY at below
    norm_num
    omega
  exact length_writeVarInt_le (by decide : 7 + 1 ≤ (64 + 6) / 7) small

/-- A non-empty byte string, with up to eight bytes more, within 51 bytes per weight. -/
theorem add_length_writeBytes_le {bytes : List UInt8} (nonempty : bytes ≠ []) {extra : ℕ}
    (small : extra ≤ 8) : extra + (writeBytes bytes).length ≤ 51 * extraBytesToWeight bytes.length := by
  have positive : 0 < bytes.length := List.length_pos_of_ne_nil nonempty
  have size := length_writeCompactSize_le bytes.length
  simp only [writeBytes, List.length_append, extraBytesToWeight, BYTES_PER_WEIGHT]
  split_ifs at size <;> omega

theorem length_writeBytes_le (bytes : List UInt8) :
    (writeBytes bytes).length ≤ 1 + 51 * extraBytesToWeight bytes.length := by
  cases bytes with
  | nil => simp [writeBytes, writeCompactSize]
  | cons b rest =>
    have := add_length_writeBytes_le (List.cons_ne_nil b rest) (Nat.zero_le 8)
    omega

theorem two_mul_length_flatMap_le {α : Type} {f : α → List UInt8} {g : α → ℕ} :
    ∀ {l : List α}, (∀ a ∈ l, 2 * (f a).length ≤ g a) → 2 * (l.flatMap f).length ≤ (l.map g).sum
  | [], _ => by simp
  | a :: l, bound => by
    have first := bound a (List.mem_cons_self ..)
    have others := two_mul_length_flatMap_le fun b mem => bound b (List.mem_cons_of_mem a mem)
    simp only [List.flatMap_cons, List.length_append, List.map_cons, List.sum_cons]
    omega

theorem mul_length_le_sum {α : Type} {g : α → ℕ} {c : ℕ} :
    ∀ {l : List α}, (∀ a ∈ l, c ≤ g a) → c * l.length ≤ (l.map g).sum
  | [], _ => by simp
  | a :: l, bound => by
    have first := bound a (List.mem_cons_self ..)
    have others := mul_length_le_sum fun b mem => bound b (List.mem_cons_of_mem a mem)
    simp only [List.length_cons, List.map_cons, List.sum_cons]
    rw [Nat.mul_succ]
    omega

/-! ### Parts -/

namespace PegOutData

theorem length_serialize_le {pegout : PegOutData} (inRange : moneyRange pegout.amount = true)
    (nonempty : pegout.scriptPubKey ≠ []) :
    pegout.serialize.length ≤ 51 * extraBytesToWeight pegout.scriptPubKey.length := by
  have bound := add_length_writeBytes_le nonempty (length_writeVarInt_money inRange)
  simpa [serialize] using bound

end PegOutData

namespace KernelData

/-- The amounts of a kernel are in `MoneyRange`. -/
structure InRange (kernel : KernelData) : Prop where
  fee : ∀ fee, kernel.fee = some fee → moneyRange fee = true
  pegin : ∀ pegin, kernel.pegin = some pegin → moneyRange pegin = true
  pegouts : ∀ pegout ∈ kernel.pegouts, moneyRange pegout.amount = true

theorem length_writeOption_money {amount : Option ℤ} (inRange : ∀ n, amount = some n → moneyRange n = true) :
    (writeOption (writeVarInt 64) amount).length ≤ 8 := by
  cases amount with
  | none => simp [writeOption]
  | some n => exact length_writeVarInt_money (inRange n rfl)

theorem one_le_extraBytesToWeight {n : ℕ} (positive : 0 < n) : 1 ≤ extraBytesToWeight n := by
  unfold extraBytesToWeight BYTES_PER_WEIGHT
  omega

/-- The peg-outs, with their count, take at most 59.5 bytes per weight of their scripts. -/
theorem length_pegouts_le {pegouts : List PegOutData}
    (inRange : ∀ pegout ∈ pegouts, moneyRange pegout.amount = true)
    (scripts : ∀ pegout ∈ pegouts, pegout.scriptPubKey ≠ []) :
    2 * (writeWhen (!·.isEmpty) (writeVector PegOutData.serialize) pegouts).length ≤
      119 * (pegouts.map fun pegout => extraBytesToWeight pegout.scriptPubKey.length).sum := by
  unfold writeWhen
  split
  · rename_i nonempty
    have elements : 2 * (pegouts.flatMap PegOutData.serialize).length ≤
        (pegouts.map fun pegout => 102 * extraBytesToWeight pegout.scriptPubKey.length).sum :=
      two_mul_length_flatMap_le fun pegout mem => by
        have := PegOutData.length_serialize_le (inRange pegout mem) (scripts pegout mem)
        omega
    rw [List.sum_map_mul_left] at elements
    -- every peg-out weighs at least one, so the count is at most the weight
    have count : 1 * pegouts.length ≤ (pegouts.map fun pegout => extraBytesToWeight pegout.scriptPubKey.length).sum :=
      mul_length_le_sum fun pegout mem =>
        one_le_extraBytesToWeight (List.length_pos_of_ne_nil (scripts pegout mem))
    have some : 0 < pegouts.length := by
      cases pegouts with
      | nil => simp at nonempty
      | cons _ _ => simp
    have size := length_writeCompactSize_le pegouts.length
    simp only [writeVector, List.length_append]
    split_ifs at size <;> omega
  · simp

/-- A kernel takes at most 59.5 bytes per weight. -/
theorem length_serialize_le (hash : List UInt8 → ℕ) {kernel : KernelData} (inRange : kernel.InRange)
    (scripts : ∀ pegout ∈ kernel.pegouts, pegout.scriptPubKey ≠ []) :
    2 * kernel.serialize.length ≤ 119 * calcKernelWeight (kernel.toKernel hash).hasStealthExcess
      (kernel.toKernel hash).pegouts (kernel.toKernel hash).extraDataSize := by
  have fee := length_writeOption_money inRange.fee
  have pegin := length_writeOption_money inRange.pegin
  have pegouts := length_pegouts_le inRange.pegouts scripts
  have lockHeight : (writeOption (writeVarInt 32) kernel.lockHeight).length ≤ 5 := by
    cases kernel.lockHeight with
    | none => simp [writeOption]
    | some height => exact length_writeVarInt_le_room 32 height
  have extraData : 2 * (writeWhen (!·.isEmpty) writeBytes kernel.extraData).length ≤
      102 * extraBytesToWeight kernel.extraData.length := by
    unfold writeWhen
    split
    · rename_i nonempty
      have := add_length_writeBytes_le (by simpa using nonempty) (Nat.zero_le 8)
      omega
    · simp
  -- the stealth excess adds 33 bytes for one more weight
  have stealth : 2 * (writeOption Subtype.val kernel.stealthExcess).length + 238 ≤
      119 * (if kernel.stealthExcess.isSome then KERNEL_WITH_STEALTH_WEIGHT else BASE_KERNEL_WEIGHT) := by
    cases kernel.stealthExcess with
    | none => simp [writeOption, BASE_KERNEL_WEIGHT]
    | some excess => simp [writeOption, excess.property, KERNEL_WITH_STEALTH_WEIGHT, BASE_KERNEL_WEIGHT,
        STEALTH_EXCESS_WEIGHT]
  have weights : (kernel.toKernel hash).pegouts.map (fun pegout => extraBytesToWeight pegout.scriptPubKeySize) =
      kernel.pegouts.map fun pegout => extraBytesToWeight pegout.scriptPubKey.length := by
    simp [toKernel]
  have hasStealth : (kernel.toKernel hash).hasStealthExcess = kernel.stealthExcess.isSome := rfl
  have extraDataSize : (kernel.toKernel hash).extraDataSize = kernel.extraData.length := rfl
  simp only [calcKernelWeight, weights, hasStealth, extraDataSize, serialize, List.length_append,
    List.length_singleton, kernel.excess.property, kernel.signature.property]
  omega

end KernelData

namespace OutputData

theorem length_serialize_le (computeHash : OutputData → ℕ) (output : OutputData) :
    2 * output.serialize.length ≤ 119 * calcOutputWeight (output.toOutput computeHash).hasStandardFields
      (output.toOutput computeHash).extraDataSize := by
  have extraData := length_writeBytes_le output.message.extraData
  -- the standard fields add 58 bytes for one more weight; the extra data is bounded on its own
  cases standard : hasFeature output.message.features OutputMessageData.STANDARD_FIELDS_FEATURE_BIT <;>
    cases extra : hasFeature output.message.features OutputMessageData.EXTRA_DATA_FEATURE_BIT <;>
    simp [serialize, OutputMessageData.serialize, toOutput, calcOutputWeight, standard, extra,
      output.commitment.property, output.senderPubKey.property, output.receiverPubKey.property,
      output.proof.property, output.signature.property, output.message.keyExchangePubKey.property,
      output.message.maskedNonce.property, STANDARD_OUTPUT_WEIGHT, BASE_OUTPUT_WEIGHT,
      STANDARD_OUTPUT_FIELDS_WEIGHT] <;> omega

end OutputData

namespace InputData

theorem length_serialize_le (input : InputData) :
    2 * input.serialize.length ≤ 2 * (INPUT_BYTES + 1) + 119 * calcInputWeight input.toInput.extraDataSize := by
  have extraData := length_writeBytes_le input.extraData
  have inputPubKey : (writeOption Subtype.val input.inputPubKey).length ≤ 33 := by
    cases input.inputPubKey with
    | none => simp [writeOption]
    | some key => simp [writeOption, key.property]
  simp only [serialize, toInput, calcInputWeight, INPUT_BYTES, List.length_append, List.length_singleton,
    input.outputId.property, input.commitment.property, input.outputPubKey.property, input.signature.property]
  split_ifs <;> simp <;> omega

end InputData

theorem HeaderData.length_serialize_le (header : HeaderData) : header.serialize.length ≤ 185 := by
  have height := length_writeVarInt_le_room 32 header.height
  have outputs := length_writeVarInt_le_room 64 header.outputMMRSize
  have kernels := length_writeVarInt_le_room 64 header.kernelMMRSize
  simp only [HeaderData.serialize, List.length_append, header.outputRoot.property, header.kernelRoot.property,
    header.leafsetRoot.property, header.kernelOffset.property, header.stealthOffset.property]
  omega

namespace TxBodyData

/-- Twice the bytes of a body are at most twice its vector sizes, `2 * (INPUT_BYTES + 1)` per
input and 119 per weight. -/
theorem length_serialize_le (hash : List UInt8 → ℕ) (computeHash : OutputData → ℕ) (body : TxBodyData)
    (inRange : ∀ kernel ∈ body.kernels, kernel.InRange)
    (scripts : ∀ kernel ∈ body.kernels, ∀ pegout ∈ kernel.pegouts, pegout.scriptPubKey ≠ []) :
    2 * body.serialize.length ≤
      2 * ((writeCompactSize body.inputs.length).length + (writeCompactSize body.outputs.length).length +
        (writeCompactSize body.kernels.length).length) +
      2 * (INPUT_BYTES + 1) * body.inputs.length + 119 * calculate (body.toTxBody hash computeHash) := by
  have inputs : 2 * (body.inputs.flatMap InputData.serialize).length ≤
      (body.inputs.map fun input => 2 * (INPUT_BYTES + 1) + 119 * calcInputWeight input.toInput.extraDataSize).sum :=
    two_mul_length_flatMap_le fun input _ => input.length_serialize_le
  have outputs : 2 * (body.outputs.flatMap OutputData.serialize).length ≤
      (body.outputs.map fun output => 119 * calcOutputWeight (output.toOutput computeHash).hasStandardFields
        (output.toOutput computeHash).extraDataSize).sum :=
    two_mul_length_flatMap_le fun output _ => output.length_serialize_le computeHash
  have kernels : 2 * (body.kernels.flatMap KernelData.serialize).length ≤
      (body.kernels.map fun kernel => 119 * calcKernelWeight (kernel.toKernel hash).hasStealthExcess
        (kernel.toKernel hash).pegouts (kernel.toKernel hash).extraDataSize).sum :=
    two_mul_length_flatMap_le fun kernel mem =>
      KernelData.length_serialize_le hash (inRange kernel mem) (scripts kernel mem)
  simp only [List.sum_map_add, List.sum_map_mul_left, List.map_const', List.sum_replicate,
    smul_eq_mul] at inputs outputs kernels
  simp only [serialize, writeVector, List.length_append, calculate, toTxBody, List.map_map, Function.comp_def]
  nlinarith [inputs, outputs, kernels]

end TxBodyData

theorem calcOutputWeight_ge (standardFields : Bool) (extraDataSize : ℕ) :
    17 ≤ calcOutputWeight standardFields extraDataSize := by
  simp only [calcOutputWeight, STANDARD_OUTPUT_WEIGHT, BASE_OUTPUT_WEIGHT, STANDARD_OUTPUT_FIELDS_WEIGHT]
  split <;> omega

theorem calcKernelWeight_ge (hasStealthExcess : Bool) (pegouts : List PegOutCoin) (extraDataSize : ℕ) :
    2 ≤ calcKernelWeight hasStealthExcess pegouts extraDataSize := by
  simp only [calcKernelWeight, KERNEL_WITH_STEALTH_WEIGHT, BASE_KERNEL_WEIGHT, STEALTH_EXCESS_WEIGHT]
  split <;> omega

/-- A body of at most `MAX_NUM_INPUTS` inputs and `MAX_BLOCK_WEIGHT` weight, with its amounts
in `MoneyRange` and no empty peg-out script, serializes with any header within
`MAX_BLOCK_BYTES`. -/
theorem mweb_block_within_max_block_bytes (hash : List UInt8 → ℕ) (computeHash : OutputData → ℕ)
    (header : HeaderData) (body : TxBodyData)
    (fits : exceedsMaximum (body.toTxBody hash computeHash) = false)
    (inRange : ∀ kernel ∈ body.kernels, kernel.InRange)
    (scripts : ∀ kernel ∈ body.kernels, ∀ pegout ∈ kernel.pegouts, pegout.scriptPubKey ≠ []) :
    (header.serialize ++ body.serialize).length ≤ MAX_BLOCK_BYTES := by
  have headerSize := header.length_serialize_le
  have bodySize := body.length_serialize_le hash computeHash inRange scripts
  simp only [exceedsMaximum, Bool.or_eq_false_iff, decide_eq_false_iff_not, not_lt] at fits
  obtain ⟨fewInputs, light⟩ := fits
  have inputCount : body.inputs.length ≤ 50000 := by
    simpa [TxBodyData.toTxBody, MAX_NUM_INPUTS] using fewInputs
  -- outputs weigh at least 17 and kernels at least 2, which bounds how many there are
  have outputCount : 17 * body.outputs.length ≤ calculate (body.toTxBody hash computeHash) := by
    have each : 17 * (body.toTxBody hash computeHash).outputs.length ≤
        ((body.toTxBody hash computeHash).outputs.map fun output =>
          calcOutputWeight output.hasStandardFields output.extraDataSize).sum :=
      mul_length_le_sum fun _ _ => calcOutputWeight_ge _ _
    simp only [TxBodyData.toTxBody, List.length_map] at each
    simp only [calculate, TxBodyData.toTxBody]
    omega
  have kernelCount : 2 * body.kernels.length ≤ calculate (body.toTxBody hash computeHash) := by
    have each : 2 * (body.toTxBody hash computeHash).kernels.length ≤
        ((body.toTxBody hash computeHash).kernels.map fun kernel =>
          calcKernelWeight kernel.hasStealthExcess kernel.pegouts kernel.extraDataSize).sum :=
      mul_length_le_sum fun _ _ => calcKernelWeight_ge _ _ _
    simp only [TxBodyData.toTxBody, List.length_map] at each
    simp only [calculate, TxBodyData.toTxBody]
    omega
  have inputsSize : (writeCompactSize body.inputs.length).length ≤ 3 := by
    have := length_writeCompactSize_le body.inputs.length
    split_ifs at this <;> omega
  have outputsSize : (writeCompactSize body.outputs.length).length ≤ 3 := by
    have := length_writeCompactSize_le body.outputs.length
    unfold MAX_BLOCK_WEIGHT at light
    split_ifs at this <;> omega
  have kernelsSize : (writeCompactSize body.kernels.length).length ≤ 5 := by
    have := length_writeCompactSize_le body.kernels.length
    unfold MAX_BLOCK_WEIGHT at light
    split_ifs at this <;> omega
  unfold MAX_BLOCK_BYTES MAX_NUM_INPUTS MAX_BLOCK_WEIGHT INPUT_BYTES at *
  rw [List.length_append]
  omega

/-- A header of zeros. -/
def zeroHeader : HeaderData :=
  ⟨0, zeroBlob 32, zeroBlob 32, zeroBlob 32, zeroBlob 32, zeroBlob 32, 0, 0⟩

/-- A body of one kernel that pays a fee of 1000. -/
def feeBody : TxBodyData :=
  ⟨[], [], [⟨KernelData.FEE_FEATURE_BIT, some 1000, none, [], none, none, [], zeroBlob 33, zeroBlob 64⟩]⟩

theorem mweb_block_within_max_block_bytes_fee_body :
    exceedsMaximum (feeBody.toTxBody (fun _ => 0) fun _ => 0) = false ∧
      (∀ kernel ∈ feeBody.kernels, kernel.InRange) ∧
      (∀ kernel ∈ feeBody.kernels, ∀ pegout ∈ kernel.pegouts, pegout.scriptPubKey ≠ []) ∧
      (zeroHeader.serialize ++ feeBody.serialize).length ≤ MAX_BLOCK_BYTES := by
  have fits : exceedsMaximum (feeBody.toTxBody (fun _ => 0) fun _ => 0) = false := by decide
  have inRange : ∀ kernel ∈ feeBody.kernels, kernel.InRange := by
    intro kernel mem
    simp only [feeBody, List.mem_singleton] at mem
    subst mem
    refine ⟨fun fee same => ?_, fun _ absent => ?_, fun _ mem => ?_⟩
    · cases same
      decide
    · cases absent
    · cases mem
  have scripts : ∀ kernel ∈ feeBody.kernels, ∀ pegout ∈ kernel.pegouts, pegout.scriptPubKey ≠ [] := by
    simp [feeBody]
  exact ⟨fits, inRange, scripts,
    mweb_block_within_max_block_bytes (fun _ => 0) (fun _ => 0) zeroHeader feeBody fits inRange scripts⟩

/-- A peg-out with an empty script, which weighs nothing. -/
def emptyScriptPegOut : PegOutData := ⟨0, []⟩

/-- A body of one kernel with `count` peg-outs of empty scripts. -/
def pegOutFlood (count : ℕ) : TxBodyData :=
  ⟨[], [], [⟨KernelData.PEGOUT_FEATURE_BIT, none, none, List.replicate count emptyScriptPegOut, none,
    none, [], zeroBlob 33, zeroBlob 64⟩]⟩

/-- An input with the stealth-key and extra-data bits and no extra data. -/
def emptyExtraInput : InputData :=
  ⟨InputData.STEALTH_KEY_FEATURE_BIT ||| InputData.EXTRA_DATA_FEATURE_BIT, zeroBlob 32, zeroBlob 33,
    some (zeroBlob 33), zeroBlob 33, [], zeroBlob 64⟩

/-- However many peg-outs the flood has, it weighs as much as a bare kernel. -/
theorem calculate_pegOutFlood (hash : List UInt8 → ℕ) (computeHash : OutputData → ℕ) (count : ℕ) :
    calculate ((pegOutFlood count).toTxBody hash computeHash) = BASE_KERNEL_WEIGHT := by
  have pegOutWeight : extraBytesToWeight emptyScriptPegOut.scriptPubKey.length = 0 := by decide
  have noExtraData : extraBytesToWeight 0 = 0 := by decide
  simp only [calculate, pegOutFlood, TxBodyData.toTxBody, KernelData.toKernel, calcKernelWeight, List.map_nil,
    List.map_cons, List.map_replicate, pegOutWeight, List.sum_replicate, smul_zero, List.sum_nil, List.sum_cons,
    Option.isSome_none, Bool.false_eq_true, if_false, List.length_nil, noExtraData, Nat.add_zero, Nat.zero_add]

/-- Each empty-script peg-out takes two bytes: a zero amount and a zero script size. -/
theorem length_serialize_pegOutFlood {count : ℕ} (positive : 0 < count) :
    (pegOutFlood count).serialize.length = 101 + (writeCompactSize count).length + 2 * count := by
  have pegOutSize : emptyScriptPegOut.serialize.length = 2 := by decide
  have nonempty : (List.replicate count emptyScriptPegOut).isEmpty = false := by
    simp [Nat.pos_iff_ne_zero.mp positive]
  simp only [pegOutFlood, TxBodyData.serialize, KernelData.serialize, writeVector, writeWhen, writeOption,
    nonempty, Bool.not_false, if_true, List.length_append, List.length_flatMap, List.map_replicate, pegOutSize,
    List.sum_replicate, smul_eq_mul, List.flatMap_nil, List.flatMap_cons, List.length_nil, List.length_cons,
    List.length_replicate, List.isEmpty_nil, Bool.not_true, Bool.false_eq_true, if_false,
    (zeroBlob 33).property, (zeroBlob 64).property, Nat.zero_add]
  have sizes : (writeCompactSize 0).length = 1 ∧ (writeCompactSize 1).length = 1 := by decide
  omega

/-- The weight of the flood is that of a bare kernel, and its bytes overrun the block limit; an input
that the reader accepts takes a byte more than `INPUT_BYTES` at no weight. -/
theorem weight_admits_oversized_mweb_body :
    exceedsMaximum ((pegOutFlood 11000000).toTxBody (fun _ => 0) fun _ => 0) = false ∧
      (∀ kernel ∈ (pegOutFlood 11000000).kernels, kernel.InRange) ∧
      MAX_BLOCK_BYTES < (zeroHeader.serialize ++ (pegOutFlood 11000000).serialize).length ∧
      InputData.unserialize.run emptyExtraInput.serialize = some (emptyExtraInput, []) ∧
      emptyExtraInput.serialize.length = INPUT_BYTES + 1 ∧
      calcInputWeight emptyExtraInput.toInput.extraDataSize = 0 := by
  have weight : exceedsMaximum ((pegOutFlood 11000000).toTxBody (fun _ => 0) fun _ => 0) = false := by
    rw [exceedsMaximum, calculate_pegOutFlood]
    simp only [TxBodyData.toTxBody, pegOutFlood, List.map_nil, List.length_nil]
    decide
  have inRange : ∀ kernel ∈ (pegOutFlood 11000000).kernels, kernel.InRange := by
    intro kernel mem
    simp only [pegOutFlood, List.mem_singleton] at mem
    subst mem
    refine ⟨fun _ absent => ?_, fun _ absent => ?_, fun pegout mem => ?_⟩
    · cases absent
    · cases absent
    · rw [List.eq_of_mem_replicate mem]
      decide
  have size := length_serialize_pegOutFlood (by decide : 0 < 11000000)
  have countSize : (writeCompactSize 11000000).length = 5 := by decide
  have input := InputData.unserialize_roundTrips emptyExtraInput ⟨by decide, by decide, by decide⟩ []
  rw [List.append_nil] at input
  have inputSize : emptyExtraInput.serialize.length = INPUT_BYTES + 1 := by decide +kernel
  refine ⟨weight, inRange, ?_, input, inputSize, by decide⟩
  rw [List.length_append, size, countSize]
  unfold MAX_BLOCK_BYTES MAX_NUM_INPUTS INPUT_BYTES MAX_BLOCK_WEIGHT
  omega

end Mw

end Pussycoin
