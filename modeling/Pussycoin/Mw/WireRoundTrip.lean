import Pussycoin.Mw.Wire

/-! Round trips of the MWEB wire format. `Kernel::Serialize` decides what to write from
which fields are present, and `Kernel::Unserialize` decides what to read from the feature
bits. A kernel whose bits agree with its fields and whose values are in range reads back;
a stream that is read writes back, unless a peg-out or extra-data bit came with an empty
vector. Inputs and output messages write under their bits, and read back when the fields
under clear bits are the reader's defaults; bodies and transactions read back part by part. -/
namespace Pussycoin.Mw

open Codec Serialize

theorem readBlob_roundTrips (n : ℕ) : RoundTrips Subtype.val (readBlob n) fun _ => True :=
  fun blob _ rest => run_readExactly_append blob.val rest blob.property

theorem readBlob_canonical (n : ℕ) : Canonical Subtype.val (readBlob n) :=
  fun _ _ _ reads => run_readExactly_eq_some reads

theorem readVarInt64_roundTrips :
    RoundTrips (writeVarInt 64) (Int.ofNat <$> readVarInt INT64_MAX) fun n => 0 ≤ n ∧ n ≤ INT64_MAX :=
  readVarInt_int_roundTrips (by decide) (by decide)

theorem readVarInt64_canonical : Canonical (writeVarInt 64) (Int.ofNat <$> readVarInt INT64_MAX) :=
  readVarInt_int_canonical (by decide) (by decide) (by decide)

theorem readVarInt32_canonical : Canonical (writeVarInt 32) (Int.ofNat <$> readVarInt INT32_MAX) :=
  readVarInt_int_canonical (by decide) (by decide) (by decide)

theorem readVarInt32_roundTrips :
    RoundTrips (writeVarInt 32) (Int.ofNat <$> readVarInt INT32_MAX) fun n => 0 ≤ n ∧ n ≤ INT32_MAX :=
  readVarInt_int_roundTrips (by decide) (by decide)

namespace PegOutData

/-- A peg-out whose amount and script its reader accepts. -/
def Encodable (pegout : PegOutData) : Prop :=
  0 ≤ pegout.amount ∧ pegout.amount ≤ INT64_MAX ∧ pegout.scriptPubKey ≠ [] ∧
    pegout.scriptPubKey.length ≤ MAX_SIZE

theorem unserialize_roundTrips : RoundTrips serialize unserialize Encodable := by
  rintro ⟨amount, scriptPubKey⟩ ⟨nonneg, small, nonempty, short⟩ rest
  dsimp only at nonneg small nonempty short
  obtain ⟨m, rfl⟩ := Int.eq_ofNat_of_zero_le nonneg
  have amountBytes := readVarInt_varIntBytes INT64_MAX (show m ≤ INT64_MAX by omega)
  rw [← writeVarInt_eq 64 m (by unfold INT64_MAX at small; omega) (by decide)] at amountBytes
  simp [serialize, unserialize, amountBytes, readBytes_roundTrips scriptPubKey short rest, nonempty]

theorem unserialize_canonical : Canonical serialize unserialize := by
  intro stream pegout rest reads
  simp only [unserialize, run_bind, Option.bind_eq_some_iff] at reads
  obtain ⟨⟨amount, middle⟩, readsAmount, ⟨scriptPubKey, rest'⟩, readsScript, checked⟩ := reads
  split at checked
  · cases checked
  · obtain ⟨rfl, rfl⟩ := Prod.mk.inj (Option.some.inj checked)
    have small := readVarIntFrom_le (by decide) stream 0 amount middle readsAmount
    rw [serialize, writeVarInt_eq 64 amount (by unfold INT64_MAX at small; omega) (by decide),
      List.append_assoc, readBytes_canonical middle scriptPubKey rest' readsScript]
    exact readVarInt_canonical INT64_MAX stream amount middle readsAmount

end PegOutData

namespace KernelData

/-- The feature bits say which fields are present. -/
structure Agrees (kernel : KernelData) : Prop where
  fee : hasFeature kernel.features FEE_FEATURE_BIT = kernel.fee.isSome
  pegin : hasFeature kernel.features PEGIN_FEATURE_BIT = kernel.pegin.isSome
  pegouts : hasFeature kernel.features PEGOUT_FEATURE_BIT = !kernel.pegouts.isEmpty
  lockHeight : hasFeature kernel.features HEIGHT_LOCK_FEATURE_BIT = kernel.lockHeight.isSome
  stealthExcess : hasFeature kernel.features STEALTH_EXCESS_FEATURE_BIT = kernel.stealthExcess.isSome
  extraData : hasFeature kernel.features EXTRA_DATA_FEATURE_BIT = !kernel.extraData.isEmpty

/-- Every field is in the range its reader accepts. -/
structure Encodable (kernel : KernelData) : Prop where
  fee : ∀ fee, kernel.fee = some fee → 0 ≤ fee ∧ fee ≤ INT64_MAX
  pegin : ∀ pegin, kernel.pegin = some pegin → 0 ≤ pegin ∧ pegin ≤ INT64_MAX
  pegouts : kernel.pegouts.length ≤ MAX_SIZE ∧ ∀ pegout ∈ kernel.pegouts, pegout.Encodable
  lockHeight : ∀ height, kernel.lockHeight = some height → 0 ≤ height ∧ height ≤ INT32_MAX
  extraData : kernel.extraData.length ≤ MAX_SIZE

theorem unserialize_serialize (kernel : KernelData) (agrees : kernel.Agrees) (encodable : kernel.Encodable)
    (rest : List UInt8) : unserialize.run (kernel.serialize ++ rest) = some (kernel, rest) := by
  have fee := readOption_roundTrips readVarInt64_roundTrips agrees.fee encodable.fee
  have pegin := readOption_roundTrips readVarInt64_roundTrips agrees.pegin encodable.pegin
  have pegouts := readWhen_roundTrips (readVector_roundTrips PegOutData.unserialize_roundTrips)
    (fun pegouts => !pegouts.isEmpty) agrees.pegouts (fun _ => encodable.pegouts)
    (by simp : (!kernel.pegouts.isEmpty) = false → kernel.pegouts = [])
  have lockHeight := readOption_roundTrips readVarInt32_roundTrips agrees.lockHeight encodable.lockHeight
  have stealthExcess := readOption_roundTrips (readBlob_roundTrips 33) agrees.stealthExcess
    (fun _ _ => trivial)
  have extraData := readWhen_roundTrips readBytes_roundTrips (fun extraData => !extraData.isEmpty)
    agrees.extraData (fun _ => encodable.extraData)
    (by simp : (!kernel.extraData.isEmpty) = false → kernel.extraData = [])
  simp only [unserialize, serialize, run_bind, List.append_assoc, List.cons_append, run_readOne_cons,
    Option.bind_some, fee, pegin, pegouts, lockHeight, stealthExcess, extraData,
    readBlob_roundTrips 33 kernel.excess trivial, readBlob_roundTrips 64 kernel.signature trivial,
    List.nil_append, run_pure]

/-- The flag of a vector read under `readWhen` is its presence, unless the flag came with an
empty vector. -/
theorem readWhen_flag {α : Type} {read : Reader UInt8 (List α)} {flag : Bool} {stream rest : List UInt8}
    {l : List α} (reads : (readWhen flag read []).run stream = some (l, rest)) (nonempty : flag = true → l ≠ []) :
    flag = !l.isEmpty := by
  cases flag with
  | false =>
    simp only [readWhen, Bool.false_eq_true, if_false, run_pure, Option.some.injEq, Prod.mk.injEq] at reads
    simp [← reads.1]
  | true => simpa using nonempty rfl

/-- A stream that the reader accepts is the writing of the kernel it read, unless the
peg-out or the extra-data bit came with an empty vector, which the writer leaves out. -/
theorem serialize_unserialize {stream rest : List UInt8} {kernel : KernelData}
    (reads : unserialize.run stream = some (kernel, rest))
    (pegouts : hasFeature kernel.features PEGOUT_FEATURE_BIT = true → kernel.pegouts ≠ [])
    (extraData : hasFeature kernel.features EXTRA_DATA_FEATURE_BIT = true → kernel.extraData ≠ []) :
    kernel.serialize ++ rest = stream := by
  match stream with
  | [] => simp [unserialize] at reads
  | features :: stream =>
    simp only [unserialize, run_bind, run_readOne_cons, Option.bind_some, Option.bind_eq_some_iff,
      run_pure, Option.some.injEq] at reads
    obtain ⟨⟨fee, s1⟩, readsFee, ⟨pegin, s2⟩, readsPegin, ⟨pegouts', s3⟩, readsPegouts,
      ⟨lockHeight, s4⟩, readsLock, ⟨stealthExcess, s5⟩, readsStealth, ⟨extraData', s6⟩, readsExtra,
      ⟨excess, s7⟩, readsExcess, ⟨signature, s8⟩, readsSignature, same⟩ := reads
    obtain ⟨rfl, rfl⟩ := Prod.mk.inj same
    dsimp only at readsPegin readsPegouts readsLock readsStealth readsExtra readsExcess readsSignature
    have pegoutsFlag := readWhen_flag readsPegouts pegouts
    have extraFlag := readWhen_flag readsExtra extraData
    simp only [serialize, List.append_assoc, List.cons_append]
    rw [readBlob_canonical 64 s7 signature s8 readsSignature,
      readBlob_canonical 33 s6 excess s7 readsExcess,
      readWhen_canonical readBytes_canonical (fun extraData => !extraData.isEmpty) readsExtra extraFlag,
      readOption_canonical (readBlob_canonical 33) readsStealth,
      readOption_canonical readVarInt32_canonical readsLock,
      readWhen_canonical (readVector_canonical PegOutData.unserialize_canonical)
        (fun pegouts => !pegouts.isEmpty) readsPegouts pegoutsFlag,
      readOption_canonical readVarInt64_canonical readsPegin,
      readOption_canonical readVarInt64_canonical readsFee]
    rfl

end KernelData

theorem KernelData.unserialize_roundTrips :
    RoundTrips KernelData.serialize KernelData.unserialize fun kernel => kernel.Agrees ∧ kernel.Encodable :=
  fun kernel admitted rest => kernel.unserialize_serialize admitted.1 admitted.2 rest

namespace InputData

/-- The stealth-key bit says whether there is an input key, the extra data is empty where
its bit is clear, and short enough for its reader. -/
structure Encodable (input : InputData) : Prop where
  stealthKey : hasFeature input.features STEALTH_KEY_FEATURE_BIT = input.inputPubKey.isSome
  extraData : hasFeature input.features EXTRA_DATA_FEATURE_BIT = false → input.extraData = []
  short : input.extraData.length ≤ MAX_SIZE

/-- Unlike a kernel's, an input's extra data is written under its bit, so an empty vector
under a set bit reads back too. -/
theorem unserialize_roundTrips : RoundTrips serialize unserialize Encodable := by
  intro input encodable rest
  -- the stealth key is written under its bit, which is the key's presence
  have keyBytes : (if hasFeature input.features STEALTH_KEY_FEATURE_BIT then
      writeOption Subtype.val input.inputPubKey else []) = writeOption Subtype.val input.inputPubKey := by
    have stealthKey := encodable.stealthKey
    cases key : input.inputPubKey <;> simp [key] at stealthKey ⊢ <;> simp [stealthKey, writeOption]
  have inputPubKey := readOption_roundTrips (readBlob_roundTrips 33) encodable.stealthKey (fun _ _ => trivial)
  have extra := readWhen_roundTrips readBytes_roundTrips
    (fun _ => hasFeature input.features EXTRA_DATA_FEATURE_BIT) rfl (fun _ => encodable.short) encodable.extraData
  simp only [writeWhen] at extra
  simp only [unserialize, serialize, keyBytes, run_bind, List.append_assoc, List.cons_append, run_readOne_cons,
    Option.bind_some, readBlob_roundTrips 32 input.outputId trivial, readBlob_roundTrips 33 input.commitment trivial,
    readBlob_roundTrips 33 input.outputPubKey trivial, inputPubKey, extra,
    readBlob_roundTrips 64 input.signature trivial, List.nil_append, run_pure]

end InputData

namespace OutputMessageData

/-- The fields under a clear bit are those of the message the reader starts from, and the
values are in the range of their readers. -/
structure Encodable (message default : OutputMessageData) : Prop where
  standard : hasFeature message.features STANDARD_FIELDS_FEATURE_BIT = false →
    (message.keyExchangePubKey, message.viewTag, message.maskedValue, message.maskedNonce) =
      (default.keyExchangePubKey, default.viewTag, default.maskedValue, default.maskedNonce)
  extraData : hasFeature message.features EXTRA_DATA_FEATURE_BIT = false → message.extraData = default.extraData
  maskedValue : message.maskedValue < 256 ^ 8
  short : message.extraData.length ≤ MAX_SIZE

theorem unserialize_roundTrips (default : OutputMessageData) :
    RoundTrips serialize (unserialize default) fun message => message.Encodable default := by
  intro message encodable rest
  -- the standard fields are read as one value under their bit
  have fields : RoundTrips (fun fields : Blob 33 × UInt8 × ℕ × Blob 16 =>
      fields.1.val ++ [fields.2.1] ++ writeLE 8 fields.2.2.1 ++ fields.2.2.2.val)
      (do
        let keyExchangePubKey ← readBlob 33
        let viewTag ← readOne
        let maskedValue ← readLE 8
        let maskedNonce ← readBlob 16
        pure (keyExchangePubKey, viewTag, maskedValue, maskedNonce))
      fun fields => fields.2.2.1 < 256 ^ 8 := by
    rintro ⟨key, tag, value, nonce⟩ small rest
    simp only [List.append_assoc, List.cons_append, List.nil_append, run_bind,
      readBlob_roundTrips 33 key trivial, Option.bind_some, run_readOne_cons, readLE_roundTrips 8 value small,
      readBlob_roundTrips 16 nonce trivial, run_pure]
  have standard := readWhen_roundTrips fields (fun _ => hasFeature message.features STANDARD_FIELDS_FEATURE_BIT)
    rfl (fun _ => encodable.maskedValue) encodable.standard
  have extra := readWhen_roundTrips readBytes_roundTrips
    (fun _ => hasFeature message.features EXTRA_DATA_FEATURE_BIT) rfl (fun _ => encodable.short) encodable.extraData
  simp only [writeWhen, List.append_assoc, List.cons_append, List.nil_append] at standard extra
  simp only [serialize, unserialize, List.append_assoc, List.cons_append, List.nil_append, run_bind,
    run_readOne_cons, Option.bind_some, standard, extra, run_pure]

end OutputMessageData

theorem OutputData.unserialize_roundTrips (default : OutputMessageData) :
    RoundTrips OutputData.serialize (OutputData.unserialize default) fun output =>
      output.message.Encodable default := by
  intro output encodable rest
  simp only [OutputData.serialize, OutputData.unserialize, List.append_assoc, run_bind,
    readBlob_roundTrips 33 output.commitment trivial, readBlob_roundTrips 33 output.senderPubKey trivial,
    readBlob_roundTrips 33 output.receiverPubKey trivial, Option.bind_some,
    OutputMessageData.unserialize_roundTrips default output.message encodable,
    readBlob_roundTrips 675 output.proof trivial, readBlob_roundTrips 64 output.signature trivial, run_pure]

/-- Every part of a body is one its reader gives back, and each vector is short enough for
its size to be read. -/
structure TxBodyData.Encodable (default : OutputMessageData) (body : TxBodyData) : Prop where
  inputs : body.inputs.length ≤ MAX_SIZE ∧ ∀ input ∈ body.inputs, input.Encodable
  outputs : body.outputs.length ≤ MAX_SIZE ∧ ∀ output ∈ body.outputs, output.message.Encodable default
  kernels : body.kernels.length ≤ MAX_SIZE ∧ ∀ kernel ∈ body.kernels, kernel.Agrees ∧ kernel.Encodable

theorem TxBodyData.unserialize_roundTrips (default : OutputMessageData) :
    RoundTrips TxBodyData.serialize (TxBodyData.unserialize default) (TxBodyData.Encodable default) := by
  intro body encodable rest
  have inputs := readVector_roundTrips InputData.unserialize_roundTrips body.inputs encodable.inputs
  have outputs := readVector_roundTrips (OutputData.unserialize_roundTrips default) body.outputs encodable.outputs
  have kernels := readVector_roundTrips KernelData.unserialize_roundTrips body.kernels encodable.kernels
  simp only [TxBodyData.serialize, TxBodyData.unserialize, List.append_assoc, run_bind, inputs, outputs, kernels,
    Option.bind_some, run_pure]

theorem TransactionData.unserialize_roundTrips (default : OutputMessageData) :
    RoundTrips TransactionData.serialize (TransactionData.unserialize default) fun tx =>
      tx.body.Encodable default := by
  intro tx encodable rest
  simp only [TransactionData.serialize, TransactionData.unserialize, List.append_assoc, run_bind,
    readBlob_roundTrips 32 tx.kernelOffset trivial, readBlob_roundTrips 32 tx.stealthOffset trivial,
    Option.bind_some, TxBodyData.unserialize_roundTrips default tx.body encodable, run_pure]

/-- The all-zero blob. -/
def zeroBlob (n : ℕ) : Blob n := ⟨List.replicate n 0, List.length_replicate⟩

/-- A kernel with the peg-out bit and no peg-outs: the features byte, a zero count, and
zero bytes for the excess and the signature. -/
def emptyPegOutsBytes : List UInt8 := [KernelData.PEGOUT_FEATURE_BIT, 0] ++ List.replicate 97 0

/-- The reader accepts the kernel, the writer leaves its peg-out count out, and the bytes
written are no kernel at all: its ID commits to bytes that were never received. -/
theorem kernel_wire_format_drops_empty_pegouts :
    ∃ kernel, KernelData.unserialize.run emptyPegOutsBytes = some (kernel, []) ∧
      kernel.serialize ≠ emptyPegOutsBytes ∧ KernelData.unserialize.run kernel.serialize = none :=
  ⟨⟨KernelData.PEGOUT_FEATURE_BIT, none, none, [], none, none, [], zeroBlob 33, zeroBlob 64⟩,
    by decide, by decide, by decide⟩

end Pussycoin.Mw
