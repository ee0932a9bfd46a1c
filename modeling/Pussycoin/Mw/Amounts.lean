import Pussycoin.Checked
import Pussycoin.Mw.WireRoundTrip

/-! The `CAmount` arithmetic of libmw (`Kernel::GetPegOutAmount` and `GetSupplyChange`,
`TxBody::GetPegInAmount`, `GetTotalFee` and `GetSupplyChange`, and the amount of
`KernelSumValidator::ValidateSums`) over `int64_t`, where a result out of range is signed
overflow. Where these computations have a value, it is the integer value of `Models`. The
reader takes fees, peg-ins and peg-out amounts up to `INT64_MAX`, and nothing before the
kernel sums bounds their totals. -/
namespace Pussycoin.Mw

open Checked Codec Serialize

def INT64_MIN : ℤ := -2 ^ 63

namespace Kernel

def getPegOutAmount64 (kernel : Kernel) : Option ℤ :=
  accumulate INT64_MIN INT64_MAX (fun pegout => some pegout.amount) 0 kernel.pegouts

def getSupplyChange64 (kernel : Kernel) : Option ℤ := do
  let net ← sub INT64_MIN INT64_MAX (kernel.pegin.getD 0) (kernel.fee.getD 0)
  sub INT64_MIN INT64_MAX net (← kernel.getPegOutAmount64)

theorem getPegOutAmount64_eq_some {kernel : Kernel} {v : ℤ} (sums : kernel.getPegOutAmount64 = some v) :
    v = kernel.getPegOutAmount := by
  rw [accumulate_eq_some (fun _ _ same => (Option.some.inj same).symm) sums, getPegOutAmount, zero_add]

/-- Peg-out amounts are not negative as the reader gives them, and then their sum overflows
exactly when the total passes `INT64_MAX`. -/
theorem getPegOutAmount64_of_nonneg {kernel : Kernel} (nonneg : ∀ pegout ∈ kernel.pegouts, 0 ≤ pegout.amount) :
    kernel.getPegOutAmount64 =
      if kernel.getPegOutAmount ≤ INT64_MAX then some kernel.getPegOutAmount else none := by
  rw [getPegOutAmount64, accumulate_of_nonneg (fun _ _ => rfl) nonneg (by decide) (by decide), zero_add,
    getPegOutAmount]

theorem getSupplyChange64_eq_some {kernel : Kernel} {v : ℤ} (sums : kernel.getSupplyChange64 = some v) :
    v = kernel.getSupplyChange := by
  simp only [getSupplyChange64, Option.bind_eq_bind, Option.bind_eq_some_iff, sub, within_eq_some] at sums
  obtain ⟨net, ⟨-, netEq⟩, pegouts, pegoutsSum, -, rfl⟩ := sums
  rw [← netEq, getPegOutAmount64_eq_some pegoutsSum, getSupplyChange]

end Kernel

namespace TxBody

def getPegInAmount64 (body : TxBody) : Option ℤ :=
  accumulate INT64_MIN INT64_MAX (fun kernel => some kernel.getPegIn) 0 body.kernels

def getTotalFee64 (body : TxBody) : Option ℤ :=
  accumulate INT64_MIN INT64_MAX (fun kernel => some (kernel.fee.getD 0)) 0 body.kernels

def getSupplyChange64 (body : TxBody) : Option ℤ :=
  accumulate INT64_MIN INT64_MAX Kernel.getSupplyChange64 0 body.kernels

theorem getPegInAmount64_of_nonneg {body : TxBody} (nonneg : ∀ kernel ∈ body.kernels, 0 ≤ kernel.getPegIn) :
    body.getPegInAmount64 =
      if body.getPegInAmount ≤ INT64_MAX then some body.getPegInAmount else none := by
  rw [getPegInAmount64, accumulate_of_nonneg (fun _ _ => rfl) nonneg (by decide) (by decide), zero_add,
    getPegInAmount]

theorem getTotalFee64_of_nonneg {body : TxBody} (nonneg : ∀ kernel ∈ body.kernels, 0 ≤ kernel.fee.getD 0) :
    body.getTotalFee64 = if body.getTotalFee ≤ INT64_MAX then some body.getTotalFee else none := by
  rw [getTotalFee64, accumulate_of_nonneg (fun _ _ => rfl) nonneg (by decide) (by decide), zero_add, getTotalFee]

theorem getSupplyChange64_eq_some {body : TxBody} {v : ℤ} (sums : body.getSupplyChange64 = some v) :
    v = body.getSupplyChange := by
  rw [accumulate_eq_some (fun _ _ => Kernel.getSupplyChange64_eq_some) sums, getSupplyChange, zero_add]

end TxBody

/-- The amount `KernelSumValidator::ValidateForTx` commits to transparently: the supply
change of the transaction, and `std::abs` of it where it is negative. -/
def transparentAmount64 (tx : Transaction) : Option ℤ := do
  let coinsAdded ← tx.body.getSupplyChange64
  if coinsAdded < 0 then within INT64_MIN INT64_MAX (-coinsAdded) else pure coinsAdded

theorem transparentAmount64_eq_some {tx : Transaction} {v : ℤ} (sums : transparentAmount64 tx = some v) :
    v = |tx.body.getSupplyChange| := by
  simp only [transparentAmount64, Option.bind_eq_bind, Option.bind_eq_some_iff] at sums
  obtain ⟨coinsAdded, change, amount⟩ := sums
  rw [← TxBody.getSupplyChange64_eq_some change]
  split at amount
  · rename_i negative
    obtain ⟨-, rfl⟩ := within_eq_some.mp amount
    rw [abs_of_neg negative]
  · rename_i nonneg
    cases amount
    rw [abs_of_nonneg (not_lt.mp nonneg)]

/-- A kernel that pays all of `INT64_MAX` as its fee and pegs out as much again, to a
script of one byte. -/
def overflowKernel : KernelData :=
  ⟨KernelData.FEE_FEATURE_BIT ||| KernelData.PEGOUT_FEATURE_BIT, some INT64_MAX, none, [⟨INT64_MAX, [0x51]⟩],
    none, none, [], zeroBlob 33, zeroBlob 64⟩

def overflowTx : TransactionData := ⟨zeroBlob 32, zeroBlob 32, ⟨[], [], [overflowKernel]⟩⟩

theorem overflowTx_encodable (default : OutputMessageData) : overflowTx.body.Encodable default := by
  refine ⟨⟨by decide, fun _ mem => by cases mem⟩, ⟨by decide, fun _ mem => by cases mem⟩,
    ⟨by decide, fun kernel mem => ?_⟩⟩
  simp only [overflowTx, List.mem_singleton] at mem
  subst mem
  refine ⟨⟨by decide, by decide, by decide, by decide, by decide, by decide⟩, ⟨?_, ?_, ?_, ?_, by decide⟩⟩
  · intro fee same
    cases same
    decide
  · intro _ absent
    cases absent
  · refine ⟨by decide, fun pegout mem => ?_⟩
    simp only [overflowKernel, List.mem_singleton] at mem
    subst mem
    unfold PegOutData.Encodable
    exact ⟨by decide, by decide, by decide, by decide⟩
  · intro _ absent
    cases absent

/-- The transaction reads back from its bytes and passes `TxBody::Validate` wherever the
curve accepts its signature, and it has no peg-ins for `CheckTransaction` to match. Its
supply change is `-2 * INT64_MAX`, so `ValidateForTx` overflows computing it. -/
theorem validated_supply_change_overflows (crypto : Crypto) (hash : List UInt8 → ℕ)
    (computeHash : OutputData → ℕ) (default : OutputMessageData)
    (signed : crypto.verifySignatures (overflowTx.toTransaction hash computeHash).body = true)
    (proven : crypto.verifyRangeProofs (overflowTx.toTransaction hash computeHash).body = true) :
    (TransactionData.unserialize default).run overflowTx.serialize = some (overflowTx, []) ∧
      (overflowTx.toTransaction hash computeHash).body.validate crypto = .ok () ∧
      (overflowTx.toTransaction hash computeHash).body.getPegIns = [] ∧
      (overflowTx.toTransaction hash computeHash).body.getSupplyChange = -2 * INT64_MAX ∧
      (overflowTx.toTransaction hash computeHash).body.getSupplyChange64 = none := by
  have reads := TransactionData.unserialize_roundTrips default overflowTx (overflowTx_encodable default) []
  rw [List.append_nil] at reads
  have body : (overflowTx.toTransaction hash computeHash).body = ⟨[], [], [overflowKernel.toKernel hash]⟩ := rfl
  rw [body] at signed proven ⊢
  have weight : Weight.exceedsMaximum ⟨[], [], [overflowKernel.toKernel hash]⟩ = false := by
    simp only [Weight.exceedsMaximum, Weight.calculate, KernelData.toKernel, overflowKernel, List.map_cons,
      List.map_nil, List.sum_cons, List.sum_nil, List.length_nil]
    rfl
  have unique : containsDuplicates [(overflowKernel.toKernel hash).kernelId] = false := by
    simp [containsDuplicates]
  refine ⟨reads, ?_, rfl, ?_, ?_⟩
  · simp only [TxBody.validate, weight, TxBody.getKernelIDs, List.map_cons, List.map_nil, unique, signed, proven]
    rfl
  · simp only [TxBody.getSupplyChange, Kernel.getSupplyChange, Kernel.getPegOutAmount, KernelData.toKernel,
      overflowKernel, List.map_cons, List.map_nil, List.sum_cons, List.sum_nil]
    decide
  · simp only [TxBody.getSupplyChange64, accumulate_cons, Kernel.getSupplyChange64, Kernel.getPegOutAmount64,
      KernelData.toKernel, overflowKernel, List.map_cons, List.map_nil]
    decide

/-- A default-constructed output message: zero keys and values, and no extra data. -/
def zeroMessage : OutputMessageData := ⟨0, zeroBlob 33, 0, 0, zeroBlob 16, []⟩

theorem validated_supply_change_overflows_accepting :
    acceptingCrypto.verifySignatures (overflowTx.toTransaction (fun _ => 0) fun _ => 0).body = true ∧
      acceptingCrypto.verifyRangeProofs (overflowTx.toTransaction (fun _ => 0) fun _ => 0).body = true ∧
      (TransactionData.unserialize zeroMessage).run overflowTx.serialize = some (overflowTx, []) ∧
      (overflowTx.toTransaction (fun _ => 0) fun _ => 0).body.validate acceptingCrypto = .ok () ∧
      (overflowTx.toTransaction (fun _ => 0) fun _ => 0).body.getPegIns = [] ∧
      (overflowTx.toTransaction (fun _ => 0) fun _ => 0).body.getSupplyChange = -2 * INT64_MAX ∧
      (overflowTx.toTransaction (fun _ => 0) fun _ => 0).body.getSupplyChange64 = none :=
  ⟨rfl, rfl, validated_supply_change_overflows acceptingCrypto (fun _ => 0) (fun _ => 0) zeroMessage rfl rfl⟩

end Pussycoin.Mw
