import Pussycoin.Mw.Models
import Mathlib.Algebra.BigOperators.Group.List.Basic
import Mathlib.Algebra.Group.Hom.Defs
import Mathlib.Algebra.Order.Group.Int
import Mathlib.Data.List.Sort

/-! The sum checks of `KernelSumValidator::ValidateForTx` and `StealthSumValidator::Validate`,
and `Aggregation::Aggregate` against them. Commitments, public keys and blinding factors form
abelian groups, and the maps between them are homomorphisms, as secp256k1-zkp provides them.
Each check is an equation of sums. An aggregate of several transactions sorts the parts of all
of them, so its sums are the sums of theirs, and it is sorted. An aggregate of one
transaction is that transaction, sorted or not. -/
namespace Pussycoin.Mw

/-- The points and scalars the sum checks read. A kernel's excess and stealth excess, an
input's keys and an output's sender key are the points the part carries; a missing key is
zero. -/
structure Curve (C K B : Type) [AddCommGroup C] [AddCommGroup K] [AddCommGroup B] where
  commitment : ℕ → C
  excess : Kernel → C
  /-- `Commitment::Transparent(v)`, `v*H`. -/
  transparent : ℤ →+ C
  /-- `Commitment::Blinded(x, 0)`, `x*G`. -/
  blinded : B →+ C
  blindingFactor : ℕ → B
  blindingFactor_zero : blindingFactor 0 = 0
  /-- `PublicKeys::Calculate(x)`, `x*G`. -/
  publicKey : B →+ K
  senderPubKey : Output → K
  inputPubKey : Input → K
  outputPubKey : Input → K
  stealthExcess : Kernel → K

variable {C K B : Type} [AddCommGroup C] [AddCommGroup K] [AddCommGroup B] (curve : Curve C K B)

/-- `KernelSumValidator::ValidateSums`. `AddCommitments(positive, negative)` is the sum of the
first list less the sum of the second. -/
def validateSums (inputCommits outputCommits kernelCommits : List C) (offset : ℕ) (coinsAdded : ℤ) : Prop :=
  let sumUtxo := outputCommits.sum - inputCommits.sum
  let sumUtxo :=
    if 0 < coinsAdded then sumUtxo - curve.transparent coinsAdded
    else if coinsAdded < 0 then sumUtxo + curve.transparent |coinsAdded|
    else sumUtxo
  let sumExcess := kernelCommits.sum
  let sumExcess := if offset ≠ 0 then sumExcess + curve.blinded (curve.blindingFactor offset) else sumExcess
  sumUtxo = sumExcess

def validateForTx (tx : Transaction) : Prop :=
  validateSums curve (tx.body.inputs.map (curve.commitment ·.commitment))
    (tx.body.outputs.map (curve.commitment ·.commitment)) (tx.body.kernels.map curve.excess) tx.kernelOffset
    tx.body.getSupplyChange

/-- `StealthSumValidator::Validate`. -/
def validateStealthSums (stealthOffset : ℕ) (body : TxBody) : Prop :=
  let lhsTotal := (body.outputs.map curve.senderPubKey).sum + (body.inputs.map curve.inputPubKey).sum
  let rhsTotal := (body.kernels.map curve.stealthExcess).sum + (body.inputs.map curve.outputPubKey).sum
  let rhsTotal :=
    if stealthOffset ≠ 0 then rhsTotal + curve.publicKey (curve.blindingFactor stealthOffset) else rhsTotal
  lhsTotal = rhsTotal

instance [DecidableEq C] (tx : Transaction) : Decidable (validateForTx curve tx) := decEq _ _

instance [DecidableEq K] (stealthOffset : ℕ) (body : TxBody) :
    Decidable (validateStealthSums curve stealthOffset body) := decEq _ _

/-- Whatever the sign of the supply change and whether the offset is zero, the kernel sums say
that the outputs are the inputs, the supply change, the excesses and the offset. -/
theorem validateSums_iff {inputCommits outputCommits kernelCommits : List C} {offset : ℕ} {coinsAdded : ℤ} :
    validateSums curve inputCommits outputCommits kernelCommits offset coinsAdded ↔
      outputCommits.sum = inputCommits.sum + curve.transparent coinsAdded +
        (kernelCommits.sum + curve.blinded (curve.blindingFactor offset)) := by
  have utxo : (if 0 < coinsAdded then outputCommits.sum - inputCommits.sum - curve.transparent coinsAdded
      else if coinsAdded < 0 then outputCommits.sum - inputCommits.sum + curve.transparent |coinsAdded|
      else outputCommits.sum - inputCommits.sum) =
      outputCommits.sum - inputCommits.sum - curve.transparent coinsAdded := by
    split_ifs with positive negative
    · rfl
    · rw [abs_of_neg negative, map_neg, ← sub_eq_add_neg]
    · rw [show coinsAdded = 0 by omega, map_zero, sub_zero]
  have excess : (if offset ≠ 0 then kernelCommits.sum + curve.blinded (curve.blindingFactor offset)
      else kernelCommits.sum) = kernelCommits.sum + curve.blinded (curve.blindingFactor offset) := by
    split_ifs with nonzero
    · rfl
    · rw [not_not.mp nonzero, curve.blindingFactor_zero, map_zero, add_zero]
  simp only [validateSums, utxo, excess]
  rw [sub_sub, sub_eq_iff_eq_add, add_comm]

theorem validateStealthSums_iff {stealthOffset : ℕ} {body : TxBody} :
    validateStealthSums curve stealthOffset body ↔
      (body.outputs.map curve.senderPubKey).sum + (body.inputs.map curve.inputPubKey).sum =
        (body.kernels.map curve.stealthExcess).sum + (body.inputs.map curve.outputPubKey).sum +
          curve.publicKey (curve.blindingFactor stealthOffset) := by
  simp only [validateStealthSums]
  split_ifs with nonzero
  · rfl
  · rw [not_not.mp nonzero, curve.blindingFactor_zero, map_zero, add_zero]

/-! ### Sorting -/

theorem isSorted_of_isChain {α : Type} {comp : α → α → Bool} :
    ∀ {l : List α}, l.IsChain (fun a b => (!comp b a) = true) → isSorted comp l = true
  | [], _ => rfl
  | [_], _ => rfl
  | a :: b :: rest, chain => by
    obtain ⟨first, others⟩ := List.isChain_cons_cons.mp chain
    simp only [isSorted, first, isSorted_of_isChain others, Bool.and_self]

/-- What `std::sort` returns is sorted for `std::is_sorted`, under a strict weak order: one
where no two elements come before each other, and where an element before another is also
before or after any third. -/
theorem isSorted_sortBy {α : Type} {comp : α → α → Bool}
    (asymm : ∀ a b, comp a b = true → comp b a = false)
    (negTrans : ∀ a b c, comp c a = true → comp b a = true ∨ comp c b = true) (l : List α) :
    isSorted comp (sortBy comp l) = true := by
  have total : Std.Total fun a b : α => (!comp b a) = true := by
    constructor
    intro a b
    cases before : comp b a
    · exact Or.inl rfl
    · exact Or.inr (by simp [asymm b a before])
  have trans : IsTrans α fun a b => (!comp b a) = true := by
    constructor
    intro a b c first second
    cases after : comp c a
    · rfl
    · simp only [Bool.not_eq_eq_eq_not, Bool.not_true] at first second
      rcases negTrans a b c after with before | before <;> simp_all
  exact isSorted_of_isChain (List.pairwise_insertionSort _ l).isChain

theorem inputSort_asymm (a b : Input) (before : inputSort a b = true) : inputSort b a = false := by
  simp only [inputSort, decide_eq_true_eq, decide_eq_false_iff_not] at before ⊢
  omega

theorem inputSort_negTrans (a b c : Input) (before : inputSort c a = true) :
    inputSort b a = true ∨ inputSort c b = true := by
  simp only [inputSort, decide_eq_true_eq] at before ⊢
  omega

theorem outputSort_asymm (a b : Output) (before : outputSort a b = true) : outputSort b a = false := by
  simp only [outputSort, decide_eq_true_eq, decide_eq_false_iff_not] at before ⊢
  omega

theorem outputSort_negTrans (a b c : Output) (before : outputSort c a = true) :
    outputSort b a = true ∨ outputSort c b = true := by
  simp only [outputSort, decide_eq_true_eq] at before ⊢
  omega

theorem kernelSort_asymm (a b : Kernel) (before : kernelSort a b = true) : kernelSort b a = false := by
  simp only [kernelSort, Bool.or_eq_true, Bool.and_eq_true, decide_eq_true_eq, beq_iff_eq,
    Bool.or_eq_false_iff, Bool.and_eq_false_iff, decide_eq_false_iff_not, beq_eq_false_iff_ne] at before ⊢
  omega

theorem kernelSort_negTrans (a b c : Kernel) (before : kernelSort c a = true) :
    kernelSort b a = true ∨ kernelSort c b = true := by
  simp only [kernelSort, Bool.or_eq_true, Bool.and_eq_true, decide_eq_true_eq, beq_iff_eq] at before ⊢
  omega

/-! ### Aggregation -/

theorem sum_map_sortBy_flatMap {α β M : Type} [AddCommMonoid M] (comp : β → β → Bool) (parts : α → List β)
    (g : β → M) (l : List α) :
    ((sortBy comp (l.flatMap parts)).map g).sum = (l.map fun a => ((parts a).map g).sum).sum := by
  rw [sortBy, ((List.perm_insertionSort _ _).map g).sum_eq]
  simp [List.flatMap, List.map_flatten, List.sum_flatten, Function.comp_def]

theorem aggregate_of_two_le (crypto : Crypto) {txs : List Transaction} (several : 2 ≤ txs.length) :
    aggregate crypto txs =
      Transaction.create (crypto.addBlindingFactors (txs.map (·.kernelOffset)))
        (crypto.addBlindingFactors (txs.map (·.stealthOffset))) (txs.flatMap (·.body.inputs))
        (txs.flatMap (·.body.outputs)) (txs.flatMap (·.body.kernels)) := by
  match txs, several with
  | _ :: _ :: _, _ => rfl

section Aggregate

variable (crypto : Crypto) {txs : List Transaction} (several : 2 ≤ txs.length)
include several

theorem getSupplyChange_aggregate :
    (aggregate crypto txs).body.getSupplyChange = (txs.map (·.body.getSupplyChange)).sum := by
  rw [aggregate_of_two_le crypto several]
  exact sum_map_sortBy_flatMap _ _ _ _

theorem getTotalFee_aggregate :
    (aggregate crypto txs).body.getTotalFee = (txs.map (·.body.getTotalFee)).sum := by
  rw [aggregate_of_two_le crypto several]
  exact sum_map_sortBy_flatMap _ _ _ _

theorem calculate_aggregate :
    Weight.calculate (aggregate crypto txs).body = (txs.map (Weight.calculate ·.body)).sum := by
  simp only [aggregate_of_two_le crypto several, Weight.calculate, Transaction.create, sum_map_sortBy_flatMap,
    List.sum_map_add]

theorem isSorted_aggregate :
    (isSorted inputSort (aggregate crypto txs).body.inputs && isSorted outputSort (aggregate crypto txs).body.outputs &&
      isSorted kernelSort (aggregate crypto txs).body.kernels) = true := by
  simp only [aggregate_of_two_le crypto several, Transaction.create, isSorted_sortBy inputSort_asymm inputSort_negTrans,
    isSorted_sortBy outputSort_asymm outputSort_negTrans, isSorted_sortBy kernelSort_asymm kernelSort_negTrans,
    Bool.and_self]

/-- The kernel sums of the parts add up to those of the aggregate, where adding blinding
factors is adding in the group. -/
theorem validateForTx_aggregate
    (adds : ∀ offsets, curve.blindingFactor (crypto.addBlindingFactors offsets) = (offsets.map curve.blindingFactor).sum)
    (sums : ∀ tx ∈ txs, validateForTx curve tx) : validateForTx curve (aggregate crypto txs) := by
  have each := fun tx mem => (validateSums_iff curve).mp (sums tx mem)
  rw [validateForTx, validateSums_iff, getSupplyChange_aggregate crypto several, aggregate_of_two_le crypto several]
  simp only [Transaction.create, sum_map_sortBy_flatMap, List.map_congr_left each, List.sum_map_add, adds,
    map_list_sum, List.map_map, Function.comp_def]

theorem validateStealthSums_aggregate
    (adds : ∀ offsets, curve.blindingFactor (crypto.addBlindingFactors offsets) = (offsets.map curve.blindingFactor).sum)
    (sums : ∀ tx ∈ txs, validateStealthSums curve tx.stealthOffset tx.body) :
    validateStealthSums curve (aggregate crypto txs).stealthOffset (aggregate crypto txs).body := by
  have each := fun tx mem => (validateStealthSums_iff curve).mp (sums tx mem)
  rw [validateStealthSums_iff, aggregate_of_two_le crypto several]
  simp only [Transaction.create, sum_map_sortBy_flatMap, adds, map_list_sum, List.map_map, Function.comp_def]
  rw [← List.sum_map_add, List.map_congr_left each, List.sum_map_add, List.sum_map_add]

theorem parts_aggregate_perm :
    (aggregate crypto txs).body.inputs.Perm (txs.flatMap (·.body.inputs)) ∧
      (aggregate crypto txs).body.outputs.Perm (txs.flatMap (·.body.outputs)) ∧
      (aggregate crypto txs).body.kernels.Perm (txs.flatMap (·.body.kernels)) := by
  rw [aggregate_of_two_le crypto several]
  exact ⟨List.perm_insertionSort _ _, List.perm_insertionSort _ _, List.perm_insertionSort _ _⟩

end Aggregate

/-- A curve over the integers, in which each kernel's excess is minus its supply change and
every key is zero. -/
def integerCurve : Curve ℤ ℤ ℤ where
  commitment n := n
  excess kernel := -kernel.getSupplyChange
  transparent := AddMonoidHom.id ℤ
  blinded := AddMonoidHom.id ℤ
  blindingFactor n := n
  blindingFactor_zero := rfl
  publicKey := 0
  senderPubKey _ := 0
  inputPubKey _ := 0
  outputPubKey _ := 0
  stealthExcess _ := 0

/-- Checks of the curve that accept everything, and add blinding factors as numbers. -/
def summingCrypto : Crypto := { acceptingCrypto with addBlindingFactors := List.sum }

def feeTx : Transaction := ⟨0, 0, ⟨[], [], [⟨1, some 1, none, [], false, 0⟩]⟩⟩

def plainTx : Transaction := ⟨0, 0, ⟨[], [], [⟨2, none, none, [], false, 0⟩]⟩⟩

/-- A transaction whose kernel with a fee of one comes before its kernel without a fee, which
`KernelSort` puts first. -/
def unsortedTx : Transaction := ⟨0, 0, ⟨[], [], [⟨1, some 1, none, [], false, 0⟩, ⟨2, none, none, [], false, 0⟩]⟩⟩

end Pussycoin.Mw
