import Pussycoin.Mw.CoinsView

/-! `mw::BlockBuilder` (`node/BlockBuilder.cpp`): transactions are staged one at a time
against a cache over the chain's view, and the block is built from all of them by a
further cache. -/
namespace Pussycoin.Mw

open Pussycoin.Mmr Runs

variable {Η : Type}

structure BlockBuilder (Η : Type) where
  height : ℕ
  weight : ℕ
  coinsView : CoinsView Η
  stagedTxs : List Transaction
  stagedOutputs : List ℕ

/-- What `AddTransaction` asks of the curve about `tx` staged after `staged`: the
transaction validates, and the staged commitments do not sum to zero. -/
def Crypto.Accepts (crypto : Crypto) (staged : List Transaction) (tx : Transaction) : Prop :=
  (tx.validate crypto).toBool = true ∧
    ∃ commit, crypto.addCommitments (tx.body.getInputCommits ++ staged.flatMap (·.body.getInputCommits))
      (tx.body.getOutputCommits ++ staged.flatMap (·.body.getOutputCommits)) = some commit ∧ commit ≠ 0

namespace BlockBuilder

def new (height : ℕ) (view : CoinsView Η) : BlockBuilder Η :=
  ⟨height, 0, .cache (CacheLayer.new view) view, [], []⟩

/-- `AddTransaction`: `some (false, builder)` where the source returns false, and `none`
where one of its assertions fails. The check that an input is not staged already is
commented out in the source. -/
def addTransaction (crypto : Crypto) (tx : Transaction) (pegins : List PegInCoin)
    (builder : BlockBuilder Η) : Option (Bool × BlockBuilder Η) :=
  let weight := Weight.calculate tx.body
  let peginIds := pegins.map (·.kernelId)
  if weight + builder.weight > Weight.MAX_BLOCK_WEIGHT then some (false, builder)
  else if tx.body.getPegInAmount ≠ (pegins.map (·.amount)).sum then some (false, builder)
  else if ¬ peginIds.Nodup then some (false, builder)
  else if tx.body.getPegIns.length ≠ pegins.length then some (false, builder)
  else if tx.body.getPegIns.any (fun pegin => pegin.kernelId ∉ peginIds) then some (false, builder)
  else if (tx.validate crypto).toBool = false then some (false, builder)
  else
    match crypto.addCommitments (tx.body.getInputCommits ++ builder.stagedTxs.flatMap (·.body.getInputCommits))
        (tx.body.getOutputCommits ++ builder.stagedTxs.flatMap (·.body.getOutputCommits)) with
    | none => some (false, builder)
    | some commit =>
      if commit = 0 then none
      else do
        let available ← tx.body.inputs.allM fun input => do
          let pUTXO ← builder.coinsView.getUTXO input.outputId
          pure (pUTXO.isSome || input.outputId ∈ builder.stagedOutputs)
        if !available then pure (false, builder)
        else do
          let fresh ← tx.body.outputs.allM fun output => do
            let pUTXO ← builder.coinsView.getUTXO output.outputId
            pure (pUTXO.isNone && output.outputId ∉ builder.stagedOutputs)
          if !fresh then pure (false, builder)
          else do
            let stagedOutputs ← tx.body.outputs.foldlM (fun staged output =>
              if output.outputId ∈ staged then none else some (staged ++ [output.outputId]))
              builder.stagedOutputs
            pure (true, { builder with
              stagedTxs := builder.stagedTxs ++ [tx]
              weight := builder.weight + weight
              stagedOutputs := stagedOutputs })

/-- `BuildBlock`. -/
def buildBlock [DecidableEq Η] (hashing : Hashing Η) (crypto : Crypto) (builder : BlockBuilder Η) :
    Result (Block Η) :=
  (CacheLayer.buildNextBlock hashing builder.coinsView crypto builder.height builder.stagedTxs
    (CacheLayer.new builder.coinsView)).map (·.2)

end BlockBuilder

/-! ### Staged transactions that spend one output twice -/

/-- The aggregate spends the inputs of the transactions, in some order. -/
theorem aggregate_inputs_perm (crypto : Crypto) (txs : List Transaction) :
    (aggregate crypto txs).body.inputs.Perm (txs.flatMap (·.body.inputs)) := by
  match txs with
  | [] => exact .nil
  | [tx] => simp [aggregate]
  | _ :: _ :: _ => exact List.perm_insertionSort _ _

/-- A built block passed the loop over the aggregate's inputs. -/
theorem CacheLayer.buildNextBlock_spends [DecidableEq Η] {hashing : Hashing Η} {base : CoinsView Η}
    {crypto : Crypto} {height : ℕ} {transactions : List Transaction} {layer : CacheLayer Η}
    {result : CacheLayer Η × Block Η}
    (built : buildNextBlock hashing base crypto height transactions layer = .ok result) :
    ∃ layer' spent, spendInputs base (aggregate crypto transactions).body.inputs layer' = .ok spent := by
  unfold buildNextBlock at built
  simp only [bind_eq_ok] at built
  obtain ⟨_, _, layer', _, spent, spentOk, _⟩ := built
  exact ⟨layer', spent, spentOk⟩

/-- Staged transactions that spend one output twice give no block: the aggregate spends it
twice, and the second spend finds it spent. -/
theorem buildBlock_of_double_spend [DecidableEq Η] (hashing : Hashing Η) (crypto : Crypto)
    (builder : BlockBuilder Η) (twice : ¬ ((builder.stagedTxs.flatMap (·.body.inputs)).map (·.outputId)).Nodup)
    (block : Block Η) : builder.buildBlock hashing crypto ≠ .ok block := by
  intro built
  unfold BlockBuilder.buildBlock at built
  cases next : CacheLayer.buildNextBlock hashing builder.coinsView crypto builder.height builder.stagedTxs
      (CacheLayer.new builder.coinsView) with
  | error e => simp [next, Except.map] at built
  | ok result =>
    obtain ⟨layer', spent, spentOk⟩ := CacheLayer.buildNextBlock_spends next
    have twice' : ¬ ((aggregate crypto builder.stagedTxs).body.inputs.map (·.outputId)).Nodup := by
      rwa [((aggregate_inputs_perm crypto builder.stagedTxs).map _).nodup_iff]
    exact CacheLayer.spendInputs_of_duplicate twice' spent spentOk

/-! ### A double spend staged twice -/

/-- A database view holding one coin, output 1 at leaf 0. -/
def oneCoinView : CoinsView (HashTerm ℕ) :=
  .db ⟨none, fun outputId => if outputId = 1 then some ⟨0, LeafIndex.at 0, ⟨1, 101, true, 0⟩⟩ else none,
    fun p => if p = 8 then 0x80 else 0, fun _ => none, 1, AppendOnlyFile.load [.leaf 0 1]⟩

/-- Two transactions that spend output 1, into outputs 2 and 3. -/
def spendTx (outputId kernelId : ℕ) : Transaction :=
  ⟨0, 0, ⟨[⟨1, 101, 0⟩], [⟨outputId, 100 + outputId, true, 0⟩], [⟨kernelId, some 0, none, [], false, 0⟩]⟩⟩

theorem block_builder_stages_double_spend (crypto : Crypto)
    (first : crypto.Accepts [] (spendTx 2 21)) (second : crypto.Accepts [spendTx 2 21] (spendTx 3 22)) :
    ∃ staged staged', (BlockBuilder.new 1 oneCoinView).addTransaction crypto (spendTx 2 21) [] =
        some (true, staged) ∧ staged.addTransaction crypto (spendTx 3 22) [] = some (true, staged') ∧
      staged'.buildBlock freeHashing crypto = throwValidation .UTXO_MISSING := by
  obtain ⟨valid, commit, summed, nonzero⟩ := first
  obtain ⟨valid', commit', summed', nonzero'⟩ := second
  refine ⟨⟨1, 0 + Weight.calculate (spendTx 2 21).body, .cache (CacheLayer.new oneCoinView) oneCoinView,
      [spendTx 2 21], [2]⟩,
    ⟨1, 0 + Weight.calculate (spendTx 2 21).body + Weight.calculate (spendTx 3 22).body,
      .cache (CacheLayer.new oneCoinView) oneCoinView, [spendTx 2 21, spendTx 3 22], [2, 3]⟩, ?_, ?_, ?_⟩
  · have nothingStaged : (BlockBuilder.new 1 oneCoinView).stagedTxs = [] := rfl
    unfold BlockBuilder.addTransaction
    rw [if_neg (by decide), if_neg (by decide), if_neg (by decide), if_neg (by decide),
      if_neg (by decide), if_neg (by simp [valid]), nothingStaged, summed]
    dsimp only
    rw [if_neg nonzero]
    rfl
  · unfold BlockBuilder.addTransaction
    rw [if_neg (by decide), if_neg (by decide), if_neg (by decide), if_neg (by decide),
      if_neg (by decide), if_neg (by simp [valid']), summed']
    dsimp only
    rw [if_neg nonzero']
    rfl
  · -- the second input finds the coin spent by the first
    unfold BlockBuilder.buildBlock CacheLayer.buildNextBlock
    rfl

theorem block_builder_stages_double_spend_accepting :
    acceptingCrypto.Accepts [] (spendTx 2 21) ∧ acceptingCrypto.Accepts [spendTx 2 21] (spendTx 3 22) ∧
      ∃ staged staged', (BlockBuilder.new 1 oneCoinView).addTransaction acceptingCrypto (spendTx 2 21) [] =
          some (true, staged) ∧ staged.addTransaction acceptingCrypto (spendTx 3 22) [] = some (true, staged') ∧
        staged'.buildBlock freeHashing acceptingCrypto = throwValidation .UTXO_MISSING :=
  have first : acceptingCrypto.Accepts [] (spendTx 2 21) := ⟨by decide, 1, rfl, by decide⟩
  have second : acceptingCrypto.Accepts [spendTx 2 21] (spendTx 3 22) := ⟨by decide, 1, rfl, by decide⟩
  ⟨first, second, block_builder_stages_double_spend acceptingCrypto first second⟩

end Pussycoin.Mw
