import Pussycoin.Mw.Models
import Pussycoin.Mmr.LeafSet
import Pussycoin.Runs

/-! The MWEB coins views of libmw (`node/CoinsView.h`, `CoinsViewCache.cpp`,
`CoinsViewDB.cpp`, `CoinActions.h`). A `CoinsViewDB` keeps its coins in the database, a
`LeafSet` and a `PMMR`; a `CoinsViewCache` keeps a best header, the actions on each output
id, and a `LeafSetCache` and a `PMMRCache` over the leaf set and PMMR of its base. A stack
of caches over a database view is one value of `CoinsView`, and the leaf sets and MMRs of
its layers are read off it as the stacks `LeafSetStack` and `MmrStack`. The methods of a
cache take its base and return its new fields. -/
namespace Pussycoin.Mw

open Pussycoin.Mmr Runs

structure CoinAction where
  pUTXO : Option UTXO
  deriving DecidableEq, Repr

def CoinAction.isSpend (action : CoinAction) : Bool := action.pUTXO.isNone

/-- `CoinsViewUpdates`: the actions on each output id in the order they were made, as an
association list. -/
structure CoinsViewUpdates where
  actions : List (ℕ × List CoinAction)
  deriving DecidableEq, Repr

namespace CoinsViewUpdates

def addActionTo : List (ℕ × List CoinAction) → ℕ → CoinAction → List (ℕ × List CoinAction)
  | [], outputId, action => [(outputId, [action])]
  | (key, actions) :: rest, outputId, action =>
    if key = outputId then (key, actions ++ [action]) :: rest
    else (key, actions) :: addActionTo rest outputId action

def addAction (updates : CoinsViewUpdates) (outputId : ℕ) (action : CoinAction) : CoinsViewUpdates :=
  ⟨addActionTo updates.actions outputId action⟩

def getActions (updates : CoinsViewUpdates) (outputId : ℕ) : List CoinAction :=
  (updates.actions.lookup outputId).getD []

def addUTXO (updates : CoinsViewUpdates) (utxo : UTXO) : CoinsViewUpdates :=
  updates.addAction utxo.getOutputID ⟨some utxo⟩

def spendUTXO (updates : CoinsViewUpdates) (outputId : ℕ) : CoinsViewUpdates :=
  updates.addAction outputId ⟨none⟩

def empty : CoinsViewUpdates := ⟨[]⟩

end CoinsViewUpdates

/-- The loop of `CoinsViewCache::GetUTXO` over the actions on one id, from what the base
returned; an action asserts that it adds to nothing or spends something. -/
def replay : Option UTXO → List CoinAction → Option (Option UTXO)
  | pUTXO, [] => some pUTXO
  | pUTXO, action :: rest =>
    match action.pUTXO with
    | some utxo => if pUTXO.isSome then none else replay (some utxo) rest
    | none => if pUTXO.isNone then none else replay none rest

/-- The fields of a `CoinsViewDB`: the coin table, the `LeafSet` and the hash file of the
output `PMMR`. -/
structure DbView (Η : Type) where
  header : Option (Header Η)
  coins : ℕ → Option UTXO
  leafSetFile : ℕ → UInt8
  leafSetModified : ℕ → Option UInt8
  leafSetNext : ℕ
  hashFile : AppendOnlyFile Η

/-- The fields of a `CoinsViewCache` beside its base: the top layers of its leaf set and of
its output PMMR. -/
structure CacheLayer (Η : Type) where
  header : Option (Header Η)
  updates : CoinsViewUpdates
  leafSetModified : ℕ → Option UInt8
  leafSetNext : ℕ
  firstLeaf : LeafIndex
  leaves : List (Leaf ℕ Η)
  nodes : List Η

inductive CoinsView (Η : Type)
  | db (view : DbView Η)
  | cache (layer : CacheLayer Η) (base : CoinsView Η)

variable {Η : Type}

namespace CoinsView

def getBestHeader : CoinsView Η → Option (Header Η)
  | db view => view.header
  | cache layer _ => layer.header

def getLeafSet : CoinsView Η → LeafSetStack
  | db view => .leafSet view.leafSetFile view.leafSetModified view.leafSetNext
  | cache layer base => .cache layer.leafSetModified layer.leafSetNext base.getLeafSet

def getOutputPMMR : CoinsView Η → MmrStack ℕ Η
  | db view => .pmmr view.hashFile
  | cache layer base => .pmmrCache layer.firstLeaf layer.leaves layer.nodes base.getOutputPMMR

/-- `GetUTXO`, with `none` for a failed assertion. -/
def getUTXO : CoinsView Η → ℕ → Option (Option UTXO)
  | db view, outputId => some (view.coins outputId)
  | cache layer base, outputId => (base.getUTXO outputId).bind (replay · (layer.updates.getActions outputId))

/-- A leaf-set stack of the same shape, written back into the layers. -/
def withLeafSet : CoinsView Η → LeafSetStack → CoinsView Η
  | db view, .leafSet mmap modifiedBytes next =>
    db { view with leafSetFile := mmap, leafSetModified := modifiedBytes, leafSetNext := next }
  | cache layer base, .cache modifiedBytes next backed =>
    cache { layer with leafSetModified := modifiedBytes, leafSetNext := next } (base.withLeafSet backed)
  | view, _ => view

/-- An MMR stack of the same shape, written back into the layers. -/
def withOutputPMMR : CoinsView Η → MmrStack ℕ Η → CoinsView Η
  | db view, .pmmr hashFile => db { view with hashFile }
  | cache layer base, .pmmrCache firstLeaf leaves nodes backed =>
    cache { layer with firstLeaf, leaves, nodes } (base.withOutputPMMR backed)
  | view, _ => view

end CoinsView

namespace CacheLayer

/-- `CoinsViewCache(pBase)`. -/
def new (base : CoinsView Η) : CacheLayer Η :=
  ⟨base.getBestHeader, .empty, fun _ => none, base.getLeafSet.nextLeafIdx,
    base.getOutputPMMR.getNextLeafIdx, [], []⟩

/-- The fields after a change of the leaf set of the cache. -/
def withLeafSet (layer : CacheLayer Η) : LeafSetStack → CacheLayer Η
  | .cache modifiedBytes next _ => { layer with leafSetModified := modifiedBytes, leafSetNext := next }
  | .leafSet .. => layer

/-- The fields after a change of the output PMMR of the cache. -/
def withOutputPMMR (layer : CacheLayer Η) : MmrStack ℕ Η → CacheLayer Η
  | .pmmrCache firstLeaf leaves nodes _ => { layer with firstLeaf, leaves, nodes }
  | _ => layer

section Methods

variable (hashing : Hashing Η) (base : CoinsView Η)

/-- `AddUTXO`. -/
def addUTXO (headerHeight : ℕ) (output : Output) (layer : CacheLayer Η) : Result (CacheLayer Η) := do
  let view := CoinsView.cache layer base
  let pUTXO ← asserted (view.getUTXO output.outputId)
  rejectIf (pUTXO.isSome = true) (.validation .DUPLICATES)
  let leafIdx := view.getOutputPMMR.getNextLeafIdx
  let outputPMMR ← asserted (view.getOutputPMMR.add hashing.output output.outputId)
  let leafSet := view.getLeafSet.add leafIdx.leafIndex
  pure { (layer.withOutputPMMR outputPMMR).withLeafSet leafSet with
    updates := layer.updates.addUTXO ⟨headerHeight, leafIdx, output⟩ }

/-- `SpendUTXO`. -/
def spendUTXO (outputId : ℕ) (layer : CacheLayer Η) : Result (CacheLayer Η × UTXO) := do
  let view := CoinsView.cache layer base
  let pUTXO ← asserted (view.getUTXO outputId)
  match pUTXO with
  | none => throwValidation .UTXO_MISSING
  | some utxo =>
    rejectIf (view.getLeafSet.contains utxo.leafIdx.leafIndex = false) (.validation .UTXO_MISSING)
    pure ({ layer.withLeafSet (view.getLeafSet.remove utxo.leafIdx.leafIndex) with
      updates := layer.updates.spendUTXO outputId }, utxo)

/-- The loop over a body's outputs, shared by `ApplyBlock`, `AddTx` and `BuildNextBlock`. -/
def addOutputs (headerHeight : ℕ) (outputs : List Output) (layer : CacheLayer Η) : Result (CacheLayer Η) :=
  outputs.foldlM (fun layer output => addUTXO hashing base headerHeight output layer) layer

/-- One pass of the loop over a body's inputs, which collects the coins it spent. -/
def spendInput (spent : CacheLayer Η × List UTXO) (input : Input) : Result (CacheLayer Η × List UTXO) := do
  let (layer, utxo) ← spendUTXO base input.outputId spent.1
  pure (layer, spent.2 ++ [utxo])

def spendInputs (inputs : List Input) (layer : CacheLayer Η) : Result (CacheLayer Η × List UTXO) :=
  inputs.foldlM (spendInput base) (layer, [])

variable [DecidableEq Η]

/-- The check that the header commits to the output PMMR and the leaf set of the view. -/
def checkRoots (header : Header Η) (layer : CacheLayer Η) : Result Unit := do
  let view := CoinsView.cache layer base
  let outputRoot ← asserted (view.getOutputPMMR.root hashing.output)
  rejectIf (header.outputRoot ≠ outputRoot ∨ header.outputMMRSize ≠ view.getOutputPMMR.getNumLeaves ∨
    header.leafsetRoot ≠ view.getLeafSet.root hashing.leafSet) (.validation .MMR_MISMATCH)

/-- `ApplyBlock`. -/
def applyBlock (crypto : Crypto) (block : Block Η) (layer : CacheLayer Η) :
    Result (CacheLayer Η × BlockUndo Η) := do
  let previousHeader := layer.header
  let layer := { layer with header := some block.header }
  let prevOffset := (previousHeader.map (·.kernelOffset)).getD 0
  rejectIf (crypto.kernelSumsForBlock block.body block.header.kernelOffset prevOffset = false)
    (.validation .BLOCK_SUMS)
  let layer ← addOutputs hashing base block.header.height block.body.outputs layer
  let (layer, coinsSpent) ← spendInputs base block.body.inputs layer
  checkRoots hashing base block.header layer
  pure (layer, ⟨previousHeader, coinsSpent, block.body.outputs.map (·.outputId)⟩)

def MEMPOOL_HEIGHT : ℕ := 0x7FFFFFFF

/-- `AddTx`. -/
def addTx (tx : Transaction) (layer : CacheLayer Η) : Result (CacheLayer Η) := do
  let layer ← addOutputs hashing base MEMPOOL_HEIGHT tx.body.outputs layer
  let (layer, _) ← spendInputs base tx.body.inputs layer
  pure layer

/-- `UndoBlock`. Without a previous header everything is rewound and nothing checked. -/
def undoBlock (undo : BlockUndo Η) (layer : CacheLayer Η) : Result (CacheLayer Η) := do
  let leavesToAdd := undo.coinsSpent.map (·.leafIdx.leafIndex)
  let updates := undo.coinsSpent.foldl CoinsViewUpdates.addUTXO layer.updates
  let layer := { layer with updates := undo.coinsAdded.foldl CoinsViewUpdates.spendUTXO updates }
  let view := CoinsView.cache layer base
  match undo.previousHeader with
  | none =>
    let outputPMMR ← asserted (view.getOutputPMMR.rewind hashing.output.zero 0)
    pure { (layer.withLeafSet (view.getLeafSet.rewind 0 [])).withOutputPMMR outputPMMR with header := none }
  | some header =>
    let outputPMMR ← asserted (view.getOutputPMMR.rewind hashing.output.zero header.outputMMRSize)
    let layer := { (layer.withLeafSet (view.getLeafSet.rewind header.outputMMRSize leavesToAdd)).withOutputPMMR
      outputPMMR with header := some header }
    checkRoots hashing base header layer
    pure layer

/-- `BuildNextBlock`. -/
def buildNextBlock (crypto : Crypto) (height : ℕ) (transactions : List Transaction) (layer : CacheLayer Η) :
    Result (CacheLayer Η × Block Η) := do
  let tx := aggregate crypto transactions
  let kernelMMR ← asserted (tx.body.kernels.foldlM (fun mmr kernel => mmr.add hashing.kernel kernel)
    (MmrStack.memMMR [] []))
  let layer ← addOutputs hashing base height tx.body.outputs layer
  let (layer, _) ← spendInputs base tx.body.inputs layer
  let view := CoinsView.cache layer base
  let outputRoot ← asserted (view.getOutputPMMR.root hashing.output)
  let kernelRoot ← asserted (kernelMMR.root hashing.kernel)
  let kernelOffset := match layer.header with
    | some header => crypto.addBlindingFactors [header.kernelOffset, tx.kernelOffset]
    | none => tx.kernelOffset
  pure (layer, ⟨⟨height, outputRoot, kernelRoot, view.getLeafSet.root hashing.leafSet, kernelOffset,
    tx.stealthOffset, view.getOutputPMMR.getNumLeaves, kernelMMR.getNumLeaves⟩, tx.body⟩)

end Methods

end CacheLayer

/-! ### Writing a cache into its base -/

/-- `CoinsViewCache::WriteBatch`: the actions are made again on the cache's own updates. -/
def CoinsViewUpdates.replayInto (target updates : CoinsViewUpdates) : CoinsViewUpdates :=
  updates.actions.foldl (fun target (outputId, actions) =>
    actions.foldl (fun target action =>
      match action.pUTXO with
      | none => target.spendUTXO outputId
      | some utxo => target.addUTXO utxo) target) target

/-- `CoinsViewDB::WriteBatch`, with the batch committed: a spend of a coin the table does
not hold throws. -/
def DbView.writeBatch (updates : CoinsViewUpdates) (header : Option (Header Η)) (view : DbView Η) :
    Result (DbView Η) := do
  let coins ← updates.actions.foldlM (fun coins (outputId, actions) =>
    actions.foldlM (fun coins action =>
      match action.pUTXO with
      | none =>
        if (coins outputId).isNone then throwValidation .UTXO_MISSING
        else pure (Function.update coins outputId none)
      | some utxo => pure (Function.update coins utxo.getOutputID (some utxo))) coins) view.coins
  pure { view with header, coins }

def CoinsView.writeBatch (updates : CoinsViewUpdates) (header : Option (Header Η)) :
    CoinsView Η → Result (CoinsView Η)
  | db view => (view.writeBatch updates header).map db
  | cache layer base => pure (cache { layer with header, updates := layer.updates.replayInto updates } base)

/-- `CoinsViewCache::Flush`: nothing happens without a best header; otherwise the updates,
the leaf set and the output PMMR are written into the base, and the cache is emptied. -/
def CacheLayer.flush (hashing : Hashing Η) (layer : CacheLayer Η) (base : CoinsView Η) :
    Result (CoinsView Η) :=
  match layer.header with
  | none => pure (.cache layer base)
  | some header => do
    let base ← base.writeBatch layer.updates (some header)
    let view := CoinsView.cache { layer with updates := .empty } base
    let outputPMMR ← asserted (view.getOutputPMMR.flush hashing.output)
    pure ((view.withLeafSet view.getLeafSet.flush).withOutputPMMR outputPMMR)

/-! ### The actions on an output id -/

namespace CoinsViewUpdates

theorem lookup_addActionTo (entries : List (ℕ × List CoinAction)) (outputId key : ℕ) (action : CoinAction) :
    ((addActionTo entries outputId action).lookup key).getD [] =
      if key = outputId then (entries.lookup key).getD [] ++ [action] else (entries.lookup key).getD [] := by
  induction entries with
  | nil =>
    by_cases same : key = outputId
    · subst same
      simp [addActionTo, List.lookup]
    · have miss : (key == outputId) = false := by simpa using same
      simp [addActionTo, List.lookup, miss, same]
  | cons entry rest ih =>
    obtain ⟨k, actions⟩ := entry
    by_cases here : key = k
    · subst here
      by_cases found : key = outputId
      · subst found
        simp [addActionTo, List.lookup]
      · simp [addActionTo, List.lookup, found]
    · have miss : (key == k) = false := by simpa using here
      by_cases found : k = outputId
      · subst found
        simp [addActionTo, List.lookup, miss, here]
      · simp only [addActionTo, found, if_false, List.lookup, miss]
        exact ih

@[simp] theorem getActions_addAction {updates : CoinsViewUpdates} {outputId key : ℕ} {action : CoinAction} :
    (updates.addAction outputId action).getActions key =
      if key = outputId then updates.getActions key ++ [action] else updates.getActions key :=
  lookup_addActionTo updates.actions outputId key action

@[simp] theorem getActions_empty {key : ℕ} : CoinsViewUpdates.empty.getActions key = [] := rfl

end CoinsViewUpdates

/-- Replaying two runs of actions is replaying the second from the first's result. -/
theorem replay_append (pUTXO : Option UTXO) (actions later : List CoinAction) :
    replay pUTXO (actions ++ later) = (replay pUTXO actions).bind (replay · later) := by
  induction actions generalizing pUTXO with
  | nil => rfl
  | cons action rest ih =>
    rcases action with ⟨_ | utxo⟩ <;> simp only [List.cons_append, replay] <;> split <;> simp [ih]

@[simp] theorem CacheLayer.updates_withLeafSet {layer : CacheLayer Η} {leafSet : LeafSetStack} :
    (layer.withLeafSet leafSet).updates = layer.updates := by
  cases leafSet <;> rfl

@[simp] theorem CacheLayer.updates_withOutputPMMR {layer : CacheLayer Η} {outputPMMR : MmrStack ℕ Η} :
    (layer.withOutputPMMR outputPMMR).updates = layer.updates := by
  cases outputPMMR <;> rfl

/-! ### Spending -/

namespace CacheLayer

variable {base : CoinsView Η} {layer layer' : CacheLayer Η} {outputId : ℕ} {utxo : UTXO}

/-- What a successful spend found, and the actions it leaves. -/
theorem spendUTXO_eq_ok (spent : spendUTXO base outputId layer = .ok (layer', utxo)) :
    (CoinsView.cache layer base).getUTXO outputId = some (some utxo) ∧
      layer'.updates = layer.updates.spendUTXO outputId := by
  unfold spendUTXO at spent
  simp only [bind_eq_ok, asserted_eq_ok] at spent
  obtain ⟨pUTXO, found, rest⟩ := spent
  cases pUTXO with
  | none => simp [throwValidation] at rest
  | some u =>
    simp only [bind_eq_ok, rejectIf_eq_ok, pure_eq_ok, Prod.mk.injEq] at rest
    obtain ⟨_, _, ⟨rfl, rfl⟩⟩ := rest
    exact ⟨found, rfl⟩

/-- After a spend the view finds the output spent, and every other output as before. -/
theorem getUTXO_spendUTXO (spent : spendUTXO base outputId layer = .ok (layer', utxo)) (key : ℕ) :
    (CoinsView.cache layer' base).getUTXO key =
      if key = outputId then some none else (CoinsView.cache layer base).getUTXO key := by
  obtain ⟨found, updates⟩ := spendUTXO_eq_ok spent
  by_cases same : key = outputId
  · subst same
    simp only [CoinsView.getUTXO] at found ⊢
    rw [updates, CoinsViewUpdates.spendUTXO, CoinsViewUpdates.getActions_addAction, if_pos rfl]
    simp only [replay_append]
    rw [← Option.bind_assoc, found]
    rfl
  · simp [CoinsView.getUTXO, updates, CoinsViewUpdates.spendUTXO, same]

/-- An output the view finds spent cannot be spent again. -/
theorem spendUTXO_of_spent (spent : (CoinsView.cache layer base).getUTXO outputId = some none) :
    spendUTXO base outputId layer = throwValidation .UTXO_MISSING := by
  simp only [spendUTXO, spent, asserted]
  rfl

theorem spendInput_eq_ok {spent spent' : CacheLayer Η × List UTXO} {input : Input}
    (done : spendInput base spent input = .ok spent') :
    ∃ utxo, spendUTXO base input.outputId spent.1 = .ok (spent'.1, utxo) := by
  unfold spendInput at done
  simp only [bind_eq_ok, pure_eq_ok] at done
  obtain ⟨⟨layer, utxo⟩, found, rfl⟩ := done
  exact ⟨utxo, found⟩

/-- The loop fails on an input whose output the view finds spent. -/
theorem foldlM_spendInput_of_spent {key : ℕ} :
    ∀ (inputs : List Input) (spent : CacheLayer Η × List UTXO),
      (CoinsView.cache spent.1 base).getUTXO key = some none → key ∈ inputs.map (·.outputId) →
      ∀ result, inputs.foldlM (spendInput base) spent ≠ .ok result
  | [], _, _, listed, _, _ => by simp at listed
  | input :: rest, spent, gone, listed, result, done => by
    rw [List.foldlM_cons, bind_eq_ok] at done
    obtain ⟨spent', first, later⟩ := done
    obtain ⟨utxo, found⟩ := spendInput_eq_ok first
    by_cases same : input.outputId = key
    · -- the first input is the spent output itself
      rw [same, spendUTXO_of_spent gone] at found
      cases found
    · have still : (CoinsView.cache spent'.1 base).getUTXO key = some none := by
        rw [getUTXO_spendUTXO found, if_neg (Ne.symm same), gone]
      have inRest : key ∈ rest.map (·.outputId) := by
        simp only [List.map_cons, List.mem_cons] at listed
        exact listed.resolve_left (Ne.symm same)
      exact foldlM_spendInput_of_spent rest spent' still inRest result later

/-- The loop over inputs fails when two of them spend the same output. -/
theorem foldlM_spendInput_of_duplicate :
    ∀ (inputs : List Input) (spent : CacheLayer Η × List UTXO),
      ¬ (inputs.map (·.outputId)).Nodup → ∀ result, inputs.foldlM (spendInput base) spent ≠ .ok result
  | [], _, twice, _, _ => twice List.nodup_nil
  | input :: rest, spent, twice, result, done => by
    rw [List.foldlM_cons, bind_eq_ok] at done
    obtain ⟨spent', first, later⟩ := done
    obtain ⟨utxo, found⟩ := spendInput_eq_ok first
    rw [List.map_cons, List.nodup_cons, not_and_or, not_not] at twice
    rcases twice with again | twiceLater
    · -- the first input's output comes again, and the view finds it spent by then
      have gone : (CoinsView.cache spent'.1 base).getUTXO input.outputId = some none := by
        rw [getUTXO_spendUTXO found, if_pos rfl]
      exact foldlM_spendInput_of_spent rest spent' gone again result later
    · exact foldlM_spendInput_of_duplicate rest spent' twiceLater result later

theorem spendInputs_of_duplicate {inputs : List Input} (twice : ¬ (inputs.map (·.outputId)).Nodup)
    (result : CacheLayer Η × List UTXO) : spendInputs base inputs layer ≠ .ok result :=
  foldlM_spendInput_of_duplicate inputs (layer, []) twice result

end CacheLayer

end Pussycoin.Mw
