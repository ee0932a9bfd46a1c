import Pussycoin.Mw.CoinsView
import Pussycoin.Mmr.Hashes
import Pussycoin.Mmr.LeafSetRefinement

/-! Undoing a block in a coins view cache (`CoinsViewCache::ApplyBlock` and `UndoBlock`).
The undo data of a block holds the best header before it, the coins its inputs spent and
the ids of its outputs; `UndoBlock` adds the spent coins back, spends the block's outputs,
and rewinds the leaf set and the output PMMR to the previous header's output count.

A view is consistent when every coin it finds sits at its own output id, its leaf set is
canonical with as many leaves as its output PMMR, the PMMR holds the MMR of a history of
leaf hashes, and its best header commits to both roots. Over a consistent base, from every
layer a cache reaches by applying and undoing blocks, undoing the latest block still
applied succeeds and gives back a view that answers every query as the view before that
block did. -/
namespace Pussycoin.Mmr

namespace MmrStack

variable {D Η : Type} {hasher : Hasher D Η} {s s' : MmrStack D Η}

/-- The MMR a cache reads through to. -/
def backing : MmrStack D Η → Option (MmrStack D Η)
  | pmmrCache _ _ _ base => some base
  | _ => none

/-- `Add` keeps what a stack reads through to. -/
theorem backing_add {data : D} (added : s.add hasher data = some s') : s'.backing = s.backing := by
  cases s <;> simp only [add, addLeaf, Option.map_eq_some_iff] at added <;>
    obtain ⟨_, _, rfl⟩ := added <;> simp only [backing]

/-- So does `Rewind`. -/
theorem backing_rewind {zero : Η} {numLeaves : ℕ} (rewound : s.rewind zero numLeaves = some s') :
    s'.backing = s.backing := by
  cases s with
  | memMMR hashes leaves =>
    simp only [rewind] at rewound
    split at rewound
    · cases rewound
      simp only [backing]
    · cases rewound
  | pmmr hashFile =>
    simp only [rewind, Option.map_eq_some_iff] at rewound
    obtain ⟨_, _, rfl⟩ := rewound
    simp only [backing]
  | pmmrCache firstLeaf leaves nodes base =>
    simp only [rewind] at rewound
    split at rewound
    · cases rewound
      simp only [backing]
    · split at rewound <;> cases rewound <;> simp only [backing]

end MmrStack

namespace LeafSetStack

variable {s s₀ : LeafSetStack} {n : ℕ} {leaves : List ℕ}

theorem Canonical.remove (canon : Canonical s) (idx : ℕ) : Canonical (s.remove idx) := by
  intro i above
  rw [nextLeafIdx_remove] at above
  simp [canon i above]

theorem Canonical.foldl_remove (canon : Canonical s) (leaves : List ℕ) :
    Canonical (leaves.foldl LeafSetStack.remove s) := by
  induction leaves generalizing s with
  | nil => exact canon
  | cons leaf rest ih => exact ih (canon.remove leaf)

/-- Adding the leaves `n, …, n + m - 1` to a leaf set of `n` leaves gives `n + m`. -/
theorem nextLeafIdx_foldl_add_range' (next : s.nextLeafIdx = n) (m : ℕ) :
    ((List.range' n m).foldl add s).nextLeafIdx = n + m := by
  induction m generalizing s n with
  | zero => simpa using next
  | succ m ih =>
    have grown : (s.add n).nextLeafIdx = n + 1 := by
      rw [nextLeafIdx_add, next]
      omega
    rw [List.range'_succ, List.foldl_cons, ih grown]
    omega

/-- Rewinding a canonical leaf set to the count `n` of a canonical `s₀` gives `s₀` back when,
below `n`, the leaves to add together with those still set are the leaves of `s₀`. -/
theorem agrees_rewind (canon : Canonical s) (canon₀ : Canonical s₀) (next₀ : s₀.nextLeafIdx = n)
    (below : ∀ i < n, (decide (i ∈ leaves) || s.contains i) = s₀.contains i) :
    Agrees (s.rewind n leaves) s₀ := by
  refine Agrees.of_contains (fun i => ?_) (by rw [nextLeafIdx_rewind, next₀])
  rw [canon.contains_rewind]
  by_cases inside : i < n
  · rw [decide_eq_true inside, Bool.true_and, below i inside]
  · rw [decide_eq_false inside, Bool.false_and, canon₀ i (by omega)]

end LeafSetStack

end Pussycoin.Mmr

namespace Pussycoin.Mw

open Pussycoin.Mmr Runs Mountain

variable {Η : Type}

/-! ### The actions a fold leaves on one output id -/

namespace CoinsViewUpdates

section Folds

variable {α : Type} (key : α → ℕ) (action : α → CoinAction)

theorem getActions_foldl_of_not_mem {outputId : ℕ} :
    ∀ (items : List α) (updates : CoinsViewUpdates), outputId ∉ items.map key →
      (items.foldl (fun updates item => updates.addAction (key item) (action item)) updates).getActions
        outputId = updates.getActions outputId
  | [], _, _ => rfl
  | item :: rest, updates, absent => by
    simp only [List.map_cons, List.mem_cons, not_or] at absent
    rw [List.foldl_cons, getActions_foldl_of_not_mem rest _ absent.2, getActions_addAction, if_neg absent.1]

/-- Over distinct ids, the one action on an item's id is the item's. -/
theorem getActions_foldl_of_mem {item : α} :
    ∀ (items : List α) (updates : CoinsViewUpdates), (items.map key).Nodup → item ∈ items →
      (items.foldl (fun updates item => updates.addAction (key item) (action item)) updates).getActions
        (key item) = updates.getActions (key item) ++ [action item]
  | [], _, _, listed => by simp at listed
  | first :: rest, updates, distinct, listed => by
    rw [List.map_cons, List.nodup_cons] at distinct
    rw [List.foldl_cons]
    rcases List.mem_cons.1 listed with rfl | later
    · rw [getActions_foldl_of_not_mem key action rest _ distinct.1, getActions_addAction, if_pos rfl]
    · have other : key item ≠ key first := by
        intro same
        exact distinct.1 (same ▸ List.mem_map_of_mem later)
      rw [getActions_foldl_of_mem rest _ distinct.2 later, getActions_addAction, if_neg other]

end Folds

variable {updates : CoinsViewUpdates} {outputId : ℕ}

theorem getActions_foldl_addUTXO_of_not_mem {utxos : List UTXO} (absent : outputId ∉ utxos.map UTXO.getOutputID) :
    (utxos.foldl addUTXO updates).getActions outputId = updates.getActions outputId :=
  getActions_foldl_of_not_mem UTXO.getOutputID (fun utxo => ⟨some utxo⟩) utxos updates absent

theorem getActions_foldl_addUTXO_of_mem {utxos : List UTXO} {utxo : UTXO}
    (distinct : (utxos.map UTXO.getOutputID).Nodup) (listed : utxo ∈ utxos) :
    (utxos.foldl addUTXO updates).getActions utxo.getOutputID =
      updates.getActions utxo.getOutputID ++ [⟨some utxo⟩] :=
  getActions_foldl_of_mem UTXO.getOutputID (fun utxo => ⟨some utxo⟩) utxos updates distinct listed

theorem getActions_foldl_spendUTXO_of_not_mem {outputIds : List ℕ} (absent : outputId ∉ outputIds) :
    (outputIds.foldl spendUTXO updates).getActions outputId = updates.getActions outputId :=
  getActions_foldl_of_not_mem id (fun _ => ⟨none⟩) outputIds updates (by simpa using absent)

theorem getActions_foldl_spendUTXO_of_mem {outputIds : List ℕ} (distinct : outputIds.Nodup)
    (listed : outputId ∈ outputIds) :
    (outputIds.foldl spendUTXO updates).getActions outputId = updates.getActions outputId ++ [⟨none⟩] :=
  getActions_foldl_of_mem id (fun _ => ⟨none⟩) outputIds updates (by simpa using distinct) listed

end CoinsViewUpdates

/-! ### What the view of a layer reads -/

namespace CacheLayer

variable {base : CoinsView Η} {layer layer' : CacheLayer Η}

/-- Writing back a leaf set over the base's leaf set makes it the view's leaf set. -/
theorem getLeafSet_withLeafSet {leafSet : LeafSetStack} (below : leafSet.lower = some base.getLeafSet) :
    (CoinsView.cache (layer.withLeafSet leafSet) base).getLeafSet = leafSet := by
  cases leafSet with
  | leafSet => cases below
  | cache modifiedBytes next backed =>
    simp only [LeafSetStack.lower, Option.some.injEq] at below
    subst below
    rfl

/-- Writing back a PMMR over the base's PMMR makes it the view's output PMMR. -/
theorem getOutputPMMR_withOutputPMMR {outputPMMR : MmrStack ℕ Η}
    (below : outputPMMR.backing = some base.getOutputPMMR) :
    (CoinsView.cache (layer.withOutputPMMR outputPMMR) base).getOutputPMMR = outputPMMR := by
  cases outputPMMR with
  | memMMR => cases below
  | pmmr => cases below
  | pmmrCache firstLeaf leaves nodes backed =>
    simp only [MmrStack.backing, Option.some.injEq] at below
    subst below
    rfl

@[simp] theorem getOutputPMMR_withLeafSet {leafSet : LeafSetStack} :
    (CoinsView.cache (layer.withLeafSet leafSet) base).getOutputPMMR = (CoinsView.cache layer base).getOutputPMMR := by
  cases leafSet <;> rfl

@[simp] theorem getLeafSet_withOutputPMMR {outputPMMR : MmrStack ℕ Η} :
    (CoinsView.cache (layer.withOutputPMMR outputPMMR) base).getLeafSet = (CoinsView.cache layer base).getLeafSet := by
  cases outputPMMR <;> rfl

@[simp] theorem header_withLeafSet {leafSet : LeafSetStack} : (layer.withLeafSet leafSet).header = layer.header := by
  cases leafSet <;> rfl

@[simp] theorem header_withOutputPMMR {outputPMMR : MmrStack ℕ Η} :
    (layer.withOutputPMMR outputPMMR).header = layer.header := by
  cases outputPMMR <;> rfl

@[simp] theorem getLeafSet_setUpdates {updates : CoinsViewUpdates} :
    (CoinsView.cache { layer with updates } base).getLeafSet = (CoinsView.cache layer base).getLeafSet := rfl

@[simp] theorem getOutputPMMR_setUpdates {updates : CoinsViewUpdates} :
    (CoinsView.cache { layer with updates } base).getOutputPMMR = (CoinsView.cache layer base).getOutputPMMR := rfl

@[simp] theorem getLeafSet_setHeader {header : Option (Header Η)} :
    (CoinsView.cache { layer with header } base).getLeafSet = (CoinsView.cache layer base).getLeafSet := rfl

@[simp] theorem getOutputPMMR_setHeader {header : Option (Header Η)} :
    (CoinsView.cache { layer with header } base).getOutputPMMR = (CoinsView.cache layer base).getOutputPMMR := rfl

@[simp] theorem getUTXO_setHeader {header : Option (Header Η)} :
    (CoinsView.cache { layer with header } base).getUTXO = (CoinsView.cache layer base).getUTXO := rfl

/-- The view's coins read only the layer's updates. -/
theorem getUTXO_of_updates (same : layer'.updates = layer.updates) :
    (CoinsView.cache layer' base).getUTXO = (CoinsView.cache layer base).getUTXO := by
  funext outputId
  simp only [CoinsView.getUTXO, same]

/-- Actions made after the layer's own are replayed after them. -/
theorem getUTXO_of_getActions {outputId : ℕ} {later : List CoinAction}
    (actions : layer'.updates.getActions outputId = layer.updates.getActions outputId ++ later) :
    (CoinsView.cache layer' base).getUTXO outputId =
      ((CoinsView.cache layer base).getUTXO outputId).bind (replay · later) := by
  simp only [CoinsView.getUTXO, actions, replay_append, Option.bind_assoc]

/-! ### What one method does -/

section Methods

variable {hashing : Hashing Η} {height outputId : ℕ} {output : Output} {utxo : UTXO}

/-- What a successful `AddUTXO` found, and the layer it leaves: the output at the next leaf
of the PMMR, set in the leaf set and added to the updates. -/
theorem addUTXO_eq_ok (added : addUTXO hashing base height output layer = .ok layer') :
    (CoinsView.cache layer base).getUTXO output.outputId = some none ∧
      ∃ outputPMMR, (CoinsView.cache layer base).getOutputPMMR.add hashing.output output.outputId = some outputPMMR ∧
        layer' = { (layer.withOutputPMMR outputPMMR).withLeafSet
            ((CoinsView.cache layer base).getLeafSet.add
              (CoinsView.cache layer base).getOutputPMMR.getNextLeafIdx.leafIndex) with
          updates := layer.updates.addUTXO ⟨height, (CoinsView.cache layer base).getOutputPMMR.getNextLeafIdx, output⟩ } := by
  unfold addUTXO at added
  simp only [bind_eq_ok, asserted_eq_ok, rejectIf_eq_ok, pure_eq_ok] at added
  obtain ⟨pUTXO, found, _, fresh, outputPMMR, grown, rfl⟩ := added
  cases pUTXO with
  | none => exact ⟨found, outputPMMR, grown, rfl⟩
  | some _ => simp at fresh

/-- What a successful `SpendUTXO` found, and the layer it leaves: the coin's leaf cleared
and the spend added to the updates. -/
theorem spendUTXO_layer (spent : spendUTXO base outputId layer = .ok (layer', utxo)) :
    (CoinsView.cache layer base).getUTXO outputId = some (some utxo) ∧
      (CoinsView.cache layer base).getLeafSet.contains utxo.leafIdx.leafIndex = true ∧
      layer' = { layer.withLeafSet ((CoinsView.cache layer base).getLeafSet.remove utxo.leafIdx.leafIndex) with
        updates := layer.updates.spendUTXO outputId } := by
  unfold spendUTXO at spent
  simp only [bind_eq_ok, asserted_eq_ok] at spent
  obtain ⟨pUTXO, found, rest⟩ := spent
  cases pUTXO with
  | none => simp [throwValidation] at rest
  | some u =>
    simp only [bind_eq_ok, rejectIf_eq_ok, pure_eq_ok, Prod.mk.injEq] at rest
    obtain ⟨_, unspent, rfl, rfl⟩ := rest
    exact ⟨found, by simpa using unspent, rfl⟩

/-- `CheckRoots` passes exactly when the header commits to the output root, the output
count and the leaf-set root of the view. -/
theorem checkRoots_eq_ok [DecidableEq Η] {header : Header Η} {u : Unit} :
    checkRoots hashing base header layer = .ok u ↔
      (CoinsView.cache layer base).getOutputPMMR.root hashing.output = some header.outputRoot ∧
        header.outputMMRSize = (CoinsView.cache layer base).getOutputPMMR.getNumLeaves ∧
        header.leafsetRoot = (CoinsView.cache layer base).getLeafSet.root hashing.leafSet := by
  unfold checkRoots
  cases rooted : (CoinsView.cache layer base).getOutputPMMR.root hashing.output with
  | none => simp [asserted, rooted]
  | some outputRoot =>
    simp only [bind_eq_ok, asserted_eq_ok, rooted, Option.some.injEq, rejectIf_eq_ok, not_or, not_not,
      exists_eq_left']
    constructor
    · rintro ⟨sameRoot, sameSize, sameLeafSet⟩
      exact ⟨sameRoot.symm, sameSize, sameLeafSet⟩
    · rintro ⟨sameRoot, sameSize, sameLeafSet⟩
      exact ⟨sameRoot.symm, sameSize, sameLeafSet⟩

/-- What a successful `ApplyBlock` did: the outputs added to the layer with the block's
header, the inputs spent, the roots checked, and the undo data recorded. -/
theorem applyBlock_eq_ok [DecidableEq Η] {crypto : Crypto} {block : Block Η} {undo : BlockUndo Η}
    (applied : applyBlock hashing base crypto block layer = .ok (layer', undo)) :
    ∃ added spent, addOutputs hashing base block.header.height block.body.outputs
        { layer with header := some block.header } = .ok added ∧
      spendInputs base block.body.inputs added = .ok (layer', spent) ∧
      checkRoots hashing base block.header layer' = .ok () ∧
      undo = ⟨layer.header, spent, block.body.outputs.map (·.outputId)⟩ := by
  unfold applyBlock at applied
  simp only [bind_eq_ok, rejectIf_eq_ok, pure_eq_ok] at applied
  obtain ⟨_, _, added, addedEq, ⟨spentLayer, spent⟩, spentEq, _, roots, done⟩ := applied
  simp only [Prod.mk.injEq] at done
  obtain ⟨rfl, rfl⟩ := done
  exact ⟨added, spent, addedEq, spentEq, roots, rfl⟩

end Methods

/-! ### The loop over a block's outputs -/

/-- The coins the loop over a block's outputs creates, the first at leaf `n`. -/
def createdCoins (height : ℕ) : ℕ → List Output → List UTXO
  | _, [] => []
  | n, output :: rest => ⟨height, LeafIndex.at n, output⟩ :: createdCoins height (n + 1) rest

theorem map_getOutputID_createdCoins (height : ℕ) : ∀ (n : ℕ) (outputs : List Output),
    (createdCoins height n outputs).map UTXO.getOutputID = outputs.map (·.outputId)
  | _, [] => rfl
  | n, output :: rest => by
    rw [createdCoins, List.map_cons, map_getOutputID_createdCoins height (n + 1) rest]
    rfl

/-- What the loop over a block's outputs did to a layer whose PMMR holds the MMR of `hs`:
the ids were distinct and unspent-free, each output became a coin at the next leaf, set in
the leaf set, and the PMMR grew by one leaf hash for each. -/
structure OutputsAdded (hashing : Hashing Η) (base : CoinsView Η) (height : ℕ) (hs : List Η)
    (outputs : List Output) (layer layer' : CacheLayer Η) : Prop where
  distinct : (outputs.map (·.outputId)).Nodup
  fresh : ∀ output ∈ outputs, (CoinsView.cache layer base).getUTXO output.outputId = some none
  updates : layer'.updates = (createdCoins height hs.length outputs).foldl CoinsViewUpdates.addUTXO layer.updates
  leafSet : (CoinsView.cache layer' base).getLeafSet =
    (List.range' hs.length outputs.length).foldl LeafSetStack.add (CoinsView.cache layer base).getLeafSet
  outputPMMR : ∃ hs', hs <+: hs' ∧ hs'.length = hs.length + outputs.length ∧
    MmrStack.Represents hashing.output hs' (CoinsView.cache layer' base).getOutputPMMR
  header : layer'.header = layer.header

section Outputs

variable {hashing : Hashing Η} {height : ℕ}

/-- One `AddUTXO` on a layer whose PMMR holds the MMR of `hs`. -/
theorem addUTXO_added {hs : List Η} {output : Output}
    (rep : MmrStack.Represents hashing.output hs (CoinsView.cache layer base).getOutputPMMR)
    (room : hs.length + 1 < 2 ^ 63) (added : addUTXO hashing base height output layer = .ok layer') :
    (CoinsView.cache layer base).getUTXO output.outputId = some none ∧
      layer'.updates = layer.updates.addUTXO ⟨height, LeafIndex.at hs.length, output⟩ ∧
      (CoinsView.cache layer' base).getLeafSet = (CoinsView.cache layer base).getLeafSet.add hs.length ∧
      MmrStack.Represents hashing.output (hs ++ [hashing.output.leaf (leafPos hs.length) output.outputId])
        (CoinsView.cache layer' base).getOutputPMMR ∧
      layer'.header = layer.header := by
  obtain ⟨fresh, outputPMMR, grown, rfl⟩ := addUTXO_eq_ok added
  obtain ⟨grown', grownEq, rep'⟩ := rep.add room output.outputId
  rw [grown, Option.some.injEq] at grownEq
  subst grownEq
  have next := rep.getNextLeafIdx
  have below : outputPMMR.backing = some base.getOutputPMMR := MmrStack.backing_add grown
  have belowLeafSet : ((CoinsView.cache layer base).getLeafSet.add hs.length).lower = some base.getLeafSet := by
    rw [LeafSetStack.lower_add]
    rfl
  refine ⟨fresh, by rw [next], ?_, ?_, by simp⟩
  · rw [getLeafSet_setUpdates, next]
    exact getLeafSet_withLeafSet belowLeafSet
  · rw [getOutputPMMR_setUpdates, getOutputPMMR_withLeafSet, getOutputPMMR_withOutputPMMR below]
    exact rep'

/-- The view after `AddUTXO` finds the new coin at its id, and every other id as before. -/
theorem getUTXO_addUTXO {utxo : UTXO} (updated : layer'.updates = layer.updates.addUTXO utxo)
    (fresh : (CoinsView.cache layer base).getUTXO utxo.getOutputID = some none) (outputId : ℕ) :
    (CoinsView.cache layer' base).getUTXO outputId =
      if outputId = utxo.getOutputID then some (some utxo) else (CoinsView.cache layer base).getUTXO outputId := by
  by_cases same : outputId = utxo.getOutputID
  · have actions : layer'.updates.getActions outputId = layer.updates.getActions outputId ++ [⟨some utxo⟩] := by
      rw [updated, CoinsViewUpdates.addUTXO, CoinsViewUpdates.getActions_addAction, if_pos same]
    rw [getUTXO_of_getActions actions, if_pos same, same, fresh]
    rfl
  · have actions : layer'.updates.getActions outputId = layer.updates.getActions outputId ++ [] := by
      rw [updated, CoinsViewUpdates.addUTXO, CoinsViewUpdates.getActions_addAction, if_neg same, List.append_nil]
    rw [getUTXO_of_getActions actions, if_neg same]
    cases (CoinsView.cache layer base).getUTXO outputId <;> rfl

/-- The loop over a block's outputs, from a layer whose PMMR holds the MMR of `hs` and with
room for every output below `2^63` leaves. -/
theorem addOutputs_added : ∀ {outputs : List Output} {hs : List Η} {layer layer' : CacheLayer Η},
    MmrStack.Represents hashing.output hs (CoinsView.cache layer base).getOutputPMMR →
    hs.length + outputs.length < 2 ^ 63 →
    addOutputs hashing base height outputs layer = .ok layer' →
    OutputsAdded hashing base height hs outputs layer layer'
  | [], hs, layer, layer', rep, _, done => by
    simp only [addOutputs, List.foldlM_nil, pure_eq_ok] at done
    subst done
    exact ⟨List.nodup_nil, by simp, rfl, rfl, ⟨hs, List.prefix_refl hs, rfl, rep⟩, rfl⟩
  | output :: rest, hs, layer, layer', rep, room, done => by
    simp only [addOutputs, List.foldlM_cons, bind_eq_ok] at done
    obtain ⟨layer₁, first, later⟩ := done
    have room₁ : hs.length + 1 < 2 ^ 63 := by
      simp only [List.length_cons] at room
      omega
    obtain ⟨fresh, updated, leafSet₁, rep₁, header₁⟩ := addUTXO_added rep room₁ first
    have longer : (hs ++ [hashing.output.leaf (leafPos hs.length) output.outputId]).length = hs.length + 1 := by
      simp
    have roomRest : (hs ++ [hashing.output.leaf (leafPos hs.length) output.outputId]).length + rest.length < 2 ^ 63 := by
      simp only [List.length_cons] at room
      omega
    have ih := addOutputs_added rep₁ roomRest later
    have found₁ : ∀ outputId, (CoinsView.cache layer₁ base).getUTXO outputId =
        if outputId = output.outputId then some (some ⟨height, LeafIndex.at hs.length, output⟩)
        else (CoinsView.cache layer base).getUTXO outputId :=
      getUTXO_addUTXO updated fresh
    -- an output id that comes again would be found added by the first output
    have notAgain : output.outputId ∉ rest.map (·.outputId) := by
      intro again
      obtain ⟨other, listed, same⟩ := List.mem_map.1 again
      have stillFresh := ih.fresh other listed
      rw [found₁, if_pos same] at stillFresh
      cases stillFresh
    refine ⟨List.nodup_cons.2 ⟨notAgain, ih.distinct⟩, ?_, ?_, ?_, ?_, ih.header.trans header₁⟩
    · intro other listed
      rcases List.mem_cons.1 listed with rfl | later
      · exact fresh
      · have other_ne : other.outputId ≠ output.outputId := fun same =>
          notAgain (same ▸ List.mem_map_of_mem later)
        rw [← ih.fresh other later, found₁, if_neg other_ne]
    · rw [ih.updates, longer, updated]
      rfl
    · rw [ih.leafSet, leafSet₁, longer, List.length_cons, List.range'_succ]
      rfl
    · obtain ⟨hs', prefix', length', rep'⟩ := ih.outputPMMR
      refine ⟨hs', (List.prefix_append _ _).trans prefix', ?_, rep'⟩
      rw [length', longer, List.length_cons]
      omega

end Outputs

/-! ### The loop over a block's inputs -/

/-- What the loop over a block's inputs did: the ids were distinct, each input found a coin,
which the loop spent and whose set leaf it cleared. -/
structure InputsSpent (base : CoinsView Η) (inputs : List Input) (layer layer' : CacheLayer Η)
    (spent : List UTXO) : Prop where
  distinct : (inputs.map (·.outputId)).Nodup
  found : List.Forall₂ (fun input utxo => (CoinsView.cache layer base).getUTXO input.outputId = some (some utxo))
    inputs spent
  updates : layer'.updates = (inputs.map (·.outputId)).foldl CoinsViewUpdates.spendUTXO layer.updates
  leafSet : (CoinsView.cache layer' base).getLeafSet =
    (spent.map (·.leafIdx.leafIndex)).foldl LeafSetStack.remove (CoinsView.cache layer base).getLeafSet
  unspent : ∀ utxo ∈ spent, (CoinsView.cache layer base).getLeafSet.contains utxo.leafIdx.leafIndex = true
  outputPMMR : (CoinsView.cache layer' base).getOutputPMMR = (CoinsView.cache layer base).getOutputPMMR
  header : layer'.header = layer.header

theorem exists_of_forall₂ {α β : Type} {R : α → β → Prop} :
    ∀ {as : List α} {bs : List β}, List.Forall₂ R as bs → ∀ a ∈ as, ∃ b ∈ bs, R a b
  | _, _, .nil, _, listed => by simp at listed
  | _, _, .cons first rest, a, listed => by
    rcases List.mem_cons.1 listed with rfl | later
    · exact ⟨_, List.mem_cons_self, first⟩
    · obtain ⟨b, mem, related⟩ := exists_of_forall₂ rest a later
      exact ⟨b, List.mem_cons_of_mem _ mem, related⟩

theorem map_eq_of_forall₂ {α β γ : Type} {R : α → β → Prop} {f : β → γ} {g : α → γ}
    (same : ∀ a b, R a b → f b = g a) : ∀ {as : List α} {bs : List β}, List.Forall₂ R as bs → bs.map f = as.map g
  | _, _, .nil => rfl
  | _, _, .cons first rest => by
    rw [List.map_cons, List.map_cons, same _ _ first, map_eq_of_forall₂ same rest]

/-- The loop over inputs, from any coins already collected. -/
theorem foldlM_spendInput_spent : ∀ (inputs : List Input) (layer : CacheLayer Η) (acc : List UTXO)
    (result : CacheLayer Η × List UTXO), inputs.foldlM (spendInput base) (layer, acc) = .ok result →
      ∃ spent, result.2 = acc ++ spent ∧ InputsSpent base inputs layer result.1 spent
  | [], layer, acc, result, done => by
    simp only [List.foldlM_nil, pure_eq_ok] at done
    subst done
    exact ⟨[], by simp, List.nodup_nil, .nil, rfl, rfl, by simp, rfl, rfl⟩
  | input :: rest, layer, acc, result, done => by
    rw [List.foldlM_cons, bind_eq_ok] at done
    obtain ⟨⟨layer₁, acc₁⟩, first, later⟩ := done
    unfold spendInput at first
    simp only [bind_eq_ok, pure_eq_ok, Prod.mk.injEq] at first
    obtain ⟨⟨layer₁', utxo⟩, spentOne, rfl, rfl⟩ := first
    have gone := getUTXO_spendUTXO spentOne
    obtain ⟨found, unspentOne, rfl⟩ := spendUTXO_layer spentOne
    obtain ⟨spentRest, collected, ih⟩ := foldlM_spendInput_spent rest _ (acc ++ [utxo]) result later
    have leafSet₁ : (CoinsView.cache { layer.withLeafSet ((CoinsView.cache layer base).getLeafSet.remove
        utxo.leafIdx.leafIndex) with updates := layer.updates.spendUTXO input.outputId } base).getLeafSet =
        (CoinsView.cache layer base).getLeafSet.remove utxo.leafIdx.leafIndex := by
      rw [getLeafSet_setUpdates]
      exact getLeafSet_withLeafSet (by rw [LeafSetStack.lower_remove]; rfl)
    -- an id found spent after the first input cannot be found again by a later one
    have other_ne : ∀ outputId u, (CoinsView.cache { layer.withLeafSet ((CoinsView.cache layer base).getLeafSet.remove
        utxo.leafIdx.leafIndex) with updates := layer.updates.spendUTXO input.outputId } base).getUTXO outputId =
          some (some u) → outputId ≠ input.outputId := by
      intro outputId u foundLater same
      rw [gone, if_pos same] at foundLater
      cases foundLater
    have notAgain : input.outputId ∉ rest.map (·.outputId) := by
      intro again
      obtain ⟨other, listed, same⟩ := List.mem_map.1 again
      obtain ⟨u, _, foundOther⟩ := exists_of_forall₂ ih.found other listed
      exact other_ne _ u foundOther same
    refine ⟨utxo :: spentRest, by rw [collected, List.append_assoc, List.singleton_append],
      List.nodup_cons.2 ⟨notAgain, ih.distinct⟩, ?_, ?_, ?_, ?_, ?_, ?_⟩
    · refine List.Forall₂.cons found (ih.found.imp fun other u foundOther => ?_)
      have other_ne' := other_ne _ u foundOther
      rw [gone, if_neg other_ne'] at foundOther
      exact foundOther
    · rw [ih.updates]
      rfl
    · rw [ih.leafSet, leafSet₁]
      rfl
    · intro u listed
      rcases List.mem_cons.1 listed with rfl | later
      · exact unspentOne
      · have still := ih.unspent u later
        rw [leafSet₁, LeafSetStack.contains_remove, Bool.and_eq_true] at still
        exact still.2
    · rw [ih.outputPMMR, getOutputPMMR_setUpdates, getOutputPMMR_withLeafSet]
    · rw [ih.header]
      simp

theorem spendInputs_spent {inputs : List Input} {spent : List UTXO}
    (done : spendInputs base inputs layer = .ok (layer', spent)) : InputsSpent base inputs layer layer' spent := by
  obtain ⟨spent', collected, facts⟩ := foldlM_spendInput_spent inputs layer [] _ done
  simp only [List.nil_append] at collected
  rw [collected]
  exact facts

/-! ### The coins a block leaves -/

theorem bind_replay_nil (found : Option (Option UTXO)) : found.bind (replay · []) = found := by
  cases found <;> rfl

section Coins

variable {hashing : Hashing Η} {height : ℕ} {hs : List Η} {outputs : List Output} {inputs : List Input}
  {spent : List UTXO} {middle : CacheLayer Η} {outputId : ℕ}

theorem OutputsAdded.getUTXO_of_not_mem (added : OutputsAdded hashing base height hs outputs layer layer')
    (absent : outputId ∉ outputs.map (·.outputId)) :
    (CoinsView.cache layer' base).getUTXO outputId = (CoinsView.cache layer base).getUTXO outputId := by
  have actions : layer'.updates.getActions outputId = layer.updates.getActions outputId ++ [] := by
    rw [added.updates, CoinsViewUpdates.getActions_foldl_addUTXO_of_not_mem
      (by rwa [map_getOutputID_createdCoins]), List.append_nil]
  rw [getUTXO_of_getActions actions, bind_replay_nil]

/-- Each output is found as a coin at its id. -/
theorem OutputsAdded.getUTXO_of_mem (added : OutputsAdded hashing base height hs outputs layer layer')
    {output : Output} (listed : output ∈ outputs) :
    ∃ utxo, (CoinsView.cache layer' base).getUTXO output.outputId = some (some utxo) ∧
      utxo.getOutputID = output.outputId := by
  have created : output.outputId ∈ (createdCoins height hs.length outputs).map UTXO.getOutputID := by
    rw [map_getOutputID_createdCoins]
    exact List.mem_map_of_mem listed
  obtain ⟨utxo, mem, keyed⟩ := List.mem_map.1 created
  have distinct : ((createdCoins height hs.length outputs).map UTXO.getOutputID).Nodup := by
    rw [map_getOutputID_createdCoins]
    exact added.distinct
  have actions : layer'.updates.getActions utxo.getOutputID =
      layer.updates.getActions utxo.getOutputID ++ [⟨some utxo⟩] := by
    rw [added.updates]
    exact CoinsViewUpdates.getActions_foldl_addUTXO_of_mem distinct mem
  refine ⟨utxo, ?_, keyed⟩
  rw [← keyed, getUTXO_of_getActions actions, keyed, added.fresh output listed]
  rfl

/-- After the outputs, every coin found still sits at its own id. -/
theorem OutputsAdded.keyed (added : OutputsAdded hashing base height hs outputs layer layer')
    (keyed : ∀ outputId utxo, (CoinsView.cache layer base).getUTXO outputId = some (some utxo) →
      utxo.getOutputID = outputId) :
    ∀ outputId utxo, (CoinsView.cache layer' base).getUTXO outputId = some (some utxo) →
      utxo.getOutputID = outputId := by
  intro outputId utxo found
  by_cases here : outputId ∈ outputs.map (·.outputId)
  · obtain ⟨output, listed, rfl⟩ := List.mem_map.1 here
    obtain ⟨utxo', found', keyed'⟩ := added.getUTXO_of_mem listed
    rw [found', Option.some.injEq, Option.some.injEq] at found
    rw [← found, keyed']
  · rw [added.getUTXO_of_not_mem here] at found
    exact keyed outputId utxo found

theorem InputsSpent.getUTXO_of_not_mem (done : InputsSpent base inputs layer layer' spent)
    (absent : outputId ∉ inputs.map (·.outputId)) :
    (CoinsView.cache layer' base).getUTXO outputId = (CoinsView.cache layer base).getUTXO outputId := by
  have actions : layer'.updates.getActions outputId = layer.updates.getActions outputId ++ [] := by
    rw [done.updates, CoinsViewUpdates.getActions_foldl_spendUTXO_of_not_mem absent, List.append_nil]
  rw [getUTXO_of_getActions actions, bind_replay_nil]

/-- Each input's output is found spent. -/
theorem InputsSpent.getUTXO_of_mem (done : InputsSpent base inputs layer layer' spent)
    (listed : outputId ∈ inputs.map (·.outputId)) :
    (CoinsView.cache layer' base).getUTXO outputId = some none := by
  obtain ⟨input, mem, rfl⟩ := List.mem_map.1 listed
  obtain ⟨u, _, found⟩ := exists_of_forall₂ done.found input mem
  have actions : layer'.updates.getActions input.outputId =
      layer.updates.getActions input.outputId ++ [⟨none⟩] := by
    rw [done.updates]
    exact CoinsViewUpdates.getActions_foldl_spendUTXO_of_mem done.distinct listed
  rw [getUTXO_of_getActions actions, found]
  rfl

/-- The coins `UndoBlock` adds back and the outputs it spends give every id of the block
the coin it had before: an output of the block is unspent again, a coin an input spent is
back, and an output spent in its own block is gone once more. -/
theorem getUTXO_undone (added : OutputsAdded hashing base height hs outputs layer middle)
    (done : InputsSpent base inputs middle layer' spent)
    (keyed : ∀ outputId utxo, (CoinsView.cache layer base).getUTXO outputId = some (some utxo) →
      utxo.getOutputID = outputId)
    {current undone : CacheLayer Η} (same : ∀ outputId, (CoinsView.cache current base).getUTXO outputId =
      (CoinsView.cache layer' base).getUTXO outputId)
    (updates : undone.updates = (outputs.map (·.outputId)).foldl CoinsViewUpdates.spendUTXO
      (spent.foldl CoinsViewUpdates.addUTXO current.updates)) (outputId : ℕ) :
    (CoinsView.cache undone base).getUTXO outputId = (CoinsView.cache layer base).getUTXO outputId := by
  have keyedMiddle := added.keyed keyed
  -- the coins the inputs spent sit at the inputs' ids
  have spentIds : spent.map UTXO.getOutputID = inputs.map (·.outputId) :=
    map_eq_of_forall₂ (fun _ _ found => keyedMiddle _ _ found) done.found
  have distinctSpent : (spent.map UTXO.getOutputID).Nodup := spentIds ▸ done.distinct
  let readded : CacheLayer Η := { current with updates := spent.foldl CoinsViewUpdates.addUTXO current.updates }
  by_cases spentHere : outputId ∈ inputs.map (·.outputId)
  · obtain ⟨input, mem, rfl⟩ := List.mem_map.1 spentHere
    obtain ⟨coin, coinMem, foundCoin⟩ := exists_of_forall₂ done.found input mem
    have coinId : coin.getOutputID = input.outputId := keyedMiddle _ _ foundCoin
    have back : readded.updates.getActions input.outputId =
        current.updates.getActions input.outputId ++ [⟨some coin⟩] := by
      rw [← coinId]
      exact CoinsViewUpdates.getActions_foldl_addUTXO_of_mem distinctSpent coinMem
    have nowSpent : (CoinsView.cache current base).getUTXO input.outputId = some none := by
      rw [same, done.getUTXO_of_mem spentHere]
    by_cases addedHere : input.outputId ∈ outputs.map (·.outputId)
    · -- an output the block itself spent: back, then spent again
      have respent : undone.updates.getActions input.outputId =
          readded.updates.getActions input.outputId ++ [⟨none⟩] := by
        rw [updates]
        exact CoinsViewUpdates.getActions_foldl_spendUTXO_of_mem added.distinct addedHere
      obtain ⟨output, outMem, outId⟩ := List.mem_map.1 addedHere
      rw [getUTXO_of_getActions respent, getUTXO_of_getActions back, nowSpent, ← outId,
        added.fresh output outMem]
      rfl
    · -- a coin from before the block: back as it was
      have kept : undone.updates.getActions input.outputId = readded.updates.getActions input.outputId ++ [] := by
        rw [updates, List.append_nil]
        exact CoinsViewUpdates.getActions_foldl_spendUTXO_of_not_mem addedHere
      rw [getUTXO_of_getActions kept, getUTXO_of_getActions back, nowSpent,
        ← added.getUTXO_of_not_mem addedHere, foundCoin]
      rfl
  · have notBack : readded.updates.getActions outputId = current.updates.getActions outputId ++ [] := by
      rw [List.append_nil]
      exact CoinsViewUpdates.getActions_foldl_addUTXO_of_not_mem (by rwa [spentIds])
    have kept : (CoinsView.cache current base).getUTXO outputId = (CoinsView.cache middle base).getUTXO outputId := by
      rw [same, done.getUTXO_of_not_mem spentHere]
    by_cases addedHere : outputId ∈ outputs.map (·.outputId)
    · -- an output of the block, unspent in it: spent again, so absent as before
      have respent : undone.updates.getActions outputId = readded.updates.getActions outputId ++ [⟨none⟩] := by
        rw [updates]
        exact CoinsViewUpdates.getActions_foldl_spendUTXO_of_mem added.distinct addedHere
      obtain ⟨output, outMem, rfl⟩ := List.mem_map.1 addedHere
      obtain ⟨u, found, _⟩ := added.getUTXO_of_mem outMem
      rw [getUTXO_of_getActions respent, getUTXO_of_getActions notBack, bind_replay_nil, kept, found,
        added.fresh output outMem]
      rfl
    · have stays : undone.updates.getActions outputId = readded.updates.getActions outputId ++ [] := by
        rw [updates, List.append_nil]
        exact CoinsViewUpdates.getActions_foldl_spendUTXO_of_not_mem addedHere
      rw [getUTXO_of_getActions stays, getUTXO_of_getActions notBack, bind_replay_nil, bind_replay_nil, kept,
        added.getUTXO_of_not_mem addedHere]

/-- Below the count before the block, the coins' leaves `UndoBlock` sets again and the leaves
still set are the leaves set before the block: a spent leaf below it was set then. -/
theorem leafSet_undone_below (added : OutputsAdded hashing base height hs outputs layer middle)
    (done : InputsSpent base inputs middle layer' spent) {current : CacheLayer Η}
    (same : ∀ i, (CoinsView.cache current base).getLeafSet.contains i = (CoinsView.cache layer' base).getLeafSet.contains i)
    {i : ℕ} (below : i < hs.length) :
    (decide (i ∈ spent.map (·.leafIdx.leafIndex)) || (CoinsView.cache current base).getLeafSet.contains i) =
      (CoinsView.cache layer base).getLeafSet.contains i := by
  have before : (CoinsView.cache middle base).getLeafSet.contains i = (CoinsView.cache layer base).getLeafSet.contains i := by
    have outside : i ∉ List.range' hs.length outputs.length := by
      rw [List.mem_range'_1]
      omega
    rw [added.leafSet, LeafSetStack.contains_foldl_add, decide_eq_false outside, Bool.false_or]
  rw [same, done.leafSet, LeafSetStack.contains_foldl_remove]
  by_cases cleared : i ∈ spent.map (·.leafIdx.leafIndex)
  · obtain ⟨coin, mem, rfl⟩ := List.mem_map.1 cleared
    rw [← before, done.unspent coin mem, decide_eq_true cleared]
    rfl
  · rw [decide_eq_false cleared, before]
    rfl

/-- The layer `UndoBlock` leaves: the undo's actions after the layer's own, the rewound leaf
set and PMMR written back, and the header before the block. -/
def undoneLayer (undo : BlockUndo Η) (leafSet : LeafSetStack) (outputPMMR : MmrStack ℕ Η)
    (layer : CacheLayer Η) : CacheLayer Η :=
  { ({ layer with updates := (undo.coinsAdded.foldl CoinsViewUpdates.spendUTXO
      (undo.coinsSpent.foldl CoinsViewUpdates.addUTXO layer.updates)) }.withLeafSet leafSet).withOutputPMMR
      outputPMMR with header := undo.previousHeader }

end Coins

end CacheLayer

/-! ### Consistent views, and views that answer alike -/

namespace CoinsView

/-- A view whose coins sit at their own ids, whose leaf set is canonical with one leaf for
each leaf of its output PMMR, whose PMMR holds the MMR of a history, and whose best header
commits to its output count and both roots; without a header it has no outputs. -/
structure Consistent [DecidableEq Η] (hashing : Hashing Η) (view : CoinsView Η) : Prop where
  keyed : ∀ outputId, ∃ found, view.getUTXO outputId = some found ∧ ∀ utxo ∈ found, utxo.getOutputID = outputId
  canonical : LeafSetStack.Canonical view.getLeafSet
  outputs : ∃ hs, MmrStack.Represents hashing.output hs view.getOutputPMMR
  counted : view.getLeafSet.nextLeafIdx = view.getOutputPMMR.getNumLeaves
  committed : ∀ header, view.getBestHeader = some header →
    header.outputMMRSize = view.getOutputPMMR.getNumLeaves ∧
      view.getOutputPMMR.root hashing.output = some header.outputRoot ∧
      header.leafsetRoot = view.getLeafSet.root hashing.leafSet
  empty : view.getBestHeader = none → view.getOutputPMMR.getNumLeaves = 0

/-- Two views that answer alike: the same coin at every id, the same leaf-set bytes and
count, the MMR of one history of leaf hashes, and the same best header. -/
structure Agrees (hasher : Hasher ℕ Η) (view view' : CoinsView Η) : Prop where
  utxos : ∀ outputId, view.getUTXO outputId = view'.getUTXO outputId
  leafSet : LeafSetStack.Agrees view.getLeafSet view'.getLeafSet
  outputs : ∃ hs, MmrStack.Represents hasher hs view.getOutputPMMR ∧ MmrStack.Represents hasher hs view'.getOutputPMMR
  header : view.getBestHeader = view'.getBestHeader

variable {hasher : Hasher ℕ Η} {view view' view'' : CoinsView Η}

theorem Consistent.found_keyed [DecidableEq Η] {hashing : Hashing Η} (consistent : Consistent hashing view)
    {outputId : ℕ} {utxo : UTXO} (found : view.getUTXO outputId = some (some utxo)) : utxo.getOutputID = outputId := by
  obtain ⟨found', foundEq, keyed⟩ := consistent.keyed outputId
  rw [foundEq, Option.some.injEq] at found
  exact keyed utxo (by rw [found]; rfl)

theorem Agrees.symm (agree : Agrees hasher view view') : Agrees hasher view' view := by
  obtain ⟨hs, rep, rep'⟩ := agree.outputs
  exact ⟨fun outputId => (agree.utxos outputId).symm,
    ⟨fun k => (agree.leafSet.getByte k).symm, agree.leafSet.next.symm⟩, ⟨hs, rep', rep⟩, agree.header.symm⟩

theorem Agrees.trans (agree : Agrees hasher view view') (agree' : Agrees hasher view' view'') :
    Agrees hasher view view'' := by
  obtain ⟨hs, rep, rep'⟩ := agree.outputs
  obtain ⟨hs', repMid, repLast⟩ := agree'.outputs
  have sameHistory : hs' = hs := repMid.unique rep'
  subst sameHistory
  exact ⟨fun outputId => (agree.utxos outputId).trans (agree'.utxos outputId),
    agree.leafSet.trans agree'.leafSet, ⟨hs', rep, repLast⟩, agree.header.trans agree'.header⟩

theorem Agrees.getNumLeaves (agree : Agrees hasher view view') :
    view.getOutputPMMR.getNumLeaves = view'.getOutputPMMR.getNumLeaves := by
  obtain ⟨hs, rep, rep'⟩ := agree.outputs
  rw [rep.numLeaves, rep'.numLeaves]

theorem Agrees.outputRoot [DecidableEq Η] (agree : Agrees hasher view view') :
    view.getOutputPMMR.root hasher = view'.getOutputPMMR.root hasher := by
  obtain ⟨hs, rep, rep'⟩ := agree.outputs
  rw [rep.root, rep'.root]

/-- A view that answers as a consistent view is consistent. -/
theorem Consistent.of_agrees [DecidableEq Η] {hashing : Hashing Η} (consistent : Consistent hashing view')
    (agree : Agrees hashing.output view view') : Consistent hashing view := by
  obtain ⟨hs, rep, _⟩ := agree.outputs
  refine ⟨fun outputId => ?_, agree.leafSet.canonical consistent.canonical, ⟨hs, rep⟩, ?_, ?_, ?_⟩
  · rw [agree.utxos]
    exact consistent.keyed outputId
  · rw [agree.leafSet.next, consistent.counted, agree.getNumLeaves]
  · intro header best
    rw [agree.header] at best
    obtain ⟨size, rooted, leafsetRoot⟩ := consistent.committed header best
    rw [agree.getNumLeaves, agree.outputRoot, agree.leafSet.root]
    exact ⟨size, rooted, leafsetRoot⟩
  · intro noHeader
    rw [agree.header] at noHeader
    rw [agree.getNumLeaves]
    exact consistent.empty noHeader

/-- A new cache answers as its base. -/
theorem agrees_new (rep : ∃ hs, MmrStack.Represents hasher hs view.getOutputPMMR) :
    Agrees hasher (cache (CacheLayer.new view) view) view := by
  obtain ⟨hs, rep⟩ := rep
  refine ⟨fun outputId => ?_, ⟨fun k => rfl, rfl⟩, ⟨hs, rep.newPMMRCache, rep⟩, rfl⟩
  simp only [getUTXO, CacheLayer.new, CoinsViewUpdates.getActions_empty]
  exact CacheLayer.bind_replay_nil _

end CoinsView

/-! ### Applying and undoing a block -/

namespace CacheLayer

variable [DecidableEq Η] {hashing : Hashing Η} {base : CoinsView Η} {crypto : Crypto} {block : Block Η}
  {layer layer' current : CacheLayer Η} {undo : BlockUndo Η}

/-- `ApplyBlock` on a consistent view leaves a consistent view. -/
theorem applyBlock_consistent (consistent : (CoinsView.cache layer base).Consistent hashing)
    (room : (CoinsView.cache layer base).getOutputPMMR.getNumLeaves + block.body.outputs.length < 2 ^ 63)
    (applied : applyBlock hashing base crypto block layer = .ok (layer', undo)) :
    (CoinsView.cache layer' base).Consistent hashing := by
  obtain ⟨middle, spent, addedOk, spentOk, rootsOk, -⟩ := applyBlock_eq_ok applied
  obtain ⟨hs, rep⟩ := consistent.outputs
  have added := addOutputs_added (show MmrStack.Represents hashing.output hs
    (CoinsView.cache { layer with header := some block.header } base).getOutputPMMR from rep)
    (by rw [← rep.numLeaves]; exact room) addedOk
  have done := spendInputs_spent spentOk
  obtain ⟨hs', _, length', rep'⟩ := added.outputPMMR
  obtain ⟨rooted, size, leafsetRoot⟩ := checkRoots_eq_ok.1 rootsOk
  refine ⟨fun outputId => ?_, ?_, ⟨hs', by rw [done.outputPMMR]; exact rep'⟩, ?_, ?_, ?_⟩
  · -- a spent id finds nothing, an output's id its coin, and any other id what it found before
    by_cases spentHere : outputId ∈ block.body.inputs.map (·.outputId)
    · exact ⟨none, done.getUTXO_of_mem spentHere, by simp⟩
    · rw [done.getUTXO_of_not_mem spentHere]
      by_cases addedHere : outputId ∈ block.body.outputs.map (·.outputId)
      · obtain ⟨output, listed, rfl⟩ := List.mem_map.1 addedHere
        obtain ⟨coin, found, coinId⟩ := added.getUTXO_of_mem listed
        refine ⟨some coin, found, fun utxo mem => ?_⟩
        rw [Option.mem_def, Option.some.injEq] at mem
        rw [← mem, coinId]
      · rw [added.getUTXO_of_not_mem addedHere]
        exact consistent.keyed outputId
  · rw [done.leafSet, added.leafSet]
    exact (consistent.canonical.foldl_add _).foldl_remove _
  · rw [done.leafSet, LeafSetStack.nextLeafIdx_foldl_remove, added.leafSet, getLeafSet_setHeader,
      LeafSetStack.nextLeafIdx_foldl_add_range' (consistent.counted.trans rep.numLeaves), done.outputPMMR,
      rep'.numLeaves, length']
  · intro header best
    simp only [CoinsView.getBestHeader, done.header, added.header, Option.some.injEq] at best
    subst best
    exact ⟨size, rooted, leafsetRoot⟩
  · intro noHeader
    simp [CoinsView.getBestHeader, done.header, added.header] at noHeader

/-- `UndoBlock` without a previous header rewinds everything. -/
theorem undoBlock_of_none {rewound : MmrStack ℕ Η} (previous : undo.previousHeader = none)
    (rewindOk : (CoinsView.cache current base).getOutputPMMR.rewind hashing.output.zero 0 = some rewound) :
    undoBlock hashing base undo current =
      .ok (undoneLayer undo ((CoinsView.cache current base).getLeafSet.rewind 0 []) rewound current) := by
  obtain ⟨_, coinsSpent, coinsAdded⟩ := undo
  subst previous
  simp only [undoBlock, getOutputPMMR_setUpdates, getLeafSet_setUpdates, rewindOk]
  rfl

/-- `UndoBlock` with a previous header rewinds to its output count, sets the spent coins'
leaves again, and checks the header's roots. -/
theorem undoBlock_of_some {header : Header Η} {rewound : MmrStack ℕ Η} (previous : undo.previousHeader = some header)
    (rewindOk : (CoinsView.cache current base).getOutputPMMR.rewind hashing.output.zero header.outputMMRSize =
      some rewound)
    (roots : checkRoots hashing base header (undoneLayer undo ((CoinsView.cache current base).getLeafSet.rewind
      header.outputMMRSize (undo.coinsSpent.map (·.leafIdx.leafIndex))) rewound current) = .ok ()) :
    undoBlock hashing base undo current =
      .ok (undoneLayer undo ((CoinsView.cache current base).getLeafSet.rewind header.outputMMRSize
        (undo.coinsSpent.map (·.leafIdx.leafIndex))) rewound current) := by
  obtain ⟨_, coinsSpent, coinsAdded⟩ := undo
  subst previous
  simp only [undoBlock, getOutputPMMR_setUpdates, getLeafSet_setUpdates, rewindOk]
  exact (bind_eq_ok.2 ⟨rewound, rfl, bind_eq_ok.2 ⟨(), roots, rfl⟩⟩)

omit [DecidableEq Η] in
/-- The undone layer answers with the undo's coins, the leaf set and PMMR written back, and
the header before the block. -/
theorem agrees_undoneLayer {hs : List Η} {leafSet : LeafSetStack} {rewound : MmrStack ℕ Η}
    (utxos : ∀ outputId, (CoinsView.cache { current with updates := (undo.coinsAdded.foldl
      CoinsViewUpdates.spendUTXO (undo.coinsSpent.foldl CoinsViewUpdates.addUTXO current.updates)) } base).getUTXO
        outputId = (CoinsView.cache layer base).getUTXO outputId)
    (belowLeafSet : leafSet.lower = some base.getLeafSet)
    (sameLeafSet : LeafSetStack.Agrees leafSet (CoinsView.cache layer base).getLeafSet)
    (below : rewound.backing = some base.getOutputPMMR) (repRewound : MmrStack.Represents hashing.output hs rewound)
    (rep : MmrStack.Represents hashing.output hs (CoinsView.cache layer base).getOutputPMMR)
    (header : undo.previousHeader = layer.header) :
    (CoinsView.cache (undoneLayer undo leafSet rewound current) base).Agrees hashing.output
      (CoinsView.cache layer base) := by
  refine ⟨fun outputId => ?_, ?_, ⟨hs, ?_, rep⟩, header⟩
  · have sameUpdates : (undoneLayer undo leafSet rewound current).updates = undo.coinsAdded.foldl
        CoinsViewUpdates.spendUTXO (undo.coinsSpent.foldl CoinsViewUpdates.addUTXO current.updates) := by
      simp [undoneLayer]
    rw [← utxos outputId]
    exact congrFun (getUTXO_of_updates sameUpdates) outputId
  · rw [undoneLayer, getLeafSet_setHeader, getLeafSet_withOutputPMMR, getLeafSet_withLeafSet belowLeafSet]
    exact sameLeafSet
  · rw [undoneLayer, getOutputPMMR_setHeader, getOutputPMMR_withOutputPMMR below]
    exact repRewound

/-- `UndoBlock` with the undo data of a block applied to a consistent layer succeeds on any
layer that answers as the layer after the block, and leaves one that answers as the layer
before it. -/
theorem undoBlock_restores (consistent : (CoinsView.cache layer base).Consistent hashing)
    (room : (CoinsView.cache layer base).getOutputPMMR.getNumLeaves + block.body.outputs.length < 2 ^ 63)
    (applied : applyBlock hashing base crypto block layer = .ok (layer', undo))
    (agree : (CoinsView.cache current base).Agrees hashing.output (CoinsView.cache layer' base)) :
    ∃ restored, undoBlock hashing base undo current = .ok restored ∧
      (CoinsView.cache restored base).Agrees hashing.output (CoinsView.cache layer base) := by
  obtain ⟨middle, spent, addedOk, spentOk, _, rfl⟩ := applyBlock_eq_ok applied
  obtain ⟨hs, rep⟩ := consistent.outputs
  have added := addOutputs_added (show MmrStack.Represents hashing.output hs
    (CoinsView.cache { layer with header := some block.header } base).getOutputPMMR from rep)
    (by rw [← rep.numLeaves]; exact room) addedOk
  have done := spendInputs_spent spentOk
  obtain ⟨hs', prefix', _, rep'⟩ := added.outputPMMR
  rw [← done.outputPMMR] at rep'
  -- the current layer holds the MMR of the history after the block
  obtain ⟨hsNow, repNow, repAfter⟩ := agree.outputs
  have sameHistory : hsNow = hs' := repAfter.unique rep'
  subst sameHistory
  -- its output PMMR is a cache over the base's, and rewinds to the history before the block
  obtain ⟨rewound, rewindOk, repRewound⟩ := MmrStack.Represents.rewind_cache repNow hs.length
  rw [← List.prefix_iff_eq_take.1 prefix'] at repRewound
  have below : rewound.backing = some base.getOutputPMMR := MmrStack.backing_rewind rewindOk
  have numLeaves : (CoinsView.cache layer base).getOutputPMMR.getNumLeaves = hs.length := rep.numLeaves
  have next : (CoinsView.cache layer base).getLeafSet.nextLeafIdx = hs.length :=
    consistent.counted.trans numLeaves
  have canonNow : LeafSetStack.Canonical (CoinsView.cache current base).getLeafSet := by
    apply agree.leafSet.canonical
    rw [done.leafSet, added.leafSet]
    exact (consistent.canonical.foldl_add _).foldl_remove _
  have utxos : ∀ outputId, (CoinsView.cache { current with updates :=
      ((block.body.outputs.map (·.outputId)).foldl CoinsViewUpdates.spendUTXO
        (spent.foldl CoinsViewUpdates.addUTXO current.updates)) } base).getUTXO outputId =
        (CoinsView.cache layer base).getUTXO outputId :=
    getUTXO_undone added done (fun _ _ found => consistent.found_keyed found) agree.utxos rfl
  have belowLeafSet : ∀ numLeaves leavesToAdd,
      ((CoinsView.cache current base).getLeafSet.rewind numLeaves leavesToAdd).lower = some base.getLeafSet := by
    intro numLeaves leavesToAdd
    rw [LeafSetStack.lower_rewind]
    rfl
  cases previous : layer.header with
  | none =>
    -- without a header the view had no outputs, and everything is rewound
    have empty : hs.length = 0 := numLeaves ▸ consistent.empty previous
    rw [empty] at rewindOk next
    have sameLeafSet : LeafSetStack.Agrees ((CoinsView.cache current base).getLeafSet.rewind 0 [])
        (CoinsView.cache layer base).getLeafSet :=
      LeafSetStack.agrees_rewind canonNow consistent.canonical next fun i below => absurd below (Nat.not_lt_zero i)
    exact ⟨_, undoBlock_of_none rfl rewindOk, agrees_undoneLayer utxos (belowLeafSet 0 []) sameLeafSet below
      repRewound rep previous.symm⟩
  | some header =>
    obtain ⟨size, rooted, leafsetRoot⟩ := consistent.committed header previous
    rw [numLeaves] at size
    rw [← size] at rewindOk
    have sameLeafSet : LeafSetStack.Agrees ((CoinsView.cache current base).getLeafSet.rewind
        header.outputMMRSize (spent.map (·.leafIdx.leafIndex))) (CoinsView.cache layer base).getLeafSet :=
      LeafSetStack.agrees_rewind canonNow consistent.canonical (next.trans size.symm) fun i below =>
        leafSet_undone_below added done agree.leafSet.contains (size ▸ below)
    have restored : (CoinsView.cache (undoneLayer ⟨some header, spent, block.body.outputs.map (·.outputId)⟩
        ((CoinsView.cache current base).getLeafSet.rewind header.outputMMRSize (spent.map (·.leafIdx.leafIndex)))
        rewound current) base).Agrees hashing.output (CoinsView.cache layer base) :=
      agrees_undoneLayer utxos (belowLeafSet _ _) sameLeafSet below repRewound rep previous.symm
    -- the header before the block commits to the view the undo leaves
    have roots : checkRoots hashing base header (undoneLayer ⟨some header, spent, block.body.outputs.map (·.outputId)⟩
        ((CoinsView.cache current base).getLeafSet.rewind header.outputMMRSize
          (spent.map (·.leafIdx.leafIndex))) rewound current) = .ok () := by
      refine checkRoots_eq_ok.2 ⟨?_, ?_, ?_⟩
      · rw [restored.outputRoot, rooted]
      · rw [restored.getNumLeaves, size, numLeaves]
      · rw [restored.leafSet.root, leafsetRoot]
    exact ⟨_, undoBlock_of_some rfl rewindOk roots, restored⟩

end CacheLayer

/-! ### Runs of a cache -/

section Runs

variable [DecidableEq Η] (hashing : Hashing Η) (base : CoinsView Η) (crypto : Crypto)

/-- The layers a cache over `base` reaches from a new cache by `ApplyBlock` and `UndoBlock`,
with the undo data of each block applied and not undone and the layer it was applied to,
the latest first. A block is applied while the output count stays below `2^63`, and only
the latest block is undone. -/
inductive Reachable : CacheLayer Η → List (BlockUndo Η × CacheLayer Η) → Prop
  | new : Reachable (CacheLayer.new base) []
  | apply {layer layer' : CacheLayer Η} {stack : List (BlockUndo Η × CacheLayer Η)} {undo : BlockUndo Η}
      (block : Block Η) : Reachable layer stack →
      (CoinsView.cache layer base).getOutputPMMR.getNumLeaves + block.body.outputs.length < 2 ^ 63 →
      CacheLayer.applyBlock hashing base crypto block layer = .ok (layer', undo) →
      Reachable layer' ((undo, layer) :: stack)
  | undo {layer layer' before : CacheLayer Η} {stack : List (BlockUndo Η × CacheLayer Η)} {undo : BlockUndo Η} :
      Reachable layer ((undo, before) :: stack) →
      CacheLayer.undoBlock hashing base undo layer = .ok layer' →
      Reachable layer' stack

/-- Each undo record of the stack came from applying a block to a consistent layer, and the
layer above it answers as the layer that block left. -/
def Undoable : CacheLayer Η → List (BlockUndo Η × CacheLayer Η) → Prop
  | _, [] => True
  | layer, (undo, before) :: stack =>
    (CoinsView.cache before base).Consistent hashing ∧
      (∃ block after, (CoinsView.cache before base).getOutputPMMR.getNumLeaves + block.body.outputs.length < 2 ^ 63 ∧
        CacheLayer.applyBlock hashing base crypto block before = .ok (after, undo) ∧
        (CoinsView.cache layer base).Agrees hashing.output (CoinsView.cache after base)) ∧
      Undoable before stack

variable {hashing base crypto}

/-- Only the top of the stack looks at the layer, and only through what it answers. -/
theorem Undoable.of_agrees {layer current : CacheLayer Η} :
    ∀ {stack : List (BlockUndo Η × CacheLayer Η)}, Undoable hashing base crypto layer stack →
      (CoinsView.cache current base).Agrees hashing.output (CoinsView.cache layer base) →
      Undoable hashing base crypto current stack
  | [], _, _ => trivial
  | (_, _) :: _, ⟨consistent, ⟨block, after, room, applied, agree⟩, rest⟩, agree' =>
    ⟨consistent, ⟨block, after, room, applied, agree'.trans agree⟩, rest⟩

/-- Every reachable layer is consistent, and its stack can be undone block by block. -/
theorem Reachable.invariant (consistent : base.Consistent hashing) {layer : CacheLayer Η}
    {stack : List (BlockUndo Η × CacheLayer Η)} (reach : Reachable hashing base crypto layer stack) :
    (CoinsView.cache layer base).Consistent hashing ∧ Undoable hashing base crypto layer stack := by
  induction reach with
  | new =>
    exact ⟨consistent.of_agrees (CoinsView.agrees_new consistent.outputs), trivial⟩
  | apply block _ room applied ih =>
    obtain ⟨consistentBefore, undoable⟩ := ih
    have consistentAfter := CacheLayer.applyBlock_consistent consistentBefore room applied
    obtain ⟨hs, rep⟩ := consistentAfter.outputs
    exact ⟨consistentAfter, consistentBefore, ⟨block, _, room, applied, ⟨fun _ => rfl, .refl _, ⟨hs, rep, rep⟩, rfl⟩⟩,
      undoable⟩
  | undo _ undone ih =>
    obtain ⟨_, consistentBefore, ⟨block, after, room, applied, agree⟩, undoable⟩ := ih
    obtain ⟨restored, undoneOk, restoredAgrees⟩ := CacheLayer.undoBlock_restores consistentBefore room applied agree
    rw [undone, Except.ok.injEq] at undoneOk
    subst undoneOk
    exact ⟨consistentBefore.of_agrees restoredAgrees, undoable.of_agrees restoredAgrees⟩

/-- Over a consistent base, from every layer a cache reaches by applying and undoing blocks,
undoing the latest block still applied succeeds and leaves a view that answers as the view
before that block: the same coin at every output id, the same leaf set and leaf-set root,
the MMR of the same output history and so the same output root and count, and the same
best header. -/
theorem undo_block_restores_view (consistent : base.Consistent hashing) {layer before : CacheLayer Η}
    {undo : BlockUndo Η} {stack : List (BlockUndo Η × CacheLayer Η)}
    (reach : Reachable hashing base crypto layer ((undo, before) :: stack)) :
    ∃ restored, CacheLayer.undoBlock hashing base undo layer = .ok restored ∧
      (CoinsView.cache restored base).Agrees hashing.output (CoinsView.cache before base) ∧
      (CoinsView.cache restored base).getOutputPMMR.root hashing.output =
        (CoinsView.cache before base).getOutputPMMR.root hashing.output ∧
      (CoinsView.cache restored base).getLeafSet.root hashing.leafSet =
        (CoinsView.cache before base).getLeafSet.root hashing.leafSet := by
  obtain ⟨_, consistentBefore, ⟨block, after, room, applied, agree⟩, _⟩ := reach.invariant consistent
  obtain ⟨restored, undone, restoredAgrees⟩ := CacheLayer.undoBlock_restores consistentBefore room applied agree
  exact ⟨restored, undone, restoredAgrees, restoredAgrees.outputRoot, restoredAgrees.leafSet.root hashing.leafSet⟩

/-- A database view with no header, no coins, an empty leaf set and an empty hash file. -/
def genesisView : CoinsView (HashTerm ℕ) :=
  .db ⟨none, fun _ => none, fun _ => 0, fun _ => none, 0, AppendOnlyFile.load []⟩

theorem genesisView_consistent : genesisView.Consistent freeHashing := by
  refine ⟨fun _ => ⟨none, rfl, by simp⟩, ?_, ⟨[], ?_⟩, rfl, (fun _ best => by cases best), fun _ => rfl⟩
  · intro i _
    simp [genesisView, CoinsView.getLeafSet, LeafSetStack.contains, LeafSetStack.getByte]
  · refine ⟨by norm_num, rfl, by simp [MmrStack.Shape, genesisView, CoinsView.getOutputPMMR,
      AppendOnlyFile.getSize, AppendOnlyFile.load, leafPos_zero], fun _ _ below => ?_⟩
    simp [leafPos_zero] at below

/-- Two outputs, committed to by the header. -/
def fundingBlock : Block (HashTerm ℕ) :=
  ⟨⟨1, .parent 2 (.leaf 0 5) (.leaf 1 6), .zero, .bytes [0xC0], 0, 0, 2, 0⟩,
    ⟨[], [⟨5, 0, true, 0⟩, ⟨6, 0, true, 0⟩], []⟩⟩

/-- A block that spends the first output of `fundingBlock` and adds one. -/
def spendingBlock : Block (HashTerm ℕ) :=
  ⟨⟨2, .parent 4 (.parent 2 (.leaf 0 5) (.leaf 1 6)) (.leaf 3 7), .zero, .bytes [0x60], 0, 0, 3, 0⟩,
    ⟨[⟨5, 0, 0⟩], [⟨7, 0, true, 0⟩], []⟩⟩

theorem undo_block_restores_view_spend :
    ∃ (layer before : CacheLayer (HashTerm ℕ)) (undo : BlockUndo (HashTerm ℕ))
      (stack : List (BlockUndo (HashTerm ℕ) × CacheLayer (HashTerm ℕ))),
      Reachable freeHashing genesisView acceptingCrypto layer ((undo, before) :: stack) ∧
      ∃ restored, CacheLayer.undoBlock freeHashing genesisView undo layer = .ok restored ∧
        (CoinsView.cache restored genesisView).Agrees freeHashing.output (CoinsView.cache before genesisView) ∧
        (CoinsView.cache restored genesisView).getOutputPMMR.root freeHashing.output =
          (CoinsView.cache before genesisView).getOutputPMMR.root freeHashing.output ∧
        (CoinsView.cache restored genesisView).getLeafSet.root freeHashing.leafSet =
          (CoinsView.cache before genesisView).getLeafSet.root freeHashing.leafSet := by
  have first : Reachable freeHashing genesisView acceptingCrypto _ [(_, CacheLayer.new genesisView)] :=
    .apply fundingBlock .new (by decide) rfl
  have second := Reachable.apply spendingBlock first (by decide) rfl
  exact ⟨_, _, _, _, second, undo_block_restores_view genesisView_consistent second⟩

end Runs

end Pussycoin.Mw
