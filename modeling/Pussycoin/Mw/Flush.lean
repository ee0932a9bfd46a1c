import Pussycoin.Mw.CoinsView

/-! Flushing a coins cache into its base (`CoinsViewCache::Flush`), after a reorganisation
inside the cache. -/
namespace Pussycoin.Mw

open Pussycoin.Mmr Runs

variable {Η : Type} [DecidableEq Η]

/-- `ApplyBlock` asks the curve only for the kernel sums of the block. -/
theorem CacheLayer.applyBlock_of_kernelSums {crypto crypto' : Crypto}
    (same : crypto.kernelSumsForBlock = crypto'.kernelSumsForBlock) (hashing : Hashing Η) (base : CoinsView Η)
    (block : Block Η) (layer : CacheLayer Η) :
    layer.applyBlock hashing base crypto block = layer.applyBlock hashing base crypto' block := by
  simp only [CacheLayer.applyBlock, same]

def emptyDb : CoinsView (HashTerm ℕ) :=
  .db ⟨none, fun _ => none, fun _ => 0, fun _ => none, 0, AppendOnlyFile.load []⟩

/-- A block with one output, whose header commits to the given output root and leaf-set
byte. -/
def oneOutputBlock (height outputId : ℕ) (outputRoot : HashTerm ℕ) (leafSetByte : UInt8) :
    Block (HashTerm ℕ) :=
  ⟨⟨height, outputRoot, .zero, .bytes [leafSetByte], 0, 0, height, 0⟩,
    ⟨[], [⟨outputId, 100 + outputId, true, 0⟩], []⟩⟩

def firstBlock : Block (HashTerm ℕ) := oneOutputBlock 1 1 (.leaf 0 1) 0x80

def secondBlock : Block (HashTerm ℕ) := oneOutputBlock 2 2 (.parent 2 (.leaf 0 1) (.leaf 1 2)) 0xC0

def replacementBlock : Block (HashTerm ℕ) := oneOutputBlock 2 3 (.parent 2 (.leaf 0 1) (.leaf 1 3)) 0xC0

/-- Two blocks are connected in a cache over an empty database and flushed; the second is
disconnected with the undo data its connection returned, a replacement is connected, and
the cache is flushed again. The result is the cache's view before the second flush and
the database after it. -/
def reorgThenFlush (crypto : Crypto) : Result (CoinsView (HashTerm ℕ) × CoinsView (HashTerm ℕ)) := do
  let (layer, _) ← (CacheLayer.new emptyDb).applyBlock freeHashing emptyDb crypto firstBlock
  let (layer, undo) ← layer.applyBlock freeHashing emptyDb crypto secondBlock
  let .cache layer db ← layer.flush freeHashing emptyDb | throw .assertion
  let layer ← layer.undoBlock freeHashing db undo
  let (layer, _) ← layer.applyBlock freeHashing db crypto replacementBlock
  let .cache _ db' ← layer.flush freeHashing db | throw .assertion
  pure (.cache layer db, db')

/-- After the second flush the database's output PMMR still has the replaced output's leaf
hash: its root is the one the disconnected block committed to, while the cache answered
the replacement's root before the flush, and the database's best header commits to it. -/
theorem flush_after_reorg_keeps_replaced_output (crypto : Crypto)
    (sums : ∀ body offset prevOffset, crypto.kernelSumsForBlock body offset prevOffset = true) :
    ∃ child parent, reorgThenFlush crypto = .ok (child, parent) ∧
      child.getOutputPMMR.root freeHashing.output = some (.parent 2 (.leaf 0 1) (.leaf 1 3)) ∧
      parent.getOutputPMMR.root freeHashing.output = some (.parent 2 (.leaf 0 1) (.leaf 1 2)) ∧
      parent.getBestHeader = some replacementBlock.header := by
  have kernelSums : crypto.kernelSumsForBlock = acceptingCrypto.kernelSumsForBlock :=
    funext fun body => funext fun offset => funext fun prevOffset => sums body offset prevOffset
  have same : reorgThenFlush crypto = reorgThenFlush acceptingCrypto := by
    unfold reorgThenFlush
    simp only [CacheLayer.applyBlock_of_kernelSums kernelSums]
  rw [same]
  exact ⟨_, _, rfl, rfl, rfl, rfl⟩

theorem flush_after_reorg_keeps_replaced_output_accepting :
    (∀ body offset prevOffset, acceptingCrypto.kernelSumsForBlock body offset prevOffset = true) ∧
      ∃ child parent, reorgThenFlush acceptingCrypto = .ok (child, parent) ∧
        child.getOutputPMMR.root freeHashing.output = some (.parent 2 (.leaf 0 1) (.leaf 1 3)) ∧
        parent.getOutputPMMR.root freeHashing.output = some (.parent 2 (.leaf 0 1) (.leaf 1 2)) ∧
        parent.getBestHeader = some replacementBlock.header :=
  ⟨fun _ _ _ => rfl, flush_after_reorg_keeps_replaced_output acceptingCrypto fun _ _ _ => rfl⟩

end Pussycoin.Mw
