import Pussycoin.Mmr.Mmr

/-! Flushing a `PMMRCache` into a `PMMR` after a rewind, with the hashes as free terms. -/
namespace Pussycoin.Mmr

/-- Two leaves, a flush, a rewind to one leaf, a third leaf in place of the second, and a
second flush. -/
def rewriteOps : List (MmrOp ℕ) := [.add 10, .add 11, .flush, .rewind 1, .add 12, .flush]

/-- A cache over an empty hash file, and the in-memory MMR it is compared with. -/
def cacheOverFile : MmrStack ℕ (HashTerm ℕ) := (MmrStack.pmmr (AppendOnlyFile.load [])).newPMMRCache

def emptyMemMMR : MmrStack ℕ (HashTerm ℕ) := .memMMR [] []

/-- After the second flush the hash file still holds the second leaf and the parent built
on it: the batch was appended past the old end and cut away, so the cache reads the old
leaf hash and the old root where the in-memory MMR has the new ones. -/
theorem pmmrCache_flush_keeps_rewound_leaf :
    (cacheOverFile.run freeHasher rewriteOps).bind (·.getHash (Index.at 1)) = some (.leaf 1 11) ∧
      (emptyMemMMR.run freeHasher rewriteOps).bind (·.getHash (Index.at 1)) = some (.leaf 1 12) ∧
      (cacheOverFile.run freeHasher rewriteOps).bind (·.root freeHasher) =
        some (.parent 2 (.leaf 0 10) (.leaf 1 11)) ∧
      (emptyMemMMR.run freeHasher rewriteOps).bind (·.root freeHasher) =
        some (.parent 2 (.leaf 0 10) (.leaf 1 12)) := by
  decide

end Pussycoin.Mmr
