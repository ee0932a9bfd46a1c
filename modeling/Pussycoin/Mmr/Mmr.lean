import Pussycoin.Mmr.Index
import Pussycoin.File.AppendOnlyFile
import Pussycoin.Runs

/-! The MMRs of libmw (`mmr/MMR.h`, `MemMMR.cpp`, `PMMR.cpp`, `PMMRCache.cpp`,
`IMMR.cpp`). The hash function is a parameter: `Hasher.leaf` is `Leaf::CalcHash`, the
hash of a leaf's position and data, and `Hasher.parent` is `MMRUtil::CalcParentHash`.
A `PMMRCache` over the MMR it is backed by is one value of `MmrStack`. A `PMMR` is read
without a prune list, and its leaf database, which only `GetLeaf` reads, is left out. -/
namespace Pussycoin.Mmr

structure Hasher (D Η : Type) where
  zero : Η
  leaf : ℕ → D → Η
  parent : ℕ → Η → Η → Η

/-- `mmr::Leaf`. -/
structure Leaf (D Η : Type) where
  leafIndex : LeafIndex
  hash : Η
  data : D

variable {D Η : Type}

/-- `Leaf::Create`. -/
def Leaf.create (hasher : Hasher D Η) (leafIndex : LeafIndex) (data : D) : Leaf D Η :=
  ⟨leafIndex, hasher.leaf leafIndex.position data, data⟩

/-- The loop of `AddLeaf` after the leaf's own hash: while the next position is a
parent, its hash is taken from its left child, read through `getHash`, and the hash
added last. Heights of 64-bit positions are below 64, which bounds the loop. -/
def addParents {σ : Type} (parent : ℕ → Η → Η → Η) (getHash : σ → Index → Option Η)
    (push : σ → Η → σ) : ℕ → σ → Index → Η → Option σ
  | 0, _, _, _ => none
  | fuel + 1, s, nextIdx, rightHash =>
    if nextIdx.isLeaf then some s
    else do
      let leftHash ← getHash s nextIdx.leftChild
      let hash := parent nextIdx.position leftHash rightHash
      addParents parent getHash push fuel (push s hash) nextIdx.next hash

/-- What every push keeps, the loop keeps. -/
theorem addParents_invariant {σ : Type} {parent : ℕ → Η → Η → Η} {getHash : σ → Index → Option Η}
    {push : σ → Η → σ} (P : σ → Prop) (pushes : ∀ s hash, P s → P (push s hash)) :
    ∀ (fuel : ℕ) {s s' : σ} {nextIdx : Index} {rightHash : Η}, P s →
      addParents parent getHash push fuel s nextIdx rightHash = some s' → P s'
  | 0, _, _, _, _, _, done => by cases done
  | fuel + 1, s, s', nextIdx, rightHash, holds, done => by
    unfold addParents at done
    split at done
    · cases done
      exact holds
    · simp only [Option.bind_eq_bind, Option.bind_eq_some_iff] at done
      obtain ⟨leftHash, _, rest⟩ := done
      exact addParents_invariant P pushes fuel (pushes s _ holds) rest

/-- `MemMMR::AddLeaf` on the hashes. -/
def MemMMR.addLeaf (hasher : Hasher D Η) (hashes : List Η) (leaf : Leaf D Η) : Option (List Η) :=
  addParents hasher.parent (fun hashes idx => hashes[idx.position]?) (fun hashes hash => hashes ++ [hash])
    64 (hashes ++ [leaf.hash]) leaf.leafIndex.nodeIndex.next leaf.hash

/-- `PMMR::AddLeaf` on the hash file. -/
def PMMR.addLeaf (hasher : Hasher D Η) (hashFile : AppendOnlyFile Η) (leaf : Leaf D Η) :
    Option (AppendOnlyFile Η) :=
  addParents hasher.parent (fun file idx => file.read idx.position) (fun file hash => file.append [hash])
    64 (hashFile.append [leaf.hash]) leaf.leafIndex.nodeIndex.next leaf.hash

/-- `PMMR::Rewind`. -/
def PMMR.rewind (hashFile : AppendOnlyFile Η) (numLeaves : ℕ) : Option (AppendOnlyFile Η) :=
  hashFile.rewind (LeafIndex.at numLeaves).position

/-- `PMMR::BatchWrite`: rewind to the first leaf, add the leaves, commit the file. -/
def PMMR.batchWrite (hasher : Hasher D Η) (hashFile : AppendOnlyFile Η) (firstLeafIdx : LeafIndex)
    (leaves : List (Leaf D Η)) : Option (AppendOnlyFile Η) := do
  let rewound ← PMMR.rewind hashFile firstLeafIdx.leafIndex
  let added ← leaves.foldlM (PMMR.addLeaf hasher) rewound
  added.commit hasher.zero

/-- `AddLeaf` on a hash file only appends to its buffer. -/
theorem PMMR.addLeaf_committed {hasher : Hasher D Η} {hashFile added : AppendOnlyFile Η}
    {leaf : Leaf D Η} (done : PMMR.addLeaf hasher hashFile leaf = some added) :
    added.file = hashFile.file ∧ added.fileSize = hashFile.fileSize ∧
      added.bufferIndex = hashFile.bufferIndex := by
  unfold PMMR.addLeaf at done
  refine addParents_invariant (fun g : AppendOnlyFile Η => g.file = hashFile.file ∧
    g.fileSize = hashFile.fileSize ∧ g.bufferIndex = hashFile.bufferIndex) ?_ 64 ?_ done
  · intro _ _ kept
    exact kept
  · exact ⟨rfl, rfl, rfl⟩

/-- A batch that starts below the committed size of the hash file leaves the old hashes
in the file at every position below the new size, where the batch's own hashes belong. -/
theorem PMMR.batchWrite_keeps_old_records {hasher : Hasher D Η} {hashFile written : AppendOnlyFile Η}
    {firstLeafIdx : LeafIndex} {leaves : List (Leaf D Η)}
    (committed : hashFile.fileSize = hashFile.bufferIndex)
    (below : (LeafIndex.at firstLeafIdx.leafIndex).position < hashFile.fileSize)
    (done : PMMR.batchWrite hasher hashFile firstLeafIdx leaves = some written) {p : ℕ}
    (old : p < hashFile.file.length) (inside : p < written.file.length) :
    written.file[p]? = hashFile.file[p]? := by
  simp only [PMMR.batchWrite, PMMR.rewind, Option.bind_eq_bind, Option.bind_eq_some_iff] at done
  obtain ⟨rewound, rewind_done, added, add_done, commit_done⟩ := done
  -- the rewind only moves the buffer index, below the committed size
  have moved : rewound.file = hashFile.file ∧ rewound.fileSize = hashFile.fileSize ∧
      rewound.bufferIndex = (LeafIndex.at firstLeafIdx.leafIndex).position := by
    unfold AppendOnlyFile.rewind at rewind_done
    rw [if_neg (by omega), if_neg (by omega), if_pos (by omega)] at rewind_done
    cases rewind_done
    exact ⟨rfl, rfl, rfl⟩
  have kept := Runs.foldlM_invariant
    (P := fun g : AppendOnlyFile Η => g.file = rewound.file ∧ g.fileSize = rewound.fileSize ∧
      g.bufferIndex = rewound.bufferIndex)
    (fun _ _ _ ⟨file, size, index⟩ step => by
      obtain ⟨file', size', index'⟩ := PMMR.addLeaf_committed step
      exact ⟨file'.trans file, size'.trans size, index'.trans index⟩)
    leaves ⟨rfl, rfl, rfl⟩ add_done
  have same_file : added.file = hashFile.file := kept.1.trans moved.1
  rw [AppendOnlyFile.commit_keeps_old_records hasher.zero (by omega) commit_done
    (same_file ▸ old) inside, same_file]

/-- An `IMMR` with the caches stacked on it. -/
inductive MmrStack (D Η : Type)
  | memMMR (hashes : List Η) (leaves : List (Leaf D Η))
  | pmmr (hashFile : AppendOnlyFile Η)
  | pmmrCache (firstLeaf : LeafIndex) (leaves : List (Leaf D Η)) (nodes : List Η) (base : MmrStack D Η)

namespace MmrStack

/-- `GetHash`, which asserts that the position was written. -/
def getHash : MmrStack D Η → Index → Option Η
  | memMMR hashes _, idx => hashes[idx.position]?
  | pmmr hashFile, idx => hashFile.read idx.position
  | pmmrCache firstLeaf _ nodes base, idx =>
    if idx.position < firstLeaf.position then base.getHash idx
    else nodes[idx.position - firstLeaf.position]?

/-- `GetNextLeafIdx`. -/
def getNextLeafIdx : MmrStack D Η → LeafIndex
  | memMMR _ leaves => LeafIndex.at leaves.length
  | pmmr hashFile => LeafIndex.at (Index.at hashFile.getSize).leafIndex
  | pmmrCache firstLeaf leaves _ _ =>
    match leaves.getLast? with
    | none => firstLeaf
    | some leaf => leaf.leafIndex.next

/-- `PMMRCache(pBacked)`: an empty cache that starts at the next leaf of its base. -/
def newPMMRCache (base : MmrStack D Η) : MmrStack D Η := pmmrCache base.getNextLeafIdx [] [] base

def getNumLeaves (s : MmrStack D Η) : ℕ := s.getNextLeafIdx.leafIndex

def getNumNodes (s : MmrStack D Η) : ℕ := s.getNextLeafIdx.position

/-- `AddLeaf`. A cache reads the left children through itself, and so through its
base below the first leaf. -/
def addLeaf (hasher : Hasher D Η) (leaf : Leaf D Η) : MmrStack D Η → Option (MmrStack D Η)
  | memMMR hashes leaves => (MemMMR.addLeaf hasher hashes leaf).map (memMMR · (leaves ++ [leaf]))
  | pmmr hashFile => (PMMR.addLeaf hasher hashFile leaf).map pmmr
  | pmmrCache firstLeaf leaves nodes base =>
    (addParents hasher.parent (fun nodes idx => (pmmrCache firstLeaf leaves nodes base).getHash idx)
      (fun nodes hash => nodes ++ [hash]) 64 (nodes ++ [leaf.hash]) leaf.leafIndex.nodeIndex.next
      leaf.hash).map (pmmrCache firstLeaf (leaves ++ [leaf]) · base)

/-- `IMMR::Add`: a new leaf at the next leaf index. -/
def add (hasher : Hasher D Η) (data : D) (s : MmrStack D Η) : Option (MmrStack D Η) :=
  s.addLeaf hasher (Leaf.create hasher s.getNextLeafIdx data)

/-- `Rewind`. A cache rewound to its first leaf or below starts again there; otherwise
it keeps its leaves below the new count and the nodes up to their last one. -/
def rewind (zero : Η) (numLeaves : ℕ) : MmrStack D Η → Option (MmrStack D Η)
  | memMMR hashes leaves =>
    if numLeaves ≤ leaves.length then
      some (memMMR (resize zero hashes (LeafIndex.at numLeaves).position) (leaves.take numLeaves))
    else none
  | pmmr hashFile => (PMMR.rewind hashFile numLeaves).map pmmr
  | pmmrCache firstLeaf leaves nodes base =>
    let nextLeaf := LeafIndex.at numLeaves
    if nextLeaf.leafIndex ≤ firstLeaf.leafIndex then some (pmmrCache nextLeaf [] [] base)
    else if leaves.isEmpty then some (pmmrCache firstLeaf leaves nodes base)
    else
      let kept := leaves.takeWhile fun leaf => leaf.leafIndex.leafIndex < nextLeaf.leafIndex
      let numNodes := (pmmrCache firstLeaf kept nodes base).getNumNodes - firstLeaf.position
      some (pmmrCache firstLeaf kept (if nodes.length > numNodes then nodes.take numNodes else nodes) base)

/-- `BatchWrite`. A `MemMMR` ignores the batch; a cache rewinds and adds the leaves'
data again. -/
def batchWrite (hasher : Hasher D Η) (firstLeafIdx : LeafIndex) (leaves : List (Leaf D Η)) :
    MmrStack D Η → Option (MmrStack D Η)
  | memMMR hashes leaves' => some (memMMR hashes leaves')
  | pmmr hashFile => (PMMR.batchWrite hasher hashFile firstLeafIdx leaves).map pmmr
  | pmmrCache firstLeaf leaves' nodes base => do
    let rewound ← (pmmrCache firstLeaf leaves' nodes base).rewind hasher.zero firstLeafIdx.leafIndex
    leaves.foldlM (fun s leaf => s.add hasher leaf.data) rewound

/-- `PMMRCache::Flush`: the leaves go to the base, and the cache starts again at its
next leaf. -/
def flush (hasher : Hasher D Η) : MmrStack D Η → Option (MmrStack D Η)
  | pmmrCache firstLeaf leaves nodes base => do
    let written ← base.batchWrite hasher firstLeaf leaves
    some (pmmrCache (pmmrCache firstLeaf leaves nodes base).getNextLeafIdx [] [] written)
  | _ => none

/-- `IMMR::Root`: the peaks are bagged from the right, the first one standing alone while
the bag is still the zero hash. -/
def root [DecidableEq Η] (hasher : Hasher D Η) (s : MmrStack D Η) : Option Η := do
  let peaks ← calcPeakIndices s.getNumNodes
  peaks.reverse.foldlM
    (fun hash peak => do
      let peakHash ← s.getHash peak
      pure (if hash = hasher.zero then peakHash else hasher.parent s.getNumNodes peakHash hash))
    hasher.zero

end MmrStack

/-- The operations on an MMR and its caches. -/
inductive MmrOp (D : Type)
  | add (data : D)
  | rewind (numLeaves : ℕ)
  | flush

namespace MmrStack

/-- One operation on the top; an MMR that is not a cache has nothing to flush. -/
def step (hasher : Hasher D Η) (s : MmrStack D Η) : MmrOp D → Option (MmrStack D Η)
  | .add data => s.add hasher data
  | .rewind numLeaves => s.rewind hasher.zero numLeaves
  | .flush =>
    match s with
    | pmmrCache .. => s.flush hasher
    | _ => some s

def run (hasher : Hasher D Η) (s : MmrStack D Η) (ops : List (MmrOp D)) : Option (MmrStack D Η) :=
  ops.foldlM (step hasher) s

end MmrStack

/-! ### Free hashes

The hashes as the terms that compute them: two hashes are equal exactly when they were
built from the same positions and data, so a difference between two runs over free hashes
is a difference of the MMRs themselves, for every hash function without collisions. -/

/-- The hash of a leaf, a parent or a byte string as the term that computes it. -/
inductive HashTerm (D : Type)
  | zero
  | leaf (position : ℕ) (data : D)
  | parent (position : ℕ) (left right : HashTerm D)
  | bytes (data : List UInt8)
  deriving DecidableEq, Repr

def freeHasher {D : Type} : Hasher D (HashTerm D) := ⟨.zero, .leaf, .parent⟩

end Pussycoin.Mmr
