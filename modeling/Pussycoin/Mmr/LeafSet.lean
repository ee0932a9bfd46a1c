import Pussycoin.Bitmap

/-! The leaf sets of libmw (`mmr/ILeafSet.cpp`, `LeafSet.cpp`, `LeafSetCache.cpp`): a
bitmap over leaf indices, most significant bit first, with a next leaf index. A
`LeafSet` keeps its bytes in a memory-mapped file behind an 8-byte header and a map of
modified bytes; a `LeafSetCache` keeps modified bytes over the leaf set it is backed by.
A stack of caches over a `LeafSet` is one value of `LeafSetStack`, and the methods of
`ILeafSet` act on its top. Maps are functions, and the mapped file reads 0 past its end.

The abstract leaf set is a finite set of indices below a bound; every layer of a stack
reachable by the leaf-set operations represents the set of its operations. -/
namespace Pussycoin.Mmr

/-- `ILeafSet::BitToByte`. -/
def bitToByte (bit : ℕ) : UInt8 := UInt8.ofNat (1 <<< (7 - bit))

/-- A `LeafSet` with the caches stacked on it; the top of the stack is the object the
methods act on. -/
inductive LeafSetStack
  /-- `LeafSet`: the mapped file, whose first 8 bytes hold the next leaf index, the
  modified bytes keyed like the file, and `m_nextLeafIdx`. -/
  | leafSet (mmap : ℕ → UInt8) (modifiedBytes : ℕ → Option UInt8) (nextLeafIdx : ℕ)
  /-- `LeafSetCache` over `backed`. -/
  | cache (modifiedBytes : ℕ → Option UInt8) (nextLeafIdx : ℕ) (backed : LeafSetStack)

namespace LeafSetStack

/-- `GetByte`: a `LeafSet` reads past its 8-byte header. -/
def getByte : LeafSetStack → ℕ → UInt8
  | leafSet mmap modifiedBytes _, byteIdx => (modifiedBytes (byteIdx + 8)).getD (mmap (byteIdx + 8))
  | cache modifiedBytes _ backed, byteIdx => (modifiedBytes byteIdx).getD (backed.getByte byteIdx)

/-- `SetByte`. -/
def setByte : LeafSetStack → ℕ → UInt8 → LeafSetStack
  | leafSet mmap modifiedBytes next, byteIdx, value =>
    leafSet mmap (Function.update modifiedBytes (byteIdx + 8) (some value)) next
  | cache modifiedBytes next backed, byteIdx, value =>
    cache (Function.update modifiedBytes byteIdx (some value)) next backed

/-- `GetNextLeafIdx`. -/
def nextLeafIdx : LeafSetStack → ℕ
  | leafSet _ _ next => next
  | cache _ next _ => next

def setNextLeafIdx : LeafSetStack → ℕ → LeafSetStack
  | leafSet mmap modifiedBytes _, next => leafSet mmap modifiedBytes next
  | cache modifiedBytes _ backed, next => cache modifiedBytes next backed

variable {s : LeafSetStack} {k k' n : ℕ} {v : UInt8}

@[simp] theorem getByte_setByte :
    (s.setByte k v).getByte k' = if k' = k then v else s.getByte k' := by
  cases s <;> by_cases same : k' = k <;> simp [getByte, setByte, Function.update, same]

@[simp] theorem nextLeafIdx_setByte : (s.setByte k v).nextLeafIdx = s.nextLeafIdx := by
  cases s <;> rfl

@[simp] theorem getByte_setNextLeafIdx : (s.setNextLeafIdx n).getByte k = s.getByte k := by
  cases s <;> rfl

@[simp] theorem nextLeafIdx_setNextLeafIdx : (s.setNextLeafIdx n).nextLeafIdx = n := by
  cases s <;> rfl

/-! ### The methods of `ILeafSet` -/

/-- `ILeafSet::Add`. -/
def add (s : LeafSetStack) (idx : ℕ) : LeafSetStack :=
  let s' := s.setByte (idx / 8) (s.getByte (idx / 8) ||| bitToByte (idx % 8))
  if idx ≥ s'.nextLeafIdx then s'.setNextLeafIdx (idx + 1) else s'

/-- `ILeafSet::Remove`. -/
def remove (s : LeafSetStack) (idx : ℕ) : LeafSetStack :=
  s.setByte (idx / 8) (s.getByte (idx / 8) &&& (0xff ^^^ bitToByte (idx % 8)))

/-- `ILeafSet::Contains`. -/
def contains (s : LeafSetStack) (idx : ℕ) : Bool :=
  s.getByte (idx / 8) &&& bitToByte (idx % 8) != 0

/-- `ILeafSet::Root`: the hash of the first `⌈next / 8⌉` bytes. -/
def root {Η : Type} (hashed : List UInt8 → Η) (s : LeafSetStack) : Η :=
  hashed ((List.range ((s.nextLeafIdx + 7) / 8)).map s.getByte)

/-- The loop `for (i = lo; i < hi; i++) Remove(i)`. -/
def removeRange (s : LeafSetStack) (lo hi : ℕ) : LeafSetStack :=
  (List.range' lo (hi - lo)).foldl remove s

/-- `ILeafSet::Rewind`. -/
def rewind (s : LeafSetStack) (numLeaves : ℕ) (leavesToAdd : List ℕ) : LeafSetStack :=
  let s' := leavesToAdd.foldl add s
  (s'.removeRange numLeaves s'.nextLeafIdx).setNextLeafIdx numLeaves

/-! ### Flushing -/

/-- The 8-byte header of a leaf set file: the next leaf index, little-endian. -/
def serializedNext (next : ℕ) (p : ℕ) : UInt8 := UInt8.ofNat (next >>> (8 * p))

/-- `LeafSet::Flush`: the header and the modified bytes are written into a copy of the
file, which is mapped again. -/
def flushFile : LeafSetStack → LeafSetStack
  | leafSet mmap modifiedBytes next =>
    let written := fun p => if p < 8 then some (serializedNext next p) else modifiedBytes p
    leafSet (fun p => (written p).getD (mmap p)) (fun _ => none) next
  | s => s

/-- `ApplyUpdates` of the object below a flushing cache. -/
def applyUpdates : LeafSetStack → ℕ → (ℕ → Option UInt8) → LeafSetStack
  | leafSet mmap modifiedBytes next, nextLeafIdx, updates =>
    let merged := leafSet mmap
      (fun p => if 8 ≤ p then (updates (p - 8)).or (modifiedBytes p) else modifiedBytes p) next
    -- in case of rewind, everything from the new next leaf index up is cleared
    ((merged.removeRange nextLeafIdx next).setNextLeafIdx nextLeafIdx).flushFile
  | cache modifiedBytes _ backed, nextLeafIdx, updates =>
    cache (fun p => (updates p).or (modifiedBytes p)) nextLeafIdx backed

/-- `Flush` of the top: a cache hands its bytes to the object below it, and a `LeafSet`
writes its file. -/
def flush : LeafSetStack → LeafSetStack
  | cache modifiedBytes next backed => cache (fun _ => none) next (backed.applyUpdates next modifiedBytes)
  | s => s.flushFile

/-- `LeafSetCache(pBacked)`: a new cache on the top. -/
def push (s : LeafSetStack) : LeafSetStack := cache (fun _ => none) s.nextLeafIdx s

/-- The cache at depth `depth` (0 for the top) flushes. -/
def flushAt : ℕ → LeafSetStack → LeafSetStack
  | 0, s => s.flush
  | depth + 1, cache modifiedBytes next backed => cache modifiedBytes next (flushAt depth backed)
  | _ + 1, s => s

/-- The `LeafSet` at the bottom of the stack. -/
def bottom : LeafSetStack → LeafSetStack
  | cache _ _ backed => backed.bottom
  | s => s

/-- The number of caches on the `LeafSet`. -/
def depth : LeafSetStack → ℕ
  | cache _ _ backed => backed.depth + 1
  | leafSet .. => 0

/-- Every layer flushes, from the top down. -/
def flushAll (s : LeafSetStack) : LeafSetStack :=
  (List.range (s.depth + 1)).foldl (fun t d => t.flushAt d) s

/-- An empty leaf set file. -/
def empty : LeafSetStack := leafSet (fun _ => 0) (fun _ => none) 0

end LeafSetStack

/-- The operations of a leaf set and of its stack of caches. -/
inductive LeafSetOp
  | add (idx : ℕ)
  | remove (idx : ℕ)
  | rewind (numLeaves : ℕ) (leavesToAdd : List ℕ)
  | push
  | flushAt (depth : ℕ)
  deriving Repr, DecidableEq

/-- One operation: the leaf-set methods act on the top. -/
def LeafSetStack.step (s : LeafSetStack) : LeafSetOp → LeafSetStack
  | .add idx => s.add idx
  | .remove idx => s.remove idx
  | .rewind numLeaves leavesToAdd => s.rewind numLeaves leavesToAdd
  | .push => s.push
  | .flushAt depth => s.flushAt depth

/-- The stack after a sequence of operations. -/
def LeafSetStack.run (s : LeafSetStack) (ops : List LeafSetOp) : LeafSetStack := ops.foldl step s

/-! ## The abstract leaf set -/

/-- A set of leaf indices below a bound. -/
structure LeafSetSpec where
  leaves : Finset ℕ
  bound : ℕ
  bounded : ∀ i ∈ leaves, i < bound

namespace LeafSetSpec

def empty : LeafSetSpec := ⟨∅, 0, by simp⟩

def add (spec : LeafSetSpec) (idx : ℕ) : LeafSetSpec where
  leaves := insert idx spec.leaves
  bound := max spec.bound (idx + 1)
  bounded i member := by
    rcases Finset.mem_insert.1 member with rfl | old
    · omega
    · have := spec.bounded i old
      omega

def remove (spec : LeafSetSpec) (idx : ℕ) : LeafSetSpec where
  leaves := spec.leaves.erase idx
  bound := spec.bound
  bounded i member := spec.bounded i (Finset.mem_of_mem_erase member)

/-- Rewind: the leaves to add come back, everything from `numLeaves` up goes, and the
bound becomes `numLeaves`. -/
def rewind (spec : LeafSetSpec) (numLeaves : ℕ) (leavesToAdd : List ℕ) : LeafSetSpec where
  leaves := (spec.leaves ∪ leavesToAdd.toFinset).filter (· < numLeaves)
  bound := numLeaves
  bounded _ member := (Finset.mem_filter.1 member).2

/-- The operations on the abstract leaf set; caches and flushes do not change it. -/
def step (spec : LeafSetSpec) : LeafSetOp → LeafSetSpec
  | .add idx => spec.add idx
  | .remove idx => spec.remove idx
  | .rewind numLeaves leavesToAdd => spec.rewind numLeaves leavesToAdd
  | .push | .flushAt _ => spec

def run (spec : LeafSetSpec) (ops : List LeafSetOp) : LeafSetSpec := ops.foldl step spec

/-- The canonical bitmap: byte `k` holds the leaves `8k … 8k + 7`, most significant bit
first, for the `⌈bound / 8⌉` bytes that cover the bound. -/
def bitmap (spec : LeafSetSpec) : List UInt8 :=
  (List.range ((spec.bound + 7) / 8)).map fun k =>
    Bitmap.ofBits fun j => decide (8 * k + j ∈ spec.leaves)

end LeafSetSpec

end Pussycoin.Mmr
