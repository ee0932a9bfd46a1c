import Pussycoin.Mountain

/-! Node positions of the MMRs of libmw (`mmr/Index.cpp`, `mmr/LeafIndex.h`,
`util/BitUtil.h`, `MMRUtil::CalcPeakIndices`). Positions are `uint64_t` in the source and
natural numbers here; each loop over the bits of a position runs at most 64 times. On
positions below `2^64` the loops compute the heights and leaf positions of `Mountain`. -/
namespace Pussycoin.Mmr

/-- `BitUtil::FillOnesToRight`. -/
def fillOnesToRight (input : ℕ) : ℕ :=
  let x := input ||| input >>> 1
  let x := x ||| x >>> 2
  let x := x ||| x >>> 4
  let x := x ||| x >>> 8
  let x := x ||| x >>> 16
  x ||| x >>> 32

def countBitsSetLoop : ℕ → ℕ → ℕ → ℕ
  | 0, _, count => count
  | bits + 1, n, count =>
    if n = 0 then count else countBitsSetLoop bits (n >>> 1) (count + (n &&& 1))

/-- `BitUtil::CountBitsSet`. -/
def countBitsSet (input : ℕ) : ℕ := countBitsSetLoop 64 input 0

def calculateHeightLoop : ℕ → ℕ → ℕ → ℕ
  | 0, _, height => height
  | bits + 1, peakSize, height =>
    if peakSize = 0 then height
    else calculateHeightLoop bits (peakSize >>> 1) (if height ≥ peakSize then height - peakSize else height)

/-- `Index::CalculateHeight`. -/
def calculateHeight (position : ℕ) : ℕ :=
  calculateHeightLoop 64 (fillOnesToRight position) position

def calculateLeafIndexLoop : ℕ → ℕ → ℕ → ℕ → ℕ
  | 0, _, _, leafIndex => leafIndex
  | bits + 1, peakSize, numLeft, leafIndex =>
    if peakSize = 0 then leafIndex
    else if numLeft ≥ peakSize then
      calculateLeafIndexLoop bits (peakSize >>> 1) (numLeft - peakSize) (leafIndex + (peakSize + 1) / 2)
    else calculateLeafIndexLoop bits (peakSize >>> 1) numLeft leafIndex

/-- `Index::CalculateLeafIndex`. -/
def calculateLeafIndex (position : ℕ) : ℕ :=
  calculateLeafIndexLoop 64 (fillOnesToRight position) position 0

/-- `mmr::Index`: a position and the height of the node there. -/
structure Index where
  position : ℕ
  height : ℕ
  deriving Repr, DecidableEq

/-- `Index::At`. -/
def Index.at (position : ℕ) : Index := ⟨position, calculateHeight position⟩

namespace Index

def isLeaf (idx : Index) : Bool := idx.height == 0

def next (idx : Index) : Index := Index.at (idx.position + 1)

/-- `Index::GetParent`: the next node when it is one level up, where the node is a right
child, and otherwise the node `2^(height+1)` on. -/
def parent (idx : Index) : Index :=
  if calculateHeight (idx.position + 1) = idx.height + 1 then ⟨idx.position + 1, idx.height + 1⟩
  else ⟨idx.position + 2 ^ (idx.height + 1), idx.height + 1⟩

/-- `Index::GetSibling`. -/
def sibling (idx : Index) : Index :=
  if calculateHeight (idx.position + 1) = idx.height + 1 then
    ⟨idx.position + 1 - 2 ^ (idx.height + 1), idx.height⟩
  else ⟨idx.position + 2 ^ (idx.height + 1) - 1, idx.height⟩

def leftChild (idx : Index) : Index := ⟨idx.position - 2 ^ idx.height, idx.height - 1⟩

/-- `Index::GetRightChild`, whose assertion that the node is not a leaf is left out. -/
def rightChild (idx : Index) : Index := ⟨idx.position - 1, idx.height - 1⟩

/-- `Index::GetLeafIndex`, whose assertion that the node is a leaf is left out. -/
def leafIndex (idx : Index) : ℕ := calculateLeafIndex idx.position

end Index

/-- `mmr::LeafIndex`: a leaf index and the position of its node. -/
structure LeafIndex where
  leafIndex : ℕ
  position : ℕ
  deriving Repr, DecidableEq

/-- `LeafIndex::At`, whose product `2 * leafIndex` and difference are `uint64_t` and wrap. -/
def LeafIndex.at (leafIndex : ℕ) : LeafIndex :=
  ⟨leafIndex, (2 * leafIndex % 2 ^ 64 + 2 ^ 64 - countBitsSet leafIndex) % 2 ^ 64⟩

namespace LeafIndex

def nodeIndex (idx : LeafIndex) : Index := ⟨idx.position, 0⟩

def next (idx : LeafIndex) : LeafIndex := LeafIndex.at (idx.leafIndex + 1)

end LeafIndex

/-- The loop of `MMRUtil::CalcPeakIndices`: the peaks it pushes, and what is left of
`numLeft`. -/
def calcPeakIndicesLoop : ℕ → ℕ → ℕ → ℕ → List Index → List Index × ℕ
  | 0, _, numLeft, _, peaks => (peaks, numLeft)
  | bits + 1, peakSize, numLeft, sumPrevPeaks, peaks =>
    if peakSize = 0 then (peaks, numLeft)
    else if numLeft ≥ peakSize then
      calcPeakIndicesLoop bits (peakSize >>> 1) (numLeft - peakSize) (sumPrevPeaks + peakSize)
        (peaks ++ [Index.at (sumPrevPeaks + peakSize - 1)])
    else calcPeakIndicesLoop bits (peakSize >>> 1) numLeft sumPrevPeaks peaks

/-- `MMRUtil::CalcPeakIndices`; `none` where its final assertion `numLeft == 0` fails. -/
def calcPeakIndices (numNodes : ℕ) : Option (List Index) :=
  if numNodes = 0 then some []
  else
    let result := calcPeakIndicesLoop 64 (fillOnesToRight numNodes) numNodes 0 []
    if result.2 = 0 then some result.1 else none

/-! ### The loops compute the layout of `Mountain` -/

theorem fillOnesToRight_eq_spread (x : ℕ) : fillOnesToRight x = Mountain.spread 6 x := rfl

theorem fillOnesToRight_eq {x : ℕ} (narrow : x < 2 ^ 64) : fillOnesToRight x = 2 ^ Nat.size x - 1 :=
  Mountain.spread_eq (m := 6) narrow

theorem size_le_of_lt {x : ℕ} (narrow : x < 2 ^ 64) : Nat.size x ≤ 64 := Nat.size_le.2 narrow

theorem countBitsSetLoop_eq {bits n : ℕ} (narrow : n < 2 ^ bits) (count : ℕ) :
    countBitsSetLoop bits n count = count + Mountain.ones n := by
  induction bits generalizing n count with
  | zero =>
    obtain rfl : n = 0 := by simpa using narrow
    simp [countBitsSetLoop]
  | succ bits ih =>
    rw [countBitsSetLoop]
    by_cases empty : n = 0
    · simp [empty]
    · have half : n >>> 1 < 2 ^ bits := by
        rw [Nat.shiftRight_one]
        rw [pow_succ] at narrow
        omega
      rw [if_neg empty, ih half, Nat.and_one_is_mod, Nat.shiftRight_one, Mountain.ones_eq n]
      omega

theorem countBitsSet_eq {n : ℕ} (narrow : n < 2 ^ 64) : countBitsSet n = Mountain.ones n := by
  rw [countBitsSet, countBitsSetLoop_eq narrow, zero_add]

/-- Below leaf `2^63` nothing wraps: the position of a leaf is the one `Mountain` gives it. -/
theorem position_at {n : ℕ} (narrow : n < 2 ^ 63) : (LeafIndex.at n).position = Mountain.leafPos n := by
  have fewer := Mountain.ones_le n
  simp only [LeafIndex.at, Mountain.leafPos, countBitsSet_eq (show n < 2 ^ 64 by omega)]
  omega

/-- With `peakSize = 2^k - 1`, each step halves to `2^(k-1) - 1`: the loop peels the
tree sizes. -/
theorem calculateHeightLoop_eq {bits k : ℕ} (enough : k ≤ bits) (height : ℕ) :
    calculateHeightLoop bits (2 ^ k - 1) height = Mountain.peel k height := by
  induction bits generalizing k height with
  | zero =>
    obtain rfl : k = 0 := by omega
    simp [calculateHeightLoop, Mountain.peel]
  | succ bits ih =>
    cases k with
    | zero => simp [calculateHeightLoop, Mountain.peel]
    | succ k =>
      have nonzero : 2 ^ (k + 1) - 1 ≠ 0 := by
        have := Nat.one_le_two_pow (n := k)
        rw [pow_succ]
        omega
      have halved : (2 ^ (k + 1) - 1) >>> 1 = 2 ^ k - 1 := by
        rw [Nat.shiftRight_one, pow_succ]
        omega
      rw [calculateHeightLoop, if_neg nonzero, halved, ih (by omega), Mountain.peel]

/-- `CalculateHeight` computes the height of a position. -/
theorem calculateHeight_eq {p : ℕ} (narrow : p < 2 ^ 64) : calculateHeight p = Mountain.height p := by
  rw [calculateHeight, fillOnesToRight_eq narrow, calculateHeightLoop_eq (size_le_of_lt narrow),
    Mountain.height_eq_peel]

/-- The loop adds only nodes that `Index::At` builds at positions below the number of nodes. -/
theorem mem_calcPeakIndicesLoop {bits peakSize numLeft sumPrevPeaks numNodes : ℕ} {peaks : List Index}
    (sum : sumPrevPeaks + numLeft = numNodes) :
    ∀ peak ∈ (calcPeakIndicesLoop bits peakSize numLeft sumPrevPeaks peaks).1,
      peak ∈ peaks ∨ ∃ q < numNodes, peak = Index.at q := by
  induction bits generalizing peakSize numLeft sumPrevPeaks peaks with
  | zero => exact fun peak member => .inl member
  | succ bits ih =>
    rw [calcPeakIndicesLoop]
    split
    · exact fun peak member => .inl member
    · split
      · intro peak member
        rcases ih (by omega) peak member with old | made
        · rcases List.mem_append.1 old with old | new
          · exact .inl old
          · exact .inr ⟨_, by omega, List.mem_singleton.1 new⟩
        · exact .inr made
      · exact ih sum

/-- Every peak is the node at a position below the number of nodes. -/
theorem mem_calcPeakIndices {numNodes : ℕ} {peaks : List Index} {peak : Index}
    (found : calcPeakIndices numNodes = some peaks) (member : peak ∈ peaks) :
    peak.position < numNodes ∧ peak = Index.at peak.position := by
  unfold calcPeakIndices at found
  split at found
  · cases found
    simp at member
  · dsimp only at found
    split at found
    · cases found
      rcases mem_calcPeakIndicesLoop (show 0 + numNodes = numNodes by omega) peak member with none | ⟨q, below, rfl⟩
      · simp at none
      · exact ⟨below, rfl⟩
    · cases found

/-- With `peakSize = 2^k - 1`, the loop peels the tree sizes and counts their leaves. -/
theorem calculateLeafIndexLoop_eq {bits k : ℕ} (enough : k ≤ bits) (numLeft leafIndex : ℕ) :
    calculateLeafIndexLoop bits (2 ^ k - 1) numLeft leafIndex = leafIndex + Mountain.peelLeaves k numLeft := by
  induction bits generalizing k numLeft leafIndex with
  | zero =>
    obtain rfl : k = 0 := by omega
    simp [calculateLeafIndexLoop, Mountain.peelLeaves]
  | succ bits ih =>
    cases k with
    | zero => simp [calculateLeafIndexLoop, Mountain.peelLeaves]
    | succ k =>
      have one := Nat.one_le_two_pow (n := k)
      have nonzero : 2 ^ (k + 1) - 1 ≠ 0 := by rw [pow_succ]; omega
      have halved : (2 ^ (k + 1) - 1) >>> 1 = 2 ^ k - 1 := by
        rw [Nat.shiftRight_one, pow_succ]
        omega
      have leaves : (2 ^ (k + 1) - 1 + 1) / 2 = 2 ^ k := by rw [pow_succ]; omega
      rw [calculateLeafIndexLoop, if_neg nonzero, Mountain.peelLeaves]
      split_ifs with fits
      · rw [halved, ih (by omega), leaves]
        ring
      · rw [halved, ih (by omega)]

/-- `CalculateLeafIndex` of the position of a leaf is its number. -/
theorem calculateLeafIndex_leafPos {i : ℕ} (narrow : Mountain.leafPos i < 2 ^ 64) :
    calculateLeafIndex (Mountain.leafPos i) = i := by
  have before : i ≤ Mountain.leafPos i := by
    have := Mountain.ones_le i
    unfold Mountain.leafPos
    omega
  rw [calculateLeafIndex, fillOnesToRight_eq narrow, calculateLeafIndexLoop_eq (size_le_of_lt narrow), zero_add,
    Mountain.peelLeaves_leafPos (before.trans_lt (Nat.lt_size_self _))]

/-! ### Parents and siblings -/

section Family

variable {p : ℕ} (narrow : p < 2 ^ 63)
include narrow

theorem height_at : (Index.at p).height = Mountain.height p :=
  calculateHeight_eq (by omega)

/-- A node below `2^63` has its parent below `2^64`. -/
theorem parent_lt : p + 2 ^ (Mountain.height p + 1) < 2 ^ 64 := by
  have fits := Mountain.two_pow_height_le p
  -- a power of two at most `2^63 + 1` is at most `2^63`
  have low : Mountain.height p + 1 ≤ 63 := by
    by_contra high
    have := Nat.pow_le_pow_right (n := 2) (by norm_num) (show 64 ≤ Mountain.height p + 1 by omega)
    omega
  have := Nat.pow_le_pow_right (n := 2) (by norm_num) low
  omega

/-- `GetParent` and `GetSibling` of a node below `2^63`: the parent is one level up, is the node
its position names, and has the node and its sibling as children; the sibling is at the
node's height. -/
theorem parent_sibling_spec :
    (Index.at p).parent.height = (Index.at p).height + 1 ∧
      (Index.at p).parent = Index.at (Index.at p).parent.position ∧
      ((Index.at p).parent.leftChild = (Index.at p).sibling ∧ (Index.at p).parent.rightChild = Index.at p ∨
        (Index.at p).parent.leftChild = Index.at p ∧ (Index.at p).parent.rightChild = (Index.at p).sibling) ∧
      (Index.at p).sibling = Index.at (Index.at p).sibling.position ∧
      (Index.at p).sibling.height = (Index.at p).height := by
  have up := parent_lt narrow
  have grow := Nat.one_le_two_pow (n := Mountain.height p)
  have atHeight : ∀ q, q < 2 ^ 64 → calculateHeight q = Mountain.height q := fun q small => calculateHeight_eq small
  simp only [Index.at, Index.parent, Index.sibling, Index.leftChild, Index.rightChild, atHeight p (by omega),
    atHeight (p + 1) (by omega)]
  rcases Mountain.height_family p with ⟨right, fits, left⟩ | ⟨leaf, right, up'⟩
  · -- a right child: the parent follows it, the sibling ends its left subtree
    simp only [right, if_true, Index.mk.injEq, true_and, Nat.add_sub_cancel, and_true]
    rw [atHeight (p + 1) (by omega), right, atHeight (p + 1 - 2 ^ (Mountain.height p + 1)) (by omega), left]
    exact ⟨rfl, .inl trivial, rfl⟩
  · -- a left child: its sibling's subtree follows it, then the parent
    have notParent : ¬ 0 = Mountain.height p + 1 := by omega
    simp only [leaf, notParent, if_false, Index.mk.injEq, true_and, and_true]
    rw [atHeight (p + 2 ^ (Mountain.height p + 1)) up, up',
      atHeight (p + 2 ^ (Mountain.height p + 1) - 1) (by omega), right]
    exact ⟨rfl, .inr ⟨⟨by omega, by omega⟩, by omega⟩, rfl⟩

end Family

/-! ### Leaves -/

theorem leafPos_lt {i : ℕ} (small : i < 2 ^ 63) : Mountain.leafPos i < 2 ^ 64 := by
  unfold Mountain.leafPos
  omega

/-- Leaf `i` is at `2i - popcount i`, a position of height 0 whose `GetLeafIndex` is `i`. -/
theorem leafIndex_at_spec {i : ℕ} (small : i < 2 ^ 63) :
    (LeafIndex.at i).position = 2 * i - Mountain.ones i ∧ (Index.at (LeafIndex.at i).position).height = 0 ∧
      (Index.at (LeafIndex.at i).position).leafIndex = i := by
  rw [position_at (by omega)]
  refine ⟨rfl, ?_, calculateLeafIndex_leafPos (leafPos_lt small)⟩
  rw [Index.at, calculateHeight_eq (leafPos_lt small), Mountain.height_leafPos]

theorem position_lt_position {i j : ℕ} (before : i < j) (small : j < 2 ^ 63) :
    (LeafIndex.at i).position < (LeafIndex.at j).position := by
  rw [position_at (by omega), position_at (by omega)]
  exact Mountain.leafPos_strictMono before

/-- The positions of height 0 below `2^63` are the leaf positions. -/
theorem height_at_eq_zero_iff {p : ℕ} (narrow : p < 2 ^ 63) :
    (Index.at p).height = 0 ↔ ∃ i < 2 ^ 63, (LeafIndex.at i).position = p := by
  rw [Index.at, calculateHeight_eq (by omega), Mountain.height_eq_zero_iff]
  constructor
  · rintro ⟨i, rfl⟩
    have before : i ≤ Mountain.leafPos i := by
      have := Mountain.ones_le i
      unfold Mountain.leafPos
      omega
    exact ⟨i, by omega, position_at (by omega)⟩
  · rintro ⟨i, small, rfl⟩
    exact ⟨i, (position_at (by omega)).symm⟩

/-- The index arithmetic of the MMRs below position `2^63`: `Index::At` gives the height of the
position in the unbounded range; the parent is one level up, is the node at its position, and
has the node and its sibling as its two children; the sibling is at the node's height; leaf
`i` is at `2i - popcount i`, where `GetLeafIndex` gives back `i`, and these positions increase
with `i` and are exactly those of height 0. -/
theorem mmr_index_consistent :
    (∀ p < 2 ^ 63, (Index.at p).height = Mountain.height p ∧
      (Index.at p).parent.height = (Index.at p).height + 1 ∧
      (Index.at p).parent = Index.at (Index.at p).parent.position ∧
      ((Index.at p).parent.leftChild = (Index.at p).sibling ∧ (Index.at p).parent.rightChild = Index.at p ∨
        (Index.at p).parent.leftChild = Index.at p ∧ (Index.at p).parent.rightChild = (Index.at p).sibling) ∧
      (Index.at p).sibling = Index.at (Index.at p).sibling.position ∧
      (Index.at p).sibling.height = (Index.at p).height) ∧
    (∀ i < 2 ^ 63, (LeafIndex.at i).position = 2 * i - Mountain.ones i ∧
      (Index.at (LeafIndex.at i).position).height = 0 ∧ (Index.at (LeafIndex.at i).position).leafIndex = i) ∧
    (∀ i j, i < j → j < 2 ^ 63 → (LeafIndex.at i).position < (LeafIndex.at j).position) ∧
    (∀ p < 2 ^ 63, (Index.at p).height = 0 ↔ ∃ i < 2 ^ 63, (LeafIndex.at i).position = p) :=
  ⟨fun _ narrow => ⟨height_at narrow, parent_sibling_spec narrow⟩, fun _ small => leafIndex_at_spec small,
    fun _ _ before small => position_lt_position before small, fun _ narrow => height_at_eq_zero_iff narrow⟩

theorem mmr_index_consistent_five :
    (Index.at 5).parent = Index.at (Index.at 5).parent.position ∧
      (Index.at (LeafIndex.at 3).position).leafIndex = 3 ∧
      (LeafIndex.at 3).position < (LeafIndex.at 4).position ∧
      ((Index.at 7).height = 0 ↔ ∃ i < 2 ^ 63, (LeafIndex.at i).position = 7) :=
  ⟨(mmr_index_consistent.1 5 (by norm_num)).2.2.1, (mmr_index_consistent.2.1 3 (by norm_num)).2.2,
    mmr_index_consistent.2.2.1 3 4 (by norm_num) (by norm_num), mmr_index_consistent.2.2.2 7 (by norm_num)⟩

/-- Past leaf `2^63` the product `2 * leafIndex` wraps: leaf `2^63 + 1` is put at position 0,
whose leaf index is 0. -/
theorem mmr_index_consistent_wraps :
    (LeafIndex.at (2 ^ 63 + 1)).position = 0 ∧ (Index.at (LeafIndex.at (2 ^ 63 + 1)).position).leafIndex = 0 := by
  decide

end Pussycoin.Mmr
