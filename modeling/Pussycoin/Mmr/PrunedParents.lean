import Mathlib
import Pussycoin.Mmr.Util

/-! `MMRUtil::CalcPrunedParents` (`libmw/src/mmr/MMRUtil.cpp`) over the `BitSet` of
`mw/common/BitSet.h`: the positions whose hashes rebuild a pruned MMR from its unspent leaves.
It marks the position of every spent leaf, then goes up the heights with `SiblingIter`,
replacing two marked children by their parent.

Below `2^63` leaves the result is the set of roots of the maximal subtrees whose leaves are all
spent: after the heights up to `H` and the first `j` nodes of height `H + 1`, the marked nodes
are the processed nodes with only spent leaves whose parent is not one of them. -/
namespace Pussycoin.Mmr

open Mountain

/-- `BitSet`, over the bits of a `boost::dynamic_bitset`. -/
structure BitSet where
  bitset : List Bool
  deriving DecidableEq, Repr

namespace BitSet

def size (b : BitSet) : ℕ := b.bitset.length

/-- `BitSet(size)`: `size` clear bits. -/
def ofSize (size : ℕ) : BitSet := ⟨List.replicate size false⟩

/-- `test`, false past the end. -/
def test (b : BitSet) (idx : ℕ) : Bool := decide (idx < b.size) && b.bitset.getD idx false

/-- `set(idx, val)`; `none` past the end, where `dynamic_bitset::set` asserts. -/
def set (b : BitSet) (idx : ℕ) (val : Bool) : Option BitSet :=
  if idx < b.size then some ⟨b.bitset.set idx val⟩ else none

@[simp] theorem size_ofSize (size : ℕ) : (ofSize size).size = size := by
  simp [ofSize, BitSet.size]

@[simp] theorem test_ofSize (size idx : ℕ) : (ofSize size).test idx = false := by
  simp [ofSize, test]

/-- Setting a bit inside the set changes that bit only. -/
theorem set_spec {b : BitSet} {idx : ℕ} (small : idx < b.size) (val : Bool) :
    ∃ b', b.set idx val = some b' ∧ b'.size = b.size ∧ ∀ p, b'.test p = if p = idx then val else b.test p := by
  refine ⟨_, if_pos small, by simp [BitSet.size], fun p => ?_⟩
  unfold BitSet.size at small
  by_cases same : p = idx
  · subst same
    simp [test, BitSet.size, small]
  · unfold test BitSet.size
    simp only [List.length_set, if_neg same, List.getD_eq_getElem?_getD, List.getElem?_set_ne (Ne.symm same)]

/-- Setting a bit past the end fails. -/
theorem set_eq_none {b : BitSet} {idx : ℕ} (past : b.size ≤ idx) (val : Bool) : b.set idx val = none :=
  if_neg (Nat.not_lt.2 past)

end BitSet

/-- The first loop: the position of every leaf below `size` whose flag is clear is set. -/
def markSpentLeaves (unspentLeafIndices ret : BitSet) : Option BitSet :=
  (List.range unspentLeafIndices.size).foldlM
    (fun ret i => if !unspentLeafIndices.test i then ret.set (LeafIndex.at i).position true else some ret) ret

/-- The body of the inner loop at the node `node`: where both its children are set, they are
cleared and the node is set. -/
def pruneNode (ret : BitSet) (node : Index) : Option BitSet :=
  if ret.test node.rightChild.position then
    if ret.test node.leftChild.position then do
      let ret ← ret.set node.rightChild.position false
      let ret ← ret.set node.leftChild.position false
      ret.set node.position true
    else some ret
  else some ret

/-- The loop over the heights from `height` while `(2 << height) - 2 <= last_node`, with `fuel`
rounds; the inner loop `while (iter.Next())` is given `lastNode + 2` calls of `Next`. -/
def pruneHeights : ℕ → ℕ → Index → BitSet → Option BitSet
  | 0, _, _, _ => none
  | fuel + 1, height, lastNode, ret =>
    -- `uint64_t(2) << height` is undefined from height 64 on
    if height < 64 then
      if ((2 <<< height) % 2 ^ 64 + 2 ^ 64 - 2) % 2 ^ 64 ≤ lastNode.position then do
        let iter ← SiblingIter.init height lastNode
        let nodes ← SiblingIter.visit (lastNode.position + 2) iter
        let ret ← nodes.foldlM pruneNode ret
        pruneHeights fuel (height + 1) lastNode ret
      else some ret
    else none

/-- `MMRUtil::CalcPrunedParents`, whose `size() * 2` is a `uint64_t`. -/
def calcPrunedParents (unspentLeafIndices : BitSet) : Option BitSet := do
  let ret ← markSpentLeaves unspentLeafIndices (BitSet.ofSize (unspentLeafIndices.size * 2 % 2 ^ 64))
  pruneHeights 64 1 (LeafIndex.at unspentLeafIndices.size).nodeIndex ret

/-- The repository's test: 50 leaves, those at 2, 9, 26, 27 and from 30 on unspent. -/
example : calcPrunedParents
    ⟨[false, false, true, false, false, false, false, false, false, true, false, false, false, false,
      false, false, false, false, false, false, false, false, false, false, false, false, true, true,
      false, false, true, true, true, true, true, true, true, true, true, true, true, true, true, true,
      true, true, true, true, true, true]⟩ =
    some ⟨[false, false, true, false, true, false, false, false, false, false, false, false, false, true,
      false, true, false, false, false, false, true, false, false, false, false, false, false, false,
      true, false, false, false, false, false, false, false, false, false, false, false, false, false,
      false, false, false, true, false, false, true, false, false, false, false, false, false, true,
      false, false, false, false, false, false, false, false, false, false, false, false, false, false,
      false, false, false, false, false, false, false, false, false, false, false, false, false, false,
      false, false, false, false, false, false, false, false, false, false, false, false, false, false,
      false, false]⟩ := by
  decide +kernel

/-! ### What it computes -/

/-- Node `i` of height `h` is in the mountain range of `k` leaves. -/
def InRange (k h i : ℕ) : Prop := 2 ^ h * (i + 1) ≤ k

/-- Every leaf under the node has its unspent flag clear. -/
def AllSpent (u : BitSet) (h i : ℕ) : Prop := ∀ l ∈ leavesUnder h i, u.test l = false

/-- The node is the root of a maximal spent subtree of the range of `u.size` leaves: its
leaves are all spent, and it is a peak or its parent has an unspent leaf. -/
def MaximalSpent (u : BitSet) (h i : ℕ) : Prop :=
  InRange u.size h i ∧ AllSpent u h i ∧
    (¬InRange u.size (h + 1) (i / 2) ∨ ∃ l ∈ leavesUnder (h + 1) (i / 2), u.test l = true)

instance (k h i : ℕ) : Decidable (InRange k h i) := inferInstanceAs (Decidable (_ ≤ _))

instance (u : BitSet) (h i : ℕ) : Decidable (AllSpent u h i) :=
  inferInstanceAs (Decidable (∀ l ∈ leavesUnder h i, _))

instance (u : BitSet) (h i : ℕ) : Decidable (MaximalSpent u h i) :=
  inferInstanceAs (Decidable (_ ∧ _ ∧ (_ ∨ _)))

/-- `ret` has `2k` bits and marks exactly the nodes that `want` picks. -/
def Marks (k : ℕ) (want : ℕ → ℕ → Prop) (ret : BitSet) : Prop :=
  ret.size = 2 * k ∧ ∀ p, ret.test p = true ↔ ∃ h i, p = nodePos h i ∧ want h i

section Marks

variable {k : ℕ} {want want' : ℕ → ℕ → Prop} {ret : BitSet}

theorem Marks.test_nodePos (marks : Marks k want ret) (h i : ℕ) : ret.test (nodePos h i) = true ↔ want h i := by
  rw [marks.2]
  constructor
  · rintro ⟨h', i', same, wanted⟩
    obtain ⟨rfl, rfl⟩ := nodePos_inj same
    exact wanted
  · exact fun wanted => ⟨h, i, rfl, wanted⟩

theorem Marks.congr (marks : Marks k want ret) (same : ∀ h i, want h i ↔ want' h i) : Marks k want' ret :=
  ⟨marks.1, fun p => by simp only [marks.2, same]⟩

/-- Setting the bit of a node of the range marks it or not, and leaves the other nodes. -/
theorem Marks.set (marks : Marks k want ret) (h₀ i₀ : ℕ) (inRange : InRange k h₀ i₀) (val : Bool) :
    ∃ ret', ret.set (nodePos h₀ i₀) val = some ret' ∧
      Marks k (fun h i => if h = h₀ ∧ i = i₀ then val = true else want h i) ret' := by
  have before := nodePos_lt_leafPos_iff.2 inRange
  have small : nodePos h₀ i₀ < ret.size := by
    rw [marks.1]
    unfold leafPos at before
    omega
  obtain ⟨ret', done, sized, bits⟩ := BitSet.set_spec small val
  refine ⟨ret', done, sized.trans marks.1, fun p => ?_⟩
  rw [bits]
  by_cases here : p = nodePos h₀ i₀
  · subst here
    simp only [if_true]
    constructor
    · exact fun set => ⟨h₀, i₀, rfl, by simpa using set⟩
    · rintro ⟨h, i, same, wanted⟩
      obtain ⟨rfl, rfl⟩ := nodePos_inj same
      simpa using wanted
  · rw [if_neg here, marks.2]
    -- no node at `p` is the one set
    have other : ∀ h i, p = nodePos h i → ¬(h = h₀ ∧ i = i₀) :=
      fun h i same pair => here (by rw [same, pair.1, pair.2])
    exact exists₂_congr fun h i => and_congr_right fun same => by simp only [if_neg (other h i same)]

end Marks

/-! ### The leaves -/

theorem allSpent_zero {u : BitSet} {i : ℕ} : AllSpent u 0 i ↔ u.test i = false := by
  simp [AllSpent, mem_leavesUnder]

/-- After the leaves below `m`, the spent ones among them are marked. -/
theorem foldlM_markSpentLeaves (u : BitSet) (small : u.size < 2 ^ 63) :
    ∀ m, m ≤ u.size → ∃ ret, (List.range m).foldlM
      (fun ret i => if !u.test i then ret.set (LeafIndex.at i).position true else some ret)
      (BitSet.ofSize (u.size * 2 % 2 ^ 64)) = some ret ∧
      Marks u.size (fun h i => h = 0 ∧ i < m ∧ u.test i = false) ret
  | 0, _ => by
    refine ⟨_, rfl, ?_, fun p => by simp⟩
    rw [BitSet.size_ofSize, Nat.mod_eq_of_lt (by omega), mul_comm]
  | m + 1, within => by
    obtain ⟨ret, ran, marks⟩ := foldlM_markSpentLeaves u small m (by omega)
    simp only [List.range_succ, List.foldlM_append, ran, Option.bind_eq_bind, Option.bind_some,
      List.foldlM_cons, List.foldlM_nil]
    cases spent : u.test m with
    | false =>
      have leaf : (LeafIndex.at m).position = nodePos 0 m := by
        rw [position_at (by omega)]
        simp [nodePos]
      obtain ⟨ret', done, marks'⟩ := marks.set 0 m (by simp [InRange]; omega) true
      refine ⟨ret', by simp [leaf, done], marks'.congr fun h i => ?_⟩
      by_cases here : h = 0 ∧ i = m
      · simp [here, spent]
      · rw [if_neg here]
        constructor
        · rintro ⟨rfl, before, unspent⟩
          exact ⟨rfl, by omega, unspent⟩
        · rintro ⟨rfl, before, unspent⟩
          exact ⟨rfl, by omega, unspent⟩
    | true =>
      refine ⟨ret, by simp, marks.congr fun h i => ?_⟩
      constructor
      · rintro ⟨rfl, before, unspent⟩
        exact ⟨rfl, by omega, unspent⟩
      · rintro ⟨rfl, before, unspent⟩
        rcases Nat.lt_succ_iff_lt_or_eq.1 before with before | rfl
        · exact ⟨rfl, before, unspent⟩
        · rw [spent] at unspent
          cases unspent

/-- A spent first leaf with no room for its bit makes the first loop fail. -/
theorem markSpentLeaves_eq_none {u ret : BitSet} (pos : 0 < u.size) (spent : u.test 0 = false)
    (empty : ret.size = 0) : markSpentLeaves u ret = none := by
  obtain ⟨n, size⟩ : ∃ n, u.size = n + 1 := ⟨u.size - 1, by omega⟩
  rw [markSpentLeaves, size, List.range_succ_eq_map]
  simp only [List.foldlM_cons, spent, Bool.not_false, if_true,
    BitSet.set_eq_none (show ret.size ≤ (LeafIndex.at 0).position by omega) true, Option.bind_eq_bind,
    Option.bind_none]

/-- After the first loop the spent leaves are marked: the nodes processed before any height. -/
def Processed (H j h i : ℕ) : Prop := h ≤ H ∨ (h = H + 1 ∧ i < j)

/-- What the bits hold once the heights up to `H` and the first `j` nodes of height `H + 1`
are processed: the processed nodes of the range with only spent leaves, whose parent is not
one of them. -/
def Pruned (u : BitSet) (H j h i : ℕ) : Prop :=
  InRange u.size h i ∧ Processed H j h i ∧ AllSpent u h i ∧
    ¬(Processed H j (h + 1) (i / 2) ∧ InRange u.size (h + 1) (i / 2) ∧ AllSpent u (h + 1) (i / 2))

theorem markSpentLeaves_spec (u : BitSet) (small : u.size < 2 ^ 63) :
    ∃ ret, markSpentLeaves u (BitSet.ofSize (u.size * 2 % 2 ^ 64)) = some ret ∧ Marks u.size (Pruned u 0 0) ret := by
  obtain ⟨ret, ran, marks⟩ := foldlM_markSpentLeaves u small u.size le_rfl
  refine ⟨ret, ran, marks.congr fun h i => ?_⟩
  -- before any height is processed, no parent is
  have none : ¬Processed 0 0 (h + 1) (i / 2) := by
    unfold Processed
    omega
  simp only [Pruned, none, false_and, not_false_eq_true, and_true, InRange]
  constructor
  · rintro ⟨rfl, before, unspent⟩
    exact ⟨by simpa using before, by simp [Processed], allSpent_zero.2 unspent⟩
  · rintro ⟨within, processed, spent⟩
    obtain rfl : h = 0 := by
      unfold Processed at processed
      omega
    exact ⟨rfl, by simpa using within, allSpent_zero.1 spent⟩

/-! ### One node of a height -/

theorem inRange_child {k h i : ℕ} (parent : InRange k (h + 1) (i / 2)) : InRange k h i :=
  calc 2 ^ h * (i + 1) ≤ 2 ^ h * (2 * (i / 2 + 1)) := Nat.mul_le_mul_left _ (by omega)
    _ = 2 ^ (h + 1) * (i / 2 + 1) := by ring
    _ ≤ k := parent

theorem allSpent_succ {u : BitSet} {h i : ℕ} :
    AllSpent u (h + 1) i ↔ AllSpent u h (2 * i) ∧ AllSpent u h (2 * i + 1) := by
  simp only [AllSpent, mem_leavesUnder_succ]
  constructor
  · intro spent
    exact ⟨fun l under => spent l (.inl under), fun l under => spent l (.inr under)⟩
  · rintro ⟨left, right⟩ l (under | under)
    · exact left l under
    · exact right l under

section Step

variable {u : BitSet} {H j : ℕ}

/-- A child of the node being processed is marked exactly when its leaves are all spent. -/
theorem pruned_child {i : ℕ} (inRange : InRange u.size (H + 1) j) (child : i / 2 = j) :
    Pruned u H j H i ↔ AllSpent u H i := by
  have notYet : ¬Processed H j (H + 1) (i / 2) := by
    unfold Processed
    omega
  simp only [Pruned, notYet, false_and, not_false_eq_true, and_true]
  exact ⟨fun marked => marked.2.2, fun spent => ⟨inRange_child (child ▸ inRange), .inl le_rfl, spent⟩⟩

/-- Processing node `j` changes nothing but it and its children. -/
theorem pruned_succ_of_other {h i : ℕ} (notNode : ¬(h = H + 1 ∧ i = j)) (notChild : ¬(h = H ∧ i / 2 = j)) :
    Pruned u H (j + 1) h i ↔ Pruned u H j h i := by
  have node : Processed H (j + 1) h i ↔ Processed H j h i := by
    unfold Processed
    omega
  have parent : Processed H (j + 1) (h + 1) (i / 2) ↔ Processed H j (h + 1) (i / 2) := by
    unfold Processed
    omega
  simp only [Pruned, node, parent]

/-- A node whose leaves are not all spent leaves the bits as they were. -/
theorem pruned_succ_of_not_full (notFull : ¬AllSpent u (H + 1) j) (h i : ℕ) :
    Pruned u H (j + 1) h i ↔ Pruned u H j h i := by
  by_cases node : h = H + 1 ∧ i = j
  · -- the node is marked on neither side
    obtain ⟨rfl, rfl⟩ := node
    simp only [Pruned, notFull, false_and, and_false]
  by_cases child : h = H ∧ i / 2 = j
  · -- a child keeps its mark, since its parent is not marked
    obtain ⟨rfl, parent⟩ := child
    have self : Processed h (j + 1) h i ↔ Processed h j h i := by
      unfold Processed
      omega
    simp only [Pruned, self, parent, notFull, and_false]
  exact pruned_succ_of_other node child

/-- A node whose leaves are all spent is marked, and its children are not. -/
theorem pruned_succ_of_full (inRange : InRange u.size (H + 1) j) (full : AllSpent u (H + 1) j) (h i : ℕ) :
    Pruned u H (j + 1) h i ↔ (h = H + 1 ∧ i = j) ∨ (Pruned u H j h i ∧ ¬(h = H ∧ i / 2 = j)) := by
  by_cases node : h = H + 1 ∧ i = j
  · obtain ⟨rfl, rfl⟩ := node
    have self : Processed H (i + 1) (H + 1) i := by
      unfold Processed
      omega
    have notParent : ¬Processed H (i + 1) (H + 1 + 1) (i / 2) := by
      unfold Processed
      omega
    simp only [Pruned, self, notParent, inRange, full, and_self, true_or, false_and, not_false_eq_true]
  by_cases child : h = H ∧ i / 2 = j
  · -- the parent of a child is now processed, in the range and spent
    obtain ⟨rfl, parent⟩ := child
    have now : Processed h (j + 1) (h + 1) j := by
      unfold Processed
      omega
    simp only [Pruned, parent, now, inRange, full, node, and_self, not_true_eq_false, and_false, false_or,
      and_true]
  simp only [pruned_succ_of_other node child, node, child, false_or, not_false_eq_true, and_true]

/-- `pruneNode` at node `j` of height `H + 1` takes the bits from `j` processed nodes to `j + 1`. -/
theorem pruneNode_spec {ret : BitSet} (marks : Marks u.size (Pruned u H j) ret) (inRange : InRange u.size (H + 1) j) :
    ∃ ret', pruneNode ret ⟨nodePos (H + 1) j, H + 1⟩ = some ret' ∧ Marks u.size (Pruned u H (j + 1)) ret' := by
  have right : (Index.rightChild ⟨nodePos (H + 1) j, H + 1⟩).position = nodePos H (2 * j + 1) := by
    have := nodePos_right_child H j
    simp only [Index.rightChild]
    omega
  have left : (Index.leftChild ⟨nodePos (H + 1) j, H + 1⟩).position = nodePos H (2 * j) := by
    have := nodePos_left_child H j
    simp only [Index.leftChild]
    omega
  have testRight : ret.test (nodePos H (2 * j + 1)) = true ↔ AllSpent u H (2 * j + 1) :=
    (marks.test_nodePos H _).trans (pruned_child inRange (by omega))
  have testLeft : ret.test (nodePos H (2 * j)) = true ↔ AllSpent u H (2 * j) :=
    (marks.test_nodePos H _).trans (pruned_child inRange (by omega))
  by_cases full : AllSpent u (H + 1) j
  · -- both children are marked: they are cleared and the node is set
    obtain ⟨spentLeft, spentRight⟩ := allSpent_succ.1 full
    obtain ⟨r₁, set₁, marks₁⟩ :=
      marks.set H (2 * j + 1) (inRange_child (by rwa [show (2 * j + 1) / 2 = j by omega])) false
    obtain ⟨r₂, set₂, marks₂⟩ :=
      marks₁.set H (2 * j) (inRange_child (by rwa [show 2 * j / 2 = j by omega])) false
    obtain ⟨r₃, set₃, marks₃⟩ := marks₂.set (H + 1) j inRange true
    refine ⟨r₃, ?_, marks₃.congr fun h i => ?_⟩
    · simp only [pruneNode, right, left, testRight.2 spentRight, testLeft.2 spentLeft, if_true, set₁, set₂,
        set₃, Option.bind_eq_bind, Option.bind_some]
    · rw [pruned_succ_of_full inRange full]
      split_ifs with node leftChild rightChild
      · simp [node]
      · obtain ⟨rfl, rfl⟩ := leftChild
        have parent : 2 * j / 2 = j := by omega
        simp [parent]
      · obtain ⟨rfl, rfl⟩ := rightChild
        have parent : (2 * j + 1) / 2 = j := by omega
        simp [parent]
      · have notChild : ¬(h = H ∧ i / 2 = j) := by omega
        simp only [node, notChild, false_or, not_false_eq_true, and_true]
  · -- a child is not marked, and nothing changes
    refine ⟨ret, ?_, marks.congr fun h i => (pruned_succ_of_not_full full h i).symm⟩
    have notBoth : ¬(ret.test (nodePos H (2 * j + 1)) = true ∧ ret.test (nodePos H (2 * j)) = true) := by
      rw [testRight, testLeft]
      exact fun both => full (allSpent_succ.2 ⟨both.2, both.1⟩)
    unfold pruneNode
    rw [right, left]
    split_ifs with setRight setLeft
    · exact absurd ⟨setRight, setLeft⟩ notBoth
    · rfl
    · rfl

end Step

/-! ### The heights -/

section Heights

variable {u : BitSet}

/-- The inner loop over the first `m` nodes of height `H + 1` from node `j`. -/
theorem foldlM_pruneNode (H : ℕ) : ∀ j m ret, (∀ i, i < j + m → InRange u.size (H + 1) i) →
    Marks u.size (Pruned u H j) ret →
    ∃ ret', ((List.range' j m).map fun i => (⟨nodePos (H + 1) i, H + 1⟩ : Index)).foldlM pruneNode ret = some ret' ∧
      Marks u.size (Pruned u H (j + m)) ret'
  | _, 0, ret, _, marks => ⟨ret, rfl, marks⟩
  | j, m + 1, ret, inRange, marks => by
    obtain ⟨ret₁, pruned, marks₁⟩ := pruneNode_spec marks (inRange j (by omega))
    obtain ⟨ret', rest, marks'⟩ := foldlM_pruneNode H (j + 1) m ret₁ (fun i lt => inRange i (by omega)) marks₁
    refine ⟨ret', ?_, by rwa [show j + (m + 1) = j + 1 + m by omega]⟩
    simp only [List.range'_succ, List.map_cons, List.foldlM_cons, pruned, Option.bind_eq_bind, Option.bind_some,
      rest]

/-- Once every node of height `H + 1` in the range is processed, the bits are those before
height `H + 2`. -/
theorem pruned_next_height {H n : ℕ} (all : ∀ i, InRange u.size (H + 1) i ↔ i < n) (h i : ℕ) :
    Pruned u H n h i ↔ Pruned u (H + 1) 0 h i := by
  -- in the range, a node is processed in both senses exactly when its height is at most `H + 1`
  have processed : ∀ {h i}, InRange u.size h i → (Processed H n h i ↔ Processed (H + 1) 0 h i) := by
    intro h i inRange
    unfold Processed
    by_cases top : h = H + 1
    · subst top
      have := (all i).1 inRange
      omega
    · omega
  unfold Pruned
  constructor
  · rintro ⟨inRange, done, spent, notParent⟩
    exact ⟨inRange, (processed inRange).1 done, spent, fun ⟨d, r, s⟩ => notParent ⟨(processed r).2 d, r, s⟩⟩
  · rintro ⟨inRange, done, spent, notParent⟩
    exact ⟨inRange, (processed inRange).2 done, spent, fun ⟨d, r, s⟩ => notParent ⟨(processed r).1 d, r, s⟩⟩

theorem le_of_inRange {k h i H : ℕ} (inRange : InRange k h i) (small : k < 2 ^ (H + 1)) : h ≤ H := by
  have below : 2 ^ h < 2 ^ (H + 1) :=
    calc 2 ^ h ≤ 2 ^ h * (i + 1) := Nat.le_mul_of_pos_right _ (Nat.succ_pos i)
      _ ≤ k := inRange
      _ < 2 ^ (H + 1) := small
  have := (Nat.pow_lt_pow_iff_right (by norm_num)).1 below
  omega

theorem not_allSpent {h i : ℕ} : ¬AllSpent u h i ↔ ∃ l ∈ leavesUnder h i, u.test l = true := by
  simp [AllSpent]

/-- When the range has no node of height `H + 1`, the bits before that height are the
maximal spent subtrees. -/
theorem pruned_final {H : ℕ} (small : u.size < 2 ^ (H + 1)) (h i : ℕ) : Pruned u H 0 h i ↔ MaximalSpent u h i := by
  unfold Pruned MaximalSpent
  rw [← not_allSpent, ← not_and_or]
  constructor
  · rintro ⟨inRange, -, spent, notParent⟩
    exact ⟨inRange, spent, fun ⟨parent, all⟩ => notParent ⟨.inl (le_of_inRange parent small), parent, all⟩⟩
  · rintro ⟨inRange, spent, notParent⟩
    exact ⟨inRange, .inl (le_of_inRange inRange small), spent, fun ⟨_, parent, all⟩ => notParent ⟨parent, all⟩⟩

/-- The bound of the outer loop, `(2 << height) - 2`, is the position of the first node of the
height. -/
theorem firstNode_eq {h : ℕ} (low : h < 64) : ((2 <<< h) % 2 ^ 64 + 2 ^ 64 - 2) % 2 ^ 64 = nodePos h 0 := by
  have first : nodePos h 0 = 2 ^ (h + 1) - 2 := by simp [nodePos_eq, leafPos_zero]
  rw [first]
  rcases Nat.lt_or_ge h 63 with below | top
  · have fits : 2 ^ (h + 1) < 2 ^ 64 := Nat.pow_lt_pow_right (by norm_num) (by omega)
    have two : 2 ≤ 2 ^ (h + 1) := Nat.le_self_pow (Nat.succ_ne_zero h) 2
    rw [Nat.shiftLeft_eq, ← pow_succ', Nat.mod_eq_of_lt fits,
      show 2 ^ (h + 1) + 2 ^ 64 - 2 = 2 ^ (h + 1) - 2 + 2 ^ 64 by omega, Nat.add_mod_right,
      Nat.mod_eq_of_lt (by omega)]
  · obtain rfl : h = 63 := by omega
    decide

/-- The outer loop from height `H + 1`, with the heights up to `H` done, ends with the maximal
spent subtrees marked. -/
theorem pruneHeights_spec (small : u.size < 2 ^ 63) :
    ∀ fuel H ret, H < 63 → 63 ≤ H + fuel → Marks u.size (Pruned u H 0) ret →
      ∃ ret', pruneHeights fuel (H + 1) ⟨leafPos u.size, 0⟩ ret = some ret' ∧ Marks u.size (MaximalSpent u) ret'
  | 0, _, _, low, enough, _ => absurd enough (by omega)
  | fuel + 1, H, ret, low, enough, marks => by
    simp only [pruneHeights, if_pos (show H + 1 < 64 by omega), firstNode_eq (show H + 1 < 64 by omega)]
    by_cases more : nodePos (H + 1) 0 ≤ leafPos u.size
    · rw [if_pos more, SiblingIter.init_eq (by omega)]
      -- the nodes of height `H + 1` the iterator visits are those of the range
      have fits : leafPos u.size + 2 < 2 ^ 64 := by
        have most := leafPos_strictMono.monotone (show u.size ≤ 2 ^ 63 - 1 by omega)
        have := leafPos_two_pow_sub_one 63
        omega
      have room : ∀ i, nodePos (H + 1) i ≤ leafPos u.size → nodePos (H + 1) (i + 1) < 2 ^ 64 := fun i within =>
        nodePos_succ_lt (show H + 1 ≤ 63 by omega)
          (lt_of_le_of_lt ((nodePos_le_leafPos_iff (by omega)).1 within) small)
      obtain ⟨n, visited, spec⟩ : ∃ n, SiblingIter.visit (leafPos u.size + 2)
          (SiblingIter.iterAt (H + 1) ⟨leafPos u.size, 0⟩ 0) =
            some ((List.range' 0 n).map fun i => ⟨nodePos (H + 1) i, H + 1⟩) ∧
          ∀ i, 0 ≤ i → (nodePos (H + 1) i ≤ leafPos u.size ↔ i < 0 + n) :=
        SiblingIter.visit_iterAt_of_room (by omega) fits room (by simp) (by simp)
      have all : ∀ i, InRange u.size (H + 1) i ↔ i < n := fun i =>
        (nodePos_le_leafPos_iff (by omega)).symm.trans (by simpa using spec i (Nat.zero_le i))
      obtain ⟨ret', folded, marks'⟩ := foldlM_pruneNode H 0 n ret (fun i lt => (all i).2 (by omega)) marks
      -- the range has a node of height `H + 1`, so `H + 1` is below the top height
      have higher : H + 1 < 63 := by
        have first := (all 0).2 (by simpa using (spec 0 le_rfl).1 more)
        unfold InRange at first
        exact (Nat.pow_lt_pow_iff_right (by norm_num)).1 (show 2 ^ (H + 1) < 2 ^ 63 by omega)
      rw [Nat.zero_add] at marks'
      simp only [Option.bind_eq_bind]
      rw [Option.bind_some, visited, Option.bind_some, folded, Option.bind_some]
      exact pruneHeights_spec small fuel (H + 1) ret' higher (by omega) (marks'.congr (pruned_next_height all))
    · rw [if_neg more]
      have done : u.size < 2 ^ (H + 1) := by
        rw [nodePos_le_leafPos_iff (by omega)] at more
        omega
      exact ⟨ret, rfl, marks.congr (pruned_final done)⟩

end Heights

/-! ### Maximal spent subtrees

Above a spent leaf the subtrees of the range with only spent leaves form an initial run of
heights, so exactly one of them is maximal; hence the maximal spent subtrees cover every spent
leaf once. -/

section Maximal

variable {u : BitSet} {l : ℕ}

/-- The subtree of height `h` above leaf `l` is in the range and has only spent leaves. -/
def SpentAbove (u : BitSet) (l h : ℕ) : Prop := InRange u.size h (l / 2 ^ h) ∧ AllSpent u h (l / 2 ^ h)

theorem div_two_pow_succ (l h : ℕ) : l / 2 ^ (h + 1) = l / 2 ^ h / 2 := by
  rw [pow_succ, Nat.div_div_eq_div_mul]

theorem spentAbove_zero : SpentAbove u l 0 ↔ l < u.size ∧ u.test l = false := by
  simp only [SpentAbove, InRange, allSpent_zero, pow_zero, Nat.div_one, one_mul, Nat.add_one_le_iff]

theorem spentAbove_of_succ {h : ℕ} (above : SpentAbove u l (h + 1)) : SpentAbove u l h := by
  rw [SpentAbove, div_two_pow_succ] at above
  obtain ⟨inRange, spent⟩ := above
  exact ⟨inRange_child inRange, fun l' under => spent l' (mem_leavesUnder_parent under)⟩

theorem spentAbove_of_le {h h' : ℕ} (low : h ≤ h') (above : SpentAbove u l h') : SpentAbove u l h := by
  obtain ⟨d, rfl⟩ := Nat.exists_eq_add_of_le low
  induction d with
  | zero => exact above
  | succ d ih => exact ih (by omega) (spentAbove_of_succ above)

/-- A node over leaf `l` is a maximal spent subtree exactly at the height where the spent
subtrees above `l` stop. -/
theorem maximalSpent_iff {h i : ℕ} (under : l ∈ leavesUnder h i) :
    MaximalSpent u h i ↔ SpentAbove u l h ∧ ¬SpentAbove u l (h + 1) := by
  obtain rfl := mem_leavesUnder.1 under
  rw [MaximalSpent, ← not_allSpent, ← not_and_or, SpentAbove, SpentAbove, div_two_pow_succ, and_assoc]

theorem height_unique {h h' : ℕ} (top : SpentAbove u l h ∧ ¬SpentAbove u l (h + 1))
    (top' : SpentAbove u l h' ∧ ¬SpentAbove u l (h' + 1)) : h = h' := by
  by_contra differ
  rcases Nat.lt_or_gt_of_ne differ with lower | higher
  · exact top.2 (spentAbove_of_le lower top'.1)
  · exact top'.2 (spentAbove_of_le higher top.1)

/-- The spent subtrees above a leaf stop, since no subtree of height `u.size` fits in the range. -/
theorem exists_top (spent : SpentAbove u l 0) : ∃ h, SpentAbove u l h ∧ ¬SpentAbove u l (h + 1) := by
  by_contra none
  simp only [not_exists, not_and, not_not] at none
  have all : ∀ h, SpentAbove u l h := fun h => by
    induction h with
    | zero => exact spent
    | succ h ih => exact none h ih
  have fits := (all u.size).1
  unfold InRange at fits
  have exceeds : u.size < 2 ^ u.size := Nat.lt_two_pow_self
  have : 2 ^ u.size ≤ 2 ^ u.size * (l / 2 ^ u.size + 1) := Nat.le_mul_of_pos_right _ (Nat.succ_pos _)
  omega

theorem exists_maximalSpent (inside : l < u.size) (spent : u.test l = false) : ∃ h, MaximalSpent u h (l / 2 ^ h) := by
  obtain ⟨h, top⟩ := exists_top (spentAbove_zero.2 ⟨inside, spent⟩)
  exact ⟨h, (maximalSpent_iff (mem_leavesUnder.2 rfl)).2 top⟩

theorem maximalSpent_unique {h i h' i' : ℕ} (maximal : MaximalSpent u h i) (maximal' : MaximalSpent u h' i')
    (under : l ∈ leavesUnder h i) (under' : l ∈ leavesUnder h' i') : h = h' ∧ i = i' := by
  obtain rfl := height_unique ((maximalSpent_iff under).1 maximal) ((maximalSpent_iff under').1 maximal')
  exact ⟨rfl, (mem_leavesUnder.1 under).symm.trans (mem_leavesUnder.1 under')⟩

end Maximal

/-! ### The result -/

/-- Below `2^63` leaves, `CalcPrunedParents` marks the roots of the maximal spent subtrees. -/
theorem calcPrunedParents_marks (u : BitSet) (small : u.size < 2 ^ 63) :
    ∃ ret, calcPrunedParents u = some ret ∧ Marks u.size (MaximalSpent u) ret := by
  obtain ⟨ret, marked, marks⟩ := markSpentLeaves_spec u small
  obtain ⟨ret', pruned, marks'⟩ := pruneHeights_spec small 64 0 ret (by norm_num) (by norm_num) marks
  have lastNode : (LeafIndex.at u.size).nodeIndex = ⟨leafPos u.size, 0⟩ := by
    rw [LeafIndex.nodeIndex, position_at small]
  refine ⟨ret', ?_, marks'⟩
  rw [calcPrunedParents, marked, Option.bind_eq_bind, Option.bind_some, lastNode]
  exact pruned

theorem calc_pruned_parents_maximal (u : BitSet) (small : u.size < 2 ^ 63) :
    ∃ ret, calcPrunedParents u = some ret ∧
      (∀ p, ret.test p = true ↔ ∃ h i, p = nodePos h i ∧ MaximalSpent u h i) ∧
      (∀ l, l < u.size → u.test l = false →
        ∃! p, ret.test p = true ∧ ∃ h i, p = nodePos h i ∧ l ∈ leavesUnder h i) ∧
      (∀ h i h' i', ret.test (nodePos h i) = true → ret.test (nodePos h' i') = true → (h, i) ≠ (h', i') →
        Disjoint (leavesUnder h i) (leavesUnder h' i')) := by
  obtain ⟨ret, marked, marks⟩ := markSpentLeaves_spec u small
  obtain ⟨ret', pruned, marks'⟩ := pruneHeights_spec small 64 0 ret (by norm_num) (by norm_num) marks
  have lastNode : (LeafIndex.at u.size).nodeIndex = ⟨leafPos u.size, 0⟩ := by
    rw [LeafIndex.nodeIndex, position_at small]
  refine ⟨ret', ?_, marks'.2, ?_, ?_⟩
  · rw [calcPrunedParents, marked, Option.bind_eq_bind, Option.bind_some, lastNode]
    exact pruned
  · -- the one returned position over a spent leaf is its maximal spent subtree
    intro l inside spent
    obtain ⟨h, maximal⟩ := exists_maximalSpent inside spent
    refine ⟨nodePos h (l / 2 ^ h), ⟨(marks'.test_nodePos h _).2 maximal, h, _, rfl, mem_leavesUnder.2 rfl⟩, ?_⟩
    rintro p ⟨set, h', i', rfl, under⟩
    obtain ⟨rfl, rfl⟩ :=
      maximalSpent_unique ((marks'.test_nodePos h' i').1 set) maximal under (mem_leavesUnder.2 rfl)
    rfl
  · intro h i h' i' set set' differ
    rw [Finset.disjoint_left]
    intro l under under'
    obtain ⟨rfl, rfl⟩ :=
      maximalSpent_unique ((marks'.test_nodePos h i).1 set) ((marks'.test_nodePos h' i').1 set') under under'
    exact differ rfl

theorem calc_pruned_parents_maximal_three :
    ∃ ret, calcPrunedParents ⟨[false, false, true]⟩ = some ret ∧
      (∀ p, ret.test p = true ↔ ∃ h i, p = nodePos h i ∧ MaximalSpent ⟨[false, false, true]⟩ h i) ∧
      (∀ l, l < (⟨[false, false, true]⟩ : BitSet).size → (⟨[false, false, true]⟩ : BitSet).test l = false →
        ∃! p, ret.test p = true ∧ ∃ h i, p = nodePos h i ∧ l ∈ leavesUnder h i) ∧
      (∀ h i h' i', ret.test (nodePos h i) = true → ret.test (nodePos h' i') = true → (h, i) ≠ (h', i') →
        Disjoint (leavesUnder h i) (leavesUnder h' i')) :=
  calc_pruned_parents_maximal _ (by decide)

/-- At `2^63` leaves `size() * 2` wraps to zero, and the first spent leaf is set past the end. -/
theorem calc_pruned_parents_overflow : calcPrunedParents ⟨List.replicate (2 ^ 63) false⟩ = none := by
  have size : (⟨List.replicate (2 ^ 63) false⟩ : BitSet).size = 2 ^ 63 := by
    unfold BitSet.size
    exact List.length_replicate
  have spent : (⟨List.replicate (2 ^ 63) false⟩ : BitSet).test 0 = false := by
    unfold BitSet.test
    rw [List.getD_replicate _ (by norm_num), Bool.and_false]
  have empty : (BitSet.ofSize (2 ^ 63 * 2 % 2 ^ 64)).size = 0 := by
    rw [BitSet.size_ofSize]
    norm_num
  rw [calcPrunedParents, size, markSpentLeaves_eq_none (by rw [size]; norm_num) spent empty, Option.bind_eq_bind,
    Option.bind_none]

end Pussycoin.Mmr
