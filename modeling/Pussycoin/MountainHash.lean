import Pussycoin.Mountain

/-! The hashes a mountain range holds over a history of leaf hashes. Node `i` of height `h`
holds the hash of the perfect tree over the leaves `2^h * i, …, 2^h * (i + 1) - 1`, each
parent hashed with its own position, and a range of `k` leaves is summed up by the trees of
the bits of `k`, its peaks, bagged from the right. -/
namespace Mountain

variable {α : Type*}

section Trees

variable (leafHash : ℕ → α) (parent : ℕ → α → α → α)

/-- The hash of node `i` of height `h`. -/
def treeHash : ℕ → ℕ → α
  | 0, i => leafHash i
  | h + 1, i => parent (nodePos (h + 1) i) (treeHash h (2 * i)) (treeHash h (2 * i + 1))

/-- `look` holds, at every position below `q`, the hash of the tree of the node there. -/
def Stores (look : ℕ → Option α) (q : ℕ) : Prop :=
  ∀ h i, nodePos h i < q → look (nodePos h i) = some (treeHash leafHash parent h i)

/-- The peaks of `k` leaves among the heights below `j`, highest first: for each bit `h` of
`k`, the tree of height `h` whose last leaf comes just before `k` rounded down to `2^h`. -/
def peakNodes (k : ℕ) : ℕ → List (ℕ × ℕ)
  | 0 => []
  | j + 1 => (if k.testBit j then [(j, k / 2 ^ j - 1)] else []) ++ peakNodes k j

/-- Bagging peak hashes from the right: the last peak stands alone while the bag is still the
zero hash, and each earlier one is hashed with the bag at the node count. -/
def bag [DecidableEq α] (zero : α) (numNodes : ℕ) (peakHashes : List α) : α :=
  peakHashes.reverse.foldl
    (fun hash peakHash => if hash = zero then peakHash else parent numNodes peakHash hash) zero

/-- The root of the first `k` leaves. -/
def root [DecidableEq α] (zero : α) (k : ℕ) : α :=
  bag parent zero (leafPos k) ((peakNodes k (Nat.size k)).map fun node => treeHash leafHash parent node.1 node.2)

end Trees

variable {leafHash : ℕ → α} {parent : ℕ → α → α → α}

/-- A tree's hash reads only the leaves under it. -/
theorem treeHash_congr {leafHash' : ℕ → α} {h i : ℕ} (agree : ∀ l ∈ leavesUnder h i, leafHash l = leafHash' l) :
    treeHash leafHash parent h i = treeHash leafHash' parent h i := by
  induction h generalizing i with
  | zero => exact agree i (by simp [mem_leavesUnder])
  | succ h ih =>
    simp only [treeHash]
    rw [ih fun l under => agree l (mem_leavesUnder_succ.2 (.inl under)),
      ih fun l under => agree l (mem_leavesUnder_succ.2 (.inr under))]

@[simp] theorem nodePos_zero (i : ℕ) : nodePos 0 i = leafPos i := by
  simp [nodePos]

/-- The `j`-th position after leaf `l`, up to its trailing ones, is the node of height `j`
whose last leaf is `l`. -/
theorem nodePos_chain {l j : ℕ} (chain : j ≤ trailingOnes l) :
    nodePos j ((l + 1) / 2 ^ j - 1) = leafPos l + j := by
  obtain ⟨a, block⟩ := le_trailingOnes_iff.1 chain
  have filled : 1 ≤ a := by
    rcases a with _ | a
    · simp at block
    · omega
  unfold nodePos
  rw [block, Nat.mul_div_cancel_left _ (Nat.two_pow_pos j), Nat.sub_add_cancel filled, mul_comm, ← block,
    Nat.add_sub_cancel]

/-- Below the chain's top, node `j` of the chain is the right child of node `j + 1`. -/
theorem chain_right_child {l j : ℕ} (chain : j + 1 ≤ trailingOnes l) :
    2 * ((l + 1) / 2 ^ (j + 1) - 1) + 1 = (l + 1) / 2 ^ j - 1 := by
  obtain ⟨a, block⟩ := le_trailingOnes_iff.1 chain
  have filled : 1 ≤ a := by
    rcases a with _ | a
    · simp at block
    · omega
  have halves : (l + 1) / 2 ^ j = 2 * a := by
    rw [block, pow_succ, mul_assoc, Nat.mul_div_cancel_left _ (Nat.two_pow_pos j)]
  rw [halves, block, Nat.mul_div_cancel_left _ (Nat.two_pow_pos (j + 1))]
  omega

namespace Stores

variable {look look' : ℕ → Option α} {q : ℕ}

theorem mono (stores : Stores leafHash parent look q) {q' : ℕ} (le : q' ≤ q) : Stores leafHash parent look q' :=
  fun h i below => stores h i (lt_of_lt_of_le below le)

/-- Two lookups that store the same leaves agree at every position below. -/
theorem agree (stores : Stores leafHash parent look q) (stores' : Stores leafHash parent look' q) {p : ℕ}
    (below : p < q) : look p = look' p := by
  obtain ⟨i, node⟩ := height_eq_iff.1 (rfl : height p = height p)
  rw [← node] at below ⊢
  rw [stores _ _ below, stores' _ _ below]

/-- A lookup that agrees below `q` stores what the other stores. -/
theorem congr (stores : Stores leafHash parent look q) (same : ∀ p < q, look' p = look p) :
    Stores leafHash parent look' q :=
  fun h i below => (same _ below).trans (stores h i below)

/-- The nodes before leaf `k` read only the leaves before `k`. -/
theorem congr_leaves {leafHash' : ℕ → α} {k : ℕ} (agree : ∀ l < k, leafHash l = leafHash' l) (within : q ≤ leafPos k)
    (stores : Stores leafHash parent look q) : Stores leafHash' parent look q := by
  intro h i below
  have before := nodePos_lt_leafPos_iff.1 (lt_of_lt_of_le below within)
  rw [stores h i below, treeHash_congr fun l under => agree l ?_]
  rw [leavesUnder, Finset.mem_Ico] at under
  omega

/-- Putting the hash of the node at `q` there extends a store by one position. -/
theorem push (stores : Stores leafHash parent look q) {h i : ℕ} (at_q : nodePos h i = q)
    (kept : ∀ p < q, look' p = look p) (put : look' q = some (treeHash leafHash parent h i)) :
    Stores leafHash parent look' (q + 1) := by
  intro h' i' below
  rcases Nat.lt_or_ge (nodePos h' i') q with old | top
  · rw [kept _ old, stores h' i' old]
  · obtain ⟨rfl, rfl⟩ := nodePos_inj (show nodePos h' i' = nodePos h i by omega)
    rw [at_q, put]

end Stores

/-- Only the bits of `k` count: past its length no more peaks are added. -/
theorem peakNodes_of_lt {k j : ℕ} (small : k < 2 ^ j) (d : ℕ) : peakNodes k (j + d) = peakNodes k j := by
  induction d with
  | zero => rfl
  | succ d ih =>
    have clear : k.testBit (j + d) = false :=
      Nat.testBit_lt_two_pow (lt_of_lt_of_le small (Nat.pow_le_pow_right (by norm_num) (by omega)))
    rw [← Nat.add_assoc, peakNodes, clear, if_neg Bool.false_ne_true, List.nil_append, ih]

theorem peakNodes_size {k j : ℕ} (small : k < 2 ^ j) : peakNodes k j = peakNodes k (Nat.size k) := by
  have within : Nat.size k ≤ j := Nat.size_le.2 small
  rw [← Nat.add_sub_cancel' within, peakNodes_of_lt (Nat.lt_size_self k)]

end Mountain
