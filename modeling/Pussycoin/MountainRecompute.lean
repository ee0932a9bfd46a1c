import Pussycoin.MountainHash

/-! Recomputing the hashes of a mountain range from some of them. A verifier given hashes at
some positions takes the given hash of a node where it has one, and otherwise hashes its two
children's: it arrives at a node's tree hash when the given hashes are right and every leaf
under the node lies under a node with a given hash. The peaks of `k` leaves are the nodes in
range whose parents are out of range; every leaf lies under one of them, and they follow one
another from leaf 0 on. Inside a peak's tree the nodes of its left and right edges are told
apart by their positions. -/
namespace Mountain

variable {α : Type*}

/-! ### Recomputing a tree -/

section Recompute

variable (parent : ℕ → α → α → α) (given : ℕ → Option α)

/-- The hash a verifier recomputes for node `i` of height `h`: the given one, or else the parent
hash of its two children's. -/
def recompute : ℕ → ℕ → Option α
  | 0, i => given (nodePos 0 i)
  | h + 1, i =>
    match given (nodePos (h + 1) i) with
    | some hash => some hash
    | none => do
      let left ← recompute h (2 * i)
      let right ← recompute h (2 * i + 1)
      pure (parent (nodePos (h + 1) i) left right)

/-- Some node of height at most `h` over leaf `l` has a given hash. -/
def Reached (h l : ℕ) : Prop := ∃ h' ≤ h, (given (nodePos h' (l / 2 ^ h'))).isSome

end Recompute

variable {leafHash : ℕ → α} {parent : ℕ → α → α → α} {given : ℕ → Option α}

/-- Every given hash is the tree hash of the node at its position. -/
def GivenRight (leafHash : ℕ → α) (parent : ℕ → α → α → α) (given : ℕ → Option α) : Prop :=
  ∀ h i hash, given (nodePos h i) = some hash → hash = treeHash leafHash parent h i

/-- Below a node without a given hash, a leaf is reached at the height of the node's children. -/
theorem Reached.child {h i l : ℕ} (absent : given (nodePos (h + 1) i) = none)
    (under : l ∈ leavesUnder (h + 1) i) (reached : Reached given (h + 1) l) : Reached given h l := by
  obtain ⟨h', low, found⟩ := reached
  refine ⟨h', ?_, found⟩
  by_contra top
  obtain rfl : h' = h + 1 := by omega
  rw [mem_leavesUnder.1 under, absent] at found
  cases found

/-- With right given hashes, a node all of whose leaves are reached recomputes to its tree hash. -/
theorem recompute_eq_treeHash (right : GivenRight leafHash parent given) :
    ∀ {h i : ℕ}, (∀ l ∈ leavesUnder h i, Reached given h l) →
      recompute parent given h i = some (treeHash leafHash parent h i)
  | 0, i, reached => by
    obtain ⟨h', low, found⟩ := reached i (mem_leavesUnder.2 (by simp))
    obtain rfl : h' = 0 := by omega
    obtain ⟨hash, given_hash⟩ := Option.isSome_iff_exists.1 found
    simp only [pow_zero, Nat.div_one] at given_hash
    rw [recompute, given_hash, right 0 i hash given_hash]
  | h + 1, i, reached => by
    cases given_node : given (nodePos (h + 1) i) with
    | some hash => rw [recompute, given_node, right _ _ _ given_node]
    | none =>
      -- each child's leaves are reached below the node
      have left := recompute_eq_treeHash right fun l under =>
        (reached l (mem_leavesUnder_succ.2 (.inl under))).child given_node (mem_leavesUnder_succ.2 (.inl under))
      have right' := recompute_eq_treeHash right fun l under =>
        (reached l (mem_leavesUnder_succ.2 (.inr under))).child given_node (mem_leavesUnder_succ.2 (.inr under))
      simp only [recompute, given_node, left, right', Option.bind_eq_bind, Option.bind_some, treeHash]
      rfl

/-- Bagging a list of peak hashes is bagging its first part with the bag of the rest. -/
theorem bag_append_bag [DecidableEq α] (zero : α) (numNodes : ℕ) (xs ys : List α) :
    bag parent zero numNodes (xs ++ [bag parent zero numNodes ys]) = bag parent zero numNodes (xs ++ ys) := by
  simp only [bag, List.reverse_append, List.reverse_singleton, List.foldl_append, List.singleton_append,
    List.foldl_cons, if_true]

/-! ### Leaves split by height -/

/-- The end of the node over a leaf moves right as the height grows. -/
theorem end_le_end {l h h' : ℕ} (low : h ≤ h') : 2 ^ h * (l / 2 ^ h + 1) ≤ 2 ^ h' * (l / 2 ^ h' + 1) := by
  obtain ⟨d, rfl⟩ := Nat.exists_eq_add_of_le low
  have split := Nat.lt_mul_div_succ (l / 2 ^ h) (Nat.two_pow_pos d)
  rw [Nat.div_div_eq_div_mul, ← pow_add] at split
  calc 2 ^ h * (l / 2 ^ h + 1)
      ≤ 2 ^ h * (2 ^ d * (l / 2 ^ (h + d) + 1)) := Nat.mul_le_mul_left _ split
    _ = 2 ^ (h + d) * (l / 2 ^ (h + d) + 1) := by rw [pow_add, Nat.mul_assoc]

/-- Two leaves under one node, the first before the second, part at a height below the node's,
where the second lies under a right child and the first under its left sibling. -/
theorem exists_split_height {l m : ℕ} (before : l < m) :
    ∀ {h}, l / 2 ^ h = m / 2 ^ h →
      ∃ s < h, l / 2 ^ s = m / 2 ^ s - 1 ∧ m / 2 ^ s % 2 = 1 ∧ l / 2 ^ (s + 1) = m / 2 ^ (s + 1)
  | 0, same => by simp at same; omega
  | h + 1, same => by
    by_cases below : l / 2 ^ h = m / 2 ^ h
    · obtain ⟨s, low, split⟩ := exists_split_height before below
      exact ⟨s, by omega, split⟩
    · have halves : ∀ x, x / 2 ^ (h + 1) = x / 2 ^ h / 2 := fun x => by
        rw [pow_succ, Nat.div_div_eq_div_mul]
      have mono : l / 2 ^ h ≤ m / 2 ^ h := Nat.div_le_div_right before.le
      refine ⟨h, by omega, ?_, ?_, same⟩ <;> rw [halves, halves] at same <;>
        generalize l / 2 ^ h = a at * <;> generalize m / 2 ^ h = b at * <;> omega

/-! ### The peaks -/

theorem mem_peakNodes {k j h i : ℕ} :
    (h, i) ∈ peakNodes k j ↔ h < j ∧ k.testBit h = true ∧ i = k / 2 ^ h - 1 := by
  induction j with
  | zero => simp [peakNodes]
  | succ j ih =>
    by_cases bit : k.testBit j = true
    · simp only [peakNodes, bit, if_true, List.singleton_append, List.mem_cons, Prod.mk.injEq, ih]
      constructor
      · rintro (⟨rfl, rfl⟩ | ⟨low, set, rfl⟩)
        · exact ⟨by omega, bit, rfl⟩
        · exact ⟨by omega, set, rfl⟩
      · rintro ⟨low, set, rfl⟩
        rcases Nat.lt_succ_iff_lt_or_eq.1 low with low | rfl
        · exact .inr ⟨low, set, rfl⟩
        · exact .inl ⟨rfl, rfl⟩
    · simp only [peakNodes, bit, Bool.false_eq_true, if_false, List.nil_append, ih]
      constructor
      · rintro ⟨low, set, rfl⟩
        exact ⟨by omega, set, rfl⟩
      · rintro ⟨low, set, rfl⟩
        rcases Nat.lt_succ_iff_lt_or_eq.1 low with low | rfl
        · exact ⟨low, set, rfl⟩
        · exact absurd set bit

/-- The peaks of `k` leaves are the nodes in range whose parents are out of range. -/
theorem mem_peakNodes_size {k h i : ℕ} :
    (h, i) ∈ peakNodes k (Nat.size k) ↔ 2 ^ h * (i + 1) ≤ k ∧ k < 2 ^ (h + 1) * (i / 2 + 1) := by
  rw [mem_peakNodes, Nat.testBit_eq_decide_div_mod_eq, decide_eq_true_iff]
  have pos := Nat.two_pow_pos h
  have halves : k / 2 ^ (h + 1) = k / 2 ^ h / 2 := by rw [pow_succ, Nat.div_div_eq_div_mul]
  -- both sides read `k` at the scale of the node: the parent's range and the node's
  have parentRange : k < 2 ^ (h + 1) * (i / 2 + 1) ↔ k / 2 ^ h / 2 < i / 2 + 1 := by
    rw [← halves, Nat.div_lt_iff_lt_mul (Nat.two_pow_pos _), mul_comm]
  have nodeRange : 2 ^ h * (i + 1) ≤ k ↔ i + 1 ≤ k / 2 ^ h := by
    rw [Nat.le_div_iff_mul_le pos, mul_comm]
  have under : 2 ^ h * (k / 2 ^ h) ≤ k := Nat.mul_div_le k _
  rw [parentRange, nodeRange]
  generalize k / 2 ^ h = c at *
  constructor
  · rintro ⟨-, odd, rfl⟩
    omega
  · rintro ⟨fits, out⟩
    refine ⟨Nat.lt_size.2 ?_, by omega, by omega⟩
    calc 2 ^ h ≤ 2 ^ h * c := Nat.le_mul_of_pos_right _ (by omega)
      _ ≤ k := under

/-- Every leaf lies under a peak. -/
theorem exists_peak {k l : ℕ} (inside : l < k) : ∃ h, (h, l / 2 ^ h) ∈ peakNodes k (Nat.size k) := by
  classical
  -- the highest node over the leaf that is still in range is a peak
  let InRange := fun h => 2 ^ h * (l / 2 ^ h + 1) ≤ k
  have holds : InRange (Nat.findGreatest InRange (Nat.size k)) :=
    Nat.findGreatest_spec (Nat.zero_le _) (by simp only [InRange]; omega)
  refine ⟨Nat.findGreatest InRange (Nat.size k), mem_peakNodes_size.2 ⟨holds, ?_⟩⟩
  rw [Nat.div_div_eq_div_mul, ← pow_succ]
  by_contra inParent
  rcases Nat.lt_or_ge (Nat.findGreatest InRange (Nat.size k)) (Nat.size k) with low | high
  · exact Nat.findGreatest_is_greatest (Nat.lt_succ_self _) low (Nat.le_of_not_lt inParent)
  · -- past the length of `k`, the range of a node is longer than `k`
    have long : k < 2 ^ (Nat.findGreatest InRange (Nat.size k) + 1) :=
      (Nat.lt_size_self k).trans_le (Nat.pow_le_pow_right (by norm_num) (by omega))
    have wide : 2 ^ (Nat.findGreatest InRange (Nat.size k) + 1) ≤
        2 ^ (Nat.findGreatest InRange (Nat.size k) + 1) * (l / 2 ^ (Nat.findGreatest InRange (Nat.size k) + 1) + 1) :=
      Nat.le_mul_of_pos_right _ (Nat.succ_pos _)
    omega

/-- A node in range over a leaf lies at or below the leaf's peak. -/
theorem le_of_peak {k l h h' : ℕ} (peak : (h, l / 2 ^ h) ∈ peakNodes k (Nat.size k))
    (inRange : 2 ^ h' * (l / 2 ^ h' + 1) ≤ k) : h' ≤ h := by
  by_contra high
  have out := (mem_peakNodes_size.1 peak).2
  have grows := end_le_end (l := l) (show h + 1 ≤ h' by omega)
  rw [pow_succ, ← Nat.div_div_eq_div_mul] at grows
  rw [← pow_succ] at grows
  omega

/-- Node `p` ends at or before the leaf where node `q` begins. -/
def Before (p q : ℕ × ℕ) : Prop := 2 ^ p.1 * (p.2 + 1) ≤ 2 ^ q.1 * q.2

instance : Trans Before Before Before where
  trans pq qr := pq.trans ((Nat.mul_le_mul_left _ (Nat.le_succ _)).trans qr)

/-- The peaks below height `j` follow one another, and the first begins where `k` cut to a
multiple of `2^j` ends. -/
theorem peakNodes_chain (k : ℕ) : ∀ j, (peakNodes k j).IsChain (fun p q => 2 ^ p.1 * (p.2 + 1) = 2 ^ q.1 * q.2) ∧
    ∀ p ∈ (peakNodes k j).head?, 2 ^ p.1 * p.2 = 2 ^ j * (k / 2 ^ j)
  | 0 => by simp [peakNodes]
  | j + 1 => by
    obtain ⟨chain, start⟩ := peakNodes_chain k j
    have halves : k / 2 ^ (j + 1) = k / 2 ^ j / 2 := by rw [pow_succ, Nat.div_div_eq_div_mul]
    by_cases bit : k.testBit j = true
    · have odd : k / 2 ^ j % 2 = 1 := by
        rw [Nat.testBit_eq_decide_div_mod_eq, decide_eq_true_iff] at bit
        exact bit
      simp only [peakNodes, bit, if_true, List.singleton_append, List.isChain_cons, chain, and_true,
        List.head?_cons, Option.mem_def, Option.some.injEq, forall_eq']
      refine ⟨fun q first => ?_, ?_⟩
      · have filled : 1 ≤ k / 2 ^ j := by
          generalize k / 2 ^ j = c at odd
          omega
        rw [start q first, Nat.sub_add_cancel filled]
      · rw [halves, pow_succ, Nat.mul_assoc, show k / 2 ^ j - 1 = 2 * (k / 2 ^ j / 2) by omega]
    · have even : k / 2 ^ j % 2 = 0 := by
        rw [Nat.testBit_eq_decide_div_mod_eq, decide_eq_true_iff] at bit
        omega
      simp only [peakNodes, bit, Bool.false_eq_true, if_false, List.nil_append, chain, true_and]
      intro p first
      rw [start p first, halves, pow_succ, Nat.mul_assoc, ← show k / 2 ^ j = 2 * (k / 2 ^ j / 2) by omega]

theorem peakNodes_pairwise (k j : ℕ) : (peakNodes k j).Pairwise Before :=
  ((peakNodes_chain k j).1.imp fun _ _ meet => meet.le).pairwise

/-- The peaks split at the peak over a leaf `l < k`: those before it end by `l`, the last of them
where it begins (the first peak begins at leaf 0), and those after it begin past `l`. -/
theorem peakNodes_split {k l : ℕ} (inside : l < k) :
    ∃ H A B, peakNodes k (Nat.size k) = A ++ (H, l / 2 ^ H) :: B ∧
      (∀ p ∈ A, 2 ^ p.1 * (p.2 + 1) ≤ l) ∧ (∀ q ∈ B, l < 2 ^ q.1 * q.2) ∧
      2 ^ H * (l / 2 ^ H) = (A.getLast?.map fun p => 2 ^ p.1 * (p.2 + 1)).getD 0 := by
  obtain ⟨H, peak⟩ := exists_peak inside
  obtain ⟨A, B, split⟩ := List.append_of_mem peak
  have sorted := peakNodes_pairwise k (Nat.size k)
  rw [split, List.pairwise_append, List.pairwise_cons] at sorted
  have under : 2 ^ H * (l / 2 ^ H) ≤ l := Nat.mul_div_le l _
  have past : l < 2 ^ H * (l / 2 ^ H + 1) := Nat.lt_mul_div_succ l (Nat.two_pow_pos H)
  refine ⟨H, A, B, split, fun p member => (sorted.2.2 p member _ List.mem_cons_self).trans under,
    fun q member => past.trans_le (sorted.2.1.1 q member), ?_⟩
  have chain := (peakNodes_chain k (Nat.size k)).1
  rw [split, List.isChain_append] at chain
  cases last : A.getLast? with
  | none =>
    -- the peak comes first, and the peaks begin at leaf 0
    have first := (peakNodes_chain k (Nat.size k)).2 (H, l / 2 ^ H)
    rw [split, List.getLast?_eq_none_iff.1 last, List.nil_append, List.head?_cons] at first
    rw [first rfl, Nat.div_eq_of_lt (Nat.lt_size_self k), mul_zero]
    rfl
  | some p => exact (chain.2.2 p last _ rfl).symm

/-! ### The edges of a peak's tree -/

/-- By position, a node starts at leaf `a` when it lies `2^(s+1) - 2` after the position of leaf `a`. -/
theorem nodePos_add_two_eq_iff {s c a : ℕ} : nodePos s c + 2 = leafPos a + 2 ^ (s + 1) ↔ 2 ^ s * c = a := by
  have grow := Nat.one_le_two_pow (n := s)
  rw [nodePos_eq, pow_succ]
  constructor
  · intro same
    exact leafPos_strictMono.injective (by omega)
  · rintro rfl
    omega

/-- Inside the tree of the node of height `H` ending at leaf `e`, a node of height `s` lies on the
right edge, below the peak by its height difference, exactly when it ends at `e`; by position,
exactly when it lies at most `H` before the peak. -/
theorem nodePos_right_edge_iff {s c H J : ℕ} (low : s ≤ H) (inside : 2 ^ s * (c + 1) ≤ 2 ^ H * (J + 1)) :
    nodePos H J ≤ nodePos s c + H ↔ 2 ^ s * (c + 1) = 2 ^ H * (J + 1) := by
  obtain ⟨d, rfl⟩ := Nat.exists_eq_add_of_le low
  -- the last node of height `s` in the tree lies `d` before the peak
  have last : nodePos s (2 ^ d * (J + 1) - 1) + d = nodePos (s + d) J := by
    have filled : 1 ≤ 2 ^ d * (J + 1) := Nat.one_le_iff_ne_zero.2 (by positivity)
    simp only [nodePos, Nat.sub_add_cancel filled, pow_add]
    rw [show 2 ^ d * (J + 1) * 2 ^ s = (J + 1) * (2 ^ s * 2 ^ d) by ring]
    omega
  have below : c + 1 ≤ 2 ^ d * (J + 1) := by
    rw [pow_add, Nat.mul_assoc] at inside
    exact Nat.le_of_mul_le_mul_left inside (Nat.two_pow_pos s)
  constructor
  · intro near
    by_contra inner
    have earlier : c + 1 < 2 ^ d * (J + 1) := by
      rcases Nat.lt_or_eq_of_le below with earlier | same
      · exact earlier
      · exact absurd (by rw [same, pow_add, Nat.mul_assoc]) inner
    -- the node after `c` lies at least `2^(s+1) - 1` on, and still at most the last node
    have step := nodePos_succ s c
    have mono := (nodePos_strictMono s).monotone (show c + 1 ≤ 2 ^ d * (J + 1) - 1 by omega)
    have wide := Nat.lt_two_pow_self (n := s + 1)
    omega
  · intro ends
    have same : c = 2 ^ d * (J + 1) - 1 := by
      rw [pow_add, Nat.mul_assoc] at ends
      have := Nat.eq_of_mul_eq_mul_left (Nat.two_pow_pos s) ends
      omega
    rw [same]
    omega

end Mountain
