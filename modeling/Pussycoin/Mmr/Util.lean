import Pussycoin.Mmr.Index

/-! The enumerations of `mmr/MMRUtil.cpp`: the peaks of an MMR (`CalcPeakIndices`) and the
nodes of one height (`SiblingIter`). The peaks of the first `k` leaves are the trees of the
bits of `k`, highest first, and they cover the positions before leaf `k`; the iterator walks
the nodes `Mountain.nodePos h 0, Mountain.nodePos h 1, …` of its height. -/
namespace Pussycoin.Mmr

open Mountain

/-- The positions under the node of height `height` at `position`, through `GetLeftChild`
and `GetRightChild`. -/
def subtreeAt : ℕ → ℕ → Finset ℕ
  | position, 0 => {position}
  | position, height + 1 =>
    let idx : Index := ⟨position, height + 1⟩
    insert position (subtreeAt idx.leftChild.position height ∪ subtreeAt idx.rightChild.position height)

/-- The positions under a node. -/
def Index.subtree (idx : Index) : Finset ℕ := subtreeAt idx.position idx.height

/-- In post-order the positions under a node of height `h` are the `2^(h+1) - 1` positions
that end at it. -/
theorem subtreeAt_eq {p h : ℕ} (whole : 2 ^ (h + 1) ≤ p + 2) :
    subtreeAt p h = Finset.Icc (p + 2 - 2 ^ (h + 1)) p := by
  induction h generalizing p with
  | zero =>
    simp [subtreeAt]
  | succ h ih =>
    have double : 2 ^ (h + 1 + 1) = 2 * 2 ^ (h + 1) := by ring
    have one := Nat.one_le_two_pow (n := h + 1)
    simp only [subtreeAt, Index.leftChild, Index.rightChild]
    rw [ih (by omega), ih (by omega)]
    ext q
    simp only [Finset.mem_insert, Finset.mem_union, Finset.mem_Icc]
    omega

theorem card_subtreeAt {p h : ℕ} (whole : 2 ^ (h + 1) ≤ p + 2) : (subtreeAt p h).card = 2 ^ (h + 1) - 1 := by
  rw [subtreeAt_eq whole, Nat.card_Icc]
  omega

/-! ### Peaks -/

/-- The subtrees of `peaks`, each a whole tree ending at its peak, lie one after another from
position `start` up to `stop`. -/
def Tiles : ℕ → List Index → ℕ → Prop
  | start, [], stop => start = stop
  | start, peak :: peaks, stop =>
    peak.position + 2 = start + 2 ^ (peak.height + 1) ∧ Tiles (peak.position + 1) peaks stop

theorem Tiles.le {start stop : ℕ} {peaks : List Index} (tiled : Tiles start peaks stop) : start ≤ stop := by
  induction peaks generalizing start with
  | nil => exact le_of_eq tiled
  | cons peak peaks ih =>
    obtain ⟨ends, rest⟩ := tiled
    have one := Nat.one_le_two_pow (n := peak.height)
    have after := ih rest
    rw [pow_succ] at ends
    omega

theorem Tiles.append {start middle : ℕ} {peaks : List Index} {peak : Index} (tiled : Tiles start peaks middle)
    (next : peak.position + 2 = middle + 2 ^ (peak.height + 1)) :
    Tiles start (peaks ++ [peak]) (peak.position + 1) := by
  induction peaks generalizing start with
  | nil =>
    cases tiled
    exact ⟨next, rfl⟩
  | cons first peaks ih => exact ⟨tiled.1, ih tiled.2⟩

/-- Consecutive subtrees cover exactly the positions from `start` to `stop`. -/
theorem Tiles.mem_iff {start stop : ℕ} {peaks : List Index} (tiled : Tiles start peaks stop) (q : ℕ) :
    start ≤ q ∧ q < stop ↔ ∃ peak ∈ peaks, q ∈ peak.subtree := by
  induction peaks generalizing start with
  | nil =>
    cases tiled
    simp
  | cons peak peaks ih =>
    obtain ⟨ends, rest⟩ := tiled
    have after := rest.le
    have one := Nat.one_le_two_pow (n := peak.height)
    rw [List.exists_mem_cons_iff, ← ih rest, Index.subtree, subtreeAt_eq (by omega), Finset.mem_Icc]
    omega

theorem Tiles.disjoint {start stop : ℕ} {peaks : List Index} (tiled : Tiles start peaks stop) :
    peaks.Pairwise fun a b => Disjoint a.subtree b.subtree := by
  induction peaks generalizing start with
  | nil => exact .nil
  | cons peak peaks ih =>
    obtain ⟨ends, rest⟩ := tiled
    refine .cons (fun other member => Finset.disjoint_left.2 fun q inPeak inOther => ?_) (ih rest)
    -- the later subtrees start after the peak
    have later := ((rest.mem_iff q).2 ⟨other, member, inOther⟩).1
    rw [Index.subtree, subtreeAt_eq (by omega), Finset.mem_Icc] at inPeak
    omega

theorem Tiles.whole {start stop : ℕ} {peaks : List Index} (tiled : Tiles start peaks stop) :
    ∀ peak ∈ peaks, 2 ^ (peak.height + 1) ≤ peak.position + 2 := by
  induction peaks generalizing start with
  | nil => simp
  | cons peak peaks ih =>
    obtain ⟨ends, rest⟩ := tiled
    rintro other (_ | ⟨_, member⟩)
    · omega
    · exact ih rest other member

/-- With `peakSize = 2^j - 1`, the peaks of the trees above bit `j` of the leaf count pushed
and the leaves below it left: the loop pushes one peak for each set bit, highest first. -/
theorem calcPeakIndicesLoop_spec {bits j a m : ℕ} (enough : j ≤ bits) (small : m < 2 ^ j)
    (narrow : leafPos (2 ^ j * a + m) < 2 ^ 64) {peaks : List Index}
    (tiled : Tiles 0 peaks (leafPos (2 ^ j * a))) (taller : ∀ peak ∈ peaks, j ≤ peak.height)
    (sorted : peaks.Pairwise fun a b => b.height < a.height) :
    ∃ result, calcPeakIndicesLoop bits (2 ^ j - 1) (leafPos m) (leafPos (2 ^ j * a)) peaks = (result, 0) ∧
      Tiles 0 result (leafPos (2 ^ j * a + m)) ∧ result.Pairwise fun a b => b.height < a.height := by
  induction bits generalizing j a m peaks with
  | zero =>
    obtain rfl : j = 0 := by omega
    obtain rfl : m = 0 := by simpa using small
    exact ⟨peaks, by simp [calcPeakIndicesLoop, leafPos_zero], by simpa using tiled, sorted⟩
  | succ bits ih =>
    cases j with
    | zero =>
      obtain rfl : m = 0 := by simpa using small
      exact ⟨peaks, by simp [calcPeakIndicesLoop, leafPos_zero], by simpa using tiled, sorted⟩
    | succ j =>
      have one := Nat.one_le_two_pow (n := j)
      have nonzero : 2 ^ (j + 1) - 1 ≠ 0 := by rw [pow_succ]; omega
      have halved : (2 ^ (j + 1) - 1) >>> 1 = 2 ^ j - 1 := by
        rw [Nat.shiftRight_one, pow_succ]
        omega
      have aligned : 2 ^ (j + 1) * a = 2 ^ j * (2 * a) := by ring
      rw [calcPeakIndicesLoop, if_neg nonzero, halved]
      by_cases high : 2 ^ j ≤ m
      · -- bit `j` of the leaf count is set: the tree of height `j` after the higher ones is a peak
        obtain ⟨m', rfl⟩ : ∃ m', m = 2 ^ j + m' := ⟨m - 2 ^ j, by omega⟩
        have double : 2 ^ (j + 1) = 2 ^ j * 2 := pow_succ 2 j
        have small' : m' < 2 ^ j := by omega
        have full := leafPos_two_pow_add small'
        have root : nodePos j (2 * a) = leafPos (2 ^ (j + 1) * a) + (2 ^ (j + 1) - 2) := by
          rw [nodePos_eq, aligned]
        have after := nodePos_two_mul_add_one j a
        have rest : 2 ^ j * (2 * a + 1) + m' = 2 ^ (j + 1) * a + (2 ^ j + m') := by ring
        have height : (Index.at (nodePos j (2 * a))).height = j := by
          have inside := (nodePos_lt_leafPos_iff (h := j) (i := 2 * a) (k := 2 ^ j * (2 * a + 1) + m')).2
            (by ring_nf; omega)
          rw [rest] at inside
          rw [Index.at, calculateHeight_eq (by omega), height_nodePos]
        rw [if_pos (by omega), show leafPos (2 ^ j + m') - (2 ^ (j + 1) - 1) = leafPos m' by omega,
          show leafPos (2 ^ (j + 1) * a) + (2 ^ (j + 1) - 1) - 1 = nodePos j (2 * a) by omega,
          show leafPos (2 ^ (j + 1) * a) + (2 ^ (j + 1) - 1) = leafPos (2 ^ j * (2 * a + 1)) by omega, ← rest]
        refine ih (by omega) small' (by rwa [rest]) ?_ ?_ ?_
        · -- the new peak's tree follows those of the higher bits
          have next : (Index.at (nodePos j (2 * a))).position + 2 =
              leafPos (2 ^ (j + 1) * a) + 2 ^ ((Index.at (nodePos j (2 * a))).height + 1) := by
            rw [height]
            show nodePos j (2 * a) + 2 = _
            omega
          rw [← after]
          exact tiled.append next
        · intro peak member
          rcases List.mem_append.1 member with old | new
          · have := taller peak old
            omega
          · rw [List.mem_singleton.1 new, height]
        · refine List.pairwise_append.2 ⟨sorted, by simp, fun old member new isNew => ?_⟩
          rw [List.mem_singleton.1 isNew, height]
          have := taller old member
          omega
      · -- bit `j` is clear: the leaves left are too few for a tree of height `j`
        have below : leafPos m < 2 ^ (j + 1) - 1 := by
          have before := leafPos_strictMono.monotone (show m ≤ 2 ^ j - 1 by omega)
          have last := leafPos_two_pow_sub_one j
          omega
        rw [if_neg (by omega), aligned]
        rw [aligned] at narrow tiled
        exact ih (by omega) (by omega) narrow tiled (fun peak member => by have := taller peak member; omega) sorted

/-- `CalcPeakIndices` of the position of leaf `k`: the assertion holds, and the peaks, of
decreasing heights, tile the positions before the leaf. -/
theorem calcPeakIndices_leafPos {k : ℕ} (narrow : leafPos k < 2 ^ 64) :
    ∃ peaks, calcPeakIndices (leafPos k) = some peaks ∧ Tiles 0 peaks (leafPos k) ∧
      peaks.Pairwise fun a b => b.height < a.height := by
  by_cases empty : k = 0
  · subst empty
    exact ⟨[], by simp [calcPeakIndices, leafPos_zero], by simp [Tiles, leafPos_zero], .nil⟩
  · have before : k ≤ leafPos k := by
      have := ones_le k
      unfold leafPos
      omega
    have small : k < 2 ^ Nat.size (leafPos k) := before.trans_lt (Nat.lt_size_self _)
    have start : Tiles 0 ([] : List Index) (leafPos (2 ^ Nat.size (leafPos k) * 0)) := by
      simp [Tiles, leafPos_zero]
    obtain ⟨result, run, tiled, sorted⟩ := calcPeakIndicesLoop_spec (size_le_of_lt narrow) small
      (by simpa using narrow) start (by simp) .nil
    simp only [mul_zero, zero_add, leafPos_zero] at run tiled
    refine ⟨result, ?_, tiled, sorted⟩
    rw [calcPeakIndices, if_neg (by omega), fillOnesToRight_eq narrow]
    simp [run]

/-! ### Nodes of one height -/

def countRightmostZerosLoop : ℕ → ℕ → ℕ → ℕ
  | 0, _, count => count
  | bits + 1, n, count => if n &&& 1 = 0 then countRightmostZerosLoop bits (n >>> 1) (count + 1) else count

/-- `BitUtil::CountRightmostZeros`; `none` where its assertion `input != 0` fails. On a nonzero
word its loop ends within 64 rounds. -/
def countRightmostZeros (input : ℕ) : Option ℕ :=
  if input = 0 then none else some (countRightmostZerosLoop 64 input 0)

/-- `SiblingIter`: the height it walks, the last node it may reach, the distance from a left
child to the next node of its height, the number of calls of `Next` so far, and the node the
last call reached. -/
structure SiblingIter where
  height : ℕ
  lastNode : Index
  baseInc : ℕ
  siblingNum : ℕ
  next : Index

namespace SiblingIter

/-- The constructor `SiblingIter(height, last_node)`, undefined from height 64 on, where the
`uint64_t` shift `2 << height` is. `m_next` is default-constructed and written before it is
read. -/
def init (height : ℕ) (lastNode : Index) : Option SiblingIter :=
  if height < 64 then some ⟨height, lastNode, ((2 <<< height) % 2 ^ 64 + 2 ^ 64 - 1) % 2 ^ 64, 0, ⟨0, 0⟩⟩
  else none

/-- `SiblingIter::Next`, in `uint64_t` arithmetic: the first call goes to position
`baseInc - 1`, each later one `baseInc` plus the trailing zeros of the number of calls so far
further on; it tells whether the node is at or before `lastNode`. -/
def advance (it : SiblingIter) : Option (Bool × SiblingIter) := do
  let next : Index ← if it.siblingNum = 0 then pure ⟨(it.baseInc + 2 ^ 64 - 1) % 2 ^ 64, it.height⟩
    else do
      let zeros ← countRightmostZeros it.siblingNum
      pure ⟨(it.next.position + (it.baseInc + zeros) % 2 ^ 64) % 2 ^ 64, it.height⟩
  pure (decide (next.position ≤ it.lastNode.position),
    { it with siblingNum := (it.siblingNum + 1) % 2 ^ 64, next := next })

/-- The nodes that a loop `while (iter.Next())` reads with `Get`, with `fuel` calls of `Next`;
`none` when the fuel runs out. -/
def visit : ℕ → SiblingIter → Option (List Index)
  | 0, _ => none
  | fuel + 1, it => do
    let (more, it) ← it.advance
    if more then (it.next :: ·) <$> visit fuel it else pure []

/-- The iterator at height `h` after `c` calls of `Next` that stayed below `2^64`. -/
def iterAt (h : ℕ) (lastNode : Index) (c : ℕ) : SiblingIter :=
  ⟨h, lastNode, 2 ^ (h + 1) - 1, c, if c = 0 then ⟨0, 0⟩ else ⟨nodePos h (c - 1), h⟩⟩

end SiblingIter

/-- The trailing zeros of a nonzero word are the trailing ones of the word below it. -/
theorem countRightmostZerosLoop_eq {bits n : ℕ} (pos : 0 < n) (narrow : n < 2 ^ bits) (count : ℕ) :
    countRightmostZerosLoop bits n count = count + trailingOnes (n - 1) := by
  induction bits generalizing n count with
  | zero => simp at narrow; omega
  | succ bits ih =>
    rw [countRightmostZerosLoop, Nat.and_one_is_mod]
    obtain ⟨q, rfl | rfl⟩ := Nat.even_or_odd' n
    · -- an even word: one zero more, then the word shifted right
      have half : (2 * q) >>> 1 = q := by rw [Nat.shiftRight_one]; omega
      have below : 2 * q - 1 = 2 * (q - 1) + 1 := by omega
      rw [if_pos (by omega), half, ih (by omega) (by rw [pow_succ] at narrow; omega), below,
        trailingOnes_two_mul_add_one]
      omega
    · rw [if_neg (by omega), Nat.add_sub_cancel, trailingOnes_two_mul, add_zero]

theorem countRightmostZeros_eq {n : ℕ} (pos : 0 < n) (narrow : n < 2 ^ 64) :
    countRightmostZeros n = some (trailingOnes (n - 1)) := by
  rw [countRightmostZeros, if_neg (by omega), countRightmostZerosLoop_eq pos narrow, zero_add]

/-- The positions of height `h` up to `lastNode` are the nodes of that height before the first
one past it. -/
theorem filter_height_eq {h n : ℕ} {lastNode : Index} (narrow : lastNode.position < 2 ^ 63)
    (spec : ∀ i, nodePos h i ≤ lastNode.position ↔ i < n) :
    (List.range (lastNode.position + 1)).filter (fun q => (Index.at q).height = h) = (List.range n).map (nodePos h) := by
  have atHeight : ∀ q, q ≤ lastNode.position → (Index.at q).height = Mountain.height q :=
    fun q within => calculateHeight_eq (by omega)
  -- both lists increase and have the same members
  apply List.Pairwise.eq_of_mem_iff (r := (· < ·)) (List.pairwise_lt_range.filter _)
    (List.pairwise_map.2 (List.pairwise_lt_range.imp fun before => nodePos_strictMono h before))
  intro q
  simp only [List.mem_filter, List.mem_range, decide_eq_true_eq, List.mem_map]
  constructor
  · rintro ⟨within, level⟩
    rw [atHeight q (by omega), height_eq_iff] at level
    obtain ⟨i, rfl⟩ := level
    exact ⟨i, (spec i).1 (by omega), rfl⟩
  · rintro ⟨i, before, rfl⟩
    have within := (spec i).2 before
    exact ⟨by omega, by rw [atHeight _ within, height_nodePos]⟩

namespace SiblingIter

/-- Below height 64 the distance from a left child to the next node is `2^(h+1) - 1`, also at
height 63, where `2 << 63` wraps to 0. -/
theorem baseInc_eq {h : ℕ} (low : h < 64) : ((2 <<< h) % 2 ^ 64 + 2 ^ 64 - 1) % 2 ^ 64 = 2 ^ (h + 1) - 1 := by
  rcases Nat.lt_or_ge h 63 with below | top
  · have fits : 2 ^ (h + 1) < 2 ^ 64 := Nat.pow_lt_pow_right (by norm_num) (by omega)
    have one := Nat.one_le_two_pow (n := h + 1)
    rw [Nat.shiftLeft_eq, ← pow_succ', Nat.mod_eq_of_lt fits,
      show 2 ^ (h + 1) + 2 ^ 64 - 1 = 2 ^ (h + 1) - 1 + 2 ^ 64 by omega, Nat.add_mod_right,
      Nat.mod_eq_of_lt (by omega)]
  · obtain rfl : h = 63 := by omega
    decide

theorem init_eq {h : ℕ} (low : h < 64) (lastNode : Index) : init h lastNode = some (iterAt h lastNode 0) := by
  rw [init, if_pos low, baseInc_eq low]
  rfl

/-- One call of `Next`: while the positions stay below `2^64`, call `c + 1` reaches node `c`
of the height. -/
theorem advance_iterAt {h c : ℕ} {lastNode : Index} (count : c + 1 < 2 ^ 64)
    (narrow : nodePos h c < 2 ^ 64) :
    (iterAt h lastNode c).advance =
      some (decide (nodePos h c ≤ lastNode.position), iterAt h lastNode (c + 1)) := by
  have two : 2 ≤ 2 ^ (h + 1) := Nat.le_self_pow (Nat.succ_ne_zero h) 2
  cases c with
  | zero =>
    -- the first call steps back one from `baseInc`, to the first node of the height
    have first : nodePos h 0 = 2 ^ (h + 1) - 2 := by simp [nodePos_eq, leafPos_zero]
    have wrap : (2 ^ (h + 1) - 1 + 2 ^ 64 - 1) % 2 ^ 64 = nodePos h 0 := by
      rw [show 2 ^ (h + 1) - 1 + 2 ^ 64 - 1 = nodePos h 0 + 2 ^ 64 by omega, Nat.add_mod_right,
        Nat.mod_eq_of_lt narrow]
    simp [advance, iterAt, -Nat.reducePow, wrap]
  | succ c =>
    -- a later call adds `baseInc` and the trailing zeros of the count of calls
    have step := nodePos_succ h c
    have within : 2 ^ (h + 1) - 1 + trailingOnes c < 2 ^ 64 := by omega
    have wrap : (nodePos h c + (2 ^ (h + 1) - 1 + trailingOnes c)) % 2 ^ 64 = nodePos h (c + 1) := by
      rw [Nat.mod_eq_of_lt (by omega), step]
      omega
    simp [advance, iterAt, countRightmostZeros_eq (Nat.succ_pos c) (by omega), -Nat.reducePow, wrap,
      Nat.mod_eq_of_lt count]

theorem visit_succ {fuel : ℕ} {it next : SiblingIter} {more : Bool} (step : it.advance = some (more, next)) :
    visit (fuel + 1) it = if more then (next.next :: ·) <$> visit fuel next else some [] := by
  simp [visit, step]

/-- From call `c` on, with enough fuel, the loop visits nodes `c, c + 1, …` of the height up
to the last one at or before `lastNode`, while the node after each of them stays below
`2^64`. -/
theorem visit_iterAt_of_room {h fuel c : ℕ} {lastNode : Index} (low : h < 64)
    (fits : lastNode.position + 2 < 2 ^ 64)
    (room : ∀ i, nodePos h i ≤ lastNode.position → nodePos h (i + 1) < 2 ^ 64)
    (past : c ≠ 0 → nodePos h (c - 1) ≤ lastNode.position) (enough : lastNode.position + 2 ≤ fuel + c) :
    ∃ n, visit fuel (iterAt h lastNode c) = some ((List.range' c n).map fun i => ⟨nodePos h i, h⟩) ∧
      ∀ i, c ≤ i → (nodePos h i ≤ lastNode.position ↔ i < c + n) := by
  induction fuel generalizing c with
  | zero =>
    -- the fuel covers every node up to `lastNode`, so it cannot have run out
    have := le_nodePos h (c - 1)
    have := past (by omega)
    omega
  | succ fuel ih =>
    have reach : c ≤ lastNode.position + 1 := by
      rcases Nat.eq_zero_or_pos c with rfl | pos
      · omega
      · have := le_nodePos h (c - 1)
        have := past (by omega)
        omega
    have bound : nodePos h c < 2 ^ 64 := by
      rcases Nat.eq_zero_or_pos c with rfl | pos
      · have : 2 ^ (h + 1) ≤ 2 ^ 64 := Nat.pow_le_pow_right (by norm_num) (by omega)
        have := nodePos_add_ones h 0
        simp at this
        omega
      · have next := room (c - 1) (past (by omega))
        rwa [Nat.sub_add_cancel pos] at next
    rw [visit_succ (advance_iterAt (by omega) bound)]
    by_cases within : nodePos h c ≤ lastNode.position
    · obtain ⟨n, run, spec⟩ := ih (c := c + 1) (fun _ => by simpa using within) (by omega)
      refine ⟨n + 1, ?_, fun i after => ?_⟩
      · rw [decide_eq_true within, if_pos rfl, run]
        simp [iterAt, List.range'_succ]
      · rcases after.lt_or_eq with later | rfl
        · have := spec i later
          omega
        · simp only [within, true_iff]
          omega
    · refine ⟨0, by simp [within], fun i after => ?_⟩
      have := (nodePos_strictMono h).monotone after
      omega

/-- From call `c` on, with enough fuel, the loop visits nodes `c, c + 1, …` of the height up
to the last one at or before `lastNode`, for a `lastNode` below `2^63`. -/
theorem visit_iterAt {h fuel c : ℕ} {lastNode : Index} (low : h < 64) (narrow : lastNode.position < 2 ^ 63)
    (past : c ≠ 0 → nodePos h (c - 1) ≤ lastNode.position) (enough : lastNode.position + 2 ≤ fuel + c) :
    ∃ n, visit fuel (iterAt h lastNode c) = some ((List.range' c n).map fun i => ⟨nodePos h i, h⟩) ∧
      ∀ i, c ≤ i → (nodePos h i ≤ lastNode.position ↔ i < c + n) :=
  visit_iterAt_of_room low (by omega) (fun i within => by have := nodePos_succ_le h i; omega) past enough

/-- The loop over `SiblingIter(h, lastNode)` visits, in order, exactly the nodes of height `h`
at or before `lastNode`. -/
theorem visit_init {h fuel : ℕ} {lastNode : Index} (low : h < 64) (narrow : lastNode.position < 2 ^ 63)
    (enough : lastNode.position + 2 ≤ fuel) :
    (init h lastNode).bind (visit fuel) =
      some (((List.range (lastNode.position + 1)).filter fun q => (Index.at q).height = h).map Index.at) := by
  obtain ⟨n, run, spec⟩ := visit_iterAt (c := 0) low narrow (by simp) (by omega)
  simp only [zero_add, Nat.zero_le, true_implies] at spec
  rw [init_eq low, Option.bind_some, run, filter_height_eq narrow spec, List.map_map, ← List.range_eq_range']
  congr 1
  apply List.map_congr_left
  intro i member
  -- a node the iterator builds carries its height, as `Index::At` computes it
  have within := (spec i).2 (List.mem_range.1 member)
  simp only [Function.comp, Index.at, calculateHeight_eq (show nodePos h i < 2 ^ 64 by omega), height_nodePos]

end SiblingIter

/-! ### Exactness of both enumerations -/

/-- The peaks of the first `k` leaves for every `k < 2^63`: `CalcPeakIndices` of the position
of leaf `k` passes its assertion and returns nodes of decreasing heights whose subtrees are
whole trees, each ending at its peak, that partition the positions before leaf `k`. -/
theorem calcPeakIndices_at {k : ℕ} (small : k < 2 ^ 63) :
    ∃ peaks, calcPeakIndices (LeafIndex.at k).position = some peaks ∧
      peaks.Pairwise (fun a b => b.height < a.height) ∧
      (∀ q, q < (LeafIndex.at k).position ↔ ∃ peak ∈ peaks, q ∈ peak.subtree) ∧
      peaks.Pairwise (fun a b => Disjoint a.subtree b.subtree) ∧
      ∀ peak ∈ peaks, peak = Index.at peak.position ∧ peak.subtree.card = 2 ^ (peak.height + 1) - 1 ∧
        ∀ q ∈ peak.subtree, q ≤ peak.position := by
  rw [position_at small]
  obtain ⟨peaks, found, tiled, sorted⟩ := calcPeakIndices_leafPos (leafPos_lt small)
  refine ⟨peaks, found, sorted, fun q => ?_, tiled.disjoint, fun peak member => ?_⟩
  · rw [← tiled.mem_iff q]
    omega
  · have whole := tiled.whole peak member
    refine ⟨(mem_calcPeakIndices found member).2, card_subtreeAt whole, fun q inside => ?_⟩
    rw [Index.subtree, subtreeAt_eq whole, Finset.mem_Icc] at inside
    exact inside.2

theorem peak_and_level_enumeration :
    (∀ k < 2 ^ 63, ∃ peaks, calcPeakIndices (LeafIndex.at k).position = some peaks ∧
      peaks.Pairwise (fun a b => b.height < a.height) ∧
      (∀ q, q < (LeafIndex.at k).position ↔ ∃ peak ∈ peaks, q ∈ peak.subtree) ∧
      peaks.Pairwise (fun a b => Disjoint a.subtree b.subtree) ∧
      ∀ peak ∈ peaks, peak = Index.at peak.position ∧ peak.subtree.card = 2 ^ (peak.height + 1) - 1 ∧
        ∀ q ∈ peak.subtree, q ≤ peak.position) ∧
    (∀ h < 64, ∀ lastNode : Index, lastNode.position < 2 ^ 63 → ∀ fuel, lastNode.position + 2 ≤ fuel →
      (SiblingIter.init h lastNode).bind (SiblingIter.visit fuel) =
        some (((List.range (lastNode.position + 1)).filter fun q => (Index.at q).height = h).map Index.at)) :=
  ⟨fun _ small => calcPeakIndices_at small,
    fun _ low _ narrow _ enough => SiblingIter.visit_init low narrow enough⟩

theorem peak_and_level_enumeration_test :
    (∃ peaks, calcPeakIndices (LeafIndex.at 29).position = some peaks ∧
      peaks.Pairwise (fun a b => b.height < a.height) ∧
      (∀ q, q < (LeafIndex.at 29).position ↔ ∃ peak ∈ peaks, q ∈ peak.subtree) ∧
      peaks.Pairwise (fun a b => Disjoint a.subtree b.subtree) ∧
      ∀ peak ∈ peaks, peak = Index.at peak.position ∧ peak.subtree.card = 2 ^ (peak.height + 1) - 1 ∧
        ∀ q ∈ peak.subtree, q ≤ peak.position) ∧
    (SiblingIter.init 2 (Index.at 100)).bind (SiblingIter.visit 102) =
      some (((List.range ((Index.at 100).position + 1)).filter fun q => (Index.at q).height = 2).map Index.at) :=
  ⟨peak_and_level_enumeration.1 29 (by norm_num),
    peak_and_level_enumeration.2 2 (by norm_num) (Index.at 100) (by decide) 102 (by decide)⟩

/-- Past leaf `2^63`, height 63 and node `2^63` the enumerations fail: leaf `2^63 + 2` is put at
position 2, which is no leaf position, so the assertion of `CalcPeakIndices` fails; the shift
of `SiblingIter(64, ·)` is undefined; and at height 62 up to position `2^64 - 1` the third call
of `Next` wraps past `2^64` to position `2^63 - 3`, of height 61. -/
theorem peak_and_level_enumeration_wraps :
    calcPeakIndices (LeafIndex.at (2 ^ 63 + 2)).position = none ∧
      SiblingIter.init 64 (Index.at 0) = none ∧
      ((SiblingIter.init 62 (Index.at (2 ^ 64 - 1))).bind fun it => it.advance.bind fun first =>
        first.2.advance.bind fun second => second.2.advance.map fun third =>
          (first.1, second.1, third.1, third.2.next.position)) = some (true, true, true, 2 ^ 63 - 3) ∧
      (Index.at (2 ^ 63 - 3)).height = 61 := by
  refine ⟨by decide +kernel, by decide, by decide +kernel, by decide +kernel⟩

end Pussycoin.Mmr
