import Pussycoin.MountainHash
import Pussycoin.Mmr.CacheLeaf
import Pussycoin.Mmr.Util

/-! The hashes the MMRs of libmw hold. Every node of an `MMR`, a `PMMR` or a `PMMRCache`
stack holds the hash of the perfect tree under it over the hashes of the leaves added, the
leaves are put at their positions by `AddLeaf` and its loop over the parents they complete,
a rewind keeps the trees of the leaves it keeps, and `Root` bags the trees of the bits of the
leaf count. -/
namespace Pussycoin.Mmr

open Mountain

variable {D Η : Type}

theorem leafPos_succ_lt {n : ℕ} (small : n < 2 ^ 63) : leafPos (n + 1) < 2 ^ 64 := by
  have := ones_pos (show 0 < n + 1 by omega)
  unfold leafPos
  omega

theorem height_index_at {p : ℕ} (narrow : p < 2 ^ 64) : (Index.at p).height = height p :=
  calculateHeight_eq narrow

/-- A leaf below `2^63` completes at most 63 parents. -/
theorem trailingOnes_lt {n : ℕ} (small : n < 2 ^ 63) : trailingOnes n < 64 := by
  by_contra many
  obtain ⟨a, block⟩ := le_trailingOnes_iff.1 (show 64 ≤ trailingOnes n by omega)
  rcases a with _ | a
  · omega
  · have := Nat.le_mul_of_pos_right (2 ^ 64) (Nat.succ_pos a)
    omega

/-! ### The loop of `AddLeaf`

The loop reads a state through `getHash` and extends it with `push`; the state is seen
through `look`, its hashes by position, and `size`, the next position. -/

section Climb

variable {σ : Type} {parent : ℕ → Η → Η → Η} {getHash : σ → Index → Option Η} {push : σ → Η → σ}
  (look : σ → ℕ → Option Η) (size : σ → ℕ)
  (reads : ∀ s idx, getHash s idx = look s idx.position)
  (grows : ∀ s x, size (push s x) = size s + 1)
  (keeps : ∀ s x p, p < size s → look (push s x) p = look s p)
  (puts : ∀ s x, look (push s x) (size s) = some x)
include reads grows keeps puts

/-- With `d` parents of leaf `n` still to come above height `j`, the loop pushes them, each
the hash of its left child, an older node, and of the hash pushed before it, its right child,
and stops at leaf `n + 1`. -/
theorem addParents_climb {leafHash : ℕ → Η} {n : ℕ} (small : n < 2 ^ 63) (d : ℕ) :
    ∀ {j fuel : ℕ} {s : σ}, j + d = trailingOnes n → d < fuel →
      Stores leafHash parent (look s) (leafPos n + j + 1) → size s = leafPos n + j + 1 →
      ∃ s', addParents parent getHash push fuel s (Index.at (leafPos n + j + 1))
          (treeHash leafHash parent j ((n + 1) / 2 ^ j - 1)) = some s' ∧
        Stores leafHash parent (look s') (leafPos (n + 1)) ∧ size s' = leafPos (n + 1) := by
  have top := leafPos_succ_lt small
  have next := leafPos_succ n
  induction d with
  | zero =>
    intro j fuel s chain enough stores sized
    obtain ⟨fuel, rfl⟩ : ∃ f, fuel = f + 1 := ⟨fuel - 1, by omega⟩
    have at_next : leafPos n + j + 1 = leafPos (n + 1) := by omega
    -- the position after the last parent is the next leaf
    have leaf : (Index.at (leafPos n + j + 1)).isLeaf = true := by
      rw [Index.isLeaf, height_index_at (by omega), at_next, height_leafPos]
      rfl
    refine ⟨s, by rw [addParents, if_pos leaf], ?_, by omega⟩
    rwa [← at_next]
  | succ d ih =>
    intro j fuel s chain enough stores sized
    obtain ⟨fuel, rfl⟩ : ∃ f, fuel = f + 1 := ⟨fuel - 1, by omega⟩
    have up : j + 1 ≤ trailingOnes n := by omega
    have at_parent : nodePos (j + 1) ((n + 1) / 2 ^ (j + 1) - 1) = leafPos n + j + 1 := by
      rw [nodePos_chain up, Nat.add_assoc]
    have beside := nodePos_left_child j ((n + 1) / 2 ^ (j + 1) - 1)
    have wide := Nat.one_le_two_pow (n := j + 1)
    -- the next position is the parent of height `j + 1` above the leaf
    have height_here : (Index.at (leafPos n + j + 1)).height = j + 1 := by
      rw [height_index_at (by omega), Nat.add_assoc]
      exact height_leafPos_add up
    have notLeaf : (Index.at (leafPos n + j + 1)).isLeaf = false := by
      rw [Index.isLeaf, height_here]
      rfl
    have left : getHash s (Index.at (leafPos n + j + 1)).leftChild =
        some (treeHash leafHash parent j (2 * ((n + 1) / 2 ^ (j + 1) - 1))) := by
      rw [reads, Index.leftChild, height_here]
      show look s (leafPos n + j + 1 - 2 ^ (j + 1)) = _
      rw [show leafPos n + j + 1 - 2 ^ (j + 1) = nodePos j (2 * ((n + 1) / 2 ^ (j + 1) - 1)) by omega]
      exact stores _ _ (by omega)
    have hashed : parent (leafPos n + j + 1) (treeHash leafHash parent j (2 * ((n + 1) / 2 ^ (j + 1) - 1)))
        (treeHash leafHash parent j ((n + 1) / 2 ^ j - 1)) =
          treeHash leafHash parent (j + 1) ((n + 1) / 2 ^ (j + 1) - 1) := by
      rw [treeHash, chain_right_child up, at_parent]
    rw [addParents, notLeaf, if_neg Bool.false_ne_true]
    simp only [Option.bind_eq_bind, left, Option.bind_some]
    rw [show (Index.at (leafPos n + j + 1)).position = leafPos n + j + 1 from rfl, hashed, Index.next,
      show (Index.at (leafPos n + j + 1)).position + 1 = leafPos n + (j + 1) + 1 by rfl]
    refine ih (by omega) (by omega) ?_ (by rw [grows, sized]; omega)
    exact stores.push at_parent (fun p below => keeps s _ p (by omega)) (by rw [← sized]; exact puts s _)

/-- `AddLeaf` after the leaf's own hash: the loop succeeds, and the state holds every node
up to leaf `n + 1`. -/
theorem addParents_spec {leafHash : ℕ → Η} {n : ℕ} (small : n < 2 ^ 63) {x : Η} (leaf : leafHash n = x)
    {s : σ} (stores : Stores leafHash parent (look s) (leafPos n + 1)) (sized : size s = leafPos n + 1) :
    ∃ s', addParents parent getHash push 64 s (Index.at (leafPos n + 1)) x = some s' ∧
      Stores leafHash parent (look s') (leafPos (n + 1)) ∧ size s' = leafPos (n + 1) := by
  have climbed := addParents_climb look size reads grows keeps puts small (trailingOnes n)
    (show 0 + trailingOnes n = trailingOnes n by omega) (trailingOnes_lt small) stores sized
  simpa [treeHash, leaf] using climbed

end Climb

/-! ### The MMR of a history of leaf hashes -/

namespace MmrStack

/-- `GetHash` reads only the position of the index. -/
theorem getHash_position : ∀ (s : MmrStack D Η) (idx : Index), s.getHash idx = s.getHash (Index.at idx.position)
  | memMMR .., _ => rfl
  | pmmr _, _ => rfl
  | pmmrCache firstLeaf _ nodes base, idx => by
    simp only [getHash]
    rw [getHash_position base idx]
    rfl

/-- What each kind of MMR keeps beside its hashes for `n` leaves: an MMR and a hash file end
at the position of leaf `n`; a cache starts at a leaf index, holds consecutive leaves from it,
and holds the nodes from its first leaf up to leaf `n`. -/
def Shape (n : ℕ) : MmrStack D Η → Prop
  | memMMR hashes _ => hashes.length = leafPos n
  | pmmr hashFile => hashFile.getSize = leafPos n
  | pmmrCache firstLeaf leaves nodes _ =>
    firstLeaf = LeafIndex.at firstLeaf.leafIndex ∧ Consecutive firstLeaf leaves ∧
      leafPos firstLeaf.leafIndex + nodes.length = leafPos n

/-- The MMR of the leaf hashes `hs`: their count of leaves, and at every position before
the next leaf the hash of the tree of the node there. -/
structure Represents (hasher : Hasher D Η) (hs : List Η) (s : MmrStack D Η) : Prop where
  small : hs.length < 2 ^ 63
  numLeaves : s.getNumLeaves = hs.length
  shape : s.Shape hs.length
  stores : Stores (hs.getD · hasher.zero) hasher.parent (fun p => s.getHash (Index.at p)) (leafPos hs.length)

theorem getNextLeafIdx_cache_at {firstLeaf : LeafIndex} (leaves : List (Leaf D Η)) (nodes : List Η)
    (base : MmrStack D Η) (first : firstLeaf = LeafIndex.at firstLeaf.leafIndex) :
    (pmmrCache firstLeaf leaves nodes base).getNextLeafIdx =
      LeafIndex.at (pmmrCache firstLeaf leaves nodes base).getNumLeaves := by
  simp only [getNumLeaves, getNextLeafIdx]
  cases leaves.getLast? with
  | none => exact first
  | some leaf => rfl

/-- The next leaf index of a stack in shape is the one `LeafIndex::At` gives its count. -/
theorem getNextLeafIdx_of_shape {n : ℕ} {s : MmrStack D Η} (shape : s.Shape n) :
    s.getNextLeafIdx = LeafIndex.at s.getNumLeaves := by
  cases s with
  | memMMR => rfl
  | pmmr => rfl
  | pmmrCache firstLeaf leaves nodes base => exact getNextLeafIdx_cache_at leaves nodes base shape.1

theorem Represents.getNextLeafIdx {hasher : Hasher D Η} {hs : List Η} {s : MmrStack D Η}
    (rep : Represents hasher hs s) : s.getNextLeafIdx = LeafIndex.at hs.length := by
  rw [getNextLeafIdx_of_shape rep.shape, rep.numLeaves]

theorem Represents.getNumNodes {hasher : Hasher D Η} {hs : List Η} {s : MmrStack D Η}
    (rep : Represents hasher hs s) : s.getNumNodes = leafPos hs.length := by
  rw [MmrStack.getNumNodes, rep.getNextLeafIdx, position_at rep.small]

/-- A stack holds the MMR of one history only: the leaf count fixes its length, and each
leaf's position its hash. -/
theorem Represents.unique {hasher : Hasher D Η} {hs hs' : List Η} {s : MmrStack D Η}
    (rep : Represents hasher hs s) (rep' : Represents hasher hs' s) : hs = hs' := by
  have sameLength : hs.length = hs'.length := rep.numLeaves.symm.trans rep'.numLeaves
  apply List.ext_getElem sameLength
  intro l below below'
  have stored := rep.stores 0 l (by rw [nodePos_zero]; exact leafPos_strictMono below)
  have stored' := rep'.stores 0 l (by rw [nodePos_zero]; exact leafPos_strictMono below')
  rw [stored] at stored'
  simpa only [treeHash, Option.some.injEq, List.getD_eq_getElem _ _ below,
    List.getD_eq_getElem _ _ below'] using stored'

/-! ### Adding a leaf -/

section Add

variable {hasher : Hasher D Η} {hs : List Η}

/-- Giving the next position the hash of a new leaf extends the MMR of `hs` to the history
with that leaf, up to the leaf. -/
theorem stores_leaf {look look' : ℕ → Option Η}
    (stores : Stores (hs.getD · hasher.zero) hasher.parent look (leafPos hs.length))
    (kept : ∀ p < leafPos hs.length, look' p = look p) {x : Η} (put : look' (leafPos hs.length) = some x) :
    Stores ((hs ++ [x]).getD · hasher.zero) hasher.parent look' (leafPos hs.length + 1) := by
  have longer : Stores ((hs ++ [x]).getD · hasher.zero) hasher.parent look (leafPos hs.length) :=
    stores.congr_leaves (fun l before => (List.getD_append hs [x] hasher.zero l before).symm) le_rfl
  refine longer.push (nodePos_zero hs.length) kept ?_
  rw [put, treeHash, List.getD_append_right hs [x] hasher.zero _ le_rfl, Nat.sub_self]
  rfl

/-- The leaf `Add` creates at the next index of a stack holding `hs`. -/
theorem create_at (hasher : Hasher D Η) {n : ℕ} (small : n < 2 ^ 63) (data : D) :
    (Leaf.create hasher (LeafIndex.at n) data).hash = hasher.leaf (leafPos n) data ∧
      (Leaf.create hasher (LeafIndex.at n) data).leafIndex.nodeIndex.next = Index.at (leafPos n + 1) := by
  constructor
  · simp only [Leaf.create, position_at small]
  · simp only [Leaf.create, LeafIndex.nodeIndex, Index.next, position_at small]

/-- `Add` on a stack that holds the MMR of `hs` succeeds below `2^63` leaves, and the stack
holds the MMR of `hs` with the new leaf's hash. -/
theorem Represents.add {s : MmrStack D Η} (rep : Represents hasher hs s) (room : hs.length + 1 < 2 ^ 63)
    (data : D) : ∃ s', s.add hasher data = some s' ∧
      Represents hasher (hs ++ [hasher.leaf (leafPos hs.length) data]) s' := by
  obtain ⟨hash_eq, next_eq⟩ := create_at hasher rep.small data
  have longer : (hs ++ [hasher.leaf (leafPos hs.length) data]).length = hs.length + 1 := by simp
  have leaf : (hs ++ [hasher.leaf (leafPos hs.length) data]).getD hs.length hasher.zero =
      hasher.leaf (leafPos hs.length) data := by
    rw [List.getD_append_right hs _ hasher.zero _ le_rfl, Nat.sub_self]
    rfl
  rw [MmrStack.add, rep.getNextLeafIdx]
  cases s with
  | memMMR hashes leaves =>
    have sized : hashes.length = leafPos hs.length := rep.shape
    have stores : Stores ((hs ++ [hasher.leaf (leafPos hs.length) data]).getD · hasher.zero) hasher.parent
        (fun p => (hashes ++ [hasher.leaf (leafPos hs.length) data])[p]?) (leafPos hs.length + 1) :=
      stores_leaf rep.stores (fun p before => List.getElem?_append_left (show p < hashes.length by omega))
        (by rw [← sized]; exact List.getElem?_concat_length)
    obtain ⟨hashes', loop, stores', sized'⟩ : ∃ hashes', addParents hasher.parent
        (fun hashes idx => hashes[idx.position]?) (fun hashes hash => hashes ++ [hash]) 64
        (hashes ++ [hasher.leaf (leafPos hs.length) data]) (Index.at (leafPos hs.length + 1))
        (hasher.leaf (leafPos hs.length) data) = some hashes' ∧
        Stores ((hs ++ [hasher.leaf (leafPos hs.length) data]).getD · hasher.zero) hasher.parent
          (fun p => hashes'[p]?) (leafPos (hs.length + 1)) ∧ hashes'.length = leafPos (hs.length + 1) :=
      addParents_spec (fun hashes p => hashes[p]?) List.length (fun _ _ => rfl) (fun _ _ => List.length_append ..)
        (fun _ _ _ below => List.getElem?_append_left below) (fun _ _ => by simp) rep.small leaf stores
        (by simp [sized])
    refine ⟨memMMR hashes' (leaves ++ [Leaf.create hasher (LeafIndex.at hs.length) data]), ?_, ?_⟩
    · rw [addLeaf, MemMMR.addLeaf, hash_eq, next_eq, loop]
      rfl
    · refine ⟨by omega, ?_, by rw [longer]; exact sized', by rw [longer]; exact stores'⟩
      have count : leaves.length = hs.length := rep.numLeaves
      show (leaves ++ [_]).length = _
      simp [count]
  | pmmr hashFile =>
    have sized : hashFile.getSize = leafPos hs.length := rep.shape
    have stores : Stores ((hs ++ [hasher.leaf (leafPos hs.length) data]).getD · hasher.zero) hasher.parent
        (fun p => (hashFile.append [hasher.leaf (leafPos hs.length) data]).read p) (leafPos hs.length + 1) :=
      stores_leaf rep.stores (fun p before => hashFile.read_append_of_lt _ (show p < hashFile.getSize by omega))
        (by rw [← sized]; exact hashFile.read_append_getSize _)
    obtain ⟨file', loop, stores', sized'⟩ : ∃ file', addParents hasher.parent
        (fun file idx => file.read idx.position) (fun file hash => file.append [hash]) 64
        (hashFile.append [hasher.leaf (leafPos hs.length) data]) (Index.at (leafPos hs.length + 1))
        (hasher.leaf (leafPos hs.length) data) = some file' ∧
        Stores ((hs ++ [hasher.leaf (leafPos hs.length) data]).getD · hasher.zero) hasher.parent
          (fun p => file'.read p) (leafPos (hs.length + 1)) ∧ file'.getSize = leafPos (hs.length + 1) :=
      addParents_spec (fun file p => file.read p) AppendOnlyFile.getSize (fun _ _ => rfl)
        (fun file x => file.getSize_append x) (fun file x _ below => file.read_append_of_lt x below)
        (fun file x => file.read_append_getSize x) rep.small leaf stores (by rw [AppendOnlyFile.getSize_append, sized])
    refine ⟨pmmr file', ?_, ?_⟩
    · rw [addLeaf, PMMR.addLeaf, hash_eq, next_eq, loop]
      rfl
    · refine ⟨by omega, ?_, by rw [longer]; exact sized', by rw [longer]; exact stores'⟩
      show calculateLeafIndex file'.getSize = _
      rw [sized', longer, calculateLeafIndex_leafPos (leafPos_succ_lt rep.small)]
  | pmmrCache firstLeaf leaves nodes base =>
    obtain ⟨first, consecutive, sized⟩ := rep.shape
    have count : firstLeaf.leafIndex + leaves.length = hs.length := by
      rw [← rep.numLeaves]
      exact (getNextLeafIdx_cache nodes base consecutive).symm
    have at_first : firstLeaf.position = leafPos firstLeaf.leafIndex := by
      have placed := position_at (show firstLeaf.leafIndex < 2 ^ 63 by have := rep.small; omega)
      rwa [← first] at placed
    -- the loop reads the cache through its base below the first leaf, and its nodes above
    have keeps : ∀ (nodes : List Η) (x : Η) (p : ℕ), p < firstLeaf.position + nodes.length →
        (pmmrCache firstLeaf leaves (nodes ++ [x]) base).getHash (Index.at p) =
          (pmmrCache firstLeaf leaves nodes base).getHash (Index.at p) := by
      intro nodes x p below
      show (if p < firstLeaf.position then base.getHash (Index.at p) else (nodes ++ [x])[p - firstLeaf.position]?) =
        (if p < firstLeaf.position then base.getHash (Index.at p) else nodes[p - firstLeaf.position]?)
      by_cases low : p < firstLeaf.position
      · rw [if_pos low, if_pos low]
      · rw [if_neg low, if_neg low]
        exact List.getElem?_append_left (by omega)
    have puts : ∀ (nodes : List Η) (x : Η),
        (pmmrCache firstLeaf leaves (nodes ++ [x]) base).getHash (Index.at (firstLeaf.position + nodes.length)) =
          some x := by
      intro nodes x
      show (if firstLeaf.position + nodes.length < firstLeaf.position then base.getHash (Index.at _)
        else (nodes ++ [x])[firstLeaf.position + nodes.length - firstLeaf.position]?) = some x
      rw [if_neg (by omega), Nat.add_sub_cancel_left, List.getElem?_concat_length]
    have stores : Stores ((hs ++ [hasher.leaf (leafPos hs.length) data]).getD · hasher.zero) hasher.parent
        (fun p => (pmmrCache firstLeaf leaves (nodes ++ [hasher.leaf (leafPos hs.length) data]) base).getHash
          (Index.at p)) (leafPos hs.length + 1) :=
      stores_leaf rep.stores (fun p before => keeps nodes _ p (by omega))
        (by rw [show leafPos hs.length = firstLeaf.position + nodes.length by omega]; exact puts nodes _)
    obtain ⟨nodes', loop, stores', sized'⟩ : ∃ nodes', addParents hasher.parent
        (fun nodes idx => (pmmrCache firstLeaf leaves nodes base).getHash idx) (fun nodes hash => nodes ++ [hash]) 64
        (nodes ++ [hasher.leaf (leafPos hs.length) data]) (Index.at (leafPos hs.length + 1))
        (hasher.leaf (leafPos hs.length) data) = some nodes' ∧
        Stores ((hs ++ [hasher.leaf (leafPos hs.length) data]).getD · hasher.zero) hasher.parent
          (fun p => (pmmrCache firstLeaf leaves nodes' base).getHash (Index.at p)) (leafPos (hs.length + 1)) ∧
        firstLeaf.position + nodes'.length = leafPos (hs.length + 1) :=
      addParents_spec (fun nodes p => (pmmrCache firstLeaf leaves nodes base).getHash (Index.at p))
        (fun nodes => firstLeaf.position + nodes.length) (fun _ idx => getHash_position _ idx)
        (fun _ _ => by simp only [List.length_append, List.length_singleton]; omega) keeps puts rep.small leaf stores
        (by simp only [List.length_append, List.length_singleton]; omega)
    refine ⟨pmmrCache firstLeaf (leaves ++ [Leaf.create hasher (LeafIndex.at hs.length) data]) nodes' base, ?_, ?_⟩
    · rw [addLeaf, hash_eq, next_eq, loop]
      rfl
    · have consecutive' : Consecutive firstLeaf (leaves ++ [Leaf.create hasher (LeafIndex.at hs.length) data]) :=
        consecutive.append_next (show hs.length = _ by omega)
      refine ⟨by omega, ?_, ⟨first, consecutive', by rw [longer]; omega⟩, by rw [longer]; exact stores'⟩
      rw [getNumLeaves, getNextLeafIdx_cache nodes' base consecutive', List.length_append, longer,
        List.length_singleton]
      omega

end Add

/-! ### Rewinding -/

section Rewind

variable {hasher : Hasher D Η} {hs : List Η}

theorem getD_take {zero : Η} {m l : ℕ} (before : l < m) : (hs.take m).getD l zero = hs.getD l zero := by
  simp only [List.getD_eq_getElem?_getD, List.getElem?_take_of_lt before]

/-- A stack that reads as the MMR of `hs` below the first `m` leaves holds the MMR of the
leaves it keeps. -/
theorem stores_take {look look' : ℕ → Option Η}
    (stores : Stores (hs.getD · hasher.zero) hasher.parent look (leafPos hs.length)) (m : ℕ)
    (same : ∀ p < leafPos (hs.take m).length, look' p = look p) :
    Stores ((hs.take m).getD · hasher.zero) hasher.parent look' (leafPos (hs.take m).length) := by
  have fewer : leafPos (hs.take m).length ≤ leafPos hs.length :=
    leafPos_strictMono.monotone (List.length_take_le' m hs)
  refine ((stores.mono fewer).congr same).congr_leaves (fun l before => (getD_take ?_).symm) le_rfl
  rw [List.length_take] at before
  omega

/-- `Rewind` of an in-memory MMR to at most its count of leaves keeps the MMR of those leaves. -/
theorem Represents.rewind_memMMR {hashes : List Η} {leaves : List (Leaf D Η)}
    (rep : Represents hasher hs (memMMR hashes leaves)) {m : ℕ} (within : m ≤ hs.length) :
    ∃ hashes' leaves', (memMMR hashes leaves).rewind hasher.zero m = some (memMMR hashes' leaves') ∧
      Represents hasher (hs.take m) (memMMR hashes' leaves') := by
  have count : leaves.length = hs.length := rep.numLeaves
  have sized : hashes.length = leafPos hs.length := rep.shape
  have kept : (hs.take m).length = m := List.length_take_of_le within
  have small : m < 2 ^ 63 := by have := rep.small; omega
  have fewer : leafPos m ≤ leafPos hs.length := leafPos_strictMono.monotone within
  refine ⟨resize hasher.zero hashes (leafPos m), leaves.take m, ?_, ?_⟩
  · rw [rewind, if_pos (by omega), position_at small]
  · refine ⟨by omega, ?_, ?_, ?_⟩
    · show (leaves.take m).length = _
      rw [kept, List.length_take_of_le (by omega)]
    · show (resize hasher.zero hashes (leafPos m)).length = _
      rw [length_resize, kept]
    · refine stores_take rep.stores m fun p below => ?_
      rw [kept] at below
      exact getElem?_resize below (show p < hashes.length by omega)

/-- A predicate that holds exactly at the positions below `t` keeps the first `t` elements. -/
theorem takeWhile_eq_take {α : Type} {p : α → Bool} :
    ∀ {l : List α} {t : ℕ}, (∀ i (inside : i < l.length), p l[i] = decide (i < t)) → l.takeWhile p = l.take t
  | [], _, _ => by simp
  | a :: l, 0, holds => by
    have first := holds 0 (by simp)
    simp only [List.getElem_cons_zero, Nat.lt_irrefl, decide_false] at first
    rw [List.takeWhile_cons_of_neg (by simp [first]), List.take_zero]
  | a :: l, t + 1, holds => by
    have first := holds 0 (by simp)
    simp only [List.getElem_cons_zero, Nat.zero_lt_succ, decide_true] at first
    rw [List.takeWhile_cons_of_pos first, List.take_succ_cons, takeWhile_eq_take fun i inside => ?_]
    have later := holds (i + 1) (by simp only [List.length_cons]; omega)
    simpa using later

/-- The leaves of a cache below leaf `m` are its first `m - firstLeaf` leaves. -/
theorem takeWhile_consecutive {firstLeaf : LeafIndex} {leaves : List (Leaf D Η)}
    (consecutive : Consecutive firstLeaf leaves) (m : ℕ) :
    leaves.takeWhile (fun leaf => decide (leaf.leafIndex.leafIndex < m)) = leaves.take (m - firstLeaf.leafIndex) :=
  takeWhile_eq_take fun i inside => by
    rw [consecutive i _ (List.getElem?_eq_getElem inside)]
    exact decide_eq_decide.2 (by omega)

/-- `Rewind` of a cache to any count keeps the MMR of the leaves kept: below its first leaf
it starts again there and reads through its base, without leaves it stays, and otherwise it
keeps its leaves below the count and the nodes up to their last one. -/
theorem Represents.rewind_cache {firstLeaf : LeafIndex} {leaves : List (Leaf D Η)} {nodes : List Η}
    {base : MmrStack D Η} (rep : Represents hasher hs (pmmrCache firstLeaf leaves nodes base)) (m : ℕ) :
    ∃ s', (pmmrCache firstLeaf leaves nodes base).rewind hasher.zero m = some s' ∧
      Represents hasher (hs.take m) s' := by
  obtain ⟨first, consecutive, sized⟩ := rep.shape
  have count : firstLeaf.leafIndex + leaves.length = hs.length := by
    rw [← rep.numLeaves]
    exact (getNextLeafIdx_cache nodes base consecutive).symm
  have at_first : firstLeaf.position = leafPos firstLeaf.leafIndex := by
    have placed := position_at (show firstLeaf.leafIndex < 2 ^ 63 by have := rep.small; omega)
    rwa [← first] at placed
  have small := rep.small
  by_cases restart : m ≤ firstLeaf.leafIndex
  · -- the cache starts again at leaf `m` and reads everything below it through its base
    have kept : (hs.take m).length = m := List.length_take_of_le (by omega)
    have at_m : (LeafIndex.at m).position = leafPos m := position_at (by omega)
    have fewer : leafPos m ≤ leafPos firstLeaf.leafIndex := leafPos_strictMono.monotone restart
    refine ⟨pmmrCache (LeafIndex.at m) [] [] base, ?_, ?_⟩
    · simp only [rewind]
      rw [if_pos (show (LeafIndex.at m).leafIndex ≤ firstLeaf.leafIndex from restart)]
    · refine ⟨by omega, kept.symm, ⟨rfl, consecutive_nil _, ?_⟩, ?_⟩
      · show leafPos m + 0 = _
        rw [kept, Nat.add_zero]
      · refine stores_take rep.stores m fun p below => ?_
        rw [kept] at below
        show (if p < (LeafIndex.at m).position then base.getHash (Index.at p) else ([] : List Η)[p - _]?) =
          (if p < firstLeaf.position then base.getHash (Index.at p) else nodes[p - firstLeaf.position]?)
        rw [if_pos (by omega), if_pos (by omega)]
  · by_cases empty : leaves = []
    · -- nothing to cut: the count is past the leaves
      subst empty
      have whole : hs.take m = hs := List.take_of_length_le (by simp only [List.length_nil] at count; omega)
      refine ⟨pmmrCache firstLeaf [] nodes base, ?_, by rw [whole]; exact rep⟩
      simp only [rewind]
      rw [if_neg (show ¬ (LeafIndex.at m).leafIndex ≤ firstLeaf.leafIndex from restart)]
      simp only [List.isEmpty_nil, if_true]
    · -- the leaves below `m` stay, with the nodes up to the last of them
      have consecutive' : Consecutive firstLeaf (leaves.take (m - firstLeaf.leafIndex)) := by
        rw [← takeWhile_consecutive consecutive m]
        exact consecutive.takeWhile _
      have kept : firstLeaf.leafIndex + (leaves.take (m - firstLeaf.leafIndex)).length = (hs.take m).length := by
        simp only [List.length_take]
        omega
      have within : leafPos firstLeaf.leafIndex ≤ leafPos (hs.take m).length :=
        leafPos_strictMono.monotone (by omega)
      have shorter := List.length_take_le' m hs
      have fewer : leafPos (hs.take m).length ≤ leafPos hs.length := leafPos_strictMono.monotone shorter
      have numNodes : (pmmrCache firstLeaf (leaves.take (m - firstLeaf.leafIndex)) nodes base).getNumNodes -
          firstLeaf.position = leafPos (hs.take m).length - leafPos firstLeaf.leafIndex := by
        rw [MmrStack.getNumNodes, getNextLeafIdx_cache_at _ nodes base first, getNumLeaves,
          getNextLeafIdx_cache nodes base consecutive', kept, position_at (by omega), at_first]
      have trimmed : (if nodes.length > leafPos (hs.take m).length - leafPos firstLeaf.leafIndex then
          nodes.take (leafPos (hs.take m).length - leafPos firstLeaf.leafIndex) else nodes) =
          nodes.take (leafPos (hs.take m).length - leafPos firstLeaf.leafIndex) := by
        split
        · rfl
        · rw [List.take_of_length_le (by omega)]
      refine ⟨pmmrCache firstLeaf (leaves.take (m - firstLeaf.leafIndex))
        (nodes.take (leafPos (hs.take m).length - leafPos firstLeaf.leafIndex)) base, ?_, ?_⟩
      · simp only [rewind]
        rw [if_neg (show ¬ (LeafIndex.at m).leafIndex ≤ firstLeaf.leafIndex from restart),
          if_neg (by simpa using empty), show (LeafIndex.at m).leafIndex = m from rfl,
          takeWhile_consecutive consecutive, numNodes, trimmed]
      · refine ⟨by omega, ?_, ⟨first, consecutive', ?_⟩, ?_⟩
        · rw [getNumLeaves, getNextLeafIdx_cache _ base consecutive', kept]
        · rw [List.length_take_of_le (by omega)]
          omega
        · refine stores_take rep.stores m fun p below => ?_
          show (if p < firstLeaf.position then base.getHash (Index.at p) else
              (nodes.take (leafPos (hs.take m).length - leafPos firstLeaf.leafIndex))[p - firstLeaf.position]?) =
            (if p < firstLeaf.position then base.getHash (Index.at p) else nodes[p - firstLeaf.position]?)
          by_cases low : p < firstLeaf.position
          · rw [if_pos low, if_pos low]
          · rw [if_neg low, if_neg low, List.getElem?_take_of_lt (by omega)]

end Rewind

end MmrStack

/-! ### The root -/

/-- Bit `j` of a count `2^j * b + m` with `m < 2^j` is the parity of `b`. -/
theorem testBit_two_pow_mul_add {j b m : ℕ} (small : m < 2 ^ j) :
    (2 ^ j * b + m).testBit j = decide (b % 2 = 1) := by
  rw [Nat.testBit_eq_decide_div_mod_eq, Nat.mul_add_div (Nat.two_pow_pos j), Nat.div_eq_of_lt small, Nat.add_zero]

/-- The loop of `CalcPeakIndices` from bit `j` down pushes the peaks of the bits of the count
below `j`, highest first, and leaves nothing. -/
theorem calcPeakIndicesLoop_eq {bits j a m : ℕ} (enough : j ≤ bits) (small : m < 2 ^ j)
    (narrow : leafPos (2 ^ j * a + m) < 2 ^ 64) (peaks : List Index) :
    calcPeakIndicesLoop bits (2 ^ j - 1) (leafPos m) (leafPos (2 ^ j * a)) peaks =
      (peaks ++ (peakNodes (2 ^ j * a + m) j).map fun node => Index.at (nodePos node.1 node.2), 0) := by
  induction bits generalizing j a m peaks with
  | zero =>
    obtain rfl : j = 0 := by omega
    obtain rfl : m = 0 := by simpa using small
    simp [calcPeakIndicesLoop, peakNodes, leafPos_zero]
  | succ bits ih =>
    cases j with
    | zero =>
      obtain rfl : m = 0 := by simpa using small
      simp [calcPeakIndicesLoop, peakNodes, leafPos_zero]
    | succ j =>
      have one := Nat.one_le_two_pow (n := j)
      have nonzero : 2 ^ (j + 1) - 1 ≠ 0 := by rw [pow_succ]; omega
      have halved : (2 ^ (j + 1) - 1) >>> 1 = 2 ^ j - 1 := by
        rw [Nat.shiftRight_one, pow_succ]
        omega
      have aligned : 2 ^ (j + 1) * a = 2 ^ j * (2 * a) := by ring
      rw [calcPeakIndicesLoop, if_neg nonzero, halved, peakNodes]
      by_cases high : 2 ^ j ≤ m
      · -- bit `j` of the count is set: node `2a` of height `j` is the next peak
        obtain ⟨m', rfl⟩ : ∃ m', m = 2 ^ j + m' := ⟨m - 2 ^ j, by omega⟩
        have double : 2 ^ (j + 1) = 2 ^ j * 2 := pow_succ 2 j
        have small' : m' < 2 ^ j := by omega
        have full := leafPos_two_pow_add small'
        have root : nodePos j (2 * a) = leafPos (2 ^ (j + 1) * a) + (2 ^ (j + 1) - 2) := by
          rw [nodePos_eq, aligned]
        have after := nodePos_two_mul_add_one j a
        have rest : 2 ^ j * (2 * a + 1) + m' = 2 ^ (j + 1) * a + (2 ^ j + m') := by ring
        have bit : (2 ^ j * (2 * a + 1) + m').testBit j = true := by
          rw [testBit_two_pow_mul_add small']
          simp
        have number : (2 ^ j * (2 * a + 1) + m') / 2 ^ j - 1 = 2 * a := by
          rw [Nat.mul_add_div (Nat.two_pow_pos j), Nat.div_eq_of_lt small']
          omega
        rw [if_pos (by omega), show leafPos (2 ^ j + m') - (2 ^ (j + 1) - 1) = leafPos m' by omega,
          show leafPos (2 ^ (j + 1) * a) + (2 ^ (j + 1) - 1) - 1 = nodePos j (2 * a) by omega,
          show leafPos (2 ^ (j + 1) * a) + (2 ^ (j + 1) - 1) = leafPos (2 ^ j * (2 * a + 1)) by omega, ← rest,
          ih (by omega) small' (by rwa [rest]), bit, number]
        simp
      · -- bit `j` is clear: the leaves left are too few for a tree of height `j`
        have below : leafPos m < 2 ^ (j + 1) - 1 := by
          have before := leafPos_strictMono.monotone (show m ≤ 2 ^ j - 1 by omega)
          have last := leafPos_two_pow_sub_one j
          omega
        have bit : (2 ^ j * (2 * a) + m).testBit j = false := by
          rw [testBit_two_pow_mul_add (show m < 2 ^ j by omega)]
          simp
        rw [if_neg (by omega), aligned, ih (by omega) (by omega) (by rwa [aligned] at narrow), bit]
        simp

/-- `CalcPeakIndices` of the position of leaf `k`, below `2^63`: the nodes of the peaks of the
bits of `k`, highest first. -/
theorem calcPeakIndices_peakNodes {k : ℕ} (small : k < 2 ^ 63) :
    calcPeakIndices (leafPos k) = some ((peakNodes k (Nat.size k)).map fun node => Index.at (nodePos node.1 node.2)) := by
  by_cases empty : k = 0
  · subst empty
    simp [calcPeakIndices, leafPos_zero, peakNodes]
  · have narrow : leafPos k < 2 ^ 64 := by
      have := leafPos_lt small
      omega
    have before : k ≤ leafPos k := by
      have := ones_le k
      unfold leafPos
      omega
    have fits : k < 2 ^ Nat.size (leafPos k) := before.trans_lt (Nat.lt_size_self _)
    have run : calcPeakIndicesLoop 64 (2 ^ Nat.size (leafPos k) - 1) (leafPos k) (leafPos (2 ^ Nat.size (leafPos k) * 0)) [] =
        ([] ++ (peakNodes (2 ^ Nat.size (leafPos k) * 0 + k) (Nat.size (leafPos k))).map
          fun node => Index.at (nodePos node.1 node.2), 0) :=
      calcPeakIndicesLoop_eq (size_le_of_lt narrow) fits (by simpa using narrow) []
    simp only [mul_zero, zero_add, leafPos_zero, List.nil_append] at run
    rw [calcPeakIndices, if_neg (by have := leafPos_strictMono (Nat.pos_of_ne_zero empty); rw [leafPos_zero] at this; omega),
      fillOnesToRight_eq narrow]
    simp only [run, if_true, peakNodes_size fits]

/-- The root of the MMR of a history of leaf hashes. -/
def historyRoot [DecidableEq Η] (hasher : Hasher D Η) (hs : List Η) : Η :=
  Mountain.root (hs.getD · hasher.zero) hasher.parent hasher.zero hs.length

/-- `Root` of a stack that holds the MMR of `hs` is the root of the trees over `hs`. -/
theorem MmrStack.Represents.root [DecidableEq Η] {hasher : Hasher D Η} {hs : List Η} {s : MmrStack D Η}
    (rep : Represents hasher hs s) : s.root hasher = some (historyRoot hasher hs) := by
  have found := calcPeakIndices_peakNodes rep.small
  -- every peak lies before the next leaf, where the stack holds its tree's hash
  have peakHash : ∀ node ∈ (peakNodes hs.length (Nat.size hs.length)).reverse,
      s.getHash (Index.at (nodePos node.1 node.2)) =
        some (treeHash (hs.getD · hasher.zero) hasher.parent node.1 node.2) := by
    intro node member
    have listed : Index.at (nodePos node.1 node.2) ∈
        (peakNodes hs.length (Nat.size hs.length)).map fun node => Index.at (nodePos node.1 node.2) :=
      List.mem_map_of_mem (List.mem_reverse.1 member)
    exact rep.stores node.1 node.2 (mem_calcPeakIndices found listed).1
  rw [MmrStack.root, rep.getNumNodes, found]
  simp only [Option.bind_eq_bind, Option.bind_some, ← List.map_reverse, List.foldlM_map]
  rw [Runs.foldlM_reads _ _ peakHash, historyRoot, Mountain.root, bag, List.map_reverse]

/-! ### Runs of adds and rewinds -/

/-- What an operation does to the history of leaf hashes: an add appends the hash of its data
at the next leaf's position, a rewind keeps the first leaves, a flush keeps them all. -/
def historyStep (hasher : Hasher D Η) (hs : List Η) : MmrOp D → List Η
  | .add data => hs ++ [hasher.leaf (leafPos hs.length) data]
  | .rewind numLeaves => hs.take numLeaves
  | .flush => hs

/-- The operations a cache runs on its own: adds below `2^63` leaves and rewinds to any count.
A flush writes into the base and is left out. -/
def CacheAdmits (hs : List Η) : MmrOp D → Prop
  | .add _ => hs.length + 1 < 2 ^ 63
  | .rewind _ => True
  | .flush => False

/-- The operations an in-memory MMR runs: adds below `2^63` leaves, rewinds to at most its
count, where it fails beyond, and flushes, which it ignores. -/
def MemAdmits (hs : List Η) : MmrOp D → Prop
  | .add _ => hs.length + 1 < 2 ^ 63
  | .rewind numLeaves => numLeaves ≤ hs.length
  | .flush => True

instance CacheAdmits.decidable (hs : List Η) : ∀ op : MmrOp D, Decidable (CacheAdmits hs op)
  | .add _ => inferInstanceAs (Decidable (hs.length + 1 < 2 ^ 63))
  | .rewind _ => isTrue trivial
  | .flush => isFalse id

instance MemAdmits.decidable (hs : List Η) : ∀ op : MmrOp D, Decidable (MemAdmits hs op)
  | .add _ => inferInstanceAs (Decidable (hs.length + 1 < 2 ^ 63))
  | .rewind numLeaves => inferInstanceAs (Decidable (numLeaves ≤ hs.length))
  | .flush => isTrue trivial

namespace MmrStack

variable {hasher : Hasher D Η} {hs : List Η}

/-- An empty in-memory MMR holds the MMR of no leaves. -/
theorem represents_empty : Represents hasher [] (memMMR [] [] : MmrStack D Η) :=
  ⟨by norm_num, rfl, by simp [Shape, leafPos_zero], fun h i below => by simp [leafPos_zero] at below⟩

/-- A new cache over a stack that holds the MMR of `hs` holds it too, reading it all through
its base. -/
theorem Represents.newPMMRCache {base : MmrStack D Η} (rep : Represents hasher hs base) :
    Represents hasher hs base.newPMMRCache := by
  have next := rep.getNextLeafIdx
  have at_next : base.getNextLeafIdx.position = leafPos hs.length := by rw [next, position_at rep.small]
  refine ⟨rep.small, ?_, ⟨by rw [next]; rfl, consecutive_nil _, by rw [next]; rfl⟩, ?_⟩
  · show base.getNextLeafIdx.leafIndex = _
    rw [next]
    rfl
  · refine rep.stores.congr fun p below => ?_
    show (if p < base.getNextLeafIdx.position then base.getHash (Index.at p) else ([] : List Η)[_]?) = _
    rw [if_pos (by omega)]

/-- One admitted step of a cache keeps the MMR of the history and the cache. -/
theorem Represents.step_cache {s : MmrStack D Η} (rep : Represents hasher hs s) (cache : s.CacheShape)
    {op : MmrOp D} (admits : CacheAdmits hs op) :
    ∃ s', s.step hasher op = some s' ∧ Represents hasher (historyStep hasher hs op) s' ∧ s'.CacheShape := by
  cases op with
  | add data =>
    obtain ⟨s', added, rep'⟩ := rep.add admits data
    exact ⟨s', added, rep', step_cacheShape cache (show s.step hasher (.add data) = some s' from added)⟩
  | rewind numLeaves =>
    cases s with
    | memMMR => exact cache.elim
    | pmmr => exact cache.elim
    | pmmrCache firstLeaf leaves nodes base =>
      obtain ⟨s', rewound, rep'⟩ := rep.rewind_cache numLeaves
      exact ⟨s', rewound, rep', step_cacheShape cache
        (show (pmmrCache firstLeaf leaves nodes base).step hasher (.rewind numLeaves) = some s' from rewound)⟩
  | flush => exact admits.elim

/-- One admitted step of an in-memory MMR keeps the MMR of the history. -/
theorem Represents.step_memMMR {hashes : List Η} {leaves : List (Leaf D Η)}
    (rep : Represents hasher hs (memMMR hashes leaves)) {op : MmrOp D} (admits : MemAdmits hs op) :
    ∃ hashes' leaves', (memMMR hashes leaves).step hasher op = some (memMMR hashes' leaves') ∧
      Represents hasher (historyStep hasher hs op) (memMMR hashes' leaves') := by
  cases op with
  | add data =>
    obtain ⟨s', added, rep'⟩ := rep.add admits data
    -- an add on an in-memory MMR gives an in-memory MMR
    have inMemory : ∃ hashes' leaves', s' = memMMR hashes' leaves' := by
      simp only [MmrStack.add, addLeaf, Option.map_eq_some_iff] at added
      obtain ⟨hashes', -, rfl⟩ := added
      exact ⟨_, _, rfl⟩
    obtain ⟨hashes', leaves', rfl⟩ := inMemory
    exact ⟨hashes', leaves', added, rep'⟩
  | rewind numLeaves => exact rep.rewind_memMMR admits
  | flush => exact ⟨hashes, leaves, rfl, rep⟩

end MmrStack

/-- The MMRs of libmw hold the MMR of the leaves added. An in-memory MMR run from empty
through adds below `2^63` leaves, rewinds to at most its count and flushes, and a `PMMRCache`
over any MMR that holds the MMR of a history, run through adds below `2^63` leaves and rewinds
to any count, never fail; at every node before the next leaf they hold the hash of the perfect
tree under it over the leaf hashes of the history the operations make, and `Root` is the root
of that history. -/
theorem mmr_holds_tree_hashes [DecidableEq Η] (hasher : Hasher D Η) :
    (∀ ops : List (MmrOp D), Runs.Admits MemAdmits (historyStep hasher) [] ops →
      ∃ s, (MmrStack.memMMR [] [] : MmrStack D Η).run hasher ops = some s ∧
        MmrStack.Represents hasher (ops.foldl (historyStep hasher) []) s ∧
        s.root hasher = some (historyRoot hasher (ops.foldl (historyStep hasher) []))) ∧
    ∀ (base : MmrStack D Η) (hs : List Η), MmrStack.Represents hasher hs base →
      ∀ ops : List (MmrOp D), Runs.Admits CacheAdmits (historyStep hasher) hs ops →
        ∃ s, base.newPMMRCache.run hasher ops = some s ∧
          MmrStack.Represents hasher (ops.foldl (historyStep hasher) hs) s ∧
          s.root hasher = some (historyRoot hasher (ops.foldl (historyStep hasher) hs)) := by
  constructor
  · intro ops admitted
    -- the run stays an in-memory MMR of the history
    obtain ⟨s, ran, ⟨hashes, leaves, rfl⟩, rep⟩ := Runs.foldlM_simulation
      (R := fun s hs => (∃ hashes leaves, s = MmrStack.memMMR hashes leaves) ∧ MmrStack.Represents hasher hs s)
      (fun s hs op ⟨⟨hashes, leaves, same⟩, rep⟩ admits => by
        subst same
        obtain ⟨hashes', leaves', stepped, rep'⟩ := rep.step_memMMR admits
        exact ⟨_, stepped, ⟨hashes', leaves', rfl⟩, rep'⟩)
      ops ⟨⟨[], [], rfl⟩, MmrStack.represents_empty⟩ admitted
    exact ⟨_, ran, rep, rep.root⟩
  · intro base hs based ops admitted
    -- the run stays a cache that holds the MMR of the history
    obtain ⟨s, ran, rep, -⟩ := Runs.foldlM_simulation
      (R := fun s hs => MmrStack.Represents hasher hs s ∧ s.CacheShape)
      (fun s hs op ⟨rep, cache⟩ admits => by
        obtain ⟨s', stepped, rep', cache'⟩ := rep.step_cache cache admits
        exact ⟨s', stepped, rep', cache'⟩)
      ops ⟨based.newPMMRCache, MmrStack.newPMMRCache_cacheShape base⟩ admitted
    exact ⟨s, ran, rep, rep.root⟩

theorem mmr_holds_tree_hashes_free :
    (∃ s, (MmrStack.memMMR [] [] : MmrStack ℕ (HashTerm ℕ)).run freeHasher
          [.add 10, .add 11, .add 12, .rewind 2, .flush, .add 13] = some s ∧
        MmrStack.Represents freeHasher
          ([.add 10, .add 11, .add 12, .rewind 2, .flush, .add 13].foldl (historyStep freeHasher) []) s ∧
        s.root freeHasher = some (historyRoot freeHasher
          ([.add 10, .add 11, .add 12, .rewind 2, .flush, .add 13].foldl (historyStep freeHasher) []))) ∧
      ∃ s, (MmrStack.memMMR [] [] : MmrStack ℕ (HashTerm ℕ)).newPMMRCache.run freeHasher
          [.add 10, .add 11, .add 12, .rewind 2, .add 13] = some s ∧
        MmrStack.Represents freeHasher
          ([.add 10, .add 11, .add 12, .rewind 2, .add 13].foldl (historyStep freeHasher) []) s ∧
        s.root freeHasher = some (historyRoot freeHasher
          ([.add 10, .add 11, .add 12, .rewind 2, .add 13].foldl (historyStep freeHasher) [])) :=
  ⟨(mmr_holds_tree_hashes freeHasher).1 _ (by decide),
    (mmr_holds_tree_hashes freeHasher).2 _ [] MmrStack.represents_empty _ (by decide)⟩

end Pussycoin.Mmr
