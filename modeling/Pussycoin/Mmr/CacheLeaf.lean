import Pussycoin.Mmr.Mmr

/-! `PMMRCache::GetLeaf`, and the shape a cache keeps through every run of adds, rewinds and
flushes: its leaves hold the consecutive leaf indices from its first leaf on. -/
namespace Pussycoin.Mmr

variable {D Η : Type}

/-- What `PMMRCache::GetLeaf` does with an index: ask the base, return a stored leaf, throw
`std::out_of_range`, or read `m_leaves` at a position past its end. -/
inductive LeafRead (D Η : Type)
  | fromBase (leafIdx : LeafIndex)
  | stored (leaf : Leaf D Η)
  | outOfRange
  | pastEnd

/-- `PMMRCache::GetLeaf`. -/
def PMMRCache.getLeaf (firstLeaf : LeafIndex) (leaves : List (Leaf D Η)) (leafIdx : LeafIndex) : LeafRead D Η :=
  if leafIdx.leafIndex < firstLeaf.leafIndex then .fromBase leafIdx
  else
    let cacheIdx := leafIdx.leafIndex - firstLeaf.leafIndex
    if cacheIdx > leaves.length then .outOfRange
    else
      match leaves[cacheIdx]? with
      | some leaf => .stored leaf
      | none => .pastEnd

/-- The leaves of a cache hold the consecutive leaf indices from its first leaf. -/
def Consecutive (firstLeaf : LeafIndex) (leaves : List (Leaf D Η)) : Prop :=
  ∀ (k : ℕ) (leaf : Leaf D Η), leaves[k]? = some leaf → leaf.leafIndex.leafIndex = firstLeaf.leafIndex + k

theorem consecutive_nil (firstLeaf : LeafIndex) : Consecutive firstLeaf ([] : List (Leaf D Η)) := by
  intro k leaf found
  simp at found

theorem Consecutive.append_next {firstLeaf : LeafIndex} {leaves : List (Leaf D Η)}
    (consecutive : Consecutive firstLeaf leaves) {leaf : Leaf D Η}
    (at_end : leaf.leafIndex.leafIndex = firstLeaf.leafIndex + leaves.length) :
    Consecutive firstLeaf (leaves ++ [leaf]) := by
  intro k found foundAt
  rcases Nat.lt_or_ge k leaves.length with inside | beyond
  · rw [List.getElem?_append_left inside] at foundAt
    exact consecutive k found foundAt
  · rw [List.getElem?_append_right beyond] at foundAt
    have atEnd : k - leaves.length = 0 := by
      by_contra later
      rw [List.getElem?_eq_none (by simp only [List.length_singleton]; omega)] at foundAt
      cases foundAt
    rw [atEnd, List.getElem?_cons_zero, Option.some.injEq] at foundAt
    subst foundAt
    rw [at_end]
    omega

theorem Consecutive.takeWhile {firstLeaf : LeafIndex} {leaves : List (Leaf D Η)}
    (consecutive : Consecutive firstLeaf leaves) (keep : Leaf D Η → Bool) :
    Consecutive firstLeaf (leaves.takeWhile keep) := by
  intro k leaf found
  have prefixOf : leaves.takeWhile keep <+: leaves := List.takeWhile_prefix keep
  obtain ⟨rest, split⟩ := prefixOf
  have inside : k < (leaves.takeWhile keep).length := (List.getElem?_eq_some_iff.mp found).1
  refine consecutive k leaf ?_
  rw [← split, List.getElem?_append_left inside]
  exact found

namespace MmrStack

/-- A cache whose leaves are consecutive. -/
def CacheShape : MmrStack D Η → Prop
  | pmmrCache firstLeaf leaves _ _ => Consecutive firstLeaf leaves
  | _ => False

/-- The next leaf of a cache of consecutive leaves is its first leaf moved by their count. -/
theorem getNextLeafIdx_cache {firstLeaf : LeafIndex} {leaves : List (Leaf D Η)} (nodes : List Η)
    (base : MmrStack D Η) (consecutive : Consecutive firstLeaf leaves) :
    (pmmrCache firstLeaf leaves nodes base).getNextLeafIdx.leafIndex = firstLeaf.leafIndex + leaves.length := by
  rw [getNextLeafIdx]
  obtain empty | ⟨front, last, rfl⟩ := List.eq_nil_or_concat' leaves
  · subst empty
    rfl
  · have lastIndex := consecutive front.length last (by simp)
    simp [LeafIndex.next, LeafIndex.at, lastIndex]
    omega

theorem newPMMRCache_cacheShape (base : MmrStack D Η) : (newPMMRCache base).CacheShape :=
  consecutive_nil _

/-- Every step of a cache gives a cache, and keeps its leaves consecutive: an add puts the new
leaf at the next index, a rewind keeps a prefix or starts over, a flush starts over. -/
theorem step_cacheShape {hasher : Hasher D Η} {s s' : MmrStack D Η} {op : MmrOp D} (shape : s.CacheShape)
    (stepped : s.step hasher op = some s') : s'.CacheShape := by
  cases s with
  | memMMR => exact shape.elim
  | pmmr => exact shape.elim
  | pmmrCache firstLeaf leaves nodes base =>
    cases op with
    | add data =>
      simp only [step, add, addLeaf, Option.map_eq_some_iff] at stepped
      obtain ⟨nodes', -, rfl⟩ := stepped
      exact Consecutive.append_next shape (by simp [Leaf.create, getNextLeafIdx_cache nodes base shape])
    | rewind numLeaves =>
      simp only [step, rewind] at stepped
      -- starting over, nothing kept, or a prefix kept with its nodes cut or not
      split_ifs at stepped <;> cases stepped
      · exact consecutive_nil _
      · exact shape
      · exact Consecutive.takeWhile shape _
      · exact Consecutive.takeWhile shape _
    | flush =>
      simp only [step, flush, Option.bind_eq_bind, Option.bind_eq_some_iff] at stepped
      obtain ⟨written, -, started⟩ := stepped
      cases started
      exact consecutive_nil _

theorem run_cacheShape {hasher : Hasher D Η} (ops : List (MmrOp D)) {s s' : MmrStack D Η}
    (shape : s.CacheShape) (ran : s.run hasher ops = some s') : s'.CacheShape :=
  Runs.foldlM_invariant (fun _ _ _ holds stepped => step_cacheShape holds stepped) ops shape ran

end MmrStack

section GetLeaf

variable {firstLeaf : LeafIndex} {leaves : List (Leaf D Η)} {leafIdx : LeafIndex}

theorem getLeaf_below (below : leafIdx.leafIndex < firstLeaf.leafIndex) :
    PMMRCache.getLeaf firstLeaf leaves leafIdx = .fromBase leafIdx := by
  rw [PMMRCache.getLeaf, if_pos below]

theorem getLeaf_stored (consecutive : Consecutive firstLeaf leaves) (from_first : firstLeaf.leafIndex ≤ leafIdx.leafIndex)
    (before_next : leafIdx.leafIndex < firstLeaf.leafIndex + leaves.length) :
    ∃ leaf ∈ leaves, PMMRCache.getLeaf firstLeaf leaves leafIdx = .stored leaf ∧
      leaf.leafIndex.leafIndex = leafIdx.leafIndex := by
  have inside : leafIdx.leafIndex - firstLeaf.leafIndex < leaves.length := by omega
  refine ⟨leaves[leafIdx.leafIndex - firstLeaf.leafIndex], List.getElem_mem inside, ?_, ?_⟩
  · rw [PMMRCache.getLeaf, if_neg (by omega), if_neg (by omega), List.getElem?_eq_getElem inside]
  · rw [consecutive _ _ (List.getElem?_eq_getElem inside)]
    omega

/-- At the next leaf index the offset is the vector's size, which the test `cacheIdx > size`
lets through. -/
theorem getLeaf_at_end (at_next : leafIdx.leafIndex = firstLeaf.leafIndex + leaves.length) :
    PMMRCache.getLeaf firstLeaf leaves leafIdx = .pastEnd := by
  have offset : leafIdx.leafIndex - firstLeaf.leafIndex = leaves.length := by omega
  simp only [PMMRCache.getLeaf, offset]
  rw [if_neg (by omega), if_neg (by omega), List.getElem?_eq_none le_rfl]

theorem getLeaf_beyond (beyond : firstLeaf.leafIndex + leaves.length < leafIdx.leafIndex) :
    PMMRCache.getLeaf firstLeaf leaves leafIdx = .outOfRange := by
  rw [PMMRCache.getLeaf, if_neg (by omega), if_pos (by omega)]

end GetLeaf

open MmrStack in
/-- In every cache a run reaches, `GetLeaf` asks the base below the first leaf, returns the
leaf of the index up to the last leaf, and throws past the next leaf index; at the next leaf
index itself it reads one element past the end of `m_leaves`. -/
theorem cache_getLeaf_outcomes {hasher : Hasher D Η} {base : MmrStack D Η} {ops : List (MmrOp D)}
    {firstLeaf : LeafIndex} {leaves : List (Leaf D Η)} {nodes : List Η} {base' : MmrStack D Η}
    (ran : (newPMMRCache base).run hasher ops = some (pmmrCache firstLeaf leaves nodes base'))
    (leafIdx : LeafIndex) :
    (leafIdx.leafIndex < firstLeaf.leafIndex → PMMRCache.getLeaf firstLeaf leaves leafIdx = .fromBase leafIdx) ∧
    (firstLeaf.leafIndex ≤ leafIdx.leafIndex →
      leafIdx.leafIndex < (pmmrCache firstLeaf leaves nodes base').getNextLeafIdx.leafIndex →
      ∃ leaf ∈ leaves, PMMRCache.getLeaf firstLeaf leaves leafIdx = .stored leaf ∧
        leaf.leafIndex.leafIndex = leafIdx.leafIndex) ∧
    (leafIdx.leafIndex = (pmmrCache firstLeaf leaves nodes base').getNextLeafIdx.leafIndex →
      PMMRCache.getLeaf firstLeaf leaves leafIdx = .pastEnd) ∧
    ((pmmrCache firstLeaf leaves nodes base').getNextLeafIdx.leafIndex < leafIdx.leafIndex →
      PMMRCache.getLeaf firstLeaf leaves leafIdx = .outOfRange) := by
  have consecutive : Consecutive firstLeaf leaves := run_cacheShape ops (newPMMRCache_cacheShape base) ran
  rw [getNextLeafIdx_cache nodes base' consecutive]
  exact ⟨getLeaf_below, getLeaf_stored consecutive, getLeaf_at_end, getLeaf_beyond⟩

/-- A cache just made over an empty `MemMMR`: `GetLeaf(GetNextLeafIdx())` reads `m_leaves[0]`
of an empty vector. -/
theorem cache_getLeaf_outcomes_fresh :
    PMMRCache.getLeaf (LeafIndex.at 0) ([] : List (Leaf ℕ (HashTerm ℕ))) (LeafIndex.at 0) = .pastEnd :=
  (cache_getLeaf_outcomes
    (show (MmrStack.newPMMRCache (.memMMR [] [] : MmrStack ℕ (HashTerm ℕ))).run freeHasher [] =
      some (.pmmrCache (LeafIndex.at 0) [] [] (.memMMR [] [])) from rfl) (LeafIndex.at 0)).2.2.1 rfl

end Pussycoin.Mmr
