import Mathlib

/-! `ComputeMerkleRoot` of `consensus/merkle.cpp`, with the mutation check asked for (a non-null
`mutated`). A hash is a value of any type with equality; `hash` is `SHA256D64` on one pair, and
`uint256()` is the type's `default`. -/
namespace Pussycoin.Consensus

variable {α : Type} (hash : α → α → α)

/-- The check of one level: two equal hashes at positions `2i` and `2i + 1`. -/
def pairsEqual [DecidableEq α] : List α → Bool
  | a :: b :: rest => decide (a = b) || pairsEqual rest
  | _ => false

/-- `if (hashes.size() & 1) hashes.push_back(hashes.back())`. -/
def padOdd (hashes : List α) : List α :=
  if hashes.length % 2 = 1 then hashes ++ hashes.getLast?.toList else hashes

/-- `SHA256D64` over consecutive pairs, then `resize(size() / 2)`. -/
def hashPairs : List α → List α
  | a :: b :: rest => hash a b :: hashPairs rest
  | _ => []

def nextLevel (hashes : List α) : List α := hashPairs hash (padOdd hashes)

theorem length_hashPairs : ∀ hashes : List α, (hashPairs hash hashes).length = hashes.length / 2
  | a :: b :: rest => by
    rw [hashPairs, List.length_cons, length_hashPairs rest]
    simp only [List.length_cons]
    omega
  | [_] => by simp [hashPairs]
  | [] => by simp [hashPairs]

theorem length_padOdd (hashes : List α) :
    (padOdd hashes).length = if hashes.length % 2 = 1 then hashes.length + 1 else hashes.length := by
  unfold padOdd
  split_ifs with odd
  · have nonempty : hashes ≠ [] := by
      rintro rfl
      simp at odd
    simp [nonempty]
  · rfl

theorem length_nextLevel (hashes : List α) : (nextLevel hash hashes).length = (hashes.length + 1) / 2 := by
  rw [nextLevel, length_hashPairs, length_padOdd]
  split_ifs <;> omega

theorem length_nextLevel_lt {hashes : List α} (more : 1 < hashes.length) :
    (nextLevel hash hashes).length < hashes.length := by
  rw [length_nextLevel]
  omega

theorem getElem?_hashPairs : ∀ (hashes : List α) (i : ℕ),
    (hashPairs hash hashes)[i]? = (do let a ← hashes[2 * i]?; let b ← hashes[2 * i + 1]?; pure (hash a b))
  | _ :: _ :: _, 0 => by simp [hashPairs]
  | _ :: _ :: rest, i + 1 => by
    rw [hashPairs, List.getElem?_cons_succ, getElem?_hashPairs rest i,
      show 2 * (i + 1) = 2 * i + 1 + 1 by ring, show 2 * i + 1 + 1 + 1 = 2 * i + 1 + 1 + 1 from rfl]
    simp only [List.getElem?_cons_succ]
  | [_], 0 => by simp [hashPairs]
  | [_], i + 1 => by simp [hashPairs]
  | [], _ => by simp [hashPairs]

/-- Padding leaves the hashes in place and repeats the last one after them. -/
theorem getElem?_padOdd (hashes : List α) (j : ℕ) :
    (padOdd hashes)[j]? = if j < hashes.length then hashes[j]?
      else if j = hashes.length ∧ hashes.length % 2 = 1 then hashes.getLast? else none := by
  by_cases inside : j < hashes.length
  · rw [if_pos inside]
    unfold padOdd
    split_ifs
    · exact List.getElem?_append_left inside
    · rfl
  rw [if_neg inside]
  unfold padOdd
  by_cases odd : hashes.length % 2 = 1
  · rw [if_pos odd, List.getElem?_append_right (by omega)]
    by_cases last : j = hashes.length
    · rw [if_pos ⟨last, odd⟩, last, Nat.sub_self]
      cases hashes.getLast? <;> rfl
    · rw [if_neg fun both => last both.1]
      cases hashes.getLast? with
      | none => rfl
      | some _ => rw [Option.toList_some, List.getElem?_singleton, if_neg (by omega)]
  · rw [if_neg odd, if_neg fun both => odd both.2]
    exact List.getElem?_eq_none (by omega)

/-- Node `i` of the next level hashes nodes `2i` and `2i + 1`, or node `2i` twice where it is the
last of an odd level. -/
theorem getElem?_nextLevel (hashes : List α) (i : ℕ) :
    (nextLevel hash hashes)[i]? = (do
      let a ← hashes[2 * i]?
      let b ← if 2 * i + 1 < hashes.length then hashes[2 * i + 1]? else pure a
      pure (hash a b)) := by
  rw [nextLevel, getElem?_hashPairs, getElem?_padOdd, getElem?_padOdd]
  by_cases inside : 2 * i < hashes.length
  · obtain ⟨a, first⟩ : ∃ a, hashes[2 * i]? = some a := ⟨_, List.getElem?_eq_getElem inside⟩
    by_cases pair : 2 * i + 1 < hashes.length
    · simp only [if_pos inside, if_pos pair]
    · -- node `2i` is the last of an odd level
      have last : hashes.getLast? = some a := by
        rw [List.getLast?_eq_getElem?, show hashes.length - 1 = 2 * i by omega, first]
      have odd : 2 * i + 1 = hashes.length ∧ hashes.length % 2 = 1 := by omega
      simp only [if_pos inside, if_neg pair, if_pos odd, first, last, Option.bind_eq_bind, Option.bind_some,
        Option.pure_def]
  · have outside : hashes[2 * i]? = none := List.getElem?_eq_none (by omega)
    simp only [if_neg inside, show ¬(2 * i = hashes.length ∧ hashes.length % 2 = 1) by omega, if_false, outside,
      Option.bind_eq_bind, Option.bind_none]

/-- A node of the next level whose left child exists hashes that child first. -/
theorem getElem?_nextLevel_of_lt {hashes : List α} {i : ℕ} (within : 2 * i < hashes.length) :
    ∃ b, (nextLevel hash hashes)[i]? = some (hash hashes[2 * i] b) := by
  rw [getElem?_nextLevel, List.getElem?_eq_getElem within]
  by_cases pair : 2 * i + 1 < hashes.length
  · exact ⟨hashes[2 * i + 1], by simp [pair]⟩
  · exact ⟨hashes[2 * i], by simp [pair]⟩

/-- The levels the loop body runs on, from the leaves up. -/
def levels (hashes : List α) : List (List α) :=
  if 1 < hashes.length then hashes :: levels (nextLevel hash hashes) else []
termination_by hashes.length
decreasing_by exact length_nextLevel_lt hash ‹_›

section Padding

variable {hash}

/-- `SHA256D64` injective on pairs: two equal hashes were made from the same pair. -/
def PairInjective (hash : α → α → α) : Prop := ∀ a b c d, hash a b = hash c d → a = c ∧ b = d

theorem hashPairs_inj (injective : PairInjective hash) :
    ∀ (l l' : List α), l.length % 2 = 0 → l'.length % 2 = 0 → hashPairs hash l = hashPairs hash l' → l = l'
  | a :: b :: rest, c :: d :: rest', even, even', same => by
    simp only [hashPairs, List.cons.injEq] at same
    obtain ⟨rfl, rfl⟩ := injective a b c d same.1
    have restEven : rest.length % 2 = 0 := by simp only [List.length_cons] at even; omega
    have restEven' : rest'.length % 2 = 0 := by simp only [List.length_cons] at even'; omega
    rw [hashPairs_inj injective rest rest' restEven restEven' same.2]
  | [], [], _, _, _ => rfl
  | [], _ :: _ :: _, _, _, same => by simp [hashPairs] at same
  | _ :: _ :: _, [], _, _, same => by simp [hashPairs] at same
  | [_], _, odd, _, _ => by simp at odd
  | _, [_], _, odd, _ => by simp at odd

/-- Under a collision-free hash the next level of distinct hashes is distinct: two of its nodes
with one hash have the same left child. -/
theorem nodup_nextLevel (injective : PairInjective hash) {hashes : List α} (distinct : hashes.Nodup) :
    (nextLevel hash hashes).Nodup := by
  rw [List.nodup_iff_getElem?_ne_getElem?] at distinct ⊢
  intro i j before within same
  rw [length_nextLevel] at within
  obtain ⟨b, first⟩ := getElem?_nextLevel_of_lt hash (show 2 * i < hashes.length by omega)
  obtain ⟨d, second⟩ := getElem?_nextLevel_of_lt hash (show 2 * j < hashes.length by omega)
  rw [first, second, Option.some.injEq] at same
  apply distinct (2 * i) (2 * j) (by omega) (by omega)
  rw [List.getElem?_eq_getElem (show 2 * i < hashes.length by omega),
    List.getElem?_eq_getElem (show 2 * j < hashes.length by omega), (injective _ _ _ _ same).1]

theorem padOdd_of_even {hashes : List α} (even : hashes.length % 2 = 0) : padOdd hashes = hashes := by
  rw [padOdd, if_neg (by omega)]

/-- An odd level ends in a hash that padding doubles. -/
theorem padOdd_of_odd {hashes : List α} (odd : hashes.length % 2 = 1) :
    ∃ front last, hashes = front ++ [last] ∧ front.length % 2 = 0 ∧ padOdd hashes = front ++ [last, last] := by
  obtain empty | ⟨front, last, rfl⟩ := List.eq_nil_or_concat' hashes
  · subst empty
    simp at odd
  · simp only [List.length_append, List.length_singleton] at odd
    refine ⟨front, last, rfl, by omega, ?_⟩
    simp [padOdd, odd]

theorem length_padOdd_even (hashes : List α) : (padOdd hashes).length % 2 = 0 := by
  rw [length_padOdd]
  split_ifs <;> omega

theorem levels_of_le_one {hashes : List α} (single : hashes.length ≤ 1) : levels hash hashes = [] := by
  rw [levels, if_neg (by omega)]

theorem levels_of_lt {hashes : List α} (more : 1 < hashes.length) :
    levels hash hashes = hashes :: levels hash (nextLevel hash hashes) := by
  rw [levels, if_pos more]

theorem nextLevel_ne_nil {hashes : List α} (nonempty : hashes ≠ []) : nextLevel hash hashes ≠ [] := by
  have positive : 0 < hashes.length := List.length_pos_iff.mpr nonempty
  rw [← List.length_pos_iff, length_nextLevel]
  omega

/-- A list of depth zero has one hash at most; a deeper one has two at least. -/
theorem length_le_one_of_clog {hashes : List α} (deep : Nat.clog 2 hashes.length = 0) : hashes.length ≤ 1 := by
  by_contra more
  exact absurd deep (Nat.clog_pos one_lt_two (by omega)).ne'

theorem one_lt_length_of_clog {hashes : List α} {depth : ℕ} (deep : Nat.clog 2 hashes.length = depth + 1) :
    1 < hashes.length := by
  by_contra single
  rw [Nat.clog_of_right_le_one (by omega)] at deep
  omega

/-- One level less, one less in `⌈log₂⌉`. -/
theorem clog_nextLevel {hashes : List α} (more : 1 < hashes.length) :
    Nat.clog 2 (nextLevel hash hashes).length + 1 = Nat.clog 2 hashes.length := by
  rw [length_nextLevel, Nat.clog_of_two_le one_lt_two more]
  rfl

end Padding

variable [DecidableEq α]

/-- The `while (hashes.size() > 1)` loop: the level it stops at, and whether some level had an
equal pair. -/
def reduceLevels (hashes : List α) : List α × Bool :=
  if 1 < hashes.length then
    let (top, mutation) := reduceLevels (nextLevel hash hashes)
    (top, pairsEqual hashes || mutation)
  else (hashes, false)
termination_by hashes.length
decreasing_by exact length_nextLevel_lt hash ‹_›

def computeMerkleRoot [Inhabited α] (hashes : List α) : α × Bool :=
  let (top, mutation) := reduceLevels hash hashes
  (top.headD default, mutation)


theorem pairsEqual_iff : ∀ hashes : List α,
    pairsEqual hashes = true ↔ ∃ i x, hashes[2 * i]? = some x ∧ hashes[2 * i + 1]? = some x
  | a :: b :: rest => by
    rw [pairsEqual, Bool.or_eq_true, decide_eq_true_iff, pairsEqual_iff rest]
    constructor
    · rintro (same | ⟨i, x, atEven, atOdd⟩)
      · exact ⟨0, a, rfl, by simp [same]⟩
      · exact ⟨i + 1, x, by simpa [Nat.mul_succ] using atEven, by simpa [Nat.mul_succ] using atOdd⟩
    · rintro ⟨i, x, atEven, atOdd⟩
      cases i with
      | zero =>
        simp only [Nat.mul_zero, Nat.zero_add, List.getElem?_cons_zero, List.getElem?_cons_succ,
          Option.some.injEq] at atEven atOdd
        exact Or.inl (atEven.trans atOdd.symm)
      | succ i => exact Or.inr ⟨i, x, by simpa [Nat.mul_succ] using atEven, by simpa [Nat.mul_succ] using atOdd⟩
  | [_] => by simp [pairsEqual]
  | [] => by simp [pairsEqual]

theorem pairsEqual_append : ∀ (front back : List α), front.length % 2 = 0 →
    pairsEqual (front ++ back) = (pairsEqual front || pairsEqual back)
  | a :: b :: rest, back, even => by
    have restEven : rest.length % 2 = 0 := by simp only [List.length_cons] at even; omega
    simp [pairsEqual, pairsEqual_append rest back restEven, Bool.or_assoc]
  | [_], _, odd => by simp at odd
  | [], back, _ => by simp [pairsEqual]

section Collision

variable {hash}

/-- Two levels padded alike are equal, or one of them is the other with its odd last hash
written out twice, a pair the check sees. -/
theorem padOdd_collision {l l' : List α} (same : padOdd l = padOdd l') :
    l = l' ∨ pairsEqual l = true ∨ pairsEqual l' = true := by
  rcases Nat.mod_two_eq_zero_or_one l.length with even | odd <;>
    rcases Nat.mod_two_eq_zero_or_one l'.length with even' | odd'
  · rw [padOdd_of_even even, padOdd_of_even even'] at same
    exact Or.inl same
  · obtain ⟨front, last, -, frontEven, padded⟩ := padOdd_of_odd odd'
    rw [padOdd_of_even even, padded] at same
    subst same
    right; left
    simp [pairsEqual_append front _ frontEven, pairsEqual]
  · obtain ⟨front, last, -, frontEven, padded⟩ := padOdd_of_odd odd
    rw [padOdd_of_even even', padded] at same
    subst same
    right; right
    simp [pairsEqual_append front _ frontEven, pairsEqual]
  · obtain ⟨front, last, rfl, -, padded⟩ := padOdd_of_odd odd
    obtain ⟨front', last', rfl, -, padded'⟩ := padOdd_of_odd odd'
    rw [padded, padded'] at same
    have lengths : front.length = front'.length := by
      have := congrArg List.length same
      simp only [List.length_append, List.length_cons, List.length_nil] at this
      omega
    obtain ⟨rfl, ends⟩ := List.append_inj same lengths
    simp only [List.cons.injEq] at ends
    rw [ends.1]
    exact Or.inl rfl

theorem nextLevel_collision (injective : PairInjective hash) {l l' : List α}
    (same : nextLevel hash l = nextLevel hash l') : l = l' ∨ pairsEqual l = true ∨ pairsEqual l' = true :=
  padOdd_collision (hashPairs_inj injective _ _ (length_padOdd_even l) (length_padOdd_even l') same)

end Collision

section Loop

variable {hash}

theorem reduceLevels_of_le_one {hashes : List α} (single : hashes.length ≤ 1) :
    reduceLevels hash hashes = (hashes, false) := by
  rw [reduceLevels, if_neg (by omega)]

theorem reduceLevels_of_lt {hashes : List α} (more : 1 < hashes.length) :
    reduceLevels hash hashes =
      ((reduceLevels hash (nextLevel hash hashes)).1,
        pairsEqual hashes || (reduceLevels hash (nextLevel hash hashes)).2) := by
  rw [reduceLevels, if_pos more]

/-- The loop stops at the level `⌈log₂ n⌉` above the leaves. -/
theorem reduceLevels_fst : ∀ (depth : ℕ) {hashes : List α}, Nat.clog 2 hashes.length = depth →
    (reduceLevels hash hashes).1 = (nextLevel hash)^[depth] hashes
  | 0, hashes, deep => by
    rw [reduceLevels_of_le_one (length_le_one_of_clog deep)]
    rfl
  | depth + 1, hashes, deep => by
    have more := one_lt_length_of_clog deep
    have nextDeep : Nat.clog 2 (nextLevel hash hashes).length + 1 = Nat.clog 2 hashes.length := clog_nextLevel more
    rw [reduceLevels_of_lt more, Function.iterate_succ_apply, reduceLevels_fst depth (by omega)]

/-- The loop ends at one hash, the root, for every non-empty list. -/
theorem reduceLevels_singleton : ∀ (n : ℕ) {hashes : List α}, hashes.length = n → hashes ≠ [] →
    ∃ root, (reduceLevels hash hashes).1 = [root] := by
  intro n
  induction n using Nat.strong_induction_on with
  | _ n ih =>
    intro hashes counted nonempty
    by_cases more : 1 < hashes.length
    · rw [reduceLevels_of_lt more]
      exact ih _ (counted ▸ length_nextLevel_lt hash more) rfl (nextLevel_ne_nil nonempty)
    · rw [reduceLevels_of_le_one (by omega)]
      have single : hashes.length = 1 := by
        have := List.length_pos_iff.mpr nonempty
        omega
      obtain ⟨root, rfl⟩ := List.length_eq_one_iff.mp single
      exact ⟨root, rfl⟩

/-- The flag is set exactly when the check of some level fires. -/
theorem reduceLevels_mutated_iff : ∀ (n : ℕ) {hashes : List α}, hashes.length = n →
    ((reduceLevels hash hashes).2 = true ↔ ∃ level ∈ levels hash hashes, pairsEqual level = true) := by
  intro n
  induction n using Nat.strong_induction_on with
  | _ n ih =>
    intro hashes counted
    by_cases more : 1 < hashes.length
    · rw [reduceLevels_of_lt more, levels_of_lt more, Bool.or_eq_true,
        ih _ (counted ▸ length_nextLevel_lt hash more) rfl]
      simp
    · rw [reduceLevels_of_le_one (by omega), levels_of_le_one (by omega)]
      simp

/-- Two runs of the same depth that end at the same root started from the same leaves, or one of
them saw an equal pair. The induction is on the depth, from the root down: at each level the two
lists hash to the same next level, so they are equal or one is the other padded. -/
theorem reduceLevels_collision (injective : PairInjective hash) : ∀ (depth : ℕ) {l l' : List α},
    l ≠ [] → l' ≠ [] → Nat.clog 2 l.length = depth → Nat.clog 2 l'.length = depth →
    (reduceLevels hash l).1 = (reduceLevels hash l').1 →
    l = l' ∨ (reduceLevels hash l).2 = true ∨ (reduceLevels hash l').2 = true := by
  intro depth
  induction depth with
  | zero =>
    intro l l' _ _ deep deep' same
    rw [reduceLevels_of_le_one (length_le_one_of_clog deep), reduceLevels_of_le_one (length_le_one_of_clog deep')] at same
    exact Or.inl same
  | succ depth ih =>
    intro l l' nonempty nonempty' deep deep' same
    have more : 1 < l.length := one_lt_length_of_clog deep
    have more' : 1 < l'.length := one_lt_length_of_clog deep'
    have nextDeep : Nat.clog 2 (nextLevel hash l).length + 1 = Nat.clog 2 l.length := clog_nextLevel more
    have nextDeep' : Nat.clog 2 (nextLevel hash l').length + 1 = Nat.clog 2 l'.length := clog_nextLevel more'
    rw [reduceLevels_of_lt more, reduceLevels_of_lt more'] at same ⊢
    rcases ih (nextLevel_ne_nil nonempty) (nextLevel_ne_nil nonempty') (by omega) (by omega) same with
      equal | mutated | mutated'
    · rcases nextLevel_collision injective equal with rfl | pairs | pairs'
      · exact Or.inl rfl
      · simp [pairs]
      · simp [pairs']
    · simp [mutated]
    · simp [mutated']

theorem computeMerkleRoot_eq [Inhabited α] (hashes : List α) :
    computeMerkleRoot hash hashes = ((reduceLevels hash hashes).1.headD default, (reduceLevels hash hashes).2) :=
  rfl

end Loop

/-- The mutation flag of `ComputeMerkleRoot` is the check of the levels, and it catches every
change of the leaves that keeps the root and the depth (CVE-2012-2459), once `SHA256D64` has no
collisions. -/
theorem merkle_mutation_check_complete [Inhabited α] (injective : PairInjective hash) :
    (∀ hashes : List α, (computeMerkleRoot hash hashes).2 = true ↔
        ∃ level ∈ levels hash hashes, ∃ i x, level[2 * i]? = some x ∧ level[2 * i + 1]? = some x) ∧
    ∀ H H' : List α, H ≠ [] → H' ≠ [] → H ≠ H' → Nat.clog 2 H.length = Nat.clog 2 H'.length →
      (computeMerkleRoot hash H).1 = (computeMerkleRoot hash H').1 →
      (computeMerkleRoot hash H).2 = true ∨ (computeMerkleRoot hash H').2 = true := by
  refine ⟨fun hashes => ?_, fun H H' nonempty nonempty' distinct deep same => ?_⟩
  · rw [computeMerkleRoot_eq, reduceLevels_mutated_iff _ rfl]
    simp only [pairsEqual_iff]
  · have single : ∃ root, (reduceLevels hash H).1 = [root] := reduceLevels_singleton _ rfl nonempty
    have single' : ∃ root, (reduceLevels hash H').1 = [root] := reduceLevels_singleton _ rfl nonempty'
    obtain ⟨root, top⟩ := single
    obtain ⟨root', top'⟩ := single'
    have sameTop : (reduceLevels hash H).1 = (reduceLevels hash H').1 := by
      have roots : root = root' := by
        rw [computeMerkleRoot_eq, computeMerkleRoot_eq] at same
        simpa only [top, top', List.headD_cons] using same
      rw [top, top', roots]
    rw [computeMerkleRoot_eq, computeMerkleRoot_eq]
    rcases reduceLevels_collision injective _ nonempty nonempty' rfl deep.symm sameTop with
      equal | mutated | mutated'
    · exact absurd equal distinct
    · exact Or.inl mutated
    · exact Or.inr mutated'

/-- The two trees of the source's comment, with `Nat.pair` as the hash: the same root, and the
second list is flagged. -/
theorem merkle_mutation_check_source_trees :
    (computeMerkleRoot Nat.pair [1, 2, 3, 4, 5, 6]).2 = true ∨
      (computeMerkleRoot Nat.pair [1, 2, 3, 4, 5, 6, 5, 6]).2 = true :=
  (merkle_mutation_check_complete Nat.pair fun _ _ _ _ same => Nat.pair_eq_pair.mp same).2 _ _
    (by simp) (by simp) (by decide) (by decide)
    (by simp [computeMerkleRoot_eq, reduceLevels_of_lt, reduceLevels_of_le_one, nextLevel, padOdd, hashPairs])

end Pussycoin.Consensus
