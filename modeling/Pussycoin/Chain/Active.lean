import Pussycoin.Chain.Ancestor
import Pussycoin.File.AppendOnlyFile
import Pussycoin.Runs
import Pussycoin.Search

/-! The active chain of `chain.h` and `chain.cpp`. `CChain` holds the blocks of one chain by
height, and `SetTip` is all that changes it: it writes the new tip's ancestors from the top down
and stops at the first one already in place. That stop is right only because the chain held the
ancestors of its old tip, which is the invariant kept here over every run; `GetLocator`,
`FindFork` and `FindEarliestAtLeast` are read against it. -/
namespace Pussycoin.Chain

/-- `CChain`: `vChain[h]` is the block at height `h`, `none` for `nullptr`. -/
structure CChain (B : Type) where
  vChain : List (Option B)

/-- How many blocks below its start the `j`-th entry of a locator lies, until the walk meets
genesis: one block at a time for the first ten, then steps that double. -/
def locatorDescent (j : ℕ) : ℕ := 2 ^ (j - 10) + min j 10 - 1

theorem locatorDescent_succ (j : ℕ) : locatorDescent (j + 1) = locatorDescent j + 2 ^ (j - 10) := by
  unfold locatorDescent
  rcases Nat.lt_or_ge j 10 with small | large
  · rw [show j + 1 - 10 = 0 by omega, show j - 10 = 0 by omega]
    omega
  · rw [show j + 1 - 10 = j - 10 + 1 by omega, pow_succ]
    have := Nat.one_le_two_pow (n := j - 10)
    omega

theorem le_locatorDescent (j : ℕ) : j ≤ locatorDescent j := by
  unfold locatorDescent
  rcases Nat.lt_or_ge j 10 with small | large
  · rw [show j - 10 = 0 by omega]
    omega
  · have := Nat.lt_two_pow_self (n := j - 10)
    omega

namespace BlockTree

variable {B : Type} (t : BlockTree B)

/-- The blocks from genesis up to `b` by height: what a chain with tip `b` holds. -/
def chainTo (b : B) : List (Option B) :=
  (List.range (t.nHeight b + 1)).map fun k => t.parentWalk b (t.nHeight b - k)

/-- What a chain with tip `tip` holds; nothing for `nullptr`. -/
def chainOf : Option B → List (Option B)
  | some b => t.chainTo b
  | none => []

/-- Every block held at a height up to `top` has its ancestors held below it. -/
def AncestorsBelow (vChain : List (Option B)) (top : ℕ) : Prop :=
  ∀ j ≤ top, ∀ q, vChain[j]? = some (some q) → ∀ i ≤ j, vChain[i]? = some (t.parentWalk q (j - i))

/-- `nTimeMax` as `AddToBlockIndex` and `LoadBlockIndex` set it: the latest `nTime` of the block
and its ancestors. -/
def TimeMaxBuilt (nTime nTimeMax : B → ℕ) : Prop :=
  ∀ b, nTimeMax b = match t.pprev b with
    | some p => max (nTimeMax p) (nTime b)
    | none => nTime b

/-- `blocks` is the locator of `p`: its `j`-th entry is the ancestor of `p` that lies
`locatorDescent j` blocks down, or genesis, and it ends at the first entry that is genesis. -/
def IsLocatorOf (p : B) (blocks : List B) : Prop :=
  blocks ≠ [] ∧ ∀ j (h : j < blocks.length),
    t.parentWalk p (min (t.nHeight p) (locatorDescent j)) = some blocks[j] ∧
      (j + 1 < blocks.length ↔ locatorDescent j < t.nHeight p)

/-- The first entries of a locator of `p`, all above genesis. -/
def LocatorPrefix (p : B) (done : List B) : Prop :=
  ∀ j (h : j < done.length), t.parentWalk p (min (t.nHeight p) (locatorDescent j)) = some done[j] ∧
    locatorDescent j < t.nHeight p

/-- The lowest block of the chain to `tip` whose maximum time is at least `nTime` and whose height
is at least `height`, or `none` when no block of that chain is. -/
def EarliestAtLeast (nTimeMax : B → ℕ) (tip : B) (nTime height : ℤ) : Option B → Prop
  | some b => t.AncestorOrSelf b tip ∧ nTime ≤ nTimeMax b ∧ height ≤ t.nHeight b ∧
      ∀ a, t.AncestorOrSelf a tip → nTime ≤ nTimeMax a → height ≤ t.nHeight a → t.nHeight b ≤ t.nHeight a
  | none => ∀ a, t.AncestorOrSelf a tip → (nTimeMax a : ℤ) < nTime ∨ (t.nHeight a : ℤ) < height

@[simp] theorem length_chainTo (b : B) : (t.chainTo b).length = t.nHeight b + 1 := by
  simp [chainTo]

theorem getElem?_chainTo (b : B) (k : ℕ) :
    (t.chainTo b)[k]? = if k ≤ t.nHeight b then some (t.parentWalk b (t.nHeight b - k)) else none := by
  split_ifs with within
  · simp [chainTo, List.getElem?_range (show k < t.nHeight b + 1 by omega)]
  · exact List.getElem?_eq_none (by simp only [length_chainTo]; omega)

theorem getElem_chainTo (b : B) {k : ℕ} (h : k < (t.chainTo b).length) :
    (t.chainTo b)[k] = t.parentWalk b (t.nHeight b - k) := by
  simp [chainTo]

variable {t}

/-- An ancestor is the block its height's worth of steps below the descendant. -/
theorem ancestorOrSelf_iff {a b : B} :
    t.AncestorOrSelf a b ↔ t.nHeight a ≤ t.nHeight b ∧ t.parentWalk b (t.nHeight b - t.nHeight a) = some a := by
  constructor
  · rintro ⟨n, walked⟩
    have heights := nHeight_of_parentWalk walked
    exact ⟨by omega, by rwa [show t.nHeight b - t.nHeight a = n by omega]⟩
  · rintro ⟨-, walked⟩
    exact ⟨_, walked⟩

/-- The chain to `b` holds a block at each height up to `b`'s. -/
theorem exists_parentWalk_at {b : B} {k : ℕ} (le : k ≤ t.nHeight b) :
    ∃ a, t.parentWalk b (t.nHeight b - k) = some a ∧ t.nHeight a = k := by
  obtain ⟨a, walked⟩ := parentWalk_exists (show t.nHeight b - k ≤ t.nHeight b by omega)
  have heights := nHeight_of_parentWalk walked
  exact ⟨a, walked, by omega⟩

theorem pprev_eq_none {a : B} (atZero : t.nHeight a = 0) : t.pprev a = none := by
  cases parent : t.pprev a with
  | none => rfl
  | some p => exact absurd (t.height_prev a p parent) (by omega)

/-- A block without a parent is an ancestor of every block. -/
theorem genesis_ancestorOrSelf {g : B} (genesis : t.pprev g = none) (b : B) : t.AncestorOrSelf g b := by
  obtain ⟨a, walked, atA⟩ := exists_parentWalk_at (Nat.zero_le (t.nHeight b))
  exact ⟨_, t.genesis_unique g a genesis (pprev_eq_none atA) ▸ walked⟩

theorem IsLastCommon.unique [DecidableEq B] {a b c c' : B} (last : t.IsLastCommon a b c)
    (last' : t.IsLastCommon a b c') : c = c' :=
  last.1.unique last'.1 (le_antisymm (last'.2.2 c last.1 last.2.1) (last.2.2 c' last'.1 last'.2.1))

theorem nTimeMax_le {nTime nTimeMax : B → ℕ} (built : t.TimeMaxBuilt nTime nTimeMax) :
    ∀ (n : ℕ) {a b : B}, t.parentWalk b n = some a → nTimeMax a ≤ nTimeMax b := by
  intro n
  induction n with
  | zero =>
    rintro a b ⟨⟩
    exact le_rfl
  | succ n ih =>
    intro a b walked
    simp only [parentWalk, Option.bind_eq_some_iff] at walked
    obtain ⟨p, parent, rest⟩ := walked
    have step : nTimeMax p ≤ nTimeMax b := by
      rw [built b, parent]
      exact le_max_left _ _
    exact (ih rest).trans step

section Stores

variable {vChain : List (Option B)} {top : ℕ}

theorem ancestorsBelow_chainTo (b : B) (top : ℕ) : t.AncestorsBelow (t.chainTo b) top := by
  intro j _ q stored i le
  rw [getElem?_chainTo] at stored ⊢
  split_ifs at stored with within
  have walked : t.parentWalk b (t.nHeight b - j) = some q := Option.some.inj stored
  have steps : t.nHeight b - i = (t.nHeight b - j) + (j - i) := by omega
  rw [if_pos (by omega), steps, parentWalk_add, walked, Option.bind_some]

theorem ancestorsBelow_chainOf (tip : Option B) (top : ℕ) : t.AncestorsBelow (t.chainOf tip) top := by
  cases tip with
  | none => intro j _ q stored; simp [chainOf] at stored
  | some b => exact ancestorsBelow_chainTo b top

/-- Growing with `nullptr` keeps every stored block's ancestors below it. -/
theorem AncestorsBelow.resize (below : t.AncestorsBelow vChain top) (n : ℕ) :
    t.AncestorsBelow (resize none vChain n) top := by
  intro j le q stored i le'
  obtain ⟨inside, old⟩ := getElem?_resize_eq_some stored (Option.some_ne_none q)
  have within : j < vChain.length := (List.getElem?_eq_some_iff.1 old).1
  rw [getElem?_resize (by omega) (by omega)]
  exact below j le q old i le'

/-- Writing above `top` leaves the heights up to `top` as they were. -/
theorem AncestorsBelow.set (below : t.AncestorsBelow vChain (top + 1)) (v : Option B) :
    t.AncestorsBelow (vChain.set (top + 1) v) top := by
  intro j le q stored i le'
  rw [List.getElem?_set, if_neg (by omega)] at stored
  rw [List.getElem?_set, if_neg (by omega)]
  exact below j (by omega) q stored i le'

/-- Above the block the loop writes, the chain already holds the new tip's ancestors; writing it
extends that to its own height. -/
theorem set_above {N p : B} {vChain : List (Option B)} (walked : t.parentWalk N (t.nHeight N - t.nHeight p) = some p)
    (length : vChain.length = t.nHeight N + 1) (above : ∀ i, t.nHeight p < i → vChain[i]? = (t.chainTo N)[i]?) :
    ∀ i, t.nHeight p ≤ i → (vChain.set (t.nHeight p) (some p))[i]? = (t.chainTo N)[i]? := by
  have le := (ancestorOrSelf_iff.1 ⟨_, walked⟩).1
  intro i higher
  rw [List.getElem?_set]
  split_ifs with here inside
  · rw [← here, getElem?_chainTo, if_pos le, walked]
  · omega
  · exact above i (by omega)

/-- Where the loop of `SetTip` finds its block in place, the chain below holds that block's
ancestors, which are the new tip's. -/
theorem chainTo_of_found {N p : B} {vChain : List (Option B)}
    (walked : t.parentWalk N (t.nHeight N - t.nHeight p) = some p)
    (above : ∀ i, t.nHeight p < i → vChain[i]? = (t.chainTo N)[i]?) (below : t.AncestorsBelow vChain (t.nHeight p))
    (found : vChain[t.nHeight p]? = some (some p)) : vChain = t.chainTo N := by
  have le := (ancestorOrSelf_iff.1 ⟨_, walked⟩).1
  apply List.ext_getElem?
  intro i
  rcases Nat.lt_or_ge (t.nHeight p) i with higher | lower
  · exact above i higher
  · have steps : t.nHeight N - i = (t.nHeight N - t.nHeight p) + (t.nHeight p - i) := by omega
    rw [below _ le_rfl p found i lower, getElem?_chainTo, if_pos (by omega), steps, parentWalk_add, walked,
      Option.bind_some]

end Stores

section Locator

variable {p x : B} {done blocks : List B}

theorem LocatorPrefix.concat (before : t.LocatorPrefix p done)
    (walked : t.parentWalk p (min (t.nHeight p) (locatorDescent done.length)) = some x)
    (above : locatorDescent done.length < t.nHeight p) : t.LocatorPrefix p (done ++ [x]) := by
  intro j h
  rw [List.length_append, List.length_singleton] at h
  rcases Nat.lt_or_ge j done.length with old | last
  · rw [List.getElem_append_left old]
    exact before j old
  · obtain rfl : j = done.length := by omega
    rw [List.getElem_append_right (le_refl _)]
    exact ⟨by simpa using walked, above⟩

/-- An entry at genesis ends the locator. -/
theorem LocatorPrefix.isLocatorOf (before : t.LocatorPrefix p done)
    (walked : t.parentWalk p (min (t.nHeight p) (locatorDescent done.length)) = some x)
    (reached : t.nHeight p ≤ locatorDescent done.length) : t.IsLocatorOf p (done ++ [x]) := by
  refine ⟨by simp, fun j h => ?_⟩
  rw [List.length_append, List.length_singleton] at h ⊢
  rcases Nat.lt_or_ge j done.length with old | last
  · rw [List.getElem_append_left old]
    exact ⟨(before j old).1, iff_of_true (by omega) (before j old).2⟩
  · obtain rfl : j = done.length := by omega
    rw [List.getElem_append_right (le_refl _)]
    exact ⟨by simpa using walked, iff_of_false (by omega) (by omega)⟩

/-- A locator has at most twelve entries more than the logarithm of the height it starts from:
past the first ten, each step back doubles. -/
theorem IsLocatorOf.length_le (loc : t.IsLocatorOf p blocks) : blocks.length ≤ Nat.log2 (t.nHeight p) + 12 := by
  obtain ⟨nonempty, entries⟩ := loc
  by_contra long
  -- the entry two before the end still lies above genesis
  have descends := (entries (blocks.length - 2) (by omega)).2.1 (by omega)
  unfold locatorDescent at descends
  rw [show blocks.length - 2 - 10 = blocks.length - 12 by omega] at descends
  have bound : blocks.length - 12 ≤ Nat.log2 (t.nHeight p) := by
    rw [Nat.le_log2 (by omega)]
    omega
  omega

end Locator

end BlockTree

namespace CChain

open BlockTree

variable {B : Type} (t : BlockTree B)

/-- `Genesis()`. -/
def genesis (c : CChain B) : Option B := c.vChain[0]?.join

/-- `Tip()`. -/
def tip (c : CChain B) : Option B := c.vChain.getLast?.join

/-- `operator[]`. -/
def get (c : CChain B) (nHeight : ℤ) : Option B :=
  if nHeight < 0 ∨ c.vChain.length ≤ nHeight then none else c.vChain[nHeight.toNat]?.join

/-- `Height()`, `-1` for the empty chain. -/
def height (c : CChain B) : ℤ := c.vChain.length - 1

section Reads

variable {t} {c : CChain B} {tip : B} {last : Option B}

theorem get_of_active (active : c.vChain = t.chainTo tip) (k : ℕ) :
    c.get k = if k ≤ t.nHeight tip then t.parentWalk tip (t.nHeight tip - k) else none := by
  unfold get
  rw [active, length_chainTo]
  split_ifs with out within within
  · omega
  · rfl
  · rw [Int.toNat_natCast, getElem?_chainTo, if_pos within, Option.join_some]
  · omega

theorem tip_of_active (active : c.vChain = t.chainTo tip) : c.tip = some tip := by
  rw [CChain.tip, active, List.getLast?_eq_getElem?, length_chainTo, Nat.add_sub_cancel, getElem?_chainTo,
    if_pos le_rfl, Nat.sub_self]
  rfl

theorem height_of_active (active : c.vChain = t.chainTo tip) : c.height = t.nHeight tip := by
  rw [height, active, length_chainTo]
  omega

theorem genesis_of_active (active : c.vChain = t.chainTo tip) (g : B) : c.genesis = some g ↔ t.pprev g = none := by
  obtain ⟨first, walked, atFirst⟩ := exists_parentWalk_at (Nat.zero_le (t.nHeight tip))
  rw [genesis, active, getElem?_chainTo, if_pos (Nat.zero_le _), Option.join_some, walked, Option.some.injEq]
  constructor
  · rintro rfl
    exact pprev_eq_none atFirst
  · exact t.genesis_unique first g (pprev_eq_none atFirst)

theorem get_of_empty (empty : c.vChain = []) (k : ℤ) : c.get k = none := by
  rw [get, if_pos (by rw [empty, List.length_nil]; omega)]

theorem tip_of_chainOf (active : c.vChain = t.chainOf last) : c.tip = last := by
  cases last with
  | none => rw [CChain.tip, active]; rfl
  | some tip => exact tip_of_active active

theorem genesis_of_chainOf (active : c.vChain = t.chainOf last) (g : B) :
    c.genesis = some g ↔ last.isSome ∧ t.pprev g = none := by
  cases last with
  | none => simp [genesis, active, chainOf]
  | some tip => simpa using genesis_of_active active g

end Reads

/-- The comparison `FindEarliestAtLeast` hands to `std::lower_bound`: the block's maximum time is
before `nTime` or its height below `height`. A `nullptr` slot, which the chain does not hold
between calls of `SetTip`, does not compare below. -/
def belowParams (nTimeMax : B → ℕ) (nTime height : ℤ) : Option B → Bool
  | some pBlock => decide ((nTimeMax pBlock : ℤ) < nTime ∨ (t.nHeight pBlock : ℤ) < height)
  | none => false

/-- `FindEarliestAtLeast`: `nullptr` where `std::lower_bound` returns the end. -/
def findEarliestAtLeast (nTimeMax : B → ℕ) (c : CChain B) (nTime height : ℤ) : Option B :=
  c.vChain[Search.lowerBound (belowParams t nTimeMax nTime height) c.vChain]?.join

section Earliest

variable {t} {nTime nTimeMax : B → ℕ}

/-- Along a chain the maximum times do not go down and the heights go up, so the comparison of
`FindEarliestAtLeast` puts the blocks below the bounds first, as `std::lower_bound` requires. -/
theorem partitioned_belowParams (built : t.TimeMaxBuilt nTime nTimeMax) (tip : B) (time height : ℤ) :
    Search.Partitioned (belowParams t nTimeMax time height) (t.chainTo tip) := by
  rw [Search.Partitioned, List.pairwise_iff_getElem]
  intro i j hi hj lt below
  rw [length_chainTo] at hi hj
  obtain ⟨a, walkedA, atA⟩ := exists_parentWalk_at (show i ≤ t.nHeight tip by omega)
  obtain ⟨b, walkedB, atB⟩ := exists_parentWalk_at (show j ≤ t.nHeight tip by omega)
  rw [getElem_chainTo, walkedA]
  rw [getElem_chainTo, walkedB] at below
  -- `a` lies `j - i` blocks below `b`
  have down : t.parentWalk b (j - i) = some a := by
    have steps : t.nHeight tip - i = (t.nHeight tip - j) + (j - i) := by omega
    rwa [steps, parentWalk_add, walkedB, Option.bind_some] at walkedA
  have older := nTimeMax_le built _ down
  simp only [belowParams, decide_eq_true_eq] at below ⊢
  omega

/-- `FindEarliestAtLeast(nTime, height)` on a chain holding the ancestors of its tip, with
`nTimeMax` set as the block index sets it, returns the lowest block of the chain whose maximum time
is at least `nTime` and whose height is at least `height`, and `nullptr` when there is none. -/
theorem find_earliest_at_least (built : t.TimeMaxBuilt nTime nTimeMax) {c : CChain B} {tip : B}
    (active : c.vChain = t.chainTo tip) (time height : ℤ) :
    t.EarliestAtLeast nTimeMax tip time height (c.findEarliestAtLeast t nTimeMax time height) := by
  obtain ⟨inside, split⟩ := Search.lowerBound_spec (partitioned_belowParams built tip time height)
  rw [findEarliestAtLeast, active]
  generalize found : Search.lowerBound (belowParams t nTimeMax time height) (t.chainTo tip) = r at inside split
  rw [length_chainTo] at inside
  -- a block of the chain lies below the answer just when it compares below the bounds
  have atHeight : ∀ a, t.AncestorOrSelf a tip →
      (t.nHeight a < r ↔ belowParams t nTimeMax time height (some a) = true) := by
    intro a onChain
    obtain ⟨le, walked⟩ := ancestorOrSelf_iff.1 onChain
    have := split (t.nHeight a) (by rw [length_chainTo]; omega)
    rwa [getElem_chainTo, walked] at this
  rcases Nat.lt_or_ge r (t.nHeight tip + 1) with within | past
  · obtain ⟨b, walked, atB⟩ := exists_parentWalk_at (show r ≤ t.nHeight tip by omega)
    rw [getElem?_chainTo, if_pos (by omega), Option.join_some, walked]
    have onChain : t.AncestorOrSelf b tip := ⟨_, walked⟩
    have meets : belowParams t nTimeMax time height (some b) = false :=
      Bool.eq_false_iff.2 fun below => lt_irrefl r (atB ▸ (atHeight b onChain).2 below)
    simp only [belowParams, decide_eq_false_iff_not, not_or, not_lt] at meets
    refine ⟨onChain, meets.1, meets.2, fun a onChain' late high => ?_⟩
    have notBelow : ¬ t.nHeight a < r := fun lower => by
      have := (atHeight a onChain').1 lower
      simp only [belowParams, decide_eq_true_eq] at this
      omega
    omega
  · rw [List.getElem?_eq_none (by rw [length_chainTo]; omega)]
    intro a onChain
    have below := (atHeight a onChain).1 (by have := onChain.nHeight_le; omega)
    simpa only [belowParams, decide_eq_true_eq] using below

theorem find_earliest_at_least_line :
    line.EarliestAtLeast (fun n => 600 * n) 20 3000 2
      ((CChain.mk (line.chainTo 20)).findEarliestAtLeast line (fun n => 600 * n) 3000 2) :=
  find_earliest_at_least
    (show line.TimeMaxBuilt (fun n => 600 * n) (fun n => 600 * n) from fun b => by
      cases b with
      | zero => rfl
      | succ n => exact (max_eq_right (show 600 * n ≤ 600 * (n + 1) by omega)).symm)
    rfl 3000 2

end Earliest

variable [DecidableEq B]

/-- `Contains`. -/
def contains (c : CChain B) (pindex : B) : Bool := decide (c.get (t.nHeight pindex) = some pindex)

/-- `Next`. -/
def next (c : CChain B) (pindex : B) : Option B :=
  if c.contains t pindex then c.get ((t.nHeight pindex : ℤ) + 1) else none

section Contains

variable {t} {c : CChain B} {tip : B} {last : Option B}

theorem contains_of_active (active : c.vChain = t.chainTo tip) (b : B) :
    c.contains t b = true ↔ t.AncestorOrSelf b tip := by
  rw [contains, decide_eq_true_iff, get_of_active active, ancestorOrSelf_iff]
  split_ifs with within
  · exact ⟨fun walked => ⟨within, walked⟩, fun ⟨_, walked⟩ => walked⟩
  · simp only [false_iff, not_and]
    exact fun le => absurd le within

/-- `Next(b)` is the block of the chain whose parent is `b`. -/
theorem next_of_active (active : c.vChain = t.chainTo tip) (b n : B) :
    c.next t b = some n ↔ t.pprev n = some b ∧ t.AncestorOrSelf n tip := by
  rw [next]
  split_ifs with onChain
  · obtain ⟨le, walkedB⟩ := ancestorOrSelf_iff.1 ((contains_of_active active b).1 onChain)
    rw [show (t.nHeight b : ℤ) + 1 = ((t.nHeight b + 1 : ℕ) : ℤ) by push_cast; rfl, get_of_active active]
    constructor
    · split_ifs with below
      · intro walked
        -- `b` is one step down from `n`
        have steps : t.nHeight tip - t.nHeight b = (t.nHeight tip - (t.nHeight b + 1)) + 1 := by omega
        rw [steps, parentWalk_add, walked, Option.bind_some, parentWalk_one] at walkedB
        exact ⟨walkedB, ⟨_, walked⟩⟩
      · rintro ⟨⟩
    · rintro ⟨parent, onChainN⟩
      have heights := t.height_prev n b parent
      obtain ⟨leN, walkedN⟩ := ancestorOrSelf_iff.1 onChainN
      rw [if_pos (by omega), ← heights, walkedN]
  · -- off the chain, and so is every block with parent `b`
    simp only [false_iff, not_and]
    intro parent onChainN
    exact onChain ((contains_of_active active b).2 (onChainN.pprev parent))

theorem contains_of_chainOf (active : c.vChain = t.chainOf last) (b : B) :
    c.contains t b = true ↔ ∃ tip, last = some tip ∧ t.AncestorOrSelf b tip := by
  cases last with
  | none => simp [contains, get_of_empty active]
  | some tip => simpa using contains_of_active active b

theorem next_of_chainOf (active : c.vChain = t.chainOf last) (b n : B) :
    c.next t b = some n ↔ t.pprev n = some b ∧ c.contains t n = true := by
  cases last with
  | none => simp [next, contains, get_of_empty active]
  | some tip => rw [next_of_active active, contains_of_active active]

end Contains

/-- The loop of `SetTip`: from `pindex` down, each block is written at its height until one is
already there. -/
def setTipLoop (vChain : List (Option B)) : Option B → List (Option B)
  | some pindex =>
    if vChain[t.nHeight pindex]? = some (some pindex) then vChain
    else setTipLoop (vChain.set (t.nHeight pindex) (some pindex)) (t.pprev pindex)
  | none => vChain
termination_by pindex => t.heightOrZero pindex
decreasing_by exact t.heightOrZero_pprev pindex

/-- `SetTip`: `nullptr` clears the chain; a block resizes it to the block's height and runs the
loop from it. -/
def setTip (c : CChain B) : Option B → CChain B
  | some pindex => ⟨setTipLoop t (resize none c.vChain (t.nHeight pindex + 1)) (some pindex)⟩
  | none => ⟨[]⟩

section Runs

variable {t}

/-- The loop of `SetTip` from an ancestor `p` of the new tip `N`, with `N`'s ancestors above `p`
already written and every block held up to `p`'s height over its own ancestors, ends with the
chain to `N`. The induction follows the loop down the parents of `p`. -/
theorem setTipLoop_chainTo {N : B} (vChain : List (Option B)) (pindex : Option B) :
    ∀ p, pindex = some p → t.parentWalk N (t.nHeight N - t.nHeight p) = some p →
      vChain.length = t.nHeight N + 1 → (∀ i, t.nHeight p < i → vChain[i]? = (t.chainTo N)[i]?) →
      t.AncestorsBelow vChain (t.nHeight p) → setTipLoop t vChain pindex = t.chainTo N := by
  fun_induction setTipLoop t vChain pindex with
  | case1 vChain p found =>
    rintro _ ⟨⟩ walked _ above below
    exact chainTo_of_found walked above below found
  | case2 vChain p missing ih =>
    rintro _ ⟨⟩ walked length above below
    have filled := set_above walked length above
    cases parent : t.pprev p with
    | none =>
      -- `p` is genesis: every height is now written
      have atZero := t.height_genesis p parent
      rw [setTipLoop]
      exact List.ext_getElem? fun i => filled i (by omega)
    | some p' =>
      have heights := t.height_prev p p' parent
      rw [parent] at ih
      refine ih p' rfl ?_ (by rw [List.length_set, length]) (fun i higher => filled i (by omega)) ?_
      · have steps : t.nHeight N - t.nHeight p' = (t.nHeight N - t.nHeight p) + 1 := by
          have := (ancestorOrSelf_iff.1 ⟨_, walked⟩).1
          omega
        rw [steps, parentWalk_add, walked, Option.bind_some, parentWalk_one, parent]
      · rw [heights] at below ⊢
        exact below.set (some p)
  | case3 vChain => rintro _ ⟨⟩

/-- `SetTip` on a chain holding the ancestors of its tip leaves the ancestors of the new tip:
the early stop of its loop agrees with writing the chain from scratch. -/
theorem setTip_chainOf {c : CChain B} {old : Option B} (active : c.vChain = t.chainOf old) (pindex : Option B) :
    (c.setTip t pindex).vChain = t.chainOf pindex := by
  cases pindex with
  | none => rfl
  | some N =>
    refine setTipLoop_chainTo _ (some N) N rfl (by rw [Nat.sub_self]; rfl) (length_resize) (fun i past => ?_) ?_
    · rw [List.getElem?_eq_none (by rw [length_resize]; omega), List.getElem?_eq_none (by rw [length_chainTo]; omega)]
    · rw [active]
      exact (ancestorsBelow_chainOf old _).resize _

omit [DecidableEq B] in
theorem foldl_keep_last (tips : List (Option B)) (old : Option B) :
    tips.foldl (fun _ pindex => pindex) old = tips.getLast?.getD old := by
  induction tips generalizing old with
  | nil => rfl
  | cons pindex rest ih => rw [List.foldl_cons, ih, List.getLast?_cons, Option.getD_some]

/-- Over any run of `SetTip` calls from the empty chain, the chain holds exactly the ancestors of
the last tip set, by height: `Tip()` is that block, `Genesis()` the genesis block, `Contains(b)`
holds just for its ancestors, and `Next(b)` is the block of the chain whose parent is `b`. -/
theorem set_tip_run_holds_ancestors (tips : List (Option B)) :
    (let c := tips.foldl (fun (c : CChain B) pindex => c.setTip t pindex) ⟨[]⟩
     let last := tips.getLast?.getD none
     c.vChain = t.chainOf last ∧ c.tip = last ∧ (∀ g, c.genesis = some g ↔ last.isSome ∧ t.pprev g = none) ∧
      (∀ b, c.contains t b = true ↔ ∃ tip, last = some tip ∧ t.AncestorOrSelf b tip) ∧
      ∀ b n, c.next t b = some n ↔ t.pprev n = some b ∧ c.contains t n = true) := by
  intro c last
  have active : c.vChain = t.chainOf last := by
    have run := Runs.foldl_relation (R := fun (c : CChain B) last => c.vChain = t.chainOf last)
      (fun _ _ pindex active => setTip_chainOf active pindex) tips (s := ⟨[]⟩) (t := none) rfl
    rwa [foldl_keep_last] at run
  exact ⟨active, tip_of_chainOf active, genesis_of_chainOf active, contains_of_chainOf active,
    next_of_chainOf active⟩

end Runs

/-- The loop of `FindFork`: up the parents until a block of the chain. -/
def findForkLoop (c : CChain B) : Option B → Option B
  | some pindex => if c.contains t pindex then some pindex else findForkLoop c (t.pprev pindex)
  | none => none
termination_by pindex => t.heightOrZero pindex
decreasing_by exact t.heightOrZero_pprev pindex

/-- `FindFork`: a block above the tip is first brought down to the chain's height. -/
def findFork (c : CChain B) : Option B → Option B
  | some pindex =>
    c.findForkLoop t (if c.height < t.nHeight pindex then t.getAncestor pindex c.height else some pindex)
  | none => none

section Fork

variable {t} {c : CChain B} {tip : B}

/-- The loop of `FindFork` from an ancestor `x` of `b` with no common ancestor of `b` and the tip
above it ends at their last common ancestor. The induction follows the loop up the parents. -/
theorem findForkLoop_last (active : c.vChain = t.chainTo tip) (b : B) (pindex : Option B) :
    ∀ x, pindex = some x → t.AncestorOrSelf x b →
      (∀ d, t.AncestorOrSelf d b → t.AncestorOrSelf d tip → t.nHeight d ≤ t.nHeight x) →
      ∃ f, c.findForkLoop t pindex = some f ∧ t.IsLastCommon b tip f := by
  fun_induction c.findForkLoop t pindex with
  | case1 x onChain =>
    rintro _ ⟨⟩ onB highest
    exact ⟨x, rfl, onB, (contains_of_active active x).1 onChain, highest⟩
  | case2 x offChain ih =>
    rintro _ ⟨⟩ onB highest
    have notOnTip : ¬ t.AncestorOrSelf x tip := fun onTip => offChain ((contains_of_active active x).2 onTip)
    -- genesis is on every chain, so `x` has a parent
    obtain ⟨p, parent⟩ : ∃ p, t.pprev x = some p := by
      cases parent : t.pprev x with
      | none => exact absurd (genesis_ancestorOrSelf parent tip) notOnTip
      | some p => exact ⟨p, rfl⟩
    have heights := t.height_prev x p parent
    rw [parent] at ih ⊢
    refine ih p rfl (onB.pprev parent) fun d onB' onTip => ?_
    -- a common ancestor at the height of `x` would be `x`, which is off the chain
    have atMost := highest d onB' onTip
    have other : t.nHeight d ≠ t.nHeight x := fun same => notOnTip (onB'.unique onB same ▸ onTip)
    omega
  | case3 => rintro _ ⟨⟩

/-- `FindFork(b)` on a chain holding the ancestors of its tip, in a tree whose blocks had
`BuildSkip` called on them, is the last common ancestor of `b` and the tip, the block
`LastCommonAncestor` finds. -/
theorem find_fork_last_common (built : t.SkipsBuilt) (active : c.vChain = t.chainTo tip) (b : B) :
    ∃ f, c.findFork t (some b) = some f ∧ t.IsLastCommon b tip f ∧ t.lastCommonAncestor b tip = some (some f) := by
  obtain ⟨x, start, onB, atX⟩ := equalize built b (t.nHeight tip)
  have highest : ∀ d, t.AncestorOrSelf d b → t.AncestorOrSelf d tip → t.nHeight d ≤ t.nHeight x := by
    intro d onB' onTip
    have := onB'.nHeight_le
    have := onTip.nHeight_le
    omega
  have first : (if c.height < t.nHeight b then t.getAncestor b c.height else some b) = some x := by
    simpa only [height_of_active active, Nat.cast_lt, gt_iff_lt] using start
  obtain ⟨f, found, last⟩ := findForkLoop_last active b _ x first onB highest
  obtain ⟨f', common, last'⟩ := lastCommonAncestor_spec built b tip
  refine ⟨f, found, last, ?_⟩
  rw [common, last'.unique last]

theorem find_fork_last_common_line :
    ∃ f, (CChain.mk (line.chainTo 5)).findFork line (some 8) = some f ∧ line.IsLastCommon 8 5 f ∧
      line.lastCommonAncestor 8 5 = some (some f) :=
  find_fork_last_common line_skipsBuilt rfl 8

end Fork

section Locator

variable {H : Type} (hash : B → H)

/-- The loop of `GetLocator`, for at most `fuel` rounds: `vHave` holds the hashes pushed so far
and `nStep` how far back the next block lies. -/
def locatorLoop (c : CChain B) : ℕ → ℕ → List H → Option B → List H
  | fuel + 1, nStep, vHave, some pindex =>
    let vHave := vHave ++ [hash pindex]
    -- the genesis block ends the locator
    if t.nHeight pindex = 0 then vHave
    else
      let nHeight : ℤ := max (t.nHeight pindex - nStep) 0
      -- the chain's index for a block of the chain, the skip list otherwise
      let pindex := if c.contains t pindex then c.get nHeight else t.getAncestor pindex nHeight
      locatorLoop c fuel (if 10 < vHave.length then nStep * 2 else nStep) vHave pindex
  | _, _, vHave, _ => vHave

/-- `GetLocator`, from the tip for `nullptr`; `fuel` bounds the rounds of its loop. -/
def getLocator (fuel : ℕ) (c : CChain B) (pindex : Option B) : List H :=
  locatorLoop t hash c fuel 1 [] (pindex.or c.tip)

variable {t} {c : CChain B} {tip : B}

/-- Where `GetLocator` steps back from a block, the chain's index and the skip list give the same
ancestor. -/
theorem locatorStep_eq (built : t.SkipsBuilt) (active : c.vChain = t.chainTo tip) {x : B} {k : ℕ}
    (le : k ≤ t.nHeight x) :
    (if c.contains t x then c.get k else t.getAncestor x k) = t.parentWalk x (t.nHeight x - k) := by
  split_ifs with onChain
  · obtain ⟨within, walked⟩ := ancestorOrSelf_iff.1 ((contains_of_active active x).1 onChain)
    have steps : t.nHeight tip - k = (t.nHeight tip - t.nHeight x) + (t.nHeight x - k) := by omega
    rw [get_of_active active, if_pos (by omega), steps, parentWalk_add, walked, Option.bind_some]
  · exact getAncestor_eq built x k le

/-- The loop of `GetLocator` with the entries so far where the locator of `p` has them, `nStep`
doubled once for each entry past the tenth, and a round of fuel for each height left, ends with
the locator of `p`. The induction is on the fuel. -/
theorem locatorLoop_isLocator (built : t.SkipsBuilt) (active : c.vChain = t.chainTo tip) (p : B) :
    ∀ (fuel : ℕ) (done : List B) (x : B), t.LocatorPrefix p done →
      t.parentWalk p (min (t.nHeight p) (locatorDescent done.length)) = some x →
      t.nHeight p < fuel + done.length →
      ∃ blocks, c.locatorLoop t hash fuel (2 ^ (done.length - 10)) (done.map hash) (some x) = blocks.map hash ∧
        t.IsLocatorOf p blocks := by
  intro fuel
  induction fuel with
  | zero =>
    intro done x before _ enough
    -- the entries so far lie above genesis, so there are no more of them than the height of `p`
    obtain ⟨k, counted⟩ : ∃ k, done.length = k + 1 := ⟨done.length - 1, by omega⟩
    have above := (before k (by omega)).2
    have := le_locatorDescent k
    omega
  | succ fuel ih =>
    intro done x before walked enough
    have atX : t.nHeight x = t.nHeight p - min (t.nHeight p) (locatorDescent done.length) := by
      have := nHeight_of_parentWalk walked
      omega
    have pushed : done.map hash ++ [hash x] = (done ++ [x]).map hash := by simp
    by_cases genesis : t.nHeight x = 0
    · refine ⟨done ++ [x], ?_, before.isLocatorOf walked (by omega)⟩
      simp only [locatorLoop, genesis, if_true, pushed]
    · -- the next block lies `nStep` further down, or at genesis
      have above : locatorDescent done.length < t.nHeight p := by omega
      generalize doubled : 2 ^ (done.length - 10) = nStep
      obtain ⟨x', walked'⟩ : ∃ x', t.parentWalk x (min (t.nHeight x) nStep) = some x' := parentWalk_exists (by omega)
      have next : max ((t.nHeight x : ℤ) - (nStep : ℤ)) 0 = ((t.nHeight x - nStep : ℕ) : ℤ) := by omega
      have stepped : (if 10 < ((done ++ [x]).map hash).length then nStep * 2 else nStep) =
          2 ^ ((done ++ [x]).length - 10) := by
        simp only [List.length_map, List.length_append, List.length_singleton, ← doubled]
        split_ifs with past
        · rw [show done.length + 1 - 10 = done.length - 10 + 1 by omega, pow_succ]
        · rw [show done.length + 1 - 10 = 0 by omega, show done.length - 10 = 0 by omega]
      have descends : min (t.nHeight p) (locatorDescent (done ++ [x]).length) =
          min (t.nHeight p) (locatorDescent done.length) + min (t.nHeight x) nStep := by
        rw [List.length_append, List.length_singleton, locatorDescent_succ, doubled]
        omega
      simp only [locatorLoop, genesis, if_false, pushed]
      rw [next, locatorStep_eq built active (by omega), stepped,
        show t.nHeight x - (t.nHeight x - nStep) = min (t.nHeight x) nStep by omega, walked']
      refine ih (done ++ [x]) x' (before.concat walked above) ?_ (by simp only [List.length_append, List.length_singleton]; omega)
      rw [descends, parentWalk_add, walked, Option.bind_some, walked']

/-- `GetLocator(pindex)` on a chain holding the ancestors of its tip, in a tree whose blocks had
`BuildSkip` called on them and with a round of fuel for each height, returns the hashes of the
locator of `pindex` (of the tip for `nullptr`): the ancestors `locatorDescent j` blocks down, up
to and including genesis, at most twelve more than the logarithm of the height. -/
theorem get_locator_ancestors (built : t.SkipsBuilt) (active : c.vChain = t.chainTo tip) (pindex : Option B)
    (fuel : ℕ) (enough : t.nHeight (pindex.getD tip) < fuel) :
    ∃ blocks, c.getLocator t hash fuel pindex = blocks.map hash ∧ t.IsLocatorOf (pindex.getD tip) blocks ∧
      blocks.length ≤ Nat.log2 (t.nHeight (pindex.getD tip)) + 12 := by
  have start : pindex.or c.tip = some (pindex.getD tip) := by
    cases pindex <;> simp [tip_of_active active]
  obtain ⟨blocks, located, loc⟩ := locatorLoop_isLocator hash built active (pindex.getD tip) fuel [] (pindex.getD tip)
    (fun j h => absurd h (Nat.not_lt_zero j)) (by simp [locatorDescent, parentWalk]) (by simpa using enough)
  refine ⟨blocks, ?_, loc, loc.length_le⟩
  rw [getLocator, start]
  simpa using located

theorem get_locator_ancestors_line :
    ∃ blocks, (CChain.mk (line.chainTo 30)).getLocator line id 31 none = blocks.map id ∧
      line.IsLocatorOf ((none : Option ℕ).getD 30) blocks ∧
      blocks.length ≤ Nat.log2 (line.nHeight ((none : Option ℕ).getD 30)) + 12 :=
  get_locator_ancestors id line_skipsBuilt rfl none 31 (by decide)

/-- Eleven blocks one apart, then steps of 2, 4, 8 and the genesis block. -/
example : (CChain.mk (line.chainTo 30)).getLocator line id 31 none =
    [30, 29, 28, 27, 26, 25, 24, 23, 22, 21, 20, 19, 17, 13, 5, 0] := by decide

end Locator

end CChain

end Pussycoin.Chain
