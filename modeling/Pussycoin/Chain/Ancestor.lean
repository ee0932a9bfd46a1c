import Mathlib

/-! The skip list of `CBlockIndex` in `chain.cpp`: `GetSkipHeight`, `GetAncestor`, `BuildSkip`
and `LastCommonAncestor`. A block tree is a type of blocks with the fields of `CBlockIndex` these
read; the heights of the blocks are natural numbers, and the height `GetAncestor` is asked for
is an integer, which may be negative. -/
namespace Pussycoin.Chain

/-- `InvertLowestOne`: the lowest set bit cleared. -/
def invertLowestOne (n : ℕ) : ℕ := n &&& (n - 1)

def getSkipHeight (height : ℕ) : ℕ :=
  if height < 2 then 0
  else if height % 2 = 1 then invertLowestOne (invertLowestOne (height - 1)) + 1
  else invertLowestOne height

theorem invertLowestOne_le (n : ℕ) : invertLowestOne n ≤ n - 1 := Nat.and_le_right

theorem getSkipHeight_lt {height : ℕ} (positive : 1 ≤ height) : getSkipHeight height < height := by
  unfold getSkipHeight
  split_ifs with low odd
  · omega
  · have inner := invertLowestOne_le (height - 1)
    have outer := invertLowestOne_le (invertLowestOne (height - 1))
    omega
  · have := invertLowestOne_le height
    omega

/-- The fields of `CBlockIndex` that the skip list reads, over the blocks of one tree: a block
with a parent is one above it, and the one block without a parent is the genesis block. -/
structure BlockTree (B : Type) where
  nHeight : B → ℕ
  pprev : B → Option B
  pskip : B → Option B
  height_prev : ∀ b p, pprev b = some p → nHeight b = nHeight p + 1
  height_genesis : ∀ b, pprev b = none → nHeight b = 0
  genesis_unique : ∀ a b, pprev a = none → pprev b = none → a = b

/-- Whether `GetAncestor` follows `pskip`: to the height asked for, or above it unless the
parent's skip pointer jumps nearly as far. -/
def followSkip (heightWalk height : ℕ) : Bool :=
  let heightSkip := getSkipHeight heightWalk
  let heightSkipPrev := getSkipHeight (heightWalk - 1)
  heightSkip = height || (height < heightSkip && !(heightSkipPrev + 2 < heightSkip && height ≤ heightSkipPrev))

namespace BlockTree

variable {B : Type} (t : BlockTree B)

/-- The loop of `GetAncestor` from `pindexWalk` at `heightWalk`; `none` where it asserts that
there is a parent. -/
def ancestorWalk (height : ℕ) (walk : B) (heightWalk : ℕ) : Option B :=
  if height < heightWalk then
    match t.pskip walk, followSkip heightWalk height with
    | some skip, true => ancestorWalk height skip (getSkipHeight heightWalk)
    | _, _ =>
      match t.pprev walk with
      | some prev => ancestorWalk height prev (heightWalk - 1)
      | none => none
  else some walk
termination_by heightWalk
decreasing_by
  · exact getSkipHeight_lt (by omega)
  · omega

/-- `GetAncestor`, `none` for `nullptr`. -/
def getAncestor (b : B) (height : ℤ) : Option B :=
  if height > t.nHeight b ∨ height < 0 then none else t.ancestorWalk height.toNat b (t.nHeight b)

/-- Every block had `BuildSkip` called on it: its skip pointer is what `GetAncestor` of its
parent gives at its skip height. -/
def SkipsBuilt : Prop :=
  ∀ b, t.pskip b = (t.pprev b).bind fun p => t.getAncestor p (getSkipHeight (t.nHeight b))

/-- Following `pprev` a number of times. -/
def parentWalk : B → ℕ → Option B
  | b, 0 => some b
  | b, n + 1 => (t.pprev b).bind fun p => parentWalk p n

def AncestorOrSelf (a b : B) : Prop := ∃ n, t.parentWalk b n = some a

/-- The measure of `LastCommonAncestor`'s loop: the height of the first block, past the end
at `nullptr`. -/
def heightOrZero : Option B → ℕ
  | some b => t.nHeight b + 1
  | none => 0

theorem heightOrZero_pprev (b : B) : t.heightOrZero (t.pprev b) < t.nHeight b + 1 := by
  cases found : t.pprev b with
  | none => simp [heightOrZero]
  | some p =>
    rw [heightOrZero, t.height_prev b p found]
    omega

variable [DecidableEq B]

/-- The loop of `LastCommonAncestor` and its assertion: the outer `none` is a failed `assert`,
`some none` a returned `nullptr`. -/
def meetWalk (pa pb : Option B) : Option (Option B) :=
  match pa, pb with
  | some a, some b => if a = b then some (some a) else meetWalk (t.pprev a) (t.pprev b)
  | pa, pb => if pa = pb then some pa else none
termination_by t.heightOrZero pa
decreasing_by exact t.heightOrZero_pprev a

def lastCommonAncestor (a b : B) : Option (Option B) :=
  let pa := if t.nHeight a > t.nHeight b then t.getAncestor a (t.nHeight b) else some a
  let pb := if t.nHeight b > t.nHeight a then t.getAncestor b (t.nHeight a) else some b
  t.meetWalk pa pb

end BlockTree

theorem followSkip_le {heightWalk height : ℕ} (follow : followSkip heightWalk height = true) :
    height ≤ getSkipHeight heightWalk := by
  unfold followSkip at follow
  simp only [Bool.or_eq_true, decide_eq_true_eq, Bool.and_eq_true] at follow
  omega

namespace BlockTree

variable {B : Type} {t : BlockTree B}

section Walks

theorem pprev_of_pos {b : B} (positive : 0 < t.nHeight b) : ∃ p, t.pprev b = some p := by
  cases found : t.pprev b with
  | none => exact absurd (t.height_genesis b found) (by omega)
  | some p => exact ⟨p, rfl⟩

theorem parentWalk_add (b : B) (m n : ℕ) :
    t.parentWalk b (m + n) = (t.parentWalk b m).bind fun a => t.parentWalk a n := by
  induction m generalizing b with
  | zero => simp [parentWalk]
  | succ m ih =>
    rw [Nat.add_right_comm, parentWalk, parentWalk, Option.bind_assoc]
    simp only [ih]

theorem parentWalk_one (b : B) : t.parentWalk b 1 = t.pprev b := by
  simp [parentWalk]

theorem nHeight_of_parentWalk {n : ℕ} : ∀ {b a : B}, t.parentWalk b n = some a → t.nHeight a + n = t.nHeight b := by
  induction n with
  | zero =>
    intro b a walked
    cases walked
    rfl
  | succ n ih =>
    intro b a walked
    simp only [parentWalk, Option.bind_eq_some_iff] at walked
    obtain ⟨p, parent, rest⟩ := walked
    rw [t.height_prev b p parent, ← ih rest]
    omega

theorem parentWalk_exists {n : ℕ} : ∀ {b : B}, n ≤ t.nHeight b → ∃ a, t.parentWalk b n = some a := by
  induction n with
  | zero => exact fun {b} _ => ⟨b, rfl⟩
  | succ n ih =>
    intro b high
    have positive : 0 < t.nHeight b := by omega
    obtain ⟨p, parent⟩ := pprev_of_pos positive
    have lower : n ≤ t.nHeight p := by
      have := t.height_prev b p parent
      omega
    obtain ⟨a, rest⟩ := ih lower
    exact ⟨a, by simp [parentWalk, parent, rest]⟩

/-- A block has one ancestor at each height. -/
theorem AncestorOrSelf.unique {a x x' : B} (ancestor : t.AncestorOrSelf x a) (ancestor' : t.AncestorOrSelf x' a)
    (same : t.nHeight x = t.nHeight x') : x = x' := by
  obtain ⟨n, walked⟩ := ancestor
  obtain ⟨n', walked'⟩ := ancestor'
  have steps : n = n' := by
    have := nHeight_of_parentWalk walked
    have := nHeight_of_parentWalk walked'
    omega
  subst steps
  rw [walked] at walked'
  exact Option.some.inj walked'

theorem AncestorOrSelf.nHeight_le {a x : B} (ancestor : t.AncestorOrSelf x a) : t.nHeight x ≤ t.nHeight a := by
  obtain ⟨n, walked⟩ := ancestor
  have := nHeight_of_parentWalk walked
  omega

theorem AncestorOrSelf.pprev {a x p : B} (ancestor : t.AncestorOrSelf x a) (parent : t.pprev x = some p) :
    t.AncestorOrSelf p a := by
  obtain ⟨n, walked⟩ := ancestor
  exact ⟨n + 1, by rw [parentWalk_add, walked, Option.bind_some, parentWalk_one, parent]⟩

end Walks

section GetAncestor

theorem ancestorWalk_done {height heightWalk : ℕ} (walk : B) (reached : ¬ height < heightWalk) :
    t.ancestorWalk height walk heightWalk = some walk := by
  rw [ancestorWalk, if_neg reached]

theorem ancestorWalk_skip {height heightWalk : ℕ} {walk skip : B} (above : height < heightWalk)
    (pointer : t.pskip walk = some skip) (follow : followSkip heightWalk height = true) :
    t.ancestorWalk height walk heightWalk = t.ancestorWalk height skip (getSkipHeight heightWalk) := by
  rw [ancestorWalk, if_pos above, pointer, follow]

theorem ancestorWalk_prev {height heightWalk : ℕ} {walk p : B} (above : height < heightWalk)
    (noSkip : ∀ skip, t.pskip walk = some skip → followSkip heightWalk height = false)
    (parent : t.pprev walk = some p) :
    t.ancestorWalk height walk heightWalk = t.ancestorWalk height p (heightWalk - 1) := by
  rw [ancestorWalk, if_pos above]
  cases pointer : t.pskip walk with
  | none => simp [parent]
  | some skip => simp [noSkip skip pointer, parent]

variable (built : t.SkipsBuilt)
include built

/-- The skip pointer of a block is its ancestor at its skip height, once `GetAncestor` is right
below the block. -/
theorem pskip_eq {walk p : B} {H : ℕ} (parent : t.pprev walk = some p) (low : t.nHeight walk ≤ H)
    (below : ∀ q, t.nHeight q < H → ∀ k ≤ t.nHeight q, t.getAncestor q k = t.parentWalk q (t.nHeight q - k)) :
    t.pskip walk = t.parentWalk p (t.nHeight p - getSkipHeight (t.nHeight walk)) ∧
      getSkipHeight (t.nHeight walk) ≤ t.nHeight p := by
  have heights := t.height_prev walk p parent
  have skipBelow : getSkipHeight (t.nHeight walk) ≤ t.nHeight p := by
    have lower : getSkipHeight (t.nHeight walk) < t.nHeight walk := getSkipHeight_lt (by omega)
    omega
  refine ⟨?_, skipBelow⟩
  rw [built walk, parent, Option.bind_some, below p (by omega) _ skipBelow]

/-- The loop of `GetAncestor` walks the parent chain, taking skip pointers only down to the
height asked for. The induction is on the walk's height, the loop's measure; `below` says that
`GetAncestor` is already right for the lower blocks the skip pointers were built with. -/
theorem ancestorWalk_eq {H height : ℕ}
    (below : ∀ q, t.nHeight q < H → ∀ k ≤ t.nHeight q, t.getAncestor q k = t.parentWalk q (t.nHeight q - k)) :
    ∀ (heightWalk : ℕ) (walk : B), t.nHeight walk = heightWalk → heightWalk ≤ H → height ≤ heightWalk →
      t.ancestorWalk height walk heightWalk = t.parentWalk walk (heightWalk - height) := by
  intro heightWalk
  induction heightWalk using Nat.strong_induction_on with
  | _ heightWalk ih =>
    intro walk atWalk low reached
    by_cases above : height < heightWalk
    · have positive : 0 < t.nHeight walk := by omega
      obtain ⟨p, parent⟩ := pprev_of_pos positive
      have heights := t.height_prev walk p parent
      by_cases take : ∃ skip, t.pskip walk = some skip ∧ followSkip heightWalk height = true
      · obtain ⟨skip, pointer, follow⟩ := take
        obtain ⟨skipWalk, skipBelow⟩ := pskip_eq built parent (atWalk ▸ low) below
        rw [pointer, atWalk] at skipWalk
        have skipHeight := nHeight_of_parentWalk skipWalk.symm
        have lower : getSkipHeight heightWalk < heightWalk := getSkipHeight_lt (by omega)
        have reachedSkip := followSkip_le follow
        rw [ancestorWalk_skip above pointer follow,
          ih _ lower skip (by omega) (by omega) reachedSkip]
        -- one step to the parent, the skip pointer's walk, then the rest
        have steps : heightWalk - height =
            1 + (t.nHeight p - getSkipHeight heightWalk) + (getSkipHeight heightWalk - height) := by omega
        rw [steps, parentWalk_add, parentWalk_add, parentWalk_one, parent, Option.bind_some, ← skipWalk,
          Option.bind_some]
      · have noSkip : ∀ skip, t.pskip walk = some skip → followSkip heightWalk height = false := by
          intro skip pointer
          simpa using fun follow => take ⟨skip, pointer, follow⟩
        rw [ancestorWalk_prev above noSkip parent, ih _ (by omega) p (by omega) (by omega) (by omega)]
        have steps : heightWalk - height = 1 + (heightWalk - 1 - height) := by omega
        rw [steps, parentWalk_add, parentWalk_one, parent, Option.bind_some]
    · rw [ancestorWalk_done walk above, show heightWalk - height = 0 by omega]
      rfl

/-- `GetAncestor(k)` follows `pprev` `nHeight - k` times, by induction on the height of the
block: its skip pointers were built by `GetAncestor` on lower blocks. -/
theorem getAncestor_eq : ∀ (b : B) (k : ℕ), k ≤ t.nHeight b →
    t.getAncestor b k = t.parentWalk b (t.nHeight b - k) := by
  suffices ∀ H (b : B), t.nHeight b = H → ∀ k ≤ t.nHeight b, t.getAncestor b k = t.parentWalk b (t.nHeight b - k) from
    fun b => this _ b rfl
  intro H
  induction H using Nat.strong_induction_on with
  | _ H ih =>
    intro b atB k le
    have below : ∀ q, t.nHeight q < H → ∀ k ≤ t.nHeight q, t.getAncestor q k = t.parentWalk q (t.nHeight q - k) :=
      fun q lower => ih _ lower q rfl
    rw [getAncestor, if_neg (by omega), Int.toNat_natCast]
    exact ancestorWalk_eq built below _ b rfl atB.le le

/-- The first step of `LastCommonAncestor`: a block is brought down to the height of the other,
if that is lower. -/
theorem equalize (a : B) (other : ℕ) :
    ∃ x, (if t.nHeight a > other then t.getAncestor a other else some a) = some x ∧
      t.AncestorOrSelf x a ∧ t.nHeight x = min (t.nHeight a) other := by
  split_ifs with higher
  · have exists_ : ∃ x, t.parentWalk a (t.nHeight a - other) = some x := parentWalk_exists (by omega)
    obtain ⟨x, walked⟩ := exists_
    refine ⟨x, by rw [getAncestor_eq built a other (by omega), walked], ⟨_, walked⟩, ?_⟩
    have := nHeight_of_parentWalk walked
    omega
  · exact ⟨a, rfl, ⟨0, rfl⟩, by omega⟩

omit built in
theorem getAncestor_out {b : B} {k : ℤ} (out : k < 0 ∨ (t.nHeight b : ℤ) < k) : t.getAncestor b k = none := by
  rw [getAncestor, if_pos (by omega)]

end GetAncestor

section CommonAncestor

variable [DecidableEq B]

theorem meetWalk_same (x : B) : t.meetWalk (some x) (some x) = some (some x) := by
  rw [meetWalk]
  simp

theorem meetWalk_ne {x y : B} (differ : x ≠ y) :
    t.meetWalk (some x) (some y) = t.meetWalk (t.pprev x) (t.pprev y) := by
  rw [meetWalk]
  simp [differ]

/-- The highest block that is an ancestor-or-self of both. -/
def IsLastCommon (a b c : B) : Prop :=
  t.AncestorOrSelf c a ∧ t.AncestorOrSelf c b ∧ ∀ d, t.AncestorOrSelf d a → t.AncestorOrSelf d b → t.nHeight d ≤ t.nHeight c

/-- The loop of `LastCommonAncestor` from two ancestors of one height with no common ancestor
above them: they differ until they meet at the last common ancestor. The induction is on their
height; two different blocks of height zero would be two genesis blocks. -/
theorem meetWalk_spec (a b : B) : ∀ (n : ℕ) (x y : B), t.nHeight x = n → t.nHeight y = n →
    t.AncestorOrSelf x a → t.AncestorOrSelf y b →
    (∀ d, t.AncestorOrSelf d a → t.AncestorOrSelf d b → t.nHeight d ≤ n) →
    ∃ c, t.meetWalk (some x) (some y) = some (some c) ∧ t.IsLastCommon a b c := by
  intro n
  induction n with
  | zero =>
    intro x y atX atY onA onB highest
    have genesisX : t.pprev x = none := by
      cases parent : t.pprev x with
      | none => rfl
      | some p => exact absurd (t.height_prev x p parent) (by omega)
    have genesisY : t.pprev y = none := by
      cases parent : t.pprev y with
      | none => rfl
      | some p => exact absurd (t.height_prev y p parent) (by omega)
    obtain rfl := t.genesis_unique x y genesisX genesisY
    exact ⟨x, meetWalk_same x, onA, onB, fun d onA' onB' => atX ▸ highest d onA' onB'⟩
  | succ n ih =>
    intro x y atX atY onA onB highest
    by_cases same : x = y
    · subst same
      exact ⟨x, meetWalk_same x, onA, onB, fun d onA' onB' => atX ▸ highest d onA' onB'⟩
    · obtain ⟨x', parentX⟩ := pprev_of_pos (show 0 < t.nHeight x by omega)
      obtain ⟨y', parentY⟩ := pprev_of_pos (show 0 < t.nHeight y by omega)
      have heightX := t.height_prev x x' parentX
      have heightY := t.height_prev y y' parentY
      -- a common ancestor at this height would be both `x` and `y`
      have lower : ∀ d, t.AncestorOrSelf d a → t.AncestorOrSelf d b → t.nHeight d ≤ n := by
        intro d onA' onB'
        have atMost := highest d onA' onB'
        by_contra above
        have isX := onA'.unique onA (by omega)
        have isY := onB'.unique onB (by omega)
        exact same (isX.symm.trans isY)
      rw [meetWalk_ne same, parentX, parentY]
      exact ih x' y' (by omega) (by omega) (onA.pprev parentX) (onB.pprev parentY) lower

variable (built : t.SkipsBuilt)
include built

theorem lastCommonAncestor_spec (a b : B) :
    ∃ c, t.lastCommonAncestor a b = some (some c) ∧ t.IsLastCommon a b c := by
  obtain ⟨x, pa, onA, atX⟩ := equalize built a (t.nHeight b)
  obtain ⟨y, pb, onB, atY⟩ := equalize built b (t.nHeight a)
  rw [lastCommonAncestor]
  simp only [pa, pb]
  refine meetWalk_spec a b (min (t.nHeight a) (t.nHeight b)) x y atX (by omega) onA onB ?_
  intro d onA' onB'
  have := onA'.nHeight_le
  have := onB'.nHeight_le
  omega

end CommonAncestor

end BlockTree

/-- A chain of blocks named by their heights, with the skip pointers `BuildSkip` sets. -/
def line : BlockTree ℕ where
  nHeight n := n
  pprev
    | 0 => none
    | n + 1 => some n
  pskip
    | 0 => none
    | n + 1 => some (getSkipHeight (n + 1))
  height_prev := by
    intro b p parent
    cases b with
    | zero => cases parent
    | succ n =>
      cases parent
      rfl
  height_genesis := by
    intro b genesis
    cases b with
    | zero => rfl
    | succ n => cases genesis
  genesis_unique := by
    intro a b genesisA genesisB
    cases a with
    | zero =>
      cases b with
      | zero => rfl
      | succ n => cases genesisB
    | succ n => cases genesisA

/-- On the chain every walk state is a block at its own height. -/
theorem line_ancestorWalk : ∀ (heightWalk height : ℕ), height ≤ heightWalk →
    line.ancestorWalk height heightWalk heightWalk = some height := by
  intro heightWalk
  induction heightWalk using Nat.strong_induction_on with
  | _ heightWalk ih =>
    intro height reached
    by_cases above : height < heightWalk
    · obtain ⟨m, rfl⟩ : ∃ m, heightWalk = m + 1 := ⟨heightWalk - 1, by omega⟩
      cases follow : followSkip (m + 1) height with
      | true =>
        have lower : getSkipHeight (m + 1) < m + 1 := getSkipHeight_lt (by omega)
        rw [BlockTree.ancestorWalk_skip above rfl follow, ih _ lower height (followSkip_le follow)]
      | false =>
        rw [BlockTree.ancestorWalk_prev above (fun _ _ => follow) rfl]
        exact ih m (by omega) height (by omega)
    · rw [BlockTree.ancestorWalk_done heightWalk above]
      congr 1
      omega

theorem line_skipsBuilt : line.SkipsBuilt := by
  intro b
  cases b with
  | zero => rfl
  | succ n =>
    have lower : getSkipHeight (n + 1) < n + 1 := getSkipHeight_lt (by omega)
    change some (getSkipHeight (n + 1)) = line.getAncestor n (getSkipHeight (n + 1))
    rw [BlockTree.getAncestor, if_neg (by simp only [line]; omega), Int.toNat_natCast]
    exact (line_ancestorWalk n _ (by omega)).symm

theorem line_parentWalk : ∀ (k n : ℕ), k ≤ n → line.parentWalk n k = some (n - k) := by
  intro k
  induction k with
  | zero => intro n _; rfl
  | succ k ih =>
    intro n le
    obtain ⟨m, rfl⟩ : ∃ m, n = m + 1 := ⟨n - 1, by omega⟩
    rw [BlockTree.parentWalk]
    change (some m).bind (fun p => line.parentWalk p k) = _
    rw [Option.bind_some, ih m (by omega)]
    congr 1
    omega

/-- The skip list of `CBlockIndex`: in a tree whose blocks had `BuildSkip` called on them,
`GetAncestor` is the parent walk within the chain and `nullptr` outside it, the skip heights
go down, and `LastCommonAncestor` finds the highest common ancestor-or-self. -/
theorem skip_list_ancestry {B : Type} [DecidableEq B] (t : BlockTree B) (built : t.SkipsBuilt) :
    (∀ (b : B) (k : ℤ), 0 ≤ k → k ≤ t.nHeight b → t.getAncestor b k = t.parentWalk b (t.nHeight b - k.toNat)) ∧
    (∀ (b : B) (k : ℤ), k < 0 ∨ (t.nHeight b : ℤ) < k → t.getAncestor b k = none) ∧
    (∀ h : ℕ, 1 ≤ h → getSkipHeight h < h) ∧
    ∀ a b : B, ∃ c, t.lastCommonAncestor a b = some (some c) ∧ t.IsLastCommon a b c := by
  refine ⟨fun b k nonneg le => ?_, fun b k out => BlockTree.getAncestor_out out,
    fun h positive => getSkipHeight_lt positive, BlockTree.lastCommonAncestor_spec built⟩
  have cast : k = (k.toNat : ℤ) := (Int.toNat_of_nonneg nonneg).symm
  rw [cast, BlockTree.getAncestor_eq built b k.toNat (by omega), Int.toNat_natCast]

theorem skip_list_ancestry_line : line.getAncestor 1000 250 = some 250 := by
  rw [(skip_list_ancestry line line_skipsBuilt).1 1000 250 (by norm_num) (by simp [line])]
  exact line_parentWalk _ _ (by simp [line])

end Pussycoin.Chain
