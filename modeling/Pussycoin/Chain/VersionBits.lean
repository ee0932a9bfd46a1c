import Pussycoin.Chain.Ancestor

/-! `versionbits.cpp`: the BIP9 state machine of `AbstractThresholdConditionChecker` with the
cache of states that queries share, and Litecoin's height-based deployments, chosen when the
start and timeout times are both zero. A block index is a block tree with the times and
versions of its blocks. The state of a block is that of the block ending the period before
its own; the cache maps such blocks, and `nullptr`, to states. -/
namespace Pussycoin.Chain

inductive ThresholdState
  | DEFINED
  | STARTED
  | LOCKED_IN
  | ACTIVE
  | FAILED
deriving DecidableEq, Repr

/-- The fields of `CBlockIndex` that versionbits reads besides those of the skip list. -/
structure BlockIndex (B : Type) extends BlockTree B where
  nTime : B → ℤ
  nVersion : B → UInt32

def nMedianTimeSpan : ℕ := 11

def ALWAYS_ACTIVE : ℤ := -1
def NEVER_ACTIVE : ℤ := -2

def VERSIONBITS_TOP_BITS : UInt32 := 0x20000000
def VERSIONBITS_TOP_MASK : UInt32 := 0xE0000000

/-- The parameters of one deployment in `Consensus::Params`. -/
structure BIP9Deployment where
  bit : ℕ
  nStartTime : ℤ
  nTimeout : ℤ
  nStartHeight : ℤ
  nTimeoutHeight : ℤ

/-- The members of `AbstractThresholdConditionChecker` a checker overrides. `Period` is the
confirmation window of the parameters, which is positive. -/
structure ThresholdConditionChecker (B : Type) where
  condition : B → Bool
  nTimeStart : ℤ
  nTimeTimeout : ℤ
  nHeightStart : ℤ
  nHeightTimeout : ℤ
  nPeriod : ℕ
  nThreshold : ℕ
  period_pos : 0 < nPeriod

/-- `ThresholdConditionCache`: the states known for the blocks ending periods. -/
abbrev ThresholdConditionCache (B : Type) := Option B → Option ThresholdState

namespace BlockIndex

variable {B : Type} (idx : BlockIndex B)

/-- The block times `GetMedianTimePast` gathers: those of the block and of its ancestors, at
most `n` in all. -/
def timesBack : ℕ → Option B → List ℤ
  | 0, _ => []
  | _ + 1, none => []
  | n + 1, some b => idx.nTime b :: timesBack n (idx.pprev b)

/-- `GetMedianTimePast`: the middle of the gathered times once sorted (any sort, as
`std::sort`, gives the one sorted list). -/
def getMedianTimePast (b : B) : ℤ :=
  let times := (timesBack idx nMedianTimeSpan (some b)).insertionSort fun x y => x ≤ y
  times.getD (times.length / 2) 0

/-- The median time past does not go down from a block to its children, as the rule that a
block's time exceeds the median time past of its parent makes it on every chain. -/
def MedianTimeMonotone : Prop :=
  ∀ b p, idx.pprev b = some p → idx.getMedianTimePast p ≤ idx.getMedianTimePast b

/-- `VersionBitsConditionChecker` of a deployment. -/
def versionBitsChecker (deployment : BIP9Deployment) (nMinerConfirmationWindow nRuleChangeActivationThreshold : ℕ)
    (window_pos : 0 < nMinerConfirmationWindow) : ThresholdConditionChecker B where
  condition b :=
    (idx.nVersion b &&& VERSIONBITS_TOP_MASK) == VERSIONBITS_TOP_BITS &&
      (idx.nVersion b &&& ((1 : UInt32) <<< UInt32.ofNat deployment.bit)) != 0
  nTimeStart := deployment.nStartTime
  nTimeTimeout := deployment.nTimeout
  nHeightStart := deployment.nStartHeight
  nHeightTimeout := deployment.nTimeoutHeight
  nPeriod := nMinerConfirmationWindow
  nThreshold := nRuleChangeActivationThreshold
  period_pos := window_pos

end BlockIndex

namespace BlockTree

variable {B : Type} {t : BlockTree B}

theorem parentWalk_eq_none_of_lt {b : B} {n : ℕ} (beyond : t.nHeight b < n) : t.parentWalk b n = none := by
  cases walked : t.parentWalk b n with
  | none => rfl
  | some a =>
    have := nHeight_of_parentWalk walked
    omega

theorem heightOrZero_parentWalk_lt (b : B) {n : ℕ} (positive : 0 < n) :
    t.heightOrZero (t.parentWalk b n) < t.heightOrZero (some b) := by
  cases walked : t.parentWalk b n with
  | none => simp [heightOrZero]
  | some a =>
    have := nHeight_of_parentWalk walked
    simp only [heightOrZero]
    omega

end BlockTree

/-- The moves of the state machine between consecutive periods: none, or one along
DEFINED → STARTED → LOCKED_IN → ACTIVE and STARTED → FAILED. -/
inductive ThresholdState.Step : ThresholdState → ThresholdState → Prop
  | stay (s : ThresholdState) : Step s s
  | start : Step .DEFINED .STARTED
  | lockIn : Step .STARTED .LOCKED_IN
  | fail : Step .STARTED .FAILED
  | activate : Step .LOCKED_IN .ACTIVE

namespace ThresholdConditionChecker

variable {B : Type} (c : ThresholdConditionChecker B) (idx : BlockIndex B)

def fHeightBased : Bool := c.nTimeStart == 0 && c.nTimeTimeout == 0

/-- The test of the backward loop: the period after the block starts before the deployment. -/
def beforeStart (p : B) : Bool :=
  if c.fHeightBased then (idx.nHeight p : ℤ) + 1 < c.nHeightStart else idx.getMedianTimePast p < c.nTimeStart

/-- The test of `DEFINED`: the period after the block starts at or past the start. -/
def startReached (p : B) : Bool :=
  if c.fHeightBased then (idx.nHeight p : ℤ) + 1 ≥ c.nHeightStart else idx.getMedianTimePast p ≥ c.nTimeStart

def timeoutReached (p : B) : Bool :=
  if c.fHeightBased then (idx.nHeight p : ℤ) + 1 ≥ c.nHeightTimeout else idx.getMedianTimePast p ≥ c.nTimeTimeout

/-- The counting loop of `STARTED` over `n` blocks from `pindexCount`; none where `Condition`
would read `nullptr`. -/
def countCondition : ℕ → Option B → Option ℕ
  | 0, _ => some 0
  | _ + 1, none => none
  | n + 1, some b => (countCondition n (idx.pprev b)).map fun count => count + if c.condition b then 1 else 0

/-- The `switch` of the forward loop: the state of the period after `pindexPrev`, from the
state of the period ending with it. -/
def nextState (state : ThresholdState) (pindexPrev : B) : Option ThresholdState :=
  match state with
  | .DEFINED => some (if c.startReached idx pindexPrev then .STARTED else .DEFINED)
  | .STARTED =>
    (c.countCondition idx c.nPeriod (some pindexPrev)).map fun count =>
      if count ≥ c.nThreshold then .LOCKED_IN
      else if c.timeoutReached idx pindexPrev then (if c.fHeightBased then .LOCKED_IN else .FAILED)
      else .STARTED
  | .LOCKED_IN => some .ACTIVE
  | .FAILED => some .FAILED
  | .ACTIVE => some .ACTIVE

/-- `pindexPrev->GetAncestor(nHeight - ((nHeight + 1) % nPeriod))`: the block ending the period
before the one of the block after `pindexPrev`. -/
def periodEnd (pindexPrev : Option B) : Option B :=
  pindexPrev.bind fun p => idx.getAncestor p ((idx.nHeight p : ℤ) - ((idx.nHeight p : ℤ) + 1) % c.nPeriod)

/-- `GetAncestor(nHeight - nPeriod)`: the block ending the period before. -/
def periodBefore (p : B) : Option B := idx.getAncestor p ((idx.nHeight p : ℤ) - c.nPeriod)

variable [DecidableEq B]

/-- The backward loop of `GetStateFor` from `pindexPrev`, with the blocks gathered in
`vToCompute`: the cache with a state for the block where it stops, that block, and the blocks
to compute. `fuel` bounds the iterations, which the heights bound. -/
def walkBack : ℕ → ThresholdConditionCache B → Option B → List B →
    Option (ThresholdConditionCache B × Option B × List B)
  | 0, _, _, _ => none
  | fuel + 1, cache, pindexPrev, vToCompute =>
    if (cache pindexPrev).isSome then some (cache, pindexPrev, vToCompute)
    else
      match pindexPrev with
      | none => some (Function.update cache none (some .DEFINED), none, vToCompute)
      | some p =>
        if c.beforeStart idx p then some (Function.update cache (some p) (some .DEFINED), some p, vToCompute)
        else walkBack fuel cache (c.periodBefore idx p) (vToCompute ++ [p])

/-- The forward loop: the blocks of `vToCompute` from the last one gathered, each given and
cached the state after the one before it. -/
def walkForward (cache : ThresholdConditionCache B) (state : ThresholdState) :
    List B → Option (ThresholdConditionCache B × ThresholdState)
  | [] => some (cache, state)
  | p :: vToCompute => do
    let (cache, state) ← walkForward cache state vToCompute
    let stateNext ← c.nextState idx state p
    pure (Function.update cache (some p) (some stateNext), stateNext)

/-- `GetStateFor`, with the cache it leaves; none where an assertion fails or `nullptr` is
read. -/
def getStateFor (pindexPrev : Option B) (cache : ThresholdConditionCache B) :
    Option (ThresholdState × ThresholdConditionCache B) :=
  if c.nTimeStart = ALWAYS_ACTIVE then some (.ACTIVE, cache)
  else if c.nTimeStart = NEVER_ACTIVE then some (.FAILED, cache)
  else do
    let pindexPrev := c.periodEnd idx pindexPrev
    let (cache, pindexPrev, vToCompute) ← c.walkBack idx (idx.heightOrZero pindexPrev + 1) cache pindexPrev []
    let state ← cache pindexPrev
    let (cache, state) ← c.walkForward idx cache state vToCompute
    pure (state, cache)

/-- The loop of `GetStateSinceHeightFor`: back one period while the period before has the same
state. -/
def sinceLoop : ℕ → ThresholdConditionCache B → ThresholdState → B → Option B →
    Option (ℕ × ThresholdConditionCache B)
  | 0, _, _, _, _ => none
  | fuel + 1, cache, initialState, pindexPrev, previousPeriodParent =>
    match previousPeriodParent with
    | none => some (idx.nHeight pindexPrev + 1, cache)
    | some q => do
      let (state, cache) ← c.getStateFor idx (some q) cache
      if state = initialState then sinceLoop fuel cache initialState q (c.periodBefore idx q)
      else pure (idx.nHeight pindexPrev + 1, cache)

/-- `GetStateSinceHeightFor`, with the cache it leaves. -/
def getStateSinceHeightFor (pindexPrev : Option B) (cache : ThresholdConditionCache B) :
    Option (ℕ × ThresholdConditionCache B) :=
  if c.nTimeStart = ALWAYS_ACTIVE ∨ c.nTimeStart = NEVER_ACTIVE then some (0, cache)
  else do
    let (initialState, cache) ← c.getStateFor idx pindexPrev cache
    if initialState = .DEFINED then pure (0, cache)
    else
      match c.periodEnd idx pindexPrev with
      | none => none
      | some p => c.sinceLoop idx (idx.nHeight p + 1) cache initialState p (c.periodBefore idx p)

end ThresholdConditionChecker

/-! ### The per-period definition -/

namespace ThresholdConditionChecker

variable {B : Type} (c : ThresholdConditionChecker B) (idx : BlockIndex B)

section Reference

/-- The blocks signalling among the `n` blocks ending at `b`. -/
def signalCount (n : ℕ) (b : B) : ℕ := ((List.range n).filterMap (idx.parentWalk b)).countP c.condition

/-- The BIP9 rule: the state of the period after the block `p` from the state of the period it
ends. -/
def transition (state : ThresholdState) (p : B) : ThresholdState :=
  match state with
  | .DEFINED => if c.startReached idx p then .STARTED else .DEFINED
  | .STARTED =>
    if c.signalCount idx c.nPeriod p ≥ c.nThreshold then .LOCKED_IN
    else if c.timeoutReached idx p then (if c.fHeightBased then .LOCKED_IN else .FAILED)
    else .STARTED
  | .LOCKED_IN => .ACTIVE
  | .FAILED => .FAILED
  | .ACTIVE => .ACTIVE

/-- The state of the period after `pindexPrev` by the per-period definition: `DEFINED` for
the first period, and the rule applied to the state of each period and the block ending it for
the next. -/
def periodState : Option B → ThresholdState
  | none => .DEFINED
  | some p => c.transition idx (periodState (idx.parentWalk p c.nPeriod)) p
termination_by pindexPrev => idx.heightOrZero pindexPrev
decreasing_by exact BlockTree.heightOrZero_parentWalk_lt p c.period_pos

/-- A block ending a period, or `nullptr`. -/
def IsPeriodEnd : Option B → Prop
  | none => True
  | some q => (idx.nHeight q + 1) % c.nPeriod = 0

/-- Once a chain reaches the start it stays past it: the test of the backward loop holds of
the parent of every block it holds of. -/
def StartMonotone : Prop :=
  ∀ b p, idx.pprev b = some p → c.beforeStart idx b = true → c.beforeStart idx p = true

/-- Every state in the cache is the per-period state of its block. -/
def CacheAgrees (cache : ThresholdConditionCache B) : Prop :=
  ∀ q s, cache q = some s → c.periodState idx q = s

/-- The blocks the backward loop gathers, first gathered first: each ends a period, and the
next ends the period before it, down to where the loop stopped. -/
inductive Descent : Option B → List B → Option B → Prop
  | stop (bottom : Option B) : Descent bottom [] bottom
  | step {q : B} {rest : List B} {bottom : Option B} : c.IsPeriodEnd idx (some q) →
      Descent (c.periodBefore idx q) rest bottom → Descent (some q) (q :: rest) bottom

/-- `n` is the first height of the earliest period, among the run of periods that ends with
the one after `p`, all of whose states are that of the period after `p`: `q` ends the period
before it. -/
def SinceHeight (p : B) (n : ℕ) : Prop :=
  ∃ m q, idx.parentWalk p (m * c.nPeriod) = some q ∧ n = idx.nHeight q + 1 ∧
    (∀ i ≤ m, ∃ r, idx.parentWalk p (i * c.nPeriod) = some r ∧ c.periodState idx (some r) = c.periodState idx (some p)) ∧
    c.periodState idx (idx.parentWalk q c.nPeriod) ≠ c.periodState idx (some p)

variable [DecidableEq B] in
/-- A sequence of `GetStateFor` queries sharing one cache, with their answers. -/
def runQueries : ThresholdConditionCache B → List (Option B) → Option (List ThresholdState × ThresholdConditionCache B)
  | cache, [] => some ([], cache)
  | cache, pindexPrev :: queries => do
    let (state, cache) ← c.getStateFor idx pindexPrev cache
    let (states, cache) ← runQueries cache queries
    pure (state :: states, cache)

end Reference

section Steps

theorem startReached_eq_not (p : B) : c.startReached idx p = !c.beforeStart idx p := by
  unfold startReached beforeStart
  split <;> simp only [← decide_not, not_lt, ge_iff_le]

theorem signalCount_zero (p : B) : c.signalCount idx 0 p = 0 := rfl

/-- Counting `n + 1` blocks from `p` counts `p` and `n` blocks from its parent. -/
theorem signalCount_succ {p q : B} (parent : idx.pprev p = some q) (n : ℕ) :
    c.signalCount idx (n + 1) p = c.signalCount idx n q + if c.condition p then 1 else 0 := by
  have shifted : idx.parentWalk p ∘ Nat.succ = idx.parentWalk q := by
    funext i
    simp [BlockTree.parentWalk, parent]
  unfold signalCount
  rw [List.range_succ_eq_map, List.filterMap_cons, List.filterMap_map, shifted]
  simp [BlockTree.parentWalk, List.countP_cons]

/-- The counting loop reads no `nullptr` over as many blocks as the chain has, and counts the
signalling ones. -/
theorem countCondition_eq : ∀ (n : ℕ) (p : B), n ≤ idx.nHeight p + 1 →
    c.countCondition idx n (some p) = some (c.signalCount idx n p) := by
  intro n
  induction n with
  | zero =>
    intro p _
    rfl
  | succ n ih =>
    intro p enough
    rw [countCondition]
    cases parent : idx.pprev p with
    | none =>
      -- the genesis block: the loop counts it alone
      have genesis := idx.height_genesis p parent
      have none_left : n = 0 := by omega
      subst none_left
      simp [countCondition, signalCount, BlockTree.parentWalk]
    | some q =>
      have lower := idx.height_prev p q parent
      rw [ih q (by omega), Option.map_some, signalCount_succ c idx parent]

theorem nextState_eq (s : ThresholdState) {p : B} (enough : c.nPeriod ≤ idx.nHeight p + 1) :
    c.nextState idx s p = some (c.transition idx s p) := by
  cases s with
  | STARTED => simp [nextState, transition, countCondition_eq c idx _ p enough]
  | _ => rfl

theorem transition_step (s : ThresholdState) (p : B) : s.Step (c.transition idx s p) := by
  cases s with
  | DEFINED =>
    simp only [transition]
    split
    · exact .start
    · exact .stay _
  | STARTED =>
    simp only [transition]
    split_ifs
    · exact .lockIn
    · exact .lockIn
    · exact .fail
    · exact .stay _
  | LOCKED_IN => exact .activate
  | FAILED => exact .stay _
  | ACTIVE => exact .stay _

theorem transition_of_beforeStart {p : B} (before : c.beforeStart idx p = true) :
    c.transition idx .DEFINED p = .DEFINED := by
  simp [transition, startReached_eq_not, before]

@[simp] theorem periodState_none : c.periodState idx none = .DEFINED := by
  rw [periodState]

theorem periodState_some (p : B) :
    c.periodState idx (some p) = c.transition idx (c.periodState idx (idx.parentWalk p c.nPeriod)) p := by
  rw [periodState]

theorem enough_of_isPeriodEnd {q : B} (periodEnd : c.IsPeriodEnd idx (some q)) : c.nPeriod ≤ idx.nHeight q + 1 :=
  Nat.le_of_dvd (by omega) (Nat.dvd_of_mod_eq_zero periodEnd)

end Steps

section Periods

variable {c idx} (built : idx.SkipsBuilt)
include built

theorem periodBefore_eq (p : B) : c.periodBefore idx p = idx.parentWalk p c.nPeriod := by
  by_cases enough : c.nPeriod ≤ idx.nHeight p
  · have target : (idx.nHeight p : ℤ) - c.nPeriod = ((idx.nHeight p - c.nPeriod : ℕ) : ℤ) := by omega
    rw [periodBefore, target, BlockTree.getAncestor_eq built p _ (by omega),
      show idx.nHeight p - (idx.nHeight p - c.nPeriod) = c.nPeriod by omega]
  · rw [periodBefore, BlockTree.getAncestor_out (Or.inl (by omega)), BlockTree.parentWalk_eq_none_of_lt (by omega)]

theorem periodEnd_eq (p : B) :
    c.periodEnd idx (some p) = idx.parentWalk p ((idx.nHeight p + 1) % c.nPeriod) := by
  have cast : ((idx.nHeight p : ℤ) + 1) % (c.nPeriod : ℤ) = (((idx.nHeight p + 1) % c.nPeriod : ℕ) : ℤ) := by
    push_cast
    rfl
  have bounded := Nat.mod_le (idx.nHeight p + 1) c.nPeriod
  rw [periodEnd, Option.bind_some, cast]
  by_cases within : (idx.nHeight p + 1) % c.nPeriod ≤ idx.nHeight p
  · have target : (idx.nHeight p : ℤ) - (((idx.nHeight p + 1) % c.nPeriod : ℕ) : ℤ) =
        ((idx.nHeight p - (idx.nHeight p + 1) % c.nPeriod : ℕ) : ℤ) := by omega
    rw [target, BlockTree.getAncestor_eq built p _ (by omega),
      show idx.nHeight p - (idx.nHeight p - (idx.nHeight p + 1) % c.nPeriod) = (idx.nHeight p + 1) % c.nPeriod by omega]
  · -- the first period: nothing ends the period before it
    rw [BlockTree.getAncestor_out (Or.inl (by omega)), BlockTree.parentWalk_eq_none_of_lt (by omega)]

theorem isPeriodEnd_periodEnd (pindexPrev : Option B) : c.IsPeriodEnd idx (c.periodEnd idx pindexPrev) := by
  cases pindexPrev with
  | none => trivial
  | some p =>
    rw [periodEnd_eq built]
    cases walked : idx.parentWalk p ((idx.nHeight p + 1) % c.nPeriod) with
    | none => trivial
    | some q =>
      have height := BlockTree.nHeight_of_parentWalk walked
      have bounded := Nat.mod_le (idx.nHeight p + 1) c.nPeriod
      have ends : (idx.nHeight p + 1 - (idx.nHeight p + 1) % c.nPeriod) % c.nPeriod = 0 :=
        Nat.sub_mod_eq_zero_of_mod_eq (Nat.mod_mod _ _).symm
      change (idx.nHeight q + 1) % c.nPeriod = 0
      rw [show idx.nHeight q + 1 = idx.nHeight p + 1 - (idx.nHeight p + 1) % c.nPeriod by omega]
      exact ends

theorem isPeriodEnd_periodBefore {q : B} (periodEnd : c.IsPeriodEnd idx (some q)) :
    c.IsPeriodEnd idx (c.periodBefore idx q) := by
  rw [periodBefore_eq built]
  cases walked : idx.parentWalk q c.nPeriod with
  | none => trivial
  | some a =>
    have height := BlockTree.nHeight_of_parentWalk walked
    have ends : (idx.nHeight q + 1 - c.nPeriod) % c.nPeriod = 0 :=
      Nat.sub_mod_eq_zero_of_mod_eq (by rw [Nat.mod_self]; exact periodEnd)
    change (idx.nHeight a + 1) % c.nPeriod = 0
    rw [show idx.nHeight a + 1 = idx.nHeight q + 1 - c.nPeriod by omega]
    exact ends

omit built in
theorem isPeriodEnd_parentWalk {p r : B} {i : ℕ} (periodEnd : c.IsPeriodEnd idx (some p))
    (walked : idx.parentWalk p (i * c.nPeriod) = some r) : c.IsPeriodEnd idx (some r) := by
  have height := BlockTree.nHeight_of_parentWalk walked
  have ends : (idx.nHeight p + 1 - i * c.nPeriod) % c.nPeriod = 0 :=
    Nat.sub_mod_eq_zero_of_mod_eq (by rw [Nat.mul_mod_left]; exact periodEnd)
  change (idx.nHeight r + 1) % c.nPeriod = 0
  rw [show idx.nHeight r + 1 = idx.nHeight p + 1 - i * c.nPeriod by omega]
  exact ends

theorem periodEnd_of_isPeriodEnd {a : B} (periodEnd : c.IsPeriodEnd idx (some a)) : c.periodEnd idx (some a) = some a := by
  rw [periodEnd_eq built, periodEnd]
  rfl

end Periods

section Structure

theorem succ_mod_of_ne_zero {a P : ℕ} (positive : 0 < P) (nonzero : (a + 1) % P ≠ 0) : (a + 1) % P = a % P + 1 := by
  have below := Nat.mod_lt a positive
  rcases Nat.lt_or_ge 1 P with big | small
  · rw [Nat.add_mod_eq_ite, Nat.mod_eq_of_lt big] at nonzero ⊢
    split_ifs at nonzero ⊢ <;> omega
  · have one : P = 1 := by omega
    subst one
    omega

theorem mod_of_succ_mod_eq_zero {a P : ℕ} (positive : 0 < P) (boundary : (a + 1) % P = 0) : a % P = P - 1 := by
  have below := Nat.mod_lt a positive
  rcases Nat.lt_or_ge 1 P with big | small
  · rw [Nat.add_mod_eq_ite, Nat.mod_eq_of_lt big] at boundary
    split_ifs at boundary
    omega
  · have one : P = 1 := by omega
    subst one
    omega

variable {c idx} (built : idx.SkipsBuilt)
include built

/-- A block inside a period has the period end of its parent. -/
theorem periodEnd_parent_within {b p : B} (parent : idx.pprev b = some p) (within : (idx.nHeight b + 1) % c.nPeriod ≠ 0) :
    c.periodEnd idx (some b) = c.periodEnd idx (some p) := by
  have height := idx.height_prev b p parent
  have offset := succ_mod_of_ne_zero c.period_pos within
  rw [periodEnd_eq built, periodEnd_eq built, offset, ← height, Nat.add_comm, BlockTree.parentWalk_add,
    BlockTree.parentWalk_one, parent, Option.bind_some]

/-- A block ending a period is its own period end, and its parent's is the end of the period
before. -/
theorem periodEnd_parent_boundary {b p : B} (parent : idx.pprev b = some p) (boundary : (idx.nHeight b + 1) % c.nPeriod = 0) :
    c.periodEnd idx (some b) = some b ∧ c.periodEnd idx (some p) = idx.parentWalk b c.nPeriod := by
  have height := idx.height_prev b p parent
  have offset := mod_of_succ_mod_eq_zero c.period_pos boundary
  have period := c.period_pos
  refine ⟨periodEnd_of_isPeriodEnd built boundary, ?_⟩
  rw [periodEnd_eq built, ← height, offset, show c.nPeriod = 1 + (c.nPeriod - 1) by omega, BlockTree.parentWalk_add,
    BlockTree.parentWalk_one, parent, Option.bind_some, show 1 + (c.nPeriod - 1) - 1 = c.nPeriod - 1 by omega]

/-- From a block to its child the answer stays within a period, and across the end of a period
moves at most one step along DEFINED → STARTED → LOCKED_IN → ACTIVE or STARTED → FAILED. -/
theorem periodState_parent {b p : B} (parent : idx.pprev b = some p) :
    (c.periodState idx (c.periodEnd idx (some p))).Step (c.periodState idx (c.periodEnd idx (some b))) ∧
      ((idx.nHeight b + 1) % c.nPeriod ≠ 0 →
        c.periodState idx (c.periodEnd idx (some b)) = c.periodState idx (c.periodEnd idx (some p))) := by
  by_cases boundary : (idx.nHeight b + 1) % c.nPeriod = 0
  · obtain ⟨own, before⟩ := periodEnd_parent_boundary built parent boundary
    refine ⟨?_, fun within => absurd boundary within⟩
    rw [own, before, periodState_some]
    exact transition_step c idx _ b
  · have same := periodEnd_parent_within built parent boundary
    exact ⟨by rw [same]; exact .stay _, fun _ => by rw [same]⟩

end Structure

section Monotone

variable {c idx} (monotone : c.StartMonotone idx)
include monotone

theorem beforeStart_of_parentWalk : ∀ {n : ℕ} {p a : B}, c.beforeStart idx p = true →
    idx.parentWalk p n = some a → c.beforeStart idx a = true := by
  intro n
  induction n with
  | zero =>
    intro p a before walked
    cases walked
    exact before
  | succ n ih =>
    intro p a before walked
    simp only [BlockTree.parentWalk, Option.bind_eq_some_iff] at walked
    obtain ⟨q, parent, rest⟩ := walked
    exact ih (monotone p q parent before) rest

/-- Where the start is monotone, every period before the start is `DEFINED`: the shortcut of
the backward loop agrees with the per-period definition. -/
theorem periodState_of_beforeStart : ∀ (p : B), c.beforeStart idx p = true → c.periodState idx (some p) = .DEFINED := by
  intro p
  induction hH : idx.nHeight p using Nat.strong_induction_on generalizing p with
  | _ H ih =>
    intro before
    rw [periodState_some]
    cases walked : idx.parentWalk p c.nPeriod with
    | none =>
      rw [periodState_none]
      exact transition_of_beforeStart c idx before
    | some a =>
      have lower := BlockTree.nHeight_of_parentWalk walked
      have period := c.period_pos
      rw [ih (idx.nHeight a) (by omega) a rfl (beforeStart_of_parentWalk monotone before walked)]
      exact transition_of_beforeStart c idx before

end Monotone

theorem startMonotone_of {c : ThresholdConditionChecker B} {idx : BlockIndex B}
    (startRule : c.fHeightBased = true ∨ idx.MedianTimeMonotone) : c.StartMonotone idx := by
  intro b p parent before
  have height := idx.height_prev b p parent
  by_cases heightBased : c.fHeightBased = true
  · simp only [beforeStart, if_pos heightBased, decide_eq_true_eq] at before ⊢
    omega
  · have rises := startRule.resolve_left heightBased b p parent
    simp only [beforeStart, if_neg heightBased, decide_eq_true_eq] at before ⊢
    omega

theorem cacheAgrees_empty {c : ThresholdConditionChecker B} {idx : BlockIndex B} :
    c.CacheAgrees idx fun _ => none := by
  intro q s cached
  cases cached

section Walks

variable [DecidableEq B] {c idx}

theorem CacheAgrees.update {cache : ThresholdConditionCache B} (agrees : c.CacheAgrees idx cache) {q : Option B}
    {s : ThresholdState} (right : c.periodState idx q = s) : c.CacheAgrees idx (Function.update cache q (some s)) := by
  intro q' s' cached
  by_cases same : q' = q
  · subst same
    rw [Function.update_self, Option.some.injEq] at cached
    rw [right, cached]
  · rw [Function.update_of_ne same] at cached
    exact agrees q' s' cached

variable (built : idx.SkipsBuilt)
include built

/-- The backward loop stops, with enough fuel, at a block whose state it has; the blocks it
gathers descend period by period from where it started, and the cache still agrees. -/
theorem walkBack_spec (monotone : c.StartMonotone idx) :
    ∀ (fuel : ℕ) (cache : ThresholdConditionCache B) (top : Option B) (acc : List B),
      c.CacheAgrees idx cache → c.IsPeriodEnd idx top → idx.heightOrZero top < fuel →
      ∃ cache' bottom rest, c.walkBack idx fuel cache top acc = some (cache', bottom, acc ++ rest) ∧
        c.Descent idx top rest bottom ∧ c.CacheAgrees idx cache' ∧ cache' bottom = some (c.periodState idx bottom) := by
  intro fuel
  induction fuel with
  | zero =>
    intro cache top acc _ _ short
    omega
  | succ fuel ih =>
    intro cache top acc agrees periodEnd short
    unfold walkBack
    by_cases cached : (cache top).isSome
    · -- the state is cached, and right
      obtain ⟨s, found⟩ := Option.isSome_iff_exists.mp cached
      rw [if_pos cached]
      exact ⟨cache, top, [], by rw [List.append_nil], .stop top, agrees, by rw [found, agrees top s found]⟩
    rw [if_neg cached]
    cases top with
    | none =>
      -- the parent of the genesis block is by definition `DEFINED`
      refine ⟨_, none, [], by rw [List.append_nil], .stop none, agrees.update (by rw [periodState]), ?_⟩
      rw [Function.update_self, periodState]
    | some p =>
      dsimp only
      by_cases before : c.beforeStart idx p = true
      · -- before the start, which every earlier period is before as well
        have defined := periodState_of_beforeStart monotone p before
        rw [if_pos before]
        exact ⟨_, some p, [], by rw [List.append_nil], .stop (some p), agrees.update defined,
          by rw [Function.update_self, defined]⟩
      · rw [if_neg before]
        have lower : idx.heightOrZero (c.periodBefore idx p) < fuel := by
          rw [periodBefore_eq built]
          have := BlockTree.heightOrZero_parentWalk_lt (t := idx.toBlockTree) p c.period_pos
          change _ < idx.nHeight p + 1 at this
          change idx.nHeight p + 1 < fuel + 1 at short
          omega
        obtain ⟨cache', bottom, rest, walked, descent, agrees', atBottom⟩ :=
          ih cache (c.periodBefore idx p) (acc ++ [p]) agrees (isPeriodEnd_periodBefore built periodEnd) lower
        exact ⟨cache', bottom, p :: rest, by rw [walked, List.append_assoc, List.singleton_append],
          .step periodEnd descent, agrees', atBottom⟩

/-- The forward loop gives each gathered block the per-period state, from the state of the
block the backward loop stopped at. -/
theorem walkForward_spec {top bottom : Option B} {rest : List B} (descent : c.Descent idx top rest bottom) :
    ∀ cache, c.CacheAgrees idx cache →
      ∃ cache', c.walkForward idx cache (c.periodState idx bottom) rest = some (cache', c.periodState idx top) ∧
        c.CacheAgrees idx cache' := by
  induction descent with
  | stop bottom =>
    intro cache agrees
    exact ⟨cache, rfl, agrees⟩
  | @step q rest bottom periodEnd _ ih =>
    intro cache agrees
    obtain ⟨cache', walked, agrees'⟩ := ih cache agrees
    have next : c.periodState idx (some q) = c.transition idx (c.periodState idx (c.periodBefore idx q)) q := by
      rw [periodState_some, periodBefore_eq built]
    refine ⟨Function.update cache' (some q) (some (c.periodState idx (some q))), ?_, agrees'.update rfl⟩
    rw [walkForward]
    simp only [walked, Option.bind_eq_bind, Option.bind_some, nextState_eq c idx _ (enough_of_isPeriodEnd c idx periodEnd)]
    rw [next]
    rfl

variable (monotone : c.StartMonotone idx) (regular : c.nTimeStart ≠ ALWAYS_ACTIVE ∧ c.nTimeStart ≠ NEVER_ACTIVE)
include monotone regular

/-- `GetStateFor` answers the per-period state of the block, from every cache that agrees with
it, and leaves a cache that agrees. -/
theorem getStateFor_spec {cache : ThresholdConditionCache B} (agrees : c.CacheAgrees idx cache) (pindexPrev : Option B) :
    ∃ cache', c.getStateFor idx pindexPrev cache = some (c.periodState idx (c.periodEnd idx pindexPrev), cache') ∧
      c.CacheAgrees idx cache' := by
  obtain ⟨cache₁, bottom, rest, walked, descent, agrees₁, atBottom⟩ :=
    walkBack_spec built monotone (idx.heightOrZero (c.periodEnd idx pindexPrev) + 1) cache (c.periodEnd idx pindexPrev) []
      agrees (isPeriodEnd_periodEnd built pindexPrev) (Nat.lt_succ_self _)
  obtain ⟨cache₂, forward, agrees₂⟩ := walkForward_spec built descent cache₁ agrees₁
  refine ⟨cache₂, ?_, agrees₂⟩
  rw [getStateFor, if_neg regular.1, if_neg regular.2]
  simp only [walked, List.nil_append, Option.bind_eq_bind, Option.bind_some, atBottom, forward]
  rfl

/-- Over any sequence of queries the answers are the per-period states: the cache changes no
answer. -/
theorem runQueries_spec : ∀ (queries : List (Option B)) (cache : ThresholdConditionCache B), c.CacheAgrees idx cache →
    ∃ cache', c.runQueries idx cache queries = some (queries.map fun q => c.periodState idx (c.periodEnd idx q), cache') ∧
      c.CacheAgrees idx cache' := by
  intro queries
  induction queries with
  | nil =>
    intro cache agrees
    exact ⟨cache, rfl, agrees⟩
  | cons pindexPrev queries ih =>
    intro cache agrees
    obtain ⟨cache₁, answered, agrees₁⟩ := getStateFor_spec built monotone regular agrees pindexPrev
    obtain ⟨cache₂, ran, agrees₂⟩ := ih cache₁ agrees₁
    refine ⟨cache₂, ?_, agrees₂⟩
    rw [runQueries]
    simp only [answered, ran, Option.bind_eq_bind, Option.bind_some, List.map_cons]
    rfl

/-- The loop of `GetStateSinceHeightFor` goes back period by period from `p` while the states
agree, and stops at the first height of the earliest period of the run. -/
theorem sinceLoop_spec (p : B) (periodEnd : c.IsPeriodEnd idx (some p))
    (notDefined : c.periodState idx (some p) ≠ .DEFINED) :
    ∀ (fuel : ℕ) (cache : ThresholdConditionCache B) (i : ℕ) (r : B), c.CacheAgrees idx cache →
      idx.parentWalk p (i * c.nPeriod) = some r →
      (∀ j ≤ i, ∃ r', idx.parentWalk p (j * c.nPeriod) = some r' ∧ c.periodState idx (some r') = c.periodState idx (some p)) →
      idx.nHeight r < fuel →
      ∃ n cache', c.sinceLoop idx fuel cache (c.periodState idx (some p)) r (c.periodBefore idx r) = some (n, cache') ∧
        c.SinceHeight idx p n ∧ c.CacheAgrees idx cache' := by
  intro fuel
  induction fuel with
  | zero =>
    intro cache i r _ _ _ short
    omega
  | succ fuel ih =>
    intro cache i r agrees walked same short
    unfold sinceLoop
    rw [periodBefore_eq built]
    cases before : idx.parentWalk r c.nPeriod with
    | none =>
      -- the period of the run is the second one: the first is `DEFINED`
      refine ⟨_, cache, rfl, ⟨i, r, walked, rfl, same, ?_⟩, agrees⟩
      rw [before, periodState_none]
      exact notDefined.symm
    | some a =>
      have walked' : idx.parentWalk p ((i + 1) * c.nPeriod) = some a := by
        rw [Nat.succ_mul, BlockTree.parentWalk_add, walked, Option.bind_some, before]
      have aEnd := isPeriodEnd_parentWalk periodEnd walked'
      obtain ⟨cache₁, answered, agrees₁⟩ := getStateFor_spec built monotone regular agrees (some a)
      rw [periodEnd_of_isPeriodEnd built aEnd] at answered
      simp only [answered, Option.bind_eq_bind, Option.bind_some]
      by_cases sameState : c.periodState idx (some a) = c.periodState idx (some p)
      · -- one period further back
        rw [if_pos sameState]
        have lower := BlockTree.nHeight_of_parentWalk before
        have period := c.period_pos
        refine ih cache₁ (i + 1) a agrees₁ walked' (fun j below => ?_) (by omega)
        rcases Nat.lt_or_ge j (i + 1) with earlier | last
        · exact same j (by omega)
        · exact ⟨a, by rw [show j = i + 1 by omega]; exact walked', sameState⟩
      · rw [if_neg sameState]
        exact ⟨_, cache₁, rfl, ⟨i, r, walked, rfl, same, by rw [before]; exact sameState⟩, agrees₁⟩

/-- `GetStateSinceHeightFor` answers 0 in a `DEFINED` period, and otherwise the first height of
the earliest period of the run with the current state. -/
theorem getStateSinceHeightFor_spec {cache : ThresholdConditionCache B} (agrees : c.CacheAgrees idx cache)
    (pindexPrev : Option B) :
    ∃ n cache', c.getStateSinceHeightFor idx pindexPrev cache = some (n, cache') ∧ c.CacheAgrees idx cache' ∧
      (c.periodState idx (c.periodEnd idx pindexPrev) = .DEFINED → n = 0) ∧
      ∀ p, c.periodEnd idx pindexPrev = some p → c.periodState idx (some p) ≠ .DEFINED → c.SinceHeight idx p n := by
  obtain ⟨cache₁, answered, agrees₁⟩ := getStateFor_spec built monotone regular agrees pindexPrev
  have special : ¬(c.nTimeStart = ALWAYS_ACTIVE ∨ c.nTimeStart = NEVER_ACTIVE) := by
    rintro (always | never)
    · exact regular.1 always
    · exact regular.2 never
  rw [getStateSinceHeightFor, if_neg special]
  simp only [answered, Option.bind_eq_bind, Option.bind_some]
  by_cases defined : c.periodState idx (c.periodEnd idx pindexPrev) = .DEFINED
  · rw [if_pos defined]
    refine ⟨0, cache₁, rfl, agrees₁, fun _ => rfl, fun p found notDefined => ?_⟩
    rw [found] at defined
    exact absurd defined notDefined
  · rw [if_neg defined]
    cases found : c.periodEnd idx pindexPrev with
    | none =>
      rw [found, periodState_none] at defined
      exact absurd rfl defined
    | some p =>
      have pEnd : c.IsPeriodEnd idx (some p) := found ▸ isPeriodEnd_periodEnd built pindexPrev
      rw [found] at defined
      have start : idx.parentWalk p (0 * c.nPeriod) = some p := by
        rw [Nat.zero_mul]
        rfl
      obtain ⟨n, cache₂, looped, since, agrees₂⟩ :=
        sinceLoop_spec built monotone regular p pEnd defined (idx.nHeight p + 1) cache₁ 0 p agrees₁ start
          (fun j below => ⟨p, by rw [show j = 0 by omega]; exact start, rfl⟩) (by omega)
      refine ⟨n, cache₂, ?_, agrees₂, fun definedNow => absurd definedNow defined, fun p' same _ => ?_⟩
      · simpa only [found] using looped
      · cases same
        exact since

end Walks

end ThresholdConditionChecker

open ThresholdConditionChecker

/-- A chain of heights as times, and a height-based deployment on it that starts at once. -/
def lineIndex : BlockIndex ℕ where
  toBlockTree := line
  nTime b := b
  nVersion _ := 0

def heightChecker : ThresholdConditionChecker ℕ where
  condition _ := true
  nTimeStart := 0
  nTimeTimeout := 0
  nHeightStart := 0
  nHeightTimeout := 4
  nPeriod := 2
  nThreshold := 1
  period_pos := Nat.two_pos

/-- A chain whose median time past goes down at block 2 (the times of blocks 0, 1, 2 are 0,
100, 0), and a time-based deployment starting between the two. -/
def dipIndex : BlockIndex ℕ where
  toBlockTree := line
  nTime b := if b = 1 then 100 else 0
  nVersion _ := 0

def dipChecker : ThresholdConditionChecker ℕ where
  condition _ := false
  nTimeStart := 50
  nTimeTimeout := 1000
  nHeightStart := 0
  nHeightTimeout := 0
  nPeriod := 1
  nThreshold := 1
  period_pos := Nat.one_pos

/-- On a block index with its skip pointers built, for a deployment whose start does not go
back along a chain, the answers of every sequence of queries sharing one cache are the
per-period states, which move along the state machine and only at period boundaries, and
`GetStateSinceHeightFor` answers the first height of the run of periods with the current state. -/
theorem versionbits_state_machine {B : Type} [DecidableEq B] (idx : BlockIndex B) (built : idx.SkipsBuilt)
    (c : ThresholdConditionChecker B) (regular : c.nTimeStart ≠ ALWAYS_ACTIVE ∧ c.nTimeStart ≠ NEVER_ACTIVE)
    (startRule : c.fHeightBased = true ∨ idx.MedianTimeMonotone) :
    (∀ (queries : List (Option B)) (pindexPrev : Option B), ∃ cache n cache',
      c.runQueries idx (fun _ => none) queries =
          some (queries.map fun q => c.periodState idx (c.periodEnd idx q), cache) ∧
        c.getStateSinceHeightFor idx pindexPrev cache = some (n, cache') ∧
        (c.periodState idx (c.periodEnd idx pindexPrev) = .DEFINED → n = 0) ∧
        ∀ p, c.periodEnd idx pindexPrev = some p → c.periodState idx (some p) ≠ .DEFINED → c.SinceHeight idx p n) ∧
    ∀ b p, idx.pprev b = some p →
      (c.periodState idx (c.periodEnd idx (some p))).Step (c.periodState idx (c.periodEnd idx (some b))) ∧
        ((idx.nHeight b + 1) % c.nPeriod ≠ 0 →
          c.periodState idx (c.periodEnd idx (some b)) = c.periodState idx (c.periodEnd idx (some p))) := by
  have monotone : c.StartMonotone idx := startMonotone_of startRule
  constructor
  · intro queries pindexPrev
    obtain ⟨cache, answered, agrees⟩ :=
      runQueries_spec built monotone regular queries (fun _ => none) cacheAgrees_empty
    obtain ⟨n, cache', since, _, defined, earliest⟩ :=
      getStateSinceHeightFor_spec built monotone regular agrees pindexPrev
    exact ⟨cache, n, cache', answered, since, defined, earliest⟩
  · intro b p parent
    exact periodState_parent built parent

theorem versionbits_state_machine_line :
    lineIndex.SkipsBuilt ∧
      (heightChecker.nTimeStart ≠ ALWAYS_ACTIVE ∧ heightChecker.nTimeStart ≠ NEVER_ACTIVE) ∧
      (heightChecker.fHeightBased = true ∨ lineIndex.MedianTimeMonotone) ∧
      (∀ (queries : List (Option ℕ)) (pindexPrev : Option ℕ), ∃ cache n cache',
        heightChecker.runQueries lineIndex (fun _ => none) queries =
            some (queries.map fun q => heightChecker.periodState lineIndex (heightChecker.periodEnd lineIndex q), cache) ∧
          heightChecker.getStateSinceHeightFor lineIndex pindexPrev cache = some (n, cache') ∧
          (heightChecker.periodState lineIndex (heightChecker.periodEnd lineIndex pindexPrev) = .DEFINED → n = 0) ∧
          ∀ p, heightChecker.periodEnd lineIndex pindexPrev = some p →
            heightChecker.periodState lineIndex (some p) ≠ .DEFINED → heightChecker.SinceHeight lineIndex p n) ∧
      ∀ b p, lineIndex.pprev b = some p →
        (heightChecker.periodState lineIndex (heightChecker.periodEnd lineIndex (some p))).Step
            (heightChecker.periodState lineIndex (heightChecker.periodEnd lineIndex (some b))) ∧
          ((lineIndex.nHeight b + 1) % heightChecker.nPeriod ≠ 0 →
            heightChecker.periodState lineIndex (heightChecker.periodEnd lineIndex (some b)) =
              heightChecker.periodState lineIndex (heightChecker.periodEnd lineIndex (some p))) :=
  ⟨line_skipsBuilt, by decide, Or.inl (by decide),
    versionbits_state_machine lineIndex line_skipsBuilt heightChecker (by decide) (Or.inl (by decide))⟩

/-- Where the median time past goes down, the backward loop stops at block 2 as before the
start: the state goes from STARTED back to DEFINED, while by the per-period definition it
stays STARTED. -/
theorem versionbits_state_machine_dip :
    dipIndex.pprev 2 = some 1 ∧
      (dipChecker.runQueries dipIndex (fun _ => none) [some 1, some 2]).map Prod.fst =
        some [.STARTED, .DEFINED] ∧
      dipChecker.periodState dipIndex (dipChecker.periodEnd dipIndex (some 2)) = .STARTED := by
  decide +kernel

end Pussycoin.Chain
