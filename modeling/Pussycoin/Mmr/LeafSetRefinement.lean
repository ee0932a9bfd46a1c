import Pussycoin.Mmr.LeafSet
import Pussycoin.Runs

/-! The leaf-set stack refines the abstract leaf set. Bits are read through `Contains`,
and byte `k` of any leaf set is the bitmap of the leaves `8k … 8k + 7`, so two leaf sets
that contain the same leaves answer every `GetByte` alike. A leaf set is canonical when
no bit at or above its next leaf index is set; every layer of a reachable stack is, and
that is what makes a flush, which clears the bits above the new next index in the
`LeafSet` only, keep every answer of the flushed cache. -/
namespace Pussycoin.Mmr
namespace LeafSetStack

variable {s t : LeafSetStack} {i idx k n : ℕ} {v : UInt8}

theorem bitToByte_eq_mask (j : ℕ) : bitToByte j = Bitmap.mask j := by
  simp [bitToByte, Bitmap.mask, Nat.one_shiftLeft]

/-- `Contains` reads bit `i % 8` of byte `i / 8`. -/
theorem contains_eq_bit : s.contains i = Bitmap.bit (s.getByte (i / 8)) (i % 8) := by
  rw [contains, bitToByte_eq_mask, Bitmap.and_mask_ne_zero (Nat.mod_lt i (by norm_num))]

/-- Byte `k` holds the leaves `8k … 8k + 7`. -/
theorem getByte_eq_ofBits : s.getByte k = Bitmap.ofBits fun j => s.contains (8 * k + j) := by
  apply Bitmap.ext
  intro j small
  have div : (8 * k + j) / 8 = k := by omega
  have mod : (8 * k + j) % 8 = j := by omega
  rw [Bitmap.bit_ofBits _ small, contains_eq_bit, div, mod]

theorem getByte_eq_of_contains (same : ∀ i, s.contains i = t.contains i) (k : ℕ) :
    s.getByte k = t.getByte k := by
  rw [getByte_eq_ofBits, getByte_eq_ofBits]
  simp only [same]

theorem contains_setByte :
    (s.setByte k v).contains i = if i / 8 = k then Bitmap.bit v (i % 8) else s.contains i := by
  rw [contains_eq_bit, contains_eq_bit, getByte_setByte]
  by_cases sameByte : i / 8 = k <;> simp [sameByte]

@[simp] theorem contains_setNextLeafIdx : (s.setNextLeafIdx n).contains i = s.contains i := by
  simp [contains]

/-- Within one byte, two leaves are the same exactly when they have the same bit. -/
private theorem same_bit_iff (sameByte : i / 8 = idx / 8) : i % 8 = idx % 8 ↔ i = idx := by
  omega

/-! ### The leaf-set methods on bits -/

@[simp] theorem contains_add : (s.add idx).contains i = (decide (i = idx) || s.contains i) := by
  have setBit : (s.setByte (idx / 8) (s.getByte (idx / 8) ||| bitToByte (idx % 8))).contains i =
      (decide (i = idx) || s.contains i) := by
    rw [contains_setByte, contains_eq_bit, bitToByte_eq_mask]
    by_cases sameByte : i / 8 = idx / 8
    · rw [if_pos sameByte, sameByte,
        Bitmap.bit_or_mask (Nat.mod_lt _ (by norm_num)) (Nat.mod_lt _ (by norm_num))]
      simp [same_bit_iff sameByte]
    · have other : i ≠ idx := fun same => sameByte (congrArg (· / 8) same)
      simp [sameByte, other]
  simp only [add]
  split <;> simp [setBit]

@[simp] theorem nextLeafIdx_add : (s.add idx).nextLeafIdx = max s.nextLeafIdx (idx + 1) := by
  simp only [add]
  split <;> simp only [nextLeafIdx_setNextLeafIdx, nextLeafIdx_setByte] at * <;> omega

@[simp] theorem contains_remove : (s.remove idx).contains i = (!decide (i = idx) && s.contains i) := by
  rw [remove, contains_setByte, contains_eq_bit, bitToByte_eq_mask]
  by_cases sameByte : i / 8 = idx / 8
  · rw [if_pos sameByte, sameByte,
      Bitmap.bit_and_not_mask (Nat.mod_lt _ (by norm_num)) (Nat.mod_lt _ (by norm_num))]
    simp [same_bit_iff sameByte]
  · have other : i ≠ idx := fun same => sameByte (congrArg (· / 8) same)
    simp [sameByte, other]

@[simp] theorem nextLeafIdx_remove : (s.remove idx).nextLeafIdx = s.nextLeafIdx := by
  simp [remove]

theorem contains_foldl_remove (leaves : List ℕ) :
    (leaves.foldl remove s).contains i = (!decide (i ∈ leaves) && s.contains i) := by
  induction leaves generalizing s with
  | nil => simp
  | cons leaf rest ih =>
    rw [List.foldl_cons, ih, contains_remove]
    simp only [List.mem_cons, Bool.decide_or]
    cases decide (i = leaf) <;> cases decide (i ∈ rest) <;> rfl

theorem nextLeafIdx_foldl_remove (leaves : List ℕ) :
    (leaves.foldl remove s).nextLeafIdx = s.nextLeafIdx := by
  induction leaves generalizing s with
  | nil => rfl
  | cons leaf rest ih => rw [List.foldl_cons, ih, nextLeafIdx_remove]

@[simp] theorem contains_removeRange (lo hi : ℕ) :
    (s.removeRange lo hi).contains i = (!decide (lo ≤ i ∧ i < hi) && s.contains i) := by
  have inRange : i ∈ List.range' lo (hi - lo) ↔ lo ≤ i ∧ i < hi := by
    rw [List.mem_range'_1]
    omega
  rw [removeRange, contains_foldl_remove]
  simp only [inRange]

@[simp] theorem nextLeafIdx_removeRange (lo hi : ℕ) :
    (s.removeRange lo hi).nextLeafIdx = s.nextLeafIdx :=
  nextLeafIdx_foldl_remove _

theorem contains_foldl_add (leaves : List ℕ) :
    (leaves.foldl LeafSetStack.add s).contains i = (decide (i ∈ leaves) || s.contains i) := by
  induction leaves generalizing s with
  | nil => simp
  | cons leaf rest ih =>
    rw [List.foldl_cons, ih, contains_add]
    simp only [List.mem_cons, Bool.decide_or]
    cases decide (i = leaf) <;> cases decide (i ∈ rest) <;> rfl

/-! ### Canonical leaf sets -/

/-- No bit at or above the next leaf index is set. -/
def Canonical (s : LeafSetStack) : Prop :=
  ∀ i, s.nextLeafIdx ≤ i → s.contains i = false

theorem Canonical.add (canon : Canonical s) (idx : ℕ) : Canonical (s.add idx) := by
  intro i above
  rw [nextLeafIdx_add] at above
  have fresh : i ≠ idx := by omega
  simp [fresh, canon i (by omega)]

theorem Canonical.foldl_add (canon : Canonical s) (leaves : List ℕ) :
    Canonical (leaves.foldl LeafSetStack.add s) := by
  induction leaves generalizing s with
  | nil => exact canon
  | cons leaf rest ih => exact ih (canon.add leaf)

/-- Removing from `lo` up to the next leaf index of a canonical leaf set keeps exactly
the leaves below `lo`: the bits above the next leaf index are clear already. -/
theorem Canonical.contains_removeRange_to_next (canon : Canonical s) (lo : ℕ) :
    (s.removeRange lo s.nextLeafIdx).contains i = (decide (i < lo) && s.contains i) := by
  rw [contains_removeRange]
  by_cases small : i < lo
  · have kept : ¬ (lo ≤ i ∧ i < s.nextLeafIdx) := by omega
    rw [decide_eq_false kept, decide_eq_true small]
    rfl
  · by_cases stale : i < s.nextLeafIdx
    · have cleared : lo ≤ i ∧ i < s.nextLeafIdx := by omega
      rw [decide_eq_true cleared, decide_eq_false small]
      rfl
    · rw [canon i (by omega)]
      simp

/-- Rewinding a canonical leaf set: the leaves to add come back, and only the leaves
below `numLeaves` stay. -/
theorem Canonical.contains_rewind (canon : Canonical s) (numLeaves : ℕ) (leavesToAdd : List ℕ) :
    (s.rewind numLeaves leavesToAdd).contains i =
      (decide (i < numLeaves) && (decide (i ∈ leavesToAdd) || s.contains i)) := by
  simp only [rewind]
  rw [contains_setNextLeafIdx, (canon.foldl_add leavesToAdd).contains_removeRange_to_next,
    contains_foldl_add]

@[simp] theorem nextLeafIdx_rewind (numLeaves : ℕ) (leavesToAdd : List ℕ) :
    (s.rewind numLeaves leavesToAdd).nextLeafIdx = numLeaves := by
  simp [rewind]

/-! ### Agreement of two leaf sets -/

/-- Two leaf sets that answer every `GetByte` and `GetNextLeafIdx` alike. -/
structure Agrees (s t : LeafSetStack) : Prop where
  getByte : ∀ k, s.getByte k = t.getByte k
  next : s.nextLeafIdx = t.nextLeafIdx

theorem Agrees.refl (s : LeafSetStack) : Agrees s s := ⟨fun _ => rfl, rfl⟩

theorem Agrees.trans {u : LeafSetStack} (st : Agrees s t) (tu : Agrees t u) : Agrees s u :=
  ⟨fun k => (st.getByte k).trans (tu.getByte k), st.next.trans tu.next⟩

theorem Agrees.contains (agree : Agrees s t) (i : ℕ) : s.contains i = t.contains i := by
  simp [LeafSetStack.contains, agree.getByte]

theorem Agrees.of_contains (same : ∀ i, s.contains i = t.contains i)
    (next : s.nextLeafIdx = t.nextLeafIdx) : Agrees s t :=
  ⟨getByte_eq_of_contains same, next⟩

theorem Agrees.root {Η : Type} (agree : Agrees s t) (hashed : List UInt8 → Η) :
    s.root hashed = t.root hashed := by
  have bytes : s.getByte = t.getByte := funext agree.getByte
  simp [LeafSetStack.root, agree.next, bytes]

theorem Agrees.canonical (agree : Agrees s t) (canon : Canonical t) : Canonical s := by
  intro i above
  rw [agree.contains]
  exact canon i (agree.next ▸ above)

/-- A cache reads through to what it is backed by. -/
theorem Agrees.cache (agree : Agrees s t) (modifiedBytes : ℕ → Option UInt8) (next : ℕ) :
    Agrees (cache modifiedBytes next s) (cache modifiedBytes next t) :=
  ⟨fun k => by simp [LeafSetStack.getByte, agree.getByte k], rfl⟩

/-! ### Layers of a stack -/

/-- The object a cache is backed by. -/
def lower : LeafSetStack → Option LeafSetStack
  | leafSet .. => none
  | cache _ _ backed => some backed

@[simp] theorem lower_setByte : (s.setByte k v).lower = s.lower := by
  cases s <;> rfl

@[simp] theorem lower_setNextLeafIdx : (s.setNextLeafIdx n).lower = s.lower := by
  cases s <;> rfl

@[simp] theorem lower_flushFile : s.flushFile.lower = s.lower := by
  cases s <;> rfl

@[simp] theorem lower_add : (s.add idx).lower = s.lower := by
  simp only [add]
  split <;> simp

@[simp] theorem lower_remove : (s.remove idx).lower = s.lower := by
  simp [remove]

theorem lower_foldl_remove (leaves : List ℕ) : (leaves.foldl remove s).lower = s.lower := by
  induction leaves generalizing s with
  | nil => rfl
  | cons leaf rest ih => rw [List.foldl_cons, ih, lower_remove]

@[simp] theorem lower_removeRange (lo hi : ℕ) : (s.removeRange lo hi).lower = s.lower :=
  lower_foldl_remove _

theorem lower_foldl_add (leaves : List ℕ) : (leaves.foldl LeafSetStack.add s).lower = s.lower := by
  induction leaves generalizing s with
  | nil => rfl
  | cons leaf rest ih => rw [List.foldl_cons, ih, lower_add]

@[simp] theorem lower_rewind (numLeaves : ℕ) (leavesToAdd : List ℕ) :
    (s.rewind numLeaves leavesToAdd).lower = s.lower := by
  simp [rewind, lower_foldl_add]

@[simp] theorem lower_applyUpdates (updates : ℕ → Option UInt8) :
    (s.applyUpdates n updates).lower = s.lower := by
  cases s with
  | leafSet =>
    simp only [applyUpdates, lower_flushFile, lower_setNextLeafIdx, lower_removeRange]
    rfl
  | cache => rfl

theorem depth_eq_of_lower (same : s.lower = t.lower) : s.depth = t.depth := by
  cases s <;> cases t <;> simp_all [lower, depth]

/-- Every layer of the stack is canonical. -/
def AllCanonical : LeafSetStack → Prop
  | leafSet mmap modifiedBytes next => Canonical (leafSet mmap modifiedBytes next)
  | cache modifiedBytes next backed => Canonical (cache modifiedBytes next backed) ∧ AllCanonical backed

theorem allCanonical_iff :
    AllCanonical s ↔ Canonical s ∧ ∀ backed, s.lower = some backed → AllCanonical backed := by
  cases s <;> simp [AllCanonical, lower]

theorem AllCanonical.canonical (all : AllCanonical s) : Canonical s :=
  (allCanonical_iff.1 all).1

/-- A change of the top layer that keeps it canonical keeps the stack canonical. -/
theorem AllCanonical.of_top (all : AllCanonical s) (same : t.lower = s.lower)
    (top : Canonical t) : AllCanonical t :=
  allCanonical_iff.2 ⟨top, fun backed isBelow => (allCanonical_iff.1 all).2 backed (same ▸ isBelow)⟩

/-! ### Flushing -/

@[simp] theorem getByte_flushFile : s.flushFile.getByte k = s.getByte k := by
  cases s with
  | leafSet mmap modifiedBytes next =>
    have header : ¬ k + 8 < 8 := by omega
    simp [flushFile, getByte, header]
  | cache => rfl

@[simp] theorem nextLeafIdx_flushFile : s.flushFile.nextLeafIdx = s.nextLeafIdx := by
  cases s <;> rfl

theorem flushFile_agrees (s : LeafSetStack) : Agrees s.flushFile s :=
  ⟨fun _ => getByte_flushFile, nextLeafIdx_flushFile⟩

@[simp] theorem nextLeafIdx_applyUpdates (updates : ℕ → Option UInt8) :
    (s.applyUpdates n updates).nextLeafIdx = n := by
  cases s with
  | leafSet => simp only [applyUpdates, nextLeafIdx_flushFile, nextLeafIdx_setNextLeafIdx]
  | cache => rfl

/-- The object below a canonical cache, once it has taken the cache's bytes, answers as
the cache did. For a `LeafSet` the bytes move with the 8-byte offset, and the clearing
loop from the new next leaf index up meets only clear bits. -/
theorem applyUpdates_agrees {updates : ℕ → Option UInt8}
    (canon : Canonical (cache updates n s)) :
    Agrees (s.applyUpdates n updates) (cache updates n s) := by
  cases s with
  | leafSet mmap modifiedBytes next =>
    set merged := leafSet mmap
      (fun p => if 8 ≤ p then (updates (p - 8)).or (modifiedBytes p) else modifiedBytes p)
      next with mergedDef
    -- the cache's bytes land 8 bytes on, over the modified bytes of the `LeafSet`
    have mergedContains : ∀ i,
        merged.contains i = (cache updates n (leafSet mmap modifiedBytes next)).contains i := by
      intro i
      simp [merged, LeafSetStack.contains, getByte, Option.getD_or]
    have cleared : ∀ i, (merged.removeRange n next).contains i = merged.contains i := by
      intro i
      rw [contains_removeRange, mergedContains]
      by_cases above : n ≤ i
      · simp [canon i above]
      · simp [above]
    refine Agrees.of_contains (fun i => ?_) (nextLeafIdx_applyUpdates _)
    simp only [applyUpdates]
    rw [← mergedDef, (flushFile_agrees _).contains, contains_setNextLeafIdx, cleared,
      mergedContains]
  | cache modifiedBytes next backed =>
    exact ⟨fun k => by simp [applyUpdates, getByte, Option.getD_or], rfl⟩

/-- Flushing the top keeps every answer of the stack and keeps it canonical. -/
theorem AllCanonical.flush (all : AllCanonical s) :
    Agrees s.flush s ∧ AllCanonical s.flush := by
  cases s with
  | leafSet mmap modifiedBytes next =>
    have flushed := flushFile_agrees (leafSet mmap modifiedBytes next)
    exact ⟨flushed, flushed.canonical all⟩
  | cache modifiedBytes next backed =>
    obtain ⟨canon, allBacked⟩ := all
    have taken := applyUpdates_agrees canon
    have flushed : Agrees (cache modifiedBytes next backed).flush (cache modifiedBytes next backed) :=
      ⟨fun k => by simp [LeafSetStack.flush, LeafSetStack.getByte, taken.getByte k], rfl⟩
    refine ⟨flushed, flushed.canonical canon, ?_⟩
    exact allBacked.of_top (lower_applyUpdates _) (taken.canonical canon)

theorem push_agrees (s : LeafSetStack) : Agrees s.push s := ⟨fun _ => rfl, rfl⟩

theorem AllCanonical.push (all : AllCanonical s) : AllCanonical s.push :=
  ⟨(push_agrees s).canonical all.canonical, all⟩

/-- A flush at any depth keeps every answer of the top and keeps every layer canonical. -/
theorem AllCanonical.flushAt (all : AllCanonical s) (depth : ℕ) :
    Agrees (s.flushAt depth) s ∧ AllCanonical (s.flushAt depth) := by
  induction depth generalizing s with
  | zero => exact all.flush
  | succ depth ih =>
    cases s with
    | leafSet => exact ⟨Agrees.refl _, all⟩
    | cache modifiedBytes next backed =>
      -- the flush happens below the top cache, whose reads go through to it
      obtain ⟨canon, allBacked⟩ := all
      obtain ⟨agree, allFlushed⟩ := ih allBacked
      have top := agree.cache modifiedBytes next
      exact ⟨top, top.canonical canon, allFlushed⟩

theorem foldl_flushAt_succ (modifiedBytes : ℕ → Option UInt8) (next : ℕ) (backed : LeafSetStack)
    (depths : List ℕ) :
    (depths.map Nat.succ).foldl (fun t d => t.flushAt d) (cache modifiedBytes next backed) =
      cache modifiedBytes next (depths.foldl (fun t d => t.flushAt d) backed) := by
  induction depths generalizing backed with
  | nil => rfl
  | cons depth rest ih => exact ih (backed.flushAt depth)

/-- Flushing every layer: the top cache hands its bytes down, then the stack below it
flushes every layer. -/
theorem flushAll_cache (modifiedBytes : ℕ → Option UInt8) (next : ℕ) (backed : LeafSetStack) :
    (cache modifiedBytes next backed).flushAll =
      cache (fun _ => none) next (backed.applyUpdates next modifiedBytes).flushAll := by
  have sameDepth : (backed.applyUpdates next modifiedBytes).depth = backed.depth :=
    depth_eq_of_lower (lower_applyUpdates _)
  rw [flushAll, flushAll, sameDepth]
  nth_rewrite 1 [List.range_succ_eq_map]
  rw [List.foldl_cons]
  exact foldl_flushAt_succ _ _ _ _

/-- Flushing every layer from the top down leaves a stack, and a `LeafSet` at its
bottom, that answer as the top did. -/
theorem AllCanonical.flushAll (all : AllCanonical s) :
    Agrees s.flushAll s ∧ Agrees s.flushAll.bottom s ∧ AllCanonical s.flushAll := by
  -- induction on the number of caches: after the top cache hands its bytes down, the
  -- layer below it is the top of a stack with one cache fewer
  obtain ⟨caches, depth⟩ : ∃ caches, s.depth = caches := ⟨_, rfl⟩
  induction caches generalizing s with
  | zero =>
    cases s with
    | leafSet mmap modifiedBytes next =>
      have flushed := flushFile_agrees (leafSet mmap modifiedBytes next)
      exact ⟨flushed, flushed, flushed.canonical all⟩
    | cache => simp [LeafSetStack.depth] at depth
  | succ caches ih =>
    cases s with
    | leafSet => simp [LeafSetStack.depth] at depth
    | cache modifiedBytes next backed =>
      obtain ⟨canon, allBacked⟩ := all
      have taken : Agrees (backed.applyUpdates next modifiedBytes) (cache modifiedBytes next backed) :=
        applyUpdates_agrees canon
      have allTaken := allBacked.of_top (lower_applyUpdates _) (taken.canonical canon)
      have takenDepth : (backed.applyUpdates next modifiedBytes).depth = caches := by
        rw [depth_eq_of_lower (lower_applyUpdates _)]
        simpa [LeafSetStack.depth] using depth
      obtain ⟨flushed, bottomFlushed, allFlushed⟩ := ih allTaken takenDepth
      have top : Agrees (cache (fun _ => none) next (backed.applyUpdates next modifiedBytes).flushAll)
          (cache modifiedBytes next backed) :=
        ⟨fun k => (flushed.getByte k).trans (taken.getByte k), rfl⟩
      rw [flushAll_cache]
      exact ⟨top, bottomFlushed.trans taken, top.canonical canon, allFlushed⟩

/-! ### Refinement of the abstract leaf set -/

/-- The top of a stack represents an abstract leaf set: it contains exactly its leaves,
and its next leaf index is the bound. -/
structure Represents (s : LeafSetStack) (spec : LeafSetSpec) : Prop where
  contains : ∀ i, s.contains i = decide (i ∈ spec.leaves)
  next : s.nextLeafIdx = spec.bound

variable {spec : LeafSetSpec}

theorem Represents.canonical (rep : Represents s spec) : Canonical s := by
  intro i above
  have outside : i ∉ spec.leaves := fun member => by
    have bounded := spec.bounded i member
    have := rep.next
    omega
  simp [rep.contains, outside]

theorem Agrees.represents (agree : Agrees s t) (rep : Represents t spec) : Represents s spec :=
  ⟨fun i => (agree.contains i).trans (rep.contains i), agree.next.trans rep.next⟩

theorem Represents.add (rep : Represents s spec) (idx : ℕ) :
    Represents (s.add idx) (spec.add idx) where
  contains i := by simp [rep.contains, LeafSetSpec.add]
  next := by simp [rep.next, LeafSetSpec.add]

theorem Represents.remove (rep : Represents s spec) (idx : ℕ) :
    Represents (s.remove idx) (spec.remove idx) where
  contains i := by simp [rep.contains, LeafSetSpec.remove]
  next := by simp [rep.next, LeafSetSpec.remove]

theorem Represents.rewind (rep : Represents s spec) (numLeaves : ℕ) (leavesToAdd : List ℕ) :
    Represents (s.rewind numLeaves leavesToAdd) (spec.rewind numLeaves leavesToAdd) where
  contains i := by
    simp [rep.canonical.contains_rewind, rep.contains, LeafSetSpec.rewind, Bool.and_comm,
      Bool.or_comm]
  next := by simp [LeafSetSpec.rewind]

/-- `Root` hashes the canonical bitmap of the leaf set the top represents. -/
theorem Represents.root {Η : Type} (rep : Represents s spec) (hashed : List UInt8 → Η) :
    s.root hashed = hashed spec.bitmap := by
  unfold LeafSetStack.root LeafSetSpec.bitmap
  rw [rep.next]
  congr 1
  apply List.map_congr_left
  intro k _
  rw [getByte_eq_ofBits]
  simp only [rep.contains]

/-- The simulation relation: every layer canonical, and the top representing the
abstract leaf set. -/
structure Refines (s : LeafSetStack) (spec : LeafSetSpec) : Prop where
  canonical : AllCanonical s
  represents : Represents s spec

/-- One operation on both sides keeps the simulation. -/
theorem Refines.step (refines : Refines s spec) (op : LeafSetOp) :
    Refines (s.step op) (spec.step op) := by
  obtain ⟨all, rep⟩ := refines
  cases op with
  | add idx =>
    have top := rep.add idx
    exact ⟨all.of_top lower_add top.canonical, top⟩
  | remove idx =>
    have top := rep.remove idx
    exact ⟨all.of_top lower_remove top.canonical, top⟩
  | rewind numLeaves leavesToAdd =>
    have top := rep.rewind numLeaves leavesToAdd
    exact ⟨all.of_top (lower_rewind _ _) top.canonical, top⟩
  | push => exact ⟨all.push, (push_agrees s).represents rep⟩
  | flushAt depth =>
    obtain ⟨agree, allFlushed⟩ := all.flushAt depth
    exact ⟨allFlushed, agree.represents rep⟩

theorem Refines.run (refines : Refines s spec) (ops : List LeafSetOp) :
    Refines (s.run ops) (spec.run ops) :=
  Runs.foldl_relation (R := Refines) (fun _ _ op related => related.step op) ops refines

theorem empty_contains (i : ℕ) : empty.contains i = false := by
  simp [contains_eq_bit, empty, getByte]

theorem refines_empty : Refines empty LeafSetSpec.empty :=
  have rep : Represents empty LeafSetSpec.empty := ⟨fun i => by simp [empty_contains, LeafSetSpec.empty], rfl⟩
  ⟨rep.canonical, rep⟩

example : (empty.run [.add 3, .push, .add 9, .push, .rewind 5 [], .flushAt 1]).flushAll.bottom.contains 9 =
    false := by
  decide

end LeafSetStack

end Pussycoin.Mmr
