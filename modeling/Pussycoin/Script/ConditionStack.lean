import Mathlib
import Pussycoin.Runs

/-! The condition stack of the script interpreter (`script/interpreter.cpp`). `ConditionStack`
keeps only the size of the stack of `IF` branches and the position of its first false value,
both `uint32_t`; it stands for the `vector<bool>` it replaced, whose operations are the list
operations below, and the stack it stands for is recovered by `ofList`. Each operation commutes
with `ofList` while the depth stays below `NO_FALSE = 2^32 - 1`. -/
namespace Pussycoin.Script

/-- `ConditionStack::NO_FALSE`, the largest `uint32_t`. -/
def NO_FALSE : ℕ := 2 ^ 32 - 1

/-- `ConditionStack`: the size of the implied stack and the position of its first false
value. -/
structure ConditionStack where
  stackSize : ℕ
  firstFalsePos : ℕ
  deriving DecidableEq, Repr

namespace ConditionStack

/-- A new `ConditionStack`: empty, with no false value. -/
def init : ConditionStack := ⟨0, NO_FALSE⟩

def empty (s : ConditionStack) : Bool := s.stackSize == 0

def allTrue (s : ConditionStack) : Bool := s.firstFalsePos == NO_FALSE

/-- `push_back`, whose `++m_stack_size` wraps at `2^32`. -/
def pushBack (s : ConditionStack) (f : Bool) : ConditionStack :=
  ⟨(s.stackSize + 1) % 2 ^ 32, if s.firstFalsePos = NO_FALSE ∧ f = false then s.stackSize else s.firstFalsePos⟩

/-- `pop_back`; `none` where its assertion `m_stack_size > 0` fails. -/
def popBack (s : ConditionStack) : Option ConditionStack :=
  if 0 < s.stackSize then
    some ⟨s.stackSize - 1, if s.firstFalsePos = s.stackSize - 1 then NO_FALSE else s.firstFalsePos⟩
  else none

/-- `toggle_top`; `none` where its assertion `m_stack_size > 0` fails. Toggling a value above
the first false one changes nothing that can be observed, so the stack is left alone. -/
def toggleTop (s : ConditionStack) : Option ConditionStack :=
  if 0 < s.stackSize then
    if s.firstFalsePos = NO_FALSE then some ⟨s.stackSize, s.stackSize - 1⟩
    else if s.firstFalsePos = s.stackSize - 1 then some ⟨s.stackSize, NO_FALSE⟩
    else some s
  else none

/-- The operations on a condition stack. -/
inductive StackOp
  | pushBack (f : Bool)
  | popBack
  | toggleTop
  deriving DecidableEq, Repr

def step (s : ConditionStack) : StackOp → Option ConditionStack
  | .pushBack f => some (s.pushBack f)
  | .popBack => s.popBack
  | .toggleTop => s.toggleTop

/-! ### The `vector<bool>` it stands for -/

/-- `vfExec.back() = !vfExec.back()` on a `vector<bool>`. -/
def toggleBack (l : List Bool) : List Bool := l.dropLast ++ l.getLast?.toList.map (!·)

/-- The operations on a `vector<bool>`. -/
def vectorStep (l : List Bool) : StackOp → List Bool
  | .pushBack f => l ++ [f]
  | .popBack => l.dropLast
  | .toggleTop => toggleBack l

/-- The operations the refinement admits on the `vector<bool>` `l`: `pop_back` and
`toggle_top` on a stack with a value, and `push_back` while the depth stays below
`NO_FALSE`. -/
def Allowed (l : List Bool) : StackOp → Prop
  | .pushBack _ => l.length + 1 < NO_FALSE
  | .popBack => l ≠ []
  | .toggleTop => l ≠ []

instance (l : List Bool) : (op : StackOp) → Decidable (Allowed l op)
  | .pushBack _ => inferInstanceAs (Decidable (_ < _))
  | .popBack => inferInstanceAs (Decidable (_ ≠ _))
  | .toggleTop => inferInstanceAs (Decidable (_ ≠ _))

/-- The index of the first false value of `l`, or `NO_FALSE` when every value is true. -/
def firstFalse (l : List Bool) : ℕ := if false ∈ l then l.idxOf false else NO_FALSE

/-- The condition stack that stands for the `vector<bool>` `l`. -/
def ofList (l : List Bool) : ConditionStack := ⟨l.length, firstFalse l⟩

theorem toggleBack_concat (l : List Bool) (b : Bool) : toggleBack (l ++ [b]) = l ++ [!b] := by
  simp [toggleBack]

theorem firstFalse_of_mem {l : List Bool} (mem : false ∈ l) : firstFalse l = l.idxOf false :=
  if_pos mem

theorem firstFalse_of_not_mem {l : List Bool} (mem : false ∉ l) : firstFalse l = NO_FALSE :=
  if_neg mem

theorem firstFalse_lt {l : List Bool} (mem : false ∈ l) : firstFalse l < l.length := by
  rw [firstFalse_of_mem mem]
  exact List.idxOf_lt_length_of_mem mem

/-- A value put on top is the first false one only when it is false and every value below is
true. -/
theorem firstFalse_concat (l : List Bool) (b : Bool) :
    firstFalse (l ++ [b]) = if false ∈ l then l.idxOf false else if b then NO_FALSE else l.length := by
  by_cases mem : false ∈ l
  · simp [firstFalse, mem, List.idxOf_append_of_mem mem]
  · cases b <;> simp [firstFalse, mem, List.idxOf_append_of_notMem mem]

theorem init_eq : init = ofList [] := rfl

theorem empty_ofList (l : List Bool) : (ofList l).empty = l.isEmpty := by
  cases l <;> simp [ofList, empty]

/-- Below `NO_FALSE` values, the first false position tells whether every value is true. -/
theorem allTrue_ofList {l : List Bool} (short : l.length < NO_FALSE) : (ofList l).allTrue = l.all id := by
  by_cases mem : false ∈ l
  · have before := firstFalse_lt mem
    have notAll : l.all id = false := by
      rw [Bool.eq_false_iff]
      intro all
      simpa using List.all_eq_true.1 all false mem
    simp only [allTrue, ofList, notAll, beq_eq_false_iff_ne]
    omega
  · have all : l.all id = true := List.all_eq_true.2 fun b member => by
      cases b
      · exact absurd member mem
      · rfl
    simp [all, allTrue, ofList, firstFalse, mem]

theorem pushBack_ofList {l : List Bool} (short : l.length + 1 < NO_FALSE) (f : Bool) :
    (ofList l).pushBack f = ofList (l ++ [f]) := by
  have small : l.length + 1 < 2 ^ 32 := by unfold NO_FALSE at short; omega
  simp only [pushBack, ofList, List.length_append, List.length_singleton, Nat.mod_eq_of_lt small,
    firstFalse_concat, ConditionStack.mk.injEq, true_and]
  by_cases mem : false ∈ l
  · -- the first false value is below the new one and stays the first
    have before := firstFalse_lt mem
    rw [firstFalse_of_mem mem] at before
    simp [mem, firstFalse_of_mem mem, show l.idxOf false ≠ NO_FALSE by omega]
  · cases f <;> simp [mem, firstFalse_of_not_mem mem]

/-- Popping the first false value leaves only true values. -/
theorem popBack_ofList {l : List Bool} (short : l.length < NO_FALSE) (b : Bool) :
    (ofList (l ++ [b])).popBack = some (ofList l) := by
  simp only [popBack, ofList, List.length_append, List.length_singleton, Nat.add_sub_cancel,
    firstFalse_concat]
  rw [if_pos (by omega)]
  by_cases mem : false ∈ l
  · have before := firstFalse_lt mem
    rw [firstFalse_of_mem mem] at before
    simp [mem, firstFalse_of_mem mem, show l.idxOf false ≠ l.length by omega]
  · cases b <;> simp [mem, firstFalse_of_not_mem mem, show NO_FALSE ≠ l.length by omega]

/-- Toggling the top makes it the first false value when every value was true, makes every
value true when it was the first false one, and is not seen otherwise. -/
theorem toggleTop_ofList {l : List Bool} (short : l.length < NO_FALSE) (b : Bool) :
    (ofList (l ++ [b])).toggleTop = some (ofList (l ++ [!b])) := by
  simp only [toggleTop, ofList, List.length_append, List.length_singleton, Nat.add_sub_cancel,
    firstFalse_concat]
  rw [if_pos (by omega)]
  by_cases mem : false ∈ l
  · have before := firstFalse_lt mem
    rw [firstFalse_of_mem mem] at before
    simp [mem, show l.idxOf false ≠ NO_FALSE by omega, show l.idxOf false ≠ l.length by omega]
  · cases b <;> simp [mem, show l.length ≠ NO_FALSE by omega]

/-- One operation the refinement admits keeps the condition stack the image of the list. -/
theorem step_ofList {l : List Bool} {op : StackOp} (short : l.length < NO_FALSE) (allowed : Allowed l op) :
    step (ofList l) op = some (ofList (vectorStep l op)) ∧ (vectorStep l op).length < NO_FALSE := by
  cases op with
  | pushBack f =>
    refine ⟨congrArg some (pushBack_ofList allowed f), ?_⟩
    simpa [vectorStep, Allowed] using allowed
  | popBack =>
    obtain ⟨l', b, rfl⟩ := (List.eq_nil_or_concat' l).resolve_left allowed
    simp only [List.length_append, List.length_singleton] at short
    refine ⟨by simpa [step, vectorStep] using popBack_ofList (by omega) b, ?_⟩
    simp only [vectorStep, List.dropLast_concat]
    omega
  | toggleTop =>
    obtain ⟨l', b, rfl⟩ := (List.eq_nil_or_concat' l).resolve_left allowed
    simp only [List.length_append, List.length_singleton] at short
    refine ⟨by simpa [step, vectorStep, toggleBack_concat] using toggleTop_ofList (by omega) b, ?_⟩
    simpa [vectorStep, toggleBack_concat] using short

/-- Every admitted run of the condition stack reaches the image of the list that the same
operations give. -/
theorem run_ofList (ops : List StackOp) (admitted : Runs.Admits Allowed vectorStep [] ops) :
    ops.foldlM step init = some (ofList (ops.foldl vectorStep [])) ∧ (ops.foldl vectorStep []).length < NO_FALSE := by
  obtain ⟨s, ran, same, short⟩ := Runs.foldlM_simulation (R := fun s l => s = ofList l ∧ l.length < NO_FALSE)
    (fun s l op related allowed => by
      obtain ⟨rfl, short⟩ := related
      exact ⟨_, (step_ofList short allowed).1, rfl, (step_ofList short allowed).2⟩)
    ops (s := init) (t := []) ⟨init_eq, by decide⟩ admitted
  subst same
  exact ⟨ran, short⟩

/-- The condition stack refines the `vector<bool>`: along every sequence of operations that
pops and toggles only a stack with a value and keeps the depth below `2^32 - 1`, after each
step `empty()` and `all_true()` tell whether the list the same operations give is empty and
whether all its values are true. -/
theorem condition_stack_refines_vector (ops : List StackOp) (admitted : Runs.Admits Allowed vectorStep [] ops)
    (n : ℕ) :
    ∃ s, (ops.take n).foldlM step init = some s ∧
      s.empty = ((ops.take n).foldl vectorStep []).isEmpty ∧
      s.allTrue = ((ops.take n).foldl vectorStep []).all id := by
  obtain ⟨ran, short⟩ := run_ofList (ops.take n) (admitted.take n)
  exact ⟨_, ran, empty_ofList _, allTrue_ofList short⟩

theorem condition_stack_refines_vector_else :
    ∃ s, ([.pushBack true, .pushBack false, .toggleTop, .pushBack false, .popBack, .toggleTop].take 5).foldlM
        step init = some s ∧
      s.empty = (([.pushBack true, .pushBack false, .toggleTop, .pushBack false, .popBack, .toggleTop].take 5).foldl
        vectorStep []).isEmpty ∧
      s.allTrue = (([.pushBack true, .pushBack false, .toggleTop, .pushBack false, .popBack, .toggleTop].take 5).foldl
        vectorStep []).all id :=
  condition_stack_refines_vector _ (by decide) 5

end ConditionStack

end Pussycoin.Script
