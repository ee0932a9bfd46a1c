import Mathlib
import Pussycoin.Script.ConditionStack

/-! The loop of `EvalScript` (`script/interpreter.cpp`) around its condition stack `vfExec`: the
checks that every instruction passes, the gate `fExec` that keeps an unexecuted branch from
running, the four conditional opcodes, the limit on the stacks, and the final check that every
`IF` was closed. The script arrives parsed by `GetOp`, whose failures and the check of the
script's size in bytes are left out; the other cases of the `switch` are the parameter
`execOther`, run on the two stacks only in an executed branch.

The loop is written once over what it asks of its condition stack, so that it runs both over the
`ConditionStack` of the code and over the `vector<bool>` that it replaced. The two interpreters
give the same result on every script whose nesting of `IF`s stays below `NO_FALSE`; the limit of
201 opcodes keeps it there for every `BASE` and `WITNESS_V0` script. -/
namespace Pussycoin.Script

open ConditionStack Runs

inductive SigVersion
  | BASE
  | WITNESS_V0
  | TAPROOT
  | TAPSCRIPT
  deriving DecidableEq, Repr

/-- The values of `ScriptError_t` that the loop raises itself. -/
inductive ScriptError
  | SCRIPT_ERR_UNBALANCED_CONDITIONAL
  | SCRIPT_ERR_PUSH_SIZE
  | SCRIPT_ERR_OP_COUNT
  | SCRIPT_ERR_STACK_SIZE
  | SCRIPT_ERR_BAD_OPCODE
  | SCRIPT_ERR_DISABLED_OPCODE
  | SCRIPT_ERR_MINIMALDATA
  | SCRIPT_ERR_MINIMALIF
  | SCRIPT_ERR_TAPSCRIPT_MINIMALIF
  | SCRIPT_ERR_OP_CODESEPARATOR
  deriving DecidableEq, Repr

/-- How `EvalScript` stops without success: `set_error` and `return false`, or a failed
`assert`. -/
inductive Failure
  | error (e : ScriptError)
  | assertion
  deriving DecidableEq, Repr

def asserted {α : Type} : Option α → Except Failure α
  | some a => .ok a
  | none => .error .assertion

@[simp] theorem asserted_eq_ok {α : Type} {o : Option α} {a : α} : asserted o = .ok a ↔ o = some a := by
  cases o <;> simp [asserted]

theorem asserted_map {α β : Type} (f : α → β) (o : Option α) : asserted (o.map f) = f <$> asserted o := by
  cases o <;> rfl

def MAX_SCRIPT_ELEMENT_SIZE : ℕ := 520
def MAX_OPS_PER_SCRIPT : ℕ := 201
def MAX_STACK_SIZE : ℕ := 1000

def SCRIPT_VERIFY_MINIMALDATA : ℕ := 1 <<< 6
def SCRIPT_VERIFY_MINIMALIF : ℕ := 1 <<< 13
def SCRIPT_VERIFY_CONST_SCRIPTCODE : ℕ := 1 <<< 16

def OP_0 : UInt8 := 0x00
def OP_PUSHDATA1 : UInt8 := 0x4c
def OP_PUSHDATA2 : UInt8 := 0x4d
def OP_PUSHDATA4 : UInt8 := 0x4e
def OP_16 : UInt8 := 0x60
def OP_IF : UInt8 := 0x63
def OP_NOTIF : UInt8 := 0x64
def OP_ELSE : UInt8 := 0x67
def OP_ENDIF : UInt8 := 0x68
def OP_CODESEPARATOR : UInt8 := 0xab

/-- The opcodes disabled since CVE-2010-5137: `OP_CAT`, `OP_SUBSTR`, `OP_LEFT`, `OP_RIGHT`,
`OP_INVERT`, `OP_AND`, `OP_OR`, `OP_XOR`, `OP_2MUL`, `OP_2DIV`, `OP_MUL`, `OP_DIV`, `OP_MOD`,
`OP_LSHIFT` and `OP_RSHIFT`. -/
def disabledOpcodes : List UInt8 :=
  [0x7e, 0x7f, 0x80, 0x81, 0x83, 0x84, 0x85, 0x86, 0x8d, 0x8e, 0x95, 0x96, 0x97, 0x98, 0x99]

/-- An instruction as `CScript::GetOp` reads it: its opcode and the data it pushes. -/
structure Instr where
  opcode : UInt8
  pushValue : List UInt8
  deriving DecidableEq, Repr

/-- `CastToBool`: false when every byte is zero, the last one possibly with its sign bit. -/
def castToBool : List UInt8 → Bool
  | [] => false
  | b :: rest => if b ≠ 0 then (if rest = [] ∧ b = 0x80 then false else true) else castToBool rest

/-- `CheckMinimalPush`, for a push opcode: the data is pushed by the shortest opcode that can. -/
def checkMinimalPush (data : List UInt8) (opcode : UInt8) : Bool :=
  if data.length = 0 then opcode == OP_0
  else if data.length = 1 ∧ 1 ≤ data.headD 0 ∧ data.headD 0 ≤ 16 then false
  else if data.length = 1 ∧ data.headD 0 = 0x81 then false
  else if data.length ≤ 75 then opcode.toNat == data.length
  else if data.length ≤ 255 then opcode == OP_PUSHDATA1
  else if data.length ≤ 65535 then opcode == OP_PUSHDATA2
  else true

/-- What `EvalScript` asks of its condition stack. -/
structure CondStack (κ : Type) where
  empty : κ → Bool
  allTrue : κ → Bool
  step : κ → StackOp → Option κ

/-- The `ConditionStack` of the code. -/
def ConditionStack.ops : CondStack ConditionStack :=
  ⟨ConditionStack.empty, ConditionStack.allTrue, ConditionStack.step⟩

/-- The `vector<bool>` it replaced, whose `all_true` looks for a false value. -/
def vectorOps : CondStack (List Bool) :=
  ⟨List.isEmpty, fun l => l.all id, fun l op => some (vectorStep l op)⟩

@[simp] theorem ConditionStack.ops_empty (k : ConditionStack) : ConditionStack.ops.empty k = k.empty := rfl

@[simp] theorem vectorOps_empty (l : List Bool) : vectorOps.empty l = l.isEmpty := rfl

/-- The locals of `EvalScript` that its loop changes. -/
structure EvalState (κ : Type) where
  stack : List (List UInt8)
  altstack : List (List UInt8)
  vfExec : κ
  nOpCount : ℕ

/-- The cases of the `switch` other than the conditional ones, on the stack and the altstack. -/
abbrev ExecOther := Instr → List (List UInt8) → List (List UInt8) →
  Except Failure (List (List UInt8) × List (List UInt8))

section Eval

variable {κ : Type} (ops : CondStack κ) (sigversion : SigVersion) (flags : ℕ) (execOther : ExecOther)

/-- The value `OP_IF` (or `OP_NOTIF`, when `notIf`) takes from the top of the stack, which must
be minimal under Tapscript and, under `SCRIPT_VERIFY_MINIMALIF`, in witness v0 scripts; with the
stack it leaves. -/
def popCondition (notIf : Bool) (stack : List (List UInt8)) : Except Failure (Bool × List (List UInt8)) := do
  let some vch := stack.getLast? | throw (.error .SCRIPT_ERR_UNBALANCED_CONDITIONAL)
  rejectIf (sigversion = .TAPSCRIPT ∧ (1 < vch.length ∨ (vch.length = 1 ∧ vch.headD 0 ≠ 1)))
    (.error .SCRIPT_ERR_TAPSCRIPT_MINIMALIF)
  if sigversion = .WITNESS_V0 ∧ flags &&& SCRIPT_VERIFY_MINIMALIF ≠ 0 then
    rejectIf (1 < vch.length) (.error .SCRIPT_ERR_MINIMALIF)
    rejectIf (vch.length = 1 ∧ vch.headD 0 ≠ 1) (.error .SCRIPT_ERR_MINIMALIF)
  let fValue := castToBool vch
  pure (if notIf then !fValue else fValue, stack.dropLast)

/-- `OP_IF` and `OP_NOTIF`: a new branch, which runs when the condition holds in an executed
branch and never inside an unexecuted one. -/
def opIf (notIf fExec : Bool) (s : EvalState κ) : Except Failure (EvalState κ) := do
  let (fValue, stack) ← if fExec then popCondition sigversion flags notIf s.stack else pure (false, s.stack)
  let vfExec ← asserted (ops.step s.vfExec (.pushBack fValue))
  pure { s with stack, vfExec }

/-- `OP_ELSE` and `OP_ENDIF`: `op` on the condition stack, which must hold a branch. -/
def changeBranch (op : StackOp) (s : EvalState κ) : Except Failure (EvalState κ) := do
  rejectIf (ops.empty s.vfExec) (.error .SCRIPT_ERR_UNBALANCED_CONDITIONAL)
  let vfExec ← asserted (ops.step s.vfExec op)
  pure { s with vfExec }

/-- The `switch` on the opcode; `OP_VERIF` and `OP_VERNOTIF`, between `OP_IF` and `OP_ENDIF`,
reach its `default`. -/
def evalSwitch (fExec : Bool) (instr : Instr) (s : EvalState κ) : Except Failure (EvalState κ) :=
  if instr.opcode = OP_IF then opIf ops sigversion flags false fExec s
  else if instr.opcode = OP_NOTIF then opIf ops sigversion flags true fExec s
  else if instr.opcode = OP_ELSE then changeBranch ops .toggleTop s
  else if instr.opcode = OP_ENDIF then changeBranch ops .popBack s
  else if OP_IF ≤ instr.opcode ∧ instr.opcode ≤ OP_ENDIF then throw (.error .SCRIPT_ERR_BAD_OPCODE)
  else do
    let (stack, altstack) ← execOther instr s.stack s.altstack
    pure { s with stack, altstack }

/-- `opcode > OP_16 && ++nOpCount > MAX_OPS_PER_SCRIPT`, counted in `BASE` and `WITNESS_V0`
scripts only. -/
def countOp (nOpCount : ℕ) (instr : Instr) : Except Failure ℕ :=
  if (sigversion = .BASE ∨ sigversion = .WITNESS_V0) ∧ OP_16 < instr.opcode then do
    rejectIf (MAX_OPS_PER_SCRIPT < nOpCount + 1) (.error .SCRIPT_ERR_OP_COUNT)
    pure (nOpCount + 1)
  else pure nOpCount

/-- The checks that every instruction passes, executed or not; they give the new op count. -/
def checkInstr (nOpCount : ℕ) (instr : Instr) : Except Failure ℕ := do
  rejectIf (MAX_SCRIPT_ELEMENT_SIZE < instr.pushValue.length) (.error .SCRIPT_ERR_PUSH_SIZE)
  let nOpCount ← countOp sigversion nOpCount instr
  rejectIf (instr.opcode ∈ disabledOpcodes) (.error .SCRIPT_ERR_DISABLED_OPCODE)
  rejectIf (instr.opcode = OP_CODESEPARATOR ∧ sigversion = .BASE ∧ flags &&& SCRIPT_VERIFY_CONST_SCRIPTCODE ≠ 0)
    (.error .SCRIPT_ERR_OP_CODESEPARATOR)
  pure nOpCount

/-- What an instruction does: a push in an executed branch, the `switch` in an executed branch
or for a conditional opcode, and nothing otherwise. -/
def execInstr (fExec : Bool) (instr : Instr) (s : EvalState κ) : Except Failure (EvalState κ) :=
  if fExec ∧ instr.opcode ≤ OP_PUSHDATA4 then do
    rejectIf (flags &&& SCRIPT_VERIFY_MINIMALDATA ≠ 0 ∧ !checkMinimalPush instr.pushValue instr.opcode)
      (.error .SCRIPT_ERR_MINIMALDATA)
    pure { s with stack := s.stack ++ [instr.pushValue] }
  else if fExec ∨ (OP_IF ≤ instr.opcode ∧ instr.opcode ≤ OP_ENDIF) then
    evalSwitch ops sigversion flags execOther fExec instr s
  else pure s

/-- One pass of the loop of `EvalScript`. -/
def evalStep (s : EvalState κ) (instr : Instr) : Except Failure (EvalState κ) := do
  let fExec := ops.allTrue s.vfExec
  let nOpCount ← checkInstr sigversion flags s.nOpCount instr
  let s ← execInstr ops sigversion flags execOther fExec instr { s with nOpCount }
  rejectIf (MAX_STACK_SIZE < s.stack.length + s.altstack.length) (.error .SCRIPT_ERR_STACK_SIZE)
  pure s

/-- `EvalScript` from the empty condition stack `init`: the stack it leaves. -/
def evalScript (init : κ) (stack : List (List UInt8)) (script : List Instr) :
    Except Failure (List (List UInt8)) := do
  rejectIf (¬(sigversion = .BASE ∨ sigversion = .WITNESS_V0 ∨ sigversion = .TAPSCRIPT)) .assertion
  let s ← script.foldlM (evalStep ops sigversion flags execOther) ⟨stack, [], init, 0⟩
  rejectIf (!ops.empty s.vfExec) (.error .SCRIPT_ERR_UNBALANCED_CONDITIONAL)
  pure s.stack

end Eval

example : evalScript ConditionStack.ops .BASE 0 (fun _ stack altstack => .ok (stack, altstack)) ConditionStack.init []
    [⟨1, [0]⟩, ⟨OP_IF, []⟩, ⟨1, [7]⟩, ⟨OP_ELSE, []⟩, ⟨1, [9]⟩, ⟨OP_ENDIF, []⟩] = .ok [[9]] := by
  decide

/-! ### The loop over two condition stacks -/

/-- The operations `EvalScript` applies to a condition stack: a push at any time, a pop or a
toggle only once `empty()` has said no. -/
def Guarded (empty : Bool) : StackOp → Prop
  | .pushBack _ => True
  | .popBack => empty = false
  | .toggleTop => empty = false

namespace EvalState

variable {κ κ' : Type}

/-- The same locals over another condition stack. -/
def map (f : κ → κ') (s : EvalState κ) : EvalState κ' := ⟨s.stack, s.altstack, f s.vfExec, s.nOpCount⟩

@[simp] theorem map_stack (f : κ → κ') (s : EvalState κ) : (s.map f).stack = s.stack := rfl
@[simp] theorem map_altstack (f : κ → κ') (s : EvalState κ) : (s.map f).altstack = s.altstack := rfl
@[simp] theorem map_vfExec (f : κ → κ') (s : EvalState κ) : (s.map f).vfExec = f s.vfExec := rfl
@[simp] theorem map_nOpCount (f : κ → κ') (s : EvalState κ) : (s.map f).nOpCount = s.nOpCount := rfl

end EvalState

/-- `f` carries the condition stack `k` of `ops₂` to one of `ops₁` that answers alike, and the
result of every operation `EvalScript` may apply to `k` to the result of the same operation. -/
structure Commutes {κ₁ κ₂ : Type} (ops₁ : CondStack κ₁) (ops₂ : CondStack κ₂) (f : κ₂ → κ₁) (k : κ₂) :
    Prop where
  empty : ops₁.empty (f k) = ops₂.empty k
  allTrue : ops₁.allTrue (f k) = ops₂.allTrue k
  step : ∀ op, Guarded (ops₂.empty k) op → ops₁.step (f k) op = (ops₂.step k op).map f

section Commute

variable {κ₁ κ₂ : Type} {ops₁ : CondStack κ₁} {ops₂ : CondStack κ₂} {f : κ₂ → κ₁} {s : EvalState κ₂}
  (sigversion : SigVersion) (flags : ℕ) (execOther : ExecOther)

theorem opIf_map (commutes : Commutes ops₁ ops₂ f s.vfExec) (notIf fExec : Bool) :
    opIf ops₁ sigversion flags notIf fExec (s.map f) =
      EvalState.map f <$> opIf ops₂ sigversion flags notIf fExec s := by
  have push : ∀ b, ops₁.step (f s.vfExec) (.pushBack b) = (ops₂.step s.vfExec (.pushBack b)).map f :=
    fun b => commutes.step _ trivial
  -- both sides take the same value off the stack; only the pushed stack differs
  cases fExec <;>
    simp only [opIf, EvalState.map_stack, EvalState.map_vfExec, push, asserted_map, map_bind, bind_map_left,
      map_pure, Bool.false_eq_true, if_false, if_true] <;> rfl

theorem changeBranch_map (commutes : Commutes ops₁ ops₂ f s.vfExec) (op : StackOp)
    (guarded : ops₂.empty s.vfExec = false → Guarded (ops₂.empty s.vfExec) op) :
    changeBranch ops₁ op (s.map f) = EvalState.map f <$> changeBranch ops₂ op s := by
  simp only [changeBranch, EvalState.map_vfExec, commutes.empty]
  cases empty : ops₂.empty s.vfExec with
  | true => rfl
  | false =>
    simp only [commutes.step op (guarded empty), asserted_map, map_bind, bind_map_left, map_pure]
    rfl

theorem evalSwitch_map (commutes : Commutes ops₁ ops₂ f s.vfExec) (fExec : Bool) (instr : Instr) :
    evalSwitch ops₁ sigversion flags execOther fExec instr (s.map f) =
      EvalState.map f <$> evalSwitch ops₂ sigversion flags execOther fExec instr s := by
  unfold evalSwitch
  split_ifs with opIf opNotIf opElse opEndif inside
  · exact opIf_map sigversion flags commutes false fExec
  · exact opIf_map sigversion flags commutes true fExec
  · exact changeBranch_map commutes .toggleTop id
  · exact changeBranch_map commutes .popBack id
  · rfl
  · simp only [EvalState.map_stack, EvalState.map_altstack, map_bind, map_pure]
    rfl

theorem execInstr_map (commutes : Commutes ops₁ ops₂ f s.vfExec) (fExec : Bool) (instr : Instr) :
    execInstr ops₁ sigversion flags execOther fExec instr (s.map f) =
      EvalState.map f <$> execInstr ops₂ sigversion flags execOther fExec instr s := by
  unfold execInstr
  split_ifs with push switch
  · simp only [map_bind, map_pure]
    rfl
  · exact evalSwitch_map sigversion flags execOther commutes fExec instr
  · rfl

/-- One pass of the loop commutes with `f`. -/
theorem evalStep_map (commutes : Commutes ops₁ ops₂ f s.vfExec) (instr : Instr) :
    evalStep ops₁ sigversion flags execOther (s.map f) instr =
      EvalState.map f <$> evalStep ops₂ sigversion flags execOther s instr := by
  have counted : ∀ n, execInstr ops₁ sigversion flags execOther (ops₂.allTrue s.vfExec) instr
      ⟨s.stack, s.altstack, f s.vfExec, n⟩ =
      EvalState.map f <$> execInstr ops₂ sigversion flags execOther (ops₂.allTrue s.vfExec) instr
        { s with nOpCount := n } :=
    fun n => execInstr_map (s := { s with nOpCount := n }) sigversion flags execOther commutes _ instr
  simp only [evalStep, EvalState.map_vfExec, EvalState.map_nOpCount, commutes.allTrue]
  simp only [counted, map_bind, bind_map_left, EvalState.map_stack, EvalState.map_altstack, map_pure]
  rfl

end Commute

/-! ### What one pass of the loop can do -/

/-- What an instruction that succeeds does to a condition stack: `OP_IF` and `OP_NOTIF` push a
branch, `OP_ELSE` toggles and `OP_ENDIF` pops a stack that holds one, and every other opcode,
which lies outside `OP_IF` to `OP_ENDIF`, leaves it alone. -/
inductive Moves {κ : Type} (ops : CondStack κ) (instr : Instr) (k : κ) : κ → Prop
  | push {b : Bool} {k' : κ} : instr.opcode = OP_IF ∨ instr.opcode = OP_NOTIF →
      ops.step k (.pushBack b) = some k' → Moves ops instr k k'
  | toggle {k' : κ} : instr.opcode = OP_ELSE → ops.empty k = false → ops.step k .toggleTop = some k' →
      Moves ops instr k k'
  | pop {k' : κ} : instr.opcode = OP_ENDIF → ops.empty k = false → ops.step k .popBack = some k' →
      Moves ops instr k k'
  | stay : instr.opcode < OP_IF ∨ OP_ENDIF < instr.opcode → Moves ops instr k k

theorem outside_of_not_inside {op a b : UInt8} (outside : ¬(a ≤ op ∧ op ≤ b)) : op < a ∨ b < op := by
  simp only [UInt8.le_iff_toNat_le, UInt8.lt_iff_toNat_lt] at *
  omega

theorem lt_if_of_le_pushdata4 {op : UInt8} (push : op ≤ OP_PUSHDATA4) : op < OP_IF := by
  simp only [OP_PUSHDATA4, OP_IF, UInt8.le_iff_toNat_le, UInt8.lt_iff_toNat_lt] at *
  simp only [UInt8.reduceToNat] at *
  omega

section Inversion

variable {κ : Type} {ops : CondStack κ} {sigversion : SigVersion} {flags : ℕ} {execOther : ExecOther}
  {s s' : EvalState κ}

theorem opIf_eq_ok {notIf fExec : Bool} (ran : opIf ops sigversion flags notIf fExec s = .ok s') :
    s'.nOpCount = s.nOpCount ∧ ∃ b, ops.step s.vfExec (.pushBack b) = some s'.vfExec := by
  -- the value comes off the stack in an executed branch and is false otherwise; either way it is pushed
  unfold opIf at ran
  split_ifs at ran <;>
  · simp only [bind_eq_ok, asserted_eq_ok, pure_eq_ok] at ran
    obtain ⟨condition, -, k, stepped, rfl⟩ := ran
    exact ⟨rfl, condition.1, stepped⟩

theorem changeBranch_eq_ok {op : StackOp} (ran : changeBranch ops op s = .ok s') :
    s'.nOpCount = s.nOpCount ∧ ops.empty s.vfExec = false ∧ ops.step s.vfExec op = some s'.vfExec := by
  simp only [changeBranch, bind_eq_ok, rejectIf_eq_ok, asserted_eq_ok, pure_eq_ok] at ran
  obtain ⟨⟨⟩, held, k, stepped, rfl⟩ := ran
  exact ⟨rfl, by simpa using held, stepped⟩

theorem evalSwitch_eq_ok {fExec : Bool} {instr : Instr}
    (ran : evalSwitch ops sigversion flags execOther fExec instr s = .ok s') :
    s'.nOpCount = s.nOpCount ∧ Moves ops instr s.vfExec s'.vfExec := by
  unfold evalSwitch at ran
  split_ifs at ran with opIf opNotIf opElse opEndif inside
  · obtain ⟨same, b, pushed⟩ := opIf_eq_ok ran
    exact ⟨same, .push (.inl opIf) pushed⟩
  · obtain ⟨same, b, pushed⟩ := opIf_eq_ok ran
    exact ⟨same, .push (.inr opNotIf) pushed⟩
  · obtain ⟨same, held, toggled⟩ := changeBranch_eq_ok ran
    exact ⟨same, .toggle opElse held toggled⟩
  · obtain ⟨same, held, popped⟩ := changeBranch_eq_ok ran
    exact ⟨same, .pop opEndif held popped⟩
  · simp only [bind_eq_ok, pure_eq_ok] at ran
    obtain ⟨⟨stack, altstack⟩, -, rfl⟩ := ran
    exact ⟨rfl, .stay (outside_of_not_inside inside)⟩

theorem execInstr_eq_ok {fExec : Bool} {instr : Instr}
    (ran : execInstr ops sigversion flags execOther fExec instr s = .ok s') :
    s'.nOpCount = s.nOpCount ∧ Moves ops instr s.vfExec s'.vfExec := by
  unfold execInstr at ran
  split_ifs at ran with push switch
  · simp only [bind_eq_ok, rejectIf_eq_ok, pure_eq_ok] at ran
    obtain ⟨⟨⟩, -, rfl⟩ := ran
    exact ⟨rfl, .stay (.inl (lt_if_of_le_pushdata4 push.2))⟩
  · exact evalSwitch_eq_ok ran
  · cases ran
    exact ⟨rfl, .stay (outside_of_not_inside fun inside => switch (.inr inside))⟩

/-- The op count goes up by one for each opcode above `OP_16` in a `BASE` or `WITNESS_V0`
script, and never past `MAX_OPS_PER_SCRIPT`. -/
theorem countOp_eq_ok {n n' : ℕ} {instr : Instr} (ran : countOp sigversion n instr = .ok n') :
    n' = (if (sigversion = .BASE ∨ sigversion = .WITNESS_V0) ∧ OP_16 < instr.opcode then n + 1 else n) ∧
      ((sigversion = .BASE ∨ sigversion = .WITNESS_V0) ∧ OP_16 < instr.opcode → n + 1 ≤ MAX_OPS_PER_SCRIPT) := by
  unfold countOp at ran
  split_ifs at ran with counted
  · simp only [bind_eq_ok, rejectIf_eq_ok, pure_eq_ok, not_lt] at ran
    obtain ⟨⟨⟩, within, rfl⟩ := ran
    exact ⟨(if_pos counted).symm, fun _ => within⟩
  · cases ran
    exact ⟨(if_neg counted).symm, fun holds => absurd holds counted⟩

theorem checkInstr_eq_ok {n n' : ℕ} {instr : Instr} (ran : checkInstr sigversion flags n instr = .ok n') :
    countOp sigversion n instr = .ok n' := by
  simp only [checkInstr, bind_eq_ok, rejectIf_eq_ok, pure_eq_ok] at ran
  obtain ⟨⟨⟩, -, count, counted, ⟨⟩, -, ⟨⟩, -, rfl⟩ := ran
  exact counted

/-- What one pass of the loop does to the op count and the condition stack. -/
theorem evalStep_eq_ok {instr : Instr} (ran : evalStep ops sigversion flags execOther s instr = .ok s') :
    checkInstr sigversion flags s.nOpCount instr = .ok s'.nOpCount ∧ Moves ops instr s.vfExec s'.vfExec := by
  simp only [evalStep, bind_eq_ok, rejectIf_eq_ok, pure_eq_ok] at ran
  obtain ⟨n, checked, s'', executed, ⟨⟩, -, rfl⟩ := ran
  obtain ⟨same, moved⟩ := execInstr_eq_ok executed
  exact ⟨same ▸ checked, moved⟩

end Inversion

/-! ### `ConditionStack` in place of `vector<bool>` -/

theorem length_toggleBack (l : List Bool) : (toggleBack l).length = l.length := by
  rcases List.eq_nil_or_concat' l with rfl | ⟨l', b, rfl⟩
  · rfl
  · simp [toggleBack_concat]

/-- Below `NO_FALSE`, the condition stack of a vector answers as the vector does, and every
operation `EvalScript` may apply keeps it the condition stack of the vector. -/
theorem commutes_ofList {l : List Bool} (short : l.length + 1 < NO_FALSE) :
    Commutes ConditionStack.ops vectorOps ofList l where
  empty := empty_ofList l
  allTrue := allTrue_ofList (by omega)
  step op guarded := by
    have allowed : Allowed l op := by
      cases op with
      | pushBack b => exact short
      | popBack => simpa [vectorOps, Guarded, Allowed] using guarded
      | toggleTop => simpa [vectorOps, Guarded, Allowed] using guarded
    exact (step_ofList (by omega) allowed).1

/-- An instruction changes the depth of the vector by one at most, and deepens it only by
`OP_IF` or `OP_NOTIF`. -/
theorem Moves.length_le {instr : Instr} {l l' : List Bool} (moved : Moves vectorOps instr l l') :
    l'.length ≤ l.length + 1 ∧ (l.length < l'.length → instr.opcode = OP_IF ∨ instr.opcode = OP_NOTIF) := by
  cases moved with
  | push opens pushed =>
    cases pushed
    exact ⟨by simp [vectorStep], fun _ => opens⟩
  | toggle _ _ toggled =>
    cases toggled
    simp [vectorStep, length_toggleBack]
  | pop _ _ popped =>
    cases popped
    simp only [vectorStep, List.length_dropLast]
    omega
  | stay _ => omega

section Refinement

variable (sigversion : SigVersion) (flags : ℕ) (execOther : ExecOther)

/-- In `BASE` and `WITNESS_V0` scripts every `IF` is counted, so the depth of the vector stays
below the op count, which stays within `MAX_OPS_PER_SCRIPT`. -/
theorem evalStep_depth_le_nOpCount (legacy : sigversion = .BASE ∨ sigversion = .WITNESS_V0)
    {t t' : EvalState (List Bool)} {instr : Instr}
    (bounded : t.vfExec.length ≤ t.nOpCount ∧ t.nOpCount ≤ MAX_OPS_PER_SCRIPT)
    (ran : evalStep vectorOps sigversion flags execOther t instr = .ok t') :
    t'.vfExec.length ≤ t'.nOpCount ∧ t'.nOpCount ≤ MAX_OPS_PER_SCRIPT := by
  obtain ⟨checked, moved⟩ := evalStep_eq_ok ran
  obtain ⟨count, within⟩ := countOp_eq_ok (checkInstr_eq_ok checked)
  obtain ⟨deeper, opens⟩ := moved.length_le
  by_cases counted : (sigversion = .BASE ∨ sigversion = .WITNESS_V0) ∧ OP_16 < instr.opcode
  · rw [if_pos counted] at count
    have := within counted
    omega
  · -- an uncounted opcode is not an `IF`, so it leaves the depth alone
    rw [if_neg counted] at count
    have level : t'.vfExec.length ≤ t.vfExec.length := by
      by_contra deepened
      have above : OP_16 < instr.opcode := by
        rcases opens (by omega) with opcode | opcode <;> rw [opcode] <;> decide
      exact counted ⟨legacy, above⟩
    omega

/-- A script of `n` more instructions deepens the vector by `n` at most. -/
theorem evalStep_depth_budget {n : ℕ} {t t' : EvalState (List Bool)} {instr : Instr}
    (room : t.vfExec.length + (n + 1) < NO_FALSE)
    (ran : evalStep vectorOps sigversion flags execOther t instr = .ok t') :
    t'.vfExec.length + n < NO_FALSE := by
  have := (evalStep_eq_ok ran).2.length_le.1
  omega

/-- `EvalScript` over the `ConditionStack` gives what it gave over the `vector<bool>` on every
`BASE` and `WITNESS_V0` script, and on every other script of fewer than `NO_FALSE`
instructions: the same stack, or the same error, and never a failed assertion of the
condition stack. -/
theorem evalScript_conditionStack (stack : List (List UInt8)) (script : List Instr)
    (bounded : sigversion = .BASE ∨ sigversion = .WITNESS_V0 ∨ script.length < NO_FALSE) :
    evalScript ConditionStack.ops sigversion flags execOther ConditionStack.init stack script =
      evalScript vectorOps sigversion flags execOther [] stack script := by
  have start : (⟨stack, [], ConditionStack.init, 0⟩ : EvalState ConditionStack) =
      (⟨stack, [], [], 0⟩ : EvalState (List Bool)).map ofList := rfl
  -- the loops agree under either bound on the depth: the op count, or the instructions left
  have loops : script.foldlM (evalStep ConditionStack.ops sigversion flags execOther) ⟨stack, [], init, 0⟩ =
      EvalState.map ofList <$> script.foldlM (evalStep vectorOps sigversion flags execOther) ⟨stack, [], [], 0⟩ := by
    rw [start]
    by_cases legacy : sigversion = .BASE ∨ sigversion = .WITNESS_V0
    · exact foldlM_map (fun _ t => t.vfExec.length ≤ t.nOpCount ∧ t.nOpCount ≤ MAX_OPS_PER_SCRIPT)
        (fun _ t instr bounded => evalStep_map sigversion flags execOther
          (commutes_ofList (by unfold NO_FALSE MAX_OPS_PER_SCRIPT at *; omega)) instr)
        (fun _ _ _ _ bounded ran => evalStep_depth_le_nOpCount sigversion flags execOther legacy bounded ran)
        script (by simp [MAX_OPS_PER_SCRIPT])
    · have short : script.length < NO_FALSE := by tauto
      exact foldlM_map (fun n t => t.vfExec.length + n < NO_FALSE)
        (fun n t instr room => evalStep_map sigversion flags execOther (commutes_ofList (by omega)) instr)
        (fun _ _ _ _ room ran => evalStep_depth_budget sigversion flags execOther room ran)
        script (by simpa using short)
  simp only [evalScript, loops, bind_map_left, EvalState.map_vfExec, EvalState.map_stack,
    ConditionStack.ops_empty, empty_ofList, vectorOps_empty]
  rfl

/-! ### Accepted scripts close every `IF` -/

/-- The number of `IF`s that the conditional opcodes of `script` leave open when `depth` were
open before it; `none` when an `OP_ELSE` or an `OP_ENDIF` finds none open. -/
def conditionDepth : ℕ → List Instr → Option ℕ
  | depth, [] => some depth
  | depth, instr :: rest =>
    if instr.opcode = OP_IF ∨ instr.opcode = OP_NOTIF then conditionDepth (depth + 1) rest
    else if instr.opcode = OP_ELSE then (if depth = 0 then none else conditionDepth depth rest)
    else if instr.opcode = OP_ENDIF then (if depth = 0 then none else conditionDepth (depth - 1) rest)
    else conditionDepth depth rest

/-- The vector holds one value for each `IF` that is open. -/
theorem Moves.conditionDepth_cons {instr : Instr} {l l' : List Bool} (moved : Moves vectorOps instr l l')
    (rest : List Instr) : conditionDepth l.length (instr :: rest) = conditionDepth l'.length rest := by
  cases moved with
  | push opens pushed =>
    cases pushed
    simp [conditionDepth, opens, vectorStep]
  | toggle opElse held toggled =>
    cases toggled
    have open_ : l.length ≠ 0 := by simpa [vectorOps] using held
    simp [conditionDepth, opElse, open_, vectorStep, length_toggleBack, OP_ELSE, OP_IF, OP_NOTIF]
  | pop opEndif held popped =>
    cases popped
    have open_ : l.length ≠ 0 := by simpa [vectorOps] using held
    simp [conditionDepth, opEndif, open_, vectorStep, OP_ENDIF, OP_ELSE, OP_IF, OP_NOTIF]
  | stay outside =>
    have other : instr.opcode ≠ OP_IF ∧ instr.opcode ≠ OP_NOTIF ∧ instr.opcode ≠ OP_ELSE ∧
        instr.opcode ≠ OP_ENDIF := by
      refine ⟨?_, ?_, ?_, ?_⟩ <;> intro same <;> rw [same] at outside <;> revert outside <;> decide
    simp [conditionDepth, other]

theorem foldlM_conditionDepth : ∀ (script : List Instr) {t t' : EvalState (List Bool)},
    script.foldlM (evalStep vectorOps sigversion flags execOther) t = .ok t' →
      conditionDepth t.vfExec.length script = some t'.vfExec.length
  | [], _, _, ran => by
    cases ran
    rfl
  | instr :: rest, t, t', ran => by
    simp only [List.foldlM_cons, bind_eq_ok] at ran
    obtain ⟨t₁, stepped, later⟩ := ran
    rw [(evalStep_eq_ok stepped).2.conditionDepth_cons]
    exact foldlM_conditionDepth rest later

/-- A script that `EvalScript` accepts closes every `IF` and `NOTIF` it opens and has no `ELSE`
or `ENDIF` outside one, for every `BASE` and `WITNESS_V0` script and every other script of fewer
than `NO_FALSE` instructions. -/
theorem evalScript_balanced (stack result : List (List UInt8)) (script : List Instr)
    (bounded : sigversion = .BASE ∨ sigversion = .WITNESS_V0 ∨ script.length < NO_FALSE)
    (accepted : evalScript ConditionStack.ops sigversion flags execOther ConditionStack.init stack script =
      .ok result) :
    conditionDepth 0 script = some 0 := by
  rw [evalScript_conditionStack sigversion flags execOther stack script bounded] at accepted
  simp only [evalScript, bind_eq_ok, rejectIf_eq_ok, pure_eq_ok, vectorOps_empty] at accepted
  obtain ⟨⟨⟩, -, t, ran, ⟨⟩, closed, -⟩ := accepted
  have empty : t.vfExec = [] := by simpa using closed
  simpa [empty] using foldlM_conditionDepth sigversion flags execOther script ran

end Refinement

end Pussycoin.Script
