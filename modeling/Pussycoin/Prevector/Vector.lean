import Pussycoin.Prevector.Prevector

/-! The calls a program makes on prevectors held in variables of a type `ι`, run on prevectors
and, in parallel, on `std::vector`s as the standard describes them: a vector is its list of
elements. A vector moved from is left in a valid but unspecified state, so a step of the vectors is
a relation that leaves the moved-from variable free. `Valid` is what the standard asks of a call
(positions in range, a nonempty vector for `pop_back`), together with the sizes prevector's
`size_type` can hold: every size a call leads to fits `N + 1 + n + n / 2 < 2^32`, and an inserted
range is shorter than 2^31. -/
namespace Pussycoin

inductive VectorOp (ι T : Type) where
  | construct (x : ι)
  | constructSize (x : ι) (n : ℕ)
  | constructFill (x : ι) (n : ℕ) (val : T)
  | constructRange (x : ι) (range : List T)
  | constructCopy (x y : ι)
  | constructMove (x y : ι)
  | assign (x : ι) (n : ℕ) (val : T)
  | assignRange (x : ι) (range : List T)
  | copyAssign (x y : ι)
  | moveAssign (x y : ι)
  | resize (x : ι) (n : ℕ)
  /-- `resize_uninitialized(n)`, then a write to each new slot in order. -/
  | resizeUninitialized (x : ι) (n : ℕ) (writes : List T)
  | reserve (x : ι) (n : ℕ)
  | shrinkToFit (x : ι)
  | clear (x : ι)
  | insert (x : ι) (pos : ℕ) (val : T)
  | insertFill (x : ι) (pos count : ℕ) (val : T)
  | insertRange (x : ι) (pos : ℕ) (range : List T)
  | erase (x : ι) (pos : ℕ)
  | eraseRange (x : ι) (first last : ℕ)
  | pushBack (x : ι) (val : T)
  | emplaceBack (x : ι) (val : T)
  | popBack (x : ι)
  | swap (x y : ι)

/-- A size `size_type` holds with room for the growth of the inserting members. -/
def Fits (N n : ℕ) : Prop := N + 1 + n + n / 2 < 2 ^ 32

instance (N n : ℕ) : Decidable (Fits N n) := inferInstanceAs (Decidable (_ < _))

namespace VectorOp

variable {ι T : Type}

/-! ### `std::vector` -/

/-- `resize(n)` of a vector: value-initialised elements at the end. -/
def vresize [Inhabited T] (l : List T) (n : ℕ) : List T :=
  if n ≤ l.length then l.take n else l ++ List.replicate (n - l.length) default

/-- `resize_uninitialized(n)` followed by the writes: the kept elements, or the old ones and the
written ones. -/
def vresizeUninitialized (l : List T) (n : ℕ) (writes : List T) : List T :=
  if n ≤ l.length then l.take n else l ++ writes

/-- The variables of `std::vector` after a call, the moved-from one taken to be left unchanged. -/
def vexec [DecidableEq ι] [Inhabited T] (v : ι → List T) : VectorOp ι T → ι → List T
  | .construct x => Function.update v x []
  | .constructSize x n => Function.update v x (List.replicate n default)
  | .constructFill x n val => Function.update v x (List.replicate n val)
  | .constructRange x range => Function.update v x range
  | .constructCopy x y => Function.update v x (v y)
  | .constructMove x y => Function.update v x (v y)
  | .assign x n val => Function.update v x (List.replicate n val)
  | .assignRange x range => Function.update v x range
  | .copyAssign x y => Function.update v x (v y)
  | .moveAssign x y => Function.update v x (v y)
  | .resize x n => Function.update v x (vresize (v x) n)
  | .resizeUninitialized x n writes => Function.update v x (vresizeUninitialized (v x) n writes)
  | .reserve _ _ => v
  | .shrinkToFit _ => v
  | .clear x => Function.update v x []
  | .insert x pos val => Function.update v x ((v x).insertIdx pos val)
  | .insertFill x pos count val =>
    Function.update v x ((v x).take pos ++ List.replicate count val ++ (v x).drop pos)
  | .insertRange x pos range => Function.update v x ((v x).take pos ++ range ++ (v x).drop pos)
  | .erase x pos => Function.update v x ((v x).eraseIdx pos)
  | .eraseRange x first last => Function.update v x ((v x).take first ++ (v x).drop last)
  | .pushBack x val => Function.update v x (v x ++ [val])
  | .emplaceBack x val => Function.update v x (v x ++ [val])
  | .popBack x => Function.update v x (v x).dropLast
  | .swap x y => Function.update (Function.update v x (v y)) y (v x)

/-- The variable a call moves from. -/
def movedFrom : VectorOp ι T → Option ι
  | .constructMove _ y => some y
  | .moveAssign _ y => some y
  | _ => none

/-- A step of the vectors: every variable but the moved-from one is as `vexec` gives it. -/
def VecStep [DecidableEq ι] [Inhabited T] (op : VectorOp ι T) (v v' : ι → List T) : Prop :=
  ∀ z, op.movedFrom ≠ some z → v' z = vexec v op z

/-- What a call asks of the vectors it is made on. -/
def Valid (N : ℕ) (v : ι → List T) : VectorOp ι T → Prop
  | .construct _ => True
  | .constructSize _ n => Fits N n
  | .constructFill _ n _ => Fits N n
  | .constructRange _ range => Fits N range.length
  | .constructCopy _ y => Fits N (v y).length
  | .constructMove _ _ => True
  | .assign _ n _ => Fits N n
  | .assignRange _ range => Fits N range.length
  | .copyAssign _ y => Fits N (v y).length
  | .moveAssign _ _ => True
  | .resize _ n => Fits N n
  | .resizeUninitialized x n writes =>
    Fits N n ∧ if n ≤ (v x).length then writes = [] else writes.length = n - (v x).length
  | .reserve x n => n < 2 ^ 32 ∧ Fits N (v x).length
  | .shrinkToFit _ => True
  | .clear _ => True
  | .insert x pos _ => pos ≤ (v x).length ∧ Fits N ((v x).length + 1)
  | .insertFill x pos count _ => pos ≤ (v x).length ∧ Fits N ((v x).length + count)
  | .insertRange x pos range =>
    pos ≤ (v x).length ∧ Fits N ((v x).length + range.length) ∧ range.length < 2 ^ 31
  | .erase x pos => pos < (v x).length
  | .eraseRange x first last => first ≤ last ∧ last ≤ (v x).length
  | .pushBack x _ => Fits N ((v x).length + 1)
  | .emplaceBack x _ => Fits N ((v x).length + 1)
  | .popBack x => v x ≠ []
  | .swap _ _ => True

/-- A sequence of calls is safe when each is valid in every state the vectors can be in by then. -/
def Safe [DecidableEq ι] [Inhabited T] (N : ℕ) : List (VectorOp ι T) → (ι → List T) → Prop
  | [], _ => True
  | op :: ops, v => op.Valid N v ∧ ∀ v', op.VecStep v v' → Safe N ops v'

inductive VecRun [DecidableEq ι] [Inhabited T] : List (VectorOp ι T) → (ι → List T) → (ι → List T) → Prop
  | nil (v : ι → List T) : VecRun [] v v
  | cons {op : VectorOp ι T} {ops : List (VectorOp ι T)} {v v' v'' : ι → List T} :
      op.VecStep v v' → VecRun ops v' v'' → VecRun (op :: ops) v v''

/-! ### Prevector -/

variable {N : ℕ}

/-- `p[pos] = value` for the values from `pos` on. -/
def writeAll : Prevector N T → ℕ → List T → Option (Prevector N T)
  | p, _, [] => some p
  | p, pos, value :: values => do
    let p ← p.set_index pos value
    writeAll p (pos + 1) values

/-- The variables of prevector after a call; `none` where a copy or fill leaves its buffer or the
union is read through the wrong member. -/
def exec [DecidableEq ι] [Inhabited T] (env : ι → Prevector N T) :
    VectorOp ι T → Option (ι → Prevector N T)
  | .construct x => some (Function.update env x .empty)
  | .constructSize x n => (Prevector.construct_size n).map (Function.update env x)
  | .constructFill x n val => (Prevector.construct_fill n val).map (Function.update env x)
  | .constructRange x range => (Prevector.construct_range range).map (Function.update env x)
  | .constructCopy x y => (env y).construct_copy.map (Function.update env x)
  | .constructMove x y =>
    let (p, other) := (env y).construct_move
    some (Function.update (Function.update env y other) x p)
  | .assign x n val => ((env x).assign n val).map (Function.update env x)
  | .assignRange x range => ((env x).assign_range range).map (Function.update env x)
  | .copyAssign x y =>
    -- `if (&other == this) return *this;`
    if x = y then some env else ((env x).copy_assign (env y)).map (Function.update env x)
  | .moveAssign x y =>
    let (p, other) := (env x).swap (env y)
    some (Function.update (Function.update env y other) x p)
  | .resize x n => ((env x).resize n).map (Function.update env x)
  | .resizeUninitialized x n writes =>
    (((env x).resize_uninitialized n).bind fun p => writeAll p (env x).size writes).map (Function.update env x)
  | .reserve x n => ((env x).reserve n).map (Function.update env x)
  | .shrinkToFit x => (env x).shrink_to_fit.map (Function.update env x)
  | .clear x => (env x).clear.map (Function.update env x)
  | .insert x pos val => ((env x).insert pos val).map (Function.update env x)
  | .insertFill x pos count val => ((env x).insert_fill pos count val).map (Function.update env x)
  | .insertRange x pos range => ((env x).insert_range pos range).map (Function.update env x)
  | .erase x pos => ((env x).erase pos).map (Function.update env x)
  | .eraseRange x first last => ((env x).erase_range first last).map (Function.update env x)
  | .pushBack x val => ((env x).push_back val).map (Function.update env x)
  | .emplaceBack x val => ((env x).emplace_back val).map (Function.update env x)
  | .popBack x => (env x).pop_back.map (Function.update env x)
  | .swap x y =>
    let (p, other) := (env x).swap (env y)
    some (Function.update (Function.update env y other) x p)

def run [DecidableEq ι] [Inhabited T] : List (VectorOp ι T) → (ι → Prevector N T) → Option (ι → Prevector N T)
  | [], env => some env
  | op :: ops, env => (exec env op).bind (run ops)

end VectorOp

/-- `std::lexicographical_compare`: the first place where one element is less than the other
decides. -/
def lexicographicalCompare {T : Type} [LT T] [DecidableLT T] : List T → List T → Bool
  | [], [] => false
  | [], _ :: _ => true
  | _ :: _, [] => false
  | x :: xs, y :: ys => if x < y then true else if y < x then false else lexicographicalCompare xs ys

end Pussycoin
