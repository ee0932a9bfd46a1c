import Pussycoin.Prevector.Members

/-! Prevector refines `std::vector`: over every safe sequence of calls, run on prevectors and on
vectors side by side, no copy or fill leaves its buffer, and every prevector holds the elements of
its vector, so that everything a program observes of it agrees. A step keeps the relation by the
lemma of the member it calls; a run keeps it by induction on the calls. -/
namespace Pussycoin

open Memory Prevector

variable {ι T : Type} {N : ℕ}

/-- What a program observes of a prevector `p` holding `l`, next to another `q` holding `l'`. -/
structure Agrees [BEq T] [LT T] [DecidableLT T] (p q : Prevector N T) (l l' : List T) : Prop where
  size : p.size = l.length
  index : ∀ i < l.length, p.index i = l[i]?
  front : l ≠ [] → p.front = l.head?
  back : l ≠ [] → p.back = l.getLast?
  iterate : p.iterate = some l
  capacity : ∃ c, p.capacity = some c ∧ l.length ≤ c ∧ (c = N ↔ p._size ≤ N)
  eq : p.eq q = some (l == l')
  lt : p.lt q = some (decide (l.length < l'.length) || (l.length == l'.length && lexicographicalCompare l l'))

theorem agrees_of_represents [BEq T] [LT T] [DecidableLT T] {p q : Prevector N T} {l l' : List T}
    (rep : p.Represents l) (rep' : q.Represents l') : Agrees p q l l' where
  size := rep.size_eq
  index _ below := index_spec rep below
  front := front_spec rep
  back := back_spec rep
  iterate := iterate_spec rep
  capacity := capacity_spec rep
  eq := eq_spec rep rep'
  lt := lt_spec rep rep'

namespace VectorOp

variable [DecidableEq ι]

/-! ### One call -/

theorem represents_update {env : ι → Prevector N T} {v : ι → List T} (reps : ∀ x, (env x).Represents (v x))
    (x : ι) {p : Prevector N T} {l : List T} (rep : p.Represents l) :
    ∀ z, (Function.update env x p z).Represents (Function.update v x l z) := by
  intro z
  by_cases same : z = x
  · subst same
    simpa using rep
  · simpa [Function.update_of_ne same] using reps z

/-- Two variables exchanged, as `swap` and the move assignment do to prevectors. -/
theorem represents_exchange {env : ι → Prevector N T} {v : ι → List T} (reps : ∀ x, (env x).Represents (v x))
    (x y : ι) :
    ∀ z, (Function.update (Function.update env y (env x)) x (env y) z).Represents
      (Function.update (Function.update v y (v x)) x (v y) z) := by
  intro z
  by_cases atX : z = x
  · subst atX
    simpa using reps y
  · by_cases atY : z = y
    · subst atY
      simpa [Function.update_of_ne atX] using reps x
    · simpa [Function.update_of_ne atX, Function.update_of_ne atY] using reps z

variable [Inhabited T]

/-- A call on one variable that the member's lemma answers. -/
theorem step_update {env : ι → Prevector N T} {v : ι → List T} (reps : ∀ x, (env x).Represents (v x))
    {op : VectorOp ι T} {x : ι} {p : Prevector N T} {l : List T}
    (executes : exec env op = some (Function.update env x p)) (vector : vexec v op = Function.update v x l)
    (rep : p.Represents l) :
    ∃ env' v', exec env op = some env' ∧ op.VecStep v v' ∧ ∀ z, (env' z).Represents (v' z) :=
  ⟨_, _, executes, fun z _ => by rw [vector], represents_update reps x rep⟩

theorem exec_spec {env : ι → Prevector N T} {v : ι → List T} (reps : ∀ x, (env x).Represents (v x))
    (op : VectorOp ι T) (valid : op.Valid N v) :
    ∃ env' v', exec env op = some env' ∧ op.VecStep v v' ∧ ∀ z, (env' z).Represents (v' z) := by
  cases op with
  | construct x => exact step_update reps rfl rfl represents_empty
  | constructSize x n =>
    obtain ⟨p, built, rep⟩ : ∃ p, (construct_size n : Option (Prevector N T)) = some p ∧
        p.Represents (List.replicate n default) := construct_size_spec valid
    exact step_update reps (by rw [exec, built]; rfl) rfl rep
  | constructFill x n val =>
    obtain ⟨p, built, rep⟩ := construct_fill_spec val valid
    exact step_update reps (by rw [exec, built]; rfl) rfl rep
  | constructRange x range =>
    obtain ⟨p, built, rep⟩ := construct_range_spec range valid
    exact step_update reps (by rw [exec, built]; rfl) rfl rep
  | constructCopy x y =>
    obtain ⟨p, built, rep⟩ := construct_copy_spec (reps y) valid
    exact step_update reps (by rw [exec, built]; rfl) rfl rep
  | constructMove x y =>
    -- the new prevector takes the elements of `y`, which is left empty
    refine ⟨_, Function.update (Function.update v y []) x (v y), rfl, fun z moved => ?_, ?_⟩
    · by_cases atX : z = x
      · subst atX
        simp [vexec]
      · have atY : z ≠ y := fun same => moved (by rw [same]; rfl)
        simp [vexec, Function.update_of_ne atX, Function.update_of_ne atY]
    · intro z
      by_cases atX : z = x
      · subst atX
        simpa [construct_move, swap] using reps y
      · by_cases atY : z = y
        · subst atY
          simpa [construct_move, swap, Function.update_of_ne atX] using represents_empty
        · simpa [Function.update_of_ne atX, Function.update_of_ne atY] using reps z
  | assign x n val =>
    obtain ⟨p, done, rep⟩ := assign_spec (reps x) val valid
    exact step_update reps (by rw [exec, done]; rfl) rfl rep
  | assignRange x range =>
    obtain ⟨p, done, rep⟩ := assign_range_spec (reps x) range valid
    exact step_update reps (by rw [exec, done]; rfl) rfl rep
  | copyAssign x y =>
    by_cases same : x = y
    · -- assigning a prevector to itself does nothing
      subst same
      refine ⟨env, v, by simp [exec], fun z _ => ?_, reps⟩
      simp [vexec]
    · obtain ⟨p, done, rep⟩ := copy_assign_spec (reps x) (reps y) valid
      exact step_update reps (by rw [exec, if_neg same, done]; rfl) rfl rep
  | moveAssign x y =>
    -- `swap`: the source keeps the old elements of the target, which the standard allows
    refine ⟨_, Function.update (Function.update v y (v x)) x (v y), rfl, fun z moved => ?_,
      represents_exchange reps x y⟩
    by_cases atX : z = x
    · subst atX
      simp [vexec]
    · have atY : z ≠ y := fun same => moved (by rw [same]; rfl)
      simp [vexec, Function.update_of_ne atX, Function.update_of_ne atY]
  | resize x n =>
    obtain ⟨p, done, rep⟩ := resize_spec (reps x) n (fun _ => valid)
    exact step_update reps (by rw [exec, done]; rfl) rfl rep
  | resizeUninitialized x n writes =>
    obtain ⟨fits, written⟩ := valid
    obtain ⟨p, resized, layout⟩ := resize_uninitialized_spec (reps x) fits
    split_ifs at written layout with shrinks
    · -- no writes after a shrink
      subst written
      refine step_update reps ?_ (by rw [vexec, vresizeUninitialized, if_pos shrinks]) layout
      rw [exec, resized]
      rfl
    · obtain ⟨p', wrote, rep⟩ := writeAll_spec writes layout (by omega)
      refine step_update reps ?_ (by rw [vexec, vresizeUninitialized, if_neg shrinks]) rep
      rw [exec, resized, Option.bind_some, (reps x).size_eq, wrote]
      rfl
  | reserve x n =>
    obtain ⟨_, fits⟩ := valid
    obtain ⟨p, done, rep⟩ := reserve_spec (reps x) n (fun _ => by unfold Fits at fits; omega)
    exact step_update reps (by rw [exec, done]; rfl) (Function.update_eq_self x v).symm rep
  | shrinkToFit x =>
    obtain ⟨p, done, rep⟩ := shrink_to_fit_spec (reps x)
    exact step_update reps (by rw [exec, done]; rfl) (Function.update_eq_self x v).symm rep
  | clear x =>
    obtain ⟨p, done, rep⟩ := clear_spec (reps x)
    exact step_update reps (by rw [exec, done]; rfl) rfl rep
  | insert x pos val =>
    obtain ⟨p, done, rep⟩ := insert_spec (reps x) val valid.1 valid.2
    exact step_update reps (by rw [exec, done]; rfl) rfl rep
  | insertFill x pos count val =>
    obtain ⟨p, done, rep⟩ := insert_fill_spec (reps x) val valid.1 valid.2
    exact step_update reps (by rw [exec, done]; rfl) rfl rep
  | insertRange x pos range =>
    obtain ⟨p, done, rep⟩ := insert_range_spec (reps x) range valid.1 valid.2.1 valid.2.2
    exact step_update reps (by rw [exec, done]; rfl) rfl rep
  | erase x pos =>
    obtain ⟨p, done, rep⟩ := erase_spec (reps x) valid
    exact step_update reps (by rw [exec, done]; rfl) rfl rep
  | eraseRange x first last =>
    obtain ⟨p, done, rep⟩ := erase_range_spec (reps x) valid.1 valid.2
    exact step_update reps (by rw [exec, done]; rfl) rfl rep
  | pushBack x val =>
    obtain ⟨p, done, rep⟩ := emplace_back_spec (reps x) val valid
    exact step_update reps (by rw [exec, push_back, done]; rfl) rfl rep
  | emplaceBack x val =>
    obtain ⟨p, done, rep⟩ := emplace_back_spec (reps x) val valid
    exact step_update reps (by rw [exec, done]; rfl) rfl rep
  | popBack x =>
    obtain ⟨p, done, rep⟩ := pop_back_spec (reps x) valid
    exact step_update reps (by rw [exec, done]; rfl) rfl rep
  | swap x y =>
    refine ⟨_, _, rfl, fun z _ => ?_, represents_exchange reps x y⟩
    -- the two orders of the updates agree where `x` and `y` differ, and both do nothing where they do not
    by_cases atX : z = x
    · subst atX
      by_cases same : z = y
      · subst same
        simp [vexec]
      · simp [vexec, Function.update_of_ne same]
    · by_cases atY : z = y
      · subst atY
        simp [vexec, Function.update_of_ne atX]
      · simp [vexec, Function.update_of_ne atX, Function.update_of_ne atY]

/-! ### Runs -/

theorem run_spec : ∀ (ops : List (VectorOp ι T)) {env : ι → Prevector N T} {v : ι → List T},
    (∀ x, (env x).Represents (v x)) → Safe N ops v →
      ∃ env' v', run ops env = some env' ∧ VecRun ops v v' ∧ ∀ x, (env' x).Represents (v' x) := by
  intro ops
  induction ops with
  | nil =>
    intro env v reps _
    exact ⟨env, v, rfl, .nil v, reps⟩
  | cons op ops ih =>
    intro env v reps safe
    obtain ⟨valid, rest⟩ := safe
    obtain ⟨env₁, v₁, executed, step, reps₁⟩ := exec_spec reps op valid
    obtain ⟨env', v', ran, vrun, reps'⟩ := ih reps₁ (rest v₁ step)
    exact ⟨env', v', by rw [run, executed, Option.bind_some, ran], .cons step vrun, reps'⟩

end VectorOp

/-- From prevectors and vectors all empty, every safe sequence of calls runs on prevectors without
a copy or fill leaving its buffer, and afterwards every prevector agrees with its vector in all a
program observes. -/
theorem prevector_refines_vector [DecidableEq ι] [Inhabited T] [BEq T] [LT T] [DecidableLT T]
    (N : ℕ) (ops : List (VectorOp ι T)) (safe : VectorOp.Safe N ops fun _ => []) :
    ∃ env v, VectorOp.run ops (fun _ => (Prevector.empty : Prevector N T)) = some env ∧
      VectorOp.VecRun ops (fun _ => []) v ∧ ∀ x y, Agrees (env x) (env y) (v x) (v y) := by
  obtain ⟨env, v, ran, vrun, reps⟩ := VectorOp.run_spec ops (fun _ => represents_empty) safe
  exact ⟨env, v, ran, vrun, fun x y => agrees_of_represents (reps x) (reps y)⟩

theorem prevector_refines_vector_pushes :
    VectorOp.Safe 2 [.pushBack 0 1, .pushBack 0 2, .pushBack 0 3] (fun _ : ℕ => ([] : List ℕ)) ∧
      ∃ env v, VectorOp.run [.pushBack 0 1, .pushBack 0 2, .pushBack 0 3]
          (fun _ : ℕ => (Prevector.empty : Prevector 2 ℕ)) = some env ∧
        VectorOp.VecRun [.pushBack 0 1, .pushBack 0 2, .pushBack 0 3] (fun _ => []) v ∧
        ∀ x y, Agrees (env x) (env y) (v x) (v y) := by
  have safe : VectorOp.Safe 2 [.pushBack 0 1, .pushBack 0 2, .pushBack 0 3] (fun _ : ℕ => ([] : List ℕ)) := by
    refine ⟨by rw [VectorOp.Valid]; decide, fun v₁ step₁ => ⟨?_, fun v₂ step₂ => ⟨?_, fun _ _ => trivial⟩⟩⟩
    · rw [VectorOp.Valid, step₁ 0 (by simp [VectorOp.movedFrom])]
      decide
    · rw [VectorOp.Valid, step₂ 0 (by simp [VectorOp.movedFrom])]
      simp only [VectorOp.vexec, Function.update_self, step₁ 0 (by simp [VectorOp.movedFrom])]
      decide
  exact ⟨safe, prevector_refines_vector 2 _ safe⟩

/-- Near 2^32 the `size_type` arithmetic wraps. `prevector(2^32 - 2, x)` with `N = 1` brings
`_size` round to 0, so the fill goes into the inline array, past its end; and a `push_back` on
3·2^30 elements asks `change_capacity` for `new_size + (new_size >> 1)` modulo 2^32, a buffer
smaller than the elements, and writes past it. -/
theorem prevector_refines_vector_wraps :
    (VectorOp.run [.constructFill 0 (2 ^ 32 - 2) 7] (fun _ : ℕ => (Prevector.empty : Prevector 1 ℕ))).isNone = true ∧
      (VectorOp.run [.constructFill 0 (3 * 2 ^ 30) 7, .pushBack 0 7]
        (fun _ : ℕ => (Prevector.empty : Prevector 1 ℕ))).isNone = true := by
  decide +kernel

end Pussycoin
