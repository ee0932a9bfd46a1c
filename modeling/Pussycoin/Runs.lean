import Mathlib.Logic.Basic

/-! Runs of a fallible step function `step : σ → α → Except ε σ`: the states reachable
from an initial one, the invariant rule over them, and the inversion lemmas for the
`Except` combinators that step functions are written with. -/
namespace Runs

variable {ε σ α β : Type}

/-- A check that rejects with `e` when `failed` holds, as the
`if (...) return state.Invalid(...)` lines of a validator do. -/
def rejectIf (failed : Prop) [Decidable failed] (e : ε) : Except ε Unit :=
  if failed then throw e else pure ()

@[simp] theorem rejectIf_eq_ok {failed : Prop} [Decidable failed] {e : ε} {u : Unit} :
    rejectIf failed e = .ok u ↔ ¬ failed := by
  by_cases holds : failed <;> simp [rejectIf, holds, pure, Except.pure]

@[simp] theorem rejectIf_of_not {failed : Prop} [Decidable failed] {e : ε} (fine : ¬ failed) :
    rejectIf failed e = pure () := by
  simp [rejectIf, fine]

@[simp] theorem rejectIf_of_holds {failed : Prop} [Decidable failed] {e : ε} (holds : failed) :
    rejectIf failed e = .error e := by
  simp [rejectIf, holds, throw, throwThe, MonadExceptOf.throw]

/-- A bind succeeds exactly when both of its computations do. -/
@[simp] theorem bind_eq_ok {x : Except ε α} {g : α → Except ε β} {b : β} :
    x >>= g = .ok b ↔ ∃ a, x = .ok a ∧ g a = .ok b := by
  cases x with
  | error e => simp [bind, Except.bind]
  | ok a => simp [bind, Except.bind]

/-- A thrown reason is never a success. -/
@[simp] theorem throw_ne_ok {e : ε} {a : α} : (throw e : Except ε α) ≠ .ok a := by
  simp [throw, throwThe, MonadExceptOf.throw]

@[simp] theorem throw_eq_error {e : ε} : (throw e : Except ε α) = .error e := rfl

@[simp] theorem error_bind {e : ε} {g : α → Except ε β} : (Except.error e >>= g) = .error e := rfl

@[simp] theorem pure_eq_ok {a b : α} : (pure a : Except ε α) = .ok b ↔ a = b := by
  simp [pure, Except.pure]

/-- A guard that throws when its condition holds succeeds exactly when it does not hold
and the other branch succeeds. -/
@[simp] theorem ite_throw_eq_ok {p : Prop} [Decidable p] {e : ε} {x : Except ε α} {a : α} :
    (if p then throw e else x) = .ok a ↔ ¬ p ∧ x = .ok a := by
  by_cases holds : p <;> simp [holds]

/-- A failure of the first computation is the failure of the bind. -/
theorem bind_of_error {x : Except ε α} {g : α → Except ε β} {e : ε} (failed : x = .error e) :
    x >>= g = .error e := by
  subst failed
  rfl

/-- A loop of checks succeeds exactly when every check does. -/
@[simp] theorem forM_eq_ok {f : α → Except ε PUnit} (l : List α) :
    l.forM f = .ok () ↔ ∀ a ∈ l, f a = .ok () := by
  induction l with
  | nil =>
    simp only [List.not_mem_nil, false_imp_iff, implies_true, iff_true]
    rfl
  | cons a rest ih =>
    change (f a >>= fun _ => rest.forM f) = _ ↔ _
    rw [bind_eq_ok]
    simp only [List.mem_cons, forall_eq_or_imp, ← ih]
    constructor
    · rintro ⟨⟨⟩, head, tail⟩
      exact ⟨head, tail⟩
    · rintro ⟨head, tail⟩
      exact ⟨(), head, tail⟩

/-- Simulation of total steps: a relation that a pair of steps on the same action keeps
holds after any sequence of actions. -/
theorem foldl_relation {τ : Type} {stepS : σ → α → σ} {stepT : τ → α → τ}
    {R : σ → τ → Prop} (preserve : ∀ s t a, R s t → R (stepS s a) (stepT t a))
    (actions : List α) {s : σ} {t : τ} (init : R s t) :
    R (actions.foldl stepS s) (actions.foldl stepT t) := by
  induction actions generalizing s t with
  | nil => exact init
  | cons a rest ih => exact ih (preserve s t a init)

/-- The invariant rule for a loop of fallible steps in `Option`. -/
theorem foldlM_invariant {step : σ → α → Option σ} {P : σ → Prop}
    (preserve : ∀ s a s', P s → step s a = some s' → P s') :
    ∀ (actions : List α) {s r : σ}, P s → actions.foldlM step s = some r → P r
  | [], _, _, holds, done => by
    cases done
    exact holds
  | a :: rest, s, r, holds, done => by
    simp only [List.foldlM_cons, Option.bind_eq_bind, Option.bind_eq_some_iff] at done
    obtain ⟨s', stepped, rest_done⟩ := done
    exact foldlM_invariant preserve rest (preserve s a s' holds stepped) rest_done

/-- A fold that reads one value for each element in `Option` reads them all when each read
succeeds. -/
theorem foldlM_reads {γ : Type} {look : α → Option β} {value : α → β} {f : γ → β → γ} :
    ∀ (l : List α) (acc : γ), (∀ a ∈ l, look a = some (value a)) →
      l.foldlM (fun acc a => (look a).bind fun b => pure (f acc b)) acc = some ((l.map value).foldl f acc)
  | [], _, _ => rfl
  | a :: rest, acc, found => by
    simp only [List.foldlM_cons, found a List.mem_cons_self, Option.bind_eq_bind, Option.bind_some,
      List.map_cons, List.foldl_cons]
    exact foldlM_reads rest _ fun b member => found b (List.mem_cons_of_mem a member)

/-- Every action of `actions` is `allowed` in the state that the total step `step` has reached
from `s` before it. -/
def Admits (allowed : σ → α → Prop) (step : σ → α → σ) : σ → List α → Prop
  | _, [] => True
  | s, a :: rest => allowed s a ∧ Admits allowed step (step s a) rest

instance Admits.decidable {allowed : σ → α → Prop} [∀ s a, Decidable (allowed s a)] {step : σ → α → σ} :
    ∀ (s : σ) (actions : List α), Decidable (Admits allowed step s actions)
  | _, [] => isTrue trivial
  | s, a :: rest =>
    have : Decidable (Admits allowed step (step s a) rest) := Admits.decidable (step s a) rest
    inferInstanceAs (Decidable (allowed s a ∧ Admits allowed step (step s a) rest))

/-- A prefix of an admitted sequence is admitted. -/
theorem Admits.take {allowed : σ → α → Prop} {step : σ → α → σ} :
    ∀ {s : σ} {actions : List α}, Admits allowed step s actions → ∀ n, Admits allowed step s (actions.take n)
  | _, [], _, n => by simp [Admits]
  | _, _ :: _, _, 0 => trivial
  | _, _ :: _, ⟨first, rest⟩, n + 1 => ⟨first, rest.take n⟩

/-- Simulation of a total step by a fallible one: when the relation survives every allowed
pair of steps, a sequence of allowed actions runs without failing and keeps it. -/
theorem foldlM_simulation {τ : Type} {stepS : σ → α → Option σ} {stepT : τ → α → τ}
    {R : σ → τ → Prop} {allowed : τ → α → Prop}
    (preserve : ∀ s t a, R s t → allowed t a → ∃ s', stepS s a = some s' ∧ R s' (stepT t a)) :
    ∀ (actions : List α) {s : σ} {t : τ}, R s t → Admits allowed stepT t actions →
      ∃ s', actions.foldlM stepS s = some s' ∧ R s' (actions.foldl stepT t)
  | [], s, _, related, _ => ⟨s, rfl, related⟩
  | a :: rest, s, t, related, ⟨first, later⟩ => by
    obtain ⟨s', stepped, related'⟩ := preserve s t a related first
    obtain ⟨r, ran, final⟩ := foldlM_simulation preserve rest related' later
    exact ⟨r, by simp [stepped, ran], final⟩

/-- A loop of fallible steps commutes with a map `F` of states that each step commutes with,
while an invariant that counts the steps still to run holds: the two loops fail with the same
error or end in states that `F` relates. -/
theorem foldlM_map {τ : Type} {stepS : σ → α → Except ε σ} {stepT : τ → α → Except ε τ} {F : τ → σ}
    (Inv : Nat → τ → Prop)
    (commute : ∀ n t a, Inv (n + 1) t → stepS (F t) a = F <$> stepT t a)
    (keep : ∀ n t a t', Inv (n + 1) t → stepT t a = .ok t' → Inv n t') :
    ∀ (actions : List α) {t : τ}, Inv actions.length t →
      actions.foldlM stepS (F t) = F <$> actions.foldlM stepT t
  | [], _, _ => rfl
  | a :: rest, t, holds => by
    simp only [List.foldlM_cons, commute rest.length t a holds]
    cases stepped : stepT t a with
    | error e => rfl
    | ok t' => exact foldlM_map Inv commute keep rest (keep rest.length t a t' holds stepped)

/-- The states that some sequence of successful steps leads to from `init`. -/
inductive Reachable (step : σ → α → Except ε σ) (init : σ) : σ → Prop
  | init : Reachable step init init
  | step {s s' : σ} (a : α) : Reachable step init s → step s a = .ok s' →
      Reachable step init s'

/-- The invariant rule: what holds initially and survives every successful step holds
in every reachable state. -/
theorem Reachable.invariant {step : σ → α → Except ε σ} {init : σ} {P : σ → Prop}
    (base : P init) (preserve : ∀ s a s', P s → step s a = .ok s' → P s')
    {s : σ} (reach : Reachable step init s) : P s := by
  induction reach with
  | init => exact base
  | step a _ ok ih => exact preserve _ a _ ih ok

end Runs
