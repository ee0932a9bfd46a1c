import Mathlib.Algebra.Order.BigOperators.Group.List
import Mathlib.Algebra.Order.Ring.Int

/-! Integer arithmetic in a range `[lo, hi]` where a result outside the range is undefined
behaviour, given as `none`. A running sum (`std::accumulate`) that has a value has the value
of the integer sum, and over summands that are not negative it has a value exactly when the
total stays within `hi`. -/
namespace Checked

variable (lo hi : ℤ)

def within (x : ℤ) : Option ℤ := if lo ≤ x ∧ x ≤ hi then some x else none

def add (a b : ℤ) : Option ℤ := within lo hi (a + b)

def sub (a b : ℤ) : Option ℤ := within lo hi (a - b)

/-- The running sum of `f` over a list, where `f` may itself leave the range. -/
def accumulate {α : Type} (f : α → Option ℤ) (init : ℤ) (l : List α) : Option ℤ :=
  l.foldlM (fun sum a => f a >>= add lo hi sum) init

variable {lo hi}

@[simp] theorem within_eq_some {x v : ℤ} : within lo hi x = some v ↔ (lo ≤ x ∧ x ≤ hi) ∧ x = v := by
  unfold within
  split <;> simp_all

theorem within_eq_none {x : ℤ} : within lo hi x = none ↔ x < lo ∨ hi < x := by
  unfold within
  split
  · simp only [reduceCtorEq, false_iff]
    omega
  · simp only [true_iff]
    omega

@[simp] theorem accumulate_nil {α : Type} (f : α → Option ℤ) (init : ℤ) :
    accumulate lo hi f init [] = some init := rfl

@[simp] theorem accumulate_cons {α : Type} (f : α → Option ℤ) (init : ℤ) (a : α) (l : List α) :
    accumulate lo hi f init (a :: l) = (f a >>= add lo hi init) >>= fun sum => accumulate lo hi f sum l := rfl

/-- A running sum that has a value is the integer sum, whatever the range. -/
theorem accumulate_eq_some {α : Type} {f : α → Option ℤ} {g : α → ℤ}
    (sound : ∀ a v, f a = some v → v = g a) :
    ∀ {init v : ℤ} {l : List α}, accumulate lo hi f init l = some v → v = init + (l.map g).sum
  | init, v, [], sums => by
    simp only [accumulate_nil, Option.some.injEq] at sums
    simp [sums]
  | init, v, a :: l, sums => by
    simp only [accumulate_cons, Option.bind_eq_bind, Option.bind_eq_some_iff, add] at sums
    obtain ⟨sum, ⟨value, first, stays⟩, rest⟩ := sums
    have value_eq := sound a value first
    have sum_eq := (within_eq_some.mp stays).2
    rw [accumulate_eq_some sound rest, List.map_cons, List.sum_cons, ← sum_eq, value_eq]
    omega

/-- Over summands that are not negative, from a start within the range, the running sum
leaves the range exactly when the total passes `hi`. -/
theorem accumulate_of_nonneg {α : Type} {f : α → Option ℤ} {g : α → ℤ} :
    ∀ {init : ℤ} {l : List α}, (∀ a ∈ l, f a = some (g a)) → (∀ a ∈ l, 0 ≤ g a) → lo ≤ init → init ≤ hi →
      accumulate lo hi f init l =
        if init + (l.map g).sum ≤ hi then some (init + (l.map g).sum) else none
  | init, [], _, _, _, below => by simp [below]
  | init, a :: l, exact, nonneg, above, below => by
    have first := exact a (List.mem_cons_self ..)
    have positive := nonneg a (List.mem_cons_self ..)
    have others : 0 ≤ (l.map g).sum :=
      List.sum_nonneg fun x mem => by
        obtain ⟨b, inList, rfl⟩ := List.mem_map.mp mem
        exact nonneg b (List.mem_cons_of_mem a inList)
    simp only [accumulate_cons, first, Option.bind_eq_bind, Option.bind_some, add, within, List.map_cons,
      List.sum_cons]
    by_cases fits : init + g a ≤ hi
    · rw [if_pos ⟨by omega, fits⟩, Option.bind_some,
        accumulate_of_nonneg (fun b mem => exact b (List.mem_cons_of_mem a mem))
          (fun b mem => nonneg b (List.mem_cons_of_mem a mem)) (by omega) fits, add_assoc]
    · rw [if_neg (by omega), if_neg (by omega), Option.bind_none]

end Checked
