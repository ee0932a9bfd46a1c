import Mathlib

/-! The binary search of the C++ standard library as libstdc++ writes it (`__lower_bound` in
`bits/stl_algobase.h`), over a list and a comparison with the value searched for. On a list
that the comparison partitions, true before false, it returns the partition point. -/
namespace Search

variable {α : Type*} (comp : α → Bool)

/-- The loop of `__lower_bound`: the answer lies among the `len` elements from `first` on; the
middle one is compared with the value and one half kept. The middle is never past the end while
`first + len` is within the list, so reading a missing element as not below is never used. -/
def lowerBoundFrom (xs : List α) (first len : ℕ) : ℕ :=
  if 0 < len then
    let half := len / 2
    if (xs[first + half]?).any comp then lowerBoundFrom xs (first + half + 1) (len - half - 1)
    else lowerBoundFrom xs first half
  else first
termination_by len

/-- `std::lower_bound(xs.begin(), xs.end(), value, comp)`, as the index it returns. -/
def lowerBound (xs : List α) : ℕ := lowerBoundFrom comp xs 0 xs.length

/-- The requirement of `std::lower_bound`: every element that compares below the value comes
before every one that does not. -/
def Partitioned (xs : List α) : Prop := xs.Pairwise fun a b => comp b = true → comp a = true

/-- What the loop knows: below `first` every element compares below the value, and from
`first + len` on none does. -/
def Brackets (xs : List α) (first len : ℕ) : Prop :=
  first + len ≤ xs.length ∧ (∀ i (h : i < xs.length), i < first → comp xs[i] = true) ∧
    ∀ i (h : i < xs.length), first + len ≤ i → comp xs[i] = false

variable {comp} {xs : List α}

theorem comp_of_partitioned (sorted : Partitioned comp xs) {i j : ℕ} (le : i ≤ j) (hi : i < xs.length)
    (hj : j < xs.length) (below : comp xs[j] = true) : comp xs[i] = true := by
  rcases Nat.lt_or_eq_of_le le with lt | rfl
  · exact List.pairwise_iff_getElem.1 sorted i j hi hj lt below
  · exact below

namespace Brackets

variable {first len : ℕ}

theorem init : Brackets comp xs 0 xs.length :=
  ⟨(Nat.zero_add _).le, fun _ _ none => absurd none (Nat.not_lt_zero _), fun _ h past => absurd h (by omega)⟩

/-- The middle compares below: so does everything up to it, and the search goes on above it. -/
theorem above (sorted : Partitioned comp xs) (window : Brackets comp xs first len) (positive : 0 < len)
    (middle : (xs[first + len / 2]?).any comp = true) :
    Brackets comp xs (first + len / 2 + 1) (len - len / 2 - 1) := by
  obtain ⟨inside, lower, upper⟩ := window
  have within : first + len / 2 < xs.length := by omega
  rw [List.getElem?_eq_getElem within, Option.any_some] at middle
  refine ⟨by omega, fun i h below => ?_, fun i h past => upper i h (by omega)⟩
  exact comp_of_partitioned sorted (by omega) h within middle

/-- The middle does not compare below: nor does anything after it, and the search goes on in
the lower half. -/
theorem below (sorted : Partitioned comp xs) (window : Brackets comp xs first len) (positive : 0 < len)
    (middle : (xs[first + len / 2]?).any comp = false) :
    Brackets comp xs first (len / 2) := by
  obtain ⟨inside, lower, upper⟩ := window
  have within : first + len / 2 < xs.length := by omega
  rw [List.getElem?_eq_getElem within, Option.any_some] at middle
  refine ⟨by omega, lower, fun i h past => ?_⟩
  cases compared : comp xs[i] with
  | false => rfl
  | true => simpa [middle] using comp_of_partitioned sorted past within h compared

end Brackets

/-- The loop ends on the partition point: its window shrinks to nothing while the invariant
holds. -/
theorem lowerBoundFrom_brackets (sorted : Partitioned comp xs) (first len : ℕ)
    (window : Brackets comp xs first len) : Brackets comp xs (lowerBoundFrom comp xs first len) 0 := by
  fun_induction lowerBoundFrom comp xs first len with
  | case1 first len positive half middle ih => exact ih (window.above sorted positive middle)
  | case2 first len positive half middle ih =>
    exact ih (window.below sorted positive (Bool.eq_false_iff.2 middle))
  | case3 first len empty =>
    obtain rfl : len = 0 := by omega
    exact window

/-- `std::lower_bound` on a partitioned list returns the partition point: the elements before
it are exactly those that compare below the value. -/
theorem lowerBound_spec (sorted : Partitioned comp xs) :
    lowerBound comp xs ≤ xs.length ∧
      ∀ i (h : i < xs.length), i < lowerBound comp xs ↔ comp xs[i] = true := by
  obtain ⟨inside, lower, upper⟩ := lowerBoundFrom_brackets sorted 0 xs.length Brackets.init
  unfold lowerBound
  refine ⟨by simpa using inside, fun i h => ⟨lower i h, fun compared => ?_⟩⟩
  by_contra past
  simp [upper i h (by omega)] at compared

end Search
