import Mathlib

/-! Mountain ranges in post-order. A perfect binary tree of height `j` has `2^(j+1) - 1`
nodes, numbered left subtree, right subtree, root; a mountain range is the sequence of
perfect trees that the leaves `0, 1, 2, …` fill from the left, and a node's position is
its number in that order. Leaf `l` sits at `2l - ones l`, the `trailingOnes l` positions
after it are the parents that leaf completes, of heights `1, 2, …`, and the next leaf
follows them.

The height of a position is also what peeling off the tree sizes `2^j - 1, …, 3, 1`,
largest first, leaves of it; and the bit length of a number is what or-ing it with its
right shifts by `1, 2, 4, …` fills in. -/
namespace Mountain

/-! ### Bits -/

/-- The number of one bits. -/
def ones (n : ℕ) : ℕ := if n = 0 then 0 else ones (n / 2) + n % 2
termination_by n
decreasing_by omega

/-- The number of trailing one bits. -/
def trailingOnes (n : ℕ) : ℕ := if n % 2 = 1 then trailingOnes (n / 2) + 1 else 0
termination_by n
decreasing_by omega

@[simp] theorem ones_zero : ones 0 = 0 := by
  rw [ones]
  rfl

@[simp] theorem ones_two_mul (n : ℕ) : ones (2 * n) = ones n := by
  rcases Nat.eq_zero_or_pos n with rfl | pos
  · simp
  · rw [ones, if_neg (by omega)]
    have half : 2 * n / 2 = n := by omega
    simp [half]

@[simp] theorem ones_two_mul_add_one (n : ℕ) : ones (2 * n + 1) = ones n + 1 := by
  rw [ones, if_neg (by omega)]
  have half : (2 * n + 1) / 2 = n := by omega
  simp [half]

@[simp] theorem trailingOnes_two_mul (n : ℕ) : trailingOnes (2 * n) = 0 := by
  rw [trailingOnes]
  simp

@[simp] theorem trailingOnes_two_mul_add_one (n : ℕ) :
    trailingOnes (2 * n + 1) = trailingOnes n + 1 := by
  rw [trailingOnes, if_pos (by omega)]
  have half : (2 * n + 1) / 2 = n := by omega
  rw [half]

theorem ones_eq (n : ℕ) : ones n = ones (n / 2) + n % 2 := by
  rcases Nat.eq_zero_or_pos n with rfl | pos
  · simp
  · rw [ones, if_neg (by omega)]

theorem ones_le (n : ℕ) : ones n ≤ n := by
  induction n using Nat.evenOddRec with
  | h0 => simp
  | h_even n ih => simp only [ones_two_mul]; omega
  | h_odd n ih => simp only [ones_two_mul_add_one]; omega

/-- Adding one clears the trailing ones and sets the bit above them. -/
theorem ones_succ (n : ℕ) : ones (n + 1) + trailingOnes n = ones n + 1 := by
  induction n using Nat.evenOddRec with
  | h0 =>
    have one : ones 1 = 1 := by simpa using ones_two_mul_add_one 0
    have none : trailingOnes 0 = 0 := by simpa using trailingOnes_two_mul 0
    simp [one, none]
  | h_even n ih => simp
  | h_odd n ih =>
    have carry : 2 * n + 1 + 1 = 2 * (n + 1) := by ring
    rw [carry, ones_two_mul, trailingOnes_two_mul_add_one, ones_two_mul_add_one]
    omega

theorem ones_two_pow_add {j m : ℕ} (small : m < 2 ^ j) : ones (2 ^ j + m) = ones m + 1 := by
  induction j generalizing m with
  | zero =>
    obtain rfl : m = 0 := by simpa using small
    simpa using ones_two_mul_add_one 0
  | succ j ih =>
    obtain ⟨q, rfl | rfl⟩ := Nat.even_or_odd' m
    · have top : 2 ^ (j + 1) + 2 * q = 2 * (2 ^ j + q) := by ring
      rw [top, ones_two_mul, ones_two_mul, ih (by rw [pow_succ] at small; omega)]
    · have top : 2 ^ (j + 1) + (2 * q + 1) = 2 * (2 ^ j + q) + 1 := by ring
      rw [top, ones_two_mul_add_one, ones_two_mul_add_one, ih (by rw [pow_succ] at small; omega)]

theorem ones_two_pow_sub_one (j : ℕ) : ones (2 ^ j - 1) = j := by
  induction j with
  | zero => simp
  | succ j ih =>
    have full : 2 ^ (j + 1) - 1 = 2 * (2 ^ j - 1) + 1 := by
      have := Nat.one_le_two_pow (n := j)
      rw [pow_succ]
      omega
    rw [full, ones_two_mul_add_one, ih]

theorem trailingOnes_two_pow_sub_one (j : ℕ) : trailingOnes (2 ^ j - 1) = j := by
  induction j with
  | zero => simp [trailingOnes]
  | succ j ih =>
    have full : 2 ^ (j + 1) - 1 = 2 * (2 ^ j - 1) + 1 := by
      have := Nat.one_le_two_pow (n := j)
      rw [pow_succ]
      omega
    rw [full, trailingOnes_two_mul_add_one, ih]

/-- Below the top bit of a number that is not all ones, the trailing ones are those of
the rest. -/
theorem trailingOnes_two_pow_add {j m : ℕ} (small : m < 2 ^ j) (notFull : m ≠ 2 ^ j - 1) :
    trailingOnes (2 ^ j + m) = trailingOnes m := by
  induction j generalizing m with
  | zero => omega
  | succ j ih =>
    rw [pow_succ] at small notFull
    obtain ⟨q, rfl | rfl⟩ := Nat.even_or_odd' m
    · have top : 2 ^ (j + 1) + 2 * q = 2 * (2 ^ j + q) := by ring
      rw [top, trailingOnes_two_mul, trailingOnes_two_mul]
    · have top : 2 ^ (j + 1) + (2 * q + 1) = 2 * (2 ^ j + q) + 1 := by ring
      rw [top, trailingOnes_two_mul_add_one, trailingOnes_two_mul_add_one,
        ih (by omega) (by omega)]

theorem ones_pos {n : ℕ} (pos : 0 < n) : 0 < ones n := by
  induction n using Nat.evenOddRec with
  | h0 => omega
  | h_even n ih => rw [ones_two_mul]; exact ih (by omega)
  | h_odd n ih => rw [ones_two_mul_add_one]; omega

/-- The bits of `2^j * a + m`, for `m < 2^j`, are those of `a` above those of `m`. -/
theorem ones_two_pow_mul_add {j a m : ℕ} (small : m < 2 ^ j) : ones (2 ^ j * a + m) = ones a + ones m := by
  induction j generalizing m with
  | zero =>
    obtain rfl : m = 0 := by simpa using small
    simp
  | succ j ih =>
    obtain ⟨q, rfl | rfl⟩ := Nat.even_or_odd' m
    · have split : 2 ^ (j + 1) * a + 2 * q = 2 * (2 ^ j * a + q) := by ring
      rw [split, ones_two_mul, ones_two_mul, ih (by rw [pow_succ] at small; omega)]
    · have split : 2 ^ (j + 1) * a + (2 * q + 1) = 2 * (2 ^ j * a + q) + 1 := by ring
      rw [split, ones_two_mul_add_one, ones_two_mul_add_one, ih (by rw [pow_succ] at small; omega)]
      omega

theorem ones_two_pow_mul (j a : ℕ) : ones (2 ^ j * a) = ones a := by
  simpa using ones_two_pow_mul_add (a := a) (Nat.two_pow_pos j)

/-- Leaf `l` completes at least `h` parents exactly when `l + 1` is a multiple of `2^h`. -/
theorem le_trailingOnes_iff {h l : ℕ} : h ≤ trailingOnes l ↔ 2 ^ h ∣ l + 1 := by
  induction h generalizing l with
  | zero => simp
  | succ h ih =>
    obtain ⟨q, rfl | rfl⟩ := Nat.even_or_odd' l
    · have odd : ¬ 2 ^ (h + 1) ∣ 2 * q + 1 := fun divides => by
        have := (dvd_pow_self 2 (Nat.succ_ne_zero h)).trans divides
        omega
      simp [odd]
    · have double : 2 * q + 1 + 1 = 2 * (q + 1) := by ring
      rw [trailingOnes_two_mul_add_one, double, pow_succ', Nat.mul_dvd_mul_iff_left (by norm_num), ← ih]
      omega

/-! ### Perfect trees in post-order -/

/-- The height of position `r` in the perfect tree of height `j`: the positions of the
left subtree come first, then those of the right subtree, then the root. -/
def heightIn : ℕ → ℕ → ℕ
  | 0, _ => 0
  | j + 1, r =>
    if r < 2 ^ (j + 1) - 1 then heightIn j r
    else if r < 2 ^ (j + 2) - 2 then heightIn j (r - (2 ^ (j + 1) - 1))
    else j + 1

/-- A tree is the leftmost subtree of every taller one. -/
theorem heightIn_add {j r : ℕ} (inside : r ≤ 2 ^ (j + 1) - 2) (d : ℕ) :
    heightIn (j + d) r = heightIn j r := by
  induction d with
  | zero => rfl
  | succ d ih =>
    have grow : 2 ^ (j + 1) ≤ 2 ^ (j + d + 1) := Nat.pow_le_pow_right (by norm_num) (by omega)
    have two : 2 ≤ 2 ^ (j + 1) := by
      have := Nat.one_le_two_pow (n := j)
      rw [pow_succ]
      omega
    have left : r < 2 ^ (j + d + 1) - 1 := by omega
    rw [← add_assoc, heightIn, if_pos left, ih]

/-- The height of a position in an unbounded mountain range: its height in any perfect
tree from the left edge that reaches it. -/
def height (r : ℕ) : ℕ := heightIn (Nat.size r) r

theorem le_two_pow_size (r : ℕ) : r ≤ 2 ^ (Nat.size r + 1) - 2 := by
  have := Nat.lt_size_self r
  rw [pow_succ]
  omega

theorem heightIn_eq_height {j r : ℕ} (inside : r ≤ 2 ^ (j + 1) - 2) : heightIn j r = height r := by
  unfold height
  rcases le_total j (Nat.size r) with shorter | taller
  · rw [← Nat.add_sub_cancel' shorter, heightIn_add inside]
  · rw [← Nat.add_sub_cancel' taller, heightIn_add (le_two_pow_size r)]

/-! ### Peeling tree sizes -/

/-- Subtracting each of the tree sizes `2^j - 1, …, 3, 1` that still fits, largest
first. -/
def peel : ℕ → ℕ → ℕ
  | 0, h => h
  | j + 1, h => peel j (if 2 ^ (j + 1) - 1 ≤ h then h - (2 ^ (j + 1) - 1) else h)

/-- From the root of a tree of height `j` and above, peeling counts up from `j`. -/
theorem peel_root (j c : ℕ) : peel j (2 ^ (j + 1) - 2 + c) = j + c := by
  induction j generalizing c with
  | zero => simp [peel]
  | succ j ih =>
    have fits : 2 ^ (j + 1) - 1 ≤ 2 ^ (j + 1 + 1) - 2 + c := by
      rw [pow_succ 2 (j + 1)]
      omega
    have rest : 2 ^ (j + 1 + 1) - 2 + c - (2 ^ (j + 1) - 1) = 2 ^ (j + 1) - 2 + (c + 1) := by
      have := Nat.one_le_two_pow (n := j + 1)
      rw [pow_succ 2 (j + 1)]
      omega
    rw [peel, if_pos fits, rest, ih]
    ring

/-- Peeling computes the height of a position inside a tree of height `j`. -/
theorem peel_eq_heightIn {j r : ℕ} (inside : r ≤ 2 ^ (j + 1) - 2) : peel j r = heightIn j r := by
  induction j generalizing r with
  | zero =>
    obtain rfl : r = 0 := by simpa using inside
    rfl
  | succ j ih =>
    have double : 2 ^ (j + 2) = 2 * 2 ^ (j + 1) := by ring
    have one := Nat.one_le_two_pow (n := j + 1)
    rw [peel, heightIn]
    by_cases left : r < 2 ^ (j + 1) - 1
    · rw [if_neg (by omega), if_pos left, ih (by omega)]
    · rw [if_pos (by omega), if_neg left]
      by_cases right : r < 2 ^ (j + 2) - 2
      · rw [if_pos right, ih (by omega)]
      · -- the root: one more than the height of the left subtree's root
        have root : r - (2 ^ (j + 1) - 1) = 2 ^ (j + 1) - 2 + 1 := by omega
        rw [if_neg right, root, peel_root]

theorem height_eq_peel (r : ℕ) : height r = peel (Nat.size r) r :=
  (peel_eq_heightIn (le_two_pow_size r)).symm

/-! ### Leaf positions -/

/-- The position of leaf `l`: the nodes before it are its `l` predecessors and the
`l - ones l` parents they complete. -/
def leafPos (l : ℕ) : ℕ := 2 * l - ones l

/-- A leaf is followed by the parents it completes, then by the next leaf. -/
theorem leafPos_succ (l : ℕ) : leafPos (l + 1) = leafPos l + trailingOnes l + 1 := by
  have carry := ones_succ l
  have fewer := ones_le l
  unfold leafPos
  omega

theorem leafPos_two_pow_add {j m : ℕ} (small : m < 2 ^ j) :
    leafPos (2 ^ j + m) = (2 ^ (j + 1) - 1) + leafPos m := by
  have top := ones_two_pow_add small
  have fewer := ones_le m
  have one := Nat.one_le_two_pow (n := j)
  unfold leafPos
  rw [top, pow_succ]
  omega

theorem leafPos_two_pow_sub_one (j : ℕ) : leafPos (2 ^ j - 1) + j = 2 ^ (j + 1) - 2 := by
  have one := Nat.one_le_two_pow (n := j)
  have exceeds : j < 2 ^ j := Nat.lt_two_pow_self
  unfold leafPos
  rw [ones_two_pow_sub_one, pow_succ]
  omega

/-- A block of `2^j` leaves aligned at a multiple of `2^j` takes the positions it would take
at the start. -/
theorem leafPos_two_pow_mul_add {j a m : ℕ} (small : m < 2 ^ j) :
    leafPos (2 ^ j * a + m) = leafPos (2 ^ j * a) + leafPos m := by
  have split := ones_two_pow_mul_add (a := a) small
  have aligned := ones_two_pow_mul j a
  have fewer := ones_le a
  have fewer' := ones_le m
  have wide : a ≤ 2 ^ j * a := Nat.le_mul_of_pos_left a (Nat.two_pow_pos j)
  unfold leafPos
  rw [split, aligned]
  omega

/-- Inside a tree of height `j`, leaf `l` and the `trailingOnes l` parents after it have
heights `0, 1, …`. The induction is on the tree: a leaf of the right subtree is a leaf of
that subtree moved past the left one, and after the last leaf the chain ends at the
root. -/
theorem heightIn_leafPos_add {j l i : ℕ} (small : l < 2 ^ j) (chain : i ≤ trailingOnes l) :
    leafPos l + i ≤ 2 ^ (j + 1) - 2 ∧ heightIn j (leafPos l + i) = i := by
  induction j generalizing l i with
  | zero =>
    obtain rfl : l = 0 := by simpa using small
    have : i = 0 := by simpa [trailingOnes] using chain
    subst this
    simp [leafPos, heightIn]
  | succ j ih =>
    have double : 2 ^ (j + 2) = 2 * 2 ^ (j + 1) := by ring
    have half : 2 ^ (j + 1) = 2 * 2 ^ j := by ring
    have one := Nat.one_le_two_pow (n := j)
    by_cases leftHalf : l < 2 ^ j
    · obtain ⟨inside, h⟩ := ih leftHalf chain
      refine ⟨by omega, ?_⟩
      rw [heightIn, if_pos (by omega), h]
    · obtain ⟨m, rfl⟩ : ∃ m, l = 2 ^ j + m := ⟨l - 2 ^ j, by omega⟩
      have mSmall : m < 2 ^ j := by omega
      rw [leafPos_two_pow_add mSmall]
      -- within the right subtree, or the root above it
      have inRight : ∀ i', i' ≤ trailingOnes m →
          2 ^ (j + 1) - 1 + leafPos m + i' ≤ 2 ^ (j + 2) - 2 ∧
            heightIn (j + 1) (2 ^ (j + 1) - 1 + leafPos m + i') = i' := by
        intro i' chain'
        obtain ⟨inside, h⟩ := ih mSmall chain'
        refine ⟨by omega, ?_⟩
        rw [heightIn, if_neg (by omega), if_pos (by omega)]
        rw [show 2 ^ (j + 1) - 1 + leafPos m + i' - (2 ^ (j + 1) - 1) = leafPos m + i' by omega, h]
      by_cases last : m = 2 ^ j - 1
      · subst last
        rw [show 2 ^ j + (2 ^ j - 1) = 2 ^ (j + 1) - 1 by omega,
          trailingOnes_two_pow_sub_one] at chain
        rcases Nat.lt_or_ge i (j + 1) with below | above
        · exact inRight i (by rw [trailingOnes_two_pow_sub_one]; omega)
        · obtain rfl : i = j + 1 := by omega
          have root := leafPos_two_pow_sub_one j
          refine ⟨by omega, ?_⟩
          rw [heightIn, if_neg (by omega), if_neg (by omega)]
      · rw [trailingOnes_two_pow_add mSmall last] at chain
        exact inRight i chain

/-- Leaf `l` and the parents after it have heights `0, 1, …, trailingOnes l`. -/
theorem height_leafPos_add {l i : ℕ} (chain : i ≤ trailingOnes l) : height (leafPos l + i) = i := by
  obtain ⟨inside, h⟩ := heightIn_leafPos_add (Nat.lt_size_self l) chain
  rw [← heightIn_eq_height inside, h]

theorem height_leafPos (l : ℕ) : height (leafPos l) = 0 :=
  height_leafPos_add (Nat.zero_le _)

/-- Between two consecutive leaves every position is a parent. -/
theorem height_ne_zero {l q : ℕ} (after : leafPos l < q) (before : q < leafPos (l + 1)) :
    height q ≠ 0 := by
  rw [leafPos_succ] at before
  obtain ⟨i, rfl⟩ : ∃ i, q = leafPos l + i := ⟨q - leafPos l, by omega⟩
  rw [height_leafPos_add (by omega)]
  omega

theorem leafPos_zero : leafPos 0 = 0 := by
  simp [leafPos]

theorem leafPos_strictMono : StrictMono leafPos :=
  strictMono_nat_of_lt_succ fun l => by rw [leafPos_succ]; omega

/-- Every position lies between a leaf and the next. -/
theorem exists_leafPos_le (q : ℕ) : ∃ l, leafPos l ≤ q ∧ q < leafPos (l + 1) := by
  induction q with
  | zero => exact ⟨0, by rw [leafPos_zero], by rw [leafPos_succ, leafPos_zero]; omega⟩
  | succ q ih =>
    obtain ⟨l, lo, hi⟩ := ih
    by_cases inside : q + 1 < leafPos (l + 1)
    · exact ⟨l, by omega, inside⟩
    · exact ⟨l + 1, by omega, by rw [leafPos_succ (l + 1)]; omega⟩

/-- The positions of height 0 are the leaf positions. -/
theorem height_eq_zero_iff (q : ℕ) : height q = 0 ↔ ∃ l, leafPos l = q := by
  constructor
  · intro leaf
    obtain ⟨l, lo, hi⟩ := exists_leafPos_le q
    rcases lo.lt_or_eq with after | same
    · exact absurd leaf (height_ne_zero after hi)
    · exact ⟨l, same⟩
  · rintro ⟨l, rfl⟩
    exact height_leafPos l

/-- The leaves of the trees of sizes `2^j - 1, …, 3, 1` that peeling subtracts. -/
def peelLeaves : ℕ → ℕ → ℕ
  | 0, _ => 0
  | j + 1, h => if 2 ^ (j + 1) - 1 ≤ h then 2 ^ j + peelLeaves j (h - (2 ^ (j + 1) - 1)) else peelLeaves j h

/-- Peeling the position of leaf `l` counts the leaves before it: the trees it peels are
those of the bits of `l`. -/
theorem peelLeaves_leafPos {j l : ℕ} (small : l < 2 ^ j) : peelLeaves j (leafPos l) = l := by
  induction j generalizing l with
  | zero =>
    obtain rfl : l = 0 := by simpa using small
    rfl
  | succ j ih =>
    rw [peelLeaves]
    by_cases high : 2 ^ j ≤ l
    · obtain ⟨m, rfl⟩ : ∃ m, l = 2 ^ j + m := ⟨l - 2 ^ j, by omega⟩
      have mSmall : m < 2 ^ j := by rw [pow_succ] at small; omega
      rw [leafPos_two_pow_add mSmall, if_pos (by omega), Nat.add_sub_cancel_left, ih mSmall]
    · -- below the first leaf of the right half, the left half's last position bounds it
      have below : leafPos l < 2 ^ (j + 1) - 1 := by
        have before := leafPos_strictMono.monotone (show l ≤ 2 ^ j - 1 by omega)
        have last := leafPos_two_pow_sub_one j
        omega
      rw [if_neg (by omega), ih (by omega)]

/-! ### Parents and siblings -/

theorem heightIn_root (j : ℕ) : heightIn j (2 ^ (j + 1) - 2) = j := by
  have root := peel_root j 0
  rwa [add_zero, peel_eq_heightIn le_rfl] at root

theorem heightIn_zero (j : ℕ) : heightIn j 0 = 0 := by
  rw [heightIn_eq_height (Nat.zero_le _), ← heightIn_eq_height (j := 0) (by norm_num)]
  rfl

/-- The right subtree of a tree of height `j + 1` is a tree of height `j` after the left one. -/
theorem heightIn_right {j s : ℕ} (inside : s ≤ 2 ^ (j + 1) - 2) :
    heightIn (j + 1) (2 ^ (j + 1) - 1 + s) = heightIn j s := by
  have double : 2 ^ (j + 2) = 2 * 2 ^ (j + 1) := by ring
  have one := Nat.one_le_two_pow (n := j + 1)
  rw [heightIn, if_neg (by omega), if_pos (by omega), Nat.add_sub_cancel_left]

/-- Inside a perfect tree of height `j`, every node but the root is a right child, whose
parent follows it and whose sibling ends `2^(h+1)` positions before it, or a left child,
which the leftmost leaf of its sibling's subtree follows, and whose sibling and parent end
`2^(h+1) - 1` and `2^(h+1)` positions after it. The induction is on the tree: a node of
either subtree is one of that subtree, and the two subtree roots are the root's children. -/
theorem heightIn_family {j r : ℕ} (inside : r < 2 ^ (j + 1) - 2) :
    (heightIn j (r + 1) = heightIn j r + 1 ∧ 2 ^ (heightIn j r + 1) ≤ r + 1 ∧
        heightIn j (r + 1 - 2 ^ (heightIn j r + 1)) = heightIn j r) ∨
      (r + 2 ^ (heightIn j r + 1) ≤ 2 ^ (j + 1) - 2 ∧ heightIn j (r + 1) = 0 ∧
        heightIn j (r + 2 ^ (heightIn j r + 1) - 1) = heightIn j r ∧
        heightIn j (r + 2 ^ (heightIn j r + 1)) = heightIn j r + 1) := by
  induction j generalizing r with
  | zero => simp at inside
  | succ j ih =>
    have double : 2 ^ (j + 2) = 2 * 2 ^ (j + 1) := by ring
    have one := Nat.one_le_two_pow (n := j)
    have two : 2 ≤ 2 ^ (j + 1) := by rw [pow_succ]; omega
    -- positions of the left subtree keep their heights; those of the right one are moved
    have left : ∀ s, s ≤ 2 ^ (j + 1) - 2 → heightIn (j + 1) s = heightIn j s :=
      fun s inLeft => heightIn_add inLeft 1
    have right : ∀ s, s ≤ 2 ^ (j + 1) - 2 → heightIn (j + 1) (2 ^ (j + 1) - 1 + s) = heightIn j s :=
      fun s inRight => heightIn_right inRight
    have top : heightIn (j + 1) (2 ^ (j + 1 + 1) - 2) = j + 1 := heightIn_root (j + 1)
    rcases Nat.lt_or_ge r (2 ^ (j + 1) - 2) with inLeft | past
    · -- a node of the left subtree below its root
      rw [left r (by omega)]
      have grow := Nat.one_le_two_pow (n := heightIn j r)
      rcases ih inLeft with ⟨up, fits, sibling⟩ | ⟨fits, leaf, sibling, up⟩
      · refine .inl ⟨by rw [left (r + 1) (by omega), up], fits, ?_⟩
        rw [left (r + 1 - 2 ^ (heightIn j r + 1)) (by omega), sibling]
      · refine .inr ⟨by omega, by rw [left (r + 1) (by omega), leaf], ?_, by rw [left _ fits, up]⟩
        rw [left (r + 2 ^ (heightIn j r + 1) - 1) (by omega), sibling]
    rcases Nat.lt_or_ge r (2 ^ (j + 1) - 1) with atLeftRoot | inRight
    · -- the root of the left subtree: its sibling is the right subtree
      obtain rfl : r = 2 ^ (j + 1) - 2 := by omega
      rw [left _ le_rfl, heightIn_root]
      refine .inr ⟨by omega, ?_, ?_, ?_⟩
      · rw [show 2 ^ (j + 1) - 2 + 1 = 2 ^ (j + 1) - 1 + 0 by omega, right 0 (by omega), heightIn_zero]
      · rw [show 2 ^ (j + 1) - 2 + 2 ^ (j + 1) - 1 = 2 ^ (j + 1) - 1 + (2 ^ (j + 1) - 2) by omega,
          right _ le_rfl, heightIn_root]
      · rw [show 2 ^ (j + 1) - 2 + 2 ^ (j + 1) = 2 ^ (j + 1 + 1) - 2 by omega, top]
    obtain ⟨r', rfl⟩ : ∃ r', r = 2 ^ (j + 1) - 1 + r' := ⟨r - (2 ^ (j + 1) - 1), by omega⟩
    rcases Nat.lt_or_ge r' (2 ^ (j + 1) - 2) with inRight' | atRightRoot
    · -- a node of the right subtree below its root
      rw [right r' (by omega)]
      have grow := Nat.one_le_two_pow (n := heightIn j r')
      rcases ih inRight' with ⟨up, fits, sibling⟩ | ⟨fits, leaf, sibling, up⟩
      · refine .inl ⟨?_, by omega, ?_⟩
        · rw [show 2 ^ (j + 1) - 1 + r' + 1 = 2 ^ (j + 1) - 1 + (r' + 1) by omega, right _ (by omega), up]
        · rw [show 2 ^ (j + 1) - 1 + r' + 1 - 2 ^ (heightIn j r' + 1) =
              2 ^ (j + 1) - 1 + (r' + 1 - 2 ^ (heightIn j r' + 1)) by omega,
            right (r' + 1 - 2 ^ (heightIn j r' + 1)) (by omega), sibling]
      · refine .inr ⟨by omega, ?_, ?_, ?_⟩
        · rw [show 2 ^ (j + 1) - 1 + r' + 1 = 2 ^ (j + 1) - 1 + (r' + 1) by omega, right _ (by omega), leaf]
        · rw [show 2 ^ (j + 1) - 1 + r' + 2 ^ (heightIn j r' + 1) - 1 =
              2 ^ (j + 1) - 1 + (r' + 2 ^ (heightIn j r' + 1) - 1) by omega,
            right (r' + 2 ^ (heightIn j r' + 1) - 1) (by omega), sibling]
        · rw [show 2 ^ (j + 1) - 1 + r' + 2 ^ (heightIn j r' + 1) =
              2 ^ (j + 1) - 1 + (r' + 2 ^ (heightIn j r' + 1)) by omega, right _ fits, up]
    · -- the root of the right subtree: its parent is the root, its sibling the left subtree
      obtain rfl : r' = 2 ^ (j + 1) - 2 := by omega
      rw [right _ le_rfl, heightIn_root]
      refine .inl ⟨?_, by omega, ?_⟩
      · rw [show 2 ^ (j + 1) - 1 + (2 ^ (j + 1) - 2) + 1 = 2 ^ (j + 1 + 1) - 2 by omega, top]
      · rw [show 2 ^ (j + 1) - 1 + (2 ^ (j + 1) - 2) + 1 - 2 ^ (j + 1) = 2 ^ (j + 1) - 2 by omega,
          left _ le_rfl, heightIn_root]

/-- A node of height `h` ends a subtree of `2^(h+1) - 1` nodes. -/
theorem two_pow_heightIn_le {j r : ℕ} (inside : r ≤ 2 ^ (j + 1) - 2) : 2 ^ (heightIn j r + 1) ≤ r + 2 := by
  induction j generalizing r with
  | zero =>
    obtain rfl : r = 0 := by simpa using inside
    simp [heightIn]
  | succ j ih =>
    have double : 2 ^ (j + 2) = 2 * 2 ^ (j + 1) := by ring
    have one := Nat.one_le_two_pow (n := j)
    rw [heightIn]
    split_ifs with inLeft inRight
    · exact ih (by omega)
    · exact (ih (by omega)).trans (by omega)
    · rw [show j + 1 + 1 = j + 2 by ring]
      omega

theorem two_pow_height_le (p : ℕ) : 2 ^ (height p + 1) ≤ p + 2 :=
  two_pow_heightIn_le (le_two_pow_size p)

/-- Every position of the unbounded range is a right child, whose parent follows it and whose
sibling ends `2^(h+1)` positions before it, or a left child, which a leaf follows, and whose
sibling and parent end `2^(h+1) - 1` and `2^(h+1)` positions after it. -/
theorem height_family (p : ℕ) :
    (height (p + 1) = height p + 1 ∧ 2 ^ (height p + 1) ≤ p + 1 ∧
        height (p + 1 - 2 ^ (height p + 1)) = height p) ∨
      (height (p + 1) = 0 ∧ height (p + 2 ^ (height p + 1) - 1) = height p ∧
        height (p + 2 ^ (height p + 1)) = height p + 1) := by
  -- a tree one level above the one that reaches p holds p below its root
  have reach := le_two_pow_size p
  have inside : p < 2 ^ (Nat.size p + 1 + 1) - 2 := by
    rw [pow_succ 2 (Nat.size p + 1)]
    have := Nat.one_le_two_pow (n := Nat.size p + 1)
    omega
  have h := heightIn_eq_height (le_of_lt inside)
  have grow := Nat.one_le_two_pow (n := height p)
  have lift : ∀ s, s ≤ 2 ^ (Nat.size p + 1 + 1) - 2 → heightIn (Nat.size p + 1) s = height s :=
    fun s below => heightIn_eq_height below
  rcases heightIn_family inside with ⟨up, fits, sibling⟩ | ⟨fits, leaf, sibling, up⟩
  · rw [h, lift (p + 1) (by omega)] at up
    rw [h] at fits sibling
    rw [lift (p + 1 - 2 ^ (height p + 1)) (by omega)] at sibling
    exact .inl ⟨up, fits, sibling⟩
  · rw [h] at fits sibling up
    rw [lift (p + 1) (by omega)] at leaf
    rw [lift (p + 2 ^ (height p + 1) - 1) (by omega)] at sibling
    rw [lift (p + 2 ^ (height p + 1)) fits] at up
    exact .inr ⟨leaf, sibling, up⟩

/-! ### The nodes of one height -/

/-- The position of the node of height `h` numbered `i` from the left: the `h`-th parent that
leaf `(i + 1) * 2^h - 1` completes. -/
def nodePos (h i : ℕ) : ℕ := leafPos ((i + 1) * 2 ^ h - 1) + h

/-- Node `i` of height `h` is the root of the tree over leaves `2^h * i, …`, which ends
`2^(h+1) - 2` positions after its first leaf. -/
theorem nodePos_eq (h i : ℕ) : nodePos h i = leafPos (2 ^ h * i) + (2 ^ (h + 1) - 2) := by
  have one := Nat.one_le_two_pow (n := h)
  have block : (i + 1) * 2 ^ h - 1 = 2 ^ h * i + (2 ^ h - 1) := by
    rw [add_mul, one_mul, mul_comm]
    omega
  have last := leafPos_two_pow_sub_one h
  unfold nodePos
  rw [block, leafPos_two_pow_mul_add (by omega)]
  omega

theorem nodePos_add_ones (h i : ℕ) : nodePos h i + ones i + 2 = 2 ^ (h + 1) * (i + 1) := by
  have wide : i ≤ 2 ^ h * i := Nat.le_mul_of_pos_left i (Nat.two_pow_pos h)
  have fewer := ones_le i
  have one := Nat.one_le_two_pow (n := h)
  have spread : 2 ^ (h + 1) * (i + 1) = 2 * (2 ^ h * i) + 2 * 2 ^ h := by ring
  rw [nodePos_eq, leafPos, ones_two_pow_mul, spread, pow_succ]
  omega

theorem height_nodePos (h i : ℕ) : height (nodePos h i) = h := by
  have filled : 1 ≤ (i + 1) * 2 ^ h := Nat.one_le_iff_ne_zero.2 (by positivity)
  apply height_leafPos_add
  rw [le_trailingOnes_iff, Nat.sub_add_cancel filled]
  exact Dvd.intro_left _ rfl

/-- The next node of a height is a tree of that height later, plus the parents that the
last leaf before it completes above that height. -/
theorem nodePos_succ (h i : ℕ) : nodePos h (i + 1) = nodePos h i + (2 ^ (h + 1) - 1) + trailingOnes i := by
  have here := nodePos_add_ones h i
  have next := nodePos_add_ones h (i + 1)
  have carry := ones_succ i
  have one := Nat.one_le_two_pow (n := h + 1)
  have spread : 2 ^ (h + 1) * (i + 1 + 1) = 2 ^ (h + 1) * (i + 1) + 2 ^ (h + 1) := by ring
  omega

/-- A left child is followed by the first leaf under its sibling. -/
theorem nodePos_two_mul_add_one (h a : ℕ) : nodePos h (2 * a) + 1 = leafPos (2 ^ h * (2 * a + 1)) := by
  have first : leafPos (2 ^ h) = 2 ^ (h + 1) - 1 := by
    simpa [leafPos_zero] using leafPos_two_pow_add (Nat.two_pow_pos h)
  have double : 2 ^ (h + 1) = 2 ^ h * 2 := pow_succ 2 h
  have one := Nat.one_le_two_pow (n := h)
  have sibling := leafPos_two_pow_mul_add (j := h + 1) (a := a) (m := 2 ^ h) (by omega)
  rw [nodePos_eq, show 2 ^ h * (2 * a) = 2 ^ (h + 1) * a by ring,
    show 2 ^ h * (2 * a + 1) = 2 ^ (h + 1) * a + 2 ^ h by ring, sibling, first]
  omega

theorem nodePos_strictMono (h : ℕ) : StrictMono (nodePos h) :=
  strictMono_nat_of_lt_succ fun i => by
    have two : 2 ≤ 2 ^ (h + 1) := Nat.le_self_pow (Nat.succ_ne_zero h) 2
    rw [nodePos_succ]
    omega

theorem le_nodePos (h i : ℕ) : i ≤ nodePos h i := by
  have sum := nodePos_add_ones h i
  have fewer := ones_le i
  have two : 2 * (i + 1) ≤ 2 ^ (h + 1) * (i + 1) :=
    Nat.mul_le_mul_right _ (Nat.le_self_pow (Nat.succ_ne_zero h) 2)
  omega

/-- The next node of a height lies less than twice as far out. -/
theorem nodePos_succ_le (h i : ℕ) : nodePos h (i + 1) ≤ 2 * nodePos h i + 1 := by
  have here := nodePos_add_ones h i
  have next := nodePos_add_ones h (i + 1)
  have fewer := ones_le i
  have some := ones_pos (show 0 < i + 1 by omega)
  have two : 2 * i ≤ 2 ^ (h + 1) * i := Nat.mul_le_mul_right _ (Nat.le_self_pow (Nat.succ_ne_zero h) 2)
  have spread : 2 ^ (h + 1) * (i + 1) = 2 ^ (h + 1) * i + 2 ^ (h + 1) := by ring
  have spread' : 2 ^ (h + 1) * (i + 1 + 1) = 2 ^ (h + 1) * i + 2 * 2 ^ (h + 1) := by ring
  omega

/-- The positions of height `h` are the nodes `nodePos h i`. -/
theorem height_eq_iff {h q : ℕ} : height q = h ↔ ∃ i, nodePos h i = q := by
  constructor
  · intro level
    obtain ⟨l, lo, hi⟩ := exists_leafPos_le q
    rw [leafPos_succ] at hi
    obtain ⟨c, rfl⟩ : ∃ c, q = leafPos l + c := ⟨q - leafPos l, by omega⟩
    have chain : c ≤ trailingOnes l := by omega
    rw [height_leafPos_add chain] at level
    subst level
    obtain ⟨a, block⟩ := le_trailingOnes_iff.1 chain
    have pos : 1 ≤ a := by
      rcases a with _ | a
      · simp at block
      · omega
    refine ⟨a - 1, ?_⟩
    unfold nodePos
    rw [Nat.sub_add_cancel pos, mul_comm, ← block, Nat.add_sub_cancel]
  · rintro ⟨i, rfl⟩
    exact height_nodePos h i

/-- Node `i` of height `h` lies before leaf `k` exactly when its leaves do. -/
theorem nodePos_lt_leafPos_iff {h i k : ℕ} : nodePos h i < leafPos k ↔ 2 ^ h * (i + 1) ≤ k := by
  have filled : 1 ≤ (i + 1) * 2 ^ h := Nat.one_le_iff_ne_zero.2 (by positivity)
  have chain : h ≤ trailingOnes ((i + 1) * 2 ^ h - 1) := by
    rw [le_trailingOnes_iff, Nat.sub_add_cancel filled]
    exact Dvd.intro_left _ rfl
  have after := leafPos_succ ((i + 1) * 2 ^ h - 1)
  rw [Nat.sub_add_cancel filled] at after
  rw [mul_comm]
  constructor
  · intro before
    by_contra past
    have := leafPos_strictMono.monotone (show k ≤ (i + 1) * 2 ^ h - 1 by omega)
    unfold nodePos at before
    omega
  · intro within
    have := leafPos_strictMono.monotone within
    unfold nodePos
    omega

/-! ### Children and leaves of a node -/

/-- The right child of node `i` of height `h + 1` stands just before it. -/
theorem nodePos_right_child (h i : ℕ) : nodePos h (2 * i + 1) + 1 = nodePos (h + 1) i := by
  unfold nodePos
  rw [show (2 * i + 1 + 1) * 2 ^ h = (i + 1) * 2 ^ (h + 1) by ring]
  omega

/-- The left child of node `i` of height `h + 1` stands `2^(h+1)` before it, the size of the
right subtree plus one. -/
theorem nodePos_left_child (h i : ℕ) : nodePos h (2 * i) + 2 ^ (h + 1) = nodePos (h + 1) i := by
  have after := nodePos_two_mul_add_one h i
  have right := nodePos_right_child h i
  have one := Nat.one_le_two_pow (n := h + 1)
  rw [nodePos_eq h (2 * i + 1)] at right
  omega

/-- A position names one node: its height and its number. -/
theorem nodePos_inj {h i h' i' : ℕ} (same : nodePos h i = nodePos h' i') : h = h' ∧ i = i' := by
  have level : h = h' := by rw [← height_nodePos h i, same, height_nodePos]
  subst level
  exact ⟨rfl, (nodePos_strictMono h).injective same⟩

/-- Above the leaves, a node lies at or before leaf `k` exactly when its leaves come before it. -/
theorem nodePos_le_leafPos_iff {h i k : ℕ} (above : 0 < h) : nodePos h i ≤ leafPos k ↔ 2 ^ h * (i + 1) ≤ k := by
  rw [← nodePos_lt_leafPos_iff]
  constructor
  · intro within
    refine lt_of_le_of_ne within fun same => ?_
    have := height_nodePos h i
    rw [same, height_leafPos] at this
    omega
  · exact le_of_lt

/-- The node after one whose leaves end below `2^n` ends below `2^(n+1)`. -/
theorem nodePos_succ_lt {h i n : ℕ} (low : h ≤ n) (within : 2 ^ h * (i + 1) < 2 ^ n) :
    nodePos h (i + 1) < 2 ^ (n + 1) := by
  have split : 2 ^ n = 2 ^ h * 2 ^ (n - h) := by rw [← pow_add, Nat.add_sub_cancel' low]
  have next : i + 2 ≤ 2 ^ (n - h) := by
    rw [split] at within
    have := Nat.lt_of_mul_lt_mul_left within
    omega
  have bound : 2 ^ h * (i + 2) ≤ 2 ^ n := by
    rw [split]
    exact Nat.mul_le_mul_left _ next
  have expand : 2 ^ h * (i + 2) = 2 ^ h * (i + 1) + 2 ^ h := by ring
  have spread : 2 ^ (n + 1) = 2 * 2 ^ n := by ring
  have double : 2 ^ (h + 1) = 2 * 2 ^ h := by ring
  rw [nodePos_eq, leafPos]
  omega

/-- The leaves under node `i` of height `h`. -/
def leavesUnder (h i : ℕ) : Finset ℕ := Finset.Ico (2 ^ h * i) (2 ^ h * (i + 1))

theorem mem_leavesUnder {h i l : ℕ} : l ∈ leavesUnder h i ↔ l / 2 ^ h = i := by
  have pos := Nat.two_pow_pos h
  rw [leavesUnder, Finset.mem_Ico, Nat.div_eq_iff pos, mul_add, mul_one, mul_comm i]
  omega

/-- The leaves under a node are those under its two children. -/
theorem mem_leavesUnder_succ {h i l : ℕ} :
    l ∈ leavesUnder (h + 1) i ↔ l ∈ leavesUnder h (2 * i) ∨ l ∈ leavesUnder h (2 * i + 1) := by
  simp only [mem_leavesUnder, pow_succ, ← Nat.div_div_eq_div_mul]
  omega

/-- The node of height `h + 1` above node `i` of height `h` is number `i / 2`. -/
theorem mem_leavesUnder_parent {h i l : ℕ} (under : l ∈ leavesUnder h i) : l ∈ leavesUnder (h + 1) (i / 2) := by
  rw [mem_leavesUnder] at *
  rw [pow_succ, ← Nat.div_div_eq_div_mul, under]

/-- The nodes whose leaves meet are nested: the lower one lies under the higher one. -/
theorem leavesUnder_nested {h i h' i' l : ℕ} (low : h ≤ h') (under : l ∈ leavesUnder h i)
    (under' : l ∈ leavesUnder h' i') : i / 2 ^ (h' - h) = i' := by
  rw [mem_leavesUnder] at *
  rw [← under, ← under', Nat.div_div_eq_div_mul, ← pow_add, Nat.add_sub_cancel' low]

/-! ### Filling bits to the right -/

/-- `m` rounds of or-ing a number with its right shifts by `1, 2, 4, …`. -/
def spread : ℕ → ℕ → ℕ
  | 0, x => x
  | m + 1, x => spread m x ||| (spread m x >>> 2 ^ m)

theorem testBit_spread (m x i : ℕ) :
    (spread m x).testBit i = decide (∃ k < 2 ^ m, x.testBit (i + k)) := by
  induction m generalizing i with
  | zero => simp [spread]
  | succ m ih =>
    rw [spread, Nat.testBit_or, Nat.testBit_shiftRight, ih, ih]
    apply Bool.eq_iff_iff.2
    simp only [Bool.or_eq_true, decide_eq_true_eq]
    constructor
    · rintro (⟨k, small, set⟩ | ⟨k, small, set⟩)
      · exact ⟨k, by rw [pow_succ]; omega, set⟩
      · have shifted : 2 ^ m + i + k = i + (2 ^ m + k) := by omega
        exact ⟨2 ^ m + k, by rw [pow_succ]; omega, by rwa [← shifted]⟩
    · rintro ⟨k, small, set⟩
      by_cases low : k < 2 ^ m
      · exact .inl ⟨k, low, set⟩
      · refine .inr ⟨k - 2 ^ m, by rw [pow_succ] at small; omega, ?_⟩
        have shifted : 2 ^ m + i + (k - 2 ^ m) = i + k := by omega
        rwa [shifted]

/-- On numbers of at most `2^m` bits, spreading fills every bit below the top one. -/
theorem spread_eq {m x : ℕ} (narrow : x < 2 ^ 2 ^ m) : spread m x = 2 ^ Nat.size x - 1 := by
  apply Nat.eq_of_testBit_eq
  intro i
  rw [testBit_spread, Nat.testBit_two_pow_sub_one]
  apply Bool.eq_iff_iff.2
  simp only [decide_eq_true_eq]
  have width : Nat.size x ≤ 2 ^ m := Nat.size_le.2 narrow
  constructor
  · rintro ⟨k, -, set⟩
    by_contra above
    rw [Nat.testBit_lt_two_pow (lt_of_lt_of_le (Nat.lt_size_self x)
      (Nat.pow_le_pow_right (by norm_num) (by omega)))] at set
    exact Bool.false_ne_true set
  · intro below
    have nonzero : x ≠ 0 := by
      rintro rfl
      simp at below
    obtain ⟨top, set, clear⟩ := Nat.exists_most_significant_bit nonzero
    have atLeast : 2 ^ i ≤ x := Nat.lt_size.1 below
    have under : x < 2 ^ (top + 1) :=
      Nat.lt_pow_two_of_testBit x fun j above => clear j (by omega)
    have reach : i ≤ top := by
      by_contra past
      have := Nat.pow_le_pow_right (n := 2) (by norm_num) (show top + 1 ≤ i by omega)
      omega
    have topBelow : top < Nat.size x := by
      by_contra past
      rw [Nat.testBit_lt_two_pow (lt_of_lt_of_le (Nat.lt_size_self x)
        (Nat.pow_le_pow_right (by norm_num) (by omega)))] at set
      exact Bool.false_ne_true set
    exact ⟨top - i, by omega, by rwa [Nat.add_sub_cancel' reach]⟩

end Mountain
