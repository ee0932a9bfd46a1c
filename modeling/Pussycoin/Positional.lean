import Mathlib.Data.Nat.Digits.Lemmas

/-! Numbers written as digits in a base, most significant first, as address encoders write
them. `value b v ds` is what the digits `ds` stand for after a value `v` read already: the
loop "v = v * b + d" over them. Mathlib's `Nat.digits` lists the digits the other way round. -/
namespace Positional

def value (b v : ℕ) (ds : List ℕ) : ℕ := ds.foldl (fun v d => v * b + d) v

@[simp] theorem value_nil (b v : ℕ) : value b v [] = v := rfl

@[simp] theorem value_cons (b v d : ℕ) (ds : List ℕ) : value b v (d :: ds) = value b (v * b + d) ds := rfl

theorem value_append (b v : ℕ) (ds es : List ℕ) : value b v (ds ++ es) = value b (value b v ds) es :=
  List.foldl_append

theorem value_eq (b v : ℕ) (ds : List ℕ) : value b v ds = v * b ^ ds.length + value b 0 ds := by
  induction ds generalizing v with
  | nil => simp
  | cons d ds ih =>
    rw [value_cons, value_cons, ih, ih (0 * b + d), List.length_cons, pow_succ]
    ring

theorem value_eq_ofDigits (b : ℕ) (ds : List ℕ) : value b 0 ds = Nat.ofDigits b ds.reverse := by
  induction ds using List.reverseRecOn with
  | nil => rfl
  | append_singleton ds d ih =>
    rw [value_append, value_cons, value_nil, ih, List.reverse_append, List.reverse_singleton,
      List.singleton_append, Nat.ofDigits_cons]
    ring

variable {b : ℕ}

theorem value_lt (hb : 1 < b) {ds : List ℕ} (small : ∀ d ∈ ds, d < b) : value b 0 ds < b ^ ds.length := by
  rw [value_eq_ofDigits, ← List.length_reverse]
  exact Nat.ofDigits_lt_base_pow_length hb fun d mem => small d (List.mem_reverse.mp mem)

theorem value_mono {v w : ℕ} (le : v ≤ w) (ds : List ℕ) : value b v ds ≤ value b w ds := by
  rw [value_eq, value_eq b w]
  have := Nat.mul_le_mul_right (b ^ ds.length) le
  omega

theorem le_value (hb : 0 < b) (v : ℕ) (ds : List ℕ) : v ≤ value b v ds := by
  rw [value_eq]
  have := Nat.le_mul_of_pos_right v (Nat.pow_pos hb : 0 < b ^ ds.length)
  omega

theorem value_digits (n : ℕ) : value b 0 (Nat.digits b n).reverse = n := by
  rw [value_eq_ofDigits, List.reverse_reverse, Nat.ofDigits_digits]

/-- Digits below the base with a first digit that is not zero are the digits of their value. -/
theorem digits_value (hb : 1 < b) {ds : List ℕ} (small : ∀ d ∈ ds, d < b) (lead : ∀ d ∈ ds.head?, d ≠ 0) :
    (Nat.digits b (value b 0 ds)).reverse = ds := by
  rw [value_eq_ofDigits, Nat.digits_ofDigits b hb _ (fun d mem => small d (List.mem_reverse.mp mem)),
    List.reverse_reverse]
  intro nonempty
  rw [List.getLast_reverse]
  exact lead _ (List.head?_eq_some_head _ ▸ rfl)

/-- The leading digit of a number is the number divided by the weight of its place. -/
theorem digits_reverse_cons (hb : 1 < b) {n d : ℕ} {ds : List ℕ} (split : (Nat.digits b n).reverse = d :: ds) :
    n / b ^ ds.length = d := by
  have small : ∀ e ∈ ds, e < b := fun e mem =>
    Nat.digits_lt_base hb (List.mem_reverse.mp (split ▸ List.mem_cons_of_mem d mem))
  have read := value_digits (b := b) n
  rw [split, value_cons, Nat.zero_mul, Nat.zero_add, value_eq] at read
  rw [← read, Nat.add_comm, Nat.add_mul_div_right _ _ (Nat.pow_pos (by omega)),
    Nat.div_eq_of_lt (value_lt hb small), Nat.zero_add]

/-- Digits below the base are fixed by their number and their value. -/
theorem value_inj (hb : 1 < b) {ds es : List ℕ} (sameLength : ds.length = es.length) (smallD : ∀ d ∈ ds, d < b)
    (smallE : ∀ e ∈ es, e < b) (same : value b 0 ds = value b 0 es) : ds = es := by
  rw [value_eq_ofDigits, value_eq_ofDigits] at same
  have reversed := Nat.ofDigits_inj_of_len_eq hb (by simpa using sameLength)
    (fun d mem => smallD d (List.mem_reverse.mp mem)) (fun e mem => smallE e (List.mem_reverse.mp mem)) same
  exact List.reverse_injective reversed

/-- Below a number shifted left by `i` bits, XOR with fewer than `i` bits adds them. -/
theorem shiftLeft_xor_of_lt {i c : ℕ} (small : c < 2 ^ i) (a : ℕ) : a <<< i ^^^ c = a * 2 ^ i + c := by
  have low : (a <<< i ^^^ c) % 2 ^ i = c := by
    rw [Nat.xor_mod_two_pow, Nat.shiftLeft_eq, Nat.mul_mod_left, Nat.zero_xor, Nat.mod_eq_of_lt small]
  have high : (a <<< i ^^^ c) / 2 ^ i = a := by
    rw [Nat.xor_div_two_pow, Nat.shiftLeft_eq, Nat.mul_div_cancel _ (Nat.two_pow_pos i), Nat.div_eq_of_lt small,
      Nat.xor_zero]
  rw [← Nat.div_add_mod (a <<< i ^^^ c) (2 ^ i), low, high, mul_comm]

/-- The low `n` bits of a number are its `k` bits below them, then its low `n - k` bits. -/
theorem mod_two_pow_split (a : ℕ) {k n : ℕ} (le : k ≤ n) :
    a % 2 ^ n = (a >>> (n - k) &&& 2 ^ k - 1) * 2 ^ (n - k) + a % 2 ^ (n - k) := by
  have split : 2 ^ n = 2 ^ (n - k) * 2 ^ k := by rw [← pow_add, Nat.sub_add_cancel le]
  have low : a % 2 ^ n % 2 ^ (n - k) = a % 2 ^ (n - k) :=
    Nat.mod_mod_of_dvd a (split ▸ Dvd.intro _ rfl)
  rw [Nat.and_two_pow_sub_one_eq_mod, Nat.shiftRight_eq_div_pow, ← Nat.mod_mul_right_div_self, ← split, ← low,
    Nat.div_add_mod' (a % 2 ^ n) (2 ^ (n - k))]

/-- Shifting `x` in below a number and keeping the low `n + i` bits appends `x` to its low `n`. -/
theorem shiftLeft_or_mod {i x : ℕ} (small : x < 2 ^ i) (a n : ℕ) :
    (a <<< i ||| x) % 2 ^ (n + i) = a % 2 ^ n * 2 ^ i + x := by
  have high : (a * 2 ^ i + x) / 2 ^ i = a := by
    rw [Nat.mul_comm, Nat.mul_add_div (Nat.two_pow_pos i), Nat.div_eq_of_lt small, Nat.add_zero]
  rw [← Nat.shiftLeft_add_eq_or_of_lt small, Nat.shiftLeft_eq, pow_add, Nat.mul_comm (2 ^ n), Nat.mod_mul,
    Nat.mul_add_mod_of_lt small, high]
  ring

end Positional
