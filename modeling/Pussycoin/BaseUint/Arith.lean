import Pussycoin.Limbs
import Pussycoin.ArithUint256

/-! `base_uint<BITS>` of `arith_uint256.{h,cpp}` limb by limb: `WIDTH = BITS / 32` limbs
`uint32_t pn[WIDTH]`, least significant first, and the loops of its arithmetic, comparison and
bit-length operators. Each loop is shown to compute its operation on the value the limbs stand
for, modulo `2^BITS`: the carry loops through `Limbs.propagate`, with the 64-bit accumulator
never wrapping. -/
namespace Pussycoin

open Limbs

/-- `base_uint<BITS>` with `WIDTH = BITS / 32`: exactly `WIDTH` limbs. -/
structure BaseUint (WIDTH : ℕ) where
  pn : List UInt32
  length_pn : pn.length = WIDTH

namespace BaseUint

variable {WIDTH : ℕ}

/-- The number the limbs stand for. -/
def value (a : BaseUint WIDTH) : ℕ := Limbs.value a.pn

theorem value_lt (a : BaseUint WIDTH) : a.value < 2 ^ (32 * WIDTH) := by
  simpa only [value, a.length_pn] using Limbs.value_lt a.pn

theorem ext_value {a b : BaseUint WIDTH} (same : a.value = b.value) : a = b := by
  obtain ⟨pn, length⟩ := a
  obtain ⟨bn, length'⟩ := b
  have limbs : pn = bn := by
    apply value_eq_of_getD (length.trans length'.symm)
    intro m inside
    apply UInt32.toNat_inj.1
    apply Nat.eq_of_testBit_eq
    intro t
    by_cases low : t < 32
    · have bit := congrArg (fun v => Nat.testBit v (32 * m + t)) same
      simpa only [value, testBit_value _ _ low] using bit
    · rw [Nat.testBit_lt_two_pow ((UInt32.toNat_lt _).trans_le (Nat.pow_le_pow_right (by norm_num) (by omega))),
        Nat.testBit_lt_two_pow ((UInt32.toNat_lt _).trans_le (Nat.pow_le_pow_right (by norm_num) (by omega)))]
  subst limbs
  rfl

/-- The default constructor: every limb zero. -/
def zero : BaseUint WIDTH := ⟨List.replicate WIDTH 0, List.length_replicate⟩

@[simp] theorem value_zero : (zero : BaseUint WIDTH).value = 0 := value_replicate_zero WIDTH

/-- `base_uint(uint64_t b)` and `operator=(uint64_t b)`: the two low limbs of `b`, the rest zero. -/
def ofUInt64 (wide : 2 ≤ WIDTH) (b : UInt64) : BaseUint WIDTH :=
  ⟨b.toUInt32 :: (b >>> 32).toUInt32 :: List.replicate (WIDTH - 2) 0, by simp; omega⟩

theorem value_ofUInt64 (wide : 2 ≤ WIDTH) (b : UInt64) : (ofUInt64 wide b).value = b.toNat := by
  have := b.toNat_lt
  simp only [ofUInt64, value, value_cons, value_replicate_zero, mul_zero, add_zero, UInt64.toNat_toUInt32,
    high_limb]
  omega

/-! ### Addition and its inverses -/

/-- The loop of `operator+=`: limb by limb, with the carry in a 64-bit word. -/
def addLoop : List UInt32 → List UInt32 → UInt64 → List UInt32
  | p :: pn, b :: bn, carry =>
    let n := carry + p.toUInt64 + b.toUInt64
    (n &&& 0xffffffff).toUInt32 :: addLoop pn bn (n >>> 32)
  | _, _, _ => []

/-- The accumulator of `operator+=` does not wrap while the carry is below `2^32`. -/
theorem add_accumulator {carry : UInt64} (small : carry.toNat < 2 ^ 32) (p b : UInt32) :
    (carry + p.toUInt64 + b.toUInt64).toNat = p.toNat + b.toNat + carry.toNat := by
  have hp := p.toNat_lt
  have hb := b.toNat_lt
  rw [UInt64.toNat_add, UInt64.toNat_add, UInt32.toNat_toUInt64, UInt32.toNat_toUInt64,
    Nat.mod_eq_of_lt (by omega), Nat.mod_eq_of_lt (by omega)]
  ring

/-- `operator+=` propagates the carry through the limb sums. -/
theorem addLoop_eq : ∀ (pn bn : List UInt32) (carry : UInt64), carry.toNat < 2 ^ 32 →
    addLoop pn bn carry = propagate (List.zipWith (fun p b => p.toNat + b.toNat) pn bn) carry.toNat
  | p :: pn, b :: bn, carry, small => by
    have sum := add_accumulator small p b
    have next : (carry + p.toUInt64 + b.toUInt64).toNat / 2 ^ 32 < 2 ^ 32 := by
      have := p.toNat_lt
      have := b.toNat_lt
      omega
    rw [addLoop, List.zipWith_cons_cons, propagate, low_limb, sum,
      addLoop_eq pn bn _ (by rwa [high_limb]), high_limb, sum]
  | [], _, _, _ => rfl
  | _ :: _, [], _, _ => rfl

theorem ofDigits_zipWith_add : ∀ (pn bn : List UInt32), pn.length = bn.length →
    Nat.ofDigits (2 ^ 32) (List.zipWith (fun p b => p.toNat + b.toNat) pn bn) = Limbs.value pn + Limbs.value bn
  | p :: pn, b :: bn, same => by
    rw [List.zipWith_cons_cons, Nat.ofDigits_cons, ofDigits_zipWith_add pn bn (by simpa using same),
      value_cons, value_cons]
    ring
  | [], [], _ => rfl

/-- `operator+=`. -/
def add (a b : BaseUint WIDTH) : BaseUint WIDTH :=
  ⟨addLoop a.pn b.pn 0, by rw [addLoop_eq _ _ _ (by decide)]; simp [a.length_pn, b.length_pn]⟩

instance : Add (BaseUint WIDTH) := ⟨add⟩

theorem value_add (a b : BaseUint WIDTH) : (a + b).value = (a.value + b.value) % 2 ^ (32 * WIDTH) := by
  change Limbs.value (addLoop a.pn b.pn 0) = _
  rw [addLoop_eq _ _ _ (by decide), value_propagate, ofDigits_zipWith_add _ _ (a.length_pn.trans b.length_pn.symm),
    List.length_zipWith, a.length_pn, b.length_pn, min_self]
  rfl

/-- `operator~`: every limb complemented. -/
def complement (a : BaseUint WIDTH) : BaseUint WIDTH := ⟨a.pn.map (~~~·), by simp [a.length_pn]⟩

instance : Complement (BaseUint WIDTH) := ⟨complement⟩

theorem value_map_not (pn : List UInt32) : Limbs.value (pn.map (~~~·)) + Limbs.value pn + 1 = 2 ^ (32 * pn.length) := by
  induction pn with
  | nil => rfl
  | cons p pn ih =>
    have flipped : (~~~p).toNat + p.toNat = 2 ^ 32 - 1 := by
      rw [UInt32.toNat_not]
      have := p.toNat_lt
      simp only [UInt32.size]
      omega
    rw [List.map_cons, value_cons, value_cons, List.length_cons, show 32 * (pn.length + 1) = 32 + 32 * pn.length by ring,
      pow_add, ← ih]
    calc (~~~p).toNat + 2 ^ 32 * Limbs.value (pn.map (~~~·)) + (p.toNat + 2 ^ 32 * Limbs.value pn) + 1
        = ((~~~p).toNat + p.toNat) + 1 + 2 ^ 32 * (Limbs.value (pn.map (~~~·)) + Limbs.value pn) := by ring
      _ = _ := by rw [flipped]; ring

theorem value_complement (a : BaseUint WIDTH) : (~~~a).value = 2 ^ (32 * WIDTH) - 1 - a.value := by
  have total := value_map_not a.pn
  rw [a.length_pn] at total
  change Limbs.value (a.pn.map (~~~·)) = _
  unfold value
  omega

/-- The loop of the prefix `operator++`: `++pn[i]`, moving up while the limb wraps to zero. -/
def incrementLoop : List UInt32 → List UInt32
  | [] => []
  | p :: pn => if p + 1 = 0 then (p + 1) :: incrementLoop pn else (p + 1) :: pn

@[simp] theorem length_incrementLoop (pn : List UInt32) : (incrementLoop pn).length = pn.length := by
  induction pn with
  | nil => rfl
  | cons p pn ih => unfold incrementLoop; split_ifs <;> simp [ih]

theorem value_incrementLoop (pn : List UInt32) :
    Limbs.value (incrementLoop pn) = (Limbs.value pn + 1) % 2 ^ (32 * pn.length) := by
  induction pn with
  | nil => rfl
  | cons p pn ih =>
    have hp := p.toNat_lt
    rw [List.length_cons, show 32 * (pn.length + 1) = 32 + 32 * pn.length by ring, pow_add, incrementLoop]
    split_ifs with wraps
    · -- the limb was all ones: it becomes zero and the carry moves up
      have top : p.toNat = 2 ^ 32 - 1 := by
        have := congrArg UInt32.toNat wraps
        rw [UInt32.toNat_add, UInt32.toNat_zero, UInt32.toNat_one] at this
        omega
      rw [value_cons, value_cons, wraps, ih, UInt32.toNat_zero, zero_add, top,
        show 2 ^ 32 - 1 + 2 ^ 32 * Limbs.value pn + 1 = 2 ^ 32 * (Limbs.value pn + 1) by omega,
        Nat.mul_mod_mul_left]
    · have below : p.toNat + 1 < 2 ^ 32 := by
        by_contra full
        exact wraps (UInt32.toNat_inj.1 (by rw [UInt32.toNat_add, UInt32.toNat_one, UInt32.toNat_zero]; omega))
      have bound := Limbs.value_lt pn
      rw [value_cons, value_cons, UInt32.toNat_add, UInt32.toNat_one, Nat.mod_eq_of_lt below, Nat.mod_eq_of_lt]
      · ring
      · calc p.toNat + 2 ^ 32 * Limbs.value pn + 1 = (p.toNat + 1) + 2 ^ 32 * Limbs.value pn := by ring
          _ < 2 ^ 32 + 2 ^ 32 * Limbs.value pn := by omega
          _ = 2 ^ 32 * (Limbs.value pn + 1) := by ring
          _ ≤ 2 ^ 32 * 2 ^ (32 * pn.length) := Nat.mul_le_mul_left _ bound

/-- The prefix `operator++`. -/
def increment (a : BaseUint WIDTH) : BaseUint WIDTH := ⟨incrementLoop a.pn, by simp [a.length_pn]⟩

theorem value_increment (a : BaseUint WIDTH) : a.increment.value = (a.value + 1) % 2 ^ (32 * WIDTH) := by
  change Limbs.value (incrementLoop a.pn) = _
  rw [value_incrementLoop, a.length_pn]
  rfl

/-- The loop of the prefix `operator--`: `--pn[i]`, moving up while the limb wraps to all ones. -/
def decrementLoop : List UInt32 → List UInt32
  | [] => []
  | p :: pn => if p - 1 = 0xFFFFFFFF then (p - 1) :: decrementLoop pn else (p - 1) :: pn

@[simp] theorem length_decrementLoop (pn : List UInt32) : (decrementLoop pn).length = pn.length := by
  induction pn with
  | nil => rfl
  | cons p pn ih => unfold decrementLoop; split_ifs <;> simp [ih]

theorem value_decrementLoop (pn : List UInt32) :
    Limbs.value (decrementLoop pn) = (Limbs.value pn + (2 ^ (32 * pn.length) - 1)) % 2 ^ (32 * pn.length) := by
  induction pn with
  | nil => rfl
  | cons p pn ih =>
    have hp := p.toNat_lt
    have bound := Limbs.value_lt pn
    rw [List.length_cons, show 32 * (pn.length + 1) = 32 + 32 * pn.length by ring, pow_add, decrementLoop]
    generalize 2 ^ (32 * pn.length) = N at ih bound ⊢
    split_ifs with wraps
    · -- the limb was zero: it becomes all ones and the borrow moves up
      have bottom : p.toNat = 0 := by
        have := congrArg UInt32.toNat wraps
        rw [UInt32.toNat_sub] at this
        have ones : (0xFFFFFFFF : UInt32).toNat = 2 ^ 32 - 1 := rfl
        rw [ones, UInt32.toNat_one] at this
        omega
      rw [value_cons, value_cons, wraps, ih, bottom, show (0xFFFFFFFF : UInt32).toNat = 2 ^ 32 - 1 from rfl,
        show 0 + 2 ^ 32 * Limbs.value pn + (2 ^ 32 * N - 1) = 2 ^ 32 - 1 + 2 ^ 32 * (Limbs.value pn + (N - 1)) by
          have : 1 ≤ N := by omega
          omega,
        add_mul_mod_mul (by norm_num)]
    · have positive : 1 ≤ p.toNat := by
        by_contra zero
        exact wraps (by rw [show p = 0 from UInt32.toNat_inj.1 (by simp; omega)]; decide)
      rw [value_cons, value_cons, UInt32.toNat_sub_of_le _ _ (by rw [UInt32.le_iff_toNat_le, UInt32.toNat_one]; exact positive), UInt32.toNat_one,
        show p.toNat + 2 ^ 32 * Limbs.value pn + (2 ^ 32 * N - 1) = p.toNat - 1 + 2 ^ 32 * Limbs.value pn + 2 ^ 32 * N by
          have : 1 ≤ N := by omega
          omega,
        Nat.add_mod_right, Nat.mod_eq_of_lt]
      calc p.toNat - 1 + 2 ^ 32 * Limbs.value pn < 2 ^ 32 + 2 ^ 32 * Limbs.value pn := by omega
        _ = 2 ^ 32 * (Limbs.value pn + 1) := by ring
        _ ≤ 2 ^ 32 * N := Nat.mul_le_mul_left _ bound

/-- The prefix `operator--`. -/
def decrement (a : BaseUint WIDTH) : BaseUint WIDTH := ⟨decrementLoop a.pn, by simp [a.length_pn]⟩

theorem value_decrement (a : BaseUint WIDTH) :
    a.decrement.value = (a.value + (2 ^ (32 * WIDTH) - 1)) % 2 ^ (32 * WIDTH) := by
  change Limbs.value (decrementLoop a.pn) = _
  rw [value_decrementLoop, a.length_pn]
  rfl

/-- `operator-()`: the complement, incremented. -/
def negate (a : BaseUint WIDTH) : BaseUint WIDTH := (~~~a).increment

instance : Neg (BaseUint WIDTH) := ⟨negate⟩

theorem value_neg (a : BaseUint WIDTH) : (-a).value = (2 ^ (32 * WIDTH) - a.value) % 2 ^ (32 * WIDTH) := by
  change (~~~a).increment.value = _
  have bound := a.value_lt
  rw [value_increment, value_complement]
  congr 1
  omega

/-- `operator-=`: adding the negation. -/
def sub (a b : BaseUint WIDTH) : BaseUint WIDTH := a + -b

instance : Sub (BaseUint WIDTH) := ⟨sub⟩

theorem value_sub (a b : BaseUint WIDTH) :
    (a - b).value = (a.value + (2 ^ (32 * WIDTH) - b.value)) % 2 ^ (32 * WIDTH) := by
  change (a + -b).value = _
  rw [value_add, value_neg, Nat.add_mod_mod]

/-- Subtracting no more than there is leaves the difference. -/
theorem value_sub_of_le {a b : BaseUint WIDTH} (le : b.value ≤ a.value) : (a - b).value = a.value - b.value := by
  have bound := a.value_lt
  rw [value_sub, show a.value + (2 ^ (32 * WIDTH) - b.value) = a.value - b.value + 2 ^ (32 * WIDTH) by omega,
    Nat.add_mod_right, Nat.mod_eq_of_lt (by omega)]

/-! ### Multiplication -/

/-- The loop of `operator*=(uint32_t b32)`. -/
def mulWordLoop (b32 : UInt32) : List UInt32 → UInt64 → List UInt32
  | [], _ => []
  | p :: pn, carry =>
    let n := carry + b32.toUInt64 * p.toUInt64
    (n &&& 0xffffffff).toUInt32 :: mulWordLoop b32 pn (n >>> 32)

/-- The accumulator `carry + old + x * w` of a multiplication loop stays below `2^64`. -/
theorem product_lt (carry o x w : ℕ) (hc : carry < 2 ^ 32) (ho : o < 2 ^ 32) (hx : x < 2 ^ 32) (hw : w < 2 ^ 32) :
    carry + o + x * w < 2 ^ 64 := by
  have product : x * w ≤ (2 ^ 32 - 1) * (2 ^ 32 - 1) := Nat.mul_le_mul (by omega) (by omega)
  have square : (2 ^ 32 - 1) * (2 ^ 32 - 1) = 2 ^ 64 - 2 ^ 33 + 1 := by norm_num
  omega

theorem mulWordLoop_eq (b32 : UInt32) : ∀ (pn : List UInt32) (carry : UInt64), carry.toNat < 2 ^ 32 →
    mulWordLoop b32 pn carry = propagate (pn.map fun p => b32.toNat * p.toNat) carry.toNat
  | [], _, _ => rfl
  | p :: pn, carry, small => by
    have bound := product_lt carry.toNat 0 b32.toNat p.toNat small (by norm_num) b32.toNat_lt p.toNat_lt
    have sum : (carry + b32.toUInt64 * p.toUInt64).toNat = b32.toNat * p.toNat + carry.toNat := by
      rw [UInt64.toNat_add, UInt64.toNat_mul, UInt32.toNat_toUInt64, UInt32.toNat_toUInt64,
        Nat.mod_eq_of_lt (by omega), Nat.mod_eq_of_lt (by omega)]
      ring
    rw [mulWordLoop, List.map_cons, propagate, low_limb, sum,
      mulWordLoop_eq b32 pn _ (by rw [high_limb, sum]; omega), high_limb, sum]

theorem ofDigits_map_mul (x : ℕ) (pn : List UInt32) :
    Nat.ofDigits (2 ^ 32) (pn.map fun p => x * p.toNat) = x * Limbs.value pn := by
  induction pn with
  | nil => simp
  | cons p pn ih =>
    rw [List.map_cons, Nat.ofDigits_cons, ih, value_cons]
    ring

/-- `operator*=(uint32_t b32)`. -/
def mulWord (a : BaseUint WIDTH) (b32 : UInt32) : BaseUint WIDTH :=
  ⟨mulWordLoop b32 a.pn 0, by rw [mulWordLoop_eq _ _ _ (by decide)]; simp [a.length_pn]⟩

theorem value_mulWord (a : BaseUint WIDTH) (b32 : UInt32) :
    (a.mulWord b32).value = a.value * b32.toNat % 2 ^ (32 * WIDTH) := by
  change Limbs.value (mulWordLoop b32 a.pn 0) = _
  rw [mulWordLoop_eq _ _ _ (by decide), value_propagate, ofDigits_map_mul, List.length_map, a.length_pn, mul_comm]
  rfl

/-- The inner loop of `operator*=(const base_uint& b)` for row `j`: with `x = pn[j]`, limb `i`
of `b` times `x` is added into limb `i + j` of the product `a`, here the limbs `on` of `a` from
`j` up, until the top. -/
def mulAddLoop (x : UInt32) : List UInt32 → List UInt32 → UInt64 → List UInt32
  | o :: on, w :: wn, carry =>
    let n := carry + o.toUInt64 + x.toUInt64 * w.toUInt64
    (n &&& 0xffffffff).toUInt32 :: mulAddLoop x on wn (n >>> 32)
  | _, _, _ => []

theorem mulAddLoop_eq (x : UInt32) : ∀ (on wn : List UInt32) (carry : UInt64), carry.toNat < 2 ^ 32 →
    mulAddLoop x on wn carry = propagate (List.zipWith (fun o w => o.toNat + x.toNat * w.toNat) on wn) carry.toNat
  | o :: on, w :: wn, carry, small => by
    have bound := product_lt carry.toNat o.toNat x.toNat w.toNat small o.toNat_lt x.toNat_lt w.toNat_lt
    have sum : (carry + o.toUInt64 + x.toUInt64 * w.toUInt64).toNat = o.toNat + x.toNat * w.toNat + carry.toNat := by
      rw [UInt64.toNat_add, UInt64.toNat_add, UInt64.toNat_mul, UInt32.toNat_toUInt64, UInt32.toNat_toUInt64,
        UInt32.toNat_toUInt64, Nat.mod_eq_of_lt (by omega), Nat.mod_eq_of_lt (by omega), Nat.mod_eq_of_lt (by omega)]
      ring
    rw [mulAddLoop, List.zipWith_cons_cons, propagate, low_limb, sum,
      mulAddLoop_eq x on wn _ (by rw [high_limb, sum]; omega), high_limb, sum]
  | [], _, _, _ => rfl
  | _ :: _, [], _, _ => rfl

theorem ofDigits_zipWith_mulAdd (x : ℕ) : ∀ (on wn : List UInt32), on.length ≤ wn.length →
    Nat.ofDigits (2 ^ 32) (List.zipWith (fun o w => o.toNat + x * w.toNat) on wn) =
      Limbs.value on + x * Limbs.value (wn.take on.length)
  | [], _, _ => by simp
  | o :: on, w :: wn, long => by
    rw [List.zipWith_cons_cons, Nat.ofDigits_cons, ofDigits_zipWith_mulAdd x on wn (by simpa using long),
      List.length_cons, List.take_succ_cons, value_cons, value_cons]
    ring
  | _ :: _, [], long => by simp at long

/-- Row `j` of the product adds `2^(32 j) * pn[j] * b`, modulo `2^(32 WIDTH)`. -/
theorem value_mulRow {a bn : List UInt32} (x : UInt32) {j : ℕ} (inside : j ≤ a.length) (long : a.length ≤ bn.length) :
    Limbs.value (a.take j ++ mulAddLoop x (a.drop j) bn 0) =
      (Limbs.value a + 2 ^ (32 * j) * x.toNat * Limbs.value bn) % 2 ^ (32 * a.length) := by
  rw [mulAddLoop_eq _ _ _ _ (by decide), value_append, List.length_take_of_le inside, value_propagate,
    ofDigits_zipWith_mulAdd _ _ _ (by simp; omega), List.length_zipWith, List.length_drop,
    min_eq_left (by simp; omega)]
  -- split both factors at the row: the low limbs of `a` stay, and `b` counts only below the top
  have split : 2 ^ (32 * a.length) = 2 ^ (32 * j) * 2 ^ (32 * (a.length - j)) := by
    rw [← pow_add]
    congr 1
    omega
  have atRow := value_take_add_drop a j
  have cut := value_take_add_drop bn (a.length - j)
  rw [split, UInt64.toNat_zero, add_zero, ← add_mul_mod_mul (value_take_lt a j)]
  conv_rhs => rw [atRow, cut]
  rw [show Limbs.value (a.take j) + 2 ^ (32 * j) * Limbs.value (a.drop j) +
      2 ^ (32 * j) * x.toNat * (Limbs.value (bn.take (a.length - j)) +
        2 ^ (32 * (a.length - j)) * Limbs.value (bn.drop (a.length - j))) =
      Limbs.value (a.take j) + 2 ^ (32 * j) * (Limbs.value (a.drop j) + x.toNat * Limbs.value (bn.take (a.length - j))) +
        2 ^ (32 * j) * 2 ^ (32 * (a.length - j)) * (x.toNat * Limbs.value (bn.drop (a.length - j))) by ring,
    Nat.add_mul_mod_self_left]

/-- The outer loop of `operator*=(const base_uint& b)`: row `j` for each limb `pn[j]`, into the
product `a`. -/
def mulLoop (bn : List UInt32) : List UInt32 → ℕ → List UInt32 → List UInt32
  | a, _, [] => a
  | a, j, x :: pn => mulLoop bn (a.take j ++ mulAddLoop x (a.drop j) bn 0) (j + 1) pn

theorem length_mulRow {a bn : List UInt32} (x : UInt32) {j : ℕ} (long : a.length ≤ bn.length) :
    (a.take j ++ mulAddLoop x (a.drop j) bn 0).length = a.length := by
  rw [mulAddLoop_eq _ _ _ _ (by decide)]
  simp
  omega

theorem length_mulLoop (bn : List UInt32) : ∀ (pn a : List UInt32) (j : ℕ), a.length ≤ bn.length →
    (mulLoop bn a j pn).length = a.length
  | [], _, _, _ => rfl
  | x :: pn, a, j, long => by
    rw [mulLoop, length_mulLoop bn pn _ _ (by rwa [length_mulRow x long]), length_mulRow x long]

/-- The rows still to run add the rest of the product. -/
theorem value_mulLoop (bn : List UInt32) : ∀ (pn a : List UInt32) (j : ℕ), a.length ≤ bn.length →
    j + pn.length = a.length →
    Limbs.value (mulLoop bn a j pn) = (Limbs.value a + 2 ^ (32 * j) * Limbs.value pn * Limbs.value bn) % 2 ^ (32 * a.length)
  | [], a, j, _, _ => by simp [mulLoop, Nat.mod_eq_of_lt (Limbs.value_lt a)]
  | x :: pn, a, j, long, rows => by
    rw [mulLoop, value_mulLoop bn pn _ _ (by rwa [length_mulRow x long]) (by rw [length_mulRow x long]; simp at rows; omega),
      length_mulRow x long, value_mulRow x (by simp at rows; omega) long, Nat.mod_add_mod, value_cons]
    congr 1
    rw [show 32 * (j + 1) = 32 * j + 32 by ring, pow_add]
    ring

/-- `operator*=(const base_uint& b)`. -/
def mul (a b : BaseUint WIDTH) : BaseUint WIDTH :=
  ⟨mulLoop b.pn (List.replicate WIDTH 0) 0 a.pn, by
    rw [length_mulLoop _ _ _ _ (by simp [b.length_pn]), List.length_replicate]⟩

instance : Mul (BaseUint WIDTH) := ⟨mul⟩

theorem value_mul (a b : BaseUint WIDTH) : (a * b).value = a.value * b.value % 2 ^ (32 * WIDTH) := by
  change Limbs.value (mulLoop b.pn (List.replicate WIDTH 0) 0 a.pn) = _
  rw [value_mulLoop _ _ _ _ (by simp [b.length_pn]) (by simp [a.length_pn]), List.length_replicate,
    value_replicate_zero]
  simp [value]

/-! ### Comparison and bit length -/

/-- A higher limb decides an order the lower limbs cannot reverse. -/
theorem lt_of_high_limb {V U P x y : ℕ} (hV : V < P) (lt : x < y) : V + P * x < U + P * y :=
  calc V + P * x < P + P * x := by omega
    _ = P * (x + 1) := by ring
    _ ≤ P * y := Nat.mul_le_mul_left _ lt
    _ ≤ U + P * y := Nat.le_add_left _ _

/-- The loop of `CompareTo`: from limb `i - 1` down, the first limb that differs decides. -/
def compareLoop (pn bn : List UInt32) : ℕ → ℤ
  | 0 => 0
  | i + 1 =>
    if pn.getD i 0 < bn.getD i 0 then -1
    else if pn.getD i 0 > bn.getD i 0 then 1
    else compareLoop pn bn i

theorem compareLoop_eq (pn bn : List UInt32) : ∀ i, i ≤ pn.length → i ≤ bn.length →
    compareLoop pn bn i =
      if Limbs.value (pn.take i) < Limbs.value (bn.take i) then -1
      else if Limbs.value (bn.take i) < Limbs.value (pn.take i) then 1 else 0
  | 0, _, _ => by simp [compareLoop]
  | i + 1, hp, hb => by
    have low := value_take_lt pn i
    have low' := value_take_lt bn i
    rw [compareLoop, value_take_succ pn (by omega), value_take_succ bn (by omega), compareLoop_eq pn bn i (by omega) (by omega)]
    rcases lt_trichotomy (pn.getD i 0).toNat (bn.getD i 0).toNat with below | same | above
    · rw [if_pos (UInt32.lt_iff_toNat_lt.2 below), if_pos (lt_of_high_limb low below)]
    · rw [if_neg (by rw [UInt32.lt_iff_toNat_lt]; omega), if_neg (by rw [gt_iff_lt, UInt32.lt_iff_toNat_lt]; omega), same]
      simp only [add_lt_add_iff_right]
    · rw [if_neg (by rw [UInt32.lt_iff_toNat_lt]; omega), if_pos (UInt32.lt_iff_toNat_lt.2 above),
        if_neg (not_lt.2 (lt_of_high_limb low' above).le), if_pos (lt_of_high_limb low' above)]

/-- `CompareTo`. -/
def compareTo (a b : BaseUint WIDTH) : ℤ := compareLoop a.pn b.pn WIDTH

theorem compareTo_eq (a b : BaseUint WIDTH) :
    a.compareTo b = if a.value < b.value then -1 else if b.value < a.value then 1 else 0 := by
  rw [compareTo, compareLoop_eq _ _ _ a.length_pn.ge b.length_pn.ge, List.take_of_length_le a.length_pn.le,
    List.take_of_length_le b.length_pn.le]
  rfl

/-- The inner loop of `bits()` over a nonzero limb: from bit 31 down to bit 1, the first set bit
`nbits` gives `nbits + 1`; none gives 1. -/
def limbBits (w : UInt32) : ℕ → ℕ
  | 0 => 1
  | nbits + 1 => if w &&& 1 <<< (nbits + 1).toUInt32 ≠ 0 then nbits + 2 else limbBits w nbits

/-- The test `pn[pos] & 1U << nbits` reads bit `nbits`. -/
theorem and_shiftLeft_ne_zero (w : UInt32) {nbits : ℕ} (small : nbits < 32) :
    w &&& 1 <<< nbits.toUInt32 ≠ 0 ↔ w.toNat.testBit nbits := by
  have single : (1 <<< nbits.toUInt32 : UInt32).toNat = 2 ^ nbits := by
    have amount : nbits % 2 ^ 32 % 32 = nbits := by omega
    rw [UInt32.toNat_shiftLeft, UInt32.toNat_one, UInt32.toNat_ofNat', amount, Nat.one_shiftLeft,
      Nat.mod_eq_of_lt (Nat.pow_lt_pow_right (by norm_num) small)]
  rw [Ne, ← UInt32.toNat_inj, UInt32.toNat_and, single, Nat.and_two_pow, UInt32.toNat_zero]
  cases w.toNat.testBit nbits <;> simp

/-- A number below `2^(i+1)` whose bit `i` is set has `i + 1` bits. -/
theorem size_eq_of_testBit {x i : ℕ} (small : x < 2 ^ (i + 1)) (top : 2 ^ i ≤ x) : x.size = i + 1 :=
  le_antisymm (Nat.size_le.2 small) (Nat.lt_size.2 top)

theorem limbBits_eq (w : UInt32) : ∀ nbits, nbits < 32 → 0 < w.toNat → w.toNat < 2 ^ (nbits + 1) →
    limbBits w nbits = w.toNat.size
  | 0, _, positive, small => by
    rw [show w.toNat = 1 by omega, Nat.size_one]
    rfl
  | nbits + 1, inside, positive, small => by
    rw [limbBits]
    split_ifs with set
    · rw [and_shiftLeft_ne_zero w inside, ArithUint256.testBit_of_lt_two_pow_succ small, decide_eq_true_iff] at set
      exact (size_eq_of_testBit small set).symm
    · rw [and_shiftLeft_ne_zero w inside, ArithUint256.testBit_of_lt_two_pow_succ small, decide_eq_true_iff] at set
      exact limbBits_eq w nbits (by omega) positive (by omega)

/-- A nonzero limb above lower limbs decides the bit length. -/
theorem size_add_high {V k w : ℕ} (low : V < 2 ^ k) (positive : 0 < w) : (V + 2 ^ k * w).size = k + w.size := by
  have wide := Nat.lt_size_self w
  have lead : 2 ^ (w.size - 1) ≤ w := Nat.lt_size.1 (by have := Nat.size_pos.2 positive; omega)
  apply le_antisymm
  · apply Nat.size_le.2
    calc V + 2 ^ k * w < 2 ^ k * (w + 1) := by rw [mul_add]; omega
      _ ≤ 2 ^ k * 2 ^ w.size := Nat.mul_le_mul_left _ wide
      _ = 2 ^ (k + w.size) := (pow_add 2 k w.size).symm
  · have := Nat.size_pos.2 positive
    have bit : 2 ^ (k + w.size - 1) ≤ V + 2 ^ k * w :=
      calc 2 ^ (k + w.size - 1) = 2 ^ k * 2 ^ (w.size - 1) := by rw [← pow_add]; congr 1; omega
        _ ≤ 2 ^ k * w := Nat.mul_le_mul_left _ lead
        _ ≤ V + 2 ^ k * w := Nat.le_add_left _ _
    have := Nat.lt_size.2 bit
    omega

/-- The loop of `bits()`: from limb `pos - 1` down, the first nonzero limb. -/
def bitsLoop (pn : List UInt32) : ℕ → ℕ
  | 0 => 0
  | pos + 1 => if pn.getD pos 0 ≠ 0 then 32 * pos + limbBits (pn.getD pos 0) 31 else bitsLoop pn pos

theorem bitsLoop_eq (pn : List UInt32) : ∀ pos, pos ≤ pn.length → bitsLoop pn pos = (Limbs.value (pn.take pos)).size
  | 0, _ => by simp [bitsLoop]
  | pos + 1, inside => by
    rw [bitsLoop, value_take_succ pn (by omega)]
    split_ifs with nonzero
    · have positive : 0 < (pn.getD pos 0).toNat := by
        rw [Nat.pos_iff_ne_zero, Ne, ← UInt32.toNat_zero, UInt32.toNat_inj]
        exact nonzero
      rw [limbBits_eq _ 31 (by norm_num) positive (UInt32.toNat_lt _), size_add_high (value_take_lt pn pos) positive]
    · rw [not_not.1 nonzero, UInt32.toNat_zero, mul_zero, add_zero]
      exact bitsLoop_eq pn pos (by omega)

/-- `bits()`: one more than the position of the highest set bit, and 0 for zero. -/
def bits (a : BaseUint WIDTH) : ℕ := bitsLoop a.pn WIDTH

theorem bits_eq_size (a : BaseUint WIDTH) : a.bits = a.value.size := by
  rw [bits, bitsLoop_eq _ _ a.length_pn.ge, List.take_of_length_le a.length_pn.le]
  rfl

/-- `EqualTo(uint64_t b)`: from the top, the limbs above the second are zero, then limb 1 and
limb 0 match the halves of `b`. -/
def equalTo (a : BaseUint WIDTH) (b : UInt64) : Bool :=
  (List.range' 2 (WIDTH - 2)).all (fun i => a.pn.getD i 0 == 0) &&
    (a.pn.getD 1 0).toUInt64 == b >>> 32 && (a.pn.getD 0 0).toUInt64 == (b &&& 0xffffffff)

theorem value_eq_zero_iff (pn : List UInt32) : Limbs.value pn = 0 ↔ ∀ w ∈ pn, w = 0 := by
  induction pn with
  | nil => simp
  | cons p pn ih =>
    rw [value_cons, List.forall_mem_cons, ← ih, ← UInt32.toNat_inj, UInt32.toNat_zero]
    omega

/-- The two low limbs, as `EqualTo` and `GetLow64` read them. -/
theorem value_take_two (pn : List UInt32) (wide : 2 ≤ pn.length) :
    Limbs.value (pn.take 2) = (pn.getD 0 0).toNat + 2 ^ 32 * (pn.getD 1 0).toNat := by
  rcases pn with _ | ⟨p0, _ | ⟨p1, rest⟩⟩
  · simp at wide
  · simp at wide
  · simp

theorem equalTo_eq (wide : 2 ≤ WIDTH) (a : BaseUint WIDTH) (b : UInt64) : a.equalTo b = decide (a.value = b.toNat) := by
  have length := a.length_pn
  have split := value_take_add_drop a.pn 2
  -- the loop over limbs `WIDTH - 1` down to `2` reads the limbs from the third on
  have upper : (List.range' 2 (WIDTH - 2)).all (fun i => a.pn.getD i 0 == 0) = decide (Limbs.value (a.pn.drop 2) = 0) := by
    rw [Bool.eq_iff_iff, List.all_eq_true, decide_eq_true_iff, value_eq_zero_iff]
    constructor
    · intro zero w member
      obtain ⟨i, inside, rfl⟩ := List.getElem_of_mem member
      rw [List.length_drop] at inside
      have limb := zero (2 + i) (List.mem_range'.2 ⟨i, by omega, by ring⟩)
      rw [beq_iff_eq, List.getD_eq_getElem _ _ (by omega)] at limb
      rwa [List.getElem_drop]
    · intro zero i member
      obtain ⟨k, inside, rfl⟩ := List.mem_range'.1 member
      rw [beq_iff_eq, List.getD_eq_getElem _ _ (by omega)]
      exact zero _ (List.mem_iff_getElem.2 ⟨k, by rw [List.length_drop]; omega, by simp⟩)
  have hb := b.toNat_lt
  have h0 := (a.pn.getD 0 0).toNat_lt
  have h1 := (a.pn.getD 1 0).toNat_lt
  have low : (b &&& 0xffffffff).toNat = b.toNat % 2 ^ 32 := by
    rw [UInt64.toNat_and, show (0xffffffff : UInt64).toNat = 2 ^ 32 - 1 from rfl, Nat.and_two_pow_sub_one_eq_mod]
  rw [equalTo, upper, value, split, value_take_two _ (by omega), Bool.eq_iff_iff]
  simp only [Bool.and_eq_true, decide_eq_true_eq, beq_iff_eq, ← UInt64.toNat_inj, UInt32.toNat_toUInt64, high_limb,
    low, Bool.and_assoc]
  constructor
  · rintro ⟨zero, high, lowEq⟩
    rw [zero, mul_zero, add_zero, high, lowEq]
    omega
  · intro same
    have zero : Limbs.value (a.pn.drop 2) = 0 := by
      by_contra nonzero
      have : 2 ^ (32 * 2) ≤ 2 ^ (32 * 2) * Limbs.value (a.pn.drop 2) := Nat.le_mul_of_pos_right _ (by omega)
      omega
    rw [zero, mul_zero, add_zero] at same
    refine ⟨zero, ?_, ?_⟩ <;> omega

/-- `GetLow64`: limb 0 or-ed with limb 1 shifted up by 32. -/
def getLow64 (a : BaseUint WIDTH) : UInt64 := (a.pn.getD 0 0).toUInt64 ||| (a.pn.getD 1 0).toUInt64 <<< 32

theorem getLow64_toNat (wide : 2 ≤ WIDTH) (a : BaseUint WIDTH) : a.getLow64.toNat = a.value % 2 ^ 64 := by
  have split := value_take_add_drop a.pn 2
  have h0 := (a.pn.getD 0 0).toNat_lt
  have h1 := (a.pn.getD 1 0).toNat_lt
  have shifted : ((a.pn.getD 1 0).toUInt64 <<< 32).toNat = 2 ^ 32 * (a.pn.getD 1 0).toNat := by
    rw [UInt64.toNat_shiftLeft, UInt32.toNat_toUInt64, show (32 : UInt64).toNat % 64 = 32 from rfl, Nat.shiftLeft_eq,
      Nat.mod_eq_of_lt (by omega), mul_comm]
  rw [getLow64, UInt64.toNat_or, shifted, UInt32.toNat_toUInt64, Nat.or_comm, ← Nat.two_pow_add_eq_or_of_lt h0,
    value, split, value_take_two _ (by rw [a.length_pn]; omega), Nat.add_mul_mod_self_left, Nat.mod_eq_of_lt (by omega)]
  ring

end BaseUint

end Pussycoin
