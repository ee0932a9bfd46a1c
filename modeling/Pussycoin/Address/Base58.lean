import Pussycoin.Positional
import Mathlib

/-! Base58 and Base58Check of `base58.cpp`. A `std::string` is its list of characters, each
read as the `unsigned char` the code reads. A big number is an array of digits that the
code walks from the back, kept here least significant digit first. `DecodeBase58` returning
false, and an `assert` that fails, are `none`. `max_ret_len` is the `int` it is, negative
values included; the counters `zeroes`, `length` and `size` are numbers, which the `int`s of the
code are for strings of less than 2^31 characters. `Hash`, double SHA-256, is a parameter. -/
namespace Pussycoin.Address

open Positional

/-- All alphanumeric characters except for "0", "I", "O", and "l". -/
def pszBase58 : List Char := "123456789ABCDEFGHJKLMNPQRSTUVWXYZabcdefghijkmnopqrstuvwxyz".toList

def mapBase58 : List ℤ := [
  -1, -1, -1, -1, -1, -1, -1, -1, -1, -1, -1, -1, -1, -1, -1, -1,
  -1, -1, -1, -1, -1, -1, -1, -1, -1, -1, -1, -1, -1, -1, -1, -1,
  -1, -1, -1, -1, -1, -1, -1, -1, -1, -1, -1, -1, -1, -1, -1, -1,
  -1, 0, 1, 2, 3, 4, 5, 6, 7, 8, -1, -1, -1, -1, -1, -1,
  -1, 9, 10, 11, 12, 13, 14, 15, 16, -1, 17, 18, 19, 20, 21, -1,
  22, 23, 24, 25, 26, 27, 28, 29, 30, 31, 32, -1, -1, -1, -1, -1,
  -1, 33, 34, 35, 36, 37, 38, 39, 40, 41, 42, 43, -1, 44, 45, 46,
  47, 48, 49, 50, 51, 52, 53, 54, 55, 56, 57, -1, -1, -1, -1, -1,
  -1, -1, -1, -1, -1, -1, -1, -1, -1, -1, -1, -1, -1, -1, -1, -1,
  -1, -1, -1, -1, -1, -1, -1, -1, -1, -1, -1, -1, -1, -1, -1, -1,
  -1, -1, -1, -1, -1, -1, -1, -1, -1, -1, -1, -1, -1, -1, -1, -1,
  -1, -1, -1, -1, -1, -1, -1, -1, -1, -1, -1, -1, -1, -1, -1, -1,
  -1, -1, -1, -1, -1, -1, -1, -1, -1, -1, -1, -1, -1, -1, -1, -1,
  -1, -1, -1, -1, -1, -1, -1, -1, -1, -1, -1, -1, -1, -1, -1, -1,
  -1, -1, -1, -1, -1, -1, -1, -1, -1, -1, -1, -1, -1, -1, -1, -1,
  -1, -1, -1, -1, -1, -1, -1, -1, -1, -1, -1, -1, -1, -1, -1, -1]

/-- The `unsigned char` the code reads for a character. -/
def byte (c : Char) : ℕ := c.toNat % 256

/-- `mapBase58[(uint8_t)c]`: the digit of a character, -1 for one that is not a digit. -/
def base58Digit (c : Char) : ℤ := mapBase58.getD (byte c) (-1)

def isSpace (c : Char) : Bool :=
  c == ' ' || c == '\x0c' || c == '\n' || c == '\r' || c == '\t' || c == '\x0b'

def validAsCString (str : List Char) : Bool := !str.contains '\x00'

def INT_MAX : ℕ := 2 ^ 31 - 1

/-- The inner loop of `EncodeBase58` and `DecodeBase58`, "b = b * mult + carry" over digits in
base `base`: it goes on while there is a carry or digits in use (`length`), and stops at the
front of the array. It gives the digits, the carry left, and how far it went. -/
def mulAdd (base mult : ℕ) : (carry i length : ℕ) → List ℕ → List ℕ × ℕ × ℕ
  | carry, i, _, [] => ([], carry, i)
  | carry, i, length, d :: ds =>
    if carry ≠ 0 ∨ i < length then
      let carry := carry + mult * d
      let rest := mulAdd base mult (carry / base) (i + 1) length ds
      (carry % base :: rest.1, rest.2)
    else (d :: ds, carry, i)

/-- The loop of `EncodeBase58` over the input bytes. -/
def encodeDigits : List ℕ × ℕ → List UInt8 → Option (List ℕ × ℕ)
  | b58, [] => some b58
  | (b58, length), ch :: input =>
    let result := mulAdd 58 256 ch.toNat 0 length b58
    -- assert(carry == 0)
    if result.2.1 = 0 then encodeDigits (result.1, result.2.2) input else none

def encodeBase58 (input : List UInt8) : Option (List Char) :=
  let zeroes := (input.takeWhile (· == 0)).length
  let input := input.drop zeroes
  let size := input.length * 138 / 100 + 1
  (encodeDigits (List.replicate size 0, 0) input).map fun (b58, length) =>
    -- the digits in use, most significant first, without leading zeroes
    let digits := (b58.take length).reverse.dropWhile (· == 0)
    List.replicate zeroes '1' ++ digits.map fun d => pszBase58.getD d ' '

/-- The loop of `DecodeBase58` over the characters up to a space or the end. It gives the
digits, how many are in use, and the characters left. -/
def decodeDigits (zeroes : ℕ) (maxRetLen : ℤ) : List ℕ × ℕ → List Char → Option (List ℕ × ℕ × List Char)
  | (b256, length), [] => some (b256, length, [])
  | (b256, length), c :: psz =>
    if isSpace c then some (b256, length, c :: psz)
    else
      let carry := base58Digit c
      if carry = -1 then none
      else
        let result := mulAdd 256 58 carry.toNat 0 length b256
        if result.2.1 ≠ 0 then none
        else if ((result.2.2 + zeroes : ℕ) : ℤ) > maxRetLen then none
        else decodeDigits zeroes maxRetLen (result.1, result.2.2) psz

/-- `DecodeBase58` of a C string. -/
def decodeBase58 (psz : List Char) (maxRetLen : ℤ) : Option (List UInt8) :=
  let psz := psz.dropWhile isSpace
  let zeroes := (psz.takeWhile (· == '1')).length
  -- the loop over the '1's checks the count after each of them
  if 0 < zeroes ∧ (zeroes : ℤ) > maxRetLen then none
  else
    let psz := psz.drop zeroes
    let size := psz.length * 733 / 1000 + 1
    match decodeDigits zeroes maxRetLen (List.replicate size 0, 0) psz with
    | none => none
    | some (b256, length, psz) =>
      if (psz.dropWhile isSpace).isEmpty then
        some (List.replicate zeroes 0 ++ (b256.take length).reverse.map UInt8.ofNat)
      else none

def encodeBase58Check (hash : List UInt8 → Vector UInt8 32) (input : List UInt8) : Option (List Char) :=
  encodeBase58 (input ++ (hash input).toList.take 4)

/-- `DecodeBase58Check` of a `std::string`. -/
def decodeBase58Check (hash : List UInt8 → Vector UInt8 32) (str : List Char) (maxRetLen : ℤ) :
    Option (List UInt8) :=
  if !validAsCString str then none
  else
    match decodeBase58 str (if maxRetLen > (INT_MAX : ℤ) - 4 then INT_MAX else maxRetLen + 4) with
    | none => none
    | some vchRet =>
      if vchRet.length < 4 then none
      else if (hash (vchRet.take (vchRet.length - 4))).toList.take 4 = vchRet.drop (vchRet.length - 4) then
        some (vchRet.take (vchRet.length - 4))
      else none

/-! ### The digit loop -/

/-- The `size` digits of an array that holds `v`, and how many of them are in use. -/
def digitsIn (base size v : ℕ) : List ℕ × ℕ :=
  (Nat.digits base v ++ List.replicate (size - (Nat.digits base v).length) 0, (Nat.digits base v).length)

section MulAdd

variable {base : ℕ} (mult : ℕ)

/-- Past the digits in use, the loop writes out the carry. -/
theorem mulAdd_carry (hb : 1 < base) (length : ℕ) :
    ∀ (k carry i : ℕ), length ≤ i → (Nat.digits base carry).length ≤ k →
      mulAdd base mult carry i length (List.replicate k 0) =
        (Nat.digits base carry ++ List.replicate (k - (Nat.digits base carry).length) 0, 0,
          i + (Nat.digits base carry).length)
  | 0, carry, i, _, fits => by
    have spent : carry = 0 := Nat.digits_eq_nil_iff_eq_zero.mp (List.eq_nil_of_length_eq_zero (Nat.le_zero.mp fits))
    subst spent
    simp [mulAdd]
  | k + 1, carry, i, done, fits => by
    rcases Nat.eq_zero_or_pos carry with spent | pending
    · subst spent
      simp [mulAdd, List.replicate_succ, done]
    · rw [Nat.digits_def' hb pending, List.length_cons] at fits ⊢
      have rest := mulAdd_carry hb length k (carry / base) (i + 1) (by omega) (by omega)
      simp only [List.replicate_succ, mulAdd, mul_zero, add_zero]
      rw [if_pos (Or.inl pending.ne'), rest]
      simp only [List.cons_append, Nat.add_sub_add_right, Prod.mk.injEq, true_and]
      omega

/-- The loop multiplies what the digits hold and adds the carry, as long as the array has
room for the result. -/
theorem mulAdd_digits (hb : 1 < base) (hm : 0 < mult) (length : ℕ) :
    ∀ (w carry i k : ℕ), i + (Nat.digits base w).length = length →
      (Nat.digits base (w * mult + carry)).length ≤ (Nat.digits base w).length + k →
      mulAdd base mult carry i length (Nat.digits base w ++ List.replicate k 0) =
        (Nat.digits base (w * mult + carry) ++
          List.replicate ((Nat.digits base w).length + k - (Nat.digits base (w * mult + carry)).length) 0, 0,
          i + (Nat.digits base (w * mult + carry)).length) := by
  intro w
  induction w using Nat.strong_induction_on with
  | _ w ih =>
    intro carry i k inUse fits
    rcases Nat.eq_zero_or_pos w with empty | held
    · subst empty
      simp only [Nat.digits_zero, List.length_nil, add_zero, zero_mul, zero_add, List.nil_append] at inUse fits ⊢
      exact mulAdd_carry mult hb length k carry i inUse.ge fits
    · -- the lowest digit takes the carry; the rest of the number takes what it carries on
      have split : w * mult + carry = carry + mult * (w % base) + base * (w / base * mult) := by
        conv_lhs => rw [← Nat.div_add_mod w base]
        ring
      have lowDigit : (w * mult + carry) % base = (carry + mult * (w % base)) % base := by
        rw [split, Nat.add_mul_mod_self_left]
      have highDigits : (w * mult + carry) / base = w / base * mult + (carry + mult * (w % base)) / base := by
        rw [split, Nat.add_mul_div_left _ _ (by omega), add_comm]
      have nonzero : 0 < w * mult + carry := by positivity
      rw [Nat.digits_def' hb held, List.length_cons] at inUse fits ⊢
      rw [Nat.digits_def' hb nonzero, List.length_cons, highDigits] at fits ⊢
      have rest := ih (w / base) (Nat.div_lt_self held hb) ((carry + mult * (w % base)) / base) (i + 1) k
        (by omega) (by omega)
      simp only [List.cons_append, mulAdd]
      rw [if_pos (Or.inr (by omega)), rest, lowDigit]
      simp only [Prod.mk.injEq, List.cons.injEq, List.append_cancel_left_eq, true_and]
      constructor
      · congr 1
        omega
      · omega

/-- One round of the loop on an array that holds `w`: it then holds `w * mult + carry`. -/
theorem mulAdd_digitsIn (hb : 1 < base) (hm : 0 < mult) {size w carry : ℕ}
    (fits : w * mult + carry < base ^ size) :
    mulAdd base mult carry 0 (digitsIn base size w).2 (digitsIn base size w).1 =
      ((digitsIn base size (w * mult + carry)).1, 0, (digitsIn base size (w * mult + carry)).2) := by
  have grown : (Nat.digits base w).length ≤ (Nat.digits base (w * mult + carry)).length :=
    Nat.le_length_digits_le base _ _ (by nlinarith)
  have room := (Nat.digits_length_le_iff hb _).mpr fits
  rw [digitsIn, mulAdd_digits mult hb hm _ w carry 0 _ (zero_add _) (by omega), digitsIn, zero_add]
  congr 3
  omega

end MulAdd

/-! ### Encoding -/

/-- `size` in `EncodeBase58` has room for every number of `m` bytes: `log(256) / log(58)` is
below 1.38. -/
theorem pow_256_le (m : ℕ) : 256 ^ m ≤ 58 ^ (m * 138 / 100 + 1) := by
  have ratio : 256 ^ 100 ≤ 58 ^ 138 := by norm_num
  have exponent : m * 138 < 100 * (m * 138 / 100 + 1) := by
    have := Nat.div_add_mod (m * 138) 100
    have := Nat.mod_lt (m * 138) (by norm_num : 0 < 100)
    omega
  rw [← Nat.pow_le_pow_iff_left (by norm_num : 100 ≠ 0)]
  calc (256 ^ m) ^ 100 = (256 ^ 100) ^ m := by rw [← pow_mul, ← pow_mul, mul_comm]
    _ ≤ (58 ^ 138) ^ m := Nat.pow_le_pow_left ratio m
    _ = 58 ^ (m * 138) := by rw [← pow_mul, mul_comm]
    _ ≤ 58 ^ (100 * (m * 138 / 100 + 1)) := Nat.pow_le_pow_right (by norm_num) exponent.le
    _ = (58 ^ (m * 138 / 100 + 1)) ^ 100 := by rw [← pow_mul, mul_comm]

/-- The loop over the bytes leaves the array holding their value. -/
theorem encodeDigits_digitsIn {size : ℕ} :
    ∀ (input : List UInt8) (v : ℕ), value 256 v (input.map UInt8.toNat) < 58 ^ size →
      encodeDigits (digitsIn 58 size v) input = some (digitsIn 58 size (value 256 v (input.map UInt8.toNat)))
  | [], _, _ => rfl
  | ch :: input, v, fits => by
    rw [List.map_cons, value_cons] at fits ⊢
    have room : v * 256 + ch.toNat < 58 ^ size := (le_value (by norm_num) _ _).trans_lt fits
    rw [encodeDigits.eq_2, mulAdd_digitsIn 256 (by norm_num) (by norm_num) room]
    exact encodeDigits_digitsIn input _ fits

theorem drop_length_takeWhile {α : Type} (p : α → Bool) (l : List α) :
    l.drop (l.takeWhile p).length = l.dropWhile p := by
  have split := @List.takeWhile_append_dropWhile _ p l
  calc l.drop (l.takeWhile p).length = (l.takeWhile p ++ l.dropWhile p).drop (l.takeWhile p).length := by
        rw [split]
    _ = l.dropWhile p := List.drop_left' rfl

/-- The digits in use of an array are the number's, and the first of them is not zero. -/
theorem digits_in_use (b size v : ℕ) :
    ((digitsIn b size v).1.take (digitsIn b size v).2).reverse.dropWhile (· == 0) = (Nat.digits b v).reverse := by
  rw [digitsIn, List.take_left' rfl]
  rcases Nat.eq_zero_or_pos v with zero | held
  · simp [zero]
  · apply List.dropWhile_eq_self_iff.mpr
    intro nonempty
    have lead := Nat.getLast_digit_ne_zero b held.ne'
    rw [List.getElem_zero, List.head_reverse]
    simpa using lead

/-- `EncodeBase58` writes a '1' for each leading zero byte and then the base-58 digits of the
number the other bytes make. -/
theorem encodeBase58_eq (input : List UInt8) :
    encodeBase58 input = some (List.replicate (input.takeWhile (· == 0)).length '1' ++
      (Nat.digits 58 (value 256 0 ((input.dropWhile (· == 0)).map UInt8.toNat))).reverse.map
        fun d => pszBase58.getD d ' ') := by
  have empty : digitsIn 58 ((input.dropWhile (· == 0)).length * 138 / 100 + 1) 0 =
      (List.replicate ((input.dropWhile (· == 0)).length * 138 / 100 + 1) 0, 0) := rfl
  have fits : value 256 0 ((input.dropWhile (· == 0)).map UInt8.toNat) <
      58 ^ ((input.dropWhile (· == 0)).length * 138 / 100 + 1) := by
    refine (value_lt (by norm_num) fun d mem => ?_).trans_le ?_
    · obtain ⟨ch, -, rfl⟩ := List.mem_map.mp mem
      exact ch.toNat_lt
    · rw [List.length_map]
      exact pow_256_le _
  simp only [encodeBase58, drop_length_takeWhile]
  rw [← empty, encodeDigits_digitsIn _ 0 fits, Option.map_some, digits_in_use]

/-! ### Decoding -/

/-- `size` in `DecodeBase58` has room for every number of `n` base-58 digits: `log(58) /
log(256)` is below 107/146, which is below 0.733. -/
theorem pow_58_le (n : ℕ) : 58 ^ n ≤ 256 ^ (n * 733 / 1000 + 1) := by
  have ratio : 58 ^ 146 ≤ 256 ^ 107 := by norm_num
  have exponent : 107 * n ≤ 146 * (n * 733 / 1000 + 1) := by
    have := Nat.div_add_mod (n * 733) 1000
    have := Nat.mod_lt (n * 733) (by norm_num : 0 < 1000)
    omega
  rw [← Nat.pow_le_pow_iff_left (by norm_num : 146 ≠ 0)]
  calc (58 ^ n) ^ 146 = (58 ^ 146) ^ n := by rw [← pow_mul, ← pow_mul, mul_comm]
    _ ≤ (256 ^ 107) ^ n := Nat.pow_le_pow_left ratio n
    _ = 256 ^ (107 * n) := by rw [← pow_mul]
    _ ≤ 256 ^ (146 * (n * 733 / 1000 + 1)) := Nat.pow_le_pow_right (by norm_num) exponent
    _ = (256 ^ (n * 733 / 1000 + 1)) ^ 146 := by rw [← pow_mul, mul_comm]

set_option maxRecDepth 2048 in
theorem base58Digit_lt (c : Char) : (base58Digit c).toNat < 58 := by
  have table : ∀ x ∈ mapBase58, x.toNat < 58 := by
    have checked : mapBase58.all (fun x => decide (x.toNat < 58)) = true := by decide
    simpa using checked
  rw [base58Digit, List.getD_eq_getElem?_getD]
  cases found : mapBase58[byte c]? with
  | none => decide
  | some x => exact table x (List.mem_of_getElem? found)

/-- The number characters stand for as base-58 digits, after a number `u` read already. -/
def base58Value (u : ℕ) (psz : List Char) : ℕ := value 58 u (psz.map fun c => (base58Digit c).toNat)

theorem base58Value_append (u : ℕ) (xs ys : List Char) :
    base58Value u (xs ++ ys) = base58Value u xs * 58 ^ ys.length + base58Value 0 ys := by
  rw [base58Value, List.map_append, value_append, value_eq, List.length_map]
  rfl

theorem base58Value_lt (psz : List Char) : base58Value 0 psz < 58 ^ psz.length := by
  rw [base58Value, ← List.length_map (fun c => (base58Digit c).toNat)]
  refine value_lt (by norm_num) fun d mem => ?_
  obtain ⟨c, -, rfl⟩ := List.mem_map.mp mem
  exact base58Digit_lt c

/-- The loop over the characters stops at the first space. It leaves the array holding the
value of the digits before it, unless one of them is not a digit or, once a digit is read, the
number needs more than `max_ret_len` bytes; the carry it asserts is zero always is. -/
theorem decodeDigits_eq (zeroes : ℕ) (maxRetLen : ℤ) {size : ℕ} :
    ∀ (psz : List Char) (u : ℕ), base58Value u (psz.takeWhile (!isSpace ·)) < 256 ^ size →
      decodeDigits zeroes maxRetLen (digitsIn 256 size u) psz =
        if (∀ c ∈ psz.takeWhile (!isSpace ·), base58Digit c ≠ -1) ∧ (psz.takeWhile (!isSpace ·) = [] ∨
          (((Nat.digits 256 (base58Value u (psz.takeWhile (!isSpace ·)))).length + zeroes : ℕ) : ℤ) ≤ maxRetLen)
        then
          some ((digitsIn 256 size (base58Value u (psz.takeWhile (!isSpace ·)))).1,
            (digitsIn 256 size (base58Value u (psz.takeWhile (!isSpace ·)))).2, psz.dropWhile (!isSpace ·))
        else none
  | [], u, _ => by
    simp [decodeDigits, base58Value, value_nil]
  | c :: psz, u, fits => by
    by_cases space : isSpace c
    · have stop : (c :: psz).takeWhile (!isSpace ·) = [] := by simp [space]
      have rest : (c :: psz).dropWhile (!isSpace ·) = c :: psz := by simp [space]
      rw [stop, rest, decodeDigits.eq_2, if_pos space]
      simp [base58Value, value_nil]
    have step : (c :: psz).takeWhile (!isSpace ·) = c :: psz.takeWhile (!isSpace ·) := by simp [space]
    have rest : (c :: psz).dropWhile (!isSpace ·) = psz.dropWhile (!isSpace ·) := by simp [space]
    rw [step] at fits
    rw [step, rest, decodeDigits.eq_2, if_neg space]
    by_cases invalid : base58Digit c = -1
    · simp [invalid]
    -- one round adds the digit to the number the array holds, and carries nothing out of it
    have grown : u * 58 + (base58Digit c).toNat ≤ base58Value u (c :: psz.takeWhile (!isSpace ·)) :=
      le_value (by norm_num) _ _
    have room := mulAdd_digitsIn 58 (by norm_num) (by norm_num) (grown.trans_lt fits)
    have longer := Nat.le_length_digits_le 256 _ _ grown
    have inUseNext : (digitsIn 256 size (u * 58 + (base58Digit c).toNat)).2 =
        (Nat.digits 256 (u * 58 + (base58Digit c).toNat)).length := rfl
    have next : base58Value (u * 58 + (base58Digit c).toNat) (psz.takeWhile (!isSpace ·)) =
        base58Value u (c :: psz.takeWhile (!isSpace ·)) := rfl
    simp only [invalid, if_false, room, ne_eq, not_true_eq_false]
    by_cases tooMany : (((digitsIn 256 size (u * 58 + (base58Digit c).toNat)).2 + zeroes : ℕ) : ℤ) > maxRetLen
    · rw [if_pos tooMany, if_neg]
      rintro ⟨-, empty | bounded⟩
      · cases empty
      · omega
    · rw [if_neg tooMany, decodeDigits_eq zeroes maxRetLen psz _ (by rwa [next]), next]
      -- the bound checked in this round is the bound at the end when no digit follows
      have checked : psz.takeWhile (!isSpace ·) = [] ∨
            (((Nat.digits 256 (base58Value u (c :: psz.takeWhile (!isSpace ·)))).length + zeroes : ℕ) : ℤ) ≤
              maxRetLen ↔
          (((Nat.digits 256 (base58Value u (c :: psz.takeWhile (!isSpace ·)))).length + zeroes : ℕ) : ℤ) ≤
            maxRetLen := by
        refine or_iff_right_of_imp fun empty => ?_
        rw [← next, empty, base58Value, List.map_nil, value_nil]
        omega
      simp only [checked, List.forall_mem_cons, invalid, ne_eq, not_false_eq_true, true_and,
        reduceCtorEq, false_or]

/-- What `DecodeBase58` computes, read as numbers rather than arrays: after the leading
spaces, a zero byte for each '1', then the bytes of the number the characters up to the next
space make. It fails on a character that is not a digit, on more than `max_ret_len` bytes
(checked from the first '1' or digit on) and on anything but spaces after the digits. -/
def decodeBase58Spec (psz : List Char) (maxRetLen : ℤ) : Option (List UInt8) :=
  let psz := psz.dropWhile isSpace
  let zeroes := (psz.takeWhile (· == '1')).length
  let digits := (psz.drop zeroes).takeWhile (!isSpace ·)
  let bytes := (Nat.digits 256 (base58Value 0 digits)).reverse
  if (∀ c ∈ digits, base58Digit c ≠ -1) ∧
      (zeroes + digits.length = 0 ∨ ((bytes.length + zeroes : ℕ) : ℤ) ≤ maxRetLen) ∧
      (((psz.drop zeroes).dropWhile (!isSpace ·)).dropWhile isSpace).isEmpty then
    some (List.replicate zeroes 0 ++ bytes.map UInt8.ofNat)
  else none

/-- `DecodeBase58` on any string and bound is its reading as numbers: the array always has
room for the number, so no round of the loop leaves a carry. -/
theorem decodeBase58_eq_spec (psz : List Char) (maxRetLen : ℤ) :
    decodeBase58 psz maxRetLen = decodeBase58Spec psz maxRetLen := by
  simp only [decodeBase58, decodeBase58Spec, List.length_reverse]
  set s := psz.dropWhile isSpace
  set z := (s.takeWhile (· == '1')).length
  set body := (s.drop z).takeWhile (!isSpace ·)
  set size := (s.drop z).length * 733 / 1000 + 1
  have fits : base58Value 0 body < 256 ^ size :=
    (base58Value_lt body).trans_le
      ((Nat.pow_le_pow_right (by norm_num) (List.takeWhile_prefix _).length_le).trans (pow_58_le _))
  have empty : digitsIn 256 size 0 = (List.replicate size 0, 0) := rfl
  rw [← empty, decodeDigits_eq z maxRetLen (s.drop z) 0 fits]
  by_cases tooMany : 0 < z ∧ (z : ℤ) > maxRetLen
  · rw [if_pos tooMany, if_neg]
    rintro ⟨-, none | bounded, -⟩ <;> omega
  rw [if_neg tooMany]
  -- the spec's bound is the loop's, and it holds without a digit when there is a '1'
  have bound : body = [] ∨ (((Nat.digits 256 (base58Value 0 body)).length + z : ℕ) : ℤ) ≤ maxRetLen ↔
      z + body.length = 0 ∨ (((Nat.digits 256 (base58Value 0 body)).length + z : ℕ) : ℤ) ≤ maxRetLen := by
    constructor
    · rintro (nothing | bounded)
      · by_cases ones : z = 0
        · left
          simp [ones, nothing]
        · right
          simp only [nothing, base58Value, List.map_nil, value_nil, Nat.digits_zero, List.length_nil]
          omega
      · exact Or.inr bounded
    · rintro (nothing | bounded)
      · exact Or.inl (List.eq_nil_of_length_eq_zero (by omega))
      · exact Or.inr bounded
  by_cases accepted : (∀ c ∈ body, base58Digit c ≠ -1) ∧
      (body = [] ∨ (((Nat.digits 256 (base58Value 0 body)).length + z : ℕ) : ℤ) ≤ maxRetLen)
  · rw [if_pos accepted]
    dsimp only
    by_cases trailing : (((s.drop z).dropWhile (!isSpace ·)).dropWhile isSpace).isEmpty = true
    · rw [if_pos trailing, if_pos ⟨accepted.1, bound.mp accepted.2, trailing⟩]
      simp [digitsIn, body]
    · rw [if_neg trailing, if_neg fun spec => trailing spec.2.2]
  · rw [if_neg accepted, if_neg fun spec => accepted ⟨spec.1, bound.mpr spec.2.1⟩]

/-- The reading of a string of digits after its leading '1's: a zero byte for each '1', and
the bytes of the number the digits make, if every character is a digit and, once there is a '1'
or a digit, the bytes fit. -/
theorem decodeBase58Spec_parts (z : ℕ) (psz : List Char) (noSpace : ∀ c ∈ psz, isSpace c = false)
    (lead : ∀ c ∈ psz.head?, c ≠ '1') (maxRetLen : ℤ) :
    decodeBase58Spec (List.replicate z '1' ++ psz) maxRetLen =
      if (∀ c ∈ psz, base58Digit c ≠ -1) ∧ (z + psz.length = 0 ∨
        (((Nat.digits 256 (base58Value 0 psz)).length + z : ℕ) : ℤ) ≤ maxRetLen) then
        some (List.replicate z 0 ++ (Nat.digits 256 (base58Value 0 psz)).reverse.map UInt8.ofNat)
      else none := by
  have spaces : (List.replicate z '1' ++ psz).dropWhile isSpace = List.replicate z '1' ++ psz := by
    apply List.dropWhile_eq_self_iff.mpr
    intro nonempty
    cases z with
    | zero =>
      simp only [List.replicate_zero, List.nil_append] at nonempty ⊢
      simpa using noSpace _ (List.getElem_mem nonempty)
    | succ z => simp [isSpace]
  have ones : (List.replicate z '1' ++ psz).takeWhile (· == '1') = List.replicate z '1' := by
    rw [List.takeWhile_append_of_pos (by simp)]
    cases psz with
    | nil => simp
    | cons c psz =>
      have notOne : c ≠ '1' := lead c rfl
      simp [notOne]
  have rest : (List.replicate z '1' ++ psz).drop z = psz := List.drop_left' (List.length_replicate ..)
  have whole : psz.takeWhile (!isSpace ·) = psz := List.takeWhile_eq_self_iff.mpr (by simpa using noSpace)
  have nothingLeft : psz.dropWhile (!isSpace ·) = [] := List.dropWhile_eq_nil_iff.mpr (by simpa using noSpace)
  simp only [decodeBase58Spec, spaces, ones, List.length_replicate, rest, whole, nothingLeft,
    List.dropWhile_nil, List.isEmpty_nil, and_true, List.length_reverse]

/-- `DecodeBase58` of a string of digits after its leading '1's: a zero byte for each '1', and
the bytes of the number the digits make, if every character is a digit and the bytes fit. -/
theorem decodeBase58_eq (z : ℕ) (psz : List Char) (noSpace : ∀ c ∈ psz, isSpace c = false)
    (lead : ∀ c ∈ psz.head?, c ≠ '1') {maxRetLen : ℤ} (nonneg : 0 ≤ maxRetLen) :
    decodeBase58 (List.replicate z '1' ++ psz) maxRetLen =
      if (∀ c ∈ psz, base58Digit c ≠ -1) ∧
        (((Nat.digits 256 (base58Value 0 psz)).length + z : ℕ) : ℤ) ≤ maxRetLen then
        some (List.replicate z 0 ++ (Nat.digits 256 (base58Value 0 psz)).reverse.map UInt8.ofNat)
      else none := by
  rw [decodeBase58_eq_spec, decodeBase58Spec_parts z psz noSpace lead]
  -- with a bound that is not negative, the bound holds also before the first '1' or digit
  have checked : z + psz.length = 0 ∨ (((Nat.digits 256 (base58Value 0 psz)).length + z : ℕ) : ℤ) ≤ maxRetLen ↔
      (((Nat.digits 256 (base58Value 0 psz)).length + z : ℕ) : ℤ) ≤ maxRetLen := by
    refine or_iff_right_of_imp fun nothing => ?_
    rw [List.eq_nil_of_length_eq_zero (by omega : psz.length = 0), show z = 0 by omega]
    simpa [base58Value] using nonneg
  simp only [checked]

/-! ### Round trips -/

set_option maxRecDepth 2048 in
/-- The alphabet and `mapBase58` agree, and no character of the alphabet is a space or ends a
C string. -/
theorem pszBase58_digit : ∀ d < 58, base58Digit (pszBase58.getD d ' ') = d ∧
    isSpace (pszBase58.getD d ' ') = false ∧ pszBase58.getD d ' ' ≠ '\x00' := by
  decide

theorem base58Digit_one : base58Digit '1' = 0 := by decide

/-- The bytes of the number that bytes after their leading zeroes make are those bytes. -/
theorem digits_value_dropWhile (input : List UInt8) :
    (Nat.digits 256 (value 256 0 ((input.dropWhile (· == 0)).map UInt8.toNat))).reverse =
      (input.dropWhile (· == 0)).map UInt8.toNat := by
  refine digits_value (by norm_num) (fun d mem => ?_) fun d mem => ?_
  · obtain ⟨ch, -, rfl⟩ := List.mem_map.mp mem
    exact ch.toNat_lt
  · have lead := List.head?_dropWhile_not (· == 0) input
    rw [List.head?_map] at mem
    cases found : (input.dropWhile (· == 0)).head? with
    | none => simp [found] at mem
    | some ch =>
      simp only [found, Option.map_some, Option.mem_def, Option.some.injEq] at mem lead
      subst mem
      intro zero
      have : ch = 0 := UInt8.toNat_inj.mp zero
      simp [this] at lead

theorem takeWhile_eq_zeroes (input : List UInt8) :
    input.takeWhile (· == 0) = List.replicate (input.takeWhile (· == 0)).length 0 :=
  List.eq_replicate_iff.mpr ⟨rfl, fun ch mem => by simpa using List.mem_takeWhile_imp mem⟩

/-- `DecodeBase58` reads back what `EncodeBase58` writes where the bytes are within the length
bound, and fails where they are not; the empty string reads back under any bound. -/
theorem decodeBase58_encodeBase58 (input : List UInt8) (maxRetLen : ℤ) :
    ∃ str, encodeBase58 input = some str ∧ validAsCString str = true ∧
      decodeBase58 str maxRetLen = if (input.length : ℤ) ≤ maxRetLen ∨ input = [] then some input else none := by
  set rest := input.dropWhile (· == 0)
  set v := value 256 0 (rest.map UInt8.toNat)
  have alphabet : ∀ d ∈ (Nat.digits 58 v).reverse, base58Digit (pszBase58.getD d ' ') = d ∧
      isSpace (pszBase58.getD d ' ') = false ∧ pszBase58.getD d ' ' ≠ '\x00' :=
    fun d mem => pszBase58_digit d (Nat.digits_lt_base (by norm_num) (List.mem_reverse.mp mem))
  have ids : (Nat.digits 58 v).reverse.map ((fun c => (base58Digit c).toNat) ∘ fun d => pszBase58.getD d ' ') =
      (Nat.digits 58 v).reverse := by
    conv_rhs => rw [← List.map_id (Nat.digits 58 v).reverse]
    exact List.map_congr_left fun d mem => by
      simp only [Function.comp_apply, (alphabet d mem).1, Int.toNat_natCast, id_eq]
  have read : base58Value 0 ((Nat.digits 58 v).reverse.map fun d => pszBase58.getD d ' ') = v := by
    rw [base58Value, List.map_map, ids, value_digits]
  -- the first character is the last digit, which is not zero, so it is not a '1'
  have lead : ∀ c ∈ ((Nat.digits 58 v).reverse.map fun d => pszBase58.getD d ' ').head?, c ≠ '1' := by
    intro c mem same
    rcases Nat.eq_zero_or_pos v with zero | held
    · rw [zero] at mem
      simp at mem
    · have nonempty : Nat.digits 58 v ≠ [] := Nat.digits_ne_nil_iff_ne_zero.mpr held.ne'
      rw [List.head?_map, List.head?_reverse, List.getLast?_eq_some_getLast nonempty] at mem
      simp only [Option.map_some, Option.mem_def, Option.some.injEq] at mem
      have digit := (alphabet _ (List.mem_reverse.mpr (List.getLast_mem nonempty))).1
      rw [mem, same, base58Digit_one] at digit
      exact Nat.getLast_digit_ne_zero 58 held.ne' (by omega)
  have bytes := digits_value_dropWhile input
  have zeroes := takeWhile_eq_zeroes input
  have whole := @List.takeWhile_append_dropWhile _ (· == 0) input
  have noSpace : ∀ c ∈ (Nat.digits 58 v).reverse.map fun d => pszBase58.getD d ' ', isSpace c = false := by
    intro c mem
    obtain ⟨d, inDigits, rfl⟩ := List.mem_map.mp mem
    exact (alphabet d inDigits).2.1
  have valid : ∀ c ∈ (Nat.digits 58 v).reverse.map (fun d => pszBase58.getD d ' '), base58Digit c ≠ -1 := by
    intro c mem
    obtain ⟨d, inDigits, rfl⟩ := List.mem_map.mp mem
    rw [(alphabet d inDigits).1]
    omega
  have inRange : (Nat.digits 256 (base58Value 0 ((Nat.digits 58 v).reverse.map fun d => pszBase58.getD d ' '))).length +
      (input.takeWhile (· == 0)).length = input.length := by
    have sameLength := congrArg List.length bytes
    rw [List.length_reverse, List.length_map] at sameLength
    have total := congrArg List.length whole
    rw [List.length_append] at total
    rw [read, sameLength]
    omega
  -- no '1' and no digit is the empty input, for which the bound is not checked
  have nothing : (input.takeWhile (· == 0)).length +
      ((Nat.digits 58 v).reverse.map fun d => pszBase58.getD d ' ').length = 0 ↔ input = [] := by
    have counted := inRange
    rw [read] at counted
    rw [List.length_map, List.length_reverse, ← List.length_eq_zero_iff]
    constructor
    · intro none
      have noValue : v = 0 := (@Nat.digits_eq_nil_iff_eq_zero 58 v).mp (List.eq_nil_of_length_eq_zero (by omega))
      rw [noValue, Nat.digits_zero, List.length_nil] at counted
      omega
    · intro none
      have noValue : v = 0 := (@Nat.digits_eq_nil_iff_eq_zero 256 v).mp (List.eq_nil_of_length_eq_zero (by omega))
      rw [noValue, Nat.digits_zero, List.length_nil]
      omega
  have bound : (input.takeWhile (· == 0)).length +
        ((Nat.digits 58 v).reverse.map fun d => pszBase58.getD d ' ').length = 0 ∨
        (((Nat.digits 256 (base58Value 0 ((Nat.digits 58 v).reverse.map fun d => pszBase58.getD d ' '))).length +
          (input.takeWhile (· == 0)).length : ℕ) : ℤ) ≤ maxRetLen ↔
      (input.length : ℤ) ≤ maxRetLen ∨ input = [] := by
    rw [nothing, inRange, or_comm]
  refine ⟨_, encodeBase58_eq input, ?_, ?_⟩
  · simp only [validAsCString]
    simpa using fun d mem => (alphabet d mem).2.2
  · rw [decodeBase58_eq_spec, decodeBase58Spec_parts _ _ noSpace lead]
    by_cases fits : (input.length : ℤ) ≤ maxRetLen ∨ input = []
    · rw [if_pos ⟨valid, bound.mpr fits⟩, if_pos fits, read, bytes, List.map_map]
      simp only [Function.comp_def, UInt8.ofNat_toNat, List.map_id']
      rw [← zeroes, whole]
    · rw [if_neg fun accepted => fits (bound.mp accepted.2), if_neg fits]

theorem length_checksum (hash : List UInt8 → Vector UInt8 32) (input : List UInt8) :
    ((hash input).toList.take 4).length = 4 := by
  simp

/-- `DecodeBase58Check` reads back what `EncodeBase58Check` writes. -/
theorem decodeBase58Check_encodeBase58Check (hash : List UInt8 → Vector UInt8 32) (input : List UInt8)
    {maxRetLen : ℤ} (fits : (input.length : ℤ) ≤ maxRetLen) (small : input.length + 4 ≤ INT_MAX) :
    ∃ str, encodeBase58Check hash input = some str ∧ decodeBase58Check hash str maxRetLen = some input := by
  have checked := length_checksum hash input
  -- the bound `DecodeBase58` is given covers the payload and its checksum
  have bound : ((input ++ (hash input).toList.take 4).length : ℤ) ≤
      if maxRetLen > (INT_MAX : ℤ) - 4 then (INT_MAX : ℤ) else maxRetLen + 4 := by
    rw [List.length_append, checked]
    split_ifs <;> omega
  obtain ⟨str, encoded, cString, decoded⟩ := decodeBase58_encodeBase58 (input ++ (hash input).toList.take 4)
    (if maxRetLen > (INT_MAX : ℤ) - 4 then (INT_MAX : ℤ) else maxRetLen + 4)
  refine ⟨str, encoded, ?_⟩
  rw [decodeBase58Check, cString, Bool.not_true, if_neg Bool.false_ne_true, decoded, if_pos (Or.inl bound)]
  simp [checked]

/-- With its checksum, a payload of more than `INT_MAX - 4` bytes is longer than any bound
`DecodeBase58Check` gives `DecodeBase58`, so it does not read back. -/
theorem decodeBase58Check_encodeBase58Check_long (hash : List UInt8 → Vector UInt8 32) (input : List UInt8)
    (maxRetLen : ℤ) (long : INT_MAX < input.length + 4) :
    (encodeBase58Check hash input).bind (decodeBase58Check hash · maxRetLen) = none := by
  have checked := length_checksum hash input
  obtain ⟨str, encoded, cString, decoded⟩ := decodeBase58_encodeBase58 (input ++ (hash input).toList.take 4)
    (if maxRetLen > (INT_MAX : ℤ) - 4 then (INT_MAX : ℤ) else maxRetLen + 4)
  -- the bound is at most INT_MAX, and the payload with its checksum is not empty
  have tooLong : ¬(((input ++ (hash input).toList.take 4).length : ℤ) ≤
      (if maxRetLen > (INT_MAX : ℤ) - 4 then (INT_MAX : ℤ) else maxRetLen + 4) ∨
        input ++ (hash input).toList.take 4 = []) := by
    rintro (fits | empty)
    · rw [List.length_append, checked] at fits
      split_ifs at fits <;> omega
    · have counted := congrArg List.length empty
      rw [List.length_append, checked, List.length_nil] at counted
      omega
  rw [encodeBase58Check, encoded, Option.bind_some, decodeBase58Check, cString, Bool.not_true,
    if_neg Bool.false_ne_true, decoded, if_neg tooLong]

/-- What `DecodeBase58Check` accepted: a decoded string of at least four bytes, the payload
before its checksum. -/
theorem decodeBase58Check_eq_some {hash : List UInt8 → Vector UInt8 32} {str : List Char} {maxRetLen : ℤ}
    {data : List UInt8} (accepted : decodeBase58Check hash str maxRetLen = some data) :
    ∃ vchRet, decodeBase58 str (if maxRetLen > (INT_MAX : ℤ) - 4 then INT_MAX else maxRetLen + 4) = some vchRet ∧
      4 ≤ vchRet.length ∧ data = vchRet.take (vchRet.length - 4) := by
  unfold decodeBase58Check at accepted
  split at accepted
  · cases accepted
  · split at accepted
    · cases accepted
    · rename_i vchRet decoded
      split at accepted
      · cases accepted
      · split at accepted
        · exact ⟨vchRet, decoded, by omega, (Option.some.inj accepted).symm⟩
        · cases accepted

end Pussycoin.Address
