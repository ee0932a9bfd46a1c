import Mathlib

/-! `arith_uint256` of `arith_uint256.{h,cpp}`, as natural numbers below `2^256`. The
limb loops of `base_uint` drop whatever is carried out of the top limb, so each
operation reduces modulo `2^256`; `uint32_t` and `uint64_t` arguments are reduced to
their width where the source converts them. -/
namespace Pussycoin.ArithUint256

/-- The highest set bit below position `n`, plus one; 0 when there is none. -/
def bitsBelow (x : ℕ) : ℕ → ℕ
  | 0 => 0
  | n + 1 => if x.testBit n then n + 1 else bitsBelow x n

/-- `base_uint<256>::bits`: scanning from the top, one more than the position of the
highest set bit, and 0 for zero. -/
def bits (x : ℕ) : ℕ := bitsBelow x 256

/-- `GetLow64`. -/
def getLow64 (x : ℕ) : ℕ := x % 2 ^ 64

/-- `operator<<=`: bits shifted past the top limb are lost. -/
def shiftLeft (x shift : ℕ) : ℕ := (x <<< shift) % 2 ^ 256

/-- `operator*=(uint32_t)`: the carry chain of the limb loop, modulo `2^256`. -/
def mulU32 (x b32 : ℕ) : ℕ := x * (b32 % 2 ^ 32) % 2 ^ 256

/-- `operator/=`: long division by shift and subtract; a zero divisor throws
`uint_error`, which is `none` here. -/
def divide (x b : ℕ) : Option ℕ := if b = 0 then none else some (x / b)

/-- `SetCompact`: the value, the `*pfNegative` flag and the `*pfOverflow` flag. -/
def setCompact (nCompact : ℕ) : ℕ × Bool × Bool :=
  let nSize := nCompact >>> 24
  let word := nCompact &&& 0x007fffff
  -- a short size shifts the word itself, before the flags read it
  let nWord := if nSize ≤ 3 then word >>> (8 * (3 - nSize)) else word
  let value := if nSize ≤ 3 then nWord else shiftLeft nWord (8 * (nSize - 3))
  let negative := nWord != 0 && nCompact &&& 0x00800000 != 0
  let overflow := nWord != 0 &&
    (34 < nSize || (0xff < nWord && 33 < nSize) || (0xffff < nWord && 32 < nSize))
  (value, negative, overflow)

/-- `GetCompact`. Its two asserts hold for every value below `2^256`. -/
def getCompact (x : ℕ) (fNegative : Bool) : ℕ :=
  let size := (bits x + 7) / 8
  let compact :=
    if size ≤ 3 then (getLow64 x <<< (8 * (3 - size))) % 2 ^ 32
    else getLow64 (x >>> (8 * (size - 3))) % 2 ^ 32
  -- the 0x00800000 bit is the sign: move a mantissa that reaches it down one byte
  let normalized := if compact &&& 0x00800000 != 0 then (compact >>> 8, size + 1)
    else (compact, size)
  let withSize := normalized.1 ||| (normalized.2 <<< 24)
  withSize ||| (if fNegative && withSize &&& 0x007fffff != 0 then 0x00800000 else 0)

example : (setCompact 0x1d00ffff).1 = 0xffff <<< 208 := by decide
example : getCompact (0xffff <<< 208) false = 0x1d00ffff := by decide

theorem bitsBelow_le (x n : ℕ) : bitsBelow x n ≤ n := by
  induction n with
  | zero => rfl
  | succ n ih =>
    simp only [bitsBelow]
    split <;> omega

theorem mulU32_lt (x b32 : ℕ) : mulU32 x b32 < 2 ^ 256 :=
  Nat.mod_lt _ (by positivity)

theorem shiftLeft_lt (x shift : ℕ) : shiftLeft x shift < 2 ^ 256 :=
  Nat.mod_lt _ (by positivity)

/-- A multiplier below `2^32` is used as it is. -/
theorem mulU32_of_lt {x b32 : ℕ} (small : b32 < 2 ^ 32) :
    mulU32 x b32 = x * b32 % 2 ^ 256 := by
  simp only [mulU32, Nat.mod_eq_of_lt small]

theorem divide_eq_some {x b : ℕ} (nonzero : b ≠ 0) : divide x b = some (x / b) := by
  simp only [divide, if_neg nonzero]

/-! ### The compact encoding, read as numbers -/

/-- A number below `2^(i+1)` has bit `i` set when it is at least `2^i`. -/
theorem testBit_of_lt_two_pow_succ {x i : ℕ} (small : x < 2 ^ (i + 1)) :
    x.testBit i = decide (2 ^ i ≤ x) := by
  have below : x / 2 ^ i < 2 := Nat.div_lt_of_lt_mul (by rw [← pow_succ]; exact small)
  rw [Nat.testBit_eq_decide_div_mod_eq]
  by_cases high : 2 ^ i ≤ x
  · have one : x / 2 ^ i = 1 := by
      have := Nat.div_pos high (by positivity)
      omega
    simp [one, high]
  · have zero : x / 2 ^ i = 0 := Nat.div_eq_of_lt (by omega)
    simp [zero, high]

theorem bitsBelow_eq_size {x : ℕ} : ∀ {n : ℕ}, x < 2 ^ n → bitsBelow x n = x.size
  | 0, small => by
    have zero : x = 0 := by simpa using small
    simp [bitsBelow, zero]
  | n + 1, small => by
    rw [bitsBelow, testBit_of_lt_two_pow_succ small]
    by_cases top : 2 ^ n ≤ x
    · rw [if_pos (decide_eq_true top)]
      exact le_antisymm (Nat.lt_size.mpr top) (Nat.size_le.mpr small)
    · rw [if_neg (by simpa using top)]
      exact bitsBelow_eq_size (by omega)

theorem bits_eq_size {x : ℕ} (small : x < 2 ^ 256) : bits x = x.size :=
  bitsBelow_eq_size small

/-- The number of bytes a number takes: `nSize` of `GetCompact`. -/
def byteSize (x : ℕ) : ℕ := (x.size + 7) / 8

theorem lt_pow_byteSize (x : ℕ) : x < 256 ^ byteSize x :=
  calc x < 2 ^ x.size := Nat.lt_size_self x
    _ ≤ 2 ^ (8 * byteSize x) := Nat.pow_le_pow_right (by norm_num) (by unfold byteSize; omega)
    _ = 256 ^ byteSize x := by rw [pow_mul]; norm_num

theorem pow_byteSize_le {x : ℕ} (pos : 0 < x) : 256 ^ (byteSize x - 1) ≤ x := by
  have top : x.size - 1 < x.size := Nat.sub_lt (Nat.size_pos.mpr pos) one_pos
  calc 256 ^ (byteSize x - 1) = 2 ^ (8 * (byteSize x - 1)) := by rw [pow_mul]; norm_num
    _ ≤ 2 ^ (x.size - 1) := Nat.pow_le_pow_right (by norm_num) (by unfold byteSize; omega)
    _ ≤ x := Nat.lt_size.mp top

/-- A number from `256^(k-1)` and below `256^k` takes `k` bytes. -/
theorem byteSize_eq {x k : ℕ} (lo : 256 ^ (k - 1) ≤ x) (hi : x < 256 ^ k) (pos : 0 < k) :
    byteSize x = k := by
  have atMost : x.size ≤ 8 * k := Nat.size_le.mpr (by rwa [pow_mul, show (2 : ℕ) ^ 8 = 256 by norm_num])
  have above : 8 * (k - 1) < x.size := Nat.lt_size.mpr (by rwa [pow_mul, show (2 : ℕ) ^ 8 = 256 by norm_num])
  unfold byteSize
  omega

theorem byteSize_pos {x : ℕ} (pos : 0 < x) : 0 < byteSize x := by
  have := Nat.size_pos.mpr pos
  unfold byteSize
  omega

/-- The top three bytes of a number of `n` bytes, where `GetCompact` places them. -/
def topBytes (x n : ℕ) : ℕ := if n ≤ 3 then x * 256 ^ (3 - n) else x / 256 ^ (n - 3)

/-- The mantissa and the size `GetCompact` writes for a number of `n` bytes: the top three
bytes, moved down one byte with the size up one where they reach the sign bit. -/
def compactPair (x n : ℕ) : ℕ × ℕ :=
  if 2 ^ 23 ≤ topBytes x n then (topBytes x n / 256, n + 1) else (topBytes x n, n)

/-- The number `SetCompact` reads from a mantissa and a size, before it is cut to 256 bits. -/
def compactValue (m e : ℕ) : ℕ := if e ≤ 3 then m / 256 ^ (3 - e) else m * 256 ^ (e - 3)

/-- Clearing the low `s` bytes of `x` keeps its most significant 23 bits in byte alignment:
`s` is the fewest bytes whose removal leaves at most 23 bits. -/
def KeepsTop23 (x s : ℕ) : Prop := x / 256 ^ s < 2 ^ 23 ∧ ∀ t < s, 2 ^ 23 ≤ x / 256 ^ t

theorem keepsTop23_zero {x : ℕ} (small : x < 2 ^ 23) : KeepsTop23 x 0 :=
  ⟨by simpa using small, fun _ none => absurd none (Nat.not_lt_zero _)⟩

theorem keepsTop23_succ {x s : ℕ} (fits : x / 256 ^ (s + 1) < 2 ^ 23) (past : 2 ^ 23 ≤ x / 256 ^ s) :
    KeepsTop23 x (s + 1) := by
  refine ⟨fits, fun t below => past.trans (Nat.div_le_div_left ?_ (by positivity))⟩
  exact Nat.pow_le_pow_right (by norm_num) (by omega)

theorem topBytes_lt {x n : ℕ} (hi : x < 256 ^ n) : topBytes x n < 2 ^ 24 := by
  unfold topBytes
  split_ifs with short
  · calc x * 256 ^ (3 - n) < 256 ^ n * 256 ^ (3 - n) := Nat.mul_lt_mul_of_pos_right hi (by positivity)
      _ = 2 ^ 24 := by rw [← pow_add, Nat.add_sub_cancel' short]; norm_num
  · refine Nat.div_lt_of_lt_mul ?_
    calc x < 256 ^ n := hi
      _ = 256 ^ (n - 3) * 2 ^ 24 := by
        rw [show (2 : ℕ) ^ 24 = 256 ^ 3 by norm_num, ← pow_add, Nat.sub_add_cancel (by omega)]

/-- The sign bit of a number below `2^24`. -/
theorem and_sign {T : ℕ} (small : T < 2 ^ 24) : T &&& 0x00800000 = if 2 ^ 23 ≤ T then 2 ^ 23 else 0 := by
  rw [show (0x00800000 : ℕ) = 2 ^ 23 by norm_num, Nat.and_two_pow, testBit_of_lt_two_pow_succ small]
  split_ifs with high
  · simp only [high, decide_true, Bool.toNat_true, one_mul]
  · simp only [high, decide_false, Bool.toNat_false, zero_mul]

/-- The size byte put above a mantissa. -/
theorem or_shiftLeft_eq_add {m : ℕ} (e : ℕ) (small : m < 2 ^ 24) : m ||| e <<< 24 = m + e * 2 ^ 24 := by
  rw [Nat.lor_comm, ← Nat.shiftLeft_add_eq_or_of_lt small, Nat.shiftLeft_eq]
  ring

/-- `GetCompact` of a number writes the mantissa and the size of `compactPair`, and no sign. -/
theorem getCompact_eq {x : ℕ} (small : x < 2 ^ 256) :
    getCompact x false = (compactPair x (byteSize x)).1 + (compactPair x (byteSize x)).2 * 2 ^ 24 := by
  have top := topBytes_lt (lt_pow_byteSize x)
  -- the word read off before the sign check is the top three bytes
  have word : (if byteSize x ≤ 3 then (getLow64 x <<< (8 * (3 - byteSize x))) % 2 ^ 32
      else getLow64 (x >>> (8 * (byteSize x - 3))) % 2 ^ 32) = topBytes x (byteSize x) := by
    unfold topBytes at top ⊢
    unfold getLow64
    split_ifs at top ⊢ with short
    · have within : x < 2 ^ 64 := by
        have := Nat.le_mul_of_pos_right x (show 0 < 256 ^ (3 - byteSize x) by positivity)
        omega
      rw [Nat.shiftLeft_eq, pow_mul, show (2 : ℕ) ^ 8 = 256 by norm_num, Nat.mod_eq_of_lt within,
        Nat.mod_eq_of_lt (by omega)]
    · rw [Nat.shiftRight_eq_div_pow, pow_mul, show (2 : ℕ) ^ 8 = 256 by norm_num,
        Nat.mod_eq_of_lt (show x / 256 ^ (byteSize x - 3) < 2 ^ 64 by omega), Nat.mod_eq_of_lt (by omega)]
  unfold getCompact
  simp only [bits_eq_size small, show (x.size + 7) / 8 = byteSize x from rfl, word, and_sign top,
    Bool.false_and, Bool.false_eq_true, if_false, Nat.or_zero]
  unfold compactPair
  by_cases high : 2 ^ 23 ≤ topBytes x (byteSize x)
  · have down : topBytes x (byteSize x) >>> 8 = topBytes x (byteSize x) / 256 := by
      rw [Nat.shiftRight_eq_div_pow]
    simp only [high, if_true, ne_eq, pow_eq_zero_iff, OfNat.ofNat_ne_zero, not_false_eq_true, bne_iff_ne, down]
    exact or_shiftLeft_eq_add _ (by omega)
  · simp only [high, if_false, bne_self_eq_false, Bool.false_eq_true]
    exact or_shiftLeft_eq_add _ (by omega)

/-! A compact word of a mantissa below `2^23` and a size: its fields read back, and its
sign bit is clear. -/

theorem word_size {m : ℕ} (e : ℕ) (small : m < 2 ^ 23) : (m + e * 2 ^ 24) >>> 24 = e := by
  rw [Nat.shiftRight_eq_div_pow]
  omega

theorem word_mantissa {m : ℕ} (e : ℕ) (small : m < 2 ^ 23) : (m + e * 2 ^ 24) &&& 0x007fffff = m := by
  rw [show (0x007fffff : ℕ) = 2 ^ 23 - 1 by norm_num, Nat.and_two_pow_sub_one_eq_mod]
  omega

theorem word_sign {m : ℕ} (e : ℕ) (small : m < 2 ^ 23) : (m + e * 2 ^ 24) &&& 0x00800000 = 0 := by
  have even : (m + e * 2 ^ 24) / 2 ^ 23 % 2 = 0 := by omega
  rw [show (0x00800000 : ℕ) = 2 ^ 23 by norm_num, Nat.and_two_pow, Nat.testBit_eq_decide_div_mod_eq, even]
  rfl

/-- A word with the sign bit clear is its mantissa and its size byte. -/
theorem word_split {nCompact : ℕ} (clear : nCompact &&& 0x00800000 = 0) :
    nCompact = (nCompact &&& 0x007fffff) + (nCompact >>> 24) * 2 ^ 24 ∧ nCompact &&& 0x007fffff < 2 ^ 23 := by
  rw [show (0x00800000 : ℕ) = 2 ^ 23 by norm_num, Nat.and_two_pow, Nat.testBit_eq_decide_div_mod_eq] at clear
  have even : nCompact / 2 ^ 23 % 2 = 0 := by
    simp at clear
    omega
  rw [show (0x007fffff : ℕ) = 2 ^ 23 - 1 by norm_num, Nat.and_two_pow_sub_one_eq_mod, Nat.shiftRight_eq_div_pow]
  omega

/-- `SetCompact` of a word with the sign bit clear: the value its mantissa and size stand
for, cut to 256 bits, no sign, and the overflow flag as the source computes it. -/
theorem setCompact_eq {m : ℕ} (e : ℕ) (small : m < 2 ^ 23) :
    setCompact (m + e * 2 ^ 24) = (compactValue m e % 2 ^ 256, false,
      m != 0 && (34 < e || (0xff < m && 33 < e) || (0xffff < m && 32 < e))) := by
  unfold setCompact compactValue
  simp only [word_size e small, word_mantissa e small, word_sign e small, bne_self_eq_false, Bool.and_false]
  by_cases short : e ≤ 3
  · -- the mantissa is shifted down, and no size this small overflows
    have lower : m / 256 ^ (3 - e) ≤ m := Nat.div_le_self _ _
    simp only [short, if_true, Nat.shiftRight_eq_div_pow, pow_mul, show (2 : ℕ) ^ 8 = 256 by norm_num,
      Nat.mod_eq_of_lt (show m / 256 ^ (3 - e) < 2 ^ 256 by omega), show ¬ 34 < e by omega,
      show ¬ 33 < e by omega, show ¬ 32 < e by omega, decide_false, Bool.and_false, Bool.or_false]
  · simp only [short, if_false, shiftLeft, Nat.shiftLeft_eq, pow_mul, show (2 : ℕ) ^ 8 = 256 by norm_num]

/-- The mantissa and the size `GetCompact` writes for a number of `n` bytes stand for the
number with the bytes below its top 23 bits cleared. -/
theorem compactPair_rounds {x n : ℕ} (lo : 256 ^ (n - 1) ≤ x) (hi : x < 256 ^ n) (pos : 0 < n) :
    compactValue (compactPair x n).1 (compactPair x n).2 =
        x / 256 ^ ((compactPair x n).2 - 3) * 256 ^ ((compactPair x n).2 - 3) ∧
      KeepsTop23 x ((compactPair x n).2 - 3) := by
  unfold compactPair topBytes
  by_cases short : n ≤ 3
  · -- a short number is moved up to three bytes; only a third byte can be cut off
    simp only [if_pos short]
    by_cases high : 2 ^ 23 ≤ x * 256 ^ (3 - n)
    · simp only [if_pos high]
      interval_cases n
      · refine ⟨by simp [compactValue]; omega, keepsTop23_zero (by simp at hi; omega)⟩
      · refine ⟨by simp [compactValue], keepsTop23_zero (by simp at hi; omega)⟩
      · refine ⟨by simp [compactValue], keepsTop23_succ (by simp at hi ⊢; omega) (by simpa using high)⟩
    · simp only [if_neg high, Nat.sub_eq_zero_of_le short]
      have within : x ≤ x * 256 ^ (3 - n) := Nat.le_mul_of_pos_right x (by positivity)
      refine ⟨?_, keepsTop23_zero (by omega)⟩
      simp [compactValue, short]
  · -- a long number keeps its top three bytes, or two where the third reaches the sign bit
    obtain ⟨k, rfl⟩ : ∃ k, n = k + 4 := ⟨n - 4, by omega⟩
    have top : x / 256 ^ (k + 1) < 2 ^ 24 := by
      refine Nat.div_lt_of_lt_mul ?_
      calc x < 256 ^ (k + 4) := hi
        _ = 256 ^ (k + 1) * 2 ^ 24 := by rw [show (2 : ℕ) ^ 24 = 256 ^ 3 by norm_num, ← pow_add]
    simp only [if_neg short, show k + 4 - 3 = k + 1 by omega]
    by_cases high : 2 ^ 23 ≤ x / 256 ^ (k + 1)
    · have down : x / 256 ^ (k + 1) / 256 = x / 256 ^ (k + 2) := by
        rw [Nat.div_div_eq_div_mul, ← pow_succ]
      simp only [if_pos high, down, compactValue, show ¬ k + 4 + 1 ≤ 3 by omega, if_false,
        show k + 4 + 1 - 3 = k + 2 by omega, true_and]
      exact keepsTop23_succ (by rw [← down]; omega) high
    · simp only [if_neg high, compactValue, show ¬ k + 4 ≤ 3 by omega, if_false,
        show k + 4 - 3 = k + 1 by omega, true_and]
      refine keepsTop23_succ (by omega) ?_
      rw [Nat.le_div_iff_mul_le (by positivity)]
      calc 2 ^ 23 * 256 ^ k ≤ 256 ^ 3 * 256 ^ k := Nat.mul_le_mul_right _ (by norm_num)
        _ = 256 ^ (k + 4 - 1) := by rw [← pow_add, show 3 + k = k + 4 - 1 by omega]
        _ ≤ x := lo

theorem getCompact_zero : getCompact 0 false = 0 := by
  rw [getCompact_eq (by norm_num)]
  simp [compactPair, topBytes, byteSize]

theorem setCompact_zero : setCompact 0 = (0, false, false) := by
  decide

/-- The pair `GetCompact` writes fits its word and sets the overflow flag of `SetCompact` on
no number of at most 32 bytes: only a 33-byte size can arise, from a 32-byte number, and its
mantissa is two bytes. -/
theorem compactPair_fits {x n : ℕ} (hi : x < 256 ^ n) (bytes : n ≤ 32) :
    (compactPair x n).1 < 2 ^ 23 ∧
      ((compactPair x n).2 ≤ 32 ∨ (compactPair x n).2 = 33 ∧ (compactPair x n).1 ≤ 0xffff) := by
  have top := topBytes_lt hi
  unfold compactPair
  by_cases high : 2 ^ 23 ≤ topBytes x n
  · simp only [if_pos high]
    omega
  · simp only [if_neg high]
    omega

/-- `SetCompact` of `GetCompact` of a number below `2^256` raises no flag and gives back the
number with the bytes below its top 23 bits cleared. -/
theorem setCompact_getCompact {x : ℕ} (small : x < 2 ^ 256) :
    ∃ s, setCompact (getCompact x false) = (x / 256 ^ s * 256 ^ s, false, false) ∧ KeepsTop23 x s := by
  rcases Nat.eq_zero_or_pos x with zero | pos
  · subst zero
    refine ⟨0, ?_, keepsTop23_zero (by norm_num)⟩
    rw [getCompact_zero, setCompact_zero]
    rfl
  have bytes : byteSize x ≤ 32 := by
    have := Nat.size_le.mpr small
    unfold byteSize
    omega
  obtain ⟨fits, sized⟩ := compactPair_fits (lt_pow_byteSize x) bytes
  obtain ⟨value, keeps⟩ := compactPair_rounds (pow_byteSize_le pos) (lt_pow_byteSize x) (byteSize_pos pos)
  have within : compactValue (compactPair x (byteSize x)).1 (compactPair x (byteSize x)).2 < 2 ^ 256 := by
    rw [value]
    exact (Nat.div_mul_le_self _ _).trans_lt small
  refine ⟨_, ?_, keeps⟩
  rw [getCompact_eq small, setCompact_eq _ fits, Nat.mod_eq_of_lt within, value]
  -- the overflow flag needs a size above 32, and a mantissa above two bytes at 33
  have noOverflow : (34 < (compactPair x (byteSize x)).2 ||
      (0xff < (compactPair x (byteSize x)).1 && 33 < (compactPair x (byteSize x)).2) ||
      (0xffff < (compactPair x (byteSize x)).1 && 32 < (compactPair x (byteSize x)).2)) = false := by
    rcases sized with low | ⟨top, small⟩
    · simp [show ¬ 34 < (compactPair x (byteSize x)).2 by omega, show ¬ 33 < (compactPair x (byteSize x)).2 by omega,
        show ¬ 32 < (compactPair x (byteSize x)).2 by omega]
    · simp [top, show ¬ 0xffff < (compactPair x (byteSize x)).1 by omega]
  rw [noOverflow, Bool.and_false]

/-- The mantissa `GetCompact` writes for a number is at least 0x8000 and loses no bit to a size
below 3. -/
theorem compactPair_normalized {x n : ℕ} (lo : 256 ^ (n - 1) ≤ x) (hi : x < 256 ^ n) (pos : 0 < n) :
    2 ^ 15 ≤ (compactPair x n).1 ∧ (compactPair x n).1 % 256 ^ (3 - (compactPair x n).2) = 0 := by
  unfold compactPair topBytes
  by_cases short : n ≤ 3
  · simp only [if_pos short]
    interval_cases n
    all_goals
      norm_num at lo hi ⊢
      split_ifs <;> norm_num <;> omega
  · obtain ⟨k, rfl⟩ : ∃ k, n = k + 4 := ⟨n - 4, by omega⟩
    have past : 2 ^ 16 ≤ x / 256 ^ (k + 1) := by
      rw [Nat.le_div_iff_mul_le (by positivity)]
      calc 2 ^ 16 * 256 ^ (k + 1) = 256 ^ (k + 4 - 1) := by
            rw [show k + 4 - 1 = 2 + (k + 1) by omega, pow_add 256 2 (k + 1)]; norm_num
        _ ≤ x := lo
    simp only [if_neg short, show k + 4 - 3 = k + 1 by omega]
    split_ifs
    · simp only [show 3 - (k + 4 + 1) = 0 by omega, pow_zero, Nat.mod_one, and_true]
      omega
    · simp only [show 3 - (k + 4) = 0 by omega, pow_zero, Nat.mod_one, and_true]
      omega

theorem compactPair_compactValue {m e : ℕ} (lead : 2 ^ 15 ≤ m) (fits : m < 2 ^ 23)
    (exact : m % 256 ^ (3 - e) = 0) :
    compactPair (compactValue m e) (byteSize (compactValue m e)) = (m, e) := by
  by_cases short : e ≤ 3
  · -- the mantissa moved down 3 - e bytes, which cuts off none of its bits: a mantissa of two
    -- bytes leaves one byte less, which GetCompact moves up to the sign bit and back
    rw [compactValue, if_pos short]
    interval_cases e <;> norm_num at exact ⊢
    · omega
    · rw [@byteSize_eq _ 1 (by norm_num; omega) (by norm_num; omega) one_pos]
      simp only [compactPair, topBytes]
      split_ifs <;> simp only [Prod.mk.injEq, and_true] <;> omega
    · by_cases big : 2 ^ 16 ≤ m
      · rw [@byteSize_eq _ 2 (by norm_num; omega) (by norm_num; omega) two_pos]
        simp only [compactPair, topBytes]
        split_ifs <;> simp only [Prod.mk.injEq, and_true] <;> omega
      · rw [@byteSize_eq _ 1 (by norm_num; omega) (by norm_num; omega) one_pos]
        simp only [compactPair, topBytes]
        split_ifs <;> simp only [Prod.mk.injEq, and_true] <;> omega
    · by_cases big : 2 ^ 16 ≤ m
      · rw [@byteSize_eq _ 3 (by norm_num; omega) (by norm_num; omega) (by norm_num)]
        simp only [compactPair, topBytes]
        split_ifs <;> simp only [Prod.mk.injEq, and_true] <;> omega
      · rw [@byteSize_eq _ 2 (by norm_num; omega) (by norm_num; omega) two_pos]
        simp only [compactPair, topBytes]
        split_ifs <;> simp only [Prod.mk.injEq, and_true] <;> omega
  · -- the mantissa moved up e - 3 bytes: its top byte is the number's, or the one below it
    obtain ⟨k, rfl⟩ : ∃ k, e = k + 4 := ⟨e - 4, by omega⟩
    rw [compactValue, if_neg short, show k + 4 - 3 = k + 1 by omega]
    by_cases big : 2 ^ 16 ≤ m
    · have sized : byteSize (m * 256 ^ (k + 1)) = k + 4 := by
        refine byteSize_eq ?_ ?_ (by omega)
        · calc 256 ^ (k + 4 - 1) = 2 ^ 16 * 256 ^ (k + 1) := by
                rw [show k + 4 - 1 = 2 + (k + 1) by omega, pow_add]; norm_num
            _ ≤ m * 256 ^ (k + 1) := Nat.mul_le_mul_right _ big
        · calc m * 256 ^ (k + 1) < 256 ^ 3 * 256 ^ (k + 1) := Nat.mul_lt_mul_of_pos_right (by omega) (by positivity)
            _ = 256 ^ (k + 4) := by rw [← pow_add]; ring_nf
      have top : topBytes (m * 256 ^ (k + 1)) (k + 4) = m := by
        rw [topBytes, if_neg (by omega), show k + 4 - 3 = k + 1 by omega, Nat.mul_div_cancel _ (by positivity)]
      rw [sized, compactPair, top, if_neg (by omega)]
    · have sized : byteSize (m * 256 ^ (k + 1)) = k + 3 := by
        refine byteSize_eq ?_ ?_ (by omega)
        · calc 256 ^ (k + 3 - 1) = 256 * 256 ^ (k + 1) := by
                rw [show k + 3 - 1 = 1 + (k + 1) by omega, pow_add]; norm_num
            _ ≤ m * 256 ^ (k + 1) := Nat.mul_le_mul_right _ (by omega)
        · calc m * 256 ^ (k + 1) < 256 ^ 2 * 256 ^ (k + 1) := Nat.mul_lt_mul_of_pos_right (by omega) (by positivity)
            _ = 256 ^ (k + 3) := by rw [← pow_add]; ring_nf
      have top : topBytes (m * 256 ^ (k + 1)) (k + 3) = m * 256 := by
        rcases Nat.eq_zero_or_pos k with zero | pos
        · subst zero
          simp [topBytes]
        · rw [topBytes, if_neg (by omega), show k + 3 - 3 = k by omega, pow_succ, ← mul_assoc,
            mul_right_comm, Nat.mul_div_cancel _ (by positivity)]
      rw [sized, compactPair, top, if_pos (by omega), Nat.mul_div_cancel _ (by norm_num)]
/-- A compact word as `GetCompact` writes it: the sign bit clear; zero as 0; otherwise a
mantissa from 0x8000 (its top byte in use, or the byte below where the top one would be the
sign bit), with no bits cut off by a size below 3, standing for a number below `2^256`. -/
def Normalized (nCompact : ℕ) : Prop :=
  nCompact < 2 ^ 32 ∧ nCompact &&& 0x00800000 = 0 ∧
    if nCompact &&& 0x007fffff = 0 then nCompact >>> 24 = 0
    else 0x8000 ≤ nCompact &&& 0x007fffff ∧ (nCompact &&& 0x007fffff) % 256 ^ (3 - (nCompact >>> 24)) = 0 ∧
      (nCompact &&& 0x007fffff) * 256 ^ (nCompact >>> 24 - 3) < 2 ^ 256

instance : DecidablePred Normalized := fun _ => inferInstanceAs (Decidable (_ ∧ _ ∧ _))

example : Normalized 0x1d00ffff := by decide
example : ¬ Normalized 0x01123456 := by decide

/-- `GetCompact` of what `SetCompact` reads from a normalized word writes that word again. -/
theorem getCompact_setCompact {nCompact : ℕ} (normalized : Normalized nCompact) :
    getCompact (setCompact nCompact).1 false = nCompact := by
  obtain ⟨-, clear, shape⟩ := normalized
  obtain ⟨split, fits⟩ := word_split clear
  rw [split] at shape ⊢
  simp only [word_mantissa _ fits, word_size _ fits] at shape
  rw [setCompact_eq _ fits]
  by_cases zero : nCompact &&& 0x007fffff = 0
  · rw [if_pos zero] at shape
    simp only [zero, shape, compactValue]
    simpa using getCompact_zero
  · rw [if_neg zero] at shape
    obtain ⟨lead, exact, bounded⟩ := shape
    -- the value is below 2^256, so SetCompact cuts nothing off
    have within : compactValue (nCompact &&& 0x007fffff) (nCompact >>> 24) < 2 ^ 256 := by
      unfold compactValue
      split_ifs
      · exact (Nat.div_le_self _ _).trans_lt (by omega)
      · exact bounded
    rw [Nat.mod_eq_of_lt within, getCompact_eq within,
      compactPair_compactValue (by omega) fits exact]

theorem setCompact_lt (nCompact : ℕ) : (setCompact nCompact).1 < 2 ^ 256 := by
  simp only [setCompact]
  split_ifs
  · have := @Nat.and_le_right nCompact 0x007fffff
    exact (Nat.shiftRight_le _ _).trans_lt (by omega)
  · exact shiftLeft_lt _ _

/-- The normalized words are the words `GetCompact` writes for numbers below `2^256`. -/
theorem normalized_iff_getCompact (nCompact : ℕ) :
    Normalized nCompact ↔ ∃ x < 2 ^ 256, getCompact x false = nCompact := by
  constructor
  · intro normalized
    exact ⟨_, setCompact_lt nCompact, getCompact_setCompact normalized⟩
  · rintro ⟨x, small, rfl⟩
    rcases Nat.eq_zero_or_pos x with zero | pos
    · subst zero
      rw [getCompact_zero]
      decide
    have bytes : byteSize x ≤ 32 := by
      have := Nat.size_le.mpr small
      unfold byteSize
      omega
    obtain ⟨fits, sized⟩ := compactPair_fits (lt_pow_byteSize x) bytes
    obtain ⟨lead, exact⟩ := compactPair_normalized (pow_byteSize_le pos) (lt_pow_byteSize x) (byteSize_pos pos)
    obtain ⟨value, -⟩ := compactPair_rounds (pow_byteSize_le pos) (lt_pow_byteSize x) (byteSize_pos pos)
    -- the mantissa moved up by the size is the value, which is at most the number
    have bounded : (compactPair x (byteSize x)).1 * 256 ^ ((compactPair x (byteSize x)).2 - 3) < 2 ^ 256 := by
      by_cases short : (compactPair x (byteSize x)).2 ≤ 3
      · rw [Nat.sub_eq_zero_of_le short, pow_zero, mul_one]
        omega
      · have moved := value
        rw [compactValue, if_neg short] at moved
        rw [moved]
        exact (Nat.div_mul_le_self _ _).trans_lt small
    rw [getCompact_eq small]
    refine ⟨by omega, word_sign _ fits, ?_⟩
    rw [word_mantissa _ fits, word_size _ fits, if_neg (by omega)]
    exact ⟨by omega, exact, bounded⟩

/-- The compact encoding: `SetCompact` of `GetCompact` of every number below `2^256` raises no
flag and clears the bytes below its top 23 bits; `GetCompact` of `SetCompact` gives back every
normalized word, and the normalized words are those `GetCompact` writes. -/
theorem compact_round_trip :
    (∀ x < 2 ^ 256, ∃ s, setCompact (getCompact x false) = (x / 256 ^ s * 256 ^ s, false, false) ∧
      x / 256 ^ s * 256 ^ s ≤ x ∧ KeepsTop23 x s) ∧
    (∀ nCompact, Normalized nCompact → getCompact (setCompact nCompact).1 false = nCompact) ∧
    (∀ nCompact, Normalized nCompact ↔ ∃ x < 2 ^ 256, getCompact x false = nCompact) := by
  refine ⟨fun x small => ?_, fun _ normalized => getCompact_setCompact normalized, normalized_iff_getCompact⟩
  obtain ⟨s, rounds, keeps⟩ := setCompact_getCompact small
  exact ⟨s, rounds, Nat.div_mul_le_self _ _, keeps⟩

theorem compact_round_trip_genesis :
    (∃ s, setCompact (getCompact (0xffff <<< 208) false) =
        ((0xffff <<< 208) / 256 ^ s * 256 ^ s, false, false) ∧
      (0xffff <<< 208) / 256 ^ s * 256 ^ s ≤ 0xffff <<< 208 ∧ KeepsTop23 (0xffff <<< 208) s) ∧
    getCompact (setCompact 0x1d00ffff).1 false = 0x1d00ffff :=
  ⟨compact_round_trip.1 _ (by decide), compact_round_trip.2.1 _ (by decide)⟩

end Pussycoin.ArithUint256
