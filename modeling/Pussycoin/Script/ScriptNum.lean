import Mathlib

/-! `CScriptNum` of `script/script.h`: the byte encoding of script numbers, little-endian
sign and magnitude with the sign in the top bit of the last byte. The value is an integer in
the `int64_t` range; a byte vector is a list of bytes, least significant first. -/
namespace Pussycoin.Script

/-- The loop `while (absvalue)` of `serialize`: the magnitude's bytes, least significant first. -/
def magnitudeBytes (absvalue : ℕ) : List UInt8 :=
  if absvalue = 0 then [] else UInt8.ofNat (absvalue &&& 0xff) :: magnitudeBytes (absvalue >>> 8)
termination_by absvalue
decreasing_by
  rw [Nat.shiftRight_eq_div_pow]
  omega

/-- `CScriptNum::serialize`. The `uint64_t` negation `~x + 1` of a negative `int64_t` is its
absolute value. A top byte with its high bit set gets one more byte for the sign; otherwise a
negative number sets the top bit of its top byte. -/
def serialize (value : ℤ) : List UInt8 :=
  if value = 0 then []
  else
    let neg := decide (value < 0)
    let result := magnitudeBytes value.natAbs
    let last := result.getLast?.getD 0
    if last &&& 0x80 ≠ 0 then result ++ [if neg then 0x80 else 0]
    else if neg then result.dropLast ++ [last ||| 0x80]
    else result

/-- `result |= static_cast<int64_t>(vch[i]) << 8*i`, from byte `i` on. The callers allow at most
8 bytes, so the shifts stay inside 64 bits. -/
def orBytes (i : ℕ) : List UInt8 → ℕ
  | [] => 0
  | b :: rest => (b.toNat <<< (8 * i)) ||| orBytes (i + 1) rest

/-- `CScriptNum::set_vch`. Where the last byte has its sign bit set, the mask clears that bit,
which is set, so it subtracts it. -/
def set_vch (vch : List UInt8) : ℤ :=
  match vch.getLast? with
  | none => 0
  | some last =>
    let result := orBytes 0 vch
    if last &&& 0x80 ≠ 0 then -((result - (0x80 <<< (8 * (vch.length - 1))) : ℕ) : ℤ) else result

/-- The minimality test of the constructor: the top byte without its sign bit may be zero only
where the byte below has its high bit set. -/
def isMinimal (vch : List UInt8) : Bool :=
  match vch.getLast? with
  | none => true
  | some last => !(last &&& 0x7f == 0 && (vch.length ≤ 1 || vch.getD (vch.length - 2) 0 &&& 0x80 == 0))

def nDefaultMaxNumSize : ℕ := 4

/-- `CScriptNum(vch, fRequireMinimal, nMaxNumSize)`, with the messages of its `scriptnum_error`s. -/
def ofVch (vch : List UInt8) (fRequireMinimal : Bool) (nMaxNumSize : ℕ) : Except String ℤ :=
  if vch.length > nMaxNumSize then .error "script number overflow"
  else if fRequireMinimal && !isMinimal vch then .error "non-minimally encoded script number"
  else .ok (set_vch vch)

section Bytes

/-- The sign bit of a byte is its high bit. -/
theorem sign_bit_ne_zero_iff (x : UInt8) : x &&& 0x80 ≠ 0 ↔ 128 ≤ x.toNat := by
  have byteFact : ∀ n < 256, (n &&& 128 ≠ 0 ↔ 128 ≤ n) := by decide +kernel
  rw [← byteFact x.toNat x.toNat_lt, ne_eq, ne_eq, ← UInt8.toNat_inj, UInt8.toNat_and]
  rfl

theorem low_bits_eq_zero_iff (x : UInt8) : x &&& 0x7f = 0 ↔ x.toNat % 128 = 0 := by
  have byteFact : ∀ n < 256, (n &&& 127 = n % 128) := by decide +kernel
  rw [← UInt8.toNat_inj, UInt8.toNat_and, show (0x7f : UInt8).toNat = 127 from rfl, byteFact x.toNat x.toNat_lt]
  rfl

theorem toNat_ofNat_byte {d : ℕ} (small : d < 256) : (UInt8.ofNat d).toNat = d := by
  rw [UInt8.toNat_ofNat']
  exact Nat.mod_eq_of_lt small

theorem ofNat_or_sign {t : ℕ} (small : t < 128) : UInt8.ofNat t ||| 0x80 = UInt8.ofNat (t + 128) := by
  have byteFact : ∀ n < 128, (n ||| 128 = n + 128) := by decide +kernel
  rw [← UInt8.toNat_inj, UInt8.toNat_or, toNat_ofNat_byte (by omega), toNat_ofNat_byte (by omega)]
  exact byteFact t small

theorem map_toNat_ofNat {ds : List ℕ} (small : ∀ d ∈ ds, d < 256) : (ds.map UInt8.ofNat).map UInt8.toNat = ds := by
  rw [List.map_map]
  conv_rhs => rw [← List.map_id ds]
  exact List.map_congr_left fun d mem => toNat_ofNat_byte (small d mem)

theorem map_ofNat_toNat (bytes : List UInt8) : (bytes.map UInt8.toNat).map UInt8.ofNat = bytes := by
  simp [List.map_map, Function.comp_def]

theorem toNat_lt_of_mem {bytes : List UInt8} : ∀ d ∈ bytes.map UInt8.toNat, d < 256 := by
  intro d mem
  obtain ⟨b, -, rfl⟩ := List.mem_map.mp mem
  exact b.toNat_lt

end Bytes

/-- The magnitude's bytes are its base-256 digits. -/
theorem magnitudeBytes_eq : ∀ n : ℕ, magnitudeBytes n = (Nat.digits 256 n).map UInt8.ofNat := by
  intro n
  induction n using Nat.strong_induction_on with
  | _ n ih =>
    rw [magnitudeBytes]
    split_ifs with zero
    · subst zero
      rfl
    · have shifted : n >>> 8 = n / 256 := by
        rw [Nat.shiftRight_eq_div_pow]
      have masked : n &&& 0xff = n % 256 := Nat.and_two_pow_sub_one_eq_mod n 8
      rw [Nat.digits_def' (by norm_num) (by omega), List.map_cons, shifted, masked, ih _ (by omega)]

/-- The `|=` loop reads the bytes little-endian. -/
theorem orBytes_eq : ∀ (i : ℕ) (bytes : List UInt8), orBytes i bytes = Nat.ofDigits 256 (bytes.map UInt8.toNat) * 256 ^ i := by
  intro i bytes
  induction bytes generalizing i with
  | nil => simp [orBytes]
  | cons b rest ih =>
    rw [orBytes, ih, List.map_cons, Nat.ofDigits_cons]
    -- the rest lies above the byte's eight bits, so the or is a sum
    have above : Nat.ofDigits 256 (rest.map UInt8.toNat) * 256 ^ (i + 1) =
        (Nat.ofDigits 256 (rest.map UInt8.toNat) <<< 8) <<< (8 * i) := by
      rw [Nat.shiftLeft_eq, Nat.shiftLeft_eq, pow_mul, pow_succ]
      norm_num
      ring
    rw [above, ← Nat.shiftLeft_or_distrib, Nat.or_comm, ← Nat.shiftLeft_add_eq_or_of_lt b.toNat_lt,
      Nat.shiftLeft_eq, Nat.shiftLeft_eq, pow_mul]
    norm_num
    ring

/-- A nonzero magnitude's digits end in a nonzero top digit. -/
theorem digits_split {n : ℕ} (nonzero : n ≠ 0) : ∃ ds top, Nat.digits 256 n = ds ++ [top] ∧ top ≠ 0 := by
  obtain empty | ⟨ds, top, split⟩ := List.eq_nil_or_concat' (Nat.digits 256 n)
  · exact absurd empty (Nat.digits_ne_nil_iff_ne_zero.mpr nonzero)
  · refine ⟨ds, top, split, ?_⟩
    have topDigit := Nat.getLast_digit_ne_zero 256 nonzero
    simpa [split] using topDigit

/-- The three outcomes of `serialize`, on the digits of the magnitude: a sign byte after a top
digit with its high bit set, the top digit with the sign bit set, or the digits alone. -/
theorem serialize_of_digits {value : ℤ} (nonzero : value ≠ 0) {ds : List ℕ} {top : ℕ}
    (digits : Nat.digits 256 value.natAbs = ds ++ [top]) :
    serialize value =
      if 128 ≤ top then ds.map UInt8.ofNat ++ [UInt8.ofNat top, if value < 0 then 0x80 else 0]
      else ds.map UInt8.ofNat ++ [if value < 0 then UInt8.ofNat (top + 128) else UInt8.ofNat top] := by
  have top_lt : top < 256 := Nat.digits_lt_base (by norm_num) (by rw [digits]; simp)
  have bytes : magnitudeBytes value.natAbs = ds.map UInt8.ofNat ++ [UInt8.ofNat top] := by
    rw [magnitudeBytes_eq, digits, List.map_append]
    rfl
  have signBit : UInt8.ofNat top &&& 0x80 ≠ 0 ↔ 128 ≤ top := by
    rw [sign_bit_ne_zero_iff, toNat_ofNat_byte top_lt]
  simp only [serialize, if_neg nonzero, bytes, List.getLast?_append, List.getLast?_singleton,
    Option.some_or, Option.getD_some]
  by_cases high : 128 ≤ top
  · rw [if_pos (signBit.mpr high), if_pos high]
    simp
  · rw [if_neg (mt signBit.mp high), if_neg high]
    by_cases neg : value < 0
    · simp [neg, ofNat_or_sign (by omega : top < 128)]
    · simp [neg]

/-- The source's own example: ±255 take a sign byte, 0xff00 and 0xff80 big-endian. -/
example : serialize 255 = [0xff, 0x00] ∧ serialize (-255) = [0xff, 0x80] := by decide +kernel

/-- `set_vch` reads the last byte without its sign bit as the top digit, and negates where the
sign bit is set. -/
theorem set_vch_append (init : List UInt8) (last : UInt8) :
    set_vch (init ++ [last]) =
      if 128 ≤ last.toNat then -((Nat.ofDigits 256 (init.map UInt8.toNat ++ [last.toNat % 128]) : ℕ) : ℤ)
      else ((Nat.ofDigits 256 (init.map UInt8.toNat ++ [last.toNat % 128]) : ℕ) : ℤ) := by
  have read : orBytes 0 (init ++ [last]) =
      Nat.ofDigits 256 (init.map UInt8.toNat) + 256 ^ init.length * last.toNat := by
    rw [orBytes_eq, List.map_append, Nat.ofDigits_append]
    simp
  have mask : 0x80 <<< (8 * ((init ++ [last]).length - 1)) = 128 * 256 ^ init.length := by
    simp [Nat.shiftLeft_eq, pow_mul]
  rw [Nat.ofDigits_append, List.length_map, Nat.ofDigits_singleton]
  simp only [set_vch, List.getLast?_append, List.getLast?_singleton, Option.some_or, read, mask,
    sign_bit_ne_zero_iff]
  have small := last.toNat_lt
  generalize last.toNat = L at *
  by_cases high : 128 ≤ L
  · -- the mask takes the sign bit off the top digit
    obtain ⟨t, rfl⟩ := Nat.exists_eq_add_of_le' high
    have low : (t + 128) % 128 = t := by omega
    have cleared : Nat.ofDigits 256 (init.map UInt8.toNat) + 256 ^ init.length * (t + 128) - 128 * 256 ^ init.length =
        Nat.ofDigits 256 (init.map UInt8.toNat) + 256 ^ init.length * t := by
      apply Nat.sub_eq_of_eq_add
      ring
    rw [if_pos high, if_pos high, low, cleared]
  · rw [if_neg high, if_neg high, Nat.mod_eq_of_lt (by omega)]

/-- The minimality test on a vector with its last byte split off. -/
theorem isMinimal_append_iff (init : List UInt8) (last : UInt8) :
    isMinimal (init ++ [last]) = true ↔
      last.toNat % 128 ≠ 0 ∨ ∃ below, init.getLast? = some below ∧ 128 ≤ below.toNat := by
  simp only [isMinimal, List.getLast?_append, List.getLast?_singleton, Option.some_or]
  obtain rfl | ⟨init', below, rfl⟩ := List.eq_nil_or_concat' init
  · simp [← low_bits_eq_zero_iff]
  · simp [← low_bits_eq_zero_iff, ← sign_bit_ne_zero_iff]

section Digits

variable {ds : List ℕ} {top : ℕ}

theorem digit_lt_of_split {n : ℕ} (digits : Nat.digits 256 n = ds ++ [top]) : ∀ d ∈ ds ++ [top], d < 256 := by
  intro d mem
  rw [← digits] at mem
  exact Nat.digits_lt_base (by norm_num) mem

/-- `serialize` then `set_vch` gives the value back: the top digit is read back from the last or
the second-to-last byte, and the sign from the last. -/
theorem set_vch_serialize (value : ℤ) : set_vch (serialize value) = value := by
  by_cases zero : value = 0
  · subst zero
    rfl
  obtain ⟨ds, top, digits, -⟩ := digits_split (Int.natAbs_ne_zero.mpr zero)
  have small := digit_lt_of_split digits
  have magnitude : Nat.ofDigits 256 (ds ++ [top]) = value.natAbs := by
    rw [← digits, Nat.ofDigits_digits]
  have top_lt : top < 256 := small top (by simp)
  have bytes : (ds.map UInt8.ofNat).map UInt8.toNat = ds := map_toNat_ofNat fun d mem => small d (by simp [mem])
  rw [serialize_of_digits zero digits]
  by_cases high : 128 ≤ top
  · -- the sign byte is the last one, and the top digit is a whole byte before it
    have shape : ds.map UInt8.ofNat ++ [UInt8.ofNat top, if value < 0 then 0x80 else 0] =
        (ds.map UInt8.ofNat ++ [UInt8.ofNat top]) ++ [if value < 0 then 0x80 else 0] := by
      simp
    have init : (ds.map UInt8.ofNat ++ [UInt8.ofNat top]).map UInt8.toNat = ds ++ [top] := by
      rw [List.map_append, bytes, List.map_singleton, toNat_ofNat_byte top_lt]
    have sign : (if value < 0 then (0x80 : UInt8) else 0).toNat = if value < 0 then 128 else 0 := by
      split <;> rfl
    rw [if_pos high, shape, set_vch_append, init, sign]
    by_cases neg : value < 0
    · rw [if_pos neg, if_pos le_rfl, Nat.mod_self, Nat.ofDigits_append_zero, magnitude]
      omega
    · rw [if_neg neg, if_neg (by norm_num), Nat.zero_mod, Nat.ofDigits_append_zero, magnitude]
      omega
  · -- the top digit shares the last byte with the sign bit
    have sign : (if value < 0 then UInt8.ofNat (top + 128) else UInt8.ofNat top).toNat =
        if value < 0 then top + 128 else top := by
      split <;> exact toNat_ofNat_byte (by omega)
    rw [if_neg high, set_vch_append, bytes, sign]
    by_cases neg : value < 0
    · rw [if_pos neg, if_pos (by omega), Nat.add_mod_right, Nat.mod_eq_of_lt (by omega), magnitude]
      omega
    · rw [if_neg neg, if_neg high, Nat.mod_eq_of_lt (by omega), magnitude]
      omega

/-- What `serialize` writes passes the minimality test: its last byte keeps a nonzero top digit,
or it is a sign byte over a top digit with the high bit set. -/
theorem isMinimal_serialize (value : ℤ) : isMinimal (serialize value) = true := by
  by_cases zero : value = 0
  · subst zero
    rfl
  obtain ⟨ds, top, digits, top_ne⟩ := digits_split (Int.natAbs_ne_zero.mpr zero)
  have top_lt : top < 256 := digit_lt_of_split digits top (by simp)
  rw [serialize_of_digits zero digits]
  by_cases high : 128 ≤ top
  · have shape : ds.map UInt8.ofNat ++ [UInt8.ofNat top, if value < 0 then 0x80 else 0] =
        (ds.map UInt8.ofNat ++ [UInt8.ofNat top]) ++ [if value < 0 then 0x80 else 0] := by
      simp
    rw [if_pos high, shape, isMinimal_append_iff]
    exact Or.inr ⟨UInt8.ofNat top, by simp, by rw [toNat_ofNat_byte top_lt]; exact high⟩
  · have sign : (if value < 0 then UInt8.ofNat (top + 128) else UInt8.ofNat top).toNat % 128 = top := by
      split <;> rw [toNat_ofNat_byte (by omega)] <;> omega
    rw [if_neg high, isMinimal_append_iff, sign]
    exact Or.inl top_ne

/-- A value of the `int64_t` range other than its minimum takes at most eight bytes. -/
theorem length_serialize {value : ℤ} (bounded : |value| ≤ 2 ^ 63 - 1) : (serialize value).length ≤ 8 := by
  by_cases zero : value = 0
  · subst zero
    simp [serialize]
  obtain ⟨ds, top, digits, -⟩ := digits_split (Int.natAbs_ne_zero.mpr zero)
  have fits : value.natAbs < 9223372036854775808 := by
    rw [Int.abs_eq_natAbs] at bounded
    omega
  have digitCount : ds.length + 1 ≤ 8 := by
    have counted := (Nat.digits_length_le_iff (by norm_num : 1 < 256) value.natAbs).mpr
      (show value.natAbs < 256 ^ 8 by norm_num; omega)
    simpa [digits] using counted
  rw [serialize_of_digits zero digits]
  by_cases high : 128 ≤ top
  · -- a top digit with its high bit set is at most the seventh, below the sign byte
    have topPlace : 256 ^ ds.length * 128 ≤ value.natAbs := by
      rw [← Nat.ofDigits_digits 256 value.natAbs, digits, Nat.ofDigits_append, Nat.ofDigits_singleton]
      calc 256 ^ ds.length * 128 ≤ 256 ^ ds.length * top := Nat.mul_le_mul_left _ high
        _ ≤ _ := Nat.le_add_left _ _
    have below : 256 ^ ds.length < 256 ^ 7 := by
      norm_num
      omega
    have lower := (Nat.pow_lt_pow_iff_right (by norm_num : 1 < 256)).mp below
    rw [if_pos high]
    simp
    omega
  · rw [if_neg high]
    simp
    omega

/-- `serialize` of a magnitude given by its digits, with a sign. -/
theorem serialize_signed (neg : Prop) [Decidable neg] {m : ℕ} (digits : Nat.digits 256 m = ds ++ [top]) :
    serialize (if neg then -(m : ℤ) else m) =
      if 128 ≤ top then ds.map UInt8.ofNat ++ [UInt8.ofNat top, if neg then 0x80 else 0]
      else ds.map UInt8.ofNat ++ [if neg then UInt8.ofNat (top + 128) else UInt8.ofNat top] := by
  have positive : m ≠ 0 := by
    rintro rfl
    simp at digits
  have magnitude : (if neg then -(m : ℤ) else m).natAbs = m := by
    split <;> simp
  have sign : (if neg then -(m : ℤ) else m) < 0 ↔ neg := by
    split
    · simp [*]
      omega
    · simp [*]
  rw [serialize_of_digits (by split <;> simp [positive]) (magnitude ▸ digits)]
  simp only [sign]

/-- A byte string that passes the minimality test is what `serialize` writes for its value. -/
theorem serialize_set_vch (b : List UInt8) (minimal : isMinimal b = true) : serialize (set_vch b) = b := by
  obtain rfl | ⟨init, last, rfl⟩ := List.eq_nil_or_concat' b
  · rfl
  have small : ∀ d ∈ init.map UInt8.toNat, d < 256 := toNat_lt_of_mem
  have last_lt := last.toNat_lt
  rw [set_vch_append]
  by_cases topZero : last.toNat % 128 = 0
  · -- a sign byte alone: the byte below carries the top digit, with its high bit set
    obtain ⟨below, lastBelow, belowHigh⟩ :=
      ((isMinimal_append_iff init last).mp minimal).resolve_left (not_not_intro topZero)
    obtain ⟨init', rfl⟩ := List.getLast?_eq_some_iff.mp lastBelow
    have digits : Nat.digits 256 (Nat.ofDigits 256 ((init' ++ [below]).map UInt8.toNat ++ [last.toNat % 128])) =
        init'.map UInt8.toNat ++ [below.toNat] := by
      rw [topZero, Nat.ofDigits_append_zero, List.map_append, List.map_singleton]
      exact Nat.digits_ofDigits 256 (by norm_num) _ (by simpa using small) (by simp; omega)
    rw [serialize_signed _ digits, if_pos belowHigh, map_ofNat_toNat, UInt8.ofNat_toNat]
    have signByte : (if 128 ≤ last.toNat then (0x80 : UInt8) else 0) = last := by
      rw [← UInt8.toNat_inj]
      split <;> simp <;> omega
    simp [signByte]
  · -- the last byte holds the top digit under the sign bit
    have digits : Nat.digits 256 (Nat.ofDigits 256 (init.map UInt8.toNat ++ [last.toNat % 128])) =
        init.map UInt8.toNat ++ [last.toNat % 128] :=
      Nat.digits_ofDigits 256 (by norm_num) _ (by
        intro d mem
        rw [List.mem_append, List.mem_singleton] at mem
        rcases mem with inside | rfl
        · exact small d inside
        · omega) (by simp [topZero])
    rw [serialize_signed _ digits, if_neg (by omega), map_ofNat_toNat]
    have lastByte : (if 128 ≤ last.toNat then UInt8.ofNat (last.toNat % 128 + 128)
        else UInt8.ofNat (last.toNat % 128)) = last := by
      rw [← UInt8.toNat_inj]
      split <;> rw [toNat_ofNat_byte (by omega)] <;> omega
    rw [lastByte]

/-- Negative zero, a sign byte over zero bytes, fails the minimality test at every length. -/
theorem isMinimal_negative_zero (k : ℕ) : isMinimal (List.replicate k 0 ++ [0x80]) = false := by
  rw [Bool.eq_false_iff, ne_eq, isMinimal_append_iff]
  rintro (low | ⟨below, lastBelow, high⟩)
  · exact low rfl
  · have zero : below = 0 := List.eq_of_mem_replicate (List.mem_of_getLast? lastBelow)
    subst zero
    exact absurd high (by decide)

end Digits

/-- Script numbers have one minimal encoding each: every value of the `int64_t` range but its
minimum serializes to at most eight bytes that the constructor accepts and decodes to the value,
every accepted string of at most eight bytes is the serialization of its value, zero is the empty
vector, and negative zero is rejected. -/
theorem script_num_unique_minimal_encoding :
    (∀ v : ℤ, |v| ≤ 2 ^ 63 - 1 → (serialize v).length ≤ 8 ∧ ofVch (serialize v) true 8 = .ok v) ∧
    (∀ b : List UInt8, b.length ≤ 8 → isMinimal b = true → serialize (set_vch b) = b) ∧
    serialize 0 = [] ∧
    ∀ k < 8, ofVch (List.replicate k 0 ++ [0x80]) true 8 = .error "non-minimally encoded script number" := by
  refine ⟨fun v bounded => ⟨length_serialize bounded, ?_⟩, fun b _ minimal => serialize_set_vch b minimal, rfl,
    fun k short => ?_⟩
  · have fits := length_serialize bounded
    rw [ofVch, if_neg (by omega), isMinimal_serialize, set_vch_serialize]
    rfl
  · rw [ofVch, if_neg (by simp; omega), isMinimal_negative_zero]
    rfl

end Pussycoin.Script
