import Pussycoin.Positional
import Mathlib.Data.Nat.Bitwise

/-! Bech32 and Bech32m of `bech32.cpp`. A string is its list of characters; the values are the
5-bit groups of `data`. `PolyMod` is the remainder of a polynomial over GF(32) modulo the
Bech32 generator, as the source explains: a linear map of the values in each step, which is
why the checksum `CreateChecksum` appends makes `VerifyChecksum` accept. An `assert` that
fails in `Encode` is `none`; `Decode` gives the empty result where the code returns `{}`. -/
namespace Pussycoin.Address.Bech32

/-- The Bech32 and Bech32m character set for encoding. -/
def CHARSET : List Char := "qpzry9x8gf2tvdw0s3jn54khce6mua7l".toList

/-- The Bech32 and Bech32m character set for decoding. -/
def CHARSET_REV : List ℤ := [
  -1, -1, -1, -1, -1, -1, -1, -1, -1, -1, -1, -1, -1, -1, -1, -1,
  -1, -1, -1, -1, -1, -1, -1, -1, -1, -1, -1, -1, -1, -1, -1, -1,
  -1, -1, -1, -1, -1, -1, -1, -1, -1, -1, -1, -1, -1, -1, -1, -1,
  15, -1, 10, 17, 21, 20, 26, 30, 7, 5, -1, -1, -1, -1, -1, -1,
  -1, 29, -1, 24, 13, 25, 9, 8, 23, -1, 18, 22, 31, 27, 19, -1,
  1, 0, 3, 16, 11, 28, 12, 14, 6, 4, 2, -1, -1, -1, -1, -1,
  -1, 29, -1, 24, 13, 25, 9, 8, 23, -1, 18, 22, 31, 27, 19, -1,
  1, 0, 3, 16, 11, 28, 12, 14, 6, 4, 2, -1, -1, -1, -1, -1]

inductive Encoding
  | INVALID
  | BECH32
  | BECH32M
  deriving DecidableEq, Repr

/-- `EncodingConstant`, whose `assert` rules out `INVALID`. -/
def encodingConstant (encoding : Encoding) : ℕ :=
  if encoding = .BECH32 then 1 else 0x2bc830a3

/-- One value of `PolyMod`: `c` becomes the remainder of `c(x) * x + v` modulo the generator. -/
def polyModStep (c v : ℕ) : ℕ :=
  let c0 := c >>> 25
  let c := ((c &&& 0x1ffffff) <<< 5) ^^^ v
  let c := if c0 &&& 1 ≠ 0 then c ^^^ 0x3b6a57b2 else c
  let c := if c0 &&& 2 ≠ 0 then c ^^^ 0x26508e6d else c
  let c := if c0 &&& 4 ≠ 0 then c ^^^ 0x1ea119fa else c
  let c := if c0 &&& 8 ≠ 0 then c ^^^ 0x3d4233dd else c
  if c0 &&& 16 ≠ 0 then c ^^^ 0x2a1462b3 else c

def polyMod (v : List ℕ) : ℕ := v.foldl polyModStep 1

def lowerCase (c : Char) : Char :=
  if 'A' ≤ c ∧ c ≤ 'Z' then Char.ofNat (c.toNat - 'A'.toNat + 'a'.toNat) else c

def expandHRP (hrp : List Char) : List ℕ :=
  hrp.map (fun c => (c.toNat % 256) >>> 5) ++ 0 :: hrp.map fun c => (c.toNat % 256) &&& 0x1f

def verifyChecksum (hrp : List Char) (values : List ℕ) : Encoding :=
  let check := polyMod (expandHRP hrp ++ values)
  if check = encodingConstant .BECH32 then .BECH32
  else if check = encodingConstant .BECH32M then .BECH32M
  else .INVALID

def createChecksum (encoding : Encoding) (hrp : List Char) (values : List ℕ) : List ℕ :=
  let mod := polyMod (expandHRP hrp ++ values ++ List.replicate 6 0) ^^^ encodingConstant encoding
  (List.range 6).map fun i => mod >>> (5 * (5 - i)) &&& 31

def isUpper (c : Char) : Bool := 'A' ≤ c && c ≤ 'Z'

def isLower (c : Char) : Bool := 'a' ≤ c && c ≤ 'z'

def encode (encoding : Encoding) (hrp : List Char) (values : List ℕ) : Option (List Char) :=
  -- the HRP must be lowercase, and the encoding one of the two
  if hrp.any isUpper ∨ encoding = .INVALID then none
  else
    let combined := values ++ createChecksum encoding hrp values
    some (hrp ++ '1' :: combined.map fun c => CHARSET.getD c ' ')

structure DecodeResult where
  encoding : Encoding
  hrp : List Char
  data : List ℕ
  deriving DecidableEq, Repr

/-- `{}`: no encoding, no HRP and no data. -/
def DecodeResult.empty : DecodeResult := ⟨.INVALID, [], []⟩

/-- `str.rfind(c)`: the position of the last `c`. -/
def rfind (c : Char) : List Char → Option ℕ
  | [] => none
  | x :: str =>
    match rfind c str with
    | some pos => some (pos + 1)
    | none => if x = c then some 0 else none

def decode (str : List Char) (extLength : Bool) : DecodeResult :=
  if str.any fun c => !isLower c && !isUpper c && (c.toNat < 33 || c.toNat > 126) then .empty
  else if str.any isLower && str.any isUpper then .empty
  else
    match rfind '1' str with
    | none => .empty
    | some pos =>
      if (str.length > 90 && !extLength) || pos == 0 || pos + 7 > str.length then .empty
      else
        let values := (str.drop (pos + 1)).map fun c => CHARSET_REV.getD c.toNat (-1)
        if values.contains (-1) then .empty
        else
          let values := values.map Int.toNat
          let hrp := (str.take pos).map lowerCase
          let result := verifyChecksum hrp values
          if result = .INVALID then .empty else ⟨result, hrp, values.take (values.length - 6)⟩

/-! ### The checksum -/

section PolyMod

/-- The multiple of the generator that a set bit of the coefficient shifted out adds. -/
def bitTerm (j g k : ℕ) : ℕ := if k &&& 2 ^ j ≠ 0 then g else 0

theorem bitTerm_xor (j g k l : ℕ) : bitTerm j g (k ^^^ l) = bitTerm j g k ^^^ bitTerm j g l := by
  simp only [bitTerm, Nat.and_two_pow, Nat.testBit_xor]
  cases k.testBit j <;> cases l.testBit j <;> simp

/-- `c0 * k(x)`: what the coefficient `c0` shifted out of the remainder adds back. -/
def feedback (c0 : ℕ) : ℕ :=
  bitTerm 0 0x3b6a57b2 c0 ^^^ bitTerm 1 0x26508e6d c0 ^^^ bitTerm 2 0x1ea119fa c0 ^^^
    bitTerm 3 0x3d4233dd c0 ^^^ bitTerm 4 0x2a1462b3 c0

theorem feedback_xor (k l : ℕ) : feedback (k ^^^ l) = feedback k ^^^ feedback l := by
  simp only [feedback, bitTerm_xor]
  ac_rfl

theorem xor_ite (p : Prop) [Decidable p] (x g : ℕ) : (if p then x ^^^ g else x) = x ^^^ if p then g else 0 := by
  split <;> simp

theorem polyModStep_eq (c v : ℕ) : polyModStep c v = ((c &&& 0x1ffffff) <<< 5) ^^^ v ^^^ feedback (c >>> 25) := by
  simp only [polyModStep, feedback, bitTerm, xor_ite]
  norm_num
  ac_rfl

/-- Each step is linear in the remainder and the value, over XOR. -/
theorem polyModStep_xor (a b x y : ℕ) : polyModStep (a ^^^ b) (x ^^^ y) = polyModStep a x ^^^ polyModStep b y := by
  simp only [polyModStep_eq, Nat.and_xor_distrib_right, Nat.shiftLeft_xor_distrib, Nat.shiftRight_xor_distrib,
    feedback_xor]
  ac_rfl

/-- Run from the XOR of two remainders, the loop gives the XOR of a run over zeroes from one
and of the run from the other. -/
theorem foldl_polyModStep_xor : ∀ (vs : List ℕ) (a b : ℕ),
    vs.foldl polyModStep (a ^^^ b) = (List.replicate vs.length 0).foldl polyModStep a ^^^ vs.foldl polyModStep b
  | [], _, _ => rfl
  | v :: vs, a, b => by
    have step : polyModStep (a ^^^ b) v = polyModStep a 0 ^^^ polyModStep b v := by
      rw [← polyModStep_xor, Nat.zero_xor]
    rw [List.foldl_cons, step, foldl_polyModStep_xor vs, List.length_cons, List.replicate_succ, List.foldl_cons,
      List.foldl_cons]

theorem bitTerm_lt {j g : ℕ} (small : g < 2 ^ 30) (k : ℕ) : bitTerm j g k < 2 ^ 30 := by
  unfold bitTerm
  split
  · exact small
  · positivity

theorem feedback_lt (c0 : ℕ) : feedback c0 < 2 ^ 30 := by
  unfold feedback
  repeat' apply Nat.xor_lt_two_pow
  all_goals exact bitTerm_lt (by norm_num) c0

/-- A step keeps the remainder to 30 bits. -/
theorem polyModStep_lt (c : ℕ) {v : ℕ} (small : v < 2 ^ 30) : polyModStep c v < 2 ^ 30 := by
  have kept : c &&& 0x1ffffff < 2 ^ 25 := by
    rw [show (0x1ffffff : ℕ) = 2 ^ 25 - 1 by norm_num, Nat.and_two_pow_sub_one_eq_mod]
    exact Nat.mod_lt _ (by positivity)
  have shifted : (c &&& 0x1ffffff) <<< 5 < 2 ^ 30 := by
    rw [Nat.shiftLeft_eq]
    omega
  rw [polyModStep_eq]
  exact Nat.xor_lt_two_pow (Nat.xor_lt_two_pow shifted small) (feedback_lt _)

/-- While the remainder has no coefficient to shift out, a step appends the value as a
base-32 digit. -/
theorem polyModStep_of_lt {c v : ℕ} (small : c < 2 ^ 25) (digit : v < 32) : polyModStep c v = c * 32 + v := by
  have noFeedback : c >>> 25 = 0 := by
    rw [Nat.shiftRight_eq_div_pow]
    exact Nat.div_eq_of_lt small
  have kept : c &&& 0x1ffffff = c := by
    rw [show (0x1ffffff : ℕ) = 2 ^ 25 - 1 by norm_num]
    exact Nat.and_two_pow_sub_one_of_lt_two_pow small
  have none : feedback 0 = 0 := by decide
  rw [polyModStep_eq, noFeedback, kept, Positional.shiftLeft_xor_of_lt (lt_of_lt_of_eq digit (by norm_num)), none,
    Nat.xor_zero]
  norm_num

/-- Values that never shift a coefficient out are read as base-32 digits. -/
theorem foldl_polyModStep_value : ∀ (vs : List ℕ) (c : ℕ), (∀ v ∈ vs, v < 32) → Positional.value 32 c vs < 2 ^ 30 →
    vs.foldl polyModStep c = Positional.value 32 c vs
  | [], _, _, _ => rfl
  | v :: vs, c, digits, small => by
    have digit := digits v List.mem_cons_self
    have next : c * 32 + v < 2 ^ 30 := (Positional.le_value (by norm_num) _ vs).trans_lt small
    rw [List.foldl_cons, polyModStep_of_lt (by omega) digit]
    exact foldl_polyModStep_value vs _ (fun v mem => digits v (List.mem_cons_of_mem _ mem)) small

/-- The six 5-bit groups of a 30-bit number, most significant first, as `CreateChecksum`
writes them. -/
def groups (m : ℕ) : List ℕ := (List.range 6).map fun i => m >>> (5 * (5 - i)) &&& 31

theorem groups_lt (m : ℕ) : ∀ v ∈ groups m, v < 32 := by
  intro v mem
  obtain ⟨i, -, rfl⟩ := List.mem_map.mp mem
  rw [show (31 : ℕ) = 2 ^ 5 - 1 by norm_num, Nat.and_two_pow_sub_one_eq_mod]
  exact Nat.mod_lt _ (by norm_num)

theorem value_groups {m : ℕ} (small : m < 2 ^ 30) : Positional.value 32 0 (groups m) = m := by
  simp only [groups, List.range_succ, List.range_zero, List.nil_append, List.map_append, List.map_cons,
    List.map_nil, Nat.shiftRight_eq_div_pow, show (31 : ℕ) = 2 ^ 5 - 1 by norm_num, Nat.and_two_pow_sub_one_eq_mod,
    Positional.value, List.foldl_append, List.foldl_cons, List.foldl_nil]
  norm_num
  omega

/-- The checksum `CreateChecksum` appends makes `PolyMod` the encoding's constant. -/
theorem polyMod_checksum (encoding : Encoding) (hrp : List Char) (values : List ℕ) :
    polyMod (expandHRP hrp ++ values ++ createChecksum encoding hrp values) = encodingConstant encoding := by
  set s := (expandHRP hrp ++ values).foldl polyModStep 1
  have padded : polyMod (expandHRP hrp ++ values ++ List.replicate 6 0) = (List.replicate 6 0).foldl polyModStep s :=
    List.foldl_append
  have paddedSmall : polyMod (expandHRP hrp ++ values ++ List.replicate 6 0) < 2 ^ 30 := by
    rw [padded, show List.replicate 6 0 = List.replicate 5 0 ++ [0] from rfl, List.foldl_append, List.foldl_cons,
      List.foldl_nil]
    exact polyModStep_lt _ (by norm_num)
  have constantSmall : encodingConstant encoding < 2 ^ 30 := by
    unfold encodingConstant
    split <;> norm_num
  have checksum : createChecksum encoding hrp values =
      groups (polyMod (expandHRP hrp ++ values ++ List.replicate 6 0) ^^^ encodingConstant encoding) := rfl
  have small := Nat.xor_lt_two_pow paddedSmall constantSmall
  have read := value_groups small
  -- the run over the checksum is the run over zeroes, XOR the checksum read as digits
  have split := foldl_polyModStep_xor (groups (polyMod (expandHRP hrp ++ values ++ List.replicate 6 0) ^^^
    encodingConstant encoding)) s 0
  rw [Nat.xor_zero, foldl_polyModStep_value _ 0 (groups_lt _) (by rw [read]; exact small), read] at split
  rw [polyMod, List.foldl_append, checksum, split]
  simp only [groups, List.length_map, List.length_range]
  rw [← padded, ← Nat.xor_assoc, Nat.xor_self, Nat.zero_xor]

theorem verifyChecksum_checksum {encoding : Encoding} (valid : encoding ≠ .INVALID) (hrp : List Char)
    (values : List ℕ) : verifyChecksum hrp (values ++ createChecksum encoding hrp values) = encoding := by
  rw [verifyChecksum, ← List.append_assoc, polyMod_checksum]
  cases encoding with
  | INVALID => exact absurd rfl valid
  | BECH32 => rfl
  | BECH32M => rfl

theorem length_createChecksum (encoding : Encoding) (hrp : List Char) (values : List ℕ) :
    (createChecksum encoding hrp values).length = 6 := by
  simp [createChecksum]

end PolyMod

/-! ### Round trip -/

/-- Each character of the set decodes to its value, and none is a capital, a '1', or outside
the printable range. -/
theorem charset_char : ∀ v < 32, CHARSET_REV.getD (CHARSET.getD v ' ').toNat (-1) = v ∧
    isUpper (CHARSET.getD v ' ') = false ∧ CHARSET.getD v ' ' ≠ '1' ∧
    33 ≤ (CHARSET.getD v ' ').toNat ∧ (CHARSET.getD v ' ').toNat ≤ 126 := by
  decide

theorem lowerCase_of_not_upper {c : Char} (lower : isUpper c = false) : lowerCase c = c := by
  simp only [isUpper, Bool.and_eq_false_iff, decide_eq_false_iff_not] at lower
  rw [lowerCase, if_neg]
  rintro ⟨above, below⟩
  rcases lower with lower | lower <;> contradiction

theorem rfind_of_not_mem (c : Char) : ∀ {str : List Char}, c ∉ str → rfind c str = none
  | [], _ => rfl
  | x :: str, absent => by
    rw [List.mem_cons, not_or] at absent
    rw [rfind, rfind_of_not_mem c absent.2, if_neg (Ne.symm absent.1)]

theorem rfind_append (c : Char) {str : List Char} {pos : ℕ} (found : rfind c str = some pos) :
    ∀ front : List Char, rfind c (front ++ str) = some (front.length + pos)
  | [] => by rw [List.nil_append, found, List.length_nil, zero_add]
  | x :: front => by
    rw [List.cons_append, rfind, rfind_append c found front, List.length_cons, Nat.add_right_comm]

theorem combined_lt {values : List ℕ} (fiveBits : ∀ v ∈ values, v < 32) (encoding : Encoding) (hrp : List Char) :
    ∀ v ∈ values ++ createChecksum encoding hrp values, v < 32 := by
  intro v mem
  rcases List.mem_append.mp mem with mem | mem
  · exact fiveBits v mem
  · exact groups_lt _ v mem

/-- `Encode` writes the HRP, the separator, and a character for each value and each checksum
value. -/
theorem encode_eq {encoding : Encoding} (valid : encoding ≠ .INVALID) {hrp : List Char}
    (lower : ∀ c ∈ hrp, isUpper c = false) (values : List ℕ) :
    encode encoding hrp values =
      some (hrp ++ '1' :: (values ++ createChecksum encoding hrp values).map fun v => CHARSET.getD v ' ') := by
  rw [encode, if_neg]
  rintro (upper | invalid)
  · obtain ⟨c, mem, isCapital⟩ := List.any_eq_true.mp upper
    rw [lower c mem] at isCapital
    cases isCapital
  · exact valid invalid

/-- What `Encode` writes is printable and has no capital, where its HRP is so. -/
theorem encoded_printable {hrp : List Char} (printable : ∀ c ∈ hrp, 33 ≤ c.toNat ∧ c.toNat ≤ 126 ∧ isUpper c = false)
    {combined : List ℕ} (digits : ∀ v ∈ combined, v < 32) :
    ∀ c ∈ hrp ++ '1' :: combined.map fun v => CHARSET.getD v ' ', 33 ≤ c.toNat ∧ c.toNat ≤ 126 ∧ isUpper c = false := by
  intro c mem
  rcases List.mem_append.mp mem with inHrp | inRest
  · exact printable c inHrp
  · rcases List.mem_cons.mp inRest with rfl | inCs
    · decide
    · obtain ⟨v, inCombined, rfl⟩ := List.mem_map.mp inCs
      obtain ⟨-, upper, -, low, high⟩ := charset_char v (digits v inCombined)
      exact ⟨low, high, upper⟩

/-- `Decode` of a string in one case: a part before the separator that lowercases to the HRP, and
after it characters that decode to the values and their checksum. -/
theorem decode_of_parts {encoding : Encoding} (valid : encoding ≠ .INVALID) {hrp : List Char} {values : List ℕ}
    {extLength : Bool} {front cs : List Char} (named : front ≠ [])
    (printable : ∀ c ∈ front ++ '1' :: cs, 33 ≤ c.toNat ∧ c.toNat ≤ 126)
    (oneCase : (front ++ '1' :: cs).any isLower = false ∨ (front ++ '1' :: cs).any isUpper = false)
    (lowered : front.map lowerCase = hrp) (noOne : '1' ∉ cs)
    (read : cs.map (fun c => CHARSET_REV.getD c.toNat (-1)) = (values ++ createChecksum encoding hrp values).map Int.ofNat)
    (short : extLength = true ∨ front.length + values.length + 7 ≤ 90) :
    decode (front ++ '1' :: cs) extLength = ⟨encoding, hrp, values⟩ := by
  set combined := values ++ createChecksum encoding hrp values
  have combinedLength : combined.length = values.length + 6 := by
    rw [List.length_append, length_createChecksum]
  have csLength : cs.length = values.length + 6 := by
    have same := congrArg List.length read
    rw [List.length_map, List.length_map] at same
    omega
  -- the checks `Decode` makes on the characters pass
  have noBad : ¬(front ++ '1' :: cs).any (fun c => !isLower c && !isUpper c && (c.toNat < 33 || c.toNat > 126)) := by
    rw [Bool.not_eq_true, List.any_eq_false]
    intro c mem
    obtain ⟨low, high⟩ := printable c mem
    simp only [Bool.and_eq_true, Bool.or_eq_true, decide_eq_true_eq, not_and, not_or]
    omega
  have noMix : ¬((front ++ '1' :: cs).any isLower && (front ++ '1' :: cs).any isUpper) := by
    rcases oneCase with none | none <;> simp [none]
  -- the separator is the last '1'
  have found : rfind '1' (front ++ '1' :: cs) = some (front.length + 0) := by
    refine rfind_append '1' ?_ front
    rw [rfind, rfind_of_not_mem '1' noOne, if_pos rfl]
  have strLength : (front ++ '1' :: cs).length = front.length + values.length + 7 := by
    rw [List.length_append, List.length_cons, csLength]
    omega
  have fits : ¬((decide ((front ++ '1' :: cs).length > 90) && !extLength) || front.length + 0 == 0 ||
      decide (front.length + 0 + 7 > (front ++ '1' :: cs).length)) := by
    have positive : 0 < front.length := List.length_pos_iff.mpr named
    simp only [strLength, Nat.add_zero, Bool.or_eq_true, Bool.and_eq_true, decide_eq_true_eq, beq_iff_eq,
      Bool.not_eq_true', not_or, not_and]
    refine ⟨⟨fun long => ?_, by omega⟩, by omega⟩
    rcases short with ext | short
    · rw [ext]
      decide
    · omega
  -- and the parts it reads are the HRP and the values with their checksum
  have dropped : (front ++ '1' :: cs).drop (front.length + 0 + 1) = cs := by
    rw [Nat.add_zero, List.drop_length_add_append, List.drop_one, List.tail_cons]
  have noMinus : ¬(combined.map Int.ofNat).contains (-1) := by
    simp
  have taken : ((front ++ '1' :: cs).take (front.length + 0)).map lowerCase = hrp := by
    rw [Nat.add_zero, List.take_left, lowered]
  have unread : (combined.map Int.ofNat).map Int.toNat = combined := by
    simp [Function.comp_def]
  rw [decode, if_neg noBad, if_neg noMix, found]
  dsimp only
  rw [if_neg fits, dropped, read, if_neg noMinus, unread, taken, verifyChecksum_checksum valid,
    if_neg valid, combinedLength, Nat.add_sub_cancel, List.take_left]

/-- `Decode` reads back what `Encode` writes: the encoding, the HRP and the values, for a
lowercase printable HRP, 5-bit values, and a string within 90 characters unless the extended
length is allowed. -/
theorem decode_encode {encoding : Encoding} (valid : encoding ≠ .INVALID) {hrp : List Char} (named : hrp ≠ [])
    (printable : ∀ c ∈ hrp, 33 ≤ c.toNat ∧ c.toNat ≤ 126 ∧ isUpper c = false) {values : List ℕ}
    (fiveBits : ∀ v ∈ values, v < 32) {extLength : Bool}
    (short : extLength = true ∨ hrp.length + values.length + 7 ≤ 90) :
    ∃ str, encode encoding hrp values = some str ∧ decode str extLength = ⟨encoding, hrp, values⟩ := by
  refine ⟨_, encode_eq valid (fun c mem => (printable c mem).2.2) values, ?_⟩
  have combinedDigits := combined_lt fiveBits encoding hrp
  have allPrintable := encoded_printable printable combinedDigits
  have noUpper : (hrp ++ '1' :: (values ++ createChecksum encoding hrp values).map fun v => CHARSET.getD v ' ').any
      isUpper = false := by
    rw [List.any_eq_false]
    intro c mem
    rw [(allPrintable c mem).2.2]
    decide
  have lastOne : '1' ∉ (values ++ createChecksum encoding hrp values).map fun v => CHARSET.getD v ' ' := by
    intro mem
    obtain ⟨v, inCombined, isOne⟩ := List.mem_map.mp mem
    exact (charset_char v (combinedDigits v inCombined)).2.2.1 isOne
  have read : (((values ++ createChecksum encoding hrp values).map fun v => CHARSET.getD v ' ').map
      fun c => CHARSET_REV.getD c.toNat (-1)) = (values ++ createChecksum encoding hrp values).map Int.ofNat := by
    rw [List.map_map]
    exact List.map_congr_left fun v mem => (charset_char v (combinedDigits v mem)).1
  have lowered : hrp.map lowerCase = hrp :=
    (List.map_congr_left fun c mem => lowerCase_of_not_upper (printable c mem).2.2).trans (List.map_id hrp)
  exact decode_of_parts valid named (fun c mem => ⟨(allPrintable c mem).1, (allPrintable c mem).2.1⟩)
    (Or.inr noUpper) lowered lastOne read (by simpa using short)

/-- `ToUpper` of `util/strencodings.h`. -/
def toUpper (c : Char) : Char :=
  if 'a' ≤ c ∧ c ≤ 'z' then Char.ofNat (c.toNat - 'a'.toNat + 'A'.toNat) else c

/-- A printable character that is not a capital stays printable under `ToUpper`, is no
lowercase letter after it, lowercases back to itself, and is a '1' after it only if it was. -/
theorem toUpper_printable {c : Char} (printable : 33 ≤ c.toNat ∧ c.toNat ≤ 126 ∧ isUpper c = false) :
    (33 ≤ (toUpper c).toNat ∧ (toUpper c).toNat ≤ 126 ∧ isLower (toUpper c) = false) ∧
      lowerCase (toUpper c) = c ∧ (toUpper c = '1' ↔ c = '1') := by
  have table : ∀ n : Fin 127, 33 ≤ n.val → isUpper (Char.ofNat n.val) = false →
      (33 ≤ (toUpper (Char.ofNat n.val)).toNat ∧ (toUpper (Char.ofNat n.val)).toNat ≤ 126 ∧
        isLower (toUpper (Char.ofNat n.val)) = false) ∧
      lowerCase (toUpper (Char.ofNat n.val)) = Char.ofNat n.val ∧
      (toUpper (Char.ofNat n.val) = '1' ↔ Char.ofNat n.val = '1') := by
    decide +kernel
  have atC := table ⟨c.toNat, by omega⟩ printable.1 (by rw [Char.ofNat_toNat]; exact printable.2.2)
  rwa [Char.ofNat_toNat] at atC

/-- Each character of the set, uppercased, still decodes to its value. -/
theorem charset_upper : ∀ v < 32, CHARSET_REV.getD (toUpper (CHARSET.getD v ' ')).toNat (-1) = v := by
  decide

/-- The uppercase version of what `Encode` writes reads back as the string itself. -/
theorem decode_encode_upper {encoding : Encoding} (valid : encoding ≠ .INVALID) {hrp : List Char} (named : hrp ≠ [])
    (printable : ∀ c ∈ hrp, 33 ≤ c.toNat ∧ c.toNat ≤ 126 ∧ isUpper c = false) {values : List ℕ}
    (fiveBits : ∀ v ∈ values, v < 32) {extLength : Bool}
    (short : extLength = true ∨ hrp.length + values.length + 7 ≤ 90) :
    decode ((hrp ++ '1' :: (values ++ createChecksum encoding hrp values).map fun v => CHARSET.getD v ' ').map toUpper)
      extLength = ⟨encoding, hrp, values⟩ := by
  have combinedDigits := combined_lt fiveBits encoding hrp
  have allPrintable := encoded_printable printable combinedDigits
  have upper : ∀ c ∈ hrp ++ '1' :: (values ++ createChecksum encoding hrp values).map fun v => CHARSET.getD v ' ',
      (33 ≤ (toUpper c).toNat ∧ (toUpper c).toNat ≤ 126 ∧ isLower (toUpper c) = false) ∧
        lowerCase (toUpper c) = c ∧ (toUpper c = '1' ↔ c = '1') :=
    fun c mem => toUpper_printable (allPrintable c mem)
  have separator : toUpper '1' = '1' := by decide
  have whole : hrp.map toUpper ++ '1' :: ((values ++ createChecksum encoding hrp values).map fun v => CHARSET.getD v ' ').map
      toUpper = (hrp ++ '1' :: (values ++ createChecksum encoding hrp values).map fun v => CHARSET.getD v ' ').map toUpper := by
    simp [separator]
  rw [← whole]
  have noLower : (hrp.map toUpper ++ '1' :: ((values ++ createChecksum encoding hrp values).map
      fun v => CHARSET.getD v ' ').map toUpper).any isLower = false := by
    rw [whole, List.any_eq_false]
    intro c mem
    obtain ⟨c', mem', rfl⟩ := List.mem_map.mp mem
    simp [(upper c' mem').1.2.2]
  have lastOne : '1' ∉ ((values ++ createChecksum encoding hrp values).map fun v => CHARSET.getD v ' ').map toUpper := by
    intro mem
    obtain ⟨c, inCs, isOne⟩ := List.mem_map.mp mem
    obtain ⟨v, inCombined, rfl⟩ := List.mem_map.mp inCs
    have inString : CHARSET.getD v ' ' ∈ hrp ++ '1' :: (values ++ createChecksum encoding hrp values).map
        fun v => CHARSET.getD v ' ' := List.mem_append_right _ (List.mem_cons_of_mem _ inCs)
    exact (charset_char v (combinedDigits v inCombined)).2.2.1 ((upper _ inString).2.2.mp isOne)
  have read : ((((values ++ createChecksum encoding hrp values).map fun v => CHARSET.getD v ' ').map toUpper).map
      fun c => CHARSET_REV.getD c.toNat (-1)) = (values ++ createChecksum encoding hrp values).map Int.ofNat := by
    rw [List.map_map, List.map_map]
    exact List.map_congr_left fun v mem => charset_upper v (combinedDigits v mem)
  have lowered : (hrp.map toUpper).map lowerCase = hrp := by
    rw [List.map_map]
    exact (List.map_congr_left fun c mem => (upper c (List.mem_append_left _ mem)).2.1).trans (List.map_id hrp)
  have printableUpper : ∀ c ∈ hrp.map toUpper ++ '1' :: ((values ++ createChecksum encoding hrp values).map
      fun v => CHARSET.getD v ' ').map toUpper, 33 ≤ c.toNat ∧ c.toNat ≤ 126 := by
    rw [whole]
    intro c mem
    obtain ⟨c', mem', rfl⟩ := List.mem_map.mp mem
    exact ⟨(upper c' mem').1.1, (upper c' mem').1.2.1⟩
  exact decode_of_parts valid (by simpa using named) printableUpper (Or.inl noLower) lowered lastOne read
    (by simpa using short)

/-- A string with both a lowercase and an uppercase letter is rejected. -/
theorem decode_mixed {str : List Char} (lower : str.any isLower = true) (upper : str.any isUpper = true)
    (extLength : Bool) : decode str extLength = .empty := by
  unfold decode
  split
  · rfl
  · rw [if_pos (by simp [lower, upper])]

/-- A checksum that `VerifyChecksum` accepts is that of exactly the encoding it reports. -/
theorem verifyChecksum_iff {hrp : List Char} {values : List ℕ} (accepted : verifyChecksum hrp values ≠ .INVALID)
    {encoding : Encoding} (valid : encoding ≠ .INVALID) :
    polyMod (expandHRP hrp ++ values) = encodingConstant encoding ↔ encoding = verifyChecksum hrp values := by
  unfold verifyChecksum at accepted ⊢
  cases encoding with
  | INVALID => exact absurd rfl valid
  | BECH32 =>
    by_cases one : polyMod (expandHRP hrp ++ values) = encodingConstant .BECH32
    · simp [one]
    · simp only [one, if_false, false_iff]
      split_ifs <;> simp_all
  | BECH32M =>
    by_cases one : polyMod (expandHRP hrp ++ values) = encodingConstant .BECH32
    · simp only [one, if_true]
      decide
    · simp only [one, if_false]
      split_ifs <;> simp_all

/-- `Decode` accepts a string under one encoding only: the one whose constant the checksum of
what it read leaves. -/
theorem decode_accepted (str : List Char) (extLength : Bool) :
    decode str extLength = .empty ∨ ∃ values : List ℕ, ∀ encoding : Encoding, encoding ≠ .INVALID →
      (polyMod (expandHRP (decode str extLength).hrp ++ values) = encodingConstant encoding ↔
        encoding = (decode str extLength).encoding) := by
  unfold decode
  split
  · exact Or.inl rfl
  split
  · exact Or.inl rfl
  split
  · exact Or.inl rfl
  dsimp only
  split
  · exact Or.inl rfl
  split
  · exact Or.inl rfl
  split
  · exact Or.inl rfl
  · rename_i accepted
    exact Or.inr ⟨_, fun encoding valid => verifyChecksum_iff accepted valid⟩

/-- Without the extended length, `Decode` rejects a string of more than 90 characters. -/
theorem decode_long {str : List Char} (long : 90 < str.length) : decode str false = .empty := by
  unfold decode
  split
  · rfl
  split
  · rfl
  split
  · rfl
  · rw [if_pos (by simp [long])]

end Pussycoin.Address.Bech32
