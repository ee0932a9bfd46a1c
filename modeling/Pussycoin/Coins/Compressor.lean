import Pussycoin.Mw.WireSize

/-! `compressor.cpp` and `compressor.h`: the compact serialization of transaction outputs in
the coins database. An amount is written as the `VARINT` of `CompressAmount`, which strips up
to nine trailing decimal zeros; a script is written as a template code and its 20 or 32 bytes
when it is one of the six special forms, and as `VARINT(size + 6)` and its bytes otherwise.
Point decompression of secp256k1 lies outside this code: it is a parameter, with the one
property the round trip asks of it. -/
namespace Pussycoin.Compressor

open Codec Serialize

/-! ### Amounts -/

/-- The loop `while ((n % 10) == 0 && e < 9)` of `CompressAmount`. -/
def stripZeros (n : UInt64) (e : ℕ) : UInt64 × ℕ :=
  if n % 10 = 0 ∧ e < 9 then stripZeros (n / 10) (e + 1) else (n, e)
termination_by 9 - e

def compressAmount (n : UInt64) : UInt64 :=
  if n = 0 then 0
  else
    let (n, e) := stripZeros n 0
    if e < 9 then
      let d := n % 10
      let n := n / 10
      1 + (n * 9 + d - 1) * 10 + UInt64.ofNat e
    else 1 + (n - 1) * 10 + 9

/-- The loop `while (e) { n *= 10; e--; }` of `DecompressAmount`. -/
def timesTen : ℕ → UInt64 → UInt64
  | 0, n => n
  | e + 1, n => timesTen e (n * 10)

def decompressAmount (x : UInt64) : UInt64 :=
  if x = 0 then 0
  else
    let x := x - 1
    let e := x % 10
    let x := x / 10
    let n := if e < 9 then x / 9 * 10 + (x % 9 + 1) else x + 1
    timesTen e.toNat n

/-- What the loop of `CompressAmount` leaves, from `n` with `e` zeros already stripped: the
value times the zeros stripped is `n`, at most nine are stripped, and below nine the last
digit left is not zero. -/
structure Stripped (n e : ℕ) (r : UInt64 × ℕ) : Prop where
  value : r.1.toNat * 10 ^ (r.2 - e) = n
  from_start : e ≤ r.2
  at_most_nine : r.2 ≤ 9
  last_digit : r.2 < 9 → r.1.toNat % 10 ≠ 0

theorem stripZeros_stripped (n : UInt64) (e : ℕ) (start : e ≤ 9) : Stripped n.toNat e (stripZeros n e) := by
  fun_induction stripZeros n e with
  | case1 n e strip ih =>
    obtain ⟨zero, below⟩ := strip
    have digit : n.toNat % 10 = 0 := by
      simpa using congrArg UInt64.toNat zero
    obtain ⟨value, from_start, at_most_nine, last_digit⟩ := ih (by omega)
    refine ⟨?_, by omega, at_most_nine, last_digit⟩
    -- one more zero stripped than the recursive call counts
    have more : (stripZeros (n / 10) (e + 1)).2 - e = (stripZeros (n / 10) (e + 1)).2 - (e + 1) + 1 := by
      omega
    rw [more, pow_succ, ← mul_assoc, value, UInt64.toNat_div]
    exact Nat.div_mul_cancel (Nat.dvd_of_mod_eq_zero digit)
  | case2 n e stop =>
    refine ⟨by simp, le_rfl, start, fun below => ?_⟩
    intro digit
    exact stop ⟨UInt64.toNat_inj.mp (by simpa using digit), below⟩

theorem Stripped.digits_le {n : ℕ} {r : UInt64 × ℕ} (stripped : Stripped n 0 r) : r.1.toNat ≤ n := by
  rw [← stripped.value]
  exact Nat.le_mul_of_pos_right _ (by positivity)

theorem Stripped.digits_ne_zero {n : ℕ} {r : UInt64 × ℕ} (stripped : Stripped n 0 r) (nonzero : n ≠ 0) :
    r.1.toNat ≠ 0 := by
  intro zero
  have value := stripped.value
  rw [zero, Nat.zero_mul] at value
  exact nonzero value.symm

theorem timesTen_toNat : ∀ (e : ℕ) (n : UInt64), n.toNat * 10 ^ e < 2 ^ 64 → (timesTen e n).toNat = n.toNat * 10 ^ e
  | 0, n, _ => by simp [timesTen]
  | e + 1, n, fits => by
    have shifted : n.toNat * 10 ^ (e + 1) = n.toNat * 10 * 10 ^ e := by ring
    have step : (n * 10).toNat = n.toNat * 10 := by
      rw [UInt64.toNat_mul]
      apply Nat.mod_eq_of_lt
      calc n.toNat * (10 : UInt64).toNat = n.toNat * 10 := rfl
        _ ≤ n.toNat * 10 * 10 ^ e := Nat.le_mul_of_pos_right _ (by positivity)
        _ < 2 ^ 64 := shifted ▸ fits
    rw [timesTen, timesTen_toNat e (n * 10) (by rw [step]; exact shifted ▸ fits), step, shifted]

/-- Below `MAX_MONEY` no operation of `CompressAmount` wraps: its value is the one its formula
has over the natural numbers. -/
theorem compressAmount_toNat {n : UInt64} (nonzero : n ≠ 0) (inRange : (n.toNat : ℤ) ≤ MAX_MONEY) :
    (compressAmount n).toNat =
      if (stripZeros n 0).2 < 9 then
        1 + ((stripZeros n 0).1.toNat / 10 * 9 + (stripZeros n 0).1.toNat % 10 - 1) * 10 + (stripZeros n 0).2
      else 1 + ((stripZeros n 0).1.toNat - 1) * 10 + 9 := by
  have stripped := stripZeros_stripped n 0 (by decide)
  have bound : n.toNat ≤ 8400000000000000 := by
    unfold MAX_MONEY at inRange
    omega
  -- the digits left are at most the amount, so every product stays below 2^64
  have small := stripped.digits_le
  have positive := stripped.digits_ne_zero (by simpa [← UInt64.toNat_inj] using nonzero)
  rw [compressAmount, if_neg nonzero]
  generalize stripZeros n 0 = r at stripped small positive ⊢
  obtain ⟨m, e⟩ := r
  dsimp only at small positive
  by_cases below : e < 9
  · have digit : m.toNat % 10 ≠ 0 := stripped.last_digit below
    simp only [if_pos below, UInt64.toNat_add, UInt64.toNat_mul, UInt64.toNat_sub, UInt64.toNat_div,
      UInt64.toNat_mod, UInt64.toNat_ofNat', UInt64.reduceToNat]
    omega
  · simp only [if_neg below, UInt64.toNat_add, UInt64.toNat_mul, UInt64.toNat_sub, UInt64.reduceToNat]
    omega

/-- One coin: eight zeros stripped, the digit 1 left. -/
example : compressAmount 100000000 = 9 ∧ decompressAmount 9 = 100000000 := by decide +kernel

/-- `DecompressAmount` of a code whose last digit less one is `e` and whose digits above it
read as `d`: `d` shifted by `e` decimal places, where that fits in 64 bits. -/
theorem decompressAmount_toNat {x : UInt64} (nonzero : x ≠ 0) {e d : ℕ} (exponent : ((x - 1) % 10).toNat = e)
    (digits : (if (x - 1) % 10 < 9 then (x - 1) / 10 / 9 * 10 + ((x - 1) / 10 % 9 + 1)
      else (x - 1) / 10 + 1).toNat = d)
    (fits : d * 10 ^ e < 2 ^ 64) :
    (decompressAmount x).toNat = d * 10 ^ e := by
  rw [decompressAmount, if_neg nonzero]
  dsimp only
  rw [exponent, timesTen_toNat e _ (by rw [digits]; exact fits), digits]

/-- `DecompressAmount` undoes `CompressAmount` on every amount up to `MAX_MONEY`: the code
keeps the exponent in its last decimal digit, and the digits stripped of their zeros in base 9
and 10 above it. -/
theorem decompressAmount_compressAmount (n : UInt64) (inRange : (n.toNat : ℤ) ≤ MAX_MONEY) :
    decompressAmount (compressAmount n) = n := by
  by_cases zero : n = 0
  · subst zero
    rfl
  have code := compressAmount_toNat zero inRange
  have stripped := stripZeros_stripped n 0 (by decide)
  have positive := stripped.digits_ne_zero (by simpa [← UInt64.toNat_inj] using zero)
  have small := stripped.digits_le
  have bound : n.toNat ≤ 8400000000000000 := by
    unfold MAX_MONEY at inRange
    omega
  generalize compressAmount n = c at code ⊢
  generalize stripZeros n 0 = r at code stripped positive small
  obtain ⟨m, e⟩ := r
  obtain ⟨value, -, at_most_nine, last_digit⟩ := stripped
  simp only [Nat.sub_zero] at value at_most_nine last_digit code positive small
  have c_pos : c ≠ 0 := by
    intro cz
    subst cz
    rw [UInt64.toNat_zero] at code
    split at code <;> omega
  have less : (c - 1).toNat = c.toNat - 1 :=
    UInt64.toNat_sub_of_le _ _ (UInt64.le_iff_toNat_le.mpr (by split at code <;> simp <;> omega))
  apply UInt64.toNat_inj.mp
  rw [← value]
  by_cases below : e < 9
  · -- the code is 1 + 10 (9 (m / 10) + (m % 10 - 1)) + e
    have digit := last_digit below
    rw [if_pos below] at code
    have exponent : ((c - 1) % 10).toNat = e := by
      simp only [UInt64.toNat_mod, less, code, UInt64.reduceToNat]
      omega
    refine decompressAmount_toNat c_pos exponent ?_ (by rw [value]; exact n.toNat_lt)
    rw [if_pos (UInt64.lt_iff_toNat_lt.mpr (by rw [exponent]; exact below))]
    simp only [UInt64.toNat_add, UInt64.toNat_mul, UInt64.toNat_div, UInt64.toNat_mod, less,
      UInt64.reduceToNat, code]
    omega
  · -- nine zeros stripped: the code is 1 + 10 (m - 1) + 9
    rw [if_neg below] at code
    have exponent : ((c - 1) % 10).toNat = e := by
      simp only [UInt64.toNat_mod, less, code, UInt64.reduceToNat]
      omega
    refine decompressAmount_toNat c_pos exponent ?_ (by rw [value]; exact n.toNat_lt)
    rw [if_neg (fun lt => below (exponent ▸ UInt64.lt_iff_toNat_lt.mp lt))]
    simp only [UInt64.toNat_add, UInt64.toNat_div, less, UInt64.reduceToNat, code]
    omega

/-! ### Scripts -/

def OP_RETURN : UInt8 := 0x6a
def OP_DUP : UInt8 := 0x76
def OP_EQUAL : UInt8 := 0x87
def OP_EQUALVERIFY : UInt8 := 0x88
def OP_HASH160 : UInt8 := 0xa9
def OP_CHECKSIG : UInt8 := 0xac

def MAX_SCRIPT_SIZE : ℕ := 10000

/-- `IsToKeyID`: pay to a key hash, with the hash. -/
def isToKeyID (script : List UInt8) : Option (List UInt8) :=
  if script.length = 25 ∧ script.getD 0 0 = OP_DUP ∧ script.getD 1 0 = OP_HASH160 ∧ script.getD 2 0 = 20 ∧
      script.getD 23 0 = OP_EQUALVERIFY ∧ script.getD 24 0 = OP_CHECKSIG then
    some (script.extract 3 23)
  else none

/-- `IsToScriptID`: pay to a script hash, with the hash. -/
def isToScriptID (script : List UInt8) : Option (List UInt8) :=
  if script.length = 23 ∧ script.getD 0 0 = OP_HASH160 ∧ script.getD 1 0 = 20 ∧ script.getD 22 0 = OP_EQUAL then
    some (script.extract 2 22)
  else none

/-- `IsToPubKey`: pay to a compressed key, or to an uncompressed key that `IsFullyValid` accepts,
with the key. -/
def isToPubKey (isFullyValid : List UInt8 → Bool) (script : List UInt8) : Option (List UInt8) :=
  if script.length = 35 ∧ script.getD 0 0 = 33 ∧ script.getD 34 0 = OP_CHECKSIG ∧
      (script.getD 1 0 = 0x02 ∨ script.getD 1 0 = 0x03) then
    some (script.extract 1 34)
  else if script.length = 67 ∧ script.getD 0 0 = 65 ∧ script.getD 66 0 = OP_CHECKSIG ∧ script.getD 1 0 = 0x04 then
    if isFullyValid (script.extract 1 66) then some (script.extract 1 66) else none
  else none

/-- The key branch of `CompressScript`: the header byte, with the parity of y for an
uncompressed key, and the x coordinate. -/
def compressPubKey (pubkey : List UInt8) : Option (List UInt8) :=
  if pubkey.getD 0 0 = 0x02 ∨ pubkey.getD 0 0 = 0x03 then some (pubkey.getD 0 0 :: pubkey.extract 1 33)
  else if pubkey.getD 0 0 = 0x04 then some ((0x04 ||| (pubkey.getD 64 0 &&& 0x01)) :: pubkey.extract 1 33)
  else none

/-- `CompressScript`: the bytes `out` of a special form, or none. -/
def compressScript (isFullyValid : List UInt8 → Bool) (script : List UInt8) : Option (List UInt8) :=
  match isToKeyID script with
  | some keyID => some (0x00 :: keyID)
  | none =>
    match isToScriptID script with
    | some scriptID => some (0x01 :: scriptID)
    | none =>
      match isToPubKey isFullyValid script with
      | some pubkey => compressPubKey pubkey
      | none => none

def getSpecialScriptSize (nSize : ℕ) : ℕ :=
  if nSize = 0 ∨ nSize = 1 then 20
  else if nSize = 2 ∨ nSize = 3 ∨ nSize = 4 ∨ nSize = 5 then 32
  else 0

/-- A key as `CPubKey::Decompress` leaves it on success: 65 bytes, so that the assert after it
holds. -/
abbrev FullPubKey := {key : List UInt8 // key.length = 65}

/-- `DecompressScript`, with `decompress` the point decompression of `CPubKey::Decompress`.
None where it returns false; `script` is then left as it was. -/
def decompressScript (decompress : List UInt8 → Option FullPubKey) (nSize : ℕ) (input : List UInt8) :
    Option (List UInt8) :=
  match nSize with
  | 0 => some ([OP_DUP, OP_HASH160, 20] ++ input.take 20 ++ [OP_EQUALVERIFY, OP_CHECKSIG])
  | 1 => some ([OP_HASH160, 20] ++ input.take 20 ++ [OP_EQUAL])
  | 2 | 3 => some ([33, UInt8.ofNat nSize] ++ input.take 32 ++ [OP_CHECKSIG])
  | 4 | 5 =>
    (decompress (UInt8.ofNat (nSize - 2) :: input.take 32)).map fun pubkey => [65] ++ pubkey.val ++ [OP_CHECKSIG]
  | _ => none

/-- What the round trip asks of point decompression: the compressed form of a fully valid
uncompressed key, `0x02 | parity` and the x coordinate, decompresses to the key. -/
def InvertsCompression (isFullyValid : List UInt8 → Bool) (decompress : List UInt8 → Option FullPubKey) : Prop :=
  ∀ key : List UInt8, key.length = 65 → key.getD 0 0 = 0x04 → isFullyValid key = true →
    (decompress ((0x02 ||| (key.getD 64 0 &&& 0x01)) :: key.extract 1 33)).map Subtype.val = some key

section Templates

theorem take_eq_getD (l : List UInt8) {n : ℕ} (short : n ≤ l.length) :
    l.take n = (List.range n).map fun i => l.getD i 0 := by
  apply List.ext_getElem (by simp [short])
  intro i inTake inRange
  simp [List.getD_eq_getElem?_getD, List.getElem?_eq_getElem (show i < l.length by simp at inTake; omega)]

theorem drop_eq_getD (l : List UInt8) (n : ℕ) :
    l.drop n = (List.range (l.length - n)).map fun i => l.getD (n + i) 0 := by
  apply List.ext_getElem (by simp)
  intro i inDrop inRange
  simp [List.getD_eq_getElem?_getD, List.getElem?_eq_getElem (show n + i < l.length by simp at inDrop; omega)]

/-- A script is its bytes before a field, the field, and its bytes after. -/
theorem take_append_extract_append_drop (l : List UInt8) {start stop : ℕ} (ordered : start ≤ stop) :
    l.take start ++ l.extract start stop ++ l.drop stop = l := by
  have rest : l.drop stop = (l.drop start).drop (stop - start) := by
    rw [List.drop_drop]
    congr 1
    omega
  rw [List.extract_eq_take_drop, rest, List.append_assoc, List.take_append_drop, List.take_append_drop]

theorem length_extract (l : List UInt8) (start stop : ℕ) : (l.extract start stop).length = min stop l.length - start := by
  simp [List.extract_eq_take_drop]
  omega

theorem getD_extract (l : List UInt8) {start stop i : ℕ} (inside : i < stop - start) :
    (l.extract start stop).getD i 0 = l.getD (start + i) 0 := by
  simp [List.extract_eq_take_drop, List.getD_eq_getElem?_getD, inside]

theorem extract_extract (l : List UInt8) {start stop start' stop' : ℕ} (inside : stop' ≤ stop - start) :
    (l.extract start stop).extract start' stop' = l.extract (start + start') (start + stop') := by
  simp only [List.extract_eq_take_drop, List.drop_take, List.take_take, List.drop_drop]
  congr 1
  omega

end Templates

section ScriptForms

variable (decompress : List UInt8 → Option FullPubKey)

theorem decompress_keyID {script keyID : List UInt8} (found : isToKeyID script = some keyID) :
    keyID.length = 20 ∧ decompressScript decompress 0 keyID = some script := by
  rw [isToKeyID] at found
  split_ifs at found with shape
  cases found
  obtain ⟨len, b0, b1, b2, b23, b24⟩ := shape
  have front : script.take 3 = [OP_DUP, OP_HASH160, 20] := by
    rw [take_eq_getD _ (by omega)]
    change [script.getD 0 0, script.getD 1 0, script.getD 2 0] = _
    rw [b0, b1, b2]
  have back : script.drop 23 = [OP_EQUALVERIFY, OP_CHECKSIG] := by
    rw [drop_eq_getD, len]
    change [script.getD 23 0, script.getD 24 0] = _
    rw [b23, b24]
  have width : (script.extract 3 23).length = 20 := by
    rw [length_extract, len]
    rfl
  refine ⟨width, ?_⟩
  simp only [decompressScript]
  rw [List.take_of_length_le width.le, ← front, ← back, take_append_extract_append_drop _ (by decide)]

theorem decompress_scriptID {script scriptID : List UInt8} (found : isToScriptID script = some scriptID) :
    scriptID.length = 20 ∧ decompressScript decompress 1 scriptID = some script := by
  rw [isToScriptID] at found
  split_ifs at found with shape
  cases found
  obtain ⟨len, b0, b1, b22⟩ := shape
  have front : script.take 2 = [OP_HASH160, 20] := by
    rw [take_eq_getD _ (by omega)]
    change [script.getD 0 0, script.getD 1 0] = _
    rw [b0, b1]
  have back : script.drop 22 = [OP_EQUAL] := by
    rw [drop_eq_getD, len]
    change [script.getD 22 0] = _
    rw [b22]
  have width : (script.extract 2 22).length = 20 := by
    rw [length_extract, len]
    rfl
  refine ⟨width, ?_⟩
  simp only [decompressScript]
  rw [List.take_of_length_le width.le, ← front, ← back, take_append_extract_append_drop _ (by decide)]

theorem decompressScript_compressedKey {nSize : ℕ} (code : nSize = 2 ∨ nSize = 3) (input : List UInt8) :
    decompressScript decompress nSize input = some ([33, UInt8.ofNat nSize] ++ input.take 32 ++ [OP_CHECKSIG]) := by
  rcases code with rfl | rfl <;> rfl

theorem decompressScript_uncompressedKey {nSize : ℕ} (code : nSize = 4 ∨ nSize = 5) (input : List UInt8) :
    decompressScript decompress nSize input =
      (decompress (UInt8.ofNat (nSize - 2) :: input.take 32)).map fun pubkey => [65] ++ pubkey.val ++ [OP_CHECKSIG] := by
  rcases code with rfl | rfl <;> rfl

/-- The code of an uncompressed key is 4 or 5, and less two it is the header of the compressed
key with the same parity. -/
theorem uncompressed_code (b : UInt8) :
    ((0x04 ||| (b &&& 0x01)).toNat = 4 ∨ (0x04 ||| (b &&& 0x01)).toNat = 5) ∧
      UInt8.ofNat ((0x04 ||| (b &&& 0x01)).toNat - 2) = 0x02 ||| (b &&& 0x01) := by
  have parity : b &&& 0x01 = 0 ∨ b &&& 0x01 = 1 := by
    have bit : (b &&& 0x01).toNat ≤ 1 := by
      rw [UInt8.toNat_and]
      exact Nat.and_le_right
    rcases Nat.le_one_iff_eq_zero_or_eq_one.mp bit with zero | one
    · exact Or.inl (UInt8.toNat_inj.mp zero)
    · exact Or.inr (UInt8.toNat_inj.mp one)
  rcases parity with parity | parity <;> rw [parity] <;> decide

theorem decompress_pubKey {isFullyValid : List UInt8 → Bool} (inverts : InvertsCompression isFullyValid decompress)
    {script pubkey compr : List UInt8} (found : isToPubKey isFullyValid script = some pubkey)
    (compressed : compressPubKey pubkey = some compr) :
    ∃ nSize body, compr = nSize :: body ∧ 2 ≤ nSize.toNat ∧ nSize.toNat < 6 ∧ body.length = 32 ∧
      decompressScript decompress nSize.toNat body = some script := by
  rw [isToPubKey] at found
  split_ifs at found with short long valid
  · -- a compressed key: its header is the code, its x coordinate the body
    cases found
    obtain ⟨len, b0, b34, header⟩ := short
    have first : (script.extract 1 34).getD 0 0 = script.getD 1 0 := getD_extract _ (by decide)
    have x : (script.extract 1 34).extract 1 33 = script.extract 2 34 := extract_extract _ (by decide)
    rw [compressPubKey, first, if_pos header, x] at compressed
    cases compressed
    have code : (script.getD 1 0).toNat = 2 ∨ (script.getD 1 0).toNat = 3 := by
      rcases header with two | three
      · exact Or.inl (by rw [two]; rfl)
      · exact Or.inr (by rw [three]; rfl)
    have width : (script.extract 2 34).length = 32 := by
      rw [length_extract, len]
      rfl
    have front : script.take 2 = [33, script.getD 1 0] := by
      rw [take_eq_getD _ (by omega)]
      change [script.getD 0 0, script.getD 1 0] = _
      rw [b0]
    have back : script.drop 34 = [OP_CHECKSIG] := by
      rw [drop_eq_getD, len]
      change [script.getD 34 0] = _
      rw [b34]
    refine ⟨script.getD 1 0, script.extract 2 34, rfl, by omega, by omega, width, ?_⟩
    rw [decompressScript_compressedKey decompress code, UInt8.ofNat_toNat, List.take_of_length_le width.le,
      ← front, ← back, take_append_extract_append_drop _ (by decide)]
  · -- an uncompressed key: the code carries the parity of y, and decompression gives the key back
    cases found
    obtain ⟨len, b0, b66, header⟩ := long
    have first : (script.extract 1 66).getD 0 0 = 0x04 := by
      rw [getD_extract _ (by decide)]
      exact header
    rw [compressPubKey, first, if_neg (by decide), if_pos rfl] at compressed
    cases compressed
    obtain ⟨code, parity⟩ := uncompressed_code ((script.extract 1 66).getD 64 0)
    have keyLength : (script.extract 1 66).length = 65 := by
      rw [length_extract, len]
      rfl
    have width : ((script.extract 1 66).extract 1 33).length = 32 := by
      rw [length_extract, keyLength]
      rfl
    have front : script.take 1 = [65] := by
      rw [take_eq_getD _ (by omega)]
      change [script.getD 0 0] = _
      rw [b0]
    have back : script.drop 66 = [OP_CHECKSIG] := by
      rw [drop_eq_getD, len]
      change [script.getD 66 0] = _
      rw [b66]
    obtain ⟨key, decompressed, same⟩ := Option.map_eq_some_iff.mp (inverts _ keyLength first valid)
    refine ⟨_, _, rfl, by omega, by omega, width, ?_⟩
    rw [decompressScript_uncompressedKey decompress code, parity, List.take_of_length_le width.le,
      decompressed, Option.map_some, same, ← front, ← back, take_append_extract_append_drop _ (by decide)]

def nSpecialScripts : ℕ := 6

/-- `DecompressScript` inverts `CompressScript` on each of the six special forms: the first byte
of the compressed form is a code below `nSpecialScripts`, followed by as many bytes as
`GetSpecialScriptSize` reads for it. -/
theorem decompressScript_compressScript {isFullyValid : List UInt8 → Bool}
    (inverts : InvertsCompression isFullyValid decompress) {script compr : List UInt8}
    (compressed : compressScript isFullyValid script = some compr) :
    ∃ nSize body, compr = nSize :: body ∧ nSize.toNat < nSpecialScripts ∧
      body.length = getSpecialScriptSize nSize.toNat ∧ decompressScript decompress nSize.toNat body = some script := by
  rw [compressScript] at compressed
  split at compressed
  · rename_i keyID found
    cases compressed
    obtain ⟨width, decompressed⟩ := decompress_keyID decompress found
    exact ⟨0x00, keyID, rfl, by decide, width, decompressed⟩
  · split at compressed
    · rename_i scriptID found
      cases compressed
      obtain ⟨width, decompressed⟩ := decompress_scriptID decompress found
      exact ⟨0x01, scriptID, rfl, by decide, width, decompressed⟩
    · split at compressed
      · rename_i pubkey found
        obtain ⟨nSize, body, rfl, from_two, below_six, width, decompressed⟩ :=
          decompress_pubKey decompress inverts found compressed
        have special : getSpecialScriptSize nSize.toNat = 32 := by
          rw [getSpecialScriptSize, if_neg (by omega), if_pos (by omega)]
        exact ⟨nSize, body, rfl, below_six, special ▸ width, decompressed⟩
      · cases compressed

end ScriptForms

/-! ### Serialization -/

def UINT32_MAX : ℕ := 2 ^ 32 - 1

/-- `ScriptCompression::Ser`: the compressed form as raw bytes, or `VARINT(size + 6)` of the
`unsigned int` size and the script. -/
def serScript (isFullyValid : List UInt8 → Bool) (script : List UInt8) : List UInt8 :=
  match compressScript isFullyValid script with
  | some compr => compr
  | none => writeVarInt 32 ((script.length + nSpecialScripts) % 2 ^ 32 : ℕ) ++ script

/-- `ScriptCompression::Unser` into `script`: a special form is decompressed over it, an overlong
script is skipped and `OP_RETURN` is pushed onto it, and any other script replaces it. -/
def unserScript (decompress : List UInt8 → Option FullPubKey) (script : List UInt8) : Reader UInt8 (List UInt8) := do
  let nSize ← readVarInt UINT32_MAX
  if nSize < nSpecialScripts then
    let vch ← readExactly (getSpecialScriptSize nSize)
    pure ((decompressScript decompress nSize vch.val).getD script)
  else
    let nSize := nSize - nSpecialScripts
    if nSize > MAX_SCRIPT_SIZE then
      let _ ← readExactly nSize
      pure (script ++ [OP_RETURN])
    else
      let bytes ← readExactly nSize
      pure bytes.val

/-- The conversion of a `uint64_t` to `int64_t`. -/
def toInt64 (x : UInt64) : ℤ := if x.toNat < 2 ^ 63 then x.toNat else x.toNat - 2 ^ 64

/-- `AmountCompression::Ser` of a `CAmount`, converted to `uint64_t`. -/
def serAmount (val : ℤ) : List UInt8 := writeVarInt 64 (compressAmount (UInt64.ofInt val)).toNat

/-- `AmountCompression::Unser` into a `CAmount`. -/
def unserAmount : Reader UInt8 ℤ := do
  let v ← readVarInt UINT64_MAX
  pure (toInt64 (decompressAmount (UInt64.ofNat v)))

/-- The fields of `CTxOut` that `TxOutCompression` writes. -/
structure CTxOut where
  nValue : ℤ
  scriptPubKey : List UInt8
deriving DecidableEq

/-- `TxOutCompression`: the amount, then the script. -/
def serTxOut (isFullyValid : List UInt8 → Bool) (out : CTxOut) : List UInt8 :=
  serAmount out.nValue ++ serScript isFullyValid out.scriptPubKey

def unserTxOut (decompress : List UInt8 → Option FullPubKey) (out : CTxOut) : Reader UInt8 CTxOut := do
  let nValue ← unserAmount
  let scriptPubKey ← unserScript decompress out.scriptPubKey
  pure ⟨nValue, scriptPubKey⟩

theorem unserAmount_serAmount {val : ℤ} (nonneg : 0 ≤ val) (inRange : val ≤ MAX_MONEY) (rest : List UInt8) :
    unserAmount.run (serAmount val ++ rest) = some (val, rest) := by
  have bound : val ≤ 8400000000000000 := inRange
  have converted : (UInt64.ofInt val).toNat = val.toNat := by
    rw [UInt64.ofInt, UInt64.toNat_ofNat']
    omega
  have code := (compressAmount (UInt64.ofInt val)).toNat_lt
  have written : serAmount val = varIntBytes false (compressAmount (UInt64.ofInt val)).toNat :=
    writeVarInt_eq 64 _ (by norm_num; omega) (by decide)
  have back := decompressAmount_compressAmount (UInt64.ofInt val) (by rw [converted]; omega)
  have signed : toInt64 (UInt64.ofInt val) = val := by
    rw [toInt64, converted, if_pos (by omega)]
    omega
  have reads : (readVarInt UINT64_MAX).run (varIntBytes false (compressAmount (UInt64.ofInt val)).toNat ++ rest) =
      some ((compressAmount (UInt64.ofInt val)).toNat, rest) :=
    readVarInt_varIntBytes UINT64_MAX (by unfold UINT64_MAX; omega) rest
  rw [unserAmount, run_bind, written, reads, Option.bind_some]
  simp only [UInt64.ofNat_toNat, back, signed, run_pure]

section RoundTrip

variable {isFullyValid : List UInt8 → Bool} {decompress : List UInt8 → Option FullPubKey}

theorem unserScript_serScript (inverts : InvertsCompression isFullyValid decompress) {script : List UInt8}
    (short : script.length ≤ MAX_SCRIPT_SIZE) (prior rest : List UInt8) :
    (unserScript decompress prior).run (serScript isFullyValid script ++ rest) = some (script, rest) := by
  cases compressed : compressScript isFullyValid script with
  | some compr =>
    -- a special form: its code is a one-byte VARINT, then the bytes it needs
    obtain ⟨nSize, body, rfl, special, width, decompressed⟩ :=
      decompressScript_compressScript decompress inverts compressed
    have written : serScript isFullyValid script ++ rest = varIntBytes false nSize.toNat ++ (body ++ rest) := by
      simp only [serScript, compressed]
      rw [varIntBytes_small _ (by unfold nSpecialScripts at special; omega)]
      simp
    have reads : (readVarInt UINT32_MAX).run (varIntBytes false nSize.toNat ++ (body ++ rest)) =
        some (nSize.toNat, body ++ rest) :=
      readVarInt_varIntBytes UINT32_MAX (by unfold UINT32_MAX nSpecialScripts at *; omega) _
    rw [unserScript, run_bind, written, reads, Option.bind_some]
    dsimp only
    rw [if_pos special, run_bind, run_readExactly_append body rest width, Option.bind_some]
    simp [decompressed]
  | none =>
    -- any other script: its size shifted past the special codes, then its bytes
    have sized : (script.length + nSpecialScripts) % 2 ^ 32 = script.length + nSpecialScripts :=
      Nat.mod_eq_of_lt (by unfold nSpecialScripts MAX_SCRIPT_SIZE at *; omega)
    have written : serScript isFullyValid script ++ rest =
        varIntBytes false (script.length + nSpecialScripts) ++ (script ++ rest) := by
      simp only [serScript, compressed]
      rw [sized, writeVarInt_eq 32 _ (by unfold nSpecialScripts MAX_SCRIPT_SIZE at *; omega) (by decide),
        List.append_assoc]
    have reads : (readVarInt UINT32_MAX).run (varIntBytes false (script.length + nSpecialScripts) ++ (script ++ rest)) =
        some (script.length + nSpecialScripts, script ++ rest) :=
      readVarInt_varIntBytes UINT32_MAX (by unfold UINT32_MAX nSpecialScripts MAX_SCRIPT_SIZE at *; omega) _
    rw [unserScript, run_bind, written, reads, Option.bind_some]
    dsimp only
    rw [if_neg (by omega), Nat.add_sub_cancel, if_neg (by omega), run_bind,
      run_readExactly_append script rest rfl, Option.bind_some]
    rfl

theorem unserTxOut_serTxOut (inverts : InvertsCompression isFullyValid decompress) {out : CTxOut}
    (nonneg : 0 ≤ out.nValue) (inRange : out.nValue ≤ MAX_MONEY) (short : out.scriptPubKey.length ≤ MAX_SCRIPT_SIZE)
    (prior : CTxOut) (rest : List UInt8) :
    (unserTxOut decompress prior).run (serTxOut isFullyValid out ++ rest) = some (out, rest) := by
  rw [serTxOut, List.append_assoc, unserTxOut, run_bind, unserAmount_serAmount nonneg inRange, Option.bind_some]
  dsimp only
  rw [run_bind, unserScript_serScript inverts short, Option.bind_some]
  rfl

end RoundTrip

/-- The compressed serialization of transaction outputs round-trips: every output with an
amount in the money range and a script of at most `MAX_SCRIPT_SIZE` bytes reads back as
written, over any output read into and any bytes after it. Under it, `DecompressAmount` undoes
`CompressAmount`, which does not wrap below `MAX_MONEY`, and `DecompressScript` undoes
`CompressScript` on every special form. -/
theorem txout_compression_round_trip {isFullyValid : List UInt8 → Bool}
    {decompress : List UInt8 → Option FullPubKey} (inverts : InvertsCompression isFullyValid decompress) :
    (∀ (out prior : CTxOut) (rest : List UInt8), 0 ≤ out.nValue → out.nValue ≤ MAX_MONEY →
      out.scriptPubKey.length ≤ MAX_SCRIPT_SIZE →
      (unserTxOut decompress prior).run (serTxOut isFullyValid out ++ rest) = some (out, rest)) ∧
    (∀ n : UInt64, (n.toNat : ℤ) ≤ MAX_MONEY → decompressAmount (compressAmount n) = n) ∧
    (∀ n : UInt64, n ≠ 0 → (n.toNat : ℤ) ≤ MAX_MONEY →
      (compressAmount n).toNat =
        if (stripZeros n 0).2 < 9 then
          1 + ((stripZeros n 0).1.toNat / 10 * 9 + (stripZeros n 0).1.toNat % 10 - 1) * 10 + (stripZeros n 0).2
        else 1 + ((stripZeros n 0).1.toNat - 1) * 10 + 9) ∧
    ∀ script compr : List UInt8, compressScript isFullyValid script = some compr →
      ∃ nSize body, compr = nSize :: body ∧ decompressScript decompress nSize.toNat body = some script := by
  refine ⟨fun out prior rest nonneg inRange short => unserTxOut_serTxOut inverts nonneg inRange short prior rest,
    decompressAmount_compressAmount, fun n nonzero inRange => compressAmount_toNat nonzero inRange,
    fun script compr compressed => ?_⟩
  obtain ⟨nSize, body, split, -, -, decompressed⟩ := decompressScript_compressScript decompress inverts compressed
  exact ⟨nSize, body, split, decompressed⟩

/-- With a key check that accepts no uncompressed key, the property asked of decompression holds
at once; a pay-to-key-hash output of one coin reads back. -/
theorem txout_compression_round_trip_keyHash :
    (unserTxOut (fun _ => none) ⟨0, []⟩).run
        (serTxOut (fun _ => false) ⟨100000000, [OP_DUP, OP_HASH160, 20] ++ List.replicate 20 7 ++
          [OP_EQUALVERIFY, OP_CHECKSIG]⟩ ++ []) =
      some (⟨100000000, [OP_DUP, OP_HASH160, 20] ++ List.replicate 20 7 ++ [OP_EQUALVERIFY, OP_CHECKSIG]⟩, []) := by
  have inverts : InvertsCompression (fun _ => false) (fun _ => none) := fun _ _ _ valid => by cases valid
  exact (txout_compression_round_trip inverts).1 _ _ _ (by decide) (by decide) (by decide)

end Pussycoin.Compressor
