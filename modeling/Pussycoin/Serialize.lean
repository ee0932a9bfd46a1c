import Pussycoin.Codec
import Mathlib.Algebra.Order.Ring.Int
import Mathlib.Algebra.Order.Group.Nat
import Mathlib.Tactic.NormNum

/-! The integer and container encodings of `serialize.h`: little-endian words,
`WriteVarInt`/`ReadVarInt`, `WriteCompactSize`/`ReadCompactSize`, byte vectors and vectors
of objects. A reader gives natural numbers, the only values it can produce. -/
namespace Pussycoin.Serialize

open Codec

/-! ### Little-endian words -/

@[simp] theorem toNat_byte (n : ℕ) : (UInt8.ofNat n).toNat = n % 256 := UInt8.toNat_ofNat'

/-- `ser_writedata16`, `32` and `64`: the low `width` bytes of `n`, least significant first. -/
def writeLE : ℕ → ℕ → List UInt8
  | 0, _ => []
  | width + 1, n => UInt8.ofNat n :: writeLE width (n / 256)

def ofLE : List UInt8 → ℕ
  | [] => 0
  | b :: rest => b.toNat + 256 * ofLE rest

def readLE (width : ℕ) : Reader UInt8 ℕ := (fun bytes => ofLE bytes.val) <$> readExactly width

@[simp] theorem length_writeLE (width n : ℕ) : (writeLE width n).length = width := by
  induction width generalizing n with
  | zero => rfl
  | succ width ih => simp [writeLE, ih]

theorem ofLE_writeLE (width n : ℕ) : ofLE (writeLE width n) = n % 256 ^ width := by
  induction width generalizing n with
  | zero => simp [writeLE, ofLE, Nat.mod_one]
  | succ width ih =>
    rw [writeLE, ofLE, ih, toNat_byte, pow_succ', Nat.mod_mul]

theorem writeLE_ofLE (bytes : List UInt8) : writeLE bytes.length (ofLE bytes) = bytes := by
  induction bytes with
  | nil => rfl
  | cons b rest ih =>
    have low : (b.toNat + 256 * ofLE rest) % 256 = b.toNat := by
      have := b.toNat_lt
      omega
    have high : (b.toNat + 256 * ofLE rest) / 256 = ofLE rest := by
      have := b.toNat_lt
      omega
    rw [List.length_cons, writeLE, ofLE, high, ih]
    congr 1
    apply UInt8.toNat_inj.mp
    rw [toNat_byte, low]

theorem ofLE_lt (bytes : List UInt8) : ofLE bytes < 256 ^ bytes.length := by
  induction bytes with
  | nil => simp [ofLE]
  | cons b rest ih =>
    have := b.toNat_lt
    rw [ofLE, List.length_cons, pow_succ]
    omega

theorem readLE_roundTrips (width : ℕ) : RoundTrips (writeLE width) (readLE width) (· < 256 ^ width) := by
  intro n small rest
  simp [readLE, run_readExactly_append (writeLE width n) rest (length_writeLE width n), ofLE_writeLE,
    Nat.mod_eq_of_lt small]

theorem readLE_canonical (width : ℕ) : Canonical (writeLE width) (readLE width) := by
  intro stream n rest reads
  simp only [readLE, run_map, Option.map_eq_some_iff] at reads
  obtain ⟨⟨bytes, rest'⟩, readsBytes, same⟩ := reads
  obtain ⟨rfl, rfl⟩ := Prod.mk.inj same
  have written := writeLE_ofLE bytes.val
  rw [bytes.property] at written
  dsimp only
  rw [written]
  exact run_readExactly_eq_some readsBytes

theorem readLE_lt {width : ℕ} {stream rest : List UInt8} {n : ℕ}
    (reads : (readLE width).run stream = some (n, rest)) : n < 256 ^ width := by
  simp only [readLE, run_map, Option.map_eq_some_iff] at reads
  obtain ⟨⟨bytes, rest'⟩, _, same⟩ := reads
  obtain ⟨rfl, rfl⟩ := Prod.mk.inj same
  have fits := ofLE_lt bytes.val
  rwa [bytes.property] at fits

/-! ### VarInt -/

def INT32_MAX : ℕ := 2 ^ 31 - 1
def INT64_MAX : ℕ := 2 ^ 63 - 1
def UINT64_MAX : ℕ := 2 ^ 64 - 1

/-- The loop of `WriteVarInt` from `tmp[len]` on, for the value `n` still to write; `room`
is what is left of `tmp`. `(n & 0x7F) | (len ? 0x80 : 0x00)` is written as a sum, as the
low seven bits and the continuation bit do not overlap. -/
def writeVarIntLoop : ℕ → ℕ → ℤ → List UInt8
  | 0, _, _ => []
  | room + 1, len, n =>
    let byte := UInt8.ofNat ((n % 0x80).toNat + if len = 0 then 0 else 0x80)
    if n ≤ 0x7F then [byte] else byte :: writeVarIntLoop room (len + 1) (n / 0x80 - 1)

/-- `WriteVarInt` for an integer type of `bits` bits: `tmp` has `(bits + 6) / 7` bytes,
written from the last one filled down to `tmp[0]`. -/
def writeVarInt (bits : ℕ) (n : ℤ) : List UInt8 := (writeVarIntLoop ((bits + 6) / 7) 0 n).reverse

/-- The loop of `ReadVarInt` for a type whose largest value is `max`, with `n` read so far.
`(n << 7) | (chData & 0x7F)` is a sum, as the shift leaves the low seven bits clear. -/
def readVarIntFrom (max n : ℕ) : List UInt8 → Option (ℕ × List UInt8)
  | [] => none
  | chData :: rest =>
    if max >>> 7 < n then none
    else
      let n := n * 0x80 + chData.toNat % 0x80
      if 0x80 ≤ chData.toNat then
        if n = max then none else readVarIntFrom max (n + 1) rest
      else some (n, rest)

def readVarInt (max : ℕ) : Reader UInt8 ℕ := fun stream => readVarIntFrom max 0 stream

/-- The bytes `WriteVarInt` writes for `n`, most significant first: base 128 with one added
to every digit but the last, the continuation bit on every byte but the last, and on the
last as well when `more`. -/
def varIntBytes (more : Bool) (n : ℕ) : List UInt8 :=
  if n ≤ 0x7F then [UInt8.ofNat (n + if more then 0x80 else 0)]
  else varIntBytes true (n / 0x80 - 1) ++ [UInt8.ofNat (n % 0x80 + if more then 0x80 else 0)]
termination_by n
decreasing_by omega

theorem varIntBytes_small (more : Bool) {n : ℕ} (small : n ≤ 0x7F) :
    varIntBytes more n = [UInt8.ofNat (n + if more then 0x80 else 0)] := by
  rw [varIntBytes, if_pos small]

theorem varIntBytes_digits (more : Bool) (m : ℕ) {d : ℕ} (digit : d < 0x80) :
    varIntBytes more ((m + 1) * 0x80 + d) =
      varIntBytes true m ++ [UInt8.ofNat (d + if more then 0x80 else 0)] := by
  have quotient : ((m + 1) * 0x80 + d) / 0x80 - 1 = m := by omega
  have remainder : ((m + 1) * 0x80 + d) % 0x80 = d := by omega
  rw [varIntBytes, if_neg (by omega), quotient, remainder]

/-- The loop with room for every byte writes the bytes of `varIntBytes`, last first. -/
theorem writeVarIntLoop_eq (room len n : ℕ) (fits : n < 128 ^ (room + 1)) :
    writeVarIntLoop (room + 1) len n = (varIntBytes (len != 0) n).reverse := by
  induction room generalizing len n with
  | zero =>
    rw [writeVarIntLoop, varIntBytes_small _ (by omega), if_pos (by omega)]
    cases len <;> simp [Int.toNat_emod, Nat.mod_eq_of_lt (show n < 128 by omega)]
  | succ room ih =>
    by_cases small : n ≤ 0x7F
    · rw [writeVarIntLoop, varIntBytes_small _ small, if_pos (by omega)]
      cases len <;> simp [Int.toNat_emod, Nat.mod_eq_of_lt (show n < 128 by omega)]
    · obtain ⟨m, d, digit, rfl⟩ : ∃ m d, d < 0x80 ∧ n = (m + 1) * 0x80 + d :=
        ⟨n / 0x80 - 1, n % 0x80, Nat.mod_lt _ (by decide), by omega⟩
      have next : ((((m + 1) * 0x80 + d : ℕ) : ℤ) / 0x80 - 1) = (m : ℤ) := by omega
      rw [writeVarIntLoop, if_neg (by omega), next, ih (len + 1) m (by rw [pow_succ] at fits; omega),
        varIntBytes_digits _ _ digit]
      have low : (((((m + 1) * 0x80 + d : ℕ) : ℤ) % 0x80).toNat) = d := by omega
      simp only [low, List.reverse_append, List.reverse_cons, List.reverse_nil, List.nil_append,
        List.singleton_append, bne_iff_ne, ne_eq]
      cases len <;> simp

theorem writeVarInt_eq (bits n : ℕ) (fits : n < 128 ^ ((bits + 6) / 7)) (room : 0 < (bits + 6) / 7) :
    writeVarInt bits n = varIntBytes false n := by
  obtain ⟨r, hr⟩ : ∃ r, (bits + 6) / 7 = r + 1 := ⟨(bits + 6) / 7 - 1, by omega⟩
  rw [writeVarInt, hr, writeVarIntLoop_eq r 0 n (hr ▸ fits)]
  simp

/-- Reading the bytes of `m` with every continuation bit set leaves `m + 1` read. -/
theorem readVarIntFrom_cont (max : ℕ) (m : ℕ) (below : m < max) (rest : List UInt8) :
    readVarIntFrom max 0 (varIntBytes true m ++ rest) = readVarIntFrom max (m + 1) rest := by
  induction m using Nat.strong_induction_on generalizing rest with
  | _ m ih =>
    by_cases small : m ≤ 0x7F
    · have byte : (UInt8.ofNat (m + 0x80)).toNat = m + 0x80 := by
        rw [toNat_byte]
        omega
      rw [varIntBytes_small _ small]
      simp only [if_true, List.singleton_append, readVarIntFrom, Nat.not_lt_zero, if_false, byte,
        Nat.zero_mul, Nat.zero_add]
      rw [if_pos (by omega), if_neg (by omega), Nat.add_mod_right, Nat.mod_eq_of_lt (by omega)]
    · obtain ⟨q, d, digit, rfl⟩ : ∃ q d, d < 0x80 ∧ m = (q + 1) * 0x80 + d :=
        ⟨m / 0x80 - 1, m % 0x80, Nat.mod_lt _ (by decide), by omega⟩
      have byte : (UInt8.ofNat (d + 0x80)).toNat = d + 0x80 := by
        rw [toNat_byte]
        omega
      rw [varIntBytes_digits _ _ digit, if_pos rfl, List.append_assoc, ih q (by omega) (by omega)]
      simp only [List.singleton_append, readVarIntFrom, byte]
      have fits : ¬ max >>> 7 < q + 1 := by
        rw [Nat.shiftRight_eq_div_pow]
        omega
      rw [if_neg fits, if_pos (by omega), Nat.add_mod_right, Nat.mod_eq_of_lt digit, if_neg (by omega)]

theorem readVarInt_varIntBytes (max : ℕ) {n : ℕ} (small : n ≤ max) (rest : List UInt8) :
    (readVarInt max).run (varIntBytes false n ++ rest) = some (n, rest) := by
  show readVarIntFrom max 0 _ = _
  by_cases single : n ≤ 0x7F
  · have byte : (UInt8.ofNat n).toNat = n := by
      rw [toNat_byte]
      omega
    rw [varIntBytes_small _ single]
    simp [readVarIntFrom, byte, Nat.mod_eq_of_lt (show n < 0x80 by omega), show ¬ 0x80 ≤ n by omega]
  · obtain ⟨q, d, digit, rfl⟩ : ∃ q d, d < 0x80 ∧ n = (q + 1) * 0x80 + d :=
      ⟨n / 0x80 - 1, n % 0x80, Nat.mod_lt _ (by decide), by omega⟩
    have byte : (UInt8.ofNat d).toNat = d := by
      rw [toNat_byte]
      omega
    rw [varIntBytes_digits _ _ digit, List.append_assoc, readVarIntFrom_cont max q (by omega)]
    have fits : ¬ max >>> 7 < q + 1 := by
      rw [Nat.shiftRight_eq_div_pow]
      omega
    simp [readVarIntFrom, byte, fits, Nat.mod_eq_of_lt digit, show ¬ 0x80 ≤ d by omega]

/-- What has been read so far, as the loop of `ReadVarInt` sees it: nothing, or the bytes
of `m` with every continuation bit set, and `m + 1` in the accumulator. -/
def ReadSoFar (n : ℕ) (done : List UInt8) : Prop :=
  n = 0 ∧ done = [] ∨ ∃ m, n = m + 1 ∧ done = varIntBytes true m

/-- The byte after what has been read adds one digit: the bytes read so far, with this one,
are the bytes of the new value. -/
theorem varIntBytes_next {n : ℕ} {done : List UInt8} (sofar : ReadSoFar n done) (more : Bool)
    (chData : UInt8) (flagged : (0x80 ≤ chData.toNat) = more) :
    done ++ [chData] = varIntBytes more (n * 0x80 + chData.toNat % 0x80) := by
  have bounded := chData.toNat_lt
  have byte : UInt8.ofNat (chData.toNat % 0x80 + if more then 0x80 else 0) = chData := by
    apply UInt8.toNat_inj.mp
    rw [toNat_byte]
    cases more <;> simp at flagged ⊢ <;> omega
  rcases sofar with ⟨rfl, rfl⟩ | ⟨m, rfl, rfl⟩
  · rw [Nat.zero_mul, Nat.zero_add, varIntBytes_small _ (by omega), byte]
    rfl
  · rw [varIntBytes_digits _ _ (Nat.mod_lt _ (by decide)), byte]

theorem readVarIntFrom_canonical (max : ℕ) :
    ∀ (stream : List UInt8) (n : ℕ) (done : List UInt8) (v : ℕ) (rest : List UInt8),
      ReadSoFar n done → readVarIntFrom max n stream = some (v, rest) →
      done ++ stream = varIntBytes false v ++ rest
  | [], _, _, _, _, _, reads => by simp [readVarIntFrom] at reads
  | chData :: stream, n, done, v, rest, sofar, reads => by
    simp only [readVarIntFrom] at reads
    split at reads
    · cases reads
    · split at reads
      · rename_i more
        split at reads
        · cases reads
        · rename_i notMax
          have next := varIntBytes_next sofar true chData (by simpa using more)
          have sofar' : ReadSoFar (n * 0x80 + chData.toNat % 0x80 + 1) (done ++ [chData]) :=
            .inr ⟨_, rfl, next⟩
          rw [← readVarIntFrom_canonical max stream _ _ v rest sofar' reads]
          simp
      · rename_i last
        obtain ⟨rfl, rfl⟩ := Prod.mk.inj (Option.some.inj reads)
        rw [← varIntBytes_next sofar false chData (by simpa using last)]
        simp

theorem readVarInt_canonical (max : ℕ) : Canonical (varIntBytes false) (readVarInt max) :=
  fun stream v rest reads => (readVarIntFrom_canonical max stream 0 [] v rest (.inl ⟨rfl, rfl⟩) reads).symm

/-- A value read is at most `max`, when `max` is one below a multiple of 128 as the maxima of
the integer types are. -/
theorem readVarIntFrom_le {max : ℕ} (full : max % 0x80 = 0x7F) :
    ∀ (stream : List UInt8) (n v : ℕ) (rest : List UInt8),
      readVarIntFrom max n stream = some (v, rest) → v ≤ max
  | [], _, _, _, reads => by simp [readVarIntFrom] at reads
  | chData :: stream, n, v, rest, reads => by
    simp only [readVarIntFrom] at reads
    split at reads
    · cases reads
    · rename_i fits
      rw [Nat.shiftRight_eq_div_pow] at fits
      split at reads
      · split at reads
        · cases reads
        · exact readVarIntFrom_le full stream _ v rest reads
      · obtain ⟨rfl, rfl⟩ := Prod.mk.inj (Option.some.inj reads)
        have := Nat.mod_lt chData.toNat (show 0 < 0x80 by decide)
        omega

theorem length_varIntBytes_le (more : Bool) (k : ℕ) :
    ∀ n, n < 128 ^ (k + 1) → (varIntBytes more n).length ≤ k + 1 := by
  induction k generalizing more with
  | zero =>
    intro n small
    rw [varIntBytes_small more (by omega)]
    rfl
  | succ k ih =>
    intro n small
    by_cases single : n ≤ 0x7F
    · rw [varIntBytes_small more single]
      simp
    · obtain ⟨q, d, digit, rfl⟩ : ∃ q d, d < 0x80 ∧ n = (q + 1) * 0x80 + d :=
        ⟨n / 0x80 - 1, n % 0x80, Nat.mod_lt _ (by decide), by omega⟩
      have shorter := ih true q (by rw [pow_succ] at small; omega)
      rw [varIntBytes_digits more q digit, List.length_append, List.length_singleton]
      omega

theorem length_writeVarIntLoop_le : ∀ (room len : ℕ) (n : ℤ), (writeVarIntLoop room len n).length ≤ room
  | 0, _, _ => le_rfl
  | room + 1, len, n => by
    rw [writeVarIntLoop]
    split
    · simp
    · simpa using length_writeVarIntLoop_le room (len + 1) (n / 0x80 - 1)

/-- `WriteVarInt` never takes more bytes than its buffer `tmp` has. -/
theorem length_writeVarInt_le_room (bits : ℕ) (n : ℤ) : (writeVarInt bits n).length ≤ (bits + 6) / 7 := by
  rw [writeVarInt, List.length_reverse]
  exact length_writeVarIntLoop_le _ 0 n

/-- `WriteVarInt` takes at most `k + 1` bytes for a value below `128 ^ (k + 1)`, and one byte
for a negative value, whose first step already ends the loop. -/
theorem length_writeVarInt_le {bits k : ℕ} (room : k + 1 ≤ (bits + 6) / 7) {n : ℤ}
    (small : n < 128 ^ (k + 1)) : (writeVarInt bits n).length ≤ k + 1 := by
  obtain ⟨r, hr⟩ : ∃ r, (bits + 6) / 7 = r + 1 := ⟨(bits + 6) / 7 - 1, by omega⟩
  by_cases nonneg : 0 ≤ n
  · obtain ⟨m, rfl⟩ := Int.eq_ofNat_of_zero_le nonneg
    have fits : m < 128 ^ ((bits + 6) / 7) :=
      lt_of_lt_of_le (by exact_mod_cast small) (Nat.pow_le_pow_right (by decide) room)
    rw [writeVarInt_eq bits m fits (by omega)]
    exact length_varIntBytes_le false k m (by exact_mod_cast small)
  · rw [writeVarInt, hr, writeVarIntLoop, if_pos (by omega)]
    simp

/-- `ReadVarInt` of an integer type, after `WriteVarInt` with room for every byte. -/
theorem readVarInt_int_roundTrips {bits max : ℕ} (fits : max < 128 ^ ((bits + 6) / 7))
    (room : 0 < (bits + 6) / 7) :
    RoundTrips (writeVarInt bits) (Int.ofNat <$> readVarInt max) fun n => 0 ≤ n ∧ n ≤ max := by
  intro n ⟨nonneg, small⟩ rest
  obtain ⟨m, rfl⟩ := Int.eq_ofNat_of_zero_le nonneg
  rw [writeVarInt_eq bits m (by omega) room]
  simp [readVarInt_varIntBytes max (show m ≤ max by omega) rest]

theorem readVarInt_int_canonical {bits max : ℕ} (fits : max < 128 ^ ((bits + 6) / 7))
    (room : 0 < (bits + 6) / 7) (full : max % 0x80 = 0x7F) :
    Canonical (writeVarInt bits) (Int.ofNat <$> readVarInt max) := by
  intro stream n rest reads
  simp only [run_map, Option.map_eq_some_iff] at reads
  obtain ⟨⟨m, rest'⟩, readsValue, same⟩ := reads
  obtain ⟨rfl, rfl⟩ := Prod.mk.inj same
  have small := readVarIntFrom_le full stream 0 m rest' readsValue
  rw [show Int.ofNat m = (m : ℤ) from rfl, writeVarInt_eq bits m (by omega) room]
  exact readVarInt_canonical max stream m rest' readsValue

/-- `GetSizeOfVarInt`: the loop of `WriteVarInt`, counting the bytes. -/
def getSizeOfVarInt (n : ℤ) : ℕ :=
  if n ≤ 0x7F then 1 else getSizeOfVarInt (n / 0x80 - 1) + 1
termination_by n.toNat
decreasing_by omega

theorem getSizeOfVarInt_small {n : ℤ} (small : n ≤ 0x7F) : getSizeOfVarInt n = 1 := by
  rw [getSizeOfVarInt, if_pos small]

theorem getSizeOfVarInt_big {n : ℤ} (big : ¬ n ≤ 0x7F) : getSizeOfVarInt n = getSizeOfVarInt (n / 0x80 - 1) + 1 := by
  rw [getSizeOfVarInt, if_neg big]

theorem length_varIntBytes (more : Bool) (n : ℕ) : (varIntBytes more n).length = getSizeOfVarInt n := by
  induction n using Nat.strong_induction_on generalizing more with
  | _ n ih =>
    by_cases small : n ≤ 0x7F
    · rw [varIntBytes_small more small, getSizeOfVarInt_small (by omega)]
      rfl
    · obtain ⟨q, d, digit, rfl⟩ : ∃ q d, d < 0x80 ∧ n = (q + 1) * 0x80 + d :=
        ⟨n / 0x80 - 1, n % 0x80, Nat.mod_lt _ (by decide), by omega⟩
      have quotient : ((((q + 1) * 0x80 + d : ℕ) : ℤ) / 0x80 - 1) = (q : ℤ) := by omega
      rw [varIntBytes_digits more q digit, getSizeOfVarInt_big (by omega), quotient, List.length_append,
        ih q (by omega) true, List.length_singleton]

/-- `CSizeComputer` counts what `WriteVarInt` writes. -/
theorem length_writeVarInt (bits n : ℕ) (fits : n < 128 ^ ((bits + 6) / 7)) (room : 0 < (bits + 6) / 7) :
    (writeVarInt bits n).length = getSizeOfVarInt n := by
  rw [writeVarInt_eq bits n fits room, length_varIntBytes]

/-- `ReadVarInt` in the arithmetic of a type of `bits` bits whose largest value is `max`: the
shift, the or and the increment wrap at `2 ^ bits`. -/
def readVarIntFromFixed (bits max n : ℕ) : List UInt8 → Option (ℕ × List UInt8)
  | [] => none
  | chData :: rest =>
    if max >>> 7 < n then none
    else
      let n := (n <<< 7 ||| chData.toNat &&& 0x7F) % 2 ^ bits
      if chData.toNat &&& 0x80 ≠ 0 then
        if n = max then none else readVarIntFromFixed bits max ((n + 1) % 2 ^ bits) rest
      else some (n, rest)

def readVarIntFixed (bits max : ℕ) : Reader UInt8 ℕ := fun stream => readVarIntFromFixed bits max 0 stream

theorem continuation_bit (chData : UInt8) : (chData.toNat &&& 0x80 ≠ 0) = (0x80 ≤ chData.toNat) := by
  have table : ∀ c : Fin 256, (c.val &&& 0x80 ≠ 0) = (0x80 ≤ c.val) := by decide +kernel
  exact table ⟨chData.toNat, chData.toNat_lt⟩

/-- Below the guard the shift and the or make the sum of the model, and it stays within `max`. -/
theorem shift_or_eq {max n : ℕ} (full : max % 0x80 = 0x7F) (guard : ¬ max >>> 7 < n) (chData : UInt8) :
    n <<< 7 ||| chData.toNat &&& 0x7F = n * 0x80 + chData.toNat % 0x80 ∧ n * 0x80 + chData.toNat % 0x80 ≤ max := by
  have low : chData.toNat &&& 0x7F = chData.toNat % 2 ^ 7 := Nat.and_two_pow_sub_one_eq_mod chData.toNat 7
  have joined := Nat.shiftLeft_add_eq_or_of_lt (Nat.mod_lt chData.toNat (show 0 < 2 ^ 7 by decide)) n
  rw [Nat.shiftRight_eq_div_pow] at guard
  refine ⟨?_, ?_⟩
  · rw [low, ← joined, Nat.shiftLeft_eq]
  · have digit := Nat.mod_lt chData.toNat (show 0 < 0x80 by decide)
    omega

/-- The guards of `ReadVarInt` fire before the arithmetic of the type could wrap: read in the
type's width it is the model's reading. -/
theorem readVarIntFromFixed_eq {bits max : ℕ} (fits : max < 2 ^ bits) (full : max % 0x80 = 0x7F) :
    ∀ (stream : List UInt8) (n : ℕ), readVarIntFromFixed bits max n stream = readVarIntFrom max n stream
  | [], _ => rfl
  | chData :: stream, n => by
    simp only [readVarIntFromFixed, readVarIntFrom]
    by_cases guard : max >>> 7 < n
    · simp [guard]
    · obtain ⟨same, within⟩ := shift_or_eq full guard chData
      rw [if_neg guard, if_neg guard, same, Nat.mod_eq_of_lt (by omega)]
      simp only [continuation_bit]
      by_cases reached : n * 0x80 + chData.toNat % 0x80 = max
      · simp [reached]
      · simp only [reached, if_false, Nat.mod_eq_of_lt (show n * 0x80 + chData.toNat % 0x80 + 1 < 2 ^ bits by omega),
          readVarIntFromFixed_eq fits full stream]

/-- Reading past the maximum from the bytes of any number with every continuation bit set fails:
such bytes never leave a value at most `max` behind. -/
theorem readVarIntFrom_cont_of_le {max : ℕ} (m : ℕ) (above : max ≤ m) (rest : List UInt8) :
    readVarIntFrom max 0 (varIntBytes true m ++ rest) = none := by
  induction m using Nat.strong_induction_on generalizing rest with
  | _ m ih =>
    -- once the value passes `max >>> 7` the next byte fails the guard
    have past : ∀ n stream, max >>> 7 < n → readVarIntFrom max n stream = none := by
      intro n stream big
      cases stream with
      | nil => rfl
      | cons chData stream => simp [readVarIntFrom, big]
    have beyond : max >>> 7 < m + 1 := by
      rw [Nat.shiftRight_eq_div_pow]
      omega
    by_cases small : m ≤ 0x7F
    · have byte : (UInt8.ofNat (m + 0x80)).toNat = m + 0x80 := by
        rw [toNat_byte]
        omega
      rw [varIntBytes_small _ small]
      simp only [if_true, List.singleton_append, readVarIntFrom, Nat.not_lt_zero, if_false, byte,
        Nat.zero_mul, Nat.zero_add, Nat.add_mod_right, Nat.mod_eq_of_lt (show m < 0x80 by omega)]
      rw [if_pos (by omega)]
      by_cases reached : m = max
      · rw [if_pos reached]
      · rw [if_neg reached, past _ _ beyond]
    · obtain ⟨q, d, digit, rfl⟩ : ∃ q d, d < 0x80 ∧ m = (q + 1) * 0x80 + d :=
        ⟨m / 0x80 - 1, m % 0x80, Nat.mod_lt _ (by decide), by omega⟩
      have byte : (UInt8.ofNat (d + 0x80)).toNat = d + 0x80 := by
        rw [toNat_byte]
        omega
      rw [varIntBytes_digits _ _ digit, if_pos rfl, List.append_assoc]
      by_cases before : q < max
      · rw [readVarIntFrom_cont max q before]
        simp only [List.singleton_append, readVarIntFrom, byte]
        by_cases guard : max >>> 7 < q + 1
        · rw [if_pos guard]
        · rw [if_neg guard, if_pos (by omega), Nat.add_mod_right, Nat.mod_eq_of_lt digit]
          by_cases reached : (q + 1) * 0x80 + d = max
          · rw [if_pos reached]
          · rw [if_neg reached, past _ _ beyond]
      · exact ih q (by omega) (by omega) _

/-- A number past `max` is rejected, not read modulo anything. -/
theorem readVarInt_varIntBytes_of_lt {max : ℕ} (full : max % 0x80 = 0x7F) {m : ℕ} (big : max < m)
    (rest : List UInt8) : (readVarInt max).run (varIntBytes false m ++ rest) = none := by
  show readVarIntFrom max 0 _ = _
  have single : ¬ m ≤ 0x7F := by omega
  obtain ⟨q, d, digit, rfl⟩ : ∃ q d, d < 0x80 ∧ m = (q + 1) * 0x80 + d :=
    ⟨m / 0x80 - 1, m % 0x80, Nat.mod_lt _ (by decide), by omega⟩
  have byte : (UInt8.ofNat d).toNat = d := by
    rw [toNat_byte]
    omega
  rw [varIntBytes_digits _ _ digit, List.append_assoc]
  by_cases before : q < max
  · rw [readVarIntFrom_cont max q before]
    simp only [List.singleton_append, readVarIntFrom, byte, Bool.false_eq_true, if_false, Nat.add_zero]
    -- the last digit would leave more than `max`, which the guard on the value read so far stops
    have guard : max >>> 7 < q + 1 := by
      rw [Nat.shiftRight_eq_div_pow]
      omega
    rw [if_pos guard]
  · exact readVarIntFrom_cont_of_le q (by omega) _

/-- The integer types `VarInt` is used with: the unsigned ones in the mode `DEFAULT`, the signed
ones in the mode `NONNEGATIVE_SIGNED`. -/
inductive VarIntType
  | uint64
  | uint32
  | int64
  | int32
  deriving DecidableEq, Repr

def UINT32_MAX : ℕ := 2 ^ 32 - 1

namespace VarIntType

/-- `sizeof(I) * 8`. -/
def bits : VarIntType → ℕ
  | uint64 | int64 => 64
  | uint32 | int32 => 32

/-- `std::numeric_limits<I>::max()`. -/
def max : VarIntType → ℕ
  | uint64 => UINT64_MAX
  | uint32 => UINT32_MAX
  | int64 => INT64_MAX
  | int32 => INT32_MAX

theorem max_lt (I : VarIntType) : I.max < 2 ^ I.bits := by
  cases I <;> decide

theorem max_mod (I : VarIntType) : I.max % 0x80 = 0x7F := by
  cases I <;> decide

theorem max_lt_tmp (I : VarIntType) : I.max < 128 ^ ((I.bits + 6) / 7) := by
  cases I <;> decide

theorem tmp_pos (I : VarIntType) : 0 < (I.bits + 6) / 7 := by
  cases I <;> decide

end VarIntType

theorem varint_bijection (I : VarIntType) :
    (∀ n : ℕ, n ≤ I.max → ∀ rest : List UInt8,
      (readVarIntFixed I.bits I.max).run (writeVarInt I.bits n ++ rest) = some (n, rest) ∧
        (writeVarInt I.bits n).length = getSizeOfVarInt n) ∧
    (∀ stream n rest, (readVarIntFixed I.bits I.max).run stream = some (n, rest) →
      writeVarInt I.bits n ++ rest = stream) ∧
    ∀ m, I.max < m → ∀ rest : List UInt8, (readVarIntFixed I.bits I.max).run (varIntBytes false m ++ rest) = none := by
  have fixed : ∀ stream, (readVarIntFixed I.bits I.max).run stream = (readVarInt I.max).run stream :=
    fun stream => readVarIntFromFixed_eq I.max_lt I.max_mod stream 0
  refine ⟨fun n small rest => ⟨?_, ?_⟩, fun stream n rest reads => ?_, fun m big rest => ?_⟩
  · rw [fixed, writeVarInt_eq I.bits n (by have := I.max_lt_tmp; omega) I.tmp_pos]
    exact readVarInt_varIntBytes I.max small rest
  · exact length_writeVarInt I.bits n (by have := I.max_lt_tmp; omega) I.tmp_pos
  · rw [fixed] at reads
    have bounded := readVarIntFrom_le I.max_mod stream 0 n rest reads
    rw [writeVarInt_eq I.bits n (by have := I.max_lt_tmp; omega) I.tmp_pos]
    exact readVarInt_canonical I.max stream n rest reads
  · rw [fixed]
    exact readVarInt_varIntBytes_of_lt I.max_mod big rest

/-! ### CompactSize -/

def MAX_SIZE : ℕ := 0x02000000

def writeCompactSize (nSize : ℕ) : List UInt8 :=
  if nSize < 253 then [UInt8.ofNat nSize]
  else if nSize ≤ 0xFFFF then 253 :: writeLE 2 nSize
  else if nSize ≤ 0xFFFFFFFF then 254 :: writeLE 4 nSize
  else 255 :: writeLE 8 nSize

theorem length_writeCompactSize_le (nSize : ℕ) :
    (writeCompactSize nSize).length ≤ if nSize < 253 then 1 else if nSize ≤ 0xFFFF then 3
      else if nSize ≤ 0xFFFFFFFF then 5 else 9 := by
  unfold writeCompactSize
  split_ifs <;> simp

/-- A little-endian word, rejected as non-canonical below `least`. -/
def readAtLeast (width least : ℕ) : Reader UInt8 ℕ := do
  let n ← readLE width
  if n < least then failure else pure n

/-- What follows the first byte `chSize` of a CompactSize. -/
def readCompactPayload (chSize : UInt8) : Reader UInt8 ℕ :=
  if chSize.toNat < 253 then pure chSize.toNat
  else if chSize.toNat = 253 then readAtLeast 2 253
  else if chSize.toNat = 254 then readAtLeast 4 0x10000
  else readAtLeast 8 0x100000000

def readCompactSize (rangeCheck : Bool) : Reader UInt8 ℕ := do
  let chSize ← readOne
  let nSizeRet ← readCompactPayload chSize
  if rangeCheck && MAX_SIZE < nSizeRet then failure else pure nSizeRet

theorem readAtLeast_roundTrips (width least : ℕ) :
    RoundTrips (writeLE width) (readAtLeast width least) (fun n => least ≤ n ∧ n < 256 ^ width) := by
  intro n ⟨above, fits⟩ rest
  simp [readAtLeast, readLE_roundTrips width n fits rest, show ¬ n < least by omega]

theorem readAtLeast_eq_some {width least : ℕ} {stream rest : List UInt8} {n : ℕ}
    (reads : (readAtLeast width least).run stream = some (n, rest)) :
    least ≤ n ∧ n < 256 ^ width ∧ writeLE width n ++ rest = stream := by
  simp only [readAtLeast, run_bind, Option.bind_eq_some_iff] at reads
  obtain ⟨⟨m, rest'⟩, readsWord, checked⟩ := reads
  split at checked
  · cases checked
  · rename_i above
    obtain ⟨rfl, rfl⟩ := Prod.mk.inj (Option.some.inj checked)
    exact ⟨by omega, readLE_lt readsWord, readLE_canonical width stream _ _ readsWord⟩

theorem readCompactSize_roundTrips (rangeCheck : Bool) :
    RoundTrips writeCompactSize (readCompactSize rangeCheck)
      (fun n => n < 256 ^ 8 ∧ (rangeCheck = true → n ≤ MAX_SIZE)) := by
  intro n ⟨fits, checked⟩ rest
  have inRange : ¬ (rangeCheck = true ∧ MAX_SIZE < n) := fun ⟨check, large⟩ => absurd (checked check) (by omega)
  unfold writeCompactSize
  split_ifs with one two four
  · have byte : (UInt8.ofNat n).toNat = n := by
      rw [toNat_byte]
      omega
    simp [readCompactSize, readCompactPayload, byte, one, inRange]
  · simp [readCompactSize, readCompactPayload, readAtLeast_roundTrips 2 253 n ⟨by omega, by norm_num; omega⟩ rest, inRange]
  · simp [readCompactSize, readCompactPayload, readAtLeast_roundTrips 4 0x10000 n ⟨by omega, by norm_num; omega⟩ rest, inRange]
  · simp [readCompactSize, readCompactPayload, readAtLeast_roundTrips 8 0x100000000 n ⟨by omega, fits⟩ rest, inRange]

theorem readCompactSize_canonical (rangeCheck : Bool) :
    Canonical writeCompactSize (readCompactSize rangeCheck) := by
  intro stream n rest reads
  match stream with
  | [] => simp [readCompactSize] at reads
  | chSize :: stream =>
    simp only [readCompactSize, run_bind, run_readOne_cons, Option.bind_some, Option.bind_eq_some_iff] at reads
    obtain ⟨⟨m, rest'⟩, readsSize, checked⟩ := reads
    have same : m = n ∧ rest' = rest := by
      split at checked
      · cases checked
      · exact Prod.mk.inj (Option.some.inj checked)
    obtain ⟨rfl, rfl⟩ := same
    have bounded := chSize.toNat_lt
    unfold readCompactPayload at readsSize
    split_ifs at readsSize with one two four
    · obtain ⟨rfl, rfl⟩ := Prod.mk.inj (Option.some.inj readsSize)
      have byte : UInt8.ofNat chSize.toNat = chSize := UInt8.ofNat_toNat
      simp [writeCompactSize, one, byte]
    · obtain ⟨above, fits, written⟩ := readAtLeast_eq_some readsSize
      have marker : chSize = 253 := UInt8.toNat_inj.mp two
      simp [writeCompactSize, show ¬ m < 253 by omega, show m ≤ 0xFFFF by omega, marker, written]
    · obtain ⟨above, fits, written⟩ := readAtLeast_eq_some readsSize
      have marker : chSize = 254 := UInt8.toNat_inj.mp four
      simp [writeCompactSize, show ¬ m < 253 by omega, show ¬ m ≤ 0xFFFF by omega,
        show m ≤ 0xFFFFFFFF by omega, marker, written]
    · obtain ⟨above, -, written⟩ := readAtLeast_eq_some readsSize
      have marker : chSize = 255 := by
        apply UInt8.toNat_inj.mp
        simp only [UInt8.toNat_ofNat] at bounded ⊢
        omega
      simp [writeCompactSize, show ¬ m < 253 by omega, show ¬ m ≤ 0xFFFF by omega,
        show ¬ m ≤ 0xFFFFFFFF by omega, marker, written]

/-- `GetSizeOfCompactSize`. -/
def getSizeOfCompactSize (nSize : ℕ) : ℕ :=
  if nSize < 253 then 1 else if nSize ≤ 0xFFFF then 3 else if nSize ≤ 0xFFFFFFFF then 5 else 9

theorem length_writeCompactSize (nSize : ℕ) : (writeCompactSize nSize).length = getSizeOfCompactSize nSize := by
  unfold writeCompactSize getSizeOfCompactSize
  split_ifs <;> simp

/-- With the range check a CompactSize past `MAX_SIZE` is read and then rejected. -/
theorem readCompactSize_true_of_lt {n : ℕ} (fits : n < 256 ^ 8) (large : MAX_SIZE < n) (rest : List UInt8) :
    (readCompactSize true).run (writeCompactSize n ++ rest) = none := by
  have read := readCompactSize_roundTrips false n ⟨fits, nofun⟩ rest
  simp only [readCompactSize, run_bind, Bool.false_and, Bool.false_eq_true, if_false, run_pure,
    Option.bind_eq_some_iff] at read
  obtain ⟨⟨chSize, afterSize⟩, readsSize, ⟨m, afterPayload⟩, readsPayload, same⟩ := read
  obtain ⟨rfl, rfl⟩ := Prod.mk.inj (Option.some.inj same)
  simp [readCompactSize, readsSize, readsPayload, large]

theorem compact_size_round_trip :
    (∀ (n : UInt64) (rest : List UInt8),
      (readCompactSize false).run (writeCompactSize n.toNat ++ rest) = some (n.toNat, rest) ∧
      (writeCompactSize n.toNat).length = getSizeOfCompactSize n.toNat ∧
      (readCompactSize true).run (writeCompactSize n.toNat ++ rest) =
        if n.toNat ≤ MAX_SIZE then some (n.toNat, rest) else none) ∧
    ∀ rangeCheck, Canonical writeCompactSize (readCompactSize rangeCheck) := by
  refine ⟨fun n rest => ⟨?_, length_writeCompactSize n.toNat, ?_⟩, readCompactSize_canonical⟩
  · exact readCompactSize_roundTrips false n.toNat ⟨by simpa using n.toNat_lt, nofun⟩ rest
  · have fits : n.toNat < 256 ^ 8 := by simpa using n.toNat_lt
    split_ifs with small
    · exact readCompactSize_roundTrips true n.toNat ⟨fits, fun _ => small⟩ rest
    · exact readCompactSize_true_of_lt fits (by omega) rest

/-! ### Vectors -/

/-- `std::vector<unsigned char>` and `CScript`: the size, then the bytes. -/
def writeBytes (bytes : List UInt8) : List UInt8 := writeCompactSize bytes.length ++ bytes

def readBytes : Reader UInt8 (List UInt8) := do
  let nSize ← readCompactSize true
  let bytes ← readExactly nSize
  pure bytes.val

/-- A vector of objects, through `VectorFormatter`: the size, then each element. -/
def writeVector {α : Type} (write : α → List UInt8) (v : List α) : List UInt8 :=
  writeCompactSize v.length ++ v.flatMap write

def readVector {α : Type} (read : Reader UInt8 α) : Reader UInt8 (List α) := do
  let size ← readCompactSize true
  readCount read size

theorem readBytes_roundTrips : RoundTrips writeBytes readBytes (·.length ≤ MAX_SIZE) := by
  intro bytes small rest
  have size := readCompactSize_roundTrips true bytes.length
    ⟨by unfold MAX_SIZE at small; omega, fun _ => small⟩ (bytes ++ rest)
  simp [readBytes, writeBytes, size, run_readExactly_append bytes rest rfl]

theorem readBytes_canonical : Canonical writeBytes readBytes := by
  intro stream bytes rest reads
  simp only [readBytes, run_bind, Option.bind_eq_some_iff, run_pure, Option.some.injEq] at reads
  obtain ⟨⟨n, middle⟩, readsSize, ⟨bytes', rest'⟩, readsBytes, same⟩ := reads
  obtain ⟨rfl, rfl⟩ := Prod.mk.inj same
  have written := run_readExactly_eq_some readsBytes
  rw [writeBytes, bytes'.property, List.append_assoc, written]
  exact readCompactSize_canonical true stream n middle readsSize

theorem readVector_roundTrips {α : Type} {write : α → List UInt8} {read : Reader UInt8 α}
    {admits : α → Prop} (trip : RoundTrips write read admits) :
    RoundTrips (writeVector write) (readVector read) fun v => v.length ≤ MAX_SIZE ∧ ∀ a ∈ v, admits a := by
  intro v ⟨small, admitted⟩ rest
  have size := readCompactSize_roundTrips true v.length
    ⟨by unfold MAX_SIZE at small; omega, fun _ => small⟩ (v.flatMap write ++ rest)
  simp [readVector, writeVector, size, readCount_roundTrips trip v admitted rest]

theorem readVector_canonical {α : Type} {write : α → List UInt8} {read : Reader UInt8 α}
    (canon : Canonical write read) : Canonical (writeVector write) (readVector read) := by
  intro stream v rest reads
  simp only [readVector, run_bind, Option.bind_eq_some_iff] at reads
  obtain ⟨⟨n, middle⟩, readsSize, readsElements⟩ := reads
  have elements := readCount_canonical canon n middle v rest readsElements
  have count : v.length = n := readCount_length readsElements
  rw [writeVector, List.append_assoc, elements, count]
  exact readCompactSize_canonical true stream n middle readsSize

/-- `OptionalPtr`: a byte saying whether the pointer is set, then the object. -/
def writeOptionalPtr {α : Type} (write : α → List UInt8) : Option α → List UInt8
  | some a => 1 :: write a
  | none => [0]

/-- Reading an `OptionalPtr` into a null pointer: the object after a 1; any other byte leaves it
null. -/
def readOptionalPtr {α : Type} (read : Reader UInt8 α) : Reader UInt8 (Option α) := do
  let is_set ← readOne
  if is_set = 1 then some <$> read else pure none

theorem readOptionalPtr_roundTrips {α : Type} {write : α → List UInt8} {read : Reader UInt8 α}
    {admits : α → Prop} (trip : RoundTrips write read admits) :
    RoundTrips (writeOptionalPtr write) (readOptionalPtr read) fun o => ∀ a ∈ o, admits a := by
  intro o admitted rest
  cases o with
  | none => simp [writeOptionalPtr, readOptionalPtr]
  | some a => simp [writeOptionalPtr, readOptionalPtr, trip a (admitted a rfl) rest]

end Pussycoin.Serialize
