import Mathlib

/-! The rolling bloom filter of `bloom.cpp`, with the `MurmurHash3` of `hash.cpp` it hashes with.
`CRollingBloomFilter` keeps a two-bit generation number for every cell, split over a pair of
64-bit words; each generation holds `nEntriesPerGeneration` inserts, and starting a generation
wipes the cells of the generation three back, whose number it reuses. What `bloom.h` promises
is proved here over every run of inserts and resets: a key stays contained for the next
`2 * nEntriesPerGeneration` inserts, whatever the hash. -/
namespace Pussycoin.Bloom

/-- `ROTL32`. -/
def rotl32 (x r : UInt32) : UInt32 := (x <<< r) ||| (x >>> (32 - r))

/-- `ReadLE32` of four bytes. -/
def readLE32 (b0 b1 b2 b3 : UInt8) : UInt32 :=
  b0.toUInt32 ||| b1.toUInt32 <<< 8 ||| b2.toUInt32 <<< 16 ||| b3.toUInt32 <<< 24

/-- The scrambling of a block `k1` in the body and in the tail of `MurmurHash3`. -/
def mixK1 (k1 : UInt32) : UInt32 := rotl32 (k1 * 0xcc9e2d51) 15 * 0x1b873593

/-- The body loop of `MurmurHash3` over the four-byte blocks; what is left is the tail. -/
def murmurBlocks (h1 : UInt32) : List UInt8 → UInt32 × List UInt8
  | b0 :: b1 :: b2 :: b3 :: rest => murmurBlocks (rotl32 (h1 ^^^ mixK1 (readLE32 b0 b1 b2 b3)) 13 * 5 + 0xe6546b64) rest
  | tail => (h1, tail)

/-- `MurmurHash3` (x86, 32-bit). -/
def murmurHash3 (nHashSeed : UInt32) (vDataToHash : List UInt8) : UInt32 :=
  let (h1, tail) := murmurBlocks nHashSeed vDataToHash
  -- the switch on the size falls through from the last byte of the tail to the first
  let h1 := match tail with
    | [t0, t1, t2] => h1 ^^^ mixK1 (t2.toUInt32 <<< 16 ^^^ t1.toUInt32 <<< 8 ^^^ t0.toUInt32)
    | [t0, t1] => h1 ^^^ mixK1 (t1.toUInt32 <<< 8 ^^^ t0.toUInt32)
    | [t0] => h1 ^^^ mixK1 t0.toUInt32
    | _ => h1
  let h1 := h1 ^^^ vDataToHash.length.toUInt32
  let h1 := h1 ^^^ h1 >>> 16
  let h1 := h1 * 0x85ebca6b
  let h1 := h1 ^^^ h1 >>> 13
  let h1 := h1 * 0xc2b2ae35
  h1 ^^^ h1 >>> 16

example : murmurHash3 0xFBA4C795 [] = 0x6a396f08 := by decide
example : murmurHash3 0 [0x00, 0x11, 0x22, 0x33, 0x44, 0x55, 0x66] = 0xb074502c := by decide

/-- `RollingBloomHash`. -/
def rollingBloomHash (nHashNum nTweak : UInt32) (vDataToHash : List UInt8) : UInt32 :=
  murmurHash3 (nHashNum * 0xFBA4C795 + nTweak) vDataToHash

/-- `FastMod`: `x` scaled into `0 .. n - 1` by its high bits. -/
def fastMod (x : UInt32) (n : ℕ) : UInt32 := ((x.toUInt64 * n.toUInt64) >>> 32).toUInt32

section Words

/-- Bit `b` of a word. -/
def bitAt (w : UInt64) (b : ℕ) : Bool := w.toBitVec.getLsbD b

theorem bitAt_eq_testBit (w : UInt64) (b : ℕ) : bitAt w b = w.toNat.testBit b := rfl

@[simp] theorem bitAt_and (w v : UInt64) (b : ℕ) : bitAt (w &&& v) b = (bitAt w b && bitAt v b) := by
  simp [bitAt]

@[simp] theorem bitAt_or (w v : UInt64) (b : ℕ) : bitAt (w ||| v) b = (bitAt w b || bitAt v b) := by
  simp [bitAt]

@[simp] theorem bitAt_xor (w v : UInt64) (b : ℕ) : bitAt (w ^^^ v) b = (bitAt w b ^^ bitAt v b) := by
  simp [bitAt]

@[simp] theorem bitAt_zero (b : ℕ) : bitAt 0 b = false := by
  simp [bitAt]

/-- `0 - x` for a bit `x` is the mask of all ones or of none. -/
theorem bitAt_mask {x b : ℕ} (one : x ≤ 1) (hb : b < 64) : bitAt ((0 : UInt64) - x.toUInt64) b = decide (x = 1) := by
  rcases Nat.le_one_iff_eq_zero_or_eq_one.1 one with rfl | rfl
  · simp [bitAt]
  · have ones : (0 : UInt64) - (1 : ℕ).toUInt64 = ~~~0 := by decide
    rw [ones]
    simp only [bitAt, UInt64.toBitVec_not, BitVec.getLsbD_not, UInt64.toBitVec_zero, BitVec.getLsbD_zero]
    simp [hb]

/-- Clearing bit `bit` of a word and or-ing in `x` there leaves the other bits. -/
theorem bitAt_write {w bit : UInt64} {x b : ℕ} (one : x ≤ 1) (hbit : bit.toNat < 64) (hb : b < 64) :
    bitAt ((w &&& ~~~((1 : UInt64) <<< bit)) ||| x.toUInt64 <<< bit) b =
      if b = bit.toNat then decide (x = 1) else bitAt w b := by
  split_ifs with here
  · subst here
    rcases Nat.le_one_iff_eq_zero_or_eq_one.1 one with rfl | rfl <;>
      simp [bitAt, Nat.mod_eq_of_lt hbit, hbit]
  · have apart : (decide (b < bit.toNat) || !decide (b - bit.toNat = 0)) = true := by
      rcases Nat.lt_or_gt_of_ne here with lt | gt
      · simp [lt]
      · simp only [Bool.or_eq_true, decide_eq_true_eq, Bool.not_eq_eq_eq_not, Bool.not_true,
          decide_eq_false_iff_not]
        omega
    rcases Nat.le_one_iff_eq_zero_or_eq_one.1 one with rfl | rfl
    · simp [bitAt, Nat.mod_eq_of_lt hbit, hb, apart]
    · simp [bitAt, Nat.mod_eq_of_lt hbit, hb, apart]
      intro _ _
      omega

/-- The test of `contains` reads one bit. -/
theorem shiftRight_and_one {x bit : UInt64} (hbit : bit.toNat < 64) : (x >>> bit &&& 1 != 0) = bitAt x bit.toNat := by
  have low : (x >>> bit &&& 1).toNat = 1 &&& x.toNat >>> bit.toNat := by
    rw [UInt64.toNat_and, UInt64.toNat_shiftRight, Nat.mod_eq_of_lt hbit, UInt64.toNat_one, Nat.land_comm]
  rw [bitAt_eq_testBit, Nat.testBit, Bool.eq_iff_iff, bne_iff_ne, bne_iff_ne, ne_eq, ne_eq,
    ← low, ← UInt64.toNat_inj, UInt64.toNat_zero]

/-- `pos & ~1`, the first word of the pair. -/
theorem toNat_and_not_one (pos : UInt32) : (pos &&& ~~~1).toNat = 2 * (pos.toNat / 2) := by
  have mask : (~~~1 : UInt32).toNat = (2 ^ 31 - 1) * 2 ^ 1 := by decide
  rw [UInt32.toNat_and, mask]
  apply Nat.eq_of_testBit_eq
  intro i
  have cleared : ((2 ^ 31 - 1) * 2 ^ 1).testBit i = (decide (1 ≤ i) && decide (i - 1 < 31)) := by
    rw [Nat.testBit_mul_two_pow, Nat.testBit_two_pow_sub_one]
  have halved : (2 * (pos.toNat / 2)).testBit i = (decide (1 ≤ i) && pos.toNat.testBit i) := by
    rw [show 2 * (pos.toNat / 2) = pos.toNat / 2 * 2 ^ 1 by ring, Nat.testBit_mul_two_pow, Nat.testBit_div_two]
    rcases i with _ | i <;> simp
  rw [Nat.testBit_and, cleared, halved]
  by_cases big : 32 ≤ i
  · rw [Nat.testBit_lt_two_pow (lt_of_lt_of_le pos.toNat_lt (Nat.pow_le_pow_right (by norm_num) big))]
    simp
  · rcases i with _ | i
    · simp
    · simp only [le_add_iff_nonneg_left, zero_le, decide_true, Bool.true_and, add_tsub_cancel_right]
      rw [decide_eq_true (by omega), Bool.and_true]

/-- `pos | 1`, the second word of the pair. -/
theorem toNat_or_one (pos : UInt32) : (pos ||| 1).toNat = 2 * (pos.toNat / 2) + 1 := by
  rw [UInt32.toNat_or]
  apply Nat.eq_of_testBit_eq
  intro i
  rw [Nat.testBit_or]
  rcases i with _ | i
  · simp [Nat.testBit_zero]
  · rw [Nat.testBit_succ, Nat.testBit_succ, Nat.testBit_succ,
      show (2 * (pos.toNat / 2) + 1) / 2 = pos.toNat / 2 by omega]
    simp

/-- `FastMod` lands below `n`: the 64-bit product does not wrap. -/
theorem fastMod_lt {n : ℕ} (x : UInt32) (positive : 0 < n) (small : n < 2 ^ 32) : (fastMod x n).toNat < n := by
  have product : x.toNat * n < 2 ^ 64 :=
    calc x.toNat * n < 2 ^ 32 * 2 ^ 32 := Nat.mul_lt_mul'' x.toNat_lt small
      _ = 2 ^ 64 := by norm_num
  have scaled : x.toNat * n / 2 ^ 32 < n := by
    rw [Nat.div_lt_iff_lt_mul (by norm_num), mul_comm n]
    exact Nat.mul_lt_mul_of_pos_right x.toNat_lt positive
  simp only [fastMod, Nat.toUInt64_eq, UInt64.toNat_toUInt32, UInt64.toNat_shiftRight, UInt64.toNat_mul,
    UInt32.toNat_toUInt64, UInt64.toNat_ofNat', UInt64.reduceToNat, Nat.shiftRight_eq_div_pow, Nat.reduceMod,
    Nat.reducePow]
  rw [Nat.mod_eq_of_lt (show n < 18446744073709551616 by omega),
    Nat.mod_eq_of_lt (show x.toNat * n < 18446744073709551616 from product),
    Nat.mod_eq_of_lt (show x.toNat * n / 4294967296 < 4294967296 by omega)]
  exact scaled

end Words

/-- The fields of `CRollingBloomFilter`. Its `int` counters are natural numbers here. -/
structure CRollingBloomFilter where
  nEntriesPerGeneration : ℕ
  nEntriesThisGeneration : ℕ
  nGeneration : ℕ
  data : List UInt64
  nTweak : UInt32
  nHashFuncs : ℕ

/-- The loop of `insert` that wipes the cells holding the new generation number: over the pairs
of words, a bit stays set where either word differs from its mask. -/
def wipe (nGenerationMask1 nGenerationMask2 : UInt64) : List UInt64 → List UInt64
  | p1 :: p2 :: rest =>
    let mask := (p1 ^^^ nGenerationMask1) ||| (p2 ^^^ nGenerationMask2)
    (p1 &&& mask) :: (p2 &&& mask) :: wipe nGenerationMask1 nGenerationMask2 rest
  | rest => rest

/-- The two writes of `insert` for one hash: bit `bit` of the pair of words at `pos` takes the
two bits of `nGeneration`. -/
def writeCell (data : List UInt64) (pos : UInt32) (bit : UInt64) (nGeneration : ℕ) : List UInt64 :=
  let lo := (pos &&& ~~~1).toNat
  let hi := (pos ||| 1).toNat
  let data := data.set lo ((data.getD lo 0 &&& ~~~((1 : UInt64) <<< bit)) ||| (nGeneration &&& 1).toUInt64 <<< bit)
  data.set hi ((data.getD hi 0 &&& ~~~((1 : UInt64) <<< bit)) ||| (nGeneration >>> 1).toUInt64 <<< bit)

section Cells

/-- The generation number a cell holds: its bit `b` in the first word of pair `q`, and twice its
bit in the second; `0` is unset. -/
def cellGen (data : List UInt64) (q b : ℕ) : ℕ :=
  (bitAt (data.getD (2 * q) 0) b).toNat + 2 * (bitAt (data.getD (2 * q + 1) 0) b).toNat

theorem getD_set {l : List UInt64} {i j : ℕ} {a : UInt64} :
    (l.set i a).getD j 0 = if i = j ∧ i < l.length then a else l.getD j 0 := by
  rw [List.getD_eq_getElem?_getD, List.getElem?_set, List.getD_eq_getElem?_getD]
  by_cases same : i = j
  · subst same
    by_cases inside : i < l.length
    · simp [inside]
    · simp [inside]
  · simp [same]

/-- The wipe of generation `g` on the two bits of one cell. -/
theorem wipe_bits (lo hi : Bool) {g : ℕ} (generation : 1 ≤ g ∧ g ≤ 3) :
    (lo && ((lo ^^ decide (g &&& 1 = 1)) || (hi ^^ decide (g >>> 1 = 1)))).toNat +
        2 * (hi && ((lo ^^ decide (g &&& 1 = 1)) || (hi ^^ decide (g >>> 1 = 1)))).toNat =
      if lo.toNat + 2 * hi.toNat = g then 0 else lo.toNat + 2 * hi.toNat := by
  obtain rfl | rfl | rfl : g = 1 ∨ g = 2 ∨ g = 3 := by omega
  all_goals cases lo <;> cases hi <;> decide

/-- The two bits `insert` writes for generation `g` read back as `g`. -/
theorem write_bits {g : ℕ} (small : g ≤ 3) : (decide (g &&& 1 = 1)).toNat + 2 * (decide (g >>> 1 = 1)).toNat = g := by
  obtain rfl | rfl | rfl | rfl : g = 0 ∨ g = 1 ∨ g = 2 ∨ g = 3 := by omega
  all_goals decide

theorem test_bits (lo hi : Bool) : (lo || hi) = decide (lo.toNat + 2 * hi.toNat ≠ 0) := by
  cases lo <;> cases hi <;> decide

@[simp] theorem length_wipe (m1 m2 : UInt64) (data : List UInt64) : (wipe m1 m2 data).length = data.length := by
  fun_induction wipe m1 m2 data with
  | case1 p1 p2 rest mask ih => simp [ih]
  | case2 rest => rfl

/-- The wipe reads and writes the words of each pair together. -/
theorem wipe_pair (m1 m2 : UInt64) : ∀ (q : ℕ) (data : List UInt64), 2 * q + 1 < data.length →
    (wipe m1 m2 data).getD (2 * q) 0 =
        (data.getD (2 * q) 0 &&& ((data.getD (2 * q) 0 ^^^ m1) ||| (data.getD (2 * q + 1) 0 ^^^ m2))) ∧
      (wipe m1 m2 data).getD (2 * q + 1) 0 =
        (data.getD (2 * q + 1) 0 &&& ((data.getD (2 * q) 0 ^^^ m1) ||| (data.getD (2 * q + 1) 0 ^^^ m2))) := by
  intro q
  induction q with
  | zero =>
    rintro (_ | ⟨p1, _ | ⟨p2, rest⟩⟩) long
    · simp at long
    · simp at long
    · simp [wipe]
  | succ q ih =>
    rintro (_ | ⟨p1, _ | ⟨p2, rest⟩⟩) long
    · simp at long
    · simp at long
    · have later := ih rest (by simp at long; omega)
      simpa only [wipe, show 2 * (q + 1) = 2 * q + 1 + 1 by ring, show 2 * q + 1 + 1 + 1 = 2 * q + 1 + 1 + 1 from rfl,
        List.getD_cons_succ] using later

/-- Starting generation `g` clears exactly the cells that hold `g`. -/
theorem cellGen_wipe {g q b : ℕ} {data : List UInt64} (generation : 1 ≤ g ∧ g ≤ 3) (pair : 2 * q + 1 < data.length)
    (hb : b < 64) :
    cellGen (wipe ((0 : UInt64) - (g &&& 1).toUInt64) ((0 : UInt64) - (g >>> 1).toUInt64) data) q b =
      if cellGen data q b = g then 0 else cellGen data q b := by
  obtain ⟨first, second⟩ := wipe_pair ((0 : UInt64) - (g &&& 1).toUInt64) ((0 : UInt64) - (g >>> 1).toUInt64) q data pair
  have low : g &&& 1 ≤ 1 := Nat.and_le_right
  have high : g >>> 1 ≤ 1 := by
    rw [Nat.shiftRight_eq_div_pow]
    omega
  simp only [cellGen, first, second, bitAt_and, bitAt_or, bitAt_xor, bitAt_mask low hb, bitAt_mask high hb]
  exact wipe_bits _ _ generation

@[simp] theorem length_writeCell (data : List UInt64) (pos : UInt32) (bit : UInt64) (g : ℕ) :
    (writeCell data pos bit g).length = data.length := by
  simp [writeCell]

/-- The words `insert` writes for one hash: the pair at `pos`, and no other. -/
theorem getD_writeCell {data : List UInt64} {pos : UInt32} {bit : UInt64} {g : ℕ}
    (pair : 2 * (pos.toNat / 2) + 1 < data.length) (i : ℕ) :
    (writeCell data pos bit g).getD i 0 =
      if i = 2 * (pos.toNat / 2) then (data.getD i 0 &&& ~~~((1 : UInt64) <<< bit)) ||| (g &&& 1).toUInt64 <<< bit
      else if i = 2 * (pos.toNat / 2) + 1 then
        (data.getD i 0 &&& ~~~((1 : UInt64) <<< bit)) ||| (g >>> 1).toUInt64 <<< bit
      else data.getD i 0 := by
  simp only [writeCell, toNat_and_not_one, toNat_or_one, getD_set, List.length_set]
  by_cases first : i = 2 * (pos.toNat / 2)
  · subst first
    simp [show 2 * (pos.toNat / 2) < data.length by omega]
  · by_cases second : i = 2 * (pos.toNat / 2) + 1
    · subst second
      simp [pair]
    · simp [first, second, Ne.symm first, Ne.symm second]

/-- Writing generation `g` into the cell at `pos` and `bit` changes that cell alone. -/
theorem cellGen_writeCell {data : List UInt64} {pos : UInt32} {bit : UInt64} {g q b : ℕ} (even : Even data.length)
    (inside : pos.toNat < data.length) (hbit : bit.toNat < 64) (hb : b < 64) (small : g ≤ 3) :
    cellGen (writeCell data pos bit g) q b = if q = pos.toNat / 2 ∧ b = bit.toNat then g else cellGen data q b := by
  have low : g &&& 1 ≤ 1 := Nat.and_le_right
  have high : g >>> 1 ≤ 1 := by
    rw [Nat.shiftRight_eq_div_pow]
    omega
  obtain ⟨half, halves⟩ := even
  have pair : 2 * (pos.toNat / 2) + 1 < data.length := by omega
  simp only [cellGen, getD_writeCell pair]
  by_cases here : q = pos.toNat / 2
  · subst here
    simp only [if_true, show 2 * (pos.toNat / 2) + 1 ≠ 2 * (pos.toNat / 2) by omega, if_false,
      bitAt_write low hbit hb, bitAt_write high hbit hb, true_and]
    split_ifs with same
    · exact write_bits small
    · rfl
  · simp only [here, false_and, if_false, show 2 * q ≠ 2 * (pos.toNat / 2) by omega,
      show 2 * q ≠ 2 * (pos.toNat / 2) + 1 by omega, show 2 * q + 1 ≠ 2 * (pos.toNat / 2) by omega,
      show 2 * q + 1 ≠ 2 * (pos.toNat / 2) + 1 by omega]

/-- The test of `contains` at `pos` and `bit` is whether the cell is set. -/
theorem test_eq_cellGen {data : List UInt64} {pos : UInt32} {bit : UInt64} (hbit : bit.toNat < 64) :
    ((data.getD (pos &&& ~~~1).toNat 0 ||| data.getD (pos ||| 1).toNat 0) >>> bit &&& 1 != 0) =
      decide (cellGen data (pos.toNat / 2) bit.toNat ≠ 0) := by
  rw [shiftRight_and_one hbit, bitAt_or, toNat_and_not_one, toNat_or_one, cellGen, test_bits]

end Cells

namespace CRollingBloomFilter

/-- `reset()`, with the tweak `GetRand` draws. -/
def reset (f : CRollingBloomFilter) (nTweak : UInt32) : CRollingBloomFilter :=
  { f with nTweak, nEntriesThisGeneration := 0, nGeneration := 1, data := List.replicate f.data.length 0 }

/-- The constructor, given the number of hash functions and of filter bits that it computes in
floating point from the false-positive rate, and the tweak its `reset()` draws. -/
def create (nElements : UInt32) (nHashFuncs : ℕ) (nFilterBits nTweak : UInt32) : CRollingBloomFilter :=
  reset { nEntriesPerGeneration := ((nElements + 1) / 2).toNat, nEntriesThisGeneration := 0, nGeneration := 1,
          data := List.replicate (((nFilterBits + 63) / 64) <<< 1).toNat 0, nTweak := 0, nHashFuncs } nTweak

/-- The start of a generation in `insert`: the next generation number, from 3 back to 1, and
the wipe of the cells that hold it. -/
def nextGeneration (f : CRollingBloomFilter) : CRollingBloomFilter :=
  let nGeneration := if f.nGeneration + 1 = 4 then 1 else f.nGeneration + 1
  let nGenerationMask1 := (0 : UInt64) - (nGeneration &&& 1).toUInt64
  let nGenerationMask2 := (0 : UInt64) - (nGeneration >>> 1).toUInt64
  { f with nEntriesThisGeneration := 0, nGeneration, data := wipe nGenerationMask1 nGenerationMask2 f.data }

/-- The loop of `insert` over the hash functions: each writes the generation into its cell of
the key. -/
def writeKey (nHashFuncs : ℕ) (nTweak : UInt32) (nGeneration : ℕ) (vKey : List UInt8) (data : List UInt64) :
    List UInt64 :=
  (List.range nHashFuncs).foldl (fun data n =>
    let h := rollingBloomHash n.toUInt32 nTweak vKey
    writeCell data (fastMod h data.length) (h &&& 0x3F).toUInt64 nGeneration) data

/-- `insert`. -/
def insert (f : CRollingBloomFilter) (vKey : List UInt8) : CRollingBloomFilter :=
  let f := if f.nEntriesThisGeneration = f.nEntriesPerGeneration then f.nextGeneration else f
  { f with
    nEntriesThisGeneration := f.nEntriesThisGeneration + 1
    data := writeKey f.nHashFuncs f.nTweak f.nGeneration vKey f.data }

/-- `contains`: every hash of the key finds its cell set in some generation. -/
def contains (f : CRollingBloomFilter) (vKey : List UInt8) : Bool :=
  (List.range f.nHashFuncs).all fun n =>
    let h := rollingBloomHash n.toUInt32 f.nTweak vKey
    let bit := (h &&& 0x3F).toUInt64
    let pos := fastMod h f.data.length
    (f.data.getD (pos &&& ~~~1).toNat 0 ||| f.data.getD (pos ||| 1).toNat 0) >>> bit &&& 1 != 0

/-- What the filter's owners do with it. -/
inductive Action
  | insert (vKey : List UInt8)
  | reset (nTweak : UInt32)

def step (f : CRollingBloomFilter) : Action → CRollingBloomFilter
  | .insert vKey => f.insert vKey
  | .reset nTweak => f.reset nTweak

/-- A number of words the filter can index with 32-bit positions, in pairs. -/
def Fits (L : ℕ) : Prop := 0 < L ∧ L < 2 ^ 32 ∧ Even L

/-- The cell that hash `n` of a key picks in a filter of `size` words with tweak `nTweak`. -/
def cellOf (nTweak : UInt32) (size : ℕ) (vKey : List UInt8) (n : ℕ) : ℕ × ℕ :=
  let h := rollingBloomHash n.toUInt32 nTweak vKey
  ((fastMod h size).toNat / 2, (h &&& 0x3F).toUInt64.toNat)

theorem bit_lt (h : UInt32) : (h &&& 0x3F).toUInt64.toNat < 64 := by
  have below : h.toNat &&& 63 ≤ 63 := Nat.and_le_right
  simp only [UInt32.toNat_toUInt64, UInt32.toNat_and]
  exact Nat.lt_succ_of_le below

/-- A key's cells lie in the filter. -/
theorem cellOf_inside {L : ℕ} (fits : Fits L) (nTweak : UInt32) (vKey : List UInt8) (n : ℕ) :
    2 * (cellOf nTweak L vKey n).1 + 1 < L ∧ (cellOf nTweak L vKey n).2 < 64 := by
  obtain ⟨positive, small, half, halves⟩ := fits
  have inside := fastMod_lt (rollingBloomHash n.toUInt32 nTweak vKey) positive small
  exact ⟨by simp only [cellOf]; omega, bit_lt _⟩

/-- The hash loop of `insert` sets the key's cells to the generation and leaves the others. -/
theorem cellGen_writeKey {nTweak : UInt32} {g : ℕ} {vKey : List UInt8} (small : g ≤ 3) :
    ∀ (ns : List ℕ) (data : List UInt64), Fits data.length →
      let written := ns.foldl (fun data n =>
        let h := rollingBloomHash n.toUInt32 nTweak vKey
        writeCell data (fastMod h data.length) (h &&& 0x3F).toUInt64 g) data
      written.length = data.length ∧ ∀ q b, b < 64 →
        cellGen written q b = if (q, b) ∈ ns.map (cellOf nTweak data.length vKey) then g else cellGen data q b := by
  intro ns
  induction ns with
  | nil => exact fun data _ => ⟨rfl, fun q b _ => by simp⟩
  | cons n rest ih =>
    intro data fits
    obtain ⟨positive, sizeSmall, even⟩ := fits
    have inside := fastMod_lt (rollingBloomHash n.toUInt32 nTweak vKey) positive sizeSmall
    have once : (writeCell data (fastMod (rollingBloomHash n.toUInt32 nTweak vKey) data.length)
        (rollingBloomHash n.toUInt32 nTweak vKey &&& 0x3F).toUInt64 g).length = data.length :=
      length_writeCell _ _ _ _
    obtain ⟨length, later⟩ := ih _ (by rw [once]; exact ⟨positive, sizeSmall, even⟩)
    refine ⟨length.trans once, fun q b hb => ?_⟩
    rw [List.foldl_cons, later q b hb, once, cellGen_writeCell even inside (bit_lt _) hb small, List.map_cons]
    have which : (q, b) = cellOf nTweak data.length vKey n ↔
        q = (fastMod (rollingBloomHash n.toUInt32 nTweak vKey) data.length).toNat / 2 ∧
          b = (rollingBloomHash n.toUInt32 nTweak vKey &&& 0x3F).toUInt64.toNat := Prod.ext_iff
    by_cases older : (q, b) ∈ rest.map (cellOf nTweak data.length vKey)
    · rw [if_pos older, if_pos (List.mem_cons_of_mem _ older)]
    · rw [if_neg older]
      by_cases mine : (q, b) = cellOf nTweak data.length vKey n
      · rw [if_pos (which.1 mine), if_pos (mine ▸ List.mem_cons_self)]
      · rw [if_neg (fun m => mine (which.2 m)), if_neg (fun m => (List.mem_cons.1 m).elim mine older)]

section Runs

variable {P L : ℕ} {f : CRollingBloomFilter}

/-- What every state of a filter keeps: its sizes, a generation number from 1 to 3, and no more
entries in the generation than it holds. -/
structure WellFormed (P L : ℕ) (f : CRollingBloomFilter) : Prop where
  perGeneration : f.nEntriesPerGeneration = P
  size : f.data.length = L
  generation : 1 ≤ f.nGeneration ∧ f.nGeneration ≤ 3
  entries : 0 < P → f.nEntriesThisGeneration ≤ P

/-- The generation number `e` generations after `g₀`. -/
def genAfter (g₀ e : ℕ) : ℕ := (g₀ - 1 + e) % 3 + 1

theorem genAfter_succ {g₀ : ℕ} (generation : 1 ≤ g₀ ∧ g₀ ≤ 3) (s : ℕ) :
    (if genAfter g₀ s + 1 = 4 then 1 else genAfter g₀ s + 1) = genAfter g₀ (s + 1) := by
  unfold genAfter
  split_ifs <;> omega

/-- Two generations less than three apart have different numbers. -/
theorem genAfter_ne {g₀ e e' : ℕ} (before : e < e') (near : e' ≤ e + 2) : genAfter g₀ e ≠ genAfter g₀ e' := by
  unfold genAfter
  omega

theorem insert_of_same (same : f.nEntriesThisGeneration ≠ f.nEntriesPerGeneration) (vKey : List UInt8) :
    f.insert vKey =
      { f with
        nEntriesThisGeneration := f.nEntriesThisGeneration + 1
        data := writeKey f.nHashFuncs f.nTweak f.nGeneration vKey f.data } := by
  rw [insert, if_neg same]

theorem insert_of_switch (switch : f.nEntriesThisGeneration = f.nEntriesPerGeneration) (vKey : List UInt8) :
    f.insert vKey =
      { f.nextGeneration with
        nEntriesThisGeneration := 1
        data := writeKey f.nHashFuncs f.nTweak f.nextGeneration.nGeneration vKey f.nextGeneration.data } := by
  rw [insert, if_pos switch]
  rfl

@[simp] theorem length_writeKey (nHashFuncs : ℕ) (nTweak : UInt32) (g : ℕ) (vKey : List UInt8) (data : List UInt64) :
    (writeKey nHashFuncs nTweak g vKey data).length = data.length := by
  unfold writeKey
  generalize List.range nHashFuncs = ns
  induction ns generalizing data with
  | nil => rfl
  | cons n rest ih => rw [List.foldl_cons, ih, length_writeCell]

/-- The cells of a key in a filter. -/
def keyCells (f : CRollingBloomFilter) (vKey : List UInt8) : List (ℕ × ℕ) :=
  (List.range f.nHashFuncs).map (cellOf f.nTweak f.data.length vKey)

/-- The hash loop of `insert` on words of the filter's size. -/
theorem cellGen_writeKey_of {data : List UInt64} (fits : Fits f.data.length) (sameSize : data.length = f.data.length)
    (vKey : List UInt8) {g q b : ℕ} (hb : b < 64) (small : g ≤ 3) :
    cellGen (writeKey f.nHashFuncs f.nTweak g vKey data) q b =
      if (q, b) ∈ f.keyCells vKey then g else cellGen data q b := by
  have cells := (@cellGen_writeKey f.nTweak g vKey small (List.range f.nHashFuncs) data (sameSize ▸ fits)).2 q b hb
  rw [sameSize] at cells
  exact cells

@[simp] theorem nTweak_insert (vKey : List UInt8) : (f.insert vKey).nTweak = f.nTweak := by
  unfold insert
  split <;> rfl

@[simp] theorem nHashFuncs_insert (vKey : List UInt8) : (f.insert vKey).nHashFuncs = f.nHashFuncs := by
  unfold insert
  split <;> rfl

@[simp] theorem length_nextGeneration : f.nextGeneration.data.length = f.data.length := by
  simp [nextGeneration]

theorem data_nextGeneration : f.nextGeneration.data =
    wipe ((0 : UInt64) - (f.nextGeneration.nGeneration &&& 1).toUInt64)
      ((0 : UInt64) - (f.nextGeneration.nGeneration >>> 1).toUInt64) f.data := rfl

theorem nEntriesThisGeneration_insert (vKey : List UInt8) : (f.insert vKey).nEntriesThisGeneration =
    if f.nEntriesThisGeneration = f.nEntriesPerGeneration then 1 else f.nEntriesThisGeneration + 1 := by
  unfold insert
  split <;> rfl

@[simp] theorem length_insert (vKey : List UInt8) : (f.insert vKey).data.length = f.data.length := by
  unfold insert
  split <;> simp

theorem keyCells_insert (vKey key : List UInt8) : (f.insert vKey).keyCells key = f.keyCells key := by
  simp [keyCells]

theorem keyCells_inside (fits : Fits f.data.length) (vKey : List UInt8) :
    ∀ c ∈ f.keyCells vKey, 2 * c.1 + 1 < f.data.length ∧ c.2 < 64 := by
  intro c member
  obtain ⟨n, -, rfl⟩ := List.mem_map.1 member
  exact cellOf_inside fits f.nTweak vKey n

theorem keyCells_foldl_insert (key : List UInt8) (after : List (List UInt8)) :
    (after.foldl insert f).keyCells key = f.keyCells key := by
  induction after generalizing f with
  | nil => rfl
  | cons vKey rest ih => rw [List.foldl_cons, ih, keyCells_insert]

/-- `contains` finds a key whose cells all hold some generation. -/
theorem contains_of_cellGen (vKey : List UInt8) (set : ∀ c ∈ f.keyCells vKey, cellGen f.data c.1 c.2 ≠ 0) :
    f.contains vKey = true := by
  unfold contains
  rw [List.all_eq_true]
  intro n member
  have cell := set _ (List.mem_map_of_mem member)
  dsimp only
  rw [test_eq_cellGen (bit_lt _)]
  exact decide_eq_true cell

theorem WellFormed.insert (wf : WellFormed P L f) (vKey : List UInt8) : WellFormed P L (f.insert vKey) := by
  by_cases switch : f.nEntriesThisGeneration = f.nEntriesPerGeneration
  · rw [insert_of_switch switch]
    refine ⟨wf.perGeneration, by simp [wf.size], ?_, fun positive => ?_⟩
    · have := wf.generation
      simp only [nextGeneration]
      split_ifs <;> omega
    · exact positive
  · rw [insert_of_same switch]
    refine ⟨wf.perGeneration, by simp [wf.size], wf.generation, fun positive => ?_⟩
    have := wf.entries positive
    rw [wf.perGeneration] at switch
    exact Nat.succ_le_of_lt (lt_of_le_of_ne this switch)

theorem WellFormed.reset (wf : WellFormed P L f) (nTweak : UInt32) : WellFormed P L (f.reset nTweak) :=
  ⟨wf.perGeneration, by simp [CRollingBloomFilter.reset, wf.size], by simp [CRollingBloomFilter.reset],
    fun _ => Nat.zero_le _⟩

/-- The constructor's sizes: `(nElements + 1) / 2` entries a generation, and the words of
`data.resize(((nFilterBits + 63) / 64) << 1)`. -/
theorem WellFormed.create (nElements : UInt32) (nHashFuncs : ℕ) (nFilterBits nTweak : UInt32) :
    WellFormed ((nElements + 1) / 2).toNat (((nFilterBits + 63) / 64) <<< 1).toNat
      (create nElements nHashFuncs nFilterBits nTweak) :=
  ⟨rfl, by simp [CRollingBloomFilter.create, CRollingBloomFilter.reset], by simp [CRollingBloomFilter.create,
    CRollingBloomFilter.reset], fun _ => Nat.zero_le _⟩

/-- The constructor's size is a number of word pairs. -/
theorem fits_create {nFilterBits : UInt32} (sized : 0 < (((nFilterBits + 63) / 64) <<< 1).toNat) :
    Fits (((nFilterBits + 63) / 64) <<< 1).toNat := by
  refine ⟨sized, UInt32.toNat_lt _, ?_⟩
  rw [UInt32.toNat_shiftLeft, Nat.even_iff]
  simp only [UInt32.reduceToNat, Nat.reduceMod, Nat.shiftLeft_eq, pow_one]
  omega

theorem WellFormed.run (wf : WellFormed P L f) : ∀ actions : List Action, WellFormed P L (actions.foldl step f) := by
  intro actions
  induction actions generalizing f with
  | nil => exact wf
  | cons action rest ih =>
    cases action with
    | insert vKey => exact ih (wf.insert vKey)
    | reset nTweak => exact ih (wf.reset nTweak)

/-- The cells of a key inserted `s` generations ago, when the generation number was `g₀`, each
hold the number of one generation since. -/
def Kept (g₀ s : ℕ) (cells : List (ℕ × ℕ)) (f : CRollingBloomFilter) : Prop :=
  f.nGeneration = genAfter g₀ s ∧ ∀ c ∈ cells, ∃ e ≤ s, cellGen f.data c.1 c.2 = genAfter g₀ e

section Kept

variable {g₀ s : ℕ} {cells : List (ℕ × ℕ)}
variable (fits : Fits L) (inside : ∀ c ∈ cells, 2 * c.1 + 1 < L ∧ c.2 < 64)
include fits inside

/-- An insert within the generation writes the current number, which is one since. -/
theorem Kept.insert_same (wf : WellFormed P L f) (kept : Kept g₀ s cells f)
    (same : f.nEntriesThisGeneration ≠ f.nEntriesPerGeneration) (vKey : List UInt8) :
    Kept g₀ s cells (f.insert vKey) := by
  obtain ⟨current, old⟩ := kept
  rw [CRollingBloomFilter.insert_of_same same]
  refine ⟨current, fun c member => ?_⟩
  have cell := cellGen_writeKey_of (wf.size ▸ fits) rfl vKey (q := c.1) (inside c member).2 (wf.generation.2)
  dsimp only
  rw [cell]
  split_ifs
  · exact ⟨s, le_rfl, current⟩
  · exact old c member

/-- An insert that starts a generation wipes only the number three generations back, which no
cell of the key holds while fewer than three generations have started since. -/
theorem Kept.insert_switch (wf : WellFormed P L f) (generation : 1 ≤ g₀ ∧ g₀ ≤ 3) (kept : Kept g₀ s cells f)
    (switch : f.nEntriesThisGeneration = f.nEntriesPerGeneration) (room : s + 1 ≤ 2) (vKey : List UInt8) :
    Kept g₀ (s + 1) cells (f.insert vKey) := by
  obtain ⟨current, old⟩ := kept
  have next : f.nextGeneration.nGeneration = genAfter g₀ (s + 1) := by
    rw [← genAfter_succ generation, ← current]
    rfl
  have nextRange : 1 ≤ f.nextGeneration.nGeneration ∧ f.nextGeneration.nGeneration ≤ 3 := by
    rw [next]
    unfold genAfter
    omega
  rw [CRollingBloomFilter.insert_of_switch switch]
  refine ⟨next, fun c member => ?_⟩
  have cell := cellGen_writeKey_of (wf.size ▸ fits) length_nextGeneration vKey (q := c.1)
    (inside c member).2 nextRange.2
  dsimp only
  rw [cell]
  split_ifs
  · exact ⟨s + 1, le_rfl, next⟩
  · obtain ⟨e, early, held⟩ := old c member
    have wiped := cellGen_wipe (q := c.1) nextRange (by rw [wf.size]; exact (inside c member).1) (inside c member).2
    refine ⟨e, by omega, ?_⟩
    rw [data_nextGeneration, wiped, held, next, if_neg (genAfter_ne (by omega) (by omega))]

end Kept

/-- Right after its insert, a key's cells hold the current generation number. -/
theorem kept_own (wf : WellFormed P L f) (fits : Fits L) (vKey : List UInt8) :
    Kept (f.insert vKey).nGeneration 0 (f.keyCells vKey) (f.insert vKey) := by
  have sized : Fits f.data.length := wf.size ▸ fits
  have range := (wf.insert vKey).generation
  have zero : genAfter (f.insert vKey).nGeneration 0 = (f.insert vKey).nGeneration := by
    unfold genAfter
    omega
  refine ⟨zero.symm, fun c member => ⟨0, le_rfl, ?_⟩⟩
  have hb := (keyCells_inside sized vKey c member).2
  rw [zero]
  -- either way the key is written with the generation the insert ends in
  by_cases switch : f.nEntriesThisGeneration = f.nEntriesPerGeneration
  · rw [insert_of_switch switch] at range ⊢
    exact (cellGen_writeKey_of sized length_nextGeneration vKey hb range.2).trans (if_pos member)
  · rw [insert_of_same switch] at range ⊢
    exact (cellGen_writeKey_of sized rfl vKey hb range.2).trans (if_pos member)

/-- The inserts after a key's own: while the generations started since, counted in entries,
leave the third unfinished, its cells keep a generation number. -/
theorem kept_run {g₀ : ℕ} {cells : List (ℕ × ℕ)} (fits : Fits L) (inside : ∀ c ∈ cells, 2 * c.1 + 1 < L ∧ c.2 < 64)
    (generation : 1 ≤ g₀ ∧ g₀ ≤ 3) (after : List (List UInt8)) :
    ∀ (f : CRollingBloomFilter) (s : ℕ), WellFormed P L f → Kept g₀ s cells f → 1 ≤ f.nEntriesThisGeneration →
      (after ≠ [] → s * P + f.nEntriesThisGeneration + after.length ≤ 3 * P ∨ P = 0) →
      ∃ s', Kept g₀ s' cells (after.foldl insert f) := by
  induction after with
  | nil => exact fun f s _ kept _ _ => ⟨s, kept⟩
  | cons vKey rest ih =>
    intro f s wf kept counted budget
    have spent := budget (List.cons_ne_nil _ _)
    rw [List.length_cons] at spent
    rw [List.foldl_cons]
    by_cases switch : f.nEntriesThisGeneration = f.nEntriesPerGeneration
    · -- a generation starts, which the budget allows only below the third
      have full : f.nEntriesThisGeneration = P := switch.trans wf.perGeneration
      have positive : 0 < P := by omega
      have room : s + 1 < 3 := by
        refine Nat.lt_of_mul_lt_mul_right (a := P) ?_
        rw [Nat.succ_mul]
        omega
      refine ih _ (s + 1) (wf.insert vKey) (kept.insert_switch fits inside wf generation switch (by omega) vKey)
        (by rw [nEntriesThisGeneration_insert, if_pos switch]) fun _ => ?_
      rw [nEntriesThisGeneration_insert, if_pos switch, Nat.succ_mul]
      omega
    · refine ih _ s (wf.insert vKey) (kept.insert_same fits inside wf switch vKey)
        (by rw [nEntriesThisGeneration_insert, if_neg switch]; omega) fun _ => ?_
      rw [nEntriesThisGeneration_insert, if_neg switch]
      omega

end Runs

/-- A key that was inserted stays found through the next `2 * nEntriesPerGeneration` inserts
of any other keys, whatever the filter went through before; with no entries a generation, the
only generation switch is the first insert's and the key stays found for ever. -/
theorem rolling_bloom_keeps_recent (nElements : UInt32) (nHashFuncs : ℕ) (nFilterBits nTweak : UInt32)
    (sized : 0 < (((nFilterBits + 63) / 64) <<< 1).toNat) (before : List Action) (vKey : List UInt8)
    (after : List (List UInt8))
    (recent : after.length ≤ 2 * ((nElements + 1) / 2).toNat ∨ (nElements + 1) / 2 = 0) :
    (after.foldl insert ((before.foldl step (create nElements nHashFuncs nFilterBits nTweak)).insert vKey)).contains
      vKey = true := by
  have fits := fits_create sized
  have wf := (WellFormed.create nElements nHashFuncs nFilterBits nTweak).run before
  generalize before.foldl step (create nElements nHashFuncs nFilterBits nTweak) = f at wf ⊢
  replace recent : after.length ≤ 2 * ((nElements + 1) / 2).toNat ∨ ((nElements + 1) / 2).toNat = 0 :=
    recent.imp_right fun none => by rw [none]; rfl
  generalize ((nElements + 1) / 2).toNat = P at wf recent
  have counted : 1 ≤ (f.insert vKey).nEntriesThisGeneration := by
    rw [nEntriesThisGeneration_insert]
    split_ifs <;> omega
  -- the budget: the key's own generation holds at most P entries, and 2P more follow
  have budget : after ≠ [] → 0 * P + (f.insert vKey).nEntriesThisGeneration + after.length ≤ 3 * P ∨ P = 0 := by
    intro _
    rcases recent with within | none
    · rcases Nat.eq_zero_or_pos P with none | positive
      · exact Or.inr none
      · have own := (wf.insert vKey).entries positive
        omega
    · exact Or.inr none
  obtain ⟨s, kept⟩ := kept_run fits (wf.size ▸ keyCells_inside (wf.size ▸ fits) vKey) (wf.insert vKey).generation after
    (f.insert vKey) 0 (wf.insert vKey) (kept_own wf fits vKey) counted budget
  refine contains_of_cellGen vKey fun c member => ?_
  rw [keyCells_foldl_insert, keyCells_insert] at member
  obtain ⟨e, -, held⟩ := kept.2 c member
  rw [held]
  unfold genAfter
  omega

theorem rolling_bloom_keeps_recent_four :
    ([[4], [5], [6], [7]].foldl insert
      ((([.insert [9], .reset 5, .insert [8]] : List Action).foldl step (create 4 3 64 7)).insert [1, 2, 3])).contains
        [1, 2, 3] = true :=
  rolling_bloom_keeps_recent 4 3 64 7 (by decide) _ [1, 2, 3] [[4], [5], [6], [7]] (.inl (by decide))

end CRollingBloomFilter

end Pussycoin.Bloom
