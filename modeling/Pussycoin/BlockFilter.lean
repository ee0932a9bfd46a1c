import Mathlib
import Pussycoin.BitStream
import Pussycoin.Serialize

/-! `GCSFilter` of `blockfilter.cpp`: the Golomb-coded sets of BIP 158.

A filter holds the number of its elements, CompactSize-encoded, then the Golomb-Rice codes of the
differences between its sorted hashed elements. `Match` and `MatchAny` decode the differences
back and merge the running values with the sorted hashes of the query.

SipHash is any function of the two keys and the element's bytes. An element set is the list of
its elements in the order the `unordered_set` gives them; nothing below depends on that order,
since `BuildHashedSet` sorts. An exception, thrown by the stream or by a constructor's own check,
and a failed `assert` are `none`. -/
namespace Pussycoin.BlockFilter

open Bits BitStream Codec Serialize

/-- `GCSFilter::Params`: the SipHash keys, the Golomb-Rice parameter `m_P` and the inverse false
positive rate `m_M`. -/
structure Params where
  sipHashK0 : UInt64
  sipHashK1 : UInt64
  p : UInt8
  m : UInt32

/-- `BASIC_FILTER_P`. -/
def basicFilterP : UInt8 := 19

/-- `BASIC_FILTER_M`. -/
def basicFilterM : UInt32 := 784931

/-- `GCSFilter`: its parameters, `m_N`, `m_F = N * M` and `m_encoded`. -/
structure GCSFilter where
  params : Params
  n : ℕ
  f : ℕ
  encoded : List UInt8

/-- `MapIntoRange(x, n)`: the upper 64 bits of the 128-bit product. -/
def mapIntoRange (x n : ℕ) : ℕ := (x * n) >>> 64

/-! ### The model -/

section Model

variable (sipHash : UInt64 → UInt64 → List UInt8 → UInt64)

/-- `HashToRange(element)`: SipHash of the element under the filter's keys, mapped into `[0, F)`. -/
def GCSFilter.hashToRange (filter : GCSFilter) (element : List UInt8) : ℕ :=
  mapIntoRange (sipHash filter.params.sipHashK0 filter.params.sipHashK1 element).toNat filter.f

/-- `BuildHashedSet(elements)`: the hashed elements in increasing order. -/
def GCSFilter.buildHashedSet (filter : GCSFilter) (elements : List (List UInt8)) : List ℕ :=
  (elements.map (filter.hashToRange sipHash)).insertionSort (· ≤ ·)

/-- The loop of the constructor from elements: each value is coded as its `uint64_t` difference
from the one before. -/
def encodeDeltas (p : ℕ) : ℕ → List ℕ → BitWriter → Option BitWriter
  | _, [], w => some w
  | lastValue, value :: values, w => do
    let w ← golombRiceEncode p ((value + 2 ^ 64 - lastValue) % 2 ^ 64) w
    encodeDeltas p value values w

/-- `GCSFilter(params, elements)`. -/
def GCSFilter.ofElements (params : Params) (elements : List (List UInt8)) : Option GCSFilter :=
  let n := elements.length
  -- "N must be <2^32"
  if n ≥ 2 ^ 32 then none
  else
    let filter : GCSFilter := ⟨params, n, n * params.m.toNat, []⟩
    if elements.isEmpty then some { filter with encoded := writeCompactSize n }
    else do
      let w ← encodeDeltas params.p.toNat 0 (filter.buildHashedSet sipHash elements) BitWriter.init
      some { filter with encoded := writeCompactSize n ++ w.flush.out }

/-- The check of the constructor from an encoding: `count` codes, whose values it drops. -/
def skipCodes (p : ℕ) : ℕ → BitReader → Option BitReader
  | 0, r => some r
  | count + 1, r => do
    let (_, r) ← golombRiceDecode p r
    skipCodes p count r

/-- `GCSFilter(params, encoded_filter)`. -/
def GCSFilter.ofEncoded (params : Params) (encoded : List UInt8) : Option GCSFilter := do
  let (n, stream) ← (readCompactSize true).run encoded
  -- "N must be <2^32"
  if n ≥ 2 ^ 32 then none
  else do
    let r ← skipCodes params.p.toNat n (BitReader.init stream)
    -- "encoded_filter contains excess data"
    if r.stream ≠ [] then none
    else some ⟨params, n, n * params.m.toNat, encoded⟩

/-- How the inner `while (true)` of `MatchInternal` ends: at a hash equal to the value, at the end
of the hashes, or at the first hash above the value, with the hashes from there on. -/
inductive Scan
  | found
  | exhausted
  | next (hashes : List ℕ)

/-- The inner loop of `MatchInternal`; `element_hashes[hashes_index]` is the head of `hashes`. -/
def scan (value : ℕ) : List ℕ → Scan
  | [] => .exhausted
  | hash :: rest => if hash = value then .found else if hash > value then .next (hash :: rest) else scan value rest

/-- The outer loop of `MatchInternal` over the `count` codes left, with the running `value`. -/
def matchLoop (p : ℕ) : ℕ → ℕ → List ℕ → BitReader → Option Bool
  | 0, _, _, _ => some false
  | count + 1, value, hashes, r => do
    let (delta, r) ← golombRiceDecode p r
    let value := (value + delta) % 2 ^ 64
    match scan value hashes with
    | .found => some true
    | .exhausted => some false
    | .next hashes => matchLoop p count value hashes r

/-- `MatchInternal(element_hashes, size)`, whose hashes are sorted by its callers. -/
def GCSFilter.matchInternal (filter : GCSFilter) (elementHashes : List ℕ) : Option Bool := do
  let (n, stream) ← (readCompactSize true).run filter.encoded
  -- assert(N == m_N)
  if n ≠ filter.n then none
  else matchLoop filter.params.p.toNat filter.n 0 elementHashes (BitReader.init stream)

/-- `Match(element)`. -/
def GCSFilter.matchElement (filter : GCSFilter) (element : List UInt8) : Option Bool :=
  filter.matchInternal [filter.hashToRange sipHash element]

/-- `MatchAny(elements)`. -/
def GCSFilter.matchAny (filter : GCSFilter) (elements : List (List UInt8)) : Option Bool :=
  filter.matchInternal (filter.buildHashedSet sipHash elements)

end Model

/-! ### Hashing -/

theorem mapIntoRange_le {x : ℕ} (small : x < 2 ^ 64) (n : ℕ) : mapIntoRange x n ≤ n := by
  rw [mapIntoRange, Nat.shiftRight_eq_div_pow]
  exact Nat.div_le_of_le_mul (Nat.mul_le_mul_right n small.le)

/-- `MapIntoRange(x, n)` is below `n` for every `uint64_t` `x`. -/
theorem mapIntoRange_lt {x n : ℕ} (small : x < 2 ^ 64) (pos : 0 < n) : mapIntoRange x n < n := by
  rw [mapIntoRange, Nat.shiftRight_eq_div_pow, Nat.div_lt_iff_lt_mul (Nat.two_pow_pos 64), mul_comm n]
  exact Nat.mul_lt_mul_of_pos_right small pos

section Hashing

variable (sipHash : UInt64 → UInt64 → List UInt8 → UInt64)

/-- `HashToRange` maps every element into `[0, F)`. -/
theorem hashToRange_lt (filter : GCSFilter) (element : List UInt8) (pos : 0 < filter.f) :
    filter.hashToRange sipHash element < filter.f :=
  mapIntoRange_lt (UInt64.toNat_lt _) pos

theorem hashToRange_le (filter : GCSFilter) (element : List UInt8) : filter.hashToRange sipHash element ≤ filter.f :=
  mapIntoRange_le (UInt64.toNat_lt _) _

theorem sorted_buildHashedSet (filter : GCSFilter) (elements : List (List UInt8)) :
    (filter.buildHashedSet sipHash elements).Pairwise (· ≤ ·) :=
  List.pairwise_insertionSort _ _

theorem mem_buildHashedSet {filter : GCSFilter} {elements : List (List UInt8)} {v : ℕ} :
    v ∈ filter.buildHashedSet sipHash elements ↔ ∃ e ∈ elements, filter.hashToRange sipHash e = v := by
  rw [GCSFilter.buildHashedSet, List.mem_insertionSort, List.mem_map]

/-- With fewer than `2 ^ 32` elements `F = N * M` fits a `uint64_t`, and so do the hashes. -/
theorem lt_of_mem_buildHashedSet {params : Params} {n : ℕ} (few : n < 2 ^ 32) {encoded : List UInt8}
    {elements : List (List UInt8)} {v : ℕ}
    (mem : v ∈ (⟨params, n, n * params.m.toNat, encoded⟩ : GCSFilter).buildHashedSet sipHash elements) :
    v < 2 ^ 64 := by
  obtain ⟨e, -, rfl⟩ := (mem_buildHashedSet sipHash).1 mem
  have range : n * params.m.toNat < 2 ^ 64 :=
    calc n * params.m.toNat < 2 ^ 32 * 2 ^ 32 := Nat.mul_lt_mul'' few (UInt32.toNat_lt _)
      _ = 2 ^ 64 := by norm_num
  exact lt_of_le_of_lt (hashToRange_le sipHash _ e) range

end Hashing

/-! ### The codes of the sorted hashes -/

/-- The bits of the filter after its count: the code of each value's difference from the one
before. -/
def riceCodes (p : ℕ) : ℕ → List ℕ → List Bool
  | _, [] => []
  | lastValue, value :: values => riceBits p (value - lastValue) ++ riceCodes p value values

section Codes

variable {p : ℕ} (fits : p ≤ 64)
include fits

/-- The constructor's loop writes the codes of sorted `uint64_t` values. -/
theorem encodeDeltas_spec : ∀ (values : List ℕ) (lastValue : ℕ) (w : BitWriter), w.Clean →
    (lastValue :: values).Pairwise (· ≤ ·) → (∀ v ∈ values, v < 2 ^ 64) →
    ∃ w', encodeDeltas p lastValue values w = some w' ∧ w'.Clean ∧ w'.bits = w.bits ++ riceCodes p lastValue values
  | [], _, w, clean, _, _ => ⟨w, rfl, clean, by simp [riceCodes]⟩
  | value :: values, lastValue, w, clean, sorted, bounded => by
    have le : lastValue ≤ value := List.rel_of_pairwise_cons sorted List.mem_cons_self
    have small := bounded value List.mem_cons_self
    -- the `uint64_t` difference of sorted values does not wrap
    have delta : (value + 2 ^ 64 - lastValue) % 2 ^ 64 = value - lastValue := by omega
    obtain ⟨w₁, code, clean₁, bits₁⟩ := golombRiceEncode_spec fits (value - lastValue) clean
    obtain ⟨w₂, rest, clean₂, bits₂⟩ := encodeDeltas_spec values value w₁ clean₁ sorted.of_cons
      (fun v mem => bounded v (List.mem_cons_of_mem _ mem))
    refine ⟨w₂, ?_, clean₂, by rw [bits₂, bits₁, riceCodes, List.append_assoc]⟩
    rw [encodeDeltas, delta, code]
    exact rest

/-- The check of the constructor from an encoding reads past the codes of sorted values. -/
theorem skipCodes_spec : ∀ (values : List ℕ) (lastValue : ℕ) (r : BitReader) (rest : List Bool),
    r.bits = riceCodes p lastValue values ++ rest → (lastValue :: values).Pairwise (· ≤ ·) →
    (∀ v ∈ values, v < 2 ^ 64) → ∃ r', skipCodes p values.length r = some r' ∧ r'.bits = rest
  | [], _, r, _, bits, _, _ => ⟨r, rfl, by simpa [riceCodes] using bits⟩
  | value :: values, lastValue, r, rest, bits, sorted, bounded => by
    have small := bounded value List.mem_cons_self
    rw [riceCodes, List.append_assoc] at bits
    obtain ⟨r₁, code, bits₁⟩ := golombRiceDecode_spec fits (by omega) bits
    obtain ⟨r₂, skipped, bits₂⟩ := skipCodes_spec values value r₁ rest bits₁ sorted.of_cons
      (fun v mem => bounded v (List.mem_cons_of_mem _ mem))
    refine ⟨r₂, ?_, bits₂⟩
    rw [List.length_cons, skipCodes, code]
    exact skipped

end Codes

/-! ### The merge of `MatchInternal` -/

/-- One value against the sorted hashes: the inner loop finds it, or runs out, or hands the hashes
above it to the rest of the loop `k`; with the later values no smaller, the answer is whether some
value is among the hashes. -/
theorem scan_merge {v : ℕ} {vs : List ℕ} (above : ∀ x ∈ vs, v ≤ x) (k : List ℕ → Option Bool)
    (rest : ∀ hashes : List ℕ, hashes.Pairwise (· ≤ ·) → k hashes = some (decide (∃ x ∈ vs, x ∈ hashes))) :
    ∀ hashes : List ℕ, hashes.Pairwise (· ≤ ·) →
      (match scan v hashes with
        | .found => some true
        | .exhausted => some false
        | .next hashes => k hashes) = some (decide (∃ x ∈ v :: vs, x ∈ hashes))
  | [], _ => by simp [scan]
  | hash :: hashes, sorted => by
    have below : ∀ x ∈ hashes, hash ≤ x := fun _ mem => List.rel_of_pairwise_cons sorted mem
    rw [scan]
    by_cases found : hash = v
    · simp only [if_pos found, Option.some.injEq]
      exact (decide_eq_true ⟨v, List.mem_cons_self, found ▸ List.mem_cons_self⟩).symm
    rw [if_neg found]
    by_cases past : hash > v
    · -- `v` is below every hash from here on, and the later values are not
      simp only [if_pos past]
      rw [rest _ sorted, Option.some.injEq, decide_eq_decide]
      constructor
      · rintro ⟨x, mem, hit⟩
        exact ⟨x, List.mem_cons_of_mem _ mem, hit⟩
      · rintro ⟨x, mem, hit⟩
        rcases List.mem_cons.1 mem with rfl | later
        · rcases List.mem_cons.1 hit with same | deeper
          · exact absurd same.symm found
          · exact absurd (below x deeper) (by omega)
        · exact ⟨x, later, hit⟩
    · -- `hash` is below `v` and so below every value: skip it
      rw [if_neg past, scan_merge above k rest hashes sorted.of_cons, Option.some.injEq, decide_eq_decide]
      constructor
      · rintro ⟨x, mem, hit⟩
        exact ⟨x, mem, List.mem_cons_of_mem _ hit⟩
      · rintro ⟨x, mem, hit⟩
        rcases List.mem_cons.1 hit with rfl | deeper
        · have : v ≤ x := by
            rcases List.mem_cons.1 mem with rfl | later
            · exact le_rfl
            · exact above x later
          omega
        · exact ⟨x, mem, deeper⟩

/-- The loop of `MatchInternal` over the codes of sorted values answers whether one of them is
among the sorted hashes. -/
theorem matchLoop_spec {p : ℕ} (fits : p ≤ 64) : ∀ (values : List ℕ) (lastValue : ℕ) (hashes : List ℕ)
    (r : BitReader) (rest : List Bool), r.bits = riceCodes p lastValue values ++ rest →
    (lastValue :: values).Pairwise (· ≤ ·) → (∀ v ∈ values, v < 2 ^ 64) → hashes.Pairwise (· ≤ ·) →
    matchLoop p values.length lastValue hashes r = some (decide (∃ x ∈ values, x ∈ hashes))
  | [], _, _, _, _, _, _, _, _ => by simp [matchLoop]
  | value :: values, lastValue, hashes, r, rest, bits, sorted, bounded, hashesSorted => by
    have le : lastValue ≤ value := List.rel_of_pairwise_cons sorted List.mem_cons_self
    have small := bounded value List.mem_cons_self
    rw [riceCodes, List.append_assoc] at bits
    obtain ⟨r₁, code, bits₁⟩ := golombRiceDecode_spec fits (by omega) bits
    -- the running sum gives back the value
    have running : (lastValue + (value - lastValue)) % 2 ^ 64 = value := by omega
    rw [List.length_cons, matchLoop, code]
    simp only [Option.bind_eq_bind, Option.bind_some, running]
    exact scan_merge (fun _ mem => List.rel_of_pairwise_cons sorted.of_cons mem) (fun hs => matchLoop p values.length value hs r₁)
      (fun hs sortedHs => matchLoop_spec fits values value hs r₁ rest bits₁ sorted.of_cons
        (fun v mem => bounded v (List.mem_cons_of_mem _ mem)) sortedHs) hashes hashesSorted

/-! ### The filter -/

theorem maxSize_lt : MAX_SIZE < 2 ^ 32 := by decide

section Filter

variable (sipHash : UInt64 → UInt64 → List UInt8 → UInt64)

/-- The filter of fewer than `2 ^ 32` elements: their count, then bytes holding the codes of their
sorted hashes, padded to a whole byte. -/
theorem ofElements_encoded {params : Params} (fits : params.p.toNat ≤ 64) {elements : List (List UInt8)}
    (few : elements.length < 2 ^ 32) :
    ∃ out pad, GCSFilter.ofElements sipHash params elements =
        some ⟨params, elements.length, elements.length * params.m.toNat, writeCompactSize elements.length ++ out⟩ ∧
      out.flatMap byteBits = riceCodes params.p.toNat 0
        ((⟨params, elements.length, elements.length * params.m.toNat, []⟩ : GCSFilter).buildHashedSet sipHash
          elements) ++ List.replicate pad false ∧ pad < 8 := by
  unfold GCSFilter.ofElements
  dsimp only
  rw [if_neg (not_le.2 few)]
  by_cases empty : elements.isEmpty
  · rw [List.isEmpty_iff] at empty
    subst empty
    exact ⟨[], 0, rfl, by simp [GCSFilter.buildHashedSet, riceCodes], by norm_num⟩
  · rw [if_neg empty]
    have sorted := sorted_buildHashedSet sipHash ⟨params, elements.length, elements.length * params.m.toNat, []⟩
      elements
    obtain ⟨w, encoded, clean, bits⟩ := encodeDeltas_spec fits _ 0 BitWriter.init
      (by simp [BitWriter.Clean, BitWriter.init]) (List.pairwise_cons.2 ⟨fun _ _ => Nat.zero_le _, sorted⟩)
      (fun _ mem => lt_of_mem_buildHashedSet sipHash few mem)
    obtain ⟨-, padded⟩ := flush_spec clean
    refine ⟨w.flush.out, (8 - w.offset.val) % 8, by rw [encoded]; rfl, ?_, Nat.mod_lt _ (by norm_num)⟩
    rw [padded, bits]
    simp [BitWriter.bits, BitWriter.init]

/-- A count up to `MAX_SIZE` followed by that many codes of sorted `uint64_t` values, padded to a
whole byte, is accepted by the constructor from an encoding. -/
theorem ofEncoded_codes {params : Params} (fits : params.p.toNat ≤ 64) {values : List ℕ}
    (sorted : values.Pairwise (· ≤ ·)) (bounded : ∀ v ∈ values, v < 2 ^ 64) {n : ℕ} (count : values.length = n)
    (limit : n ≤ MAX_SIZE) {out : List UInt8} {pad : ℕ}
    (bits : out.flatMap byteBits = riceCodes params.p.toNat 0 values ++ List.replicate pad false) (short : pad < 8) :
    GCSFilter.ofEncoded params (writeCompactSize n ++ out) =
      some ⟨params, n, n * params.m.toNat, writeCompactSize n ++ out⟩ := by
  subst count
  have count := readCompactSize_roundTrips true values.length
    ⟨lt_of_le_of_lt limit (by decide), fun _ => limit⟩ out
  obtain ⟨r, skipped, rest⟩ := skipCodes_spec fits values 0 (BitReader.init out) _ (by rw [bits_init, bits])
    (List.pairwise_cons.2 ⟨fun _ _ => Nat.zero_le _, sorted⟩) bounded
  -- the padding is less than a byte, so no byte is left over
  have empty := stream_eq_nil_of_bits (by rw [rest, List.length_replicate]; exact short)
  rw [GCSFilter.ofEncoded, count]
  simp only [Option.bind_eq_bind, Option.bind_some, if_neg (not_le.2 (lt_of_le_of_lt limit maxSize_lt)), skipped,
    empty, ne_eq, not_true_eq_false, if_false]

/-- A count that `ReadCompactSize` refuses makes the constructor from an encoding throw. -/
theorem ofEncoded_of_count_none {params : Params} {encoded : List UInt8}
    (refused : (readCompactSize true).run encoded = none) : GCSFilter.ofEncoded params encoded = none := by
  rw [GCSFilter.ofEncoded, refused]
  rfl

/-- It makes `MatchInternal` throw too. -/
theorem matchInternal_of_count_none {params : Params} {n f : ℕ} {encoded : List UInt8}
    (refused : (readCompactSize true).run encoded = none) (hashes : List ℕ) :
    (⟨params, n, f, encoded⟩ : GCSFilter).matchInternal hashes = none := by
  rw [GCSFilter.matchInternal, refused]
  rfl

/-- On such an encoding `MatchInternal` answers whether some value is among the sorted hashes. -/
theorem matchInternal_codes {params : Params} (fits : params.p.toNat ≤ 64) {values : List ℕ}
    (sorted : values.Pairwise (· ≤ ·)) (bounded : ∀ v ∈ values, v < 2 ^ 64) {n : ℕ} (count : values.length = n)
    (limit : n ≤ MAX_SIZE) {out : List UInt8} {pad : ℕ}
    (bits : out.flatMap byteBits = riceCodes params.p.toNat 0 values ++ List.replicate pad false)
    (f : ℕ) {hashes : List ℕ} (hashesSorted : hashes.Pairwise (· ≤ ·)) :
    (⟨params, n, f, writeCompactSize n ++ out⟩ : GCSFilter).matchInternal hashes =
      some (decide (∃ x ∈ values, x ∈ hashes)) := by
  subst count
  have count := readCompactSize_roundTrips true values.length
    ⟨lt_of_le_of_lt limit (by decide), fun _ => limit⟩ out
  have loop := matchLoop_spec fits values 0 hashes (BitReader.init out) _ (by rw [bits_init, bits])
    (List.pairwise_cons.2 ⟨fun _ _ => Nat.zero_le _, sorted⟩) bounded hashesSorted
  rw [GCSFilter.matchInternal, count]
  simp only [Option.bind_eq_bind, Option.bind_some, ne_eq, not_true_eq_false, if_false]
  exact loop

end Filter

/-- Above `MAX_SIZE` elements the filter is still built, but the constructor from its encoding and
`Match` throw, since `ReadCompactSize` checks the count against `MAX_SIZE`. -/
theorem ofElements_refused_above_maxSize (sipHash : UInt64 → UInt64 → List UInt8 → UInt64) {params : Params}
    (small : params.p.toNat < 64) {elements : List (List UInt8)} (large : MAX_SIZE < elements.length)
    (few : elements.length < 2 ^ 32) :
    ∃ filter, GCSFilter.ofElements sipHash params elements = some filter ∧
      GCSFilter.ofEncoded params filter.encoded = none ∧ ∀ element, filter.matchElement sipHash element = none := by
  obtain ⟨out, -, built, -, -⟩ := ofElements_encoded sipHash small.le few
  have refused := readCompactSize_true_of_lt (lt_trans few (by norm_num)) large out
  exact ⟨_, built, ofEncoded_of_count_none refused, fun _ => matchInternal_of_count_none refused _⟩

end Pussycoin.BlockFilter
