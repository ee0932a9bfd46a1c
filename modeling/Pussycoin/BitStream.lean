import Mathlib
import Pussycoin.Bits

/-! `BitStreamWriter` and `BitStreamReader` of `streams.h`, and the Golomb-Rice coder of
`util/golombrice.h` on top of them.

A writer stands for the bits it has been given: the bytes it has flushed, then the high
`m_offset` bits of its buffer. A reader stands for the bits it has not returned yet: the low
`8 - m_offset` bits of its buffer, then the bytes left in its stream. Each operation is proved to
append to or take from these lists, so the coder above them never looks at bytes. The `uint64_t`
and `uint8_t` arithmetic is in `ℕ` with its truncations written out, and an exception (`nbits`
out of range, or a read past the end of the stream) is `none`. -/
namespace Pussycoin.BitStream

open Bits

/-- The bits of a byte, most significant first. -/
def byteBits (b : UInt8) : List Bool := bitsOf 8 b.toNat

@[simp] theorem length_byteBits (b : UInt8) : (byteBits b).length = 8 := length_bitsOf 8 _

theorem getElem_byteBits {b : UInt8} {j : ℕ} (h : j < (byteBits b).length) :
    (byteBits b)[j] = b.toNat.testBit (7 - j) := getElem_bitsOf h

/-! ### The writer -/

/-- `BitStreamWriter`: the bytes written to the stream, `m_buffer` and `m_offset`. The offset is
below 8 between calls, since a full buffer is flushed at once. -/
structure BitWriter where
  out : List UInt8
  buffer : UInt8
  offset : Fin 8

def BitWriter.init : BitWriter := ⟨[], 0, 0⟩

/-- `Flush()`: the buffer goes out unless no bit of it is in use. -/
def BitWriter.flush (w : BitWriter) : BitWriter :=
  if w.offset = 0 then w else ⟨w.out ++ [w.buffer], 0, 0⟩

/-- The byte `m_buffer |= (data << (64 - nbits)) >> (64 - 8 + m_offset)`. -/
def orChunk (buffer : UInt8) (offset data nbits : ℕ) : UInt8 :=
  UInt8.ofNat (buffer.toNat ||| ((data <<< (64 - nbits)) % 2 ^ 64) >>> (64 - 8 + offset))

/-- The loop of `Write(data, nbits)`: each round fills the buffer as far as it can and flushes
it when it is full. -/
def BitWriter.writeLoop (data nbits : ℕ) (w : BitWriter) : BitWriter :=
  if nbits = 0 then w
  else
    let bits := min (8 - w.offset.val) nbits
    let buffer := orChunk w.buffer w.offset data nbits
    if full : w.offset.val + bits = 8 then writeLoop data (nbits - bits) ⟨w.out ++ [buffer], 0, 0⟩
    else writeLoop data (nbits - bits) ⟨w.out, buffer, ⟨w.offset.val + bits, by have := w.offset.isLt; omega⟩⟩
termination_by nbits
decreasing_by
  all_goals
    have := w.offset.isLt
    omega

/-- `Write(data, nbits)`: the low `nbits` bits of `data`, most significant first. -/
def BitWriter.write (data nbits : ℕ) (w : BitWriter) : Option BitWriter :=
  if nbits > 64 then none else some (w.writeLoop data nbits)

/-- The bits a writer stands for. -/
def BitWriter.bits (w : BitWriter) : List Bool := w.out.flatMap byteBits ++ (byteBits w.buffer).take w.offset

/-- The bits of the buffer past the offset are clear, so that or-ing into them sets them. -/
def BitWriter.Clean (w : BitWriter) : Prop := w.buffer.toNat % 2 ^ (8 - w.offset.val) = 0

theorem testBit_of_mod_eq_zero {x k i : ℕ} (clear : x % 2 ^ k = 0) (low : i < k) : x.testBit i = false := by
  have bit := Nat.testBit_mod_two_pow x k i
  rwa [clear, Nat.zero_testBit, decide_eq_true low, Bool.true_and, eq_comm] at bit

theorem mod_eq_zero_of_testBit {x k : ℕ} (clear : ∀ i < k, x.testBit i = false) : x % 2 ^ k = 0 := by
  apply Nat.eq_of_testBit_eq
  intro i
  rw [Nat.testBit_mod_two_pow, Nat.zero_testBit]
  by_cases low : i < k
  · rw [clear i low, Bool.and_false]
  · rw [decide_eq_false low, Bool.false_and]

/-- Bit `i` of the new buffer: the old bit, or bit `i + 56 + offset - (64 - nbits)` of `data`
where that is one of its low `nbits` bits. -/
theorem testBit_orChunk {buffer : UInt8} {offset data nbits i : ℕ} (byte : i < 8) :
    (orChunk buffer offset data nbits).toNat.testBit i =
      (buffer.toNat.testBit i || decide (i + 56 + offset < 64) && decide (64 - nbits ≤ i + 56 + offset) &&
        data.testBit (i + 56 + offset - (64 - nbits))) := by
  simp only [orChunk, UInt8.toNat_ofNat', Nat.testBit_mod_two_pow, Nat.testBit_or, Nat.testBit_shiftRight,
    Nat.testBit_shiftLeft, decide_eq_true byte, Bool.true_and, ge_iff_le, Bool.and_assoc,
    show 64 - 8 + offset + i = i + 56 + offset by omega]

/-- One round of the loop: the buffer's first `offset` bits stay, the next `bits` are the top of
the low `nbits` bits of `data`, and the rest stays clear. -/
theorem orChunk_bits {buffer : UInt8} {offset : ℕ} (small : offset < 8) (clean : buffer.toNat % 2 ^ (8 - offset) = 0)
    (data : ℕ) {nbits : ℕ} (pos : 0 < nbits) (fits : nbits ≤ 64) :
    (byteBits (orChunk buffer offset data nbits)).take (offset + min (8 - offset) nbits) =
        (byteBits buffer).take offset ++ (bitsOf nbits data).take (min (8 - offset) nbits) ∧
      (orChunk buffer offset data nbits).toNat % 2 ^ (8 - (offset + min (8 - offset) nbits)) = 0 := by
  constructor
  · apply List.ext_getElem
    · simp only [List.length_take, List.length_append, length_byteBits, length_bitsOf]
      omega
    intro j lt _
    simp only [List.length_take, length_byteBits] at lt
    rw [List.getElem_take, getElem_byteBits, testBit_orChunk (by omega), List.getElem_append]
    by_cases old : j < offset
    · -- a bit written before: the chunk does not reach it
      simp only [List.length_take, length_byteBits, show j < min offset 8 by omega, dite_true, List.getElem_take,
        getElem_byteBits, decide_eq_false (show ¬(7 - j + 56 + offset < 64) by omega), Bool.false_and,
        Bool.or_false]
    · -- a bit of this chunk: the buffer had it clear
      simp only [List.length_take, length_byteBits, show ¬j < min offset 8 by omega, dite_false,
        List.getElem_take, getElem_bitsOf, testBit_of_mod_eq_zero clean (show 7 - j < 8 - offset by omega),
        decide_eq_true (show 7 - j + 56 + offset < 64 by omega),
        decide_eq_true (show 64 - nbits ≤ 7 - j + 56 + offset by omega), Bool.true_and, Bool.false_or]
      congr 1
      omega
  · apply mod_eq_zero_of_testBit
    intro i low
    rw [testBit_orChunk (by omega), testBit_of_mod_eq_zero clean (by omega),
      decide_eq_false (show ¬(64 - nbits ≤ i + 56 + offset) by omega)]
    simp

/-- A round of `Write`'s loop that fills the buffer appends its first `bits` of the chunk and
flushes. -/
theorem writeRound_flush {w : BitWriter} (clean : w.Clean) (data : ℕ) {nbits : ℕ} (pos : 0 < nbits) (fits : nbits ≤ 64)
    (full : w.offset.val + min (8 - w.offset.val) nbits = 8) :
    (⟨w.out ++ [orChunk w.buffer w.offset data nbits], 0, 0⟩ : BitWriter).Clean ∧
      (⟨w.out ++ [orChunk w.buffer w.offset data nbits], 0, 0⟩ : BitWriter).bits =
        w.bits ++ (bitsOf nbits data).take (min (8 - w.offset.val) nbits) := by
  have chunk := (orChunk_bits w.offset.isLt clean data pos fits).1
  rw [full, List.take_of_length_le (by simp)] at chunk
  refine ⟨by simp [BitWriter.Clean], ?_⟩
  simp only [BitWriter.bits, List.flatMap_append, List.flatMap_singleton, Fin.val_zero, List.take_zero,
    List.append_nil, chunk, List.append_assoc]

/-- A round that leaves room in the buffer appends its first `bits` of the chunk there. -/
theorem writeRound_keep {w : BitWriter} (clean : w.Clean) (data : ℕ) {nbits : ℕ} (pos : 0 < nbits) (fits : nbits ≤ 64)
    (room : w.offset.val + min (8 - w.offset.val) nbits < 8) :
    (⟨w.out, orChunk w.buffer w.offset data nbits, ⟨_, room⟩⟩ : BitWriter).Clean ∧
      (⟨w.out, orChunk w.buffer w.offset data nbits, ⟨_, room⟩⟩ : BitWriter).bits =
        w.bits ++ (bitsOf nbits data).take (min (8 - w.offset.val) nbits) := by
  obtain ⟨chunk, clear⟩ := orChunk_bits w.offset.isLt clean data pos fits
  exact ⟨clear, by simp only [BitWriter.bits, chunk, List.append_assoc]⟩

/-- The bits of a round followed by the bits of the rest of the loop are all `nbits` bits. -/
theorem bits_append_bitsOf {w w₁ w₂ : BitWriter} {data nbits bits : ℕ} (le : bits ≤ nbits)
    (first : w₁.bits = w.bits ++ (bitsOf nbits data).take bits)
    (rest : w₂.bits = w₁.bits ++ bitsOf (nbits - bits) data) : w₂.bits = w.bits ++ bitsOf nbits data := by
  rw [rest, first, List.append_assoc, ← drop_bitsOf le, List.take_append_drop]

/-- `Write`'s loop appends the low `nbits` bits of `data` and keeps the buffer clean. -/
theorem writeLoop_spec (data nbits : ℕ) (w : BitWriter) (fits : nbits ≤ 64) (clean : w.Clean) :
    (w.writeLoop data nbits).Clean ∧ (w.writeLoop data nbits).bits = w.bits ++ bitsOf nbits data := by
  fun_induction BitWriter.writeLoop data nbits w with
  | case1 => exact ⟨clean, by simp [bitsOf]⟩
  | case2 nbits w pos bits buffer full ih =>
    have round := writeRound_flush clean data (Nat.pos_of_ne_zero pos) fits full
    have rest := ih (by omega) round.1
    exact ⟨rest.1, bits_append_bitsOf (min_le_right _ _) round.2 rest.2⟩
  | case3 nbits w pos bits buffer full ih =>
    have round := writeRound_keep clean data (Nat.pos_of_ne_zero pos) fits (by have := w.offset.isLt; omega)
    have rest := ih (by omega) round.1
    exact ⟨rest.1, bits_append_bitsOf (min_le_right _ _) round.2 rest.2⟩

theorem write_spec (data : ℕ) {nbits : ℕ} (fits : nbits ≤ 64) {w : BitWriter} (clean : w.Clean) :
    ∃ w', w.write data nbits = some w' ∧ w'.Clean ∧ w'.bits = w.bits ++ bitsOf nbits data :=
  ⟨_, by rw [BitWriter.write, if_neg (by omega)], writeLoop_spec data nbits w fits clean⟩

/-- `Flush()` pads the bits with zeros to a whole byte and leaves no bit in the buffer. -/
theorem flush_spec {w : BitWriter} (clean : w.Clean) :
    w.flush.offset = 0 ∧ w.flush.out.flatMap byteBits = w.bits ++ List.replicate ((8 - w.offset.val) % 8) false := by
  unfold BitWriter.flush
  by_cases empty : w.offset = 0
  · simp [BitWriter.bits, empty]
  · rw [if_neg empty]
    have nonzero : w.offset.val ≠ 0 := fun zero => empty (Fin.ext zero)
    -- the bits past the offset are the clear ones
    have pad : (byteBits w.buffer).drop w.offset = List.replicate (8 - w.offset.val) false := by
      rw [byteBits, drop_bitsOf (by have := w.offset.isLt; omega), ← bitsOf_mod _ _ le_rfl, clean, bitsOf_zero]
    refine ⟨rfl, ?_⟩
    rw [List.flatMap_append, List.flatMap_singleton, BitWriter.bits, List.append_assoc,
      Nat.mod_eq_of_lt (by omega), ← pad, List.take_append_drop]

/-! ### The reader -/

/-- `BitStreamReader`: the bytes left in the stream it reads from, `m_buffer` and `m_offset`. -/
structure BitReader where
  stream : List UInt8
  buffer : UInt8
  offset : Fin 9

def BitReader.init (stream : List UInt8) : BitReader := ⟨stream, 0, 8⟩

/-- The top of `Read`'s loop: `m_istream >> m_buffer` once every bit of the buffer has been
returned, which throws at the end of the stream. -/
def BitReader.refill (r : BitReader) : Option (List UInt8 × UInt8 × Fin 8) :=
  if h : r.offset.val = 8 then
    match r.stream with
    | [] => none
    | b :: rest => some (rest, b, 0)
  else some (r.stream, r.buffer, ⟨r.offset.val, by have := r.offset.isLt; omega⟩)

/-- `static_cast<uint8_t>(m_buffer << m_offset) >> (8 - bits)`: the `bits` bits of the buffer from
bit `m_offset` on. -/
def takeChunk (buffer : UInt8) (offset bits : ℕ) : ℕ := ((buffer.toNat <<< offset) % 256) >>> (8 - bits)

/-- The loop of `Read(nbits)`, with the bits read so far in `data`. -/
def BitReader.readLoop (nbits data : ℕ) (r : BitReader) : Option (ℕ × BitReader) :=
  if nbits = 0 then some (data, r)
  else
    match r.refill with
    | none => none
    | some (stream, buffer, offset) =>
      let bits := min (8 - offset.val) nbits
      readLoop (nbits - bits) (((data <<< bits) % 2 ^ 64) ||| takeChunk buffer offset bits)
        ⟨stream, buffer, ⟨offset.val + bits, by have := offset.isLt; omega⟩⟩
termination_by nbits
decreasing_by
  have := offset.isLt
  omega

/-- `Read(nbits)`: the next `nbits` bits as a number, most significant first. -/
def BitReader.read (nbits : ℕ) (r : BitReader) : Option (ℕ × BitReader) :=
  if nbits > 64 then none else r.readLoop nbits 0

/-- The bits a reader has not returned yet. -/
def BitReader.bits (r : BitReader) : List Bool := (byteBits r.buffer).drop r.offset ++ r.stream.flatMap byteBits

theorem bits_init (stream : List UInt8) : (BitReader.init stream).bits = stream.flatMap byteBits := by
  simp [BitReader.init, BitReader.bits]

/-- A reader with fewer than eight bits left has read its whole stream. -/
theorem stream_eq_nil_of_bits {r : BitReader} (few : r.bits.length < 8) : r.stream = [] := by
  cases stream : r.stream with
  | nil => rfl
  | cons b rest =>
    simp only [BitReader.bits, stream, List.flatMap_cons, List.length_append, length_byteBits] at few
    omega

theorem refill_none {r : BitReader} (empty : r.refill = none) : r.bits = [] := by
  unfold BitReader.refill at empty
  split_ifs at empty with spent
  cases stream : r.stream with
  | nil => simp [BitReader.bits, stream, spent]
  | cons b rest => simp [stream] at empty

/-- After the refill the unread bits are those of the buffer from the offset on, then the stream. -/
theorem refill_some {r : BitReader} {stream : List UInt8} {buffer : UInt8} {offset : Fin 8}
    (filled : r.refill = some (stream, buffer, offset)) :
    r.bits = (byteBits buffer).drop offset ++ stream.flatMap byteBits := by
  unfold BitReader.refill at filled
  split_ifs at filled with spent
  · cases next : r.stream with
    | nil => simp [next] at filled
    | cons b rest =>
      simp only [next, Option.some.injEq, Prod.mk.injEq] at filled
      obtain ⟨rfl, rfl, rfl⟩ := filled
      simp [BitReader.bits, next, spent]
  · simp only [Option.some.injEq, Prod.mk.injEq] at filled
    obtain ⟨rfl, rfl, rfl⟩ := filled
    rfl

theorem takeChunk_eq (buffer : UInt8) {offset bits : ℕ} (small : offset < 8) (within : bits ≤ 8 - offset) :
    takeChunk buffer offset bits = ofBits (((byteBits buffer).drop offset).take bits) := by
  rw [byteBits, drop_bitsOf small.le, take_bitsOf within, ofBits_bitsOf]
  apply Nat.eq_of_testBit_eq
  intro i
  simp only [takeChunk, show (256 : ℕ) = 2 ^ 8 by norm_num, Nat.testBit_shiftRight, Nat.testBit_mod_two_pow,
    Nat.testBit_shiftLeft]
  by_cases low : i < bits
  · simp only [decide_eq_true (show 8 - bits + i < 8 by omega), decide_eq_true (show 8 - bits + i ≥ offset by omega),
      decide_eq_true low, Bool.true_and, show 8 - bits + i - offset = 8 - offset - bits + i by omega]
  · simp [show ¬(8 - bits + i < 8) by omega, low]

/-- One round of `Read`'s loop takes the next `bits` unread bits: the chunk spells them, and the
new state stands for the bits after them. -/
theorem readRound {r : BitReader} {stream : List UInt8} {buffer : UInt8} {offset : Fin 8}
    (filled : r.refill = some (stream, buffer, offset)) {bits : ℕ} (room : offset.val + bits < 9)
    (within : bits ≤ 8 - offset.val) :
    bits ≤ r.bits.length ∧ takeChunk buffer offset bits = ofBits (r.bits.take bits) ∧
      (⟨stream, buffer, ⟨offset.val + bits, room⟩⟩ : BitReader).bits = r.bits.drop bits := by
  have inBuffer : bits ≤ ((byteBits buffer).drop offset).length := by simpa using within
  refine ⟨?_, ?_, ?_⟩
  · rw [refill_some filled, List.length_append]
    omega
  · rw [takeChunk_eq buffer offset.isLt within, refill_some filled, List.take_append_of_le_length inBuffer]
  · rw [refill_some filled, List.drop_append_of_le_length inBuffer, List.drop_drop]
    rfl

/-- A successful round trip of `Read`'s loop took its `nbits` bits. -/
theorem readLoop_some {nbits data : ℕ} {r r' : BitReader} {d : ℕ} (read : r.readLoop nbits data = some (d, r')) :
    nbits ≤ r.bits.length ∧ r'.bits = r.bits.drop nbits := by
  fun_induction BitReader.readLoop nbits data r with
  | case1 data r =>
    simp only [Option.some.injEq, Prod.mk.injEq] at read
    obtain ⟨rfl, rfl⟩ := read
    simp
  | case2 => simp at read
  | case3 nbits data r pos stream buffer offset filled bits ih =>
    obtain ⟨available, -, after⟩ := readRound filled (by have := offset.isLt; omega) (min_le_left _ _)
    obtain ⟨enough, rest⟩ := ih read
    rw [after, List.length_drop] at enough
    rw [after, List.drop_drop] at rest
    exact ⟨by omega, by rw [rest, Nat.add_sub_cancel' (min_le_right _ _)]⟩

/-- Shifting `bits` more bits in below `k` bits read so far stays within the `uint64_t`. -/
theorem shiftIn_eq {data k bits c : ℕ} (small : data < 2 ^ k) (fits : k + bits ≤ 64) (chunk : c < 2 ^ bits) :
    ((data <<< bits) % 2 ^ 64) ||| c = data * 2 ^ bits + c := by
  have room : data * 2 ^ bits < 2 ^ 64 :=
    calc data * 2 ^ bits < 2 ^ k * 2 ^ bits := Nat.mul_lt_mul_of_pos_right small (Nat.two_pow_pos bits)
      _ = 2 ^ (k + bits) := (pow_add 2 k bits).symm
      _ ≤ 2 ^ 64 := Nat.pow_le_pow_right two_pos fits
  rw [Nat.shiftLeft_eq, Nat.mod_eq_of_lt room, ← Nat.shiftLeft_eq, ← Nat.shiftLeft_add_eq_or_of_lt chunk,
    Nat.shiftLeft_eq]

/-- With enough bits left, `Read`'s loop succeeds and appends the next `nbits` bits to `data`. -/
theorem readLoop_of_le {nbits data k : ℕ} {r : BitReader} (small : data < 2 ^ k) (fits : k + nbits ≤ 64)
    (enough : nbits ≤ r.bits.length) :
    ∃ r', r.readLoop nbits data = some (data * 2 ^ nbits + ofBits (r.bits.take nbits), r') := by
  fun_induction BitReader.readLoop nbits data r generalizing k with
  | case1 data r => exact ⟨r, by simp [ofBits]⟩
  | case2 nbits data r pos empty =>
    rw [refill_none empty, List.length_nil] at enough
    omega
  | case3 nbits data r pos stream buffer offset filled bits =>
    rename_i ih
    have taken : bits ≤ nbits := min_le_right _ _
    obtain ⟨-, chunk, after⟩ := readRound filled (by have := offset.isLt; omega) (min_le_left _ _)
    have chunkLt : takeChunk buffer offset bits < 2 ^ bits := by
      have := ofBits_lt (r.bits.take bits)
      rwa [List.length_take, min_eq_left (by omega), ← chunk] at this
    have shifted := shiftIn_eq small (by omega) chunkLt
    have smaller : data * 2 ^ bits + takeChunk buffer offset bits < 2 ^ (k + bits) := by
      rw [pow_add]
      nlinarith
    obtain ⟨r', read⟩ := @ih (k + bits) (by rw [shifted]; exact smaller) (by omega)
      (by rw [after, List.length_drop]; omega)
    refine ⟨r', ?_⟩
    rw [read, shifted, after]
    congr 2
    -- the bits of this round, then the rest of the loop
    have split : r.bits.take nbits = r.bits.take bits ++ (r.bits.drop bits).take (nbits - bits) := by
      rw [← List.take_add, Nat.add_sub_cancel' taken]
    have rest : ((r.bits.drop bits).take (nbits - bits)).length = nbits - bits := by
      rw [List.length_take, List.length_drop]
      omega
    rw [split, ofBits_append, rest, chunk, add_mul, mul_assoc, ← pow_add, Nat.add_sub_cancel' taken, add_assoc]

/-- `Read(nbits)` returns the next `nbits` bits when there are that many. -/
theorem read_spec {nbits : ℕ} (fits : nbits ≤ 64) {r : BitReader} (enough : nbits ≤ r.bits.length) :
    ∃ r', r.read nbits = some (ofBits (r.bits.take nbits), r') ∧ r'.bits = r.bits.drop nbits := by
  obtain ⟨r', read⟩ := readLoop_of_le (show 0 < 2 ^ 0 by norm_num) (by omega) enough
  rw [zero_mul, zero_add] at read
  exact ⟨r', by rw [BitReader.read, if_neg (by omega), read], (readLoop_some read).2⟩

/-- A successful `Read(nbits)` took `nbits` of the unread bits. -/
theorem read_some_length {nbits : ℕ} {r r' : BitReader} {v : ℕ} (read : r.read nbits = some (v, r')) :
    r'.bits.length + nbits = r.bits.length := by
  unfold BitReader.read at read
  split_ifs at read
  obtain ⟨enough, rest⟩ := readLoop_some read
  rw [rest, List.length_drop]
  omega

/-! ### Golomb-Rice codes -/

/-- The unary quotient of `GolombRiceEncode`: `q` ones, at most 64 to a `Write(~0ULL, nbits)`. -/
def writeOnes (q : ℕ) (w : BitWriter) : Option BitWriter :=
  if q = 0 then some w
  else do
    let nbits := if q ≤ 64 then q else 64
    let w ← w.write (2 ^ 64 - 1) nbits
    writeOnes (q - nbits) w
termination_by q
decreasing_by split <;> omega

/-- `GolombRiceEncode(bitwriter, P, x)`: the quotient `x >> P` in unary, a zero, then the low `P`
bits of `x`. -/
def golombRiceEncode (p x : ℕ) (w : BitWriter) : Option BitWriter := do
  let w ← writeOnes (x >>> p) w
  let w ← w.write 0 1
  w.write x p

/-- `while (bitreader.Read(1) == 1) ++q;` -/
def readOnes (q : ℕ) (r : BitReader) : Option (ℕ × BitReader) :=
  match read : r.read 1 with
  | none => none
  | some (bit, r') => if bit = 1 then readOnes (q + 1) r' else some (q, r')
termination_by r.bits.length
decreasing_by
  have := read_some_length read
  omega

/-- `GolombRiceDecode(bitreader, P)`: `(q << P) + r` in `uint64_t`. -/
def golombRiceDecode (p : ℕ) (r : BitReader) : Option (ℕ × BitReader) := do
  let (q, r) ← readOnes 0 r
  let (rem, r) ← r.read p
  pure (((q <<< p) % 2 ^ 64 + rem) % 2 ^ 64, r)

/-- The code of `x`: `x >>> p` ones, a zero, and the low `p` bits of `x`. -/
def riceBits (p x : ℕ) : List Bool := List.replicate (x >>> p) true ++ false :: bitsOf p x

theorem writeOnes_spec (q : ℕ) (w : BitWriter) (clean : w.Clean) :
    ∃ w', writeOnes q w = some w' ∧ w'.Clean ∧ w'.bits = w.bits ++ List.replicate q true := by
  fun_induction writeOnes q w with
  | case1 w => exact ⟨w, rfl, clean, by simp⟩
  | case2 q w pos nbits ih =>
    have fits : nbits ≤ 64 := by simp only [nbits]; split <;> omega
    have taken : nbits ≤ q := by simp only [nbits]; split <;> omega
    obtain ⟨w₁, write, clean₁, bits₁⟩ := write_spec (2 ^ 64 - 1) fits clean
    obtain ⟨w₂, ones, clean₂, bits₂⟩ := ih w₁ clean₁
    refine ⟨w₂, by rw [write]; exact ones, clean₂, ?_⟩
    rw [bits₂, bits₁, bitsOf_two_pow_sub_one fits, List.append_assoc, List.replicate_append_replicate,
      Nat.add_sub_cancel' taken]

/-- `GolombRiceEncode` appends the code of `x`. -/
theorem golombRiceEncode_spec {p : ℕ} (fits : p ≤ 64) (x : ℕ) {w : BitWriter} (clean : w.Clean) :
    ∃ w', golombRiceEncode p x w = some w' ∧ w'.Clean ∧ w'.bits = w.bits ++ riceBits p x := by
  obtain ⟨w₁, ones, clean₁, bits₁⟩ := writeOnes_spec (x >>> p) w clean
  obtain ⟨w₂, stop, clean₂, bits₂⟩ := write_spec 0 (show 1 ≤ 64 by norm_num) clean₁
  obtain ⟨w₃, low, clean₃, bits₃⟩ := write_spec x fits clean₂
  refine ⟨w₃, by rw [golombRiceEncode, ones]; simp only [Option.bind_eq_bind, Option.bind_some, stop, low], clean₃, ?_⟩
  rw [bits₃, bits₂, bits₁, riceBits]
  simp [bitsOf]

theorem read_one {r : BitReader} {b : Bool} {rest : List Bool} (bits : r.bits = b :: rest) :
    ∃ r', r.read 1 = some (b.toNat, r') ∧ r'.bits = rest := by
  obtain ⟨r', read, after⟩ := read_spec (show 1 ≤ 64 by norm_num) (show 1 ≤ r.bits.length by simp [bits])
  refine ⟨r', ?_, by rw [after, bits, List.drop_one, List.tail_cons]⟩
  rw [read, bits]
  simp [ofBits]

theorem readOnes_of_read {q : ℕ} {r r' : BitReader} {bit : ℕ} (read : r.read 1 = some (bit, r')) :
    readOnes q r = if bit = 1 then readOnes (q + 1) r' else some (q, r') := by
  rw [readOnes]
  split
  next failed => rw [read] at failed; cases failed
  next bit' r'' same =>
    rw [read] at same
    obtain ⟨rfl, rfl⟩ := Prod.mk.inj (Option.some.inj same)
    rfl

/-- The unary loop reads the ones up to the first zero and counts them. -/
theorem readOnes_spec (k : ℕ) : ∀ (q : ℕ) (r : BitReader) (rest : List Bool),
    r.bits = List.replicate k true ++ false :: rest →
    ∃ r', readOnes q r = some (q + k, r') ∧ r'.bits = rest := by
  induction k with
  | zero =>
    intro q r rest bits
    obtain ⟨r', read, after⟩ := read_one bits
    rw [readOnes_of_read read]
    exact ⟨r', rfl, after⟩
  | succ k ih =>
    intro q r rest bits
    rw [List.replicate_succ, List.cons_append] at bits
    obtain ⟨r', read, after⟩ := read_one bits
    obtain ⟨r'', ones, rest'⟩ := ih (q + 1) r' rest after
    rw [readOnes_of_read read, if_pos Bool.toNat_true, ones, Nat.add_right_comm, Nat.add_assoc]
    exact ⟨r'', rfl, rest'⟩

/-- `GolombRiceDecode` reads back the code of any `uint64_t`. -/
theorem golombRiceDecode_spec {p : ℕ} (fits : p ≤ 64) {x : ℕ} (small : x < 2 ^ 64) {r : BitReader}
    {rest : List Bool} (bits : r.bits = riceBits p x ++ rest) :
    ∃ r', golombRiceDecode p r = some (x, r') ∧ r'.bits = rest := by
  rw [riceBits, List.append_assoc, List.cons_append] at bits
  obtain ⟨r₁, ones, bits₁⟩ := readOnes_spec (x >>> p) 0 r _ bits
  obtain ⟨r₂, low, bits₂⟩ := read_spec fits (show p ≤ r₁.bits.length by simp [bits₁])
  rw [bits₁, List.take_left' (length_bitsOf p x), ofBits_bitsOf] at low
  rw [bits₁, List.drop_left' (length_bitsOf p x)] at bits₂
  refine ⟨r₂, ?_, bits₂⟩
  -- `(q << P) + r` is `x` again, with no wrap below `2 ^ 64`
  have quotient : (x >>> p <<< p) % 2 ^ 64 = x / 2 ^ p * 2 ^ p := by
    rw [Nat.shiftLeft_eq, Nat.shiftRight_eq_div_pow, Nat.mod_eq_of_lt (lt_of_le_of_lt (Nat.div_mul_le_self x _) small)]
  rw [golombRiceDecode, ones]
  simp only [zero_add, Option.bind_eq_bind, Option.bind_some, low, quotient, Nat.div_add_mod',
    Nat.mod_eq_of_lt small]
  rfl

end Pussycoin.BitStream
