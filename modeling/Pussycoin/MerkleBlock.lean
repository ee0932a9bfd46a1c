import Mathlib
import Pussycoin.Consensus.Merkle
import Pussycoin.Serialize
import Pussycoin.Mweb.Node

/-! `CPartialMerkleTree` of `merkleblock.cpp`: the depth-first encoding of the part of a block's
Merkle tree above a set of matched transactions, its serialization, and `ExtractMatches`.

A hash is a value of any type with equality, `hash` is `Hash(left, right)` on one pair and
`uint256()` is the type's `default`, as in `Consensus.Merkle`. The `unsigned int` sums and shifts
of `CalcTreeWidth` and `TraverseAndBuild` are computed in `ℕ`: they do not wrap for the sizes
`ExtractMatches` admits.

The encoding is the pre-order walk of the pruned tree: a flag bit per visited node, and the hash
of every node where the walk stops. Extraction reads the same walk back, so on the emission of a
subtree it returns that subtree's hash and its matched leaves, consuming exactly what was
emitted. -/
namespace Pussycoin.MerkleBlock

open Consensus Codec Serialize

variable {α : Type}

/-! ### The bit vector in bytes -/

/-- One round of `BitsToBytes`: `ret[p / 8] |= bits[p] << (p % 8)`. -/
def orBit (bits : List Bool) (ret : List UInt8) (p : ℕ) : List UInt8 :=
  ret.modify (p / 8) (· ||| (if bits.getD p false then 1 else 0) <<< (p % 8).toUInt8)

/-- `BitsToBytes`: bit `p` goes to bit `p % 8` of byte `p / 8`. -/
def bitsToBytes (bits : List Bool) : List UInt8 :=
  (List.range bits.length).foldl (orBit bits) (List.replicate ((bits.length + 7) / 8) 0)

/-- `BytesToBits`: bit `p` is bit `p % 8` of byte `p / 8`. -/
def bytesToBits (bytes : List UInt8) : List Bool :=
  (List.range (bytes.length * 8)).map fun p => bytes.getD (p / 8) 0 &&& 1 <<< (p % 8).toUInt8 != 0

theorem toNat_bitMask (b : Bool) (p : ℕ) :
    ((if b then 1 else 0 : UInt8) <<< (p % 8).toUInt8).toNat = if b then 2 ^ (p % 8) else 0 := by
  have small : 2 ^ (p % 8) < 2 ^ 8 := Nat.pow_lt_pow_right (by norm_num) (Nat.mod_lt _ (by norm_num))
  have shift : (p % 8).toUInt8.toNat % 8 = p % 8 := by simp
  cases b
  · simp
  · rw [if_pos rfl, if_pos rfl, UInt8.toNat_shiftLeft, shift, UInt8.toNat_one, Nat.one_shiftLeft, Nat.mod_eq_of_lt small]

/-- The test of `BytesToBits` is the bit of the byte. -/
theorem and_bitMask_ne_zero (x : UInt8) (p : ℕ) : (x &&& 1 <<< (p % 8).toUInt8 != 0) = x.toNat.testBit (p % 8) := by
  have mask := toNat_bitMask true p
  rw [if_pos rfl, if_pos rfl] at mask
  rw [Bool.eq_iff_iff, bne_iff_ne, ne_eq, ← UInt8.toNat_inj, UInt8.toNat_and, mask, Nat.and_two_pow]
  cases x.toNat.testBit (p % 8) <;> simp

theorem length_foldl_orBit (bits : List Bool) : ∀ (ps : List ℕ) (ret : List UInt8),
    (ps.foldl (orBit bits) ret).length = ret.length
  | [], _ => rfl
  | p :: ps, ret => by rw [List.foldl_cons, length_foldl_orBit bits ps, orBit, List.length_modify]

/-- One round sets bit `p % 8` of byte `p / 8` when bit `p` is set, and changes no other bit. -/
theorem testBit_orBit (bits : List Bool) (ret : List UInt8) (p : ℕ) {i j : ℕ} (inside : i < ret.length) :
    ((orBit bits ret p).getD i 0).toNat.testBit j =
      ((ret.getD i 0).toNat.testBit j || decide (i = p / 8 ∧ j = p % 8) && bits.getD p false) := by
  rw [orBit, List.getD_eq_getElem _ _ (by rw [List.length_modify]; exact inside), List.getElem_modify,
    List.getD_eq_getElem _ _ inside]
  by_cases here : p / 8 = i
  · rw [if_pos here, UInt8.toNat_or, toNat_bitMask, Nat.testBit_or]
    cases bits.getD p false <;> simp [Nat.testBit_two_pow, here, eq_comm]
  · rw [if_neg here]
    simp [Ne.symm here]

/-- After the rounds below `k`, the bits below `k` are in place. -/
theorem testBit_foldl_orBit (bits : List Bool) {i j : ℕ} (inside : i < (bits.length + 7) / 8) (low : j < 8) :
    ∀ k, (((List.range k).foldl (orBit bits) (List.replicate ((bits.length + 7) / 8) 0)).getD i 0).toNat.testBit j =
      (decide (8 * i + j < k) && bits.getD (8 * i + j) false)
  | 0 => by simp
  | k + 1 => by
    have sized : i < ((List.range k).foldl (orBit bits) (List.replicate ((bits.length + 7) / 8) 0)).length := by
      rw [length_foldl_orBit, List.length_replicate]
      exact inside
    rw [List.range_succ, List.foldl_append, List.foldl_cons, List.foldl_nil, testBit_orBit bits _ k sized,
      testBit_foldl_orBit bits inside low k]
    -- bit `j` of byte `i` is bit `8i + j`, which is round `k` exactly when `8i + j = k`
    by_cases now : 8 * i + j = k
    · subst now
      have byte : (8 * i + j) / 8 = i := by omega
      have bit : (8 * i + j) % 8 = j := by omega
      simp [byte, bit]
    · have other : ¬(i = k / 8 ∧ j = k % 8) := by omega
      have before : (8 * i + j < k + 1) = (8 * i + j < k) := by
        apply propext
        omega
      simp only [other, decide_false, Bool.false_and, Bool.or_false, before]

theorem length_bitsToBytes (bits : List Bool) : (bitsToBytes bits).length = (bits.length + 7) / 8 := by
  rw [bitsToBytes, length_foldl_orBit, List.length_replicate]

theorem length_bytesToBits (bytes : List UInt8) : (bytesToBits bytes).length = bytes.length * 8 := by
  simp [bytesToBits]

/-- `BytesToBits` after `BitsToBytes` gives the bits back, padded with clear bits to whole bytes. -/
theorem bytesToBits_bitsToBytes (bits : List Bool) :
    bytesToBits (bitsToBytes bits) = bits ++ List.replicate ((bits.length + 7) / 8 * 8 - bits.length) false := by
  apply List.ext_getElem
  · rw [length_bytesToBits, length_bitsToBytes, List.length_append, List.length_replicate]
    omega
  · intro p within _
    rw [length_bytesToBits, length_bitsToBytes] at within
    have byte : p / 8 < (bits.length + 7) / 8 := by omega
    have bit : ((bitsToBytes bits).getD (p / 8) 0).toNat.testBit (p % 8) =
        (decide (8 * (p / 8) + p % 8 < bits.length) && bits.getD (8 * (p / 8) + p % 8) false) :=
      testBit_foldl_orBit bits byte (Nat.mod_lt p (by norm_num)) bits.length
    rw [show 8 * (p / 8) + p % 8 = p by omega] at bit
    simp only [bytesToBits, List.getElem_map, List.getElem_range, and_bitMask_ne_zero]
    rw [bit, List.getElem_append]
    by_cases short : p < bits.length
    · simp [short]
    · simp [short]

/-! ### The tree -/
/-! ### The tree -/

/-- `CPartialMerkleTree`. -/
structure PartialMerkleTree (α : Type) where
  nTransactions : ℕ
  vBits : List Bool
  vHash : List α
  fBad : Bool
  deriving DecidableEq, Repr

/-- `CalcTreeWidth`: the number of nodes at `height`. -/
def calcTreeWidth (nTransactions height : ℕ) : ℕ := (nTransactions + (1 <<< height) - 1) >>> height

/-- `int nHeight = 0; while (CalcTreeWidth(nHeight) > 1) nHeight++;`, given one round per
transaction. -/
def treeHeightLoop (nTransactions : ℕ) : ℕ → ℕ → ℕ
  | 0, nHeight => nHeight
  | fuel + 1, nHeight =>
    if calcTreeWidth nTransactions nHeight > 1 then treeHeightLoop nTransactions fuel (nHeight + 1) else nHeight

def treeHeight (nTransactions : ℕ) : ℕ := treeHeightLoop nTransactions nTransactions 0

section Build

variable (hash : α → α → α) (nTransactions : ℕ) (vTxid : List α) (vMatch : List Bool)

/-- `CalcHash`. Its `assert(vTxid.size() != 0)` fails as `none`, and so does `vTxid[pos]` past
the end. -/
def calcHash : ℕ → ℕ → Option α
  | 0, pos => if vTxid.length = 0 then none else vTxid[pos]?
  | height + 1, pos =>
    if vTxid.length = 0 then none
    else do
      let left ← calcHash height (pos * 2)
      let right ← if pos * 2 + 1 < calcTreeWidth nTransactions height then calcHash height (pos * 2 + 1)
        else pure left
      pure (hash left right)

/-- The loop of `TraverseAndBuild` setting `fParentOfMatch`: some match among the transactions
under the node. `vMatch` has an entry for every transaction. -/
def parentOfMatch (height pos : ℕ) : Bool :=
  (((List.range' (pos <<< height) ((pos + 1) <<< height - pos <<< height)).takeWhile (· < nTransactions)).any
    fun p => vMatch.getD p false)

/-- `TraverseAndBuild`, appending to `vBits` and `vHash`; at height 0 the node's hash is stored
whatever its flag. -/
def traverseAndBuild : ℕ → ℕ → List Bool × List α → Option (List Bool × List α)
  | 0, pos, (vBits, vHash) => do
    let h ← calcHash hash nTransactions vTxid 0 pos
    pure (vBits ++ [parentOfMatch nTransactions vMatch 0 pos], vHash ++ [h])
  | height + 1, pos, (vBits, vHash) =>
    let fParentOfMatch := parentOfMatch nTransactions vMatch (height + 1) pos
    if !fParentOfMatch then do
      let h ← calcHash hash nTransactions vTxid (height + 1) pos
      pure (vBits ++ [fParentOfMatch], vHash ++ [h])
    else do
      let built ← traverseAndBuild height (pos * 2) (vBits ++ [fParentOfMatch], vHash)
      if pos * 2 + 1 < calcTreeWidth nTransactions height then traverseAndBuild height (pos * 2 + 1) built
      else pure built

end Build

/-- `CPartialMerkleTree(vTxid, vMatch)`. -/
def PartialMerkleTree.build (hash : α → α → α) (vTxid : List α) (vMatch : List Bool) :
    Option (PartialMerkleTree α) := do
  let nHeight := treeHeight vTxid.length
  let (vBits, vHash) ← traverseAndBuild hash vTxid.length vTxid vMatch nHeight 0 ([], [])
  pure ⟨vTxid.length, vBits, vHash, false⟩

/-! ### Extraction -/

/-- What `TraverseAndExtract` threads through its calls: the two counters, the two output vectors,
and the member `fBad`. -/
structure ExtractState (α : Type) where
  nBitsUsed : ℕ
  nHashUsed : ℕ
  vMatch : List α
  vnIndex : List ℕ
  fBad : Bool

section Extract

variable [Inhabited α] [DecidableEq α] (hash : α → α → α) (nTransactions : ℕ) (vBits : List Bool)
  (vHash : List α)

/-- The branch of `TraverseAndExtract` that uses the next stored hash and does not descend;
`matched` is `height == 0 && fParentOfMatch`. -/
def useHash (matched : Bool) (pos : ℕ) (s : ExtractState α) : α × ExtractState α :=
  if s.nHashUsed ≥ vHash.length then (default, { s with fBad := true })
  else
    let h := vHash.getD s.nHashUsed default
    let s := { s with nHashUsed := s.nHashUsed + 1 }
    (h, if matched then { s with vMatch := s.vMatch ++ [h], vnIndex := s.vnIndex ++ [pos] } else s)

/-- `TraverseAndExtract`. -/
def traverseAndExtract : ℕ → ℕ → ExtractState α → α × ExtractState α
  | 0, pos, s =>
    if s.nBitsUsed ≥ vBits.length then (default, { s with fBad := true })
    else useHash vHash (vBits.getD s.nBitsUsed false) pos { s with nBitsUsed := s.nBitsUsed + 1 }
  | height + 1, pos, s =>
    if s.nBitsUsed ≥ vBits.length then (default, { s with fBad := true })
    else if !vBits.getD s.nBitsUsed false then useHash vHash false pos { s with nBitsUsed := s.nBitsUsed + 1 }
    else
      let (left, s) := traverseAndExtract height (pos * 2) { s with nBitsUsed := s.nBitsUsed + 1 }
      if pos * 2 + 1 < calcTreeWidth nTransactions height then
        let (right, s) := traverseAndExtract height (pos * 2 + 1) s
        -- the two branches cover different transactions, so their hashes never agree
        (hash left right, if right = left then { s with fBad := true } else s)
      else (hash left left, s)

end Extract

/-- `MIN_TRANSACTION_WEIGHT`. -/
def minTransactionWeight : ℕ := Mweb.witnessScaleFactor * 60

/-- `ExtractMatches(vMatch, vnIndex)`: the root, `vMatch`, `vnIndex` and the member `fBad` after
the call. `vMatch` is cleared first; `vnIndex` is not. -/
def PartialMerkleTree.extractMatches [Inhabited α] [DecidableEq α] (hash : α → α → α)
    (t : PartialMerkleTree α) (vnIndex : List ℕ) : α × List α × List ℕ × Bool :=
  if t.nTransactions = 0 then (default, [], vnIndex, t.fBad)
  else if t.nTransactions > Mweb.maxBlockWeight / minTransactionWeight then (default, [], vnIndex, t.fBad)
  else if t.vHash.length > t.nTransactions then (default, [], vnIndex, t.fBad)
  else if t.vBits.length < t.vHash.length then (default, [], vnIndex, t.fBad)
  else
    let nHeight := treeHeight t.nTransactions
    let (hashMerkleRoot, s) :=
      traverseAndExtract hash t.nTransactions t.vBits t.vHash nHeight 0 ⟨0, 0, [], vnIndex, t.fBad⟩
    if s.fBad then (default, s.vMatch, s.vnIndex, s.fBad)
    else if (s.nBitsUsed + 7) / 8 ≠ (t.vBits.length + 7) / 8 then (default, s.vMatch, s.vnIndex, s.fBad)
    else if s.nHashUsed ≠ t.vHash.length then (default, s.vMatch, s.vnIndex, s.fBad)
    else (hashMerkleRoot, s.vMatch, s.vnIndex, s.fBad)

/-! ### Serialization -/

section Serialization

variable (writeHash : α → List UInt8) (readHash : Reader UInt8 α)

/-- `SERIALIZE_METHODS(CPartialMerkleTree, obj)` when writing: `nTransactions`, `vHash`, then
the bits as bytes. -/
def PartialMerkleTree.write (t : PartialMerkleTree α) : List UInt8 :=
  writeLE 4 t.nTransactions ++ writeVector writeHash t.vHash ++ writeBytes (bitsToBytes t.vBits)

/-- The same when reading: the bits come back from the bytes, and `fBad` is cleared. -/
def PartialMerkleTree.read : Reader UInt8 (PartialMerkleTree α) := do
  let nTransactions ← readLE 4
  let vHash ← readVector readHash
  let bytes ← readBytes
  pure ⟨nTransactions, bytesToBits bytes, vHash, false⟩

/-- Reading a written tree back gives it with its bits padded to whole bytes and `fBad` clear. -/
theorem PartialMerkleTree.read_write {admits : α → Prop} (trip : RoundTrips writeHash readHash admits)
    (t : PartialMerkleTree α) (fits : t.nTransactions < 256 ^ 4)
    (hashes : t.vHash.length ≤ MAX_SIZE ∧ ∀ a ∈ t.vHash, admits a) (bytes : (t.vBits.length + 7) / 8 ≤ MAX_SIZE)
    (rest : List UInt8) :
    (PartialMerkleTree.read readHash).run (t.write writeHash ++ rest) =
      some (⟨t.nTransactions, bytesToBits (bitsToBytes t.vBits), t.vHash, false⟩, rest) := by
  have count := readLE_roundTrips 4 t.nTransactions fits
  have vector := readVector_roundTrips trip t.vHash hashes
  have bits := readBytes_roundTrips (bitsToBytes t.vBits) (show (bitsToBytes t.vBits).length ≤ MAX_SIZE by
    rw [length_bitsToBytes]
    exact bytes)
  simp only [PartialMerkleTree.write, PartialMerkleTree.read, List.append_assoc, run_bind, count, vector, bits,
    Option.bind_some, run_pure]

end Serialization

/-! ### Widths and heights -/

theorem calcTreeWidth_eq (n height : ℕ) : calcTreeWidth n height = (n + 2 ^ height - 1) / 2 ^ height := by
  rw [calcTreeWidth, Nat.shiftLeft_eq, one_mul, Nat.shiftRight_eq_div_pow]

/-- Node `pos` of a height exists exactly when its first transaction does. -/
theorem lt_calcTreeWidth_iff {n height pos : ℕ} : pos < calcTreeWidth n height ↔ pos * 2 ^ height < n := by
  have positive := Nat.two_pow_pos height
  rw [calcTreeWidth_eq, ← Nat.add_one_le_iff, Nat.le_div_iff_mul_le positive, add_mul, one_mul]
  omega

theorem calcTreeWidth_succ (n height : ℕ) : calcTreeWidth n (height + 1) = (calcTreeWidth n height + 1) / 2 := by
  refine eq_of_forall_lt_iff fun c => ?_
  have half : c < (calcTreeWidth n height + 1) / 2 ↔ 2 * c < calcTreeWidth n height := by omega
  rw [half, lt_calcTreeWidth_iff, lt_calcTreeWidth_iff, pow_succ, show c * (2 ^ height * 2) = 2 * c * 2 ^ height by ring]

/-- The children of a node of the tree: the left one always exists. -/
theorem two_mul_lt_calcTreeWidth {n height pos : ℕ} (valid : pos < calcTreeWidth n (height + 1)) :
    pos * 2 < calcTreeWidth n height := by
  rw [calcTreeWidth_succ] at valid
  omega

/-- The loop of the height stops at `⌈log₂ nTransactions⌉`, since the width is more than one
exactly below it. -/
theorem treeHeightLoop_eq {n : ℕ} :
    ∀ fuel nHeight, nHeight ≤ Nat.clog 2 n → Nat.clog 2 n ≤ nHeight + fuel → treeHeightLoop n fuel nHeight = Nat.clog 2 n
  | 0, nHeight, low, high => by
    rw [treeHeightLoop]
    omega
  | fuel + 1, nHeight, low, high => by
    have wide : calcTreeWidth n nHeight > 1 ↔ nHeight < Nat.clog 2 n := by
      rw [gt_iff_lt, lt_calcTreeWidth_iff, one_mul, Nat.lt_clog_iff_pow_lt one_lt_two]
    rw [treeHeightLoop]
    by_cases below : nHeight < Nat.clog 2 n
    · rw [if_pos (wide.2 below)]
      exact treeHeightLoop_eq fuel (nHeight + 1) below (by omega)
    · rw [if_neg fun more => below (wide.1 more)]
      omega

theorem treeHeight_eq (n : ℕ) : treeHeight n = Nat.clog 2 n := by
  have enough : Nat.clog 2 n ≤ n := Nat.clog_le_of_le_pow Nat.lt_two_pow_self.le
  exact treeHeightLoop_eq n 0 (Nat.zero_le _) (by omega)

/-- The top height has one node. -/
theorem calcTreeWidth_clog {n : ℕ} (positive : 0 < n) : calcTreeWidth n (Nat.clog 2 n) = 1 := by
  have some : 0 < calcTreeWidth n (Nat.clog 2 n) := by
    rw [lt_calcTreeWidth_iff, zero_mul]
    exact positive
  have notTwo : ¬1 < calcTreeWidth n (Nat.clog 2 n) := by
    rw [lt_calcTreeWidth_iff, one_mul, ← Nat.lt_clog_iff_pow_lt one_lt_two]
    exact lt_irrefl _
  omega

theorem zero_lt_calcTreeWidth_clog {n : ℕ} (positive : 0 < n) : 0 < calcTreeWidth n (Nat.clog 2 n) := by
  rw [calcTreeWidth_clog positive]
  exact one_pos

/-! ### The levels of the tree -/

section Levels

variable (hash : α → α → α) (vTxid : List α)

/-- The hashes at `height`, as the loop of `ComputeMerkleRoot` computes them. -/
def level (height : ℕ) : List α := (nextLevel hash)^[height] vTxid

theorem length_level (height : ℕ) : (level hash vTxid height).length = calcTreeWidth vTxid.length height := by
  induction height with
  | zero => simp [level, calcTreeWidth_eq]
  | succ height ih => rw [level, Function.iterate_succ_apply', length_nextLevel, ← level, ih, calcTreeWidth_succ]

/-- `CalcHash` is node `pos` of the level at `height`: the recursion from the node down computes
what the loop computes from the leaves up. -/
theorem calcHash_eq (nonempty : vTxid ≠ []) :
    ∀ height pos, calcHash hash vTxid.length vTxid height pos = (level hash vTxid height)[pos]?
  | 0, pos => by simp [calcHash, level, nonempty]
  | height + 1, pos => by
    rw [calcHash, if_neg (by simpa using nonempty), level, Function.iterate_succ_apply', getElem?_nextLevel, ← level,
      length_level, mul_comm pos 2]
    simp only [calcHash_eq nonempty height]

theorem nodup_level (injective : PairInjective hash) (distinct : vTxid.Nodup) :
    ∀ height, (level hash vTxid height).Nodup
  | 0 => distinct
  | height + 1 => by
    rw [level, Function.iterate_succ_apply', ← level]
    exact nodup_nextLevel injective (nodup_level injective distinct height)

end Levels

/-! ### The matches under a node -/

/-- The matched transactions under node `pos` of `height`, in order. -/
def matchedUnder (nTransactions : ℕ) (vMatch : List Bool) (height pos : ℕ) : List ℕ :=
  (List.range' (pos * 2 ^ height) (2 ^ height)).filter fun p => decide (p < nTransactions) && vMatch.getD p false

theorem takeWhile_range' (n : ℕ) : ∀ s m, (List.range' s m).takeWhile (· < n) = (List.range' s m).filter (· < n)
  | _, 0 => rfl
  | s, m + 1 => by
    rw [List.range'_succ, List.takeWhile_cons, List.filter_cons]
    by_cases below : s < n
    · simp only [below, decide_true, if_true, takeWhile_range' n (s + 1) m]
    · -- past the last transaction the range stays past it
      have rest : (List.range' (s + 1) m).filter (· < n) = [] :=
        List.filter_eq_nil_iff.2 fun p mem => by
          rw [List.mem_range'_1] at mem
          simp only [decide_eq_true_eq]
          omega
      simp only [below, decide_false, Bool.false_eq_true, if_false, rest]

theorem parentOfMatch_eq (nTransactions : ℕ) (vMatch : List Bool) (height pos : ℕ) :
    parentOfMatch nTransactions vMatch height pos = !(matchedUnder nTransactions vMatch height pos).isEmpty := by
  have span : (pos + 1) * 2 ^ height - pos * 2 ^ height = 2 ^ height := by
    rw [add_mul, one_mul, Nat.add_sub_cancel_left]
  unfold parentOfMatch matchedUnder
  rw [Nat.shiftLeft_eq, Nat.shiftLeft_eq, span, takeWhile_range']
  rw [Bool.eq_iff_iff]
  simp [List.any_eq_true, List.filter_eq_nil_iff, and_assoc]

/-- The matches under a node are those under its two children. -/
theorem matchedUnder_succ (nTransactions : ℕ) (vMatch : List Bool) (height pos : ℕ) :
    matchedUnder nTransactions vMatch (height + 1) pos =
      matchedUnder nTransactions vMatch height (pos * 2) ++ matchedUnder nTransactions vMatch height (pos * 2 + 1) := by
  have start : (pos * 2 + 1) * 2 ^ height = pos * 2 * 2 ^ height + 1 * 2 ^ height := by ring
  unfold matchedUnder
  rw [start, ← List.filter_append, List.range'_append, pow_succ, show pos * (2 ^ height * 2) = pos * 2 * 2 ^ height by ring,
    show 2 ^ height + 2 ^ height = 2 ^ height * 2 by ring]

/-- A node past the last transaction has no matches. -/
theorem matchedUnder_of_le {nTransactions : ℕ} {vMatch : List Bool} {height pos : ℕ}
    (past : calcTreeWidth nTransactions height ≤ pos) : matchedUnder nTransactions vMatch height pos = [] := by
  have first : nTransactions ≤ pos * 2 ^ height := by
    by_contra within
    have := lt_calcTreeWidth_iff.2 (show pos * 2 ^ height < nTransactions by omega)
    omega
  refine List.filter_eq_nil_iff.2 fun p mem => ?_
  rw [List.mem_range'_1] at mem
  simp only [Bool.and_eq_true, decide_eq_true_eq, not_and]
  omega

/-- At the root, the range is the whole block. -/
theorem matchedUnder_top {nTransactions height : ℕ} (vMatch : List Bool) (high : nTransactions ≤ 2 ^ height) :
    matchedUnder nTransactions vMatch height 0 = (List.range nTransactions).filter (vMatch.getD · false) := by
  have split : List.range' 0 (2 ^ height) = List.range' 0 nTransactions ++ List.range' nTransactions (2 ^ height - nTransactions) := by
    have joined := @List.range'_append 0 nTransactions (2 ^ height - nTransactions) 1
    rw [Nat.zero_add, one_mul, Nat.add_sub_cancel' high] at joined
    exact joined.symm
  unfold matchedUnder
  rw [zero_mul, split, List.filter_append, List.range_eq_range']
  have past : (List.range' nTransactions (2 ^ height - nTransactions)).filter
      (fun p => decide (p < nTransactions) && vMatch.getD p false) = [] :=
    List.filter_eq_nil_iff.2 fun p mem => by
      rw [List.mem_range'_1] at mem
      simp only [Bool.and_eq_true, decide_eq_true_eq, not_and]
      omega
  rw [past, List.append_nil]
  refine List.filter_congr fun p mem => ?_
  rw [List.mem_range'_1] at mem
  simp only [show p < nTransactions by omega, decide_true, Bool.true_and]

theorem matchedUnder_zero {nTransactions : ℕ} (vMatch : List Bool) {pos : ℕ} (valid : pos < nTransactions) :
    matchedUnder nTransactions vMatch 0 pos = if vMatch.getD pos false then [pos] else [] := by
  unfold matchedUnder
  rw [pow_zero, mul_one, List.range'_one, List.filter_singleton]
  simp [valid]

/-! ### The emission -/

section Emit

variable [Inhabited α] (hash : α → α → α) (vTxid : List α) (vMatch : List Bool)

/-- What `TraverseAndBuild` emits for node `pos` of `height`: its flag, then its hash at the
leaves or where nothing under it matches, and the emission of its children otherwise. -/
def emit : ℕ → ℕ → List Bool × List α
  | 0, pos => ([!(matchedUnder vTxid.length vMatch 0 pos).isEmpty], [(level hash vTxid 0).getD pos default])
  | height + 1, pos =>
    if (matchedUnder vTxid.length vMatch (height + 1) pos).isEmpty then
      ([false], [(level hash vTxid (height + 1)).getD pos default])
    else
      let left := emit height (pos * 2)
      let right := if pos * 2 + 1 < calcTreeWidth vTxid.length height then emit height (pos * 2 + 1) else ([], [])
      (true :: left.1 ++ right.1, left.2 ++ right.2)

/-! The three shapes of an inner node's emission. -/

theorem emit_succ_of_isEmpty {height pos : ℕ} (empty : (matchedUnder vTxid.length vMatch (height + 1) pos).isEmpty) :
    emit hash vTxid vMatch (height + 1) pos = ([false], [(level hash vTxid (height + 1)).getD pos default]) := by
  rw [emit, if_pos empty]

theorem emit_succ_of_sibling {height pos : ℕ} (matched : ¬(matchedUnder vTxid.length vMatch (height + 1) pos).isEmpty)
    (sibling : pos * 2 + 1 < calcTreeWidth vTxid.length height) :
    emit hash vTxid vMatch (height + 1) pos =
      (true :: (emit hash vTxid vMatch height (pos * 2)).1 ++ (emit hash vTxid vMatch height (pos * 2 + 1)).1,
        (emit hash vTxid vMatch height (pos * 2)).2 ++ (emit hash vTxid vMatch height (pos * 2 + 1)).2) := by
  rw [emit, if_neg matched, if_pos sibling]

theorem emit_succ_of_last {height pos : ℕ} (matched : ¬(matchedUnder vTxid.length vMatch (height + 1) pos).isEmpty)
    (last : ¬pos * 2 + 1 < calcTreeWidth vTxid.length height) :
    emit hash vTxid vMatch (height + 1) pos =
      (true :: (emit hash vTxid vMatch height (pos * 2)).1, (emit hash vTxid vMatch height (pos * 2)).2) := by
  rw [emit, if_neg matched, if_neg last]
  simp only [List.append_nil]

theorem getElem?_level {height pos : ℕ} (valid : pos < calcTreeWidth vTxid.length height) :
    (level hash vTxid height)[pos]? = some ((level hash vTxid height).getD pos default) := by
  rw [List.getD_eq_getElem?_getD, List.getElem?_eq_getElem (by rw [length_level]; exact valid), Option.getD_some]

/-- A node of the tree hashes its children, or its left child twice when it has no right one. -/
theorem level_succ_getD {height pos : ℕ} (valid : pos < calcTreeWidth vTxid.length (height + 1)) :
    (level hash vTxid (height + 1)).getD pos default =
      hash ((level hash vTxid height).getD (pos * 2) default)
        (if pos * 2 + 1 < calcTreeWidth vTxid.length height then (level hash vTxid height).getD (pos * 2 + 1) default
          else (level hash vTxid height).getD (pos * 2) default) := by
  have step : level hash vTxid (height + 1) = nextLevel hash (level hash vTxid height) := by
    rw [level, Function.iterate_succ_apply', ← level]
  have parent := getElem?_level hash vTxid valid
  rw [step] at parent ⊢
  rw [getElem?_nextLevel, length_level, mul_comm 2 pos, getElem?_level hash vTxid (two_mul_lt_calcTreeWidth valid)]
    at parent
  by_cases right : pos * 2 + 1 < calcTreeWidth vTxid.length height
  · simp only [right, if_true, getElem?_level hash vTxid right, Option.bind_eq_bind, Option.bind_some,
      Option.pure_def, Option.some.injEq] at parent
    rw [if_pos right, ← parent]
  · simp only [right, if_false, Option.bind_eq_bind, Option.bind_some, Option.pure_def, Option.some.injEq] at parent
    rw [if_neg right, ← parent]

/-- `TraverseAndBuild` appends the emission of the node. -/
theorem traverseAndBuild_eq (nonempty : vTxid ≠ []) :
    ∀ height pos, pos < calcTreeWidth vTxid.length height → ∀ vBits vHash,
      traverseAndBuild hash vTxid.length vTxid vMatch height pos (vBits, vHash) =
        some (vBits ++ (emit hash vTxid vMatch height pos).1, vHash ++ (emit hash vTxid vMatch height pos).2)
  | 0, pos, valid, vBits, vHash => by
    rw [traverseAndBuild, calcHash_eq hash vTxid nonempty, getElem?_level hash vTxid valid, parentOfMatch_eq]
    rfl
  | height + 1, pos, valid, vBits, vHash => by
    rw [traverseAndBuild, parentOfMatch_eq]
    by_cases empty : (matchedUnder vTxid.length vMatch (height + 1) pos).isEmpty
    · rw [emit_succ_of_isEmpty hash vTxid vMatch empty]
      simp only [empty, Bool.not_true, calcHash_eq hash vTxid nonempty, getElem?_level hash vTxid valid]
      rfl
    -- the flag is set and the walk descends into both children
    have left := traverseAndBuild_eq nonempty height (pos * 2) (two_mul_lt_calcTreeWidth valid)
    simp only [empty, Bool.not_false, Bool.not_true, Bool.false_eq_true, if_false, left, Option.bind_eq_bind,
      Option.bind_some]
    by_cases sibling : pos * 2 + 1 < calcTreeWidth vTxid.length height
    · rw [emit_succ_of_sibling hash vTxid vMatch empty sibling]
      simp only [sibling, if_true, traverseAndBuild_eq nonempty height (pos * 2 + 1) sibling, List.append_assoc,
        List.cons_append, List.nil_append]
    · rw [emit_succ_of_last hash vTxid vMatch empty sibling]
      simp only [sibling, if_false, List.append_assoc, List.cons_append, List.nil_append, Option.pure_def]

/-- `CPartialMerkleTree(vTxid, vMatch)` holds the emission of the root. -/
theorem build_eq (nonempty : vTxid ≠ []) :
    PartialMerkleTree.build hash vTxid vMatch = some ⟨vTxid.length, (emit hash vTxid vMatch (Nat.clog 2 vTxid.length) 0).1,
      (emit hash vTxid vMatch (Nat.clog 2 vTxid.length) 0).2, false⟩ := by
  rw [PartialMerkleTree.build, treeHeight_eq,
    traverseAndBuild_eq hash vTxid vMatch nonempty _ 0 (zero_lt_calcTreeWidth_clog (List.length_pos_iff.2 nonempty))]
  rfl

end Emit

/-! ### The sizes of the emission -/

section Counts

variable [Inhabited α] (hash : α → α → α) (vTxid : List α) (vMatch : List Bool)

/-- Every stored hash comes with its flag bit. -/
theorem length_emit_hashes_le_bits : ∀ height pos,
    (emit hash vTxid vMatch height pos).2.length ≤ (emit hash vTxid vMatch height pos).1.length
  | 0, pos => by simp [emit]
  | height + 1, pos => by
    have left := length_emit_hashes_le_bits height (pos * 2)
    have right := length_emit_hashes_le_bits height (pos * 2 + 1)
    by_cases empty : (matchedUnder vTxid.length vMatch (height + 1) pos).isEmpty
    · simp [emit_succ_of_isEmpty hash vTxid vMatch empty]
    by_cases sibling : pos * 2 + 1 < calcTreeWidth vTxid.length height
    · rw [emit_succ_of_sibling hash vTxid vMatch empty sibling]
      simp only [List.length_append, List.length_cons]
      omega
    · rw [emit_succ_of_last hash vTxid vMatch empty sibling]
      simp only [List.length_cons]
      omega

/-- The walk visits at most the nodes of the subtree. -/
theorem length_emit_bits_lt : ∀ height pos, (emit hash vTxid vMatch height pos).1.length < 2 ^ (height + 1)
  | 0, pos => by simp [emit]
  | height + 1, pos => by
    have left := length_emit_bits_lt height (pos * 2)
    have right := length_emit_bits_lt height (pos * 2 + 1)
    have double : 2 ^ (height + 1 + 1) = 2 ^ (height + 1) * 2 := pow_succ 2 (height + 1)
    have one := Nat.one_le_two_pow (n := height + 1)
    by_cases empty : (matchedUnder vTxid.length vMatch (height + 1) pos).isEmpty
    · rw [emit_succ_of_isEmpty hash vTxid vMatch empty, List.length_singleton]
      omega
    by_cases sibling : pos * 2 + 1 < calcTreeWidth vTxid.length height
    · rw [emit_succ_of_sibling hash vTxid vMatch empty sibling]
      simp only [List.length_append, List.length_cons]
      omega
    · rw [emit_succ_of_last hash vTxid vMatch empty sibling]
      simp only [List.length_cons]
      omega

/-- At most one hash per transaction under the node. -/
theorem length_emit_hashes_le : ∀ height pos, pos < calcTreeWidth vTxid.length height →
    (emit hash vTxid vMatch height pos).2.length ≤ min ((pos + 1) * 2 ^ height) vTxid.length - pos * 2 ^ height
  | 0, pos, valid => by
    rw [lt_calcTreeWidth_iff] at valid
    simp only [emit, List.length_singleton, pow_zero, mul_one] at valid ⊢
    omega
  | height + 1, pos, valid => by
    have leftValid := two_mul_lt_calcTreeWidth valid
    have left := length_emit_hashes_le height (pos * 2) leftValid
    rw [lt_calcTreeWidth_iff] at valid
    -- the positions of the children, with `pos * 2 ^ height` and `2 ^ height` as atoms
    have node : pos * 2 ^ (height + 1) = 2 * (pos * 2 ^ height) := by ring
    have nodeEnd : (pos + 1) * 2 ^ (height + 1) = 2 * (pos * 2 ^ height) + 2 * 2 ^ height := by ring
    have leftStart : pos * 2 * 2 ^ height = 2 * (pos * 2 ^ height) := by ring
    have leftEnd : (pos * 2 + 1) * 2 ^ height = 2 * (pos * 2 ^ height) + 2 ^ height := by ring
    have rightEnd : (pos * 2 + 1 + 1) * 2 ^ height = 2 * (pos * 2 ^ height) + 2 * 2 ^ height := by ring
    have one := Nat.one_le_two_pow (n := height)
    by_cases empty : (matchedUnder vTxid.length vMatch (height + 1) pos).isEmpty
    · rw [emit_succ_of_isEmpty hash vTxid vMatch empty, List.length_singleton]
      omega
    by_cases sibling : pos * 2 + 1 < calcTreeWidth vTxid.length height
    · have right := length_emit_hashes_le height (pos * 2 + 1) sibling
      rw [emit_succ_of_sibling hash vTxid vMatch empty sibling, List.length_append]
      omega
    · rw [emit_succ_of_last hash vTxid vMatch empty sibling]
      dsimp only
      omega

/-- At the root, at most one hash per transaction. -/
theorem length_emit_root_hashes_le (nonempty : vTxid ≠ []) :
    (emit hash vTxid vMatch (Nat.clog 2 vTxid.length) 0).2.length ≤ vTxid.length := by
  have covered : vTxid.length ≤ 2 ^ Nat.clog 2 vTxid.length := Nat.le_pow_clog one_lt_two _
  have hashes := length_emit_hashes_le hash vTxid vMatch _ 0
    (zero_lt_calcTreeWidth_clog (List.length_pos_iff.2 nonempty))
  rwa [zero_add, one_mul, zero_mul, Nat.sub_zero, min_eq_right covered] at hashes

/-- A block that `ExtractMatches` admits is at most 15 levels deep. -/
theorem clog_le_of_bounded {n : ℕ} (bounded : n ≤ Mweb.maxBlockWeight / minTransactionWeight) : Nat.clog 2 n ≤ 15 :=
  Nat.clog_le_of_le_pow (bounded.trans (by decide))

/-- The tree of a block that `ExtractMatches` admits fits the limits of its serialization. -/
theorem emit_fits (nonempty : vTxid ≠ []) (bounded : vTxid.length ≤ Mweb.maxBlockWeight / minTransactionWeight) :
    vTxid.length < 256 ^ 4 ∧ (emit hash vTxid vMatch (Nat.clog 2 vTxid.length) 0).2.length ≤ MAX_SIZE ∧
      ((emit hash vTxid vMatch (Nat.clog 2 vTxid.length) 0).1.length + 7) / 8 ≤ MAX_SIZE := by
  have limit : Mweb.maxBlockWeight / minTransactionWeight = 16666 := by decide
  have hashes := length_emit_root_hashes_le hash vTxid vMatch nonempty
  have bits := length_emit_bits_lt hash vTxid vMatch (Nat.clog 2 vTxid.length) 0
  have deep : 2 ^ (Nat.clog 2 vTxid.length + 1) ≤ 2 ^ 16 :=
    Nat.pow_le_pow_right two_pos (Nat.succ_le_succ (clog_le_of_bounded bounded))
  rw [MAX_SIZE]
  norm_num at deep ⊢
  omega

end Counts

/-! ### Reading the emission back -/

section Decode

variable (vTxid : List α)

/-- The state after a subtree is read: its bits and hashes used, its matches appended. -/
def ExtractState.after (s : ExtractState α) (bits hashes : ℕ) (matched : List ℕ) : ExtractState α :=
  { s with nBitsUsed := s.nBitsUsed + bits, nHashUsed := s.nHashUsed + hashes,
           vMatch := s.vMatch ++ matched.filterMap (vTxid[·]?), vnIndex := s.vnIndex ++ matched }

theorem ExtractState.after_after (s : ExtractState α) (bits hashes bits' hashes' : ℕ) (matched matched' : List ℕ) :
    (s.after vTxid bits hashes matched).after vTxid bits' hashes' matched' =
      s.after vTxid (bits + bits') (hashes + hashes') (matched ++ matched') := by
  simp [ExtractState.after, add_assoc, List.filterMap_append]

variable [Inhabited α] [DecidableEq α] (hash : α → α → α) (vMatch : List Bool)

theorem traverseAndExtract_emit (injective : PairInjective hash) (distinct : vTxid.Nodup) :
    ∀ height pos, pos < calcTreeWidth vTxid.length height →
    ∀ (vBits pre post : List Bool) (vHash preH postH : List α) (s : ExtractState α),
      vBits = pre ++ (emit hash vTxid vMatch height pos).1 ++ post →
      vHash = preH ++ (emit hash vTxid vMatch height pos).2 ++ postH →
      s.nBitsUsed = pre.length → s.nHashUsed = preH.length →
      traverseAndExtract hash vTxid.length vBits vHash height pos s =
        ((level hash vTxid height).getD pos default,
          s.after vTxid (emit hash vTxid vMatch height pos).1.length (emit hash vTxid vMatch height pos).2.length
            (matchedUnder vTxid.length vMatch height pos))
  | 0, pos, valid, _, pre, post, _, preH, postH, s, rfl, rfl, bitsAt, hashesAt => by
    have inside : pos < vTxid.length := by simpa [calcTreeWidth_eq] using valid
    have leaf : (level hash vTxid 0).getD pos default = vTxid[pos] := by simp [level, inside]
    simp only [emit, traverseAndExtract, useHash, matchedUnder_zero vMatch inside, bitsAt, hashesAt, leaf]
    cases matched : vMatch.getD pos false <;> simp [ExtractState.after, inside, bitsAt, hashesAt]
  | height + 1, pos, valid, _, pre, post, _, preH, postH, s, rfl, rfl, bitsAt, hashesAt => by
    by_cases empty : (matchedUnder vTxid.length vMatch (height + 1) pos).isEmpty
    · -- nothing under the node matches: its flag is clear and its hash is used
      have none : matchedUnder vTxid.length vMatch (height + 1) pos = [] := List.isEmpty_iff.1 empty
      rw [emit_succ_of_isEmpty hash vTxid vMatch empty]
      simp only [traverseAndExtract, useHash, bitsAt, hashesAt, none]
      simp [ExtractState.after, bitsAt, hashesAt]
    · -- the flag is set: the left child is read, then the right one where it exists
      have leftValid := two_mul_lt_calcTreeWidth valid
      have leftRead := traverseAndExtract_emit injective distinct height (pos * 2) leftValid
      have state : ∀ bits hashes matched, ({ s with nBitsUsed := s.nBitsUsed + 1 } : ExtractState α).after vTxid bits
          hashes matched = s.after vTxid (1 + bits) hashes matched := fun _ _ _ => by
        simp [ExtractState.after, add_assoc]
      by_cases sibling : pos * 2 + 1 < calcTreeWidth vTxid.length height
      · have rightRead := traverseAndExtract_emit injective distinct height (pos * 2 + 1) sibling
        -- the two children are different nodes of one level, so their hashes differ
        have differ : (level hash vTxid height).getD (pos * 2 + 1) default ≠ (level hash vTxid height).getD (pos * 2) default := by
          have length := length_level hash vTxid height
          rw [List.getD_eq_getElem _ _ (by omega), List.getD_eq_getElem _ _ (by omega), Ne,
            (nodup_level hash vTxid injective distinct height).getElem_inj_iff]
          omega
        rw [emit_succ_of_sibling hash vTxid vMatch empty sibling]
        simp only [traverseAndExtract, if_pos sibling]
        generalize emit hash vTxid vMatch height (pos * 2) = left at leftRead ⊢
        generalize emit hash vTxid vMatch height (pos * 2 + 1) = right at rightRead ⊢
        have readLeft := leftRead (pre ++ (true :: left.1 ++ right.1) ++ post) (pre ++ [true]) (right.1 ++ post)
          (preH ++ (left.2 ++ right.2) ++ postH) preH (right.2 ++ postH) { s with nBitsUsed := s.nBitsUsed + 1 }
          (by simp) (by simp) (by simp [bitsAt]) hashesAt
        have readRight := rightRead (pre ++ (true :: left.1 ++ right.1) ++ post) (pre ++ true :: left.1) post
          (preH ++ (left.2 ++ right.2) ++ postH) (preH ++ left.2) postH
          (({ s with nBitsUsed := s.nBitsUsed + 1 } : ExtractState α).after vTxid left.1.length left.2.length
            (matchedUnder vTxid.length vMatch height (pos * 2)))
          (by simp) (by simp) (by simp [ExtractState.after, bitsAt]; omega) (by simp [ExtractState.after, hashesAt])
        have room : ¬s.nBitsUsed ≥ (pre ++ (true :: left.1 ++ right.1) ++ post).length := by simp [bitsAt]
        have bit : (pre ++ (true :: left.1 ++ right.1) ++ post).getD s.nBitsUsed false = true := by simp [bitsAt]
        rw [if_neg room, bit, Bool.not_true, if_neg Bool.false_ne_true, readLeft]
        dsimp only
        rw [readRight]
        dsimp only
        rw [if_neg differ, level_succ_getD hash vTxid valid, if_pos sibling, state, ExtractState.after_after,
          ← matchedUnder_succ, List.cons_append, List.length_cons, List.length_append, List.length_append,
          show 1 + left.1.length + right.1.length = left.1.length + right.1.length + 1 by ring]
      · -- the last node of an odd level has no right child: its left child is hashed twice
        have none : matchedUnder vTxid.length vMatch height (pos * 2 + 1) = [] := matchedUnder_of_le (by omega)
        rw [emit_succ_of_last hash vTxid vMatch empty sibling]
        simp only [traverseAndExtract, if_neg sibling]
        generalize emit hash vTxid vMatch height (pos * 2) = left at leftRead ⊢
        have readLeft := leftRead (pre ++ true :: left.1 ++ post) (pre ++ [true]) post (preH ++ left.2 ++ postH) preH
          postH { s with nBitsUsed := s.nBitsUsed + 1 } (by simp) rfl (by simp [bitsAt]) hashesAt
        have room : ¬s.nBitsUsed ≥ (pre ++ true :: left.1 ++ post).length := by simp [bitsAt]
        have bit : (pre ++ true :: left.1 ++ post).getD s.nBitsUsed false = true := by simp [bitsAt]
        rw [if_neg room, bit, Bool.not_true, if_neg Bool.false_ne_true, readLeft]
        dsimp only
        rw [level_succ_getD hash vTxid valid, if_neg sibling, state, matchedUnder_succ, none, List.append_nil,
          List.length_cons, add_comm 1]

end Decode

/-! ### The whole tree -/

section Tree

variable [Inhabited α] [DecidableEq α] (hash : α → α → α) (vTxid : List α) (vMatch : List Bool)

/-- The top level holds the root that `ComputeMerkleRoot` returns. -/
theorem getD_level_clog : (level hash vTxid (Nat.clog 2 vTxid.length)).getD 0 default = (computeMerkleRoot hash vTxid).1 := by
  rw [computeMerkleRoot_eq, reduceLevels_fst _ rfl, ← level]
  cases level hash vTxid (Nat.clog 2 vTxid.length) <;> rfl

/-- `ExtractMatches` on the emission of the root, followed by at most a byte of padding: the root,
the matched txids and their positions, and no failure. -/
theorem extractMatches_emit (injective : PairInjective hash) (distinct : vTxid.Nodup) (nonempty : vTxid ≠ [])
    (bounded : vTxid.length ≤ Mweb.maxBlockWeight / minTransactionWeight) (pad : List Bool)
    (padded : ((emit hash vTxid vMatch (Nat.clog 2 vTxid.length) 0).1.length + pad.length + 7) / 8 =
      ((emit hash vTxid vMatch (Nat.clog 2 vTxid.length) 0).1.length + 7) / 8) (vnIndex : List ℕ) :
    (⟨vTxid.length, (emit hash vTxid vMatch (Nat.clog 2 vTxid.length) 0).1 ++ pad,
        (emit hash vTxid vMatch (Nat.clog 2 vTxid.length) 0).2, false⟩ : PartialMerkleTree α).extractMatches hash vnIndex =
      ((computeMerkleRoot hash vTxid).1, ((List.range vTxid.length).filter (vMatch.getD · false)).filterMap (vTxid[·]?),
        vnIndex ++ (List.range vTxid.length).filter (vMatch.getD · false), false) := by
  have positive : 0 < vTxid.length := List.length_pos_iff.2 nonempty
  have valid := zero_lt_calcTreeWidth_clog positive
  have covered : vTxid.length ≤ 2 ^ Nat.clog 2 vTxid.length := Nat.le_pow_clog one_lt_two _
  have hashes := length_emit_root_hashes_le hash vTxid vMatch nonempty
  have withBits := length_emit_hashes_le_bits hash vTxid vMatch (Nat.clog 2 vTxid.length) 0
  have read := traverseAndExtract_emit vTxid hash vMatch injective distinct _ 0 valid
    ((emit hash vTxid vMatch (Nat.clog 2 vTxid.length) 0).1 ++ pad) [] pad
    (emit hash vTxid vMatch (Nat.clog 2 vTxid.length) 0).2 [] [] ⟨0, 0, [], vnIndex, false⟩ (by simp) (by simp) rfl rfl
  have enoughBits : ¬((emit hash vTxid vMatch (Nat.clog 2 vTxid.length) 0).1 ++ pad).length <
      (emit hash vTxid vMatch (Nat.clog 2 vTxid.length) 0).2.length := by
    rw [List.length_append]
    omega
  unfold PartialMerkleTree.extractMatches
  dsimp only
  rw [if_neg (Nat.pos_iff_ne_zero.1 positive), if_neg (not_lt.2 bounded), if_neg (not_lt.2 hashes), if_neg enoughBits,
    treeHeight_eq, read]
  simp only [ExtractState.after, Bool.false_eq_true, if_false, zero_add, List.length_append, padded, ne_eq,
    not_true_eq_false, getD_level_clog, matchedUnder_top vMatch covered, List.nil_append]

/-- Building a partial Merkle tree from distinct transactions and reading it back with
`ExtractMatches`, directly or after writing and reading it, gives the root of `ComputeMerkleRoot`,
the matched txids in block order and their positions after those already in `vnIndex`, as long
as `SHA256D64` has no collisions. `CalcHash` at the top computes the same root for every
non-empty block. -/
theorem partial_merkle_tree_round_trip (nonempty : vTxid ≠ []) :
    calcHash hash vTxid.length vTxid (treeHeight vTxid.length) 0 = some (computeMerkleRoot hash vTxid).1 ∧
    (PairInjective hash → vTxid.Nodup → vTxid.length ≤ Mweb.maxBlockWeight / minTransactionWeight →
      ∃ t, PartialMerkleTree.build hash vTxid vMatch = some t ∧
        (∀ vnIndex, t.extractMatches hash vnIndex = ((computeMerkleRoot hash vTxid).1,
          ((List.range vTxid.length).filter (vMatch.getD · false)).filterMap (vTxid[·]?),
          vnIndex ++ (List.range vTxid.length).filter (vMatch.getD · false), false)) ∧
        ∀ (writeHash : α → List UInt8) (readHash : Reader UInt8 α) (admits : α → Prop),
          RoundTrips writeHash readHash admits → (∀ a ∈ t.vHash, admits a) → ∀ rest, ∃ t',
            (PartialMerkleTree.read readHash).run (t.write writeHash ++ rest) = some (t', rest) ∧
            ∀ vnIndex, t'.extractMatches hash vnIndex = ((computeMerkleRoot hash vTxid).1,
              ((List.range vTxid.length).filter (vMatch.getD · false)).filterMap (vTxid[·]?),
              vnIndex ++ (List.range vTxid.length).filter (vMatch.getD · false), false)) := by
  have valid := zero_lt_calcTreeWidth_clog (List.length_pos_iff.2 nonempty)
  refine ⟨?_, fun injective distinct bounded => ?_⟩
  · rw [treeHeight_eq, calcHash_eq hash vTxid nonempty, getElem?_level hash vTxid valid, getD_level_clog]
  refine ⟨_, build_eq hash vTxid vMatch nonempty, fun vnIndex => ?_, fun writeHash readHash admits trip admitted rest => ?_⟩
  · have extracted := extractMatches_emit hash vTxid vMatch injective distinct nonempty bounded [] (by simp) vnIndex
    rwa [List.append_nil] at extracted
  · -- the bits come back padded with zeros up to the next whole byte
    obtain ⟨fits, hashes, bytes⟩ := emit_fits hash vTxid vMatch nonempty bounded
    refine ⟨_, PartialMerkleTree.read_write writeHash readHash trip _ fits ⟨hashes, admitted⟩ bytes rest, fun vnIndex => ?_⟩
    rw [bytesToBits_bitsToBytes]
    exact extractMatches_emit hash vTxid vMatch injective distinct nonempty bounded _
      (by dsimp only; rw [List.length_replicate]; omega) vnIndex

end Tree

/-- Three transactions with the first and the last matched, hashed with `Nat.pair` and written with
32-byte hashes. -/
theorem partial_merkle_tree_round_trip_three :
    ∃ t, PartialMerkleTree.build Nat.pair [1, 2, 3] [true, false, true] = some t ∧
      t.extractMatches Nat.pair [] = ((computeMerkleRoot Nat.pair [1, 2, 3]).1, [1, 3], [0, 2], false) ∧
      ∃ t', (PartialMerkleTree.read (readLE 32)).run (t.write (writeLE 32)) = some (t', []) ∧
        t'.extractMatches Nat.pair [] = ((computeMerkleRoot Nat.pair [1, 2, 3]).1, [1, 3], [0, 2], false) := by
  obtain ⟨t, built, extracted, reread⟩ := (partial_merkle_tree_round_trip Nat.pair [1, 2, 3] [true, false, true]
    (by simp)).2 (fun _ _ _ _ same => Nat.pair_eq_pair.mp same) (by decide) (by decide)
  have stored : t = ⟨3, [true, true, true, false, true, true], [1, 2, 3], false⟩ := Option.some.inj (built.symm.trans rfl)
  obtain ⟨t', read, extracted'⟩ :=
    reread (writeLE 32) (readLE 32) (· < 256 ^ 32) (readLE_roundTrips 32) (by rw [stored]; decide) []
  rw [List.append_nil] at read
  exact ⟨t, built, extracted [], t', read, extracted' []⟩

end Pussycoin.MerkleBlock
