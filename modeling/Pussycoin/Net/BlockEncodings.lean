import Pussycoin.Serialize
import Pussycoin.Mweb.Node

/-! Compact block relay, `blockencodings.{h,cpp}`: the message `CBlockHeaderAndShortTxIDs` that a
node makes of a block, its wire format, and `PartiallyDownloadedBlock`, which rebuilds the block
from the message, the mempool, a list of extra transactions and the transactions it asks for.

What the code calls but does not define is a field of `Primitives`: what it reads of a header, a
transaction and an MWEB block, their own wire formats, and the two hashes behind short ids.
Undefined behaviour is a `Fault`. -/
namespace Pussycoin.Net

open Codec Serialize
open Mweb (maxBlockWeight witnessScaleFactor)

inductive ReadStatus
  | OK
  | INVALID
  | FAILED
  | CHECKBLOCK_FAILED
  deriving DecidableEq, Repr

/-- What undefined behaviour a run meets: a vector read or written past its end, a null
`CTransactionRef` dereferenced, a loop that never ends, or a failed `assert`. -/
inductive Fault
  | outOfRange
  | nullDeref
  | diverges
  | assertion
  deriving DecidableEq, Repr

/-- What `CheckBlock` reports, as far as `FillBlock` reads it. -/
inductive CheckResult
  | valid
  | mutated
  | invalid
  deriving DecidableEq, Repr

/-- `CBlock`, by what compact blocks read of it; `mweb_block` is `none` when it is null. -/
structure CBlock (Header Tx MW : Type) where
  header : Header
  vtx : List Tx
  mweb_block : Option MW
  deriving DecidableEq, Repr

structure Primitives (Header Tx MW : Type) where
  /-- `CBlockHeader::IsNull`, that is `nBits == 0`. -/
  headerIsNull : Header → Bool
  /-- `CBlockHeader()`. -/
  nullHeader : Header
  nullHeader_isNull : headerIsNull nullHeader = true
  /-- `CTransaction::IsNull`: no inputs and no outputs. -/
  txIsNull : Tx → Bool
  isHogEx : Tx → Bool
  getHash : Tx → ℕ
  getWitnessHash : Tx → ℕ
  /-- `shorttxidk0` and `shorttxidk1`: the first two words of a SHA256 over the header and the
  nonce. -/
  shortTxIDSelector : Header → UInt64 → UInt64 × UInt64
  sipHashUint256 : UInt64 → UInt64 → ℕ → UInt64
  writeHeader : Header → List UInt8
  readHeader : Reader UInt8 Header
  writeTx : Tx → List UInt8
  readTx : Reader UInt8 Tx
  writeMweb : MW → List UInt8
  readMweb : Reader UInt8 MW

structure PrefilledTransaction (Tx : Type) where
  index : UInt16
  tx : Tx
  deriving DecidableEq, Repr

/-- `CBlockHeaderAndShortTxIDs`. The keys `shorttxidk0` and `shorttxidk1` are what
`FillShortTxIDSelector` makes of the header and the nonce whenever they are set, so they are
computed where they are read. -/
structure CBlockHeaderAndShortTxIDs (Header Tx MW : Type) where
  nonce : UInt64
  shorttxids : List UInt64
  prefilledtxn : List (PrefilledTransaction Tx)
  header : Header
  mweb_block : Option MW
  deriving DecidableEq, Repr

variable {Header Tx MW : Type} (P : Primitives Header Tx MW)

/-- `GetShortID` under the keys of a header and a nonce: the SipHash of a txid cut to six bytes. -/
def shortTxID (header : Header) (nonce : UInt64) (txhash : ℕ) : UInt64 :=
  P.sipHashUint256 (P.shortTxIDSelector header nonce).1 (P.shortTxIDSelector header nonce).2 txhash
    &&& 0xffffffffffff

namespace CBlockHeaderAndShortTxIDs

def getShortID (c : CBlockHeaderAndShortTxIDs Header Tx MW) (txhash : ℕ) : UInt64 :=
  shortTxID P c.header c.nonce txhash

def blockTxCount (c : CBlockHeaderAndShortTxIDs Header Tx MW) : ℕ :=
  c.shorttxids.length + c.prefilledtxn.length

/-- The constructor from a block, with the nonce that `GetRand` draws. The coinbase, and the HogEx
when there is an MWEB block, are sent whole, at offset `vtx.size() - 2` after the coinbase; every
other transaction goes as its short id. `vtx[0]` of a block without transactions is undefined. -/
def ofBlock (nonce : UInt64) (block : CBlock Header Tx MW) (fUseWTXID : Bool) :
    Option (CBlockHeaderAndShortTxIDs Header Tx MW) := do
  let coinbase ← block.vtx.head?
  let back ← block.vtx.getLast?
  let hogEx : List (PrefilledTransaction Tx) :=
    if block.mweb_block.isSome then [⟨UInt16.ofNat block.vtx.length - 2, back⟩] else []
  let txhash (tx : Tx) : ℕ := if fUseWTXID then P.getWitnessHash tx else P.getHash tx
  pure ⟨nonce, ((block.vtx.drop 1).filter fun tx => !P.isHogEx tx).map fun tx =>
      shortTxID P block.header nonce (txhash tx),
    ⟨0, coinbase⟩ :: hogEx, block.header, block.mweb_block⟩

end CBlockHeaderAndShortTxIDs

/-! ### Wire format -/

namespace PrefilledTransaction

/-- `COMPACTSIZE(obj.index)`, then the transaction. -/
def write (p : PrefilledTransaction Tx) : List UInt8 := writeCompactSize p.index.toNat ++ P.writeTx p.tx

/-- A CompactSize past the `uint16_t` throws "CompactSize exceeds limit of type". -/
def read : Reader UInt8 (PrefilledTransaction Tx) := do
  let index ← readCompactSize true
  if 0xFFFF < index then failure
  else do
    let tx ← P.readTx
    pure ⟨UInt16.ofNat index, tx⟩

end PrefilledTransaction

namespace CBlockHeaderAndShortTxIDs

/-- Writing the message. `CustomUintFormatter<6>` throws on a short id of 2^48 or more. -/
def serialize (fAllowMWEB : Bool) (c : CBlockHeaderAndShortTxIDs Header Tx MW) : Option (List UInt8) :=
  if c.shorttxids.all (·.toNat < 2 ^ 48) then
    some (P.writeHeader c.header ++ writeLE 8 c.nonce.toNat ++
      writeVector (fun id => writeLE 6 id.toNat) c.shorttxids ++
      writeVector (PrefilledTransaction.write P) c.prefilledtxn ++
      if fAllowMWEB then writeOptionalPtr P.writeMweb c.mweb_block else [])
  else none

/-- Reading the message into a default one, whose MWEB block is null; more than 65535
transactions throw "indexes overflowed 16 bits". -/
def unserialize (fAllowMWEB : Bool) : Reader UInt8 (CBlockHeaderAndShortTxIDs Header Tx MW) := do
  let header ← P.readHeader
  let nonce ← readLE 8
  let shorttxids ← readVector ((fun id => UInt64.ofNat id) <$> readLE 6)
  let prefilledtxn ← readVector (PrefilledTransaction.read P)
  let mweb_block ← if fAllowMWEB then readOptionalPtr P.readMweb else pure none
  let c : CBlockHeaderAndShortTxIDs Header Tx MW := ⟨UInt64.ofNat nonce, shorttxids, prefilledtxn, header, mweb_block⟩
  if 0xFFFF < c.blockTxCount then failure else pure c

end CBlockHeaderAndShortTxIDs

/-! ### Rebuilding the block -/

/-- `PartiallyDownloadedBlock`. Its `pool` is the mempool that `initData` is given. -/
structure PartiallyDownloadedBlock (Header Tx MW : Type) where
  txn_available : List (Option Tx)
  prefilled_count : UInt64
  mempool_count : UInt64
  extra_count : UInt64
  header : Header
  mweb_block : Option MW

/-- The constructor: a null header, no slots, every count at zero. -/
def PartiallyDownloadedBlock.new (mweb_blockIn : Option MW) : PartiallyDownloadedBlock Header Tx MW :=
  ⟨[], 0, 0, 0, P.nullHeader, mweb_blockIn⟩

/-- `CTxMemPool::vTxHashes`: each transaction of the pool with its witness hash, once per witness
hash, as the unique `index_by_wtxid` of `mapTx` keeps them. -/
structure Mempool where
  vTxHashes : List (ℕ × Tx)
  witness : ∀ e ∈ vTxHashes, e.1 = P.getWitnessHash e.2
  unique : (vTxHashes.map Prod.fst).Nodup

section Vectors

variable {α : Type}

/-- `v[k]` of a `std::vector`. -/
def vecAt (v : List α) (k : ℕ) : Except Fault α :=
  match v[k]? with
  | some a => pure a
  | none => throw .outOfRange

/-- `v[k] = a`. -/
def vecSet (v : List α) (k : ℕ) (a : α) : Except Fault (List α) :=
  if k < v.length then pure (v.set k a) else throw .outOfRange

end Vectors

/-- `std::unordered_map<uint64_t, uint16_t>`, by its entries. The table is made with a bucket for
every short id, so the inserts never rehash and the bucket of a key stays put. -/
abbrev ShortIdMap := List (UInt64 × UInt16)

/-- `shorttxids[key] = value`. -/
def mapAssign (m : ShortIdMap) (key : UInt64) (value : UInt16) : ShortIdMap :=
  if m.any (·.1 == key) then m.map fun e => if e.1 = key then (key, value) else e
  else m ++ [(key, value)]

/-- `bucket_size(bucket(key))`, with `bucket` the bucket of each key. -/
def bucketSize (bucket : UInt64 → ℕ) (m : ShortIdMap) (key : UInt64) : ℕ :=
  (m.filter fun e => bucket e.1 = bucket key).length

/-- The loop over `prefilledtxn`: `lastprefilledindex` moves on by each offset plus one, and the
transaction fills that slot. `some status` is an early return. `lastprefilledindex` is never
negative at the cast, as it starts at -1 and moves on by at least one. -/
def placePrefilled (shortCount : ℕ) :
    List (PrefilledTransaction Tx) → ℕ → ℤ → List (Option Tx) →
      Except Fault (Option ReadStatus × List (Option Tx))
  | [], _, _, txn_available => pure (none, txn_available)
  | p :: prefilled, i, lastprefilledindex, txn_available =>
    if P.txIsNull p.tx then pure (some .INVALID, txn_available)
    else
      let lastprefilledindex := lastprefilledindex + p.index.toNat + 1
      if 0xFFFF < lastprefilledindex then pure (some .INVALID, txn_available)
      else if shortCount + i < lastprefilledindex.toNat then pure (some .INVALID, txn_available)
      else do
        let txn_available ← vecSet txn_available lastprefilledindex.toNat (some p.tx)
        placePrefilled shortCount prefilled (i + 1) lastprefilledindex txn_available

/-- `while (txn_available[i + index_offset]) index_offset++;` with a `uint16_t` offset: after
2^16 steps it is back where it started, and the loop runs for ever. -/
def skipFilled (txn_available : List (Option Tx)) (i : ℕ) : ℕ → UInt16 → Except Fault UInt16
  | 0, _ => throw .diverges
  | fuel + 1, index_offset => do
    match ← vecAt txn_available (i + index_offset.toNat) with
    | some _ => skipFilled txn_available i fuel (index_offset + 1)
    | none => pure index_offset

/-- The loop that maps each short id to the next slot no prefilled transaction holds. -/
def mapShortIds (bucket : UInt64 → ℕ) (txn_available : List (Option Tx)) :
    List UInt64 → ℕ → UInt16 → ShortIdMap → Except Fault (Option ReadStatus × ShortIdMap)
  | [], _, _, shorttxids => pure (none, shorttxids)
  | id :: ids, i, index_offset, shorttxids => do
    let index_offset ← skipFilled txn_available i (2 ^ 16) index_offset
    let shorttxids := mapAssign shorttxids id (UInt16.ofNat i + index_offset)
    if 12 < bucketSize bucket shorttxids id then pure (some .FAILED, shorttxids)
    else mapShortIds bucket txn_available ids (i + 1) index_offset shorttxids

/-- The scan of the mempool: a transaction whose short id is in the table fills its slot, and a
second one for the same slot empties it again. It stops once every short id has a transaction. -/
def scanMempool (c : CBlockHeaderAndShortTxIDs Header Tx MW) (shorttxids : ShortIdMap) :
    List (ℕ × Tx) → List (Option Tx) → List Bool → UInt64 →
      Except Fault (List (Option Tx) × List Bool × UInt64)
  | [], txn_available, have_txn, mempool_count => pure (txn_available, have_txn, mempool_count)
  | (wtxid, tx) :: entries, txn_available, have_txn, mempool_count => do
    let (txn_available, have_txn, mempool_count) ←
      match shorttxids.lookup (c.getShortID P wtxid) with
      | none => pure (txn_available, have_txn, mempool_count)
      | some idx => do
        let had ← vecAt have_txn idx.toNat
        if !had then
          let txn_available ← vecSet txn_available idx.toNat (some tx)
          let have_txn ← vecSet have_txn idx.toNat true
          pure (txn_available, have_txn, mempool_count + 1)
        else
          let held ← vecAt txn_available idx.toNat
          if held.isSome then
            let txn_available ← vecSet txn_available idx.toNat none
            pure (txn_available, have_txn, mempool_count - 1)
          else pure (txn_available, have_txn, mempool_count)
    if mempool_count.toNat = shorttxids.length then pure (txn_available, have_txn, mempool_count)
    else scanMempool c shorttxids entries txn_available have_txn mempool_count

/-- The scan of `extra_txn`, as the mempool's; a second transaction for a slot empties it only
when its witness hash differs, which dereferences both pointers. -/
def scanExtra (c : CBlockHeaderAndShortTxIDs Header Tx MW) (shorttxids : ShortIdMap) :
    List (ℕ × Option Tx) → List (Option Tx) → List Bool → UInt64 → UInt64 →
      Except Fault (List (Option Tx) × List Bool × UInt64 × UInt64)
  | [], txn_available, have_txn, mempool_count, extra_count =>
    pure (txn_available, have_txn, mempool_count, extra_count)
  | (wtxid, tx) :: entries, txn_available, have_txn, mempool_count, extra_count => do
    let (txn_available, have_txn, mempool_count, extra_count) ←
      match shorttxids.lookup (c.getShortID P wtxid) with
      | none => pure (txn_available, have_txn, mempool_count, extra_count)
      | some idx => do
        let had ← vecAt have_txn idx.toNat
        if !had then
          let txn_available ← vecSet txn_available idx.toNat tx
          let have_txn ← vecSet have_txn idx.toNat true
          pure (txn_available, have_txn, mempool_count + 1, extra_count + 1)
        else
          match ← vecAt txn_available idx.toNat with
          | none => pure (txn_available, have_txn, mempool_count, extra_count)
          | some held =>
            match tx with
            | none => throw .nullDeref
            | some tx =>
              if P.getWitnessHash held ≠ P.getWitnessHash tx then
                let txn_available ← vecSet txn_available idx.toNat none
                pure (txn_available, have_txn, mempool_count - 1, extra_count - 1)
              else pure (txn_available, have_txn, mempool_count, extra_count)
    if mempool_count.toNat = shorttxids.length then
      pure (txn_available, have_txn, mempool_count, extra_count)
    else scanExtra c shorttxids entries txn_available have_txn mempool_count extra_count

/-- `MIN_SERIALIZABLE_TRANSACTION_WEIGHT`. -/
def minSerializableTransactionWeight : ℕ := witnessScaleFactor * 10

namespace PartiallyDownloadedBlock

/-- `InitData`, with `bucket` the bucket of each key in the table of short ids. It returns the
status and the partial block as it is left. -/
def initData (bucket : UInt64 → ℕ) (pool : Mempool P) (pdb : PartiallyDownloadedBlock Header Tx MW)
    (cmpctblock : CBlockHeaderAndShortTxIDs Header Tx MW) (extra_txn : List (ℕ × Option Tx)) :
    Except Fault (ReadStatus × PartiallyDownloadedBlock Header Tx MW) :=
  if P.headerIsNull cmpctblock.header ||
      (cmpctblock.shorttxids.isEmpty && cmpctblock.prefilledtxn.isEmpty) then pure (.INVALID, pdb)
  else if maxBlockWeight / minSerializableTransactionWeight < cmpctblock.blockTxCount then
    pure (.INVALID, pdb)
  else if !P.headerIsNull pdb.header || !pdb.txn_available.isEmpty then pure (.INVALID, pdb)
  else do
    let pdb := { pdb with header := cmpctblock.header, mweb_block := cmpctblock.mweb_block,
                          txn_available := List.replicate cmpctblock.blockTxCount none }
    let (stop, txn_available) ← placePrefilled P cmpctblock.shorttxids.length cmpctblock.prefilledtxn
      0 (-1) pdb.txn_available
    let pdb := { pdb with txn_available }
    match stop with
    | some status => pure (status, pdb)
    | none => do
      let pdb := { pdb with prefilled_count := UInt64.ofNat cmpctblock.prefilledtxn.length }
      let (stop, shorttxids) ← mapShortIds bucket pdb.txn_available cmpctblock.shorttxids 0 0 []
      match stop with
      | some status => pure (status, pdb)
      | none =>
        -- a short id collision
        if shorttxids.length ≠ cmpctblock.shorttxids.length then pure (.FAILED, pdb)
        else do
          let have_txn := List.replicate pdb.txn_available.length false
          let (txn_available, have_txn, mempool_count) ←
            scanMempool P cmpctblock shorttxids pool.vTxHashes pdb.txn_available have_txn pdb.mempool_count
          let (txn_available, _, mempool_count, extra_count) ←
            scanExtra P cmpctblock shorttxids extra_txn txn_available have_txn mempool_count pdb.extra_count
          pure (.OK, { pdb with txn_available, mempool_count, extra_count })

def isTxAvailable (pdb : PartiallyDownloadedBlock Header Tx MW) (index : ℕ) : Except Fault Bool :=
  if P.headerIsNull pdb.header then pure false
  else
    match pdb.txn_available[index]? with
    | some slot => pure slot.isSome
    | none => throw .assertion

/-- The loop of `FillBlock`: a slot's own transaction, or else the next of `vtx_missing`. It
gives the transactions and `tx_missing_offset`, or, when `vtx_missing` runs out, the slots from
the one it could not fill on. -/
def fillSlots (vtx_missing : List Tx) :
    List (Option Tx) → ℕ → Except (List (Option Tx)) (List Tx × ℕ)
  | [], tx_missing_offset => pure ([], tx_missing_offset)
  | none :: slots, tx_missing_offset =>
    match vtx_missing[tx_missing_offset]? with
    | none => throw (none :: slots)
    | some tx => do
      let (txs, used) ← fillSlots vtx_missing slots (tx_missing_offset + 1)
      pure (tx :: txs, used)
  | some tx :: slots, tx_missing_offset => do
    let (txs, used) ← fillSlots vtx_missing slots tx_missing_offset
    pure (tx :: txs, used)

/-- The status `FillBlock` returns for what `CheckBlock` says of the block. -/
def checkStatus : CheckResult → ReadStatus
  | .valid => .OK
  | .mutated => .FAILED
  | .invalid => .CHECKBLOCK_FAILED

/-- `FillBlock`, with `checkBlock` the `CheckBlock` it runs (or the mock in its place). It gives
the status, the block once every slot has a transaction, and the partial block as it is left:
the slots moved into the block are null, and after a whole fill the header is null and the slots
are gone, so that it cannot be filled twice. -/
def fillBlock (checkBlock : CBlock Header Tx MW → CheckResult) (pdb : PartiallyDownloadedBlock Header Tx MW)
    (vtx_missing : List Tx) :
    ReadStatus × Option (CBlock Header Tx MW) × PartiallyDownloadedBlock Header Tx MW :=
  if P.headerIsNull pdb.header then (.INVALID, none, pdb)
  else
    match fillSlots vtx_missing pdb.txn_available 0 with
    | .error rest =>
      let moved := List.replicate (pdb.txn_available.length - rest.length) none
      (.INVALID, none, { pdb with txn_available := moved ++ rest })
    | .ok (vtx, tx_missing_offset) =>
      let block : CBlock Header Tx MW := ⟨pdb.header, vtx, pdb.mweb_block⟩
      let pdb := { pdb with header := P.nullHeader, txn_available := [] }
      if vtx_missing.length ≠ tx_missing_offset then (.INVALID, some block, pdb)
      else (checkStatus (checkBlock block), some block, pdb)

end PartiallyDownloadedBlock

end Pussycoin.Net
