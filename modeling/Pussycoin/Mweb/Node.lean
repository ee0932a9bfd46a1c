import Mathlib
import Pussycoin.Emission
import Pussycoin.Runs

/-! The MWEB rules of block validation: `CheckTransaction` of `consensus/tx_check.cpp`,
the parts of `CheckBlock` the MWEB rules rely on, `MWEB::Node::CheckBlock`,
`ContextualCheckBlock` and `ConnectBlock` of `mweb/mweb_node.cpp`, and the index update
of `CChainState::ConnectBlock`. A rejection is the reject reason the source passes to
`state.Invalid`.

What these functions call but do not define is a field of `Env`: the transaction hash,
the serialized size, the versionbits state of the MWEB deployment, the libmw block
validator and coins view, and the remaining checks of block validation, which read no
MWEB data. -/
namespace Pussycoin.Mweb

open Emission (COIN)
open Runs (rejectIf)

/-- `MAX_MONEY`. -/
def maxMoney : ℤ := 84000000 * COIN

/-- `MoneyRange`. -/
def moneyRange (nValue : ℤ) : Bool := decide (0 ≤ nValue ∧ nValue ≤ maxMoney)

/-- `MAX_BLOCK_WEIGHT`. -/
def maxBlockWeight : ℕ := 4000000

/-- `WITNESS_SCALE_FACTOR`. -/
def witnessScaleFactor : ℕ := 4

/-- A scriptPubKey, by what `IsMWEBPegin` and `IsMWEBHogAddr` read from it: a witness
program of version 9, or of version 8, whose 32 bytes are the kernel id or the MWEB
header hash. Every other script is `other`. -/
inductive Script
  | pegin (kernelId : ℕ)
  | hogAddr (headerHash : ℕ)
  | other (script : ℕ)
  deriving Repr, DecidableEq

namespace Script

/-- `IsMWEBPegin(&kernel_id)`. -/
def peginKernelId : Script → Option ℕ
  | pegin kernelId => some kernelId
  | _ => none

/-- `IsMWEBPegin()`. -/
def isMWEBPegin (script : Script) : Bool := script.peginKernelId.isSome

@[simp] theorem isMWEBPegin_pegin (kernelId : ℕ) : (pegin kernelId).isMWEBPegin = true := rfl

@[simp] theorem isMWEBPegin_hogAddr (headerHash : ℕ) : (hogAddr headerHash).isMWEBPegin = false :=
  rfl

@[simp] theorem isMWEBPegin_other (script : ℕ) : (other script).isMWEBPegin = false := rfl

/-- `IsMWEBHogAddr(&header_hash)`. -/
def hogAddrHash : Script → Option ℕ
  | hogAddr headerHash => some headerHash
  | _ => none

end Script

structure OutPoint where
  hash : ℕ
  n : ℕ
  deriving Repr, DecidableEq

/-- `COutPoint::NULL_INDEX`. -/
def nullIndex : ℕ := 0xffffffff

/-- `COutPoint::IsNull`. -/
def OutPoint.isNull (o : OutPoint) : Bool := o.hash == 0 && o.n == nullIndex

structure TxIn where
  prevout : OutPoint
  /-- Only the coinbase length rule reads the scriptSig, so only its size is kept. -/
  scriptSigSize : ℕ
  deriving Repr, DecidableEq

structure TxOut where
  nValue : ℤ
  scriptPubKey : Script
  deriving Repr, DecidableEq

structure PegInCoin where
  amount : ℤ
  kernelId : ℕ
  deriving Repr, DecidableEq

structure PegOutCoin where
  amount : ℤ
  scriptPubKey : Script
  deriving Repr, DecidableEq

/-- An MWEB transaction attached to a mempool transaction, by what the miner reads. -/
structure MwebTx where
  pegIns : List PegInCoin
  pegOuts : List PegOutCoin
  fee : ℤ
  deriving Repr, DecidableEq

/-- `CTransaction`: `mwebTx` is `mweb_tx` (`none` when it is null) and `hogEx` is the
`m_hogEx` indicator. -/
structure Transaction where
  vin : List TxIn
  vout : List TxOut
  mwebTx : Option MwebTx
  hogEx : Bool
  deriving Repr, DecidableEq

namespace Transaction

def hasMWEBTx (tx : Transaction) : Bool := tx.mwebTx.isSome

def isMWEBOnly (tx : Transaction) : Bool := tx.hasMWEBTx && tx.vin.isEmpty && tx.vout.isEmpty

def isCoinBase (tx : Transaction) : Bool :=
  match tx.vin with
  | [input] => input.prevout.isNull
  | _ => false

/-- `GetValueOut`. Its range checks throw only for values that `CheckTransaction` has
already rejected. -/
def getValueOut (tx : Transaction) : ℤ := (tx.vout.map (·.nValue)).sum

/-- The transaction as `SERIALIZE_NO_MWEB` writes it. -/
def withoutMweb (tx : Transaction) : Transaction := { tx with mwebTx := none }

end Transaction

/-- The MWEB block, by what the node reads of it: its header hash and height, and the
total fee and supply change of its body. -/
structure MwebBlock where
  hash : ℕ
  height : ℤ
  totalFee : ℤ
  supplyChange : ℤ
  deriving Repr, DecidableEq

/-- `CBlock`, with `mwebBlock = none` for a null `mweb_block`. -/
structure Block where
  vtx : List Transaction
  mwebBlock : Option MwebBlock
  deriving Repr, DecidableEq

/-- `CBlock::GetHogEx`. -/
def Block.getHogEx (block : Block) : Option Transaction :=
  if 2 ≤ block.vtx.length then block.vtx.getLast?.filter (·.hogEx) else none

/-- The transactions that the pegin loops visit, `vtx[1]` to `vtx[size - 2]`: all but
the coinbase and the HogEx. -/
def Block.middleTxs (block : Block) : List Transaction := (block.vtx.drop 1).dropLast

/-- The fields of `CBlockIndex` that the MWEB rules read and write. -/
structure BlockIndex where
  nHeight : ℕ
  hogexHash : ℕ
  mwebAmount : ℤ
  deriving Repr, DecidableEq

structure ConnectedBlock where
  block : Block
  index : BlockIndex
  deriving Repr, DecidableEq

/-- The active chain: the tip, which is `pindexPrev` of the next block, and the tip's
ancestors, newest first. -/
structure ChainState where
  tip : ConnectedBlock
  ancestors : List ConnectedBlock
  deriving Repr, DecidableEq

/-- The chain that ends at the tip, newest first. -/
def ChainState.blocks (s : ChainState) : List ConnectedBlock := s.tip :: s.ancestors

/-- What the MWEB rules call but this model leaves open. A chain is given newest first,
and the empty chain stands for a null `pindexPrev`. -/
structure Env where
  /-- `SerializeHash` of a transaction without witness and MWEB data. -/
  serializeHash : Transaction → ℕ
  /-- `GetSerializeSize` of a transaction without witness and MWEB data. -/
  serializeSize : Transaction → ℕ
  /-- `IsMWEBEnabled(pindexPrev)`: the versionbits state of the MWEB deployment for the
  block after the given chain is `ACTIVE`. -/
  isMWEBEnabled : List ConnectedBlock → Bool
  /-- `BlockValidator::ValidateBlock` with the block's pegins and the HogEx pegouts. -/
  validateBlock : MwebBlock → List PegInCoin → List PegOutCoin → Bool
  /-- `CoinsViewCache::ApplyBlock` on the view of the given chain returns. -/
  applyBlock : List ConnectedBlock → MwebBlock → Bool
  /-- The checks of `CheckBlock`, `ContextualCheckBlock` and `ConnectBlock` that read
  no MWEB data: proof of work, merkle root, sizes, sigops, finality, inputs, scripts. -/
  otherChecks : List ConnectedBlock → Block → Except String Unit

variable (env : Env)

/-- `CTransaction::GetHash`: the hash leaves out the MWEB data, so a transaction keeps
its id when the miner strips its `mweb_tx`. -/
def getHash (tx : Transaction) : ℕ := env.serializeHash tx.withoutMweb

/-! ## CheckTransaction and CheckBlock -/

/-- The output loop of `CheckTransaction`, from the running total `nValueOut`. -/
def checkOutputValues : List TxOut → ℤ → Except String Unit
  | [], _ => pure ()
  | txout :: rest, nValueOut => do
    rejectIf (txout.nValue < 0) "bad-txns-vout-negative"
    rejectIf (txout.nValue > maxMoney) "bad-txns-vout-toolarge"
    rejectIf (!moneyRange (nValueOut + txout.nValue)) "bad-txns-txouttotal-toolarge"
    checkOutputValues rest (nValueOut + txout.nValue)

/-- `CheckTransaction`. -/
def checkTransaction (tx : Transaction) : Except String Unit := do
  -- an MWEB-only transaction may have no canonical inputs and outputs
  rejectIf (!tx.isMWEBOnly && tx.vin.isEmpty) "bad-txns-vin-empty"
  rejectIf (!tx.isMWEBOnly && tx.vout.isEmpty) "bad-txns-vout-empty"
  rejectIf (env.serializeSize tx.withoutMweb * witnessScaleFactor > maxBlockWeight)
    "bad-txns-oversize"
  checkOutputValues tx.vout 0
  rejectIf (¬ (tx.vin.map (·.prevout)).Nodup) "bad-txns-inputs-duplicate"
  if tx.isCoinBase then
    match tx.vin with
    | input :: _ =>
      rejectIf (input.scriptSigSize < 2 || 100 < input.scriptSigSize) "bad-cb-length"
    | [] => pure ()
  else rejectIf (tx.vin.any (·.prevout.isNull)) "bad-txns-prevout-null"

/-- `MWEB::Node::CheckBlock`: block transactions carry no MWEB data. -/
def Node.checkBlock (block : Block) : Except String Unit :=
  rejectIf (block.vtx.any (·.hasMWEBTx)) "unexpected-mweb-data"

/-- The coinbase rules of `CheckBlock`: the first transaction, and only the first, is a
coinbase. -/
def checkCoinbase (block : Block) : Except String Unit :=
  match block.vtx with
  | [] => throw "bad-blk-length"
  | coinbase :: rest => do
    rejectIf (!coinbase.isCoinBase) "bad-cb-missing"
    rejectIf (rest.any (·.isCoinBase)) "bad-cb-multiple"

/-- The parts of `CheckBlock` the MWEB rules rely on, in its order: a non-empty `vtx`
(the size bounds of `bad-blk-length` are left to `otherChecks`), the coinbase rules,
`CheckTransaction` of every transaction, and `MWEB::Node::CheckBlock`. -/
def checkBlock (block : Block) : Except String Unit := do
  checkCoinbase block
  block.vtx.forM (checkTransaction env)
  Node.checkBlock block

/-! ## ContextualCheckBlock -/

/-- The outpoints that spend the pegin outputs of one transaction. -/
def Transaction.peginOutPoints (tx : Transaction) : List OutPoint :=
  (tx.vout.zipIdx.filter (·.1.scriptPubKey.isMWEBPegin)).map fun out => ⟨getHash env tx, out.2⟩

/-- The outpoints of every pegin output that the pegin loop visits, in block order. -/
def Block.peginOutPoints (block : Block) : List OutPoint :=
  block.middleTxs.flatMap (Transaction.peginOutPoints env)

/-- The values of those pegin outputs, in the same order. -/
def Block.peginValues (block : Block) : List ℤ :=
  block.middleTxs.flatMap fun tx => (tx.vout.filter (·.scriptPubKey.isMWEBPegin)).map (·.nValue)

/-- The pegin coins that `ValidateMWEBBlock` collects. -/
def Block.pegins (block : Block) : List PegInCoin :=
  block.middleTxs.flatMap fun tx =>
    tx.vout.filterMap fun out => out.scriptPubKey.peginKernelId.map (PegInCoin.mk out.nValue)

/-- The Pussycoin relaxation: an enabled block may leave out its extension block unless
its last transaction is a HogEx or some non-coinbase transaction has a pegin output. -/
def Block.hasMWEBActivity (block : Block) : Bool :=
  (block.vtx.getLast?.map (·.hogEx)).getD false ||
    block.vtx.any fun tx => !tx.isCoinBase && tx.vout.any (·.scriptPubKey.isMWEBPegin)

/-- The pegin loop of `ContextualCheckBlock`: the HogEx inputs from `next_pegin_idx` on
must be, in order, the outpoints of the block's pegin outputs. -/
def matchPegins : List TxIn → List OutPoint → Except String Unit
  | _, [] => pure ()
  | [], _ :: _ => throw "pegins-missing"
  | input :: inputs, pegin :: pegins =>
    if input.prevout = pegin then matchPegins inputs pegins else throw "pegin-mismatch"

/-- `MWEB::Node::ValidateMWEBBlock`: the HogEx outputs after the first are the pegouts. -/
def Node.validateMWEBBlock (block : Block) (mwebBlock : MwebBlock) (hogEx : Transaction) :
    Bool :=
  env.validateBlock mwebBlock block.pegins
    ((hogEx.vout.drop 1).map fun out => ⟨out.nValue, out.scriptPubKey⟩)

/-- The checks of `ContextualCheckBlock` on a block that carries an extension block,
from the HogEx position on. -/
def Node.checkHogEx (s : ChainState) (block : Block) (mwebBlock : MwebBlock)
    (hogEx : Transaction) : Except String Unit := do
  rejectIf (!hogEx.hogEx) "hogex-missing"
  rejectIf (block.vtx.dropLast.any (·.hogEx)) "bad-hogex-position"
  match hogEx.vout.head?.bind (·.scriptPubKey.hogAddrHash) with
  | none => throw "bad-hogex"
  | some mwebHash => do
    rejectIf (mwebHash ≠ mwebBlock.hash) "mweb-hash-mismatch"
    rejectIf (mwebBlock.height ≠ s.tip.index.nHeight + 1) "mweb-height-mismatch"
    -- an empty HogEx input list is read as a first HogEx
    let isFirstHogex := !env.isMWEBEnabled s.ancestors || hogEx.vin.isEmpty
    let nextPeginIdx := if isFirstHogex then 0 else 1
    matchPegins (hogEx.vin.drop nextPeginIdx) (block.peginOutPoints env)
    rejectIf (nextPeginIdx + (block.peginOutPoints env).length ≠ hogEx.vin.length)
      "extra-hogex-input"
    rejectIf (!Node.validateMWEBBlock env block mwebBlock hogEx) "bad-blk-mweb"

/-- `MWEB::Node::ContextualCheckBlock` with `pindexPrev` the tip of `s`. -/
def Node.contextualCheckBlock (s : ChainState) (block : Block) : Except String Unit :=
  if !env.isMWEBEnabled s.blocks then
    rejectIf block.mwebBlock.isSome "unexpected-mweb-data"
  else
    match block.mwebBlock with
    | none => rejectIf block.hasMWEBActivity "mweb-missing"
    | some mwebBlock => do
      rejectIf (block.vtx.any fun tx =>
          (tx.isCoinBase || tx.hogEx) && tx.vout.any (·.scriptPubKey.isMWEBPegin))
        "bad-tx-unexpected-pegin"
      -- `CheckBlock` has rejected an empty `vtx`; read it as a missing HogEx
      match block.vtx.getLast? with
      | none => throw "hogex-missing"
      | some hogEx => Node.checkHogEx env s block mwebBlock hogEx

/-! ## ConnectBlock -/

/-- The pegin loop of `ConnectBlock`: each pegin value is added to the running
`hogex_input_amount`, which must stay in `MoneyRange`. -/
def accumulatePegins : ℤ → List ℤ → Except String ℤ
  | amount, [] => pure amount
  | amount, value :: values =>
    if moneyRange (amount + value) then accumulatePegins (amount + value) values
    else throw "accumulated-pegin-outofrange"

/-- The first check of `MWEB::Node::ConnectBlock`: past the first HogEx, the HogEx spends
output 0 of the HogEx that the tip's index records. -/
def Node.checkPrevHogEx (s : ChainState) (hogEx : Transaction) : Except String Unit :=
  if env.isMWEBEnabled s.ancestors then
    -- `vin.front()`: `CheckTransaction` has rejected an empty input list
    match hogEx.vin.head? with
    | none => throw "invalid-hogex-input"
    | some input =>
      rejectIf (input.prevout.n ≠ 0 ∨ s.tip.index.hogexHash ≠ input.prevout.hash)
        "invalid-hogex-input"
  else pure ()

/-- The checks of `MWEB::Node::ConnectBlock` on a block with an extension block. -/
def Node.connectHogEx (s : ChainState) (block : Block) (mwebBlock : MwebBlock)
    (hogEx : Transaction) : Except String Unit := do
  Node.checkPrevHogEx env s hogEx
  let hogexInputAmount ← accumulatePegins s.tip.index.mwebAmount block.peginValues
  let hogexFee := hogexInputAmount - hogEx.getValueOut
  rejectIf (!moneyRange hogexFee || hogexFee ≠ mwebBlock.totalFee) "bad-txns-mweb-fee-mismatch"
  let mwebAmount := s.tip.index.mwebAmount + mwebBlock.supplyChange
  rejectIf (hogEx.vout.head?.map (·.nValue) ≠ some mwebAmount) "mweb-amount-mismatch"
  rejectIf (!env.applyBlock s.blocks mwebBlock) "mweb-connect-failed"

/-- `MWEB::Node::ConnectBlock` with `pindexPrev` the tip of `s`. -/
def Node.connectBlock (s : ChainState) (block : Block) : Except String Unit :=
  match block.mwebBlock, block.vtx.getLast? with
  | some mwebBlock, some hogEx => Node.connectHogEx env s block mwebBlock hogEx
  | _, _ => pure ()

/-- The index entry that `CChainState::ConnectBlock` leaves for a block connected on
`prev`: a fresh `CBlockIndex`, whose MWEB fields are set only for a block with an
extension block and a HogEx. -/
def connectIndex (prev : BlockIndex) (block : Block) : BlockIndex :=
  let fresh : BlockIndex := ⟨prev.nHeight + 1, 0, 0⟩
  match block.mwebBlock, block.getHogEx with
  | some _, some hogEx =>
    { fresh with
      hogexHash := getHash env hogEx
      mwebAmount := (hogEx.vout.head?.map (·.nValue)).getD 0 }
  | _, _ => fresh

/-- The chain after connecting `block` on its tip. -/
def ChainState.extend (s : ChainState) (block : Block) : ChainState :=
  ⟨⟨block, connectIndex env s.tip.index block⟩, s.blocks⟩

/-- Accepting and connecting a block on the tip: `CheckBlock`, `ContextualCheckBlock`,
the remaining checks, and `ConnectBlock` with its index update. -/
def acceptBlock (s : ChainState) (block : Block) : Except String ChainState := do
  checkBlock env block
  Node.contextualCheckBlock env s block
  env.otherChecks s.blocks block
  Node.connectBlock env s block
  pure (s.extend env block)

/-- A genesis block: it carries no extension block. -/
structure Genesis where
  block : Block
  noMweb : block.mwebBlock = none

/-- The chain of the genesis block alone, with a default index entry. -/
def genesisState (genesis : Genesis) : ChainState := ⟨⟨genesis.block, ⟨0, 0, 0⟩⟩, []⟩

/-- The chains that accepting blocks one after another leads to from the genesis. -/
def Reachable (genesis : Genesis) : ChainState → Prop :=
  Runs.Reachable (acceptBlock env) (genesisState genesis)

end Pussycoin.Mweb
