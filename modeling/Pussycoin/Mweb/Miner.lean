import Pussycoin.Mweb.Accounting

/-! The MWEB part of block assembly: `MWEB::Miner` of `mweb/mweb_miner.cpp` and the MWEB
steps of `BlockAssembler::CreateNewBlock` and `AddToBlock` of `miner.cpp`. Which mempool
entries are tried, and in which order, is the input; each entry is tried alone, and an
entry that fails is left out. The libmw block builder is a parameter. -/
namespace Pussycoin.Mweb

open Runs (rejectIf)

/-- What the miner calls in libmw. -/
structure Builder where
  /-- `BlockBuilder::AddTransaction` on the transactions staged so far. -/
  addTransaction : List MwebTx → MwebTx → List PegInCoin → Bool
  /-- `BlockBuilder::BuildBlock` of a builder made for the given height. -/
  buildBlock : ℕ → List MwebTx → MwebBlock

/-- The state of `MWEB::Miner` between `NewBlock` and `AddHogExTransaction`. -/
structure Miner where
  /-- The transactions the block builder has staged. -/
  staged : List MwebTx
  hogexFees : ℤ
  hogexInputs : List TxIn
  hogexOutputs : List TxOut
  mwebAmountChange : ℤ
  deriving Repr, DecidableEq

/-- `Miner::NewBlock`. -/
def Miner.newBlock : Miner := ⟨[], 0, [], [], 0⟩

variable (env : Env) (builder : Builder)

/-- The erase loop of `ValidatePegIns`: every pegin output erases its coin from the set,
which must hold it. -/
def erasePegins : List TxOut → List PegInCoin → Option (List PegInCoin)
  | [], pegins => some pegins
  | out :: outs, pegins =>
    match out.scriptPubKey.peginKernelId with
    | none => erasePegins outs pegins
    | some kernelId =>
      if (⟨out.nValue, kernelId⟩ : PegInCoin) ∈ pegins then
        erasePegins outs (pegins.erase ⟨out.nValue, kernelId⟩)
      else none

/-- `Miner::ValidatePegIns`: the pegin outputs are the MWEB transaction's pegins, which
the source first collects into an `unordered_set`. -/
def validatePegIns (tx : Transaction) (pegins : List PegInCoin) : Bool :=
  match erasePegins tx.vout pegins.dedup with
  | some rest => rest.isEmpty
  | none => false

/-- A running sum that must stay in `MoneyRange` after each addition. -/
def sumInRange : ℤ → List ℤ → Option ℤ
  | total, [] => some total
  | total, value :: values =>
    if moneyRange (total + value) then sumInRange (total + value) values else none

/-- `Miner::AddMWEBTransaction`, for a transaction that carries MWEB data. Its asserts
on single amounts are failures here, as its range checks on the sums are. -/
def Miner.addMWEBTransaction (miner : Miner) (tx : Transaction) : Option Miner := do
  let mwebTx ← tx.mwebTx
  guard (validatePegIns tx mwebTx.pegIns)
  let peginOuts := tx.vout.zipIdx.filter (·.1.scriptPubKey.isMWEBPegin)
  let vin : List TxIn := peginOuts.map fun out => ⟨⟨getHash env tx, out.2⟩, 0⟩
  guard (peginOuts.all fun out => moneyRange out.1.nValue)
  let peginAmount ← sumInRange 0 (peginOuts.map (·.1.nValue))
  let vout : List TxOut := mwebTx.pegOuts.map fun pegout => ⟨pegout.amount, pegout.scriptPubKey⟩
  guard (vout.all fun out => moneyRange out.nValue)
  let pegoutAmount ← sumInRange 0 (vout.map (·.nValue))
  guard (moneyRange mwebTx.fee)
  guard (builder.addTransaction miner.staged mwebTx mwebTx.pegIns)
  pure
    { staged := miner.staged ++ [mwebTx]
      hogexInputs := miner.hogexInputs ++ vin
      hogexOutputs := miner.hogexOutputs ++ vout
      mwebAmountChange := miner.mwebAmountChange + (peginAmount - (pegoutAmount + mwebTx.fee))
      hogexFees := if tx.isMWEBOnly then miner.hogexFees + mwebTx.fee else miner.hogexFees }

/-- `Miner::AddHogExTransaction` on the previous block: the HogEx, and the extension
block it commits to. -/
def Miner.addHogExTransaction (miner : Miner) (prevBlock : Block) (nHeight : ℕ) :
    Option (Transaction × MwebBlock) := do
  -- the previous HogAddr is the first input when the previous block has a HogEx
  let (prevInputs, previousAmount) ←
    match prevBlock.getHogEx with
    | some prevHogEx => do
      let prevOut ← prevHogEx.vout.head?
      pure ([(⟨⟨getHash env prevHogEx, 0⟩, 0⟩ : TxIn)], prevOut.nValue)
    | none => pure ([], 0)
  let mwebBlock := builder.buildBlock nHeight miner.staged
  let hogAddr : TxOut := ⟨previousAmount + miner.mwebAmountChange, .hogAddr mwebBlock.hash⟩
  guard (moneyRange hogAddr.nValue)
  pure (⟨prevInputs ++ miner.hogexInputs, hogAddr :: miner.hogexOutputs, none, true⟩, mwebBlock)

/-- A mempool entry, by what the assembler reads of it. -/
structure MempoolEntry where
  tx : Transaction
  mwebWeight : ℕ
  deriving Repr, DecidableEq

/-- The block being assembled: the miner, the transactions after the coinbase, and
`nBlockMWEBWeight`. -/
structure Assembly where
  miner : Miner
  vtx : List Transaction
  mwebWeight : ℕ
  deriving Repr, DecidableEq

/-- `BlockAssembler::AddToBlock`: an MWEB-only transaction goes into the extension block
alone; any other is added without its MWEB data. -/
def Assembly.addToBlock (a : Assembly) (entry : MempoolEntry) : Option Assembly := do
  let miner ← if entry.tx.hasMWEBTx then a.miner.addMWEBTransaction env builder entry.tx
    else pure a.miner
  let vtx := if entry.tx.isMWEBOnly then a.vtx else a.vtx ++ [entry.tx.withoutMweb]
  pure ⟨miner, vtx, a.mwebWeight + entry.mwebWeight⟩

/-- `addPackageTxs`, each entry its own package: an entry that `AddToBlock` refuses is
left out. Without MWEB, entries with MWEB data are skipped. -/
def addPackageTxs (includeMWEB : Bool) (entries : List MempoolEntry) : Assembly :=
  entries.foldl (fun a entry =>
      if !includeMWEB && entry.tx.hasMWEBTx then a else (a.addToBlock env builder entry).getD a)
    ⟨Miner.newBlock, [], 0⟩

/-- `BlockAssembler::CreateNewBlock` on the tip of `s`, with the coinbase it builds. -/
def createNewBlock (s : ChainState) (coinbase : Transaction) (entries : List MempoolEntry) :
    Option Block := do
  let fIncludeMWEB := env.isMWEBEnabled s.blocks
  let a := addPackageTxs env builder fIncludeMWEB entries
  -- a HogEx when there is MWEB weight, or to continue the previous block's HogEx
  let needsHogEx := fIncludeMWEB && (0 < a.mwebWeight ||
    (0 < s.tip.index.nHeight && (s.tip.block.vtx.getLast?.map (·.hogEx)).getD false))
  if needsHogEx then
    let (hogEx, mwebBlock) ← a.miner.addHogExTransaction env builder s.tip.block
      (s.tip.index.nHeight + 1)
    pure ⟨coinbase :: a.vtx ++ [hogEx], some mwebBlock⟩
  else pure ⟨coinbase :: a.vtx, none⟩

/-! ## A HogEx after a block without one -/

open Emission (COIN)

/-- The MWEB part of `peginEntry`: one pegin of a coin to kernel 1. -/
def peginMwebTx : MwebTx := ⟨[⟨COIN, 1⟩], [], 0⟩

/-- A mempool transaction that pegs one coin in, to kernel 1. -/
def peginEntry : MempoolEntry :=
  ⟨⟨[⟨⟨1, 0⟩, 0⟩], [⟨COIN, .pegin 1⟩], some peginMwebTx, false⟩, 1⟩

/-- The miner stages the pegin and takes its output as a HogEx input. -/
theorem addPackageTxs_peginEntry (stages : builder.addTransaction [] peginMwebTx [⟨COIN, 1⟩] = true) :
    addPackageTxs env builder true [peginEntry] =
      ⟨⟨[peginMwebTx], 0, [⟨⟨getHash env peginEntry.tx, 0⟩, 0⟩], [], COIN⟩,
        [peginEntry.tx.withoutMweb], 1⟩ := by
  simp only [peginMwebTx, COIN] at stages
  simp [addPackageTxs, Assembly.addToBlock, Miner.addMWEBTransaction, validatePegIns,
    erasePegins, sumInRange, peginEntry, peginMwebTx, stages, Miner.newBlock,
    Transaction.hasMWEBTx, Transaction.isMWEBOnly, Script.isMWEBPegin, Script.peginKernelId,
    moneyRange, maxMoney, COIN]

/-- Past the first enabled block, on a tip whose block has no HogEx, the miner builds a
HogEx whose only input is the pegin; `ContextualCheckBlock` looks for that pegin at input
index 1 and refuses the block. -/
theorem hogEx_after_block_without_hogEx_refused {s : ChainState} {coinbase : Transaction}
    (enabled : env.isMWEBEnabled s.blocks = true)
    (pastFirst : env.isMWEBEnabled s.ancestors = true)
    (noHogEx : s.tip.block.getHogEx = none)
    (stages : builder.addTransaction [] peginMwebTx [⟨COIN, 1⟩] = true)
    (height : ∀ nHeight txs, (builder.buildBlock nHeight txs).height = nHeight)
    (coinbaseNoPegin : coinbase.vout.all (fun out => !out.scriptPubKey.isMWEBPegin) = true)
    (coinbaseNotHogEx : coinbase.hogEx = false) :
    ∃ block, createNewBlock env builder s coinbase [peginEntry] = some block ∧
      Node.contextualCheckBlock env s block = .error "pegins-missing" := by
  let mwebBlock := builder.buildBlock (s.tip.index.nHeight + 1) [peginMwebTx]
  let hogEx : Transaction :=
    ⟨[⟨⟨getHash env peginEntry.tx, 0⟩, 0⟩], [⟨COIN, .hogAddr mwebBlock.hash⟩], none, true⟩
  refine ⟨⟨[coinbase, peginEntry.tx.withoutMweb, hogEx], some mwebBlock⟩, ?_, ?_⟩
  · simp [createNewBlock, enabled, addPackageTxs_peginEntry env builder stages,
      Miner.addHogExTransaction, noHogEx, moneyRange, maxMoney, COIN, mwebBlock, hogEx]
  · have noPegin : ¬ ∃ out ∈ coinbase.vout, out.scriptPubKey.isMWEBPegin = true := by
      simpa using coinbaseNoPegin
    simp [Node.contextualCheckBlock, enabled, Node.checkHogEx, pastFirst, hogEx, mwebBlock,
      height, coinbaseNotHogEx, Script.hogAddrHash, noPegin, peginEntry, Transaction.withoutMweb,
      Transaction.isCoinBase, OutPoint.isNull, Block.peginOutPoints, Block.middleTxs,
      Transaction.peginOutPoints, List.filter_cons, matchPegins]

/-- The test networks' environment: the MWEB deployment is `ALWAYS_ACTIVE`, so
`IsMWEBEnabled` holds for every block, the null `pprev` of the genesis block included. -/
def alwaysActiveEnv : Env where
  serializeHash _ := 1
  serializeSize _ := 100
  isMWEBEnabled _ := true
  validateBlock _ _ _ := true
  applyBlock _ _ := true
  otherChecks _ _ := pure ()

/-- A block builder that stages every transaction and builds at the requested height. -/
def stagingBuilder : Builder where
  addTransaction _ _ _ := true
  buildBlock nHeight _ := ⟨7, nHeight, 0, COIN⟩

theorem always_active_first_hogEx_refused :
    ∃ block, createNewBlock alwaysActiveEnv stagingBuilder (genesisState activationGenesis)
        (coinbaseTx 0) [peginEntry] = some block ∧
      Node.contextualCheckBlock alwaysActiveEnv (genesisState activationGenesis) block =
        .error "pegins-missing" :=
  hogEx_after_block_without_hogEx_refused alwaysActiveEnv stagingBuilder rfl rfl rfl rfl
    (fun _ _ => rfl) rfl rfl

end Pussycoin.Mweb
