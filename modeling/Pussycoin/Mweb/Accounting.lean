import Pussycoin.Mweb.Node

/-! Peg accounting along accepted chains. A connected block's index records the txid and
first output of its own HogEx, and `ConnectBlock` checks the next HogEx against that
record, so the MWEB balance is carried from HogEx to HogEx exactly while every block has
an extension block; a block without one starts the record again from zero. -/
namespace Pussycoin.Mweb

variable (env : Env)

/-! ## One step -/

/-- What accepting a block does, all at once: every check passes and the block becomes
the tip over the old chain. -/
theorem acceptBlock_eq_ok {s s' : ChainState} {block : Block} :
    acceptBlock env s block = .ok s' ↔
      checkBlock env block = .ok () ∧ Node.contextualCheckBlock env s block = .ok () ∧
      env.otherChecks s.blocks block = .ok () ∧ Node.connectBlock env s block = .ok () ∧
      s' = s.extend env block := by
  simp only [acceptBlock, Runs.bind_eq_ok, Runs.pure_eq_ok]
  constructor
  · rintro ⟨⟨⟩, checked, ⟨⟩, contextual, ⟨⟩, others, ⟨⟩, connected, rfl⟩
    exact ⟨checked, contextual, others, connected, rfl⟩
  · rintro ⟨checked, contextual, others, connected, rfl⟩
    exact ⟨(), checked, (), contextual, (), others, (), connected, rfl⟩

theorem accumulatePegins_ok {amount total : ℤ} {values : List ℤ}
    (ok : accumulatePegins amount values = .ok total) : total = amount + values.sum := by
  induction values generalizing amount with
  | nil =>
    simp only [accumulatePegins, Runs.pure_eq_ok] at ok
    simp [ok]
  | cons value values ih =>
    simp only [accumulatePegins] at ok
    split at ok
    · rw [ih ok, List.sum_cons]
      ring
    · exact absurd ok Runs.throw_ne_ok

/-- Past the first HogEx, a HogEx that `ConnectBlock` accepts spends output 0 of the
HogEx that the tip's index records. -/
theorem checkPrevHogEx_ok {s : ChainState} {hogEx : Transaction}
    (ok : Node.checkPrevHogEx env s hogEx = .ok ()) (enabled : env.isMWEBEnabled s.ancestors = true) :
    hogEx.vin.head?.map (·.prevout) = some ⟨s.tip.index.hogexHash, 0⟩ := by
  simp only [Node.checkPrevHogEx, enabled, if_true] at ok
  cases first : hogEx.vin.head? with
  | none => simp [first] at ok
  | some input =>
    simp only [first, Runs.rejectIf_eq_ok, not_or, not_not] at ok
    obtain ⟨index, hash⟩ := ok
    rw [Option.map_some, hash, ← index]

/-- What a successful `ConnectBlock` establishes about a HogEx: the link to the recorded
HogEx, and a first output that is the recorded amount plus the block's supply change. -/
theorem connectHogEx_ok {s : ChainState} {block : Block} {mwebBlock : MwebBlock}
    {hogEx : Transaction} (ok : Node.connectHogEx env s block mwebBlock hogEx = .ok ()) :
    Node.checkPrevHogEx env s hogEx = .ok () ∧
    hogEx.vout.head?.map (·.nValue) = some (s.tip.index.mwebAmount + mwebBlock.supplyChange) := by
  simp only [Node.connectHogEx, Runs.bind_eq_ok, Runs.rejectIf_eq_ok, not_not] at ok
  obtain ⟨⟨⟩, linked, -, -, ⟨⟩, -, ⟨⟩, amount, -⟩ := ok
  exact ⟨linked, amount⟩

/-! ## The records of the index -/

/-- The HogEx txid that the index records for a connected block: that of its HogEx when
it has an extension block and a HogEx, and the zero hash otherwise. -/
def recordedHogEx (cb : ConnectedBlock) : ℕ :=
  match cb.block.mwebBlock, cb.block.getHogEx with
  | some _, some hogEx => getHash env hogEx
  | _, _ => 0

/-- The MWEB amount that the index accounts for at the head of a chain: the supply
changes of the blocks back to the last one without an extension block or a HogEx. -/
def recordedSupply : List ConnectedBlock → ℤ
  | [] => 0
  | cb :: older =>
    match cb.block.mwebBlock, cb.block.getHogEx with
    | some mwebBlock, some _ => mwebBlock.supplyChange + recordedSupply older
    | _, _ => 0

/-- The sum of the supply changes of every extension block of a chain. -/
def totalSupplyChange (chain : List ConnectedBlock) : ℤ :=
  (chain.map fun cb => (cb.block.mwebBlock.map (·.supplyChange)).getD 0).sum

theorem getHogEx_eq_some {block : Block} {hogEx : Transaction}
    (found : block.getHogEx = some hogEx) : block.vtx.getLast? = some hogEx := by
  simp only [Block.getHogEx] at found
  split at found
  · exact Option.eq_some_of_filter_eq_some found
  · cases found

/-- The amount the index records for a block connected on `s`: the tip's amount plus the
block's supply change when the block has an extension block and a HogEx, and zero
otherwise. -/
theorem connectIndex_mwebAmount {s : ChainState} {block : Block}
    (connected : Node.connectBlock env s block = .ok ()) :
    (connectIndex env s.tip.index block).mwebAmount =
      match block.mwebBlock, block.getHogEx with
      | some mwebBlock, some _ => s.tip.index.mwebAmount + mwebBlock.supplyChange
      | _, _ => 0 := by
  unfold connectIndex
  cases mweb : block.mwebBlock with
  | none => rfl
  | some mwebBlock =>
    cases found : block.getHogEx with
    | none => rfl
    | some hogEx =>
      have last := getHogEx_eq_some found
      simp only [Node.connectBlock, mweb, last] at connected
      simp [(connectHogEx_ok env connected).2]

/-- What the index of a chain's tip records. -/
structure TipRecords (s : ChainState) : Prop where
  hogexHash : s.tip.index.hogexHash = recordedHogEx env s.tip
  mwebAmount : s.tip.index.mwebAmount = recordedSupply s.blocks

theorem tipRecords_genesis (genesis : Genesis) : TipRecords env (genesisState genesis) where
  hogexHash := by simp [genesisState, recordedHogEx, genesis.noMweb]
  mwebAmount := by simp [genesisState, ChainState.blocks, recordedSupply, genesis.noMweb]

/-- Connecting a block keeps the records: the new index is computed from the block. -/
theorem tipRecords_accept {s s' : ChainState} {block : Block} (records : TipRecords env s)
    (accepted : acceptBlock env s block = .ok s') : TipRecords env s' := by
  obtain ⟨-, -, -, connected, rfl⟩ := (acceptBlock_eq_ok env).1 accepted
  have amount := connectIndex_mwebAmount env connected
  constructor
  · simp only [ChainState.extend, recordedHogEx, connectIndex]
    cases block.mwebBlock <;> cases block.getHogEx <;> rfl
  · have head : recordedSupply (⟨block, connectIndex env s.tip.index block⟩ :: s.blocks) =
        match block.mwebBlock, block.getHogEx with
        | some mwebBlock, some _ => mwebBlock.supplyChange + recordedSupply s.blocks
        | _, _ => 0 := rfl
    show (connectIndex env s.tip.index block).mwebAmount =
      recordedSupply (⟨block, connectIndex env s.tip.index block⟩ :: s.blocks)
    rw [head, amount, records.mwebAmount]
    cases block.mwebBlock <;> cases block.getHogEx <;> simp only [add_comm]

/-- Along every accepted chain, the tip's index records the txid of the tip's own HogEx
and the supply changes back to the last block without one. -/
theorem reachable_tipRecords {genesis : Genesis} {s : ChainState}
    (reach : Reachable env genesis s) : TipRecords env s :=
  Runs.Reachable.invariant (tipRecords_genesis env genesis)
    (fun _ _ _ records accepted => tipRecords_accept env records accepted) reach

/-- Past the first HogEx, the HogEx of a block accepted on an accepted chain spends
output 0 of the tip's HogEx, or output 0 of the zero hash when the tip's block has no
extension block or no HogEx; and its first output adds the block's supply change to the
recorded amount. -/
theorem accepted_hogEx_continues {genesis : Genesis} {s s' : ChainState} {block : Block}
    {mwebBlock : MwebBlock} {hogEx : Transaction} (reach : Reachable env genesis s)
    (accepted : acceptBlock env s block = .ok s') (mweb : block.mwebBlock = some mwebBlock)
    (last : block.vtx.getLast? = some hogEx) (enabled : env.isMWEBEnabled s.ancestors = true) :
    hogEx.vin.head?.map (·.prevout) = some ⟨recordedHogEx env s.tip, 0⟩ ∧
    hogEx.vout.head?.map (·.nValue) = some (recordedSupply s.blocks + mwebBlock.supplyChange) := by
  have records := reachable_tipRecords env reach
  obtain ⟨-, -, -, connected, -⟩ := (acceptBlock_eq_ok env).1 accepted
  simp only [Node.connectBlock, mweb, last] at connected
  obtain ⟨linked, amount⟩ := connectHogEx_ok env connected
  rw [← records.hogexHash, ← records.mwebAmount]
  exact ⟨checkPrevHogEx_ok env linked enabled, amount⟩

/-! ## An enabled block without an extension block

The first HogEx pegs one coin in; the next block is enabled but carries no extension block,
which `ContextualCheckBlock` allows because it has no HogEx and no pegin output. -/

open Emission (COIN)

/-- A coinbase paying `value` to a plain script. -/
def coinbaseTx (value : ℤ) : Transaction :=
  ⟨[⟨⟨0, nullIndex⟩, 2⟩], [⟨value, .other 0⟩], none, false⟩

/-- A transaction that pegs one coin in, to kernel 1. -/
def peginTx : Transaction := ⟨[⟨⟨1, 0⟩, 0⟩], [⟨COIN, .pegin 1⟩], none, false⟩

/-- The first HogEx: it spends the pegin output and holds the coin at the HogAddr of the
extension block with hash 1. -/
def activationHogEx : Transaction :=
  ⟨[⟨⟨getHash env peginTx, 0⟩, 0⟩], [⟨COIN, .hogAddr 1⟩], none, true⟩

/-- The extension block of the first MWEB block on `s`. -/
def activationMwebBlock (s : ChainState) : MwebBlock := ⟨1, s.tip.index.nHeight + 1, 0, COIN⟩

def activationBlock (s : ChainState) : Block :=
  ⟨[coinbaseTx 0, peginTx, activationHogEx env], some (activationMwebBlock s)⟩

/-- An enabled block with neither an extension block nor a HogEx. -/
def emptyBlock : Block := ⟨[coinbaseTx 0], none⟩

/-- A HogEx that spends output 0 of the first HogEx and keeps its coin. -/
def continuationHogEx : Transaction :=
  ⟨[⟨⟨getHash env (activationHogEx env), 0⟩, 0⟩], [⟨COIN, .hogAddr 2⟩], none, true⟩

/-- A block on `s` whose HogEx continues from the first HogEx. -/
def continuationBlock (s : ChainState) : Block :=
  ⟨[coinbaseTx 0, continuationHogEx env], some ⟨2, s.tip.index.nHeight + 1, 0, 0⟩⟩

section Scenario

variable {env} (sizes : ∀ tx, env.serializeSize tx ≤ 1000)
include sizes

theorem not_oversize (tx : Transaction) :
    ¬ env.serializeSize tx * witnessScaleFactor > maxBlockWeight := by
  have small := sizes tx
  simp only [witnessScaleFactor, maxBlockWeight]
  omega

theorem checkBlock_activationBlock (s : ChainState) :
    checkBlock env (activationBlock env s) = .ok () := by
  simp [checkBlock, checkCoinbase, activationBlock, checkTransaction, coinbaseTx, peginTx,
    activationHogEx, Node.checkBlock, checkOutputValues, not_oversize sizes,
    Transaction.isCoinBase, Transaction.hasMWEBTx, OutPoint.isNull, nullIndex, moneyRange,
    maxMoney, COIN]

omit sizes in
theorem contextualCheckBlock_activationBlock {s : ChainState}
    (enabled : env.isMWEBEnabled s.blocks = true) (first : env.isMWEBEnabled s.ancestors = false)
    (validates : env.validateBlock (activationMwebBlock s) [⟨COIN, 1⟩] [] = true) :
    Node.contextualCheckBlock env s (activationBlock env s) = .ok () := by
  simpa [Node.contextualCheckBlock, Node.checkHogEx, enabled, first, activationBlock,
    activationMwebBlock, activationHogEx, coinbaseTx, peginTx, Block.peginOutPoints,
    Block.middleTxs, Transaction.peginOutPoints, matchPegins, Node.validateMWEBBlock,
    Block.pegins, Transaction.isCoinBase, OutPoint.isNull, nullIndex,
    Script.isMWEBPegin, Script.peginKernelId, Script.hogAddrHash] using validates

omit sizes in
theorem connectBlock_activationBlock {s : ChainState} (first : env.isMWEBEnabled s.ancestors = false)
    (noAmount : s.tip.index.mwebAmount = 0)
    (applies : env.applyBlock s.blocks (activationMwebBlock s) = true) :
    Node.connectBlock env s (activationBlock env s) = .ok () := by
  simpa [Node.connectBlock, Node.connectHogEx, Node.checkPrevHogEx, first, noAmount,
    activationBlock, activationMwebBlock, activationHogEx, coinbaseTx, peginTx,
    Block.peginValues, Block.middleTxs, accumulatePegins, Transaction.getValueOut,
    Script.isMWEBPegin, Script.peginKernelId, moneyRange, maxMoney, COIN] using applies

theorem checkBlock_emptyBlock : checkBlock env emptyBlock = .ok () := by
  simp [checkBlock, checkCoinbase, emptyBlock, checkTransaction, coinbaseTx, Node.checkBlock,
    checkOutputValues, not_oversize sizes, Transaction.isCoinBase, Transaction.hasMWEBTx,
    OutPoint.isNull, nullIndex, moneyRange, maxMoney, COIN]

omit sizes in
theorem contextualCheckBlock_emptyBlock {s : ChainState}
    (enabled : env.isMWEBEnabled s.blocks = true) :
    Node.contextualCheckBlock env s emptyBlock = .ok () := by
  simp [Node.contextualCheckBlock, enabled, emptyBlock, Block.hasMWEBActivity, coinbaseTx,
    Transaction.isCoinBase, OutPoint.isNull, nullIndex]

omit sizes in
/-- Past the first HogEx, `ConnectBlock` refuses a HogEx that spends output 0 of a HogEx
other than the one the tip's index records. -/
theorem connectBlock_continuation_refused {s : ChainState}
    (enabled : env.isMWEBEnabled s.ancestors = true)
    (forgotten : s.tip.index.hogexHash ≠ getHash env (activationHogEx env)) :
    Node.connectBlock env s (continuationBlock env s) = .error "invalid-hogex-input" := by
  have refused : Node.checkPrevHogEx env s (continuationHogEx env) = .error "invalid-hogex-input" := by
    simp only [Node.checkPrevHogEx, enabled, if_true, continuationHogEx, List.head?_cons]
    exact Runs.rejectIf_of_holds (Or.inr forgotten)
  exact Runs.bind_of_error refused

/-- After the first HogEx, an enabled block without an extension block is accepted, and
its index forgets the HogEx and the MWEB amount. The next HogEx is then checked against
the zero hash, so the HogEx that continues from the first one is refused. -/
theorem empty_block_drops_hogex_record {s : ChainState}
    (enabled : env.isMWEBEnabled s.blocks = true)
    (first : env.isMWEBEnabled s.ancestors = false)
    (stays : ∀ cb, env.isMWEBEnabled (cb :: s.blocks) = true)
    (noAmount : s.tip.index.mwebAmount = 0)
    (hashed : getHash env (activationHogEx env) ≠ 0)
    (validates : env.validateBlock (activationMwebBlock s) [⟨COIN, 1⟩] [] = true)
    (applies : env.applyBlock s.blocks (activationMwebBlock s) = true)
    (others : ∀ chain block, env.otherChecks chain block = .ok ()) :
    ∃ s₁ s₂, acceptBlock env s (activationBlock env s) = .ok s₁ ∧
      acceptBlock env s₁ emptyBlock = .ok s₂ ∧
      s₁.tip.index.hogexHash = getHash env (activationHogEx env) ∧
      s₁.tip.index.mwebAmount = COIN ∧
      s₂.tip.index.hogexHash = 0 ∧ s₂.tip.index.mwebAmount = 0 ∧
      Node.connectBlock env s₂ (continuationBlock env s₂) = .error "invalid-hogex-input" := by
  let s₁ := s.extend env (activationBlock env s)
  have accepted₁ : acceptBlock env s (activationBlock env s) = .ok s₁ :=
    (acceptBlock_eq_ok env).2 ⟨checkBlock_activationBlock sizes s,
      contextualCheckBlock_activationBlock enabled first validates, others _ _,
      connectBlock_activationBlock first noAmount applies, rfl⟩
  have accepted₂ : acceptBlock env s₁ emptyBlock = .ok (s₁.extend env emptyBlock) :=
    (acceptBlock_eq_ok env).2 ⟨checkBlock_emptyBlock sizes,
      contextualCheckBlock_emptyBlock (stays _), others _ _, rfl, rfl⟩
  -- the first HogEx is recorded, and the empty block's fresh index records nothing
  have recorded : s₁.tip.index.hogexHash = getHash env (activationHogEx env) := rfl
  refine ⟨s₁, s₁.extend env emptyBlock, accepted₁, accepted₂, recorded, rfl, rfl, rfl, ?_⟩
  exact connectBlock_continuation_refused (stays _) hashed.symm

end Scenario

/-- An environment in which MWEB activates for the block after the genesis block, and
the libmw checks and the remaining checks of block validation accept. -/
def activationEnv : Env where
  serializeHash _ := 1
  serializeSize _ := 100
  isMWEBEnabled chain := decide (1 ≤ chain.length)
  validateBlock _ _ _ := true
  applyBlock _ _ := true
  otherChecks _ _ := pure ()

def activationGenesis : Genesis := ⟨emptyBlock, rfl⟩

theorem activation_chain_drops_hogex_record :
    ∃ s₁ s₂, acceptBlock activationEnv (genesisState activationGenesis)
        (activationBlock activationEnv (genesisState activationGenesis)) = .ok s₁ ∧
      acceptBlock activationEnv s₁ emptyBlock = .ok s₂ ∧
      s₁.tip.index.hogexHash = getHash activationEnv (activationHogEx activationEnv) ∧
      s₁.tip.index.mwebAmount = COIN ∧
      s₂.tip.index.hogexHash = 0 ∧ s₂.tip.index.mwebAmount = 0 ∧
      Node.connectBlock activationEnv s₂ (continuationBlock activationEnv s₂) =
        .error "invalid-hogex-input" :=
  empty_block_drops_hogex_record (fun _ => by simp [activationEnv]) rfl rfl
    (fun _ => by simp [activationEnv, genesisState, ChainState.blocks]) rfl (by decide) rfl rfl
    (fun _ _ => rfl)

end Pussycoin.Mweb
