import Pussycoin.Coins.Cache

/-! What the UTXO cache stands for: a flat map from outpoints to coins. A read through the
layers finds the first layer's entry, or the map at the bottom (`view`). A layer is
consistent with the view below it (`LayerOk`) when its entries without `DIRTY` agree with
that view, an entry with `FRESH` has no unspent coin below it, and `cachedCoinsUsage` is the
memory of its coins. Every call keeps the layers consistent and the view of the top equal to
the flat map, as long as `AddCoin` is told it cannot overwrite only where there is no
unspent coin; and then `BatchWrite` never throws. -/
namespace Pussycoin.Coins

open Keyed

variable {α V : Type} [DecidableEq α]

/-- A read through one layer over the view below it. -/
def readThrough (cacheCoins : AList fun _ : α => CacheEntry V) (below : α → Option V) (a : α) : Option V :=
  ((cacheCoins.lookup a).map CacheEntry.coin).getD (below a)

/-- What a read from the top of the layers finds, without the caching a read does. -/
def view (db : α → Option V) : List (CoinsViewCache α V) → α → Option V
  | [] => db
  | layer :: below => readThrough layer.cacheCoins (view db below)

theorem view_append (db : α → Option V) (above below : List (CoinsViewCache α V)) :
    view db (above ++ below) = view (view db below) above := by
  induction above with
  | nil => rfl
  | cons layer above ih => rw [List.cons_append, view, view, ih]

theorem readThrough_of_lookup {s : AList fun _ : α => CacheEntry V} (below : α → Option V) {a : α}
    {entry : CacheEntry V} (found : s.lookup a = some entry) : readThrough s below a = entry.coin := by
  simp [readThrough, found]

theorem readThrough_of_lookup_none {s : AList fun _ : α => CacheEntry V} (below : α → Option V) {a : α}
    (absent : s.lookup a = none) : readThrough s below a = below a := by
  simp [readThrough, absent]

@[simp] theorem readThrough_empty (below : α → Option V) : readThrough (∅ : AList fun _ : α => CacheEntry V) below = below :=
  rfl

theorem readThrough_insert (s : AList fun _ : α => CacheEntry V) (below : α → Option V) (a : α)
    (entry : CacheEntry V) :
    readThrough (s.insert a entry) below = Function.update (readThrough s below) a entry.coin := by
  funext b
  by_cases same : b = a
  · subst same
    simp [readThrough]
  · simp [readThrough, AList.lookup_insert_ne same, Function.update_of_ne same]

theorem readThrough_erase (s : AList fun _ : α => CacheEntry V) (below : α → Option V) (a : α) :
    readThrough (s.erase a) below = Function.update (readThrough s below) a (below a) := by
  funext b
  by_cases same : b = a
  · subst same
    simp [readThrough]
  · simp [readThrough, AList.lookup_erase_ne same, Function.update_of_ne same]

variable (usage : V → ℕ)

/-- The memory of the coins of a layer's entries. -/
def coinsUsage (cacheCoins : AList fun _ : α => CacheEntry V) : ℕ :=
  total (fun entry => dynamicMemoryUsage usage entry.coin) cacheCoins

structure LayerOk (layer : CoinsViewCache α V) (below : α → Option V) : Prop where
  clean : ∀ a entry, layer.cacheCoins.lookup a = some entry → entry.dirty = false → entry.coin = below a
  fresh : ∀ a entry, layer.cacheCoins.lookup a = some entry → entry.fresh = true → below a = none
  usage : layer.cachedCoinsUsage = coinsUsage usage layer.cacheCoins

def StackOk (db : α → Option V) : List (CoinsViewCache α V) → Prop
  | [] => True
  | layer :: below => LayerOk usage layer (view db below) ∧ StackOk db below

theorem stackOk_append (db : α → Option V) (above below : List (CoinsViewCache α V)) :
    StackOk usage db (above ++ below) ↔ StackOk usage (view db below) above ∧ StackOk usage db below := by
  induction above with
  | nil => simp [StackOk]
  | cons layer above ih => simp only [List.cons_append, StackOk, ih, view_append, and_assoc]

theorem layerOk_empty (below : α → Option V) : LayerOk usage CoinsViewCache.empty below := by
  refine ⟨fun _ _ found => ?_, fun _ _ found => ?_, rfl⟩ <;>
    simp [CoinsViewCache.empty, AList.lookup_empty] at found

/-! ### Changes to one layer -/

theorem coinsUsage_insert (s : AList fun _ : α => CacheEntry V) (a : α) (entry : CacheEntry V) :
    coinsUsage usage (s.insert a entry) = coinsUsage usage s - held (fun entry => dynamicMemoryUsage usage entry.coin) s a +
      dynamicMemoryUsage usage entry.coin := by
  have split := total_eq_erase_add (fun entry : CacheEntry V => dynamicMemoryUsage usage entry.coin) a s
  rw [coinsUsage, coinsUsage, total_insert]
  omega

theorem coinsUsage_erase (s : AList fun _ : α => CacheEntry V) (a : α) :
    coinsUsage usage (s.erase a) = coinsUsage usage s - held (fun entry => dynamicMemoryUsage usage entry.coin) s a := by
  have split := total_eq_erase_add (fun entry : CacheEntry V => dynamicMemoryUsage usage entry.coin) a s
  rw [coinsUsage, coinsUsage]
  omega

theorem held_of_lookup {s : AList fun _ : α => CacheEntry V} {a : α} {entry : CacheEntry V}
    (found : s.lookup a = some entry) :
    held (fun entry => dynamicMemoryUsage usage entry.coin) s a = dynamicMemoryUsage usage entry.coin := by
  simp [held, found]

theorem held_of_lookup_none {s : AList fun _ : α => CacheEntry V} {a : α} (absent : s.lookup a = none) :
    held (fun entry => dynamicMemoryUsage usage entry.coin) s a = 0 := by
  simp [held, absent]

namespace LayerOk

variable {usage} {layer : CoinsViewCache α V} {below : α → Option V}

/-- A layer stays consistent when one entry is replaced by one consistent itself, and the
usage by what that replacement makes of it. -/
theorem insert (ok : LayerOk usage layer below) (a : α) (entry : CacheEntry V)
    (clean : entry.dirty = false → entry.coin = below a) (fresh : entry.fresh = true → below a = none)
    {cachedCoinsUsage : ℕ}
    (usageEq : cachedCoinsUsage = layer.cachedCoinsUsage - held (fun entry => dynamicMemoryUsage usage entry.coin)
      layer.cacheCoins a + dynamicMemoryUsage usage entry.coin) :
    LayerOk usage ⟨layer.cacheCoins.insert a entry, cachedCoinsUsage⟩ below := by
  refine ⟨fun b other found notDirty => ?_, fun b other found isFresh => ?_, ?_⟩
  · by_cases same : b = a
    · subst same
      rw [AList.lookup_insert, Option.some.injEq] at found
      subst found
      exact clean notDirty
    · rw [AList.lookup_insert_ne same] at found
      exact ok.clean b other found notDirty
  · by_cases same : b = a
    · subst same
      rw [AList.lookup_insert, Option.some.injEq] at found
      subst found
      exact fresh isFresh
    · rw [AList.lookup_insert_ne same] at found
      exact ok.fresh b other found isFresh
  · rw [usageEq, ok.usage, coinsUsage_insert]

/-- A `DIRTY` entry needs only its `FRESH` flag to be sound. -/
theorem insert_dirty (ok : LayerOk usage layer below) (a : α) (coin : Option V) (fresh : Bool)
    (freshOk : fresh = true → below a = none) {cachedCoinsUsage : ℕ}
    (usageEq : cachedCoinsUsage = layer.cachedCoinsUsage - held (fun entry => dynamicMemoryUsage usage entry.coin)
      layer.cacheCoins a + dynamicMemoryUsage usage coin) :
    LayerOk usage ⟨layer.cacheCoins.insert a ⟨coin, true, fresh⟩, cachedCoinsUsage⟩ below :=
  ok.insert a ⟨coin, true, fresh⟩ (fun notDirty => by cases notDirty) freshOk usageEq

theorem erase (ok : LayerOk usage layer below) (a : α) {cachedCoinsUsage : ℕ}
    (usageEq : cachedCoinsUsage = layer.cachedCoinsUsage -
      held (fun entry => dynamicMemoryUsage usage entry.coin) layer.cacheCoins a) :
    LayerOk usage ⟨layer.cacheCoins.erase a, cachedCoinsUsage⟩ below := by
  refine ⟨fun b other found notDirty => ?_, fun b other found isFresh => ?_, ?_⟩
  · by_cases same : b = a
    · subst same
      rw [AList.lookup_erase] at found
      cases found
    · rw [AList.lookup_erase_ne same] at found
      exact ok.clean b other found notDirty
  · by_cases same : b = a
    · subst same
      rw [AList.lookup_erase] at found
      cases found
    · rw [AList.lookup_erase_ne same] at found
      exact ok.fresh b other found isFresh
  · rw [usageEq, ok.usage, coinsUsage_erase]

end LayerOk

/-! ### Reads -/

/-- A read finds what the view holds, and what it caches changes neither the view nor the
consistency of the layers. -/
theorem getCoin_spec (db : α → Option V) (a : α) :
    ∀ {layers : List (CoinsViewCache α V)}, StackOk usage db layers →
      (getCoin usage db a layers).1 = view db layers a ∧ view db (getCoin usage db a layers).2 = view db layers ∧
        StackOk usage db (getCoin usage db a layers).2
  | [], _ => ⟨rfl, rfl, trivial⟩
  | layer :: below, ⟨layerOk, belowOk⟩ => by
    obtain ⟨found, sameView, belowOk'⟩ := getCoin_spec db a belowOk
    cases cached : layer.cacheCoins.lookup a with
    | some entry =>
      have result : getCoin usage db a (layer :: below) = (entry.coin, layer :: below) := by
        simp only [getCoin, cached]
      rw [result]
      exact ⟨(readThrough_of_lookup _ cached).symm, rfl, layerOk, belowOk⟩
    | none =>
      have shown := readThrough_of_lookup_none (view db below) cached
      rcases fetched : getCoin usage db a below with ⟨_ | coin, below'⟩
      · rw [fetched] at found sameView belowOk'
        simp only [getCoin, cached, fetched, view]
        exact ⟨by rw [shown]; exact found, by rw [sameView], by rw [sameView]; exact layerOk, belowOk'⟩
      · rw [fetched] at found sameView belowOk'
        dsimp only at found sameView belowOk'
        simp only [getCoin, cached, fetched]
        -- the fetched coin is cached clean: it is what the view below holds
        refine ⟨by rw [view, shown]; exact found, ?_, ?_, belowOk'⟩
        · simp only [view, CoinsViewCache.emplaceFetched, readThrough_insert, sameView]
          rw [found, ← shown, Function.update_eq_self]
        · rw [sameView]
          exact layerOk.insert a _ (fun _ => found) (fun isFresh => by cases isFresh)
            (by rw [held_of_lookup_none usage cached]; rfl)

/-- `FetchCoin` of a layer makes the same layers as `GetCoin` through it. -/
theorem fetchCoin_layers (db : α → Option V) (a : α) (layer : CoinsViewCache α V) (below : List (CoinsViewCache α V)) :
    (fetchCoin usage db a layer below).2.1 :: (fetchCoin usage db a layer below).2.2 =
      (getCoin usage db a (layer :: below)).2 := by
  simp only [fetchCoin, getCoin]
  cases layer.cacheCoins.lookup a with
  | some entry => rfl
  | none => rcases getCoin usage db a below with ⟨_ | coin, below'⟩ <;> rfl

/-- The entry `FetchCoin` gives is the layer's entry after the fetch; where there is none,
the view holds no coin. -/
theorem fetchCoin_entry (db : α → Option V) (a : α) (layer : CoinsViewCache α V) (below : List (CoinsViewCache α V)) :
    (fetchCoin usage db a layer below).2.1.cacheCoins.lookup a = (fetchCoin usage db a layer below).1 ∧
      ((fetchCoin usage db a layer below).1 = none → (getCoin usage db a (layer :: below)).1 = none) := by
  simp only [fetchCoin, getCoin]
  cases cached : layer.cacheCoins.lookup a with
  | some entry => exact ⟨cached, fun absent => by cases absent⟩
  | none =>
    rcases getCoin usage db a below with ⟨_ | coin, below'⟩
    · exact ⟨cached, fun _ => rfl⟩
    · exact ⟨AList.lookup_insert _, fun absent => by cases absent⟩

theorem length_getCoin (db : α → Option V) (a : α) :
    ∀ layers : List (CoinsViewCache α V), (getCoin usage db a layers).2.length = layers.length
  | [] => rfl
  | layer :: below => by
    have others := length_getCoin db a below
    simp only [getCoin]
    cases layer.cacheCoins.lookup a with
    | some entry => rfl
    | none =>
      rcases fetched : getCoin usage db a below with ⟨_ | coin, below'⟩ <;>
        simp only [fetched] at others <;> simp [others]

/-! ### Writes at the top -/

/-- `SpendCoin` at the top leaves the layers consistent, and the coin spent in the view. -/
theorem spendCoin_spec (db : α → Option V) (a : α) {layer : CoinsViewCache α V} {below : List (CoinsViewCache α V)}
    (ok : StackOk usage db (layer :: below)) :
    view db (spendCoin usage db a (layer :: below)).2 = Function.update (view db (layer :: below)) a none ∧
      StackOk usage db (spendCoin usage db a (layer :: below)).2 ∧
      (spendCoin usage db a (layer :: below)).2.length = (layer :: below).length := by
  obtain ⟨found, sameView, fetchedOk⟩ := getCoin_spec usage db a ok
  obtain ⟨entryEq, absent⟩ := fetchCoin_entry usage db a layer below
  have layers := fetchCoin_layers usage db a layer below
  have lengthEq := length_getCoin usage db a (layer :: below)
  rw [← layers] at sameView fetchedOk lengthEq
  rcases fetched : fetchCoin usage db a layer below with ⟨_ | entry, layer', below'⟩
  · rw [fetched] at sameView fetchedOk absent lengthEq
    simp only [spendCoin, fetched]
    refine ⟨?_, fetchedOk, lengthEq⟩
    -- nothing to spend: the view holds no coin there already
    have spent : view db (layer :: below) a = none := by rw [← found, absent rfl]
    rw [sameView]
    exact (Function.update_eq_self_iff.mpr spent.symm).symm
  · rw [fetched] at sameView fetchedOk entryEq lengthEq
    obtain ⟨layerOk, belowOk⟩ := fetchedOk
    have held := held_of_lookup usage entryEq
    simp only [spendCoin, fetched]
    rw [← sameView]
    split
    · rename_i isFresh
      -- a FRESH coin has nothing below it, so the entry goes
      refine ⟨?_, ⟨layerOk.erase a (by rw [held]), belowOk⟩, lengthEq⟩
      rw [view, view, readThrough_erase, layerOk.fresh a entry entryEq isFresh]
    · rename_i notFresh
      refine ⟨?_, ⟨layerOk.insert_dirty a none entry.fresh (fun isFresh => absurd isFresh notFresh)
        (by rw [held]; rfl), belowOk⟩, lengthEq⟩
      rw [view, view, readThrough_insert]

theorem addCoin_spec (unspendable : V → Bool) (db : α → Option V) (a : α) (coin : V) (possibleOverwrite : Bool)
    {layer : CoinsViewCache α V} {below : List (CoinsViewCache α V)} (ok : StackOk usage db (layer :: below))
    (allowed : unspendable coin = false → possibleOverwrite = false → view db (layer :: below) a = none) :
    ∃ layer', layer.addCoin usage unspendable a coin possibleOverwrite = some layer' ∧
      view db (layer' :: below) = (if unspendable coin then view db (layer :: below)
        else Function.update (view db (layer :: below)) a (some coin)) ∧
      StackOk usage db (layer' :: below) := by
  obtain ⟨layerOk, belowOk⟩ := ok
  cases spendable : unspendable coin
  · have spent := allowed spendable
    cases cached : layer.cacheCoins.lookup a with
    | some entry =>
      -- where it cannot overwrite, the entry holds a spent coin, so nothing throws
      have noOverwrite : (!possibleOverwrite && entry.coin.isSome) = false := by
        cases possibleOverwrite
        · have shown : entry.coin = none := by
            rw [← readThrough_of_lookup (view db below) cached]
            exact spent rfl
          simp [shown]
        · rfl
      simp only [CoinsViewCache.addCoin, spendable, cached, noOverwrite, Bool.false_eq_true, if_false]
      refine ⟨_, rfl, ?_, ?_, belowOk⟩
      · rw [view, view, readThrough_insert]
      · refine layerOk.insert_dirty a _ _ (fun isFresh => ?_) (by rw [held_of_lookup usage cached]; rfl)
        -- FRESH if it was, or if a spent coin with no pending change is added back
        simp only [Bool.or_eq_true, Bool.and_eq_true, Bool.not_eq_true'] at isFresh
        rcases isFresh with wasFresh | ⟨noOverwrite, clean⟩
        · exact layerOk.fresh a entry cached wasFresh
        · rw [← layerOk.clean a entry cached clean, ← readThrough_of_lookup (view db below) cached]
          exact spent noOverwrite
    | none =>
      simp only [CoinsViewCache.addCoin, spendable, cached, Option.isSome_none, Bool.and_false,
        Bool.false_eq_true, if_false]
      refine ⟨_, rfl, ?_, ?_, belowOk⟩
      · rw [view, view, readThrough_insert]
      · refine layerOk.insert_dirty a _ _ (fun isFresh => ?_) (by rw [held_of_lookup_none usage cached]; rfl)
        -- FRESH exactly where it cannot overwrite, and then the view below holds nothing
        simp only [Bool.false_or, Bool.not_false, Bool.and_true, Bool.not_eq_true'] at isFresh
        rw [← readThrough_of_lookup_none (view db below) cached]
        exact spent isFresh
  · exact ⟨layer, by simp [CoinsViewCache.addCoin, spendable], by simp, layerOk, belowOk⟩

/-! ### Flushes -/

/-- One entry of `BatchWrite`, where the child's entry is consistent with what the parent
shows: nothing throws, and the parent shows the entry's coin. -/
theorem batchWriteEntry_spec {parent : CoinsViewCache α V} {below : α → Option V} (ok : LayerOk usage parent below)
    (a : α) (entry : CacheEntry V) (clean : entry.dirty = false → entry.coin = readThrough parent.cacheCoins below a)
    (fresh : entry.fresh = true → readThrough parent.cacheCoins below a = none) :
    ∃ parent', parent.batchWriteEntry usage a entry = some parent' ∧ LayerOk usage parent' below ∧
      readThrough parent'.cacheCoins below = Function.update (readThrough parent.cacheCoins below) a entry.coin := by
  cases dirty : entry.dirty
  · -- a clean entry holds what the parent shows already
    refine ⟨parent, by simp [CoinsViewCache.batchWriteEntry, dirty], ok, ?_⟩
    rw [clean dirty, Function.update_eq_self]
  cases ours : parent.cacheCoins.lookup a with
  | none =>
    have shown := readThrough_of_lookup_none below ours
    rw [shown] at fresh
    by_cases spentFresh : (entry.fresh && entry.coin.isNone) = true
    · -- spent and FRESH in the child, absent from the parent: nothing to write
      simp only [Bool.and_eq_true, Option.isNone_iff_eq_none] at spentFresh
      refine ⟨parent, by simp [CoinsViewCache.batchWriteEntry, dirty, ours, spentFresh], ok, ?_⟩
      exact (Function.update_eq_self_iff.mpr (by rw [spentFresh.2, shown, fresh spentFresh.1])).symm
    · have result : parent.batchWriteEntry usage a entry = some ⟨parent.cacheCoins.insert a ⟨entry.coin, true, entry.fresh⟩,
          parent.cachedCoinsUsage + dynamicMemoryUsage usage entry.coin⟩ := by
        simp [CoinsViewCache.batchWriteEntry, dirty, ours, spentFresh]
      refine ⟨_, result, ok.insert_dirty a _ _ fresh ?_, readThrough_insert ..⟩
      rw [held_of_lookup_none usage ours, Nat.sub_zero]
  | some ours' =>
    have shown := readThrough_of_lookup below ours
    have held := held_of_lookup usage ours
    rw [shown] at fresh
    -- a FRESH child entry has no unspent coin in the parent, so nothing throws
    have fits : (entry.fresh && ours'.coin.isSome) = false := by
      cases isFresh : entry.fresh
      · rfl
      · simp [fresh isFresh]
    by_cases spent : (ours'.fresh && entry.coin.isNone) = true
    · -- a spent coin over one FRESH in the parent: the parent's entry goes
      simp only [Bool.and_eq_true, Option.isNone_iff_eq_none] at spent
      have result : parent.batchWriteEntry usage a entry =
          some ⟨parent.cacheCoins.erase a, parent.cachedCoinsUsage - dynamicMemoryUsage usage ours'.coin⟩ := by
        simp [CoinsViewCache.batchWriteEntry, dirty, ours, fits, spent]
      refine ⟨_, result, ok.erase a (by rw [held]), ?_⟩
      rw [readThrough_erase, ok.fresh a ours' ours spent.1, spent.2]
    · have result : parent.batchWriteEntry usage a entry = some ⟨parent.cacheCoins.insert a ⟨entry.coin, true, ours'.fresh⟩,
          parent.cachedCoinsUsage - dynamicMemoryUsage usage ours'.coin + dynamicMemoryUsage usage entry.coin⟩ := by
        simp [CoinsViewCache.batchWriteEntry, dirty, ours, fits, spent]
      exact ⟨_, result, ok.insert_dirty a _ _ (ok.fresh a ours' ours) (by rw [held]), readThrough_insert ..⟩

/-- `BatchWrite` of a layer consistent with its parent: nothing throws, and the parent then
shows what the layer showed. -/
theorem batchWrite_spec {parent : CoinsViewCache α V} {below : α → Option V} (ok : LayerOk usage parent below)
    {child : CoinsViewCache α V} (childOk : LayerOk usage child (readThrough parent.cacheCoins below)) :
    ∃ parent', parent.batchWrite usage child.cacheCoins = some parent' ∧ LayerOk usage parent' below ∧
      readThrough parent'.cacheCoins below = readThrough child.cacheCoins (readThrough parent.cacheCoins below) := by
  obtain ⟨parent', written, parentOk, shown⟩ :=
    foldlM_writes (fun parent : CoinsViewCache α V => readThrough parent.cacheCoins below) CacheEntry.coin
      (LayerOk usage · below)
      (fun shown entry => (entry.dirty = false → entry.coin = shown) ∧ (entry.fresh = true → shown = none))
      (fun cache entry => cache.batchWriteEntry usage entry.1 entry.2)
      (fun _ x cacheOk admitted => batchWriteEntry_spec usage cacheOk x.1 x.2 admitted.1 admitted.2)
      child.cacheCoins.nodupKeys ok
      fun x mem => ⟨childOk.clean x.1 x.2 (AList.mem_lookup_iff.mpr mem), childOk.fresh x.1 x.2 (AList.mem_lookup_iff.mpr mem)⟩
  exact ⟨parent', written, parentOk, funext shown⟩

/-- The map-backed `BatchWrite` of a layer consistent with the map: the map then holds what
the layer showed. -/
theorem batchWriteMap_eq {db : α → Option V} {layer : CoinsViewCache α V} (ok : LayerOk usage layer db) :
    batchWriteMap db layer.cacheCoins = readThrough layer.cacheCoins db := by
  obtain ⟨db', written, -, shown⟩ :=
    foldlM_writes id CacheEntry.coin (fun _ => True) (fun shown entry => entry.dirty = false → entry.coin = shown)
      (fun db entry => pure (if entry.2.dirty then Function.update db entry.1 entry.2.coin else db))
      (fun db x _ clean => ⟨_, rfl, trivial, by
        cases dirty : x.2.dirty
        · simp only [Bool.false_eq_true, if_false, id]
          exact (Function.update_eq_self_iff.mpr (clean dirty)).symm
        · simp only [if_true, id]⟩)
      layer.cacheCoins.nodupKeys trivial fun x mem => ok.clean x.1 x.2 (AList.mem_lookup_iff.mpr mem)
  rw [List.foldlM_pure] at written
  rw [batchWriteMap, Option.some.inj written]
  exact funext shown

/-- What a call on the layers from some layer down must do: keep them consistent, keep their
number, and keep what a read through them finds. -/
def Preserves (call : List (CoinsViewCache α V) → (α → Option V) → Option (List (CoinsViewCache α V) × (α → Option V))) :
    Prop :=
  ∀ layers db, StackOk usage db layers → ∃ layers' db', call layers db = some (layers', db') ∧
    view db' layers' = view db layers ∧ StackOk usage db' layers' ∧ layers'.length = layers.length

theorem flush_preserves : Preserves usage fun (layers : List (CoinsViewCache α V)) db => flush usage db layers := by
  rintro (_ | ⟨layer, _ | ⟨parent, rest⟩⟩) db ok
  · exact ⟨[], db, rfl, rfl, trivial, rfl⟩
  · -- the bottom layer goes to the map
    obtain ⟨layerOk, -⟩ := ok
    have layerOk : LayerOk usage layer db := layerOk
    refine ⟨[CoinsViewCache.empty], _, rfl, ?_, ⟨layerOk_empty usage _, trivial⟩, rfl⟩
    rw [view, view, view, view, batchWriteMap_eq usage layerOk]
    rfl
  · obtain ⟨layerOk, parentOk, restOk⟩ := ok
    obtain ⟨parent', written, parentOk', shown⟩ := batchWrite_spec usage parentOk layerOk
    refine ⟨CoinsViewCache.empty :: parent' :: rest, db, by simp only [flush, written, Option.map_some], ?_,
      ⟨layerOk_empty usage _, parentOk', restOk⟩, rfl⟩
    rw [view, view, view, view, shown]
    rfl

theorem read_preserves (a : α) :
    Preserves usage fun (layers : List (CoinsViewCache α V)) db => some ((getCoin usage db a layers).2, db) := by
  intro layers db ok
  obtain ⟨-, sameView, ok'⟩ := getCoin_spec usage db a ok
  exact ⟨_, db, rfl, sameView, ok', length_getCoin usage db a layers⟩

/-- `Uncache` drops only an entry that agrees with the view below it. -/
theorem uncache_spec {layer : CoinsViewCache α V} {below : α → Option V} (ok : LayerOk usage layer below) (a : α) :
    LayerOk usage (layer.uncache usage a) below ∧
      readThrough (layer.uncache usage a).cacheCoins below = readThrough layer.cacheCoins below := by
  unfold CoinsViewCache.uncache
  cases cached : layer.cacheCoins.lookup a with
  | none => exact ⟨ok, rfl⟩
  | some entry =>
    dsimp only
    split
    · rename_i unflagged
      simp only [Bool.and_eq_true, Bool.not_eq_true'] at unflagged
      refine ⟨ok.erase a (by rw [held_of_lookup usage cached]), ?_⟩
      rw [readThrough_erase]
      exact Function.update_eq_self_iff.mpr (by rw [readThrough_of_lookup below cached, ok.clean a entry cached unflagged.1])
    · exact ⟨ok, rfl⟩

theorem uncache_preserves (a : α) :
    Preserves usage fun (layers : List (CoinsViewCache α V)) db =>
      match layers with
      | [] => some ([], db)
      | layer :: below => some (layer.uncache usage a :: below, db) := by
  rintro (_ | ⟨layer, below⟩) db ok
  · exact ⟨[], db, rfl, rfl, trivial, rfl⟩
  · obtain ⟨layerOk, belowOk⟩ := ok
    obtain ⟨layerOk', shown⟩ := uncache_spec usage layerOk a
    exact ⟨_, db, rfl, by rw [view, view, shown], ⟨layerOk', belowOk⟩, rfl⟩

/-- A call that preserves the layers it acts on, from any layer down, preserves the whole
stack: the layers above read through what it left, which shows the same. -/
theorem atLayer_spec {call : List (CoinsViewCache α V) → (α → Option V) → Option (List (CoinsViewCache α V) × (α → Option V))}
    (preserves : Preserves usage call) (s : Stack α V) (i : ℕ) (ok : StackOk usage s.db s.layers) :
    ∃ s', s.atLayer i call = some s' ∧ view s'.db s'.layers = view s.db s.layers ∧
      StackOk usage s'.db s'.layers ∧ s'.layers.length = s.layers.length := by
  rw [← List.take_append_drop i s.layers, stackOk_append] at ok
  obtain ⟨aboveOk, belowOk⟩ := ok
  obtain ⟨layers', db', called, sameView, ok', sameLength⟩ := preserves _ _ belowOk
  refine ⟨⟨s.layers.take i ++ layers', db'⟩, by rw [Stack.atLayer, called]; rfl, ?_, ?_, ?_⟩
  · show view db' (s.layers.take i ++ layers') = view s.db s.layers
    rw [view_append, sameView, ← view_append, List.take_append_drop]
  · show StackOk usage db' (s.layers.take i ++ layers')
    rw [stackOk_append, sameView]
    exact ⟨aboveOk, ok'⟩
  · show (s.layers.take i ++ layers').length = s.layers.length
    rw [List.length_append, sameLength, ← List.length_append, List.take_append_drop]

/-! ### Runs against the flat map -/

section Flat

variable (unspendable : V → Bool)

/-- The flat map the cache stands for: it takes the writes, and nothing else changes it. -/
def flatStep (flat : α → Option V) : Op α V → α → Option V
  | .addCoin a coin _ => if unspendable coin then flat else Function.update flat a (some coin)
  | .spendCoin a => Function.update flat a none
  | .read _ _ | .uncache _ _ | .flush _ => flat

def flatRun (flat : α → Option V) (ops : List (Op α V)) : α → Option V :=
  ops.foldl (flatStep unspendable) flat

/-- `AddCoin` is told it cannot overwrite a spendable coin only where the flat map holds no
unspent coin, as `AddCoins` tells it when it checks with `HaveCoin`. -/
def Op.Allowed (flat : α → Option V) : Op α V → Prop
  | .addCoin a coin possibleOverwrite => unspendable coin = false → possibleOverwrite = false → flat a = none
  | _ => True

def Allowed (flat : α → Option V) : List (Op α V) → Prop
  | [] => True
  | op :: ops => op.Allowed unspendable flat ∧ Allowed (flatStep unspendable flat op) ops

theorem step_spec (s : Stack α V) (op : Op α V) (ok : StackOk usage s.db s.layers) (nonempty : s.layers ≠ [])
    (allowed : op.Allowed unspendable (view s.db s.layers)) :
    ∃ s', step usage unspendable s op = some s' ∧ view s'.db s'.layers = flatStep unspendable (view s.db s.layers) op ∧
      StackOk usage s'.db s'.layers ∧ s'.layers.length = s.layers.length := by
  obtain ⟨layers, db⟩ := s
  cases op with
  | addCoin a coin possibleOverwrite =>
    obtain ⟨top, below, rfl⟩ := List.exists_cons_of_ne_nil nonempty
    obtain ⟨top', added, shown, ok'⟩ := addCoin_spec usage unspendable db a coin possibleOverwrite ok allowed
    exact ⟨⟨top' :: below, db⟩, by simp only [step, added, Option.map_some], shown, ok', rfl⟩
  | spendCoin a =>
    obtain ⟨top, below, rfl⟩ := List.exists_cons_of_ne_nil nonempty
    obtain ⟨shown, ok', sameLength⟩ := spendCoin_spec usage db a ok
    exact ⟨_, rfl, shown, ok', sameLength⟩
  | read i a => exact atLayer_spec usage (read_preserves usage a) _ i ok
  | uncache i a => exact atLayer_spec usage (uncache_preserves usage a) _ i ok
  | flush i => exact atLayer_spec usage (flush_preserves usage) _ i ok

/-- Every run of allowed calls from consistent layers goes through, keeps them consistent,
and reads through its top as the flat map. By induction on the calls, from `step_spec`. -/
theorem run_spec :
    ∀ (ops : List (Op α V)) (s : Stack α V), StackOk usage s.db s.layers → s.layers ≠ [] →
      Allowed unspendable (view s.db s.layers) ops →
      ∃ s', run usage unspendable s ops = some s' ∧ view s'.db s'.layers = flatRun unspendable (view s.db s.layers) ops ∧
        StackOk usage s'.db s'.layers ∧ s'.layers.length = s.layers.length
  | [], s, ok, _, _ => ⟨s, rfl, rfl, ok, rfl⟩
  | op :: ops, s, ok, nonempty, ⟨allowed, rest⟩ => by
    obtain ⟨s₁, stepped, shown₁, ok₁, length₁⟩ := step_spec usage unspendable s op ok nonempty allowed
    have nonempty₁ : s₁.layers ≠ [] := List.ne_nil_of_length_pos (length₁ ▸ List.length_pos_of_ne_nil nonempty)
    rw [← shown₁] at rest
    obtain ⟨s₂, ran, shown₂, ok₂, length₂⟩ := run_spec ops s₁ ok₁ nonempty₁ rest
    refine ⟨s₂, by rw [run, stepped]; exact ran, ?_, ok₂, length₂.trans length₁⟩
    rw [shown₂, shown₁]
    rfl

end Flat

theorem stackOk_replicate_empty (db : α → Option V) (n : ℕ) :
    StackOk usage db (List.replicate n CoinsViewCache.empty) ∧ view db (List.replicate n CoinsViewCache.empty) = db := by
  induction n with
  | zero => exact ⟨trivial, rfl⟩
  | succ n ih =>
    rw [List.replicate_succ, StackOk, view, ih.2]
    exact ⟨⟨layerOk_empty usage db, ih.1⟩, rfl⟩

/-- Layers made over a map-backed view run every allowed sequence of calls without a
`logic_error`, stay consistent (no unflushed change without `DIRTY`, no `FRESH` entry over
an unspent coin, `cachedCoinsUsage` the memory of the coins held) and `GetCoin` from the top
finds what the flat map that took the same writes holds. -/
theorem cache_matches_flat_map (unspendable : V → Bool) (db : α → Option V) (n : ℕ) (ops : List (Op α V))
    (allowed : Allowed unspendable db ops) :
    ∃ s', run usage unspendable ⟨List.replicate (n + 1) CoinsViewCache.empty, db⟩ ops = some s' ∧
      (∀ a, (getCoin usage s'.db a s'.layers).1 = flatRun unspendable db ops a) ∧
      StackOk usage s'.db s'.layers ∧ s'.layers.length = n + 1 := by
  obtain ⟨ok, shown⟩ := stackOk_replicate_empty usage db (n + 1)
  rw [← shown] at allowed
  obtain ⟨s', ran, shown', ok', sameLength⟩ :=
    run_spec usage unspendable ops ⟨List.replicate (n + 1) CoinsViewCache.empty, db⟩ ok (by simp) allowed
  dsimp only at shown' sameLength
  rw [shown] at shown'
  refine ⟨s', ran, fun a => ?_, ok', by rw [sameLength, List.length_replicate]⟩
  rw [(getCoin_spec usage s'.db a ok').1, shown']

/-- Two layers over an empty map: an outpoint added, flushed into the layer below, and
added again by a transaction that does not check for it. -/
def readdedCoin : List (Op ℕ ℕ) := [.addCoin 0 1 false, .flush 0, .addCoin 0 1 false, .flush 0]

theorem cache_matches_flat_map_spend :
    Allowed (fun _ => false) (fun _ : ℕ => none) [.addCoin 0 1 false, .flush 0, .spendCoin 0, .flush 0, .addCoin 0 2 false] ∧
      ∃ s', run (fun _ => 0) (fun _ => false) ⟨List.replicate 2 CoinsViewCache.empty, fun _ : ℕ => none⟩
          [.addCoin 0 1 false, .flush 0, .spendCoin 0, .flush 0, .addCoin 0 2 false] = some s' ∧
        (∀ a, (getCoin (fun _ => 0) s'.db a s'.layers).1 =
          flatRun (fun _ => false) (fun _ : ℕ => none) [.addCoin 0 1 false, .flush 0, .spendCoin 0, .flush 0, .addCoin 0 2 false] a) ∧
        StackOk (fun _ => 0) s'.db s'.layers ∧ s'.layers.length = 2 := by
  have allowed : Allowed (fun _ => false) (fun _ : ℕ => none)
      [.addCoin 0 1 false, .flush 0, .spendCoin 0, .flush 0, .addCoin 0 2 false] := by
    simp [Allowed, Op.Allowed, flatStep]
  exact ⟨allowed, cache_matches_flat_map (fun _ => 0) (fun _ => false) (fun _ => none) 1 _ allowed⟩

theorem readded_coin_breaks_cache :
    run (fun _ => 0) (fun _ => false) ⟨List.replicate 2 CoinsViewCache.empty, fun _ : ℕ => none⟩ readdedCoin = none ∧
      ((run (fun _ => 0) (fun _ => false) ⟨List.replicate 2 CoinsViewCache.empty, fun _ : ℕ => none⟩
          [.addCoin 0 1 false]).map fun s => (getCoin (fun _ => 0) s.db 0 (s.layers.drop 1)).1) = some none ∧
      flatRun (fun _ => false) (fun _ : ℕ => none) [.addCoin 0 1 false] 0 = some 1 :=
  ⟨rfl, rfl, rfl⟩

end Pussycoin.Coins
