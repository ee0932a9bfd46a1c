import Pussycoin.Keyed

/-! The UTXO cache of `coins.cpp`: `CCoinsViewCache` layers stacked over a map-backed
`CCoinsView`, the top layer first. A coin is `none` once spent. `FetchCoin` caches what the
view below holds, `AddCoin` and `SpendCoin` change the top layer, `Uncache` drops an entry
that was never changed, and `Flush` moves a layer's entries into the view below through
`BatchWrite`. A `std::logic_error` is `none`. The map-backed view's `GetCoin` reports only
unspent coins, as `CCoinsViewCache::GetCoin` and `CCoinsViewDB` do, so the branch of
`FetchCoin` that marks a fetched spent coin `FRESH` is never taken and is left out. -/
namespace Pussycoin.Coins

/-- `CCoinsCacheEntry`: the coin and the `DIRTY` and `FRESH` flags. -/
structure CacheEntry (V : Type) where
  coin : Option V
  dirty : Bool
  fresh : Bool
  deriving DecidableEq, Repr

structure CoinsViewCache (α V : Type) where
  cacheCoins : AList fun _ : α => CacheEntry V
  cachedCoinsUsage : ℕ

def CoinsViewCache.empty {α V : Type} : CoinsViewCache α V := ⟨∅, 0⟩

variable {α V : Type} [DecidableEq α] (usage : V → ℕ) (unspendable : V → Bool)

/-- `Coin::DynamicMemoryUsage`, that of the script: `Clear` empties and shrinks it. -/
def dynamicMemoryUsage : Option V → ℕ
  | some coin => usage coin
  | none => 0

namespace CoinsViewCache

/-- The entry `FetchCoin` makes for a coin the view below reports. -/
def emplaceFetched (cache : CoinsViewCache α V) (a : α) (coin : V) : CoinsViewCache α V :=
  ⟨cache.cacheCoins.insert a ⟨some coin, false, false⟩, cache.cachedCoinsUsage + usage coin⟩

def addCoin (cache : CoinsViewCache α V) (a : α) (coin : V) (possibleOverwrite : Bool) :
    Option (CoinsViewCache α V) :=
  if unspendable coin then some cache
  else
    -- `emplace` keeps the entry that is there, and makes an empty one otherwise
    let (entry, cachedCoinsUsage) := match cache.cacheCoins.lookup a with
      | some entry => (entry, cache.cachedCoinsUsage - dynamicMemoryUsage usage entry.coin)
      | none => (⟨none, false, false⟩, cache.cachedCoinsUsage)
    -- "Attempted to overwrite an unspent coin (when possible_overwrite is false)"
    if !possibleOverwrite && entry.coin.isSome then none
    else
      let fresh := !possibleOverwrite && !entry.dirty
      some ⟨cache.cacheCoins.insert a ⟨some coin, true, entry.fresh || fresh⟩, cachedCoinsUsage + usage coin⟩

/-- `Uncache` drops an entry with no flags. -/
def uncache (cache : CoinsViewCache α V) (a : α) : CoinsViewCache α V :=
  match cache.cacheCoins.lookup a with
  | some entry =>
    if !entry.dirty && !entry.fresh then
      ⟨cache.cacheCoins.erase a, cache.cachedCoinsUsage - dynamicMemoryUsage usage entry.coin⟩
    else cache
  | none => cache

/-- One entry of the child's map in `BatchWrite`. -/
def batchWriteEntry (cache : CoinsViewCache α V) (a : α) (entry : CacheEntry V) : Option (CoinsViewCache α V) :=
  if !entry.dirty then some cache
  else
    match cache.cacheCoins.lookup a with
    | none =>
      if entry.fresh && entry.coin.isNone then some cache
      else
        some ⟨cache.cacheCoins.insert a ⟨entry.coin, true, entry.fresh⟩,
          cache.cachedCoinsUsage + dynamicMemoryUsage usage entry.coin⟩
    | some ours =>
      -- "FRESH flag misapplied to coin that exists in parent cache"
      if entry.fresh && ours.coin.isSome then none
      else if ours.fresh && entry.coin.isNone then
        some ⟨cache.cacheCoins.erase a, cache.cachedCoinsUsage - dynamicMemoryUsage usage ours.coin⟩
      else
        some ⟨cache.cacheCoins.insert a ⟨entry.coin, true, ours.fresh⟩,
          cache.cachedCoinsUsage - dynamicMemoryUsage usage ours.coin + dynamicMemoryUsage usage entry.coin⟩

/-- `BatchWrite`, over the child's entries in the order of its map. -/
def batchWrite (cache : CoinsViewCache α V) (mapCoins : AList fun _ : α => CacheEntry V) :
    Option (CoinsViewCache α V) :=
  mapCoins.entries.foldlM (fun cache entry => cache.batchWriteEntry usage entry.1 entry.2) cache

end CoinsViewCache

/-- `BatchWrite` of the map-backed view: it writes the dirty entries, a spent coin as an
erasure. -/
def batchWriteMap (db : α → Option V) (mapCoins : AList fun _ : α => CacheEntry V) : α → Option V :=
  mapCoins.entries.foldl (fun db entry => if entry.2.dirty then Function.update db entry.1 entry.2.coin else db) db

/-- `GetCoin` of a view: of the map at the bottom, or of a layer, whose `FetchCoin` caches what
the view below it holds. It gives the coin where it is unspent, and the layers after the
caching. -/
def getCoin (db : α → Option V) (a : α) : List (CoinsViewCache α V) → Option V × List (CoinsViewCache α V)
  | [] => (db a, [])
  | layer :: below =>
    match layer.cacheCoins.lookup a with
    | some entry => (entry.coin, layer :: below)
    | none =>
      match getCoin db a below with
      | (some coin, below') => (some coin, layer.emplaceFetched usage a coin :: below')
      | (none, below') => (none, layer :: below')

/-- `FetchCoin` of a layer: its entry for the coin, fetched from the layers below where it
has none. -/
def fetchCoin (db : α → Option V) (a : α) (layer : CoinsViewCache α V) (below : List (CoinsViewCache α V)) :
    Option (CacheEntry V) × CoinsViewCache α V × List (CoinsViewCache α V) :=
  match layer.cacheCoins.lookup a with
  | some entry => (some entry, layer, below)
  | none =>
    match getCoin usage db a below with
    | (some coin, below') => (some ⟨some coin, false, false⟩, layer.emplaceFetched usage a coin, below')
    | (none, below') => (none, layer, below')

/-- `SpendCoin` of the top layer: whether it found the coin, and the layers after. -/
def spendCoin (db : α → Option V) (a : α) : List (CoinsViewCache α V) → Bool × List (CoinsViewCache α V)
  | [] => (false, [])
  | layer :: below =>
    match fetchCoin usage db a layer below with
    | (none, layer', below') => (false, layer' :: below')
    | (some entry, layer', below') =>
      let cachedCoinsUsage := layer'.cachedCoinsUsage - dynamicMemoryUsage usage entry.coin
      if entry.fresh then (true, ⟨layer'.cacheCoins.erase a, cachedCoinsUsage⟩ :: below')
      else (true, ⟨layer'.cacheCoins.insert a ⟨none, true, entry.fresh⟩, cachedCoinsUsage⟩ :: below')

/-- `Flush` of the top of these layers into the view below it, which it leaves empty. -/
def flush (db : α → Option V) :
    List (CoinsViewCache α V) → Option (List (CoinsViewCache α V) × (α → Option V))
  | [] => some ([], db)
  | [layer] => some ([CoinsViewCache.empty], batchWriteMap db layer.cacheCoins)
  | layer :: parent :: rest =>
    (parent.batchWrite usage layer.cacheCoins).map fun parent' => (CoinsViewCache.empty :: parent' :: rest, db)

/-- The calls the claims quantify over. Writes go to the top layer; reads, `Uncache` and
`Flush` name the layer they act on, counted from the top. -/
inductive Op (α V : Type)
  | addCoin (a : α) (coin : V) (possibleOverwrite : Bool)
  | spendCoin (a : α)
  /-- `GetCoin`, `HaveCoin` or `AccessCoin`: the same fetch, read three ways. -/
  | read (layer : ℕ) (a : α)
  | uncache (layer : ℕ) (a : α)
  | flush (layer : ℕ)
  deriving DecidableEq, Repr

structure Stack (α V : Type) where
  layers : List (CoinsViewCache α V)
  db : α → Option V

/-- A call on the layers from the `i`-th down, which leaves those above as they are. -/
def Stack.atLayer (s : Stack α V) (i : ℕ)
    (f : List (CoinsViewCache α V) → (α → Option V) → Option (List (CoinsViewCache α V) × (α → Option V))) :
    Option (Stack α V) :=
  (f (s.layers.drop i) s.db).map fun result => ⟨s.layers.take i ++ result.1, result.2⟩

def step (s : Stack α V) : Op α V → Option (Stack α V)
  | .addCoin a coin possibleOverwrite =>
    match s.layers with
    | [] => some s
    | top :: below => (top.addCoin usage unspendable a coin possibleOverwrite).map fun top' => ⟨top' :: below, s.db⟩
  | .spendCoin a => some ⟨(spendCoin usage s.db a s.layers).2, s.db⟩
  | .read i a => s.atLayer i fun layers db => some ((getCoin usage db a layers).2, db)
  | .uncache i a =>
    s.atLayer i fun layers db =>
      match layers with
      | [] => some ([], db)
      | layer :: below => some (layer.uncache usage a :: below, db)
  | .flush i => s.atLayer i fun layers db => flush usage db layers

def run (s : Stack α V) : List (Op α V) → Option (Stack α V)
  | [] => some s
  | op :: ops => (step usage unspendable s op).bind fun s' => run s' ops

end Pussycoin.Coins
