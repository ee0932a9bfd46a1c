import Pussycoin.Net.InitDataBounds

/-! A block sent as a compact block is rebuilt. The coinbase goes at offset 0 and the HogEx at
offset `vtx.size() - 2` after it, which the receiver turns back into the last position; every
other transaction goes as a short id, which the receiver maps to the next slot the prefilled ones
leave. The scans of the mempool and of `extra_txn` then fill a slot exactly when some entry has
the witness hash of its transaction, and `FillBlock` puts the missing transactions in the other
slots in order. -/
namespace Pussycoin.Net

open Codec Serialize Runs

variable {Header Tx MW : Type} (P : Primitives Header Tx MW)

/-! ### Relayable blocks -/

/-- The transactions that go as short ids. -/
def shortTxs (B : CBlock Header Tx MW) : List Tx := (B.vtx.drop 1).filter fun tx => !P.isHogEx tx

/-- Their short ids under a nonce. -/
def shortIds (B : CBlock Header Tx MW) (nonce : UInt64) : List UInt64 :=
  (shortTxs P B).map fun tx => shortTxID P B.header nonce (P.getWitnessHash tx)

/-- Short ids fit the six bytes they are sent in. -/
theorem shortTxID_lt (header : Header) (nonce : UInt64) (txhash : ℕ) :
    (shortTxID P header nonce txhash).toNat < 2 ^ 48 := by
  simp only [shortTxID, UInt64.toNat_and]
  exact Nat.lt_of_le_of_lt Nat.and_le_right (by decide)

/-- The blocks compact blocks carry: two to 65535 transactions, a HogEx at most in last place,
and one there exactly when the block has an MWEB block. -/
structure Relayable (B : CBlock Header Tx MW) : Prop where
  two_le : 2 ≤ B.vtx.length
  le_max : B.vtx.length ≤ 0xFFFF
  hogEx_last : ∀ i tx, B.vtx[i]? = some tx → P.isHogEx tx = true → i + 1 = B.vtx.length
  mweb_iff : B.mweb_block.isSome = B.vtx.getLast?.any P.isHogEx

/-- A relayable block is its coinbase, its short-id transactions, and its HogEx when it has an
MWEB block. -/
theorem Relayable.split {B : CBlock Header Tx MW} (relayable : Relayable P B) :
    ∃ coinbase tail, B.vtx = coinbase :: (shortTxs P B ++ tail) ∧
      (B.mweb_block = none ∧ tail = [] ∨
        ∃ m hogEx, B.mweb_block = some m ∧ tail = [hogEx] ∧ P.isHogEx hogEx = true) := by
  obtain ⟨coinbase, rest, vtx_eq⟩ : ∃ coinbase rest, B.vtx = coinbase :: rest := by
    have two := relayable.two_le
    cases at_vtx : B.vtx with
    | nil => simp [at_vtx] at two
    | cons coinbase rest => exact ⟨coinbase, rest, rfl⟩
  rcases List.eq_nil_or_concat' rest with rfl | ⟨mid, last, rfl⟩
  · have two := relayable.two_le
    simp [vtx_eq] at two
  -- no transaction before the last is a HogEx
  have mid_plain : ∀ tx ∈ mid, P.isHogEx tx = false := by
    intro tx mem
    obtain ⟨j, at_j⟩ := List.mem_iff_getElem?.mp mem
    have inside := (List.getElem?_eq_some_iff.mp at_j).1
    cases hog : P.isHogEx tx
    · rfl
    · have position := relayable.hogEx_last (j + 1) tx
        (by rw [vtx_eq, List.getElem?_cons_succ, List.getElem?_append_left inside, at_j]) hog
      simp [vtx_eq] at position
      omega
  have mid_kept : mid.filter (fun tx => !P.isHogEx tx) = mid :=
    List.filter_eq_self.mpr fun tx mem => by simp [mid_plain tx mem]
  have short : shortTxs P B = mid ++ if P.isHogEx last then [] else [last] := by
    simp only [shortTxs, vtx_eq, List.drop_one, List.tail_cons, List.filter_append, mid_kept]
    cases hog : P.isHogEx last <;> simp [hog]
  have mweb := relayable.mweb_iff
  rw [vtx_eq, List.getLast?_cons, List.getLast?_append, List.getLast?_singleton] at mweb
  cases at_mweb : B.mweb_block with
  | none =>
    have plain : P.isHogEx last = false := by simpa [at_mweb] using mweb.symm
    refine ⟨coinbase, [], ?_, Or.inl ⟨rfl, rfl⟩⟩
    rw [vtx_eq, short, plain]
    simp
  | some m =>
    have hog : P.isHogEx last = true := by simpa [at_mweb] using mweb.symm
    refine ⟨coinbase, [last], ?_, Or.inr ⟨m, last, rfl, rfl, hog⟩⟩
    rw [vtx_eq, short, hog]
    simp

/-- The tail of a relayable block: nothing, or its HogEx when it has an MWEB block. -/
def TailOf (B : CBlock Header Tx MW) (tail : List Tx) : Prop :=
  B.mweb_block = none ∧ tail = [] ∨ ∃ m hogEx, B.mweb_block = some m ∧ tail = [hogEx] ∧ P.isHogEx hogEx = true

/-- The message made of a relayable block: its short ids, the coinbase at offset 0 and the HogEx
at offset `vtx.size() - 2` after it. -/
theorem ofBlock_eq {B : CBlock Header Tx MW} {coinbase : Tx} {tail : List Tx}
    (vtx_eq : B.vtx = coinbase :: (shortTxs P B ++ tail)) (tail_of : TailOf P B tail) (nonce : UInt64) :
    CBlockHeaderAndShortTxIDs.ofBlock P nonce B true =
      some ⟨nonce, shortIds P B nonce,
        ⟨0, coinbase⟩ :: tail.map (fun hogEx => ⟨UInt16.ofNat (shortTxs P B).length, hogEx⟩),
        B.header, B.mweb_block⟩ := by
  have head : B.vtx.head? = some coinbase := by rw [vtx_eq]; rfl
  obtain ⟨back, last⟩ : ∃ back, B.vtx.getLast? = some back := by
    rw [vtx_eq, List.getLast?_cons]
    exact ⟨_, rfl⟩
  simp only [CBlockHeaderAndShortTxIDs.ofBlock, head, last, Option.bind_eq_bind, Option.bind_some,
    if_true]
  rcases tail_of with ⟨no_mweb, rfl⟩ | ⟨m, hogEx, has_mweb, rfl, -⟩
  · simp [no_mweb, shortIds, shortTxs]
  · have back_eq : back = hogEx := by
      rw [vtx_eq, List.getLast?_cons, List.getLast?_append, List.getLast?_singleton] at last
      simpa using last.symm
    have offset : UInt16.ofNat B.vtx.length - 2 = UInt16.ofNat (shortTxs P B).length := by
      have length : B.vtx.length = (shortTxs P B).length + 2 := by
        rw [vtx_eq]
        simp
      rw [length, UInt16.ofNat_add]
      simp
    simp [has_mweb, back_eq, offset, shortIds, shortTxs]

/-- The prefilled loop puts the coinbase in slot 0 and the HogEx in the last slot. -/
theorem placePrefilled_ofBlock {coinbase : Tx} {tail : List Tx} (S : ℕ) (coinbase_ok : P.txIsNull coinbase = false)
    (tail_ok : ∀ tx ∈ tail, P.txIsNull tx = false) (one : tail.length ≤ 1) (few : S + 1 + tail.length ≤ 0xFFFF) :
    placePrefilled P S (⟨0, coinbase⟩ :: tail.map fun hogEx => ⟨UInt16.ofNat S, hogEx⟩) 0 (-1)
        (List.replicate (S + 1 + tail.length) none) =
      pure (none, some coinbase :: (List.replicate S none ++ tail.map some)) := by
  have first : (List.replicate (S + 1 + tail.length) (none : Option Tx)).set 0 (some coinbase) =
      some coinbase :: List.replicate (S + tail.length) none := by
    rw [show S + 1 + tail.length = S + tail.length + 1 by omega, List.replicate_succ]
    rfl
  simp only [placePrefilled, coinbase_ok, Bool.false_eq_true, if_false, UInt16.toNat_zero]
  rw [if_neg (by omega), if_neg (by omega), show (-1 + ((0 : ℕ) : ℤ) + 1).toNat = 0 by rfl,
    vecSet_of_lt (by simp), pure_bind, first]
  rcases tail with _ | ⟨hogEx, _ | ⟨_, _⟩⟩
  · simp only [List.map_nil, List.length_nil, Nat.add_zero, placePrefilled, List.append_nil]
  · have offset : (UInt16.ofNat S).toNat = S := UInt16.toNat_ofNat_of_lt' (by unfold UInt16.size; simp at few; omega)
    have hogEx_ok := tail_ok hogEx (List.mem_singleton_self hogEx)
    have last : (some coinbase :: List.replicate (S + 1) (none : Option Tx)).set (S + 1) (some hogEx) =
        some coinbase :: (List.replicate S none ++ [some hogEx]) := by
      rw [List.set_cons_succ, List.replicate_succ', List.set_append_right _ _ (by simp)]
      simp
    simp only [List.map_cons, List.map_nil, placePrefilled, hogEx_ok, Bool.false_eq_true, if_false, offset]
    rw [if_neg (by simp at few; omega), if_neg (by simp), show (-1 + ((0 : ℕ) : ℤ) + 1 + S + 1).toNat = S + 1 by omega,
      vecSet_of_lt (by simp), pure_bind, List.length_singleton, last]
  · simp at one

/-! ### The table of short ids -/

/-- The table of a list of short ids whose slots start at `s`. -/
def slotTable (ids : List UInt64) (s : ℕ) : ShortIdMap := (ids.zipIdx s).map fun e => (e.1, UInt16.ofNat e.2)

theorem lookup_slotTable {ids : List UInt64} (nodup : ids.Nodup) :
    ∀ {s p : ℕ} {id : UInt64}, ids[p]? = some id → (slotTable ids s).lookup id = some (UInt16.ofNat (s + p)) := by
  induction ids with
  | nil => simp
  | cons a ids ih =>
    intro s p id at_p
    obtain ⟨fresh, nodup'⟩ := List.nodup_cons.mp nodup
    cases p with
    | zero =>
      cases Option.some.inj at_p
      simp [slotTable, List.zipIdx_cons]
    | succ p =>
      have other : (id == a) = false := beq_false_of_ne fun same => fresh (same ▸ List.mem_of_getElem? at_p)
      have rest := ih nodup' (s := s + 1) at_p
      simp only [slotTable] at rest
      simp [slotTable, List.zipIdx_cons, List.lookup_cons, other, rest, Nat.add_assoc, Nat.add_comm 1 p]

theorem lookup_slotTable_of_not_mem {ids : List UInt64} {id : UInt64} (absent : id ∉ ids) :
    ∀ s, (slotTable ids s).lookup id = none := by
  induction ids with
  | nil => simp [slotTable]
  | cons a ids ih =>
    intro s
    have other : (id == a) = false := beq_false_of_ne fun same => absent (same ▸ List.mem_cons_self ..)
    have rest := ih (fun mem => absent (List.mem_cons_of_mem a mem)) (s + 1)
    simp only [slotTable] at rest
    simp [slotTable, List.zipIdx_cons, List.lookup_cons, other, rest]

/-- The short-id loop maps the `j`-th id to slot `j + 1` when the slot before the ids is the
coinbase's and the ones after are empty: the offset steps once over the coinbase and stays at 1.
No key is assigned twice, and no bucket holds more than 12 of them. -/
theorem mapShortIds_eq (bucket : UInt64 → ℕ) {avail : List (Option Tx)} {S : ℕ}
    (first : ∃ tx, avail[0]? = some (some tx)) (empty : ∀ j < S, avail[j + 1]? = some none) :
    ∀ (ids : List UInt64) (i : ℕ) (off : UInt16) (m : ShortIdMap), i + ids.length ≤ S →
      (i = 0 ∧ off = 0 ∨ off = 1) → (m.map Prod.fst ++ ids).Nodup →
      (∀ k ∈ ids, ((m.map Prod.fst ++ ids).filter fun k' => bucket k' = bucket k).length ≤ 12) →
      mapShortIds bucket avail ids i off m = pure (none, m ++ slotTable ids (i + 1))
  | [], _, _, m, _, _, _, _ => by simp [mapShortIds, slotTable]
  | id :: ids, i, off, m, room, start, nodup, roomy => by
    have inside : i < S := by simp only [List.length_cons] at room; omega
    have skipped : skipFilled avail i (2 ^ 16) off = pure 1 := by
      have off_le : off.toNat ≤ 1 := by
        rcases start with ⟨-, rfl⟩ | rfl <;> decide
      have filled : ∀ k, i + off.toNat ≤ k → k < i + 1 → ∃ tx, avail[k]? = some (some tx) := by
        intro k after below
        rcases start with ⟨rfl, rfl⟩ | rfl
        · obtain rfl : k = 0 := by simp at below; omega
          exact first
        · simp at after; omega
      have := skipFilled_eq (empty i inside) (by omega) (2 ^ 16) off (by omega) (by omega) filled
      simpa using this
    have fresh : ¬ (m.any fun e => e.1 == id) = true := by
      intro found
      obtain ⟨e, mem, same⟩ := List.any_eq_true.mp found
      have nodup' := (List.nodup_append.mp nodup).2.2 e.1 (List.mem_map_of_mem mem) id (List.mem_cons_self ..)
      exact nodup' (by simpa using same)
    have assigned : mapAssign m id (UInt16.ofNat i + 1) = m ++ [(id, UInt16.ofNat (i + 1))] := by
      simp [mapAssign, fresh, UInt16.ofNat_add]
    -- the keys so far and the ids still to come are always the block's ids
    have keys : (m ++ [(id, UInt16.ofNat (i + 1))]).map Prod.fst ++ ids = m.map Prod.fst ++ id :: ids := by
      simp
    have bucket_ok : ¬ 12 < bucketSize bucket (m ++ [(id, UInt16.ofNat (i + 1))]) id := by
      have sub : ((m ++ [(id, UInt16.ofNat (i + 1))]).map Prod.fst).Sublist (m.map Prod.fst ++ id :: ids) := by
        rw [← keys]
        exact List.sublist_append_left _ _
      have bound := (sub.filter fun k' => bucket k' = bucket id).length_le
      have roomy_id := roomy id (List.mem_cons_self ..)
      simp only [bucketSize, List.filter_map, List.length_map, Function.comp_def] at bound ⊢
      omega
    simp only [mapShortIds, skipped, pure_bind, assigned, bucket_ok, if_false]
    rw [mapShortIds_eq bucket first empty ids (i + 1) 1 _ (by simp only [List.length_cons] at room; omega)
      (Or.inr rfl) (by rw [keys]; exact nodup)
      (fun k mem => by rw [keys]; exact roomy k (List.mem_cons_of_mem id mem))]
    simp [slotTable, List.zipIdx_cons]

/-! ### The scans of the mempool and of `extra_txn` -/

/-- `found` with one more witness hash. -/
def addFound (found : ℕ → Bool) (w : ℕ) : ℕ → Bool := fun w' => found w' || w' == w

theorem addFound_of_found {found : ℕ → Bool} {w : ℕ} (found_w : found w = true) : addFound found w = found := by
  funext w'
  by_cases same : w' = w
  · simp [addFound, same, found_w]
  · simp [addFound, same]

/-- Scanning an entry adds its hash to `found`, then the rest add theirs. -/
theorem addFound_or_contains {α : Type} (found : ℕ → Bool) (h : ℕ) (x : α) (entries : List (ℕ × α)) :
    (fun w => addFound found h w || (entries.map Prod.fst).contains w) =
      fun w => found w || (((h, x) :: entries).map Prod.fst).contains w := by
  funext w
  simp [addFound, Bool.or_assoc]

theorem addFound_imp_contains {α : Type} {found : ℕ → Bool} {h w : ℕ} (x : α) (entries : List (ℕ × α))
    (found_w : addFound found h w = true) : (found w || (((h, x) :: entries).map Prod.fst).contains w) = true := by
  simp only [addFound, Bool.or_eq_true, beq_iff_eq] at found_w
  simp only [List.map_cons, List.contains_cons, Bool.or_eq_true, beq_iff_eq]
  tauto

/-- The slots, the flags of `have_txn` and `mempool_count` once the entries scanned so far have
brought the short transactions whose witness hashes `found` holds. -/
def scanState (coinbase : Tx) (tail short : List Tx) (found : ℕ → Bool) :
    List (Option Tx) × List Bool × UInt64 :=
  (some coinbase :: ((short.map fun tx => if found (P.getWitnessHash tx) then some tx else none) ++ tail.map some),
    false :: ((short.map fun tx => found (P.getWitnessHash tx)) ++ tail.map fun _ => false),
    UInt64.ofNat (short.countP fun tx => found (P.getWitnessHash tx)))

section Scans

variable {coinbase : Tx} {tail : List Tx}

/-- The state only reads `found` at the witness hashes of the short transactions. -/
theorem scanState_congr {short : List Tx} {found found' : ℕ → Bool}
    (agree : ∀ tx ∈ short, found (P.getWitnessHash tx) = found' (P.getWitnessHash tx)) :
    scanState P coinbase tail short found = scanState P coinbase tail short found' := by
  have slots : (short.map fun tx => if found (P.getWitnessHash tx) then some tx else none) =
      short.map fun tx => if found' (P.getWitnessHash tx) then some tx else none :=
    List.map_congr_left fun tx mem => by rw [agree tx mem]
  have flags : (short.map fun tx => found (P.getWitnessHash tx)) = short.map fun tx => found' (P.getWitnessHash tx) :=
    List.map_congr_left fun tx mem => agree tx mem
  have count : (short.countP fun tx => found (P.getWitnessHash tx)) =
      short.countP fun tx => found' (P.getWitnessHash tx) :=
    List.countP_congr fun tx mem => by rw [agree tx mem]
  simp only [scanState, slots, flags, count]

theorem length_scanState (short : List Tx) (found : ℕ → Bool) :
    (scanState P coinbase tail short found).1.length = short.length + tail.length + 1 ∧
      (scanState P coinbase tail short found).2.1.length = short.length + tail.length + 1 := by
  simp [scanState]

/-- What the scan reads at the slot of a short transaction. -/
theorem scanState_getElem? (pre post : List Tx) (tx : Tx) (found : ℕ → Bool) :
    (scanState P coinbase tail (pre ++ tx :: post) found).1[pre.length + 1]? =
        some (if found (P.getWitnessHash tx) then some tx else none) ∧
      (scanState P coinbase tail (pre ++ tx :: post) found).2.1[pre.length + 1]? =
        some (found (P.getWitnessHash tx)) := by
  simp [scanState, List.append_assoc]

/-- An entry that brings the short transaction `tx` for the first time fills its slot, sets its
flag and adds one to the count. -/
theorem scanState_fill {pre post : List Tx} {tx : Tx} {found : ℕ → Bool}
    (fresh : ∀ t ∈ pre ++ post, P.getWitnessHash t ≠ P.getWitnessHash tx)
    (absent : found (P.getWitnessHash tx) = false) :
    (scanState P coinbase tail (pre ++ tx :: post) found).1.set (pre.length + 1) (some tx) =
        (scanState P coinbase tail (pre ++ tx :: post) (addFound found (P.getWitnessHash tx))).1 ∧
      (scanState P coinbase tail (pre ++ tx :: post) found).2.1.set (pre.length + 1) true =
        (scanState P coinbase tail (pre ++ tx :: post) (addFound found (P.getWitnessHash tx))).2.1 ∧
      (scanState P coinbase tail (pre ++ tx :: post) found).2.2 + 1 =
        (scanState P coinbase tail (pre ++ tx :: post) (addFound found (P.getWitnessHash tx))).2.2 := by
  -- away from `tx` the new hash changes nothing
  have others : ∀ t ∈ pre ++ post,
      addFound found (P.getWitnessHash tx) (P.getWitnessHash t) = found (P.getWitnessHash t) := by
    intro t mem
    simp [addFound, fresh t mem]
  have slots : ∀ l ⊆ pre ++ post,
      (l.map fun t => if addFound found (P.getWitnessHash tx) (P.getWitnessHash t) then some t else none) =
        l.map fun t => if found (P.getWitnessHash t) then some t else none :=
    fun l sub => List.map_congr_left fun t mem => by rw [others t (sub mem)]
  have flags : ∀ l ⊆ pre ++ post,
      (l.map fun t => addFound found (P.getWitnessHash tx) (P.getWitnessHash t)) =
        l.map fun t => found (P.getWitnessHash t) :=
    fun l sub => List.map_congr_left fun t mem => others t (sub mem)
  have counts : ∀ l ⊆ pre ++ post,
      (l.countP fun t => addFound found (P.getWitnessHash tx) (P.getWitnessHash t)) =
        l.countP fun t => found (P.getWitnessHash t) :=
    fun l sub => List.countP_congr fun t mem => by rw [others t (sub mem)]
  have on_tx : addFound found (P.getWitnessHash tx) (P.getWitnessHash tx) = true := by simp [addFound]
  have pre_sub : pre ⊆ pre ++ post := List.subset_append_left pre post
  have post_sub : post ⊆ pre ++ post := List.subset_append_right pre post
  simp only [scanState, List.map_append, List.map_cons, List.countP_append, List.countP_cons,
    slots pre pre_sub, slots post post_sub, flags pre pre_sub, flags post post_sub,
    counts pre pre_sub, counts post post_sub, on_tx, absent]
  refine ⟨?_, ?_, ?_⟩
  · rw [List.set_cons_succ, List.append_assoc, List.set_append_right _ _ (by simp)]
    simp
  · rw [List.set_cons_succ, List.append_assoc, List.set_append_right _ _ (by simp)]
    simp
  · simp only [UInt64.ofNat_add, if_true]
    ac_rfl

theorem scanState_count (short : List Tx) (found : ℕ → Bool) (few : short.length ≤ 0xFFFF) :
    (scanState P coinbase tail short found).2.2.toNat = short.countP fun tx => found (P.getWitnessHash tx) := by
  have bound : (short.countP fun tx => found (P.getWitnessHash tx)) ≤ short.length := List.countP_le_length
  exact UInt64.toNat_ofNat_of_lt' (by unfold UInt64.size; omega)

/-- Before the scans nothing is found: the slots hold the prefilled transactions, no flag is set and
the count is zero. -/
theorem scanState_none (short : List Tx) :
    scanState P coinbase tail short (fun _ => false) =
      (some coinbase :: (List.replicate short.length none ++ tail.map some),
        List.replicate (short.length + tail.length + 1) false, 0) := by
  simp [scanState, List.replicate_succ, List.replicate_append_replicate]

/-- Once every short transaction has been found, further hashes change nothing. -/
theorem scanState_of_all {short : List Tx} {found found' : ℕ → Bool}
    (all : ∀ tx ∈ short, found (P.getWitnessHash tx) = true) (more : ∀ w, found w = true → found' w = true) :
    scanState P coinbase tail short found = scanState P coinbase tail short found' :=
  scanState_congr P fun tx mem => by rw [all tx mem, more _ (all tx mem)]

end Scans

/-- The table answers the witness hash of a short transaction with that transaction's slot. -/
theorem lookup_short (c : CBlockHeaderAndShortTxIDs Header Tx MW) {pre post : List Tx} {tx : Tx}
    (distinct : ((pre ++ tx :: post).map P.getWitnessHash).Nodup)
    (injective : ∀ w ∈ (pre ++ tx :: post).map P.getWitnessHash, ∀ w' ∈ (pre ++ tx :: post).map P.getWitnessHash,
      c.getShortID P w = c.getShortID P w' → w = w') :
    (slotTable ((pre ++ tx :: post).map fun t => c.getShortID P (P.getWitnessHash t)) 1).lookup
      (c.getShortID P (P.getWitnessHash tx)) = some (UInt16.ofNat (pre.length + 1)) := by
  have nodup : ((pre ++ tx :: post).map fun t => c.getShortID P (P.getWitnessHash t)).Nodup := by
    have ids := distinct.map_on injective
    simpa only [List.map_map, Function.comp_def] using ids
  have at_pre : ((pre ++ tx :: post).map fun t => c.getShortID P (P.getWitnessHash t))[pre.length]? =
      some (c.getShortID P (P.getWitnessHash tx)) := by
    simp
  rw [lookup_slotTable nodup at_pre, Nat.add_comm]

/-- The table answers any other hash with nothing, short ids being distinct on the hashes. -/
theorem lookup_other (c : CBlockHeaderAndShortTxIDs Header Tx MW) {short : List Tx} {h : ℕ}
    (absent : h ∉ short.map P.getWitnessHash)
    (injective : ∀ w ∈ short.map P.getWitnessHash, c.getShortID P w = c.getShortID P h → w = h) :
    (slotTable (short.map fun t => c.getShortID P (P.getWitnessHash t)) 1).lookup (c.getShortID P h) = none := by
  apply lookup_slotTable_of_not_mem
  intro mem
  obtain ⟨t, mem_t, same⟩ := List.mem_map.mp mem
  have named := injective _ (List.mem_map_of_mem mem_t) same
  exact absent (named ▸ List.mem_map_of_mem mem_t)

theorem hash_ne_of_nodup {pre post : List Tx} {tx : Tx} (distinct : ((pre ++ tx :: post).map P.getWitnessHash).Nodup) :
    ∀ t ∈ pre ++ post, P.getWitnessHash t ≠ P.getWitnessHash tx := by
  rw [List.map_append, List.map_cons, List.nodup_middle, ← List.map_append] at distinct
  intro t mem same
  exact (List.nodup_cons.mp distinct).1 (same ▸ List.mem_map_of_mem mem)

theorem mem_append_map_cons {α β : Type} (short : List β) (f : α → β) (x : α) (entries : List α) :
    ∀ w ∈ short ++ entries.map f, w ∈ short ++ (x :: entries).map f := by
  intro w mem
  rcases List.mem_append.mp mem with in_short | in_entries
  · exact List.mem_append_left _ in_short
  · exact List.mem_append_right _ (List.mem_cons_of_mem _ in_entries)

section Scans

variable {coinbase : Tx} {tail : List Tx}

/-- An entry whose hash is no short transaction's leaves the state as it is. -/
theorem scanState_addFound_of_not_mem {short : List Tx} {found : ℕ → Bool} {h : ℕ}
    (absent : h ∉ short.map P.getWitnessHash) :
    scanState P coinbase tail short found = scanState P coinbase tail short (addFound found h) :=
  scanState_congr P fun tx mem => by
    have other : P.getWitnessHash tx ≠ h := fun same => absent (same ▸ List.mem_map_of_mem mem)
    simp [addFound, other]

/-- The scan of the mempool brings each short transaction whose witness hash some entry has:
entries have distinct hashes, and an entry under the hash of a short transaction holds it. -/
theorem scanMempool_eq (c : CBlockHeaderAndShortTxIDs Header Tx MW) {short : List Tx}
    (distinct : (short.map P.getWitnessHash).Nodup) (few : short.length + tail.length + 1 ≤ 0xFFFF) :
    ∀ (entries : List (ℕ × Tx)) (found : ℕ → Bool), (entries.map Prod.fst).Nodup →
      (∀ e ∈ entries, found e.1 = false) →
      (∀ e ∈ entries, ∀ tx ∈ short, e.1 = P.getWitnessHash tx → e.2 = tx) →
      (∀ w ∈ short.map P.getWitnessHash ++ entries.map Prod.fst,
        ∀ w' ∈ short.map P.getWitnessHash ++ entries.map Prod.fst, c.getShortID P w = c.getShortID P w' → w = w') →
      scanMempool P c (slotTable (short.map fun t => c.getShortID P (P.getWitnessHash t)) 1) entries
          (scanState P coinbase tail short found).1 (scanState P coinbase tail short found).2.1
          (scanState P coinbase tail short found).2.2 =
        pure (scanState P coinbase tail short fun w => found w || (entries.map Prod.fst).contains w)
  | [], found, _, _, _, _ => by simp [scanMempool]
  | (h, t) :: entries, found, nodup, fresh, consistent, injective => by
    have h_fresh : found h = false := fresh (h, t) (List.mem_cons_self ..)
    have table_length : (slotTable (short.map fun t => c.getShortID P (P.getWitnessHash t)) 1).length =
        short.length := by
      simp [slotTable]
    -- after the entry the state is that of `addFound found h`; then the scan stops or goes on
    have next : (if (scanState P coinbase tail short (addFound found h)).2.2.toNat =
          (slotTable (short.map fun t => c.getShortID P (P.getWitnessHash t)) 1).length
        then pure (scanState P coinbase tail short (addFound found h))
        else scanMempool P c (slotTable (short.map fun t => c.getShortID P (P.getWitnessHash t)) 1) entries
          (scanState P coinbase tail short (addFound found h)).1
          (scanState P coinbase tail short (addFound found h)).2.1
          (scanState P coinbase tail short (addFound found h)).2.2) =
        pure (scanState P coinbase tail short fun w => found w || (((h, t) :: entries).map Prod.fst).contains w) := by
      split
      · rename_i all_found
        rw [scanState_count P short _ (by omega), table_length, List.countP_eq_length] at all_found
        exact congrArg pure (scanState_of_all P all_found fun w => addFound_imp_contains t entries)
      · have widen := mem_append_map_cons (short.map P.getWitnessHash) Prod.fst (h, t) entries
        have rest := scanMempool_eq c distinct few entries (addFound found h) (List.nodup_cons.mp nodup).2
          (fun e mem => by
            have other : e.1 ≠ h := fun same => (List.nodup_cons.mp nodup).1 (List.mem_map.mpr ⟨e, mem, same⟩)
            simp [addFound, fresh e (List.mem_cons_of_mem _ mem), other])
          (fun e mem => consistent e (List.mem_cons_of_mem _ mem))
          (fun w mem w' mem' => injective w (widen w mem) w' (widen w' mem'))
        rw [rest, addFound_or_contains found h t entries]
    have injW : ∀ w ∈ short.map P.getWitnessHash, ∀ w' ∈ short.map P.getWitnessHash,
        c.getShortID P w = c.getShortID P w' → w = w' :=
      fun w mem w' mem' => injective w (List.mem_append_left _ mem) w' (List.mem_append_left _ mem')
    simp only [scanMempool]
    by_cases mem : h ∈ short.map P.getWitnessHash
    · obtain ⟨tx, mem_tx, rfl⟩ := List.mem_map.mp mem
      obtain ⟨pre, post, rfl⟩ := List.append_of_mem mem_tx
      have same : t = tx := consistent _ (List.mem_cons_self ..) tx mem_tx rfl
      subst same
      have others := hash_ne_of_nodup P distinct
      have slot : (UInt16.ofNat (pre.length + 1)).toNat = pre.length + 1 :=
        UInt16.toNat_ofNat_of_lt' (by unfold UInt16.size; simp at few; omega)
      obtain ⟨-, flag_at⟩ := @scanState_getElem? _ _ _ P coinbase tail pre post t found
      obtain ⟨slots, flags⟩ := @length_scanState _ _ _ P coinbase tail (pre ++ t :: post) found
      obtain ⟨slots_eq, flags_eq, count_eq⟩ := @scanState_fill _ _ _ P coinbase tail pre post t found others h_fresh
      rw [lookup_short P c distinct injW]
      simp only [slot, vecAt, flag_at, h_fresh, Bool.not_false, if_true, pure_bind]
      rw [vecSet_of_lt (by simp [slots]; omega), pure_bind, vecSet_of_lt (by simp [flags]; omega), pure_bind,
        slots_eq, flags_eq, count_eq]
      exact next
    · have apart : ∀ w ∈ short.map P.getWitnessHash, c.getShortID P w = c.getShortID P h → w = h :=
        fun w mem' => injective w (List.mem_append_left _ mem') h (List.mem_append_right _ (List.mem_cons_self ..))
      -- an entry outside the block only joins `found`, where the state never reads it
      rw [lookup_other P c mem apart]
      simp only [pure_bind]
      rw [scanState_addFound_of_not_mem P mem]
      exact next

/-- The scan of `extra_txn` brings each short transaction whose witness hash some entry has,
whatever was found before: an entry under the hash of a short transaction holds it, so a second
one for a filled slot has the same witness hash and leaves it. -/
theorem scanExtra_eq (c : CBlockHeaderAndShortTxIDs Header Tx MW) {short : List Tx}
    (distinct : (short.map P.getWitnessHash).Nodup) (few : short.length + tail.length + 1 ≤ 0xFFFF) :
    ∀ (entries : List (ℕ × Option Tx)) (found : ℕ → Bool) (extra_count : UInt64),
      (∀ e ∈ entries, ∀ tx ∈ short, e.1 = P.getWitnessHash tx → e.2 = some tx) →
      (∀ w ∈ short.map P.getWitnessHash ++ entries.map Prod.fst,
        ∀ w' ∈ short.map P.getWitnessHash ++ entries.map Prod.fst, c.getShortID P w = c.getShortID P w' → w = w') →
      ∃ extra_count', scanExtra P c (slotTable (short.map fun t => c.getShortID P (P.getWitnessHash t)) 1) entries
          (scanState P coinbase tail short found).1 (scanState P coinbase tail short found).2.1
          (scanState P coinbase tail short found).2.2 extra_count =
        pure ((scanState P coinbase tail short fun w => found w || (entries.map Prod.fst).contains w).1,
          (scanState P coinbase tail short fun w => found w || (entries.map Prod.fst).contains w).2.1,
          (scanState P coinbase tail short fun w => found w || (entries.map Prod.fst).contains w).2.2, extra_count')
  | [], found, extra_count, _, _ => ⟨extra_count, by simp [scanExtra]⟩
  | (h, o) :: entries, found, extra_count, consistent, injective => by
    have table_length : (slotTable (short.map fun t => c.getShortID P (P.getWitnessHash t)) 1).length =
        short.length := by
      simp [slotTable]
    -- after the entry the state is that of `addFound found h`; then the scan stops or goes on
    have next : ∀ e, ∃ e', (if (scanState P coinbase tail short (addFound found h)).2.2.toNat =
          (slotTable (short.map fun t => c.getShortID P (P.getWitnessHash t)) 1).length
        then pure ((scanState P coinbase tail short (addFound found h)).1,
          (scanState P coinbase tail short (addFound found h)).2.1,
          (scanState P coinbase tail short (addFound found h)).2.2, e)
        else scanExtra P c (slotTable (short.map fun t => c.getShortID P (P.getWitnessHash t)) 1) entries
          (scanState P coinbase tail short (addFound found h)).1
          (scanState P coinbase tail short (addFound found h)).2.1
          (scanState P coinbase tail short (addFound found h)).2.2 e) =
        pure ((scanState P coinbase tail short fun w => found w || (((h, o) :: entries).map Prod.fst).contains w).1,
          (scanState P coinbase tail short fun w => found w || (((h, o) :: entries).map Prod.fst).contains w).2.1,
          (scanState P coinbase tail short fun w => found w || (((h, o) :: entries).map Prod.fst).contains w).2.2,
          e') := by
      intro e
      split
      · rename_i all_found
        rw [scanState_count P short _ (by omega), table_length, List.countP_eq_length] at all_found
        have same : scanState P coinbase tail short (addFound found h) =
            scanState P coinbase tail short fun w => found w || (((h, o) :: entries).map Prod.fst).contains w :=
          scanState_of_all P all_found fun w => addFound_imp_contains o entries
        exact ⟨e, by rw [same]⟩
      · have widen := mem_append_map_cons (short.map P.getWitnessHash) Prod.fst (h, o) entries
        obtain ⟨e', rest⟩ := scanExtra_eq c distinct few entries (addFound found h) e
          (fun e mem => consistent e (List.mem_cons_of_mem _ mem))
          (fun w mem w' mem' => injective w (widen w mem) w' (widen w' mem'))
        rw [addFound_or_contains found h o entries] at rest
        exact ⟨e', rest⟩
    have injW : ∀ w ∈ short.map P.getWitnessHash, ∀ w' ∈ short.map P.getWitnessHash,
        c.getShortID P w = c.getShortID P w' → w = w' :=
      fun w mem w' mem' => injective w (List.mem_append_left _ mem) w' (List.mem_append_left _ mem')
    simp only [scanExtra]
    by_cases mem : h ∈ short.map P.getWitnessHash
    · obtain ⟨tx, mem_tx, rfl⟩ := List.mem_map.mp mem
      obtain ⟨pre, post, rfl⟩ := List.append_of_mem mem_tx
      have same : o = some tx := consistent _ (List.mem_cons_self ..) tx mem_tx rfl
      subst same
      have slot : (UInt16.ofNat (pre.length + 1)).toNat = pre.length + 1 :=
        UInt16.toNat_ofNat_of_lt' (by unfold UInt16.size; simp at few; omega)
      obtain ⟨slot_at, flag_at⟩ := @scanState_getElem? _ _ _ P coinbase tail pre post tx found
      rw [lookup_short P c distinct injW]
      cases found_tx : found (P.getWitnessHash tx)
      · -- the first entry for the slot fills it
        have others := hash_ne_of_nodup P distinct
        obtain ⟨slots, flags⟩ := @length_scanState _ _ _ P coinbase tail (pre ++ tx :: post) found
        obtain ⟨slots_eq, flags_eq, count_eq⟩ :=
          @scanState_fill _ _ _ P coinbase tail pre post tx found others found_tx
        simp only [slot, vecAt, flag_at, found_tx, Bool.not_false, if_true, pure_bind]
        rw [vecSet_of_lt (by simp [slots]; omega), pure_bind, vecSet_of_lt (by simp [flags]; omega), pure_bind,
          slots_eq, flags_eq, count_eq]
        exact next (extra_count + 1)
      · -- a later one has the same witness hash and leaves the slot
        have unchanged := congrArg (scanState P coinbase tail (pre ++ tx :: post)) (addFound_of_found found_tx)
        simp only [slot, vecAt, flag_at, slot_at, found_tx, Bool.not_true, Bool.false_eq_true, if_false, if_true,
          ne_eq, not_true, pure_bind]
        rw [← unchanged]
        exact next extra_count
    · have apart : ∀ w ∈ short.map P.getWitnessHash, c.getShortID P w = c.getShortID P h → w = h :=
        fun w mem' => injective w (List.mem_append_left _ mem') h (List.mem_append_right _ (List.mem_cons_self ..))
      rw [lookup_other P c mem apart]
      simp only [pure_bind]
      rw [scanState_addFound_of_not_mem P mem]
      exact next extra_count

end Scans

/-! ### The round trip -/

/-- Whether the mempool or `extra_txn` has an entry under a witness hash. -/
def foundIn (pool : Mempool P) (extra_txn : List (ℕ × Option Tx)) (w : ℕ) : Bool :=
  (pool.vTxHashes.map Prod.fst).contains w || (extra_txn.map Prod.fst).contains w

/-- What the rebuilding asks of a block, a nonce, the mempool and `extra_txn`, besides the
block's shape: a header and transactions that are not null, short transactions with distinct
witness hashes, short ids that tell all witness hashes in play apart, buckets of at most 12 of
the block's ids, entries under a short transaction's witness hash that hold it, and a header,
transactions and MWEB block that read back through their own formats. -/
structure Sendable (bucket : UInt64 → ℕ) (pool : Mempool P) (extra_txn : List (ℕ × Option Tx))
    (B : CBlock Header Tx MW) (nonce : UInt64) : Prop where
  relayable : Relayable P B
  header_ok : P.headerIsNull B.header = false
  txs_ok : ∀ tx ∈ B.vtx, P.txIsNull tx = false
  distinct : ((shortTxs P B).map P.getWitnessHash).Nodup
  injective : ∀ w ∈ (shortTxs P B).map P.getWitnessHash ++ pool.vTxHashes.map Prod.fst ++ extra_txn.map Prod.fst,
    ∀ w' ∈ (shortTxs P B).map P.getWitnessHash ++ pool.vTxHashes.map Prod.fst ++ extra_txn.map Prod.fst,
      shortTxID P B.header nonce w = shortTxID P B.header nonce w' → w = w'
  roomy : ∀ k ∈ shortIds P B nonce, ((shortIds P B nonce).filter fun k' => bucket k' = bucket k).length ≤ 12
  pool_holds : ∀ e ∈ pool.vTxHashes, ∀ tx ∈ shortTxs P B, e.1 = P.getWitnessHash tx → e.2 = tx
  extra_holds : ∀ e ∈ extra_txn, ∀ tx ∈ shortTxs P B, e.1 = P.getWitnessHash tx → e.2 = some tx
  header_trips : ∀ rest, P.readHeader.run (P.writeHeader B.header ++ rest) = some (B.header, rest)
  txs_trip : ∀ tx ∈ B.vtx, ∀ rest, P.readTx.run (P.writeTx tx ++ rest) = some (tx, rest)
  mweb_trips : ∀ m ∈ B.mweb_block, ∀ rest, P.readMweb.run (P.writeMweb m ++ rest) = some (m, rest)

/-- `InitData` from a new partial block on the message of a sendable block: the status is OK and
the slots are those of the scans over the mempool and then `extra_txn`. -/
theorem initData_ofBlock {bucket : UInt64 → ℕ} {pool : Mempool P} {extra_txn : List (ℕ × Option Tx)}
    {B : CBlock Header Tx MW} {nonce : UInt64} (sendable : Sendable P bucket pool extra_txn B nonce)
    {coinbase : Tx} {tail : List Tx} (vtx_eq : B.vtx = coinbase :: (shortTxs P B ++ tail))
    (tail_of : TailOf P B tail) {c : CBlockHeaderAndShortTxIDs Header Tx MW}
    (made : CBlockHeaderAndShortTxIDs.ofBlock P nonce B true = some c) (mweb_blockIn : Option MW) :
    ∃ extra_count, (PartiallyDownloadedBlock.new P mweb_blockIn).initData P bucket pool c extra_txn =
      pure (.OK, ⟨(scanState P coinbase tail (shortTxs P B) (foundIn P pool extra_txn)).1,
        UInt64.ofNat (tail.length + 1), (scanState P coinbase tail (shortTxs P B) (foundIn P pool extra_txn)).2.2,
        extra_count, B.header, B.mweb_block⟩) := by
  rw [ofBlock_eq P vtx_eq tail_of nonce, Option.some.injEq] at made
  have one : tail.length ≤ 1 := by
    rcases tail_of with ⟨-, rfl⟩ | ⟨_, _, -, rfl, -⟩ <;> simp
  have few : (shortTxs P B).length + 1 + tail.length ≤ 0xFFFF := by
    have le_max := sendable.relayable.le_max
    rw [vtx_eq] at le_max
    simp at le_max
    omega
  -- the scans, stated while the message is still a name
  have short_id : ∀ w, c.getShortID P w = shortTxID P B.header nonce w := by
    subst made
    exact fun w => rfl
  have ids_eq : c.shorttxids = (shortTxs P B).map fun t => c.getShortID P (P.getWitnessHash t) := by
    subst made
    rfl
  have keys_injective : ∀ entries : List ℕ, entries ⊆ pool.vTxHashes.map Prod.fst ++ extra_txn.map Prod.fst →
      ∀ w ∈ (shortTxs P B).map P.getWitnessHash ++ entries, ∀ w' ∈ (shortTxs P B).map P.getWitnessHash ++ entries,
        c.getShortID P w = c.getShortID P w' → w = w' := by
    intro entries sub w mem w' mem' same
    have widen : (shortTxs P B).map P.getWitnessHash ++ entries ⊆
        (shortTxs P B).map P.getWitnessHash ++ pool.vTxHashes.map Prod.fst ++ extra_txn.map Prod.fst := by
      intro x mem_x
      rcases List.mem_append.mp mem_x with in_short | in_entries
      · exact List.mem_append_left _ (List.mem_append_left _ in_short)
      · rw [List.append_assoc]
        exact List.mem_append_right _ (sub in_entries)
    rw [short_id, short_id] at same
    exact sendable.injective w (widen mem) w' (widen mem') same
  have pool_scan := @scanMempool_eq _ _ _ P coinbase tail c _ sendable.distinct (by omega) pool.vTxHashes
    (fun _ => false) pool.unique (fun _ _ => rfl) sendable.pool_holds
    (keys_injective _ (List.subset_append_left _ _))
  obtain ⟨extra_count, extra_scan⟩ := @scanExtra_eq _ _ _ P coinbase tail c _ sendable.distinct (by omega) extra_txn
    (fun w => (pool.vTxHashes.map Prod.fst).contains w) 0 sendable.extra_holds
    (keys_injective _ (List.subset_append_right _ _))
  simp only [scanState_none, Bool.false_or] at pool_scan
  rw [← ids_eq] at pool_scan extra_scan
  refine ⟨extra_count, ?_⟩
  subst made
  dsimp only at pool_scan extra_scan
  have ids_length : (shortIds P B nonce).length = (shortTxs P B).length := by simp [shortIds]
  have coinbase_ok : P.txIsNull coinbase = false := sendable.txs_ok coinbase (by rw [vtx_eq]; simp)
  have tail_ok : ∀ tx ∈ tail, P.txIsNull tx = false := fun tx mem => sendable.txs_ok tx (by rw [vtx_eq]; simp [mem])
  simp only [PartiallyDownloadedBlock.initData, PartiallyDownloadedBlock.new, sendable.header_ok,
    List.isEmpty_cons, Bool.and_false, Bool.or_false, Bool.false_eq_true, if_false, P.nullHeader_isNull,
    Bool.not_true, List.isEmpty_nil, Bool.not_true, CBlockHeaderAndShortTxIDs.blockTxCount, ids_length,
    List.length_cons, List.length_map]
  rw [if_neg (by unfold Mweb.maxBlockWeight minSerializableTransactionWeight Mweb.witnessScaleFactor; omega),
    show (shortTxs P B).length + (tail.length + 1) = (shortTxs P B).length + 1 + tail.length by omega,
    placePrefilled_ofBlock P _ coinbase_ok tail_ok one few, pure_bind]
  -- the short ids take the slots between the coinbase and the tail, without a collision
  have ids_nodup : (shortIds P B nonce).Nodup := by
    have ids : (((shortTxs P B).map P.getWitnessHash).map (shortTxID P B.header nonce)).Nodup :=
      sendable.distinct.map_on fun w mem w' mem' same => sendable.injective w
        (List.mem_append_left _ (List.mem_append_left _ mem)) w' (List.mem_append_left _ (List.mem_append_left _ mem')) same
    simpa only [shortIds, List.map_map, Function.comp_def] using ids
  have first : ∃ tx, (some coinbase :: (List.replicate (shortTxs P B).length none ++ tail.map some))[0]? =
      some (some tx) := ⟨coinbase, rfl⟩
  have empty : ∀ j < (shortTxs P B).length,
      (some coinbase :: (List.replicate (shortTxs P B).length none ++ tail.map some))[j + 1]? = some none := by
    intro j below
    simp [List.getElem?_append_left, below]
  have table_length : (slotTable (shortIds P B nonce) 1).length = (shortTxs P B).length := by
    simp [slotTable, ids_length]
  dsimp only
  rw [mapShortIds_eq bucket first empty (shortIds P B nonce) 0 0 [] (by simp [ids_length]) (Or.inl ⟨rfl, rfl⟩)
    (by simpa using ids_nodup) (by simpa using sendable.roomy), pure_bind]
  dsimp only
  simp only [List.nil_append, Nat.zero_add, table_length, ne_eq, not_true, if_false, List.length_cons,
    List.length_append, List.length_replicate, List.length_map]
  rw [pool_scan, pure_bind, extra_scan, pure_bind]
  rfl

/-- Whether the message carries position `i` of a block whole: the coinbase, and the last
transaction when the block has an MWEB block. -/
def prefilledAt (B : CBlock Header Tx MW) (i : ℕ) : Bool :=
  i == 0 || (B.mweb_block.isSome && i + 1 == B.vtx.length)

/-- The transactions a receiver asks for, in block order: those neither prefilled nor found. -/
def missingTxs (pool : Mempool P) (extra_txn : List (ℕ × Option Tx)) (B : CBlock Header Tx MW) : List Tx :=
  (B.vtx.zipIdx.filter fun e => !(prefilledAt B e.2 || foundIn P pool extra_txn (P.getWitnessHash e.1))).map Prod.fst

section Positions

variable {B : CBlock Header Tx MW} {coinbase : Tx} {tail : List Tx}

/-- Between the coinbase and the tail no position is prefilled. -/
theorem prefilledAt_short (vtx_eq : B.vtx = coinbase :: (shortTxs P B ++ tail)) (tail_of : TailOf P B tail)
    {j : ℕ} (inside : j < (shortTxs P B).length) : prefilledAt B (j + 1) = false := by
  rcases tail_of with ⟨no_mweb, rfl⟩ | ⟨m, hogEx, has_mweb, rfl, -⟩
  · simp [prefilledAt, no_mweb]
  · simp [prefilledAt, has_mweb, vtx_eq]
    omega

/-- After the scans a slot holds a transaction exactly when its position is prefilled or its
transaction was found. -/
theorem scanState_isSome (vtx_eq : B.vtx = coinbase :: (shortTxs P B ++ tail)) (tail_of : TailOf P B tail)
    (found : ℕ → Bool) {i : ℕ} {tx : Tx} (at_i : B.vtx[i]? = some tx) :
    (scanState P coinbase tail (shortTxs P B) found).1[i]?.map Option.isSome =
      some (prefilledAt B i || found (P.getWitnessHash tx)) := by
  rw [vtx_eq] at at_i
  cases i with
  | zero => simp [scanState, prefilledAt]
  | succ j =>
    rw [List.getElem?_cons_succ] at at_i
    by_cases inside : j < (shortTxs P B).length
    · rw [List.getElem?_append_left inside] at at_i
      obtain ⟨-, rfl⟩ := List.getElem?_eq_some_iff.mp at_i
      cases found_j : found (P.getWitnessHash (shortTxs P B)[j]) <;>
        simp [scanState, List.getElem?_append_left, inside, found_j, prefilledAt_short P vtx_eq tail_of inside]
    · -- past the short transactions there is only the HogEx, at the last position
      rw [List.getElem?_append_right (by omega)] at at_i
      rcases tail_of with ⟨-, rfl⟩ | ⟨m, hogEx, has_mweb, rfl, -⟩
      · simp at at_i
      · have at_end : j = (shortTxs P B).length := by
          have below := (List.getElem?_eq_some_iff.mp at_i).1
          simp at below
          omega
        subst at_end
        simp [scanState, prefilledAt, has_mweb, vtx_eq]

/-- The transactions asked for are the short ones not found. -/
theorem map_fst_filter_zipIdx {α : Type} (p : α → Bool) (l : List α) :
    ∀ k, ((l.zipIdx k).filter fun e => p e.1).map Prod.fst = l.filter p := by
  induction l with
  | nil => simp
  | cons a l ih =>
    intro k
    cases kept : p a <;> simp [kept, ih]

theorem missingTxs_eq (vtx_eq : B.vtx = coinbase :: (shortTxs P B ++ tail)) (tail_of : TailOf P B tail)
    (pool : Mempool P) (extra_txn : List (ℕ × Option Tx)) :
    missingTxs P pool extra_txn B = (shortTxs P B).filter fun tx => !foundIn P pool extra_txn (P.getWitnessHash tx) := by
  -- between the coinbase and the tail only `found` decides
  have short_part : ((shortTxs P B).zipIdx 1).filter
        (fun e => !(prefilledAt B e.2 || foundIn P pool extra_txn (P.getWitnessHash e.1))) =
      ((shortTxs P B).zipIdx 1).filter fun e => !foundIn P pool extra_txn (P.getWitnessHash e.1) := by
    refine List.filter_congr fun e mem => ?_
    obtain ⟨low, at_e⟩ := List.mem_zipIdx_iff_le_and_getElem?_sub.mp mem
    have short := prefilledAt_short P vtx_eq tail_of (List.getElem?_eq_some_iff.mp at_e).1
    rw [Nat.sub_add_cancel low] at short
    simp [short]
  have tail_part : (tail.zipIdx (1 + (shortTxs P B).length)).filter
      (fun e => !(prefilledAt B e.2 || foundIn P pool extra_txn (P.getWitnessHash e.1))) = [] := by
    rcases tail_of with ⟨-, rfl⟩ | ⟨m, hogEx, has_mweb, rfl, -⟩
    · rfl
    · simp [prefilledAt, has_mweb, vtx_eq]
      omega
  have coinbase_part : prefilledAt B 0 = true := by simp [prefilledAt]
  rw [missingTxs, vtx_eq, List.zipIdx_cons, List.zipIdx_append, List.filter_cons, List.filter_append, short_part,
    tail_part, List.append_nil]
  simp only [coinbase_part, Bool.true_or, Bool.not_true, Bool.false_eq_true, if_false]
  exact map_fst_filter_zipIdx (fun tx => !foundIn P pool extra_txn (P.getWitnessHash tx)) (shortTxs P B) 1

end Positions

namespace PartiallyDownloadedBlock

theorem isTxAvailable_of_getElem? {pdb : PartiallyDownloadedBlock Header Tx MW} (header_ok : P.headerIsNull pdb.header = false)
    {i : ℕ} {b : Bool} (at_i : pdb.txn_available[i]?.map Option.isSome = some b) : pdb.isTxAvailable P i = pure b := by
  obtain ⟨slot, at_slot, rfl⟩ := Option.map_eq_some_iff.mp at_i
  simp [isTxAvailable, header_ok, at_slot]

theorem fillSlots_some (vtx_missing : List Tx) :
    ∀ (txs : List Tx) (k : ℕ), fillSlots vtx_missing (txs.map some) k = pure (txs, k)
  | [], _ => rfl
  | tx :: txs, k => by simp [fillSlots, fillSlots_some vtx_missing txs k]

/-- The fill loop over the slots of a list whose kept transactions are there: each empty slot
takes the next transaction asked for, which is the next one not kept. -/
theorem fillSlots_kept (keep : Tx → Bool) (rest : List Tx) :
    ∀ (txs pre : List Tx), fillSlots (pre ++ txs.filter fun tx => !keep tx)
        ((txs.map fun tx => if keep tx then some tx else none) ++ rest.map some) pre.length =
      pure (txs ++ rest, pre.length + (txs.filter fun tx => !keep tx).length)
  | [], pre => by simpa using fillSlots_some pre rest pre.length
  | tx :: txs, pre => by
    cases kept : keep tx
    · have next := fillSlots_kept keep rest txs (pre ++ [tx])
      simp only [List.append_assoc, List.singleton_append, List.length_append, List.length_singleton] at next
      simp only [fillSlots, kept, List.filter_cons, List.map_cons, Bool.not_false, if_true, Bool.false_eq_true,
        if_false, List.cons_append, List.getElem?_append_right (Nat.le_refl _), Nat.sub_self,
        List.getElem?_cons_zero, next, pure_bind, List.length_cons]
      rw [Nat.add_assoc, Nat.add_comm 1]
    · have next := fillSlots_kept keep rest txs pre
      simp [fillSlots, kept, next]

/-- `FillBlock` on the slots the scans leave, given the short transactions not found in block
order, rebuilds the block and leaves a partial block that cannot be filled again. -/
theorem fillBlock_scanState {B : CBlock Header Tx MW} {coinbase : Tx} {tail : List Tx}
    (vtx_eq : B.vtx = coinbase :: (shortTxs P B ++ tail)) (found : ℕ → Bool) (checkBlock : CBlock Header Tx MW → CheckResult)
    {pdb : PartiallyDownloadedBlock Header Tx MW} (header_eq : pdb.header = B.header)
    (header_ok : P.headerIsNull B.header = false) (slots : pdb.txn_available = (scanState P coinbase tail (shortTxs P B) found).1)
    (mweb_eq : pdb.mweb_block = B.mweb_block) :
    pdb.fillBlock P checkBlock ((shortTxs P B).filter fun tx => !found (P.getWitnessHash tx)) =
      (checkStatus (checkBlock B), some B, { pdb with header := P.nullHeader, txn_available := [] }) := by
  have filled := fillSlots_kept (fun tx => found (P.getWitnessHash tx)) tail (shortTxs P B) []
  simp only [List.nil_append, List.length_nil, Nat.zero_add] at filled
  have all : fillSlots ((shortTxs P B).filter fun tx => !found (P.getWitnessHash tx))
      (scanState P coinbase tail (shortTxs P B) found).1 0 =
      pure (B.vtx, ((shortTxs P B).filter fun tx => !found (P.getWitnessHash tx)).length) := by
    simp only [scanState, fillSlots, filled, pure_bind, vtx_eq]
  simp only [fillBlock, header_eq, header_ok, Bool.false_eq_true, if_false, slots, all]
  simp only [pure, Except.pure, ne_eq, not_true_eq_false, if_false, mweb_eq]

end PartiallyDownloadedBlock

/-- What the round trip of a block through a compact block gives: its message, bytes that read
back as it, and a partial block that `InitData` leaves with status OK, whose slots are available
exactly at the positions prefilled or found, and that `FillBlock` turns into the block with the
transactions not available, in block order. -/
def Reconstructs (bucket : UInt64 → ℕ) (pool : Mempool P) (extra_txn : List (ℕ × Option Tx))
    (B : CBlock Header Tx MW) (nonce : UInt64) (mweb_blockIn : Option MW) : Prop :=
  ∃ c bytes, CBlockHeaderAndShortTxIDs.ofBlock P nonce B true = some c ∧ c.serialize P true = some bytes ∧
    (CBlockHeaderAndShortTxIDs.unserialize P true).run bytes = some (c, []) ∧
    ∃ pdb, (PartiallyDownloadedBlock.new P mweb_blockIn).initData P bucket pool c extra_txn = pure (.OK, pdb) ∧
      (∀ i tx, B.vtx[i]? = some tx →
        pdb.isTxAvailable P i = pure (prefilledAt B i || foundIn P pool extra_txn (P.getWitnessHash tx))) ∧
      ∀ checkBlock, pdb.fillBlock P checkBlock (missingTxs P pool extra_txn B) =
        (PartiallyDownloadedBlock.checkStatus (checkBlock B), some B,
          { pdb with header := P.nullHeader, txn_available := [] })

/-- `InitData` on any message that reads, with any mempool and `extra_txn` and from any partial
block, ends with a status or dereferences a null pointer of `extra_txn`: it reads and writes
`txn_available` and `have_txn` only in range, never loops and never fails an assertion. -/
def InitDataSafe : Prop :=
  ∀ (bucket : UInt64 → ℕ) (pool : Mempool P) (pdb : PartiallyDownloadedBlock Header Tx MW) (fAllowMWEB : Bool)
    (stream rest : List UInt8) (c : CBlockHeaderAndShortTxIDs Header Tx MW) (extra_txn : List (ℕ × Option Tx)),
    (CBlockHeaderAndShortTxIDs.unserialize P fAllowMWEB).run stream = some (c, rest) →
      (∃ r, pdb.initData P bucket pool c extra_txn = pure r) ∨ pdb.initData P bucket pool c extra_txn = .error .nullDeref

/-- Primitives where a transaction is one byte whose hashes are its value, the byte 2 is a HogEx,
a header is whether it is set, and a short id is the hash plus the nonce. -/
def bytePrimitives : Primitives Bool UInt8 Unit where
  headerIsNull header := !header
  nullHeader := false
  nullHeader_isNull := rfl
  txIsNull _ := false
  isHogEx tx := tx == 2
  getHash tx := tx.toNat
  getWitnessHash tx := tx.toNat
  shortTxIDSelector _ nonce := (nonce, nonce)
  sipHashUint256 k0 _ txhash := k0 + UInt64.ofNat txhash
  writeHeader header := [if header then 1 else 0]
  readHeader := (· == 1) <$> readOne
  writeTx tx := [tx]
  readTx := readOne
  writeMweb _ := []
  readMweb := pure ()

/-- A mempool with the transaction 1. -/
def bytePool : Mempool bytePrimitives := ⟨[(1, 1)], by decide, by decide⟩

theorem compact_block_reconstruction {bucket : UInt64 → ℕ} {pool : Mempool P} {extra_txn : List (ℕ × Option Tx)}
    {B : CBlock Header Tx MW} {nonce : UInt64} (sendable : Sendable P bucket pool extra_txn B nonce)
    (mweb_blockIn : Option MW) :
    Reconstructs P bucket pool extra_txn B nonce mweb_blockIn ∧ InitDataSafe P := by
  refine ⟨?_, fun bucket pool pdb fAllowMWEB stream rest c extra_txn reads =>
    initData_safe P bucket pool pdb c extra_txn (CBlockHeaderAndShortTxIDs.blockTxCount_le_of_unserialize P reads)⟩
  obtain ⟨coinbase, tail, vtx_eq, tail_of⟩ := Relayable.split P sendable.relayable
  have made := ofBlock_eq P vtx_eq tail_of nonce
  -- the message is written and read back
  obtain ⟨bytes, written⟩ : ∃ bytes, CBlockHeaderAndShortTxIDs.serialize P true
      ⟨nonce, shortIds P B nonce, ⟨0, coinbase⟩ :: tail.map (fun hogEx => ⟨UInt16.ofNat (shortTxs P B).length, hogEx⟩),
        B.header, B.mweb_block⟩ = some bytes := by
    have small : ∀ id ∈ shortIds P B nonce, id.toNat < 2 ^ 48 := by
      intro id mem
      obtain ⟨tx, -, rfl⟩ := List.mem_map.mp mem
      exact shortTxID_lt P B.header nonce _
    unfold CBlockHeaderAndShortTxIDs.serialize
    exact ⟨_, if_pos (List.all_eq_true.mpr fun id mem => decide_eq_true (small id mem))⟩
  have prefilled_mem : ∀ p ∈ (⟨0, coinbase⟩ :: tail.map fun hogEx =>
      (⟨UInt16.ofNat (shortTxs P B).length, hogEx⟩ : PrefilledTransaction Tx)), p.tx ∈ B.vtx := by
    intro p mem
    rw [vtx_eq]
    simp only [List.mem_cons, List.mem_map] at mem
    rcases mem with rfl | ⟨hogEx, in_tail, rfl⟩
    · simp
    · simp [in_tail]
  have counted : (shortIds P B nonce).length + (tail.length + 1) ≤ 0xFFFF := by
    have le_max := sendable.relayable.le_max
    rw [vtx_eq] at le_max
    simp [shortIds] at le_max ⊢
    omega
  have encodable : CBlockHeaderAndShortTxIDs.Encodable P
      ⟨nonce, shortIds P B nonce, ⟨0, coinbase⟩ :: tail.map (fun hogEx => ⟨UInt16.ofNat (shortTxs P B).length, hogEx⟩),
        B.header, B.mweb_block⟩ :=
    ⟨sendable.header_trips, fun p mem => sendable.txs_trip p.tx (prefilled_mem p mem), sendable.mweb_trips,
      by simpa [CBlockHeaderAndShortTxIDs.blockTxCount] using counted⟩
  have reads := CBlockHeaderAndShortTxIDs.unserialize_serialize P encodable written []
  rw [List.append_nil] at reads
  obtain ⟨extra_count, init⟩ := initData_ofBlock P sendable vtx_eq tail_of made mweb_blockIn
  refine ⟨_, bytes, made, written, reads, _, init, ?_, ?_⟩
  · intro i tx at_i
    exact PartiallyDownloadedBlock.isTxAvailable_of_getElem? P sendable.header_ok
      (scanState_isSome P vtx_eq tail_of _ at_i)
  · intro checkBlock
    rw [missingTxs_eq P vtx_eq tail_of]
    exact PartiallyDownloadedBlock.fillBlock_scanState P vtx_eq _ checkBlock rfl sendable.header_ok rfl rfl

/-- A block with a HogEx whose short transactions are one in the mempool and one asked for; a null
entry of `extra_txn` under another hash is never read. -/
theorem compact_block_reconstruction_hogEx :
    Sendable bytePrimitives (fun _ => 0) bytePool [(5, none)] ⟨true, [0, 1, 3, 2], some ()⟩ 7 ∧
      Reconstructs bytePrimitives (fun _ => 0) bytePool [(5, none)] ⟨true, [0, 1, 3, 2], some ()⟩ 7 none ∧
      InitDataSafe bytePrimitives :=
  have relayable : Relayable bytePrimitives ⟨true, [0, 1, 3, 2], some ()⟩ :=
    ⟨by decide, by decide, by
      intro i tx at_i hog
      obtain ⟨inside, rfl⟩ := List.getElem?_eq_some_iff.mp at_i
      simp only [List.length_cons, List.length_nil] at inside
      interval_cases i <;> simp [bytePrimitives] at hog ⊢, by decide⟩
  have sendable : Sendable bytePrimitives (fun _ => 0) bytePool [(5, none)] ⟨true, [0, 1, 3, 2], some ()⟩ 7 :=
    ⟨relayable, rfl, fun _ _ => rfl, by decide, by decide,
      fun _ _ => (List.length_filter_le _ _).trans (by simp [shortIds, shortTxs, bytePrimitives]), by decide +kernel,
      by decide +kernel,
      fun _ => rfl, fun _ _ _ => rfl, fun _ _ _ => rfl⟩
  ⟨sendable, compact_block_reconstruction bytePrimitives sendable none⟩

/-- A block that carries one transaction twice has the shape and the injective short ids the
round trip asks for, but its two short ids are one key of the table: `InitData` sees a
collision and returns FAILED. -/
theorem compact_block_reconstruction_repeated :
    Relayable bytePrimitives ⟨true, [0, 1, 1], none⟩ ∧
      (∀ w ∈ [1, 1, 1], ∀ w' ∈ [1, 1, 1], shortTxID bytePrimitives true 7 w = shortTxID bytePrimitives true 7 w' → w = w') ∧
      ¬ Reconstructs bytePrimitives (fun _ => 0) bytePool [] ⟨true, [0, 1, 1], none⟩ 7 none := by
  refine ⟨⟨by decide, by decide, ?_, by decide⟩, by decide, ?_⟩
  · intro i tx at_i hog
    obtain ⟨inside, rfl⟩ := List.getElem?_eq_some_iff.mp at_i
    simp only [List.length_cons, List.length_nil] at inside
    interval_cases i <;> simp [bytePrimitives] at hog
  · rintro ⟨c, bytes, made, -, -, pdb, init, -⟩
    have message : CBlockHeaderAndShortTxIDs.ofBlock bytePrimitives 7 ⟨true, [0, 1, 1], none⟩ true =
        some ⟨7, [8, 8], [⟨0, 0⟩], true, none⟩ := by decide
    rw [message, Option.some.injEq] at made
    subst made
    obtain ⟨pdb', failed⟩ : ∃ pdb', (PartiallyDownloadedBlock.new bytePrimitives none).initData bytePrimitives
        (fun _ => 0) bytePool ⟨7, [8, 8], [⟨0, 0⟩], true, none⟩ [] = pure (.FAILED, pdb') := ⟨_, rfl⟩
    have statuses := init.symm.trans failed
    cases statuses

end Pussycoin.Net
