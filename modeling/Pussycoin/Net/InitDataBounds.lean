import Pussycoin.Net.BlockEncodingsRoundTrip
import Pussycoin.Runs

/-! `InitData` never reads or writes a vector out of range, and never loops for ever, on any
message that reads off the wire. The prefilled transactions land below the count of slots; the
`uint16_t` offset of the short-id loop only walks over filled slots up to the next empty one, so
every position in the table of short ids is a slot; the scans of the mempool and of `extra_txn`
index with those positions. What can still go wrong is a null pointer in `extra_txn`. -/
namespace Pussycoin.Net

open Runs

variable {Header Tx MW : Type} (P : Primitives Header Tx MW)

section Vectors

variable {α : Type}

theorem vecAt_of_lt {v : List α} {k : ℕ} (inside : k < v.length) : vecAt v k = pure v[k] := by
  simp [vecAt, List.getElem?_eq_getElem inside]

theorem vecSet_of_lt {v : List α} {k : ℕ} (inside : k < v.length) (a : α) :
    vecSet v k a = pure (v.set k a) := by
  simp [vecSet, inside]

theorem countP_isNone_add_countP_isSome (l : List (Option α)) :
    l.countP Option.isNone + l.countP Option.isSome = l.length := by
  induction l with
  | nil => rfl
  | cons slot l ih =>
    cases slot <;> simp <;> omega

/-- Past a run of filled slots, the count of empty slots is what it was before the run. -/
theorem countP_take_of_filled {l : List (Option α)} {q₀ q : ℕ} (from_start : q₀ ≤ q)
    (filled : ∀ k, q₀ ≤ k → k < q → ∃ a, l[k]? = some (some a)) :
    (l.take q).countP Option.isNone = (l.take q₀).countP Option.isNone := by
  induction q, from_start using Nat.le_induction with
  | base => rfl
  | succ q from_start ih =>
    obtain ⟨a, at_q⟩ := filled q from_start (Nat.lt_succ_self q)
    rw [List.take_add_one, List.countP_append, ih (fun k after below => filled k after (by omega)), at_q]
    rfl

/-- There is an empty slot from `q₀` on when fewer than all the empty slots come before it. -/
theorem exists_empty_from {l : List (Option α)} {q₀ i : ℕ}
    (before : (l.take q₀).countP Option.isNone = i) (more : i < l.countP Option.isNone) :
    ∃ q, q₀ ≤ q ∧ l[q]? = some none := by
  by_contra none_after
  push Not at none_after
  have after : (l.drop q₀).countP Option.isNone = 0 := by
    rw [List.countP_eq_zero]
    intro slot mem
    obtain ⟨j, at_j⟩ := List.mem_iff_getElem?.mp mem
    rw [List.getElem?_drop] at at_j
    cases slot with
    | none => exact absurd at_j (none_after (q₀ + j) (by omega))
    | some _ => simp
  have split : (l.take q₀ ++ l.drop q₀).countP Option.isNone =
      (l.take q₀).countP Option.isNone + (l.drop q₀).countP Option.isNone := List.countP_append
  rw [List.take_append_drop] at split
  omega

end Vectors

/-! ### The loops of `InitData` -/

/-- The offset loop stops at the first empty slot from `i + index_offset` on, as long as the
offset does not wrap and the fuel covers the filled slots before it. -/
theorem skipFilled_eq {avail : List (Option Tx)} {i q : ℕ} (empty : avail[q]? = some none)
    (small : q - i < 2 ^ 16) :
    ∀ (fuel : ℕ) (off : UInt16), i + off.toNat ≤ q → q - (i + off.toNat) < fuel →
      (∀ k, i + off.toNat ≤ k → k < q → ∃ tx, avail[k]? = some (some tx)) →
      skipFilled avail i fuel off = pure (UInt16.ofNat (q - i))
  | 0, _, _, short, _ => absurd short (Nat.not_lt_zero _)
  | fuel + 1, off, before, enough, filled => by
    rcases Nat.lt_or_eq_of_le before with earlier | here
    · obtain ⟨tx, at_k⟩ := filled (i + off.toNat) le_rfl earlier
      have next : (off + 1).toNat = off.toNat + 1 := by
        rw [UInt16.toNat_add, UInt16.toNat_one]
        omega
      have rest := skipFilled_eq empty small fuel (off + 1) (by omega) (by omega)
        (fun k after below => filled k (by omega) below)
      simp only [skipFilled, vecAt, at_k, pure_bind]
      exact rest
    · subst here
      simp only [skipFilled, vecAt, empty, pure_bind, Nat.add_sub_cancel_left, UInt16.ofNat_toNat]

/-- What the prefilled loop keeps: the slots past `lastprefilledindex` are empty, `i` slots are
filled, and `lastprefilledindex` stays below the short ids and the entries placed so far. -/
theorem placePrefilled_spec (S : ℕ) :
    ∀ (prefilled : List (PrefilledTransaction Tx)) (i : ℕ) (last : ℤ) (avail : List (Option Tx)),
      avail.length = S + i + prefilled.length → -1 ≤ last → last < S + i →
      (∀ k : ℕ, last < k → ∀ slot, avail[k]? = some slot → slot = none) →
      avail.countP Option.isSome = i →
      ∃ stop avail', placePrefilled P S prefilled i last avail = pure (stop, avail') ∧
        (stop = none → avail'.length = S + i + prefilled.length ∧
          avail'.countP Option.isSome = i + prefilled.length)
  | [], i, last, avail, length, _, _, _, filled =>
    ⟨none, avail, rfl, fun _ => ⟨length, filled⟩⟩
  | p :: prefilled, i, last, avail, length, from_start, below, empty_after, filled => by
    simp only [placePrefilled]
    split_ifs with null past_max past_short
    · exact ⟨some .INVALID, avail, rfl, by simp⟩
    · exact ⟨some .INVALID, avail, rfl, by simp⟩
    · exact ⟨some .INVALID, avail, rfl, by simp⟩
    · -- the slot at the new `lastprefilledindex` is in range and still empty
      set k := (last + p.index.toNat + 1).toNat with k_def
      have cast : (k : ℤ) = last + p.index.toNat + 1 := Int.toNat_of_nonneg (by omega)
      have inside : k < avail.length := by
        simp only [List.length_cons] at length
        omega
      have was_empty : avail[k] = none :=
        empty_after k (by omega) avail[k] (List.getElem?_eq_getElem inside)
      rw [vecSet_of_lt inside, pure_bind]
      obtain ⟨stop, avail', placed, spec⟩ := placePrefilled_spec S prefilled (i + 1) (last + p.index.toNat + 1)
        (avail.set k (some p.tx))
        (by simp only [List.length_set, List.length_cons] at length ⊢; omega) (by omega) (by omega)
        (by
          intro k' after slot at_k'
          rw [List.getElem?_set, if_neg (by omega)] at at_k'
          exact empty_after k' (by omega) slot at_k')
        (by rw [List.countP_set inside, was_empty]; simp [filled])
      refine ⟨stop, avail', placed, fun done => ?_⟩
      obtain ⟨length', filled'⟩ := spec done
      simp only [List.length_cons]
      exact ⟨by omega, by omega⟩

/-- The values of a table after an assignment are its old ones and the new one. -/
theorem mem_mapAssign {m : ShortIdMap} {key : UInt64} {value : UInt16} {e : UInt64 × UInt16}
    (mem : e ∈ mapAssign m key value) : e ∈ m ∨ e = (key, value) := by
  unfold mapAssign at mem
  split at mem
  · obtain ⟨e', mem', rfl⟩ := List.mem_map.mp mem
    split
    · exact Or.inr rfl
    · exact Or.inl mem'
  · simpa using mem

/-- The short-id loop only names slots: every position it puts in the table is below the count of
slots, as the `uint16_t` offset never wraps when there are at most 65535 of them. -/
theorem mapShortIds_safe (bucket : UInt64 → ℕ) {avail : List (Option Tx)}
    (few : avail.length ≤ 0xFFFF) :
    ∀ (ids : List UInt64) (i : ℕ) (off : UInt16) (m : ShortIdMap),
      i + ids.length = avail.countP Option.isNone →
      (avail.take (i + off.toNat)).countP Option.isNone = i →
      (∀ e ∈ m, e.2.toNat < avail.length) →
      ∃ stop m', mapShortIds bucket avail ids i off m = pure (stop, m') ∧
        ∀ e ∈ m', e.2.toNat < avail.length
  | [], _, _, m, _, _, values => ⟨none, m, rfl, values⟩
  | id :: ids, i, off, m, count, before, values => by
    -- the next empty slot from `i + index_offset` on
    have exists_empty := exists_empty_from before (by simp only [List.length_cons] at count; omega)
    classical
    let q := Nat.find exists_empty
    have q_spec : i + off.toNat ≤ q ∧ avail[q]? = some none := Nat.find_spec exists_empty
    have inside : q < avail.length := (List.getElem?_eq_some_iff.mp q_spec.2).1
    have filled : ∀ k, i + off.toNat ≤ k → k < q → ∃ tx, avail[k]? = some (some tx) := by
      intro k after below
      have not_empty := Nat.find_min exists_empty below
      obtain ⟨slot, at_k⟩ : ∃ slot, avail[k]? = some slot := ⟨avail[k], List.getElem?_eq_getElem (by omega)⟩
      cases slot with
      | none => exact absurd ⟨after, at_k⟩ not_empty
      | some tx => exact ⟨tx, at_k⟩
    have skipped := skipFilled_eq q_spec.2 (by omega) (2 ^ 16) off q_spec.1 (by omega) filled
    have position : UInt16.ofNat i + UInt16.ofNat (q - i) = UInt16.ofNat q := by
      rw [← UInt16.ofNat_add]
      congr 1
      omega
    have value : (UInt16.ofNat q).toNat = q := UInt16.toNat_ofNat_of_lt' (by unfold UInt16.size; omega)
    have values' : ∀ e ∈ mapAssign m id (UInt16.ofNat q), e.2.toNat < avail.length := by
      intro e mem
      rcases mem_mapAssign mem with old | rfl
      · exact values e old
      · simpa [value] using inside
    simp only [mapShortIds, skipped, pure_bind, position]
    split
    · exact ⟨some .FAILED, _, rfl, values'⟩
    · have off' : (UInt16.ofNat (q - i)).toNat = q - i := UInt16.toNat_ofNat_of_lt' (by unfold UInt16.size; omega)
      refine mapShortIds_safe bucket few ids (i + 1) _ _ (by simp only [List.length_cons] at count; omega)
        ?_ values'
      rw [off', show i + 1 + (q - i) = q + 1 by omega, List.take_add_one, List.countP_append,
        countP_take_of_filled q_spec.1 filled, before, q_spec.2]
      rfl

theorem mem_of_lookup {m : ShortIdMap} {key : UInt64} {value : UInt16} (found : m.lookup key = some value) :
    (key, value) ∈ m := by
  obtain ⟨front, back, rfl, -⟩ := List.lookup_eq_some_iff.mp found
  simp

/-- The scan of the mempool indexes its vectors only at positions of the table, which are slots,
and leaves their lengths. -/
theorem scanMempool_safe (c : CBlockHeaderAndShortTxIDs Header Tx MW) {m : ShortIdMap} {n : ℕ}
    (values : ∀ e ∈ m, e.2.toNat < n) :
    ∀ (entries : List (ℕ × Tx)) (avail : List (Option Tx)) (have_txn : List Bool) (count : UInt64),
      avail.length = n → have_txn.length = n →
      ∃ avail' have' count', scanMempool P c m entries avail have_txn count = pure (avail', have', count') ∧
        avail'.length = n ∧ have'.length = n
  | [], avail, have_txn, count, lengthAvail, lengthHave => ⟨avail, have_txn, count, rfl, lengthAvail, lengthHave⟩
  | (wtxid, tx) :: entries, avail, have_txn, count, lengthAvail, lengthHave => by
    -- after the entry, the scan stops or goes on with vectors of the same length
    have next : ∀ (avail' : List (Option Tx)) (have' : List Bool) (count' : UInt64),
        avail'.length = n → have'.length = n →
        ∃ avail'' have'' count'', (if count'.toNat = m.length then pure (avail', have', count')
            else scanMempool P c m entries avail' have' count') = pure (avail'', have'', count'') ∧
          avail''.length = n ∧ have''.length = n := by
      intro avail' have' count' lengthAvail' lengthHave'
      split
      · exact ⟨avail', have', count', rfl, lengthAvail', lengthHave'⟩
      · exact scanMempool_safe c values entries avail' have' count' lengthAvail' lengthHave'
    simp only [scanMempool]
    cases found : m.lookup (c.getShortID P wtxid) with
    | none => exact next avail have_txn count lengthAvail lengthHave
    | some idx =>
      have inside : idx.toNat < n := values _ (mem_of_lookup found)
      simp only [vecAt_of_lt (lengthHave ▸ inside), pure_bind]
      split
      · simp only [vecSet_of_lt (lengthAvail ▸ inside), vecSet_of_lt (lengthHave ▸ inside), pure_bind]
        exact next _ _ _ (by simp [lengthAvail]) (by simp [lengthHave])
      · simp only [vecAt_of_lt (lengthAvail ▸ inside), pure_bind]
        split
        · simp only [vecSet_of_lt (lengthAvail ▸ inside), pure_bind]
          exact next _ _ _ (by simp [lengthAvail]) lengthHave
        · exact next avail have_txn count lengthAvail lengthHave

/-- The scan of `extra_txn` indexes as the mempool's does; it can only stop at a null pointer. -/
theorem scanExtra_safe (c : CBlockHeaderAndShortTxIDs Header Tx MW) {m : ShortIdMap} {n : ℕ}
    (values : ∀ e ∈ m, e.2.toNat < n) :
    ∀ (entries : List (ℕ × Option Tx)) (avail : List (Option Tx)) (have_txn : List Bool)
      (count extra_count : UInt64), avail.length = n → have_txn.length = n →
      (∃ r, scanExtra P c m entries avail have_txn count extra_count = pure r) ∨
        scanExtra P c m entries avail have_txn count extra_count = .error .nullDeref
  | [], _, _, _, _, _, _ => Or.inl ⟨_, rfl⟩
  | (wtxid, tx) :: entries, avail, have_txn, count, extra_count, lengthAvail, lengthHave => by
    have next : ∀ (avail' : List (Option Tx)) (have' : List Bool) (count' extra' : UInt64),
        avail'.length = n → have'.length = n →
        (∃ r, (if count'.toNat = m.length then pure (avail', have', count', extra')
            else scanExtra P c m entries avail' have' count' extra') = pure r) ∨
          (if count'.toNat = m.length then pure (avail', have', count', extra')
            else scanExtra P c m entries avail' have' count' extra') = .error .nullDeref := by
      intro avail' have' count' extra' lengthAvail' lengthHave'
      split
      · exact Or.inl ⟨_, rfl⟩
      · exact scanExtra_safe c values entries avail' have' count' extra' lengthAvail' lengthHave'
    simp only [scanExtra]
    cases found : m.lookup (c.getShortID P wtxid) with
    | none => exact next avail have_txn count extra_count lengthAvail lengthHave
    | some idx =>
      have inside : idx.toNat < n := values _ (mem_of_lookup found)
      simp only [vecAt_of_lt (lengthHave ▸ inside), pure_bind]
      split
      · simp only [vecSet_of_lt (lengthAvail ▸ inside), vecSet_of_lt (lengthHave ▸ inside), pure_bind]
        exact next _ _ _ _ (by simp [lengthAvail]) (by simp [lengthHave])
      · simp only [vecAt_of_lt (lengthAvail ▸ inside), pure_bind]
        split
        · exact next avail have_txn count extra_count lengthAvail lengthHave
        · split
          · exact Or.inr rfl
          · split
            · simp only [vecSet_of_lt (lengthAvail ▸ inside), pure_bind]
              exact next _ _ _ _ (by simp [lengthAvail]) lengthHave
            · exact next avail have_txn count extra_count lengthAvail lengthHave

/-- `InitData` on a message that reads off the wire indexes no vector out of range and ends: it
returns a status, or dereferences a null pointer of `extra_txn`. -/
theorem initData_safe (bucket : UInt64 → ℕ) (pool : Mempool P) (pdb : PartiallyDownloadedBlock Header Tx MW)
    (c : CBlockHeaderAndShortTxIDs Header Tx MW) (extra_txn : List (ℕ × Option Tx))
    (few : c.blockTxCount ≤ 0xFFFF) :
    (∃ r, pdb.initData P bucket pool c extra_txn = pure r) ∨
      pdb.initData P bucket pool c extra_txn = .error .nullDeref := by
  unfold PartiallyDownloadedBlock.initData
  split_ifs with null_message too_many used
  · exact Or.inl ⟨_, rfl⟩
  · exact Or.inl ⟨_, rfl⟩
  · exact Or.inl ⟨_, rfl⟩
  · obtain ⟨stop, avail, placed, spec⟩ := placePrefilled_spec P c.shorttxids.length c.prefilledtxn 0 (-1)
      (List.replicate c.blockTxCount none) (by simp [CBlockHeaderAndShortTxIDs.blockTxCount]) le_rfl
      (by omega) (fun k _ slot at_k => List.eq_of_mem_replicate (List.mem_of_getElem? at_k)) (by simp)
    simp only [placed, pure_bind]
    cases stop with
    | some status => exact Or.inl ⟨_, rfl⟩
    | none =>
      obtain ⟨length, filled⟩ := spec rfl
      have empties := countP_isNone_add_countP_isSome avail
      have few' : avail.length ≤ 0xFFFF := by
        unfold CBlockHeaderAndShortTxIDs.blockTxCount at few
        omega
      obtain ⟨stop', m, mapped, values⟩ := mapShortIds_safe bucket few' c.shorttxids 0 0 []
        (by omega) (by simp) (by simp)
      simp only [mapped, pure_bind]
      cases stop' with
      | some status => exact Or.inl ⟨_, rfl⟩
      | none =>
        dsimp only
        split
        · exact Or.inl ⟨_, rfl⟩
        · obtain ⟨avail', have', count', scanned, lengthAvail, lengthHave⟩ := scanMempool_safe P c values
            pool.vTxHashes avail (List.replicate avail.length false) pdb.mempool_count rfl (by simp)
          simp only [scanned, pure_bind]
          rcases scanExtra_safe P c values extra_txn avail' have' count' pdb.extra_count lengthAvail lengthHave
            with ⟨r, extra⟩ | null
          · simp only [extra, pure_bind]
            exact Or.inl ⟨_, rfl⟩
          · simp only [null]
            exact Or.inr rfl

end Pussycoin.Net
