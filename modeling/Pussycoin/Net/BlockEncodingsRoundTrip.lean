import Pussycoin.Net.BlockEncodings

/-! The wire format of compact blocks reads back what it writes: the header, the nonce, the
six-byte short ids, the prefilled transactions with their offsets and the MWEB block, when the
header, the prefilled transactions and the MWEB block read back through their own formats. A
message that reads has at most 65535 transactions. -/
namespace Pussycoin.Net

open Codec Serialize

variable {Header Tx MW : Type} (P : Primitives Header Tx MW)

theorem readShortId_roundTrips :
    RoundTrips (fun id : UInt64 => writeLE 6 id.toNat) ((fun id => UInt64.ofNat id) <$> readLE 6)
      (·.toNat < 2 ^ 48) := by
  intro id small rest
  have fits : id.toNat < 256 ^ 6 := by simpa using small
  simp [readLE_roundTrips 6 id.toNat fits rest]

theorem readNonce_roundTrips (nonce : UInt64) (rest : List UInt8) :
    (readLE 8).run (writeLE 8 nonce.toNat ++ rest) = some (nonce.toNat, rest) :=
  readLE_roundTrips 8 nonce.toNat (by simpa using nonce.toNat_lt) rest

namespace PrefilledTransaction

theorem read_roundTrips :
    RoundTrips (write P) (read P) fun p => ∀ rest, P.readTx.run (P.writeTx p.tx ++ rest) = some (p.tx, rest) := by
  rintro ⟨index, tx⟩ trips rest
  have small := index.toNat_lt
  have size := readCompactSize_roundTrips true index.toNat
    ⟨by omega, fun _ => by unfold MAX_SIZE; omega⟩ (P.writeTx tx ++ rest)
  simp [write, read, size, show ¬ 0xFFFF < index.toNat by omega, trips rest]

end PrefilledTransaction

namespace CBlockHeaderAndShortTxIDs

/-- What the round trip asks of a message: its header, prefilled transactions and MWEB block read
back through their own formats, and it has at most 65535 transactions. -/
structure Encodable (c : CBlockHeaderAndShortTxIDs Header Tx MW) : Prop where
  header : ∀ rest, P.readHeader.run (P.writeHeader c.header ++ rest) = some (c.header, rest)
  prefilled : ∀ p ∈ c.prefilledtxn, ∀ rest, P.readTx.run (P.writeTx p.tx ++ rest) = some (p.tx, rest)
  mweb : ∀ m ∈ c.mweb_block, ∀ rest, P.readMweb.run (P.writeMweb m ++ rest) = some (m, rest)
  few : c.blockTxCount ≤ 0xFFFF

theorem unserialize_serialize {c : CBlockHeaderAndShortTxIDs Header Tx MW} (encodable : c.Encodable P)
    {bytes : List UInt8} (written : c.serialize P true = some bytes) (rest : List UInt8) :
    (unserialize P true).run (bytes ++ rest) = some (c, rest) := by
  unfold serialize at written
  split at written
  · rename_i small
    cases Option.some.inj written
    have counted := encodable.few
    unfold blockTxCount at counted
    have ids := readVector_roundTrips readShortId_roundTrips c.shorttxids
      ⟨by unfold MAX_SIZE; omega, fun id mem => by simpa using List.all_eq_true.mp small id mem⟩
    have prefilled := readVector_roundTrips (PrefilledTransaction.read_roundTrips P) c.prefilledtxn
      ⟨by unfold MAX_SIZE; omega, encodable.prefilled⟩
    have mwebTrips : RoundTrips P.writeMweb P.readMweb
        fun m => ∀ rest, P.readMweb.run (P.writeMweb m ++ rest) = some (m, rest) :=
      fun m trips rest => trips rest
    have mweb := readOptionalPtr_roundTrips mwebTrips c.mweb_block encodable.mweb rest
    simp only [unserialize, List.append_assoc, run_bind, encodable.header, Option.bind_some,
      readNonce_roundTrips, ids, prefilled, if_true, mweb, UInt64.ofNat_toNat]
    simp [blockTxCount, show ¬ 0xFFFF < c.shorttxids.length + c.prefilledtxn.length by omega]
  · cases written

theorem blockTxCount_le_of_unserialize {fAllowMWEB : Bool} {stream rest : List UInt8}
    {c : CBlockHeaderAndShortTxIDs Header Tx MW} (reads : (unserialize P fAllowMWEB).run stream = some (c, rest)) :
    c.blockTxCount ≤ 0xFFFF := by
  -- every path ends with the check on the count of the message it has read
  have checked : ∀ (c' : CBlockHeaderAndShortTxIDs Header Tx MW) (s : List UInt8),
      (if 0xFFFF < c'.blockTxCount then failure else pure c' : Reader UInt8 _).run s = some (c, rest) →
        c.blockTxCount ≤ 0xFFFF := by
    intro c' s passes
    split at passes
    · cases passes
    · rename_i few
      cases (Prod.mk.inj (Option.some.inj passes)).1
      omega
  cases fAllowMWEB <;>
  · simp only [unserialize, run_bind, Option.bind_eq_some_iff, Bool.false_eq_true, if_true, if_false] at reads
    obtain ⟨_, -, _, -, _, -, _, -, _, -, passes⟩ := reads
    exact checked _ _ passes

end CBlockHeaderAndShortTxIDs

end Pussycoin.Net
