import Pussycoin.Address.Base58
import Pussycoin.Address.Bech32
import Pussycoin.Address.ConvertBits

/-! `EncodeDestination` and `DecodeDestination` of `key_io.cpp`, with the address fields of
`CChainParams` that they read. The double SHA-256 of the base58 checksum is a parameter `hash`.
A `std::vector<unsigned char>` is a list of bytes; the values the bech32 functions take are
numbers. `DecodeDestination` is `none` where it throws: its stealth-address branch reserves
`((data.size() - 1) * 5) / 8` bytes without checking that the data is not empty, and with empty
data that `size_t` wraps to `2^61 - 1`, an allocation that fails. -/
namespace Pussycoin.Address

inductive Base58Type
  | PUBKEY_ADDRESS
  | SCRIPT_ADDRESS
  | SCRIPT_ADDRESS2
  deriving DecidableEq, Repr

/-- The fields of `CChainParams` that `key_io.cpp` reads for destinations. -/
structure ChainParams where
  base58Prefixes : Base58Type → List UInt8
  bech32HRP : List Char
  mwebHRP : List Char

def mainChainParams : ChainParams where
  base58Prefixes
    | .PUBKEY_ADDRESS => [55]
    | .SCRIPT_ADDRESS => [85]
    | .SCRIPT_ADDRESS2 => [90]
  bech32HRP := "pussy".toList
  mwebHRP := "pussymweb".toList

def testNetChainParams : ChainParams where
  base58Prefixes
    | .PUBKEY_ADDRESS => [111]
    | .SCRIPT_ADDRESS => [196]
    | .SCRIPT_ADDRESS2 => [58]
  bech32HRP := "tpussy".toList
  mwebHRP := "tpussymweb".toList

def regTestChainParams : ChainParams where
  base58Prefixes
    | .PUBKEY_ADDRESS => [111]
    | .SCRIPT_ADDRESS => [196]
    | .SCRIPT_ADDRESS2 => [58]
  bech32HRP := "rpussy".toList
  mwebHRP := "rpussymweb".toList

/-- `CTxDestination`. A `WitnessUnknown` is its version and the `length` bytes of its program,
which is what its `operator==` compares; a stealth address is its two 33-byte public keys. -/
inductive TxDestination
  | noDestination
  | pkHash (id : Vector UInt8 20)
  | scriptHash (id : Vector UInt8 20)
  | witnessV0ScriptHash (id : Vector UInt8 32)
  | witnessV0KeyHash (id : Vector UInt8 20)
  | witnessUnknown (version : ℕ) (program : List UInt8)
  | stealthAddress (scan spend : Vector UInt8 33)
  deriving DecidableEq, Repr

variable (hash : List UInt8 → Vector UInt8 32)

/-- What the encoders push: `ConvertBits<8, 5, true>` over the bytes, each value passed to a
lambda that takes an `unsigned char`. -/
def toFiveBits (bytes : List UInt8) : List UInt8 :=
  (convertBits 8 5 true (bytes.map UInt8.toNat)).1.map UInt8.ofNat

/-- `DestinationEncoder`: the empty string is `{}`. -/
def encodeDestination (params : ChainParams) : TxDestination → Option (List Char)
  | .pkHash id => encodeBase58Check hash (params.base58Prefixes .PUBKEY_ADDRESS ++ id.toList)
  | .scriptHash id => encodeBase58Check hash (params.base58Prefixes .SCRIPT_ADDRESS2 ++ id.toList)
  | .witnessV0KeyHash id => Bech32.encode .BECH32 params.bech32HRP ((0 :: toFiveBits id.toList).map UInt8.toNat)
  | .witnessV0ScriptHash id =>
    Bech32.encode .BECH32 params.bech32HRP ((0 :: toFiveBits id.toList).map UInt8.toNat)
  | .witnessUnknown version program =>
    if version < 1 ∨ version > 16 ∨ program.length < 2 ∨ program.length > 40 then some []
    else Bech32.encode .BECH32M params.bech32HRP ((UInt8.ofNat version :: toFiveBits program).map UInt8.toNat)
  | .stealthAddress scan spend =>
    Bech32.encode .BECH32 params.mwebHRP ((0 :: toFiveBits (scan.toList ++ spend.toList)).map UInt8.toNat)
  | .noDestination => some []

/-- The base58 test for one prefix: `data` is the prefix and a 20-byte hash, which is copied out. -/
def hashAfter (version data : List UInt8) : Option (Vector UInt8 20) :=
  if h : data.length = 20 + version.length ∧ version.isPrefixOf data = true then
    some ⟨(data.drop version.length).toArray, by simp [h.1]⟩
  else none

/-- The base58 branch of `DecodeDestination`, on the payload `DecodeBase58Check` gave: `none`
where no prefix fits and the code goes on to bech32. -/
def decodeBase58Destination (params : ChainParams) (data : List UInt8) : Option TxDestination :=
  match hashAfter (params.base58Prefixes .PUBKEY_ADDRESS) data with
  | some id => some (.pkHash id)
  | none =>
    match hashAfter (params.base58Prefixes .SCRIPT_ADDRESS) data with
    | some id => some (.scriptHash id)
    | none => (hashAfter (params.base58Prefixes .SCRIPT_ADDRESS2) data).map .scriptHash

/-- The destination the segwit branch makes of a witness version and the program bytes. -/
def witnessOf (version : ℕ) (data : List UInt8) : TxDestination :=
  if version = 0 then
    if h : data.length = 20 then .witnessV0KeyHash ⟨data.toArray, h⟩
    else if h : data.length = 32 then .witnessV0ScriptHash ⟨data.toArray, h⟩
    else .noDestination
  else if version > 16 ∨ data.length < 2 ∨ data.length > 40 then .noDestination
  else .witnessUnknown version data

/-- The segwit branch of `DecodeDestination`, on `bech32::Decode(str)`: `none` where the code
goes on to the stealth-address branch, which it does also when `ConvertBits` fails. -/
def decodeWitness (params : ChainParams) (dec : Bech32.DecodeResult) : Option TxDestination :=
  if (dec.encoding = .BECH32 ∨ dec.encoding = .BECH32M) ∧ dec.data.length > 0 ∧ dec.hrp = params.bech32HRP then
    -- the first 5-bit symbol is the witness version
    let version := dec.data.headD 0
    if version = 0 ∧ dec.encoding ≠ .BECH32 then some .noDestination
    else if version ≠ 0 ∧ dec.encoding ≠ .BECH32M then some .noDestination
    else
      match convertBits 5 8 false dec.data.tail with
      | (converted, true) => some (witnessOf version (converted.map UInt8.ofNat))
      | (_, false) => none
  else none

/-- The stealth-address branch of `DecodeDestination`, on `bech32::Decode(str, true)`. -/
def decodeStealth (params : ChainParams) (decoded : Bech32.DecodeResult) : Option TxDestination :=
  if decoded.encoding = .BECH32 ∧ decoded.hrp = params.mwebHRP then
    -- the reserve with empty data throws
    if decoded.data = [] then none
    else
      match convertBits 5 8 false decoded.data.tail with
      | (converted, true) =>
        let converted := converted.map UInt8.ofNat
        if h : converted.length = 66 then
          some (.stealthAddress ⟨(converted.take 33).toArray, by simp [h]⟩ ⟨(converted.drop 33).toArray, by simp [h]⟩)
        else some .noDestination
      | (_, false) => some .noDestination
  else some .noDestination

def decodeDestination (params : ChainParams) (str : List Char) : Option TxDestination :=
  match (decodeBase58Check hash str 21).bind (decodeBase58Destination params) with
  | some dest => some dest
  | none =>
    match decodeWitness params (Bech32.decode str false) with
    | some dest => some dest
    | none => decodeStealth params (Bech32.decode str true)

end Pussycoin.Address
