import Pussycoin.Address.KeyIO

/-! Every destination `EncodeDestination` writes, `DecodeDestination` reads back. A base58
address is found by its prefix. A segwit address passes through the base58 branch because no
bech32 string decodes, in base58, to 25 bytes that start with a prefix. A stealth address
passes through the segwit branch because its string is too long for it. -/
namespace Pussycoin.Address

open Positional

/-! ### Five-bit groups -/

theorem bytes_small (bytes : List UInt8) : ∀ x ∈ bytes.map UInt8.toNat, x < 2 ^ 8 := by
  intro x mem
  obtain ⟨b, -, rfl⟩ := List.mem_map.mp mem
  exact b.toNat_lt_size

/-- The groups the encoders push are five-bit values, about `8/5` as many as the bytes, and
`ConvertBits<5, 8, false>` gives the bytes back. -/
theorem toFiveBits_spec (bytes : List UInt8) :
    (∀ v ∈ (toFiveBits bytes).map UInt8.toNat, v < 32) ∧
      8 * bytes.length ≤ 5 * (toFiveBits bytes).length ∧ 5 * (toFiveBits bytes).length < 8 * bytes.length + 5 ∧
      convertBits 5 8 false ((toFiveBits bytes).map UInt8.toNat) = (bytes.map UInt8.toNat, true) := by
  obtain ⟨e, he, -, count, digits, -⟩ := convertBits_pad (by norm_num : 0 < 5) (bytes_small bytes)
  -- no group is cut by the `unsigned char` it is passed as
  have unchanged : (toFiveBits bytes).map UInt8.toNat = (convertBits 8 5 true (bytes.map UInt8.toNat)).1 := by
    rw [toFiveBits, List.map_map]
    refine (List.map_congr_left fun v mem => ?_).trans (List.map_id _)
    have := digits v mem
    exact UInt8.toNat_ofNat_of_lt' (by simp only [UInt8.size]; omega)
  have length : (toFiveBits bytes).length = (convertBits 8 5 true (bytes.map UInt8.toNat)).1.length := by
    rw [← unchanged, List.length_map]
  rw [List.length_map] at count
  refine ⟨?_, by omega, by omega, ?_⟩
  · intro v mem
    rw [unchanged] at mem
    exact digits v mem
  · rw [unchanged]
    exact convertBits_roundTrip (by norm_num) (by norm_num) (bytes_small bytes)

theorem ofNat_toNat_bytes (bytes : List UInt8) : (bytes.map UInt8.toNat).map UInt8.ofNat = bytes := by
  simp [Function.comp_def]

/-- The bytes of a vector, copied into one of the same size, give the vector. -/
theorem vector_of_toList {n : ℕ} {bytes : List UInt8} {v : Vector UInt8 n} (same : bytes = v.toList)
    (h : bytes.toArray.size = n) : (⟨bytes.toArray, h⟩ : Vector UInt8 n) = v := by
  rw [← Vector.toList_inj, Vector.toList_mk, List.toList_toArray, same]

/-! ### The segwit and stealth branches -/

/-- The segwit branch reads the version and the program from a decoding whose data is the
version and the program in five-bit groups, under the encoding that version asks for. -/
theorem decodeWitness_fiveBits {params : ChainParams} {encoding : Bech32.Encoding} {version : ℕ}
    (versioned : version = 0 ∧ encoding = .BECH32 ∨ version ≠ 0 ∧ encoding = .BECH32M) (bytes : List UInt8) :
    decodeWitness params ⟨encoding, params.bech32HRP, version :: (toFiveBits bytes).map UInt8.toNat⟩ =
      some (witnessOf version bytes) := by
  obtain ⟨-, -, -, back⟩ := toFiveBits_spec bytes
  have named : encoding = .BECH32 ∨ encoding = .BECH32M := by
    rcases versioned with ⟨-, rfl⟩ | ⟨-, rfl⟩
    · exact Or.inl rfl
    · exact Or.inr rfl
  have rightEncoding : ¬(version = 0 ∧ encoding ≠ .BECH32) ∧ ¬(version ≠ 0 ∧ encoding ≠ .BECH32M) := by
    rcases versioned with ⟨zero, rfl⟩ | ⟨nonzero, rfl⟩
    · exact ⟨fun h => h.2 rfl, fun h => h.1 zero⟩
    · exact ⟨fun h => nonzero h.1, fun h => h.2 rfl⟩
  rw [decodeWitness, if_pos ⟨named, List.length_pos_iff.mpr (List.cons_ne_nil _ _), rfl⟩]
  simp only [List.headD_cons, List.tail_cons, rightEncoding.1, rightEncoding.2, if_false, back, ofNat_toNat_bytes]

theorem witnessOf_keyHash (id : Vector UInt8 20) : witnessOf 0 id.toList = .witnessV0KeyHash id := by
  rw [witnessOf, if_pos rfl, dif_pos (by simp), vector_of_toList rfl]

theorem witnessOf_scriptHash (id : Vector UInt8 32) : witnessOf 0 id.toList = .witnessV0ScriptHash id := by
  rw [witnessOf, if_pos rfl, dif_neg (by simp), dif_pos (by simp), vector_of_toList rfl]

theorem witnessOf_unknown {version : ℕ} {program : List UInt8} (versioned : 1 ≤ version ∧ version ≤ 16)
    (sized : 2 ≤ program.length ∧ program.length ≤ 40) : witnessOf version program = .witnessUnknown version program := by
  rw [witnessOf, if_neg (by omega), if_neg (by omega)]

/-- The stealth-address branch reads the two keys back from a decoding of their bytes. -/
theorem decodeStealth_fiveBits (params : ChainParams) (scan spend : Vector UInt8 33) :
    decodeStealth params ⟨.BECH32, params.mwebHRP, 0 :: (toFiveBits (scan.toList ++ spend.toList)).map UInt8.toNat⟩ =
      some (.stealthAddress scan spend) := by
  obtain ⟨-, -, -, back⟩ := toFiveBits_spec (scan.toList ++ spend.toList)
  have scanLength : scan.toList.length = 33 := by simp
  rw [decodeStealth, if_pos ⟨rfl, rfl⟩, if_neg (List.cons_ne_nil _ _)]
  simp only [List.tail_cons]
  rw [back]
  dsimp only
  rw [dif_pos (by simp)]
  congr
  · rw [ofNat_toNat_bytes, List.take_left' scanLength]
    rfl
  · rw [ofNat_toNat_bytes, List.drop_left' scanLength]
    rfl

/-! ### Bech32 strings are no base58 addresses -/

/-- The first bytes of the three base58 prefixes. -/
def versionBytes (params : ChainParams) : List ℕ :=
  [Base58Type.PUBKEY_ADDRESS, .SCRIPT_ADDRESS, .SCRIPT_ADDRESS2].map fun t => ((params.base58Prefixes t).headD 0).toNat

/-- No number of `m` base-58 digits after digits worth `p` is 25 bytes long and starts with a
byte of `versions`: it is too short, too long, or its first byte is fixed by `p` and not one of them. -/
def clearOfVersions (versions : List ℕ) (p m : ℕ) : Bool :=
  (p + 1) * 58 ^ m ≤ 256 ^ 24 || 256 ^ 25 ≤ p * 58 ^ m ||
    p * 58 ^ m / 256 ^ 24 = ((p + 1) * 58 ^ m - 1) / 256 ^ 24 && !versions.contains (p * 58 ^ m / 256 ^ 24)

theorem clearOfVersions_spec {versions : List ℕ} {p m r : ℕ} (clear : clearOfVersions versions p m = true)
    (small : r < 58 ^ m) (long : 256 ^ 24 ≤ p * 58 ^ m + r) (short : p * 58 ^ m + r < 256 ^ 25) :
    (p * 58 ^ m + r) / 256 ^ 24 ∉ versions := by
  have next : (p + 1) * 58 ^ m = p * 58 ^ m + 58 ^ m := by ring
  simp only [clearOfVersions, Bool.or_eq_true, decide_eq_true_eq, Bool.and_eq_true, Bool.not_eq_true'] at clear
  rcases clear with (tooShort | tooLong) | ⟨fixed, absent⟩
  · omega
  · omega
  · -- the first byte is the same for every `r`
    have lower : p * 58 ^ m / 256 ^ 24 ≤ (p * 58 ^ m + r) / 256 ^ 24 := Nat.div_le_div_right (by omega)
    have upper : (p * 58 ^ m + r) / 256 ^ 24 ≤ ((p + 1) * 58 ^ m - 1) / 256 ^ 24 := Nat.div_le_div_right (by omega)
    rw [le_antisymm upper (fixed ▸ lower)]
    rw [← fixed]
    simpa using absent

/-- Far enough out, every string is too long to be a 25-byte address. -/
theorem clearOfVersions_all {versions : List ℕ} {p : ℕ} (M : ℕ) (large : 256 ^ 25 ≤ p * 58 ^ M)
    (below : ∀ m < M, clearOfVersions versions p m = true) (m : ℕ) : clearOfVersions versions p m = true := by
  by_cases early : m < M
  · exact below m early
  · have grown : p * 58 ^ M ≤ p * 58 ^ m := Nat.mul_le_mul_left p (Nat.pow_le_pow_right (by norm_num) (by omega))
    simp only [clearOfVersions, Bool.or_eq_true, decide_eq_true_eq]
    exact Or.inl (Or.inr (large.trans grown))

/-- A number of 25 bytes lies between `256^24` and `256^25`, and its first byte is its top. -/
theorem digits_256_cons {v d : ℕ} {ds : List ℕ} (split : (Nat.digits 256 v).reverse = d :: ds) (length : ds.length = 24) :
    256 ^ 24 ≤ v ∧ v < 256 ^ 25 ∧ v / 256 ^ 24 = d := by
  have len : (Nat.digits 256 v).length = 25 := by rw [← List.length_reverse, split, List.length_cons, length]
  have nonzero : v ≠ 0 := by
    rintro rfl
    simp at len
  have lower := Nat.base_pow_length_digits_le 256 v (by norm_num) nonzero
  have upper : v < 256 ^ (Nat.digits 256 v).length := Nat.lt_base_pow_length_digits (by norm_num)
  rw [len] at lower upper
  refine ⟨by omega, upper, ?_⟩
  rw [← length]
  exact digits_reverse_cons (by norm_num) split

theorem hashAfter_one {v : UInt8} {data : List UInt8} {id : Vector UInt8 20} (hit : hashAfter [v] data = some id) :
    data.length = 21 ∧ data.head? = some v := by
  unfold hashAfter at hit
  split at hit
  · rename_i fits
    obtain ⟨length, lead⟩ := fits
    refine ⟨length, ?_⟩
    cases data with
    | nil => simp at length
    | cons x xs =>
      simp only [List.isPrefixOf, Bool.and_true, beq_iff_eq] at lead
      rw [List.head?_cons, lead]
  · cases hit

/-- Where the base58 branch finds a destination, one prefix fits the payload. -/
theorem decodeBase58Destination_hit {params : ChainParams} {data : List UInt8} {dest : TxDestination}
    (found : decodeBase58Destination params data = some dest) :
    ∃ t id, hashAfter (params.base58Prefixes t) data = some id := by
  unfold decodeBase58Destination at found
  split at found
  · exact ⟨_, _, by assumption⟩
  · split at found
    · exact ⟨_, _, by assumption⟩
    · obtain ⟨id, hit, -⟩ := Option.map_eq_some_iff.mp found
      exact ⟨_, id, hit⟩

theorem isSpace_of_printable {c : Char} (low : 33 ≤ c.toNat) : isSpace c = false := by
  unfold isSpace
  simp only [Bool.or_eq_false_iff, beq_eq_false_iff_ne, ne_eq]
  refine ⟨⟨⟨⟨⟨?_, ?_⟩, ?_⟩, ?_⟩, ?_⟩, ?_⟩ <;> rintro rfl <;> exact absurd low (by decide)

/-- A string of printable characters that starts with `hrp` and the separator is no base58
address, where each prefix is one byte and the strings after `hrp` are clear of them. -/
theorem decodeBase58_bech32 (hash : List UInt8 → Vector UInt8 32) {params : ChainParams}
    (oneByte : ∀ t, ∃ v, params.base58Prefixes t = [v]) {hrp rest : List Char} (named : hrp ≠ [])
    (lead : ∀ c ∈ hrp.head?, c ≠ '1') (printable : ∀ c ∈ hrp ++ '1' :: rest, 33 ≤ c.toNat ∧ c.toNat ≤ 126)
    (clear : ∀ m, clearOfVersions (versionBytes params) (base58Value 0 (hrp ++ ['1'])) m = true) :
    (decodeBase58Check hash (hrp ++ '1' :: rest) 21).bind (decodeBase58Destination params) = none := by
  rw [Option.bind_eq_none_iff]
  intro data accepted
  -- were a prefix to fit, the payload would be 21 bytes that start with it
  by_contra found
  obtain ⟨dest, found⟩ := Option.ne_none_iff_exists'.mp found
  obtain ⟨t, id, hit⟩ := decodeBase58Destination_hit found
  obtain ⟨v, oneV⟩ := oneByte t
  rw [oneV] at hit
  obtain ⟨length21, head⟩ := hashAfter_one hit
  obtain ⟨vchRet, decoded, four, rfl⟩ := decodeBase58Check_eq_some accepted
  have noSpace : ∀ c ∈ hrp ++ '1' :: rest, isSpace c = false := fun c mem => isSpace_of_printable (printable c mem).1
  have lead' : ∀ c ∈ (hrp ++ '1' :: rest).head?, c ≠ '1' := by
    obtain ⟨c, cs, rfl⟩ := List.exists_cons_of_ne_nil named
    simpa using lead
  have read := decodeBase58_eq 0 (hrp ++ '1' :: rest) noSpace lead' (show (0 : ℤ) ≤ 25 by norm_num)
  rw [List.replicate_zero, List.nil_append] at read
  rw [if_neg (by decide), show (21 : ℤ) + 4 = 25 by norm_num, read] at decoded
  split_ifs at decoded with valid
  cases decoded
  simp only [List.replicate_zero, List.nil_append, List.length_map, List.length_reverse,
    List.length_take] at length21 head
  -- so the string decodes to 25 bytes, whose first is `v`
  set V := base58Value 0 (hrp ++ '1' :: rest) with hV
  have decoded21 : (Nat.digits 256 V).length - 4 = 21 := by omega
  obtain ⟨d, ds, split⟩ := List.exists_cons_of_ne_nil (List.ne_nil_of_length_pos (by rw [List.length_reverse]; omega :
    0 < (Nat.digits 256 V).reverse.length))
  have length24 : ds.length = 24 := by
    have := congrArg List.length split
    rw [List.length_reverse, List.length_cons] at this
    omega
  obtain ⟨low, high, top⟩ := digits_256_cons split length24
  have digit : d < 256 := Nat.digits_lt_base (by norm_num) (List.mem_reverse.mp (split ▸ List.mem_cons_self))
  rw [split, decoded21] at head
  simp only [List.take_succ_cons, List.map_cons, List.head?_cons, Option.some.injEq] at head
  have member : V / 256 ^ 24 ∈ versionBytes params := by
    rw [top, ← UInt8.toNat_ofNat_of_lt' (by simp only [UInt8.size]; omega : d < UInt8.size), head]
    cases t <;> simp [versionBytes, oneV]
  -- and the string is `hrp`, the separator, then `rest.length` digits
  have parts : V = base58Value 0 (hrp ++ ['1']) * 58 ^ rest.length + base58Value 0 rest := by
    rw [hV, ← base58Value_append, List.append_assoc, List.singleton_append]
  rw [parts] at low high member
  exact clearOfVersions_spec (clear rest.length) (base58Value_lt rest) low high member

/-! ### The address parameters -/

/-- What the round trip asks of the address parameters: one-byte prefixes, the one `ScriptHash`
is written with found after the other two, lowercase printable HRPs that do not start with a
'1', a segwit HRP short enough for 40-byte programs, and no bech32 string under either HRP that
decodes in base58 to a prefix. -/
structure ChainParams.Valid (params : ChainParams) : Prop where
  oneByte : ∀ t, ∃ v, params.base58Prefixes t = [v]
  script2_pubkey : params.base58Prefixes .SCRIPT_ADDRESS2 ≠ params.base58Prefixes .PUBKEY_ADDRESS
  script2_script : params.base58Prefixes .SCRIPT_ADDRESS2 ≠ params.base58Prefixes .SCRIPT_ADDRESS
  hrpNamed : params.bech32HRP ≠ []
  mwebNamed : params.mwebHRP ≠ []
  hrpLead : ∀ c ∈ params.bech32HRP.head?, c ≠ '1'
  mwebLead : ∀ c ∈ params.mwebHRP.head?, c ≠ '1'
  hrpPrintable : ∀ c ∈ params.bech32HRP, 33 ≤ c.toNat ∧ c.toNat ≤ 126 ∧ Bech32.isUpper c = false
  mwebPrintable : ∀ c ∈ params.mwebHRP, 33 ≤ c.toNat ∧ c.toNat ≤ 126 ∧ Bech32.isUpper c = false
  hrpShort : params.bech32HRP.length ≤ 18
  hrpClear : ∀ m, clearOfVersions (versionBytes params) (base58Value 0 (params.bech32HRP ++ ['1'])) m = true
  mwebClear : ∀ m, clearOfVersions (versionBytes params) (base58Value 0 (params.mwebHRP ++ ['1'])) m = true

/-! ### Base58 addresses -/

theorem hashAfter_self (v : UInt8) (id : Vector UInt8 20) : hashAfter [v] (v :: id.toList) = some id := by
  rw [hashAfter, dif_pos (by simp [List.isPrefixOf])]
  congr

theorem hashAfter_other {v w : UInt8} (other : w ≠ v) (id : Vector UInt8 20) : hashAfter [w] (v :: id.toList) = none := by
  rw [hashAfter, dif_neg]
  simp [List.isPrefixOf, other]

/-- The base58 branch finds a `PKHash` under its prefix, and a `ScriptHash` under the
`SCRIPT_ADDRESS2` prefix, which differs from the two it tries first. -/
theorem decodeBase58Destination_pkHash {params : ChainParams} (valid : params.Valid) (id : Vector UInt8 20) :
    decodeBase58Destination params (params.base58Prefixes .PUBKEY_ADDRESS ++ id.toList) = some (.pkHash id) := by
  obtain ⟨v, one⟩ := valid.oneByte .PUBKEY_ADDRESS
  rw [decodeBase58Destination, one, List.singleton_append, hashAfter_self]

theorem decodeBase58Destination_scriptHash {params : ChainParams} (valid : params.Valid) (id : Vector UInt8 20) :
    decodeBase58Destination params (params.base58Prefixes .SCRIPT_ADDRESS2 ++ id.toList) = some (.scriptHash id) := by
  obtain ⟨v, one⟩ := valid.oneByte .SCRIPT_ADDRESS2
  obtain ⟨p, pubkey⟩ := valid.oneByte .PUBKEY_ADDRESS
  obtain ⟨q, script⟩ := valid.oneByte .SCRIPT_ADDRESS
  have otherPubkey : p ≠ v := fun same => valid.script2_pubkey (by rw [one, pubkey, same])
  have otherScript : q ≠ v := fun same => valid.script2_script (by rw [one, script, same])
  rw [decodeBase58Destination, one, pubkey, script, List.singleton_append, hashAfter_other otherPubkey,
    hashAfter_other otherScript, hashAfter_self]
  rfl

/-- A base58 address decodes in the first branch, to what its payload names. -/
theorem decodeDestination_base58 (hash : List UInt8 → Vector UInt8 32) {params : ChainParams} (valid : params.Valid)
    {t : Base58Type} {dest : TxDestination} (id : Vector UInt8 20)
    (named : decodeBase58Destination params (params.base58Prefixes t ++ id.toList) = some dest) :
    ∃ str, encodeBase58Check hash (params.base58Prefixes t ++ id.toList) = some str ∧
      decodeDestination hash params str = some dest := by
  obtain ⟨v, one⟩ := valid.oneByte t
  have fits : ((params.base58Prefixes t ++ id.toList).length : ℤ) ≤ 21 := by simp [one]
  have small : (params.base58Prefixes t ++ id.toList).length + 4 ≤ INT_MAX := by simp [one, INT_MAX]
  obtain ⟨str, encoded, decoded⟩ := decodeBase58Check_encodeBase58Check hash _ fits small
  refine ⟨str, encoded, ?_⟩
  rw [decodeDestination, decoded, Option.bind_some, named]

/-! ### Bech32 addresses -/

/-- A segwit address decodes in the second branch: the base58 branch finds nothing, and the
segwit branch reads the version and the program. -/
theorem decodeDestination_witness (hash : List UInt8 → Vector UInt8 32) {params : ChainParams} (valid : params.Valid)
    {encoding : Bech32.Encoding} {version : ℕ}
    (versioned : version = 0 ∧ encoding = .BECH32 ∨ version ≠ 0 ∧ encoding = .BECH32M) (small : version ≤ 16)
    {bytes : List UInt8} (sized : bytes.length ≤ 40) :
    ∃ str, Bech32.encode encoding params.bech32HRP (version :: (toFiveBits bytes).map UInt8.toNat) = some str ∧
      decodeDestination hash params str = some (witnessOf version bytes) := by
  obtain ⟨fiveBits, -, fewer, -⟩ := toFiveBits_spec bytes
  have named : encoding ≠ .INVALID := by
    rcases versioned with ⟨-, rfl⟩ | ⟨-, rfl⟩ <;> decide
  have digits : ∀ v ∈ version :: (toFiveBits bytes).map UInt8.toNat, v < 32 := by
    intro v mem
    rcases List.mem_cons.mp mem with rfl | mem
    · omega
    · exact fiveBits v mem
  have short : params.bech32HRP.length + (version :: (toFiveBits bytes).map UInt8.toNat).length + 7 ≤ 90 := by
    have := valid.hrpShort
    simp only [List.length_cons, List.length_map]
    omega
  obtain ⟨str, encoded, decoded⟩ := Bech32.decode_encode named valid.hrpNamed valid.hrpPrintable digits (Or.inr short : false = true ∨ _)
  refine ⟨str, encoded, ?_⟩
  rw [Bech32.encode_eq named (fun c mem => (valid.hrpPrintable c mem).2.2), Option.some.injEq] at encoded
  subst encoded
  have printable := Bech32.encoded_printable valid.hrpPrintable (Bech32.combined_lt digits encoding params.bech32HRP)
  rw [decodeDestination, decodeBase58_bech32 hash valid.oneByte valid.hrpNamed valid.hrpLead
    (fun c mem => ⟨(printable c mem).1, (printable c mem).2.1⟩) valid.hrpClear, decoded,
    decodeWitness_fiveBits versioned]

/-- A stealth address is too long for the segwit branch and decodes in the third. -/
theorem decodeDestination_stealth (hash : List UInt8 → Vector UInt8 32) {params : ChainParams} (valid : params.Valid)
    (scan spend : Vector UInt8 33) :
    ∃ str, encodeDestination hash params (.stealthAddress scan spend) = some str ∧
      decodeDestination hash params str = some (.stealthAddress scan spend) := by
  obtain ⟨fiveBits, more, -, -⟩ := toFiveBits_spec (scan.toList ++ spend.toList)
  have digits : ∀ v ∈ 0 :: (toFiveBits (scan.toList ++ spend.toList)).map UInt8.toNat, v < 32 := by
    intro v mem
    rcases List.mem_cons.mp mem with rfl | mem
    · omega
    · exact fiveBits v mem
  obtain ⟨str, encoded, decoded⟩ :=
    Bech32.decode_encode (by decide : Bech32.Encoding.BECH32 ≠ .INVALID) valid.mwebNamed valid.mwebPrintable digits
      (Or.inl rfl : true = true ∨ _)
  refine ⟨str, encoded, ?_⟩
  rw [Bech32.encode_eq (by decide) (fun c mem => (valid.mwebPrintable c mem).2.2), Option.some.injEq] at encoded
  subst encoded
  have printable := Bech32.encoded_printable valid.mwebPrintable (Bech32.combined_lt digits .BECH32 params.mwebHRP)
  -- 66 bytes take 106 groups, so the string is over 90 characters
  have long : 90 < (params.mwebHRP ++ '1' :: ((0 :: (toFiveBits (scan.toList ++ spend.toList)).map UInt8.toNat) ++
      Bech32.createChecksum .BECH32 params.mwebHRP (0 :: (toFiveBits (scan.toList ++ spend.toList)).map UInt8.toNat)).map
        fun v => Bech32.CHARSET.getD v ' ').length := by
    simp only [List.length_append, List.length_cons, List.length_map, Bech32.length_createChecksum] at more ⊢
    simp at more
    omega
  rw [decodeDestination, decodeBase58_bech32 hash valid.oneByte valid.mwebNamed valid.mwebLead
    (fun c mem => ⟨(printable c mem).1, (printable c mem).2.1⟩) valid.mwebClear, Bech32.decode_long long, decoded]
  exact decodeStealth_fiveBits params scan spend

/-! ### The networks -/

theorem mainChainParams_valid : mainChainParams.Valid where
  oneByte t := by cases t <;> exact ⟨_, rfl⟩
  script2_pubkey := by decide
  script2_script := by decide
  hrpNamed := by decide
  mwebNamed := by decide
  hrpLead := by simp [mainChainParams]
  mwebLead := by simp [mainChainParams]
  hrpPrintable := by simp [mainChainParams, Bech32.isUpper]
  mwebPrintable := by simp [mainChainParams, Bech32.isUpper]
  hrpShort := by decide
  hrpClear := clearOfVersions_all 31 (by decide) (by decide)
  mwebClear := clearOfVersions_all 27 (by decide) (by decide)

theorem testNetChainParams_valid : testNetChainParams.Valid where
  oneByte t := by cases t <;> exact ⟨_, rfl⟩
  script2_pubkey := by decide
  script2_script := by decide
  hrpNamed := by decide
  mwebNamed := by decide
  hrpLead := by simp [testNetChainParams]
  mwebLead := by simp [testNetChainParams]
  hrpPrintable := by simp [testNetChainParams, Bech32.isUpper]
  mwebPrintable := by simp [testNetChainParams, Bech32.isUpper]
  hrpShort := by decide
  hrpClear := clearOfVersions_all 31 (by decide) (by decide)
  mwebClear := clearOfVersions_all 27 (by decide) (by decide)

theorem regTestChainParams_valid : regTestChainParams.Valid where
  oneByte t := by cases t <;> exact ⟨_, rfl⟩
  script2_pubkey := by decide
  script2_script := by decide
  hrpNamed := by decide
  mwebNamed := by decide
  hrpLead := by simp [regTestChainParams]
  mwebLead := by simp [regTestChainParams]
  hrpPrintable := by simp [regTestChainParams, Bech32.isUpper]
  mwebPrintable := by simp [regTestChainParams, Bech32.isUpper]
  hrpShort := by decide
  hrpClear := clearOfVersions_all 31 (by decide) (by decide)
  mwebClear := clearOfVersions_all 27 (by decide) (by decide)

/-! ### Every destination -/

/-- The destinations `EncodeDestination` writes an address for. -/
def TxDestination.Encodable : TxDestination → Prop
  | .noDestination => False
  | .witnessUnknown version program => 1 ≤ version ∧ version ≤ 16 ∧ 2 ≤ program.length ∧ program.length ≤ 40
  | _ => True

/-- Under valid address parameters, `DecodeDestination` reads back every address
`EncodeDestination` writes. -/
theorem decodeDestination_encodeDestination (hash : List UInt8 → Vector UInt8 32) {params : ChainParams}
    (valid : params.Valid) {dest : TxDestination} (encodable : dest.Encodable) :
    ∃ str, encodeDestination hash params dest = some str ∧ decodeDestination hash params str = some dest := by
  cases dest with
  | noDestination => exact encodable.elim
  | pkHash id => exact decodeDestination_base58 hash valid id (decodeBase58Destination_pkHash valid id)
  | scriptHash id => exact decodeDestination_base58 hash valid id (decodeBase58Destination_scriptHash valid id)
  | witnessV0KeyHash id =>
    obtain ⟨str, encoded, decoded⟩ :=
      decodeDestination_witness hash valid (Or.inl ⟨rfl, rfl⟩) (by norm_num) (by simp : id.toList.length ≤ 40)
    exact ⟨str, encoded, decoded.trans (congrArg some (witnessOf_keyHash id))⟩
  | witnessV0ScriptHash id =>
    obtain ⟨str, encoded, decoded⟩ :=
      decodeDestination_witness hash valid (Or.inl ⟨rfl, rfl⟩) (by norm_num) (by simp : id.toList.length ≤ 40)
    exact ⟨str, encoded, decoded.trans (congrArg some (witnessOf_scriptHash id))⟩
  | witnessUnknown version program =>
    obtain ⟨low, high, shortest, longest⟩ := encodable
    obtain ⟨str, encoded, decoded⟩ :=
      decodeDestination_witness hash valid (Or.inr ⟨by omega, rfl⟩) high longest
    refine ⟨str, ?_, decoded.trans (congrArg some (witnessOf_unknown ⟨low, high⟩ ⟨shortest, longest⟩))⟩
    have byte : (UInt8.ofNat version).toNat = version := UInt8.toNat_ofNat_of_lt' (by simp only [UInt8.size]; omega)
    rw [encodeDestination, if_neg (by omega), List.map_cons, byte, encoded]
  | stealthAddress scan spend => exact decodeDestination_stealth hash valid scan spend

/-- So an address names one destination: two that `EncodeDestination` writes the same are equal. -/
theorem encodeDestination_injective (hash : List UInt8 → Vector UInt8 32) {params : ChainParams}
    (valid : params.Valid) {dest dest' : TxDestination} (encodable : dest.Encodable) (encodable' : dest'.Encodable)
    {str : List Char} (written : encodeDestination hash params dest = some str)
    (written' : encodeDestination hash params dest' = some str) : dest = dest' := by
  obtain ⟨s, encoded, decoded⟩ := decodeDestination_encodeDestination hash valid encodable
  obtain ⟨s', encoded', decoded'⟩ := decodeDestination_encodeDestination hash valid encodable'
  rw [written, Option.some.injEq] at encoded
  rw [written', Option.some.injEq] at encoded'
  subst encoded encoded'
  exact Option.some.inj (decoded.symm.trans decoded')

/-- On the main, test and regression-test networks every address round-trips, so none is read
as a destination of another kind. -/
theorem destination_round_trip (hash : List UInt8 → Vector UInt8 32) {params : ChainParams}
    (network : params = mainChainParams ∨ params = testNetChainParams ∨ params = regTestChainParams)
    {dest : TxDestination} (encodable : dest.Encodable) :
    ∃ str, encodeDestination hash params dest = some str ∧ decodeDestination hash params str = some dest := by
  have valid : params.Valid := by
    rcases network with rfl | rfl | rfl
    · exact mainChainParams_valid
    · exact testNetChainParams_valid
    · exact regTestChainParams_valid
  exact decodeDestination_encodeDestination hash valid encodable

theorem destination_round_trip_witness_unknown :
    ∃ str, encodeDestination (fun _ => Vector.replicate 32 0) mainChainParams (.witnessUnknown 1 [1, 2]) = some str ∧
      decodeDestination (fun _ => Vector.replicate 32 0) mainChainParams str = some (.witnessUnknown 1 [1, 2]) :=
  destination_round_trip _ (Or.inl rfl) ⟨le_rfl, by norm_num, le_rfl, by norm_num⟩

end Pussycoin.Address
