/-
A transaction signed as a message is accepted (`SignSecpProto`, `ValidSecpSign`).

What is signed is the hash of the message without its signature, with the type
set and the BLS signature removed first, so that it can be computed again from
the signed message, also after that has travelled: the wire format loses the
difference between a nil and an empty fee cap, and the hash does not see it.
-/
import MetaNode.TransactionHash

namespace MetaNode

variable (E : Env) (C : Crypto)

/-- What is expected of `crypto.Sign`: 65 bytes with `r` and `s` in range, `s` in
the lower half, recovery id 0 or 1, from which the key is recovered. -/
structure Crypto.SignatureOf (h : Hash) (key : C.PrivateKey) (sig : Bytes) : Prop where
  length : sig.length = 65
  r_pos : 0 < BigEndian.toNat (sig.take 32)
  r_lt : BigEndian.toNat (sig.take 32) < secp256k1N
  s_pos : 0 < BigEndian.toNat ((sig.drop 32).take 32)
  s_low : BigEndian.toNat ((sig.drop 32).take 32) ≤ secp256k1HalfN
  recid : sig.getD 64 0 ≤ 1
  recovers : C.sigToPub h sig = some (C.publicKey key)

variable {E C}

/-! ### Signing -/

/-- A message signed by `key`: its signature fields are the parts of a signature
of its signing hash. -/
structure Signed (E : Env) (C : Crypto) (key : C.PrivateKey) (p : Pb.Transaction) : Prop where
  type : p.type = CachedTransaction.secpProtoType
  sign : p.sign = []
  parts : ∃ sig, C.sign (p.signingHash E) key = some sig ∧ sig.length = 65 ∧
    p.r = sig.take 32 ∧ p.s = (sig.drop 32).take 32 ∧ p.v = [sig.getD 64 0]

variable {key : C.PrivateKey}

/-- **What `SignSecpProto` leaves**: a signed message of the same sender and chain,
and empty caches, whatever was there before. -/
theorem signSecpProto_ok {t t' : CachedTransaction}
    (h : t.signSecpProto E C (some key) = (.ok (), t')) :
    Signed E C key t'.proto ∧ t'.proto.chainID = t.proto.chainID ∧
      t'.proto.fromAddress = t.proto.fromAddress ∧ t'.cachedSigningHash = none := by
  simp only [CachedTransaction.signSecpProto, CachedTransaction.signingHash, CachedTransaction.edit,
    CachedTransaction.clearCacheHash] at h
  split at h
  case h_1 => cases h
  case h_2 sig hsign =>
    split at h
    case isTrue => cases h
    case isFalse hlen =>
      rw [not_not] at hlen
      cases h
      -- the signing hash leaves out the fields that are filled in now
      exact ⟨⟨rfl, rfl, sig, hsign, hlen, rfl, rfl, rfl⟩, rfl, rfl, rfl⟩

theorem Signed.normalize {p : Pb.Transaction} (h : Signed E C key p) :
    Signed E C key p.normalize := by
  obtain ⟨htype, hsign, sig, hsig, hparts⟩ := h
  refine ⟨htype, hsign, sig, ?_, hparts⟩
  rw [Pb.Transaction.signingHash_normalize]
  exact hsig

/-! ### Validation -/

theorem take_append_drop_getD {sig : Bytes} (h : sig.length = 65) :
    sig.take 32 ++ (sig.drop 32).take 32 ++ [sig.getD 64 0] = sig := by
  have hlast : sig.drop 64 = [sig.getD 64 0] := by
    rw [List.drop_eq_getElem_cons (by omega), List.drop_eq_nil_of_le (by omega)]
    simp [List.getD_eq_getElem?_getD, h]
  rw [← hlast, List.append_assoc, show 64 = 32 + 32 from rfl, ← List.drop_drop,
    List.take_append_drop, List.take_append_drop]

/-- **A signed message passes the validation** where nothing stale is cached. -/
theorem Signed.valid {t : CachedTransaction} (h : Signed E C key t.proto)
    (hcache : t.cachedSigningHash = none) (hchain : t.proto.chainID ≠ 0)
    (hfrom : C.pubkeyToAddress (C.publicKey key) = t.fromAddress)
    (hC : ∀ hash sig, C.sign hash key = some sig → C.SignatureOf hash key sig) :
    (t.validSecpProtoSign E C).1 = true := by
  obtain ⟨htype, hempty, sig, hsign, hlen, hr, hs, hv⟩ := h
  have hsig := hC _ _ hsign
  have hrlen : t.proto.r.length = 32 := by simp [hr, hlen]
  have hslen : t.proto.s.length = 32 := by simp [hs, hlen]
  -- the parts are put together again
  have hwhole : t.proto.r ++ t.proto.s ++ [sig.getD 64 0] = sig := by
    rw [hr, hs]
    exact take_append_drop_getD hlen
  have hvalues : C.validateSignatureValues (sig.getD 64 0) (BigEndian.toNat t.proto.r)
      (BigEndian.toNat t.proto.s) true = true := by
    rw [hr, hs]
    exact C.validateSignatureValues_iff.mpr
      ⟨⟨⟨hsig.r_pos, hsig.r_lt⟩, hsig.s_pos, hsig.s_low⟩, hsig.recid⟩
  have hrecid : ¬ sig.getD 64 0 > 1 := UInt8.not_lt.mpr hsig.recid
  rw [CachedTransaction.validSecpProtoSign, if_neg (by simp [htype]), if_neg (by simp [hempty]),
    if_neg (by simp [hrlen, hslen]), hv]
  dsimp only
  rw [if_neg hrecid, if_neg hchain, if_neg (not_not.mpr hvalues)]
  simp only [CachedTransaction.signingHash, hcache, hwhole, hsig.recovers]
  exact decide_eq_true hfrom

/-! ### The golden vector of `secp_proto_test.go` -/

def goldenFrom : Address :=
  ⟨BigEndian.fixed 20 0x2c7536e3605d9c16a7a3d7b1898e529396a65c23, rfl⟩

def goldenMessage : Pb.Transaction where
  toAddress := List.replicate 20 0x22
  amount := [0x03, 0xe8]
  maxGas := 21000
  maxGasPrice := 1000
  maxTimeUse := 0
  data := [0xde, 0xad]
  relatedAddresses := []
  lastDeviceKey := []
  newDeviceKey := []
  sign := []
  nonce := [0, 0, 0, 0, 0, 0, 0, 7]
  fromAddress := goldenFrom.1
  readOnly := false
  chainID := 991
  type := 0xFF
  r := []
  s := []
  v := []
  gasTipCap := none
  gasFeeCap := none
  accessList := []

def goldenSigningHash : Hash :=
  ⟨BigEndian.fixed 32 0xc307992ce6856ac915c04ebaaa30d946db6f66712b0ef68d0ab102eb7072f14e, rfl⟩

def goldenR : Bytes :=
  BigEndian.fixed 32 0xe164ccec12532da3a83707698000f3174a8cec11711c14fb82960c303ae1195b

def goldenS : Bytes :=
  BigEndian.fixed 32 0x23bbeda7b9c266495964d3c6d5045c4628eb1d2ba9809447d79260f78a5b3606

def goldenCrypto : Crypto where
  BlsKey := Unit
  blsSign _ _ := []
  PrivateKey := Unit
  PublicKey := Address
  publicKey _ := goldenFrom
  sign h _ := if h = goldenSigningHash then some (goldenR ++ goldenS ++ [1]) else none
  sigToPub h sig :=
    if h = goldenSigningHash ∧ sig = goldenR ++ goldenS ++ [1] then some goldenFrom else none
  pubkeyToAddress := id
  validateSignatureValues := canonicalValues
  validateSignatureValues_iff := @canonicalValues_iff

theorem goldenCrypto_signatureOf (hash : Hash) (sig : Bytes)
    (h : goldenCrypto.sign hash () = some sig) : goldenCrypto.SignatureOf hash () sig := by
  simp only [goldenCrypto] at h
  split at h
  case isFalse => cases h
  case isTrue hhash =>
    cases h
    subst hhash
    exact ⟨rfl, by decide, by decide, by decide, by decide, by decide,
      by simp [goldenCrypto]⟩

/-- The golden message under another type, with a BLS signature, old signature
fields and a stale cache. -/
def goldenUnsigned : CachedTransaction where
  proto := { goldenMessage with type := 2, sign := [1], r := [2], s := [3], v := [4] }
  cachedSigningHash := some (FixedBytes.zero 32)

/-! ### Signing and validation -/

/-- **What `SignSecpProto` signs, `ValidSecpSign` accepts**, on the transaction
itself and on one unmarshalled from its bytes, whatever the transaction held
before. -/
theorem signSecpProto_valid (sender : Sender) (t t' : CachedTransaction) (key : C.PrivateKey)
    (hC : ∀ hash sig, C.sign hash key = some sig → C.SignatureOf hash key sig)
    (hchain : t.proto.chainID ≠ 0)
    (hfrom : C.pubkeyToAddress (C.publicKey key) = t.fromAddress)
    (h : t.signSecpProto E C (some key) = (.ok (), t')) :
    t'.validSecpSign E C sender = .ok true ∧
      ∃ fresh, (transactionFromProto .new).unmarshalInto E (t'.marshal E) = (true, fresh) ∧
        fresh.validSecpSign E C sender = .ok true := by
  obtain ⟨hsigned, hchain', hfrom', hcache⟩ := signSecpProto_ok h
  have hfrom₁ : C.pubkeyToAddress (C.publicKey key) = t'.fromAddress := by
    rw [hfrom, Transaction.fromAddress, Transaction.fromAddress, hfrom']
  have hchain₁ : t'.proto.chainID ≠ 0 := by rwa [hchain']
  constructor
  · rw [CachedTransaction.validSecpSign, if_pos hsigned.type,
      hsigned.valid hcache hchain₁ hfrom₁ hC]
  · refine ⟨transactionFromProto t'.proto.normalize, ?_, ?_⟩
    · simp only [CachedTransaction.unmarshalInto, Transaction.marshal,
        Pb.Transaction.unmarshal_marshal]
      rfl
    · have hsigned₂ : Signed E C key (transactionFromProto t'.proto.normalize).proto :=
        hsigned.normalize
      rw [CachedTransaction.validSecpSign, if_pos hsigned₂.type,
        hsigned₂.valid rfl hchain₁ hfrom₁ hC]

theorem golden_signed_valid :
    ∃ t', goldenUnsigned.signSecpProto stdEnv goldenCrypto (some ()) = (.ok (), t') ∧
      t'.validSecpSign stdEnv goldenCrypto (fun _ _ => none) = .ok true ∧
      ∃ fresh, (transactionFromProto .new).unmarshalInto stdEnv (t'.marshal stdEnv)
        = (true, fresh) ∧ fresh.validSecpSign stdEnv goldenCrypto (fun _ _ => none) = .ok true := by
  have hfst : (goldenUnsigned.signSecpProto stdEnv goldenCrypto (some ())).1 = .ok () := by
    decide +kernel
  have hok := (goldenUnsigned.signSecpProto stdEnv goldenCrypto (some ())).eta.symm
  rw [hfst] at hok
  exact ⟨_, hok, signSecpProto_valid _ _ _ () goldenCrypto_signatureOf (by decide) (by decide) hok⟩

-- the hash of the signed message
example : Pb.Transaction.hash stdEnv { goldenMessage with r := goldenR, s := goldenS, v := [1] }
    = ⟨BigEndian.fixed 32 0xd9ea692bf0d57ba20c81b4090e30cad303c0a584c4d382603ac413727025290f,
      rfl⟩ := by
  decide +kernel

end MetaNode
