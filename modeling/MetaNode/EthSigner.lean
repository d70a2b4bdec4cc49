/-
The sender and the key of an Ethereum transaction (`DeriveSenderFromEthTransaction`,
`DerivePublicKeyFromEthTransaction` of `pkg/transaction`).

The sender is recovered by go-ethereum's signers, which check the values of the
signature first (`Signers`); the key is recovered by hand, from a signature of 65
bytes that is filled from the values without a check.  Both are over the same
cryptography and the same hash for signing, which are parameters.
-/
import MetaNode.EthDecoders
import MetaNode.TransactionSign

namespace MetaNode

/-! ### Signatures -/

structure SignatureValues where
  v : ℕ
  r : ℕ
  s : ℕ

/-- `R || S || id` in 65 bytes. -/
def signatureBytes (r s : ℕ) (id : UInt8) : Bytes :=
  BigEndian.fixed 32 r ++ BigEndian.fixed 32 s ++ [id]

namespace EthTx

def rawSignatureValues : EthTx → SignatureValues
  | .legacy tx _ => ⟨tx.v, tx.r, tx.s⟩
  | .accessList tx _ _ _ => ⟨tx.v, tx.r, tx.s⟩
  | .dynamicFee tx _ _ _ _ => ⟨tx.v, tx.r, tx.s⟩
  | .unsupported => ⟨0, 0, 0⟩

/-- The forms of `v` that carry a recovery id of 0 or 1. -/
def CanonicalV : EthTx → Prop
  | .legacy tx _ => tx.v = 27 ∨ tx.v = 28 ∨ 37 ≤ tx.v
  | .accessList tx _ _ _ => tx.v ≤ 1
  | .dynamicFee tx _ _ _ _ => tx.v ≤ 1
  | .unsupported => False

/-- The recovery id that a canonical `v` carries. -/
def parity : EthTx → ℕ
  | .legacy tx _ => if tx.v = 27 ∨ tx.v = 28 then tx.v - 27 else (tx.v - 35) % 2
  | .accessList tx _ _ _ => tx.v
  | .dynamicFee tx _ _ _ _ => tx.v
  | .unsupported => 0

def Canonical (tx : EthTx) : Prop :=
  CanonicalRange tx.rawSignatureValues.r tx.rawSignatureValues.s ∧ tx.CanonicalV

def signature (tx : EthTx) : Bytes :=
  signatureBytes tx.rawSignatureValues.r tx.rawSignatureValues.s (UInt8.ofNat tx.parity)

instance decidableCanonicalV : (tx : EthTx) → Decidable tx.CanonicalV
  | .legacy tx _ => inferInstanceAs (Decidable (tx.v = 27 ∨ tx.v = 28 ∨ 37 ≤ tx.v))
  | .accessList tx _ _ _ => inferInstanceAs (Decidable (tx.v ≤ 1))
  | .dynamicFee tx _ _ _ _ => inferInstanceAs (Decidable (tx.v ≤ 1))
  | .unsupported => inferInstanceAs (Decidable False)

instance decidableCanonical (tx : EthTx) : Decidable tx.Canonical :=
  inferInstanceAs (Decidable (CanonicalRange _ _ ∧ _))

end EthTx

/-! ### The signers of go-ethereum -/

/-- `types.Sender` with the signer of a transaction: a signature that is not canonical is
refused, and a canonical one is recovered from its 65 bytes. -/
structure Signers (C : Crypto) (sigHash : Signer → EthTx → Hash) where
  sender : Sender
  sender_of_canonical : ∀ {tx : EthTx}, tx.Canonical →
    sender tx.signer tx = (C.sigToPub (sigHash tx.signer tx) tx.signature).map C.pubkeyToAddress
  sender_of_not_canonical : ∀ {tx : EthTx}, ¬ tx.Canonical → sender tx.signer tx = none

/-- The signers that know no other transactions than their own. -/
def Signers.strict (C : Crypto) (sigHash : Signer → EthTx → Hash) : Signers C sigHash where
  sender signer tx :=
    if signer = tx.signer ∧ tx.Canonical then
      (C.sigToPub (sigHash signer tx) tx.signature).map C.pubkeyToAddress
    else none
  sender_of_canonical h := if_pos ⟨rfl, h⟩
  sender_of_not_canonical h := if_neg fun hc => h hc.2

/-! ### The two functions -/

inductive DeriveError where
  /-- `transaction cannot be nil` -/
  | nilTx
  /-- `EIP-2930 transaction is missing a valid chainID`, for the sender followed by
  ` for sender recovery` -/
  | missingChainIDEIP2930
  /-- `EIP-1559 transaction is missing a valid chainID`, for the sender followed by
  ` for sender recovery` -/
  | missingChainIDEIP1559
  /-- `unsupported transaction type: %d` -/
  | unsupportedType
  /-- `failed to recover public key: %w` -/
  | recoverPublicKey
  /-- `failed to derive sender: %w` -/
  | deriveSender
  deriving DecidableEq

/-- What `FillBytes` panics with. -/
inductive FillPanic where
  /-- `math/big: buffer too small to fit value` -/
  | bufferTooSmall
  deriving DecidableEq

/-- `FillBytes` on a slice of length `len`. -/
def fillBytes (len x : ℕ) : Except FillPanic Bytes :=
  if x < 256 ^ len then .ok (BigEndian.fixed len x) else .error .bufferTooSmall

def orFail {α : Type} (err : DeriveError) : Option α → Except DeriveError α
  | none => .error err
  | some a => .ok a

/-- The recovery id in `v`, as `DerivePublicKeyFromEthTransaction` computes it. -/
def EthTx.recID : EthTx → ℤ
  | .legacy tx _ =>
    if deriveChainId tx.v ≠ 0 then
      -- V = recID + chainID*2 + 35
      tx.v - deriveChainId tx.v * 2 - 35
    else
      -- V = recID + 27
      tx.v - 27
  | tx => tx.rawSignatureValues.v

namespace EthSigner

/-- The signer that both functions choose.  Blob transactions, for which there is
another one, are not modelled. -/
def deriveSigner (chainID : Option ℤ) : EthTx → Except DeriveError Signer
  | .legacy tx _ =>
    let txChainID := deriveChainId tx.v
    match chainID.filter fun id => 0 < id ∧ (txChainID : ℤ) = id with
    | some id => .ok (.eip155 id.toNat)
    | none => if txChainID = 0 then .ok .homestead else .ok (.eip155 txChainID)
  | .accessList _ txChainID _ _ =>
    if txChainID = 0 then .error .missingChainIDEIP2930 else .ok (.london txChainID)
  | .dynamicFee _ txChainID _ _ _ =>
    if txChainID = 0 then .error .missingChainIDEIP1559 else .ok (.london txChainID)
  | .unsupported => .error .unsupportedType

section Derive

variable (C : Crypto) (sigHash : Signer → EthTx → Hash)

def derivePublicKeyFromEthTransaction (ethTx : Option EthTx) (chainID : Option ℤ) :
    Except FillPanic (Except DeriveError C.PublicKey) :=
  match ethTx with
  | none => .ok (.error .nilTx)
  | some ethTx =>
    match deriveSigner chainID ethTx with
    | .error err => .ok (.error err)
    | .ok signer => do
      let txHash := sigHash signer ethTx
      let r ← fillBytes 32 ethTx.rawSignatureValues.r
      let s ← fillBytes 32 ethTx.rawSignatureValues.s
      let signature := r ++ s ++ [(bigUint64 ethTx.recID).toUInt8]
      return orFail .recoverPublicKey (C.sigToPub txHash signature)

def deriveSenderFromEthTransaction (sender : Sender) (ethTx : Option EthTx)
    (chainID : Option ℤ) : Except DeriveError Address :=
  match ethTx with
  | none => .error .nilTx
  | some ethTx =>
    match deriveSigner chainID ethTx with
    | .error err => .error err
    | .ok signer => orFail .deriveSender (sender signer ethTx)

end Derive

end EthSigner

/-! ### The key and the sender -/

namespace EthTx

/-- There is a chain id where there has to be one. -/
def HasChain : EthTx → Prop
  | .legacy .. => True
  | .accessList _ chainID _ _ => chainID ≠ 0
  | .dynamicFee _ chainID _ _ _ => chainID ≠ 0
  | .unsupported => False

/-- The 65 bytes that `DerivePublicKeyFromEthTransaction` fills. -/
def derivedSignature (tx : EthTx) : Bytes :=
  signatureBytes tx.rawSignatureValues.r tx.rawSignatureValues.s (bigUint64 tx.recID).toUInt8

theorem natAbs_recID {tx : EthTx} (h : tx.CanonicalV) : tx.recID.natAbs = tx.parity := by
  cases tx with
  | legacy tx gasPrice =>
    rw [recID, parity]
    rcases h with h | h | h
    · rw [h]; rfl
    · rw [h]; rfl
    · have hchain := deriveChainId_of_le h
      rw [if_pos (by omega), if_neg (by omega)]
      omega
  | accessList | dynamicFee => rfl
  | unsupported => exact h.elim

/-- **A canonical signature is filled in as it is.** -/
theorem derivedSignature_eq {tx : EthTx} (h : tx.CanonicalV) :
    tx.derivedSignature = tx.signature := by
  rw [derivedSignature, bigUint64, UInt64.toUInt8_ofNat', natAbs_recID h, signature]

end EthTx

theorem CanonicalRange.lt {r s : ℕ} (h : CanonicalRange r s) : r < 2 ^ 256 ∧ s < 2 ^ 256 := by
  have hN : secp256k1N ≤ 2 ^ 256 := by decide
  have hhalf : secp256k1HalfN < 2 ^ 256 := by decide
  exact ⟨h.1.2.trans_le hN, h.2.2.trans_lt hhalf⟩

namespace EthSigner

theorem deriveSigner_of_hasChain {tx : EthTx} (h : tx.HasChain) (chainID : Option ℤ) :
    deriveSigner chainID tx = .ok tx.signer := by
  cases tx with
  | legacy tx gasPrice =>
    rw [deriveSigner, EthTx.signer, legacySigner]
    split
    case h_1 id hid =>
      obtain ⟨-, hpos⟩ := Option.filter_eq_some_iff.mp hid
      rw [decide_eq_true_iff] at hpos
      rw [if_pos (by omega), ← hpos.2, Int.toNat_natCast]
    case h_2 =>
      rw [ite_not]
      split
      · rfl
      · rfl
  | accessList | dynamicFee => exact if_neg h
  | unsupported => exact h.elim

theorem deriveSigner_of_not_hasChain {tx : EthTx} (h : ¬ tx.HasChain) (chainID : Option ℤ) :
    ∃ err, deriveSigner chainID tx = .error err := by
  cases tx with
  | legacy => exact (h trivial).elim
  | accessList | dynamicFee => exact ⟨_, if_pos (not_not.mp h)⟩
  | unsupported => exact ⟨_, rfl⟩

variable (C : Crypto) (sigHash : Signer → EthTx → Hash) (sender : Sender) (tx : EthTx)
  (chainID : Option ℤ)

theorem deriveSender_eq (h : tx.HasChain) :
    deriveSenderFromEthTransaction sender (some tx) chainID
      = orFail .deriveSender (sender tx.signer tx) := by
  rw [deriveSenderFromEthTransaction, deriveSigner_of_hasChain h chainID]

theorem derivePublicKey_eq (h : tx.HasChain) :
    derivePublicKeyFromEthTransaction C sigHash (some tx) chainID
      = if tx.rawSignatureValues.r < 2 ^ 256 ∧ tx.rawSignatureValues.s < 2 ^ 256 then
          .ok (orFail .recoverPublicKey (C.sigToPub (sigHash tx.signer tx) tx.derivedSignature))
        else .error .bufferTooSmall := by
  have hpow : (256 : ℕ) ^ 32 = 2 ^ 256 := by decide
  rw [derivePublicKeyFromEthTransaction]
  dsimp only
  rw [deriveSigner_of_hasChain h chainID]
  dsimp only
  rw [fillBytes, fillBytes, hpow]
  by_cases hr : tx.rawSignatureValues.r < 2 ^ 256
  · by_cases hs : tx.rawSignatureValues.s < 2 ^ 256
    · rw [if_pos hr, if_pos hs, if_pos ⟨hr, hs⟩]
      rfl
    · rw [if_pos hr, if_neg hs, if_neg (fun hrs => hs hrs.2)]
      rfl
  · have hrs : ¬ (tx.rawSignatureValues.r < 2 ^ 256 ∧ tx.rawSignatureValues.s < 2 ^ 256) :=
      fun hrs => hr hrs.1
    rw [if_neg hr, if_neg hrs]
    rfl

/-- What is expected of the two functions: no panic, success together, and the
address of the key is the sender. -/
structure KeyMatchesSender : Prop where
  returns : ∃ result, derivePublicKeyFromEthTransaction C sigHash (some tx) chainID = .ok result
  succeeds_iff : (∃ key, derivePublicKeyFromEthTransaction C sigHash (some tx) chainID
      = .ok (.ok key)) ↔
    ∃ a, deriveSenderFromEthTransaction sender (some tx) chainID = .ok a
  address : ∀ key a, derivePublicKeyFromEthTransaction C sigHash (some tx) chainID
      = .ok (.ok key) →
    deriveSenderFromEthTransaction sender (some tx) chainID = .ok a → C.pubkeyToAddress key = a

section Results

variable {C} {sigHash} {sender} {tx} {chainID}

theorem KeyMatchesSender.of_ok {key : C.PublicKey}
    (hkey : derivePublicKeyFromEthTransaction C sigHash (some tx) chainID = .ok (.ok key))
    (hsender : deriveSenderFromEthTransaction sender (some tx) chainID
      = .ok (C.pubkeyToAddress key)) : KeyMatchesSender C sigHash sender tx chainID := by
  refine ⟨⟨_, hkey⟩, iff_of_true ⟨_, hkey⟩ ⟨_, hsender⟩, ?_⟩
  intro key' a hkey' ha
  cases hkey.symm.trans hkey'
  cases hsender.symm.trans ha
  rfl

theorem KeyMatchesSender.of_error {err err' : DeriveError}
    (hkey : derivePublicKeyFromEthTransaction C sigHash (some tx) chainID = .ok (.error err))
    (hsender : deriveSenderFromEthTransaction sender (some tx) chainID = .error err') :
    KeyMatchesSender C sigHash sender tx chainID := by
  have hno : ¬ ∃ key, derivePublicKeyFromEthTransaction C sigHash (some tx) chainID
      = .ok (.ok key) := by
    rintro ⟨key, hkey'⟩
    cases hkey.symm.trans hkey'
  have hno' : ¬ ∃ a, deriveSenderFromEthTransaction sender (some tx) chainID = .ok a := by
    rintro ⟨a, ha⟩
    cases hsender.symm.trans ha
  exact ⟨⟨_, hkey⟩, iff_of_false hno hno', fun key _ hkey' => (hno ⟨key, hkey'⟩).elim⟩

end Results

/-- **When the key and the sender agree.**  The signers refuse a signature that is not
canonical, but the key is recovered from any 65 bytes, and larger values do not
fit in them. -/
theorem keyMatchesSender_iff (S : Signers C sigHash) :
    KeyMatchesSender C sigHash S.sender tx chainID ↔
      (tx.HasChain → tx.Canonical ∨
        (tx.rawSignatureValues.r < 2 ^ 256 ∧ tx.rawSignatureValues.s < 2 ^ 256) ∧
          C.sigToPub (sigHash tx.signer tx) tx.derivedSignature = none) := by
  by_cases hchain : tx.HasChain
  · rw [forall_prop_of_true hchain]
    have hkey := derivePublicKey_eq C sigHash tx chainID hchain
    have hsender := deriveSender_eq S.sender tx chainID hchain
    by_cases hcanon : tx.Canonical
    · -- both recover from the same bytes
      refine iff_of_true ?_ (.inl hcanon)
      rw [if_pos hcanon.1.lt, EthTx.derivedSignature_eq hcanon.2] at hkey
      rw [S.sender_of_canonical hcanon] at hsender
      cases hpub : C.sigToPub (sigHash tx.signer tx) tx.signature with
      | none =>
        rw [hpub] at hkey hsender
        exact .of_error hkey hsender
      | some =>
        rw [hpub] at hkey hsender
        exact .of_ok hkey hsender
    · rw [S.sender_of_not_canonical hcanon] at hsender
      rw [or_iff_right hcanon]
      constructor
      · rintro ⟨⟨result, hresult⟩, hiff, -⟩
        rw [hresult] at hkey
        split at hkey
        case isTrue hfits =>
          refine ⟨hfits, ?_⟩
          cases hpub : C.sigToPub (sigHash tx.signer tx) tx.derivedSignature with
          | none => rfl
          | some key =>
            rw [hpub] at hkey
            obtain ⟨a, ha⟩ := hiff.mp ⟨key, hresult.trans hkey⟩
            cases hsender.symm.trans ha
        case isFalse => cases hkey
      · rintro ⟨hfits, hpub⟩
        rw [if_pos hfits, hpub] at hkey
        exact .of_error hkey hsender
  · refine iff_of_true ?_ fun h => (hchain h).elim
    obtain ⟨err, herr⟩ := deriveSigner_of_not_hasChain hchain chainID
    have hkey : derivePublicKeyFromEthTransaction C sigHash (some tx) chainID
        = .ok (.error err) := by
      rw [derivePublicKeyFromEthTransaction]
      dsimp only
      rw [herr]
    have hsender : deriveSenderFromEthTransaction S.sender (some tx) chainID = .error err := by
      rw [deriveSenderFromEthTransaction, herr]
    exact .of_error hkey hsender

/-- Cryptography with one key, recovered from every signature in range. -/
def oneKey : Crypto where
  BlsKey := Empty
  blsSign key _ := key.elim
  PrivateKey := Unit
  PublicKey := Unit
  publicKey := id
  sign _ _ := some (signatureBytes 1 1 0)
  sigToPub _ sig :=
    let r := BigEndian.toNat (sig.take 32)
    let s := BigEndian.toNat ((sig.drop 32).take 32)
    if sig.length = 65 ∧ (0 < r ∧ r < secp256k1N) ∧ (0 < s ∧ s < secp256k1N) ∧ sig.getD 64 0 < 4
    then some () else none
  pubkeyToAddress _ := exampleSender
  validateSignatureValues := canonicalValues
  validateSignatureValues_iff := @canonicalValues_iff

/-- A dynamic-fee transfer on chain 1 whose `r` has 257 bits. -/
def wideTransfer : EthTx :=
  .dynamicFee ⟨9, 21000, some exampleRecipient, 10 ^ 18, [], 0, 2 ^ 256, 1⟩ 1 1 1 []

/-- The other signature of `exampleTransfer`, with `s` in the upper half. -/
def highTransfer : EthTx :=
  .legacy ⟨9, 21000, some exampleRecipient, 10 ^ 18, [], 38,
    0x28ef61340bd939bc2195fe537567866003e1a15d3c71ff63e1590620aa636276,
    secp256k1N - 0x67cbe9d8997f761aecb703304b3800ccf555c9f3dc64214b297fb1966a3b6d83⟩ (20 * 10 ^ 9)

/-- The signers over `oneKey`, with one hash for signing. -/
def oneKeySigners : Signers oneKey fun _ _ => FixedBytes.zero 32 := .strict _ _

/-- A panic where the sender is an error, and a key where there is no sender. -/
theorem key_without_sender :
    (derivePublicKeyFromEthTransaction oneKey (fun _ _ => FixedBytes.zero 32) (some wideTransfer)
        (some 1) = .error .bufferTooSmall ∧
      deriveSenderFromEthTransaction oneKeySigners.sender (some wideTransfer) (some 1)
        = .error .deriveSender) ∧
    derivePublicKeyFromEthTransaction oneKey (fun _ _ => FixedBytes.zero 32) (some highTransfer)
        (some 1) = .ok (.ok ()) ∧
      deriveSenderFromEthTransaction oneKeySigners.sender (some highTransfer) (some 1)
        = .error .deriveSender :=
  ⟨⟨rfl, rfl⟩, rfl, rfl⟩

end EthSigner

/-! ### `Sign` -/

def fromEthByType (E : Env) (sender : Sender) (ethTx : EthTx) (pTx : Pb.Transaction) :
    Except ConvertError Pb.Transaction :=
  match ethTx with
  | .legacy .. => fromEthLegacyTx E sender ethTx pTx
  | .accessList .. => fromEthEIP2930Tx E sender ethTx pTx
  | .dynamicFee .. => fromEthEIP1559Tx E sender ethTx pTx
  | .unsupported => .error .unsupportedType

theorem legacy_recoveryID {tx : TxFields} {gasPrice : ℕ}
    (h : (EthTx.legacy tx gasPrice).CanonicalV) :
    recoveryID (deriveChainId tx.v) tx.v = UInt8.ofNat (EthTx.legacy tx gasPrice).parity := by
  rw [EthTx.parity]
  rcases h with h | h | h
  · rw [h]; rfl
  · rw [h]; rfl
  · rw [recoveryID_of_le h, if_neg (by omega)]

theorem typedSign_eq {tx : TxFields} (h : tx.v ≤ 1) :
    typedSign tx = BigEndian.ofNat tx.r ++ BigEndian.ofNat tx.s ++ [UInt8.ofNat tx.v] := by
  rw [typedSign]
  rcases Nat.le_one_iff_eq_zero_or_eq_one.mp h with h | h
  · rw [h]; rfl
  · rw [h]; rfl

theorem fromEth_sign (E : Env) {sender : Sender} {tx : EthTx} (pTx : Pb.Transaction) {a : Address}
    (hv : tx.CanonicalV) (hsigned : sender tx.signer tx = some a) :
    ∃ p, fromEthByType E sender tx pTx = .ok p ∧
      p.sign = BigEndian.ofNat tx.rawSignatureValues.r ++ BigEndian.ofNat tx.rawSignatureValues.s
        ++ [UInt8.ofNat tx.parity] := by
  cases tx with
  | legacy tx gasPrice =>
    have hsender : sender (legacySigner tx.v) (.legacy tx gasPrice) = some a := hsigned
    rw [fromEthByType, fromEthLegacyTx, ← legacy_recoveryID hv, hsender]
    exact ⟨_, rfl, rfl⟩
  | accessList tx chainID gasPrice tuples =>
    have hsender : sender (.london chainID) (.accessList tx chainID gasPrice tuples) = some a :=
      hsigned
    rw [fromEthByType, fromEthEIP2930Tx, hsender]
    exact ⟨_, rfl, typedSign_eq hv⟩
  | dynamicFee tx chainID gasTipCap gasFeeCap tuples =>
    have hsender : sender (.london chainID) (.dynamicFee tx chainID gasTipCap gasFeeCap tuples)
        = some a := hsigned
    rw [fromEthByType, fromEthEIP1559Tx, hsender]
    exact ⟨_, rfl, typedSign_eq hv⟩
  | unsupported => exact hv.elim

theorem minimal_eq_signatureBytes_iff {r s : ℕ} (h : CanonicalRange r s) (id : UInt8) :
    BigEndian.ofNat r ++ BigEndian.ofNat s ++ [id] = signatureBytes r s id ↔
      2 ^ 248 ≤ r ∧ 2 ^ 248 ≤ s := by
  have hhalf : secp256k1HalfN < secp256k1N := by decide
  have hs := h.2.2.trans_lt hhalf
  constructor
  · intro heq
    have hlen : (signatureBytes r s id).length = 65 := by
      simp [signatureBytes]
    exact (length_signature_iff h.1.2 hs id).mp (heq ▸ hlen)
  · rintro ⟨hrbig, hsbig⟩
    rw [signatureBytes,
      BigEndian.ofNat_eq_fixed_iff.mpr ((length_ofNat_eq_32_iff h.1.2).mpr hrbig),
      BigEndian.ofNat_eq_fixed_iff.mpr ((length_ofNat_eq_32_iff hs).mpr hsbig)]

/-- **When `Sign` is the signature of 65 bytes**, for every signed transaction. -/
theorem fromEth_sign_iff (E : Env) {C : Crypto} {sigHash : Signer → EthTx → Hash}
    (S : Signers C sigHash) (tx : EthTx) (pTx : Pb.Transaction) (a : Address)
    (hsigned : S.sender tx.signer tx = some a) :
    ∃ p, fromEthByType E S.sender tx pTx = .ok p ∧
      (p.sign = tx.signature ↔
        2 ^ 248 ≤ tx.rawSignatureValues.r ∧ 2 ^ 248 ≤ tx.rawSignatureValues.s) := by
  have hcanon : tx.Canonical := by
    by_contra hnot
    rw [S.sender_of_not_canonical hnot] at hsigned
    cases hsigned
  obtain ⟨p, hp, hsign⟩ := fromEth_sign E pTx hcanon.2 hsigned
  refine ⟨p, hp, ?_⟩
  rw [hsign]
  exact minimal_eq_signatureBytes_iff hcanon.1 _

/-- A transfer whose `R` and `S` have 32 bytes each. -/
theorem fromEth_sign_iff_exampleTransfer :
    ∃ p, fromEthByType stdEnv EthSigner.oneKeySigners.sender exampleTransfer .new = .ok p ∧
      p.sign = exampleTransfer.signature := by
  obtain ⟨p, hp, hsign⟩ :=
    fromEth_sign_iff stdEnv EthSigner.oneKeySigners exampleTransfer .new exampleSender rfl
  exact ⟨p, hp, hsign.mpr ⟨by decide, by decide⟩⟩

/-- A legacy transfer on chain 1 with the signature `R = S = 1`: 1 is the abscissa of a
point of the curve. -/
def tinyTransfer : EthTx :=
  .legacy ⟨9, 21000, some exampleRecipient, 10 ^ 18, [], 37, 1, 1⟩ (20 * 10 ^ 9)

/-- `Sign` has three bytes instead of 65. -/
theorem fromEth_sign_short :
    EthSigner.oneKeySigners.sender tinyTransfer.signer tinyTransfer = some exampleSender ∧
      (fromEthLegacyTx stdEnv EthSigner.oneKeySigners.sender tinyTransfer .new).map
        Pb.Transaction.sign = .ok [1, 1, 0] ∧
      tinyTransfer.signature.length = 65 :=
  ⟨rfl, by decide +kernel, rfl⟩

end MetaNode
