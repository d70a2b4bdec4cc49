/-
Hashes, setters and signatures of a transaction (`pkg/transaction/transaction.go`).

The three hashes of a transaction are Keccak-256 of one message, less the
signature for `SigningHash` and less the nonce for `RHash`.  Each of them is
computed once and kept: `CachedTransaction` is a transaction with its three
caches, and a reader returns its hash together with the transaction it leaves.
Most setters change the message and clear the caches (`edit`); `SetSign` and
`SetSignBytes` do not, nor do `FromProto` and `Unmarshal`, which replace the
whole message.

The BLS scheme and secp256k1 are parameters (`Crypto`).
-/
import MetaNode.Transaction

namespace MetaNode

/-! ### What is hashed -/

namespace Pb

structure TransactionHashData where
  fromAddress : Bytes
  toAddress : Bytes
  amount : Bytes
  maxGas : UInt64
  maxGasPrice : UInt64
  maxTimeUse : UInt64
  data : Bytes
  type : UInt64
  lastDeviceKey : Bytes
  newDeviceKey : Bytes
  nonce : Bytes
  chainID : UInt64
  r : Bytes
  s : Bytes
  v : Bytes
  gasTipCap : Option Bytes
  gasFeeCap : Option Bytes
  accessList : List AccessTuple
  deriving DecidableEq

variable (E : Env)

def TransactionHashData.entries (m : TransactionHashData) : List (ℕ × Wire.Content) :=
  [(1, .bytes m.fromAddress), (2, .bytes m.toAddress), (3, .bytes m.amount),
    (4, .varint m.maxGas.toNat), (5, .varint m.maxGasPrice.toNat), (6, .varint m.maxTimeUse.toNat),
    (7, .bytes m.data), (8, .varint m.type.toNat), (9, .bytes m.lastDeviceKey),
    (10, .bytes m.newDeviceKey), (11, .bytes m.nonce), (12, .varint m.chainID.toNat),
    (13, .bytes m.r), (14, .bytes m.s), (15, .bytes m.v), (16, .bytes (m.gasTipCap.getD [])),
    (17, .bytes (m.gasFeeCap.getD [])),
    (18, .repeated (m.accessList.map (AccessTuple.marshal E)))]

/-- `proto.MarshalOptions{Deterministic: true}.Marshal` -/
def TransactionHashData.marshal (m : TransactionHashData) : Bytes :=
  E.wire.encode (Wire.fieldsOf (m.entries E))

namespace Transaction

variable (p : Transaction)

/-- `Sign`, the related addresses and `ReadOnly` are not hashed. -/
def hashData : TransactionHashData where
  fromAddress := p.fromAddress
  toAddress := p.toAddress
  amount := p.amount
  maxGas := p.maxGas
  maxGasPrice := p.maxGasPrice
  maxTimeUse := p.maxTimeUse
  data := p.data
  type := p.type
  lastDeviceKey := p.lastDeviceKey
  newDeviceKey := p.newDeviceKey
  nonce := p.nonce
  chainID := p.chainID
  r := p.r
  s := p.s
  v := p.v
  gasTipCap := p.gasTipCap
  gasFeeCap := p.gasFeeCap
  accessList := p.accessList

/-- What `Hash` computes where nothing is cached. -/
def hash : Hash := E.keccak256 (p.hashData.marshal E)

/-- What `SigningHash` computes where nothing is cached: `R`, `S` and `V` are
nil. -/
def signingHash : Hash :=
  E.keccak256 (TransactionHashData.marshal E { p.hashData with r := [], s := [], v := [] })

/-- What `RHash` computes where nothing is cached: there is no nonce. -/
def rHash : Hash :=
  E.keccak256 (TransactionHashData.marshal E { p.hashData with nonce := [] })

theorem signingHash_normalize : p.normalize.signingHash E = p.signingHash E := by
  have hcap : ∀ cap : Option Bytes, (nilIfEmpty (cap.getD [])).getD [] = cap.getD [] := by
    intro cap
    unfold nilIfEmpty
    split <;> simp_all
  simp only [signingHash, TransactionHashData.marshal, TransactionHashData.entries, hashData,
    normalize, hcap]

end Transaction

end Pb

/-! ### Cryptography -/

def secp256k1N : ℕ := 0xfffffffffffffffffffffffffffffffebaaedce6af48a03bbfd25e8cd0364141

def secp256k1HalfN : ℕ := secp256k1N / 2

/-- `s` in the lower half of the range, so that only one of two signatures counts. -/
abbrev CanonicalRange (r s : ℕ) : Prop :=
  (0 < r ∧ r < secp256k1N) ∧ (0 < s ∧ s ≤ secp256k1HalfN)

structure Crypto where
  BlsKey : Type
  /-- `bls.Sign` -/
  blsSign : BlsKey → Bytes → Bytes
  PrivateKey : Type
  PublicKey : Type
  publicKey : PrivateKey → PublicKey
  /-- `crypto.Sign`, `none` for an error. -/
  sign : Hash → PrivateKey → Option Bytes
  /-- `crypto.SigToPub`, `none` for an error. -/
  sigToPub : Hash → Bytes → Option PublicKey
  /-- `crypto.PubkeyToAddress` -/
  pubkeyToAddress : PublicKey → Address
  /-- `crypto.ValidateSignatureValues`; the flag is for the rules of homestead. -/
  validateSignatureValues : UInt8 → ℕ → ℕ → Bool → Bool
  validateSignatureValues_iff : ∀ {v r s},
    validateSignatureValues v r s true = true ↔ CanonicalRange r s ∧ v ≤ 1

def canonicalValues (v : UInt8) (r s : ℕ) (_homestead : Bool) : Bool :=
  CanonicalRange r s ∧ v ≤ 1

theorem canonicalValues_iff {v : UInt8} {r s : ℕ} :
    canonicalValues v r s true = true ↔ CanonicalRange r s ∧ v ≤ 1 := decide_eq_true_iff

/-- The errors of `SignSecpProto`. -/
inductive SignError where
  /-- `private key is nil` -/
  | nilKey
  /-- `crypto.Sign failed: %w` -/
  | signFailed
  /-- `invalid signature length: %d` -/
  | invalidLength (n : ℕ)
  deriving DecidableEq

/-! ### Transactions with their caches -/

/-- A transaction with the hashes it has cached. -/
structure CachedTransaction extends Transaction where
  cachedHash : Option Hash := none
  cachedSigningHash : Option Hash := none
  cachedRHash : Option Hash := none

def transactionFromProto (p : Pb.Transaction) : CachedTransaction := { proto := p }

namespace CachedTransaction

variable (E : Env) (C : Crypto) (t : CachedTransaction)

def clearCacheHash : CachedTransaction :=
  { t with cachedHash := none, cachedSigningHash := none, cachedRHash := none }

def hash : Hash × CachedTransaction :=
  match t.cachedHash with
  | some cached => (cached, t)
  | none => (t.proto.hash E, { t with cachedHash := some (t.proto.hash E) })

def signingHash : Hash × CachedTransaction :=
  match t.cachedSigningHash with
  | some cached => (cached, t)
  | none => (t.proto.signingHash E, { t with cachedSigningHash := some (t.proto.signingHash E) })

def rHash : Hash × CachedTransaction :=
  match t.cachedRHash with
  | some cached => (cached, t)
  | none => (t.proto.rHash E, { t with cachedRHash := some (t.proto.rHash E) })

/-- A change of the message followed by `ClearCacheHash`. -/
def edit (f : Pb.Transaction → Pb.Transaction) : CachedTransaction :=
  { t with proto := f t.proto }.clearCacheHash

def updateRelatedAddresses (relatedAddresses : List Bytes) : CachedTransaction :=
  t.edit fun p => { p with relatedAddresses := relatedAddresses }

/-- `AddRelatedAddress`: an address that is there already changes nothing. -/
def addRelatedAddress (address : Address) : CachedTransaction :=
  if address.1 ∈ t.proto.relatedAddresses then t
  else t.edit fun p => { p with relatedAddresses := p.relatedAddresses ++ [address.1] }

def updateDeriver (lastDeviceKey newDeviceKey : Hash) : CachedTransaction :=
  t.edit fun p => { p with lastDeviceKey := lastDeviceKey.1, newDeviceKey := newDeviceKey.1 }

def setReadOnly (readOnly : Bool) : CachedTransaction :=
  t.edit fun p => { p with readOnly := readOnly }

def setType (txType : UInt64) : CachedTransaction := t.edit fun p => { p with type := txType }

def setGasFeeCap (gasFeeCap : Option ℤ) : CachedTransaction :=
  t.edit fun p => { p with gasFeeCap := gasFeeCap.map bigBytes }

def setSignatureValues (chainID v r s : ℤ) : CachedTransaction :=
  t.edit fun p => { p with
    v := bigBytes v, r := bigBytes r, s := bigBytes s, chainID := bigInt64 chainID }

/-- `SetSign`: the BLS signature of the hash. -/
def setSign (privateKey : C.BlsKey) : CachedTransaction :=
  let (h, t) := t.hash E
  { t with proto := { t.proto with sign := C.blsSign privateKey h.1 } }

def setSignBytes (bytes : Bytes) : CachedTransaction :=
  { t with proto := { t.proto with sign := bytes } }

def setMaxGasPrice (gasPrice : UInt64) : CachedTransaction :=
  t.edit fun p => { p with maxGasPrice := gasPrice }

def setNonce (nonce : UInt64) : CachedTransaction :=
  t.edit fun p => { p with nonce := putUint64 nonce }

def setFromAddress (address : Address) : CachedTransaction :=
  t.edit fun p => { p with fromAddress := address.1 }

def setToAddress (address : Address) : CachedTransaction :=
  t.edit fun p => { p with toAddress := address.1 }

/-- `FromProto`: the caches stay. -/
def fromProto (p : Pb.Transaction) : CachedTransaction := { t with proto := p }

/-- `Unmarshal` into this transaction: bytes that cannot be parsed are an error and
change nothing. -/
def unmarshalInto (b : Bytes) : Bool × CachedTransaction :=
  match Pb.Transaction.unmarshal E b with
  | none => (false, t)
  | some p => (true, t.fromProto p)

/-! ### Signatures over the message itself -/

/-- The type of a transaction that is signed as a message. -/
def secpProtoType : UInt64 := 0xFF

def signSecpProto (privKey : Option C.PrivateKey) : Except SignError Unit × CachedTransaction :=
  match privKey with
  | none => (.error .nilKey, t)
  | some key =>
    let t := t.edit fun p => { p with type := secpProtoType, sign := [] }
    let (h, t) := t.signingHash E
    match C.sign h key with
    | none => (.error .signFailed, t)
    | some sig =>
      if sig.length ≠ 65 then (.error (.invalidLength sig.length), t)
      else (.ok (), t.edit fun p => { p with
        r := sig.take 32, s := (sig.drop 32).take 32, v := [sig.getD 64 0] })

def validSecpProtoSign : Bool × CachedTransaction :=
  if t.proto.type ≠ secpProtoType then (false, t)
  else if t.proto.sign.length ≠ 0 then (false, t)
  else if t.proto.r.length ≠ 32 ∨ t.proto.s.length ≠ 32 then (false, t)
  else
    match t.proto.v with
    | [v] =>
      if v > 1 then (false, t)
      -- the chain id guards against replay
      else if t.proto.chainID = 0 then (false, t)
      else if ¬ C.validateSignatureValues v (BigEndian.toNat t.proto.r)
          (BigEndian.toNat t.proto.s) true then (false, t)
      else
        let (h, t) := t.signingHash E
        match C.sigToPub h (t.proto.r ++ t.proto.s ++ [v]) with
        | none => (false, t)
        | some pubKey => (C.pubkeyToAddress pubKey = t.fromAddress, t)
    | _ => (false, t) -- `V` is not one byte

end CachedTransaction

/-! ### Signatures of the Ethereum form -/

/-- The signer that `DeriveSenderFromEthTransaction` takes, `none` for an error. -/
def deriveSigner (tx : EthTx) (chainID : ℕ) : Option Signer :=
  match tx with
  | .legacy tx _ =>
    let txChainID := deriveChainId tx.v
    if chainID > 0 ∧ txChainID = chainID then some (.eip155 chainID)
    else if txChainID = 0 then some .homestead
    else some (.eip155 txChainID)
  | .accessList _ txChainID _ _ => if txChainID = 0 then none else some (.london txChainID)
  | .dynamicFee _ txChainID _ _ _ => if txChainID = 0 then none else some (.london txChainID)
  | .unsupported => none

def deriveSenderFromEthTransaction (sender : Sender) (tx : EthTx) (chainID : ℕ) : Option Address :=
  (deriveSigner tx chainID).bind fun signer => sender signer tx

namespace CachedTransaction

variable (E : Env) (C : Crypto) (sender : Sender) (t : CachedTransaction)

def validEthSign : Except Panic Bool := do
  match ← t.toEthTransaction E with
  | none => pure false
  | some ethTx =>
    match deriveSenderFromEthTransaction sender ethTx t.proto.chainID.toNat with
    | none => pure false
    | some address => pure (decide (address = t.fromAddress))

def validSecpSign : Except Panic Bool :=
  if t.proto.type = secpProtoType then .ok (t.validSecpProtoSign E C).1
  else t.validEthSign E sender

end CachedTransaction

end MetaNode
