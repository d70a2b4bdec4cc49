/-
Cached hashes of a transaction.

`Hash`, `SigningHash` and `RHash` answer from their caches, so a method that changes
the message has to clear them.  The two that replace the message do not: `FromProto`
and `Unmarshal` keep what was cached for the message before.
-/
import MetaNode.TransactionHash

namespace MetaNode.CachedTransaction

variable (E : Env) {C : Crypto}

/-! ### Hashes -/

/-- The hashes that are cached. -/
inductive Kind where
  | hash
  | signingHash
  | rHash
  deriving DecidableEq

namespace Kind

def of : Kind → Pb.Transaction → Hash
  | .hash, p => p.hash E
  | .signingHash, p => p.signingHash E
  | .rHash, p => p.rHash E

def cached : Kind → CachedTransaction → Option Hash
  | .hash, t => t.cachedHash
  | .signingHash, t => t.cachedSigningHash
  | .rHash, t => t.cachedRHash

def read : Kind → CachedTransaction → Hash × CachedTransaction
  | .hash, t => t.hash E
  | .signingHash, t => t.signingHash E
  | .rHash, t => t.rHash E

def store (h : Hash) : Kind → CachedTransaction → CachedTransaction
  | .hash, t => { t with cachedHash := some h }
  | .signingHash, t => { t with cachedSigningHash := some h }
  | .rHash, t => { t with cachedRHash := some h }

end Kind

variable {E} {t : CachedTransaction} {p : Pb.Transaction}

/-- The methods that read a hash or change the message. -/
inductive Method (C : Crypto) where
  | hash
  | signingHash
  | rHash
  | clearCacheHash
  | updateRelatedAddresses (relatedAddresses : List Bytes)
  | addRelatedAddress (address : Address)
  | updateDeriver (lastDeviceKey newDeviceKey : Hash)
  | setReadOnly (readOnly : Bool)
  | setType (txType : UInt64)
  | setGasFeeCap (gasFeeCap : Option ℤ)
  | setSignatureValues (chainID v r s : ℤ)
  | setSign (privateKey : C.BlsKey)
  | setSignBytes (bytes : Bytes)
  | setMaxGasPrice (gasPrice : UInt64)
  | setNonce (nonce : UInt64)
  | setFromAddress (address : Address)
  | setToAddress (address : Address)
  | signSecpProto (privKey : Option C.PrivateKey)
  | validSecpProtoSign
  | fromProto (p : Pb.Transaction)
  | unmarshal (b : Bytes)

variable (E) in
def Method.call (m : Method C) (t : CachedTransaction) : CachedTransaction :=
  match m with
  | .hash => (t.hash E).2
  | .signingHash => (t.signingHash E).2
  | .rHash => (t.rHash E).2
  | .clearCacheHash => t.clearCacheHash
  | .updateRelatedAddresses relatedAddresses => t.updateRelatedAddresses relatedAddresses
  | .addRelatedAddress address => t.addRelatedAddress address
  | .updateDeriver lastDeviceKey newDeviceKey => t.updateDeriver lastDeviceKey newDeviceKey
  | .setReadOnly readOnly => t.setReadOnly readOnly
  | .setType txType => t.setType txType
  | .setGasFeeCap gasFeeCap => t.setGasFeeCap gasFeeCap
  | .setSignatureValues chainID v r s => t.setSignatureValues chainID v r s
  | .setSign privateKey => t.setSign E C privateKey
  | .setSignBytes bytes => t.setSignBytes bytes
  | .setMaxGasPrice gasPrice => t.setMaxGasPrice gasPrice
  | .setNonce nonce => t.setNonce nonce
  | .setFromAddress address => t.setFromAddress address
  | .setToAddress address => t.setToAddress address
  | .signSecpProto privKey => (t.signSecpProto E C privKey).2
  | .validSecpProtoSign => (t.validSecpProtoSign E C).2
  | .fromProto p => t.fromProto p
  | .unmarshal b => (t.unmarshalInto E b).2

/-- The message has the form that `ValidSecpProtoSign` asks for before it reads the signing
hash. -/
def secpProtoForm (C : Crypto) (p : Pb.Transaction) : Bool :=
  p.type = secpProtoType && p.sign.length = 0 && (p.r.length = 32 && p.s.length = 32) &&
    match p.v with
    | [v] => v ≤ 1 && p.chainID ≠ 0 &&
        C.validateSignatureValues v (BigEndian.toNat p.r) (BigEndian.toNat p.s) true
    | _ => false

variable (E) in
/-- The hashes that a call on the message reads, once it has cleared the caches if it does. -/
def Method.reads (m : Method C) (p : Pb.Transaction) : List Kind :=
  match m with
  | .hash => [.hash]
  | .signingHash => [.signingHash]
  | .rHash => [.rHash]
  | .setSign _ => [.hash]
  | .signSecpProto (some key) =>
    match C.sign (Pb.Transaction.signingHash E { p with type := secpProtoType, sign := [] })
      key with
    | none => [.signingHash]
    -- the signature is set, and what was read is cleared again
    | some sig => if sig.length = 65 then [] else [.signingHash]
  | .validSecpProtoSign => if secpProtoForm C p then [.signingHash] else []
  | _ => []

variable (E) in
def run (t : CachedTransaction) (ms : List (Method C)) : CachedTransaction :=
  ms.foldl (fun t m => m.call E t) t

variable {k : Kind} {m : Method C} {ms : List (Method C)}

theorem run_append (t : CachedTransaction) (ms ms' : List (Method C)) :
    t.run E (ms ++ ms') = (t.run E ms).run E ms' :=
  List.foldl_append

end MetaNode.CachedTransaction
