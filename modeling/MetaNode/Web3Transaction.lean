/-
The transaction of the web client (`web3/src/transaction_bls/transaction.ts`).

`getHash` hashes a message `TransactionHashData` as the client has it
(`web3/src/proto/transaction.ts`).  Its fields have other numbers than those of the message that
the chain hashes, it has none for the type, the chain id, the signature, the fee caps and the
access list, and two of its fields are never filled: a transaction has no `LastHash`, and the
related addresses are not copied.  A `uint64` is a number of JavaScript, so a large one is
rounded.  The hash is kept, and no setter clears it.
-/
import MetaNode.Machine
import MetaNode.TransactionHash

namespace MetaNode.Web3

open Wire

/-! ### Numbers and bytes -/

/-- The double nearest to a natural number; of two that are equally near, the one with an even
significand. -/
def roundDouble (n : ℕ) : ℕ :=
  if n < 2 ^ 53 then n
  else
    -- the exponent of the last of 53 bits
    let e := n.log2 - 52
    let q := n / 2 ^ e
    let r := n % 2 ^ e
    if 2 ^ e < 2 * r ∨ (2 * r = 2 ^ e ∧ q % 2 = 1) then (q + 1) * 2 ^ e else q * 2 ^ e

theorem roundDouble_eq_zero {n : ℕ} : roundDouble n = 0 ↔ n = 0 := by
  refine ⟨fun h => ?_, fun h => by rw [h, roundDouble, if_pos (by decide)]⟩
  rw [roundDouble] at h
  split at h
  · exact h
  · next hn =>
    have hpow : 0 < 2 ^ (n.log2 - 52) := Nat.two_pow_pos _
    have hle : 2 ^ (n.log2 - 52) ≤ n :=
      (Nat.pow_le_pow_right (by decide) (Nat.sub_le _ _)).trans (Nat.log2_self_le (by omega))
    have hq := Nat.div_pos hle hpow
    dsimp only at h
    split at h
    · exact absurd h (Nat.mul_pos (Nat.succ_pos _) hpow).ne'
    · exact absurd h (Nat.mul_pos hq hpow).ne'

abbrev JsString := List UInt16

/-- What `.` does not match. -/
def isLineTerminator (c : UInt16) : Bool := [0x0a, 0x0d, 0x2028, 0x2029].contains c

/-- `hex.match(/.{1,2}/g)` -/
def pairsOf : JsString → List JsString
  | [] => []
  | [a] => if isLineTerminator a then [] else [[a]]
  | a :: b :: rest =>
    if isLineTerminator a then pairsOf (b :: rest)
    else if isLineTerminator b then [a] :: pairsOf rest
    else [a, b] :: pairsOf rest

def isSpace (c : UInt16) : Bool :=
  [0x09, 0x0b, 0x0c, 0x20, 0xa0, 0x1680, 0x202f, 0x205f, 0x3000, 0xfeff].contains c ||
    (0x2000 ≤ c && c ≤ 0x200a)

def hexValue (c : UInt16) : Option UInt8 :=
  if 0x30 ≤ c && c ≤ 0x39 then some (c - 0x30).toUInt8
  else if 0x41 ≤ c && c ≤ 0x46 then some (c - 0x37).toUInt8
  else if 0x61 ≤ c && c ≤ 0x66 then some (c - 0x57).toUInt8
  else none

/-- `parseInt(byte, 16)` of one or two code units, as an element of a `Uint8Array`: what is not a
number is 0 there.  So is `0x`, of which nothing is left. -/
def parseByte : JsString → UInt8
  | [a] => (hexValue a).getD 0
  | [a, b] =>
    if isSpace a || a == 0x2b then (hexValue b).getD 0
    else if a == 0x2d then 0 - (hexValue b).getD 0
    else
      match hexValue a, hexValue b with
      | none, _ => 0
      | some x, none => x
      | some x, some y => 16 * x + y
  | _ => 0

/-- `hexToBytes`; `match` returns null, and the call throws, if there is no match. -/
def hexToBytes (hex : JsString) : Option Bytes :=
  if pairsOf hex = [] then none else some ((pairsOf hex).map parseByte)

/-- `view.setBigUint64(0, BigInt(n), false)`; a number that is no integer is `none`, and
throws. -/
def bigUint64 (n : Option ℤ) : Option Bytes := n.map fun z => BigEndian.fixed 8 (z % 2 ^ 64).toNat

/-! ### The messages -/

/-- `transaction.Transaction` of the client: the fields of the message, and a property that
`setPendingUse` adds to the object. -/
structure Message where
  fields : Pb.Transaction
  pendingUse : Option Bytes := none

/-- A `uint64` as a number of JavaScript. -/
def readUint64 (n : UInt64) : ℕ := roundDouble n.toNat

/-- `transaction.TransactionHashData` of the client. -/
structure HashData where
  lastHash : Bytes
  toAddress : Bytes
  amount : Bytes
  maxGas : ℕ
  maxGasPrice : ℕ
  maxTimeUse : ℕ
  data : Bytes
  relatedAddresses : List Bytes
  lastDeviceKey : Bytes
  newDeviceKey : Bytes
  nonce : Bytes
  fromAddress : Bytes

def HashData.entries (h : HashData) : List (ℕ × Content) :=
  [(1, .bytes h.lastHash), (2, .bytes h.toAddress), (4, .bytes h.amount), (5, .varint h.maxGas),
    (6, .varint h.maxGasPrice), (7, .varint h.maxTimeUse), (9, .bytes h.data),
    (10, .repeated h.relatedAddresses), (11, .bytes h.lastDeviceKey), (12, .bytes h.newDeviceKey),
    (13, .bytes h.nonce), (14, .bytes h.fromAddress)]

/-- `serializeBinary`; `writeUint64` throws at a number that is no `uint64`. -/
def HashData.serializeBinary (E : Env) (h : HashData) : Option Bytes :=
  if h.maxGas < 2 ^ 64 ∧ h.maxGasPrice < 2 ^ 64 ∧ h.maxTimeUse < 2 ^ 64 then
    some (E.wire.encode (fieldsOf h.entries))
  else none

/-- What `getHash` copies.  There is no `LastHash`, and what it assigns to `PendingUse` is no field
of the message. -/
def Message.hashData (m : Message) : HashData where
  lastHash := []
  toAddress := m.fields.toAddress
  amount := m.fields.amount
  maxGas := readUint64 m.fields.maxGas
  maxGasPrice := readUint64 m.fields.maxGasPrice
  maxTimeUse := readUint64 m.fields.maxTimeUse
  data := m.fields.data
  relatedAddresses := []
  lastDeviceKey := m.fields.lastDeviceKey
  newDeviceKey := m.fields.newDeviceKey
  nonce := m.fields.nonce
  fromAddress := m.fields.fromAddress

/-- What `getHash` computes where nothing is cached. -/
def Message.hash (E : Env) (m : Message) : Option Hash :=
  (m.hashData.serializeBinary E).map E.keccak256

structure Transaction where
  proto : Message
  cachedHash : Option Hash := none

def Transaction.getHash (E : Env) (t : Transaction) : Option Hash × Transaction :=
  match t.cachedHash with
  | some cached => (some cached, t)
  | none => (t.proto.hash E, { t with cachedHash := t.proto.hash E })

/-! ### The client and the chain -/

/-- A fresh transaction with the fields of `p`. -/
def Transaction.ofProto (p : Pb.Transaction) : Transaction := { proto := { fields := p } }

/-- Of all that one of the two hashes covers, only the recipient is there. -/
structure OnlyRecipient (p : Pb.Transaction) : Prop where
  amount : p.amount = []
  maxGas : p.maxGas = 0
  maxGasPrice : p.maxGasPrice = 0
  maxTimeUse : p.maxTimeUse = 0
  data : p.data = []
  lastDeviceKey : p.lastDeviceKey = []
  newDeviceKey : p.newDeviceKey = []
  nonce : p.nonce = []
  fromAddress : p.fromAddress = []
  chainID : p.chainID = 0
  type : p.type = 0
  r : p.r = []
  s : p.s = []
  v : p.v = []
  gasTipCap : p.gasTipCap.getD [] = []
  gasFeeCap : p.gasFeeCap.getD [] = []
  accessList : p.accessList = []

section

variable {E : Env} {p : Pb.Transaction}

theorem fieldsOf_eq_iff :
    fieldsOf (Message.hashData { fields := p }).entries = fieldsOf (p.hashData.entries E) ↔
      OnlyRecipient p := by
  constructor
  · intro h
    -- what only one of the messages has is empty, and so is what has another number there
    have hbytes := fun num (_ : num ∈ [1, 3, 7, 9, 10, 11, 13, 14, 15, 16, 17]) =>
      congrArg (getBytes num) h
    have hvarint := fun num (_ : num ∈ [4, 5, 6, 8, 12]) => congrArg (getVarint num) h
    have hlist := congrArg (getRepeated 18) h
    simp [getBytes, fieldsOf, Content.fields, HashData.entries,
      Pb.TransactionHashData.entries, getRepeated_bytesField, getRepeated_repeatedField,
      Message.hashData, Pb.Transaction.hashData] at hbytes hlist
    simp [getVarint, fieldsOf, Content.fields, HashData.entries,
      Pb.TransactionHashData.entries, getVarints_varintField, Message.hashData,
      Pb.Transaction.hashData, readUint64] at hvarint
    obtain ⟨hfrom, hamount, hdata, hlast, hnew, hnonce, hr, hs, hv, htip, hfee⟩ := hbytes
    obtain ⟨hgas, hprice, htime, htype, hchain⟩ := hvarint
    have hzero : ∀ {n : UInt64}, n.toNat = 0 → n = 0 := fun h => UInt64.toNat_inj.mp h
    rw [← hgas, roundDouble_eq_zero.mpr rfl] at hprice
    rw [← hprice, roundDouble_eq_zero.mpr rfl] at htime
    exact ⟨hamount, hzero hgas.symm, hzero hprice.symm, hzero htime.symm, hdata,
      hlast.symm.trans hdata, hnew, hnonce.symm.trans (hlast.symm.trans hdata), hfrom,
      hzero hchain.symm, hzero htype.symm,
      hr.symm.trans (hnonce.symm.trans (hlast.symm.trans hdata)), hs.symm.trans hfrom, hv, htip,
      hfee, hlist⟩
  · intro h
    have hround : roundDouble 0 = 0 := roundDouble_eq_zero.mpr rfl
    simp [fieldsOf, Content.fields, HashData.entries, Pb.TransactionHashData.entries,
      Message.hashData, Pb.Transaction.hashData, bytesField, varintField,
      repeatedField, readUint64, hround, h.amount, h.maxGas, h.maxGasPrice, h.maxTimeUse, h.data,
      h.lastDeviceKey, h.newDeviceKey, h.nonce, h.fromAddress, h.chainID, h.type, h.r, h.s, h.v,
      h.gasTipCap, h.gasFeeCap, h.accessList]

theorem valid_hashData (m : Pb.TransactionHashData) : ∀ e ∈ m.entries E, ValidEntry e := by
  simp [Pb.TransactionHashData.entries]

theorem HashData.valid_entries {h : HashData} (hgas : h.maxGas < 2 ^ 64)
    (hprice : h.maxGasPrice < 2 ^ 64) (htime : h.maxTimeUse < 2 ^ 64) :
    ∀ e ∈ h.entries, ValidEntry e := by
  simp only [entries, List.forall_mem_cons]
  repeat' apply And.intro
  all_goals first
    | exact validEntry_bytes (by decide) _
    | exact validEntry_repeated (by decide) _
    | exact validEntry_varint (by decide) (by assumption)
    | exact List.forall_mem_nil _

theorem serializeBinary_eq_iff :
    (Message.hashData { fields := p }).serializeBinary E = some (p.hashData.marshal E) ↔
      OnlyRecipient p := by
  rw [HashData.serializeBinary]
  split
  · next hsmall =>
    rw [Option.some.injEq, ← fieldsOf_eq_iff (E := E)]
    refine ⟨fun h => ?_, congrArg E.wire.encode⟩
    have hclient := E.wire.decode_encode _
      (valid_fieldsOf (HashData.valid_entries hsmall.1 hsmall.2.1 hsmall.2.2))
    have hchain := E.wire.decode_fieldsOf (valid_hashData (E := E) p.hashData)
    rw [h] at hclient
    exact Option.some.inj (hclient.symm.trans hchain)
  · next hlarge =>
    refine iff_of_false (by simp) fun h => hlarge ?_
    simp [Message.hashData, readUint64, h.maxGas, h.maxGasPrice, h.maxTimeUse, roundDouble]

/-- **The hashes of the client and of the chain.**  Where Keccak does not collide on the two
messages, the hashes are the same exactly if the recipient is all there is to hash. -/
theorem getHash_eq_hash_iff (E : Env) (p : Pb.Transaction)
    (hcollision : ∀ b, (Message.hashData { fields := p }).serializeBinary E = some b →
      E.keccak256 b = E.keccak256 (p.hashData.marshal E) → b = p.hashData.marshal E) :
    ((Transaction.ofProto p).getHash E).1 = some (p.hash E) ↔ OnlyRecipient p := by
  show (Message.hash E { fields := p }) = some (p.hash E) ↔ _
  rw [← serializeBinary_eq_iff (E := E), Message.hash, Option.map_eq_some_iff, Pb.Transaction.hash]
  constructor
  · rintro ⟨b, hb, hhash⟩
    rw [hb, hcollision b hb hhash]
  · exact fun h => ⟨_, h, rfl⟩

/-- A transaction to an address, and nothing else. -/
theorem getHash_eq_hash_recipient :
    ((Transaction.ofProto { Pb.Transaction.new with toAddress := [7] }).getHash stdEnv).1 =
      some (Pb.Transaction.hash stdEnv { Pb.Transaction.new with toAddress := [7] }) := by
  have honly : OnlyRecipient { Pb.Transaction.new with toAddress := [7] } := by constructor <;> rfl
  exact (getHash_eq_hash_iff stdEnv _ fun b hb _ =>
    Option.some.inj (hb.symm.trans (serializeBinary_eq_iff.mpr honly))).mpr honly

/-- The nonce has number 13 for the client, and 11 for the chain. -/
theorem getHash_ne_hash_nonce :
    ((Transaction.ofProto { Pb.Transaction.new with nonce := [0, 0, 0, 0, 0, 0, 0, 1] }).getHash
        stdEnv).1 ≠
      some (Pb.Transaction.hash stdEnv
        { Pb.Transaction.new with nonce := [0, 0, 0, 0, 0, 0, 0, 1] }) := by
  decide +kernel

end

/-! ### Runs -/

/-- The calls, with what they are given. -/
inductive Call where
  | setFromAddress (address : JsString ⊕ Bytes)
  | setToAddress (address : JsString ⊕ Bytes)
  | setNonce (nonce : Option ℤ)
  | setPendingUse (pendingUse : Option ℤ)
  | setSign (privateKey : Bytes)
  | getHash

def addressBytes : JsString ⊕ Bytes → Option Bytes
  | .inl hex => hexToBytes hex
  | .inr b => some b

def Transaction.edit (t : Transaction) (f : Pb.Transaction → Pb.Transaction) : Transaction :=
  { t with proto := { t.proto with fields := f t.proto.fields } }

section

variable (E : Env) (secretKey : Bytes → Option (Hash → Bytes))

/-- `setSign` from where it awaited the library; `deserialize` throws at a key that is none. -/
def Transaction.setSign (t : Transaction) (privateKey : Bytes) : Transaction :=
  match secretKey privateKey with
  | none => t
  | some sign =>
    match t.getHash E with
    | (none, t) => t
    | (some hash, t) => t.edit fun m => { m with sign := sign hash }

/-- A call that throws changes nothing. -/
def Transaction.call (t : Transaction) : Call → Transaction
  | .setFromAddress a =>
    (addressBytes a).elim t fun b => t.edit fun m => { m with fromAddress := b }
  | .setToAddress a => (addressBytes a).elim t fun b => t.edit fun m => { m with toAddress := b }
  | .setNonce n => (bigUint64 n).elim t fun b => t.edit fun m => { m with nonce := b }
  | .setPendingUse n =>
    (bigUint64 n).elim t fun b => { t with proto := { t.proto with pendingUse := some b } }
  | .setSign key => t.setSign E secretKey key
  | .getHash => (t.getHash E).2

/-- A fresh transaction after the calls. -/
def Transaction.calls (p : Pb.Transaction) (cs : List Call) : Transaction :=
  Machine.run (Transaction.call E secretKey) (.ofProto p) cs

/-- `getHash` returns the hash of the current fields. -/
def Transaction.Current (t : Transaction) : Prop := (t.getHash E).1 = t.proto.hash E

variable {E secretKey} {t : Transaction}

theorem current_of_none (h : t.cachedHash = none) : t.Current E := by
  rw [Transaction.Current, Transaction.getHash, h]

theorem current_of_some {g : Hash} (h : t.cachedHash = some g) :
    t.Current E ↔ t.proto.hash E = some g := by
  rw [Transaction.Current, Transaction.getHash, h, eq_comm]

theorem cachedHash_call {g : Hash} (h : t.cachedHash = some g) (c : Call) :
    (t.call E secretKey c).cachedHash = some g := by
  have hget : t.getHash E = (some g, t) := by rw [Transaction.getHash, h]
  cases c with
  | setFromAddress a | setToAddress a =>
    rw [Transaction.call]
    cases addressBytes a <;> exact h
  | setNonce n | setPendingUse n =>
    rw [Transaction.call]
    cases bigUint64 n <;> exact h
  | setSign key =>
    rw [Transaction.call, Transaction.setSign, hget]
    cases secretKey key <;> exact h
  | getHash => rw [Transaction.call, hget, h]

/-- Where none was kept, a call keeps none, or it keeps that of fields it does not change. -/
theorem current_call (h : t.cachedHash = none) (c : Call) : (t.call E secretKey c).Current E := by
  have hget : t.getHash E = (t.proto.hash E, { t with cachedHash := t.proto.hash E }) := by
    rw [Transaction.getHash, h]
  cases c with
  | setFromAddress a | setToAddress a =>
    rw [Transaction.call]
    cases addressBytes a <;> exact current_of_none h
  | setNonce n | setPendingUse n =>
    rw [Transaction.call]
    cases bigUint64 n <;> exact current_of_none h
  | setSign key =>
    rw [Transaction.call, Transaction.setSign, hget]
    cases secretKey key with
    | none => exact current_of_none h
    | some =>
      cases hhash : t.proto.hash E with
      | none => exact current_of_none rfl
      | some => exact (current_of_some rfl).mpr hhash
  | getHash =>
    rw [Transaction.call, hget]
    cases hhash : t.proto.hash E with
    | none => exact current_of_none rfl
    | some => exact (current_of_some rfl).mpr hhash

theorem sign_setSign {key : Bytes} {sign : Hash → Bytes} {h : Hash}
    (hkey : secretKey key = some sign) (hhash : (t.getHash E).1 = some h) :
    (t.call E secretKey (.setSign key)).proto.fields.sign = sign h := by
  rw [Transaction.call, Transaction.setSign, hkey]
  cases hg : t.getHash E with
  | mk =>
    rw [hg] at hhash
    cases hhash
    rfl

end

/-- **Hashes and signatures of the current fields.**  After each of the calls `getHash` returns the
hash of the fields as they are, and each signature is over it, exactly if no call changes the hash
of the fields once one was kept. -/
theorem current_iff (E : Env) (secretKey : Bytes → Option (Hash → Bytes)) (p : Pb.Transaction)
    (cs : List Call) :
    ((∀ pre, pre <+: cs → (Transaction.calls E secretKey p pre).Current E) ∧
      ∀ pre key sign h, pre ++ [.setSign key] <+: cs → secretKey key = some sign →
        (Transaction.calls E secretKey p pre).proto.hash E = some h →
        (Transaction.calls E secretKey p (pre ++ [.setSign key])).proto.fields.sign = sign h) ↔
    ∀ pre c, pre ++ [c] <+: cs → (Transaction.calls E secretKey p pre).cachedHash ≠ none →
      (Transaction.calls E secretKey p (pre ++ [c])).proto.hash E =
        (Transaction.calls E secretKey p pre).proto.hash E := by
  constructor
  · rintro ⟨hcurrent, -⟩ pre c hpre hkept
    obtain ⟨g, hg⟩ := Option.ne_none_iff_exists'.mp hkept
    have hbefore := hcurrent pre ((List.prefix_append _ _).trans hpre)
    have hafter := hcurrent _ hpre
    have hstays : (Transaction.calls E secretKey p (pre ++ [c])).cachedHash = some g := by
      rw [Transaction.calls, Machine.run_concat]
      exact cachedHash_call hg c
    rw [(current_of_some hg).mp hbefore, (current_of_some hstays).mp hafter]
  · intro hkeep
    have hcurrent : ∀ pre, pre <+: cs → (Transaction.calls E secretKey p pre).Current E := by
      intro pre
      induction pre using List.reverseRecOn with
      | nil => exact fun _ => current_of_none rfl
      | append_singleton pre c ih =>
        intro hpre
        have hbefore := ih ((List.prefix_append _ _).trans hpre)
        have hconcat : Transaction.calls E secretKey p (pre ++ [c]) =
            (Transaction.calls E secretKey p pre).call E secretKey c := Machine.run_concat _ _ _ _
        cases hg : (Transaction.calls E secretKey p pre).cachedHash with
        | none =>
          rw [hconcat]
          exact current_call hg c
        | some g =>
          have hsame := hkeep pre c hpre (by rw [hg]; exact Option.some_ne_none g)
          rw [(current_of_some hg).mp hbefore, hconcat] at hsame
          rw [hconcat]
          exact (current_of_some (cachedHash_call hg c)).mpr hsame
    refine ⟨hcurrent, fun pre key sign h hpre hkey hhash => ?_⟩
    rw [Transaction.calls, Machine.run_concat]
    exact sign_setSign hkey ((hcurrent pre ((List.prefix_append _ _).trans hpre)).trans hhash)

theorem getHash_stale_nonce :
    ¬ (Transaction.calls stdEnv (fun _ => none) .new [.getHash, .setNonce (some 1)]).Current
      stdEnv := by
  unfold Transaction.Current
  decide +kernel

end MetaNode.Web3
