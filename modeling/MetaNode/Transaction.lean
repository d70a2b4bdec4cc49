/-
Transactions and their Ethereum form (`pkg/transaction`).

`newTransactionFromEth` fills a message from a signed Ethereum transaction of
type 0, 1 or 2, with the data of a call or a deployment wrapped in a message of
its own; `Transaction.toEthTransaction` goes back and has to decide from the
message alone whether there is data to unwrap.  Recovering the sender of a
signed transaction is go-ethereum's and a parameter here (`Sender`).
-/
import MetaNode.BigEndian
import MetaNode.EthTypes
import MetaNode.PbTransaction

namespace MetaNode

/-! ### From Ethereum -/

inductive ConvertError where
  /-- `NewTransactionFromEth: ethTx cannot be nil` -/
  | nilTx
  /-- `NewTransactionFromEth: unsupported Ethereum transaction type` -/
  | unsupportedType
  /-- `không phải là giao dịch legacy` -/
  | notLegacy
  /-- `không phải là giao dịch EIP-2930 (AccessListTx)` -/
  | notAccessList
  /-- `not an EIP-1559 transaction` -/
  | notDynamicFee
  /-- `error deriving sender for legacy transaction: %w` -/
  | senderLegacy
  /-- `error deriving sender for EIP-2930 transaction: %w` -/
  | senderAccessList
  /-- `error deriving sender for EIP-1559 transaction: %w` -/
  | senderDynamicFee
  deriving DecidableEq

/-- The signer with which the sender of a legacy transaction is recovered. -/
def legacySigner (v : ℕ) : Signer :=
  if deriveChainId v ≠ 0 then .eip155 (deriveChainId v) else .homestead

def storageAddressForDeploy : Address :=
  ⟨BigEndian.fixed 20 0xda7284fac5e804f8b9d71aa39310f0f86776b51d, rfl⟩

/-- `Uint64` of a `big.Int`: the low 64 bits of the magnitude. -/
def bigUint64 (x : ℤ) : UInt64 := UInt64.ofNat x.natAbs

/-- `Int64` of a `big.Int`, as a word: the low 64 bits of the magnitude with the
sign put back. -/
def bigInt64 (x : ℤ) : UInt64 := if x < 0 then - bigUint64 x else bigUint64 x

/-- `Bytes` of a `big.Int`: the magnitude. -/
def bigBytes (x : ℤ) : Bytes := BigEndian.ofNat x.natAbs

def putUint64 (n : UInt64) : Bytes := BigEndian.fixed 8 n.toNat

theorem toNat_putUint64 (n : UInt64) : BigEndian.toNat (putUint64 n) = n.toNat := by
  have hlt := n.toNat_lt
  rw [putUint64, BigEndian.toNat_fixed, Nat.mod_eq_of_lt (by omega)]

theorem length_putUint64 (n : UInt64) : (putUint64 n).length = 8 := BigEndian.length_fixed 8 _

def addressBytes : Option Address → Bytes
  | none => []
  | some a => a.1

/-- The recovery id in the last byte of `Sign` of a legacy transaction. -/
def recoveryID (txChainID v : ℕ) : UInt8 :=
  if txChainID ≠ 0 then (bigUint64 (v - (txChainID * 2 + 35))).toUInt8
  else
    let id := (bigUint64 (v - 27)).toUInt8
    if id > 1 then
      -- Thử với 28 nếu 27 không đúng
      if bigUint64 (v - 28) ≤ 1 then (bigUint64 (v - 28)).toUInt8 else id
    else id

/-- `Sign` of a transaction of type 1 or 2: `R || S || V`, the last byte of `V`. -/
def typedSign (tx : TxFields) : Bytes :=
  BigEndian.ofNat tx.r ++ BigEndian.ofNat tx.s ++ [(BigEndian.ofNat tx.v).getLast?.getD 0]

def pbAccessList (l : List AccessTuple) : List Pb.AccessTuple :=
  l.map fun item => ⟨item.address.1, item.storageKeys.map Subtype.val⟩

section FromEth

variable (E : Env) (sender : Sender)

def prepareTransactionSpecificData (txData : Bytes) (ethRecipient : Option Address) : Bytes :=
  if txData = [] then []
  else
    match ethRecipient with
    | none => Pb.DeployData.marshal E ⟨txData, storageAddressForDeploy.1⟩
    | some _ => Pb.CallData.marshal E ⟨txData⟩

def fromEthLegacyTx (ethTx : EthTx) (pTx : Pb.Transaction) : Except ConvertError Pb.Transaction :=
  match ethTx with
  | .legacy tx gasPrice =>
    let txChainID := deriveChainId tx.v
    match sender (legacySigner tx.v) ethTx with
    | none => .error .senderLegacy
    | some fromAddress => .ok { pTx with
        type := 0
        toAddress := addressBytes tx.recipient
        amount := BigEndian.ofNat tx.value
        maxGas := tx.gas
        maxGasPrice := UInt64.ofNat gasPrice
        nonce := putUint64 tx.nonce
        data := prepareTransactionSpecificData E tx.data tx.recipient
        v := BigEndian.ofNat tx.v
        r := BigEndian.ofNat tx.r
        s := BigEndian.ofNat tx.s
        fromAddress := fromAddress.1
        sign := BigEndian.ofNat tx.r ++ BigEndian.ofNat tx.s ++ [recoveryID txChainID tx.v]
        chainID := UInt64.ofNat txChainID
        maxTimeUse := 0
        relatedAddresses := []
        lastDeviceKey := []
        newDeviceKey := []
        readOnly := false
        gasTipCap := none
        gasFeeCap := none
        accessList := [] }
  | _ => .error .notLegacy

def fromEthEIP2930Tx (ethTx : EthTx) (pTx : Pb.Transaction) : Except ConvertError Pb.Transaction :=
  match ethTx with
  | .accessList tx chainID gasPrice accessList =>
    match sender (.london chainID) ethTx with
    | none => .error .senderAccessList
    | some fromAddress => .ok { pTx with
        type := 1
        toAddress := addressBytes tx.recipient
        chainID := UInt64.ofNat chainID
        amount := BigEndian.ofNat tx.value
        maxGas := tx.gas
        maxGasPrice := UInt64.ofNat gasPrice
        nonce := putUint64 tx.nonce
        data := prepareTransactionSpecificData E tx.data tx.recipient
        accessList := pbAccessList accessList
        r := BigEndian.ofNat tx.r
        s := BigEndian.ofNat tx.s
        v := BigEndian.ofNat tx.v
        fromAddress := fromAddress.1
        sign := typedSign tx
        maxTimeUse := 0
        relatedAddresses := []
        lastDeviceKey := []
        newDeviceKey := []
        readOnly := false
        gasTipCap := none
        gasFeeCap := none }
  | _ => .error .notAccessList

/-- `FromEthEIP1559Tx`.  A fee cap of zero becomes an empty slice, which is not
nil. -/
def fromEthEIP1559Tx (ethTx : EthTx) (pTx : Pb.Transaction) : Except ConvertError Pb.Transaction :=
  match ethTx with
  | .dynamicFee tx chainID gasTipCap gasFeeCap accessList =>
    match sender (.london chainID) ethTx with
    | none => .error .senderDynamicFee
    | some fromAddress => .ok { pTx with
        type := 2
        toAddress := addressBytes tx.recipient
        amount := BigEndian.ofNat tx.value
        maxGas := tx.gas
        nonce := putUint64 tx.nonce
        data := prepareTransactionSpecificData E tx.data tx.recipient
        chainID := UInt64.ofNat chainID
        gasTipCap := some (BigEndian.ofNat gasTipCap)
        gasFeeCap := some (BigEndian.ofNat gasFeeCap)
        maxGasPrice := 0
        accessList := pbAccessList accessList
        r := BigEndian.ofNat tx.r
        s := BigEndian.ofNat tx.s
        v := BigEndian.ofNat tx.v
        fromAddress := fromAddress.1
        sign := typedSign tx }
  | _ => .error .notDynamicFee

end FromEth

/-! ### Transactions -/

structure Transaction where
  proto : Pb.Transaction

def newTransactionFromEth (E : Env) (sender : Sender) (ethTx : Option EthTx) :
    Except ConvertError Transaction :=
  match ethTx with
  | none => .error .nilTx
  | some ethTx =>
    let pTx := match ethTx with
      | .legacy .. => fromEthLegacyTx E sender ethTx .new
      | .accessList .. => fromEthEIP2930Tx E sender ethTx .new
      | .dynamicFee .. => fromEthEIP1559Tx E sender ethTx .new
      | .unsupported => .error .unsupportedType
    pTx.map Transaction.mk

inductive Panic where
  | nilDereference
  deriving DecidableEq

namespace Transaction

variable (E : Env) (t : Transaction)

def marshal : Bytes := t.proto.marshal E

/-- `Unmarshal` into a new transaction. -/
def unmarshal (b : Bytes) : Option Transaction := (Pb.Transaction.unmarshal E b).map Transaction.mk

def getNonce : UInt64 :=
  if t.proto.nonce.length = 8 then UInt64.ofNat (BigEndian.toNat t.proto.nonce) else 0

def fromAddress : Address := bytesToAddress t.proto.fromAddress

def toAddress : Address := bytesToAddress t.proto.toAddress

def isDeployContract : Bool :=
  t.getNonce ≠ 0 && t.fromAddress ≠ t.toAddress && t.toAddress = FixedBytes.zero 20 &&
    t.proto.data.length > 0

def isCallContract : Bool := t.toAddress ≠ FixedBytes.zero 20 && t.proto.data.length > 0

/-- `CallData().Input()`: what cannot be parsed counts as no input. -/
def callInput : Bytes :=
  match Pb.CallData.unmarshal E t.proto.data with
  | none => []
  | some m => m.input

/-- `DeployData().Code()`: what cannot be parsed is a nil message. -/
def deployCode : Except Panic Bytes :=
  match Pb.DeployData.unmarshal E t.proto.data with
  | none => .error .nilDereference
  | some m => .ok m.code

def ethData : Except Panic Bytes :=
  -- where both tests fail, the data is dropped
  let data := if t.isCallContract then t.callInput E else []
  if t.isDeployContract then t.deployCode E else .ok data

def toEthAccessList (l : List Pb.AccessTuple) : List AccessTuple :=
  l.map fun item => ⟨bytesToAddress item.address, item.storageKeys.map bytesToHash⟩

/-- The fields that the three branches of `ToEthTransaction` fill alike. -/
def ethFields (data : Bytes) : TxFields where
  nonce := if t.proto.nonce.length > 0 then UInt64.ofNat (BigEndian.toNat t.proto.nonce) else 0
  gas := t.proto.maxGas
  recipient :=
    if t.proto.toAddress.length > 0 then some (bytesToAddress t.proto.toAddress) else none
  value := BigEndian.toNat t.proto.amount
  data := data
  v := BigEndian.toNat t.proto.v
  r := BigEndian.toNat t.proto.r
  s := BigEndian.toNat t.proto.s

def toEthTransaction : Except Panic (Option EthTx) := do
  let data ← t.ethData E
  let tx := t.proto
  let chainID := tx.chainID.toNat
  let gasPrice := tx.maxGasPrice.toNat
  -- the chain id of a legacy transaction is part of its `v`
  if tx.type = 0 then pure (some (.legacy (t.ethFields data) gasPrice))
  else if tx.type = 1 then
    if tx.chainID = 0 then pure none
    else if tx.maxGasPrice = 0 then pure none
    else pure (some (.accessList (t.ethFields data) chainID gasPrice
      (toEthAccessList tx.accessList)))
  else if tx.type = 2 then
    if tx.chainID = 0 then pure none
    else
      match tx.gasTipCap, tx.gasFeeCap with
      | some gasTipCap, some gasFeeCap =>
        pure (some (.dynamicFee (t.ethFields data) chainID (BigEndian.toNat gasTipCap)
          (BigEndian.toNat gasFeeCap) (toEthAccessList tx.accessList)))
      | _, _ => pure none -- a cap is nil
  else pure none

def getData : Except Panic Bytes :=
  if t.isCallContract then .ok (t.callInput E)
  else if t.isDeployContract then t.deployCode E
  else .ok t.proto.data

/-- `ValidDeployData`.  `DeployData()` is never nil, only the message in it may be. -/
def validDeployData : Except Panic Bool :=
  if t.isDeployContract then do
    let code ← t.deployCode E
    pure (code.length != 0)
  else pure true

/-! ### Which calls return -/

def BadDeploy : Prop := t.isDeployContract = true ∧ Pb.DeployData.unmarshal E t.proto.data = none

structure Returns : Prop where
  getData : ∃ data, t.getData E = .ok data
  toEthTransaction : ∃ ethTx, t.toEthTransaction E = .ok ethTx
  validDeployData : ∃ valid, t.validDeployData E = .ok valid

theorem isCallContract_of_isDeployContract (h : t.isDeployContract = true) :
    t.isCallContract = false := by
  have hto : t.toAddress = FixedBytes.zero 20 := by
    simp only [isDeployContract, Bool.and_eq_true, decide_eq_true_eq] at h
    exact h.1.2
  simp [isCallContract, hto]

theorem deployCode_eq_ok (h : Pb.DeployData.unmarshal E t.proto.data ≠ none) :
    ∃ code, t.deployCode E = .ok code := by
  obtain ⟨m, hm⟩ := Option.ne_none_iff_exists'.mp h
  exact ⟨m.code, by rw [deployCode, hm]⟩

theorem toEthTransaction_eq_ok {data : Bytes} (h : t.ethData E = .ok data) :
    ∃ ethTx, t.toEthTransaction E = .ok ethTx := by
  rw [toEthTransaction, h]
  simp only [bind, Except.bind, pure, Except.pure]
  split
  · exact ⟨_, rfl⟩
  · split
    · split
      · exact ⟨_, rfl⟩
      · split <;> exact ⟨_, rfl⟩
    · split
      · split
        · exact ⟨_, rfl⟩
        · split <;> exact ⟨_, rfl⟩
      · exact ⟨_, rfl⟩

theorem returns_of_not_badDeploy (h : ¬ t.BadDeploy E) : t.Returns E := by
  by_cases hdeploy : t.isDeployContract = true
  · obtain ⟨code, hcode⟩ := t.deployCode_eq_ok E fun hnone => h ⟨hdeploy, hnone⟩
    have hcall := t.isCallContract_of_isDeployContract hdeploy
    have heth : t.ethData E = .ok code := by
      rw [ethData, hdeploy]
      exact hcode
    refine ⟨⟨code, ?_⟩, t.toEthTransaction_eq_ok E heth, ⟨code.length != 0, ?_⟩⟩
    · rw [getData, hcall, hdeploy]
      exact hcode
    · rw [validDeployData, hdeploy, if_pos rfl, hcode]
      rfl
  · rw [Bool.not_eq_true] at hdeploy
    have heth : t.ethData E = .ok (if t.isCallContract then t.callInput E else []) := by
      rw [ethData, hdeploy]
      rfl
    refine ⟨?_, t.toEthTransaction_eq_ok E heth, ⟨true, ?_⟩⟩
    · rw [getData, hdeploy]
      split <;> exact ⟨_, rfl⟩
    · rw [validDeployData, hdeploy]
      rfl

theorem BadDeploy.getData_eq_error {t : Transaction} (h : t.BadDeploy E) :
    t.getData E = .error .nilDereference := by
  rw [getData, t.isCallContract_of_isDeployContract h.1, h.1]
  show t.deployCode E = _
  rw [deployCode, h.2]

/-- **When the data of a received transaction can be unwrapped**: whatever the bytes
were, the three calls return unless they describe a deployment whose data is no
message. -/
theorem returns_iff (b : Bytes) :
    (∀ t, unmarshal E b = some t → t.Returns E) ↔
      ∀ t, unmarshal E b = some t → ¬ t.BadDeploy E := by
  constructor
  · intro hreturns t ht hbad
    obtain ⟨data, hdata⟩ := (hreturns t ht).getData
    rw [hbad.getData_eq_error] at hdata
    cases hdata
  · intro hgood t ht
    exact t.returns_of_not_badDeploy E (hgood t ht)

/-- A deployment from the address `0x01…01` whose data is the byte `0xff`. -/
def badDeploy : Transaction :=
  ⟨{ Pb.Transaction.new with
    fromAddress := List.replicate 20 1
    nonce := [0, 0, 0, 0, 0, 0, 0, 1]
    data := [0xff] }⟩

/-- Its bytes are accepted, and all three calls panic on the transaction. -/
theorem badDeploy_panics :
    unmarshal stdEnv (badDeploy.marshal stdEnv) = some badDeploy ∧
      badDeploy.getData stdEnv = .error .nilDereference ∧
      badDeploy.toEthTransaction stdEnv = .error .nilDereference ∧
      badDeploy.validDeployData stdEnv = .error .nilDereference := by
  refine ⟨?_, by decide +kernel, by decide +kernel, by decide +kernel⟩
  rw [unmarshal, marshal, Pb.Transaction.unmarshal_marshal]
  rfl

end Transaction

end MetaNode
