/-
The messages of a transaction (`transaction.proto`).

A nil and an empty byte slice are told apart for the two fee caps only, which the
conversion to an Ethereum transaction compares with nil; everywhere else the
source asks for the length.  On the wire an empty field is not sent, so that it
comes back as nil: `Pb.Transaction.unmarshal_marshal`.
-/
import MetaNode.TrieNode

namespace MetaNode.Pb

open Wire

structure AccessTuple where
  address : Bytes
  storageKeys : List Bytes
  deriving DecidableEq

structure CallData where
  input : Bytes
  deriving DecidableEq

structure DeployData where
  code : Bytes
  storageAddress : Bytes
  deriving DecidableEq

structure Transaction where
  toAddress : Bytes
  amount : Bytes
  maxGas : UInt64
  maxGasPrice : UInt64
  maxTimeUse : UInt64
  data : Bytes
  relatedAddresses : List Bytes
  lastDeviceKey : Bytes
  newDeviceKey : Bytes
  sign : Bytes
  nonce : Bytes
  fromAddress : Bytes
  readOnly : Bool
  chainID : UInt64
  type : UInt64
  r : Bytes
  s : Bytes
  v : Bytes
  gasTipCap : Option Bytes
  gasFeeCap : Option Bytes
  accessList : List AccessTuple
  deriving DecidableEq

def Transaction.new : Transaction where
  toAddress := []
  amount := []
  maxGas := 0
  maxGasPrice := 0
  maxTimeUse := 0
  data := []
  relatedAddresses := []
  lastDeviceKey := []
  newDeviceKey := []
  sign := []
  nonce := []
  fromAddress := []
  readOnly := false
  chainID := 0
  type := 0
  r := []
  s := []
  v := []
  gasTipCap := none
  gasFeeCap := none
  accessList := []

variable (E : Env)

/-! ### Data of a call or a deployment -/

def CallData.marshal (m : CallData) : Bytes := E.wire.encode (bytesField 1 m.input)

def CallData.unmarshal (b : Bytes) : Option CallData :=
  (E.wire.decode b).map fun fs => ⟨getBytes 1 fs⟩

def DeployData.marshal (m : DeployData) : Bytes :=
  E.wire.encode (bytesField 1 m.code ++ bytesField 3 m.storageAddress)

def DeployData.unmarshal (b : Bytes) : Option DeployData :=
  (E.wire.decode b).map fun fs => ⟨getBytes 1 fs, getBytes 3 fs⟩

theorem CallData.unmarshal_marshal (m : CallData) :
    CallData.unmarshal E (m.marshal E) = some m := by
  rw [unmarshal, marshal, E.wire.decode_encode _ (valid_bytesField 1 (by decide) m.input)]
  simp [getBytes, getRepeated_bytesField]

theorem DeployData.unmarshal_marshal (m : DeployData) :
    DeployData.unmarshal E (m.marshal E) = some m := by
  have hvalid := valid_append (valid_bytesField 1 (by decide) m.code)
    (valid_bytesField 3 (by decide) m.storageAddress)
  rw [unmarshal, marshal, E.wire.decode_encode _ hvalid]
  simp [getBytes, getRepeated_bytesField]

theorem DeployData.unmarshal_callData (m : CallData) :
    DeployData.unmarshal E (m.marshal E) = some ⟨m.input, []⟩ := by
  rw [unmarshal, CallData.marshal,
    E.wire.decode_encode _ (valid_bytesField 1 (by decide) m.input)]
  simp [getBytes, getRepeated_bytesField]

theorem CallData.marshal_ne_nil {m : CallData} (h : m.input ≠ []) : m.marshal E ≠ [] :=
  E.wire.encode_ne_nil (valid_bytesField 1 (by decide) m.input) (by simp [bytesField, h])

theorem DeployData.marshal_ne_nil {m : DeployData} (h : m.code ≠ []) : m.marshal E ≠ [] :=
  E.wire.encode_ne_nil (valid_append (valid_bytesField 1 (by decide) m.code)
    (valid_bytesField 3 (by decide) m.storageAddress)) (by simp [bytesField, h])

/-! ### The transaction -/

def AccessTuple.marshal (m : AccessTuple) : Bytes :=
  E.wire.encode (bytesField 1 m.address ++ repeatedField 2 m.storageKeys)

def AccessTuple.unmarshal (b : Bytes) : Option AccessTuple :=
  (E.wire.decode b).map fun fs => ⟨getBytes 1 fs, getRepeated 2 fs⟩

theorem AccessTuple.unmarshal_marshal (m : AccessTuple) :
    AccessTuple.unmarshal E (m.marshal E) = some m := by
  have hvalid := valid_append (valid_bytesField 1 (by decide) m.address)
    (valid_repeatedField 2 (by decide) m.storageKeys)
  rw [unmarshal, marshal, E.wire.decode_encode _ hvalid]
  simp [getBytes, getRepeated_bytesField, getRepeated_repeatedField]

namespace Transaction

def entries (m : Transaction) : List (ℕ × Content) :=
  [(1, .bytes m.toAddress), (3, .bytes m.amount), (4, .varint m.maxGas.toNat),
    (5, .varint m.maxGasPrice.toNat), (6, .varint m.maxTimeUse.toNat), (7, .bytes m.data),
    (8, .repeated m.relatedAddresses), (9, .bytes m.lastDeviceKey), (10, .bytes m.newDeviceKey),
    (11, .bytes m.sign), (12, .bytes m.nonce), (13, .bytes m.fromAddress),
    (14, .varint m.readOnly.toNat), (15, .varint m.chainID.toNat), (16, .varint m.type.toNat),
    (17, .bytes m.r), (18, .bytes m.s), (19, .bytes m.v), (20, .bytes (m.gasTipCap.getD [])),
    (21, .bytes (m.gasFeeCap.getD [])),
    (22, .repeated (m.accessList.map (AccessTuple.marshal E)))]

/-- `proto.Marshal` -/
def marshal (m : Transaction) : Bytes := E.wire.encode (fieldsOf (m.entries E))

def ofFields (fs : List Field) (accessList : List AccessTuple) : Transaction where
  toAddress := getBytes 1 fs
  amount := getBytes 3 fs
  maxGas := UInt64.ofNat (getVarint 4 fs)
  maxGasPrice := UInt64.ofNat (getVarint 5 fs)
  maxTimeUse := UInt64.ofNat (getVarint 6 fs)
  data := getBytes 7 fs
  relatedAddresses := getRepeated 8 fs
  lastDeviceKey := getBytes 9 fs
  newDeviceKey := getBytes 10 fs
  sign := getBytes 11 fs
  nonce := getBytes 12 fs
  fromAddress := getBytes 13 fs
  readOnly := getVarint 14 fs != 0
  chainID := UInt64.ofNat (getVarint 15 fs)
  type := UInt64.ofNat (getVarint 16 fs)
  r := getBytes 17 fs
  s := getBytes 18 fs
  v := getBytes 19 fs
  gasTipCap := nilIfEmpty (getBytes 20 fs)
  gasFeeCap := nilIfEmpty (getBytes 21 fs)
  accessList := accessList

/-- `proto.Unmarshal` -/
def unmarshal (b : Bytes) : Option Transaction := do
  let fs ← E.wire.decode b
  let accessList ← (getRepeated 22 fs).mapM (AccessTuple.unmarshal E)
  pure (ofFields fs accessList)

def normalize (m : Transaction) : Transaction :=
  { m with
    gasTipCap := nilIfEmpty (m.gasTipCap.getD [])
    gasFeeCap := nilIfEmpty (m.gasFeeCap.getD []) }

variable (m : Transaction)

theorem valid_entries : ∀ e ∈ m.entries E, ValidEntry e := by
  simp [entries]

theorem nodup_entries : ((m.entries E).map Prod.fst).Nodup := by
  simp [entries]

theorem ofFields_entries : ofFields (fieldsOf (m.entries E)) m.accessList = m.normalize := by
  have hnd := nodup_entries E m
  set fs := fieldsOf (m.entries E) with hfs
  -- each field is read from its own number
  have hbytes : ∀ {num b}, _ → getBytes num fs = b := getBytes_fieldsOf hnd
  have hrepeated : ∀ {num bs}, _ → getRepeated num fs = bs := getRepeated_fieldsOf hnd
  have hword : ∀ {num x}, _ → UInt64.ofNat (getVarint num fs) = x :=
    getUint64_fieldsOf hnd
  have hbool : (getVarint 14 fs != 0) = m.readOnly := by
    rw [getVarint_fieldsOf hnd (n := m.readOnly.toNat) (by simp [entries])]
    cases m.readOnly <;> rfl
  rw [ofFields, normalize, Transaction.mk.injEq]
  refine ⟨hbytes ?_, hbytes ?_, hword ?_, hword ?_, hword ?_, hbytes ?_, hrepeated ?_, hbytes ?_,
    hbytes ?_, hbytes ?_, hbytes ?_, hbytes ?_, hbool, hword ?_, hword ?_, hbytes ?_, hbytes ?_,
    hbytes ?_, congrArg nilIfEmpty (hbytes ?_), congrArg nilIfEmpty (hbytes ?_), rfl⟩
  all_goals simp [entries]

/-- **Every field comes back**, but empty fee caps as nil. -/
theorem unmarshal_marshal : unmarshal E (m.marshal E) = some m.normalize := by
  have haccess := mapM_getRepeated_fieldsOf 22 m.accessList (AccessTuple.unmarshal_marshal E)
    (nodup_entries E m) (by simp [entries])
  rw [unmarshal, marshal, E.wire.decode_fieldsOf (valid_entries E m)]
  show ((getRepeated 22 (fieldsOf (m.entries E))).mapM
    (AccessTuple.unmarshal E)).bind _ = _
  rw [haccess, Option.bind_some, ofFields_entries]
  rfl

end Transaction

end MetaNode.Pb
