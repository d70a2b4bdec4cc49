/-
Receipts (`pkg/receipt/receipt.go`, `receipt.proto`, `event_log.proto`).

A receipt is a message.  The enums of the schema are open, so that they hold any
32-bit number; the constants below are those that the code names.  Logs of a
transaction come as messages of their own.
-/
import MetaNode.Transaction
import MetaNode.WireTypes

namespace MetaNode

open Wire

/-! ### The messages -/

namespace Pb

structure EventLog where
  transactionHash : Bytes
  address : Bytes
  data : Bytes
  topics : List Bytes
  deriving DecidableEq

structure Receipt where
  transactionHash : Bytes
  fromAddress : Bytes
  toAddress : Bytes
  amount : Bytes
  status : Int32
  returnValue : Bytes
  exception : Int32
  gasUsed : UInt64
  gasFee : UInt64
  eventLogs : List EventLog
  transactionIndex : UInt64
  processingType : Int32
  rHash : Bytes
  deriving DecidableEq

def Receipt.new : Receipt where
  transactionHash := []
  fromAddress := []
  toAddress := []
  amount := []
  status := 0
  returnValue := []
  exception := 0
  gasUsed := 0
  gasFee := 0
  eventLogs := []
  transactionIndex := 0
  processingType := 0
  rHash := []

variable (E : Env)

namespace EventLog

def entries (m : EventLog) : List (ℕ × Content) :=
  [(2, .bytes m.transactionHash), (3, .bytes m.address), (4, .bytes m.data),
    (5, .repeated m.topics)]

def marshal (m : EventLog) : Bytes := E.wire.encode (fieldsOf m.entries)

def unmarshal (b : Bytes) : Option EventLog :=
  (E.wire.decode b).map fun fs =>
    ⟨getBytes 2 fs, getBytes 3 fs, getBytes 4 fs, getRepeated 5 fs⟩

theorem unmarshal_marshal (m : EventLog) : unmarshal E (m.marshal E) = some m := by
  have hnd : (m.entries.map Prod.fst).Nodup := by
    simp [entries]
  rw [unmarshal, marshal, E.wire.decode_fieldsOf (by simp [entries]), Option.map_some,
    Option.some.injEq, EventLog.mk.injEq]
  refine ⟨getBytes_fieldsOf hnd ?_, getBytes_fieldsOf hnd ?_,
    getBytes_fieldsOf hnd ?_, getRepeated_fieldsOf hnd ?_⟩
  all_goals simp [entries]

end EventLog

namespace Receipt

def entries (m : Receipt) : List (ℕ × Content) :=
  [(1, .bytes m.transactionHash), (2, .bytes m.fromAddress), (3, .bytes m.toAddress),
    (4, .bytes m.amount), (6, .varint (ofInt32 m.status)), (7, .bytes m.returnValue),
    (8, .varint (ofInt32 m.exception)), (9, .varint m.gasUsed.toNat),
    (10, .varint m.gasFee.toNat), (11, .repeated (m.eventLogs.map (EventLog.marshal E))),
    (12, .varint m.transactionIndex.toNat), (13, .varint (ofInt32 m.processingType)),
    (14, .bytes m.rHash)]

/-- `proto.Marshal` -/
def marshal (m : Receipt) : Bytes := E.wire.encode (fieldsOf (m.entries E))

def ofFields (fs : List Field) (eventLogs : List EventLog) : Receipt where
  transactionHash := getBytes 1 fs
  fromAddress := getBytes 2 fs
  toAddress := getBytes 3 fs
  amount := getBytes 4 fs
  status := toInt32 (getVarint 6 fs)
  returnValue := getBytes 7 fs
  exception := toInt32 (getVarint 8 fs)
  gasUsed := UInt64.ofNat (getVarint 9 fs)
  gasFee := UInt64.ofNat (getVarint 10 fs)
  eventLogs := eventLogs
  transactionIndex := UInt64.ofNat (getVarint 12 fs)
  processingType := toInt32 (getVarint 13 fs)
  rHash := getBytes 14 fs

/-- `proto.Unmarshal` -/
def unmarshal (b : Bytes) : Option Receipt := do
  let fs ← E.wire.decode b
  let eventLogs ← (getRepeated 11 fs).mapM (EventLog.unmarshal E)
  pure (ofFields fs eventLogs)

variable (m : Receipt)

theorem valid_entries : ∀ e ∈ m.entries E, ValidEntry e := by
  simp [entries]

theorem nodup_entries : ((m.entries E).map Prod.fst).Nodup := by
  simp [entries]

theorem ofFields_entries : ofFields (fieldsOf (m.entries E)) m.eventLogs = m := by
  have hnd := nodup_entries E m
  set fs := fieldsOf (m.entries E) with hfs
  have hbytes : ∀ {num b}, _ → getBytes num fs = b := getBytes_fieldsOf hnd
  have hword : ∀ {num x}, _ → UInt64.ofNat (getVarint num fs) = x :=
    getUint64_fieldsOf hnd
  have henum : ∀ {num x}, _ → toInt32 (getVarint num fs) = x :=
    getInt32_fieldsOf hnd
  rw [ofFields, Receipt.mk.injEq]
  refine ⟨hbytes ?_, hbytes ?_, hbytes ?_, hbytes ?_, henum ?_, hbytes ?_, henum ?_, hword ?_,
    hword ?_, rfl, hword ?_, henum ?_, hbytes ?_⟩
  all_goals simp [entries]

/-- **Every field comes back.** -/
theorem unmarshal_marshal : unmarshal E (m.marshal E) = some m := by
  have hlogs := mapM_getRepeated_fieldsOf 11 m.eventLogs (EventLog.unmarshal_marshal E)
    (nodup_entries E m) (by simp [entries])
  rw [unmarshal, marshal, E.wire.decode_fieldsOf (valid_entries E m)]
  show ((getRepeated 11 (fieldsOf (m.entries E))).mapM
    (EventLog.unmarshal E)).bind _ = _
  rw [hlogs, Option.bind_some, ofFields_entries]
  rfl

theorem unmarshal_nil : unmarshal E [] = some .new := by
  have hdecode := E.wire.decode_encode [] (by simp)
  rw [E.wire.encode_nil] at hdecode
  rw [unmarshal, hdecode]
  rfl

theorem marshal_ne_nil {m : Receipt} (h : m.transactionHash ≠ []) : m.marshal E ≠ [] := by
  refine E.wire.encode_ne_nil (valid_fieldsOf (valid_entries E m)) ?_
  rw [entries, fieldsOf_cons]
  simp [Content.fields, bytesField, h]

end Receipt

end Pb

/-! ### Receipts -/

/-- `pb.RECEIPT_STATUS` -/
abbrev ReceiptStatus := Int32

namespace ReceiptStatus

def returned : ReceiptStatus := 0

def halted : ReceiptStatus := 1

def transactionError : ReceiptStatus := -1

end ReceiptStatus

/-- `pb.EXCEPTION` -/
abbrev ReceiptException := Int32

def ReceiptException.errInvalidCode : ReceiptException := 11

def asciiBytes (s : String) : Bytes := s.toList.map fun c => UInt8.ofNat c.toNat

/-- `copy(dst[lo:hi], src)` -/
def copyInto (dst : Bytes) (lo hi : ℕ) (src : Bytes) : Bytes :=
  dst.take lo ++ src.take (hi - lo) ++ dst.drop (lo + min src.length (hi - lo))

def encodeStringInput (input : Bytes) : Bytes :=
  let strLen := input.length
  let dataOffset := 32
  let size := dataOffset + 32 + strLen
  let encodedData : Bytes := List.replicate size 0
  -- the bytes of a number have no leading zeros
  let encodedData := copyInto encodedData 0 32 (BigEndian.ofNat dataOffset)
  let encodedData := copyInto encodedData dataOffset (dataOffset + 32) (BigEndian.ofNat strLen)
  let encodedData := copyInto encodedData (dataOffset + 32) size input
  let paddingSize := 32 - strLen % 32
  if paddingSize < 32 then
    copyInto encodedData (dataOffset + 32 + strLen) size (List.replicate paddingSize 0)
  else encodedData

/-- What `NewReceipt` and `UpdateExecuteResult` save of the result of a
transaction: its status and what it returned. -/
def savedResult (status : ReceiptStatus) (returnValue : Bytes) (exception : ReceiptException) :
    ReceiptStatus × Bytes :=
  if status = .returned then (status, returnValue)
  else
    (.transactionError,
      if exception = .errInvalidCode then
        encodeStringInput (asciiBytes "transaction error invalid code")
      else if status = .halted then encodeStringInput (asciiBytes "transaction halted")
      else returnValue)

structure Receipt where
  proto : Pb.Receipt
  deriving DecidableEq

/-- `NewReceipt`; the block is not recorded. -/
def newReceipt (transactionHash : Hash) (fromAddress toAddress : Address) (amount : ℤ)
    (status : ReceiptStatus) (returnValue : Bytes) (exception : ReceiptException)
    (gasFee gasUsed : UInt64) (eventLogs : List Pb.EventLog) (transactionIndex : UInt64) :
    Receipt :=
  let (saveStatus, saveReturn) := savedResult status returnValue exception
  ⟨{ Pb.Receipt.new with
    transactionHash := transactionHash.1
    fromAddress := fromAddress.1
    toAddress := toAddress.1
    amount := bigBytes amount
    status := saveStatus
    returnValue := saveReturn
    exception := exception
    gasUsed := gasUsed
    gasFee := gasFee
    eventLogs := eventLogs
    transactionIndex := transactionIndex }⟩

/-- What `UpdateExecuteResult` is given. -/
structure ExecuteResult where
  status : ReceiptStatus
  returnValue : Bytes
  exception : ReceiptException
  gasUsed : UInt64
  eventLogs : List Pb.EventLog

namespace Receipt

variable (r : Receipt)

def transactionHash : Hash := bytesToHash r.proto.transactionHash

def rHash : Hash := bytesToHash r.proto.rHash

def gasUsed : UInt64 := r.proto.gasUsed

def marshal (E : Env) : Bytes := r.proto.marshal E

/-- `Unmarshal` into a new receipt. -/
def unmarshal (E : Env) (b : Bytes) : Option Receipt := (Pb.Receipt.unmarshal E b).map Receipt.mk

def updateExecuteResult (res : ExecuteResult) : Receipt :=
  let (saveStatus, saveReturn) := savedResult res.status res.returnValue res.exception
  ⟨{ r.proto with
    status := saveStatus
    returnValue := saveReturn
    exception := res.exception
    gasUsed := res.gasUsed
    eventLogs := res.eventLogs }⟩

/-- A receipt that names a transaction, as all receipts made by `NewReceipt` do. -/
def Named : Prop := r.proto.transactionHash.length = 32

instance : Decidable r.Named := inferInstanceAs (Decidable (_ = _))

variable {r}

theorem Named.updateExecuteResult (h : r.Named) (res : ExecuteResult) :
    (r.updateExecuteResult res).Named := h

theorem Named.marshal_ne_nil (h : r.Named) (E : Env) : r.marshal E ≠ [] := by
  refine Pb.Receipt.marshal_ne_nil E ?_
  intro hnil
  rw [Named, hnil] at h
  cases h

theorem unmarshal_marshal (E : Env) (r : Receipt) : unmarshal E (r.marshal E) = some r := by
  rw [unmarshal, marshal, Pb.Receipt.unmarshal_marshal]
  rfl

end Receipt

end MetaNode
