/-
The messages of an account (`state.proto`).

The state of a smart contract is a message inside that of its account and may be
absent.  Its map has strings as keys, so that `proto.Marshal` fails on a key
that is not UTF-8: `marshal` is `none` then.
-/
import MetaNode.TrieNode
import MetaNode.WireTypes

namespace MetaNode.Pb

open Wire

structure SmartContractState where
  creatorPublicKey : Bytes
  codeHash : Bytes
  storageRoot : Bytes
  logsHash : Bytes
  storageAddress : Bytes
  trieDatabaseMap : ByteMap
  mapFullDbHash : Bytes
  simpleDbHash : Bytes
  deriving DecidableEq

structure AccountState where
  address : Bytes
  lastHash : Bytes
  balance : Bytes
  pendingBalance : Bytes
  smartContractState : Option SmartContractState
  deviceKey : Bytes
  nonce : Bytes
  publicKeyBls : Bytes
  accountType : Int32
  deriving DecidableEq

variable (E : Env)

/-! ### The state of a smart contract -/

namespace SmartContractState

variable (m : SmartContractState)

def entries : List (ℕ × Content) :=
  [(1, .bytes m.creatorPublicKey), (3, .bytes m.codeHash), (4, .bytes m.storageRoot),
    (5, .bytes m.logsHash), (7, .bytes m.storageAddress),
    (9, .repeated (writeMap E.wire m.trieDatabaseMap)), (10, .bytes m.mapFullDbHash),
    (11, .bytes m.simpleDbHash)]

/-- `proto.Marshal` -/
def marshal : Option Bytes :=
  if ∀ k ∈ m.trieDatabaseMap.keys, validUtf8 k then
    some (E.wire.encode (fieldsOf (m.entries E)))
  else none

def ofFields (fs : List Field) (trieDatabaseMap : ByteMap) : SmartContractState where
  creatorPublicKey := getBytes 1 fs
  codeHash := getBytes 3 fs
  storageRoot := getBytes 4 fs
  logsHash := getBytes 5 fs
  storageAddress := getBytes 7 fs
  trieDatabaseMap := trieDatabaseMap
  mapFullDbHash := getBytes 10 fs
  simpleDbHash := getBytes 11 fs

def parse (fs : List Field) : Option SmartContractState :=
  (readMap E.wire (getRepeated 9 fs)).map (ofFields fs)

theorem valid_entries : ∀ e ∈ m.entries E, ValidEntry e := by
  simp [entries]

theorem nodup_entries : ((m.entries E).map Prod.fst).Nodup := by
  simp [entries]

theorem parse_entries {m : SmartContractState}
    (h : ∀ k ∈ m.trieDatabaseMap.keys, validUtf8 k) :
    ∃ map, parse E (fieldsOf (m.entries E)) = some { m with trieDatabaseMap := map } ∧
      map.Same m.trieDatabaseMap := by
  have hnd := nodup_entries E m
  set fs := fieldsOf (m.entries E) with hfs
  have hbytes : ∀ {num b}, _ → getBytes num fs = b := getBytes_fieldsOf hnd
  have hrecords : getRepeated 9 fs = writeMap E.wire m.trieDatabaseMap :=
    getRepeated_fieldsOf hnd (by simp [entries])
  obtain ⟨map, hread, hsame⟩ := readMap_writeMap E.wire h
  refine ⟨map, ?_, hsame⟩
  rw [parse, hrecords, hread, Option.map_some, Option.some.injEq, ofFields,
    SmartContractState.mk.injEq]
  refine ⟨hbytes ?_, hbytes ?_, hbytes ?_, hbytes ?_, hbytes ?_, rfl, hbytes ?_, hbytes ?_⟩
  all_goals simp [entries]

end SmartContractState

/-! ### The account -/

namespace AccountState

/-- The numbered fields, given the encoding of the smart contract if there is
one. -/
def entries (m : AccountState) (smartContractState : Option Bytes) : List (ℕ × Content) :=
  [(1, .bytes m.address), (2, .bytes m.lastHash), (3, .bytes m.balance),
    (4, .bytes m.pendingBalance), (5, .repeated smartContractState.toList), (6, .bytes m.deviceKey),
    (7, .bytes m.nonce), (8, .bytes m.publicKeyBls), (9, .varint (ofInt32 m.accountType))]

/-- `proto.Marshal` -/
def marshal (m : AccountState) : Option Bytes := do
  let smartContractState ← m.smartContractState.mapM (SmartContractState.marshal E)
  pure (E.wire.encode (fieldsOf (m.entries smartContractState)))

def ofFields (fs : List Field) (smartContractState : Option SmartContractState) :
    AccountState where
  address := getBytes 1 fs
  lastHash := getBytes 2 fs
  balance := getBytes 3 fs
  pendingBalance := getBytes 4 fs
  smartContractState := smartContractState
  deviceKey := getBytes 6 fs
  nonce := getBytes 7 fs
  publicKeyBls := getBytes 8 fs
  accountType := toInt32 (getVarint 9 fs)

/-- The message inside: several records of it are merged. -/
def parseSmartContractState (records : List Bytes) : Option (Option SmartContractState) :=
  if records = [] then some none
  else do
    let parts ← records.mapM E.wire.decode
    (SmartContractState.parse E parts.flatten).map some

/-- `proto.Unmarshal` -/
def unmarshal (b : Bytes) : Option AccountState := do
  let fs ← E.wire.decode b
  let smartContractState ← parseSmartContractState E (getRepeated 5 fs)
  pure (ofFields fs smartContractState)

variable (m : AccountState)

theorem valid_entries (sc : Option Bytes) : ∀ e ∈ m.entries sc, ValidEntry e := by
  simp [entries]

theorem nodup_entries (sc : Option Bytes) : ((m.entries sc).map Prod.fst).Nodup := by
  simp [entries]

theorem ofFields_entries (b : Option Bytes) (sc : Option SmartContractState) :
    ofFields (fieldsOf (m.entries b)) sc = { m with smartContractState := sc } := by
  have hnd := nodup_entries m b
  set fs := fieldsOf (m.entries b) with hfs
  have hbytes : ∀ {num x}, _ → getBytes num fs = x := getBytes_fieldsOf hnd
  have henum : toInt32 (getVarint 9 fs) = m.accountType :=
    getInt32_fieldsOf hnd (by simp [entries])
  rw [ofFields, AccountState.mk.injEq]
  refine ⟨hbytes ?_, hbytes ?_, hbytes ?_, hbytes ?_, rfl, hbytes ?_, hbytes ?_, hbytes ?_, henum⟩
  all_goals simp [entries]

/-- The state of a smart contract that comes back: the map may be in another
order. -/
def SameContract : Option SmartContractState → Option SmartContractState → Prop :=
  Option.Rel fun sc' sc => ∃ map : ByteMap,
    sc' = { sc with trieDatabaseMap := map } ∧ map.Same sc.trieDatabaseMap

theorem parseSmartContractState_marshal {sc : Option SmartContractState} {b : Option Bytes}
    (h : sc.mapM (SmartContractState.marshal E) = some b) :
    ∃ sc', parseSmartContractState E b.toList = some sc' ∧ SameContract sc' sc := by
  cases sc with
  | none =>
    cases h
    exact ⟨none, rfl, .none⟩
  | some sc =>
    have hkeys : ∀ k ∈ sc.trieDatabaseMap.keys, validUtf8 k := by
      by_contra hkeys
      rw [Option.mapM_some, SmartContractState.marshal, if_neg hkeys] at h
      cases h
    rw [Option.mapM_some, SmartContractState.marshal, if_pos hkeys] at h
    cases h
    obtain ⟨map, hparse, hsame⟩ := SmartContractState.parse_entries E hkeys
    refine ⟨_, ?_, .some ⟨map, rfl, hsame⟩⟩
    have hdecode := E.wire.decode_encode _
      (valid_fieldsOf (SmartContractState.valid_entries E sc))
    simp [parseSmartContractState, hdecode, hparse]

/-- **What is marshalled is read back**, with the state of the smart contract there
if and only if it was there before. -/
theorem unmarshal_marshal {m : AccountState} {b : Bytes} (h : m.marshal E = some b) :
    ∃ sc, unmarshal E b = some { m with smartContractState := sc } ∧
      SameContract sc m.smartContractState := by
  rw [marshal, Option.bind_eq_bind, Option.bind_eq_some_iff] at h
  obtain ⟨enc, henc, hb⟩ := h
  cases hb
  obtain ⟨sc, hparse, hsame⟩ := parseSmartContractState_marshal E henc
  refine ⟨sc, ?_, hsame⟩
  have hrecords : getRepeated 5 (fieldsOf (m.entries enc)) = enc.toList :=
    getRepeated_fieldsOf (nodup_entries m enc) (by simp [entries])
  rw [unmarshal, E.wire.decode_fieldsOf (valid_entries m enc)]
  show (parseSmartContractState E (getRepeated 5 _)).bind _ = _
  rw [hrecords, hparse, Option.bind_some, ofFields_entries]
  rfl

end AccountState

end MetaNode.Pb
