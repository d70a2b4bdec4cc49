/-
The messages of an executed call (`smart_contract.proto`, `state.proto`).

Of the result of a call the fields that the code sets or reads are here.  Its maps
have strings as keys and are written in the order of their keys; `proto.Marshal`
fails on a key that is not UTF-8, and `marshal` is `none` then.

What is written is read back, with the same answers of every map
(**`ExecuteSCResult.parse_entries`**).
-/
import MetaNode.Receipt

namespace MetaNode.Pb

open Wire

structure TouchedAddresses where
  addresses : List Bytes
  deriving DecidableEq

structure StorageData where
  key : Bytes
  value : Bytes
  deriving DecidableEq

structure StorageDatas where
  datas : List StorageData
  deriving DecidableEq

structure ExecuteSCResult where
  transactionHash : Bytes
  mapAddBalance : ByteMap
  mapSubBalance : ByteMap
  mapCodeHash : ByteMap
  mapStorageRoot : ByteMap
  status : Int32
  exception : Int32
  returnData : Bytes
  gasUsed : UInt64
  mapStorageAddressTouchedAddresses : AList fun _ : Bytes => TouchedAddresses
  mapStorageAddress : ByteMap
  mapCreatorPubkey : ByteMap
  mapNativeSmartContractUpdateStorage : AList fun _ : Bytes => StorageDatas
  eventLogs : List EventLog

variable (E : Env)

namespace TouchedAddresses

def marshal (m : TouchedAddresses) : Bytes :=
  E.wire.encode (fieldsOf [(1, .repeated m.addresses)])

def unmarshal (b : Bytes) : Option TouchedAddresses :=
  (E.wire.decode b).map fun fs => ⟨getRepeated 1 fs⟩

theorem unmarshal_marshal (m : TouchedAddresses) : unmarshal E (m.marshal E) = some m := by
  rw [unmarshal, marshal, E.wire.decode_fieldsOf (by simp), Option.map_some,
    getRepeated_fieldsOf (by simp) (List.mem_singleton_self _)]

end TouchedAddresses

namespace StorageData

def entries (m : StorageData) : List (ℕ × Content) := [(1, .bytes m.key), (2, .bytes m.value)]

def marshal (m : StorageData) : Bytes := E.wire.encode (fieldsOf m.entries)

def unmarshal (b : Bytes) : Option StorageData :=
  (E.wire.decode b).map fun fs => ⟨getBytes 1 fs, getBytes 2 fs⟩

theorem unmarshal_marshal (m : StorageData) : unmarshal E (m.marshal E) = some m := by
  have hnd : (m.entries.map Prod.fst).Nodup := by
    simp [entries]
  rw [unmarshal, marshal, E.wire.decode_fieldsOf (by simp [entries]), Option.map_some,
    Option.some.injEq, StorageData.mk.injEq]
  refine ⟨getBytes_fieldsOf hnd ?_, getBytes_fieldsOf hnd ?_⟩
  all_goals simp [entries]

end StorageData

namespace StorageDatas

def marshal (m : StorageDatas) : Bytes :=
  E.wire.encode (fieldsOf [(1, .repeated (m.datas.map (StorageData.marshal E)))])

def unmarshal (b : Bytes) : Option StorageDatas := do
  let fs ← E.wire.decode b
  let datas ← (getRepeated 1 fs).mapM (StorageData.unmarshal E)
  pure ⟨datas⟩

theorem unmarshal_marshal (m : StorageDatas) : unmarshal E (m.marshal E) = some m := by
  rw [unmarshal, marshal, E.wire.decode_fieldsOf (by simp)]
  show ((getRepeated 1 _).mapM (StorageData.unmarshal E)).bind _ = _
  rw [mapM_getRepeated_fieldsOf 1 m.datas (StorageData.unmarshal_marshal E) (by simp)
    (List.mem_singleton_self _)]
  rfl

end StorageDatas

/-! ### The result of a call -/

namespace ExecuteSCResult

variable (m : ExecuteSCResult)

def mapKeys : List Bytes :=
  m.mapAddBalance.keys ++ m.mapSubBalance.keys ++ m.mapCodeHash.keys ++ m.mapStorageRoot.keys ++
    m.mapStorageAddressTouchedAddresses.keys ++ m.mapStorageAddress.keys ++
    m.mapCreatorPubkey.keys ++ m.mapNativeSmartContractUpdateStorage.keys

def entries : List (ℕ × Content) :=
  [(1, .bytes m.transactionHash), (2, .repeated (writeSorted E.wire id m.mapAddBalance)),
    (3, .repeated (writeSorted E.wire id m.mapSubBalance)),
    (4, .repeated (writeSorted E.wire id m.mapCodeHash)),
    (5, .repeated (writeSorted E.wire id m.mapStorageRoot)),
    (8, .varint (ofInt32 m.status)), (9, .varint (ofInt32 m.exception)),
    (10, .bytes m.returnData), (11, .varint m.gasUsed.toNat),
    (12, .repeated (writeSorted E.wire (TouchedAddresses.marshal E)
      m.mapStorageAddressTouchedAddresses)),
    (13, .repeated (writeSorted E.wire id m.mapStorageAddress)),
    (14, .repeated (writeSorted E.wire id m.mapCreatorPubkey)),
    (15, .repeated (writeSorted E.wire (StorageDatas.marshal E)
      m.mapNativeSmartContractUpdateStorage)),
    (16, .repeated (m.eventLogs.map (EventLog.marshal E)))]

/-- `proto.Marshal` with `Deterministic` -/
def marshal : Option Bytes :=
  if ∀ k ∈ m.mapKeys, validUtf8 k then some (E.wire.encode (fieldsOf (m.entries E)))
  else none

def ofFields (fs : List Field)
    (mapAddBalance mapSubBalance mapCodeHash mapStorageRoot : ByteMap)
    (mapStorageAddressTouchedAddresses : AList fun _ : Bytes => TouchedAddresses)
    (mapStorageAddress mapCreatorPubkey : ByteMap)
    (mapNativeSmartContractUpdateStorage : AList fun _ : Bytes => StorageDatas)
    (eventLogs : List EventLog) : ExecuteSCResult where
  transactionHash := getBytes 1 fs
  mapAddBalance := mapAddBalance
  mapSubBalance := mapSubBalance
  mapCodeHash := mapCodeHash
  mapStorageRoot := mapStorageRoot
  status := toInt32 (getVarint 8 fs)
  exception := toInt32 (getVarint 9 fs)
  returnData := getBytes 10 fs
  gasUsed := UInt64.ofNat (getVarint 11 fs)
  mapStorageAddressTouchedAddresses := mapStorageAddressTouchedAddresses
  mapStorageAddress := mapStorageAddress
  mapCreatorPubkey := mapCreatorPubkey
  mapNativeSmartContractUpdateStorage := mapNativeSmartContractUpdateStorage
  eventLogs := eventLogs

def parse (fs : List Field) : Option ExecuteSCResult := do
  let add ← readEntries E.wire some (getRepeated 2 fs)
  let sub ← readEntries E.wire some (getRepeated 3 fs)
  let code ← readEntries E.wire some (getRepeated 4 fs)
  let root ← readEntries E.wire some (getRepeated 5 fs)
  let touched ← readEntries E.wire (TouchedAddresses.unmarshal E) (getRepeated 12 fs)
  let address ← readEntries E.wire some (getRepeated 13 fs)
  let pubkey ← readEntries E.wire some (getRepeated 14 fs)
  let native ← readEntries E.wire (StorageDatas.unmarshal E) (getRepeated 15 fs)
  let eventLogs ← (getRepeated 16 fs).mapM (EventLog.unmarshal E)
  pure (ofFields fs add sub code root touched address pubkey native eventLogs)

/-- `proto.Unmarshal` -/
def unmarshal (b : Bytes) : Option ExecuteSCResult := do
  let fs ← E.wire.decode b
  parse E fs

/-- The same message, up to the order in which maps list their entries. -/
structure Same (m m' : ExecuteSCResult) : Prop where
  transactionHash : m.transactionHash = m'.transactionHash
  mapAddBalance : m.mapAddBalance.Same m'.mapAddBalance
  mapSubBalance : m.mapSubBalance.Same m'.mapSubBalance
  mapCodeHash : m.mapCodeHash.Same m'.mapCodeHash
  mapStorageRoot : m.mapStorageRoot.Same m'.mapStorageRoot
  status : m.status = m'.status
  exception : m.exception = m'.exception
  returnData : m.returnData = m'.returnData
  gasUsed : m.gasUsed = m'.gasUsed
  mapStorageAddressTouchedAddresses : ∀ k, m.mapStorageAddressTouchedAddresses.lookup k
    = m'.mapStorageAddressTouchedAddresses.lookup k
  mapStorageAddress : m.mapStorageAddress.Same m'.mapStorageAddress
  mapCreatorPubkey : m.mapCreatorPubkey.Same m'.mapCreatorPubkey
  mapNativeSmartContractUpdateStorage : ∀ k, m.mapNativeSmartContractUpdateStorage.lookup k
    = m'.mapNativeSmartContractUpdateStorage.lookup k
  eventLogs : m.eventLogs = m'.eventLogs

theorem Same.of_common {m a b : ExecuteSCResult} (ha : m.Same a) (hb : m.Same b) : a.Same b where
  transactionHash := ha.transactionHash.symm.trans hb.transactionHash
  mapAddBalance k := (ha.mapAddBalance k).symm.trans (hb.mapAddBalance k)
  mapSubBalance k := (ha.mapSubBalance k).symm.trans (hb.mapSubBalance k)
  mapCodeHash k := (ha.mapCodeHash k).symm.trans (hb.mapCodeHash k)
  mapStorageRoot k := (ha.mapStorageRoot k).symm.trans (hb.mapStorageRoot k)
  status := ha.status.symm.trans hb.status
  exception := ha.exception.symm.trans hb.exception
  returnData := ha.returnData.symm.trans hb.returnData
  gasUsed := ha.gasUsed.symm.trans hb.gasUsed
  mapStorageAddressTouchedAddresses k :=
    (ha.mapStorageAddressTouchedAddresses k).symm.trans (hb.mapStorageAddressTouchedAddresses k)
  mapStorageAddress k := (ha.mapStorageAddress k).symm.trans (hb.mapStorageAddress k)
  mapCreatorPubkey k := (ha.mapCreatorPubkey k).symm.trans (hb.mapCreatorPubkey k)
  mapNativeSmartContractUpdateStorage k :=
    (ha.mapNativeSmartContractUpdateStorage k).symm.trans (hb.mapNativeSmartContractUpdateStorage k)
  eventLogs := ha.eventLogs.symm.trans hb.eventLogs

theorem mem_keys_congr {V : Type} {m m' : AList fun _ : Bytes => V}
    (h : ∀ k, m.lookup k = m'.lookup k) (k : Bytes) : k ∈ m.keys ↔ k ∈ m'.keys := by
  rw [← AList.mem_keys, ← AList.mem_keys, ← AList.lookup_isSome, ← AList.lookup_isSome, h]

/-- **The bytes do not depend on the order in which maps list their entries.** -/
theorem Same.marshal_eq {m m' : ExecuteSCResult} (h : m.Same m') : m.marshal E = m'.marshal E := by
  have hkeys : ∀ k, k ∈ m.mapKeys ↔ k ∈ m'.mapKeys := by
    intro k
    simp only [mapKeys, List.mem_append, mem_keys_congr h.mapAddBalance,
      mem_keys_congr h.mapSubBalance, mem_keys_congr h.mapCodeHash,
      mem_keys_congr h.mapStorageRoot, mem_keys_congr h.mapStorageAddressTouchedAddresses,
      mem_keys_congr h.mapStorageAddress, mem_keys_congr h.mapCreatorPubkey,
      mem_keys_congr h.mapNativeSmartContractUpdateStorage]
  have hentries : m.entries E = m'.entries E := by
    rw [entries, entries, h.transactionHash, writeSorted_congr _ _ h.mapAddBalance,
      writeSorted_congr _ _ h.mapSubBalance, writeSorted_congr _ _ h.mapCodeHash,
      writeSorted_congr _ _ h.mapStorageRoot, h.status, h.exception, h.returnData, h.gasUsed,
      writeSorted_congr _ _ h.mapStorageAddressTouchedAddresses,
      writeSorted_congr _ _ h.mapStorageAddress,
      writeSorted_congr _ _ h.mapCreatorPubkey,
      writeSorted_congr _ _ h.mapNativeSmartContractUpdateStorage, h.eventLogs]
  simp only [marshal, hkeys, hentries]

theorem valid_entries : ∀ e ∈ m.entries E, ValidEntry e := by
  simp [entries]

theorem nodup_entries : ((m.entries E).map Prod.fst).Nodup := by
  simp [entries]

/-- **Every field is read back.** -/
theorem parse_entries {m : ExecuteSCResult} (h : ∀ k ∈ m.mapKeys, validUtf8 k) :
    ∃ m', parse E (fieldsOf (m.entries E)) = some m' ∧ m'.Same m := by
  have hnd := nodup_entries E m
  set fs := fieldsOf (m.entries E) with hfs
  have hbytes : ∀ {num b}, _ → getBytes num fs = b := getBytes_fieldsOf hnd
  have henum : ∀ {num x}, _ → toInt32 (getVarint num fs) = x :=
    getInt32_fieldsOf hnd
  have hgas : UInt64.ofNat (getVarint 11 fs) = m.gasUsed :=
    getUint64_fieldsOf hnd (by simp [entries])
  have hmap : ∀ {V : Type} (enc : V → Bytes) (dec : Bytes → Option V) (num : ℕ)
      (map : AList fun _ : Bytes => V),
      (num, .repeated (writeSorted E.wire enc map)) ∈ m.entries E ∧
        (∀ k ∈ map.keys, k ∈ m.mapKeys) → (∀ v, dec (enc v) = some v) →
      ∃ map', readEntries E.wire dec (getRepeated num fs) = some map' ∧
        ∀ k, map'.lookup k = map.lookup k := by
    rintro V enc dec num map ⟨hmem, hkeys⟩ hdec
    rw [getRepeated_fieldsOf hnd hmem]
    exact readEntries_writeSorted E.wire enc dec (fun k hk => h k (hkeys k hk)) hdec
  have hlogs := mapM_getRepeated_fieldsOf 16 m.eventLogs (EventLog.unmarshal_marshal E) hnd
    (by simp [entries])
  obtain ⟨add, hadd, hadd'⟩ := hmap id some 2 m.mapAddBalance
    (by simp +contextual [entries, mapKeys]) fun _ => rfl
  obtain ⟨sub, hsub, hsub'⟩ := hmap id some 3 m.mapSubBalance
    (by simp +contextual [entries, mapKeys]) fun _ => rfl
  obtain ⟨code, hcode, hcode'⟩ := hmap id some 4 m.mapCodeHash
    (by simp +contextual [entries, mapKeys]) fun _ => rfl
  obtain ⟨root, hroot, hroot'⟩ := hmap id some 5 m.mapStorageRoot
    (by simp +contextual [entries, mapKeys]) fun _ => rfl
  obtain ⟨touched, htouched, htouched'⟩ := hmap (TouchedAddresses.marshal E)
    (TouchedAddresses.unmarshal E) 12 m.mapStorageAddressTouchedAddresses
    (by simp +contextual [entries, mapKeys]) (TouchedAddresses.unmarshal_marshal E)
  obtain ⟨addr, haddr, haddr'⟩ := hmap id some 13 m.mapStorageAddress
    (by simp +contextual [entries, mapKeys]) fun _ => rfl
  obtain ⟨pub, hpub, hpub'⟩ := hmap id some 14 m.mapCreatorPubkey
    (by simp +contextual [entries, mapKeys]) fun _ => rfl
  obtain ⟨native, hnative, hnative'⟩ := hmap (StorageDatas.marshal E)
    (StorageDatas.unmarshal E) 15 m.mapNativeSmartContractUpdateStorage
    (by simp +contextual [entries, mapKeys]) (StorageDatas.unmarshal_marshal E)
  refine ⟨ofFields fs add sub code root touched addr pub native m.eventLogs, ?_, ?_⟩
  · rw [parse, hadd, hsub, hcode, hroot, htouched, haddr, hpub, hnative, hlogs]
    rfl
  · refine ⟨hbytes ?_, hadd', hsub', hcode', hroot', henum ?_, henum ?_, hbytes ?_, hgas, htouched',
      haddr', hpub', hnative', rfl⟩
    all_goals simp [entries]

end ExecuteSCResult

end MetaNode.Pb
