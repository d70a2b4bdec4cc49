/-
The result of an executed call (`pkg/smart_contract/execute_sc_result.go`).

`Proto` and `FromProto` convert between the result and its message.  Neither of them
knows the logs hash and the nonces, and `FromProto` takes the storage addresses from
the message only if there are public keys of creators.
-/
import MetaNode.AddressHex
import MetaNode.PbSmartContract

namespace MetaNode

open Wire

structure ExecuteSCResult where
  transactionHash : Hash
  status : ReceiptStatus
  exception : ReceiptException
  returnData : Bytes
  gasUsed : UInt64
  logsHash : Hash
  mapAddBalance : ByteMap
  mapSubBalance : ByteMap
  mapNonce : ByteMap
  mapStorageRoot : ByteMap
  mapCodeHash : ByteMap
  mapStorageAddress : AList fun _ : Bytes => Address
  mapCreatorPubkey : ByteMap
  mapStorageAddressTouchedAddresses : AList fun _ : Address => List Address
  mapNativeSmartContractUpdateStorage : AList fun _ : Address => List (Bytes × Bytes)
  eventLogs : List Pb.EventLog

namespace ExecuteSCResult

/-- `&ExecuteSCResult{}` -/
def fresh : ExecuteSCResult where
  transactionHash := FixedBytes.zero 32
  status := 0
  exception := 0
  returnData := []
  gasUsed := 0
  logsHash := FixedBytes.zero 32
  mapAddBalance := ∅
  mapSubBalance := ∅
  mapNonce := ∅
  mapStorageRoot := ∅
  mapCodeHash := ∅
  mapStorageAddress := ∅
  mapCreatorPubkey := ∅
  mapStorageAddressTouchedAddresses := ∅
  mapNativeSmartContractUpdateStorage := ∅
  eventLogs := []

/-- `NewErrorExecuteSCResult` -/
def newError (transactionHash : Hash) (status : ReceiptStatus) (exception : ReceiptException)
    (rt : Bytes) : ExecuteSCResult :=
  { fresh with transactionHash, status, exception, returnData := rt }

variable (E : Env) (r : ExecuteSCResult)

/-- `Proto`.  The keys of its maps stay apart, so that it does not matter in which
order the maps are walked. -/
def proto : Pb.ExecuteSCResult where
  transactionHash := r.transactionHash.1
  mapAddBalance := r.mapAddBalance
  mapSubBalance := r.mapSubBalance
  mapCodeHash := r.mapCodeHash
  mapStorageRoot := r.mapStorageRoot
  status := r.status
  exception := r.exception
  returnData := r.returnData
  gasUsed := r.gasUsed
  mapStorageAddressTouchedAddresses :=
    GoMap.rebuild Walk.id (fun k => hexEncode k.1) (fun v => ⟨v.map Subtype.val⟩)
      r.mapStorageAddressTouchedAddresses
  mapStorageAddress := GoMap.rebuild Walk.id id Subtype.val r.mapStorageAddress
  mapCreatorPubkey := r.mapCreatorPubkey
  mapNativeSmartContractUpdateStorage :=
    GoMap.rebuild Walk.id E.addressHex (fun v => ⟨v.map fun vv => ⟨vv.1, vv.2⟩⟩)
      r.mapNativeSmartContractUpdateStorage
  eventLogs := r.eventLogs

/-- The orders in which `FromProto` walks the maps whose keys it changes. -/
structure Walks where
  touched : Walk (Sigma fun _ : Bytes => Pb.TouchedAddresses)
  native : Walk (Sigma fun _ : Bytes => Pb.StorageDatas)

def fromProto (walks : Walks) (pbData : Pb.ExecuteSCResult) : ExecuteSCResult where
  transactionHash := bytesToHash pbData.transactionHash
  status := pbData.status
  exception := pbData.exception
  returnData := pbData.returnData
  gasUsed := pbData.gasUsed
  logsHash := r.logsHash
  mapAddBalance := pbData.mapAddBalance
  mapSubBalance := pbData.mapSubBalance
  mapNonce := r.mapNonce
  mapStorageRoot := pbData.mapStorageRoot
  mapCodeHash := pbData.mapCodeHash
  -- both maps are taken only if there are public keys
  mapStorageAddress :=
    if 0 < pbData.mapCreatorPubkey.keys.length then
      GoMap.rebuild Walk.id id bytesToAddress pbData.mapStorageAddress
    else r.mapStorageAddress
  mapCreatorPubkey :=
    if 0 < pbData.mapCreatorPubkey.keys.length then pbData.mapCreatorPubkey else r.mapCreatorPubkey
  mapStorageAddressTouchedAddresses :=
    GoMap.rebuild walks.touched hexToAddress (fun v => v.addresses.map bytesToAddress)
      pbData.mapStorageAddressTouchedAddresses
  mapNativeSmartContractUpdateStorage :=
    GoMap.rebuild walks.native hexToAddress (fun v => v.datas.map fun vv => (vv.key, vv.value))
      pbData.mapNativeSmartContractUpdateStorage
  eventLogs := pbData.eventLogs

def marshal : Option Bytes := (r.proto E).marshal E

def unmarshal (walks : Walks) (b : Bytes) : Option ExecuteSCResult :=
  (Pb.ExecuteSCResult.unmarshal E b).map (r.fromProto walks)

/-- The keys of the maps that the message takes as they are. -/
def stringKeys : List Bytes :=
  r.mapAddBalance.keys ++ r.mapSubBalance.keys ++ r.mapCodeHash.keys ++ r.mapStorageRoot.keys ++
    r.mapStorageAddress.keys ++ r.mapCreatorPubkey.keys

/-! ### Comparing results -/

/-- The parts of a result that every message carries. -/
structure SameCarried (r r' : ExecuteSCResult) : Prop where
  transactionHash : r.transactionHash = r'.transactionHash
  status : r.status = r'.status
  exception : r.exception = r'.exception
  returnData : r.returnData = r'.returnData
  gasUsed : r.gasUsed = r'.gasUsed
  mapAddBalance : r.mapAddBalance.Same r'.mapAddBalance
  mapSubBalance : r.mapSubBalance.Same r'.mapSubBalance
  mapStorageRoot : r.mapStorageRoot.Same r'.mapStorageRoot
  mapCodeHash : r.mapCodeHash.Same r'.mapCodeHash
  mapCreatorPubkey : r.mapCreatorPubkey.Same r'.mapCreatorPubkey
  mapStorageAddressTouchedAddresses : ∀ k, r.mapStorageAddressTouchedAddresses.lookup k
    = r'.mapStorageAddressTouchedAddresses.lookup k
  mapNativeSmartContractUpdateStorage : ∀ k, r.mapNativeSmartContractUpdateStorage.lookup k
    = r'.mapNativeSmartContractUpdateStorage.lookup k
  eventLogs : r.eventLogs = r'.eventLogs

/-- The same result, up to the order in which maps list their entries. -/
structure Same (r r' : ExecuteSCResult) : Prop extends SameCarried r r' where
  logsHash : r.logsHash = r'.logsHash
  mapNonce : r.mapNonce.Same r'.mapNonce
  mapStorageAddress : ∀ k, r.mapStorageAddress.lookup k = r'.mapStorageAddress.lookup k

end ExecuteSCResult

/-! ### What comes back -/

namespace ExecuteSCResult

variable {E : Env} {r : ExecuteSCResult}

theorem hexEncode_val_injective : Function.Injective fun k : Address => hexEncode k.1 :=
  hexEncode_injective.comp Subtype.val_injective

theorem validUtf8_mapKeys (h : ∀ k ∈ r.stringKeys, validUtf8 k) :
    ∀ k ∈ (r.proto E).mapKeys, validUtf8 k := by
  have hrebuild : ∀ {κ α β : Type} [DecidableEq κ] {f : κ → Bytes} (g : α → β)
      (m : AList fun _ : κ => α), Function.Injective f → (∀ k ∈ m.keys, validUtf8 (f k)) →
      ∀ k ∈ (GoMap.rebuild Walk.id f g m).keys, validUtf8 k := by
    intro κ α β _ f g m hf hkeys k hk
    obtain ⟨b, hb⟩ := Option.isSome_iff_exists.mp (AList.lookup_isSome.mpr (AList.mem_keys.mpr hk))
    obtain ⟨k', a, hlook, rfl, -⟩ :=
      (GoMap.lookup_rebuild_eq_some Walk.id g fun k _ k' _ heq => hf heq).mp hb
    exact hkeys k' (AList.mem_keys.mp (AList.lookup_isSome.mp (by rw [hlook]; rfl)))
  simp only [stringKeys, List.forall_mem_append] at h
  obtain ⟨⟨⟨⟨⟨hadd, hsub⟩, hcode⟩, hroot⟩, haddr⟩, hpub⟩ := h
  simp only [Pb.ExecuteSCResult.mapKeys, List.forall_mem_append]
  refine ⟨⟨⟨⟨⟨⟨⟨hadd, hsub⟩, hcode⟩, hroot⟩, ?_⟩, ?_⟩, hpub⟩, ?_⟩
  · exact hrebuild _ _ hexEncode_val_injective fun k _ =>
      validUtf8_of_ascii (ascii_hexEncode k.1)
  · exact hrebuild _ _ Function.injective_id haddr
  · exact hrebuild _ _ E.addressHex_injective fun k _ => validUtf8_of_ascii (E.addressHex_ascii k)

theorem length_keys_pos_iff {κ α : Type} [DecidableEq κ] {m : AList fun _ : κ => α} :
    0 < m.keys.length ↔ m ≠ ∅ := by
  rw [List.length_pos_iff, not_iff_not, AList.keys, List.keys, List.map_eq_nil_iff]
  exact ⟨fun h => AList.ext h, fun h => by rw [h]; rfl⟩

theorem eq_empty_of_same {m m' : ByteMap} (h : m.Same m') : m = ∅ ↔ m' = ∅ := by
  rw [GoMap.eq_empty_iff, GoMap.eq_empty_iff]
  exact forall_congr' fun k => by rw [h k]

/-- **What comes back of a result**: everything that the message carries, the storage
addresses if there are public keys, and neither the logs hash nor the nonces. -/
theorem unmarshal_marshal (h : ∀ k ∈ r.stringKeys, validUtf8 k) (walks : Walks) :
    ∃ b r', r.marshal E = some b ∧ fresh.unmarshal E walks b = some r' ∧ SameCarried r' r ∧
      r'.logsHash = FixedBytes.zero 32 ∧ r'.mapNonce = ∅ ∧
      (r.mapCreatorPubkey ≠ ∅ → ∀ k, r'.mapStorageAddress.lookup k = r.mapStorageAddress.lookup k) ∧
      (r.mapCreatorPubkey = ∅ → r'.mapStorageAddress = ∅) := by
  have hkeys := validUtf8_mapKeys (E := E) h
  obtain ⟨m, hparse, hm⟩ := Pb.ExecuteSCResult.parse_entries E hkeys
  have hdecode := E.wire.decode_encode _
    (valid_fieldsOf (Pb.ExecuteSCResult.valid_entries E (r.proto E)))
  have hpub : 0 < m.mapCreatorPubkey.keys.length ↔ r.mapCreatorPubkey ≠ ∅ := by
    rw [length_keys_pos_iff, Ne, eq_empty_of_same hm.mapCreatorPubkey]
    rfl
  have haddresses : ∀ v : List Address, (v.map Subtype.val).map bytesToAddress = v := by
    intro v
    rw [List.map_map]
    exact List.map_id'' FixedBytes.ofBytes_val v
  refine ⟨E.wire.encode (fieldsOf ((r.proto E).entries E)), fresh.fromProto walks m,
    if_pos hkeys, ?_, ?_, rfl, rfl, ?_, ?_⟩
  · simp [unmarshal, Pb.ExecuteSCResult.unmarshal, hdecode, hparse]
  · refine ⟨?_, hm.status, hm.exception, hm.returnData, hm.gasUsed, hm.mapAddBalance,
      hm.mapSubBalance, hm.mapStorageRoot, hm.mapCodeHash, ?_, ?_, ?_, hm.eventLogs⟩
    · show bytesToHash m.transactionHash = _
      rw [hm.transactionHash]
      exact bytesToHash_val r.transactionHash
    · intro k
      show (if 0 < m.mapCreatorPubkey.keys.length then m.mapCreatorPubkey else ∅).lookup k = _
      split
      · exact hm.mapCreatorPubkey k
      · rename_i hlen
        rw [hpub, not_not] at hlen
        rw [hlen]
    · refine GoMap.lookup_rebuild_rebuild hexToAddress_hexEncode ?_ Walk.id walks.touched
        hm.mapStorageAddressTouchedAddresses
      exact haddresses
    · exact GoMap.lookup_rebuild_rebuild E.hexToAddress_addressHex
        (fun v => by simp [Function.comp_def]) Walk.id walks.native
        hm.mapNativeSmartContractUpdateStorage
  · intro hne
    show ∀ k, (if 0 < m.mapCreatorPubkey.keys.length then
      GoMap.rebuild Walk.id id bytesToAddress m.mapStorageAddress else ∅).lookup k = _
    rw [if_pos (hpub.mpr hne)]
    exact GoMap.lookup_rebuild_rebuild (fun _ => rfl) FixedBytes.ofBytes_val Walk.id Walk.id
      hm.mapStorageAddress
  · intro hempty
    exact if_neg fun hlen => hpub.mp hlen hempty

/-- **All of a result comes back exactly if it has no logs hash, no nonces, and no
storage addresses without public keys.** -/
theorem unmarshal_marshal_iff (h : ∀ k ∈ r.stringKeys, validUtf8 k) (walks : Walks) :
    ∃ b r', r.marshal E = some b ∧ fresh.unmarshal E walks b = some r' ∧
      (Same r' r ↔ r.logsHash = FixedBytes.zero 32 ∧ r.mapNonce = ∅ ∧
        (r.mapStorageAddress = ∅ ∨ r.mapCreatorPubkey ≠ ∅)) := by
  obtain ⟨b, r', hb, hr', hcarried, hlogs, hnonce, haddr, hnone⟩ :=
    unmarshal_marshal (E := E) h walks
  refine ⟨b, r', hb, hr', ?_⟩
  constructor
  · intro hsame
    refine ⟨?_, ?_, ?_⟩
    · rw [← hsame.logsHash, hlogs]
    · exact (eq_empty_of_same hsame.mapNonce).mp hnonce
    · by_cases hpub : r.mapCreatorPubkey = ∅
      · left
        rw [GoMap.eq_empty_iff]
        intro k
        rw [← hsame.mapStorageAddress k, hnone hpub, AList.lookup_empty]
      · exact .inr hpub
  · rintro ⟨hlogs', hnonce', haddr'⟩
    refine ⟨hcarried, ?_, ?_, ?_⟩
    · rw [hlogs, hlogs']
    · rw [hnonce, hnonce']
      exact fun _ => rfl
    · by_cases hpub : r.mapCreatorPubkey = ∅
      · intro k
        rw [hnone hpub, haddr'.resolve_right (not_not.mpr hpub)]
      · exact haddr hpub

/-- The text of an address, as it is used for a key. -/
def sampleText : Bytes := hexEncode (List.replicate 20 1)

def sampleResult : ExecuteSCResult :=
  { fresh with gasUsed := 21000, mapNonce := AList.singleton sampleText [1] }

theorem unmarshal_marshal_iff_sample :
    (∀ k ∈ sampleResult.stringKeys, validUtf8 k) ∧
    ∃ b r', sampleResult.marshal stdEnv = some b ∧
      fresh.unmarshal stdEnv ⟨Walk.id, Walk.id⟩ b = some r' ∧
      (Same r' sampleResult ↔ sampleResult.logsHash = FixedBytes.zero 32 ∧
        sampleResult.mapNonce = ∅ ∧
        (sampleResult.mapStorageAddress = ∅ ∨ sampleResult.mapCreatorPubkey ≠ ∅)) :=
  ⟨List.forall_mem_nil _, unmarshal_marshal_iff (List.forall_mem_nil _) _⟩

theorem unmarshal_marshal_loses_nonce :
    ∃ b r', sampleResult.marshal stdEnv = some b ∧
      fresh.unmarshal stdEnv ⟨Walk.id, Walk.id⟩ b = some r' ∧
      r'.mapNonce.lookup sampleText = none ∧
      sampleResult.mapNonce.lookup sampleText = some [1] := by
  obtain ⟨b, r', hb, hr', -, -, hnonce, -⟩ :=
    unmarshal_marshal (E := stdEnv) (r := sampleResult) (List.forall_mem_nil _) ⟨Walk.id, Walk.id⟩
  exact ⟨b, r', hb, hr', by rw [hnonce]; rfl, by decide⟩

end ExecuteSCResult

end MetaNode
