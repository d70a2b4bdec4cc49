/-
A list of results (`pkg/smart_contract/execute_sc_results.go`).

`FromProto` appends the results of the message to those that the receiver has, and each of
them loses its storage addresses where it has no public keys of creators
(`ExecuteSCResult.fromProto`).
-/
import MetaNode.ExecuteSCResultsHash

namespace MetaNode

open Wire

namespace Pb

/-- Message `ExecuteSCResults` -/
structure ExecuteSCResults where
  results : List ExecuteSCResult
  groupId : UInt64
  blockNumber : UInt64

namespace ExecuteSCResults

variable (E : Env) (m : ExecuteSCResults)

/-- The records of a message, with the encodings of its results. -/
def entries (data : List Bytes) : List (ℕ × Content) :=
  [(1, .repeated data), (2, .varint m.groupId.toNat), (3, .varint m.blockNumber.toNat)]

/-- `proto.Marshal` with `Deterministic` -/
def marshal (m : ExecuteSCResults) : Option Bytes := do
  let data ← m.results.mapM (ExecuteSCResult.marshal E)
  pure (E.wire.encode (fieldsOf (m.entries data)))

/-- `proto.Unmarshal` -/
def unmarshal (b : Bytes) : Option ExecuteSCResults := do
  let fs ← E.wire.decode b
  let results ← (getRepeated 1 fs).mapM (ExecuteSCResult.unmarshal E)
  pure ⟨results, UInt64.ofNat (getVarint 2 fs), UInt64.ofNat (getVarint 3 fs)⟩

theorem valid_entries (data : List Bytes) : ∀ e ∈ m.entries data, ValidEntry e := by
  simp [entries]

theorem unmarshal_encode {data : List Bytes} {results : List ExecuteSCResult}
    (hdata : data.mapM (ExecuteSCResult.unmarshal E) = some results) :
    unmarshal E (E.wire.encode (fieldsOf (m.entries data)))
      = some ⟨results, m.groupId, m.blockNumber⟩ := by
  have hnd : ((m.entries data).map Prod.fst).Nodup := by
    simp [entries]
  have hresults : getRepeated 1 (fieldsOf (m.entries data)) = data :=
    getRepeated_fieldsOf hnd (by simp [entries])
  have hgroup : getVarint 2 (fieldsOf (m.entries data)) = m.groupId.toNat :=
    getVarint_fieldsOf hnd (by simp [entries])
  have hblock : getVarint 3 (fieldsOf (m.entries data)) = m.blockNumber.toNat :=
    getVarint_fieldsOf hnd (by simp [entries])
  rw [unmarshal, E.wire.decode_fieldsOf (valid_entries m data)]
  simp [hresults, hdata, hgroup, hblock]

end ExecuteSCResults

end Pb

structure ExecuteSCResults where
  results : List ExecuteSCResult
  groupId : UInt64
  blockNumber : UInt64

namespace ExecuteSCResults

variable (E : Env) (er : ExecuteSCResults)

def proto : Pb.ExecuteSCResults where
  results := er.results.map (ExecuteSCResult.proto E)
  groupId := er.groupId
  blockNumber := er.blockNumber

/-- `FromProto`; each result has its own orders of walking maps. -/
def fromProto (walks : ℕ → ExecuteSCResult.Walks) (pbData : Pb.ExecuteSCResults) :
    ExecuteSCResults where
  results := er.results ++
    pbData.results.mapIdx fun i v => ExecuteSCResult.fresh.fromProto (walks i) v
  groupId := pbData.groupId
  blockNumber := pbData.blockNumber

def marshal : Option Bytes := (er.proto E).marshal E

def unmarshal (walks : ℕ → ExecuteSCResult.Walks) (b : Bytes) : Option ExecuteSCResults :=
  (Pb.ExecuteSCResults.unmarshal E b).map (er.fromProto walks)

end ExecuteSCResults

/-! ### One result -/

namespace ExecuteSCResult

variable {E : Env} {r r' : ExecuteSCResult}

def KeepsEncoding (r : ExecuteSCResult) : Prop :=
  r.mapStorageAddress = ∅ ∨ r.mapCreatorPubkey ≠ ∅

theorem SameCarried.marshal_eq (h : SameCarried r r')
    (haddr : ∀ k, r.mapStorageAddress.lookup k = r'.mapStorageAddress.lookup k) :
    r.marshal E = r'.marshal E := by
  have hproto : (r.proto E).Same (r'.proto E) := {
    transactionHash := congrArg Subtype.val h.transactionHash
    mapAddBalance := h.mapAddBalance
    mapSubBalance := h.mapSubBalance
    mapCodeHash := h.mapCodeHash
    mapStorageRoot := h.mapStorageRoot
    status := h.status
    exception := h.exception
    returnData := h.returnData
    gasUsed := h.gasUsed
    mapStorageAddressTouchedAddresses := GoMap.lookup_rebuild_congr hexEncode_val_injective _ _ _
      h.mapStorageAddressTouchedAddresses
    mapStorageAddress := GoMap.lookup_rebuild_congr Function.injective_id _ _ _ haddr
    mapCreatorPubkey := h.mapCreatorPubkey
    mapNativeSmartContractUpdateStorage :=
      GoMap.lookup_rebuild_congr E.addressHex_injective _ _ _
        h.mapNativeSmartContractUpdateStorage
    eventLogs := h.eventLogs }
  exact Pb.ExecuteSCResult.Same.marshal_eq E hproto

theorem lookup_proto_storage (k : Bytes) :
    (r.proto E).mapStorageAddress.lookup k = (r.mapStorageAddress.lookup k).map Subtype.val := by
  ext b
  show (GoMap.rebuild Walk.id id Subtype.val r.mapStorageAddress).lookup k = some b ↔ _
  rw [GoMap.lookup_rebuild_eq_some Walk.id _ fun k _ k' _ heq => Function.injective_id heq,
    Option.map_eq_some_iff]
  constructor
  · rintro ⟨k, a, ha, rfl, rfl⟩
    exact ⟨a, ha, rfl⟩
  · rintro ⟨a, ha, rfl⟩
    exact ⟨k, a, ha, rfl, rfl⟩

theorem validUtf8_stringKeys (h : ∀ k ∈ (r.proto E).mapKeys, validUtf8 k) :
    ∀ k ∈ r.stringKeys, validUtf8 k := by
  have hstorage : ∀ k ∈ r.mapStorageAddress.keys, k ∈ (r.proto E).mapStorageAddress.keys := by
    intro k hk
    rw [← AList.mem_keys, ← AList.lookup_isSome] at hk ⊢
    rw [lookup_proto_storage, Option.isSome_map]
    exact hk
  intro k hk
  apply h
  simp only [stringKeys, List.mem_append] at hk
  simp only [Pb.ExecuteSCResult.mapKeys, List.mem_append]
  obtain ((((hadd | hsub) | hcode) | hroot) | haddr) | hpub := hk
  · exact .inl (.inl (.inl (.inl (.inl (.inl (.inl hadd))))))
  · exact .inl (.inl (.inl (.inl (.inl (.inl (.inr hsub))))))
  · exact .inl (.inl (.inl (.inl (.inl (.inr hcode)))))
  · exact .inl (.inl (.inl (.inl (.inr hroot))))
  · exact .inl (.inl (.inr (hstorage k haddr)))
  · exact .inl (.inr hpub)

theorem of_marshal {b : Bytes} (h : r.marshal E = some b) :
    (∀ k ∈ r.stringKeys, validUtf8 k) ∧ b = E.wire.encode (r.fields E) := by
  rw [marshal, Pb.ExecuteSCResult.marshal] at h
  split at h
  · next hkeys => exact ⟨validUtf8_stringKeys hkeys, (Option.some.inj h).symm⟩
  · cases h

theorem storage_of_marshal {b : Bytes} (h : r.marshal E = some b) (h' : r'.marshal E = some b)
    (k : Bytes) : r.mapStorageAddress.lookup k = r'.mapStorageAddress.lookup k := by
  obtain ⟨hkeys, rfl⟩ := of_marshal h
  obtain ⟨hkeys', hb⟩ := of_marshal h'
  have hfields : r.fields E = r'.fields E := by
    have hdecode : ∀ r : ExecuteSCResult, E.wire.decode (E.wire.encode (r.fields E))
        = some (r.fields E) := fun r =>
      E.wire.decode_fieldsOf (Pb.ExecuteSCResult.valid_entries E (r.proto E))
    have hsome := hdecode r
    rw [hb, hdecode r'] at hsome
    exact (Option.some.inj hsome).symm
  have hlook := (proto_same_of_fields hkeys hkeys' hfields).mapStorageAddress k
  rw [lookup_proto_storage, lookup_proto_storage] at hlook
  exact Option.map_injective Subtype.val_injective hlook

/-- **A result comes back with its encoding exactly if it has no storage addresses, or
has public keys.** -/
theorem remarshal_iff {b : Bytes} (h : r.marshal E = some b) :
    ∃ m, Pb.ExecuteSCResult.unmarshal E b = some m ∧
      ∀ walks, (fresh.fromProto walks m).marshal E = r.marshal E ↔ r.KeepsEncoding := by
  have hkeys := (of_marshal h).1
  have hback : ∀ walks, ∃ m, Pb.ExecuteSCResult.unmarshal E b = some m ∧
      ((fresh.fromProto walks m).marshal E = r.marshal E ↔ r.KeepsEncoding) := by
    intro walks
    obtain ⟨b', r', hb', hr', hcarried, -, -, haddr, hnone⟩ :=
      unmarshal_marshal (E := E) hkeys walks
    rw [h, Option.some.injEq] at hb'
    subst hb'
    obtain ⟨m, hm, rfl⟩ := Option.map_eq_some_iff.mp hr'
    refine ⟨m, hm, ?_⟩
    by_cases hpub : r.mapCreatorPubkey = ∅
    · rw [KeepsEncoding, or_iff_left (not_not.mpr hpub)]
      constructor
      · intro heq
        rw [GoMap.eq_empty_iff]
        intro k
        rw [storage_of_marshal h (heq.trans h) k, hnone hpub, AList.lookup_empty]
      · intro hempty
        refine hcarried.marshal_eq fun k => ?_
        rw [hnone hpub, hempty]
    · rw [KeepsEncoding, iff_true_intro (Or.inr hpub), iff_true]
      exact hcarried.marshal_eq (haddr hpub)
  obtain ⟨m, hm, -⟩ := hback ⟨Walk.id, Walk.id⟩
  refine ⟨m, hm, fun walks => ?_⟩
  obtain ⟨m', hm', hiff⟩ := hback walks
  rw [hm, Option.some.injEq] at hm'
  subst hm'
  exact hiff

end ExecuteSCResult

/-! ### A list of them -/

namespace ExecuteSCResults

variable {E : Env}

/-- The encodings of results are read, each to a message that keeps the encoding if the
result does. -/
theorem exists_messages {rs : List ExecuteSCResult} {data : List Bytes}
    (h : (rs.map (ExecuteSCResult.proto E)).mapM (Pb.ExecuteSCResult.marshal E) = some data) :
    ∃ ms, data.mapM (Pb.ExecuteSCResult.unmarshal E) = some ms ∧
      List.Forall₂ (fun m r => ∀ walks,
        (ExecuteSCResult.fresh.fromProto walks m).marshal E = r.marshal E ↔
          r.KeepsEncoding) ms rs := by
  induction rs generalizing data with
  | nil =>
    obtain rfl : data = [] := by simpa using h.symm
    exact ⟨[], rfl, .nil⟩
  | cons r rs ih =>
    rw [List.map_cons, List.mapM_cons] at h
    obtain ⟨b, hb, h⟩ := Option.bind_eq_some_iff.mp h
    obtain ⟨bs, hbs, h⟩ := Option.bind_eq_some_iff.mp h
    obtain rfl : b :: bs = data := Option.some.inj h
    obtain ⟨m, hm, hiff⟩ := ExecuteSCResult.remarshal_iff hb
    obtain ⟨ms, hms, hall⟩ := ih hbs
    refine ⟨m :: ms, ?_, .cons hiff hall⟩
    rw [List.mapM_cons, hm, hms]
    rfl

theorem map_marshal_iff {ms : List Pb.ExecuteSCResult} {rs : List ExecuteSCResult}
    (h : List.Forall₂ (fun m r => ∀ walks,
      (ExecuteSCResult.fresh.fromProto walks m).marshal E = r.marshal E ↔ r.KeepsEncoding) ms rs)
    (walks : ℕ → ExecuteSCResult.Walks) :
    (ms.mapIdx fun i m =>
        ExecuteSCResult.fresh.fromProto (walks i) m).map (ExecuteSCResult.marshal E)
        = rs.map (ExecuteSCResult.marshal E) ↔
      ∀ r ∈ rs, r.KeepsEncoding := by
  induction h generalizing walks with
  | nil => simp
  | cons hhead _ ih =>
    rw [List.mapIdx_cons, List.map_cons, List.map_cons, List.cons.injEq, hhead,
      ih fun i => walks (i + 1), List.forall_mem_cons]

theorem unmarshal_eq_append {v : ExecuteSCResults} {b : Bytes} (h : v.marshal E = some b)
    (er : ExecuteSCResults) (walks : ℕ → ExecuteSCResult.Walks) :
    ∃ rs, er.unmarshal E walks b = some ⟨er.results ++ rs, v.groupId, v.blockNumber⟩ ∧
      rs.length = v.results.length ∧
      (rs.map (ExecuteSCResult.marshal E) = v.results.map (ExecuteSCResult.marshal E) ↔
        ∀ r ∈ v.results, r.KeepsEncoding) := by
  obtain ⟨data, hdata, hb⟩ := Option.bind_eq_some_iff.mp h
  obtain rfl := Option.some.inj hb
  obtain ⟨ms, hms, hall⟩ := exists_messages hdata
  refine ⟨_, ?_, ?_, map_marshal_iff hall walks⟩
  · rw [unmarshal, Pb.ExecuteSCResults.unmarshal_encode E _ hms]
    rfl
  · rw [List.length_mapIdx, hall.length_eq]

/-- **What a receiver has after a list was sent to it**: the numbers of the list, and its
results exactly if the receiver had none and every result keeps its encoding. -/
theorem unmarshal_marshal_results_iff (E : Env) (walks : ℕ → ExecuteSCResult.Walks)
    (er v : ExecuteSCResults) (b : Bytes) (h : v.marshal E = some b) :
    ∃ er', er.unmarshal E walks b = some er' ∧
      er'.groupId = v.groupId ∧ er'.blockNumber = v.blockNumber ∧
      (er'.results.map (ExecuteSCResult.marshal E) = v.results.map (ExecuteSCResult.marshal E) ↔
        er.results = [] ∧ ∀ r ∈ v.results, r.mapStorageAddress = ∅ ∨ r.mapCreatorPubkey ≠ ∅) := by
  obtain ⟨rs, her, hlen, hiff⟩ := unmarshal_eq_append h er walks
  refine ⟨_, her, rfl, rfl, ?_⟩
  show (er.results ++ rs).map (ExecuteSCResult.marshal E) = _ ↔ _
  constructor
  · intro heq
    -- the lists have the same length only if the receiver had no results
    have hsize := congrArg List.length heq
    rw [List.length_map, List.length_append, List.length_map, hlen, Nat.add_eq_right,
      List.length_eq_zero_iff] at hsize
    rw [hsize, List.nil_append] at heq
    exact ⟨hsize, hiff.mp heq⟩
  · rintro ⟨hnil, hkeep⟩
    rw [hnil, List.nil_append]
    exact hiff.mpr hkeep

theorem exists_marshal {v : ExecuteSCResults}
    (h : ∀ r ∈ v.results, ∀ k ∈ r.stringKeys, validUtf8 k) : ∃ b, v.marshal E = some b := by
  have hdata : (v.results.map (ExecuteSCResult.proto E)).mapM (Pb.ExecuteSCResult.marshal E)
      = some (v.results.map fun r => E.wire.encode (r.fields E)) := by
    rw [List.mapM_map]
    exact ExecuteSCResult.mapM_marshal h
  exact ⟨_, Option.bind_eq_some_iff.mpr ⟨_, hdata, rfl⟩⟩

def sampleResults : ExecuteSCResults := ⟨[ExecuteSCResult.fresh], 0, 1⟩

theorem text_sampleResults : ∀ r ∈ sampleResults.results, ∀ k ∈ r.stringKeys, validUtf8 k :=
  List.forall_mem_singleton.mpr (List.forall_mem_nil _)

theorem unmarshal_marshal_results_sample :
    ∃ b er', sampleResults.marshal stdEnv = some b ∧
      (⟨[], 5, 6⟩ : ExecuteSCResults).unmarshal stdEnv (fun _ => ⟨Walk.id, Walk.id⟩) b = some er' ∧
      er'.results.map (ExecuteSCResult.marshal stdEnv)
        = sampleResults.results.map (ExecuteSCResult.marshal stdEnv) := by
  obtain ⟨b, hb⟩ := exists_marshal (E := stdEnv) text_sampleResults
  obtain ⟨er', her', -, -, hiff⟩ := unmarshal_marshal_results_iff stdEnv
    (fun _ => ⟨Walk.id, Walk.id⟩) ⟨[], 5, 6⟩ sampleResults b hb
  refine ⟨b, er', hb, her', hiff.mpr ⟨rfl, ?_⟩⟩
  exact List.forall_mem_singleton.mpr (.inl rfl)

/-- A receiver that is used again has two results where one was sent. -/
theorem unmarshal_keeps_earlier :
    ∃ b er', sampleResults.marshal stdEnv = some b ∧
      sampleResults.unmarshal stdEnv (fun _ => ⟨Walk.id, Walk.id⟩) b = some er' ∧
      er'.results.length = 2 ∧ sampleResults.results.length = 1 := by
  obtain ⟨b, hb⟩ := exists_marshal (E := stdEnv) text_sampleResults
  obtain ⟨rs, her, hlen, -⟩ := unmarshal_eq_append hb sampleResults fun _ => ⟨Walk.id, Walk.id⟩
  refine ⟨b, _, hb, her, ?_, rfl⟩
  rw [List.length_append, hlen]
  rfl

end ExecuteSCResults

end MetaNode
