/-
The hash of a list of results (`pkg/smart_contract/execute_sc_results.go`).

`HashExecuteSCResultsKeccak256` hashes the encodings of the results, one after the
other.  Every encoding starts with the transaction hash, which is never empty, so that
the encodings can be told apart (`proto_same_of_hash`); but a nonce is in none of
them.
-/
import MetaNode.ExecuteSCResult

namespace MetaNode

open Wire

variable (E : Env)

def hashExecuteSCResultsKeccak256 (results : List ExecuteSCResult) : Hash :=
  match results.mapM (ExecuteSCResult.marshal E) with
  | none => FixedBytes.zero 32
  | some data => E.keccak256 data.flatten

namespace ExecuteSCResult

def fields (r : ExecuteSCResult) : List Field := fieldsOf ((r.proto E).entries E)

/-- What of a result the other nodes have to agree on. -/
structure Agrees (r r' : ExecuteSCResult) : Prop where
  transactionHash : r.transactionHash = r'.transactionHash
  status : r.status = r'.status
  returnData : r.returnData = r'.returnData
  gasUsed : r.gasUsed = r'.gasUsed
  mapAddBalance : r.mapAddBalance.Same r'.mapAddBalance
  mapSubBalance : r.mapSubBalance.Same r'.mapSubBalance
  mapNonce : r.mapNonce.Same r'.mapNonce
  mapCodeHash : r.mapCodeHash.Same r'.mapCodeHash
  mapStorageRoot : r.mapStorageRoot.Same r'.mapStorageRoot

variable {E}

theorem startsWith_fields (r : ExecuteSCResult) : StartsWith 1 (r.fields E) := by
  refine startsWith_fieldsOf (b := r.transactionHash.1) ?_ ?_
  · intro hnil
    have hlen := r.transactionHash.2
    rw [hnil] at hlen
    cases hlen
  · have hnums : ((r.proto E).entries E).tail.map Prod.fst
        = [2, 3, 4, 5, 8, 9, 10, 11, 12, 13, 14, 15, 16] := rfl
    intro e he hone
    have hmem : e.1 ∈ ((r.proto E).entries E).tail.map Prod.fst := List.mem_map_of_mem he
    rw [hnums, hone] at hmem
    exact absurd hmem (by decide)

theorem mapM_marshal {rs : List ExecuteSCResult}
    (h : ∀ r ∈ rs, ∀ k ∈ r.stringKeys, validUtf8 k) :
    rs.mapM (marshal E) = some (rs.map fun r => E.wire.encode (r.fields E)) :=
  mapM_eq_some_map fun r hr => if_pos (validUtf8_mapKeys (h r hr))

theorem proto_same_of_fields {r r' : ExecuteSCResult}
    (h : ∀ k ∈ r.stringKeys, validUtf8 k) (h' : ∀ k ∈ r'.stringKeys, validUtf8 k)
    (heq : r.fields E = r'.fields E) : (r.proto E).Same (r'.proto E) := by
  obtain ⟨m, hm, hsame⟩ := Pb.ExecuteSCResult.parse_entries E (validUtf8_mapKeys (E := E) h)
  obtain ⟨m', hm', hsame'⟩ := Pb.ExecuteSCResult.parse_entries E (validUtf8_mapKeys (E := E) h')
  have hmm : m = m' := by
    rw [fields, fields] at heq
    rw [heq, hm'] at hm
    exact (Option.some.inj hm).symm
  subst hmm
  exact hsame.of_common hsame'

variable {rs rs' : List ExecuteSCResult}

theorem encode_fields_injective (hwire : E.wire.Concatenates)
    (heq : (rs.map fun r => E.wire.encode (r.fields E)).flatten
      = (rs'.map fun r => E.wire.encode (r.fields E)).flatten) :
    rs.map (fields E) = rs'.map (fields E) := by
  have hjoin : ∀ rs : List ExecuteSCResult, (rs.map fun r => E.wire.encode (r.fields E)).flatten
      = E.wire.encode (rs.map (fields E)).flatten := by
    intro rs
    rw [hwire.encode_flatten, List.map_map]
    rfl
  have hvalid : ∀ rs : List ExecuteSCResult, ∀ f ∈ (rs.map (fields E)).flatten, f.Valid := by
    intro rs f hf
    obtain ⟨fs, hfs, hf⟩ := List.mem_flatten.mp hf
    obtain ⟨r, -, rfl⟩ := List.mem_map.mp hfs
    exact valid_fieldsOf (Pb.ExecuteSCResult.valid_entries E (r.proto E)) f hf
  have hstart : ∀ rs : List ExecuteSCResult, ∀ fs ∈ rs.map (fields E), StartsWith 1 fs := by
    intro rs fs hfs
    obtain ⟨r, -, rfl⟩ := List.mem_map.mp hfs
    exact startsWith_fields r
  rw [hjoin, hjoin] at heq
  have hdecode := E.wire.decode_encode _ (hvalid rs)
  rw [heq, E.wire.decode_encode _ (hvalid rs')] at hdecode
  exact eq_of_flatten_eq (hstart rs) (hstart rs') (Option.some.inj hdecode).symm

theorem Agrees.of_proto {r r' : ExecuteSCResult} (h : (r.proto E).Same (r'.proto E))
    (hnonce : r.mapNonce.Same r'.mapNonce) : Agrees r r' :=
  ⟨Subtype.ext h.transactionHash, h.status, h.returnData, h.gasUsed, h.mapAddBalance,
    h.mapSubBalance, hnonce, h.mapCodeHash, h.mapStorageRoot⟩

theorem proto_same_of_map_fields (h : ∀ r ∈ rs, ∀ k ∈ r.stringKeys, validUtf8 k)
    (h' : ∀ r ∈ rs', ∀ k ∈ r.stringKeys, validUtf8 k)
    (hfields : rs.map (fields E) = rs'.map (fields E)) :
    List.Forall₂ (fun r r' => (r.proto E).Same (r'.proto E)) rs rs' := by
  induction rs generalizing rs' with
  | nil =>
    cases rs' with
    | nil => exact .nil
    | cons => cases hfields
  | cons r rs ih =>
    cases rs' with
    | nil => cases hfields
    | cons =>
      rw [List.forall_mem_cons] at h h'
      rw [List.map_cons, List.map_cons, List.cons.injEq] at hfields
      exact .cons (proto_same_of_fields h.1 h'.1 hfields.1) (ih h.2 h'.2 hfields.2)

/-- **Two lists with the same hash agree but for the nonces, and altogether exactly if
they agree on the nonces.** -/
theorem hash_agree_iff (hwire : E.wire.Concatenates) (h : ∀ r ∈ rs, ∀ k ∈ r.stringKeys, validUtf8 k)
    (h' : ∀ r ∈ rs', ∀ k ∈ r.stringKeys, validUtf8 k)
    (hK : ∀ data data', rs.mapM (marshal E) = some data → rs'.mapM (marshal E) = some data' →
      E.keccak256 data.flatten = E.keccak256 data'.flatten → data.flatten = data'.flatten)
    (heq : hashExecuteSCResultsKeccak256 E rs = hashExecuteSCResultsKeccak256 E rs') :
    rs.length = rs'.length ∧
    List.Forall₂ (fun r r' => Agrees { r with mapNonce := ∅ } { r' with mapNonce := ∅ }) rs rs' ∧
    (List.Forall₂ Agrees rs rs' ↔
      List.Forall₂ (fun r r' => r.mapNonce.Same r'.mapNonce) rs rs') := by
  have hdata := mapM_marshal (E := E) h
  have hdata' := mapM_marshal (E := E) h'
  rw [hashExecuteSCResultsKeccak256, hashExecuteSCResultsKeccak256, hdata, hdata'] at heq
  have hfields := encode_fields_injective hwire (hK _ _ hdata hdata' heq)
  have hsame := proto_same_of_map_fields h h' hfields
  refine ⟨hsame.length_eq, hsame.imp fun r r' hr => ?_, ?_, ?_⟩
  · -- the message does not depend on the nonces
    have hr' : ({ r with mapNonce := ∅ } : ExecuteSCResult).proto E |>.Same
        (({ r' with mapNonce := ∅ } : ExecuteSCResult).proto E) := hr
    exact Agrees.of_proto hr' fun _ => rfl
  · exact fun hagree => hagree.imp fun r r' hr => hr.mapNonce
  · intro hnonce
    clear h h' hK heq hdata hdata' hfields
    induction hsame with
    | nil => exact .nil
    | cons hr _ ih =>
      rw [List.forall₂_cons] at hnonce
      exact .cons (.of_proto hr hnonce.1) (ih hnonce.2)

/-- `sampleResult` without its nonce. -/
def sampleOther : ExecuteSCResult := { sampleResult with mapNonce := ∅ }

def samples : List ExecuteSCResult := [sampleResult, sampleOther]

theorem hash_agree_iff_samples :
    hashExecuteSCResultsKeccak256 stdEnv samples
      = hashExecuteSCResultsKeccak256 stdEnv samples.reverse ∧
    samples.length = samples.reverse.length ∧
    List.Forall₂ (fun r r' => Agrees { r with mapNonce := ∅ } { r' with mapNonce := ∅ })
      samples samples.reverse ∧
    (List.Forall₂ Agrees samples samples.reverse ↔
      List.Forall₂ (fun r r' => r.mapNonce.Same r'.mapNonce) samples samples.reverse) := by
  have hutf : ∀ r ∈ samples, ∀ k ∈ r.stringKeys, validUtf8 k :=
    List.forall_mem_cons.mpr
      ⟨List.forall_mem_nil _, List.forall_mem_singleton.mpr (List.forall_mem_nil _)⟩
  refine ⟨rfl, hash_agree_iff (E := stdEnv) leb_concatenates hutf
    (fun r hr => hutf r (List.mem_reverse.mp hr)) ?_ rfl⟩
  -- both lists have the same encoding
  intro data data' hdata hdata' _
  rw [Option.some.inj (hdata.symm.trans hdata')]

/-- Two results that differ in a nonce have the same hash. -/
theorem hash_ignores_nonce :
    hashExecuteSCResultsKeccak256 stdEnv [sampleResult]
      = hashExecuteSCResultsKeccak256 stdEnv [sampleOther] ∧
    sampleResult.mapNonce.lookup sampleText ≠ sampleOther.mapNonce.lookup sampleText :=
  ⟨rfl, by decide⟩

end ExecuteSCResult

end MetaNode
