/-
The messages of remote storage (`remote_storage.proto`, `pkg/storage/remote_storage_service.go`
and `remote_storage_client.go`).

A request names its operation twice: by `operation_type` and by the member of the `oneof`
that is set.  The two are read apart, either may be absent, and nothing compares them: the
service follows the type and takes the member of that operation, which is a nil pointer if
another one or none is set.  The client follows its own operation and takes the member of
the response.

`RemoteStorage` has the messages in which all of this agrees (`handleOperation_eq`,
`readDatabaseResponse_eq`).
-/
import MetaNode.Receipt
import MetaNode.RemoteStorage

namespace Wire

open MetaNode (Bytes)

/-- A string field: every record of it has to be UTF-8. -/
def getString (num : ℕ) (fs : List Field) : Option Bytes :=
  if (getRepeated num fs).all validUtf8 then some (getBytes num fs) else none

section Oneof

variable {κ α : Type} [DecidableEq κ]

/-- One more record of a `oneof`: the same member is merged, another one replaces it. -/
def addMember (F : Format) (member : ℕ → Option κ) (parse : κ → List Field → Option α)
    (current : Option (κ × List Field)) (f : Field) : Option (Option (κ × List Field)) :=
  match f.val, member f.num with
  | .bytes b, some k => do
    let fs ← F.decode b
    let _ ← parse k fs
    match current with
    | some (k', fs') => some (some (k, if k' = k then fs' ++ fs else fs))
    | none => some (some (k, fs))
  | _, _ => some current

/-- A `oneof` of messages, if one of its members is set. -/
def readOneof (F : Format) (member : ℕ → Option κ) (parse : κ → List Field → Option α)
    (fs : List Field) : Option (Option α) := do
  match ← fs.foldlM (addMember F member parse) none with
  | some (k, fs) => (parse k fs).map some
  | none => some none

end Oneof

end Wire

namespace MetaNode.RemoteStorage

open Wire

/-! ### Messages -/

/-- The operations, which are also the members of the two `oneof`s. -/
inductive OpKind where
  | get
  | put
  | delete
  | batchPut
  | batchDelete
  | getBackupPath
  deriving DecidableEq

/-- The number in `OperationType`. -/
def OpKind.operationType : OpKind → Int32
  | .get => 1
  | .put => 2
  | .delete => 3
  | .batchPut => 4
  | .batchDelete => 5
  | .getBackupPath => 6

def StorageOp.kind : StorageOp → OpKind
  | .get _ => .get
  | .put _ _ => .put
  | .delete _ => .delete
  | .batchPut _ => .batchPut
  | .batchDelete _ => .batchDelete
  | .getBackupPath => .getBackupPath

def ResponsePayload.kind : ResponsePayload → OpKind
  | .get _ _ => .get
  | .put _ => .put
  | .delete _ => .delete
  | .batchPut _ => .batchPut
  | .batchDelete _ => .batchDelete
  | .getBackupPath _ _ => .getBackupPath

/-- `pb.DatabaseOperationRequest`; any `int32` may stand for the type. -/
structure DatabaseOperationRequest where
  operationType : Int32
  requestId : Bytes
  payload : Option StorageOp

/-- `pb.DatabaseOperationResponse` -/
structure DatabaseOperationResponse where
  originalOperationType : Int32
  requestId : Bytes
  error : Bytes
  payload : Option ResponsePayload

def requestMember : ℕ → Option OpKind
  | 3 => some .get
  | 4 => some .put
  | 5 => some .delete
  | 6 => some .batchPut
  | 7 => some .batchDelete
  | 8 => some .getBackupPath
  | _ => none

def responseMember : ℕ → Option OpKind
  | 4 => some .get
  | 5 => some .put
  | 6 => some .delete
  | 7 => some .batchPut
  | 8 => some .batchDelete
  | 9 => some .getBackupPath
  | _ => none

variable (F : Format)

def parseOp (kind : OpKind) (fs : List Field) : Option StorageOp :=
  match kind with
  | .get => some (.get (getBytes 1 fs))
  | .put => some (.put (getBytes 1 fs) (getBytes 2 fs))
  | .delete => some (.delete (getBytes 1 fs))
  | .batchPut => do
    let kvs ← (getRepeated 1 fs).mapM F.decode
    some (.batchPut (kvs.map fun kv => (getBytes 1 kv, getBytes 2 kv)))
  | .batchDelete => some (.batchDelete (getRepeated 1 fs))
  | .getBackupPath => some .getBackupPath

def parsePayload (kind : OpKind) (fs : List Field) : Option ResponsePayload :=
  match kind with
  | .get => (getString 2 fs).map (.get (getBytes 1 fs))
  | .put => (getString 1 fs).map .put
  | .delete => (getString 1 fs).map .delete
  | .batchPut => (getString 1 fs).map .batchPut
  | .batchDelete => (getString 1 fs).map .batchDelete
  | .getBackupPath => do
    let path ← getString 1 fs
    let error ← getString 2 fs
    some (.getBackupPath path error)

/-- `proto.Unmarshal` of a request. -/
def DatabaseOperationRequest.unmarshal (body : Bytes) :
    Option DatabaseOperationRequest := do
  let fs ← F.decode body
  let requestId ← getString 2 fs
  let payload ← readOneof F requestMember (parseOp F) fs
  some ⟨toInt32 (getVarint 1 fs), requestId, payload⟩

/-- `proto.Unmarshal` of a response. -/
def DatabaseOperationResponse.unmarshal (body : Bytes) :
    Option DatabaseOperationResponse := do
  let fs ← F.decode body
  let requestId ← getString 2 fs
  let error ← getString 3 fs
  let payload ← readOneof F responseMember parsePayload fs
  some ⟨toInt32 (getVarint 1 fs), requestId, error, payload⟩

/-! ### The members of a payload -/

namespace DatabaseOperationRequest

variable (req : DatabaseOperationRequest)

/-- `GetGetRequest`: the key. -/
def getGetRequest : Option Bytes :=
  req.payload.bind fun
    | .get key => some key
    | _ => none

def getPutRequest : Option (Bytes × Bytes) :=
  req.payload.bind fun
    | .put key value => some (key, value)
    | _ => none

def getDeleteRequest : Option Bytes :=
  req.payload.bind fun
    | .delete key => some key
    | _ => none

def getBatchPutRequest : Option (List (Bytes × Bytes)) :=
  req.payload.bind fun
    | .batchPut kvs => some kvs
    | _ => none

def getBatchDeleteRequest : Option (List Bytes) :=
  req.payload.bind fun
    | .batchDelete keys => some keys
    | _ => none

end DatabaseOperationRequest

namespace DatabaseOperationResponse

variable (resp : DatabaseOperationResponse)

/-- `GetGetResponse`: the value and the error. -/
def getGetResponse : Option (Bytes × Bytes) :=
  resp.payload.bind fun
    | .get value error => some (value, error)
    | _ => none

def getPutResponse : Option Bytes :=
  resp.payload.bind fun
    | .put error => some error
    | _ => none

def getDeleteResponse : Option Bytes :=
  resp.payload.bind fun
    | .delete error => some error
    | _ => none

def getBatchPutResponse : Option Bytes :=
  resp.payload.bind fun
    | .batchPut error => some error
    | _ => none

def getBatchDeleteResponse : Option Bytes :=
  resp.payload.bind fun
    | .batchDelete error => some error
    | _ => none

/-- `GetGetBackupPathResponse`: the path and the error. -/
def getGetBackupPathResponse : Option (Bytes × Bytes) :=
  resp.payload.bind fun
    | .getBackupPath path error => some (path, error)
    | _ => none

end DatabaseOperationResponse

/-! ### The service -/

inductive Panic where
  /-- `invalid memory address or nil pointer dereference` -/
  | nilPointer
  deriving DecidableEq

def deref {α β : Type} (p : Option α) (f : α → β) : Except Panic β :=
  match p with
  | some a => .ok (f a)
  | none => .error .nilPointer

variable (req : DatabaseOperationRequest)

/-- `createResponseWrapper`, where no payload stands for `nil`. -/
def createDatabaseResponse (payload : Option ResponsePayload)
    (err : Option Bytes) : DatabaseOperationResponse :=
  ⟨req.operationType, req.requestId, err.getD [], payload.map (·.withError err)⟩

/-- `%v` of an `OperationType` that is none of the operations. -/
def operationTypeText (t : Int32) : String := if t = 0 then "UNDEFINED_OP" else toString t.toInt

/-- `unsupported operation type: %v` -/
def unsupportedText (t : Int32) : Bytes :=
  asciiBytes ("unsupported operation type: " ++ operationTypeText t)

variable {σ : Type}

/-- `handleDatabaseOperation` after `Unmarshal`. -/
def handleOperation (storage : Storage σ) (s : σ) (req : DatabaseOperationRequest) :
    Except Panic (DatabaseOperationResponse × σ) :=
  if req.operationType = OpKind.get.operationType then
    deref req.getGetRequest fun key =>
      let (value, err) := storage.get s key
      (createDatabaseResponse req (some (.get value [])) err, s)
  else if req.operationType = OpKind.put.operationType then
    deref req.getPutRequest fun (key, value) =>
      let (err, s') := storage.put s key value
      (createDatabaseResponse req (some (.put [])) err, s')
  else if req.operationType = OpKind.delete.operationType then
    deref req.getDeleteRequest fun key =>
      let (err, s') := storage.delete s key
      (createDatabaseResponse req (some (.delete [])) err, s')
  else if req.operationType = OpKind.batchPut.operationType then
    deref req.getBatchPutRequest fun kvs =>
      let (err, s') := storage.batchPut s kvs
      (createDatabaseResponse req (some (.batchPut [])) err, s')
  else if req.operationType = OpKind.batchDelete.operationType then
    deref req.getBatchDeleteRequest fun keys =>
      let (err, s') := storage.batchDelete s keys
      (createDatabaseResponse req (some (.batchDelete [])) err, s')
  else if req.operationType = OpKind.getBackupPath.operationType then
    .ok (createDatabaseResponse req (some (.getBackupPath (storage.getBackupPath s) [])) none, s)
  else .ok (createDatabaseResponse req none (some (unsupportedText req.operationType)), s)

/-- `handleDatabaseOperation`: a response, or none if the body is no request
(`failed to unmarshal request wrapper: %w`). -/
def handleBody (storage : Storage σ) (s : σ) (body : Bytes) :
    Except Panic (Option DatabaseOperationResponse × σ) :=
  match DatabaseOperationRequest.unmarshal F body with
  | none => .ok (none, s)
  | some req => (handleOperation storage s req).map fun r => (some r.1, r.2)

/-! ### The client -/

def payloadResult (error value : Bytes) : Except Bytes Bytes :=
  if error ≠ [] then .error error else .ok value

/-- What a call makes of its response: the error of the wrapper, then the operation's member
of the payload.  `GetBackupPath` has no error to return, it logs. -/
def readDatabaseResponse (op : StorageOp) (resp : DatabaseOperationResponse) :
    Except Panic (Except Bytes Bytes) :=
  if resp.error ≠ [] then
    .ok (if op.kind = .getBackupPath then .ok [] else .error resp.error)
  else
    match op with
    | .get _ => deref resp.getGetResponse fun (value, error) => payloadResult error value
    | .put _ _ => deref resp.getPutResponse fun error => payloadResult error []
    | .delete _ => deref resp.getDeleteResponse fun error => payloadResult error []
    | .batchPut _ => deref resp.getBatchPutResponse fun error => payloadResult error []
    | .batchDelete _ => deref resp.getBatchDeleteResponse fun error => payloadResult error []
    | .getBackupPath =>
      deref resp.getGetBackupPathResponse fun (path, error) =>
        .ok (if error ≠ [] then [] else path)

/-- A body that arrives at the client: the call with its id reads it, if it is a response. -/
def readBody (reqID : Bytes) (op : StorageOp) (body : Bytes) :
    Option (Except Panic (Except Bytes Bytes)) := do
  let resp ← DatabaseOperationResponse.unmarshal F body
  if resp.requestId = reqID then some (readDatabaseResponse op resp) else none

/-! ### Who panics -/

def Panics {α : Type} (r : Except Panic α) : Prop := ∃ p, r = .error p

variable {α : Type}

theorem not_panics_ok (a : α) : ¬ Panics (.ok a : Except Panic α) := by
  rintro ⟨p, h⟩
  cases h

variable {β : Type}

theorem panics_deref {p : Option α} {f : α → β} : Panics (deref p f) ↔ p = none := by
  cases p with
  | none => exact iff_of_true ⟨.nilPointer, rfl⟩ rfl
  | some a => exact iff_of_false (not_panics_ok (f a)) (Option.some_ne_none a)

variable {k : OpKind}

theorem panics_member {γ : Type} {kind : α → OpKind} {member : α → Option β}
    (h : ∀ a, member a = none ↔ kind a ≠ k) (payload : Option α) (f : β → γ) :
    Panics (deref (payload.bind member) f) ↔ payload.map kind ≠ some k := by
  rw [panics_deref]
  cases payload with
  | none => simp
  | some => simp [h]

/-- The member of the operation that the type names is not set. -/
def DatabaseOperationRequest.Mismatched : Prop :=
  ∃ kind, kind ≠ .getBackupPath ∧ req.operationType = kind.operationType ∧
    req.payload.map StorageOp.kind ≠ some kind

theorem operationType_injective {k' : OpKind} (h : k.operationType = k'.operationType) :
    k = k' := by
  revert h
  cases k <;> cases k' <;> decide

theorem mismatched_iff {req : DatabaseOperationRequest} (h : req.operationType = k.operationType)
    (hk : k ≠ .getBackupPath) : req.Mismatched ↔ req.payload.map StorageOp.kind ≠ some k := by
  constructor
  · rintro ⟨k', hk', htype, hpayload⟩
    obtain rfl : k = k' := operationType_injective (h.symm.trans htype)
    exact hpayload
  · intro hpayload
    exact ⟨k, hk, h, hpayload⟩

theorem panics_iff_mismatched {γ : Type} {member : StorageOp → Option β}
    {req : DatabaseOperationRequest} (htype : req.operationType = k.operationType)
    (hk : k ≠ .getBackupPath) (hmember : ∀ op, member op = none ↔ op.kind ≠ k) (f : β → γ) :
    Panics (deref (req.payload.bind member) f) ↔ req.Mismatched := by
  rw [mismatched_iff htype hk]
  exact panics_member hmember _ _

variable (storage : Storage σ) (s : σ)

/-- **The service panics exactly if the member of its operation is not set.** -/
theorem handleOperation_panics_iff : Panics (handleOperation storage s req) ↔ req.Mismatched := by
  rw [handleOperation]
  -- Five operations have a member.
  iterate 5
    split
    · rename_i h
      exact panics_iff_mismatched h (by decide) (fun op => by cases op <;> simp [StorageOp.kind]) _
  -- The two branches that are left take no member.
  rename_i hget hput hdelete hbatchPut hbatchDelete
  have hmismatched : ¬ req.Mismatched := by
    rintro ⟨k, hk, htype, -⟩
    cases k with
    | get => exact hget htype
    | put => exact hput htype
    | delete => exact hdelete htype
    | batchPut => exact hbatchPut htype
    | batchDelete => exact hbatchDelete htype
    | getBackupPath => exact hk rfl
  split
  · exact iff_of_false (not_panics_ok _) hmismatched
  · exact iff_of_false (not_panics_ok _) hmismatched

/-- **A call panics exactly if there is no error and its member is not set.** -/
theorem readDatabaseResponse_panics_iff (op : StorageOp) (resp : DatabaseOperationResponse) :
    Panics (readDatabaseResponse op resp) ↔
      resp.error = [] ∧ resp.payload.map ResponsePayload.kind ≠ some op.kind := by
  unfold readDatabaseResponse
  split
  · rename_i herror
    exact iff_of_false (not_panics_ok _) fun h => herror h.1
  · rename_i herror
    rw [and_iff_right (not_not.mp herror)]
    cases op <;>
      exact panics_member (fun p => by cases p <;> simp [ResponsePayload.kind, StorageOp.kind]) _ _

/-! ### The messages of the code itself -/

/-- A message in which the type and the member agree. -/
def DatabaseOperationRequest.of (id : Bytes) (op : StorageOp) : DatabaseOperationRequest :=
  ⟨op.kind.operationType, id, some op⟩

def DatabaseOperationResponse.of (t : Int32) (resp : Response Bytes) : DatabaseOperationResponse :=
  ⟨t, resp.requestId, resp.error, some resp.payload⟩

theorem handleOperation_eq (id : Bytes) (op : StorageOp) :
    handleOperation storage s (.of id op) =
      .ok (.of op.kind.operationType (handleDatabaseOperation storage s ⟨id, op⟩).2.1,
        (handleDatabaseOperation storage s ⟨id, op⟩).2.2) := by
  cases op <;> rfl

/-- What a call does after `readResponse`. -/
def Outcome.toExcept : Outcome → Except Panic (Except Bytes Bytes)
  | .result r => .ok r
  | _ => .error .nilPointer

theorem readDatabaseResponse_eq (op : StorageOp) (t : Int32) (resp : Response Bytes) :
    readDatabaseResponse op (.of t resp) = (readResponse op resp).toExcept := by
  obtain ⟨id, error, payload⟩ := resp
  have hresult : ∀ error value : Bytes,
      (readPayload error value).toExcept = .ok (payloadResult error value) := by
    intro error value
    rw [readPayload, payloadResult]
    split <;> rfl
  by_cases herror : error = []
  · subst herror
    -- an operation reads its own member, and another one is a nil pointer
    cases op <;> cases payload <;> first | rfl | exact (hresult _ _).symm
  · cases op <;> simp [readDatabaseResponse, readResponse, DatabaseOperationResponse.of, herror,
      Outcome.toExcept, StorageOp.kind]

/-! ### Bodies -/

/-- **Which bodies make a side panic.**  The service does exactly on the requests whose type
names an operation with a member, and another member or none is set; a call does exactly on
the responses with its id that have no error and in which its member is not set. -/
theorem bodies_panic_iff (storage : Storage σ) (s : σ) (reqID : Bytes)
    (op : StorageOp) (body : Bytes) :
    (Panics (handleBody F storage s body) ↔
      ∃ req, DatabaseOperationRequest.unmarshal F body = some req ∧ req.Mismatched) ∧
    ((∃ r, readBody F reqID op body = some r ∧ Panics r) ↔
      ∃ resp, DatabaseOperationResponse.unmarshal F body = some resp ∧ resp.requestId = reqID ∧
        resp.error = [] ∧ resp.payload.map ResponsePayload.kind ≠ some op.kind) := by
  constructor
  · rw [handleBody]
    cases DatabaseOperationRequest.unmarshal F body with
    | none =>
      refine iff_of_false (not_panics_ok _) ?_
      rintro ⟨req, h, -⟩
      cases h
    | some req =>
      have hmap : Panics ((handleOperation storage s req).map fun r => (some r.1, r.2)) ↔
          Panics (handleOperation storage s req) := by
        cases handleOperation storage s req with
        | error p => exact iff_of_true ⟨p, rfl⟩ ⟨p, rfl⟩
        | ok r => exact iff_of_false (not_panics_ok _) (not_panics_ok r)
      simp only [hmap, handleOperation_panics_iff, Option.some.injEq, exists_eq_left']
  · rw [readBody]
    cases DatabaseOperationResponse.unmarshal F body with
    | none => simp
    | some resp =>
      by_cases hid : resp.requestId = reqID
      · simp [hid, readDatabaseResponse_panics_iff]
      · simp [hid]

/-- The type `GET` and nothing else is a request, an id and nothing else is a response. -/
theorem bodies_panic : Panics (handleBody leb (refusing [1]) [7] [0x08, 0x01]) ∧
    readBody leb [0x61] (.get [5]) [0x12, 0x01, 0x61] = some (.error .nilPointer) :=
  ⟨⟨.nilPointer, rfl⟩, rfl⟩

end MetaNode.RemoteStorage
