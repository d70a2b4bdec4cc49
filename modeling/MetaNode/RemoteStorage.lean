/-
Remote storage: many calls over one connection.

A client puts each call under a fresh request id in its table `pending`, sends the
request and waits for the response, for a connection error or for the end of fifteen
seconds.  One loop, `handleResponses`, takes the responses off the connection in the
order they arrive and hands each to the call that the table names.  The server executes
a request on its storage and answers with the id of the request.

The calls, the loop, the server and the network are processes that take turns in any
order (`Step`).  The network may lose and reorder whatever it carries.

The text of an error stands for the error, and an empty text for its absence: an
operation that fails with an empty text comes back as one that succeeded
(`empty_error_lost`).
-/
import Mathlib.Logic.Function.Basic
import Mathlib.Logic.Relation
import Mathlib.Data.List.Nodup
import MetaNode.Bytes

namespace MetaNode.RemoteStorage

open Function Relation

/-! ### The server -/

inductive StorageOp where
  | get (key : Bytes)
  | put (key value : Bytes)
  | delete (key : Bytes)
  | batchPut (kvs : List (Bytes × Bytes))
  | batchDelete (keys : List Bytes)
  | getBackupPath

/-- A storage with states `σ`; an error is its text, and `none` is no error. -/
structure Storage (σ : Type) where
  get : σ → Bytes → Bytes × Option Bytes
  put : σ → Bytes → Bytes → Option Bytes × σ
  delete : σ → Bytes → Option Bytes × σ
  batchPut : σ → List (Bytes × Bytes) → Option Bytes × σ
  batchDelete : σ → List Bytes → Option Bytes × σ
  getBackupPath : σ → Bytes

structure OpResult where
  value : Bytes
  err : Option Bytes
  deriving DecidableEq

/-- The value of an operation, or the text of its error. -/
def OpResult.toExcept (r : OpResult) : Except Bytes Bytes :=
  match r.err with
  | some text => .error text
  | none => .ok r.value

structure Request (Id : Type) where
  requestId : Id
  op : StorageOp

/-- The payload of a response; each has an error text of its own. -/
inductive ResponsePayload where
  | get (value error : Bytes)
  | put (error : Bytes)
  | delete (error : Bytes)
  | batchPut (error : Bytes)
  | batchDelete (error : Bytes)
  | getBackupPath (path error : Bytes)
  deriving DecidableEq

structure Response (Id : Type) where
  requestId : Id
  error : Bytes
  payload : ResponsePayload
  deriving DecidableEq

def ResponsePayload.withError (err : Option Bytes) : ResponsePayload → ResponsePayload
  | .get value error => .get value (err.getD error)
  | .put error => .put (err.getD error)
  | .delete error => .delete (err.getD error)
  | .batchPut error => .batchPut (err.getD error)
  | .batchDelete error => .batchDelete (err.getD error)
  | .getBackupPath path error => .getBackupPath path (err.getD error)

/-- The response to a request: an error is written twice, in the wrapper and in the payload. -/
def createResponseWrapper {Id : Type} (req : Request Id) (payload : ResponsePayload)
    (err : Option Bytes) : Response Id :=
  ⟨req.requestId, err.getD [], payload.withError err⟩

/-- The server's only handler: what the storage returned, the response, and the storage
afterwards. -/
def handleDatabaseOperation {σ Id : Type} (storage : Storage σ) (s : σ) (req : Request Id) :
    OpResult × Response Id × σ :=
  match req.op with
  | .get key =>
    let (value, err) := storage.get s key
    (⟨value, err⟩, createResponseWrapper req (.get value []) err, s)
  | .put key value =>
    let (err, s') := storage.put s key value
    (⟨[], err⟩, createResponseWrapper req (.put []) err, s')
  | .delete key =>
    let (err, s') := storage.delete s key
    (⟨[], err⟩, createResponseWrapper req (.delete []) err, s')
  | .batchPut kvs =>
    let (err, s') := storage.batchPut s kvs
    (⟨[], err⟩, createResponseWrapper req (.batchPut []) err, s')
  | .batchDelete keys =>
    let (err, s') := storage.batchDelete s keys
    (⟨[], err⟩, createResponseWrapper req (.batchDelete []) err, s')
  | .getBackupPath =>
    let path := storage.getBackupPath s
    (⟨path, none⟩, createResponseWrapper req (.getBackupPath path []) none, s)

/-! ### The client -/

inductive Outcome where
  /-- With a value or an error that a response named. -/
  | result (r : Except Bytes Bytes)
  /-- `failed to send request`. -/
  | sendFailed
  /-- `connection error`. -/
  | connectionError
  /-- `request timed out`. -/
  | timedOut
  /-- The response has no payload of the operation's type. -/
  | nilPointer

/-- The call came back neither with a timeout nor with an error of the connection. -/
def Outcome.Answered : Outcome → Prop
  | .result _ => True
  | .nilPointer => True
  | _ => False

/-- The error text of the payload, then its value. -/
def readPayload (error value : Bytes) : Outcome :=
  if error ≠ [] then .result (.error error) else .result (.ok value)

/-- What a call makes of its response: first `sendRequest` looks at the wrapper's error,
then the operation at its payload.  `GetBackupPath` has no error to return, it logs. -/
def readResponse {Id : Type} (op : StorageOp) (resp : Response Id) : Outcome :=
  match op with
  | .getBackupPath =>
    if resp.error ≠ [] then .result (.ok [])
    else
      match resp.payload with
      | .getBackupPath path error => .result (.ok (if error ≠ [] then [] else path))
      | _ => .nilPointer
  | op =>
    if resp.error ≠ [] then .result (.error resp.error)
    else
      match op, resp.payload with
      | .get _, .get value error => readPayload error value
      | .put _ _, .put error => readPayload error []
      | .delete _, .delete error => readPayload error []
      | .batchPut _, .batchPut error => readPayload error []
      | .batchDelete _, .batchDelete error => readPayload error []
      | _, _ => .nilPointer

/-- **The response to an operation is read as its result, but for an error without a text.** -/
theorem readResponse_handleDatabaseOperation {σ Id : Type} (storage : Storage σ) (s : σ)
    (req : Request Id) :
    readResponse req.op (handleDatabaseOperation storage s req).2.1
      = .result (if (handleDatabaseOperation storage s req).1.err = some []
          then .ok (handleDatabaseOperation storage s req).1.value
          else (handleDatabaseOperation storage s req).1.toExcept) := by
  obtain ⟨id, op⟩ := req
  -- what the payload's type does not change: the text of the error decides
  have htext : ∀ (err : Option Bytes) (value : Bytes),
      (if err.getD [] ≠ [] then Outcome.result (.error (err.getD []))
        else readPayload (err.getD []) value)
      = .result (if err = some [] then .ok value else OpResult.toExcept ⟨value, err⟩) := by
    intro err value
    match err with
    | none => rfl
    | some [] => rfl
    | some (b :: text) => rfl
  cases op with
  | get | put | delete | batchPut | batchDelete => exact htext _ _
  | getBackupPath => rfl

theorem requestId_handleDatabaseOperation {σ Id : Type} (storage : Storage σ) (s : σ)
    (req : Request Id) :
    (handleDatabaseOperation storage s req).2.1.requestId = req.requestId := by
  obtain ⟨id, op⟩ := req
  cases op <;> rfl

/-! ### The processes -/

/-- Where a call stands in `sendRequest`. -/
inductive Phase where
  | idle
  /-- The call is in the table. -/
  | stored
  /-- The request is sent, the call is in its `select`. -/
  | waiting
  /-- The outcome is known, the call is still in the table. -/
  | returning (out : Outcome)
  | returned (out : Outcome)

/-- Where `handleResponses` stands. -/
inductive Handler (Call Id : Type) where
  | listening
  /-- The call of a response is found, its channel not yet written. -/
  | delivering (c : Call) (resp : Response Id)
  /-- A connection error is handed to the pending calls. -/
  | notifying
  /-- A call has the error, its entry is still in the table. -/
  | dropping (id : Id)
  | stopped

/-- A request that the server has executed, with what came of it. -/
structure Execution (Id : Type) where
  requestId : Id
  op : StorageOp
  result : OpResult
  response : Response Id

/-- The record of executing a request on the storage in state `s`. -/
def Execution.of {σ Id : Type} (storage : Storage σ) (s : σ) (req : Request Id) : Execution Id :=
  ⟨req.requestId, req.op, (handleDatabaseOperation storage s req).1,
    (handleDatabaseOperation storage s req).2.1⟩

/-- The client, the server, and what is on its way between them.  The entry that a call
stores in the table is named by the call; `ch` and `errc` are its channels. -/
structure State (Call Id σ : Type) where
  phase : Call → Phase
  pending : Id → Option Call
  ch : Call → Option (Response Id)
  errc : Call → Bool
  handler : Handler Call Id
  requests : List (Request Id)
  responses : List (Response Id)
  store : σ
  /-- The executed requests, in order. -/
  executed : List (Execution Id)
  /-- The responses that were put on a channel, with the call it belongs to. -/
  delivered : List (Call × Response Id)

variable {Call Id σ : Type} [DecidableEq Call] [DecidableEq Id]

def State.init (store : σ) : State Call Id σ where
  phase _ := .idle
  pending _ := none
  ch _ := none
  errc _ := false
  handler := .listening
  requests := []
  responses := []
  store := store
  executed := []
  delivered := []

def State.setPhase (s : State Call Id σ) (c : Call) (phase : Phase) : State Call Id σ :=
  { s with phase := update s.phase c phase }

omit [DecidableEq Id] in
theorem State.setPhase_phase (s : State Call Id σ) (c c' : Call) (phase : Phase) :
    (s.setPhase c phase).phase c' = if c' = c then phase else s.phase c' :=
  update_apply ..

variable (storage : Storage σ) (reqID : Call → Id) (op : Call → StorageOp)

/-- The server takes a request out of the stream and executes it. -/
def State.execute (s : State Call Id σ) (before after : List (Request Id)) (req : Request Id) :
    State Call Id σ :=
  { s with
    requests := before ++ after
    store := (handleDatabaseOperation storage s.store req).2.2
    executed := s.executed ++ [.of storage s.store req]
    responses := s.responses ++ [(handleDatabaseOperation storage s.store req).2.1] }

/-- One step of a call, of `handleResponses`, of the server or of the network. -/
inductive Step : State Call Id σ → State Call Id σ → Prop where
  | store {s} (c : Call) (h : s.phase c = .idle) :
      Step s { s with
        phase := update s.phase c .stored
        pending := update s.pending (reqID c) (some c) }
  | send {s} (c : Call) (h : s.phase c = .stored) :
      Step s { s with
        phase := update s.phase c .waiting
        requests := s.requests ++ [⟨reqID c, op c⟩] }
  | sendFails {s} (c : Call) (h : s.phase c = .stored) :
      Step s (s.setPhase c (.returning .sendFailed))
  | takeResponse {s} (c : Call) (resp : Response Id) (h : s.phase c = .waiting)
      (hch : s.ch c = some resp) :
      Step s { s with
        phase := update s.phase c (.returning (readResponse (op c) resp))
        ch := update s.ch c none }
  | takeError {s} (c : Call) (h : s.phase c = .waiting) (herrc : s.errc c = true) :
      Step s { s with
        phase := update s.phase c (.returning .connectionError)
        errc := update s.errc c false }
  | timeout {s} (c : Call) (h : s.phase c = .waiting) :
      Step s (s.setPhase c (.returning .timedOut))
  | delete {s} (c : Call) (out : Outcome) (h : s.phase c = .returning out) :
      Step s { s with
        phase := update s.phase c (.returned out)
        pending := update s.pending (reqID c) none }
  | load {s} (before after : List (Response Id)) (resp : Response Id) (c : Call)
      (hhandler : s.handler = .listening) (h : s.responses = before ++ resp :: after)
      (hpending : s.pending resp.requestId = some c) :
      Step s { s with responses := before ++ after, handler := .delivering c resp }
  | discard {s} (before after : List (Response Id)) (resp : Response Id)
      (hhandler : s.handler = .listening) (h : s.responses = before ++ resp :: after)
      (hpending : s.pending resp.requestId = none) :
      Step s { s with responses := before ++ after }
  | deliver {s} (c : Call) (resp : Response Id) (hhandler : s.handler = .delivering c resp)
      (hch : s.ch c = none) :
      Step s { s with
        handler := .listening
        ch := update s.ch c (some resp)
        delivered := s.delivered ++ [(c, resp)] }
  | connectionError {s} (hhandler : s.handler = .listening) :
      Step s { s with handler := .notifying }
  | notify {s} (id : Id) (c : Call) (hhandler : s.handler = .notifying)
      (hpending : s.pending id = some c) (herrc : s.errc c = false) :
      Step s { s with
        handler := .dropping id
        errc := update s.errc c true }
  | drop {s} (id : Id) (hhandler : s.handler = .dropping id) :
      Step s { s with
        handler := .notifying
        pending := update s.pending id none }
  | stop {s} (hhandler : s.handler = .listening ∨ s.handler = .notifying) :
      Step s { s with handler := .stopped }
  | execute {s} (before after : List (Request Id)) (req : Request Id)
      (h : s.requests = before ++ req :: after) :
      Step s (s.execute storage before after req)
  | loseRequest {s} (before after : List (Request Id)) (req : Request Id)
      (h : s.requests = before ++ req :: after) :
      Step s { s with requests := before ++ after }
  | loseResponse {s} (before after : List (Response Id)) (resp : Response Id)
      (h : s.responses = before ++ resp :: after) :
      Step s { s with responses := before ++ after }

/-! ### What a step changes -/

variable {storage reqID op} {s s' : State Call Id σ}

variable (op) in
/-- What a step does to a call. -/
inductive CallStep (s s' : State Call Id σ) (c : Call) : Prop where
  | same (h : s'.phase c = s.phase c)
  | stored (h : s.phase c = .idle) (h' : s'.phase c = .stored)
  | sent (h : s.phase c = .stored) (h' : s'.phase c = .waiting)
  | failed (out : Outcome) (h : s.phase c = .stored ∨ s.phase c = .waiting)
      (h' : s'.phase c = .returning out) (hout : ¬ out.Answered)
  | answered (resp : Response Id) (h : s.phase c = .waiting) (hch : s.ch c = some resp)
      (h' : s'.phase c = .returning (readResponse (op c) resp))
  | returned (out : Outcome) (h : s.phase c = .returning out) (h' : s'.phase c = .returned out)

section Changes

variable (hstep : Step storage reqID op s s')

include hstep

theorem Step.call (c : Call) : CallStep op s s' c := by
  have hupdate : ∀ {c' new}, s'.phase = update s.phase c' new →
      (c = c' → s'.phase c = new → CallStep op s s' c) → CallStep op s s' c := by
    intro c' new heq hown
    by_cases hc : c = c'
    · exact hown hc (by rw [heq, hc, update_self])
    · exact .same (by rw [heq, update_of_ne hc])
  cases hstep with
  | store c' h => exact hupdate rfl fun hc => .stored (hc ▸ h)
  | send c' h => exact hupdate rfl fun hc => .sent (hc ▸ h)
  | sendFails c' h => exact hupdate rfl fun hc h' => .failed _ (.inl (hc ▸ h)) h' id
  | takeResponse c' resp h hch =>
    refine hupdate rfl fun hc h' => ?_
    subst hc
    exact .answered resp h hch h'
  | takeError c' h | timeout c' h =>
    exact hupdate rfl fun hc h' => .failed _ (.inr (hc ▸ h)) h' id
  | delete c' out h => exact hupdate rfl fun hc => .returned out (hc ▸ h)
  | _ => exact .same rfl

theorem Step.pending {id : Id} {c : Call} (h : s'.pending id = some c) :
    s.pending id = some c ∨ (reqID c = id ∧ s'.phase c = .stored) := by
  cases hstep with
  | store c' =>
    simp only [update_apply] at h
    split at h
    · rename_i hid
      cases h
      exact .inr ⟨hid.symm, update_self ..⟩
    · exact .inl h
  | delete | drop =>
    simp only [update_apply] at h
    split at h
    · cases h
    · exact .inl h
  | _ => exact .inl h

variable {c : Call} {resp : Response Id}

theorem Step.delivering (h : s'.handler = .delivering c resp) :
    s.handler = .delivering c resp ∨
      (resp ∈ s.responses ∧ s.pending resp.requestId = some c) := by
  cases hstep with
  | load before after resp' c' hhandler hresponses hpending =>
    cases h
    exact .inr ⟨by rw [hresponses]; simp, hpending⟩
  | deliver | connectionError | notify | drop | stop => cases h
  | _ => exact .inl h

theorem Step.ch (h : s'.ch c = some resp) :
    s.ch c = some resp ∨ (s.handler = .delivering c resp ∧ (c, resp) ∈ s'.delivered) := by
  cases hstep with
  | takeResponse =>
    simp only [update_apply] at h
    split at h
    · cases h
    · exact .inl h
  | deliver c' resp' hhandler =>
    simp only [update_apply] at h
    split at h
    · rename_i hc
      cases h
      exact .inr ⟨hc ▸ hhandler, by simp [hc]⟩
    · exact .inl h
  | _ => exact .inl h

theorem Step.delivered {d : Call × Response Id} (h : d ∈ s'.delivered) :
    d ∈ s.delivered ∨ s.handler = .delivering d.1 d.2 := by
  cases hstep with
  | deliver c' resp' hhandler =>
    obtain h | h := List.mem_append.mp h
    · exact .inl h
    · rw [List.mem_singleton.mp h]
      exact .inr hhandler
  | _ => exact .inl h

theorem Step.executed : s.executed ⊆ s'.executed := by
  cases hstep with
  | execute => exact List.subset_append_left ..
  | _ => exact List.Subset.refl _

theorem Step.responses (h : resp ∈ s'.responses) :
    resp ∈ s.responses ∨ ∃ e ∈ s'.executed, e.response = resp := by
  cases hstep with
  | load before after resp' c' hhandler hresponses
  | discard before after resp' hhandler hresponses | loseResponse before after resp' hresponses =>
    rw [hresponses]
    exact .inl ((List.sublist_cons_self resp' after).append_left before |>.subset h)
  | execute before after req =>
    obtain h | h := List.mem_append.mp h
    · exact .inl h
    · exact .inr ⟨_, List.mem_concat_self, (List.mem_singleton.mp h).symm⟩
  | _ => exact .inl h

end Changes

/-! ### Responses reach their call -/

variable (reqID) in
/-- The table and the channels hold only what belongs to the call. -/
structure Routed (s : State Call Id σ) : Prop where
  pending : ∀ id c, s.pending id = some c → reqID c = id
  delivering : ∀ c resp, s.handler = .delivering c resp → resp.requestId = reqID c
  ch : ∀ c resp, s.ch c = some resp → resp.requestId = reqID c
  delivered : ∀ d ∈ s.delivered, d.2.requestId = reqID d.1

theorem Routed.step (h : Routed reqID s) (hstep : Step storage reqID op s s') :
    Routed reqID s' := by
  refine ⟨fun id c hc => ?_, fun c resp hc => ?_, fun c resp hc => ?_, fun d hd => ?_⟩
  · obtain hc | ⟨hid, -⟩ := hstep.pending hc
    · exact h.pending id c hc
    · exact hid
  · obtain hc | ⟨-, hpending⟩ := hstep.delivering hc
    · exact h.delivering c resp hc
    · exact (h.pending _ _ hpending).symm
  · obtain hc | ⟨hhandler, -⟩ := hstep.ch hc
    · exact h.ch c resp hc
    · exact h.delivering c resp hhandler
  · obtain hd | hhandler := hstep.delivered hd
    · exact h.delivered d hd
    · exact h.delivering _ _ hhandler

/-! ### Requests are executed once -/

def Phase.Unsent : Phase → Prop
  | .idle => True
  | .stored => True
  | _ => False

/-- The ids of the requests that are sent and not lost. -/
def State.sent (s : State Call Id σ) : List Id :=
  s.requests.map Request.requestId ++ s.executed.map Execution.requestId

variable (storage reqID op) in
/-- Every request is the request of one call, and it is on its way or it is executed. -/
structure Once (s : State Call Id σ) : Prop where
  nodup : s.sent.Nodup
  unsent : ∀ c, (s.phase c).Unsent → reqID c ∉ s.sent
  requests : ∀ req ∈ s.requests, ∃ c, req = ⟨reqID c, op c⟩
  executed : ∀ e ∈ s.executed, ∃ c store, e = .of storage store ⟨reqID c, op c⟩

omit [DecidableEq Call] [DecidableEq Id] in
theorem Once.frame (h : Once storage reqID op s) (hrequests : s'.requests.Sublist s.requests)
    (hexecuted : s'.executed = s.executed)
    (hphase : ∀ c, (s'.phase c).Unsent → (s.phase c).Unsent) : Once storage reqID op s' := by
  have hsent : s'.sent.Sublist s.sent := by
    rw [State.sent, State.sent, hexecuted]
    exact (hrequests.map _).append_right _
  refine ⟨h.nodup.sublist hsent, fun c hc hmem => ?_, ?_, ?_⟩
  · exact h.unsent c (hphase c hc) (hsent.subset hmem)
  · exact fun req hreq => h.requests req (hrequests.subset hreq)
  · rw [hexecuted]
    exact h.executed

omit [DecidableEq Id] in
theorem Once.send (hid : Injective reqID) (h : Once storage reqID op s) {c : Call}
    (hc : s.phase c = .stored) : Once storage reqID op
      { s with
        phase := update s.phase c .waiting
        requests := s.requests ++ [⟨reqID c, op c⟩] } := by
  have hnew : reqID c ∉ s.sent := h.unsent c (by rw [hc]; trivial)
  have hperm : ((s.requests ++ [Request.mk (reqID c) (op c)]).map Request.requestId
      ++ s.executed.map Execution.requestId).Perm (reqID c :: s.sent) := by
    rw [List.map_append, List.append_assoc]
    exact List.perm_middle
  refine ⟨hperm.nodup_iff.mpr (List.nodup_cons.mpr ⟨hnew, h.nodup⟩), fun c' hc' hmem => ?_, ?_,
    h.executed⟩
  · replace hc' : (s.setPhase c .waiting).phase c' |>.Unsent := hc'
    rw [State.setPhase_phase] at hc'
    split at hc'
    · exact hc'
    · rename_i hcc
      obtain heq | hmem := List.mem_cons.mp (hperm.mem_iff.mp hmem)
      · exact hcc (hid heq)
      · exact h.unsent c' hc' hmem
  · rw [List.forall_mem_append, List.forall_mem_singleton]
    exact ⟨h.requests, c, rfl⟩

omit [DecidableEq Call] [DecidableEq Id] in
theorem Once.execute (h : Once storage reqID op s) {before after : List (Request Id)}
    {req : Request Id} (hrequests : s.requests = before ++ req :: after) :
    Once storage reqID op (s.execute storage before after req) := by
  -- the id moves from the requests to the executions
  have hperm : ((before ++ after).map Request.requestId
      ++ (s.executed ++ [Execution.of storage s.store req]).map Execution.requestId).Perm
        s.sent := by
    rw [State.sent, hrequests]
    simp only [List.map_append, List.map_cons, List.map_nil]
    calc (before.map Request.requestId ++ after.map Request.requestId
          ++ (s.executed.map Execution.requestId ++ [req.requestId])).Perm
          (req.requestId :: (before.map Request.requestId ++ after.map Request.requestId
            ++ s.executed.map Execution.requestId)) := by
            rw [← List.append_assoc]
            exact List.perm_append_singleton _ _
      _ |>.Perm (before.map Request.requestId ++ req.requestId :: after.map Request.requestId
            ++ s.executed.map Execution.requestId) := by
            rw [← List.cons_append]
            exact List.perm_middle.symm.append_right _
  refine ⟨hperm.nodup_iff.mpr h.nodup, fun c hc hmem => ?_, fun r hr => ?_, ?_⟩
  · exact h.unsent c hc (hperm.mem_iff.mp hmem)
  · refine h.requests r ?_
    rw [hrequests]
    exact (List.sublist_cons_self req after).append_left before |>.subset hr
  · obtain ⟨c, hreq⟩ := h.requests req (by rw [hrequests]; simp)
    exact List.forall_mem_append.mpr
      ⟨h.executed, List.forall_mem_singleton.mpr ⟨c, s.store, by rw [← hreq]⟩⟩

theorem Once.step (hid : Injective reqID) (h : Once storage reqID op s)
    (hstep : Step storage reqID op s s') : Once storage reqID op s' := by
  have hphase : ∀ c, (s'.phase c).Unsent → (s.phase c).Unsent := by
    intro c hc
    cases hstep.call c with
    | same h => rwa [h] at hc
    | stored h => rw [h]; trivial
    | sent _ h' | failed _ _ h' | answered _ _ _ h' | returned _ _ h' =>
      rw [h'] at hc
      cases hc
  cases hstep with
  | send c hc => exact h.send hid hc
  | execute before after req hrequests => exact h.execute hrequests
  | loseRequest before after req hrequests =>
    refine h.frame ?_ rfl hphase
    rw [hrequests]
    exact (List.sublist_cons_self req after).append_left before
  | _ => exact h.frame (.refl _) rfl hphase

/-! ### Responses are answers -/

variable (reqID op) in
/-- Every response comes from an execution, and a call that is answered is answered by the
execution of its own request. -/
structure Answers (s : State Call Id σ) : Prop where
  responses : ∀ resp ∈ s.responses, ∃ e ∈ s.executed, e.response = resp
  delivering : ∀ c resp, s.handler = .delivering c resp → ∃ e ∈ s.executed, e.response = resp
  ch : ∀ c resp, s.ch c = some resp → ∃ e ∈ s.executed, e.response = resp
  outcome : ∀ c out, s.phase c = .returning out ∨ s.phase c = .returned out → out.Answered →
    ∃ e ∈ s.executed, e.requestId = reqID c ∧ out = readResponse (op c) e.response

theorem Answers.step (hrouted : Routed reqID s) (honce : Once storage reqID op s)
    (h : Answers reqID op s) (hstep : Step storage reqID op s s') : Answers reqID op s' := by
  have hmono : ∀ {P : Execution Id → Prop}, (∃ e ∈ s.executed, P e) → ∃ e ∈ s'.executed, P e :=
    fun ⟨e, he, hP⟩ => ⟨e, hstep.executed he, hP⟩
  refine ⟨fun resp hresp => ?_, fun c resp hc => ?_, fun c resp hc => ?_,
    fun c out hc hout => ?_⟩
  · obtain hresp | hnew := hstep.responses hresp
    · exact hmono (h.responses resp hresp)
    · exact hnew
  · obtain hc | ⟨hresp, -⟩ := hstep.delivering hc
    · exact hmono (h.delivering c resp hc)
    · exact hmono (h.responses resp hresp)
  · obtain hc | ⟨hhandler, -⟩ := hstep.ch hc
    · exact hmono (h.ch c resp hc)
    · exact hmono (h.delivering c resp hhandler)
  · cases hstep.call c with
    | same h' => exact hmono (h.outcome c out (by rwa [h'] at hc) hout)
    | stored _ h' | sent _ h' => simp [h'] at hc
    | failed out' _ h' hnot =>
      obtain rfl : out' = out := by simpa [h'] using hc
      exact absurd hout hnot
    | answered resp _ hch h' =>
      -- the response on the channel of the call is that of its own request
      obtain rfl : readResponse (op c) resp = out := by simpa [h'] using hc
      obtain ⟨e, he, rfl⟩ := h.ch c resp hch
      obtain ⟨c', store, rfl⟩ := honce.executed e he
      have hown := requestId_handleDatabaseOperation storage store ⟨reqID c', op c'⟩
      exact hmono ⟨_, he, hown.symm.trans (hrouted.ch c _ hch), rfl⟩
    | returned out' h₀ h' =>
      obtain rfl : out' = out := by simpa [h'] using hc
      exact hmono (h.outcome c _ (.inl h₀) hout)

/-! ### Runs -/

theorem run_invariant (hid : Injective reqID) {store : σ}
    (hrun : ReflTransGen (Step storage reqID op) (State.init store) s) :
    Routed reqID s ∧ Once storage reqID op s ∧ Answers reqID op s := by
  induction hrun with
  | refl =>
    refine ⟨⟨?_, ?_, ?_, ?_⟩, ⟨List.nodup_nil, ?_, ?_, ?_⟩, ⟨?_, ?_, ?_, ?_⟩⟩ <;>
      simp [State.init, State.sent]
  | tail _ hstep ih =>
    obtain ⟨hrouted, honce, hanswers⟩ := ih
    exact ⟨hrouted.step hstep, honce.step hid hstep, hanswers.step hrouted honce hstep⟩

omit [DecidableEq Call] [DecidableEq Id] in
theorem Once.readResponse_eq (hid : Injective reqID) (h : Once storage reqID op s)
    {e : Execution Id} (he : e ∈ s.executed) {c : Call} (heq : e.requestId = reqID c) :
    e.op = op c ∧ readResponse (op c) e.response
      = .result (if e.result.err = some [] then .ok e.result.value else e.result.toExcept) := by
  obtain ⟨c', store, rfl⟩ := h.executed e he
  obtain rfl : c' = c := hid heq
  exact ⟨rfl, readResponse_handleDatabaseOperation storage store ⟨reqID c', op c'⟩⟩

/-- The call came back with the result that its own operation had on the storage. -/
def OwnResult (s : State Call Id σ) (reqID : Call → Id) (op : Call → StorageOp) (c : Call)
    (out : Outcome) : Prop :=
  ∃ e ∈ s.executed, e.requestId = reqID c ∧ e.op = op c ∧ out = .result e.result.toExcept

/-- **Calls get their own results**: however the steps are interleaved, no operation is
executed twice and no response is handed to another call; and the calls that come back
without a timeout or a connection error come back with the result of their own operation,
exactly if none of these operations failed with an empty text. -/
theorem calls_return_own_result (hid : Injective reqID) {store : σ}
    (hrun : ReflTransGen (Step storage reqID op) (State.init store) s) :
    (s.executed.map Execution.requestId).Nodup ∧
    (∀ d ∈ s.delivered, d.2.requestId = reqID d.1) ∧
    ((∀ c out, s.phase c = .returned out → out.Answered → OwnResult s reqID op c out) ↔
      ∀ c out, s.phase c = .returned out → out.Answered →
        ∀ e ∈ s.executed, e.requestId = reqID c → e.result.err ≠ some []) := by
  obtain ⟨hrouted, honce, hanswers⟩ := run_invariant hid hrun
  have hnodup : (s.executed.map Execution.requestId).Nodup :=
    (List.nodup_append.mp honce.nodup).2.1
  refine ⟨hnodup, hrouted.delivered, ?_⟩
  constructor
  · rintro hown c out hc hout e he heq herr
    obtain ⟨e', he', heq', -, hresult⟩ := hown c out hc hout
    obtain ⟨e'', he'', heq'', hread⟩ := hanswers.outcome c out (.inr hc) hout
    -- there is one execution with the id of the call
    obtain rfl := List.inj_on_of_nodup_map hnodup he he' (heq.trans heq'.symm)
    obtain rfl := List.inj_on_of_nodup_map hnodup he he'' (heq.trans heq''.symm)
    rw [(honce.readResponse_eq hid he heq).2, if_pos herr, hresult, OpResult.toExcept,
      herr] at hread
    cases hread
  · intro herr c out hc hout
    obtain ⟨e, he, heq, hread⟩ := hanswers.outcome c out (.inr hc) hout
    obtain ⟨hop, hresult⟩ := honce.readResponse_eq hid he heq
    rw [hresult, if_neg (herr c out hc hout e he heq)] at hread
    exact ⟨e, he, heq, hop, hread⟩

/-! ### Two calls -/

/-- A storage that holds one value and refuses every `Put`, with a text of its choice. -/
def refusing (text : Bytes) : Storage Bytes where
  get value _ := (value, none)
  put value _ _ := (some text, value)
  delete value _ := (none, value)
  batchPut value _ := (none, value)
  batchDelete value _ := (none, value)
  getBackupPath _ := []

/-- A `Put` with the id 0 and a `Get` with the id 1. -/
def putAndGet : Bool → StorageOp
  | false => .put [5] [6]
  | true => .get [5]

/-- The `Put` is executed first, and the `Get` is answered first. -/
theorem exists_answered (text : Bytes) : ∃ s : State Bool ℕ Bytes,
    ReflTransGen (Step (refusing text) Bool.toNat putAndGet) (.init [7]) s ∧
      s.delivered = [(true, ⟨1, [], .get [7] []⟩), (false, ⟨0, text, .put text⟩)] ∧
      s.executed = [.of (refusing text) [7] ⟨0, .put [5] [6]⟩,
        .of (refusing text) [7] ⟨1, .get [5]⟩] ∧
      s.phase false = .returned (readResponse (.put [5] [6]) (⟨0, text, .put text⟩ : Response ℕ)) ∧
      s.phase true = .returned (.result (.ok [7])) := by
  have hstored : ReflTransGen (Step (refusing text) Bool.toNat putAndGet) (.init [7]) _ :=
    .tail (.single (.store false rfl)) (.store true rfl)
  have hsent := (hstored.tail (.send false rfl)).tail (.send true rfl)
  have hexecuted := (hsent.tail (.execute [] [⟨1, .get [5]⟩] ⟨0, .put [5] [6]⟩ rfl)).tail
    (.execute [] [] ⟨1, .get [5]⟩ rfl)
  have hget := (hexecuted.tail (.load [⟨0, text, .put text⟩] [] ⟨1, [], .get [7] []⟩ true
    rfl rfl rfl)).tail (.deliver true _ rfl rfl)
  have hput := (hget.tail (.load [] [] ⟨0, text, .put text⟩ false rfl rfl rfl)).tail
    (.deliver false _ rfl rfl)
  have htaken := (hput.tail (.takeResponse false _ rfl rfl)).tail (.takeResponse true _ rfl rfl)
  exact ⟨_, (htaken.tail (.delete true _ rfl)).tail (.delete false _ rfl), rfl, rfl, rfl, rfl⟩

/-- Each of the two calls returns what its own operation had as its result. -/
theorem calls_return_own_result_swapped : ∃ s : State Bool ℕ Bytes,
    ReflTransGen (Step (refusing [1]) Bool.toNat putAndGet) (.init [7]) s ∧
      s.delivered.map Prod.fst = [true, false] ∧
      s.phase false = .returned (.result (.error [1])) ∧
      s.phase true = .returned (.result (.ok [7])) ∧
      OwnResult s Bool.toNat putAndGet false (.result (.error [1])) ∧
      OwnResult s Bool.toNat putAndGet true (.result (.ok [7])) := by
  obtain ⟨s, hrun, hdelivered, hexecuted, hput, hget⟩ := exists_answered [1]
  have hid : Injective Bool.toNat := by
    intro b c h
    cases b <;> cases c <;> first | rfl | cases h
  have hown := (calls_return_own_result hid hrun).2.2.mpr (by
    intro c out _ _ e he _
    rw [hexecuted] at he
    obtain rfl | he := List.mem_cons.mp he
    · nofun
    · obtain rfl := List.mem_singleton.mp he
      nofun)
  exact ⟨s, hrun, by rw [hdelivered]; rfl, hput, hget, hown _ _ hput trivial,
    hown _ _ hget trivial⟩

/-- **An error without a text is lost**: the `Put` failed, and the call returns no error. -/
theorem empty_error_lost : ∃ s : State Bool ℕ Bytes,
    ReflTransGen (Step (refusing []) Bool.toNat putAndGet) (.init [7]) s ∧
      s.delivered.map Prod.fst = [true, false] ∧
      s.phase false = .returned (.result (.ok [])) ∧
      s.phase true = .returned (.result (.ok [7])) ∧
      s.executed.map (fun e => e.result.toExcept) = [.error [], .ok [7]] ∧
      ¬ OwnResult s Bool.toNat putAndGet false (.result (.ok [])) := by
  obtain ⟨s, hrun, hdelivered, hexecuted, hput, hget⟩ := exists_answered []
  refine ⟨s, hrun, by rw [hdelivered]; rfl, hput, hget, by rw [hexecuted]; rfl, ?_⟩
  rintro ⟨e, he, hid, -, hresult⟩
  rw [hexecuted] at he
  obtain rfl | he := List.mem_cons.mp he
  · cases hresult
  · obtain rfl := List.mem_singleton.mp he
    cases hid

end MetaNode.RemoteStorage
