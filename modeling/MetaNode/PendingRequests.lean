/-
Requests that wait for a response (`sendRpcRequest` of `client.go`, `sendChainRequest` of
`client_chain.go`, and the handlers of `handler.go` that answer them).

A call enters its channel under a fresh id in one of two tables, sends its request and waits
for a message on the channel, or for its timer.  A handler that receives a message looks the
id it carries up in the table that its command says, takes the entry out (but for a
`RegisterAccountAck`) and sends the message on the channel it found there, which has room
for one.  Calls and handlers take turns in any order (`Step`).
-/
import Mathlib.Logic.Relation
import MetaNode.PbMessage
import MetaNode.Receipt

namespace MetaNode.PendingRequests

open Function

/-! ### Which entry a message asks for -/

/-- `pendingRpcRequests` and `pendingChainRequests`. -/
inductive Table where
  | rpc
  | chain
  deriving DecidableEq

abbrev Key := Table × Bytes

variable (E : Env)

/-- `RpcError` can be read. -/
def rpcErrorOk (b : Bytes) : Bool :=
  match E.wire.decode b with
  | some fs => Wire.validUtf8 (Wire.getBytes 2 fs) && Wire.validUtf8 (Wire.getBytes 3 fs)
  | none => false

/-- The id of an `RpcResponse`, if the body is one. -/
def rpcResponseId (body : Bytes) : Option Bytes := do
  let fs ← E.wire.decode body
  if Wire.validUtf8 (Wire.getBytes 1 fs) && Wire.validUtf8 (Wire.getBytes 4 fs) &&
      (Wire.getRepeated 3 fs).all (rpcErrorOk E) then
    some (Wire.getBytes 4 fs)
  else none

/-- `TransactionHashWithError` can be read. -/
def transactionErrorOk (body : Bytes) : Bool :=
  match E.wire.decode body with
  | some fs => Wire.validUtf8 (Wire.getBytes 3 fs)
  | none => false

/-- The commands that `handleChainResponse` is for. -/
def chainCommands : List Bytes :=
  ["ChainId", "TransactionReceipt", "BlockNumber", "Logs", "TransactionByHash", "Nonce",
    "TransactionSuccess", "RegistrationMessage", "RegisterAccountAck", "RegistrationResult",
    "RegistrationStatus"].map asciiBytes

/-- A look at a table: for which entry, and whether the entry stays. -/
structure Lookup where
  key : Key
  stays : Bool

/-- The look at the tables that `HandleRequest` makes for a message. -/
def lookup (m : Message) : Option Lookup :=
  if m.header.command = asciiBytes "RpcResponse" then
    (rpcResponseId E m.body).map fun id => ⟨(.rpc, id), false⟩
  else if chainCommands.contains m.header.command then
    some ⟨(.chain, m.header.id), m.header.command = asciiBytes "RegisterAccountAck"⟩
  else if m.header.command = asciiBytes "TransactionError" then
    if transactionErrorOk E m.body ∧ m.header.id ≠ [] then some ⟨(.chain, m.header.id), false⟩
    else none
  else if m.header.command = asciiBytes "AccountState" ∨
      m.header.command = asciiBytes "Receipt" then
    if m.header.id ≠ [] then some ⟨(.chain, m.header.id), false⟩ else none
  else none

def carriedId (m : Message) : Table → Option Bytes
  | .rpc => rpcResponseId E m.body
  | .chain => some m.header.id

theorem carriedId_of_lookup {m : Message} {l : Lookup} (h : lookup E m = some l) :
    carriedId E m l.key.1 = some l.key.2 := by
  rw [lookup] at h
  split at h
  · obtain ⟨id, hid, rfl⟩ := Option.map_eq_some_iff.mp h
    exact hid
  -- all the others carry the id of the header
  split at h
  · cases h
    rfl
  split at h
  · split at h
    · cases h
      rfl
    · cases h
  split at h
  · split at h
    · cases h
      rfl
    · cases h
  · cases h

/-! ### The model -/

inductive Phase where
  | idle
  /-- The entry is made and the request is being sent. -/
  | sending
  /-- In the `select`. -/
  | waiting
  /-- It takes its entry out after an error or a timeout. -/
  | removing
  /-- Back, with a message or an error. -/
  | returned (n : Option ℕ)
  deriving DecidableEq

/-- The client: `C` are its calls, each with a channel of its own; received messages are
numbered. -/
structure State (C : Type) where
  phase : C → Phase
  pending : Key → Option C
  respCh : C → Option ℕ
  /-- The handlers that wait to send their message on a channel. -/
  handlers : List (ℕ × C)
  received : List ℕ

def State.init (C : Type) : State C := ⟨fun _ => .idle, fun _ => none, fun _ => none, [], []⟩

variable {C : Type} [DecidableEq C] (calls : C → Key) (message : ℕ → Message)

inductive Step : State C → State C → Prop where
  | unavailable {s} (c : C) (h : s.phase c = .idle) :
      Step s { s with phase := update s.phase c (.returned none) }
  | store {s} (c : C) (h : s.phase c = .idle) :
      Step s { s with
        phase := update s.phase c .sending
        pending := update s.pending (calls c) (some c) }
  | sent {s} (c : C) (h : s.phase c = .sending) :
      Step s { s with phase := update s.phase c .waiting }
  | sendFails {s} (c : C) (h : s.phase c = .sending) :
      Step s { s with phase := update s.phase c .removing }
  | take {s} (c : C) (n : ℕ) (h : s.phase c = .waiting) (hn : s.respCh c = some n) :
      Step s { s with
        phase := update s.phase c (.returned (some n))
        respCh := update s.respCh c none }
  | timeout {s} (c : C) (h : s.phase c = .waiting) :
      Step s { s with phase := update s.phase c .removing }
  | remove {s} (c : C) (h : s.phase c = .removing) :
      Step s { s with
        phase := update s.phase c (.returned none)
        pending := update s.pending (calls c) none }
  | receive {s} (n : ℕ) (c : C) (l : Lookup) (h : n ∉ s.received)
      (hl : lookup E (message n) = some l) (hc : s.pending l.key = some c) :
      Step s { s with
        pending := if l.stays then s.pending else update s.pending l.key none
        handlers := (n, c) :: s.handlers
        received := n :: s.received }
  /-- No entry: the message is dropped, or goes another way. -/
  | drop {s} (n : ℕ) (h : n ∉ s.received)
      (hnone : ∀ l, lookup E (message n) = some l → s.pending l.key = none) :
      Step s { s with received := n :: s.received }
  | put {s} (n : ℕ) (c : C) (h : (n, c) ∈ s.handlers) (hroom : s.respCh c = none) :
      Step s { s with
        handlers := s.handlers.erase (n, c)
        respCh := update s.respCh c (some n) }

abbrev Reachable : State C → Prop := Relation.ReflTransGen (Step E calls message) (State.init C)

variable {E calls message} {s s' : State C} {c c' : C} {n : ℕ}

/-! ### Messages reach their calls -/

/-- The message was received and asks for the entry of the call. -/
def For (E : Env) (calls : C → Key) (message : ℕ → Message) (s : State C) (n : ℕ) (c : C) : Prop :=
  n ∈ s.received ∧ ∃ stays, lookup E (message n) = some ⟨calls c, stays⟩

/-- Every message is on its way to the call that it is for. -/
structure Routed (E : Env) (calls : C → Key) (message : ℕ → Message) (s : State C) : Prop where
  pending : ∀ k c, s.pending k = some c → calls c = k
  handlers : ∀ p ∈ s.handlers, For E calls message s p.1 p.2
  respCh : ∀ c n, s.respCh c = some n → For E calls message s n c
  returned : ∀ c n, s.phase c = .returned (some n) → For E calls message s n c

section

variable (hs : Routed E calls message s)

include hs

theorem Routed.move {p : Phase} (hp : ∀ n, p = .returned (some n) → For E calls message s n c) :
    Routed E calls message { s with phase := update s.phase c p } where
  pending := hs.pending
  handlers := hs.handlers
  respCh := hs.respCh
  returned := (forall_update_iff s.phase fun c p =>
    ∀ n, p = Phase.returned (some n) → For E calls message s n c).mpr
      ⟨hp, fun c _ => hs.returned c⟩

omit [DecidableEq C] in
theorem Routed.setPending {k : Key} {v : Option C} (hv : ∀ c, v = some c → calls c = k) :
    Routed E calls message { s with pending := update s.pending k v } where
  pending := (forall_update_iff s.pending fun k v => ∀ c, v = some c → calls c = k).mpr
    ⟨hv, fun k _ => hs.pending k⟩
  handlers := hs.handlers
  respCh := hs.respCh
  returned := hs.returned

theorem Routed.setRespCh {v : Option ℕ} (hv : ∀ n, v = some n → For E calls message s n c) :
    Routed E calls message { s with respCh := update s.respCh c v } where
  pending := hs.pending
  handlers := hs.handlers
  respCh := (forall_update_iff s.respCh fun c v =>
    ∀ n, v = some n → For E calls message s n c).mpr ⟨hv, fun c _ => hs.respCh c⟩
  returned := hs.returned

omit [DecidableEq C] in
theorem Routed.receive (n : ℕ) : Routed E calls message { s with received := n :: s.received } where
  pending := hs.pending
  handlers p hp := ⟨List.mem_cons_of_mem _ (hs.handlers p hp).1, (hs.handlers p hp).2⟩
  respCh c m hm := ⟨List.mem_cons_of_mem _ (hs.respCh c m hm).1, (hs.respCh c m hm).2⟩
  returned c m hm := ⟨List.mem_cons_of_mem _ (hs.returned c m hm).1, (hs.returned c m hm).2⟩

theorem Routed.step (hstep : Step E calls message s s') : Routed E calls message s' := by
  cases hstep with
  | unavailable c | sent c | sendFails c | timeout c => exact hs.move (by simp)
  | store c =>
    have hpending := hs.setPending (k := calls c) (v := some c) (by simp)
    exact hpending.move (by simp)
  | remove c =>
    have hpending := hs.setPending (k := calls c) (v := none) (by simp)
    exact hpending.move (by simp)
  | take c n h hn =>
    have htaken := hs.setRespCh (c := c) (v := none) (by simp)
    refine htaken.move ?_
    rintro m ⟨⟩
    exact hs.respCh c n hn
  | receive n c l h hl hc =>
    have hentry : Routed E calls message { s with
        pending := if l.stays then s.pending else update s.pending l.key none } := by
      by_cases hstays : l.stays
      · simpa [hstays] using hs
      · simpa [hstays] using hs.setPending (k := l.key) (v := none) (by simp)
    have hall := hentry.receive n
    refine ⟨hall.pending, ?_, hall.respCh, hall.returned⟩
    rw [List.forall_mem_cons]
    refine ⟨⟨List.mem_cons_self, l.stays, ?_⟩, hall.handlers⟩
    rw [hl, hs.pending _ _ hc]
  | drop n => exact hs.receive n
  | put n c h =>
    have hput := hs.setRespCh (c := c) (v := some n) ?_
    · exact ⟨hput.pending, fun p hp => hput.handlers p (List.mem_of_mem_erase hp), hput.respCh,
        hput.returned⟩
    · rintro m ⟨⟩
      exact hs.handlers _ h

end

theorem routed_of_reachable (h : Reachable E calls message s) : Routed E calls message s := by
  induction h with
  | refl =>
    exact ⟨by simp [State.init], List.forall_mem_nil _, by simp [State.init], by simp [State.init]⟩
  | tail _ hstep ih => exact ih.step hstep

theorem returned_step {r : Option ℕ} (hstep : Step E calls message s s')
    (h : s.phase c = .returned r) : s'.phase c = .returned r := by
  have hother : ∀ c' p, s.phase c' ≠ .returned r → update s.phase c' p c = .returned r := by
    intro c' p hc'
    have hne : c ≠ c' := by
      rintro rfl
      exact hc' h
    rw [update_of_ne hne, h]
  cases hstep with
  | unavailable c' h' | store c' h' | sent c' h' | sendFails c' h' | timeout c' h' | remove c' h' =>
    exact hother c' _ (by simp [h'])
  | take c' n h' => exact hother c' _ (by simp [h'])
  | receive | drop | put => exact h

/-- A call returns once.  What it returns is an error or a message that carries its id, and
no two calls return the same message. -/
theorem responses_routed (hids : Injective calls) (hs : Reachable E calls message s) :
    (∀ c r s', s.phase c = .returned r → Relation.ReflTransGen (Step E calls message) s s' →
      s'.phase c = .returned r) ∧
    (∀ c n, s.phase c = .returned (some n) →
      n ∈ s.received ∧ carriedId E (message n) (calls c).1 = some (calls c).2) ∧
    ∀ c c' n, s.phase c = .returned (some n) → s.phase c' = .returned (some n) → c = c' := by
  have hrouted := routed_of_reachable hs
  refine ⟨?_, ?_, ?_⟩
  · intro c r s' h hrun
    induction hrun with
    | refl => exact h
    | tail _ hstep ih => exact returned_step hstep ih
  · intro c n h
    obtain ⟨hn, stays, hl⟩ := hrouted.returned c n h
    exact ⟨hn, carriedId_of_lookup E hl⟩
  · intro c c' n h h'
    obtain ⟨-, stays, hl⟩ := hrouted.returned c n h
    obtain ⟨-, stays', hl'⟩ := hrouted.returned c' n h'
    rw [hl, Option.some.injEq, Lookup.mk.injEq] at hl'
    exact hids hl'.1

section Examples

def exampleCalls (c : Bool) : Key := if c then (.chain, [1]) else (.rpc, [2])

/-- A response to the request `[1]`. -/
def exampleMessages (_ : ℕ) : Message :=
  ⟨{ Pb.Header.new with command := asciiBytes "ChainId", id := [1] }, []⟩

theorem responses_routed_example :
    ∃ s, Reachable stdEnv exampleCalls exampleMessages s ∧ s.phase true = .returned (some 0) ∧
      carriedId stdEnv (exampleMessages 0) .chain = some [1] := by
  have hinj : Injective exampleCalls := by
    intro c c' h
    revert c c'
    decide
  have h₁ : Reachable stdEnv exampleCalls exampleMessages _ := .tail .refl (.store true rfl)
  have h₂ := h₁.tail (.sent true rfl)
  have h₃ := h₂.tail (.receive 0 true ⟨(.chain, [1]), false⟩ List.not_mem_nil rfl rfl)
  have h₄ := h₃.tail (.put 0 true List.mem_cons_self rfl)
  have h₅ := h₄.tail (.take true 0 rfl rfl)
  exact ⟨_, h₅, rfl, ((responses_routed hinj h₅).2.1 true 0 rfl).2⟩

end Examples

end MetaNode.PendingRequests
