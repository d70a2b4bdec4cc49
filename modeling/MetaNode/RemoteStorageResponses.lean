/-
Responses from any server (`handleResponses` of `pkg/storage/remote_storage_client.go`).

The client of `RemoteStorage` with a server that may send any responses at any time: with
unknown ids, with the id of a request that was answered before, the same one again
(`OpenStep`).  `handleResponses` finds the call of a response in the table and puts the
response on the call's channel, which has room for one.  The call takes at most one.

* `JammedAt.step` — a response for a call that has left its `select` with its channel full is
  never delivered, and no response after it;
* `exists_deliver` — any other response is delivered in some continuation;
* `FairRun.served` — in a fair run without a jam every response is taken.
-/
import MetaNode.Blocking
import MetaNode.Fairness
import MetaNode.RemoteStorage

namespace MetaNode.RemoteStorage

open Function Relation

variable {Call Id σ : Type} [DecidableEq Call] [DecidableEq Id]

/-- The client, and every response that ever arrived. -/
structure OpenState (Call Id σ : Type) where
  client : State Call Id σ
  arrived : List (Response Id)

def OpenState.init (store : σ) : OpenState Call Id σ := ⟨.init store, []⟩

/-- A step of the client, or a response that arrives. -/
inductive OpenStep (storage : Storage σ) (reqID : Call → Id) (op : Call → StorageOp)
    (s : OpenState Call Id σ) : OpenState Call Id σ → Prop
  | client {s' : State Call Id σ} (h : Step storage reqID op s.client s')
      (hserver : s'.executed = s.client.executed) :
      OpenStep storage reqID op s ⟨s', s.arrived⟩
  | arrive (resp : Response Id) :
      OpenStep storage reqID op s
        ⟨{ s.client with responses := s.client.responses ++ [resp] }, s.arrived ++ [resp]⟩

variable {storage : Storage σ} {reqID : Call → Id} {op : Call → StorageOp}

/-- The call has left its `select`. -/
def Phase.left : Phase → Bool
  | .idle => false
  | .stored => false
  | .waiting => false
  | .returning _ => true
  | .returned _ => true

/-- `handleResponses` has a response for a call that takes none any more, and its channel is
full. -/
structure JammedAt (s : State Call Id σ) (c : Call) (resp : Response Id) : Prop where
  handler : s.handler = .delivering c resp
  full : s.ch c ≠ none
  left : (s.phase c).left

def Jammed (s : State Call Id σ) : Prop := ∃ c resp, JammedAt s c resp

/-- `handleResponses` stands at `pending.ch <- respWrapper` and stays there, whatever happens. -/
def HandlerBlocked (storage : Storage σ) (reqID : Call → Id) (op : Call → StorageOp)
    (s : OpenState Call Id σ) : Prop :=
  (∃ c resp, s.client.handler = .delivering c resp) ∧
    Blocking.Blocked (OpenStep storage reqID op) (fun s => s.client.handler) s

/-! ### A delivery that waits -/

section Waits

variable {s s' : State Call Id σ} {c : Call} {resp : Response Id}

/-- How many steps a call has before it. -/
def Phase.rank : Phase → ℕ
  | .idle => 4
  | .stored => 3
  | .waiting => 2
  | .returning _ => 1
  | .returned _ => 0

theorem Phase.rank_lt (p : Phase) : p.rank < 5 := by cases p <;> simp [rank]

theorem Phase.left_iff {p : Phase} : p.left ↔ p.rank ≤ 1 := by cases p <;> simp [left, rank]

theorem Step.forward (hstep : Step storage reqID op s s') (c : Call) :
    s'.phase c = s.phase c ∨ (s'.phase c).rank < (s.phase c).rank := by
  cases hstep.call c with
  | same h => exact .inl h
  | failed _ h h' => rcases h with h | h <;> simp [h, h', Phase.rank]
  | stored h h' | sent h h' | answered _ h _ h' | returned _ h h' => simp [h, h', Phase.rank]

omit [DecidableEq Call] [DecidableEq Id] in
/-- `handleResponses` keeps its response; the channel changes only if the call takes from it. -/
structure Waits (s s' : State Call Id σ) (c : Call) (resp : Response Id) : Prop where
  handler : s'.handler = .delivering c resp
  delivered : s'.delivered = s.delivered
  ch : s'.ch c = s.ch c ∨ s.phase c = .waiting ∧ s'.ch c = none
  phase : s'.phase c = s.phase c ∨ (s'.phase c).rank < (s.phase c).rank

theorem Step.of_delivering (hstep : Step storage reqID op s s')
    (h : s.handler = .delivering c resp) :
    (s.ch c = none ∧ s'.handler = .listening ∧ (c, resp) ∈ s'.delivered) ∨ Waits s s' c resp := by
  have hphase := hstep.forward c
  -- The handler is neither listening nor handing an error on.
  cases hstep with
  | takeResponse c' resp' hc' =>
    refine .inr ⟨h, rfl, ?_, hphase⟩
    by_cases heq : c = c'
    · subst heq
      exact .inr ⟨hc', update_self ..⟩
    · exact .inl (update_of_ne heq ..)
  | load before after resp' c' hhandler | discard before after resp' hhandler
  | connectionError hhandler | notify id c' hhandler | drop id hhandler =>
    rw [h] at hhandler
    cases hhandler
  | deliver c' resp' hhandler hroom =>
    rw [h] at hhandler
    cases hhandler
    exact .inl ⟨hroom, rfl, by simp⟩
  | stop hhandler =>
    rw [h] at hhandler
    rcases hhandler with hhandler | hhandler <;> cases hhandler
  | _ => exact .inr ⟨h, rfl, .inl rfl, hphase⟩

theorem OpenStep.of_delivering {s s' : OpenState Call Id σ}
    (hstep : ReflGen (OpenStep storage reqID op) s s') (h : s.client.handler = .delivering c resp) :
    (s.client.ch c = none ∧ s'.client.handler = .listening ∧
      (c, resp) ∈ s'.client.delivered) ∨ Waits s.client s'.client c resp := by
  obtain - | (hclient | -) := hstep
  · exact .inr ⟨h, rfl, .inl rfl, .inl rfl⟩
  · exact hclient.of_delivering h
  · exact .inr ⟨h, rfl, .inl rfl, .inl rfl⟩

end Waits

/-! ### A jam does not end -/

section Jam

variable {s s' : OpenState Call Id σ} {c : Call} {resp : Response Id}

theorem JammedAt.step (h : JammedAt s.client c resp) (hstep : OpenStep storage reqID op s s') :
    JammedAt s'.client c resp ∧ s'.client.delivered = s.client.delivered := by
  have hleft := h.left
  obtain ⟨hroom, -⟩ | hwaits := OpenStep.of_delivering (.single hstep) h.handler
  · exact absurd hroom h.full
  · refine ⟨⟨hwaits.handler, ?_, ?_⟩, hwaits.delivered⟩
    · obtain hsame | ⟨hwaiting, -⟩ := hwaits.ch
      · rw [hsame]
        exact h.full
      · rw [hwaiting] at hleft
        cases hleft
    · obtain hsame | hlt := hwaits.phase
      · rwa [hsame]
      · rw [Phase.left_iff] at hleft ⊢
        omega

theorem JammedAt.blocked (h : JammedAt s.client c resp) :
    HandlerBlocked storage reqID op s ∧
      Blocking.Blocked (OpenStep storage reqID op) (fun s => s.client.delivered) s := by
  refine ⟨⟨⟨c, resp, h.handler⟩, ?_⟩, ?_⟩
  · refine Blocking.blocked_of_stable (I := fun s => JammedAt s.client c resp) ?_ h
    intro s₁ s₂ h₁ hstep
    have h₂ := (h₁.step hstep).1
    exact ⟨h₂, by rw [h₂.handler, h₁.handler]⟩
  · exact Blocking.blocked_of_stable (fun s₁ s₂ h₁ hstep => JammedAt.step h₁ hstep) h

end Jam

/-! ### Without a jam responses are delivered -/

section Deliver

variable {s s' : OpenState Call Id σ} {c : Call} {resp : Response Id}

omit [DecidableEq Call] [DecidableEq Id] in
/-- Nothing has happened but to one call. -/
structure Aside (s s' : State Call Id σ) (c : Call) : Prop where
  responses : s'.responses = s.responses
  pending : s'.pending = s.pending
  phase : ∀ c', c' ≠ c → s'.phase c' = s.phase c'

/-- A call in its `select`, or before it, can take what is on its channel. -/
theorem exists_room
    (hc : s.client.ch c = none ∨ s.client.phase c = .stored ∨ s.client.phase c = .waiting) :
    ∃ s', ReflTransGen (OpenStep storage reqID op) s s' ∧ s'.client.handler = s.client.handler ∧
      s'.client.ch c = none ∧ Aside s.client s'.client c := by
  cases hch : s.client.ch c with
  | none => exact ⟨s, .refl, rfl, hch, rfl, rfl, fun _ _ => rfl⟩
  | some resp =>
    obtain hstored | hwaiting := hc.resolve_left (by simp [hch])
    · have hsend : ReflTransGen (OpenStep storage reqID op) s _ :=
        .single (.client (.send c hstored) rfl)
      refine ⟨_, hsend.tail (.client (.takeResponse c resp (update_self ..) hch) rfl), rfl,
        update_self .., rfl, rfl, fun c' hc' => ?_⟩
      exact (update_of_ne hc' ..).trans (update_of_ne hc' ..)
    · refine ⟨_, .single (.client (.takeResponse c resp hwaiting hch) rfl), rfl, update_self ..,
        rfl, rfl, fun c' hc' => ?_⟩
      exact update_of_ne hc' ..

theorem exists_deliver (hhandler : s.client.handler = .delivering c resp)
    (hc : s.client.ch c = none ∨ s.client.phase c = .stored ∨ s.client.phase c = .waiting) :
    ∃ s', ReflTransGen (OpenStep storage reqID op) s s' ∧ s'.client.handler = .listening ∧
      (c, resp) ∈ s'.client.delivered ∧ Aside s.client s'.client c := by
  obtain ⟨s₁, hrun, hsame, hroom, haside⟩ := exists_room hc
  have hdeliver : OpenStep storage reqID op s₁ _ :=
    .client (.deliver c resp (hsame.trans hhandler) hroom) rfl
  exact ⟨_, hrun.tail hdeliver, rfl, by simp, haside.responses, haside.pending, haside.phase⟩

end Deliver

/-! ### What every run keeps -/

section Runs

variable {s s' : State Call Id σ}

structure Begun (s : State Call Id σ) : Prop where
  pending : ∀ id c, s.pending id = some c → s.phase c ≠ .idle
  delivering : ∀ c resp, s.handler = .delivering c resp → s.phase c ≠ .idle

theorem Begun.step (h : Begun s) (hstep : Step storage reqID op s s') : Begun s' := by
  have hkeeps : ∀ {c}, s.phase c ≠ .idle → s'.phase c ≠ .idle := by
    intro c hc
    cases hstep.call c with
    | same h => rwa [h]
    | stored _ h' | sent _ h' | failed _ _ h' | answered _ _ _ h' | returned _ _ h' => simp [h']
  refine ⟨fun id c hc => ?_, fun c resp hc => ?_⟩
  · obtain hc | ⟨-, hstored⟩ := hstep.pending hc
    · exact hkeeps (h.pending id c hc)
    · simp [hstored]
  · obtain hc | ⟨-, hpending⟩ := hstep.delivering hc
    · exact hkeeps (h.delivering c resp hc)
    · exact hkeeps (h.pending _ _ hpending)

def Handler.held : Handler Call Id → List (Response Id)
  | .delivering _ resp => [resp]
  | .listening => []
  | .notifying => []
  | .dropping _ => []
  | .stopped => []

/-- The responses that are on their way or were delivered. -/
def State.held (s : State Call Id σ) : List (Response Id) :=
  s.responses ++ s.handler.held ++ s.delivered.map Prod.snd

theorem countP_held_step (hstep : Step storage reqID op s s') (hserver : s'.executed = s.executed)
    (id : Id) : s'.held.countP (·.requestId = id) ≤ s.held.countP (·.requestId = id) := by
  cases hstep with
  | load before after resp c hhandler hresponses hpending =>
    simp only [State.held, hhandler, hresponses, Handler.held, List.countP_append,
      List.countP_cons, List.countP_nil]
    omega
  | discard before after resp hhandler hresponses hpending
  | loseResponse before after resp hresponses =>
    simp only [State.held, hresponses, List.countP_append, List.countP_cons]
    omega
  | deliver c resp hhandler hch =>
    simp only [State.held, hhandler, Handler.held, List.map_append, List.map_cons, List.map_nil,
      List.countP_append, List.countP_cons, List.countP_nil]
    omega
  | connectionError hhandler | notify id' c hhandler | drop id' hhandler =>
    simp [State.held, hhandler, Handler.held]
  | stop hhandler => rcases hhandler with hhandler | hhandler <;>
      simp [State.held, hhandler, Handler.held]
  | execute => simp [State.execute] at hserver
  | store | send | sendFails | takeResponse | takeError | timeout | delete | loseRequest =>
    exact Nat.le_refl _

def Kept (s : State Call Id σ) : Prop := ∀ c resp, s.ch c = some resp → (c, resp) ∈ s.delivered

theorem Kept.step (h : Kept s) (hstep : Step storage reqID op s s') : Kept s' := by
  intro c resp hc
  obtain hc | ⟨-, hmem⟩ := hstep.ch hc
  · have hmem := h c resp hc
    cases hstep with
    | deliver => exact List.mem_append_left _ hmem
    | _ => exact hmem
  · exact hmem

end Runs

/-- Everything that holds along the runs with any server. -/
structure Received (reqID : Call → Id) (s : OpenState Call Id σ) : Prop where
  routed : Routed reqID s.client
  begun : Begun s.client
  kept : Kept s.client
  count : ∀ id, s.client.held.countP (·.requestId = id) ≤ s.arrived.countP (·.requestId = id)

theorem Received.step {s s' : OpenState Call Id σ} (h : Received reqID s)
    (hstep : OpenStep storage reqID op s s') : Received reqID s' := by
  cases hstep with
  | client hclient hserver =>
    exact ⟨h.routed.step hclient, h.begun.step hclient, h.kept.step hclient,
      fun id => Nat.le_trans (countP_held_step hclient hserver id) (h.count id)⟩
  | arrive resp =>
    refine ⟨⟨h.routed.pending, h.routed.delivering, h.routed.ch, h.routed.delivered⟩,
      ⟨h.begun.pending, h.begun.delivering⟩, h.kept, fun id => ?_⟩
    have hcount := h.count id
    simp only [State.held, List.countP_append] at hcount ⊢
    omega

variable {s : OpenState Call Id σ}

theorem received_of_reachable {store : σ}
    (hs : ReflTransGen (OpenStep storage reqID op) (.init store) s) : Received reqID s := by
  refine Blocking.invariant (I := Received reqID) (fun s s' h hstep => h.step hstep) hs ?_
  refine ⟨⟨?_, ?_, ?_, ?_⟩, ⟨?_, ?_⟩, ?_, ?_⟩ <;>
    simp [OpenState.init, State.init, Kept, State.held, Handler.held]

variable {resp : Response Id}

omit [DecidableEq Call] in
theorem two_le_count_of_jammed (h : Received reqID s) {c : Call} (hjam : JammedAt s.client c resp) :
    2 ≤ s.arrived.countP (·.requestId = reqID c) := by
  obtain ⟨resp', hfull⟩ := Option.ne_none_iff_exists'.mp hjam.full
  have hsecond := h.routed.delivering c resp hjam.handler
  have hfirst := h.routed.ch c resp' hfull
  have hmem : resp' ∈ s.client.delivered.map Prod.snd :=
    List.mem_map.mpr ⟨(c, resp'), h.kept c resp' hfull, rfl⟩
  have hpos : 0 < (s.client.delivered.map Prod.snd).countP (·.requestId = reqID c) :=
    List.countP_pos_iff.mpr ⟨resp', hmem, by simpa using hfirst⟩
  have hcount := h.count (reqID c)
  simp only [State.held, hjam.handler, Handler.held, List.countP_append, List.countP_cons,
    List.countP_nil, hsecond, decide_true, if_true] at hcount
  omega

omit [DecidableEq Call] [DecidableEq Id] in
theorem room_of_not_jammed {s : State Call Id σ} (hbegun : Begun s) (hjam : ¬ Jammed s) {c : Call}
    (hhandler : s.handler = .delivering c resp) :
    s.ch c = none ∨ s.phase c = .stored ∨ s.phase c = .waiting := by
  have hleft : s.ch c ≠ none → ¬ (s.phase c).left :=
    fun hfull hleft => hjam ⟨c, resp, hhandler, hfull, hleft⟩
  by_cases hroom : s.ch c = none
  · exact .inl hroom
  · right
    have hphase := hleft hroom
    cases hc : s.phase c with
    | idle => exact absurd hc (hbegun.delivering c resp hhandler)
    | stored => exact .inl rfl
    | waiting => exact .inr rfl
    | returning | returned => simp [hc, Phase.left] at hphase

/-- `handleResponses` listens, or the call to which it delivers has room or is in its
`select`. -/
def Roomy (s : State Call Id σ) : Prop := s.handler = .listening ∨
  ∃ c resp, s.handler = .delivering c resp ∧
    (s.ch c = none ∨ s.phase c = .stored ∨ s.phase c = .waiting)

/-! ### In a fair run every response is taken -/

section Fair

/-- On a connection that works `handleResponses` takes the responses in order, and none is
lost. -/
def Ordered (s s' : State Call Id σ) : Prop :=
  match s.handler with
  | .listening => s.responses <+: s'.responses ∧ s'.handler = .listening ∨
      ∃ resp, s.responses = resp :: s'.responses ∧
        match s'.pending resp.requestId with
        | some c => s'.handler = .delivering c resp
        | none => s'.handler = .listening
  | .delivering _ _ => s.responses <+: s'.responses
  | _ => False

/-- `handleResponses` goes on, or the call to which it delivers. -/
def Moved (s s' : State Call Id σ) : Prop :=
  s'.handler ≠ s.handler ∨ s'.responses.length < s.responses.length ∨
    ∃ c resp, s.handler = .delivering c resp ∧ s'.phase c ≠ s.phase c

/-- A run in which they do not stop while they can go on. -/
structure FairRun (storage : Storage σ) (reqID : Call → Id) (op : Call → StorageOp)
    (run : ℕ → OpenState Call Id σ) : Prop where
  steps : Fairness.IsRun (fun s s' => ReflGen (OpenStep storage reqID op) s s' ∧
    Ordered s.client s'.client) run
  moves : Fairness.WeaklyFair (fun s s' => OpenStep storage reqID op s s' ∧
    Ordered s.client s'.client ∧ Moved s.client s'.client) run

/-- The response was delivered, or there is no call for it in the table. -/
def Served (s : State Call Id σ) (resp : Response Id) : Prop :=
  (∃ c, (c, resp) ∈ s.delivered) ∨ s.pending resp.requestId = none

/-- The responses that `handleResponses` has before it. -/
def State.queue (s : State Call Id σ) : List (Response Id) := s.handler.held ++ s.responses

/-- How many moves there are at most to the next response. -/
def State.moves (s : State Call Id σ) : ℕ :=
  match s.handler with
  | .delivering c _ => (s.phase c).rank
  | _ => 5

def State.rank (resp : Response Id) (s : State Call Id σ) : ℕ :=
  6 * s.queue.idxOf resp + s.moves

omit [DecidableEq Call] [DecidableEq Id] in
theorem State.moves_le (s : State Call Id σ) : s.moves ≤ 5 := by
  rw [moves]
  split
  · exact Nat.le_of_lt (Phase.rank_lt _)
  · exact Nat.le_refl _

variable {s' : OpenState Call Id σ}

/-- The queue keeps its first response, or serves it. -/
theorem queue_step (hstep : ReflGen (OpenStep storage reqID op) s s')
    (hordered : Ordered s.client s'.client) :
    (s.client.queue <+: s'.client.queue ∧ (s'.client.moves < s.client.moves ∨
        ¬ Moved s.client s'.client ∧ s'.client.moves = s.client.moves)) ∨
      ∃ r rest, s.client.queue = r :: rest ∧ rest <+: s'.client.queue ∧ Served s'.client r := by
  rw [Ordered] at hordered
  split at hordered
  · next hlisten =>
    -- nothing was taken, or the first response: for a call in the table, or for none
    rcases hordered with ⟨hgrows, hlisten'⟩ | ⟨r, htook, hmatch⟩
    · refine .inl ⟨?_, .inr ⟨?_, ?_⟩⟩
      · simpa [State.queue, hlisten, hlisten', Handler.held]
      · simp [Moved, hlisten, hlisten', hgrows.length_le]
      · simp [State.moves, hlisten, hlisten']
    · split at hmatch
      · refine .inl ⟨?_, .inl ?_⟩
        · simp [State.queue, hlisten, hmatch, htook, Handler.held]
        · simpa [State.moves, hlisten, hmatch] using Phase.rank_lt _
      · next hpending =>
        refine .inr ⟨r, s'.client.responses, ?_, ?_, .inr hpending⟩
        · simpa [State.queue, hlisten, Handler.held]
        · simp [State.queue, hmatch, Handler.held]
  · next c r hhandler =>
    -- it was delivered, or the call to which it is delivered has at most gone on
    obtain ⟨-, hlisten', hmem⟩ | hwaits := OpenStep.of_delivering hstep hhandler
    · refine .inr ⟨r, s.client.responses, ?_, ?_, .inl ⟨c, hmem⟩⟩
      · simp [State.queue, hhandler, Handler.held]
      · simpa [State.queue, hlisten', Handler.held]
    · refine .inl ⟨?_, ?_⟩
      · simpa [State.queue, hhandler, hwaits.handler, Handler.held]
      · obtain hsame | hlt := hwaits.phase
        · simp [Moved, State.moves, hhandler, hwaits.handler, hsame, hordered.length_le]
        · simp [State.moves, hhandler, hwaits.handler, hlt]
  · cases hordered

/-- The response is still before `handleResponses`, which can go on. -/
def Serving (s : State Call Id σ) (resp : Response Id) : Prop := resp ∈ s.queue ∧ Roomy s

theorem Serving.next (h : Serving s.client resp)
    (hstep : ReflGen (OpenStep storage reqID op) s s') (hordered : Ordered s.client s'.client)
    (hroomy : Roomy s'.client) :
    Served s'.client resp ∨ (Serving s'.client resp ∧
      (s'.client.rank resp < s.client.rank resp ∨
        ¬ Moved s.client s'.client ∧ s'.client.rank resp = s.client.rank resp)) := by
  obtain ⟨hqueued, -⟩ := h
  obtain ⟨⟨new, hnew⟩, hmoves⟩ | ⟨r, rest, hqueue, ⟨new, hnew⟩, hserved⟩ :=
    queue_step hstep hordered
  · refine .inr ⟨⟨hnew ▸ List.mem_append_left _ hqueued, hroomy⟩, ?_⟩
    simpa [State.rank, ← hnew, List.idxOf_append_of_mem hqueued] using hmoves
  · by_cases hr : r = resp
    · exact .inl (hr ▸ hserved)
    · -- one response less before it
      have hmem : resp ∈ rest := by simpa [hqueue, Ne.symm hr] using hqueued
      refine .inr ⟨⟨hnew ▸ List.mem_append_left _ hmem, hroomy⟩, .inl ?_⟩
      have hmoves := s'.client.moves_le
      rw [State.rank, State.rank, hqueue, List.idxOf_cons_ne _ hr, ← hnew,
        List.idxOf_append_of_mem hmem]
      omega

theorem Serving.enabled (h : Serving s.client resp) :
    ∃ s', OpenStep storage reqID op s s' ∧ Ordered s.client s'.client ∧
      Moved s.client s'.client := by
  obtain ⟨hqueued, hlisten | ⟨c, r, hhandler, hroom⟩⟩ := h
  · rw [State.queue, hlisten] at hqueued
    obtain ⟨r, rest, hresponses⟩ := List.exists_cons_of_ne_nil (List.ne_nil_of_mem hqueued)
    change s.client.responses = r :: rest at hresponses
    cases hpending : s.client.pending r.requestId with
    | some c =>
      refine ⟨_, .client (.load [] rest r c hlisten hresponses hpending) rfl, ?_,
        .inl (by simp [hlisten])⟩
      simp [Ordered, hlisten, hresponses, hpending]
    | none =>
      refine ⟨_, .client (.discard [] rest r hlisten hresponses hpending) rfl, ?_,
        .inr (.inl (by simp [hresponses]))⟩
      simp [Ordered, hlisten, hresponses, hpending]
  · have hordered : ∀ {s'}, s.client.responses = s'.responses → Ordered s.client s' := by
      intro s' hsame
      simp [Ordered, hhandler, hsame]
    -- a call in its `select` can always time out
    rcases hroom with hroom | hstored | hwaiting
    · exact ⟨_, .client (.deliver c r hhandler hroom) rfl, hordered rfl, .inl (by simp [hhandler])⟩
    · exact ⟨_, .client (.send c hstored) rfl, hordered rfl,
        .inr (.inr ⟨c, r, hhandler, by simp [hstored]⟩)⟩
    · exact ⟨_, .client (.timeout c hwaiting) rfl, hordered rfl,
        .inr (.inr ⟨c, r, hhandler, by simp [State.setPhase, hwaiting]⟩)⟩

variable {run : ℕ → OpenState Call Id σ} (hrun : FairRun storage reqID op run)

include hrun

theorem FairRun.roomy (h : Received reqID (run 0)) (hjam : ∀ n, ¬ Jammed (run n).client) (n : ℕ) :
    Roomy (run n).client := by
  have hreceived : Received reqID (run n) := by
    refine hrun.steps.invariant (fun s s' hs hnext => ?_) h n
    cases hnext.1 with
    | refl => exact hs
    | single hstep => exact hs.step hstep
  have hordered := (hrun.steps n).2
  rw [Ordered] at hordered
  split at hordered
  · next hlisten => exact .inl hlisten
  · next hhandler =>
    exact .inr ⟨_, _, hhandler, room_of_not_jammed hreceived.begun (hjam n) hhandler⟩
  · cases hordered

theorem FairRun.served (hroomy : ∀ n, Roomy (run n).client)
    (hresp : resp ∈ (run 0).client.responses) : ∃ n, Served (run n).client resp := by
  have hsteps : Fairness.IsRun (fun s s' => (ReflGen (OpenStep storage reqID op) s s' ∧
      Ordered s.client s'.client) ∧ Roomy s'.client) run :=
    fun n => ⟨hrun.steps n, hroomy (n + 1)⟩
  obtain ⟨n, -, hserved⟩ := Fairness.eventually_of_rank (P := fun s => Serving s.client resp)
    (Q := fun s => Served s.client resp) (fun s => s.client.rank resp) (fun s => Serving.enabled)
    (fun s s' h ⟨⟨hstep, hordered⟩, hroomy⟩ =>
      (h.next hstep hordered hroomy).imp_right fun ⟨h', hrank⟩ => ⟨h', by omega⟩)
    (fun s s' h ⟨⟨hstep, hordered⟩, hroomy⟩ ⟨_, _, hmoved⟩ =>
      (h.next hstep hordered hroomy).imp_right fun ⟨_, hrank⟩ =>
        hrank.resolve_right fun hstays => hstays.1 hmoved) hsteps hrun.moves
    ⟨List.mem_append_right _ hresp, hroomy 0⟩
  exact ⟨n, hserved⟩

end Fair

/-- A listening handler delivers any response for a call that is not through its `select`. -/
theorem exists_delivered_of_listening (hhandler : s.client.handler = .listening) {c : Call}
    (hresp : resp ∈ s.client.responses) (hpending : s.client.pending resp.requestId = some c)
    (hphase : s.client.phase c = .stored ∨ s.client.phase c = .waiting) :
    ∃ s', ReflTransGen (OpenStep storage reqID op) s s' ∧
      (c, resp) ∈ s'.client.delivered := by
  obtain ⟨before, after, hresponses⟩ := List.append_of_mem hresp
  have hload : OpenStep storage reqID op s _ :=
    .client (.load before after resp c hhandler hresponses hpending) rfl
  obtain ⟨s', hrun, -, hmem, -⟩ := exists_deliver (s := ⟨{ s.client with
    responses := before ++ after, handler := .delivering c resp }, s.arrived⟩) rfl (.inr hphase)
  exact ⟨s', .head hload hrun, hmem⟩

/-- **When `handleResponses` is blocked forever.**  In every reachable state, whatever
responses arrive, it is blocked on a delivery if and only if there is a jam, which takes two
responses with one id; without a jam a response for another call that waits can be delivered;
and in a fair run without a jam every response is taken. -/
theorem handleResponses_blocked_iff {store : σ}
    (hs : ReflTransGen (OpenStep storage reqID op) (.init store) s) :
    (HandlerBlocked storage reqID op s ↔ Jammed s.client) ∧
    ((s.arrived.map Response.requestId).Nodup → ¬ Jammed s.client) ∧
    (¬ Jammed s.client → ∀ c resp, resp ∈ s.client.responses →
      s.client.pending resp.requestId = some c →
      s.client.phase c = .stored ∨ s.client.phase c = .waiting →
      (s.client.handler = .listening ∨
        ∃ c' resp', s.client.handler = .delivering c' resp' ∧ c' ≠ c) →
      ∃ s', ReflTransGen (OpenStep storage reqID op) s s' ∧
        (c, resp) ∈ s'.client.delivered) ∧
    (∀ run, FairRun storage reqID op run → run 0 = s → (∀ n, ¬ Jammed (run n).client) →
      ∀ resp ∈ s.client.responses, ∃ n, Served (run n).client resp) := by
  have h := received_of_reachable hs
  have hgoes : ¬ Jammed s.client → ∀ c resp, s.client.handler = .delivering c resp →
      ∃ s', ReflTransGen (OpenStep storage reqID op) s s' ∧ s'.client.handler = .listening ∧
        (c, resp) ∈ s'.client.delivered ∧ Aside s.client s'.client c := by
    intro hjam c resp hhandler
    exact exists_deliver hhandler (room_of_not_jammed h.begun hjam hhandler)
  refine ⟨⟨?_, ?_⟩, ?_, ?_, ?_⟩
  · rintro ⟨⟨c, resp, hhandler⟩, hblocked⟩
    by_contra hjam
    obtain ⟨s', hrun, hlisten, -⟩ := hgoes hjam c resp hhandler
    refine Blocking.not_blocked hrun ?_ hblocked
    rw [hlisten, hhandler]
    simp
  · rintro ⟨c, resp, hjam⟩
    exact hjam.blocked.1
  · rintro hnodup ⟨c, resp, hjam⟩
    have htwo := two_le_count_of_jammed h hjam
    have hone := List.nodup_iff_count_le_one.mp hnodup (reqID c)
    rw [List.count, List.countP_map] at hone
    exact absurd (Nat.le_trans htwo hone) (by decide)
  · rintro hjam c resp hresp hpending hphase (hlisten | ⟨c', resp', hhandler, hne⟩)
    · exact exists_delivered_of_listening hlisten hresp hpending hphase
    · -- The handler gets rid of its response first.
      obtain ⟨s₁, hrun₁, hlisten, -, haside⟩ := hgoes hjam c' resp' hhandler
      obtain ⟨s₂, hrun₂, hmem⟩ := exists_delivered_of_listening hlisten
        (haside.responses ▸ hresp) (haside.pending ▸ hpending) (by rwa [haside.phase c hne.symm])
      exact ⟨s₂, hrun₁.trans hrun₂, hmem⟩
  · rintro run hrun rfl hjam resp hresp
    exact hrun.served (hrun.roomy h hjam) hresp

/-! ### One response too many -/

/-- The runs of two calls of `Get`. -/
abbrev SampleReachable : OpenState Bool ℕ Bytes → OpenState Bool ℕ Bytes → Prop :=
  ReflTransGen (OpenStep (refusing [1]) Bool.toNat fun _ => .get [5])

def sampleResponse (id : ℕ) : Response ℕ := ⟨id, [], .get [7] []⟩

/-- A fair run in which the only response is delivered. -/
theorem exists_fairRun {c : Call}
    (hlisten : s.client.handler = .listening) (hresponses : s.client.responses = [resp])
    (hpending : s.client.pending resp.requestId = some c) (hroom : s.client.ch c = none) :
    ∃ run, FairRun storage reqID op run ∧ run 0 = s ∧ ∀ n, ¬ Jammed (run n).client := by
  let s₁ : OpenState Call Id σ :=
    ⟨{ s.client with responses := [], handler := .delivering c resp }, s.arrived⟩
  let s₂ : OpenState Call Id σ := ⟨{ s₁.client with
    handler := .listening
    ch := update s₁.client.ch c (some resp)
    delivered := s₁.client.delivered ++ [(c, resp)] }, s.arrived⟩
  have hload : OpenStep storage reqID op s s₁ :=
    .client (.load [] [] resp c hlisten hresponses hpending) rfl
  have hdeliver : OpenStep storage reqID op s₁ s₂ := .client (.deliver c resp rfl hroom) rfl
  -- the response is loaded and delivered, and then nothing is left to do
  refine ⟨fun | 0 => s | 1 => s₁ | _ + 2 => s₂, ⟨?_, ?_⟩, rfl, ?_⟩
  · rintro (_ | _ | n)
    · exact ⟨.single hload, by simp [Ordered, hlisten, hresponses, hpending, s₁]⟩
    · exact ⟨.single hdeliver, List.prefix_rfl⟩
    · exact ⟨.refl, .inl ⟨List.prefix_rfl, rfl⟩⟩
  · refine Fairness.weaklyFair_of_rest (n := 2) (s := s₂) (fun k => by rw [Nat.add_comm]) ?_
    rintro ⟨s', -, hordered, hmoved⟩
    obtain ⟨-, hlisten'⟩ | ⟨r, hr, -⟩ := hordered
    · simp [Moved, hlisten', s₁, s₂] at hmoved
    · cases hr
  · rintro (_ | _ | n) ⟨c', resp', hjam⟩
    · exact absurd (hlisten.symm.trans hjam.handler) (by simp)
    · cases hjam.handler
      exact hjam.full hroom
    · cases hjam.handler

theorem handleResponses_goes_on : ∃ s, SampleReachable (.init [7]) s ∧
    s.client.phase true = .waiting ∧ sampleResponse 1 ∈ s.client.responses ∧
    ¬ HandlerBlocked (refusing [1]) Bool.toNat (fun _ => .get [5]) s ∧
    (∃ s', SampleReachable s s' ∧ (true, sampleResponse 1) ∈ s'.client.delivered) ∧
    ∃ run, FairRun (refusing [1]) Bool.toNat (fun _ => .get [5]) run ∧ run 0 = s ∧
      ∃ n, Served (run n).client (sampleResponse 1) := by
  have h₁ : SampleReachable (.init [7]) _ := .single (.client (.store true rfl) rfl)
  have h₂ := h₁.tail (.client (.send true rfl) rfl)
  have h₃ := h₂.tail (.arrive (sampleResponse 1))
  obtain ⟨s, hs, harrived, hphase, hlisten, hresponses, hpending, hroom⟩ :
      ∃ s, SampleReachable (.init [7]) s ∧ s.arrived = [sampleResponse 1] ∧
        s.client.phase true = .waiting ∧ s.client.handler = .listening ∧
        s.client.responses = [sampleResponse 1] ∧ s.client.pending 1 = some true ∧
        s.client.ch true = none :=
    ⟨_, h₃, rfl, rfl, rfl, rfl, rfl, rfl⟩
  obtain ⟨hblocked, hdistinct, hdelivered, hserved⟩ := handleResponses_blocked_iff hs
  have hjam := hdistinct (by simp [harrived])
  have hmem : sampleResponse 1 ∈ s.client.responses := by simp [hresponses]
  obtain ⟨run, hrun, hzero, hfree⟩ := exists_fairRun hlisten hresponses hpending hroom
  exact ⟨s, hs, hphase, hmem, fun h => hjam (hblocked.mp h),
    hdelivered hjam true _ hmem hpending (.inr hphase) (.inl hlisten),
    run, hrun, hzero, hserved run hrun hzero hfree _ hmem⟩

/-- The server answers one call twice, and the call times out before it has taken the first
response: `handleResponses` is blocked, and another call that waits does not get its response,
although it has arrived. -/
theorem duplicate_response_blocks : ∃ s, SampleReachable (.init [7]) s ∧
    HandlerBlocked (refusing [1]) Bool.toNat (fun _ => .get [5]) s ∧
    s.client.phase false = .waiting ∧ s.client.pending 0 = some false ∧
    sampleResponse 0 ∈ s.client.responses ∧
    ∀ s', SampleReachable s s' → (false, sampleResponse 0) ∉ s'.client.delivered := by
  have h₁ : SampleReachable (.init [7]) _ := .single (.client (.store true rfl) rfl)
  have h₂ := h₁.tail (.client (.send true rfl) rfl)
  have h₃ := h₂.tail (.client (.store false rfl) rfl)
  have h₄ := h₃.tail (.client (.send false rfl) rfl)
  have h₅ := h₄.tail (.arrive (sampleResponse 1))
  have h₆ := h₅.tail (.arrive (sampleResponse 1))
  have h₇ := h₆.tail (.arrive (sampleResponse 0))
  have h₈ := h₇.tail (.client (.load [] _ _ true rfl rfl rfl) rfl)
  have h₉ := h₈.tail (.client (.deliver true _ rfl rfl) rfl)
  have h₁₀ := h₉.tail (.client (.load [] _ _ true rfl rfl rfl) rfl)
  have h₁₁ := h₁₀.tail (.client (.timeout true rfl) rfl)
  obtain ⟨s, hs, hjam, hphase, hpending, hresp, hnot⟩ : ∃ s, SampleReachable (.init [7]) s ∧
      JammedAt s.client true (sampleResponse 1) ∧ s.client.phase false = .waiting ∧
      s.client.pending 0 = some false ∧ sampleResponse 0 ∈ s.client.responses ∧
      (false, sampleResponse 0) ∉ s.client.delivered :=
    ⟨_, h₁₁, ⟨rfl, Option.some_ne_none (sampleResponse 1), rfl⟩, rfl, rfl, by decide, by decide⟩
  refine ⟨s, hs, hjam.blocked.1, hphase, hpending, hresp, fun s' hrun => ?_⟩
  have hsame : s'.client.delivered = s.client.delivered := hjam.blocked.2 s' hrun
  rwa [hsame]

end MetaNode.RemoteStorage
