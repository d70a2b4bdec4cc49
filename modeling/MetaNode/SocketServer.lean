/-
The handlers of connections, the workers and `Stop` of a server (`pkg/network/server.go`).

A call of `HandleConnection` takes requests from its connection and offers each of them to
the channel `requestChan` of the server, which a pool of workers reads.  `Stop` cancels the
context, closes `requestChan` and waits for the workers, but not for the handlers.  A
handler that has a request when the channel is closed sends on a closed channel, and that
ends the program.
-/
import Mathlib.Data.Nat.Notation
import Mathlib.Logic.Function.Basic
import MetaNode.Blocking

namespace MetaNode.SocketServer

open Function

/-- Where a call of `HandleConnection` stands. -/
inductive HandlerPc (Request : Type) where
  /-- It asks the connection for its channels. -/
  | asking
  /-- It is in the `select` of its loop. -/
  | selecting
  /-- It has a request for the channel of the server. -/
  | forwarding (request : Request)
  /-- The channel of the server was full; the client is told. -/
  | busy
  | returned
  | panicked

inductive WorkerPc (Request : Type) where
  | selecting
  | handling (request : Request)
  | returned

inductive StopPc where
  | notCalled
  | cancelled
  | listenerClosed
  | waiting
  | stopped

variable {Handler Worker Request : Type}

/-- The server, with the calls of `HandleConnection` and the channels of their
connections. -/
structure State (Handler Worker Request : Type) where
  ctxDone : Bool
  /-- The requests in `requestChan`. -/
  requestChan : List Request
  requestChanClosed : Bool
  stop : StopPc
  handler : Handler → HandlerPc Request
  worker : Worker → WorkerPc Request
  /-- The request channel of a connection; a request may be nil. -/
  connRequests : Handler → List (Option Request)
  connRequestsClosed : Handler → Bool
  /-- The number of errors in the error channel of a connection. -/
  connErrors : Handler → ℕ
  connErrorsClosed : Handler → Bool

namespace State

/-- `NewSocketServer` and `startWorkerPool`; every call of `HandleConnection` is still to
begin. -/
def new : State Handler Worker Request where
  ctxDone := false
  requestChan := []
  requestChanClosed := false
  stop := .notCalled
  handler := fun _ => .asking
  worker := fun _ => .selecting
  connRequests := fun _ => []
  connRequestsClosed := fun _ => false
  connErrors := fun _ => 0
  connErrorsClosed := fun _ => false

variable (s : State Handler Worker Request)

/-- A send on the closed channel has ended the program. -/
def Crashed : Prop := ∃ h, s.handler h = .panicked

/-- There is room in `requestChan`, or a worker that waits for it. -/
def Accepts (requestChanSize : ℕ) (s : State Handler Worker Request) : Prop :=
  s.requestChan.length < requestChanSize ∨ (s.requestChan = [] ∧ ∃ w, s.worker w = .selecting)

/-- The connection has a request, or may still get one. -/
def MayGet (h : Handler) : Prop :=
  (∃ request, some request ∈ s.connRequests h) ∨ s.connRequestsClosed h = false

/-- The handler has a request, or goes on with a connection that may get one. -/
def CanSend (h : Handler) : Prop :=
  match s.handler h with
  | .forwarding _ => True
  | .asking | .selecting | .busy => s.MayGet h
  | .returned | .panicked => False

variable {s' : State Handler Worker Request} {s} {h : Handler}

/-- The handler has not panicked, and has no request nor will it get one. -/
structure Done (s : State Handler Worker Request) (h : Handler) : Prop where
  running : s.handler h ≠ .panicked
  cannotSend : ¬ s.CanSend h

theorem Done.mono (hdone : s.Done h) (hpc : s'.handler h = s.handler h)
    (hget : s'.MayGet h → s.MayGet h) : s'.Done h := by
  refine ⟨by rw [hpc]; exact hdone.running, fun hcan => hdone.cannotSend ?_⟩
  rw [CanSend, hpc] at hcan
  rw [CanSend]
  cases hpc : s.handler h with
  | forwarding => trivial
  | returned | panicked => rwa [hpc] at hcan
  | _ =>
    rw [hpc] at hcan
    exact hget hcan

theorem Done.congr (hdone : s.Done h) (hpc : s'.handler h = s.handler h)
    (hrequests : s'.connRequests h = s.connRequests h)
    (hclosed : s'.connRequestsClosed h = s.connRequestsClosed h) : s'.Done h := by
  refine hdone.mono hpc fun hget => ?_
  rwa [MayGet, hrequests, hclosed] at hget

theorem Done.of_returned (hpc : s.handler h = .returned) : s.Done h := by
  refine ⟨by rw [hpc]; simp, ?_⟩
  rw [CanSend, hpc]
  exact not_false

theorem Done.of_not_mayGet (hpc : s.handler h = .selecting) (hget : ¬ s.MayGet h) :
    s.Done h := by
  refine ⟨by rw [hpc]; simp, ?_⟩
  rw [CanSend, hpc]
  exact hget

variable (s)

def setWorker [DecidableEq Worker] (w : Worker)
    (pc : WorkerPc Request) : State Handler Worker Request :=
  { s with worker := update s.worker w pc }

variable [DecidableEq Handler] {h' : Handler}

def setHandler (h : Handler) (pc : HandlerPc Request) : State Handler Worker Request :=
  { s with handler := update s.handler h pc }

def setConnRequests (h : Handler)
    (requests : List (Option Request)) : State Handler Worker Request :=
  { s with connRequests := update s.connRequests h requests }

@[simp] theorem handler_setHandler (h : Handler)
    (pc : HandlerPc Request) : (s.setHandler h pc).handler h = pc := by
  simp [setHandler]

theorem handler_setHandler_ne (hne : h' ≠ h)
    (pc : HandlerPc Request) : (s.setHandler h pc).handler h' = s.handler h' := by
  simp [setHandler, hne]

@[simp] theorem connRequests_setConnRequests (h : Handler) (requests : List (Option Request)) :
    (s.setConnRequests h requests).connRequests h = requests := by
  simp [setConnRequests]

theorem connRequests_setConnRequests_ne (hne : h' ≠ h) (requests : List (Option Request)) :
    (s.setConnRequests h requests).connRequests h' = s.connRequests h' := by
  simp [setConnRequests, hne]

end State

variable [DecidableEq Handler] [DecidableEq Worker]

/-- The steps of a call of `HandleConnection`. -/
inductive HandlerStep (requestChanSize : ℕ) (h : Handler) :
    State Handler Worker Request → State Handler Worker Request → Prop where
  | channels {s} (hpc : s.handler h = .asking) : HandlerStep requestChanSize h s
      (s.setHandler h .selecting)
  | noChannels {s} (hpc : s.handler h = .asking) : HandlerStep requestChanSize h s
      (s.setHandler h .returned)
  | ctxDone {s} (hpc : s.handler h = .selecting) (hdone : s.ctxDone = true) :
      HandlerStep requestChanSize h s (s.setHandler h .returned)
  | request {s request rest} (hpc : s.handler h = .selecting)
      (hrequest : s.connRequests h = some request :: rest) :
      HandlerStep requestChanSize h s
        ((s.setConnRequests h rest).setHandler h (.forwarding request))
  | nilRequest {s rest} (hpc : s.handler h = .selecting)
      (hrequest : s.connRequests h = none :: rest) :
      HandlerStep requestChanSize h s (s.setConnRequests h rest)
  | requestsClosed {s} (hpc : s.handler h = .selecting) (hempty : s.connRequests h = [])
      (hclosed : s.connRequestsClosed h = true) :
      HandlerStep requestChanSize h s (s.setHandler h .returned)
  | error {s n} (hpc : s.handler h = .selecting) (herror : s.connErrors h = n + 1) :
      HandlerStep requestChanSize h s
        ({ s with connErrors := update s.connErrors h n }.setHandler h .returned)
  | errorsClosed {s} (hpc : s.handler h = .selecting) (hempty : s.connErrors h = 0)
      (hclosed : s.connErrorsClosed h = true) :
      HandlerStep requestChanSize h s (s.setHandler h .returned)
  | send {s request} (hpc : s.handler h = .forwarding request)
      (hopen : s.requestChanClosed = false) (hroom : s.requestChan.length < requestChanSize) :
      HandlerStep requestChanSize h s
        ({ s with requestChan := s.requestChan ++ [request] }.setHandler h .selecting)
  | handOver {s request} (w : Worker) (hpc : s.handler h = .forwarding request)
      (hopen : s.requestChanClosed = false) (hempty : s.requestChan = [])
      (hworker : s.worker w = .selecting) :
      HandlerStep requestChanSize h s ((s.setWorker w (.handling request)).setHandler h .selecting)
  | drop {s request} (hpc : s.handler h = .forwarding request)
      (hopen : s.requestChanClosed = false) (hfull : ¬ s.Accepts requestChanSize) :
      HandlerStep requestChanSize h s (s.setHandler h .busy)
  -- a `select` with a default panics too
  | sendClosed {s request} (hpc : s.handler h = .forwarding request)
      (hclosed : s.requestChanClosed = true) :
      HandlerStep requestChanSize h s (s.setHandler h .panicked)
  | busy {s} (hpc : s.handler h = .busy) : HandlerStep requestChanSize h s
      (s.setHandler h .selecting)

inductive WorkerStep (w : Worker) :
    State Handler Worker Request → State Handler Worker Request → Prop where
  | ctxDone {s} (hpc : s.worker w = .selecting) (hdone : s.ctxDone = true) :
      WorkerStep w s (s.setWorker w .returned)
  | request {s request rest} (hpc : s.worker w = .selecting)
      (hrequest : s.requestChan = request :: rest) :
      WorkerStep w s ({ s with requestChan := rest }.setWorker w (.handling request))
  | closed {s} (hpc : s.worker w = .selecting) (hempty : s.requestChan = [])
      (hclosed : s.requestChanClosed = true) : WorkerStep w s (s.setWorker w .returned)
  | handled {s request} (hpc : s.worker w = .handling request) :
      WorkerStep w s (s.setWorker w .selecting)

/-- The steps of `Stop`. -/
inductive StopStep : State Handler Worker Request → State Handler Worker Request → Prop where
  | cancel {s} (hpc : s.stop = .notCalled) :
      StopStep s { s with stop := .cancelled, ctxDone := true }
  | closeListener {s} (hpc : s.stop = .cancelled) : StopStep s { s with stop := .listenerClosed }
  | closeRequestChan {s} (hpc : s.stop = .listenerClosed) :
      StopStep s { s with stop := .waiting, requestChanClosed := true }
  | wait {s} (hpc : s.stop = .waiting) (hworkers : ∀ w, s.worker w = .returned) :
      StopStep s { s with stop := .stopped }

inductive ConnStep : State Handler Worker Request → State Handler Worker Request → Prop where
  | deliver {s} (h : Handler) (request : Option Request) (hopen : s.connRequestsClosed h = false) :
      ConnStep s (s.setConnRequests h (s.connRequests h ++ [request]))
  | closeRequests {s} (h : Handler) :
      ConnStep s { s with connRequestsClosed := update s.connRequestsClosed h true }
  | fail {s} (h : Handler) (hopen : s.connErrorsClosed h = false) :
      ConnStep s { s with connErrors := update s.connErrors h (s.connErrors h + 1) }
  | closeErrors {s} (h : Handler) :
      ConnStep s { s with connErrorsClosed := update s.connErrorsClosed h true }

/-- The steps of all of them, until the program ends. -/
inductive Step (requestChanSize : ℕ) :
    State Handler Worker Request → State Handler Worker Request → Prop where
  | handler {s s'} (hrunning : ¬ s.Crashed) (h : Handler)
      (hstep : HandlerStep requestChanSize h s s') : Step requestChanSize s s'
  | worker {s s'} (hrunning : ¬ s.Crashed) (w : Worker) (hstep : WorkerStep w s s') :
      Step requestChanSize s s'
  | stop {s s'} (hrunning : ¬ s.Crashed) (hstep : StopStep s s') : Step requestChanSize s s'
  | conn {s s'} (hrunning : ¬ s.Crashed) (hstep : ConnStep s s') : Step requestChanSize s s'

def Leads (requestChanSize : ℕ) :
    State Handler Worker Request → State Handler Worker Request → Prop :=
  Relation.ReflTransGen (Step requestChanSize)

variable {requestChanSize : ℕ} {s s' : State Handler Worker Request} {h h' : Handler}

/-! ### Handlers that are done -/

theorem State.Done.handlerStep (hdone : s.Done h) (hstep : HandlerStep requestChanSize h s s') :
    s'.Done h := by
  have hcannot := hdone.cannotSend
  rw [State.CanSend] at hcannot
  cases hstep with
  | channels hpc | busy hpc =>
    rw [hpc] at hcannot
    exact .of_not_mayGet (by simp) hcannot
  | noChannels | ctxDone | requestsClosed | error | errorsClosed => exact .of_returned (by simp)
  | request hpc hrequest =>
    rw [hpc] at hcannot
    exact absurd (.inl ⟨_, by rw [hrequest]; exact List.mem_cons_self⟩) hcannot
  | nilRequest hpc hrequest =>
    rw [hpc] at hcannot
    refine .of_not_mayGet hpc fun hget => hcannot ?_
    obtain ⟨request, hmem⟩ | hopen := hget
    · rw [State.connRequests_setConnRequests] at hmem
      exact .inl ⟨request, by rw [hrequest]; exact List.mem_cons_of_mem _ hmem⟩
    · exact .inr hopen
  | send hpc | handOver w hpc | drop hpc | sendClosed hpc =>
    rw [hpc] at hcannot
    exact absurd trivial hcannot

theorem HandlerStep.frame (hstep : HandlerStep requestChanSize h s s') (hne : h' ≠ h) :
    s'.handler h' = s.handler h' ∧ s'.connRequests h' = s.connRequests h' ∧
      s'.connRequestsClosed h' = s.connRequestsClosed h' := by
  cases hstep with
  | request =>
    refine ⟨?_, ?_, rfl⟩
    · exact (s.setConnRequests h _).handler_setHandler_ne hne _
    · exact s.connRequests_setConnRequests_ne hne _
  | nilRequest => exact ⟨rfl, s.connRequests_setConnRequests_ne hne _, rfl⟩
  | error => exact ⟨State.handler_setHandler_ne _ hne _, rfl, rfl⟩
  | _ => exact ⟨State.handler_setHandler_ne _ hne _, rfl, rfl⟩

omit [DecidableEq Worker] in
theorem State.Done.connStep (hdone : s.Done h) (hstep : ConnStep s s') : s'.Done h := by
  cases hstep with
  | deliver h' request hopen =>
    by_cases hh : h = h'
    · subst hh
      -- the channel is open, so the handler has returned
      have hget : s.MayGet h := .inr hopen
      cases hpc : s.handler h with
      | returned => exact .of_returned hpc
      | panicked => exact absurd hpc hdone.running
      | _ =>
        refine absurd ?_ hdone.cannotSend
        rw [State.CanSend, hpc]
        first | exact hget | trivial
    · exact hdone.congr rfl (s.connRequests_setConnRequests_ne hh _) rfl
  | closeRequests h' =>
    refine hdone.mono rfl ?_
    rintro (hmem | hopen)
    · exact .inl hmem
    · have hupdate : update s.connRequestsClosed h' true h = false := hopen
      by_cases hh : h = h'
      · rw [hh, update_self] at hupdate
        cases hupdate
      · rw [update_of_ne hh] at hupdate
        exact .inr hupdate
  | fail | closeErrors => exact hdone.congr rfl rfl rfl

theorem State.Done.step (hdone : ∀ h, s.Done h) (hstep : Step requestChanSize s s') :
    ∀ h, s'.Done h := by
  intro h
  cases hstep with
  | handler _ h' hstep =>
    by_cases hh : h = h'
    · subst hh
      exact (hdone h).handlerStep hstep
    · obtain ⟨hpc, hrequests, hclosed⟩ := hstep.frame hh
      exact (hdone h).congr hpc hrequests hclosed
  | worker _ w hstep | stop _ hstep => cases hstep <;> exact (hdone h).congr rfl rfl rfl
  | conn _ hstep => exact (hdone h).connStep hstep

theorem State.Done.leads (hleads : Leads requestChanSize s s') (hdone : ∀ h, s.Done h) :
    ∀ h, s'.Done h :=
  Blocking.invariant (I := fun s => ∀ h, s.Done h) (fun _ _ hdone hstep => Done.step hdone hstep)
    hleads hdone

/-! ### The server before the channel is closed -/

/-- Only `Stop` closes the channel, and only a send on the closed channel ends the
program. -/
structure State.Sound (s : State Handler Worker Request) : Prop where
  closed : s.requestChanClosed = true → s.stop = .waiting ∨ s.stop = .stopped
  crashed : s.Crashed → s.requestChanClosed = true

omit [DecidableEq Handler] [DecidableEq Worker] in
theorem State.Sound.new : (new : State Handler Worker Request).Sound where
  closed hclosed := by cases hclosed
  crashed hcrashed := by
    obtain ⟨h, hpanicked⟩ := hcrashed
    cases hpanicked

theorem HandlerStep.shared (hstep : HandlerStep requestChanSize h s s') :
    s'.stop = s.stop ∧ s'.requestChanClosed = s.requestChanClosed := by
  cases hstep <;> exact ⟨rfl, rfl⟩

theorem HandlerStep.closed_of_panicked (hstep : HandlerStep requestChanSize h s s')
    (hrunning : ¬ s.Crashed) (hpanicked : s'.handler h = .panicked) :
    s.requestChanClosed = true := by
  cases hstep with
  | sendClosed _ hclosed => exact hclosed
  | nilRequest => exact absurd ⟨h, hpanicked⟩ hrunning
  | _ =>
    rw [State.handler_setHandler] at hpanicked
    cases hpanicked

theorem State.Sound.step (hsound : s.Sound) (hstep : Step requestChanSize s s') : s'.Sound := by
  cases hstep with
  | handler hrunning h hstep =>
    obtain ⟨hstop, hclosed⟩ := hstep.shared
    refine ⟨by rw [hstop, hclosed]; exact hsound.closed, ?_⟩
    rintro ⟨h', hpanicked⟩
    rw [hclosed]
    by_cases hh : h' = h
    · rw [hh] at hpanicked
      exact hstep.closed_of_panicked hrunning hpanicked
    · rw [(hstep.frame hh).1] at hpanicked
      exact absurd ⟨h', hpanicked⟩ hrunning
  | worker _ w hstep | conn _ hstep => cases hstep <;> exact ⟨hsound.closed, hsound.crashed⟩
  | stop hrunning hstep =>
    cases hstep with
    | cancel hpc | closeListener hpc =>
      refine ⟨fun hclosed => ?_, fun hcrashed => absurd hcrashed hrunning⟩
      have hstop := hsound.closed hclosed
      rw [hpc] at hstop
      simp at hstop
    | closeRequestChan => exact ⟨fun _ => .inl rfl, fun _ => rfl⟩
    | wait => exact ⟨fun _ => .inr rfl, hsound.crashed⟩

theorem State.Sound.leads (hleads : Leads requestChanSize s s') (hsound : s.Sound) :
    s'.Sound :=
  Blocking.invariant (I := State.Sound) (fun _ _ hsound hstep => hsound.step hstep) hleads hsound

omit [DecidableEq Handler] [DecidableEq Worker] in
theorem State.Sound.not_crashed (hsound : s.Sound) (hpc : s.stop = .listenerClosed) :
    ¬ s.Crashed := by
  intro hcrashed
  have hstop := hsound.closed (hsound.crashed hcrashed)
  rw [hpc] at hstop
  simp at hstop

/-! ### A send on the closed channel -/

omit [DecidableEq Worker] in
theorem not_crashed_setHandler (hrunning : ¬ s.Crashed) (h : Handler) {pc : HandlerPc Request}
    (hpc : pc ≠ .panicked) : ¬ (s.setHandler h pc).Crashed := by
  rintro ⟨h', hpanicked⟩
  by_cases hh : h' = h
  · subst hh
    rw [State.handler_setHandler] at hpanicked
    exact hpc hpanicked
  · rw [State.handler_setHandler_ne _ hh] at hpanicked
    exact hrunning ⟨h', hpanicked⟩

def State.MayCrash (requestChanSize : ℕ) (s : State Handler Worker Request) : Prop :=
  ∃ s', Leads requestChanSize s s' ∧ s'.Crashed

theorem State.MayCrash.head (hstep : Step requestChanSize s s')
    (hcrash : s'.MayCrash requestChanSize) : s.MayCrash requestChanSize := by
  obtain ⟨s₂, hleads, hcrashed⟩ := hcrash
  exact ⟨s₂, hleads.head hstep, hcrashed⟩

section

variable (hrunning : ¬ s.Crashed) (hclosed : s.requestChanClosed = true)

include hrunning hclosed

theorem mayCrash_of_forwarding {request : Request} (hpc : s.handler h = .forwarding request) :
    s.MayCrash requestChanSize := by
  refine .head (.handler hrunning h (.sendClosed hpc hclosed)) ⟨_, .refl, h, ?_⟩
  rw [State.handler_setHandler]

theorem mayCrash_of_request
    (hpc : s.handler h = .selecting) {request : Request} {rest : List (Option Request)}
    (hrequest : s.connRequests h = some request :: rest) : s.MayCrash requestChanSize := by
  refine .head (.handler hrunning h (.request hpc hrequest)) ?_
  have hstill : ¬ (s.setConnRequests h rest).Crashed := hrunning
  exact mayCrash_of_forwarding (not_crashed_setHandler hstill h (by simp)) hclosed
    (State.handler_setHandler _ h (.forwarding request))

theorem mayCrash_of_selecting [Inhabited Request] (hpc : s.handler h = .selecting)
    (hget : s.MayGet h) : s.MayCrash requestChanSize := by
  induction hrequests : s.connRequests h generalizing s with
  | nil =>
    -- the connection is open, so a request may still come
    have hopen : s.connRequestsClosed h = false := by
      obtain ⟨request, hmem⟩ | hopen := hget
      · rw [hrequests] at hmem
        cases hmem
      · exact hopen
    refine .head (.conn hrunning (.deliver h (some default) hopen)) ?_
    rw [hrequests]
    exact mayCrash_of_request hrunning hclosed hpc (s.connRequests_setConnRequests h _)
  | cons request rest ih =>
    cases request with
    | some => exact mayCrash_of_request hrunning hclosed hpc hrequests
    | none =>
      refine .head (.handler hrunning h (.nilRequest hpc hrequests)) ?_
      refine ih hrunning hclosed hpc ?_ (s.connRequests_setConnRequests h rest)
      obtain ⟨request, hmem⟩ | hopen := hget
      · rw [hrequests, List.mem_cons] at hmem
        refine .inl ⟨request, ?_⟩
        rw [State.connRequests_setConnRequests]
        exact hmem.resolve_left (by simp)
      · exact .inr hopen

theorem mayCrash_of_canSend [Inhabited Request] (hcan : s.CanSend h) :
    s.MayCrash requestChanSize := by
  rw [State.CanSend] at hcan
  cases hpc : s.handler h with
  | asking =>
    rw [hpc] at hcan
    refine .head (.handler hrunning h (.channels hpc)) ?_
    exact mayCrash_of_selecting (not_crashed_setHandler hrunning h (by simp)) hclosed
      (s.handler_setHandler h _) hcan
  | selecting =>
    rw [hpc] at hcan
    exact mayCrash_of_selecting hrunning hclosed hpc hcan
  | forwarding => exact mayCrash_of_forwarding hrunning hclosed hpc
  | busy =>
    rw [hpc] at hcan
    refine .head (.handler hrunning h (.busy hpc)) ?_
    exact mayCrash_of_selecting (not_crashed_setHandler hrunning h (by simp)) hclosed
      (s.handler_setHandler h _) hcan
  | returned =>
    rw [hpc] at hcan
    exact hcan.elim
  | panicked => exact absurd ⟨h, hpc⟩ hrunning

end

/-- **After `Stop` has closed the channel no handler sends on it exactly if, when it was
closed, no handler had a request or could still get one.** -/
theorem no_send_after_close_iff [Inhabited Request] (requestChanSize : ℕ)
    (s s₁ : State Handler Worker Request) (hreach : Leads requestChanSize .new s)
    (hstop : s.stop = .listenerClosed) (hclose : StopStep s s₁) :
    (∀ s', Leads requestChanSize s₁ s' → ¬ s'.Crashed) ↔ ∀ h, ¬ s.CanSend h := by
  have hrunning := (State.Sound.leads hreach .new).not_crashed hstop
  cases hclose with
  | closeRequestChan =>
    constructor
    · intro hnever h hcan
      have hmay : State.MayCrash requestChanSize
          { s with stop := .waiting, requestChanClosed := true } :=
        mayCrash_of_canSend hrunning rfl hcan
      obtain ⟨s', hleads, hcrashed⟩ := hmay
      exact hnever s' hleads hcrashed
    · rintro hcannot s' hleads ⟨h, hpanicked⟩
      have hdone : ∀ h, s'.Done h := State.Done.leads hleads fun h =>
        ⟨fun hpc => hrunning ⟨h, hpc⟩, hcannot h⟩
      exact (hdone h).running hpanicked
  | _ hpc =>
    rw [hstop] at hpc
    cases hpc

/-- One handler, in its loop when `Stop` is called. -/
def State.sampleLoop : State Unit Unit Unit := State.new.setHandler () .selecting

theorem State.sampleLoop_leads : Leads 1 .new sampleLoop :=
  .single (.handler (by simp [Crashed, new]) () (.channels rfl))

theorem State.not_crashed_sampleLoop : ¬ sampleLoop.Crashed :=
  not_crashed_setHandler (by simp [Crashed, new]) () (by simp)

/-- The handler sees the cancelled context before the channel is closed. -/
def State.sampleReturned : State Unit Unit Unit :=
  { { sampleLoop with stop := .cancelled, ctxDone := true }.setHandler () .returned with
    stop := .listenerClosed }

theorem State.sampleReturned_leads : Leads 1 .new sampleReturned := by
  have hloop : sampleLoop.handler () = .selecting := handler_setHandler _ _ _
  have hcancelled : ¬ { sampleLoop with stop := .cancelled, ctxDone := true }.Crashed :=
    not_crashed_sampleLoop
  refine sampleLoop_leads.trans (.head (.stop not_crashed_sampleLoop (.cancel rfl)) ?_)
  refine .head (.handler hcancelled () (.ctxDone hloop rfl)) ?_
  exact .single (.stop (not_crashed_setHandler hcancelled () (by simp)) (.closeListener rfl))

theorem no_send_after_close_sampleReturned :
    State.sampleReturned.stop = .listenerClosed ∧
    ∀ s', Leads 1 { State.sampleReturned with stop := .waiting, requestChanClosed := true } s' →
      ¬ s'.Crashed := by
  refine ⟨rfl, (no_send_after_close_iff 1 State.sampleReturned _ State.sampleReturned_leads rfl
    (.closeRequestChan rfl)).mpr fun h => ?_⟩
  simp [State.CanSend, State.sampleReturned]

/-- The handler has taken a request but not yet offered it to the server. -/
def State.sampleForwarding : State Unit Unit Unit :=
  ((sampleLoop.setConnRequests () [some ()]).setConnRequests () []).setHandler () (.forwarding ())

theorem State.sampleForwarding_leads : Leads 1 .new sampleForwarding := by
  have hloop : sampleLoop.handler () = .selecting := handler_setHandler _ _ _
  have hdelivered : ¬ (sampleLoop.setConnRequests () [some ()]).Crashed := not_crashed_sampleLoop
  refine sampleLoop_leads.trans ?_
  refine .head (.conn not_crashed_sampleLoop (.deliver () (some ()) rfl)) ?_
  exact .single (.handler hdelivered () (.request hloop (connRequests_setConnRequests _ _ _)))

theorem State.not_crashed_sampleForwarding : ¬ sampleForwarding.Crashed := by
  have hdelivered : ¬ ((sampleLoop.setConnRequests () [some ()]).setConnRequests () []).Crashed :=
    not_crashed_sampleLoop
  exact not_crashed_setHandler hdelivered () (by simp)

/-- `Stop` closes the channel before the handler offers its request. -/
theorem send_on_closed_requestChan :
    ∃ s s₁ s₂ : State Unit Unit Unit, Leads 1 .new s ∧ s.stop = .listenerClosed ∧ StopStep s s₁ ∧
      HandlerStep 1 () s₁ s₂ ∧ s₂.Crashed := by
  have hpc : State.sampleForwarding.handler () = .forwarding () := State.handler_setHandler _ _ _
  refine ⟨{ State.sampleForwarding with stop := .listenerClosed, ctxDone := true }, _, _, ?_, rfl,
    .closeRequestChan rfl, .sendClosed hpc rfl, (), ?_⟩
  · have hrunning := State.not_crashed_sampleForwarding
    refine State.sampleForwarding_leads.trans (.head (.stop hrunning (.cancel rfl)) ?_)
    exact .single (.stop hrunning (.closeListener rfl))
  · exact State.handler_setHandler _ _ _

end MetaNode.SocketServer
