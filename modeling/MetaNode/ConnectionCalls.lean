/-
The calls of a connection and their return (`pkg/network/connection.go`).

`RequestChan` and `Clone` post a command, wait for room in `cmdChan` if there is none, and
wait for the answer of `run`, both without a limit.  All other waits have a timer: those of
`SetRealConnAddr`, which asks for the address and the type, and those of `SendMessage`.  After
a disconnect `run` returns once its timer fires, and nothing answers any more.

Without the calls this is the queue of `ConnectionQueue` (`step_system`).

A `RequestChan` after `run` has returned waits for ever (`requestChan_after_exit`).
-/
import MetaNode.ConnectionQueue

namespace MetaNode.ConnectionCalls

open ConnectionActor Function

/-! ### The state -/

/-- The methods that post a command, with what is passed to them. -/
inductive Method where
  | requestChan
  | clone
  | init (address : Address) (cType : String)
  | setRealConnAddr (realConnAddr : String)
  | sendMessage
  | disconnect

inductive Pc where
  | idle
  | called (m : Method)
  /-- `RequestChan` or `Clone` has posted its command and waits. -/
  | asking
  /-- `SetRealConnAddr` waits for an answer to `Address`, or its timer. -/
  | askingAddress (realConnAddr : String)
  | hasAddress (realConnAddr : String)
  /-- `SetRealConnAddr` waits for an answer to `Type`, or its timer. -/
  | askingType (realConnAddr : String)
  | hasType (realConnAddr : String)
  /-- `SendMessage` is at the top of its loop, in attempt `i`. -/
  | trying (i : ℕ)
  /-- `SendMessage` is in its `select`, with the channel that it read. -/
  | holding (i ch : ℕ)
  | returned
  | panicked

/-- The call waits for `run`, or will. -/
def Pc.asks : Pc → Bool
  | .called .requestChan | .called .clone | .asking => true
  | _ => false

/-- The call is under way and does not wait for `run`. -/
def Pc.busy : Pc → Bool
  | .idle | .returned | .panicked => false
  | pc => !pc.asks

def Pc.fuel : Pc → ℕ
  | .called (.init _ _) | .called .disconnect => 1
  | .called (.setRealConnAddr _) => 5
  | .askingAddress _ => 4
  | .hasAddress _ => 3
  | .askingType _ => 2
  | .hasType _ => 1
  | .called .sendMessage => 8
  | .trying i => 2 * (3 - i) + 1
  | .holding i _ => 2 * (3 - i)
  | _ => 0

/-- A command in `cmdChan`, with the call that waits for the answer. -/
structure Posted (C : Type) where
  cmd : Cmd
  resp : Option C

/-- A connection and its calls.  Send channels are numbered as they are made. -/
structure State (C : Type) where
  actor : Actor
  queue : List (Posted C)
  /-- The commands whose senders wait for room. -/
  waiting : List (Posted C)
  /-- The answer to a call is in its channel. -/
  answered : C → Bool
  cachedConnected : Bool
  /-- The field `c.sendChan`. -/
  sendChan : Option ℕ
  /-- The variable `sendChan` of `run`. -/
  runChan : Option ℕ
  made : ℕ
  closed : ℕ → Bool
  pc : C → Pc

def maxRetries : ℕ := 3

namespace State

variable {C : Type}

/-- `newConnectionBase`, with `run` started -/
def new (C : Type) : State C where
  actor := .new
  queue := []
  waiting := []
  answered _ := false
  cachedConnected := false
  sendChan := none
  runChan := none
  made := 0
  closed _ := false
  pc _ := .idle

/-! ### Commands -/

variable (s : State C)

/-- `select { case c.cmdChan <- cmd: default: }` -/
def offer (p : Posted C) : State C :=
  if s.queue.length < cmdChanSize then { s with queue := s.queue ++ [p] } else s

/-- `c.cmdChan <- cmd` -/
def send (p : Posted C) : State C :=
  if s.queue.length < cmdChanSize then { s with queue := s.queue ++ [p] }
  else { s with waiting := s.waiting ++ [p] }

/-- The channel after a command was taken out of it. -/
def refill (rest : List (Posted C)) : State C :=
  { s with queue := rest ++ s.waiting.take 1, waiting := s.waiting.drop 1 }

/-- `startIO` makes a send channel and shows it. -/
def expose : State C :=
  { s with
    cachedConnected := true
    sendChan := some s.made
    runChan := some s.made
    made := s.made + 1
    closed := Function.update s.closed s.made false }

/-- A disconnect hides the send channel, and `cleanup` closes it. -/
def retract : State C :=
  { s with
    cachedConnected := false
    sendChan := none
    closed :=
      if s.actor.connect then
        s.runChan.elim s.closed fun ch => Function.update s.closed ch true
      else s.closed }

variable (dial : Option TcpConn)

def publish (s : State C) : Cmd → State C
  | .accept _ => if s.actor.connect then s else s.expose
  | .connect _ => if s.actor.connect ∨ dial.isNone then s else s.expose
  | .disconnect => s.retract
  | _ => s

section Steps

variable [DecidableEq C]

def goto (c : C) (pc : Pc) : State C := { s with pc := Function.update s.pc c pc }

/-- `run` does what a command says and answers it. -/
def respond (s : State C) (p : Posted C) : State C :=
  { s.publish dial p.cmd with
    actor := s.actor.handle dial p.cmd
    answered := p.resp.elim s.answered fun c => Function.update s.answered c true }

/-- `run` handles a command.  A message for which there is no room in time starts a sender of a
disconnect. -/
def handle (timeout : Bool) (s : State C) (p : Posted C) : State C :=
  if p.cmd = .sendMessage ∧ s.actor.connect ∧ timeout then
    (s.respond dial p).send ⟨.disconnect, none⟩
  else s.respond dial p

/-! ### The steps -/

/-- The steps of `run`. -/
inductive RunStep : State C → State C → Prop where
  | receive {s : State C} {p : Posted C} {rest : List (Posted C)} (dial : Option TcpConn)
      (timeout : Bool) (hqueue : s.queue = p :: rest) (hstopped : s.actor.stopped = false)
      (hcleaning : s.actor.cleaning = false) :
      RunStep s ((s.refill rest).handle dial timeout p)
  | finish {s : State C} (hcleaning : s.actor.cleaning = true) :
      RunStep s { s with actor := s.actor.finishCleanup }
  | shutdown {s : State C} (htimer : s.actor.shutdownTimer = true)
      (hstopped : s.actor.stopped = false) (hcleaning : s.actor.cleaning = false) :
      RunStep s { s with actor := { s.actor with shutdownTimer := false, stopped := true } }

/-- The steps of a call.  Whether there is room for a message in a send channel is left
open. -/
inductive CallStep (c : C) : State C → State C → Prop where
  | requestChan {s : State C} (h : s.pc c = .called .requestChan) :
      CallStep c s ((s.send ⟨.getChannels, some c⟩).goto c .asking)
  | clone {s : State C} (h : s.pc c = .called .clone) :
      CallStep c s ((s.send ⟨.clone, some c⟩).goto c .asking)
  | answer {s : State C} (h : s.pc c = .asking) (hanswered : s.answered c = true) :
      CallStep c s (s.goto c .returned)
  | init {s : State C} {address : Address} {cType : String}
      (h : s.pc c = .called (.init address cType)) :
      CallStep c s ((s.offer ⟨.init address cType "", none⟩).goto c .returned)
  | disconnect {s : State C} (h : s.pc c = .called .disconnect) :
      CallStep c s ((s.offer ⟨.disconnect, none⟩).goto c .returned)
  /-- The cached address is new enough, or there is no room to ask. -/
  | cachedAddress {s : State C} {realConnAddr : String}
      (h : s.pc c = .called (.setRealConnAddr realConnAddr)) :
      CallStep c s (s.goto c (.hasAddress realConnAddr))
  | askAddress {s : State C} {realConnAddr : String}
      (h : s.pc c = .called (.setRealConnAddr realConnAddr))
      (hroom : s.queue.length < cmdChanSize) :
      CallStep c s ((s.offer ⟨.getAddress, none⟩).goto c (.askingAddress realConnAddr))
  | gotAddress {s : State C} {realConnAddr : String} (h : s.pc c = .askingAddress realConnAddr) :
      CallStep c s (s.goto c (.hasAddress realConnAddr))
  | cachedType {s : State C} {realConnAddr : String} (h : s.pc c = .hasAddress realConnAddr) :
      CallStep c s (s.goto c (.hasType realConnAddr))
  | askType {s : State C} {realConnAddr : String} (h : s.pc c = .hasAddress realConnAddr)
      (hroom : s.queue.length < cmdChanSize) :
      CallStep c s ((s.offer ⟨.getType, none⟩).goto c (.askingType realConnAddr))
  | gotType {s : State C} {realConnAddr : String} (h : s.pc c = .askingType realConnAddr) :
      CallStep c s (s.goto c (.hasType realConnAddr))
  | setRealConnAddr {s : State C} {realConnAddr : String} (address : Address) (cType : String)
      (h : s.pc c = .hasType realConnAddr) :
      CallStep c s ((s.offer ⟨.init address cType realConnAddr, none⟩).goto c .returned)
  | connected {s : State C} (h : s.pc c = .called .sendMessage)
      (hcache : s.cachedConnected = true) :
      CallStep c s (s.goto c (.trying 0))
  | notConnected {s : State C} (h : s.pc c = .called .sendMessage)
      (hcache : s.cachedConnected = false) :
      CallStep c s (s.goto c .returned)
  | load {s : State C} {i ch : ℕ} (h : s.pc c = .trying i) (hch : s.sendChan = some ch) :
      CallStep c s (s.goto c (.holding i ch))
  | loadNil {s : State C} {i : ℕ} (h : s.pc c = .trying i) (hch : s.sendChan = none)
      (hi : i < maxRetries - 1) :
      CallStep c s (s.goto c (.trying (i + 1)))
  | loadNilLast {s : State C} {i : ℕ} (h : s.pc c = .trying i) (hch : s.sendChan = none)
      (hi : ¬ i < maxRetries - 1) :
      CallStep c s ({ s with cachedConnected := false }.goto c .returned)
  | sent {s : State C} {i ch : ℕ} (h : s.pc c = .holding i ch) (hopen : s.closed ch = false) :
      CallStep c s (s.goto c .returned)
  | sendOnClosed {s : State C} {i ch : ℕ} (h : s.pc c = .holding i ch)
      (hclosed : s.closed ch = true) :
      CallStep c s (s.goto c .panicked)
  | timeout {s : State C} {i ch : ℕ} (h : s.pc c = .holding i ch) (hi : i < maxRetries - 1) :
      CallStep c s (s.goto c (.trying (i + 1)))
  | timeoutLast {s : State C} {i ch : ℕ} (h : s.pc c = .holding i ch)
      (hi : ¬ i < maxRetries - 1) :
      CallStep c s (({ s with cachedConnected := false }.send ⟨.disconnect, none⟩).goto c .returned)

/-- The steps of `run`, of the calls and of all others that use the connection. -/
inductive Step : State C → State C → Prop where
  | idle (s : State C) : Step s s
  | start {s : State C} (c : C) (m : Method) (h : s.pc c = .idle) : Step s (s.goto c (.called m))
  | call {s s' : State C} (c : C) (h : CallStep c s s') : Step s s'
  | run {s s' : State C} (h : RunStep s s') : Step s s'
  | offer (s : State C) {cmd : Cmd} (hcmd : cmd.offered) : Step s (s.offer ⟨cmd, none⟩)
  | send (s : State C) {cmd : Cmd} (hcmd : cmd.sent) : Step s (s.send ⟨cmd, none⟩)
  | giveUp {s : State C} {before after : List (Posted C)} {realConnAddr : String}
      (hwaiting : s.waiting = before ++ ⟨.connect realConnAddr, none⟩ :: after) :
      Step s { s with waiting := before ++ after }
  /-- The cache is written, with an answer that may be old. -/
  | refresh (s : State C) (connected : Bool) : Step s { s with cachedConnected := connected }

/-- The runs that are fair to `run` and to every call. -/
structure FairRun (run : ℕ → State C) : Prop where
  steps : Fairness.IsRun Step run
  fairRun : Fairness.WeaklyFair RunStep run
  fairCall : ∀ c, Fairness.WeaklyFair (CallStep c) run

end Steps

/-! ### The queue below -/

def system : System :=
  ⟨s.actor, s.queue.map Posted.cmd, s.waiting.map Posted.cmd⟩

variable {s' : State C} (p : Posted C)

theorem system_queue_length : s.system.queue.length = s.queue.length :=
  List.length_map _

theorem system_offer : (s.offer p).system = s.system.offer p.cmd := by
  have hlength := s.system_queue_length
  by_cases hroom : s.queue.length < cmdChanSize
  · rw [offer, if_pos hroom, System.offer, if_pos (by omega), system, List.map_append]
    rfl
  · rw [offer, if_neg hroom, System.offer, if_neg (by omega)]

theorem system_send : (s.send p).system = s.system.send p.cmd := by
  have hlength := s.system_queue_length
  by_cases hroom : s.queue.length < cmdChanSize
  · rw [send, if_pos hroom, System.send, if_pos (by omega), system, List.map_append]
    rfl
  · rw [send, if_neg hroom, System.send, if_neg (by omega), system, List.map_append]
    rfl

theorem system_refill (rest : List (Posted C)) :
    (s.refill rest).system = s.system.refill (rest.map Posted.cmd) := by
  rw [refill, System.refill, system, List.map_append, List.map_take, List.map_drop]
  rfl

theorem publish_queue (s : State C) (cmd : Cmd) :
    (s.publish dial cmd).queue = s.queue ∧ (s.publish dial cmd).waiting = s.waiting ∧
      (s.publish dial cmd).pc = s.pc := by
  cases cmd with
  | accept _ | connect _ =>
    rw [publish]
    split <;> exact ⟨rfl, rfl, rfl⟩
  | _ => exact ⟨rfl, rfl, rfl⟩

section

variable [DecidableEq C]

theorem system_respond (s : State C) (p : Posted C) :
    (s.respond dial p).system =
      { s.system with actor := s.system.actor.handle dial p.cmd } := by
  obtain ⟨hqueue, hwaiting, -⟩ := publish_queue dial s p.cmd
  show System.mk (s.actor.handle dial p.cmd) ((s.publish dial p.cmd).queue.map Posted.cmd)
    ((s.publish dial p.cmd).waiting.map Posted.cmd) = _
  rw [hqueue, hwaiting]
  rfl

theorem system_handle (timeout : Bool) (s : State C) (p : Posted C) :
    (s.handle dial timeout p).system = s.system.handle dial timeout p.cmd := by
  by_cases h : p.cmd = .sendMessage ∧ s.actor.connect ∧ timeout
  · have h' : p.cmd = .sendMessage ∧ s.system.actor.connect ∧ timeout := h
    rw [handle, if_pos h, system_send, system_respond, System.handle, if_pos h']
  · have h' : ¬ (p.cmd = .sendMessage ∧ s.system.actor.connect ∧ timeout) := h
    rw [handle, if_neg h, system_respond, System.handle, if_neg h']

variable {s} in
theorem runStep_system (h : RunStep s s') : System.RunStep s.system s'.system := by
  cases h with
  | @receive p rest dial timeout hqueue hstopped hcleaning =>
    rw [system_handle, system_refill]
    refine .receive dial timeout ?_ hstopped hcleaning
    show s.queue.map Posted.cmd = _
    rw [hqueue, List.map_cons]
  | finish hcleaning => exact .finish hcleaning
  | shutdown htimer hstopped hcleaning => exact .shutdown htimer hstopped hcleaning

end

/-! ### What a step changes -/

/-- The calls that wait for the commands on their way, in the order of the commands. -/
def asked : List (Option C) := (s.queue ++ s.waiting).map Posted.resp

theorem offer_eq : ∃ queue, s.offer p = { s with queue := queue } := by
  rw [offer]
  split
  · exact ⟨_, rfl⟩
  · exact ⟨s.queue, rfl⟩

theorem send_eq : ∃ queue waiting, s.send p = { s with queue := queue, waiting := waiting } := by
  rw [send]
  split
  · exact ⟨_, s.waiting, rfl⟩
  · exact ⟨s.queue, _, rfl⟩

def Full : Prop := s.waiting ≠ [] → s.queue.length = cmdChanSize

variable {s}

theorem full_of_wellFormed (h : s.system.WellFormed) : s.Full := by
  intro hne
  rw [← system_queue_length]
  exact h.full (by simpa [system] using hne)

theorem asked_send (h : s.Full) (p : Posted C) : (s.send p).asked = s.asked ++ [p.resp] := by
  rw [send]
  split
  · next hroom =>
    have hnil : s.waiting = [] := by
      by_contra hne
      have hfull := h hne
      omega
    rw [asked, asked, hnil]
    simp
  · rw [asked, asked]
    simp

theorem asked_offer (h : s.Full) (p : Posted C) : ∃ more, (s.offer p).asked = s.asked ++ more := by
  by_cases hroom : s.queue.length < cmdChanSize
  · have hsend := asked_send h p
    rw [send, if_pos hroom] at hsend
    rw [offer, if_pos hroom]
    exact ⟨_, hsend⟩
  · rw [offer, if_neg hroom]
    exact ⟨[], (List.append_nil _).symm⟩

/-- What a call does to the connection: it may hide it, and posts at most one command. -/
structure Posts (s t : State C) : Prop where
  pc : t.pc = s.pc
  actor : t.actor = s.actor
  answered : t.answered = s.answered
  asked : s.Full → ∃ more, t.asked = s.asked ++ more
  system : System.Step s.system t.system

theorem Posts.refl (s : State C) : Posts s s :=
  ⟨rfl, rfl, rfl, fun _ => ⟨[], (List.append_nil _).symm⟩, .idle _⟩

variable {p}

theorem posts_offer (s : State C) (hcmd : p.cmd.offered) : Posts s (s.offer p) := by
  have hsystem : System.Step s.system (s.offer p).system := by
    rw [system_offer]
    exact .offer _ hcmd
  have hasked := fun h : s.Full => asked_offer h p
  obtain ⟨queue, heq⟩ := offer_eq s p
  rw [heq] at hsystem hasked ⊢
  exact ⟨rfl, rfl, rfl, hasked, hsystem⟩

theorem posts_send (s : State C) (hcmd : p.cmd.sent) : Posts s (s.send p) := by
  have hsystem : System.Step s.system (s.send p).system := by
    rw [system_send]
    exact .send _ hcmd
  have hasked := fun h : s.Full => asked_send h p
  obtain ⟨queue, waiting, heq⟩ := send_eq s p
  rw [heq] at hsystem hasked ⊢
  exact ⟨rfl, rfl, rfl, fun h => ⟨_, hasked h⟩, hsystem⟩

theorem full_refill (h : s.system.WellFormed) {rest : List (Posted C)}
    (hqueue : s.queue = p :: rest) : (s.refill rest).Full := by
  have hmap : s.system.queue = p.cmd :: rest.map Posted.cmd := by
    show s.queue.map Posted.cmd = _
    rw [hqueue, List.map_cons]
  have hwf := h.refill hmap
  rw [← system_refill] at hwf
  exact full_of_wellFormed hwf

theorem asked_refill {rest : List (Posted C)} (hqueue : s.queue = p :: rest) :
    s.asked = p.resp :: (s.refill rest).asked := by
  show (s.queue ++ s.waiting).map Posted.resp =
    p.resp :: (rest ++ s.waiting.take 1 ++ s.waiting.drop 1).map Posted.resp
  rw [hqueue, List.append_assoc, List.take_append_drop, List.cons_append, List.map_cons]

section

variable (s p) [DecidableEq C] (dial : Option TcpConn) (timeout : Bool)

theorem handle_eq :
    ∃ queue waiting,
      s.handle dial timeout p = { s.respond dial p with queue := queue, waiting := waiting } := by
  rw [handle]
  split
  · exact send_eq _ _
  · exact ⟨(s.respond dial p).queue, (s.respond dial p).waiting, rfl⟩

theorem asked_respond : (s.respond dial p).asked = s.asked := by
  obtain ⟨hqueue, hwaiting, -⟩ := publish_queue dial s p.cmd
  show ((s.publish dial p.cmd).queue ++ (s.publish dial p.cmd).waiting).map Posted.resp = _
  rw [hqueue, hwaiting, asked]

variable {s} in
theorem asked_handle (h : s.Full) : ∃ more, (s.handle dial timeout p).asked = s.asked ++ more := by
  have hfull : (s.respond dial p).Full := by
    obtain ⟨hqueue, hwaiting, -⟩ := publish_queue dial s p.cmd
    show (s.publish dial p.cmd).waiting ≠ [] → (s.publish dial p.cmd).queue.length = cmdChanSize
    rw [hqueue, hwaiting]
    exact h
  rw [handle]
  split
  · rw [asked_send hfull, asked_respond]
    exact ⟨_, rfl⟩
  · rw [asked_respond]
    exact ⟨[], (List.append_nil _).symm⟩

theorem handle_pc : (s.handle dial timeout p).pc = s.pc := by
  obtain ⟨queue, waiting, heq⟩ := handle_eq s p dial timeout
  rw [heq]
  exact (publish_queue dial s p.cmd).2.2

theorem handle_answered :
    (s.handle dial timeout p).answered =
      p.resp.elim s.answered fun c => update s.answered c true := by
  obtain ⟨queue, waiting, heq⟩ := handle_eq s p dial timeout
  rw [heq]
  rfl

theorem stopped_handle (a : Actor) (dial : Option TcpConn) (cmd : Cmd) :
    (a.handle dial cmd).stopped = a.stopped := by
  cases cmd with
  | accept _ | disconnect =>
    rw [Actor.handle]
    split <;> rfl
  | connect =>
    rw [Actor.handle]
    split
    · rfl
    · cases dial <;> rfl
  | _ => rfl

theorem handle_stopped : (s.handle dial timeout p).actor.stopped = s.actor.stopped := by
  obtain ⟨queue, waiting, heq⟩ := handle_eq s p dial timeout
  rw [heq]
  exact stopped_handle s.actor dial p.cmd

/-- The field never names a closed channel. -/
def Exposed (s : State C) : Prop := ∀ ch, s.sendChan = some ch → s.closed ch = false

variable {s} in
theorem Exposed.handle (h : s.Exposed) : (s.handle dial timeout p).Exposed := by
  have hexpose : s.expose.Exposed := by
    intro ch hch
    cases hch
    exact update_self _ _ _
  have hpublish : (s.publish dial p.cmd).Exposed := by
    cases p.cmd with
    | accept _ | connect _ =>
      rw [publish]
      split
      · exact h
      · exact hexpose
    | disconnect =>
      intro ch hch
      cases hch
    | _ => exact h
  obtain ⟨queue, waiting, heq⟩ := handle_eq s p dial timeout
  rw [heq]
  exact hpublish

variable {s p}

theorem goto_pc_self (s : State C) (c : C) (pc : Pc) : (s.goto c pc).pc c = pc :=
  update_self _ _ _

variable {c : C}

theorem goto_pc_ne {c' : C} (hne : c' ≠ c) (s : State C) (pc : Pc) :
    (s.goto c pc).pc c' = s.pc c' := by
  rw [goto]
  exact update_of_ne hne _ _

theorem callStep_posts (h : CallStep c s s') : ∃ t pc, Posts s t ∧ s' = t.goto c pc := by
  cases h with
  | requestChan | clone => exact ⟨_, _, posts_send s rfl, rfl⟩
  | timeoutLast =>
    obtain ⟨hpc, hactor, hanswered, hasked, hsystem⟩ :=
      posts_send { s with cachedConnected := false } (p := ⟨.disconnect, none⟩) rfl
    exact ⟨_, _, ⟨hpc, hactor, hanswered, hasked, hsystem⟩, rfl⟩
  | init | disconnect | askAddress | askType | setRealConnAddr =>
    exact ⟨_, _, posts_offer s rfl, rfl⟩
  | loadNilLast =>
    exact ⟨{ s with cachedConnected := false }, _,
      ⟨rfl, rfl, rfl, (Posts.refl s).asked, .idle _⟩, rfl⟩
  | _ => exact ⟨s, _, .refl s, rfl⟩

theorem callStep_pc_ne {c' : C} (h : CallStep c s s') (hne : c' ≠ c) : s'.pc c' = s.pc c' := by
  obtain ⟨t, pc, ht, rfl⟩ := callStep_posts h
  rw [goto_pc_ne hne, ht.pc]

theorem runStep_pc (h : RunStep s s') : s'.pc = s.pc := by
  cases h with
  | receive => exact handle_pc _ _ _ _
  | finish | shutdown => rfl

/-- **Every step is a step of the queue.** -/
theorem step_system (h : Step s s') : System.Step s.system s'.system := by
  cases h with
  | idle | start | refresh => exact .idle _
  | call c h =>
    obtain ⟨t, pc, ht, rfl⟩ := callStep_posts h
    exact ht.system
  | run h => exact .run (runStep_system h)
  | offer hcmd => exact (posts_offer s hcmd).system
  | send hcmd => exact (posts_send s hcmd).system
  | @giveUp before after realConnAddr hwaiting =>
    have hmap : s.system.waiting =
        before.map Posted.cmd ++ .connect realConnAddr :: after.map Posted.cmd := by
      show s.waiting.map Posted.cmd = _
      rw [hwaiting, List.map_append, List.map_cons]
    have hstep := System.Step.giveUp hmap
    rwa [← List.map_append] at hstep

theorem step_pc (h : Step s s') (c : C) :
    s'.pc c = s.pc c ∨ CallStep c s s' ∨ s.pc c = .idle := by
  cases h with
  | idle | giveUp | refresh => exact .inl rfl
  | start c' m h =>
    by_cases hc : c = c'
    · exact .inr (.inr (hc ▸ h))
    · exact .inl (update_of_ne hc _ _)
  | call c' h =>
    by_cases hc : c = c'
    · exact .inr (.inl (hc ▸ h))
    · exact .inl (callStep_pc_ne h hc)
  | run h => exact .inl (congrFun (runStep_pc h) c)
  | offer hcmd => exact .inl (congrFun (posts_offer s hcmd).pc c)
  | send hcmd => exact .inl (congrFun (posts_send s hcmd).pc c)

theorem answer_cases {answered : C → Bool} {resp : Option C}
    (h : answered c = true ∨ resp = some c) :
    (resp.elim answered fun c => update answered c true) c = true := by
  cases resp with
  | none => exact h.resolve_right (by simp)
  | some c' =>
    show update answered c' true c = true
    by_cases hc : c = c'
    · rw [hc, update_self]
    · rw [update_of_ne hc]
      exact h.resolve_right (by simpa using Ne.symm hc)

end

/-! ### Steps that leave the calls a way to return -/

/-- What the steps are to keep to: `run` returns only if no `RequestChan` or `Clone` is under
way, none is called after it has returned, and no send channel is closed that a `SendMessage`
holds. -/
structure Meets (s s' : State C) : Prop where
  exits : s.actor.stopped = false → s'.actor.stopped = true → ∀ c, (s.pc c).asks = false
  calls : ∀ c, s.pc c = .idle → (s'.pc c).asks = true → s.actor.stopped = false
  closes : ∀ ch, s.closed ch = false → s'.closed ch = true → ∀ c i, s.pc c ≠ .holding i ch

/-- What holds as long as they do. -/
structure Calm (s : State C) : Prop where
  wellFormed : s.system.WellFormed
  running : ∀ c, (s.pc c).asks = true → s.actor.stopped = false
  posted : ∀ c, s.pc c = .asking → s.answered c = true ∨ some c ∈ s.asked
  exposed : s.Exposed
  held : ∀ c i ch, s.pc c = .holding i ch → s.closed ch = false

theorem calm_new : (new C).Calm where
  wellFormed := System.Reachable.wellFormed .refl
  running c h := by cases h
  posted c h := by cases h
  exposed ch h := by cases h
  held c i ch h := by cases h

theorem Calm.more (h : s.Calm) {queue waiting : List (Posted C)}
    (hwf : ({ s with queue := queue, waiting := waiting } : State C).system.WellFormed)
    {more : List (Option C)}
    (hasked : ({ s with queue := queue, waiting := waiting } : State C).asked = s.asked ++ more) :
    ({ s with queue := queue, waiting := waiting } : State C).Calm where
  wellFormed := hwf
  running := h.running
  posted c hc := by
    rw [hasked]
    exact (h.posted c hc).imp_right (List.mem_append_left _)
  exposed := h.exposed
  held := h.held

theorem Calm.offer (h : s.Calm) (p : Posted C) : (s.offer p).Calm := by
  obtain ⟨queue, heq⟩ := offer_eq s p
  obtain ⟨more, hasked⟩ := asked_offer (full_of_wellFormed h.wellFormed) p
  have hwf := h.wellFormed.offer p.cmd
  rw [← system_offer] at hwf
  rw [heq] at hasked hwf ⊢
  exact h.more hwf hasked

theorem Calm.send (h : s.Calm) (p : Posted C) : (s.send p).Calm := by
  obtain ⟨queue, waiting, heq⟩ := send_eq s p
  have hasked := asked_send (full_of_wellFormed h.wellFormed) p
  have hwf := h.wellFormed.send p.cmd
  rw [← system_send] at hwf
  rw [heq] at hasked hwf ⊢
  exact h.more hwf hasked

theorem Calm.setCached (h : s.Calm) (connected : Bool) :
    ({ s with cachedConnected := connected } : State C).Calm :=
  ⟨h.wellFormed, h.running, h.posted, h.exposed, h.held⟩

section

variable [DecidableEq C]

theorem Calm.goto (h : s.Calm) {c : C} {pc : Pc}
    (hrunning : pc.asks = true → s.actor.stopped = false)
    (hposted : pc = .asking → s.answered c = true ∨ some c ∈ s.asked)
    (hheld : ∀ i ch, pc = .holding i ch → s.closed ch = false) : (s.goto c pc).Calm where
  wellFormed := h.wellFormed
  running := (forall_update_iff s.pc fun _ pc =>
    pc.asks = true → s.actor.stopped = false).mpr ⟨hrunning, fun c _ => h.running c⟩
  posted := (forall_update_iff s.pc fun c pc =>
    pc = .asking → s.answered c = true ∨ some c ∈ s.asked).mpr ⟨hposted, fun c _ => h.posted c⟩
  exposed := h.exposed
  held := (forall_update_iff s.pc fun _ pc =>
    ∀ i ch, pc = .holding i ch → s.closed ch = false).mpr ⟨hheld, fun c _ => h.held c⟩

theorem Calm.goto_free (h : s.Calm) (c : C) {pc : Pc} (hasks : pc.asks = false)
    (hholding : ∀ i ch, pc ≠ .holding i ch) : (s.goto c pc).Calm := by
  refine h.goto ?_ ?_ fun i ch hpc => absurd hpc (hholding i ch)
  · rw [hasks]
    exact fun hfalse => by cases hfalse
  · rintro rfl
    cases hasks

theorem Calm.callStep (h : s.Calm) {c : C} (hstep : CallStep c s s') : s'.Calm := by
  have hfull := full_of_wellFormed h.wellFormed
  have hask : ∀ cmd, (s.pc c).asks = true → ((s.send ⟨cmd, some c⟩).goto c .asking).Calm := by
    intro cmd hasks
    refine (h.send ⟨cmd, some c⟩).goto (fun _ => ?_) (fun _ => .inr ?_) (by simp)
    · obtain ⟨queue, waiting, heq⟩ := send_eq s ⟨cmd, some c⟩
      rw [heq]
      exact h.running c hasks
    · rw [asked_send hfull]
      exact List.mem_append_right _ (List.mem_singleton_self _)
  cases hstep with
  | requestChan hpc | clone hpc => exact hask _ (by rw [hpc]; rfl)
  | init | disconnect | askAddress | askType | setRealConnAddr =>
    exact (h.offer _).goto_free c rfl (by simp)
  | load hpc hch =>
    refine h.goto (by simp [Pc.asks]) (by simp) ?_
    rintro i ch ⟨⟩
    exact h.exposed _ hch
  | loadNilLast => exact (h.setCached false).goto_free c rfl (by simp)
  | timeoutLast => exact ((h.setCached false).send _).goto_free c rfl (by simp)
  | _ => exact h.goto_free c rfl (by simp)

theorem Calm.runStep (h : s.Calm) (hstep : RunStep s s') (hmeets : Meets s s') : s'.Calm := by
  have hpc := runStep_pc hstep
  -- no channel is closed that is held
  have hheld : ∀ c i ch, s'.pc c = .holding i ch → s'.closed ch = false := by
    intro c i ch hc
    rw [hpc] at hc
    by_contra hclosed
    rw [Bool.not_eq_false] at hclosed
    exact hmeets.closes ch (h.held c i ch hc) hclosed c i hc
  have hwf := h.wellFormed.runStep (runStep_system hstep)
  cases hstep with
  | @receive p rest dial timeout hqueue hstopped hcleaning =>
    obtain ⟨more, hmore⟩ := asked_handle p dial timeout (full_refill h.wellFormed hqueue)
    refine ⟨hwf, fun c hc => ?_, fun c hc => ?_, ?_, hheld⟩
    · rw [handle_stopped]
      exact hstopped
    · rw [hpc] at hc
      rw [handle_answered, hmore]
      have hcase := h.posted c hc
      rw [asked_refill hqueue, List.mem_cons] at hcase
      obtain hanswered | hresp | hmem := hcase
      · exact .inl (answer_cases (.inl hanswered))
      · exact .inl (answer_cases (.inr hresp.symm))
      · exact .inr (List.mem_append_left _ hmem)
    · have hexposed : (s.refill rest).Exposed := h.exposed
      exact hexposed.handle p dial timeout
  | finish => exact ⟨hwf, h.running, h.posted, h.exposed, hheld⟩
  | shutdown htimer hstopped =>
    refine ⟨hwf, fun c hc => ?_, h.posted, h.exposed, hheld⟩
    have hno := hmeets.exits hstopped rfl c
    rw [hpc, hno] at hc
    cases hc

theorem Calm.step (h : s.Calm) (hstep : Step s s') (hmeets : Meets s s') : s'.Calm := by
  have hwf := h.wellFormed.step (step_system hstep)
  cases hstep with
  | idle => exact h
  | start c m hidle =>
    refine h.goto (fun hasks => hmeets.calls c hidle ?_) (by simp) (by simp)
    rwa [goto_pc_self]
  | call c hcall => exact h.callStep hcall
  | run hrun => exact h.runStep hrun hmeets
  | offer => exact h.offer _
  | send => exact h.send _
  | @giveUp before after realConnAddr hwaiting =>
    refine ⟨hwf, h.running, fun c hc => ?_, h.exposed, h.held⟩
    -- the command that is given up has no call that waits for it
    have hcase := h.posted c hc
    rw [asked, hwaiting] at hcase
    refine hcase.imp_right fun hmem => ?_
    show some c ∈ (s.queue ++ (before ++ after)).map Posted.resp
    simpa using hmem
  | refresh => exact h.setCached _

/-! ### Calls that wait for an answer -/

variable {c : C}

theorem callStep_of_called (h : CallStep c s s')
    (hpc : s.pc c = .called .requestChan ∨ s.pc c = .called .clone) : s'.pc c = .asking := by
  cases h with
  | requestChan | clone => exact goto_pc_self _ c _
  | _ => simp_all

theorem callStep_of_asking (h : CallStep c s s') (hpc : s.pc c = .asking) :
    s.answered c = true ∧ s' = s.goto c .returned := by
  cases h with
  | answer _ hanswered => exact ⟨hanswered, rfl⟩
  | _ => simp_all

structure Asking (c : C) (s : State C) : Prop where
  calm : s.Calm
  pc : s.pc c = .asking
  unanswered : s.answered c = false

structure Answered (c : C) (s : State C) : Prop where
  calm : s.Calm
  pc : s.pc c = .asking
  answered : s.answered c = true

/-- The place of its command, and whether `run` is in a cleanup. -/
def askRank (c : C) (s : State C) : ℕ :=
  2 * s.asked.idxOf (some c) + if s.actor.cleaning then 1 else 0

section

variable (h : Asking c s)

include h

omit [DecidableEq C] in
theorem Asking.mem : some c ∈ s.asked := by
  refine (h.calm.posted c h.pc).resolve_left ?_
  rw [h.unanswered]
  exact Bool.false_ne_true

omit [DecidableEq C] in
theorem Asking.running : s.actor.stopped = false :=
  h.calm.running c (by rw [h.pc]; rfl)

theorem Asking.enabled : ∃ s', RunStep s s' := by
  cases hcleaning : s.actor.cleaning with
  | true => exact ⟨_, .finish hcleaning⟩
  | false =>
    cases hqueue : s.queue with
    | nil =>
      have hnil : s.waiting = [] := by
        by_contra hne
        have hfull := full_of_wellFormed h.calm.wellFormed hne
        rw [hqueue] at hfull
        cases hfull
      have hmem := h.mem
      rw [asked, hqueue, hnil] at hmem
      cases hmem
    | cons => exact ⟨_, .receive none false hqueue h.running hcleaning⟩

theorem Asking.pc_step (hstep : Step s s') : s'.pc c = .asking := by
  obtain hsame | hcall | hidle := step_pc hstep c
  · rw [hsame, h.pc]
  · -- there is no answer to take
    have hanswered := (callStep_of_asking hcall h.pc).1
    rw [h.unanswered] at hanswered
    cases hanswered
  · rw [h.pc] at hidle
    cases hidle

theorem askRank_of_posts (hposts : Posts s s') : askRank c s' = askRank c s := by
  obtain ⟨more, hasked⟩ := hposts.asked (full_of_wellFormed h.calm.wellFormed)
  rw [askRank, askRank, hasked, hposts.actor, List.idxOf_append_of_mem h.mem]

/-- **Each step of `run` answers the call or brings it closer to its answer.** -/
theorem Asking.runStep (hstep : RunStep s s') (hmeets : Meets s s') :
    s'.answered c = true ∨ askRank c s' < askRank c s := by
  cases hstep with
  | @receive p rest dial timeout hqueue hstopped hcleaning =>
    rw [handle_answered]
    by_cases hresp : p.resp = some c
    · exact .inl (answer_cases (.inr hresp))
    · right
      obtain ⟨more, hmore⟩ := asked_handle p dial timeout (full_refill h.calm.wellFormed hqueue)
      have hfirst := asked_refill hqueue
      have hmem := h.mem
      rw [hfirst, List.mem_cons] at hmem
      have hin := hmem.resolve_left (Ne.symm hresp)
      rw [askRank, askRank, hmore, List.idxOf_append_of_mem hin, hfirst,
        List.idxOf_cons_ne _ hresp]
      split <;> split <;> omega
  | finish hcleaning =>
    right
    show 2 * s.asked.idxOf (some c) + _ < askRank c s
    rw [askRank, if_pos hcleaning]
    exact Nat.lt_succ_self _
  | shutdown htimer hstopped =>
    -- `run` does not return under the call
    have hno := hmeets.exits hstopped rfl c
    rw [h.pc] at hno
    cases hno

theorem Asking.rank_step (hstep : Step s s') (hmeets : Meets s s') :
    s'.answered c = true ∨ askRank c s' ≤ askRank c s := by
  cases hstep with
  | idle | start | refresh => exact .inr (Nat.le_refl _)
  | call c' hcall =>
    obtain ⟨t, pc, ht, rfl⟩ := callStep_posts hcall
    have hrank := askRank_of_posts h ht
    exact .inr (Nat.le_of_eq hrank)
  | run hrun => exact (h.runStep hrun hmeets).imp_right Nat.le_of_lt
  | offer hcmd => exact .inr (Nat.le_of_eq (askRank_of_posts h (posts_offer s hcmd)))
  | send hcmd => exact .inr (Nat.le_of_eq (askRank_of_posts h (posts_send s hcmd)))
  | @giveUp before after realConnAddr hwaiting =>
    have hasked : s.asked =
        (s.queue ++ before).map Posted.resp ++ none :: after.map Posted.resp := by
      rw [asked, hwaiting, ← List.append_assoc, List.map_append, List.map_cons]
    have hmem := h.mem
    rw [hasked] at hmem
    obtain ⟨-, hle⟩ := System.idxOf_leave (x := none) (a := some c) (by simp) hmem
    rw [← hasked, ← List.map_append, List.append_assoc] at hle
    right
    show 2 * ((s.queue ++ (before ++ after)).map Posted.resp).idxOf (some c) +
      (if s.actor.cleaning then 1 else 0) ≤ askRank c s
    rw [askRank]
    omega

theorem Asking.step (hstep : Step s s') (hmeets : Meets s s') : Answered c s' ∨ Asking c s' := by
  have hcalm := h.calm.step hstep hmeets
  have hpc := h.pc_step hstep
  cases hanswered : s'.answered c with
  | true => exact .inl ⟨hcalm, hpc, hanswered⟩
  | false => exact .inr ⟨hcalm, hpc, hanswered⟩

end

theorem answered_step (hstep : Step s s') (h : s.answered c = true) : s'.answered c = true := by
  cases hstep with
  | idle | start | giveUp | refresh => exact h
  | offer hcmd => rwa [(posts_offer s hcmd).answered]
  | send hcmd => rwa [(posts_send s hcmd).answered]
  | run hrun =>
    cases hrun with
    | receive =>
      rw [handle_answered]
      exact answer_cases (.inl h)
    | finish | shutdown => exact h
  | call c' hcall =>
    obtain ⟨t, pc, ht, rfl⟩ := callStep_posts hcall
    show t.answered c = true
    rwa [ht.answered]

theorem busy_callStep (hcalm : s.Calm) (h : CallStep c s s') (hbusy : (s.pc c).busy = true) :
    s'.pc c = .returned ∨ ((s'.pc c).busy = true ∧ (s'.pc c).fuel < (s.pc c).fuel) := by
  cases h with
  | requestChan hpc | clone hpc | answer hpc =>
    rw [hpc] at hbusy
    cases hbusy
  | sendOnClosed hpc hclosed =>
    -- the channel is open
    rw [hcalm.held c _ _ hpc] at hclosed
    cases hclosed
  | init | disconnect | setRealConnAddr | notConnected | loadNilLast | sent | timeoutLast =>
    exact .inl (goto_pc_self _ c _)
  | cachedAddress hpc | askAddress hpc | gotAddress hpc | cachedType hpc | askType hpc
  | gotType hpc | connected hpc =>
    rw [hpc, goto_pc_self]
    exact .inr ⟨rfl, by simp [Pc.fuel]⟩
  | load hpc =>
    rw [hpc, goto_pc_self]
    refine .inr ⟨rfl, ?_⟩
    simp only [Pc.fuel]
    omega
  | loadNil hpc hch hi | timeout hpc hi =>
    rw [maxRetries] at hi
    rw [hpc, goto_pc_self]
    refine .inr ⟨rfl, ?_⟩
    simp only [Pc.fuel]
    omega

theorem busy_enabled (hbusy : (s.pc c).busy = true) : ∃ s', CallStep c s s' := by
  cases hpc : s.pc c with
  | idle | returned | panicked | asking =>
    rw [hpc] at hbusy
    cases hbusy
  | called m =>
    cases m with
    | requestChan | clone =>
      rw [hpc] at hbusy
      cases hbusy
    | init => exact ⟨_, .init hpc⟩
    | setRealConnAddr => exact ⟨_, .cachedAddress hpc⟩
    | disconnect => exact ⟨_, .disconnect hpc⟩
    | sendMessage =>
      cases hcache : s.cachedConnected with
      | true => exact ⟨_, .connected hpc hcache⟩
      | false => exact ⟨_, .notConnected hpc hcache⟩
  | askingAddress => exact ⟨_, .gotAddress hpc⟩
  | hasAddress => exact ⟨_, .cachedType hpc⟩
  | askingType => exact ⟨_, .gotType hpc⟩
  | hasType => exact ⟨_, .setRealConnAddr (FixedBytes.zero 20) "" hpc⟩
  | trying i =>
    cases hch : s.sendChan with
    | some => exact ⟨_, .load hpc hch⟩
    | none =>
      by_cases hi : i < maxRetries - 1
      · exact ⟨_, .loadNil hpc hch hi⟩
      · exact ⟨_, .loadNilLast hpc hch hi⟩
  | holding i =>
    by_cases hi : i < maxRetries - 1
    · exact ⟨_, .timeout hpc hi⟩
    · exact ⟨_, .timeoutLast hpc hi⟩

/-! ### The stages of a call -/

section Stages

variable {run : ℕ → State C} {n : ℕ}

section

variable (hrun : FairRun run) (hmeets : ∀ n, Meets (run n) (run (n + 1)))

include hrun hmeets

theorem Asking.eventually (hn : Asking c (run n)) : ∃ m, n ≤ m ∧ Answered c (run m) := by
  have hnext : ∀ s s', Asking c s → (Step s s' ∧ Meets s s') →
      Answered c s' ∨ (Asking c s' ∧ askRank c s' ≤ askRank c s) := by
    rintro s s' h ⟨hstep, hmeet⟩
    obtain hanswered | hasking := h.step hstep hmeet
    · exact .inl hanswered
    · refine .inr ⟨hasking, (h.rank_step hstep hmeet).resolve_left ?_⟩
      rw [hasking.unanswered]
      exact Bool.false_ne_true
  have hact : ∀ s s', Asking c s → (Step s s' ∧ Meets s s') → RunStep s s' →
      Answered c s' ∨ askRank c s' < askRank c s := by
    rintro s s' h ⟨hstep, hmeet⟩ hrunStep
    exact (h.runStep hrunStep hmeet).imp_left (⟨h.calm.step hstep hmeet, h.pc_step hstep, ·⟩)
  exact Fairness.eventually_of_rank (askRank c) (fun _ h => h.enabled) hnext hact
    (fun n => ⟨hrun.steps n, hmeets n⟩) hrun.fairRun hn

theorem call_stage {P Q : State C → Prop} (hidle : ∀ s, P s → s.pc c ≠ .idle)
    (henabled : ∀ s, P s → ∃ s', CallStep c s s')
    (hstay : ∀ s s', P s → Step s s' → Meets s s' → s'.pc c = s.pc c → P s')
    (hcall : ∀ s s', P s → Meets s s' → CallStep c s s' →
      Q s' ∨ (P s' ∧ (s'.pc c).fuel < (s.pc c).fuel))
    (hn : P (run n)) : ∃ m, n ≤ m ∧ Q (run m) := by
  have hnext : ∀ s s', P s → (Step s s' ∧ Meets s s') →
      Q s' ∨ (P s' ∧ (s'.pc c).fuel ≤ (s.pc c).fuel) := by
    rintro s s' h ⟨hstep, hmeet⟩
    obtain hsame | hown | hnone := step_pc hstep c
    · refine .inr ⟨hstay s s' h hstep hmeet hsame, ?_⟩
      rw [hsame]
    · exact (hcall s s' h hmeet hown).imp_right fun hP => ⟨hP.1, Nat.le_of_lt hP.2⟩
    · exact absurd hnone (hidle s h)
  exact Fairness.eventually_of_rank (fun s => (s.pc c).fuel) henabled hnext
    (fun s s' h hstep hown => (hcall s s' h hstep.2 hown).imp_right And.right)
    (fun n => ⟨hrun.steps n, hmeets n⟩) (hrun.fairCall c) hn

theorem Answered.eventually (hn : Answered c (run n)) : ∃ m, n ≤ m ∧ (run m).pc c = .returned := by
  refine call_stage hrun hmeets (P := Answered c) (Q := fun s => s.pc c = .returned)
    (c := c) ?_ ?_ ?_ ?_ hn
  · intro s h
    rw [h.pc]
    simp
  · intro s h
    exact ⟨_, .answer h.pc h.answered⟩
  · intro s s' h hstep hmeet hsame
    exact ⟨h.calm.step hstep hmeet, hsame.trans h.pc, answered_step hstep h.answered⟩
  · intro s s' h hmeet hcall
    obtain ⟨-, rfl⟩ := callStep_of_asking hcall h.pc
    exact .inl (goto_pc_self s c _)

/-- **`RequestChan` and `Clone` return.** -/
theorem asking_returns (hcalm : (run n).Calm) {m : Method} (hpc : (run n).pc c = .called m)
    (hasks : (Pc.called m).asks = true) : ∃ k, n ≤ k ∧ (run k).pc c = .returned := by
  -- the call posts its command
  have hposted : ∃ k, n ≤ k ∧ ((run k).Calm ∧ (run k).pc c = .asking) := by
    refine call_stage hrun hmeets (c := c) (P := fun s => s.Calm ∧ s.pc c = .called m)
      (Q := fun s => s.Calm ∧ s.pc c = .asking) ?_ ?_ ?_ ?_ ⟨hcalm, hpc⟩
    · rintro s ⟨-, h⟩
      rw [h]
      simp
    · rintro s ⟨-, h⟩
      cases m with
      | requestChan => exact ⟨_, .requestChan h⟩
      | clone => exact ⟨_, .clone h⟩
      | _ => cases hasks
    · rintro s s' ⟨hs, h⟩ hstep hmeet hsame
      exact ⟨hs.step hstep hmeet, hsame.trans h⟩
    · rintro s s' ⟨hs, h⟩ hmeet hcall
      refine .inl ⟨hs.callStep hcall, callStep_of_called hcall ?_⟩
      cases m with
      | requestChan => exact .inl h
      | clone => exact .inr h
      | _ => cases hasks
  obtain ⟨k, hk, hcalm, hpc⟩ := hposted
  -- it is answered, and takes the answer
  have hanswered : ∃ j, k ≤ j ∧ Answered c (run j) := by
    cases hcase : (run k).answered c with
    | true => exact ⟨k, Nat.le_refl k, hcalm, hpc, hcase⟩
    | false => exact Asking.eventually hrun hmeets ⟨hcalm, hpc, hcase⟩
  obtain ⟨j, hj, hanswered⟩ := hanswered
  obtain ⟨l, hl, hreturned⟩ := hanswered.eventually hrun hmeets
  exact ⟨l, by omega, hreturned⟩

/-- **The other calls return.** -/
theorem other_returns (hcalm : (run n).Calm) (hbusy : ((run n).pc c).busy = true) :
    ∃ k, n ≤ k ∧ (run k).pc c = .returned := by
  refine call_stage hrun hmeets (c := c) (P := fun s => s.Calm ∧ (s.pc c).busy = true)
    (Q := fun s => s.pc c = .returned) ?_ ?_ ?_ ?_ ⟨hcalm, hbusy⟩
  · rintro s ⟨-, h⟩ hidle
    rw [hidle] at h
    cases h
  · rintro s ⟨-, h⟩
    exact busy_enabled h
  · rintro s s' ⟨hs, h⟩ hstep hmeet hsame
    exact ⟨hs.step hstep hmeet, hsame ▸ h⟩
  · rintro s s' ⟨hs, h⟩ hmeet hcall
    exact (busy_callStep hs hcall h).imp_right fun hP => ⟨⟨hs.callStep hcall, hP.1⟩, hP.2⟩

end

/-- **Every call returns**, in every fair run whose steps keep to `Meets`. -/
theorem calls_return (hrun : FairRun run) (hzero : run 0 = new C)
    (hmeets : ∀ n, Meets (run n) (run (n + 1))) {m : Method} (hcalled : (run n).pc c = .called m) :
    ∃ k, n ≤ k ∧ (run k).pc c = .returned := by
  have hsteps : Fairness.IsRun (fun s s' => Step s s' ∧ Meets s s') run := fun n =>
    ⟨hrun.steps n, hmeets n⟩
  have hcalm : (run n).Calm := by
    refine hsteps.invariant (fun s s' h hstep => Calm.step h hstep.1 hstep.2) ?_ n
    rw [hzero]
    exact calm_new
  cases hasks : (Pc.called m).asks with
  | true => exact asking_returns hrun hmeets hcalm hcalled hasks
  | false =>
    refine other_returns hrun hmeets hcalm ?_
    rw [hcalled]
    show (!(Pc.called m).asks) = true
    rw [hasks]
    rfl

end Stages

end

/-! ### Two runs -/

/-- A `RequestChan` on a new connection is called. -/
def askCalled : State Unit := (new Unit).goto () (.called .requestChan)

def askPosted : State Unit := (askCalled.send ⟨.getChannels, some ()⟩).goto () .asking

/-- `run` has answered. -/
def askAnswered : State Unit := (askPosted.refill []).handle none false ⟨.getChannels, some ()⟩

def askRun : ℕ → State Unit
  | 0 => new Unit
  | 1 => askCalled
  | 2 => askPosted
  | 3 => askAnswered
  | _ + 4 => askAnswered.goto () .returned

theorem fairRun_askRun : FairRun askRun where
  steps n := by
    match n with
    | 0 => exact .start () .requestChan rfl
    | 1 => exact .call () (.requestChan rfl)
    | 2 =>
      exact .run (.receive (s := askPosted) (p := ⟨.getChannels, some ()⟩) none false rfl rfl rfl)
    | 3 => exact .call () (.answer rfl rfl)
    | n + 4 => exact .idle _
  fairRun := by
    refine Fairness.weaklyFair_of_rest (n := 4) (s := askRun 4) (fun k => ?_) ?_
    · rw [Nat.add_comm]
      rfl
    · rintro ⟨s', h⟩
      cases h with
      | receive _ _ hqueue => cases hqueue
      | finish hcleaning => cases hcleaning
      | shutdown htimer => cases htimer
  fairCall c := by
    refine Fairness.weaklyFair_of_rest (n := 4) (s := askRun 4) (fun k => ?_) ?_
    · rw [Nat.add_comm]
      rfl
    · rintro ⟨s', h⟩
      have hpc : (askRun 4).pc c = .returned := rfl
      cases h <;> simp_all

theorem meets_askRun (n : ℕ) : Meets (askRun n) (askRun (n + 1)) := by
  have hstopped : ∀ n, (askRun n).actor.stopped = false := by
    intro n
    match n with
    | 0 | 1 | 2 | 3 | n + 4 => rfl
  have hclosed : ∀ n ch, (askRun n).closed ch = false := by
    intro n ch
    match n with
    | 0 | 1 | 2 | 3 | n + 4 => rfl
  refine ⟨fun _ hexit => ?_, fun _ _ _ => hstopped n, fun ch _ hclose => ?_⟩
  · rw [hstopped] at hexit
    cases hexit
  · rw [hclosed] at hclose
    cases hclose

theorem calls_return_askRun :
    (askRun 1).pc () = .called .requestChan ∧ ∃ k, 1 ≤ k ∧ (askRun k).pc () = .returned :=
  ⟨rfl, calls_return fairRun_askRun rfl meets_askRun rfl⟩

def exitPosted : State Unit := (new Unit).offer ⟨.disconnect, none⟩

/-- `run` has handled it and waits for more. -/
def exitHandled : State Unit := (exitPosted.refill []).handle none false ⟨.disconnect, none⟩

/-- `run` has returned. -/
def exited : State Unit :=
  { exitHandled with actor := { exitHandled.actor with shutdownTimer := false, stopped := true } }

/-- A `RequestChan` is called then. -/
def exitCalled : State Unit := exited.goto () (.called .requestChan)

def exitRun : ℕ → State Unit
  | 0 => new Unit
  | 1 => exitPosted
  | 2 => exitHandled
  | 3 => exited
  | 4 => exitCalled
  | _ + 5 => (exitCalled.send ⟨.getChannels, some ()⟩).goto () .asking

theorem fairRun_exitRun : FairRun exitRun where
  steps n := by
    match n with
    | 0 => exact .offer _ rfl
    | 1 =>
      exact .run (.receive (s := exitPosted) (p := ⟨.disconnect, none⟩) none false rfl rfl rfl)
    | 2 => exact .run (.shutdown rfl rfl rfl)
    | 3 => exact .start () .requestChan rfl
    | 4 => exact .call () (.requestChan rfl)
    | n + 5 => exact .idle _
  fairRun := by
    refine Fairness.weaklyFair_of_rest (n := 5) (s := exitRun 5) (fun k => ?_) ?_
    · rw [Nat.add_comm]
      rfl
    · rintro ⟨s', h⟩
      cases h with
      | receive _ _ _ hstopped => cases hstopped
      | finish hcleaning => cases hcleaning
      | shutdown _ hstopped => cases hstopped
  fairCall c := by
    refine Fairness.weaklyFair_of_rest (n := 5) (s := exitRun 5) (fun k => ?_) ?_
    · rw [Nat.add_comm]
      rfl
    · -- no answer comes
      rintro ⟨s', h⟩
      have hanswered := (callStep_of_asking h rfl).1
      cases hanswered

/-- **A `RequestChan` that is called after `run` has returned waits for ever**, in a run that
is fair to all. -/
theorem requestChan_after_exit :
    FairRun exitRun ∧ exitRun 0 = new Unit ∧ (exitRun 4).actor.stopped = true ∧
      (exitRun 4).pc () = .called .requestChan ∧ ∀ n, (exitRun n).pc () ≠ .returned := by
  refine ⟨fairRun_exitRun, rfl, rfl, rfl, fun n => ?_⟩
  match n with
  | 0 | 1 | 2 | 3 | 4 | n + 5 => exact Pc.noConfusion

end State

end MetaNode.ConnectionCalls
