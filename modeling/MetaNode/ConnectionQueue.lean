/-
The commands that queue up for a connection (`pkg/network/connection.go`).

`cmdChan` has room for 1000 commands.  `Disconnect` and most other calls offer their command
and drop it if there is no room; some calls wait for room, and a waiting `Connect` gives up
after some time.  Waiting commands enter the channel in their order, as `run` takes others
out of it (`ConnectionActor`).
-/
import Mathlib.Logic.Relation
import Mathlib.Data.Nat.Basic
import MetaNode.ConnectionActor
import MetaNode.Fairness

namespace MetaNode.ConnectionActor

/-- The capacity of `cmdChan`. -/
def cmdChanSize : ℕ := 1000

/-- The commands that are offered in a `select` with a default. -/
def Cmd.offered : Cmd → Bool
  | .init _ _ _ | .disconnect | .getIsConnect | .getAddress | .getType | .getRemoteAddr
  | .getTCPAddr _ => true
  | .accept _ | .connect _ | .sendMessage | .clone | .getChannels => false

/-- The commands whose senders wait for room; a disconnect is sent so after a timeout. -/
def Cmd.sent : Cmd → Bool
  | .accept _ | .connect _ | .sendMessage | .clone | .getChannels | .disconnect => true
  | .init _ _ _ | .getIsConnect | .getAddress | .getType | .getRemoteAddr | .getTCPAddr _ => false

/-- A connection with its channel and the commands of waiting senders. -/
structure System where
  actor : Actor
  queue : List Cmd
  waiting : List Cmd

namespace System

def new : System := ⟨.new, [], []⟩

variable (s : System)

/-- `select { case c.cmdChan <- cmd: default: }` -/
def offer (cmd : Cmd) : System :=
  if s.queue.length < cmdChanSize then { s with queue := s.queue ++ [cmd] } else s

/-- `c.cmdChan <- cmd` -/
def send (cmd : Cmd) : System :=
  if s.queue.length < cmdChanSize then { s with queue := s.queue ++ [cmd] }
  else { s with waiting := s.waiting ++ [cmd] }

/-- The channel after a command was taken out of it: the first waiting sender comes in. -/
def refill (rest : List Cmd) : System :=
  { s with queue := rest ++ s.waiting.take 1, waiting := s.waiting.drop 1 }

/-- `run` handles a command.  A message for which there is no room in the send channel in time
(`timeout`) starts a sender of a disconnect. -/
def handle (dial : Option TcpConn) (timeout : Bool) (s : System) (cmd : Cmd) : System :=
  let handled := { s with actor := s.actor.handle dial cmd }
  if cmd = .sendMessage ∧ s.actor.connect ∧ timeout then handled.send .disconnect else handled

/-- The steps of `run`. -/
inductive RunStep : System → System → Prop where
  | receive {s : System} {cmd : Cmd} {rest : List Cmd} (dial : Option TcpConn) (timeout : Bool)
      (hqueue : s.queue = cmd :: rest) (hstopped : s.actor.stopped = false)
      (hcleaning : s.actor.cleaning = false) :
      RunStep s ((s.refill rest).handle dial timeout cmd)
  | finish {s : System} (hcleaning : s.actor.cleaning = true) :
      RunStep s { s with actor := s.actor.finishCleanup }
  | shutdown {s : System} (htimer : s.actor.shutdownTimer = true)
      (hstopped : s.actor.stopped = false) (hcleaning : s.actor.cleaning = false) :
      RunStep s { s with actor := { s.actor with shutdownTimer := false, stopped := true } }

/-- The steps of `run` and of any senders. -/
inductive Step : System → System → Prop where
  | idle (s : System) : Step s s
  | offer (s : System) {cmd : Cmd} (hcmd : cmd.offered) : Step s (s.offer cmd)
  | send (s : System) {cmd : Cmd} (hcmd : cmd.sent) : Step s (s.send cmd)
  | giveUp {s : System} {before after : List Cmd} {realConnAddr : String}
      (hwaiting : s.waiting = before ++ .connect realConnAddr :: after) :
      Step s { s with waiting := before ++ after }
  | run {s s' : System} (h : RunStep s s') : Step s s'

def Reachable : Prop := Relation.ReflTransGen Step new s

structure FairRun (run : ℕ → System) : Prop where
  steps : Fairness.IsRun Step run
  fair : Fairness.WeaklyFair RunStep run

/-- The commands that are on their way, in the order in which they will be handled. -/
def pending : List Cmd := s.queue ++ s.waiting

/-! ### States that occur -/

/-- Senders wait only for a full channel, and a connection that stands is not being shut
down. -/
structure WellFormed : Prop where
  size : s.queue.length ≤ cmdChanSize
  full : s.waiting ≠ [] → s.queue.length = cmdChanSize
  up : s.actor.connect = true → s.actor.Up

variable {s' : System} {s} {cmd : Cmd}

theorem WellFormed.offer (h : s.WellFormed) (cmd : Cmd) : (s.offer cmd).WellFormed := by
  rw [System.offer]
  split
  · next hroom =>
    refine ⟨?_, fun hwaiting => ?_, h.up⟩
    · show (s.queue ++ [cmd]).length ≤ cmdChanSize
      rw [List.length_append, List.length_singleton]
      omega
    · have := h.full hwaiting
      omega
  · exact h

theorem WellFormed.send (h : s.WellFormed) (cmd : Cmd) : (s.send cmd).WellFormed := by
  rw [System.send]
  split
  · next hroom =>
    have hoffer := h.offer cmd
    rwa [System.offer, if_pos hroom] at hoffer
  · next hroom =>
    have hsize := h.size
    exact ⟨hsize, fun _ => by show s.queue.length = cmdChanSize; omega, h.up⟩

theorem WellFormed.refill (h : s.WellFormed) {rest : List Cmd} (hqueue : s.queue = cmd :: rest) :
    (s.refill rest).WellFormed := by
  have hsize := h.size
  have hlen : s.queue.length = rest.length + 1 := by rw [hqueue, List.length_cons]
  have htake : (rest ++ s.waiting.take 1).length = rest.length + min 1 s.waiting.length := by
    rw [List.length_append, List.length_take]
  refine ⟨?_, fun hwaiting => ?_, h.up⟩
  · show (rest ++ s.waiting.take 1).length ≤ cmdChanSize
    omega
  · show (rest ++ s.waiting.take 1).length = cmdChanSize
    have hne : s.waiting ≠ [] := by
      intro hnil
      apply hwaiting
      show s.waiting.drop 1 = []
      rw [hnil]
      rfl
    have hpos := List.length_pos_iff.mpr hne
    have hfull := h.full hne
    omega

theorem up_handle {a : Actor} (h : a.connect = true → a.Up) (hstopped : a.stopped = false)
    (hcleaning : a.cleaning = false) (dial : Option TcpConn) (cmd : Cmd)
    (hconnect : (a.handle dial cmd).connect = true) : (a.handle dial cmd).Up := by
  by_cases ha : a.connect = true
  · by_cases hcmd : cmd = .disconnect
    · rw [hcmd, Actor.handle, if_pos ha] at hconnect
      cases hconnect
    · exact (h ha).handle dial hcmd
  · cases cmd with
    | accept =>
      rw [Actor.handle, if_neg ha]
      exact ⟨rfl, rfl, hstopped, rfl, hcleaning⟩
    | connect =>
      rw [Actor.handle, if_neg ha] at hconnect ⊢
      cases dial with
      | none => exact absurd hconnect ha
      | some => exact ⟨rfl, rfl, hstopped, rfl, hcleaning⟩
    | disconnect =>
      rw [Actor.handle, if_neg ha] at hconnect
      exact absurd hconnect ha
    | _ => exact absurd hconnect ha

theorem WellFormed.handle (h : s.WellFormed) (hstopped : s.actor.stopped = false)
    (hcleaning : s.actor.cleaning = false) (dial : Option TcpConn) (timeout : Bool) (cmd : Cmd) :
    (s.handle dial timeout cmd).WellFormed := by
  have hhandled : ({ s with actor := s.actor.handle dial cmd } : System).WellFormed :=
    ⟨h.size, h.full, up_handle h.up hstopped hcleaning dial cmd⟩
  rw [System.handle]
  split
  · exact hhandled.send .disconnect
  · exact hhandled

theorem WellFormed.runStep (h : s.WellFormed) (hstep : RunStep s s') : s'.WellFormed := by
  cases hstep with
  | receive dial timeout hqueue hstopped hcleaning =>
    exact (h.refill hqueue).handle hstopped hcleaning dial timeout _
  | finish hcleaning =>
    refine ⟨h.size, h.full, fun hconnect => ?_⟩
    have hup := (h.up hconnect).cleaning
    rw [hcleaning] at hup
    cases hup
  | shutdown htimer =>
    refine ⟨h.size, h.full, fun hconnect => ?_⟩
    have hup := (h.up hconnect).shutdownTimer
    rw [htimer] at hup
    cases hup

theorem WellFormed.step (h : s.WellFormed) (hstep : Step s s') : s'.WellFormed := by
  cases hstep with
  | idle => exact h
  | offer => exact h.offer _
  | send => exact h.send _
  | giveUp hwaiting =>
    refine ⟨h.size, fun _ => h.full ?_, h.up⟩
    rw [hwaiting]
    simp
  | run hrun => exact h.runStep hrun

theorem Reachable.wellFormed (h : Reachable s) : s.WellFormed := by
  induction h with
  | refl => exact ⟨Nat.zero_le _, fun hne => absurd rfl hne, fun hconnect => by cases hconnect⟩
  | tail _ hstep ih => exact ih.step hstep

/-! ### The commands on their way -/

theorem send_actor (s : System) (cmd : Cmd) : (s.send cmd).actor = s.actor := by
  rw [System.send]
  split <;> rfl

theorem offer_actor (s : System) (cmd : Cmd) : (s.offer cmd).actor = s.actor := by
  rw [System.offer]
  split <;> rfl

theorem pending_send (hfull : s.waiting ≠ [] → s.queue.length = cmdChanSize) (cmd : Cmd) :
    (s.send cmd).pending = s.pending ++ [cmd] := by
  rw [System.send]
  split
  · next hroom =>
    have hnil : s.waiting = [] := by
      by_contra hne
      have := hfull hne
      omega
    show s.queue ++ [cmd] ++ s.waiting = s.queue ++ s.waiting ++ [cmd]
    rw [hnil, List.append_nil, List.append_nil]
  · show s.queue ++ (s.waiting ++ [cmd]) = s.queue ++ s.waiting ++ [cmd]
    rw [List.append_assoc]

theorem pending_offer (h : s.WellFormed) (cmd : Cmd) :
    ∃ more, (s.offer cmd).pending = s.pending ++ more := by
  by_cases hroom : s.queue.length < cmdChanSize
  · have hsend := pending_send h.full cmd
    rw [System.send, if_pos hroom] at hsend
    rw [System.offer, if_pos hroom]
    exact ⟨_, hsend⟩
  · rw [System.offer, if_neg hroom]
    exact ⟨[], (List.append_nil _).symm⟩

theorem pending_refill {rest : List Cmd} (hqueue : s.queue = cmd :: rest) :
    s.pending = cmd :: (s.refill rest).pending := by
  show s.queue ++ s.waiting = cmd :: (rest ++ s.waiting.take 1 ++ s.waiting.drop 1)
  rw [hqueue, List.append_assoc, List.take_append_drop, List.cons_append]

theorem handle_actor (s : System) (dial : Option TcpConn) (timeout : Bool) (cmd : Cmd) :
    (s.handle dial timeout cmd).actor = s.actor.handle dial cmd := by
  rw [System.handle]
  split
  · rw [send_actor]
  · rfl

theorem pending_handle (h : s.WellFormed) (dial : Option TcpConn) (timeout : Bool) (cmd : Cmd) :
    ∃ more, (s.handle dial timeout cmd).pending = s.pending ++ more := by
  rw [System.handle]
  split
  · have hsend := pending_send (s := { s with actor := s.actor.handle dial cmd }) h.full .disconnect
    exact ⟨_, hsend⟩
  · exact ⟨[], (List.append_nil _).symm⟩

/-! ### A disconnect on its way -/

/-- A connection stands, and a disconnect is on its way. -/
structure Pending (s : System) : Prop where
  wellFormed : s.WellFormed
  connect : s.actor.connect = true
  disconnect : .disconnect ∈ s.pending

def place (s : System) : ℕ := s.pending.idxOf .disconnect

/-- The cleanup of a connection: it no longer stands, and its socket is closed. -/
def Cleaned (s : System) : Prop := s.actor.connect = false ∧ s.actor.tcpOpen = false

theorem Pending.enabled (h : s.Pending) : ∃ s', RunStep s s' := by
  have hup := h.wellFormed.up h.connect
  cases hqueue : s.queue with
  | nil =>
    -- no sender waits for an empty channel
    have hnil : s.waiting = [] := by
      by_contra hne
      have hfull := h.wellFormed.full hne
      rw [hqueue] at hfull
      cases hfull
    have hmem := h.disconnect
    rw [pending, hqueue, hnil] at hmem
    cases hmem
  | cons => exact ⟨_, .receive none false hqueue hup.stopped hup.cleaning⟩

theorem Pending.of_append (h : s.Pending) (hwf : s'.WellFormed)
    (hconnect : s'.actor.connect = true) {more : List Cmd}
    (hpending : s'.pending = s.pending ++ more) : s'.Pending ∧ s'.place ≤ s.place := by
  refine ⟨⟨hwf, hconnect, ?_⟩, ?_⟩
  · rw [hpending]
    exact List.mem_append_left _ h.disconnect
  · rw [place, place, hpending, List.idxOf_append_of_mem h.disconnect]

/-- **Each step of `run` cleans up or brings the first disconnect closer.** -/
theorem Pending.runStep (h : s.Pending) (hstep : RunStep s s') :
    s'.Cleaned ∨ (s'.Pending ∧ s'.place < s.place) := by
  have hup := h.wellFormed.up h.connect
  have hwf := h.wellFormed.runStep hstep
  cases hstep with
  | @receive cmd rest dial timeout hqueue hstopped hcleaning =>
    have hactor := handle_actor (s.refill rest) dial timeout cmd
    by_cases hcmd : cmd = .disconnect
    · left
      rw [Cleaned, hactor, hcmd]
      show (s.actor.handle dial .disconnect).connect = false ∧
        (s.actor.handle dial .disconnect).tcpOpen = false
      rw [Actor.handle, if_pos h.connect]
      exact ⟨rfl, rfl⟩
    · right
      obtain ⟨more, hmore⟩ := pending_handle (h.wellFormed.refill hqueue) dial timeout cmd
      have hfirst := pending_refill hqueue
      have hmem : .disconnect ∈ (s.refill rest).pending := by
        have hmem := h.disconnect
        rw [hfirst, List.mem_cons] at hmem
        exact hmem.resolve_left (Ne.symm hcmd)
      have hup' : (s.actor.handle dial cmd).Up := hup.handle dial hcmd
      refine ⟨⟨hwf, ?_, ?_⟩, ?_⟩
      · rw [hactor]
        exact hup'.connect
      · rw [hmore]
        exact List.mem_append_left _ hmem
      · rw [place, place, hmore, hfirst, List.idxOf_append_of_mem hmem, List.idxOf_cons_ne _ hcmd]
        exact Nat.lt_succ_self _
  | finish hcleaning =>
    rw [hup.cleaning] at hcleaning
    cases hcleaning
  | shutdown htimer =>
    rw [hup.shutdownTimer] at htimer
    cases htimer

theorem idxOf_leave {α : Type} [BEq α] [LawfulBEq α] {before after : List α} {x a : α} (hx : x ≠ a)
    (hmem : a ∈ before ++ x :: after) :
    a ∈ before ++ after ∧ (before ++ after).idxOf a ≤ (before ++ x :: after).idxOf a := by
  by_cases hbefore : a ∈ before
  · refine ⟨List.mem_append_left _ hbefore, ?_⟩
    rw [List.idxOf_append_of_mem hbefore, List.idxOf_append_of_mem hbefore]
  · rw [List.mem_append, List.mem_cons] at hmem
    have hafter : a ∈ after := (hmem.resolve_left hbefore).resolve_left (Ne.symm hx)
    refine ⟨List.mem_append_right _ hafter, ?_⟩
    rw [List.idxOf_append_of_notMem hbefore, List.idxOf_append_of_notMem hbefore,
      List.idxOf_cons_ne _ hx]
    omega

theorem Pending.step (h : s.Pending) (hstep : Step s s') :
    s'.Cleaned ∨ (s'.Pending ∧ s'.place ≤ s.place) := by
  have hwf := h.wellFormed.step hstep
  cases hstep with
  | idle => exact .inr ⟨h, Nat.le_refl _⟩
  | @offer cmd _ =>
    obtain ⟨more, hmore⟩ := pending_offer h.wellFormed cmd
    exact .inr (h.of_append hwf (by rw [offer_actor, h.connect]) hmore)
  | @send cmd _ =>
    have hmore := pending_send h.wellFormed.full cmd
    exact .inr (h.of_append hwf (by rw [send_actor, h.connect]) hmore)
  | @giveUp before after realConnAddr hwaiting =>
    have hpending : s.pending = (s.queue ++ before) ++ .connect realConnAddr :: after := by
      rw [pending, hwaiting, List.append_assoc]
    have hmem := h.disconnect
    rw [hpending] at hmem
    obtain ⟨hmem', hle⟩ := idxOf_leave (by simp) hmem
    rw [List.append_assoc] at hmem' hle
    refine .inr ⟨⟨hwf, h.connect, hmem'⟩, ?_⟩
    rw [place, place, hpending]
    exact hle
  | run hrun =>
    obtain hcleaned | ⟨hpending, hlt⟩ := h.runStep hrun
    · exact .inl hcleaned
    · exact .inr ⟨hpending, Nat.le_of_lt hlt⟩

theorem Pending.eventually {run : ℕ → System} (hrun : FairRun run) {n : ℕ} (hn : (run n).Pending) :
    ∃ m, n ≤ m ∧ (run m).Cleaned :=
  Fairness.eventually_of_rank place (fun _ h => h.enabled) (fun _ _ h => h.step)
    (fun _ _ h _ hstep => (h.runStep hstep).imp_right And.right) hrun.steps hrun.fair hn

/-! ### A disconnect that was dropped -/

/-- A connection stands, and no disconnect is on its way. -/
structure Quiet (s : System) : Prop where
  up : s.actor.Up
  disconnect : .disconnect ∉ s.pending

theorem Quiet.not_cleaned (h : s.Quiet) : ¬ s.Cleaned := by
  intro hcleaned
  have hstands := h.up.connect
  rw [hcleaned.1] at hstands
  cases hstands

/-- `run` handles the next command, if there is one, with no luck in dialling and no
timeout. -/
def drain (s : System) : System :=
  match s.queue with
  | [] => s
  | cmd :: rest => (s.refill rest).handle none false cmd

theorem Quiet.drain (h : s.Quiet) : s.drain.Quiet := by
  rw [System.drain]
  split
  · exact h
  · next cmd rest hqueue =>
    have hfirst := pending_refill hqueue
    have hno := h.disconnect
    rw [hfirst, List.mem_cons, not_or] at hno
    have hhandle : (s.refill rest).handle none false cmd
        = { s.refill rest with actor := s.actor.handle none cmd } := by
      rw [System.handle, if_neg (by simp)]
      rfl
    rw [hhandle]
    exact ⟨h.up.handle none (Ne.symm hno.1), hno.2⟩

theorem Quiet.drain_step (h : s.Quiet) : RunStep s s.drain ∨ ¬ ∃ s', RunStep s s' := by
  cases hqueue : s.queue with
  | nil =>
    right
    rintro ⟨s', hstep⟩
    cases hstep with
    | receive dial timeout hcons =>
      rw [hqueue] at hcons
      cases hcons
    | finish hcleaning =>
      rw [h.up.cleaning] at hcleaning
      cases hcleaning
    | shutdown htimer =>
      rw [h.up.shutdownTimer] at htimer
      cases htimer
  | cons cmd rest =>
    left
    have hdrain : s.drain = (s.refill rest).handle none false cmd := by
      rw [System.drain, hqueue]
    rw [hdrain]
    exact .receive none false hqueue h.up.stopped h.up.cleaning

/-- A `Disconnect` that is dropped, and then nothing but the commands on their way. -/
def droppedRun (s : System) : ℕ → System
  | 0 => s
  | n + 1 => drain^[n] s

theorem Quiet.iterate (h : s.Quiet) (n : ℕ) : (System.drain^[n] s).Quiet := by
  induction n with
  | zero => exact h
  | succ n ih =>
    rw [Function.iterate_succ_apply']
    exact ih.drain

theorem Quiet.droppedRun (h : s.Quiet) (n : ℕ) : (System.droppedRun s n).Quiet := by
  cases n with
  | zero => exact h
  | succ n => exact h.iterate n

theorem Quiet.fairRun (h : s.Quiet) (hfull : ¬ s.queue.length < cmdChanSize) :
    FairRun (System.droppedRun s) := by
  have hnext : ∀ n, System.droppedRun s (n + 1 + 1) = (System.droppedRun s (n + 1)).drain := by
    intro n
    exact Function.iterate_succ_apply' System.drain n s
  constructor
  · intro n
    cases n with
    | zero =>
      have hdropped : s.offer .disconnect = s := if_neg hfull
      have hstep : Step s (s.offer .disconnect) := .offer s rfl
      rwa [hdropped] at hstep
    | succ n =>
      rw [hnext]
      have hquiet := h.droppedRun (n + 1)
      obtain hstep | hstuck := hquiet.drain_step
      · exact .run hstep
      · -- nothing is left to handle
        have hidle : (System.droppedRun s (n + 1)).drain = System.droppedRun s (n + 1) := by
          rw [System.drain]
          split
          · rfl
          · next hqueue =>
            exact absurd ⟨_, .receive none false hqueue hquiet.up.stopped hquiet.up.cleaning⟩ hstuck
        rw [hidle]
        exact .idle _
  · intro n
    refine ⟨n + 1, Nat.le_succ n, ?_⟩
    rw [hnext]
    exact (h.droppedRun (n + 1)).drain_step

/-- **Every fair run that goes on with a `Disconnect` on a connection that stands comes to its
cleanup exactly if there is room for the command, or another disconnect is on its way.** -/
theorem disconnect_cleans_iff (s : System) (hreach : Reachable s)
    (hconnect : s.actor.connect = true) :
    (∀ run, FairRun run → run 0 = s → run 1 = s.offer .disconnect → ∃ n, (run n).Cleaned) ↔
      s.queue.length < cmdChanSize ∨ .disconnect ∈ s.queue ∨ .disconnect ∈ s.waiting := by
  have hwf := hreach.wellFormed
  constructor
  · intro hall
    by_contra hnone
    simp only [not_or] at hnone
    obtain ⟨hfull, hqueue, hwaiting⟩ := hnone
    have hquiet : s.Quiet := by
      refine ⟨hwf.up hconnect, ?_⟩
      rw [pending, List.mem_append, not_or]
      exact ⟨hqueue, hwaiting⟩
    have hdropped : s.offer .disconnect = s := if_neg hfull
    obtain ⟨n, hcleaned⟩ := hall (System.droppedRun s) (hquiet.fairRun hfull) rfl hdropped.symm
    exact (hquiet.droppedRun n).not_cleaned hcleaned
  · intro hway run hrun hzero hone
    have hpending : (run 1).Pending := by
      rw [hone]
      refine ⟨hwf.offer _, by rw [offer_actor, hconnect], ?_⟩
      by_cases hroom : s.queue.length < cmdChanSize
      · rw [System.offer, if_pos hroom]
        exact List.mem_append_left _ (List.mem_append_right _ (List.mem_singleton_self _))
      · rw [System.offer, if_neg hroom]
        exact List.mem_append.mpr (hway.resolve_left hroom)
    obtain ⟨n, -, hcleaned⟩ := hpending.eventually hrun
    exact ⟨n, hcleaned⟩

/-- A connection that was accepted, with questions in the channel. -/
def asked (n : ℕ) : System :=
  ⟨Actor.new.establish Connection.samplePeer "10.0.0.2:4200", List.replicate n .getIsConnect, []⟩

theorem reachable_asked {n : ℕ} (hn : n ≤ cmdChanSize) : Reachable (asked n) := by
  induction n with
  | zero =>
    have hsent : Step new (new.send (.accept Connection.samplePeer)) := .send new rfl
    have haccepted : RunStep (new.send (.accept Connection.samplePeer))
        (((new.send (.accept Connection.samplePeer)).refill []).handle none false
          (.accept Connection.samplePeer)) := .receive none false rfl rfl rfl
    exact (Relation.ReflTransGen.single hsent).tail (.run haccepted)
  | succ n ih =>
    have hroom : (List.replicate n Cmd.getIsConnect).length < cmdChanSize := by
      rw [List.length_replicate]
      omega
    have hstep : Step (asked n) ((asked n).offer .getIsConnect) := .offer _ rfl
    rw [System.offer, asked, if_pos hroom, ← List.replicate_succ'] at hstep
    exact (ih (by omega)).tail hstep

theorem disconnect_cleans_asked : Reachable (asked 1) ∧
    ((∀ run, FairRun run → run 0 = asked 1 → run 1 = (asked 1).offer .disconnect →
        ∃ n, (run n).Cleaned) ↔
      (asked 1).queue.length < cmdChanSize ∨ .disconnect ∈ (asked 1).queue ∨
        .disconnect ∈ (asked 1).waiting) :=
  ⟨reachable_asked (by decide), disconnect_cleans_iff _ (reachable_asked (by decide)) rfl⟩

/-- With 1000 questions in the channel a `Disconnect` is dropped, and a fair run may go on
without a cleanup. -/
theorem disconnect_dropped :
    Reachable (asked cmdChanSize) ∧ (asked cmdChanSize).actor.connect = true ∧
    ∃ run, FairRun run ∧ run 0 = asked cmdChanSize ∧
      run 1 = (asked cmdChanSize).offer .disconnect ∧ ∀ n, ¬ (run n).Cleaned := by
  have hfull : ¬ (asked cmdChanSize).queue.length < cmdChanSize := by
    rw [asked, List.length_replicate]
    exact Nat.lt_irrefl _
  have hquiet : (asked cmdChanSize).Quiet := by
    refine ⟨⟨rfl, rfl, rfl, rfl, rfl⟩, ?_⟩
    rw [pending, asked, List.append_nil]
    intro hmem
    cases List.eq_of_mem_replicate hmem
  have hdropped : (asked cmdChanSize).offer .disconnect = asked cmdChanSize := if_neg hfull
  exact ⟨reachable_asked (Nat.le_refl _), rfl, System.droppedRun (asked cmdChanSize),
    hquiet.fairRun hfull, rfl, hdropped.symm, fun n => (hquiet.droppedRun n).not_cleaned⟩

end System

end MetaNode.ConnectionActor
