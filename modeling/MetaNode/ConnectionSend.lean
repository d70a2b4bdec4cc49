/-
A connection and its senders.

`run` is one goroutine that serves the commands of a connection.  It makes the channel
`sendChan` when it connects and starts a loop that writes what the channel holds and a
loop that reads.  `SendMessage` does not go through `run`: it reads the field `c.sendChan`
under its lock, and then sends on what it read, without the lock.  `cmdDisconnect` first
clears the field and then closes the channel.

Clearing the field is not enough: a sender that read it before holds the channel after it
is closed (`sendOnClosed_after_disconnect`), and a send on a closed channel panics.
-/
import MetaNode.PbMessage
import MetaNode.Trace

namespace MetaNode.ConnectionSend

open Function

/-! ### The state -/

structure Chan where
  buf : List Message
  closed : Bool

def Chan.withBuf (chan : Chan) (buf : List Message) : Chan :=
  { chan with buf := buf }

def Chan.close (chan : Chan) : Chan :=
  { chan with closed := true }

/-- The commands that bear on the channels.  `connect` stands for `cmdConnect` and
`cmdAccept`, `isConnect` for the query that refreshes the cache. -/
inductive Command where
  | connect
  | disconnect
  | isConnect

/-- Where `run` stands. -/
inductive RunPc where
  /-- In its `select`. -/
  | ready
  /-- The cache says connected, `startIO` comes next. -/
  | connecting
  /-- The cache says disconnected, the field is cleared next. -/
  | clearing
  /-- The field is cleared, `cleanup` comes next. -/
  | cleaning
  /-- `quitChan` and the TCP connection are closed, `sendChan` comes next. -/
  | closing
  /-- `sendChan` is closed, the loops are waited for. -/
  | draining
  /-- The timer after a disconnect has fired. -/
  | stopped

/-- How `SendMessage` returns. -/
inductive SendResult where
  | sent
  | disconnected
  | timedOut

/-- Where a call of `SendMessage` stands. -/
inductive SendPc where
  | idle
  /-- At the top of its loop, in attempt `i`. -/
  | trying (i : ℕ)
  /-- In the `select` of attempt `i`, with the channel it read. -/
  | holding (i ch : ℕ)
  | returned (r : SendResult)
  | panicked

/-- The connection, the loops and the calls of `SendMessage`.  Channels are numbered as
`startIO` makes them. -/
structure State (Call : Type) where
  cmdChan : List Command
  /-- The goroutines that wait to send `cmdDisconnect`. -/
  spawned : ℕ
  /-- The answers of `run` that wait to be written to the cache. -/
  answers : List Bool
  cachedConnected : Bool
  /-- The field `c.sendChan`. -/
  sendChan : Option ℕ
  chan : ℕ → Chan
  /-- How many channels there are. -/
  made : ℕ
  pc : RunPc
  connect : Bool
  /-- The variable `sendChan` of `run`. -/
  runChan : Option ℕ
  writing : Bool
  reading : Bool
  timer : Bool
  caller : Call → SendPc

def State.init (Call : Type) : State Call where
  cmdChan := []
  spawned := 0
  answers := []
  cachedConnected := false
  sendChan := none
  chan _ := ⟨[], false⟩
  made := 0
  pc := .ready
  connect := false
  runChan := none
  writing := false
  reading := false
  timer := false
  caller _ := .idle

def cmdChanSize : ℕ := 1000

def maxRetries : ℕ := 3

inductive Label (Call : Type) where
  | internal
  /-- `cleanup` closes a channel. -/
  | close (ch : ℕ)
  /-- A call sends on a closed channel. -/
  | sendOnClosed (c : Call) (ch : ℕ)

/-! ### The steps -/

variable {Call : Type} [DecidableEq Call]

/-- A step of a call of `SendMessage`. -/
inductive CallerStep (sendChanSize : ℕ) (message : Call → Message) :
    State Call → Label Call → State Call → Prop where
  | connected {s} (c : Call) (h : s.caller c = .idle) (hcache : s.cachedConnected = true) :
      CallerStep sendChanSize message s .internal
        { s with caller := update s.caller c (.trying 0) }
  | notConnected {s} (c : Call) (h : s.caller c = .idle) (hcache : s.cachedConnected = false) :
      CallerStep sendChanSize message s .internal
        { s with caller := update s.caller c (.returned .disconnected) }
  | load {s} (c : Call) (i ch : ℕ) (h : s.caller c = .trying i) (hch : s.sendChan = some ch) :
      CallerStep sendChanSize message s .internal
        { s with caller := update s.caller c (.holding i ch) }
  | loadNil {s} (c : Call) (i : ℕ) (h : s.caller c = .trying i) (hch : s.sendChan = none)
      (hi : i < maxRetries - 1) :
      CallerStep sendChanSize message s .internal
        { s with caller := update s.caller c (.trying (i + 1)) }
  | loadNilLast {s} (c : Call) (i : ℕ) (h : s.caller c = .trying i) (hch : s.sendChan = none)
      (hi : ¬ i < maxRetries - 1) :
      CallerStep sendChanSize message s .internal
        { s with
          cachedConnected := false
          caller := update s.caller c (.returned .disconnected) }
  | send {s} (c : Call) (i ch : ℕ) (h : s.caller c = .holding i ch)
      (hopen : (s.chan ch).closed = false) (hroom : (s.chan ch).buf.length < sendChanSize) :
      CallerStep sendChanSize message s .internal
        { s with
          chan := update s.chan ch
            ((s.chan ch).withBuf ((s.chan ch).buf ++ [message c]))
          caller := update s.caller c (.returned .sent) }
  | sendOnClosed {s} (c : Call) (i ch : ℕ) (h : s.caller c = .holding i ch)
      (hclosed : (s.chan ch).closed = true) :
      CallerStep sendChanSize message s (.sendOnClosed c ch)
        { s with caller := update s.caller c .panicked }
  | timeout {s} (c : Call) (i ch : ℕ) (h : s.caller c = .holding i ch) (hi : i < maxRetries - 1) :
      CallerStep sendChanSize message s .internal
        { s with caller := update s.caller c (.trying (i + 1)) }
  | timeoutLast {s} (c : Call) (i ch : ℕ) (h : s.caller c = .holding i ch)
      (hi : ¬ i < maxRetries - 1) :
      CallerStep sendChanSize message s .internal
        { s with
          cachedConnected := false
          spawned := s.spawned + 1
          caller := update s.caller c (.returned .timedOut) }

/-- A step of `run`. -/
inductive RunStep : State Call → Label Call → State Call → Prop where
  | connected {s} {cmds : List Command} (h : s.pc = .ready) (hcmd : s.cmdChan = .connect :: cmds)
      (hconnect : s.connect = true) :
      RunStep s .internal { s with cmdChan := cmds, timer := false }
  | dialFails {s} {cmds : List Command} (h : s.pc = .ready) (hcmd : s.cmdChan = .connect :: cmds)
      (hconnect : s.connect = false) :
      RunStep s .internal { s with cmdChan := cmds, timer := false }
  | connect {s} {cmds : List Command} (h : s.pc = .ready) (hcmd : s.cmdChan = .connect :: cmds)
      (hconnect : s.connect = false) :
      RunStep s .internal { s with
        cmdChan := cmds
        timer := false
        connect := true
        cachedConnected := true
        pc := .connecting }
  /-- The channels are made and the loops started. -/
  | start {s} (h : s.pc = .connecting) :
      RunStep s .internal { s with
        chan := update s.chan s.made ⟨[], false⟩
        made := s.made + 1
        runChan := some s.made
        sendChan := some s.made
        writing := true
        reading := true
        pc := .ready }
  | isConnect {s} {cmds : List Command} (h : s.pc = .ready)
      (hcmd : s.cmdChan = .isConnect :: cmds) :
      RunStep s .internal { s with
        cmdChan := cmds
        timer := false
        answers := s.answers ++ [s.connect] }
  | disconnect {s} {cmds : List Command} (h : s.pc = .ready)
      (hcmd : s.cmdChan = .disconnect :: cmds) :
      RunStep s .internal { s with cmdChan := cmds, cachedConnected := false, pc := .clearing }
  | clear {s} (h : s.pc = .clearing) :
      RunStep s .internal { s with sendChan := none, pc := .cleaning }
  | cleanupNothing {s} (h : s.pc = .cleaning) (hconnect : s.connect = false) :
      RunStep s .internal { s with timer := true, pc := .ready }
  | cleanup {s} (h : s.pc = .cleaning) (hconnect : s.connect = true) :
      RunStep s .internal { s with connect := false, pc := .closing }
  | close {s} (ch : ℕ) (h : s.pc = .closing) (hch : s.runChan = some ch) :
      RunStep s (.close ch) { s with
        chan := update s.chan ch (s.chan ch).close
        pc := .draining }
  | drained {s} (h : s.pc = .draining) (hwriting : s.writing = false)
      (hreading : s.reading = false) :
      RunStep s .internal { s with timer := true, pc := .ready }
  | stop {s} (h : s.pc = .ready) (htimer : s.timer = true) :
      RunStep s .internal { s with pc := .stopped }

/-- A step of the read and write loops, of the other calls on the connection, or of the
goroutines that they start. -/
inductive OtherStep : State Call → Label Call → State Call → Prop where
  | write {s} (ch : ℕ) (m : Message) (ms : List Message) (h : s.writing = true)
      (hch : s.runChan = some ch) (hbuf : (s.chan ch).buf = m :: ms) :
      OtherStep s .internal
        { s with chan := update s.chan ch ((s.chan ch).withBuf ms) }
  | writeEnd {s} (ch : ℕ) (h : s.writing = true) (hch : s.runChan = some ch)
      (hbuf : (s.chan ch).buf = []) (hclosed : (s.chan ch).closed = true) :
      OtherStep s .internal { s with writing := false }
  /-- A write to the TCP connection fails. -/
  | writeError {s} (h : s.writing = true) : OtherStep s .internal { s with writing := false }
  /-- A read fails, or the loop is told to stop. -/
  | readEnd {s} (h : s.reading = true) : OtherStep s .internal { s with reading := false }
  /-- A call of `Connect`, of `Disconnect` or of `IsConnect`. -/
  | command {s} (cmd : Command) (h : s.cmdChan.length < cmdChanSize) :
      OtherStep s .internal { s with cmdChan := s.cmdChan ++ [cmd] }
  | spawned {s} {n : ℕ} (hn : s.spawned = n + 1) (h : s.cmdChan.length < cmdChanSize) :
      OtherStep s .internal { s with spawned := n, cmdChan := s.cmdChan ++ [.disconnect] }
  | refresh {s} {b : Bool} {bs : List Bool} (h : s.answers = b :: bs) :
      OtherStep s .internal { s with answers := bs, cachedConnected := b }
  /-- The answer comes too late, or the cache has been written since. -/
  | noRefresh {s} {b : Bool} {bs : List Bool} (h : s.answers = b :: bs) :
      OtherStep s .internal { s with answers := bs }

inductive Step (sendChanSize : ℕ) (message : Call → Message) :
    State Call → Label Call → State Call → Prop where
  | caller {s l s'} : CallerStep sendChanSize message s l s' → Step sendChanSize message s l s'
  | run {s l s'} : RunStep s l s' → Step sendChanSize message s l s'
  | other {s l s'} : OtherStep s l s' → Step sendChanSize message s l s'

/-! ### The field and the channels -/

variable {sendChanSize : ℕ} {message : Call → Message} {s s' : State Call} {l : Label Call}

/-- From here until it is ready again, `run` keeps the field cleared. -/
def RunPc.Cleared : RunPc → Prop
  | .cleaning => True
  | .closing => True
  | .draining => True
  | _ => False

/-- The field names no closed channel, and is empty while `run` cleans up. -/
structure Exposed (s : State Call) : Prop where
  isOpen : ∀ ch, s.sendChan = some ch → (s.chan ch).closed = false
  cleared : s.pc.Cleared → s.sendChan = none

def Unheld (s : State Call) : Prop :=
  ∀ c i ch, s.caller c = .holding i ch → (s.chan ch).closed = false

theorem closed_update_withBuf (chan : ℕ → Chan) (ch ch' : ℕ) (buf : List Message) :
    (update chan ch ((chan ch).withBuf buf) ch').closed = (chan ch').closed := by
  rw [update_apply]
  split
  · rename_i heq
    rw [heq, Chan.withBuf]
  · rfl

theorem Exposed.callerStep (h : Exposed s) (hstep : CallerStep sendChanSize message s l s') :
    Exposed s' := by
  cases hstep with
  | send =>
    refine ⟨fun ch' hch' => ?_, h.cleared⟩
    rw [closed_update_withBuf]
    exact h.isOpen ch' hch'
  | _ => exact ⟨h.isOpen, h.cleared⟩

omit [DecidableEq Call] in
theorem Exposed.runStep (h : Exposed s) (hstep : RunStep s l s') : Exposed s' := by
  cases hstep with
  | connect | disconnect | cleanupNothing | drained | stop => exact ⟨h.isOpen, False.elim⟩
  | start =>
    refine ⟨fun ch hch => ?_, False.elim⟩
    cases hch
    simp only [update_self]
  | clear => exact ⟨fun _ hch => (by cases hch), fun _ => rfl⟩
  | cleanup hpc => exact ⟨h.isOpen, fun _ => h.cleared (by rw [hpc]; trivial)⟩
  | close ch hpc =>
    have hnone := h.cleared (by rw [hpc]; trivial)
    refine ⟨fun ch' hch' => ?_, fun _ => hnone⟩
    cases hnone.symm.trans hch'
  | _ => exact ⟨h.isOpen, h.cleared⟩

omit [DecidableEq Call] in
theorem Exposed.otherStep (h : Exposed s) (hstep : OtherStep s l s') : Exposed s' := by
  cases hstep with
  | write =>
    refine ⟨fun ch' hch' => ?_, h.cleared⟩
    rw [closed_update_withBuf]
    exact h.isOpen ch' hch'
  | _ => exact ⟨h.isOpen, h.cleared⟩

theorem Exposed.step (h : Exposed s) (hstep : Step sendChanSize message s l s') : Exposed s' := by
  cases hstep with
  | caller hstep => exact h.callerStep hstep
  | run hstep => exact h.runStep hstep
  | other hstep => exact h.otherStep hstep

theorem Unheld.callerStep (hexposed : Exposed s) (h : Unheld s)
    (hstep : CallerStep sendChanSize message s l s') : Unheld s' := by
  -- a call that goes on without a channel
  have hrelease : ∀ (c : Call) (pc : SendPc), (∀ i ch, pc ≠ .holding i ch) → ∀ c' i ch,
      update s.caller c pc c' = .holding i ch → (s.chan ch).closed = false := by
    intro c pc hpc c' i ch hc'
    rw [update_apply] at hc'
    split at hc'
    · exact absurd hc' (hpc i ch)
    · exact h c' i ch hc'
  cases hstep with
  | load c i ch hc hch =>
    -- what the call reads in the field is open
    intro c' i' ch' hc'
    simp only [update_apply] at hc'
    split at hc'
    · cases hc'
      exact hexposed.isOpen ch hch
    · exact h c' i' ch' hc'
  | send c =>
    intro c' i' ch' hc'
    rw [closed_update_withBuf]
    exact hrelease c _ (fun _ _ => SendPc.noConfusion) c' i' ch' hc'
  | _ => exact hrelease _ _ (fun _ _ => SendPc.noConfusion)

omit [DecidableEq Call] in
theorem Unheld.runStep (h : Unheld s) (hstep : RunStep s l s')
    (hclose : ∀ ch, l = .close ch → ∀ c i, s.caller c ≠ .holding i ch) : Unheld s' := by
  cases hstep with
  | start =>
    intro c i ch hc
    simp only [update_apply]
    split
    · rfl
    · exact h c i ch hc
  | close ch =>
    intro c i ch' hc
    have hne : ch' ≠ ch := by
      rintro rfl
      exact hclose ch' rfl c i hc
    simp only [update_of_ne hne]
    exact h c i ch' hc
  | _ => exact h

omit [DecidableEq Call] in
theorem Unheld.otherStep (h : Unheld s) (hstep : OtherStep s l s') : Unheld s' := by
  cases hstep with
  | write =>
    intro c i ch' hc
    rw [closed_update_withBuf]
    exact h c i ch' hc
  | _ => exact h

theorem Unheld.step (hexposed : Exposed s) (h : Unheld s)
    (hstep : Step sendChanSize message s l s')
    (hclose : ∀ ch, l = .close ch → ∀ c i, s.caller c ≠ .holding i ch) : Unheld s' := by
  cases hstep with
  | caller hstep => exact h.callerStep hexposed hstep
  | run hstep => exact h.runStep hstep hclose
  | other hstep => exact h.otherStep hstep

/-! ### Runs -/

variable {t : List (State Call × Label Call)}

/-- **No send on a closed channel, exactly if no channel is closed in a sender's hands**:
along a run no `SendMessage` can send on a channel that `cleanup` has closed if and only
if `cleanup` never closes a channel that a `SendMessage` has read and not yet let go. -/
theorem sendOnClosed_iff (hrun : Trace.Run (Step sendChanSize message) (.init Call) t s) :
    (∀ s' ∈ Trace.states t s, ∀ c ch s'', ¬ Step sendChanSize message s' (.sendOnClosed c ch) s'') ↔
      ∀ p ∈ t, ∀ ch, p.2 = .close ch → ∀ c i, p.1.caller c ≠ .holding i ch := by
  constructor
  · rintro hnever ⟨s₁, l⟩ hp ch rfl c i hc
    obtain ⟨s₂, hs₂, hstep⟩ := hrun.exists_next hp
    -- right after the channel is closed the call may go on
    obtain ⟨hclosed, hcaller⟩ : (s₂.chan ch).closed = true ∧ s₂.caller = s₁.caller := by
      cases hstep with
      | caller hstep => cases hstep
      | run hstep =>
        cases hstep
        simp only [update_self, Chan.close, and_self]
      | other hstep => cases hstep
    exact hnever s₂ hs₂ c ch _ (.caller (.sendOnClosed c i ch (by rw [hcaller, hc]) hclosed))
  · intro hclose s' hs' c ch s'' hstep
    have hinv := hrun.forall_states (fun s => Exposed s ∧ Unheld s)
      (fun p => ∀ ch, p.2 = .close ch → ∀ c i, p.1.caller c ≠ .holding i ch)
      ⟨⟨fun _ hch => (by cases hch), False.elim⟩, fun _ _ _ hc => (by cases hc)⟩
      (fun _ _ _ h hok hstep => ⟨h.1.step hstep, h.2.step h.1 hstep hok⟩) hclose s' hs'
    cases hstep with
    | caller hstep =>
      cases hstep with
      | sendOnClosed c i ch hc hclosed =>
        rw [hinv.2 c i ch hc] at hclosed
        cases hclosed
    | run hstep | other hstep => cases hstep

/-! ### A disconnect between the read and the send -/

variable (sendChanSize message) in
/-- The call has read the field; then `run` clears the field and closes the channel. -/
theorem exists_holding (c : Call) : ∃ t s,
    Trace.Run (Step sendChanSize message) (.init Call) t s ∧ s.caller c = .holding 0 0 ∧
      (s.chan 0).closed = true := by
  have hconnects : Trace.Run (Step sendChanSize message) (.init Call) _ _ :=
    Trace.Run.nil.snoc (.other (.command .connect (Nat.zero_lt_succ _)))
  have hconnect := hconnects.snoc (.run (.connect rfl rfl rfl))
  have hstart := hconnect.snoc (.run (.start rfl))
  have hcalled := hstart.snoc (.caller (.connected c rfl rfl))
  have hloaded := hcalled.snoc (.caller (.load c 0 0 (update_self ..) rfl))
  have hcommand := hloaded.snoc (.other (.command .disconnect (Nat.zero_lt_succ _)))
  have hdisconnect := hcommand.snoc (.run (.disconnect rfl rfl))
  have hclear := hdisconnect.snoc (.run (.clear rfl))
  have hcleanup := hclear.snoc (.run (.cleanup rfl rfl))
  have hclose := hcleanup.snoc (.run (.close 0 rfl rfl))
  exact ⟨_, _, hclose, update_self .., by simp only [update_self, Chan.close]⟩

/-- The buffer size of `sendChan` in the default configuration. -/
def defaultSendChanSize : ℕ := 65536

def emptyMessage : Message := ⟨Pb.Header.new, []⟩

/-- The channel that the call has read is closed. -/
theorem sendOnClosed_iff_holding : ∃ t s,
    Trace.Run (Step defaultSendChanSize fun _ : Unit => emptyMessage) (.init Unit) t s ∧
      s.caller () = .holding 0 0 ∧ (s.chan 0).closed = true ∧
      ((∀ s' ∈ Trace.states t s, ∀ c ch s'',
          ¬ Step defaultSendChanSize (fun _ => emptyMessage) s' (.sendOnClosed c ch) s'') ↔
        ∀ p ∈ t, ∀ ch, p.2 = .close ch → ∀ c i, p.1.caller c ≠ .holding i ch) := by
  obtain ⟨t, s, hrun, hholding, hclosed⟩ :=
    exists_holding defaultSendChanSize (fun _ => emptyMessage) ()
  exact ⟨t, s, hrun, hholding, hclosed, sendOnClosed_iff hrun⟩

/-- **A disconnect between the read and the send**: the call has read the field, `run`
clears the field and closes the channel, and the call sends on the closed channel. -/
theorem sendOnClosed_after_disconnect : ∃ t s,
    Trace.Run (Step defaultSendChanSize fun _ : Unit => emptyMessage) (.init Unit) t s ∧
      s.caller () = .panicked ∧ ∃ p ∈ t, p.2 = .sendOnClosed () 0 := by
  obtain ⟨t, s, hrun, hholding, hclosed⟩ :=
    exists_holding defaultSendChanSize (fun _ => emptyMessage) ()
  have hsend := hrun.snoc (.caller (.sendOnClosed () 0 0 hholding hclosed))
  exact ⟨_, _, hsend, rfl, (s, .sendOnClosed () 0), by simp, rfl⟩

end MetaNode.ConnectionSend
