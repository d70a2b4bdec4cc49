/-
Messages that the client did not wait for (`pkg/client-tcp/network/handler.go`).

A handler of the client puts the message that it handles on a channel: the one of a pending
request with the id of the message, or else one of two channels that all calls share, with
room for 2000 account states and for one transaction error.  Channels are read by calls only.
As long as no call is made nothing is taken out of them, and a handler that finds its channel
full waits.
-/
import Mathlib.Data.List.Count
import MetaNode.Fairness
import MetaNode.PbState
import MetaNode.PendingRequests

namespace MetaNode.ClientHandler

open Function
open PendingRequests (chainCommands transactionErrorOk)

/-! ### The handlers -/

inductive Target where
  | accountStateChan
  | transactionErrorChan
  /-- The channel of a request. -/
  | respCh (ch : ℕ)
  deriving DecidableEq

/-- The room of the channels that `NewClient` and the requests make; `size` is the one of the
requests, 1 or 2. -/
def capacity (size : ℕ → ℕ) : Target → ℕ
  | .accountStateChan => 2000
  | .transactionErrorChan => 1
  | .respCh ch => size ch

/-- `pendingChainRequests` -/
abbrev Table := Bytes → Option ℕ

/-- Where a handler sends its message, if it does, and the table that it leaves. -/
abbrev Outcome := Option Target × Table

variable (E : Env) (pending : Table)

def handleAccountState (m : Message) : Outcome :=
  match if m.header.id = [] then none else pending m.header.id with
  | some ch => (some (.respCh ch), update pending m.header.id none)
  | none =>
    if (Pb.AccountState.unmarshal E m.body).isSome then (some .accountStateChan, pending)
    else (none, pending)

def handleTransactionError (m : Message) : Outcome :=
  if transactionErrorOk E m.body then
    match if m.header.id = [] then none else pending m.header.id with
    | some ch => (some (.respCh ch), update pending m.header.id none)
    | none => (some .transactionErrorChan, pending)
  else (none, pending)

def handleChainResponse (m : Message) : Outcome :=
  match pending m.header.id with
  | none => (none, pending)
  | some ch =>
    if m.header.command = asciiBytes "RegisterAccountAck" then (some (.respCh ch), pending)
    else (some (.respCh ch), update pending m.header.id none)

def serverCommands : List Bytes :=
  asciiBytes "AccountState" :: asciiBytes "TransactionError" :: chainCommands

abbrev ServerMessage := {m : Message // serverCommands.contains m.header.command}

def handleRequest (m : ServerMessage) : Outcome :=
  if m.1.header.command = asciiBytes "AccountState" then handleAccountState E pending m.1
  else if m.1.header.command = asciiBytes "TransactionError" then
    handleTransactionError E pending m.1
  else handleChainResponse pending m.1

/-! ### The workers -/

structure State where
  pending : Table
  /-- How many messages are on a channel. -/
  used : Target → ℕ
  /-- The messages that no worker has taken. -/
  inbox : List ServerMessage
  /-- The messages whose handler has not come to the table. -/
  taken : List ServerMessage
  /-- Where the other handlers are to send their message. -/
  sending : List Target

namespace State

variable (spare : ℕ) (size : ℕ → ℕ)

/-- The steps of the `spare + 1` workers: one takes a message, looks at the table, or sends
the message and returns. -/
inductive Work : State → State → Prop where
  | take {s : State} {m : ServerMessage} {rest : List ServerMessage} (hinbox : s.inbox = m :: rest)
      (hworker : s.taken.length + s.sending.length ≤ spare) :
      Work s { s with inbox := rest, taken := s.taken ++ [m] }
  | look {s : State} {m : ServerMessage} {before after : List ServerMessage}
      (htaken : s.taken = before ++ m :: after) :
      Work s { s with
        pending := (handleRequest E s.pending m).2
        taken := before ++ after
        sending := s.sending ++ (handleRequest E s.pending m).1.toList }
  | send {s : State} {t : Target} (ht : t ∈ s.sending) (hroom : s.used t < capacity size t) :
      Work s { s with
        used := update s.used t (s.used t + 1)
        sending := s.sending.erase t }

inductive Step : State → State → Prop where
  | idle (s : State) : Step s s
  | work {s s' : State} (h : Work E spare size s s') : Step s s'

structure FairRun (run : ℕ → State) : Prop where
  steps : Fairness.IsRun (Step E spare size) run
  fair : Fairness.WeaklyFair (Work E spare size) run

/-- Every message was handled, and every handler has returned. -/
def Done (s : State) : Prop := s.inbox = [] ∧ s.taken = [] ∧ s.sending = []

end State

/-- The orders in which messages can come to the table: from some that are taken and others
in the inbox, when no more than `spare + 1` are taken at a time. -/
inductive Order (spare : ℕ) :
    List ServerMessage → List ServerMessage → List ServerMessage → Prop where
  | nil : Order spare [] [] []
  | take {m : ServerMessage} {taken rest order : List ServerMessage}
      (hworker : taken.length ≤ spare) (h : Order spare (taken ++ [m]) rest order) :
      Order spare taken (m :: rest) order
  | look {m : ServerMessage} {before after inbox order : List ServerMessage}
      (h : Order spare (before ++ after) inbox order) :
      Order spare (before ++ m :: after) inbox (m :: order)

/-- Where the messages go if they come to the table in this order. -/
def destinations (pending : Table) : List ServerMessage → List Target
  | [] => []
  | m :: rest =>
    (handleRequest E pending m).1.toList ++ destinations (handleRequest E pending m).2 rest

variable {spare : ℕ}

theorem Order.fifo (taken inbox : List ServerMessage) :
    Order spare taken inbox (taken ++ inbox) := by
  induction taken with
  | cons m taken ih => exact @Order.look _ m [] _ _ _ ih
  | nil =>
    induction inbox with
    | nil => exact .nil
    | cons m inbox ih => exact .take (Nat.zero_le _) (@Order.look _ m [] _ _ _ ih)

variable {taken inbox order : List ServerMessage}

theorem Order.perm (h : Order spare taken inbox order) : order.Perm (taken ++ inbox) := by
  induction h with
  | nil => exact .refl _
  | take _ _ ih => simpa using ih
  | look _ ih =>
    rw [List.append_assoc] at ih ⊢
    exact (ih.cons _).trans List.perm_middle.symm

/-! ### Every handler returns -/

namespace State

variable {E} {size : ℕ → ℕ} {s s' : State}

/-- In whatever order the messages come to the table, the channels have room for what is on
its way. -/
def Fits (E : Env) (spare : ℕ) (size : ℕ → ℕ) (s : State) : Prop :=
  ∀ order, Order spare s.taken s.inbox order → ∀ t,
    s.used t + s.sending.count t + (destinations E s.pending order).count t ≤ capacity size t

theorem used_add_count_send {t : Target} (ht : t ∈ s.sending) (t' : Target) :
    update s.used t (s.used t + 1) t' + (s.sending.erase t).count t' =
      s.used t' + s.sending.count t' := by
  rw [List.count_erase]
  by_cases htt : t' = t
  · have hpos : 0 < s.sending.count t := List.count_pos_iff.mpr ht
    rw [htt, update_self, beq_self_eq_true, if_pos rfl]
    omega
  · rw [update_of_ne htt, if_neg (by simpa using Ne.symm htt), Nat.sub_zero]

theorem Fits.work (h : s.Fits E spare size) (hwork : Work E spare size s s') :
    s'.Fits E spare size := by
  intro order horder t
  cases hwork with
  | take hinbox hworker =>
    refine h order ?_ t
    rw [hinbox]
    exact .take (Nat.le_trans (Nat.le_add_right _ _) hworker) horder
  | @look m before after htaken =>
    have hle := h (m :: order) (by rw [htaken]; exact .look horder) t
    rw [destinations, List.count_append, ← Nat.add_assoc, Nat.add_assoc (s.used t),
      ← List.count_append] at hle
    exact hle
  | send ht hroom =>
    rw [used_add_count_send ht]
    exact h order horder t

def rank (s : State) : ℕ := 3 * s.inbox.length + 2 * s.taken.length + s.sending.length

theorem rank_work (h : Work E spare size s s') : s'.rank < s.rank := by
  cases h with
  | take hinbox =>
    simp only [rank, hinbox, List.length_append, List.length_cons, List.length_nil]
    omega
  | @look m before after htaken =>
    have hone : (handleRequest E s.pending m).1.toList.length ≤ 1 := by
      cases (handleRequest E s.pending m).1 <;> simp
    simp only [rank, htaken, List.length_append, List.length_cons]
    omega
  | send ht hroom =>
    have hpos := List.length_pos_of_mem ht
    simp only [rank, List.length_erase_of_mem ht]
    omega

theorem Fits.enabled (h : s.Fits E spare size) (hdone : ¬ s.Done) :
    ∃ s', Work E spare size s s' := by
  cases hsending : s.sending with
  | cons t rest =>
    have hmem : t ∈ s.sending := by
      rw [hsending]
      exact List.mem_cons_self
    have hpos : 0 < s.sending.count t := List.count_pos_iff.mpr hmem
    have hle := h _ (.fifo _ _) t
    exact ⟨_, .send hmem (by omega)⟩
  | nil =>
    cases htaken : s.taken with
    | cons m rest => exact ⟨_, @Work.look _ _ _ s m [] rest htaken⟩
    | nil =>
      cases hinbox : s.inbox with
      | nil => exact absurd ⟨hinbox, htaken, hsending⟩ hdone
      | cons => exact ⟨_, .take hinbox (by rw [hsending, htaken]; exact Nat.zero_le _)⟩

theorem Fits.eventually {run : ℕ → State} (hrun : FairRun E spare size run)
    (h : (run 0).Fits E spare size) : ∃ n, (run n).Done := by
  -- either all is done, or a worker has something to do
  have hstep : ∀ s s', (s.Fits E spare size ∧ ¬ s.Done) → Step E spare size s s' →
      s'.Done ∨ ((s'.Fits E spare size ∧ ¬ s'.Done) ∧ s'.rank ≤ s.rank) := by
    intro s s' hs hnext
    cases hnext with
    | idle => exact .inr ⟨hs, Nat.le_refl _⟩
    | work hwork =>
      by_cases hdone : s'.Done
      · exact .inl hdone
      · exact .inr ⟨⟨hs.1.work hwork, hdone⟩, Nat.le_of_lt (rank_work hwork)⟩
  by_cases hdone : (run 0).Done
  · exact ⟨0, hdone⟩
  · obtain ⟨n, -, hn⟩ := Fairness.eventually_of_rank rank (fun s hs => hs.1.enabled hs.2) hstep
      (fun _ _ _ _ hwork => .inr (rank_work hwork)) hrun.steps hrun.fair ⟨h, hdone⟩
    exact ⟨n, hn⟩

/-! ### Some handler waits -/

def Ends (E : Env) (spare : ℕ) (size : ℕ → ℕ) (s : State) : Prop :=
  ∀ run, FairRun E spare size run → run 0 = s → ∃ n, (run n).Done

theorem Work.not_done (h : Work E spare size s s') : ¬ s.Done := by
  rintro ⟨hinbox, htaken, hsending⟩
  cases h with
  | take h => simp [hinbox] at h
  | look h => simp [htaken] at h
  | send h => simp [hsending] at h

theorem Ends.work (h : s.Ends E spare size) (hwork : Work E spare size s s') :
    s'.Ends E spare size := by
  rintro run hrun rfl
  obtain ⟨run', hzero, hsucc, hsteps, hfair⟩ :=
    Fairness.exists_cons (.work hwork) hrun.steps hrun.fair
  obtain ⟨n, hdone⟩ := h run' ⟨hsteps, hfair⟩ hzero
  cases n with
  | zero => exact absurd (hzero ▸ hdone) hwork.not_done
  | succ n => exact ⟨n, hsucc n ▸ hdone⟩

def WithinCapacity (size : ℕ → ℕ) (s : State) : Prop := ∀ t, s.used t ≤ capacity size t

theorem WithinCapacity.work (hs : s.WithinCapacity size) (h : Work E spare size s s') :
    s'.WithinCapacity size := by
  cases h with
  | take | look => exact hs
  | @send t ht hroom =>
    exact (forall_update_iff s.used fun t used => used ≤ capacity size t).mpr
      ⟨hroom, fun t _ => hs t⟩

theorem FairRun.exists_from (s : State) : ∃ run, FairRun E spare size run ∧ run 0 = s := by
  obtain ⟨run, hzero, hsteps, hfair⟩ :=
    Fairness.exists_fairRun (@Step.idle E spare size) (fun _ _ => .work) s
  exact ⟨run, ⟨hsteps, hfair⟩, hzero⟩

/-- What a handler is to send is sent in the end. -/
theorem Ends.room (h : s.Ends E spare size) (hs : s.WithinCapacity size) (t : Target) :
    s.used t + s.sending.count t ≤ capacity size t := by
  obtain ⟨run, hrun, hzero⟩ := FairRun.exists_from s
  obtain ⟨n, -, -, hsending⟩ := h run hrun hzero
  have hkept := hrun.steps.invariant (P := fun s' => s'.WithinCapacity size ∧
      s.used t + s.sending.count t ≤ s'.used t + s'.sending.count t) (fun s₁ s₂ h₁ hstep => ?_)
    (by rw [hzero]; exact ⟨hs, Nat.le_refl _⟩) n
  · have hle := hkept.2
    rw [hsending] at hle
    exact Nat.le_trans hle (hkept.1 t)
  · cases hstep with
    | idle => exact h₁
    | work hwork =>
      refine ⟨h₁.1.work hwork, Nat.le_trans h₁.2 ?_⟩
      cases hwork with
      | take => exact Nat.le_refl _
      | look =>
        rw [List.count_append]
        exact Nat.add_le_add_left (Nat.le_add_right _ _) _
      | send ht => exact Nat.le_of_eq (used_add_count_send ht t).symm

theorem Ends.sent {pending : Table} {used : Target → ℕ} {inbox taken : List ServerMessage}
    {o : Option Target} (h : (⟨pending, used, inbox, taken, o.toList⟩ : State).Ends E spare size)
    (hused : ∀ t, used t ≤ capacity size t) :
    (⟨pending, fun t => used t + o.toList.count t, inbox, taken, []⟩ : State).Ends
      E spare size := by
  cases o with
  | none => exact h
  | some t =>
    have hmem : t ∈ [t] := List.mem_singleton_self t
    have hroom := h.room hused t
    have hsend := h.work (.send hmem (by simpa using hroom))
    have hcount := used_add_count_send (s := ⟨pending, used, inbox, taken, [t]⟩) hmem
    simp only [List.erase_cons_head, List.count_nil, Nat.add_zero] at hcount
    simpa [funext hcount] using hsend

theorem Ends.fits (horder : Order spare taken inbox order) {pending : Table} {used : Target → ℕ}
    (h : (⟨pending, used, inbox, taken, []⟩ : State).Ends E spare size)
    (hused : ∀ t, used t ≤ capacity size t) (t : Target) :
    used t + (destinations E pending order).count t ≤ capacity size t := by
  induction horder generalizing pending used with
  | nil => exact hused t
  | take hworker _ ih => exact ih (h.work (.take rfl hworker)) hused
  | @look m before after inbox order _ ih =>
    have hlook : (⟨(handleRequest E pending m).2, used, inbox, before ++ after,
        (handleRequest E pending m).1.toList⟩ : State).Ends E spare size := h.work (.look rfl)
    rw [destinations, List.count_append, ← Nat.add_assoc]
    exact ih (hlook.sent hused) (hlook.room hused)

/-- **While no call is made every handler returns, in every fair run of the workers, exactly
if each channel has room for all the messages that go there, in whatever order they come to
the table.** -/
theorem handlers_return_iff (E : Env) (spare : ℕ) (size : ℕ → ℕ) (pending : Table)
    (used : Target → ℕ) (hused : ∀ t, used t ≤ capacity size t) (messages : List ServerMessage) :
    (∀ run, FairRun E spare size run → run 0 = ⟨pending, used, messages, [], []⟩ →
      ∃ n, (run n).Done) ↔
    ∀ order, Order spare [] messages order →
      ∀ t, used t + (destinations E pending order).count t ≤ capacity size t := by
  constructor
  · intro hall order horder t
    exact Ends.fits horder hall hused t
  · intro h run hrun hzero
    refine Fits.eventually hrun ?_
    rw [hzero]
    exact h

def transactionError : ServerMessage :=
  ⟨⟨{ Pb.Header.new with command := asciiBytes "TransactionError" }, []⟩, by decide⟩

def accountState : ServerMessage :=
  ⟨⟨{ Pb.Header.new with command := asciiBytes "AccountState" }, []⟩, by decide⟩

/-- The client as it is made, with messages to handle. -/
def fresh (messages : List ServerMessage) : State := ⟨fun _ => none, fun _ => 0, messages, [], []⟩

theorem handlers_return_both :
    (∃ run, FairRun stdEnv 7 (fun _ => 1) run ∧ run 0 = fresh [transactionError, accountState]) ∧
    ∀ run, FairRun stdEnv 7 (fun _ => 1) run → run 0 = fresh [transactionError, accountState] →
      ∃ n, (run n).Done := by
  refine ⟨FairRun.exists_from _, (handlers_return_iff stdEnv 7 (fun _ => 1) (fun _ => none)
    (fun _ => 0) (fun _ => Nat.zero_le _)
    [transactionError, accountState]).mpr fun order horder t => ?_⟩
  -- without an id each message goes to the channel of its kind
  have hdest : ∀ order, order ⊆ [transactionError, accountState] →
      destinations stdEnv (fun _ => none) order =
        order.flatMap fun m => (handleRequest stdEnv (fun _ => none) m).1.toList := by
    intro order hsub
    induction order with
    | nil => rfl
    | cons m order ih =>
      have htable : (handleRequest stdEnv (fun _ => none) m).2 = fun _ => none := by
        obtain rfl | rfl : m = transactionError ∨ m = accountState := by
          simpa using hsub List.mem_cons_self
        · rfl
        · rfl
      rw [destinations, htable, ih (List.subset_of_cons_subset hsub), List.flatMap_cons]
  have hperm := horder.perm
  rw [hdest order hperm.subset, (hperm.flatMap_right _).count_eq]
  cases t with
  | accountStateChan | transactionErrorChan => decide
  | respCh => exact Nat.zero_le _

/-- Of two transaction errors without an id only one fits into the channel: there is a fair
run in which the handlers do not both return. -/
theorem second_transactionError_waits :
    ∃ run, run 0 = fresh [transactionError, transactionError] ∧
      FairRun stdEnv 7 (fun _ => 1) run ∧ ∀ n, ¬ (run n).Done := by
  by_contra hnone
  have hends : (fresh [transactionError, transactionError]).Ends stdEnv 7 fun _ => 1 := by
    intro run hrun hzero
    by_contra hdone
    exact hnone ⟨run, hzero, hrun, not_exists.mp hdone⟩
  have hle := Ends.fits (.fifo [] _) hends (fun _ => Nat.zero_le _) .transactionErrorChan
  revert hle
  decide

end State

end MetaNode.ClientHandler
