/-
The receipt router of the client (`runReceiptRouter`, `client.go`).

One loop handles, one after the other, the receipts of the connection, the requests of
the waiters to be registered and cancelled, and the ticks of the cleanup timer.  A
receipt goes to the waiters of its transaction hash and to those of its receipt hash, and
into a cache under its transaction hash.  A waiter that registers is served from the
cache, whatever it asked for; it joins the table only if the cache has no entry for it,
not even an expired one.

* **`pending_iff`** — what the cache holds, told by the events.
-/
import MetaNode.Machine
import MetaNode.Receipt

namespace MetaNode.ReceiptRouter

open Function

/-! ### The router -/

/-- `receiptMatchType` -/
inductive MatchType where
  | matchByTxHash
  | matchByReceiptHash
  deriving DecidableEq

/-- `receiptWaiter`; channels are told apart by number. -/
structure ReceiptWaiter where
  ch : ℕ
  matchType : MatchType
  txHash : Hash
  deriving DecidableEq

/-- `pendingReceipt`; times are nanoseconds. -/
structure PendingReceipt where
  value : Receipt
  expiresAt : ℕ

def pendingReceiptTTL : ℕ := 60 * 10 ^ 9

/-- What wakes the loop, and a waiter that reads its channel. -/
inductive Event where
  | receipt (receipt : Option Receipt)
  | register (req : ReceiptWaiter)
  | cancel (req : ReceiptWaiter)
  | cleanup
  | take (ch : ℕ)

/-- An event and the time at which it is handled. -/
structure Timed where
  now : ℕ
  event : Event

/-- The two maps of the loop and the response channels, each with room for one receipt;
`sent` records what was put on them. -/
structure Router where
  waiters : Hash → List ReceiptWaiter
  pendingReceipts : Hash → Option PendingReceipt
  buffer : ℕ → Option Receipt
  sent : List (ReceiptWaiter × Receipt)

def Router.new : Router := ⟨fun _ => [], fun _ => none, fun _ => none, []⟩

namespace Router

variable (s : Router)

/-- A send that is dropped when the channel is full. -/
def trySend (w : ReceiptWaiter) (r : Receipt) : Router :=
  match s.buffer w.ch with
  | none => { s with buffer := update s.buffer w.ch (some r), sent := s.sent ++ [(w, r)] }
  | some _ => s

/-- The test of a waiter in the list of `hash`. -/
def matched (m : MatchType) (hash : Hash) (w : ReceiptWaiter) : Bool :=
  w.matchType = m ∧ w.txHash = hash

/-- One of the two searches for waiters of a receipt: those that match are sent the
receipt, the others remain. -/
def deliver (m : MatchType) (hash : Hash) (r : Receipt) : Router :=
  let chans := s.waiters hash
  let s := (chans.filter (matched m hash)).foldl (fun s w => s.trySend w r) s
  { s with waiters := update s.waiters hash (chans.filter fun w => !matched m hash w) }

def onReceipt (now : ℕ) (r : Receipt) : Router :=
  let s := s.deliver .matchByTxHash r.transactionHash r
  let s := s.deliver .matchByReceiptHash r.rHash r
  { s with
    pendingReceipts := update s.pendingReceipts r.transactionHash
      (some ⟨r, now + pendingReceiptTTL⟩) }

def onRegister (now : ℕ) (req : ReceiptWaiter) : Router :=
  match s.pendingReceipts req.txHash with
  | some pending =>
    let s := { s with pendingReceipts := update s.pendingReceipts req.txHash none }
    -- the `break` of the source leaves the switch: the request is forgotten
    if pending.expiresAt < now then s else s.trySend req pending.value
  | none =>
    { s with waiters := update s.waiters req.txHash (s.waiters req.txHash ++ [req]) }

def onCancel (req : ReceiptWaiter) : Router :=
  { s with
    waiters := update s.waiters req.txHash
      ((s.waiters req.txHash).eraseP fun w => w.ch = req.ch) }

def onCleanup (now : ℕ) : Router :=
  { s with
    pendingReceipts := fun hash => (s.pendingReceipts hash).filter fun p => ¬ p.expiresAt < now }

def step (e : Timed) : Router :=
  match e.event with
  | .receipt none => s
  | .receipt (some r) => s.onReceipt e.now r
  | .register req => s.onRegister e.now req
  | .cancel req => s.onCancel req
  | .cleanup => s.onCleanup e.now
  | .take ch => { s with buffer := update s.buffer ch none }

abbrev run (events : List Timed) : Router := Machine.run step new events

end Router

/-! ### Sends

Everything a turn of the loop sends is told by `attempts`.  A send changes neither of the
two maps, and only the channel that it is for. -/

open Router

variable {s : Router} {w : ReceiptWaiter} {r : Receipt} {h : Hash} {ch : ℕ} {e : Timed}
variable {x : ReceiptWaiter × Receipt} {xs : List (ReceiptWaiter × Receipt)}

@[simp] theorem trySend_waiters : (s.trySend w r).waiters = s.waiters := by
  rw [trySend]
  split <;> rfl

@[simp] theorem trySend_pendingReceipts :
    (s.trySend w r).pendingReceipts = s.pendingReceipts := by
  rw [trySend]
  split <;> rfl

theorem trySend_buffer_of_ne (hne : w.ch ≠ ch) : (s.trySend w r).buffer ch = s.buffer ch := by
  rw [trySend]
  split
  · exact update_of_ne hne.symm ..
  · rfl

theorem mem_sent_trySend :
    x ∈ (s.trySend w r).sent ↔ x ∈ s.sent ∨ (s.buffer w.ch = none ∧ x = (w, r)) := by
  rw [trySend]
  split
  · rename_i hnone
    simp [hnone]
  · rename_i hsome
    simp [hsome]

def sendAll (xs : List (ReceiptWaiter × Receipt)) (s : Router) : Router :=
  xs.foldl (fun s x => s.trySend x.1 x.2) s

theorem sendAll_cons : sendAll (x :: xs) s = sendAll xs (s.trySend x.1 x.2) := rfl

@[simp] theorem sendAll_waiters : (sendAll xs s).waiters = s.waiters := by
  induction xs generalizing s with
  | nil => rfl
  | cons x xs ih => rw [sendAll_cons, ih, trySend_waiters]

@[simp] theorem sendAll_pendingReceipts : (sendAll xs s).pendingReceipts = s.pendingReceipts := by
  induction xs generalizing s with
  | nil => rfl
  | cons x xs ih => rw [sendAll_cons, ih, trySend_pendingReceipts]

theorem sendAll_buffer_of_forall_ne (hne : ∀ x ∈ xs, x.1.ch ≠ ch) :
    (sendAll xs s).buffer ch = s.buffer ch := by
  induction xs generalizing s with
  | nil => rfl
  | cons x xs ih =>
    rw [List.forall_mem_cons] at hne
    rw [sendAll_cons, ih hne.2, trySend_buffer_of_ne hne.1]

theorem sent_subset_sendAll (xs : List (ReceiptWaiter × Receipt)) (s : Router) :
    s.sent ⊆ (sendAll xs s).sent := by
  induction xs generalizing s with
  | nil => exact List.Subset.refl _
  | cons x xs ih =>
    intro y hy
    exact ih (s.trySend x.1 x.2) (mem_sent_trySend.mpr (.inl hy))

theorem mem_of_mem_sendAll (hx : x ∈ (sendAll xs s).sent) : x ∈ s.sent ∨ x ∈ xs := by
  induction xs generalizing s with
  | nil => exact .inl hx
  | cons y xs ih =>
    obtain hx | hx := ih hx
    · obtain hx | ⟨-, rfl⟩ := mem_sent_trySend.mp hx
      · exact .inl hx
      · exact .inr List.mem_cons_self
    · exact .inr (List.mem_cons_of_mem _ hx)

theorem exists_mem_sendAll (hx : x ∈ xs) (hempty : s.buffer x.1.ch = none) :
    ∃ y ∈ xs, y.1.ch = x.1.ch ∧ y ∈ (sendAll xs s).sent := by
  induction xs generalizing s with
  | nil => cases hx
  | cons y xs ih =>
    by_cases hy : y.1.ch = x.1.ch
    · have hsent : y ∈ (s.trySend y.1 y.2).sent :=
        mem_sent_trySend.mpr (.inr ⟨by rw [hy]; exact hempty, rfl⟩)
      exact ⟨y, List.mem_cons_self, hy, sent_subset_sendAll xs _ hsent⟩
    · have hx : x ∈ xs := by
        obtain rfl | hx := List.mem_cons.mp hx
        · exact absurd rfl hy
        · exact hx
      obtain ⟨z, hz, hch, hsent⟩ := ih hx ((trySend_buffer_of_ne hy).trans hempty)
      exact ⟨z, List.mem_cons_of_mem _ hz, hch, hsent⟩

theorem sendAll_update_waiters (f : Hash → List ReceiptWaiter) :
    sendAll xs { s with waiters := f } = { sendAll xs s with waiters := f } := by
  induction xs generalizing s with
  | nil => rfl
  | cons x xs ih =>
    have hone : Router.trySend { s with waiters := f } x.1 x.2 =
        { s.trySend x.1 x.2 with waiters := f } := by
      simp only [trySend]
      split <;> rfl
    rw [sendAll_cons, sendAll_cons, hone, ih]

/-- The sends of a search among the waiters of `hash`. -/
def addressees (s : Router) (m : MatchType) (hash : Hash) (r : Receipt) :
    List (ReceiptWaiter × Receipt) :=
  ((s.waiters hash).filter (matched m hash)).map (·, r)

theorem mem_addressees {m : MatchType} :
    x ∈ addressees s m h r ↔ x.1 ∈ s.waiters h ∧ x.1.matchType = m ∧ x.1.txHash = h ∧ x.2 = r := by
  obtain ⟨w, r'⟩ := x
  simp only [addressees, matched, List.mem_map, List.mem_filter, decide_eq_true_eq, Prod.mk.injEq]
  constructor
  · rintro ⟨w', ⟨hw, hm, hh⟩, rfl, rfl⟩
    exact ⟨hw, hm, hh, rfl⟩
  · rintro ⟨hw, hm, hh, rfl⟩
    exact ⟨w, ⟨hw, hm, hh⟩, rfl, rfl⟩

theorem deliver_eq (s : Router) (m : MatchType) (hash : Hash) (r : Receipt) :
    s.deliver m hash r = { sendAll (addressees s m hash r) s with
      waiters := update s.waiters hash
        ((s.waiters hash).filter fun w => !matched m hash w) } := by
  have hfold : ((s.waiters hash).filter (matched m hash)).foldl (fun s w => s.trySend w r) s =
      sendAll (addressees s m hash r) s := by
    rw [sendAll, addressees, List.foldl_map]
  rw [deliver, hfold, sendAll_waiters]

theorem deliver_waiters (s : Router) (m : MatchType) (hash : Hash) (r : Receipt) :
    (s.deliver m hash r).waiters = update s.waiters hash
      ((s.waiters hash).filter fun w => !matched m hash w) := by
  rw [deliver_eq]

theorem mem_waiters_deliver {m : MatchType} {hash : Hash} :
    w ∈ (s.deliver m hash r).waiters h ↔
      w ∈ s.waiters h ∧ ¬ (hash = h ∧ w.matchType = m ∧ w.txHash = h) := by
  rw [deliver_waiters]
  by_cases hh : hash = h
  · subst hh
    rw [update_self, List.mem_filter, Bool.not_eq_true', matched,
      decide_eq_false_iff_not]
    simp
  · simp [update_of_ne (Ne.symm hh), hh]

section Register

variable {now : ℕ} {p : PendingReceipt}

theorem onRegister_of_none (hnone : s.pendingReceipts w.txHash = none) :
    s.onRegister now w =
      { s with waiters := update s.waiters w.txHash (s.waiters w.txHash ++ [w]) } := by
  rw [onRegister, hnone]

theorem onRegister_of_expired (hsome : s.pendingReceipts w.txHash = some p)
    (hexp : p.expiresAt < now) :
    s.onRegister now w =
      { s with pendingReceipts := update s.pendingReceipts w.txHash none } := by
  rw [onRegister, hsome]
  exact if_pos hexp

theorem onRegister_of_fresh (hsome : s.pendingReceipts w.txHash = some p)
    (hexp : ¬ p.expiresAt < now) :
    s.onRegister now w =
      Router.trySend { s with pendingReceipts := update s.pendingReceipts w.txHash none }
        w p.value := by
  rw [onRegister, hsome]
  exact if_neg hexp

end Register

def attempts (s : Router) (e : Timed) : List (ReceiptWaiter × Receipt) :=
  match e.event with
  | .receipt (some r) =>
    addressees s .matchByTxHash r.transactionHash r ++ addressees s .matchByReceiptHash r.rHash r
  | .register req =>
    match s.pendingReceipts req.txHash with
    | some pending => if pending.expiresAt < e.now then [] else [(req, pending.value)]
    | none => []
  | _ => []

variable {p : PendingReceipt}

theorem attempts_of_fresh {now : ℕ}
    (hsome : s.pendingReceipts w.txHash = some p) (hexp : ¬ p.expiresAt < now) :
    attempts s ⟨now, .register w⟩ = [(w, p.value)] := by
  simp [attempts, hsome, hexp]

theorem addressees_deliver (s : Router) (hash : Hash) (r : Receipt) :
    addressees (s.deliver .matchByTxHash hash r) .matchByReceiptHash h r =
      addressees s .matchByReceiptHash h r := by
  rw [addressees, addressees, deliver_waiters]
  by_cases hh : hash = h
  · subst hh
    rw [update_self, List.filter_filter]
    congr 1
    refine List.filter_congr fun w _ => ?_
    simp only [matched]
    cases w.matchType <;> simp
  · rw [update_of_ne (Ne.symm hh)]

theorem onReceipt_eq (s : Router) (now : ℕ) (r : Receipt) :
    ∃ f g, s.onReceipt now r =
      { sendAll (addressees s .matchByTxHash r.transactionHash r ++
        addressees s .matchByReceiptHash r.rHash r) s with
        waiters := f, pendingReceipts := g } := by
  refine ⟨(s.onReceipt now r).waiters, (s.onReceipt now r).pendingReceipts, ?_⟩
  have hsent : sendAll (addressees s .matchByTxHash r.transactionHash r ++
      addressees s .matchByReceiptHash r.rHash r) s =
      sendAll (addressees s .matchByReceiptHash r.rHash r)
        (sendAll (addressees s .matchByTxHash r.transactionHash r) s) := List.foldl_append
  rw [onReceipt, deliver_eq (s.deliver _ _ _), addressees_deliver, deliver_eq s, hsent,
    sendAll_update_waiters]

theorem step_sends (s : Router) (e : Timed) :
    (s.step e).sent = (sendAll (attempts s e) s).sent ∧
      ∀ ch, (s.step e).buffer ch = (sendAll (attempts s e) s).buffer ch ∨
        (s.step e).buffer ch = none := by
  obtain ⟨now, event⟩ := e
  cases event with
  | receipt r =>
    cases r with
    | none => exact ⟨rfl, fun _ => .inl rfl⟩
    | some r =>
      obtain ⟨f, g, heq⟩ := onReceipt_eq s now r
      have hstep : s.step ⟨now, .receipt (some r)⟩ = s.onReceipt now r := rfl
      rw [hstep, heq]
      exact ⟨rfl, fun _ => .inl rfl⟩
  | register req =>
    have hstep : s.step ⟨now, .register req⟩ = s.onRegister now req := rfl
    cases hp : s.pendingReceipts req.txHash with
    | none =>
      have hatt : attempts s ⟨now, .register req⟩ = [] := by simp [attempts, hp]
      rw [hstep, hatt, onRegister_of_none hp]
      exact ⟨rfl, fun _ => .inl rfl⟩
    | some p =>
      by_cases hexp : p.expiresAt < now
      · have hatt : attempts s ⟨now, .register req⟩ = [] := by simp [attempts, hp, hexp]
        rw [hstep, hatt, onRegister_of_expired hp hexp]
        exact ⟨rfl, fun _ => .inl rfl⟩
      · have hatt := attempts_of_fresh hp hexp
        rw [hstep, hatt, onRegister_of_fresh hp hexp, sendAll_cons, trySend, trySend]
        cases s.buffer req.ch <;> exact ⟨rfl, fun _ => .inl rfl⟩
  | cancel | cleanup => exact ⟨rfl, fun _ => .inl rfl⟩
  | take ch' =>
    refine ⟨rfl, fun ch => ?_⟩
    by_cases hch : ch = ch'
    · subst hch
      exact .inr (update_self ..)
    · exact .inl (update_of_ne hch ..)

theorem sent_subset_step (s : Router) (e : Timed) : s.sent ⊆ (s.step e).sent := by
  rw [(step_sends s e).1]
  exact sent_subset_sendAll _ _

theorem buffer_step_of_forall_ne (hne : ∀ x ∈ attempts s e, x.1.ch ≠ ch)
    (hempty : s.buffer ch = none) : (s.step e).buffer ch = none := by
  obtain h | h := (step_sends s e).2 ch
  · rw [h, sendAll_buffer_of_forall_ne hne, hempty]
  · exact h

/-! ### The waiters -/

theorem mem_waiters_of_step (hw : w ∈ (s.step e).waiters h) :
    w ∈ s.waiters h ∨ e.event = .register w ∧ w.txHash = h := by
  obtain ⟨now, event⟩ := e
  cases event with
  | receipt r =>
    cases r with
    | none => exact .inl hw
    | some => exact .inl (mem_waiters_deliver.mp (mem_waiters_deliver.mp hw).1).1
  | register req =>
    simp only [step] at hw
    cases hp : s.pendingReceipts req.txHash with
    | some p =>
      by_cases hexp : p.expiresAt < now
      · rw [onRegister_of_expired hp hexp] at hw
        exact .inl hw
      · rw [onRegister_of_fresh hp hexp, trySend_waiters] at hw
        exact .inl hw
    | none =>
      simp only [onRegister_of_none hp] at hw
      by_cases hh : h = req.txHash
      · subst hh
        rw [update_self, List.mem_append, List.mem_singleton] at hw
        obtain hw | rfl := hw
        · exact .inl hw
        · exact .inr ⟨rfl, rfl⟩
      · rw [update_of_ne hh] at hw
        exact .inl hw
  | cancel req =>
    simp only [step, onCancel] at hw
    by_cases hh : h = req.txHash
    · subst hh
      rw [update_self] at hw
      exact .inl (List.mem_of_mem_eraseP hw)
    · rw [update_of_ne hh] at hw
      exact .inl hw
  | cleanup | take => exact .inl hw

theorem mem_waiters_step (hw : w ∈ s.waiters h)
    (hreceipt : ∀ x ∈ attempts s e, x.1 ≠ w)
    (hcancel : ∀ req, e.event = .cancel req → req.txHash = h → req.ch ≠ w.ch) :
    w ∈ (s.step e).waiters h := by
  obtain ⟨now, event⟩ := e
  cases event with
  | receipt r =>
    cases r with
    | none => exact hw
    | some r =>
      refine mem_waiters_deliver.mpr ⟨mem_waiters_deliver.mpr ⟨hw, ?_⟩, ?_⟩
      · rintro ⟨rfl, hm, hh⟩
        exact hreceipt (w, r) (List.mem_append_left _ (mem_addressees.mpr ⟨hw, hm, hh, rfl⟩)) rfl
      · rintro ⟨rfl, hm, hh⟩
        exact hreceipt (w, r) (List.mem_append_right _ (mem_addressees.mpr ⟨hw, hm, hh, rfl⟩)) rfl
  | register req =>
    simp only [step]
    cases hp : s.pendingReceipts req.txHash with
    | some p =>
      by_cases hexp : p.expiresAt < now
      · rwa [onRegister_of_expired hp hexp]
      · rwa [onRegister_of_fresh hp hexp, trySend_waiters]
    | none =>
      simp only [onRegister_of_none hp]
      by_cases hh : h = req.txHash
      · subst hh
        rw [update_self]
        exact List.mem_append_left _ hw
      · rwa [update_of_ne hh]
  | cancel req =>
    simp only [step, onCancel]
    by_cases hh : h = req.txHash
    · subst hh
      rw [update_self]
      refine (List.mem_eraseP_of_neg ?_).mpr hw
      simpa using (hcancel req rfl rfl).symm
    · rwa [update_of_ne hh]
  | cleanup | take => exact hw

/-! ### The cache -/

def Timed.Arrives (e : Timed) (h : Hash) : Prop :=
  ∃ r, e.event = .receipt (some r) ∧ r.transactionHash = h

/-- A waiter registers for the hash, with either match type. -/
def Timed.Registers (e : Timed) (h : Hash) : Prop :=
  ∃ req, e.event = .register req ∧ req.txHash = h

/-- Receipts of the transaction, registrations for it and a late cleanup end an entry. -/
def Timed.Drops (e : Timed) (h : Hash) (expiresAt : ℕ) : Prop :=
  e.Arrives h ∨ e.Registers h ∨ e.event = .cleanup ∧ expiresAt < e.now

theorem pending_step :
    (s.step e).pendingReceipts h = some p ↔
      (∃ r, e.event = .receipt (some r) ∧ r.transactionHash = h ∧
        p = ⟨r, e.now + pendingReceiptTTL⟩) ∨
      s.pendingReceipts h = some p ∧ ¬ e.Drops h p.expiresAt := by
  obtain ⟨now, event⟩ := e
  cases event with
  | receipt r =>
    cases r with
    | none => simp [step, Timed.Drops, Timed.Arrives, Timed.Registers]
    | some r =>
      have hpend : (s.onReceipt now r).pendingReceipts =
          update s.pendingReceipts r.transactionHash (some ⟨r, now + pendingReceiptTTL⟩) := by
        simp only [onReceipt, deliver_eq, sendAll_pendingReceipts]
      simp only [step, hpend]
      by_cases hh : h = r.transactionHash
      · subst hh
        simp [Timed.Drops, Timed.Arrives, eq_comm]
      · simp [update_of_ne hh, Timed.Drops, Timed.Arrives, Timed.Registers, Ne.symm hh]
  | register req =>
    -- either way the entry of the hash is gone, and only that
    have hpend : (s.onRegister now req).pendingReceipts =
        update s.pendingReceipts req.txHash none := by
      cases hp : s.pendingReceipts req.txHash with
      | none =>
        rw [onRegister_of_none hp, ← hp]
        exact (update_eq_self ..).symm
      | some p =>
        by_cases hexp : p.expiresAt < now
        · rw [onRegister_of_expired hp hexp]
        · rw [onRegister_of_fresh hp hexp, trySend_pendingReceipts]
    simp only [step, hpend]
    by_cases hh : h = req.txHash
    · subst hh
      simp [Timed.Drops, Timed.Registers]
    · simp [update_of_ne hh, Timed.Drops, Timed.Arrives, Timed.Registers, Ne.symm hh]
  | cancel => simp [step, onCancel, Timed.Drops, Timed.Arrives, Timed.Registers]
  | cleanup =>
    simp [step, onCleanup, Timed.Drops, Timed.Arrives, Timed.Registers]
  | take => simp [step, Timed.Drops, Timed.Arrives, Timed.Registers]

theorem pending_none_step (hno : ¬ e.Arrives h) (hs : s.pendingReceipts h = none) :
    (s.step e).pendingReceipts h = none := by
  rw [Option.eq_none_iff_forall_ne_some]
  intro p hp
  obtain ⟨r, he, hh, -⟩ | ⟨hsome, -⟩ := pending_step.mp hp
  · exact hno ⟨r, he, hh⟩
  · rw [hs] at hsome
    cases hsome

/-- The cache holds the entry after these events: its receipt has arrived and no event has
ended the entry since. -/
def Held (events : List Timed) (h : Hash) (p : PendingReceipt) : Prop :=
  ∃ before now r after, events = before ++ ⟨now, .receipt (some r)⟩ :: after ∧
    r.transactionHash = h ∧ p = ⟨r, now + pendingReceiptTTL⟩ ∧
    ∀ e ∈ after, ¬ e.Drops h p.expiresAt

theorem pending_iff {events : List Timed} :
    (run events).pendingReceipts h = some p ↔ Held events h p := by
  induction events using List.reverseRecOn with
  | nil =>
    constructor
    · intro hp
      cases hp
    · rintro ⟨before, now, r, after, heq, -⟩
      simp at heq
  | append_singleton events e ih =>
    rw [run, Machine.run_concat, pending_step, ih]
    constructor
    · rintro (⟨r, he, hh, hp⟩ | ⟨⟨before, now, r, after, rfl, hh, hp, hafter⟩, hdrop⟩)
      · obtain ⟨now, event⟩ := e
        subst he
        exact ⟨events, now, r, [], rfl, hh, hp, List.forall_mem_nil _⟩
      · refine ⟨before, now, r, after ++ [e], by rw [List.append_assoc, List.cons_append], hh, hp,
          ?_⟩
        rw [List.forall_mem_append, List.forall_mem_singleton]
        exact ⟨hafter, hdrop⟩
    · rintro ⟨before, now, r, after, heq, hh, hp, hafter⟩
      obtain rfl | ⟨after, e', rfl⟩ := List.eq_nil_or_concat after
      · obtain ⟨-, he⟩ := List.append_inj' heq rfl
        rw [List.cons.injEq] at he
        rw [he.1]
        exact .inl ⟨r, rfl, hh, hp⟩
      · rw [List.concat_eq_append, ← List.cons_append, ← List.append_assoc] at heq
        obtain ⟨rfl, he⟩ := List.append_inj' heq rfl
        rw [List.cons.injEq] at he
        rw [List.concat_eq_append, List.forall_mem_append, List.forall_mem_singleton] at hafter
        rw [he.1]
        exact .inr ⟨⟨before, now, r, after, rfl, hh, hp, hafter.1⟩, hafter.2⟩

/-! ### Receipts match their waiters -/

theorem mem_attempts (hx : x ∈ attempts s e) :
    (∃ h, e.event = .receipt (some x.2) ∧ x.1 ∈ s.waiters h ∧
      (x.1.matchType = .matchByTxHash ∧ x.2.transactionHash = x.1.txHash ∨
        x.1.matchType = .matchByReceiptHash ∧ x.2.rHash = x.1.txHash)) ∨
      ∃ p, e.event = .register x.1 ∧ s.pendingReceipts x.1.txHash = some p ∧
        ¬ p.expiresAt < e.now ∧ x.2 = p.value := by
  obtain ⟨now, event⟩ := e
  cases event with
  | receipt r =>
    cases r with
    | none => cases hx
    | some =>
      obtain hx | hx := List.mem_append.mp hx
      · obtain ⟨hw, hm, hh, rfl⟩ := mem_addressees.mp hx
        exact .inl ⟨_, rfl, hw, .inl ⟨hm, hh.symm⟩⟩
      · obtain ⟨hw, hm, hh, rfl⟩ := mem_addressees.mp hx
        exact .inl ⟨_, rfl, hw, .inr ⟨hm, hh.symm⟩⟩
  | register req =>
    cases hp : s.pendingReceipts req.txHash with
    | none => simp [attempts, hp] at hx
    | some p =>
      by_cases hexp : p.expiresAt < now
      · simp [attempts, hp, hexp] at hx
      · rw [attempts_of_fresh hp hexp, List.mem_singleton] at hx
        subst hx
        exact .inr ⟨p, rfl, hp, hexp, rfl⟩
  | cancel | cleanup | take => cases hx

def Matches (x : ReceiptWaiter × Receipt) : Prop :=
  match x.1.matchType with
  | .matchByTxHash => x.2.transactionHash = x.1.txHash
  | .matchByReceiptHash => x.2.rHash = x.1.txHash

/-- Every receipt sent matches its waiter just if each waiter for a receipt hash that finds
its hash in the cache, as the hash of a transaction, finds a receipt with that receipt
hash too. -/
theorem matched_iff (events : List Timed) :
    (∀ x ∈ (run events).sent, Matches x) ↔
      ∀ before now req after p, events = before ++ ⟨now, .register req⟩ :: after →
        req.matchType = .matchByReceiptHash → Held before req.txHash p → now ≤ p.expiresAt →
        (run before).buffer req.ch = none → p.value.rHash = req.txHash := by
  constructor
  · intro hall before now req after p heq hm hheld hfresh hempty
    have hp := pending_iff.mpr hheld
    have hatt := attempts_of_fresh hp (Nat.not_lt.mpr hfresh)
    have hsent : (req, p.value) ∈ ((run before).step ⟨now, .register req⟩).sent := by
      rw [(step_sends _ _).1, hatt]
      exact mem_sent_trySend.mpr (.inr ⟨hempty, rfl⟩)
    have hmem : (req, p.value) ∈ (run events).sent := by
      rw [heq, run, Machine.run_append, Machine.run_cons]
      have hkeep : ∀ s e, (req, p.value) ∈ s.sent → True → (req, p.value) ∈ (step s e).sent :=
        fun s e h _ => sent_subset_step s e h
      exact Machine.run_keeps hkeep (fun _ _ => trivial) hsent
    have := hall _ hmem
    simpa only [Matches, hm] using this
  · intro hcache
    induction events using List.reverseRecOn with
    | nil => exact List.forall_mem_nil _
    | append_singleton events e ih =>
      have hold : ∀ x ∈ (run events).sent, Matches x := by
        refine ih fun before now req after p heq => hcache before now req (after ++ [e]) p ?_
        rw [heq, List.append_assoc, List.cons_append]
      intro x hx
      rw [run, Machine.run_concat] at hx
      have hsent := hx
      rw [(step_sends _ _).1] at hx
      obtain hx | hx := mem_of_mem_sendAll hx
      · exact hold x hx
      obtain ⟨_, -, -, ⟨hm, hh⟩ | ⟨hm, hh⟩⟩ | ⟨p, he, hp, hexp, hval⟩ := mem_attempts hx
      · simpa only [Matches, hm] using hh
      · simpa only [Matches, hm] using hh
      -- served from the cache, which is kept by transaction hash
      · obtain ⟨now, event⟩ := e
        obtain rfl : event = .register x.1 := he
        have hheld := pending_iff.mp hp
        cases hm : x.1.matchType with
        | matchByTxHash =>
          obtain ⟨_, _, r, _, -, hh, rfl, -⟩ := hheld
          simpa only [Matches, hm, hval] using hh
        | matchByReceiptHash =>
          rw [(step_sends _ _).1, attempts_of_fresh hp hexp, sendAll_cons] at hsent
          obtain hsent | ⟨hempty, -⟩ := mem_sent_trySend.mp hsent
          · exact hold x hsent
          · have := hcache events now x.1 [] p rfl hm hheld (Nat.not_lt.mp hexp) hempty
            simpa only [Matches, hm, hval] using this

/-- A receipt for the transaction `[1]`, without a receipt hash. -/
def exampleReceipt : Receipt := ⟨{ Pb.Receipt.new with transactionHash := [1] }⟩

/-- A waiter for the receipt hash `[1]` is sent the receipt of the transaction `[1]`. -/
theorem receiptHash_waiter_mismatch :
    ∃ x ∈ (run [⟨0, .receipt (some exampleReceipt)⟩,
      ⟨1, .register ⟨0, .matchByReceiptHash, bytesToHash [1]⟩⟩]).sent, ¬ Matches x := by
  refine ⟨(⟨0, .matchByReceiptHash, bytesToHash [1]⟩, exampleReceipt), by decide, ?_⟩
  have hne : ¬ exampleReceipt.rHash = bytesToHash [1] := by decide
  exact hne

end MetaNode.ReceiptRouter
