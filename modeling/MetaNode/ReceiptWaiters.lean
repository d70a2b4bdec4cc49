/-
Which waiters of the router are served.

A waiter for a transaction should be sent a receipt of the transaction if one arrives
after it has registered, or has arrived within the lifetime of a cache entry before.  What
happens depends on what the cache holds when the waiter registers: a fresh receipt serves
it (`served_of_held`), an expired one makes the router forget it (`not_served_of_leftOver`),
and without an entry it is served by the next receipt (`served_iff_of_pending_eq_none`).
-/
import MetaNode.ReceiptRouter

namespace MetaNode.ReceiptRouter

open Router

variable {s : Router} {w : ReceiptWaiter} {h : Hash} {ch : ℕ} {e : Timed}
variable {x : ReceiptWaiter × Receipt}

/-! ### Waiters in the table -/

/-- Nothing was or will be sent on the channel until someone registers with it. -/
structure Unused (ch : ℕ) (s : Router) : Prop where
  empty : s.buffer ch = none
  unlisted : ∀ h, ∀ w ∈ s.waiters h, w.ch ≠ ch
  silent : ∀ x ∈ s.sent, x.1.ch ≠ ch

/-- The waiter is in the table, with a channel of its own that nothing was sent on. -/
structure Waiting (w : ReceiptWaiter) (s : Router) : Prop where
  listed : w ∈ s.waiters w.txHash
  empty : s.buffer w.ch = none
  alone : ∀ h, ∀ w' ∈ s.waiters h, w'.ch = w.ch → w' = w
  silent : ∀ x ∈ s.sent, x.1.ch ≠ w.ch

/-- The event registers nobody with the channel. -/
def Timed.Spares (e : Timed) (ch : ℕ) : Prop := ∀ req, e.event = .register req → req.ch ≠ ch

def Timed.Leaves (e : Timed) (w : ReceiptWaiter) : Prop :=
  ∀ req, e.event = .cancel req → req.txHash = w.txHash → req.ch ≠ w.ch

theorem silent_step (hsilent : ∀ x ∈ s.sent, x.1.ch ≠ ch) (hne : ∀ x ∈ attempts s e, x.1.ch ≠ ch) :
    ∀ x ∈ (s.step e).sent, x.1.ch ≠ ch := by
  intro x hx
  rw [(step_sends _ _).1] at hx
  obtain hx | hx := mem_of_mem_sendAll hx
  · exact hsilent x hx
  · exact hne x hx

theorem Unused.step (hs : Unused ch s) (he : e.Spares ch) : Unused ch (s.step e) := by
  have hne : ∀ x ∈ attempts s e, x.1.ch ≠ ch := by
    intro x hx
    obtain ⟨h, -, hw, -⟩ | ⟨p, hreg, -⟩ := mem_attempts hx
    · exact hs.unlisted h _ hw
    · exact he _ hreg
  refine ⟨buffer_step_of_forall_ne hne hs.empty, ?_, silent_step hs.silent hne⟩
  intro h w hw
  obtain hw | ⟨hreg, -⟩ := mem_waiters_of_step hw
  · exact hs.unlisted h w hw
  · exact he w hreg

section Served

variable (htx : w.matchType = .matchByTxHash)

include htx

theorem Waiting.attempt (hs : Waiting w s) (he : e.Spares w.ch) (hx : x ∈ attempts s e)
    (hch : x.1.ch = w.ch) : x.1 = w ∧ x.2.transactionHash = w.txHash ∧ e.Arrives w.txHash := by
  obtain ⟨h, hreceipt, hw, hm⟩ | ⟨p, hreg, -⟩ := mem_attempts hx
  · obtain rfl := hs.alone h _ hw hch
    obtain ⟨-, hh⟩ | ⟨hm, -⟩ := hm
    · exact ⟨rfl, hh, _, hreceipt, hh⟩
    · rw [htx] at hm
      cases hm
  · exact absurd hch (he _ hreg)

theorem Waiting.step (hs : Waiting w s) (he : e.Spares w.ch) (hl : e.Leaves w)
    (hno : ¬ e.Arrives w.txHash) : Waiting w (s.step e) := by
  have hne : ∀ x ∈ attempts s e, x.1.ch ≠ w.ch := fun x hx hch =>
    hno (hs.attempt htx he hx hch).2.2
  refine ⟨?_, buffer_step_of_forall_ne hne hs.empty, ?_, silent_step hs.silent hne⟩
  · exact mem_waiters_step hs.listed (fun x hx heq => hne x hx (by rw [heq])) hl
  · intro h w' hw' hch
    obtain hw' | ⟨hreg, -⟩ := mem_waiters_of_step hw'
    · exact hs.alone h w' hw' hch
    · exact absurd hch (he w' hreg)

theorem Waiting.served (hs : Waiting w s) (he : e.Spares w.ch) (ha : e.Arrives w.txHash) :
    ∃ r, (w, r) ∈ (s.step e).sent ∧ r.transactionHash = w.txHash := by
  obtain ⟨r, hreceipt, hh⟩ := ha
  have hatt : (w, r) ∈ attempts s e := by
    obtain ⟨now, event⟩ := e
    subst hreceipt
    refine List.mem_append_left _ (mem_addressees.mpr ⟨?_, htx, hh.symm, rfl⟩)
    rw [hh]
    exact hs.listed
  obtain ⟨⟨w', r'⟩, hy, hch, hsent⟩ := exists_mem_sendAll hatt hs.empty
  obtain ⟨rfl, hr', -⟩ := hs.attempt htx he hy hch
  rw [← (step_sends _ _).1] at hsent
  exact ⟨r', hsent, hr'⟩

end Served

def channels (events : List Timed) : List ℕ :=
  events.filterMap fun e =>
    match e.event with
    | .register req => some req.ch
    | _ => none

variable {events : List Timed}

theorem spares_of_notMem (hch : ch ∉ channels events) : ∀ e ∈ events, e.Spares ch := by
  rintro e he req hreq rfl
  exact hch (List.mem_filterMap.mpr ⟨e, he, by rw [hreq]⟩)

/-! ### The cache at a registration -/

section Cached

variable {before : List Timed} {now : ℕ}

/-- The cache still holds a receipt of the transaction that has expired. -/
def LeftOver (before : List Timed) (now : ℕ) (h : Hash) : Prop :=
  ∃ p, Held before h p ∧ p.expiresAt < now

/-- The last receipt of the transaction is recent, but someone has registered since. -/
def HandedOut (before : List Timed) (now : ℕ) (h : Hash) : Prop :=
  ∃ earlier e since, before = earlier ++ e :: since ∧ e.Arrives h ∧
    now ≤ e.now + pendingReceiptTTL ∧ (∀ e' ∈ since, ¬ e'.Arrives h) ∧ ∃ e' ∈ since, e'.Registers h

/-- A receipt of the transaction has arrived within the lifetime of a cache entry. -/
def Recent (before : List Timed) (now : ℕ) (h : Hash) : Prop :=
  ∃ e ∈ before, e.Arrives h ∧ now ≤ e.now + pendingReceiptTTL

theorem pending_none_of_registers (hreg : e.Registers h) : (s.step e).pendingReceipts h = none := by
  rw [Option.eq_none_iff_forall_ne_some]
  intro p hp
  obtain ⟨r, he, -⟩ | ⟨-, hdrop⟩ := pending_step.mp hp
  · obtain ⟨req, hreq, -⟩ := hreg
    rw [he] at hreq
    cases hreq
  · exact hdrop (.inr (.inl hreg))

theorem HandedOut.pending_eq_none (hout : HandedOut before now h) :
    (run before).pendingReceipts h = none := by
  obtain ⟨earlier, e, since, rfl, -, -, hno, e', he', hreg⟩ := hout
  obtain ⟨since, after, rfl⟩ := List.append_of_mem he'
  rw [run, Machine.run_append, Machine.run_cons, Machine.run_append, Machine.run_cons]
  rw [List.forall_mem_append, List.forall_mem_cons] at hno
  have hkeep : ∀ s e, s.pendingReceipts h = none → ¬ e.Arrives h →
      (step s e).pendingReceipts h = none := fun s e hs he => pending_none_step he hs
  exact Machine.run_keeps hkeep hno.2.2 (pending_none_of_registers hreg)

theorem HandedOut.recent (hout : HandedOut before now h) : Recent before now h := by
  obtain ⟨earlier, e, since, rfl, harr, hnow, -⟩ := hout
  exact ⟨e, by simp, harr, hnow⟩

theorem Recent.held_or_handedOut (htime : before.Pairwise fun e e' => e.now ≤ e'.now)
    (hnow : ∀ e ∈ before, e.now ≤ now) (hrecent : Recent before now h) :
    (∃ p, Held before h p ∧ now ≤ p.expiresAt) ∨ HandedOut before now h := by
  obtain ⟨e₀, he₀, harr₀, hnow₀⟩ := hrecent
  obtain ⟨earlier, e, since, rfl, harr, hno⟩ :=
    Machine.exists_last (Q := (·.Arrives h)) ⟨e₀, he₀, harr₀⟩
  have hle : e₀.now ≤ e.now := by
    rw [List.pairwise_append, List.pairwise_cons] at htime
    rw [List.mem_append, List.mem_cons] at he₀
    obtain he₀ | rfl | he₀ := he₀
    · exact htime.2.2 e₀ he₀ e List.mem_cons_self
    · exact Nat.le_refl _
    · exact absurd harr₀ (hno e₀ he₀)
  have hfresh : now ≤ e.now + pendingReceiptTTL := by omega
  by_cases hreg : ∃ e' ∈ since, e'.Registers h
  · exact .inr ⟨earlier, e, since, rfl, harr, hfresh, hno, hreg⟩
  · obtain ⟨t, event⟩ := e
    obtain ⟨r, he, hh⟩ := harr
    obtain rfl : event = .receipt (some r) := he
    refine .inl ⟨⟨r, t + pendingReceiptTTL⟩, ⟨earlier, t, r, since, rfl, hh, rfl, ?_⟩, hfresh⟩
    rintro e' he' (harr' | hreg' | ⟨-, hexp⟩)
    · exact hno e' he' harr'
    · exact hreg ⟨e', he', hreg'⟩
    · have : e'.now ≤ now := hnow e' (by simp [he'])
      exact absurd hfresh (Nat.not_le.mpr (Nat.lt_of_lt_of_le hexp this))

end Cached

/-! ### Waiters that are served -/

section Registered

variable {before after : List Timed} {now : ℕ}

theorem unused_run (hch : ch ∉ channels events) (hs : Unused ch s) :
    Unused ch (Machine.run step s events) :=
  Machine.run_keeps (fun _ _ h he => h.step he) (spares_of_notMem hch) hs

theorem unused_new (ch : ℕ) : Unused ch Router.new :=
  ⟨rfl, fun _ => List.forall_mem_nil _, List.forall_mem_nil _⟩

theorem served_of_held (after : List Timed) {p : PendingReceipt}
    (hunused : Unused w.ch (run before)) (hheld : Held before w.txHash p)
    (hfresh : now ≤ p.expiresAt) :
    ∃ r, (w, r) ∈ (run (before ++ ⟨now, .register w⟩ :: after)).sent ∧
      r.transactionHash = w.txHash := by
  have hsent : (w, p.value) ∈ ((run before).step ⟨now, .register w⟩).sent := by
    rw [(step_sends _ _).1,
      attempts_of_fresh (pending_iff.mpr hheld) (Nat.not_lt.mpr hfresh), sendAll_cons]
    exact mem_sent_trySend.mpr (.inr ⟨hunused.empty, rfl⟩)
  have hkeep : ∀ s e, (w, p.value) ∈ s.sent → True → (w, p.value) ∈ (step s e).sent :=
    fun s e h _ => sent_subset_step s e h
  have hhash : p.value.transactionHash = w.txHash := by
    obtain ⟨_, _, r, _, -, hh, rfl, -⟩ := hheld
    exact hh
  refine ⟨p.value, ?_, hhash⟩
  rw [run, Machine.run_append, Machine.run_cons]
  exact Machine.run_keeps hkeep (fun _ _ => trivial) hsent

theorem not_served_of_leftOver (hunused : Unused w.ch (run before)) (hch : w.ch ∉ channels after)
    (hleft : LeftOver before now w.txHash) :
    ¬ ∃ r, (w, r) ∈ (run (before ++ ⟨now, .register w⟩ :: after)).sent ∧
      r.transactionHash = w.txHash := by
  obtain ⟨p, hheld, hexp⟩ := hleft
  have hstep : Unused w.ch ((run before).step ⟨now, .register w⟩) := by
    have heq : (run before).step ⟨now, .register w⟩ = (run before).onRegister now w := rfl
    rw [heq, onRegister_of_expired (pending_iff.mpr hheld) hexp]
    exact ⟨hunused.empty, hunused.unlisted, hunused.silent⟩
  rintro ⟨r, hsent, -⟩
  rw [run, Machine.run_append, Machine.run_cons] at hsent
  exact (unused_run hch hstep).silent _ hsent rfl

theorem served_iff_of_pending_eq_none (htx : w.matchType = .matchByTxHash)
    (hunused : Unused w.ch (run before)) (hch : w.ch ∉ channels after)
    (hcancel : ∀ e ∈ after, e.Leaves w) (hnone : (run before).pendingReceipts w.txHash = none) :
    (∃ r, (w, r) ∈ (run (before ++ ⟨now, .register w⟩ :: after)).sent ∧
      r.transactionHash = w.txHash) ↔ ∃ e ∈ after, e.Arrives w.txHash := by
  have hwaiting : Waiting w ((run before).step ⟨now, .register w⟩) := by
    have heq : (run before).step ⟨now, .register w⟩ = (run before).onRegister now w := rfl
    rw [heq, onRegister_of_none hnone]
    refine ⟨by simp, hunused.empty, ?_, hunused.silent⟩
    intro h w' hw' hw'ch
    by_cases hh : h = w.txHash
    · subst hh
      simp only [Function.update_self, List.mem_append, List.mem_singleton] at hw'
      obtain hw' | rfl := hw'
      · exact absurd hw'ch (hunused.unlisted _ w' hw')
      · rfl
    · simp only [Function.update_of_ne hh] at hw'
      exact absurd hw'ch (hunused.unlisted h w' hw')
  have hok : ∀ e ∈ after, e.Spares w.ch ∧ e.Leaves w := fun e he =>
    ⟨spares_of_notMem hch e he, hcancel e he⟩
  rw [run, Machine.run_append, Machine.run_cons]
  constructor
  · rintro ⟨r, hsent, -⟩
    by_contra hno
    have hok' : ∀ e ∈ after, (e.Spares w.ch ∧ e.Leaves w) ∧ ¬ e.Arrives w.txHash := fun e he =>
      ⟨hok e he, fun harr => hno ⟨e, he, harr⟩⟩
    have hkeep : ∀ s e, Waiting w s → (e.Spares w.ch ∧ e.Leaves w) ∧ ¬ e.Arrives w.txHash →
        Waiting w (step s e) := fun s e hs he => hs.step htx he.1.1 he.1.2 he.2
    exact (Machine.run_keeps hkeep hok' hwaiting).silent _ hsent rfl
  · intro harr
    have hkeep : ∀ s e, Waiting w s → e.Spares w.ch ∧ e.Leaves w → ¬ e.Arrives w.txHash →
        Waiting w (step s e) := fun s e hs he hno => hs.step htx he.1 he.2 hno
    have hrespond : ∀ s e, Waiting w s → e.Spares w.ch ∧ e.Leaves w → e.Arrives w.txHash →
        ∃ r, (w, r) ∈ (step s e).sent ∧ r.transactionHash = w.txHash :=
      fun s e hs he harr => hs.served htx he.1 harr
    have hstable : ∀ s e, (∃ r, (w, r) ∈ s.sent ∧ r.transactionHash = w.txHash) →
        ∃ r, (w, r) ∈ (step s e).sent ∧ r.transactionHash = w.txHash := by
      rintro s e ⟨r, hr, hh⟩
      exact ⟨r, sent_subset_step s e hr, hh⟩
    exact Machine.run_responds (R := fun s => ∃ r, (w, r) ∈ s.sent ∧ r.transactionHash = w.txHash)
      hkeep hrespond hstable hok hwaiting harr

end Registered

/-- A waiter for a transaction that does not cancel is sent a receipt of the transaction
if one arrives later or has arrived recently, with two exceptions.  If the cache holds an
expired receipt when it registers, then it is not entered in the table and a later receipt
does not reach it.  If the recent receipt was handed out to another waiter, then it takes a
later one to serve it. -/
theorem served_iff {before after : List Timed} {now : ℕ} {w : ReceiptWaiter}
    (hevents : events = before ++ ⟨now, .register w⟩ :: after)
    (htx : w.matchType = .matchByTxHash) (htime : events.Pairwise fun e e' => e.now ≤ e'.now)
    (hfresh : (channels events).Nodup) (hcancel : ∀ e ∈ after, e.Leaves w) :
    ((∃ e ∈ after, e.Arrives w.txHash) ∨ Recent before now w.txHash →
        ∃ r, (w, r) ∈ (run events).sent ∧ r.transactionHash = w.txHash) ↔
      ¬ (LeftOver before now w.txHash ∧ ∃ e ∈ after, e.Arrives w.txHash) ∧
      ¬ (HandedOut before now w.txHash ∧ ¬ ∃ e ∈ after, e.Arrives w.txHash) := by
  subst hevents
  have hchannels : channels (before ++ ⟨now, .register w⟩ :: after) =
      channels before ++ w.ch :: channels after := by
    rw [channels, List.filterMap_append]
    rfl
  rw [hchannels, List.nodup_append, List.nodup_cons] at hfresh
  have hbefore : w.ch ∉ channels before := fun hmem =>
    hfresh.2.2 _ hmem _ List.mem_cons_self rfl
  have hunused : Unused w.ch (run before) := unused_run hbefore (unused_new _)
  rw [List.pairwise_append] at htime
  have hnow : ∀ e ∈ before, e.now ≤ now := fun e he => htime.2.2 e he _ List.mem_cons_self
  -- the cache at the registration decides which of the three ways is taken
  cases hp : (run before).pendingReceipts w.txHash with
  | none =>
    have hnone : ∀ p, ¬ Held before w.txHash p := by
      intro p hheld
      rw [pending_iff.mpr hheld] at hp
      cases hp
    have hnoLeft : ¬ LeftOver before now w.txHash := fun ⟨p, hheld, _⟩ => hnone p hheld
    have hrecent : Recent before now w.txHash ↔ HandedOut before now w.txHash := by
      refine ⟨fun h => (h.held_or_handedOut htime.1 hnow).resolve_left ?_, HandedOut.recent⟩
      exact fun ⟨p, hheld, _⟩ => hnone p hheld
    rw [served_iff_of_pending_eq_none htx hunused hfresh.2.1.1 hcancel hp, hrecent]
    constructor
    · intro hserved
      exact ⟨fun h => hnoLeft h.1, fun h => h.2 (hserved (.inr h.1))⟩
    · rintro ⟨-, hout⟩ (hlater | hhanded)
      · exact hlater
      · by_contra hno
        exact hout ⟨hhanded, hno⟩
  | some p =>
    have hheld := pending_iff.mp hp
    have hsame : ∀ p', Held before w.txHash p' → p' = p := by
      intro p' hheld'
      exact Option.some.inj ((pending_iff.mpr hheld').symm.trans hp)
    have hnoOut : ¬ HandedOut before now w.txHash := by
      intro hout
      rw [hout.pending_eq_none] at hp
      cases hp
    by_cases hexp : p.expiresAt < now
    · have hleft : LeftOver before now w.txHash := ⟨p, hheld, hexp⟩
      have hnoRecent : ¬ Recent before now w.txHash := by
        intro hrecent
        obtain ⟨p', hheld', hfresh'⟩ :=
          (hrecent.held_or_handedOut htime.1 hnow).resolve_right hnoOut
        rw [hsame p' hheld'] at hfresh'
        omega
      have hnot := not_served_of_leftOver hunused hfresh.2.1.1 hleft
      constructor
      · intro hserved
        exact ⟨fun h => hnot (hserved (.inl h.2)), fun h => hnoOut h.1⟩
      · rintro ⟨hno, -⟩ (hlater | hrecent)
        · exact absurd ⟨hleft, hlater⟩ hno
        · exact absurd hrecent hnoRecent
    · have hserved := served_of_held after hunused hheld (Nat.not_lt.mp hexp)
      have hnoLeft : ¬ LeftOver before now w.txHash := by
        rintro ⟨p', hheld', hexp'⟩
        rw [hsame p' hheld'] at hexp'
        exact hexp hexp'
      exact ⟨fun _ => ⟨fun h => hnoLeft h.1, fun h => hnoOut h.1⟩, fun _ _ => hserved⟩

section Examples

/-- A waiter for the transaction `[1]`. -/
def exampleWaiter : ReceiptWaiter := ⟨0, .matchByTxHash, bytesToHash [1]⟩

/-- A waiter that finds an expired receipt, and is not sent the receipt that comes next. -/
def leftOverRun : List Timed :=
  [⟨0, .receipt (some exampleReceipt)⟩, ⟨pendingReceiptTTL + 1, .register exampleWaiter⟩,
    ⟨pendingReceiptTTL + 2, .receipt (some exampleReceipt)⟩]

def handedOutRun : List Timed :=
  [⟨0, .receipt (some exampleReceipt)⟩, ⟨1, .register ⟨1, .matchByTxHash, bytesToHash [1]⟩⟩,
    ⟨2, .register exampleWaiter⟩]

/-- Neither waiter cancels, both have channels of their own and a receipt of their
transaction arrives after or shortly before they register, but they are sent nothing. -/
theorem waiters_missed :
    (leftOverRun.Pairwise fun e e' => e.now ≤ e'.now) ∧ (channels leftOverRun).Nodup ∧
      (∀ r, (exampleWaiter, r) ∉ (run leftOverRun).sent) ∧
    (handedOutRun.Pairwise fun e e' => e.now ≤ e'.now) ∧ (channels handedOutRun).Nodup ∧
      2 ≤ 0 + pendingReceiptTTL ∧ (∀ r, (exampleWaiter, r) ∉ (run handedOutRun).sent) := by
  have hleft : (run leftOverRun).sent = [] := by decide
  have hout : (run handedOutRun).sent.map (·.1.ch) = [1] := by decide
  refine ⟨by decide, by decide, ?_, by decide, by decide, by decide, ?_⟩
  · intro r hr
    rw [hleft] at hr
    cases hr
  · intro r hr
    have hch : exampleWaiter.ch ∈ (run handedOutRun).sent.map (·.1.ch) := List.mem_map_of_mem hr
    rw [hout] at hch
    exact absurd hch (by decide)

theorem served_iff_example :
    ∃ r, (exampleWaiter, r) ∈
      (run [⟨0, .register exampleWaiter⟩, ⟨1, .receipt (some exampleReceipt)⟩]).sent ∧
        r.transactionHash = bytesToHash [1] := by
  have hlater : ∃ e ∈ [Timed.mk 1 (.receipt (some exampleReceipt))], e.Arrives (bytesToHash [1]) :=
    ⟨_, List.mem_singleton_self _, exampleReceipt, rfl, rfl⟩
  have hleaves : ∀ e ∈ [Timed.mk 1 (.receipt (some exampleReceipt))], e.Leaves exampleWaiter := by
    rw [List.forall_mem_singleton]
    intro req hreq
    cases hreq
  have hevents : [Timed.mk 0 (.register exampleWaiter), ⟨1, .receipt (some exampleReceipt)⟩] =
      [] ++ ⟨0, .register exampleWaiter⟩ :: [⟨1, .receipt (some exampleReceipt)⟩] := rfl
  have hcond := (served_iff hevents rfl (by decide) (by decide) hleaves).mpr
  refine hcond ⟨?_, fun h => h.2 hlater⟩ (.inl hlater)
  rintro ⟨⟨p, ⟨before, now, r, after, heq, -⟩, -⟩, -⟩
  simp at heq

end Examples

end MetaNode.ReceiptRouter
