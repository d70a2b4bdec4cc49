/-
Waiting for a receipt or an error (`waitReceipt`, `client.go`; `handleTransactionError`,
`handler.go`).

Any number of calls wait, each for the receipt of its own transaction.  An error that the
node reports for a transaction comes through `transactionErrorChan`, which all the calls
read: a call that takes an error for another transaction drops it and waits on.  The calls,
the router, the handlers of the connection and the clock take turns in any order (`Step`).
-/
import MetaNode.Blocking
import MetaNode.ReceiptRouter
import MetaNode.Trace

namespace MetaNode.WaitReceipt

open Function ReceiptRouter

/-! ### The model -/

/-- The arguments of a call of `waitReceipt`; its timeout is positive. -/
structure Call where
  txHash : Hash
  matchType : MatchType

structure TransactionHashWithError where
  hash : Bytes
  description : Bytes
  output : Bytes

/-- What a call returns; errors of the node are numbered in the order they are received. -/
inductive Outcome where
  | receipt (r : Receipt)
  | transactionError (k : ℕ)
  | timeout
  deriving DecidableEq

inductive Phase where
  | idle
  /-- In the `select` of its loop. -/
  | waiting
  /-- It has an error for its transaction and sends the cancel request. -/
  | cancelError (k : ℕ)
  /-- Its timer has fired and it sends the cancel request. -/
  | cancelTimeout
  /-- After the cancel request, it looks at its channel once more. -/
  | checking
  | returned (r : Outcome)
  deriving DecidableEq

/-- The client.  Call `w` makes the response channel number `w`. -/
structure State where
  router : Router
  clock : ℕ
  phase : ℕ → Phase
  /-- The errors whose handlers wait to send on the channel. -/
  handling : List ℕ
  transactionErrorChan : Option ℕ
  /-- The errors that were handled. -/
  handled : List ℕ

def State.init : State := ⟨Router.new, 0, fun _ => .idle, [], none, []⟩

inductive Label where
  | register (w : ℕ)
  | receipt (r : Option Receipt)
  | cleanup
  | handle (k : ℕ)
  | push (k : ℕ)
  | receive (w : ℕ)
  | takeError (w k : ℕ)
  | timeout (w : ℕ)
  | cancel (w : ℕ)
  | check (w : ℕ)
  deriving DecidableEq

variable (calls : ℕ → Call) (error : ℕ → TransactionHashWithError)

/-- The request that a call sends to the router. -/
def request (w : ℕ) : ReceiptWaiter := ⟨w, (calls w).matchType, (calls w).txHash⟩

def errHash (k : ℕ) : Hash := bytesToHash (error k).hash

/-- One step of a call, of the router, of a handler, or of the network. -/
inductive Step : State → Label → State → Prop where
  | register {s} (w now : ℕ) (h : s.phase w = .idle) (hnow : s.clock ≤ now) :
      Step s (.register w) { s with
        clock := now
        router := s.router.step ⟨now, .register (request calls w)⟩
        phase := update s.phase w .waiting }
  | receipt {s} (r : Option Receipt) (now : ℕ) (hnow : s.clock ≤ now) :
      Step s (.receipt r) { s with clock := now, router := s.router.step ⟨now, .receipt r⟩ }
  | cleanup {s} (now : ℕ) (hnow : s.clock ≤ now) :
      Step s .cleanup { s with clock := now, router := s.router.step ⟨now, .cleanup⟩ }
  /-- A handler finds no pending request for the error and turns to the channel. -/
  | handle {s} (k : ℕ) (h : k ∉ s.handled) :
      Step s (.handle k) { s with handling := k :: s.handling, handled := k :: s.handled }
  | push {s} (k : ℕ) (h : k ∈ s.handling) (hroom : s.transactionErrorChan = none) :
      Step s (.push k) { s with
        handling := s.handling.erase k
        transactionErrorChan := some k }
  | receive {s} (w : ℕ) (r : Receipt) (h : s.phase w = .waiting) (hr : s.router.buffer w = some r) :
      Step s (.receive w) { s with
        router := s.router.step ⟨s.clock, .take w⟩
        phase := update s.phase w (.returned (.receipt r)) }
  | takeOwn {s} (w k : ℕ) (h : s.phase w = .waiting) (hk : s.transactionErrorChan = some k)
      (hash : errHash error k = (calls w).txHash) :
      Step s (.takeError w k) { s with
        transactionErrorChan := none
        phase := update s.phase w (.cancelError k) }
  /-- The error is for another transaction: `continue`. -/
  | takeOther {s} (w k : ℕ) (h : s.phase w = .waiting) (hk : s.transactionErrorChan = some k)
      (hash : errHash error k ≠ (calls w).txHash) :
      Step s (.takeError w k) { s with transactionErrorChan := none }
  | timeout {s} (w : ℕ) (h : s.phase w = .waiting) :
      Step s (.timeout w) { s with phase := update s.phase w .cancelTimeout }
  | cancelError {s} (w k now : ℕ) (h : s.phase w = .cancelError k) (hnow : s.clock ≤ now) :
      Step s (.cancel w) { s with
        clock := now
        router := s.router.step ⟨now, .cancel (request calls w)⟩
        phase := update s.phase w (.returned (.transactionError k)) }
  | cancelTimeout {s} (w now : ℕ) (h : s.phase w = .cancelTimeout) (hnow : s.clock ≤ now) :
      Step s (.cancel w) { s with
        clock := now
        router := s.router.step ⟨now, .cancel (request calls w)⟩
        phase := update s.phase w .checking }
  | checkReceipt {s} (w : ℕ) (r : Receipt) (h : s.phase w = .checking)
      (hr : s.router.buffer w = some r) :
      Step s (.check w) { s with
        router := s.router.step ⟨s.clock, .take w⟩
        phase := update s.phase w (.returned (.receipt r)) }
  | checkEmpty {s} (w : ℕ) (h : s.phase w = .checking) (hr : s.router.buffer w = none) :
      Step s (.check w) { s with phase := update s.phase w (.returned .timeout) }

abbrev Run := Trace.Run (Step calls error) State.init

def Label.Own : Label → Prop
  | .push _ | .receive _ | .takeError _ _ | .cancel _ | .check _ => True
  | _ => False

def Quiescent (s : State) : Prop := ∀ l s', Step calls error s l s' → ¬ l.Own

variable {calls error} {s s' : State} {l : Label} {t : List (State × Label)} {w k : ℕ}

/-! ### The steps of one call -/

/-- What a step does to a call: it stays where it is, or moves on along its code. -/
inductive Move (calls : ℕ → Call) (error : ℕ → TransactionHashWithError) (s : State) (w : ℕ) :
    Label → Phase → Prop where
  | stay {l : Label} (htake : ∀ k, l = .takeError w k → errHash error k ≠ (calls w).txHash)
      (htimeout : l ≠ .timeout w) : Move calls error s w l (s.phase w)
  | register (h : s.phase w = .idle) : Move calls error s w (.register w) .waiting
  | receipt {l : Label} {r} (hr : s.router.buffer w = some r) (htake : ∀ k, l ≠ .takeError w k)
      (hactive : s.phase w ≠ .idle) : Move calls error s w l (.returned (.receipt r))
  | takeOwn {k : ℕ} (h : s.phase w = .waiting) (hash : errHash error k = (calls w).txHash) :
      Move calls error s w (.takeError w k) (.cancelError k)
  | timeout (h : s.phase w = .waiting) : Move calls error s w (.timeout w) .cancelTimeout
  | cancelError {k : ℕ} (h : s.phase w = .cancelError k) :
      Move calls error s w (.cancel w) (.returned (.transactionError k))
  | cancelTimeout (h : s.phase w = .cancelTimeout) : Move calls error s w (.cancel w) .checking
  | checkEmpty (h : s.phase w = .checking) : Move calls error s w (.check w) (.returned .timeout)

theorem Move.update {v : ℕ} {p : Phase} (hself : Move calls error s v l p)
    (htake : ∀ k, w ≠ v → l ≠ .takeError w k) (htimeout : w ≠ v → l ≠ .timeout w) :
    Move calls error s w l (update s.phase v p w) := by
  by_cases hv : w = v
  · subst hv
    rwa [update_self]
  · rw [update_of_ne hv]
    exact .stay (fun k h => absurd h (htake k hv)) (htimeout hv)

theorem move_of_step (hstep : Step calls error s l s') (w : ℕ) :
    Move calls error s w l (s'.phase w) := by
  cases hstep with
  | register v now h => exact .update (.register h) (by simp) (by simp)
  | receipt | cleanup | handle | push => exact .stay (by simp) (by simp)
  | receive v r h hr | checkReceipt v r h hr =>
    exact .update (.receipt hr (by simp) (by simp [h])) (by simp) (by simp)
  | takeOwn v k h hk hash => exact .update (.takeOwn h hash) (by simp [eq_comm]) (by simp)
  | takeOther v k h hk hash =>
    refine .stay (fun k' h => ?_) (by simp)
    cases h
    exact hash
  | timeout v h => exact .update (.timeout h) (by simp) (by simp [eq_comm])
  | cancelError v k now h => exact .update (.cancelError h) (by simp) (by simp)
  | cancelTimeout v now h => exact .update (.cancelTimeout h) (by simp) (by simp)
  | checkEmpty v h => exact .update (.checkEmpty h) (by simp) (by simp)

theorem idle_step (hstep : Step calls error s l s') (hidle : s.phase w = .idle)
    (hl : l ≠ .register w) : s'.phase w = .idle := by
  have hmove := move_of_step hstep w
  generalize s'.phase w = p at hmove
  cases hmove with
  | stay => exact hidle
  | register => exact absurd rfl hl
  | receipt _ _ hactive => exact absurd hidle hactive
  | takeOwn h | timeout h | cancelError h | cancelTimeout h | checkEmpty h =>
    rw [hidle] at h
    cases h

/-! ### The client comes to rest -/

def Phase.work : Phase → ℕ
  | .waiting | .cancelTimeout => 2
  | .cancelError _ | .checking => 1
  | .idle | .returned _ => 0

/-- A bound on the steps that the client takes by itself, with the calls in `active`. -/
def work (active : Finset ℕ) (s : State) : ℕ :=
  2 * s.handling.length + s.transactionErrorChan.toList.length + ∑ w ∈ active, (s.phase w).work

theorem own_decreases {active : Finset ℕ} (hactive : ∀ w ∉ active, s.phase w = .idle)
    (hstep : Step calls error s l s') (hown : l.Own) : work active s' < work active s := by
  -- a call that moves on is active
  have hmove : ∀ {s' : State} (w : ℕ) (p : Phase), s'.phase = update s.phase w p →
      p.work < (s.phase w).work → s'.handling = s.handling →
      s'.transactionErrorChan.toList.length ≤ s.transactionErrorChan.toList.length →
      work active s' < work active s := by
    intro s' w p hphase hp hhandling hchan
    have hw : w ∈ active := by
      by_contra hw
      rw [hactive w hw] at hp
      exact Nat.not_lt_zero _ hp
    have hsum := Blocking.sum_update s.phase hw p Phase.work
    simp only [work, hphase, hhandling]
    omega
  cases hstep with
  | register | receipt | cleanup | handle | timeout => exact hown.elim
  | push k h hroom =>
    have hlen := List.length_erase_of_mem h
    have hpos := List.length_pos_of_mem h
    simp only [work, hlen, hroom, Option.toList_some, Option.toList_none, List.length_singleton,
      List.length_nil]
    omega
  | takeOther w k h hk hash => simp [work, hk]
  | receive w _ h | checkReceipt w _ h | takeOwn w _ h | cancelError w _ _ h | cancelTimeout w _ h
  | checkEmpty w h => exact hmove w _ rfl (by simp [h, Phase.work]) rfl (by simp)

theorem exists_active (hrun : Run calls error t s) :
    ∃ active : Finset ℕ, ∀ w ∉ active, s.phase w = .idle := by
  induction hrun with
  | nil => exact ⟨∅, fun _ _ => rfl⟩
  | @snoc t s l s' _ hstep ih =>
    obtain ⟨active, hactive⟩ := ih
    by_cases hl : ∃ v, l = .register v
    · obtain ⟨v, rfl⟩ := hl
      refine ⟨insert v active, fun w hw => ?_⟩
      rw [Finset.mem_insert, not_or] at hw
      refine idle_step hstep (hactive w hw.2) fun h => ?_
      rw [Label.register.injEq] at h
      exact hw.1 h.symm
    · exact ⟨active, fun w hw => idle_step hstep (hactive w hw) fun h => hl ⟨w, h⟩⟩

/-- **The client comes to rest**: from every state that it reaches, each sequence of its own
steps ends, whatever order they are taken in. -/
theorem own_steps_end (hrun : Run calls error t s) :
    Acc (fun s' s => ∃ l, Step calls error s l s' ∧ l.Own) s := by
  obtain ⟨active, hactive⟩ := exists_active hrun
  refine Blocking.acc_of_rank (I := fun s => ∀ w ∉ active, s.phase w = .idle)
    (work active) ?_ hactive
  rintro s s' hidle ⟨l, hstep, hown⟩
  refine ⟨fun w hw => idle_step hstep (hidle w hw) ?_, own_decreases hidle hstep hown⟩
  rintro rfl
  exact hown

/-! ### Every error is somewhere -/

/-- The errors taken from the channel, each with the call that took it. -/
def taken (t : List (State × Label)) : List (ℕ × ℕ) :=
  t.filterMap fun p =>
    match p.2 with
    | .takeError w k => some (w, k)
    | _ => none

theorem taken_snoc (t : List (State × Label)) (s : State) (l : Label) :
    taken (t ++ [(s, l)]) = taken t ++ taken [(s, l)] := List.filterMap_append

theorem mem_taken : (w, k) ∈ taken t ↔ ∃ p ∈ t, p.2 = .takeError w k := by
  rw [taken, List.mem_filterMap]
  refine exists_congr fun p => and_congr_right fun _ => ?_
  cases p.2 <;> simp

section

variable (hrun : Run calls error t s)

include hrun

/-- An error that was handled is with its handler, in the channel, or was taken, and only
once. -/
theorem handled_perm :
    s.handled.Nodup ∧
      s.handled.Perm (s.handling ++ (s.transactionErrorChan.toList ++ (taken t).map Prod.snd)) := by
  induction hrun with
  | nil => exact ⟨List.nodup_nil, List.Perm.refl _⟩
  | @snoc t s l s' _ hstep ih =>
    obtain ⟨hnd, hperm⟩ := ih
    rw [taken_snoc]
    cases hstep with
    | handle k h =>
      have hnone : taken [(s, .handle k)] = [] := rfl
      rw [hnone, List.append_nil]
      exact ⟨List.nodup_cons.mpr ⟨h, hnd⟩, hperm.cons k⟩
    | push k h hroom =>
      have hnone : taken [(s, .push k)] = [] := rfl
      rw [hnone, List.append_nil]
      refine ⟨hnd, hperm.trans ?_⟩
      rw [hroom]
      have herase := (List.perm_cons_erase h).append_right ((taken t).map Prod.snd)
      exact herase.trans List.perm_middle.symm
    | takeOwn w k h hk hash | takeOther w k h hk hash =>
      refine ⟨hnd, hperm.trans ?_⟩
      rw [hk, List.map_append]
      have hcomm : ([k] ++ (taken t).map Prod.snd).Perm ((taken t).map Prod.snd ++ [k]) :=
        List.perm_append_comm
      exact hcomm.append_left _
    | register | receipt | cleanup | receive | timeout | cancelError | cancelTimeout |
        checkReceipt | checkEmpty =>
      refine ⟨hnd, ?_⟩
      simpa [taken] using hperm

theorem taken_unique {w' : ℕ} (h : (w, k) ∈ taken t) (h' : (w', k) ∈ taken t) : w = w' := by
  obtain ⟨hnd, hperm⟩ := handled_perm hrun
  have hnd' := (hperm.nodup_iff.mp hnd).of_append_right.of_append_right
  exact congrArg Prod.fst (List.inj_on_of_nodup_map hnd' h h' rfl)

theorem taken_of_quiescent (hend : Quiescent calls error s)
    (hwaiting : s.phase w = .waiting) (hk : k ∈ s.handled) : ∃ w', (w', k) ∈ taken t := by
  -- the waiting call would take an error from the channel
  have hchan : s.transactionErrorChan = none := by
    cases hc : s.transactionErrorChan with
    | none => rfl
    | some k =>
      by_cases hash : errHash error k = (calls w).txHash
      · exact absurd trivial (hend _ _ (.takeOwn w k hwaiting hc hash))
      · exact absurd trivial (hend _ _ (.takeOther w k hwaiting hc hash))
  obtain ⟨-, hperm⟩ := handled_perm hrun
  have hmem := hperm.mem_iff.mp hk
  rw [hchan, List.mem_append] at hmem
  obtain hmem | hmem := hmem
  · exact absurd trivial (hend _ _ (.push k hmem hchan))
  · obtain ⟨⟨w', k'⟩, hx, rfl⟩ := List.mem_map.mp hmem
    exact ⟨w', hx⟩

end

variable {s₀ : State}

theorem handled_of_handle (hrun : Run calls error t s) (h : (s₀, .handle k) ∈ t) :
    k ∈ s.handled := by
  induction hrun with
  | nil => cases h
  | @snoc t s l s' _ hstep ih =>
    rw [List.mem_append, List.mem_singleton] at h
    have hkeep : k ∈ s.handled → k ∈ s'.handled := by
      intro hk
      cases hstep with
      | handle => exact List.mem_cons_of_mem _ hk
      | register | receipt | cleanup | push | receive | takeOwn | takeOther | timeout |
          cancelError | cancelTimeout | checkReceipt | checkEmpty => exact hk
    obtain h | h := h
    · exact hkeep (ih h)
    · cases h
      cases hstep with
      | handle => exact List.mem_cons_self

/-! ### What a call has done -/

def TookOwn (calls : ℕ → Call) (error : ℕ → TransactionHashWithError) (t : List (State × Label))
    (w k : ℕ) : Prop :=
  (w, k) ∈ taken t ∧ errHash error k = (calls w).txHash

/-- Where a call stands tells which errors for its transaction it took, and whether its timer
has fired. -/
structure History (calls : ℕ → Call) (error : ℕ → TransactionHashWithError)
    (t : List (State × Label)) (w : ℕ) (p : Phase) : Prop where
  waits : p = .idle ∨ p = .waiting →
    (∀ k, ¬ TookOwn calls error t w k) ∧ .timeout w ∉ t.map Prod.snd
  fails : ∀ k, p = .cancelError k ∨ p = .returned (.transactionError k) →
    ∀ k', TookOwn calls error t w k' ↔ k' = k
  expires : p = .cancelTimeout ∨ p = .checking ∨ p = .returned .timeout →
    .timeout w ∈ t.map Prod.snd

theorem tookOwn_snoc : TookOwn calls error (t ++ [(s, l)]) w k ↔
    TookOwn calls error t w k ∨ l = .takeError w k ∧ errHash error k = (calls w).txHash := by
  simp only [TookOwn, mem_taken, List.mem_append, List.mem_singleton]
  constructor
  · rintro ⟨⟨p, hp | rfl, hl⟩, hash⟩
    · exact .inl ⟨⟨p, hp, hl⟩, hash⟩
    · exact .inr ⟨hl, hash⟩
  · rintro (⟨⟨p, hp, hl⟩, hash⟩ | ⟨hl, hash⟩)
    · exact ⟨⟨p, .inl hp, hl⟩, hash⟩
    · exact ⟨⟨(s, l), .inr rfl, hl⟩, hash⟩

theorem history (hrun : Run calls error t s) (w : ℕ) : History calls error t w (s.phase w) := by
  induction hrun with
  | nil =>
    refine ⟨fun _ => ⟨?_, ?_⟩, ?_, ?_⟩
    · simp [TookOwn, taken]
    · simp
    · simp [State.init]
    · simp [State.init]
  | @snoc t s l s' hrun hstep ih =>
    have hmove := move_of_step hstep w
    generalize s'.phase w = p at hmove
    have htimeout : .timeout w ∈ (t ++ [(s, l)]).map Prod.snd ↔
        .timeout w ∈ t.map Prod.snd ∨ l = .timeout w := by
      simp [eq_comm]
    cases hmove with
    | stay htake hl =>
      have hsame : ∀ k, TookOwn calls error (t ++ [(s, l)]) w k ↔ TookOwn calls error t w k :=
        fun k => tookOwn_snoc.trans (or_iff_left fun h => htake k h.1 h.2)
      refine ⟨fun h => ?_, fun k h k' => ?_, fun h => htimeout.mpr (.inl (ih.expires h))⟩
      · exact ⟨fun k hk => (ih.waits h).1 k ((hsame k).mp hk),
          fun h' => (htimeout.mp h').elim (ih.waits h).2 hl⟩
      · exact (hsame k').trans (ih.fails k h k')
    | register h =>
      have := ih.waits (.inl h)
      refine ⟨fun _ => ⟨fun k hk => ?_, fun h' => ?_⟩, by simp, by simp⟩
      · obtain hk | ⟨hl, -⟩ := tookOwn_snoc.mp hk
        · exact this.1 k hk
        · cases hl
      · obtain h' | hl := htimeout.mp h'
        · exact this.2 h'
        · cases hl
    | receipt => exact ⟨by simp, by simp, by simp⟩
    | @takeOwn k h hash =>
      refine ⟨by simp, ?_, by simp⟩
      rintro k₁ hk₁ k'
      obtain rfl : k = k₁ := by simpa using hk₁
      rw [tookOwn_snoc]
      constructor
      · rintro (hk' | ⟨hl, -⟩)
        · exact absurd hk' ((ih.waits (.inr h)).1 k')
        · cases hl
          rfl
      · rintro rfl
        exact .inr ⟨rfl, hash⟩
    | timeout => exact ⟨by simp, by simp, fun _ => htimeout.mpr (.inr rfl)⟩
    | @cancelError k h =>
      refine ⟨by simp, ?_, by simp⟩
      rintro k₁ hk₁ k'
      obtain rfl : k = k₁ := by simpa using hk₁
      rw [tookOwn_snoc, ih.fails k (.inl h)]
      simp
    | cancelTimeout h =>
      exact ⟨by simp, by simp, fun _ => htimeout.mpr (.inl (ih.expires (.inl h)))⟩
    | checkEmpty h =>
      exact ⟨by simp, by simp, fun _ => htimeout.mpr (.inl (ih.expires (.inr (.inl h))))⟩

/-! ### Without a receipt -/

structure Clean (w : ℕ) (h : Hash) (s : Router) : Prop where
  pending : s.pendingReceipts h = none
  empty : s.buffer w = none
  listed : ∀ h', ∀ x ∈ s.waiters h', x.ch = w → x.txHash = h

theorem Clean.step {h : Hash} {s : Router} {e : Timed} (hs : Clean w h s)
    (hreceipt : ∀ r, e.event = .receipt (some r) → r.transactionHash ≠ h ∧ r.rHash ≠ h)
    (hregister : ∀ req, e.event = .register req → req.ch = w → req.txHash = h) :
    Clean w h (s.step e) := by
  have hne : ∀ x ∈ attempts s e, x.1.ch ≠ w := by
    intro x hx hch
    obtain ⟨h', hr, hlisted, hmatch⟩ | ⟨p, hreg, hp, -⟩ := mem_attempts hx
    · have hhash := hs.listed h' x.1 hlisted hch
      have hno := hreceipt x.2 hr
      rw [hhash] at hmatch
      obtain ⟨-, htx⟩ | ⟨-, hr⟩ := hmatch
      · exact hno.1 htx
      · exact hno.2 hr
    · rw [hregister x.1 hreg hch, hs.pending] at hp
      cases hp
  refine ⟨?_, buffer_step_of_forall_ne hne hs.empty, ?_⟩
  · refine pending_none_step ?_ hs.pending
    rintro ⟨r, hr, hhash⟩
    exact (hreceipt r hr).1 hhash
  · intro h' x hx hch
    obtain hx | ⟨hreg, -⟩ := mem_waiters_of_step hx
    · exact hs.listed h' x hx hch
    · exact hregister x hreg hch

theorem router_step (hstep : Step calls error s l s') :
    s'.router = s.router ∨ ∃ e, s'.router = s.router.step e ∧
      (∀ r, e.event = .receipt r → l = .receipt r) ∧
      ∀ req, e.event = .register req → ∃ w, req = request calls w := by
  cases hstep with
  | register w now =>
    refine .inr ⟨⟨now, .register (request calls w)⟩, rfl, by simp, ?_⟩
    intro req hreq
    exact ⟨w, (Event.register.inj hreq).symm⟩
  | receipt r now => exact .inr ⟨⟨now, .receipt r⟩, rfl, by simp, by simp⟩
  | cleanup now => exact .inr ⟨⟨now, .cleanup⟩, rfl, by simp, by simp⟩
  | receive w | checkReceipt w => exact .inr ⟨⟨s.clock, .take w⟩, rfl, by simp, by simp⟩
  | cancelError w k now | cancelTimeout w now =>
    exact .inr ⟨⟨now, .cancel (request calls w)⟩, rfl, by simp, by simp⟩
  | handle | push | takeOwn | takeOther | timeout | checkEmpty => exact .inl rfl

def Unheard (t : List (State × Label)) (h : Hash) : Prop :=
  ∀ p ∈ t, ∀ r, p.2 = .receipt (some r) → r.transactionHash ≠ h ∧ r.rHash ≠ h

theorem no_receipt (hrun : Run calls error t s) (hno : Unheard t (calls w).txHash) :
    Clean w (calls w).txHash s.router ∧ ∀ r, s.phase w ≠ .returned (.receipt r) := by
  induction hrun with
  | nil => exact ⟨⟨rfl, rfl, fun _ => List.forall_mem_nil _⟩, by simp [State.init]⟩
  | @snoc t s l s' _ hstep ih =>
    rw [Unheard, List.forall_mem_append, List.forall_mem_singleton] at hno
    obtain ⟨hclean, hphase⟩ := ih hno.1
    constructor
    · obtain heq | ⟨e, heq, hreceipt, hregister⟩ := router_step hstep
      · rwa [heq]
      · rw [heq]
        refine hclean.step (fun r hr => hno.2 r (hreceipt _ hr)) ?_
        intro req hreq hch
        obtain ⟨v, rfl⟩ := hregister req hreq
        obtain rfl : v = w := hch
        rfl
    · have hmove := move_of_step hstep w
      generalize s'.phase w = p at hmove
      cases hmove with
      | stay => exact hphase
      | receipt hr =>
        rw [hclean.empty] at hr
        cases hr
      | register | takeOwn | timeout | cancelError | cancelTimeout | checkEmpty => simp

/-! ### The call that the error is for -/

theorem not_idle (hrun : Run calls error t s) (h : (s₀, l) ∈ t) (hs₀ : s₀.phase w ≠ .idle) :
    s.phase w ≠ .idle := by
  induction hrun with
  | nil => cases h
  | @snoc t s l₁ s' _ hstep ih =>
    have hactive : s.phase w ≠ .idle := by
      rw [List.mem_append, List.mem_singleton] at h
      obtain h | h := h
      · exact ih h
      · cases h
        exact hs₀
    have hmove := move_of_step hstep w
    generalize s'.phase w = p at hmove
    cases hmove with
    | stay => exact hactive
    | register | receipt | takeOwn | timeout | cancelError | cancelTimeout | checkEmpty => simp

variable {t₁ t₂ : List (State × Label)}

/-- The timer of a call that waits has not fired, and if it does not fire later either, it does
not fire in the run. -/
theorem not_timeout (hrun : Run calls error t s)
    (ht : t = t₁ ++ (s₀, l) :: t₂) (hwaiting : s₀.phase w = .waiting) (hl : l ≠ .timeout w)
    (htimeout : ∀ p ∈ t₂, p.2 ≠ .timeout w) : .timeout w ∉ t.map Prod.snd := by
  have hbefore := ((history (hrun.before ht) w).waits (.inr hwaiting)).2
  rw [ht, List.map_append, List.map_cons, List.mem_append, List.mem_cons, not_or, not_or]
  refine ⟨hbefore, hl.symm, fun h => ?_⟩
  obtain ⟨p, hp, hlabel⟩ := List.mem_map.mp h
  exact htimeout p hp hlabel

/-- An error for a transaction is handled while the call for the transaction waits; its timer
does not fire from then on, and no receipt for the transaction arrives.  Once the client has
come to rest, the call has returned that error just if no other call took it from the channel,
and no other error for the transaction came first. -/
theorem error_returned_iff {s₀ s : State} {w k : ℕ}
    (hrun : Run calls error (t₁ ++ (s₀, .handle k) :: t₂) s) (hwaiting : s₀.phase w = .waiting)
    (hash : errHash error k = (calls w).txHash) (htimeout : ∀ p ∈ t₂, p.2 ≠ .timeout w)
    (hreceipt : Unheard (t₁ ++ (s₀, .handle k) :: t₂) (calls w).txHash)
    (hend : Quiescent calls error s) :
    s.phase w = .returned (.transactionError k) ↔
      (∀ p ∈ t₁ ++ (s₀, .handle k) :: t₂, ∀ w', p.2 = .takeError w' k → w' = w) ∧
      ∀ p ∈ t₁ ++ (s₀, .handle k) :: t₂, ∀ k', p.2 = .takeError w k' →
        errHash error k' = (calls w).txHash → k' = k := by
  set t := t₁ ++ (s₀, Label.handle k) :: t₂ with ht
  have hmem : (s₀, Label.handle k) ∈ t := by simp [ht]
  have hist := history hrun w
  have hnotimeout := not_timeout hrun ht hwaiting (by simp) htimeout
  constructor
  · intro hreturned
    have htook := hist.fails k (.inr hreturned)
    have hown := (htook k).mpr rfl
    constructor
    · intro p hp w' hl
      exact taken_unique hrun (mem_taken.mpr ⟨p, hp, hl⟩) hown.1
    · intro p hp k' hl hash'
      exact (htook k').mp ⟨mem_taken.mpr ⟨p, hp, hl⟩, hash'⟩
  · rintro ⟨honly, hfirst⟩
    have htook : ∀ k', TookOwn calls error t w k' → k' = k := by
      rintro k' ⟨htaken, hash'⟩
      obtain ⟨p, hp, hl⟩ := mem_taken.mp htaken
      exact hfirst p hp k' hl hash'
    -- the places where the call could be other than back with the error
    cases hphase : s.phase w with
    | idle => exact absurd hphase (not_idle hrun hmem (by simp [hwaiting]))
    | waiting =>
      obtain ⟨w', htaken⟩ := taken_of_quiescent hrun hend hphase (handled_of_handle hrun hmem)
      obtain ⟨p, hp, hl⟩ := mem_taken.mp htaken
      obtain rfl := honly p hp w' hl
      exact absurd ⟨htaken, hash⟩ ((hist.waits (.inr hphase)).1 k)
    | cancelError k' =>
      exact absurd trivial (hend _ _ (.cancelError w k' s.clock hphase (Nat.le_refl _)))
    | cancelTimeout => exact absurd (hist.expires (.inl hphase)) hnotimeout
    | checking => exact absurd (hist.expires (.inr (.inl hphase))) hnotimeout
    | returned r =>
      cases r with
      | receipt r => exact absurd hphase ((no_receipt hrun hreceipt).2 r)
      | timeout => exact absurd (hist.expires (.inr (.inr hphase))) hnotimeout
      | transactionError k' =>
        have hk' := (hist.fails k' (.inr hphase) k').mpr rfl
        rw [htook k' hk']

section Examples

/-- Call 0 is for the transaction `[1]`, the others for `[2]`. -/
def exampleCalls (w : ℕ) : Call := ⟨bytesToHash (if w = 0 then [1] else [2]), .matchByTxHash⟩

/-- Errors for the transaction `[1]`. -/
def exampleErrors (_ : ℕ) : TransactionHashWithError := ⟨[1], [], []⟩

def oneWaiting : State :=
  { State.init with
    router := Router.new.step ⟨0, .register (request exampleCalls 0)⟩
    phase := update State.init.phase 0 .waiting }

def bothWaiting : State :=
  { State.init with
    router := oneWaiting.router.step ⟨0, .register (request exampleCalls 1)⟩
    phase := update oneWaiting.phase 1 .waiting }

def bothRegister : List (State × Label) := [(.init, .register 0), (oneWaiting, .register 1)]

def errorPushed : State := { bothWaiting with transactionErrorChan := some 0, handled := [0] }

theorem run_errorPushed :
    Run exampleCalls exampleErrors
      (bothRegister ++ [(bothWaiting, .handle 0),
        ({ bothWaiting with handling := [0], handled := [0] }, .push 0)]) errorPushed := by
  have h₁ : Run exampleCalls exampleErrors [(.init, .register 0)] oneWaiting :=
    Trace.Run.nil.snoc (.register 0 0 rfl (Nat.le_refl _))
  have h₂ : Run exampleCalls exampleErrors bothRegister bothWaiting :=
    h₁.snoc (.register 1 0 rfl (Nat.le_refl _))
  have h₃ := h₂.snoc (.handle 0 List.not_mem_nil)
  exact h₃.snoc (.push 0 (List.mem_singleton_self _) rfl)

theorem own_steps_end_errorPushed :
    Acc (fun s' s => ∃ l, Step exampleCalls exampleErrors s l s' ∧ l.Own) errorPushed :=
  own_steps_end run_errorPushed

theorem phase_bothWaiting (w : ℕ) :
    bothWaiting.phase w = .idle ∨ bothWaiting.phase w = .waiting := by
  simp only [bothWaiting, oneWaiting, State.init, update_apply]
  split
  · exact .inr rfl
  · split
    · exact .inr rfl
    · exact .inl rfl

theorem quiescent_of (hhandling : s.handling = [])
    (hbuffer : ∀ w, s.router.buffer w = none) (hchan : s.transactionErrorChan = none)
    (hphase : ∀ w, s.phase w = .idle ∨ s.phase w = .waiting ∨ ∃ out, s.phase w = .returned out) :
    Quiescent calls error s := by
  intro l s' hstep hown
  cases hstep with
  | register | receipt | cleanup | handle | timeout => exact hown
  | push k h => simp [hhandling] at h
  | receive w r h hr | checkReceipt w r h hr => simp [hbuffer] at hr
  | takeOwn w k h hk | takeOther w k h hk => simp [hchan] at hk
  | cancelError w k now h | cancelTimeout w now h | checkEmpty w h =>
    obtain h' | h' | ⟨out, h'⟩ := hphase w <;> simp [h'] at h

/-- Call 1 takes the error for the transaction of call 0, and the client comes to rest: call 0
waits on. -/
theorem error_dropped :
    ∃ t₂ s, Run exampleCalls exampleErrors (bothRegister ++ (bothWaiting, .handle 0) :: t₂) s ∧
      bothWaiting.phase 0 = .waiting ∧ errHash exampleErrors 0 = (exampleCalls 0).txHash ∧
      (∀ p ∈ t₂, p.2 ≠ .timeout 0) ∧
      Unheard (bothRegister ++ (bothWaiting, .handle 0) :: t₂) (exampleCalls 0).txHash ∧
      Quiescent exampleCalls exampleErrors s ∧ s.phase 0 = .waiting := by
  have hash : errHash exampleErrors 0 ≠ (exampleCalls 1).txHash := by decide
  refine ⟨_, _, run_errorPushed.snoc (.takeOther 1 0 rfl rfl hash), rfl, by decide, ?_, ?_, ?_, rfl⟩
  · simp
  · simp [Unheard, bothRegister]
  · exact quiescent_of rfl (fun _ => rfl) rfl fun w => (phase_bothWaiting w).imp_right .inl

def errorTaken : State :=
  { errorPushed with
    transactionErrorChan := none
    phase := update errorPushed.phase 0 (.cancelError 0) }

def errorReturned : State :=
  { errorTaken with
    router := errorTaken.router.step ⟨0, .cancel (request exampleCalls 0)⟩
    phase := update errorTaken.phase 0 (.returned (.transactionError 0)) }

theorem error_returned_iff_example :
    ∃ t, Run exampleCalls exampleErrors t errorReturned ∧
      errorReturned.phase 0 = .returned (.transactionError 0) := by
  have hash : errHash exampleErrors 0 = (exampleCalls 0).txHash := by decide
  have hrun : Run exampleCalls exampleErrors (bothRegister ++ (bothWaiting, .handle 0) ::
      [({ bothWaiting with handling := [0], handled := [0] }, .push 0),
        (errorPushed, .takeError 0 0), (errorTaken, .cancel 0)]) errorReturned :=
    (run_errorPushed.snoc (.takeOwn 0 0 rfl rfl hash)).snoc (.cancelError 0 0 0 rfl (Nat.le_refl _))
  refine ⟨_, hrun, (error_returned_iff hrun rfl hash ?_ ?_ ?_).mpr ⟨?_, ?_⟩⟩
  · simp
  · simp [Unheard, bothRegister]
  · refine quiescent_of rfl (fun _ => rfl) rfl fun w => ?_
    by_cases hw : w = 0
    · exact .inr (.inr ⟨_, by rw [hw]; rfl⟩)
    · simp only [errorReturned, errorTaken, errorPushed, update_of_ne hw]
      exact (phase_bothWaiting w).imp_right .inl
  · simp [bothRegister]
  · simp [bothRegister]

end Examples

end MetaNode.WaitReceipt
