/-
The nonce cache of the transaction helpers (`SendSecpTransaction` and
`SendTransactionNoneKey`, `tx_helper.go`).

A call reads the cached nonce of its address, asks the node for the account, sends its
transaction with the larger of the two nonces and, when the transaction is acknowledged,
stores the next nonce in the cache.  Nothing keeps two calls apart in between.  The calls
are for one address; the node may lag behind what it has accepted.
-/
import Mathlib.Algebra.Group.Nat.Defs
import Mathlib.Data.List.Induction
import Mathlib.Logic.Function.Basic
import MetaNode.Trace

namespace MetaNode.NonceCache

open Function

/-! ### The model -/

inductive Pc where
  | idle
  /-- It waits for the account state. -/
  | querying
  /-- The node has answered. -/
  | answered
  /-- It has its nonce and sends the transaction. -/
  | sending
  /-- The node has accepted the transaction. -/
  | submitted
  | acknowledged
  /-- The next nonce is in the cache. -/
  | done
  | failed
  deriving DecidableEq

structure Local where
  pc : Pc
  cachedNonce : ℕ
  /-- `as.Nonce()` -/
  stateNonce : ℕ
  usedNonce : ℕ
  deriving DecidableEq

/-- The cache entry of the address, the calls, and what the node has done for the address. -/
structure State (C : Type) where
  nonceCache : Option ℕ
  call : C → Local
  /-- How many transactions the node has accepted. -/
  accepted : ℕ
  /-- The last nonce it has reported. -/
  reported : ℕ

def State.init (C : Type) : State C := ⟨none, fun _ => ⟨.idle, 0, 0, 0⟩, 0, 0⟩

/-- The cached nonce, which is 0 when there is no entry. -/
def State.cached {C : Type} (s : State C) : ℕ := s.nonceCache.getD 0

def chooseNonce (cachedNonce stateNonce : ℕ) : ℕ :=
  if cachedNonce ≠ 0 ∧ cachedNonce > stateNonce then cachedNonce else stateNonce

inductive Label (C : Type) where
  | load (c : C)
  | report (c : C)
  | reply (c : C)
  | accept (c : C)
  | acceptOther
  | acknowledge (c : C)
  | fail (c : C)
  | store (c : C)
  deriving DecidableEq

variable {C : Type} [DecidableEq C]

/-- One step of a call or of the node.  The nonces that the node reports do not decrease, and
are at most the number of transactions it has accepted, which fits 64 bits. -/
inductive Step : State C → Label C → State C → Prop where
  | load {s} (c : C) (h : (s.call c).pc = .idle) :
      Step s (.load c) { s with
        call := update s.call c
          { s.call c with pc := .querying, cachedNonce := s.cached } }
  | report {s} (c : C) (n : ℕ) (h : (s.call c).pc = .querying) (hmono : s.reported ≤ n)
      (hle : n ≤ s.accepted) :
      Step s (.report c) { s with
        call := update s.call c { s.call c with pc := .answered, stateNonce := n }
        reported := n }
  | reply {s} (c : C) (h : (s.call c).pc = .answered) :
      Step s (.reply c) { s with
        call := update s.call c
          { s.call c with
            pc := .sending
            usedNonce := chooseNonce (s.call c).cachedNonce (s.call c).stateNonce } }
  | accept {s} (c : C) (h : (s.call c).pc = .sending) (hsize : s.accepted + 1 < 2 ^ 64) :
      Step s (.accept c) { s with
        call := update s.call c { s.call c with pc := .submitted }
        accepted := s.accepted + 1 }
  /-- A transaction that no call here sent. -/
  | acceptOther {s} (hsize : s.accepted + 1 < 2 ^ 64) :
      Step s .acceptOther { s with accepted := s.accepted + 1 }
  | acknowledge {s} (c : C) (h : (s.call c).pc = .submitted) :
      Step s (.acknowledge c) { s with
        call := update s.call c { s.call c with pc := .acknowledged } }
  /-- The query or the transaction comes back with an error, or not at all. -/
  | fail {s} (c : C) (h : (s.call c).pc = .querying ∨ (s.call c).pc = .answered ∨
        (s.call c).pc = .sending ∨ (s.call c).pc = .submitted) :
      Step s (.fail c) { s with call := update s.call c { s.call c with pc := .failed } }
  | store {s} (c : C) (h : (s.call c).pc = .acknowledged) :
      Step s (.store c) { s with
        call := update s.call c { s.call c with pc := .done }
        nonceCache := some (((s.call c).usedNonce + 1) % 2 ^ 64) }

abbrev Run : List (State C × Label C) → State C → Prop := Trace.Run Step (State.init C)

/-- The calls whose transaction was acknowledged used different nonces. -/
def Distinct (s : State C) : Prop :=
  ∀ c c', ((s.call c).pc = .acknowledged ∨ (s.call c).pc = .done) →
    ((s.call c').pc = .acknowledged ∨ (s.call c').pc = .done) →
    (s.call c).usedNonce = (s.call c').usedNonce → c = c'

/-- Of the calls in `A`, each loads the cache only after those that loaded it before have
stored their nonce. -/
def SerialOn (A : C → Prop) (σ : List (Label C)) : Prop :=
  ∀ σ₁ c' σ₂, σ = σ₁ ++ .load c' :: σ₂ → A c' → ∀ c, A c → .load c ∈ σ₁ → .store c ∈ σ₁

/-- The calls that are acknowledged come one after the other. -/
def Serial (σ : List (Label C)) : Prop := SerialOn (fun c => .acknowledge c ∈ σ) σ

variable {s s' : State C} {l : Label C} {t : List (State C × Label C)} {c c' : C}

theorem chooseNonce_eq_max (cachedNonce stateNonce : ℕ) :
    chooseNonce cachedNonce stateNonce = max cachedNonce stateNonce := by
  rw [chooseNonce]
  split <;> omega

/-! ### No nonce is beyond what the node has accepted -/

/-- A call whose nonces are at most `accepted`, and below it once the node has its transaction. -/
structure Local.Bounded (accepted : ℕ) (v : Local) : Prop where
  cachedNonce : v.cachedNonce ≤ accepted
  stateNonce : v.stateNonce ≤ accepted
  usedNonce : v.usedNonce ≤ accepted
  submitted : v.pc = .submitted ∨ v.pc = .acknowledged ∨ v.pc = .done → v.usedNonce < accepted

theorem Local.Bounded.mono {v : Local} {a a' : ℕ} (h : v.Bounded a) (ha : a ≤ a') : v.Bounded a' :=
  ⟨Nat.le_trans h.cachedNonce ha, Nat.le_trans h.stateNonce ha, Nat.le_trans h.usedNonce ha,
    fun hpc => Nat.lt_of_lt_of_le (h.submitted hpc) ha⟩

structure Bounded (s : State C) : Prop where
  size : s.accepted < 2 ^ 64
  cached : s.cached ≤ s.accepted
  call : ∀ c, (s.call c).Bounded s.accepted

theorem Bounded.call_update (hs : Bounded s) {v : Local} {a : ℕ} (ha : s.accepted ≤ a)
    (hv : v.Bounded a) : ∀ c', (update s.call c v c').Bounded a :=
  (forall_update_iff s.call fun _ v => v.Bounded a).mpr
    ⟨hv, fun c' _ => (hs.call c').mono ha⟩

theorem Bounded.setCall (hs : Bounded s) {v : Local} (hv : v.Bounded s.accepted) :
    Bounded { s with call := update s.call c v } :=
  ⟨hs.size, hs.cached, hs.call_update (Nat.le_refl _) hv⟩

theorem Bounded.step (hs : Bounded s) (hstep : Step s l s') : Bounded s' := by
  cases hstep with
  | load c => exact hs.setCall ⟨hs.cached, (hs.call c).stateNonce, (hs.call c).usedNonce, by simp⟩
  | report c n h hmono hle =>
    exact ⟨hs.size, hs.cached, hs.call_update (Nat.le_refl _)
      ⟨(hs.call c).cachedNonce, hle, (hs.call c).usedNonce, by simp⟩⟩
  | reply c =>
    have hc := hs.call c
    refine hs.setCall ⟨hc.cachedNonce, hc.stateNonce, ?_, by simp⟩
    rw [chooseNonce_eq_max]
    exact Nat.max_le.mpr ⟨hc.cachedNonce, hc.stateNonce⟩
  | accept c h hsize =>
    have hle := Nat.le_succ s.accepted
    have hc := (hs.call c).mono hle
    refine ⟨hsize, Nat.le_trans hs.cached hle, hs.call_update hle ?_⟩
    exact ⟨hc.cachedNonce, hc.stateNonce, hc.usedNonce,
      fun _ => Nat.lt_succ_of_le (hs.call c).usedNonce⟩
  | acceptOther hsize =>
    have hle := Nat.le_succ s.accepted
    exact ⟨hsize, Nat.le_trans hs.cached hle, fun c => (hs.call c).mono hle⟩
  | acknowledge c h =>
    have hc := hs.call c
    exact hs.setCall ⟨hc.cachedNonce, hc.stateNonce, hc.usedNonce, fun _ => hc.submitted (.inl h)⟩
  | fail c =>
    have hc := hs.call c
    exact hs.setCall ⟨hc.cachedNonce, hc.stateNonce, hc.usedNonce, by simp⟩
  | store c h =>
    have hc := hs.call c
    have hused := hc.submitted (.inr (.inl h))
    exact ⟨hs.size, Nat.le_trans (Nat.mod_le _ _) hused, hs.call_update (Nat.le_refl _)
      ⟨hc.cachedNonce, hc.stateNonce, hc.usedNonce, fun _ => hused⟩⟩

theorem bounded_of_run (hrun : Run t s) : Bounded s := by
  induction hrun with
  | nil =>
    have hsize : 0 < 2 ^ 64 := by decide
    exact ⟨hsize, Nat.le_refl 0, fun _ => ⟨Nat.le_refl 0, Nat.le_refl 0, Nat.le_refl 0,
      by simp [State.init]⟩⟩
  | snoc _ hstep ih => exact ih.step hstep

/-! ### What the schedule tells about a call -/

/-- The labels of a run tell which calls have loaded the cache, were acknowledged and have stored
their nonce. -/
structure Trail (σ : List (Label C)) (s : State C) : Prop where
  load : ∀ c, .load c ∈ σ ↔ (s.call c).pc ≠ .idle
  acknowledge : ∀ c, .acknowledge c ∈ σ ↔ (s.call c).pc = .acknowledged ∨ (s.call c).pc = .done
  store : ∀ c, .store c ∈ σ ↔ (s.call c).pc = .done

theorem pc_step (hstep : Step s l s') (c : C) :
    ((s'.call c).pc ≠ .idle ↔ (s.call c).pc ≠ .idle ∨ l = .load c) ∧
    (((s'.call c).pc = .acknowledged ∨ (s'.call c).pc = .done) ↔
      ((s.call c).pc = .acknowledged ∨ (s.call c).pc = .done) ∨ l = .acknowledge c) ∧
    ((s'.call c).pc = .done ↔ (s.call c).pc = .done ∨ l = .store c) := by
  cases hstep with
  | acceptOther => simp
  | load d h | reply d h | acknowledge d h | store d h =>
    by_cases hd : c = d
    · subst hd
      simp [h]
    · simp [update_of_ne hd, Ne.symm hd]
  | report d n h | accept d h =>
    by_cases hd : c = d
    · subst hd
      simp [h]
    · simp [update_of_ne hd]
  | fail d h =>
    by_cases hd : c = d
    · subst hd
      obtain h | h | h | h := h <;> simp [h]
    · simp [update_of_ne hd]

theorem trail_of_run (hrun : Run t s) : Trail (t.map Prod.snd) s := by
  induction hrun with
  | nil => exact ⟨by simp [State.init], by simp [State.init], by simp [State.init]⟩
  | @snoc t s l s' _ hstep ih =>
    rw [List.map_append, List.map_singleton]
    refine ⟨fun c => ?_, fun c => ?_, fun c => ?_⟩
    · rw [(pc_step hstep c).1, ← ih.load c, List.mem_append, List.mem_singleton, eq_comm]
    · rw [(pc_step hstep c).2.1, ← ih.acknowledge c, List.mem_append, List.mem_singleton, eq_comm]
    · rw [(pc_step hstep c).2.2, ← ih.store c, List.mem_append, List.mem_singleton, eq_comm]

/-! ### One call at a time -/

/-- Between the load and the store. -/
def Pc.Open (p : Pc) : Prop := p ≠ .idle ∧ p ≠ .done

def Pc.Chosen (p : Pc) : Prop := p = .sending ∨ p = .submitted ∨ p = .acknowledged ∨ p = .done

/-- At most one call of `A` is open, and what it has loaded is still in the cache; the nonces
used so far are below the cached one. -/
structure Exclusive (A : C → Prop) (call : C → Local) (cached : ℕ) : Prop where
  alone : ∀ c c', A c → A c' → (call c).pc.Open → (call c').pc.Open → c = c'
  cachedNonce : ∀ c, A c → (call c).pc.Open → (call c).cachedNonce = cached
  chosen : ∀ c, (call c).pc.Chosen → (call c).cachedNonce ≤ (call c).usedNonce
  below : ∀ c, (call c).pc = .done → (call c).usedNonce < cached
  distinct : ∀ c c', (call c).pc = .done → (call c').pc = .done →
    (call c).usedNonce = (call c').usedNonce → c = c'

section Exclusive

variable {A : C → Prop} {call : C → Local} {cached : ℕ} {v : Local}

section

variable (hs : Exclusive A call cached)

include hs

theorem Exclusive.done_update (hv : v.pc ≠ .done) :
    (∀ d, (update call c v d).pc = .done →
      (update call c v d).usedNonce < cached) ∧
    ∀ d d', (update call c v d).pc = .done → (update call c v d').pc = .done →
      (update call c v d).usedNonce = (update call c v d').usedNonce → d = d' := by
  have hdone : ∀ d, (update call c v d).pc = .done → update call c v d = call d := by
    intro d hd
    by_cases hdc : d = c
    · subst hdc
      rw [update_self] at hd
      exact absurd hd hv
    · rw [update_of_ne hdc]
  constructor
  · intro d hd
    have heq := hdone d hd
    rw [heq] at hd ⊢
    exact hs.below d hd
  · intro d d' hd hd' hused
    have heq := hdone d hd
    have heq' := hdone d' hd'
    rw [heq] at hd hused
    rw [heq'] at hd' hused
    exact hs.distinct d d' hd hd' hused

theorem Exclusive.move (hopen : (call c).pc.Open) (hv : v.pc.Open)
    (hcached : v.cachedNonce = (call c).cachedNonce)
    (hchosen : v.pc.Chosen → v.cachedNonce ≤ v.usedNonce) :
    Exclusive A (update call c v) cached := by
  have hopen' : ∀ d, (update call c v d).pc.Open → (call d).pc.Open :=
    (forall_update_iff call fun d w => w.pc.Open → (call d).pc.Open).mpr
      ⟨fun _ => hopen, fun _ _ h => h⟩
  refine ⟨?_, ?_, ?_, ?_, ?_⟩
  · intro d d' hd hd' ho ho'
    exact hs.alone d d' hd hd' (hopen' d ho) (hopen' d' ho')
  · intro d hd ho
    by_cases hdc : d = c
    · subst hdc
      rw [update_self, hcached]
      exact hs.cachedNonce d hd hopen
    · rw [update_of_ne hdc] at ho ⊢
      exact hs.cachedNonce d hd ho
  · exact (forall_update_iff call fun _ w =>
      w.pc.Chosen → w.cachedNonce ≤ w.usedNonce).mpr ⟨hchosen, fun d _ => hs.chosen d⟩
  · exact (hs.done_update hv.2).1
  · exact (hs.done_update hv.2).2

theorem Exclusive.load (hserial : A c → ∀ d, A d → (call d).pc ≠ .idle → (call d).pc = .done)
    (hv : v.pc = .querying) (hcached : v.cachedNonce = cached) :
    Exclusive A (update call c v) cached := by
  -- an open call of `A` other than `c` was open before, so that `c` is not in `A`
  have hother : ∀ d, A d → d ≠ c → (update call c v d).pc.Open →
      (call d).pc.Open ∧ ¬ A c := by
    intro d hd hdc ho
    rw [update_of_ne hdc] at ho
    exact ⟨ho, fun hc => ho.2 (hserial hc d hd ho.1)⟩
  refine ⟨?_, ?_, ?_, ?_, ?_⟩
  · intro d d' hd hd' ho ho'
    by_cases hdc : d = c
    · by_cases hdc' : d' = c
      · rw [hdc, hdc']
      · exact absurd (hdc ▸ hd) (hother d' hd' hdc' ho').2
    · by_cases hdc' : d' = c
      · exact absurd (hdc' ▸ hd') (hother d hd hdc ho).2
      · exact hs.alone d d' hd hd' (hother d hd hdc ho).1 (hother d' hd' hdc' ho').1
  · intro d hd ho
    by_cases hdc : d = c
    · rw [hdc, update_self, hcached]
    · rw [update_of_ne hdc]
      exact hs.cachedNonce d hd (hother d hd hdc ho).1
  · refine (forall_update_iff call fun _ w =>
      w.pc.Chosen → w.cachedNonce ≤ w.usedNonce).mpr ⟨?_, fun d _ => hs.chosen d⟩
    rw [hv]
    simp [Pc.Chosen]
  · exact (hs.done_update (by simp [hv])).1
  · exact (hs.done_update (by simp [hv])).2

theorem Exclusive.store (hc : A c) (hpc : (call c).pc = .acknowledged) :
    Exclusive A (update call c { call c with pc := .done }) ((call c).usedNonce + 1) := by
  have hopen : (call c).pc.Open := by simp [Pc.Open, hpc]
  have hle : cached ≤ (call c).usedNonce := by
    rw [← hs.cachedNonce c hc hopen]
    exact hs.chosen c (by simp [Pc.Chosen, hpc])
  have hnone : ∀ d, A d → ¬ (update call c { call c with pc := .done } d).pc.Open := by
    intro d hd ho
    by_cases hdc : d = c
    · subst hdc
      rw [update_self] at ho
      exact ho.2 rfl
    · rw [update_of_ne hdc] at ho
      exact hdc (hs.alone d c hd hc ho hopen)
  have hused : ∀ d, d ≠ c → (update call c { call c with pc := .done } d).pc = .done →
      update call c { call c with pc := .done } d = call d ∧
        (call d).usedNonce < (call c).usedNonce := by
    intro d hdc hd
    rw [update_of_ne hdc] at hd ⊢
    exact ⟨rfl, Nat.lt_of_lt_of_le (hs.below d hd) hle⟩
  refine ⟨?_, ?_, ?_, ?_, ?_⟩
  · intro d d' hd _ ho _
    exact absurd ho (hnone d hd)
  · intro d hd ho
    exact absurd ho (hnone d hd)
  · exact (forall_update_iff call fun _ w =>
      w.pc.Chosen → w.cachedNonce ≤ w.usedNonce).mpr
        ⟨fun _ => hs.chosen c (by simp [Pc.Chosen, hpc]), fun d _ => hs.chosen d⟩
  · intro d hd
    by_cases hdc : d = c
    · rw [hdc, update_self]
      exact Nat.lt_succ_self _
    · obtain ⟨heq, hlt⟩ := hused d hdc hd
      rw [heq]
      exact Nat.lt_succ_of_lt hlt
  · intro d d' hd hd' heq
    by_cases hdc : d = c
    · by_cases hdc' : d' = c
      · rw [hdc, hdc']
      · obtain ⟨heq', hlt⟩ := hused d' hdc' hd'
        rw [heq', hdc, update_self] at heq
        exact absurd heq.symm (Nat.ne_of_lt hlt)
    · obtain ⟨heq₁, hlt⟩ := hused d hdc hd
      by_cases hdc' : d' = c
      · rw [heq₁, hdc', update_self] at heq
        exact absurd heq (Nat.ne_of_lt hlt)
      · obtain ⟨heq₂, -⟩ := hused d' hdc' hd'
        rw [heq₁] at heq hd
        rw [heq₂] at heq hd'
        exact hs.distinct d d' hd hd' heq

end

theorem Exclusive.step (hs : Exclusive A s.call s.cached) (hbounded : Bounded s)
    (hA : ∀ c, (s.call c).pc = .acknowledged → A c)
    (hserial : ∀ c, l = .load c → A c → ∀ d, A d → (s.call d).pc ≠ .idle → (s.call d).pc = .done)
    (hstep : Step s l s') : Exclusive A s'.call s'.cached := by
  cases hstep with
  | load c => exact hs.load (hserial c rfl) rfl rfl
  | report c n h =>
    exact hs.move (by simp [Pc.Open, h]) (by simp [Pc.Open]) rfl (by simp [Pc.Chosen])
  | reply c h =>
    refine hs.move (by simp [Pc.Open, h]) (by simp [Pc.Open]) rfl fun _ => ?_
    rw [chooseNonce_eq_max]
    exact Nat.le_max_left _ _
  | accept c h | acknowledge c h =>
    refine hs.move (by simp [Pc.Open, h]) (by simp [Pc.Open]) rfl fun _ => ?_
    exact hs.chosen c (by simp [Pc.Chosen, h])
  | acceptOther => exact hs
  | fail c h =>
    have hopen : (s.call c).pc.Open := by
      obtain h | h | h | h := h <;> simp [Pc.Open, h]
    exact hs.move hopen (by simp [Pc.Open]) rfl (by simp [Pc.Chosen])
  | store c h =>
    -- the sum does not wrap around, since the node has accepted the transaction
    have hlt := (hbounded.call c).submitted (.inr (.inl h))
    have hmod : ((s.call c).usedNonce + 1) % 2 ^ 64 = (s.call c).usedNonce + 1 :=
      Nat.mod_eq_of_lt (Nat.lt_of_le_of_lt hlt hbounded.size)
    have hstored := hs.store (hA c h) h
    rwa [← hmod] at hstored

end Exclusive

/-! ### Serial schedules -/

omit [DecidableEq C] in
theorem serialOn_snoc {A : C → Prop} {σ : List (Label C)} :
    SerialOn A (σ ++ [l]) ↔ SerialOn A σ ∧
      ∀ c', l = .load c' → A c' → ∀ c, A c → .load c ∈ σ → .store c ∈ σ := by
  constructor
  · intro h
    constructor
    · intro σ₁ c' σ₂ heq
      exact h σ₁ c' (σ₂ ++ [l]) (by rw [heq, List.append_assoc, List.cons_append])
    · rintro c' rfl
      exact h σ c' [] rfl
  · rintro ⟨hσ, hl⟩ σ₁ c' σ₂ heq
    obtain rfl | ⟨σ₂, l', rfl⟩ := List.eq_nil_or_concat σ₂
    · obtain ⟨rfl, hlast⟩ := List.append_inj' heq rfl
      rw [List.cons.injEq] at hlast
      exact hl c' hlast.1
    · rw [List.concat_eq_append, ← List.cons_append, ← List.append_assoc] at heq
      exact hσ σ₁ c' σ₂ (List.append_inj' heq rfl).1

theorem exclusive_of_run {A : C → Prop} (hrun : Run t s) (hserial : SerialOn A (t.map Prod.snd))
    (hA : ∀ c, .acknowledge c ∈ t.map Prod.snd → A c) : Exclusive A s.call s.cached := by
  induction hrun with
  | nil =>
    exact ⟨by simp [State.init, Pc.Open], by simp [State.init, Pc.Open], by simp [State.init],
      by simp [State.init], by simp [State.init]⟩
  | @snoc t s l s' hrun hstep ih =>
    rw [List.map_append, List.map_singleton] at hserial hA
    rw [serialOn_snoc] at hserial
    have htrail := trail_of_run hrun
    have hA' : ∀ c, .acknowledge c ∈ t.map Prod.snd → A c := fun c hc =>
      hA c (List.mem_append_left _ hc)
    refine (ih hserial.1 hA').step (bounded_of_run hrun) ?_ ?_ hstep
    · intro c hc
      exact hA' c ((htrail.acknowledge c).mpr (.inl hc))
    · intro c hl hc d hd hpc
      exact (htrail.store d).mp (hserial.2 c hl hc d hd ((htrail.load d).mpr hpc))

theorem distinct_of_serial (hrun : Run t s) (hserial : Serial (t.map Prod.snd)) : Distinct s := by
  have hexcl := exclusive_of_run hrun hserial fun _ h => h
  have hA : ∀ c, (s.call c).pc = .acknowledged → .acknowledge c ∈ t.map Prod.snd := fun c hc =>
    ((trail_of_run hrun).acknowledge c).mpr (.inl hc)
  -- a call that has not stored its nonce yet is above those that have
  have habove : ∀ c c', (s.call c).pc = .acknowledged → (s.call c').pc = .done →
      (s.call c').usedNonce < (s.call c).usedNonce := by
    intro c c' hc hc'
    calc (s.call c').usedNonce < s.cached := hexcl.below c' hc'
      _ = (s.call c).cachedNonce := (hexcl.cachedNonce c (hA c hc) (by simp [Pc.Open, hc])).symm
      _ ≤ (s.call c).usedNonce := hexcl.chosen c (by simp [Pc.Chosen, hc])
  rintro c c' (hc | hc) (hc' | hc') hused
  · exact hexcl.alone c c' (hA c hc) (hA c' hc') (by simp [Pc.Open, hc]) (by simp [Pc.Open, hc'])
  · exact absurd hused (Nat.ne_of_gt (habove c c' hc hc'))
  · exact absurd hused (Nat.ne_of_lt (habove c' c hc' hc))
  · exact hexcl.distinct c c' hc hc' hused

/-! ### A node that always reports 0 -/

/-- The calls stand where they do in `s`, but the node has reported nothing but 0. -/
structure Lagging (s s' : State C) : Prop where
  pc : ∀ c, (s'.call c).pc = (s.call c).pc
  accepted : s'.accepted = s.accepted
  reported : s'.reported = 0
  stateNonce : ∀ c, (s'.call c).stateNonce = 0
  chosen : ∀ c, (s'.call c).pc.Chosen → (s'.call c).usedNonce = (s'.call c).cachedNonce

variable {s₁ : State C}

theorem Lagging.update {s₁' : State C} (hs : Lagging s s') {v v' : Local}
    (hcall : s₁.call = update s.call c v)
    (hcall' : s₁'.call = update s'.call c v') (hpc : v'.pc = v.pc)
    (hnonce : v'.stateNonce = 0) (hchosen : v'.pc.Chosen → v'.usedNonce = v'.cachedNonce)
    (haccepted : s₁'.accepted = s₁.accepted) (hreported : s₁'.reported = 0) : Lagging s₁ s₁' := by
  refine ⟨?_, haccepted, hreported, ?_, ?_⟩
  · intro d
    rw [hcall, hcall']
    by_cases hd : d = c
    · subst hd
      simpa using hpc
    · simpa [update_of_ne hd] using hs.pc d
  · rw [hcall']
    exact (forall_update_iff s'.call fun _ w => w.stateNonce = 0).mpr
      ⟨hnonce, fun d _ => hs.stateNonce d⟩
  · rw [hcall']
    exact (forall_update_iff s'.call fun _ w =>
      w.pc.Chosen → w.usedNonce = w.cachedNonce).mpr ⟨hchosen, fun d _ => hs.chosen d⟩

theorem Lagging.step (hs : Lagging s s') (hstep : Step s l s₁) :
    ∃ s₁', Step s' l s₁' ∧ Lagging s₁ s₁' := by
  have hpc : ∀ {c p}, (s.call c).pc = p → (s'.call c).pc = p := fun h => (hs.pc _).trans h
  cases hstep with
  | load c h =>
    exact ⟨_, .load c (hpc h), hs.update rfl rfl rfl (hs.stateNonce c) (by simp [Pc.Chosen])
      hs.accepted hs.reported⟩
  | report c n h =>
    exact ⟨_, .report c 0 (hpc h) (Nat.le_of_eq hs.reported) (Nat.zero_le _),
      hs.update rfl rfl rfl rfl (by simp [Pc.Chosen]) hs.accepted rfl⟩
  | reply c h =>
    refine ⟨_, .reply c (hpc h), hs.update rfl rfl rfl (hs.stateNonce c) ?_ hs.accepted hs.reported⟩
    intro _
    rw [chooseNonce_eq_max, hs.stateNonce c]
    exact Nat.max_zero _
  | accept c h =>
    refine ⟨_, .accept c (hpc h) (by rwa [hs.accepted]), hs.update rfl rfl rfl (hs.stateNonce c) ?_
      (congrArg (· + 1) hs.accepted) hs.reported⟩
    intro _
    exact hs.chosen c (by simp [Pc.Chosen, hpc h])
  | acceptOther =>
    exact ⟨_, .acceptOther (by rwa [hs.accepted]),
      hs.pc, congrArg (· + 1) hs.accepted, hs.reported, hs.stateNonce, hs.chosen⟩
  | acknowledge c h =>
    refine ⟨_, .acknowledge c (hpc h), hs.update rfl rfl rfl (hs.stateNonce c) ?_ hs.accepted
      hs.reported⟩
    intro _
    exact hs.chosen c (by simp [Pc.Chosen, hpc h])
  | fail c =>
    exact ⟨_, .fail c (by rwa [hs.pc c]), hs.update rfl rfl rfl (hs.stateNonce c)
      (by simp [Pc.Chosen]) hs.accepted hs.reported⟩
  | store c h =>
    refine ⟨_, .store c (hpc h), hs.update rfl rfl rfl (hs.stateNonce c) ?_ hs.accepted hs.reported⟩
    intro _
    exact hs.chosen c (by simp [Pc.Chosen, hpc h])

theorem exists_lagging (hrun : Run t s) :
    ∃ t' s', Run t' s' ∧ t'.map Prod.snd = t.map Prod.snd ∧ Lagging s s' := by
  induction hrun with
  | nil =>
    exact ⟨[], State.init C, .nil, rfl, fun _ => rfl, rfl, rfl, fun _ => rfl,
      by simp [State.init]⟩
  | @snoc t s l s₁ _ hstep ih =>
    obtain ⟨t', s', hrun', hlabels, hlag⟩ := ih
    obtain ⟨s₁', hstep', hlag'⟩ := hlag.step hstep
    refine ⟨_, s₁', hrun'.snoc hstep', ?_, hlag'⟩
    rw [List.map_append, List.map_append, hlabels]
    rfl

theorem cachedNonce_step (hstep : Step s l s') (hpc : (s.call c).pc ≠ .idle) :
    (s'.call c).cachedNonce = (s.call c).cachedNonce := by
  cases hstep with
  | acceptOther => rfl
  | load d h =>
    have hd : c ≠ d := by
      rintro rfl
      exact hpc h
    simp [update_of_ne hd]
  | report d | reply d | accept d | acknowledge d | fail d | store d =>
    by_cases hd : c = d
    · subst hd
      simp
    · simp [update_of_ne hd]

section

variable (hrun : Run t s)

include hrun

theorem cachedNonce_stable {s₀ : State C} (h : (s₀, l) ∈ t) (hpc : (s₀.call c).pc ≠ .idle) :
    (s.call c).pc ≠ .idle ∧ (s.call c).cachedNonce = (s₀.call c).cachedNonce := by
  induction hrun with
  | nil => cases h
  | @snoc t s l' s' _ hstep ih =>
    have hs : (s.call c).pc ≠ .idle ∧ (s.call c).cachedNonce = (s₀.call c).cachedNonce := by
      obtain h | h := List.mem_append.mp h
      · exact ih h
      · cases List.mem_singleton.mp h
        exact ⟨hpc, rfl⟩
    exact ⟨(pc_step hstep c).1.mpr (.inl hs.1), (cachedNonce_step hstep hs.1).trans hs.2⟩

theorem cachedNonce_of_load {s₀ : State C} (h : (s₀, .load c) ∈ t) :
    (s.call c).cachedNonce = s₀.cached := by
  induction hrun with
  | nil => cases h
  | @snoc t s l' s' hrun hstep ih =>
    obtain h | h := List.mem_append.mp h
    · have hpc : (s.call c).pc ≠ .idle :=
        ((trail_of_run hrun).load c).mp (List.mem_map_of_mem h)
      rw [cachedNonce_step hstep hpc]
      exact ih h
    · cases List.mem_singleton.mp h
      cases hstep with
      | load => simp

/-- If every acknowledged call uses what it has loaded, and they use different nonces, then
none of them loads the cache while another is between its load and its store. -/
theorem store_of_load {t₁ t₂ : List (State C × Label C)}
    (hused : ∀ c, .acknowledge c ∈ t.map Prod.snd → (s.call c).usedNonce = (s.call c).cachedNonce)
    (hdistinct : Distinct s) (ht : t = t₁ ++ (s₁, .load c') :: t₂)
    (hprev : SerialOn (fun c => .acknowledge c ∈ t.map Prod.snd) (t₁.map Prod.snd))
    (hc : .acknowledge c ∈ t.map Prod.snd) (hc' : .acknowledge c' ∈ t.map Prod.snd)
    (hload : .load c ∈ t₁.map Prod.snd) : .store c ∈ t₁.map Prod.snd := by
  by_contra hstore
  have hrun₁ : Run t₁ s₁ := hrun.before ht
  have htrail := trail_of_run hrun₁
  have hopen : (s₁.call c).pc.Open :=
    ⟨(htrail.load c).mp hload, fun h => hstore ((htrail.store c).mpr h)⟩
  have hexcl := exclusive_of_run hrun₁ hprev fun d hd => by
    rw [ht, List.map_append]
    exact List.mem_append_left _ hd
  have hmem : (s₁, Label.load c') ∈ t := by simp [ht]
  -- the second call finds in the cache what the first one has loaded
  have hsame : (s.call c).usedNonce = (s.call c').usedNonce := by
    rw [hused c hc, hused c' hc', (cachedNonce_stable hrun hmem hopen.1).2,
      cachedNonce_of_load hrun hmem]
    exact hexcl.cachedNonce c hc hopen
  have hpc := fun d => ((trail_of_run hrun).acknowledge d).mp
  obtain rfl := hdistinct c c' (hpc c hc) (hpc c' hc') hsame
  -- but a call loads only once
  obtain ⟨s₂, -, hstep⟩ := hrun.exists_next hmem
  cases hstep with
  | load _ h => exact hopen.1 h

theorem serial_of_distinct
    (hused : ∀ c, .acknowledge c ∈ t.map Prod.snd → (s.call c).usedNonce = (s.call c).cachedNonce)
    (hdistinct : Distinct s) : Serial (t.map Prod.snd) := by
  -- by induction on the part of the run that is looked at
  have hserial : ∀ t₁ t₂, t = t₁ ++ t₂ →
      SerialOn (fun c => .acknowledge c ∈ t.map Prod.snd) (t₁.map Prod.snd) := by
    intro t₁
    induction t₁ using List.reverseRecOn with
    | nil =>
      intro t₂ _ σ₁ c' σ₂ heq
      simp at heq
    | append_singleton t₁ p ih =>
      intro t₂ ht
      obtain ⟨s₁, l⟩ := p
      rw [List.append_assoc, List.singleton_append] at ht
      rw [List.map_append, List.map_singleton, serialOn_snoc]
      refine ⟨ih _ ht, ?_⟩
      rintro c' rfl hc' c hc hload
      exact store_of_load hrun hused hdistinct ht (ih _ ht) hc hc' hload
  exact hserial t [] (List.append_nil t).symm

/-- A schedule leads to different nonces for different acknowledged calls, whatever the node
reports, just if no acknowledged call loads the cache between the load and the store of
another. -/
theorem nonces_distinct_iff :
    (∀ t' s', Run t' s' → t'.map Prod.snd = t.map Prod.snd → Distinct s') ↔
      Serial (t.map Prod.snd) := by
  constructor
  · intro hall
    -- in the run with a lagging node every call uses what it has loaded
    obtain ⟨t', s', hrun', hlabels, hlag⟩ := exists_lagging hrun
    rw [← hlabels]
    refine serial_of_distinct hrun' (fun c hc => ?_) (hall t' s' hrun' hlabels)
    exact hlag.chosen c (.inr (.inr (((trail_of_run hrun').acknowledge c).mp hc)))
  · intro hserial t' s' hrun' hlabels
    exact distinct_of_serial hrun' (by rwa [hlabels])

end

section Examples

/-- Both calls load the empty cache and are told 0, so that both use the nonce 0. -/
theorem nonces_collide :
    ∃ (t : List (State Bool × Label Bool)) (s : State Bool), Run t s ∧
      (s.call true).pc = .acknowledged ∧ (s.call false).pc = .acknowledged ∧
      (s.call true).usedNonce = (s.call false).usedNonce := by
  have hroom : 0 + 1 < 2 ^ 64 := by decide
  have hroom' : 0 + 1 + 1 < 2 ^ 64 := by decide
  have hload : Run (C := Bool) _ _ := (Trace.Run.nil.snoc (.load true rfl)).snoc (.load false rfl)
  have hreport := (hload.snoc (.report true 0 rfl (Nat.le_refl _) (Nat.le_refl _))).snoc
    (.report false 0 rfl (Nat.le_refl _) (Nat.le_refl _))
  have hreply := (hreport.snoc (.reply true rfl)).snoc (.reply false rfl)
  have haccept := (hreply.snoc (.accept true rfl hroom)).snoc (.accept false rfl hroom')
  have hack := (haccept.snoc (.acknowledge true rfl)).snoc (.acknowledge false rfl)
  exact ⟨_, _, hack, rfl, rfl, rfl⟩

def turn (c : Bool) : List (Label Bool) :=
  [.load c, .report c, .reply c, .accept c, .acknowledge c, .store c]

/-- Two calls, the second after the first has stored its nonce. -/
theorem nonces_distinct_iff_example :
    ∃ (t : List (State Bool × Label Bool)) (s : State Bool), Run t s ∧
      t.map Prod.snd = turn true ++ turn false ∧
      ∀ t' s', Run t' s' → t'.map Prod.snd = t.map Prod.snd → Distinct s' := by
  have hreply : Run (C := Bool) _ _ := ((Trace.Run.nil.snoc (.load true rfl)).snoc
    (.report true 0 rfl (Nat.le_refl _) (Nat.le_refl _))).snoc (.reply true rfl)
  have hfirst := ((hreply.snoc (.accept true rfl (show 0 + 1 < 2 ^ 64 by decide))).snoc
    (.acknowledge true rfl)).snoc (.store true rfl)
  have hreply' := ((hfirst.snoc (.load false rfl)).snoc
    (.report false 0 rfl (Nat.le_refl _) (Nat.zero_le _))).snoc (.reply false rfl)
  have hrun := ((hreply'.snoc (.accept false rfl (show 0 + 1 + 1 < 2 ^ 64 by decide))).snoc
    (.acknowledge false rfl)).snoc (.store false rfl)
  have hturns (c c' : Bool) : ∀ n < 12, (turn true ++ turn false)[n]? = some (.load c') →
      .load c ∈ (turn true ++ turn false).take n →
        .store c ∈ (turn true ++ turn false).take n := by
    cases c <;> cases c' <;> decide
  refine ⟨_, _, hrun, rfl, (nonces_distinct_iff hrun).mpr ?_⟩
  intro σ₁ c' σ₂ heq _ c _ hload
  have heq : turn true ++ turn false = σ₁ ++ .load c' :: σ₂ := heq
  have hlen := congrArg List.length heq
  have hstore := hturns c c' σ₁.length (by simp [turn] at hlen; omega)
  rw [heq, List.take_left] at hstore
  exact hstore (by simp) hload

end Examples

end MetaNode.NonceCache
