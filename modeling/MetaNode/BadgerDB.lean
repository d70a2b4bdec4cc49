/-
One BadgerDB instance with its idle manager (`pkg/storage/badgerdb.go`).

A goroutine of the instance, `manageIdle`, waits for the idle timeout or for a signal on
`closeChan`; after the timeout it looks, under the mutex, whether the instance is idle and
then closes it.  `Close` takes the mutex and, holding it, sends on the unbuffered channel.
`cleanupInstances` closes the instance when it finds it idle and forgets it.  Every
database operation takes the mutex for a moment (`updateLastActive`).

The processes take turns in any order (`Step`), any number of callers among them; each
call is one process.  What BadgerDB itself does ends.

* `locked_of_reachable` — a process holds the mutex exactly in the phases that lock it;
* `JammedBy.blocked` — a `Close` that sends while the manager does not come back to listen is
  blocked forever, and so is every call that waits for the mutex.
-/
import Mathlib.Data.Nat.Notation
import Mathlib.Logic.Function.Basic
import MetaNode.Blocking

namespace MetaNode.BadgerDB

open Relation

inductive CallKind where
  | operation
  | close
  deriving DecidableEq

inductive Proc (Call : Type) where
  /-- `manageIdle` -/
  | manager
  /-- `cleanupInstances` -/
  | cleanup
  | caller (c : Call)
  deriving DecidableEq

inductive CallPhase where
  | idle
  /-- In `mu.Lock()`. -/
  | locking
  /-- An operation that sets `lastActive`. -/
  | updating
  /-- An operation that has released the mutex. -/
  | running
  /-- A `Close` at `closeChan <- true`. -/
  | sending
  /-- A `Close` in `db.db.Close()`. -/
  | closing
  | returned
  deriving DecidableEq

def CallPhase.holds : CallPhase → Bool
  | updating => true
  | sending => true
  | closing => true
  | idle => false
  | locking => false
  | running => false
  | returned => false

/-- Where `manageIdle` stands. -/
inductive ManagerPhase where
  | looping
  /-- In the `select`, with a timer since the given time. -/
  | listening (since : ℕ)
  /-- The timer has fired; in `mu.Lock()`. -/
  | fired
  | checking
  /-- In `Close`. -/
  | calling
  | stopped
  deriving DecidableEq

structure State (Call : Type) where
  now : ℕ
  lastActive : ℕ
  mu : Option (Proc Call)
  manager : ManagerPhase
  phase : Proc Call → CallPhase

variable {Call : Type} [DecidableEq Call]

/-- As `GetOrCreate` leaves it. -/
def State.init : State Call := ⟨0, 0, none, .looping, fun _ => .idle⟩

def State.setPhase (s : State Call) (p : Proc Call) (phase : CallPhase) : State Call :=
  { s with phase := Function.update s.phase p phase }

def kindOf (kind : Call → CallKind) : Proc Call → CallKind
  | .manager => .close
  | .cleanup => .close
  | .caller c => kind c

/-- What follows `mu.Lock()`. -/
def afterLock : CallKind → CallPhase
  | .operation => .updating
  | .close => .sending

inductive Step (idleTimeout : ℕ) (kind : Call → CallKind) (s : State Call) : State Call → Prop
  | tick : Step idleTimeout kind s { s with now := s.now + 1 }
  | start (c : Call) (h : s.phase (.caller c) = .idle) :
      Step idleTimeout kind s (s.setPhase (.caller c) .locking)
  | cleanup (h : s.phase .cleanup = .idle) (hidle : s.lastActive + idleTimeout ≤ s.now) :
      Step idleTimeout kind s (s.setPhase .cleanup .locking)
  | lock (p : Proc Call) (h : s.phase p = .locking) (hmu : s.mu = none) :
      Step idleTimeout kind s
        { s.setPhase p (afterLock (kindOf kind p)) with mu := some p }
  | update (p : Proc Call) (h : s.phase p = .updating) :
      Step idleTimeout kind s { s.setPhase p .running with mu := none, lastActive := s.now }
  | finish (p : Proc Call) (h : s.phase p = .running) :
      Step idleTimeout kind s (s.setPhase p .returned)
  | send (p : Proc Call) (since : ℕ) (h : s.phase p = .sending)
      (hlisten : s.manager = .listening since) :
      Step idleTimeout kind s { s.setPhase p .closing with manager := .stopped }
  | close (p : Proc Call) (h : s.phase p = .closing) :
      Step idleTimeout kind s { s.setPhase p .returned with mu := none }
  | select (h : s.manager = .looping) :
      Step idleTimeout kind s { s with manager := .listening s.now }
  | fire (since : ℕ) (h : s.manager = .listening since) (htime : since + idleTimeout ≤ s.now) :
      Step idleTimeout kind s { s with manager := .fired }
  | check (h : s.manager = .fired) (hmu : s.mu = none) :
      Step idleTimeout kind s { s with manager := .checking, mu := some .manager }
  | active (h : s.manager = .checking) (hidle : ¬ s.lastActive + idleTimeout ≤ s.now) :
      Step idleTimeout kind s { s with manager := .looping, mu := none }
  | closeIdle (h : s.manager = .checking) (hidle : s.lastActive + idleTimeout ≤ s.now) :
      Step idleTimeout kind s
        { s.setPhase .manager .locking with manager := .calling, mu := none }

variable {idleTimeout : ℕ} {kind : Call → CallKind} {s s' : State Call}

abbrev Reachable (idleTimeout : ℕ) (kind : Call → CallKind) : State Call → Prop :=
  ReflTransGen (Step idleTimeout kind) State.init

def InCall (s : State Call) (p : Proc Call) : Prop := s.phase p ≠ .idle ∧ s.phase p ≠ .returned

/-- The call takes no further step, whatever the others do. -/
def Blocked (idleTimeout : ℕ) (kind : Call → CallKind) (s : State Call) (p : Proc Call) : Prop :=
  Blocking.Blocked (Step idleTimeout kind) (fun s => s.phase p) s

/-- The manager does not come back to its `select` before it has the mutex. -/
def ManagerPhase.away : ManagerPhase → Bool
  | fired => true
  | calling => true
  | stopped => true
  | looping => false
  | listening _ => false
  | checking => false

/-- A `Close` holds the mutex and sends to nobody. -/
def Jammed (s : State Call) : Prop := s.manager.away ∧ ∃ p, s.phase p = .sending

/-! ### The mutex -/

/-- The process is between `Lock` and `Unlock`. -/
def Holds (s : State Call) (p : Proc Call) : Prop :=
  (s.phase p).holds ∨ p = .manager ∧ s.manager = .checking

/-- The mutex says who holds it; the manager makes no call but its last one. -/
structure Locked (s : State Call) : Prop where
  holds_iff : ∀ p, Holds s p ↔ s.mu = some p
  manager_idle : s.phase .manager = .idle ∨ s.manager = .calling

variable {p : Proc Call}

omit [DecidableEq Call] in
theorem Locked.mu_eq (h : Locked s) (hp : (s.phase p).holds) : s.mu = some p :=
  (h.holds_iff p).mp (.inl hp)

omit [DecidableEq Call] in
theorem Locked.idle_of_manager (h : Locked s) {m : ManagerPhase} (hmanager : s.manager = m)
    (hm : m ≠ .calling) : s.phase .manager = .idle :=
  h.manager_idle.resolve_right fun hcalling => hm (hmanager.symm.trans hcalling)

omit [DecidableEq Call] in
theorem Locked.checking (h : Locked s) (hmanager : s.manager = .checking) :
    s.mu = some .manager ∧ s.phase .manager = .idle :=
  ⟨(h.holds_iff .manager).mp (.inr ⟨rfl, hmanager⟩), h.idle_of_manager hmanager (by decide)⟩

section Mutex

omit [DecidableEq Call]

theorem holds_iff_of_same (h : Locked s) (hsame : ∀ q, Holds s' q ↔ Holds s q)
    (hmu : s'.mu = s.mu) (q : Proc Call) : Holds s' q ↔ s'.mu = some q := by
  rw [hsame, hmu, h.holds_iff]

theorem holds_iff_of_lock (h : Locked s) (hfree : s.mu = none) (hp : Holds s' p)
    (hothers : ∀ q, q ≠ p → (Holds s' q ↔ Holds s q)) (hmu : s'.mu = some p) (q : Proc Call) :
    Holds s' q ↔ s'.mu = some q := by
  rw [hmu, Option.some.injEq]
  by_cases hq : q = p
  · rw [hq]
    exact iff_of_true hp rfl
  · rw [hothers q hq, h.holds_iff, hfree]
    exact iff_of_false (Option.some_ne_none q).symm (Ne.symm hq)

theorem holds_iff_of_unlock (h : Locked s) (hheld : Holds s p) (hp : ¬ Holds s' p)
    (hothers : ∀ q, q ≠ p → (Holds s' q ↔ Holds s q)) (hmu : s'.mu = none) (q : Proc Call) :
    Holds s' q ↔ s'.mu = some q := by
  rw [hmu]
  refine iff_of_false (fun hq => ?_) (Option.some_ne_none q).symm
  by_cases hqp : q = p
  · exact hp (hqp ▸ hq)
  · rw [hothers q hqp, h.holds_iff, (h.holds_iff p).mp hheld, Option.some.injEq] at hq
    exact hqp hq.symm

end Mutex

@[simp] theorem phase_setPhase_self (s : State Call) (p : Proc Call) (phase : CallPhase) :
    (s.setPhase p phase).phase p = phase := Function.update_self ..

variable {p q : Proc Call}

theorem phase_setPhase_of_ne (h : q ≠ p) (s : State Call) (phase : CallPhase) :
    (s.setPhase p phase).phase q = s.phase q := Function.update_of_ne h ..

theorem holds_setPhase_of_ne (h : q ≠ p) (s : State Call) (phase : CallPhase) :
    Holds (s.setPhase p phase) q ↔ Holds s q := by
  rw [Holds, phase_setPhase_of_ne h]
  rfl

theorem holds_setPhase {phase : CallPhase} (h : phase.holds = (s.phase p).holds) (q : Proc Call) :
    Holds (s.setPhase p phase) q ↔ Holds s q := by
  by_cases hq : q = p
  · rw [Holds, hq, phase_setPhase_self, h]
    rfl
  · exact holds_setPhase_of_ne hq s phase

omit [DecidableEq Call] in
theorem holds_iff_of_ne_manager (h : p ≠ .manager) : Holds s p ↔ (s.phase p).holds :=
  or_iff_left fun hp => h hp.1

omit [DecidableEq Call] in
theorem holds_setManager {m : ManagerPhase} (hs : s.manager ≠ .checking) (hm : m ≠ .checking)
    (q : Proc Call) : Holds { s with manager := m } q ↔ Holds s q :=
  or_congr_right (iff_of_false (fun h => hm h.2) (fun h => hs h.2))

variable {old new : CallPhase}

section

variable (h : Locked s)

include h

theorem Locked.not_holds_setPhase (hp : s.phase p = old)
    (hold : old ≠ .idle) (hnew : new.holds = false) : ¬ Holds (s.setPhase p new) p := by
  rw [Holds, phase_setPhase_self, hnew]
  rintro (hholds | ⟨rfl, hchecking⟩)
  · cases hholds
  · exact hold (hp.symm.trans (h.checking hchecking).2)

theorem Locked.manager_idle_setPhase (hp : s.phase p = .idle → p ≠ .manager) :
    (s.setPhase p new).phase .manager = .idle ∨ s.manager = .calling := by
  by_cases hmanager : p = .manager
  · refine .inr (h.manager_idle.resolve_left fun hidle => ?_)
    exact hp (hmanager ▸ hidle) hmanager
  · rw [phase_setPhase_of_ne (Ne.symm hmanager)]
    exact h.manager_idle

theorem Locked.manager_idle_of_phase (hp : s.phase p = old)
    (hold : old ≠ .idle) : (s.setPhase p new).phase .manager = .idle ∨ s.manager = .calling :=
  h.manager_idle_setPhase fun hidle => absurd (hp.symm.trans hidle) hold

theorem Locked.unlock (hp : s.phase p = old) (hold : old.holds) (hnew : new.holds = false) (t : ℕ) :
    Locked { s.setPhase p new with mu := none, lastActive := t } := by
  have hidle : old ≠ .idle := by
    rintro rfl
    cases hold
  exact ⟨holds_iff_of_unlock h (.inl (hp ▸ hold)) (h.not_holds_setPhase hp hidle hnew)
    (fun q hq => holds_setPhase_of_ne hq s new) rfl, h.manager_idle_of_phase hp hidle⟩

theorem Locked.step (hstep : Step idleTimeout kind s s') : Locked s' := by
  cases hstep with
  | tick => exact ⟨h.holds_iff, h.manager_idle⟩
  | start c hidle =>
    have hne : Proc.caller c ≠ .manager := by simp
    exact ⟨holds_iff_of_same h (holds_setPhase (by rw [hidle]; rfl)) rfl,
      h.manager_idle_setPhase fun _ => hne⟩
  | cleanup hidle =>
    have hne : (Proc.cleanup : Proc Call) ≠ .manager := by simp
    exact ⟨holds_iff_of_same h (holds_setPhase (by rw [hidle]; rfl)) rfl,
      h.manager_idle_setPhase fun _ => hne⟩
  | lock p hp hmu =>
    have hholds : ((s.setPhase p (afterLock (kindOf kind p))).phase p).holds := by
      rw [phase_setPhase_self]
      cases kindOf kind p <;> rfl
    exact ⟨holds_iff_of_lock h hmu (.inl hholds) (fun q hq => holds_setPhase_of_ne hq s _) rfl,
      h.manager_idle_of_phase hp (by decide)⟩
  | update p hp => exact h.unlock hp rfl rfl s.now
  | finish p hp =>
    exact ⟨holds_iff_of_same h (holds_setPhase (by rw [hp]; rfl)) rfl,
      h.manager_idle_of_phase hp (by decide)⟩
  | send p since hp hlisten =>
    have hsame : ∀ q, Holds (s.setPhase p .closing) q ↔ Holds s q :=
      holds_setPhase (by rw [hp]; rfl)
    have hidle : (s.setPhase p .closing).phase .manager = .idle := by
      refine (h.manager_idle_of_phase hp (by decide)).resolve_right ?_
      rw [hlisten]
      simp
    refine ⟨holds_iff_of_same h (fun q => (holds_setManager ?_ ?_ q).trans (hsame q)) rfl,
      .inl hidle⟩
    · show s.manager ≠ .checking
      rw [hlisten]
      simp
    · decide
  | close p hp => exact h.unlock hp rfl rfl s.lastActive
  | select hlooping =>
    have hidle := h.idle_of_manager hlooping (by decide)
    refine ⟨holds_iff_of_same h (holds_setManager ?_ ?_) rfl, .inl hidle⟩
    · rw [hlooping]
      decide
    · simp
  | fire since hlisten =>
    have hidle := h.idle_of_manager hlisten (by simp)
    refine ⟨holds_iff_of_same h (holds_setManager ?_ (by decide)) rfl, .inl hidle⟩
    rw [hlisten]
    simp
  | check hfired hmu =>
    have hidle := h.idle_of_manager hfired (by decide)
    refine ⟨holds_iff_of_lock h hmu (.inr ⟨rfl, rfl⟩) (fun q hq => ?_) rfl, .inl hidle⟩
    rw [holds_iff_of_ne_manager hq, holds_iff_of_ne_manager hq]
  | active hchecking =>
    obtain ⟨-, hidle⟩ := h.checking hchecking
    refine ⟨holds_iff_of_unlock h (.inr ⟨rfl, hchecking⟩) ?_ (fun q hq => ?_) rfl, .inl hidle⟩
    · rintro (hholds | ⟨-, heq⟩)
      · rw [hidle] at hholds
        cases hholds
      · cases heq
    · rw [holds_iff_of_ne_manager hq, holds_iff_of_ne_manager hq]
  | closeIdle hchecking =>
    refine ⟨holds_iff_of_unlock h (.inr ⟨rfl, hchecking⟩) ?_ (fun q hq => ?_) rfl, .inr rfl⟩
    · rintro (hholds | ⟨-, heq⟩)
      · rw [phase_setPhase_self] at hholds
        cases hholds
      · cases heq
    · rw [holds_iff_of_ne_manager hq, holds_iff_of_ne_manager hq, phase_setPhase_of_ne hq]

end

theorem locked_of_reachable (hs : Reachable idleTimeout kind s) : Locked s := by
  refine Blocking.invariant (I := Locked) (fun s s' h hstep => h.step hstep) hs
    ⟨fun p => ?_, .inl rfl⟩
  refine iff_of_false ?_ (Option.some_ne_none p).symm
  rintro (hholds | ⟨-, heq⟩)
  · cases hholds
  · cases heq

/-! ### Blocked for good -/

/-- The process sends, holding the mutex, and nobody will listen. -/
structure JammedBy (s : State Call) (p : Proc Call) : Prop where
  locked : Locked s
  sending : s.phase p = .sending
  away : s.manager.away

omit [DecidableEq Call] in
theorem JammedBy.mu_eq (h : JammedBy s p) : s.mu = some p :=
  h.locked.mu_eq (by rw [h.sending]; rfl)

omit [DecidableEq Call] in
theorem JammedBy.sending_of_holds (h : JammedBy s p) (hq : (s.phase q).holds) :
    s.phase q = .sending := by
  have hmu := h.locked.mu_eq hq
  rw [h.mu_eq, Option.some.injEq] at hmu
  rw [← hmu, h.sending]

omit [DecidableEq Call] in
theorem inCall_of_waiting (h : s.phase p = .sending ∨ s.phase p = .locking) : InCall s p := by
  rcases h with h | h
  · rw [InCall, h]
    decide
  · rw [InCall, h]
    decide

theorem JammedBy.step (h : JammedBy s p) (hstep : Step idleTimeout kind s s')
    (hq : s.phase q = .sending ∨ s.phase q = .locking) :
    JammedBy s' p ∧ s'.phase q = s.phase q := by
  have haway := h.away
  have hmu := h.mu_eq
  -- Another call that moves is neither the one that sends nor one that waits.
  have hother : ∀ {r : Proc Call} {old new : CallPhase}, s.phase r = old → old ≠ .sending →
      old ≠ .locking →
      (s.setPhase r new).phase p = .sending ∧ (s.setPhase r new).phase q = s.phase q := by
    intro r old new hr hsending hlocking
    have hp : p ≠ r := by
      rintro rfl
      exact hsending (hr.symm.trans h.sending)
    have hqr : q ≠ r := by
      rintro rfl
      rcases hq with hq | hq
      · exact hsending (hr.symm.trans hq)
      · exact hlocking (hr.symm.trans hq)
    rw [phase_setPhase_of_ne hp, phase_setPhase_of_ne hqr]
    exact ⟨h.sending, rfl⟩
  have hlocked := h.locked.step hstep
  cases hstep with
  | tick => exact ⟨⟨hlocked, h.sending, haway⟩, rfl⟩
  | start c hc | cleanup hc =>
    obtain ⟨hp, hsame⟩ := hother hc (by decide) (by decide)
    exact ⟨⟨hlocked, hp, haway⟩, hsame⟩
  | lock r hr hfree | check hfired hfree =>
    rw [hmu] at hfree
    cases hfree
  | update r hr | close r hr =>
    have hsending := h.sending_of_holds (q := r) (by rw [hr]; rfl)
    rw [hr] at hsending
    cases hsending
  | finish r hr =>
    obtain ⟨hp, hsame⟩ := hother hr (by decide) (by decide)
    exact ⟨⟨hlocked, hp, haway⟩, hsame⟩
  | send r since hr hlisten | fire since hlisten =>
    rw [hlisten] at haway
    cases haway
  | select hlooping =>
    rw [hlooping] at haway
    cases haway
  | active hchecking | closeIdle hchecking =>
    rw [hchecking] at haway
    cases haway

theorem JammedBy.blocked (h : JammedBy s p)
    (hq : s.phase q = .sending ∨ s.phase q = .locking) : Blocked idleTimeout kind s q := by
  refine Blocking.blocked_of_stable
    (I := fun s => JammedBy s p ∧ (s.phase q = .sending ∨ s.phase q = .locking)) ?_ ⟨h, hq⟩
  rintro s₁ s₂ ⟨h₁, hq₁⟩ hstep
  obtain ⟨h₂, hsame⟩ := h₁.step hstep hq₁
  exact ⟨⟨h₂, by rwa [hsame]⟩, hsame⟩

/-! ### Going on -/

theorem exists_send (h : Locked s) (hjam : ¬ Jammed s) (hp : s.phase p = .sending) :
    ∃ s', ReflTransGen (Step idleTimeout kind) s s' ∧ s'.phase p = .closing ∧
      ∀ q, q ≠ p → s'.phase q = s.phase q := by
  have haway : ¬ s.manager.away := fun haway => hjam ⟨haway, p, hp⟩
  cases hmanager : s.manager with
  | looping =>
    have hselect : Step idleTimeout kind s _ := .select hmanager
    have hsend : Step idleTimeout kind { s with manager := .listening s.now } _ :=
      .send p s.now hp rfl
    refine ⟨_, (ReflTransGen.single hselect).tail hsend, ?_, fun q hq => ?_⟩
    · exact phase_setPhase_self _ p _
    · exact phase_setPhase_of_ne hq _ _
  | listening since =>
    have hsend : Step idleTimeout kind s _ := .send p since hp hmanager
    refine ⟨_, .single hsend, ?_, fun q hq => ?_⟩
    · exact phase_setPhase_self _ p _
    · exact phase_setPhase_of_ne hq _ _
  | checking =>
    -- The manager holds the mutex, so that no `Close` does.
    obtain ⟨hmu, hidle⟩ := h.checking hmanager
    have hp' := h.mu_eq (p := p) (by rw [hp]; rfl)
    rw [hmu, Option.some.injEq] at hp'
    rw [← hp', hidle] at hp
    cases hp
  | fired | calling | stopped => exact absurd (by rw [hmanager]; rfl) haway

theorem exists_free (h : Locked s) (hjam : ¬ Jammed s) :
    ∃ s', ReflTransGen (Step idleTimeout kind) s s' ∧ s'.mu = none ∧
      ∀ q, s.phase q = .locking → s'.phase q = .locking := by
  cases hmu : s.mu with
  | none => exact ⟨s, .refl, hmu, fun q hq => hq⟩
  | some p =>
    -- A call that waits is not the one that holds the mutex.
    have hwaits : ∀ {q : Proc Call}, s.phase p ≠ .locking → s.phase q = .locking → q ≠ p := by
      rintro q hp hq rfl
      exact hp hq
    rcases (h.holds_iff p).mpr hmu with hholds | ⟨rfl, hchecking⟩
    · cases hp : s.phase p with
      | updating =>
        refine ⟨_, .single (.update p hp), rfl, fun q hq => ?_⟩
        exact (phase_setPhase_of_ne (hwaits (by rw [hp]; decide) hq) s _).trans hq
      | sending =>
        obtain ⟨s₁, hrun, hp₁, hothers⟩ := exists_send h hjam hp
        refine ⟨_, hrun.tail (.close p hp₁), rfl, fun q hq => ?_⟩
        have hne : q ≠ p := hwaits (by rw [hp]; decide) hq
        exact ((phase_setPhase_of_ne hne s₁ _).trans (hothers q hne)).trans hq
      | closing =>
        refine ⟨_, .single (.close p hp), rfl, fun q hq => ?_⟩
        exact (phase_setPhase_of_ne (hwaits (by rw [hp]; decide) hq) s _).trans hq
      | idle | locking | running | returned => simp [hp, CallPhase.holds] at hholds
    · have hidle := (h.checking hchecking).2
      by_cases hlong : s.lastActive + idleTimeout ≤ s.now
      · refine ⟨_, .single (.closeIdle hchecking hlong), rfl, fun q hq => ?_⟩
        exact (phase_setPhase_of_ne (hwaits (by rw [hidle]; decide) hq) s _).trans hq
      · exact ⟨_, .single (.active hchecking hlong), rfl, fun q hq => hq⟩

theorem not_blocked_of_not_jammed (h : Locked s) (hjam : ¬ Jammed s)
    (hp : InCall s p) : ¬ Blocked idleTimeout kind s p := by
  cases hphase : s.phase p with
  | idle => exact absurd hphase hp.1
  | returned => exact absurd hphase hp.2
  | locking =>
    obtain ⟨s₁, hrun, hfree, hwaits⟩ := exists_free h hjam
    refine Blocking.not_blocked (hrun.tail (.lock p (hwaits p hphase) hfree)) ?_
    show (s₁.setPhase p (afterLock (kindOf kind p))).phase p ≠ s.phase p
    rw [phase_setPhase_self, hphase]
    cases kindOf kind p <;> decide
  | updating => exact Blocking.not_blocked (.single (.update p hphase)) (by simp [hphase])
  | running => exact Blocking.not_blocked (.single (.finish p hphase)) (by simp [hphase])
  | sending =>
    obtain ⟨s₁, hrun, hclosing, -⟩ := exists_send h hjam hphase
    refine Blocking.not_blocked hrun ?_
    rw [hclosing, hphase]
    decide
  | closing => exact Blocking.not_blocked (.single (.close p hphase)) (by simp [hphase])

/-- **No call is blocked forever exactly without a jam.**  In every reachable state of every
interleaving, each `Close` and each operation that has begun can go on, if and only if no
`Close` sends while the manager has left its `select` for good or waits for the mutex. -/
theorem no_call_blocked_iff (hs : Reachable idleTimeout kind s) :
    (∀ p, InCall s p → ¬ Blocked idleTimeout kind s p) ↔ ¬ Jammed s := by
  have hlocked := locked_of_reachable hs
  constructor
  · rintro h ⟨haway, p, hp⟩
    exact h p (inCall_of_waiting (.inl hp)) (JammedBy.blocked ⟨hlocked, hp, haway⟩ (.inl hp))
  · intro hjam p hp
    exact not_blocked_of_not_jammed hlocked hjam hp

/-- A `Close` that has begun while the manager listens. -/
theorem no_call_blocked_started :
    let s : State Unit := State.init.setPhase (.caller ()) .locking
    Reachable 1 (fun _ => .close) s ∧ InCall s (.caller ()) ∧
      ∀ p, InCall s p → ¬ Blocked 1 (fun _ => .close) s p := by
  intro s
  have hs : Reachable 1 (fun _ => .close) s := .single (.start () rfl)
  refine ⟨hs, inCall_of_waiting (.inr rfl), (no_call_blocked_iff hs).mpr ?_⟩
  rintro ⟨haway, -⟩
  cases haway

/-- The manager finds the instance idle, calls `Close` itself and sends to itself; an
operation that begins then waits for the mutex forever. -/
theorem idle_manager_blocks : ∃ s : State Unit, Reachable 1 (fun _ => .operation) s ∧
    InCall s .manager ∧ Blocked 1 (fun _ => .operation) s .manager ∧
    InCall s (.caller ()) ∧ Blocked 1 (fun _ => .operation) s (.caller ()) := by
  have h₁ : Reachable 1 (fun _ : Unit => .operation) _ := .tail .refl (.select rfl)
  have h₂ := h₁.tail .tick
  have h₃ := h₂.tail (.fire 0 rfl (by decide))
  have h₄ := h₃.tail (.check rfl rfl)
  have h₅ := h₄.tail (.closeIdle rfl (by decide))
  have h₆ := h₅.tail (.lock .manager rfl rfl)
  have h₇ := h₆.tail (.start () rfl)
  have hjam : JammedBy _ .manager := ⟨locked_of_reachable h₇, rfl, rfl⟩
  exact ⟨_, h₇, inCall_of_waiting (.inl rfl), hjam.blocked (.inl rfl),
    inCall_of_waiting (.inr rfl), hjam.blocked (.inr rfl)⟩

end MetaNode.BadgerDB
