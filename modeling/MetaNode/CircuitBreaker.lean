/-
The circuit breaker of `pkg/network/circuit_breaker.go`.

All calls hold the mutex from beginning to end, so an interleaving of calls is a sequence
of them, each at a time of its own (`CircuitBreakerOp`).  `CanExecute` lets a call pass in
two branches that lead to or stay in `HALF_OPEN`, and only the second of them counts.
-/
import Mathlib.Algebra.Group.Int.Defs
import Mathlib.Data.List.Infix
import MetaNode.Machine

namespace MetaNode

inductive CircuitBreakerState where
  | stateClosed
  | stateOpen
  | stateHalfOpen
  deriving DecidableEq

/-- The settings that the calls read; durations are in nanoseconds. -/
structure CircuitBreakerConfig where
  maxFailures : Int64
  maxRequests : Int64
  timeout : Int64

/-- `DefaultCircuitBreakerConfig` -/
def CircuitBreakerConfig.default : CircuitBreakerConfig := ⟨10, 5, 60 * 1000000000⟩

structure CircuitBreaker where
  config : CircuitBreakerConfig
  state : CircuitBreakerState
  failures : Int64
  requests : Int64
  lastFailureTime : Option ℤ
  lastSuccessTime : Option ℤ
  totalRequests : Int64
  totalFailures : Int64
  totalSuccesses : Int64
  totalRejected : Int64

/-- `time.Since` in nanoseconds, which stops at the ends of its range; a time that was
never set is too long ago. -/
def timeSince (now : ℤ) : Option ℤ → ℤ
  | none => 2 ^ 63 - 1
  | some t => max (-2 ^ 63) (min (now - t) (2 ^ 63 - 1))

namespace CircuitBreaker

/-- `NewCircuitBreaker` -/
def new (config : Option CircuitBreakerConfig) : CircuitBreaker where
  config := config.getD .default
  state := .stateClosed
  failures := 0
  requests := 0
  lastFailureTime := none
  lastSuccessTime := none
  totalRequests := 0
  totalFailures := 0
  totalSuccesses := 0
  totalRejected := 0

variable (cb : CircuitBreaker)

def canExecute (now : ℤ) : Bool × CircuitBreaker :=
  let cb := { cb with totalRequests := cb.totalRequests + 1 }
  match cb.state with
  | .stateClosed => (true, cb)
  | .stateOpen =>
    if timeSince now cb.lastFailureTime > cb.config.timeout.toInt then
      -- this call is not counted
      (true, { cb with state := .stateHalfOpen, requests := 0 })
    else (false, { cb with totalRejected := cb.totalRejected + 1 })
  | .stateHalfOpen =>
    if cb.requests ≥ cb.config.maxRequests then
      (false, { cb with totalRejected := cb.totalRejected + 1 })
    else (true, { cb with requests := cb.requests + 1 })

def recordSuccess (now : ℤ) : CircuitBreaker :=
  let cb := { cb with totalSuccesses := cb.totalSuccesses + 1, lastSuccessTime := some now }
  match cb.state with
  | .stateHalfOpen =>
    if cb.requests ≥ cb.config.maxRequests then
      { cb with state := .stateClosed, failures := 0, requests := 0 }
    else cb
  | .stateClosed => { cb with failures := 0 }
  | .stateOpen => cb

def recordFailure (now : ℤ) : CircuitBreaker :=
  let cb := { cb with
    totalFailures := cb.totalFailures + 1
    failures := cb.failures + 1
    lastFailureTime := some now }
  match cb.state with
  | .stateClosed =>
    if cb.failures ≥ cb.config.maxFailures then { cb with state := .stateOpen } else cb
  | .stateHalfOpen => { cb with state := .stateOpen, requests := 0 }
  | .stateOpen => cb

def reset : CircuitBreaker :=
  { cb with state := .stateClosed, failures := 0, requests := 0 }

end CircuitBreaker

inductive CircuitBreakerOp where
  | canExecute (now : ℤ)
  | recordSuccess (now : ℤ)
  | recordFailure (now : ℤ)
  | reset

/-- A call of `CanExecute`. -/
def CircuitBreakerOp.executes : CircuitBreakerOp → Bool
  | .canExecute _ => true
  | _ => false

namespace CircuitBreaker

def step (cb : CircuitBreaker) : CircuitBreakerOp → CircuitBreaker
  | .canExecute now => (cb.canExecute now).2
  | .recordSuccess now => cb.recordSuccess now
  | .recordFailure now => cb.recordFailure now
  | .reset => cb.reset

/-- The call is a `CanExecute` that returns true. -/
def passes (cb : CircuitBreaker) : CircuitBreakerOp → Bool
  | .canExecute now => (cb.canExecute now).1
  | _ => false

def run (config : Option CircuitBreakerConfig) (ops : List CircuitBreakerOp) : CircuitBreaker :=
  Machine.run step (new config) ops

/-- How many of the calls are a `CanExecute` that returns true. -/
def passed (cb : CircuitBreaker) : List CircuitBreakerOp → ℕ
  | [] => 0
  | op :: ops => (if cb.passes op then 1 else 0) + passed (cb.step op) ops

/-! ### `HALF_OPEN` -/

/-- A stay in `HALF_OPEN`: `entry` leads there, and none of the calls `during` leads out. -/
structure Stay (config : Option CircuitBreakerConfig) (before : List CircuitBreakerOp)
    (entry : CircuitBreakerOp) (during : List CircuitBreakerOp) : Prop where
  outside : (run config before).state ≠ .stateHalfOpen
  inside : ∀ part, part <+: during →
    (run config (before ++ entry :: part)).state = .stateHalfOpen

variable {cb : CircuitBreaker} {op : CircuitBreakerOp} {ops : List CircuitBreakerOp}
  {config : Option CircuitBreakerConfig}

@[simp] theorem step_config : (cb.step op).config = cb.config := by
  cases op with
  | canExecute now =>
    rw [step, canExecute]
    split
    · rfl
    · split <;> rfl
    · split <;> rfl
  | recordSuccess now =>
    rw [step, recordSuccess]
    split
    · split <;> rfl
    · rfl
    · rfl
  | recordFailure now =>
    rw [step, recordFailure]
    split
    · split <;> rfl
    · rfl
    · rfl
  | reset => rfl

@[simp] theorem run_config : (run config ops).config = config.getD .default := by
  have hkeep : ∀ cb op, cb.config = config.getD .default → True →
      (step cb op).config = config.getD .default := by
    intro cb op hcb _
    rw [step_config, hcb]
  exact Machine.run_keeps hkeep (fun _ _ => trivial) rfl

theorem run_append_cons (before after : List CircuitBreakerOp) :
    run config (before ++ op :: after)
      = Machine.run step ((run config before).step op) after := by
  rw [run, Machine.run_append, Machine.run_cons, run]

theorem toInt_add_one {n bound : Int64} (h : n < bound) : (n + 1).toInt = n.toInt + 1 := by
  have hlt := Int64.lt_iff_toInt_lt.mp h
  have hle := Int64.toInt_lt bound
  have hge := Int64.le_toInt n
  rw [Int64.toInt_add]
  exact Int.bmod_eq_of_le (by simp; omega) (by simp; omega)

theorem step_enters (hcb : cb.state ≠ .stateHalfOpen)
    (hstep : (cb.step op).state = .stateHalfOpen) :
    cb.passes op = true ∧ (cb.step op).requests = 0 := by
  cases op with
  | canExecute =>
    rw [step, canExecute] at hstep ⊢
    rw [passes, canExecute]
    cases hstate : cb.state with
    | stateClosed => simp [hstate] at hstep
    | stateOpen =>
      simp only [hstate] at hstep ⊢
      split at hstep
      · next htime => simp [htime]
      · exact absurd hstep (by simp)
    | stateHalfOpen => exact absurd hstate hcb
  | recordSuccess =>
    rw [step, recordSuccess] at hstep
    cases hstate : cb.state with
    | stateHalfOpen => exact absurd hstate hcb
    | _ => simp [hstate] at hstep
  | recordFailure =>
    rw [step, recordFailure] at hstep
    cases hstate : cb.state with
    | stateHalfOpen => exact absurd hstate hcb
    | stateOpen => simp [hstate] at hstep
    | stateClosed =>
      simp only [hstate] at hstep
      split at hstep
      · cases hstep
      · simp at hstep
  | reset => cases hstep

theorem step_stays (hcb : cb.state = .stateHalfOpen)
    (hstep : (cb.step op).state = .stateHalfOpen) :
    (cb.step op).requests.toInt = cb.requests.toInt + if cb.passes op then 1 else 0 := by
  cases op with
  | canExecute =>
    rw [step, passes, canExecute]
    simp only [hcb]
    split
    · simp
    · next hless => simp [toInt_add_one (Int64.not_le.mp hless)]
  | recordSuccess =>
    rw [step, recordSuccess] at hstep ⊢
    simp only [hcb] at hstep ⊢
    split at hstep
    · cases hstep
    · next hless => simp [hless, passes]
  | recordFailure =>
    rw [step, recordFailure] at hstep
    simp [hcb] at hstep
  | reset => cases hstep

theorem inside_cons {rest : List CircuitBreakerOp} (hcb : ∀ part, part <+: op :: rest →
      (Machine.run step cb part).state = .stateHalfOpen) :
    cb.state = .stateHalfOpen ∧ (cb.step op).state = .stateHalfOpen ∧
      ∀ part, part <+: rest →
        (Machine.run step (cb.step op) part).state = .stateHalfOpen := by
  refine ⟨hcb [] List.nil_prefix, hcb [op] ?_, fun part hpart => hcb (op :: part) ?_⟩
  · exact (List.prefix_cons_inj op).mpr List.nil_prefix
  · exact (List.prefix_cons_inj op).mpr hpart

theorem passes_eq (hcb : cb.state = .stateHalfOpen) :
    cb.passes op = (op.executes && decide (cb.requests < cb.config.maxRequests)) := by
  cases op with
  | canExecute =>
    rw [passes, canExecute]
    simp only [hcb]
    split
    · next hfull => simp [CircuitBreakerOp.executes, Int64.not_lt.mpr hfull]
    · next hless => simp [CircuitBreakerOp.executes, Int64.not_le.mp hless]
  | _ => rfl

/-- In `HALF_OPEN` calls pass until they are as many as are left of `maxRequests`. -/
theorem passed_eq_min (hcb : ∀ part, part <+: ops →
      (Machine.run step cb part).state = .stateHalfOpen)
    (hle : cb.requests.toInt ≤ cb.config.maxRequests.toInt) :
    (cb.passed ops : ℤ) = min (ops.countP CircuitBreakerOp.executes : ℤ)
      (cb.config.maxRequests.toInt - cb.requests.toInt) := by
  induction ops generalizing cb with
  | nil =>
    rw [passed, List.countP_nil]
    omega
  | cons op rest ih =>
    obtain ⟨hhere, hnext, hrest⟩ := inside_cons hcb
    have hcount := step_stays hhere hnext
    have hpasses : cb.passes op = _ := passes_eq hhere
    have hlater := ih hrest
    rw [step_config, hcount] at hlater
    rw [passed, List.countP_cons]
    by_cases hexecutes : op.executes = true
    · by_cases hlt : cb.requests < cb.config.maxRequests
      · -- this call passes, and is counted
        have hlt' := Int64.lt_iff_toInt_lt.mp hlt
        rw [hexecutes, decide_eq_true hlt] at hpasses
        rw [hpasses, Bool.and_self, if_pos rfl] at hlater
        rw [hpasses, Bool.and_self, if_pos rfl, hexecutes, if_pos rfl]
        push_cast
        rw [hlater (by omega)]
        omega
      · have hfull := Int64.le_iff_toInt_le.mp (Int64.not_lt.mp hlt)
        rw [decide_eq_false hlt, Bool.and_false] at hpasses
        rw [hpasses, if_neg Bool.false_ne_true] at hlater
        rw [hpasses, if_neg Bool.false_ne_true, Nat.zero_add, hlater (by omega)]
        omega
    · rw [Bool.not_eq_true] at hexecutes
      rw [hexecutes, Bool.false_and] at hpasses
      rw [hpasses, if_neg Bool.false_ne_true] at hlater
      rw [hpasses, hexecutes, if_neg Bool.false_ne_true, Nat.zero_add, hlater (by omega),
        Nat.add_zero]
      omega

variable {entry : CircuitBreakerOp}

theorem Stay.entered {before during : List CircuitBreakerOp}
    (hstay : Stay config before entry during) :
    ((run config before).step entry).state = .stateHalfOpen := by
  have h := hstay.inside [] List.nil_prefix
  rwa [run_append_cons] at h

theorem Stay.during {before during : List CircuitBreakerOp}
    (hstay : Stay config before entry during) : ∀ part, part <+: during →
      (Machine.run step ((run config before).step entry) part).state = .stateHalfOpen := by
  intro part hpart
  have h := hstay.inside part hpart
  rwa [run_append_cons] at h

/-- **How many calls pass in a stay in `HALF_OPEN`**: the one that leads there, and of those
after it `maxRequests`.  They are at most `maxRequests` together exactly if fewer than that
come after the first. -/
theorem probes_le_iff (config : Option CircuitBreakerConfig) (before during : List CircuitBreakerOp)
    (entry : CircuitBreakerOp) (hmax : 1 ≤ (config.getD .default).maxRequests)
    (hstay : Stay config before entry during) :
    ((run config before).passed (entry :: during) : ℤ)
        = min (during.countP CircuitBreakerOp.executes : ℤ)
          (config.getD .default).maxRequests.toInt + 1 ∧
      (((run config before).passed (entry :: during) : ℤ)
          ≤ (config.getD .default).maxRequests.toInt ↔
        (during.countP CircuitBreakerOp.executes : ℤ)
          < (config.getD .default).maxRequests.toInt) := by
  have hpos : (1 : Int64).toInt ≤ (config.getD .default).maxRequests.toInt :=
    Int64.le_iff_toInt_le.mp hmax
  have hone : (1 : Int64).toInt = 1 := by decide
  obtain ⟨hpasses, hzero⟩ := step_enters hstay.outside hstay.entered
  have hcount := passed_eq_min hstay.during
  rw [step_config, run_config, hzero, Int64.toInt_zero] at hcount
  have htotal : ((run config before).passed (entry :: during) : ℤ)
      = min (during.countP CircuitBreakerOp.executes : ℤ)
        (config.getD .default).maxRequests.toInt + 1 := by
    rw [passed, if_pos hpasses]
    push_cast
    rw [hcount (by omega)]
    omega
  refine ⟨htotal, ?_⟩
  rw [htotal]
  omega

/-- One failure opens the breaker, at once after it `HALF_OPEN` may be tried, one call at a
time. -/
def oneProbe : Option CircuitBreakerConfig := some ⟨1, 1, 0⟩

def oneFailure : List CircuitBreakerOp := [.canExecute 0, .recordFailure 0]

theorem stay_oneProbe : Stay oneProbe oneFailure (.canExecute 1) [.canExecute 2] where
  outside := by decide
  inside := by
    intro part hpart
    rw [← List.mem_inits] at hpart
    revert part
    decide

/-- Two calls pass where `maxRequests` is one. -/
theorem two_probes : Stay oneProbe oneFailure (.canExecute 1) [.canExecute 2] ∧
    (run oneProbe oneFailure).passed [.canExecute 1, .canExecute 2] = 2 ∧
    (oneProbe.getD .default).maxRequests = 1 := ⟨stay_oneProbe, by decide, rfl⟩

/-- One failure opens the breaker, and two calls may try `HALF_OPEN`. -/
def twoProbes : Option CircuitBreakerConfig := some ⟨1, 2, 0⟩

theorem stay_twoProbes :
    Stay twoProbes oneFailure (.canExecute 1) [.recordSuccess 2, .canExecute 3] where
  outside := by decide
  inside := by
    intro part hpart
    rw [← List.mem_inits] at hpart
    revert part
    decide

/-- One call comes after the first, and they are two. -/
theorem probes_twoProbes : ((run twoProbes oneFailure).passed
    [.canExecute 1, .recordSuccess 2, .canExecute 3] : ℤ) ≤ (2 : Int64).toInt :=
  (probes_le_iff twoProbes oneFailure [.recordSuccess 2, .canExecute 3] (.canExecute 1)
    (by decide) stay_twoProbes).2.mpr (by decide)

/-! ### Outstanding calls -/

def records : CircuitBreakerOp → Bool
  | .recordSuccess _ | .recordFailure _ => true
  | .canExecute _ | .reset => false

/-- How many calls have passed and have no outcome yet. -/
def outstanding (config : Option CircuitBreakerConfig) (ops : List CircuitBreakerOp) : ℤ :=
  (new config).passed ops - ops.countP records

/-- Outcomes are recorded for calls that have passed, once for each. -/
def Disciplined (config : Option CircuitBreakerConfig) (ops : List CircuitBreakerOp) : Prop :=
  ∀ part, part <+: ops → 0 ≤ outstanding config part

theorem passed_append (before after : List CircuitBreakerOp) :
    cb.passed (before ++ after) = cb.passed before + (Machine.run step cb before).passed after := by
  induction before generalizing cb with
  | nil => simp [passed, Machine.run]
  | cons op rest ih =>
    rw [List.cons_append, passed, passed, ih, Machine.run_cons]
    omega

theorem outstanding_concat :
    outstanding config (ops ++ [op]) = outstanding config ops
      + (if (run config ops).passes op then 1 else 0) - (if records op then 1 else 0) := by
  rw [outstanding, passed_append, ← run, List.countP_append, List.countP_singleton, outstanding,
    passed, passed]
  split <;> split <;> simp <;> omega

theorem Disciplined.before (h : Disciplined config (ops ++ [op])) : Disciplined config ops := by
  intro part hpart
  exact h part (hpart.trans (List.prefix_append ops [op]))

theorem step_closed (hmax : 1 ≤ cb.config.maxFailures)
    (hcb : cb.state = .stateClosed → cb.failures < cb.config.maxFailures)
    (hstep : (cb.step op).state = .stateClosed) :
    (cb.step op).failures < cb.config.maxFailures := by
  have hzero : 0 < cb.config.maxFailures := Int64.lt_of_lt_of_le (by decide) hmax
  cases op with
  | canExecute =>
    rw [step, canExecute] at hstep ⊢
    cases hstate : cb.state with
    | stateClosed => exact hcb hstate
    | stateOpen | stateHalfOpen =>
      simp only [hstate] at hstep
      split at hstep <;> simp at hstep
  | recordSuccess =>
    rw [step, recordSuccess] at hstep ⊢
    cases hstate : cb.state with
    | stateClosed => exact hzero
    | stateOpen => simp [hstate] at hstep
    | stateHalfOpen =>
      simp only [hstate] at hstep ⊢
      split at hstep
      · next hfull =>
        rw [if_pos hfull]
        exact hzero
      · simp at hstep
  | recordFailure =>
    rw [step, recordFailure] at hstep ⊢
    cases hstate : cb.state with
    | stateClosed =>
      simp only [hstate] at hstep ⊢
      split at hstep
      · simp at hstep
      · next hless =>
        rw [if_neg hless]
        exact Int64.not_le.mp hless
    | stateOpen | stateHalfOpen => simp [hstate] at hstep
  | reset => exact hzero

/-- In a full `HALF_OPEN` either the last call has passed, or it was full before and the
call was no outcome. -/
theorem step_full (hstep : (cb.step op).state = .stateHalfOpen)
    (hfull : cb.config.maxRequests ≤ (cb.step op).requests) :
    (cb.passes op = true ∧ records op = false) ∨
      (records op = false ∧ cb.state = .stateHalfOpen ∧
        cb.config.maxRequests ≤ cb.requests) := by
  by_cases hhalf : cb.state = .stateHalfOpen
  · cases op with
    | canExecute now =>
      by_cases hpass : cb.passes (.canExecute now) = true
      · exact .inl ⟨hpass, rfl⟩
      · have hcount := step_stays hhalf hstep
        rw [if_neg hpass, add_zero] at hcount
        rw [Int64.le_iff_toInt_le, hcount, ← Int64.le_iff_toInt_le] at hfull
        exact .inr ⟨rfl, hhalf, hfull⟩
    | recordSuccess =>
      rw [step, recordSuccess] at hstep hfull
      simp only [hhalf] at hstep hfull
      split at hstep
      · cases hstep
      · next hless =>
        rw [if_neg hless] at hfull
        exact absurd hfull hless
    | recordFailure =>
      rw [step, recordFailure] at hstep
      simp [hhalf] at hstep
    | reset => cases hstep
  · have hpass := (step_enters hhalf hstep).1
    cases op with
    | canExecute => exact .inl ⟨hpass, rfl⟩
    | _ => cases hpass

theorem run_closed (hmax : 1 ≤ (config.getD .default).maxFailures)
    (hstate : (run config ops).state = .stateClosed) :
    (run config ops).failures < (config.getD .default).maxFailures := by
  induction ops using List.reverseRecOn with
  | nil =>
    have hzero : (0 : Int64) < 1 := by decide
    exact Int64.lt_of_lt_of_le hzero hmax
  | append_singleton ops op ih =>
    rw [run_append_cons] at hstate ⊢
    have hcb : (run config ops).state = .stateClosed →
        (run config ops).failures < (run config ops).config.maxFailures := by
      rw [run_config]
      exact ih
    have h := step_closed (by rwa [run_config]) hcb hstate
    rwa [run_config] at h

theorem run_full (hrun : Disciplined config ops)
    (hstate : (run config ops).state = .stateHalfOpen)
    (hfull : (config.getD .default).maxRequests ≤ (run config ops).requests) :
    1 ≤ outstanding config ops := by
  induction ops using List.reverseRecOn with
  | nil => cases hstate
  | append_singleton ops op ih =>
    have hpast : 0 ≤ outstanding config ops := hrun.before ops List.prefix_rfl
    rw [run_append_cons] at hstate hfull
    have hstep := step_full hstate (by rwa [run_config])
    rw [run_config] at hstep
    rw [outstanding_concat]
    obtain ⟨hpass, hrec⟩ | ⟨hrec, hhalf, hfull⟩ := hstep
    · rw [hpass, hrec]
      simp
      omega
    · have hone := ih hrun.before hhalf hfull
      rw [hrec]
      split <;> simp <;> omega

theorem of_rejected {now : ℤ} (hrejected : (cb.canExecute now).1 = false) :
    (cb.state = .stateOpen ∧ timeSince now cb.lastFailureTime ≤ cb.config.timeout.toInt) ∨
      (cb.state = .stateHalfOpen ∧ cb.config.maxRequests ≤ cb.requests) := by
  rw [canExecute] at hrejected
  cases hstate : cb.state with
  | stateClosed => simp [hstate] at hrejected
  | stateOpen =>
    simp only [hstate] at hrejected
    split at hrejected
    · cases hrejected
    · next htime => exact .inl ⟨rfl, Int.not_lt.mp htime⟩
  | stateHalfOpen =>
    simp only [hstate] at hrejected
    split at hrejected
    · next hfull => exact .inr ⟨rfl, hfull⟩
    · cases hrejected

theorem outcome_of_full (hcb : cb.state = .stateHalfOpen)
    (hfull : cb.config.maxRequests ≤ cb.requests) (now : ℤ) :
    (cb.recordSuccess now).state = .stateClosed ∧ (cb.recordFailure now).state = .stateOpen := by
  rw [recordSuccess, recordFailure]
  simp [hcb, hfull]

/-- If outcomes are recorded for calls that have passed, then `CLOSED` is below `maxFailures`,
and a full `HALF_OPEN` waits for an outcome.  So a call is turned away only while the timeout
runs, or until an outcome is recorded. -/
theorem never_stuck (config : Option CircuitBreakerConfig)
    (hmax : 1 ≤ (config.getD .default).maxFailures) (ops : List CircuitBreakerOp)
    (hrun : Disciplined config ops) :
    ((run config ops).state = .stateClosed →
        (run config ops).failures < (config.getD .default).maxFailures) ∧
      ((run config ops).state = .stateHalfOpen →
        (run config ops).requests = (config.getD .default).maxRequests →
        1 ≤ outstanding config ops) ∧
      ∀ now, ((run config ops).canExecute now).1 = false →
        ((run config ops).state = .stateOpen ∧
          timeSince now (run config ops).lastFailureTime
            ≤ (config.getD .default).timeout.toInt) ∨
        (1 ≤ outstanding config ops ∧
          ∀ later, ((run config ops).recordSuccess later).state = .stateClosed ∧
            ((run config ops).recordFailure later).state = .stateOpen) := by
  refine ⟨run_closed hmax, ?_, ?_⟩
  · intro hstate hfull
    exact run_full hrun hstate (Int64.le_of_eq hfull.symm)
  · intro now hrejected
    have h := of_rejected hrejected
    rw [run_config] at h
    obtain hopen | ⟨hstate, hfull⟩ := h
    · exact .inl hopen
    · refine .inr ⟨run_full hrun hstate hfull, fun later => ?_⟩
      exact outcome_of_full hstate (by rwa [run_config]) later

/-- A call that has passed and has no outcome. -/
theorem never_stuck_oneProbe : 1 ≤ outstanding oneProbe
    (oneFailure ++ [.canExecute 1, .canExecute 2]) := by
  have hrun : Disciplined oneProbe (oneFailure ++ [.canExecute 1, .canExecute 2]) := by
    intro part hpart
    rw [← List.mem_inits] at hpart
    revert part
    decide
  exact (never_stuck oneProbe (by decide) _ hrun).2.1 (by decide) (by decide)

end CircuitBreaker

end MetaNode
