/-
Infinite runs in which one process is scheduled fairly.

A run gives a state for every point of time, each following from the one before by some
step of the system; steps of a process `act` are among them.  The run is weakly fair to
the process if there is no point from which on the process could always take a step and
never does.

`eventually_of_rank` is the rule for what such a run has to come to: a condition that the
process can work on, that no step undoes before the goal is reached, and a number that
no step raises and each step of the process lowers.  `exists_fairRun` gives a fair run from
any state, for systems that may stand still.
-/
import Mathlib.Data.Nat.Notation
import Mathlib.Logic.Function.Iterate

namespace Fairness

variable {σ : Type*}

def IsRun (next : σ → σ → Prop) (run : ℕ → σ) : Prop :=
  ∀ n, next (run n) (run (n + 1))

/-- Again and again the process takes a step, or has none to take. -/
def WeaklyFair (act : σ → σ → Prop) (run : ℕ → σ) : Prop :=
  ∀ n, ∃ m, n ≤ m ∧ (act (run m) (run (m + 1)) ∨ ¬ ∃ s', act (run m) s')

variable {next act : σ → σ → Prop} {P Q : σ → Prop} {rank : σ → ℕ} {run : ℕ → σ}

theorem reached_or_kept
    (hnext : ∀ s s', P s → next s s' → Q s' ∨ (P s' ∧ rank s' ≤ rank s))
    (hrun : IsRun next run) {n : ℕ} (hn : P (run n)) (k : ℕ) :
    (∃ m, n ≤ m ∧ Q (run m)) ∨ (P (run (n + k)) ∧ rank (run (n + k)) ≤ rank (run n)) := by
  induction k with
  | zero => exact .inr ⟨hn, Nat.le_refl _⟩
  | succ k ih =>
    obtain hreached | ⟨hP, hle⟩ := ih
    · exact .inl hreached
    · obtain hQ | ⟨hP', hle'⟩ := hnext _ _ hP (hrun (n + k))
      · exact .inl ⟨n + k + 1, by omega, hQ⟩
      · exact .inr ⟨hP', Nat.le_trans hle' hle⟩

/-- **A fair run reaches the goal** from a condition on which the process always has a step,
where every step keeps the condition and the rank, and each step of the process lowers the
rank, unless the goal is reached. -/
theorem eventually_of_rank (rank : σ → ℕ) (henabled : ∀ s, P s → ∃ s', act s s')
    (hnext : ∀ s s', P s → next s s' → Q s' ∨ (P s' ∧ rank s' ≤ rank s))
    (hact : ∀ s s', P s → next s s' → act s s' → Q s' ∨ rank s' < rank s)
    (hrun : IsRun next run) (hfair : WeaklyFair act run) {n : ℕ} (hn : P (run n)) :
    ∃ m, n ≤ m ∧ Q (run m) := by
  -- the rank goes down until the goal is reached
  induction hr : rank (run n) using Nat.strongRecOn generalizing n with
  | _ r ih =>
    obtain ⟨m, hm, hfired⟩ := hfair n
    obtain ⟨k, rfl⟩ := Nat.exists_eq_add_of_le hm
    obtain hreached | ⟨hP, hle⟩ := reached_or_kept hnext hrun hn k
    · exact hreached
    · have hstep : act (run (n + k)) (run (n + k + 1)) :=
        hfired.resolve_right fun hstuck => hstuck (henabled _ hP)
      obtain hQ | hlt := hact _ _ hP (hrun (n + k)) hstep
      · exact ⟨n + k + 1, by omega, hQ⟩
      · obtain hQ | ⟨hP', -⟩ := hnext _ _ hP (hrun (n + k))
        · exact ⟨n + k + 1, by omega, hQ⟩
        · obtain ⟨m, hm, hQ⟩ := ih (rank (run (n + k + 1))) (by omega) hP' rfl
          exact ⟨m, by omega, hQ⟩

theorem IsRun.invariant (hrun : IsRun next run) (hstep : ∀ s s', P s → next s s' → P s')
    (h : P (run 0)) (n : ℕ) : P (run n) := by
  induction n with
  | zero => exact h
  | succ n ih => exact hstep _ _ ih (hrun n)

theorem weaklyFair_of_rest {s : σ} {n : ℕ} (hrest : ∀ k, run (n + k) = s)
    (hstuck : ¬ ∃ s', act s s') : WeaklyFair act run := by
  intro m
  refine ⟨n + m, Nat.le_add_left m n, .inr ?_⟩
  rw [hrest]
  exact hstuck

/-- A run with one more state before it. -/
theorem exists_cons {s : σ} (hstep : next s (run 0)) (hrun : IsRun next run)
    (hfair : WeaklyFair act run) :
    ∃ run', run' 0 = s ∧ (∀ n, run' (n + 1) = run n) ∧ IsRun next run' ∧ WeaklyFair act run' := by
  refine ⟨fun n => n.casesOn s run, rfl, fun _ => rfl, fun n => ?_, fun n => ?_⟩
  · cases n with
    | zero => exact hstep
    | succ n => exact hrun n
  · obtain ⟨m, hm, hact⟩ := hfair n
    exact ⟨m + 1, Nat.le_succ_of_le hm, hact⟩

open Classical in
noncomputable def advance (act : σ → σ → Prop) (s : σ) : σ :=
  if h : ∃ s', act s s' then h.choose else s

theorem advance_cases (act : σ → σ → Prop) (s : σ) :
    act s (advance act s) ∨ (advance act s = s ∧ ¬ ∃ s', act s s') := by
  rw [advance]
  split
  · next h => exact .inl h.choose_spec
  · next h => exact .inr ⟨rfl, h⟩

theorem exists_fairRun (hidle : ∀ s, next s s) (hact : ∀ s s', act s s' → next s s') (s : σ) :
    ∃ run, run 0 = s ∧ IsRun next run ∧ WeaklyFair act run := by
  have hnext : ∀ n, (advance act)^[n + 1] s = advance act ((advance act)^[n] s) := fun n =>
    Function.iterate_succ_apply' (advance act) n s
  refine ⟨fun n => (advance act)^[n] s, rfl, fun n => ?_, fun n => ⟨n, Nat.le_refl n, ?_⟩⟩
  · show next _ ((advance act)^[n + 1] s)
    rw [hnext]
    obtain hstep | ⟨hsame, -⟩ := advance_cases act ((advance act)^[n] s)
    · exact hact _ _ hstep
    · rw [hsame]
      exact hidle _
  · show act _ ((advance act)^[n + 1] s) ∨ _
    rw [hnext]
    obtain hstep | ⟨-, hstuck⟩ := advance_cases act ((advance act)^[n] s)
    · exact .inl hstep
    · exact .inr hstuck

end Fairness
