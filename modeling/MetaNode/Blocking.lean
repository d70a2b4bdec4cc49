/-
Processes that are blocked for good, and runs that end.

A process of a system with the steps `step` is blocked forever in a state if its phase is
the same in every state that can follow.  This is shown with a condition that every step
keeps and under which the phase stays (`blocked_of_stable`), and refuted with one way to go
on (`not_blocked`).  All runs from a state end if the state is accessible (`acc_of_rank`).
-/
import Mathlib.Algebra.BigOperators.Group.Finset.Piecewise
import Mathlib.Logic.Relation

namespace Blocking

open Relation

variable {σ φ : Type*} {step : σ → σ → Prop} {phase : σ → φ} {s s' : σ}

/-- Whatever happens, the phase does not change any more. -/
def Blocked (step : σ → σ → Prop) (phase : σ → φ) (s : σ) : Prop :=
  ∀ s', ReflTransGen step s s' → phase s' = phase s

variable {I : σ → Prop}

theorem invariant (hstep : ∀ s s', I s → step s s' → I s')
    (hrun : ReflTransGen step s s') (h : I s) : I s' := by
  induction hrun with
  | refl => exact h
  | tail _ hnext ih => exact hstep _ _ ih hnext

theorem blocked_of_stable (hstep : ∀ s s', I s → step s s' → I s' ∧ phase s' = phase s) (h : I s) :
    Blocked step phase s := by
  intro s' hrun
  have hboth : I s' ∧ phase s' = phase s := by
    refine invariant (I := fun s' => I s' ∧ phase s' = phase s) ?_ hrun ⟨h, rfl⟩
    rintro s₁ s₂ ⟨h₁, hphase⟩ hnext
    obtain ⟨h₂, hsame⟩ := hstep s₁ s₂ h₁ hnext
    exact ⟨h₂, hsame.trans hphase⟩
  exact hboth.2

theorem not_blocked (hrun : ReflTransGen step s s') (hne : phase s' ≠ phase s) :
    ¬ Blocked step phase s := by
  intro h
  exact hne (h s' hrun)

/-- Every run ends if a rank goes down with each step. -/
theorem acc_of_rank (rank : σ → ℕ)
    (hstep : ∀ s s', I s → step s s' → I s' ∧ rank s' < rank s) (h : I s) :
    Acc (fun s' s => step s s') s := by
  induction hn : rank s using Nat.strong_induction_on generalizing s with
  | _ n ih =>
    refine .intro s fun s' hnext => ?_
    obtain ⟨h', hless⟩ := hstep s s' h hnext
    exact ih _ (hn ▸ hless) h' rfl

/-- Some run comes to an end. -/
theorem exists_stuck (h : Acc (fun s' s => step s s') s) :
    ∃ s', ReflTransGen step s s' ∧ ∀ t, ¬ step s' t := by
  induction h with
  | intro s _ ih =>
    by_cases hstep : ∃ t, step s t
    · obtain ⟨t, hst⟩ := hstep
      obtain ⟨s', hrun, hstuck⟩ := ih t hst
      exact ⟨s', .head hst hrun, hstuck⟩
    · exact ⟨s, .refl, not_exists.mp hstep⟩

theorem sum_update {ι : Type*} [DecidableEq ι] {active : Finset ι} (phase : ι → φ) {i : ι}
    (hi : i ∈ active) (p : φ) (f : φ → ℕ) :
    ∑ k ∈ active, f (Function.update phase i p k) + f (phase i)
      = ∑ k ∈ active, f (phase k) + f p := by
  have hupdate : ∀ k, f (Function.update phase i p k)
      = Function.update (fun k => f (phase k)) i (f p) k :=
    fun k => Function.apply_update (fun _ => f) phase i p k
  simp only [hupdate]
  rw [Finset.sum_update_of_mem hi,
    Finset.sum_eq_add_sum_sdiff_singleton_of_mem hi fun k => f (phase k)]
  omega

end Blocking
