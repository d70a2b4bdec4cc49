/-
Runs of a labelled transition system, with their traces.

A trace lists the states a run passed through, each with the label of the step that left
it.  `Run.forall_states` carries an invariant along the runs whose steps all keep to a
condition; `Run.exists_next` finds the state after a step of the trace and `Run.before` the
run up to it.
-/
import Mathlib.Data.List.Basic

namespace Trace

variable {σ ι : Type*}

/-- The runs from `s₀`, step by step. -/
inductive Run (step : σ → ι → σ → Prop) (s₀ : σ) : List (σ × ι) → σ → Prop where
  | nil : Run step s₀ [] s₀
  | snoc {t s l s'} : Run step s₀ t s → step s l s' → Run step s₀ (t ++ [(s, l)]) s'

def states (t : List (σ × ι)) (s : σ) : List σ :=
  t.map Prod.fst ++ [s]

theorem states_snoc (t : List (σ × ι)) (s s' : σ) (l : ι) :
    states (t ++ [(s, l)]) s' = states t s ++ [s'] := by
  rw [states, List.map_append]
  rfl

variable {step : σ → ι → σ → Prop} {s₀ s : σ} {t : List (σ × ι)}

theorem Run.forall_states (h : Run step s₀ t s) (P : σ → Prop) (ok : σ × ι → Prop) (hinit : P s₀)
    (hstep : ∀ s l s', P s → ok (s, l) → step s l s' → P s') (hok : ∀ p ∈ t, ok p) :
    ∀ s' ∈ states t s, P s' := by
  induction h with
  | nil =>
    intro s' hs'
    rw [List.mem_singleton.mp hs']
    exact hinit
  | snoc _ hs ih =>
    rw [List.forall_mem_append, List.forall_mem_singleton] at hok
    have hbefore := ih hok.1
    rw [states_snoc, List.forall_mem_append, List.forall_mem_singleton]
    exact ⟨hbefore, hstep _ _ _ (hbefore _ (by simp [states])) hok.2 hs⟩

theorem Run.exists_next (h : Run step s₀ t s) {p : σ × ι} (hp : p ∈ t) :
    ∃ s' ∈ states t s, step p.1 p.2 s' := by
  induction h with
  | nil => cases hp
  | snoc _ hs ih =>
    rw [states_snoc]
    obtain hp | hp := List.mem_append.mp hp
    · obtain ⟨s', hs', hstep⟩ := ih hp
      exact ⟨s', List.mem_append_left _ hs', hstep⟩
    · rw [List.mem_singleton.mp hp]
      exact ⟨_, by simp, hs⟩

theorem Run.before (h : Run step s₀ t s) {t₁ t₂ : List (σ × ι)} {p : σ × ι}
    (ht : t = t₁ ++ p :: t₂) : Run step s₀ t₁ p.1 := by
  induction h generalizing t₂ with
  | nil => simp at ht
  | snoc hrun _ ih =>
    obtain rfl | ⟨t₂, q, rfl⟩ := List.eq_nil_or_concat t₂
    · obtain ⟨rfl, hp⟩ := List.append_inj' ht rfl
      rw [List.cons.injEq] at hp
      rwa [← hp.1]
    · rw [List.concat_eq_append, ← List.cons_append, ← List.append_assoc] at ht
      exact ih (List.append_inj' ht rfl).1

end Trace
