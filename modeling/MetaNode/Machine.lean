/-
Machines that handle one event after the other.

`run step s events` is the state in which a machine ends.  `run_keeps` carries an invariant
along the events that keep to a condition; `run_responds` is for what a machine does at the
first event of a kind, and keeps ready to do until then.
-/
import Mathlib.Data.List.Basic

namespace Machine

variable {σ ε : Type*} (step : σ → ε → σ)

def run (s : σ) (events : List ε) : σ := events.foldl step s

theorem run_append (s : σ) (before after : List ε) :
    run step s (before ++ after) = run step (run step s before) after :=
  List.foldl_append

theorem run_cons (s : σ) (e : ε) (after : List ε) :
    run step s (e :: after) = run step (step s e) after := rfl

theorem run_concat (s : σ) (before : List ε) (e : ε) :
    run step s (before ++ [e]) = step (run step s before) e := run_append step s before [e]

variable {step} {P R : σ → Prop} {ok : ε → Prop} {events : List ε}

theorem run_keeps (hstep : ∀ s e, P s → ok e → P (step s e)) {s : σ} (hok : ∀ e ∈ events, ok e)
    (hs : P s) : P (run step s events) := by
  induction events generalizing s with
  | nil => exact hs
  | cons e rest ih =>
    rw [List.forall_mem_cons] at hok
    exact ih hok.2 (hstep s e hs hok.1)

theorem run_responds {Q : ε → Prop} (hkeep : ∀ s e, P s → ok e → ¬ Q e → P (step s e))
    (hrespond : ∀ s e, P s → ok e → Q e → R (step s e)) (hstable : ∀ s e, R s → R (step s e))
    {s : σ} (hok : ∀ e ∈ events, ok e) (hs : P s) (hQ : ∃ e ∈ events, Q e) :
    R (run step s events) := by
  induction events generalizing s with
  | nil =>
    obtain ⟨e, he, -⟩ := hQ
    cases he
  | cons e rest ih =>
    rw [List.forall_mem_cons] at hok
    by_cases he : Q e
    · have hR : R (step s e) := hrespond s e hs hok.1 he
      have hkept : ∀ s e, R s → True → R (step s e) := fun s e h _ => hstable s e h
      rw [run_cons]
      exact run_keeps hkept (fun _ _ => trivial) hR
    · rw [List.exists_mem_cons_iff] at hQ
      exact ih hok.2 (hkeep s e hs hok.1 he) (hQ.resolve_left he)

theorem exists_last {Q : ε → Prop} (h : ∃ e ∈ events, Q e) :
    ∃ before e after, events = before ++ e :: after ∧ Q e ∧ ∀ e' ∈ after, ¬ Q e' := by
  induction events with
  | nil =>
    obtain ⟨e, he, -⟩ := h
    cases he
  | cons e rest ih =>
    by_cases hrest : ∃ e' ∈ rest, Q e'
    · obtain ⟨before, e', after, heq, hQ, hafter⟩ := ih hrest
      exact ⟨e :: before, e', after, by rw [heq, List.cons_append], hQ, hafter⟩
    · rw [List.exists_mem_cons_iff] at h
      refine ⟨[], e, rest, rfl, h.resolve_right hrest, ?_⟩
      intro e' he' hQ
      exact hrest ⟨e', he', hQ⟩

end Machine
