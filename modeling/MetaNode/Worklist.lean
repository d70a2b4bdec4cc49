/-
Queues.

A worklist takes the first item of a queue and puts the items below it at the end.
`Worklist.Run below queue l` says that it ends, having taken the items `l` in this order.

* `Run.exists_of_size` — it ends if the items below one are together smaller than it.
-/
import Mathlib.Algebra.GroupWithZero.Nat
import Mathlib.Logic.Relation

namespace Worklist

variable {α : Type} (below : α → List α)

inductive Run : List α → List α → Prop
  | done : Run [] []
  | take {a : α} {queue l : List α} (h : Run (queue ++ below a) l) : Run (a :: queue) (a :: l)

/-- The items that can be reached from `a`, itself among them. -/
def Reach : α → α → Prop := Relation.ReflTransGen fun a b => b ∈ below a

variable {below}

theorem Run.exists_of_size {size : α → ℕ} (hsize : ∀ a, ((below a).map size).sum < size a)
    (queue : List α) : ∃ l, Run below queue l := by
  -- the size of the whole queue falls in every step
  induction hn : (queue.map size).sum using Nat.strongRecOn generalizing queue with
  | ind n ih =>
    cases queue with
    | nil => exact ⟨[], .done⟩
    | cons a queue =>
      have ha := hsize a
      rw [List.map_cons, List.sum_cons] at hn
      have hlt : ((queue ++ below a).map size).sum < n := by
        rw [List.map_append, List.sum_append]
        omega
      obtain ⟨l, hl⟩ := ih _ hlt _ rfl
      exact ⟨a :: l, .take hl⟩

/-- **A worklist takes what can be reached** from its queue, and nothing else. -/
theorem Run.mem_iff {queue l : List α} (h : Run below queue l) {b : α} :
    b ∈ l ↔ ∃ a ∈ queue, Reach below a b := by
  induction h with
  | done => simp
  | @take a queue l _ ih =>
    rw [List.mem_cons, ih]
    constructor
    · rintro (rfl | ⟨c, hc, hcb⟩)
      · exact ⟨b, List.mem_cons_self, .refl⟩
      · rcases List.mem_append.mp hc with hc | hc
        · exact ⟨c, List.mem_cons_of_mem a hc, hcb⟩
        · exact ⟨a, List.mem_cons_self, .head hc hcb⟩
    · rintro ⟨c, hc, hcb⟩
      rcases List.mem_cons.mp hc with rfl | hc
      · -- the first step from the item leads to one that was put at the end
        rcases Relation.ReflTransGen.cases_head hcb with rfl | ⟨d, hd, hdb⟩
        · exact .inl rfl
        · exact .inr ⟨d, List.mem_append_right queue hd, hdb⟩
      · exact .inr ⟨c, List.mem_append_left _ hc, hcb⟩

end Worklist
