/-
Account states through one shared channel (`AccountState` and `ReadTransaction` of
`client.go`, `handleAccountState` of `handler.go`).

A call asks the node for the state of its account and takes the next state from
`accountStateChan`, whatever account that is for.  The node answers every request once, in
any order, and the handlers put the answers on the channel in any order.
-/
import Mathlib.Logic.Relation
import MetaNode.AccountState

namespace MetaNode.AccountStateChan

open Function

inductive Method where
  | accountState
  | readTransaction
  deriving DecidableEq

structure Call where
  method : Method
  address : Address

/-- Where a call stands; `AccountState` returns what it got. -/
inductive Phase where
  | idle
  | waiting
  | got (as : AccountState SmartContractState)

/-- `C` are the calls. -/
structure State (C : Type) where
  phase : C → Phase
  /-- The requests that the node has not answered, by the address they are for. -/
  requests : List Address
  /-- The answers that are on their way or with a handler. -/
  answers : List (AccountState SmartContractState)
  accountStateChan : List (AccountState SmartContractState)

def State.init (C : Type) : State C := ⟨fun _ => .idle, [], [], []⟩

def accountStateChanSize : ℕ := 2000

variable {C : Type} [DecidableEq C] (calls : C → Call)

inductive Step : State C → State C → Prop where
  | request {s} (c : C) (h : s.phase c = .idle) :
      Step s { s with
        phase := update s.phase c .waiting
        requests := (calls c).address :: s.requests }
  /-- The error of `SendBytes` is not looked at. -/
  | requestFails {s} (c : C) (h : s.phase c = .idle) :
      Step s { s with phase := update s.phase c .waiting }
  | answer {s} (as : AccountState SmartContractState) (before after : List Address)
      (h : s.requests = before ++ as.address :: after) :
      Step s { s with requests := before ++ after, answers := as :: s.answers }
  | handle {s} (as : AccountState SmartContractState)
      (before after : List (AccountState SmartContractState))
      (h : s.answers = before ++ as :: after)
      (hroom : s.accountStateChan.length < accountStateChanSize) :
      Step s { s with
        answers := before ++ after
        accountStateChan := s.accountStateChan ++ [as] }
  | take {s} (c : C) (as : AccountState SmartContractState)
      (rest : List (AccountState SmartContractState)) (h : s.phase c = .waiting)
      (hchan : s.accountStateChan = as :: rest) :
      Step s { s with
        phase := update s.phase c (.got as)
        accountStateChan := rest }

abbrev Reachable : State C → Prop := Relation.ReflTransGen (Step calls) (State.init C)

variable {calls} {s s' : State C}

/-- Everything on its way is for an account that some call asked for. -/
structure Asked (calls : C → Call) (s : State C) : Prop where
  requests : ∀ a ∈ s.requests, ∃ c, (calls c).address = a
  answers : ∀ as ∈ s.answers, ∃ c, (calls c).address = as.address
  chan : ∀ as ∈ s.accountStateChan, ∃ c, (calls c).address = as.address
  got : ∀ c as, s.phase c = .got as → ∃ c', (calls c').address = as.address

theorem Asked.got_update (hs : Asked calls s) {c : C} {p : Phase}
    (hp : ∀ as, p = .got as → ∃ c', (calls c').address = as.address) :
    ∀ c' as, update s.phase c p c' = .got as → ∃ c'', (calls c'').address = as.address :=
  (forall_update_iff s.phase fun _ p =>
    ∀ as, p = Phase.got as → ∃ c', (calls c').address = as.address).mpr ⟨hp, fun c' _ => hs.got c'⟩

theorem Asked.step (hs : Asked calls s) (hstep : Step calls s s') : Asked calls s' := by
  cases hstep with
  | request c =>
    refine ⟨?_, hs.answers, hs.chan, hs.got_update (by simp)⟩
    rw [List.forall_mem_cons]
    exact ⟨⟨c, rfl⟩, hs.requests⟩
  | requestFails => exact ⟨hs.requests, hs.answers, hs.chan, hs.got_update (by simp)⟩
  | answer as before after h =>
    have hreq := hs.requests
    rw [h, List.forall_mem_append, List.forall_mem_cons] at hreq
    refine ⟨?_, ?_, hs.chan, hs.got⟩
    · rw [List.forall_mem_append]
      exact ⟨hreq.1, hreq.2.2⟩
    · rw [List.forall_mem_cons]
      exact ⟨hreq.2.1, hs.answers⟩
  | handle as before after h =>
    have hans := hs.answers
    rw [h, List.forall_mem_append, List.forall_mem_cons] at hans
    refine ⟨hs.requests, ?_, ?_, hs.got⟩
    · rw [List.forall_mem_append]
      exact ⟨hans.1, hans.2.2⟩
    · rw [List.forall_mem_append, List.forall_mem_singleton]
      exact ⟨hs.chan, hans.2.1⟩
  | take c as rest h hchan =>
    have hch := hs.chan
    rw [hchan, List.forall_mem_cons] at hch
    refine ⟨hs.requests, hs.answers, hch.2, hs.got_update ?_⟩
    rintro as' ⟨⟩
    exact hch.1

theorem asked_of_reachable (h : Reachable calls s) : Asked calls s := by
  induction h with
  | refl =>
    exact ⟨List.forall_mem_nil _, List.forall_mem_nil _, List.forall_mem_nil _,
      by simp [State.init]⟩
  | tail _ hstep ih => exact ih.step hstep

/-- Two calls ask, the node answers the second first, and the first call takes the answer. -/
theorem exists_got_other (calls : C → Call) {c c' : C} (hne : c' ≠ c) :
    ∃ s, Reachable calls s ∧ s.phase c = .got (newAccountState (calls c').address) := by
  let as : AccountState SmartContractState := newAccountState (calls c').address
  have h₁ : Reachable calls _ := .tail .refl (.request c rfl)
  have h₂ := h₁.tail (.request c' (update_of_ne hne _ _))
  have h₃ := h₂.tail (.answer as [] [(calls c).address] rfl)
  have hroom : 0 < accountStateChanSize := by decide
  have h₄ := h₃.tail (.handle as [] [] rfl hroom)
  refine ⟨_, .tail h₄ (.take c as [] ?_ rfl), ?_⟩
  · simp [update_of_ne hne.symm]
  · simp [as]

/-- A call of `AccountState` gets the state of its account in every interleaving just if no
call on the client asks for another account. -/
theorem accountState_iff (calls : C → Call) :
    (∀ s, Reachable calls s → ∀ c, (calls c).method = .accountState → ∀ as,
        s.phase c = .got as → as.address = (calls c).address) ↔
      ∀ c c', (calls c).method = .accountState → (calls c').address = (calls c).address := by
  constructor
  · intro hall c c' hmethod
    by_cases hne : c' = c
    · rw [hne]
    · obtain ⟨s, hs, hgot⟩ := exists_got_other calls hne
      exact hall s hs c hmethod _ hgot
  · intro hsame s hs c hmethod as hgot
    obtain ⟨c', hc'⟩ := (asked_of_reachable hs).got c as hgot
    rw [← hc']
    exact hsame c c' hmethod

/-- Two calls of `AccountState`, for different accounts. -/
def exampleCalls (c : Bool) : Call := ⟨.accountState, bytesToAddress [if c then 1 else 2]⟩

theorem accountState_other :
    ∃ s as, Reachable exampleCalls s ∧ (exampleCalls true).method = .accountState ∧
      s.phase true = .got as ∧ as.address ≠ (exampleCalls true).address := by
  obtain ⟨s, hs, hgot⟩ := exists_got_other exampleCalls Bool.false_ne_true
  exact ⟨s, _, hs, rfl, hgot, by decide⟩

end MetaNode.AccountStateChan
