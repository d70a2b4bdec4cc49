/-
Calls that share readers-writer locks.

A call runs a list of instructions; it takes and gives back locks, works on the shared data
and, at a branch, goes on as the data says.  A lock has many readers or one writer, and a
writer that waits for it keeps new readers out.  Calls are made at any time and their
instructions interleave.
-/
import Mathlib.Data.List.Defs
import Mathlib.Logic.Function.Basic
import Mathlib.Order.WellFounded
import MetaNode.Blocking

namespace RWLock

open Function

inductive Mode where
  | read
  | write
  deriving DecidableEq

inductive Instr (Lock Act : Type*) where
  | rLock (l : Lock)
  | rUnlock (l : Lock)
  /-- The call of `Lock`; the caller waits from here on. -/
  | lock (l : Lock)
  /-- The waiting in `Lock`. -/
  | await (l : Lock)
  | unlock (l : Lock)
  | act (a : Act)
  /-- The instructions that come next are up to the data. -/
  | branch (a : Act)

@[ext]
structure Thread (Lock Act : Type*) where
  held : List (Lock × Mode)
  rest : List (Instr Lock Act)

structure Config (Call Lock Act Data : Type*) where
  data : Data
  /-- The calls that were made. -/
  made : Call → Bool
  thread : Call → Thread Lock Act

structure Code (Call Lock Act Data : Type*) where
  body : Call → List (Instr Lock Act)
  /-- What has to be before the call is made. -/
  ready : Call → Config Call Lock Act Data → Prop
  exec : Call → Act → Data → Data
  choose : Call → Act → Data → List (Instr Lock Act)

variable {Call Lock Act Data : Type*}

namespace Config

def init (data : Data) : Config Call Lock Act Data := ⟨data, fun _ => false, fun _ => ⟨[], []⟩⟩

variable (s : Config Call Lock Act Data) (c : Call)

def Holds (l : Lock) (m : Mode) : Prop := (l, m) ∈ (s.thread c).held

def Waits (l : Lock) : Prop := ∃ rest, (s.thread c).rest = .await l :: rest

def MayRead (l : Lock) : Prop := ∀ c, ¬ s.Holds c l .write ∧ ¬ s.Waits c l

def MayWrite (l : Lock) : Prop := ∀ c m, ¬ s.Holds c l m

def Doing (a : Act) : Prop := ∃ rest, (s.thread c).rest = .act a :: rest

def Unfinished : Prop := (s.thread c).rest ≠ []

variable [DecidableEq Call]

def set (t : Thread Lock Act) : Config Call Lock Act Data :=
  { s with thread := update s.thread c t }

@[simp] theorem thread_set (t : Thread Lock Act) : (s.set c t).thread c = t :=
  update_self ..

theorem thread_set_ne {c c' : Call} (hne : c' ≠ c) (t : Thread Lock Act) :
    (s.set c t).thread c' = s.thread c' :=
  update_of_ne hne ..

def make (C : Code Call Lock Act Data) : Config Call Lock Act Data :=
  { s with made := update s.made c true }.set c ⟨[], C.body c⟩

@[simp] theorem thread_make (C : Code Call Lock Act Data) :
    (s.make c C).thread c = ⟨[], C.body c⟩ :=
  thread_set ..

theorem thread_make_ne {c c' : Call} (hne : c' ≠ c) (C : Code Call Lock Act Data) :
    (s.make c C).thread c' = s.thread c' :=
  thread_set_ne _ hne _

end Config

section Steps

variable [DecidableEq Call] [DecidableEq Lock]

inductive CallStep (C : Code Call Lock Act Data) (c : Call) :
    Config Call Lock Act Data → Config Call Lock Act Data → Prop where
  | rLock {s held l rest} (hthread : s.thread c = ⟨held, .rLock l :: rest⟩)
      (hfree : s.MayRead l) : CallStep C c s (s.set c ⟨(l, .read) :: held, rest⟩)
  | rUnlock {s held l rest} (hthread : s.thread c = ⟨held, .rUnlock l :: rest⟩)
      (hheld : (l, .read) ∈ held) : CallStep C c s (s.set c ⟨held.erase (l, .read), rest⟩)
  | lock {s held l rest} (hthread : s.thread c = ⟨held, .lock l :: rest⟩) :
      CallStep C c s (s.set c ⟨held, .await l :: rest⟩)
  | await {s held l rest} (hthread : s.thread c = ⟨held, .await l :: rest⟩)
      (hfree : s.MayWrite l) : CallStep C c s (s.set c ⟨(l, .write) :: held, rest⟩)
  | unlock {s held l rest} (hthread : s.thread c = ⟨held, .unlock l :: rest⟩)
      (hheld : (l, .write) ∈ held) : CallStep C c s (s.set c ⟨held.erase (l, .write), rest⟩)
  | act {s held a rest} (hthread : s.thread c = ⟨held, .act a :: rest⟩) :
      CallStep C c s ({ s with data := C.exec c a s.data }.set c ⟨held, rest⟩)
  | branch {s held a rest} (hthread : s.thread c = ⟨held, .branch a :: rest⟩) :
      CallStep C c s (s.set c ⟨held, C.choose c a s.data ++ rest⟩)

inductive Step (C : Code Call Lock Act Data) :
    Config Call Lock Act Data → Config Call Lock Act Data → Prop where
  | make {s} (c : Call) (hnew : s.made c = false) (hready : C.ready c s) :
      Step C s (s.make c C)
  | call {s s'} (c : Call) (hstep : CallStep C c s s') : Step C s s'

def Reachable (C : Code Call Lock Act Data) (data : Data) (s : Config Call Lock Act Data) : Prop :=
  Relation.ReflTransGen (Step C) (.init data) s

/-- Some call has not returned, and no call can take a step. -/
def Deadlocked (C : Code Call Lock Act Data) (s : Config Call Lock Act Data) : Prop :=
  (∃ c, s.Unfinished c) ∧ ∀ c s', ¬ CallStep C c s s'

end Steps

/-! ### Policies -/

/-- When a call that holds some locks may ask for another, and what its work needs. -/
structure Policy (Lock Act : Type*) where
  read : List (Lock × Mode) → Lock → Prop
  write : List (Lock × Mode) → Lock → Prop
  needs : Act → List (Lock × Mode)

namespace Policy

variable [DecidableEq Lock] (P : Policy Lock Act)

/-- A program, from some held locks on, keeps to the policy and gives all locks back. -/
def Follows : List (Lock × Mode) → List (Instr Lock Act) → Prop
  | held, [] => held = []
  | held, .rLock l :: rest => P.read held l ∧ Follows ((l, .read) :: held) rest
  | held, .rUnlock l :: rest => (l, .read) ∈ held ∧ Follows (held.erase (l, .read)) rest
  | held, .lock l :: rest => P.write held l ∧ Follows ((l, .write) :: held) rest
  | held, .await l :: rest => P.write held l ∧ Follows ((l, .write) :: held) rest
  | held, .unlock l :: rest => (l, .write) ∈ held ∧ Follows (held.erase (l, .write)) rest
  | held, .act a :: rest => (∀ n ∈ P.needs a, n ∈ held) ∧ Follows held rest
  | held, .branch _ :: rest => held = [] ∧ Follows [] rest

variable {P}

theorem Follows.append {held : List (Lock × Mode)} {instrs rest : List (Instr Lock Act)}
    (hinstrs : P.Follows held instrs) (hrest : P.Follows [] rest) :
    P.Follows held (instrs ++ rest) := by
  induction instrs generalizing held with
  | nil =>
    rw [Follows] at hinstrs
    rw [hinstrs]
    exact hrest
  | cons i instrs ih =>
    cases i with
    | branch =>
      obtain ⟨hnone, hfollows⟩ := hinstrs
      exact ⟨hnone, ih hfollows⟩
    | _ =>
      obtain ⟨hallowed, hfollows⟩ := hinstrs
      exact ⟨hallowed, ih hfollows⟩

end Policy

/-- A call that keeps to the policy, and got what it holds for writing by it. -/
structure Thread.Sound [DecidableEq Lock] (P : Policy Lock Act) (t : Thread Lock Act) : Prop where
  follows : P.Follows t.held t.rest
  written : ∀ l, (l, .write) ∈ t.held → ∃ held, P.write held l

/-- The programs of all calls keep to the policy. -/
structure Code.Sound [DecidableEq Lock] (P : Policy Lock Act) (C : Code Call Lock Act Data) :
    Prop where
  body : ∀ c, P.Follows [] (C.body c)
  choose : ∀ c a d, P.Follows [] (C.choose c a d)

section Invariants

variable [DecidableEq Call] [DecidableEq Lock] {C : Code Call Lock Act Data} {P : Policy Lock Act}
  {s s' : Config Call Lock Act Data} {c c' : Call} {data : Data}

theorem CallStep.frame (hstep : CallStep C c s s') (hne : c' ≠ c) :
    s'.thread c' = s.thread c' := by
  cases hstep <;> exact Config.thread_set_ne _ hne _

theorem Thread.Sound.callStep (hcode : C.Sound P) (hsound : (s.thread c).Sound P)
    (hstep : CallStep C c s s') : (s'.thread c).Sound P := by
  cases hstep with
  | rLock hthread =>
    rw [hthread] at hsound
    rw [Config.thread_set]
    refine ⟨hsound.follows.2, fun l hl => hsound.written l ?_⟩
    exact (List.mem_cons.mp hl).resolve_left (by simp)
  | rUnlock hthread | unlock hthread =>
    rw [hthread] at hsound
    rw [Config.thread_set]
    exact ⟨hsound.follows.2, fun l hl => hsound.written l (List.mem_of_mem_erase hl)⟩
  | lock hthread =>
    rw [hthread] at hsound
    rw [Config.thread_set]
    exact ⟨hsound.follows, hsound.written⟩
  | await hthread =>
    rw [hthread] at hsound
    rw [Config.thread_set]
    refine ⟨hsound.follows.2, fun l hl => ?_⟩
    obtain heq | hheld := List.mem_cons.mp hl
    · rw [(Prod.mk.inj heq).1]
      exact ⟨_, hsound.follows.1⟩
    · exact hsound.written l hheld
  | act hthread =>
    rw [hthread] at hsound
    rw [Config.thread_set]
    exact ⟨hsound.follows.2, hsound.written⟩
  | branch hthread =>
    rw [hthread] at hsound
    rw [Config.thread_set]
    obtain ⟨hnone, hfollows⟩ := hsound.follows
    refine ⟨?_, hsound.written⟩
    rw [hnone]
    exact (hcode.choose _ _ _).append hfollows

theorem sound_step (hcode : C.Sound P) (hsound : ∀ c, (s.thread c).Sound P) (hstep : Step C s s') :
    ∀ c, (s'.thread c).Sound P := by
  intro c'
  cases hstep with
  | make c =>
    by_cases hc : c' = c
    · rw [hc, Config.thread_make]
      exact ⟨hcode.body c, fun l hl => by cases hl⟩
    · rw [Config.thread_make_ne _ hc]
      exact hsound c'
  | call c hstep =>
    by_cases hc : c' = c
    · rw [hc]
      exact (hsound c).callStep hcode hstep
    · rw [hstep.frame hc]
      exact hsound c'

theorem Reachable.sound (hcode : C.Sound P) (hreach : Reachable C data s) (c : Call) :
    (s.thread c).Sound P :=
  Blocking.invariant (I := fun s => ∀ c, (s.thread c).Sound P)
    (fun _ _ hsound hstep => sound_step hcode hsound hstep) hreach
    (fun _ => ⟨rfl, fun l hl => by cases hl⟩) c

variable {l : Lock} {m : Mode}

theorem CallStep.holds (hstep : CallStep C c s s') (hholds : s'.Holds c l m) :
    s.Holds c l m ∨ (m = .read ∧ s.MayRead l) ∨ (m = .write ∧ s.MayWrite l) := by
  rw [Config.Holds] at hholds ⊢
  cases hstep with
  | rLock hthread hfree | await hthread hfree =>
    rw [Config.thread_set] at hholds
    rw [hthread]
    obtain heq | hheld := List.mem_cons.mp hholds
    · obtain ⟨rfl, rfl⟩ := Prod.mk.inj heq
      exact .inr (by simp [hfree])
    · exact .inl hheld
  | rUnlock hthread _ | unlock hthread _ =>
    rw [Config.thread_set] at hholds
    rw [hthread]
    exact .inl (List.mem_of_mem_erase hholds)
  | lock hthread | act hthread | branch hthread =>
    rw [Config.thread_set] at hholds
    rw [hthread]
    exact .inl hholds

def Config.Exclusive (s : Config Call Lock Act Data) : Prop :=
  ∀ c c' l m, s.Holds c l .write → s.Holds c' l m → c' = c

theorem Config.Exclusive.callStep (hex : s.Exclusive) (hstep : CallStep C c s s') :
    s'.Exclusive := by
  intro c₁ c₂ l m hwrite hholds
  have hframe : ∀ c', c' ≠ c → ∀ m, s'.Holds c' l m → s.Holds c' l m := by
    intro c' hne m hholds
    rwa [Config.Holds, hstep.frame hne] at hholds
  by_cases h₁ : c₁ = c
  · by_cases h₂ : c₂ = c
    · rw [h₁, h₂]
    · have hold := hframe c₂ h₂ m hholds
      rw [h₁] at hwrite ⊢
      obtain hwrote | ⟨hread, _⟩ | ⟨_, hfree⟩ := hstep.holds hwrite
      · exact hex c c₂ l m hwrote hold
      · cases hread
      · exact absurd hold (hfree c₂ m)
  · have hwrote := hframe c₁ h₁ .write hwrite
    by_cases h₂ : c₂ = c
    · rw [h₂] at hholds ⊢
      obtain hold | ⟨_, hfree⟩ | ⟨_, hfree⟩ := hstep.holds hholds
      · exact hex c₁ c l m hwrote hold
      · exact absurd hwrote (hfree c₁).1
      · exact absurd hwrote (hfree c₁ .write)
    · exact hex c₁ c₂ l m hwrote (hframe c₂ h₂ m hholds)

theorem Config.Exclusive.step (hex : s.Exclusive) (hstep : Step C s s') : s'.Exclusive := by
  cases hstep with
  | call c hstep => exact hex.callStep hstep
  | make c =>
    -- a new call holds nothing
    have hframe : ∀ c' l m, (s.make c C).Holds c' l m → s.Holds c' l m := by
      intro c' l m hholds
      rw [Config.Holds] at hholds ⊢
      by_cases hc : c' = c
      · rw [hc, Config.thread_make] at hholds
        cases hholds
      · rwa [Config.thread_make_ne _ hc] at hholds
    exact fun c₁ c₂ l m hwrite hholds =>
      hex c₁ c₂ l m (hframe c₁ l .write hwrite) (hframe c₂ l m hholds)

theorem Reachable.exclusive (hreach : Reachable C data s) : s.Exclusive :=
  Blocking.invariant (I := Config.Exclusive) (fun _ _ hex hstep => hex.step hstep) hreach
    (fun _ _ _ _ hwrite => by cases hwrite)

omit [DecidableEq Call] in
theorem Thread.Sound.holds_of_doing (hsound : (s.thread c).Sound P) {a : Act} (hdoing : s.Doing c a)
    (hneeds : (l, m) ∈ P.needs a) : s.Holds c l m := by
  obtain ⟨rest, hrest⟩ := hdoing
  have hfollows := hsound.follows
  rw [hrest] at hfollows
  exact hfollows.1 (l, m) hneeds

/-- **Work that needs a lock for writing is done alone**: no other call is about to do work
that needs the lock. -/
theorem Reachable.alone (hcode : C.Sound P) (hreach : Reachable C data s) {a a' : Act}
    (hdoing : s.Doing c a) (hdoing' : s.Doing c' a') (hneeds : (l, .write) ∈ P.needs a)
    (hneeds' : (l, m) ∈ P.needs a') : c' = c :=
  hreach.exclusive c c' l m ((hreach.sound hcode c).holds_of_doing hdoing hneeds)
    ((hreach.sound hcode c').holds_of_doing hdoing' hneeds')

end Invariants

/-! ### Locks in the order of a rank -/

/-- Each lock is of higher rank than all that is held; a lock that is never taken for
writing may be read at any time. -/
def Policy.ordered {R : Type*} [LT R] (rank : Lock → R) (shared : Lock → Prop)
    (needs : Act → List (Lock × Mode)) : Policy Lock Act where
  read held l := shared l ∨ ∀ h ∈ held, rank h.1 < rank l
  write held l := ¬ shared l ∧ ∀ h ∈ held, rank h.1 < rank l
  needs := needs

section Progress

variable [DecidableEq Call] [DecidableEq Lock] {C : Code Call Lock Act Data}
  {s : Config Call Lock Act Data} {c : Call} {data : Data}
  {R : Type*} {rank : Lock → R} {shared : Lock → Prop} {needs : Act → List (Lock × Mode)}

def Config.Wants (s : Config Call Lock Act Data) (c : Call) (l : Lock) : Prop :=
  s.Waits c l ∨ ∃ rest, (s.thread c).rest = .rLock l :: rest

variable {l : Lock}

omit [DecidableEq Call] in
theorem Config.mayRead_of_shared [LT R]
    (hsound : ∀ c, (s.thread c).Sound (Policy.ordered rank shared needs)) (hshared : shared l) :
    s.MayRead l := by
  intro c
  constructor
  · intro hwrite
    obtain ⟨held, hallowed⟩ := (hsound c).written l hwrite
    exact hallowed.1 hshared
  · rintro ⟨rest, hrest⟩
    have hfollows := (hsound c).follows
    rw [hrest] at hfollows
    exact hfollows.1.1 hshared

/-- A call that has not returned takes a step, or stands before a lock of higher rank than
all that it holds. -/
theorem Config.step_or_wants [LT R]
    (hsound : ∀ c, (s.thread c).Sound (Policy.ordered rank shared needs)) (hc : s.Unfinished c) :
    (∃ s', CallStep C c s s') ∨
      ∃ l, s.Wants c l ∧ ∀ l' m, s.Holds c l' m → rank l' < rank l := by
  have hfollows := (hsound c).follows
  rw [Config.Unfinished] at hc
  cases hthread : s.thread c with
  | mk held rest =>
    rw [hthread] at hfollows hc
    have hheld : ∀ l' m, s.Holds c l' m → (l', m) ∈ held := by
      intro l' m hholds
      rwa [Config.Holds, hthread] at hholds
    cases rest with
    | nil => exact absurd rfl hc
    | cons i rest =>
      cases i with
      | rLock l =>
        obtain hshared | hrank := hfollows.1
        · exact .inl ⟨_, .rLock hthread (mayRead_of_shared hsound hshared)⟩
        · exact .inr ⟨l, .inr ⟨rest, by rw [hthread]⟩, fun l' m hh => hrank _ (hheld l' m hh)⟩
      | rUnlock => exact .inl ⟨_, .rUnlock hthread hfollows.1⟩
      | lock => exact .inl ⟨_, .lock hthread⟩
      | await l =>
        exact .inr ⟨l, .inl ⟨rest, by rw [hthread]⟩, fun l' m hh =>
          hfollows.1.2 _ (hheld l' m hh)⟩
      | unlock => exact .inl ⟨_, .unlock hthread hfollows.1⟩
      | act => exact .inl ⟨_, .act hthread⟩
      | branch => exact .inl ⟨_, .branch hthread⟩

omit [DecidableEq Call] in
theorem Thread.Sound.unfinished_of_holds {P : Policy Lock Act} (hsound : (s.thread c).Sound P)
    {m : Mode} (hholds : s.Holds c l m) : s.Unfinished c := by
  intro hrest
  have hfollows := hsound.follows
  rw [hrest, Policy.Follows] at hfollows
  rw [Config.Holds, hfollows] at hholds
  cases hholds

theorem Config.exists_step_of_wants [Preorder R] [WellFoundedGT R]
    (hsound : ∀ c, (s.thread c).Sound (Policy.ordered rank shared needs)) (hwants : s.Wants c l) :
    ∃ c' s', CallStep C c' s s' := by
  -- by induction from the highest rank down; a holder of the lock is either not stopped or
  -- stands before a lock of higher rank
  induction hr : rank l using WellFoundedGT.induction generalizing c l with
  | _ r ih =>
    have hholder : ∀ c' m, s.Holds c' l m → ∃ c' s', CallStep C c' s s' := by
      intro c' m hholds
      obtain ⟨s', hstep⟩ | ⟨l', hwants', hrank⟩ :=
        step_or_wants hsound ((hsound c').unfinished_of_holds hholds)
      · exact ⟨c', s', hstep⟩
      · exact ih (rank l') (hr ▸ hrank l m hholds) hwants' rfl
    have hwaiting : ∀ c', s.Waits c' l → ∃ c' s', CallStep C c' s s' := by
      rintro c' ⟨rest, hrest⟩
      by_cases hfree : s.MayWrite l
      · exact ⟨c', _, .await (Thread.ext rfl hrest) hfree⟩
      · simp only [MayWrite, not_forall, not_not] at hfree
        obtain ⟨c'', m, hholds⟩ := hfree
        exact hholder c'' m hholds
    obtain hwaits | ⟨rest, hrest⟩ := hwants
    · exact hwaiting c hwaits
    · by_cases hfree : s.MayRead l
      · exact ⟨c, _, .rLock (Thread.ext rfl hrest) hfree⟩
      · simp only [MayRead, not_forall, not_and_or, not_not] at hfree
        obtain ⟨c', hwrites | hwaits⟩ := hfree
        · exact hholder c' .write hwrites
        · exact hwaiting c' hwaits

/-- **If all programs take their locks in the order of a rank, no call waits for ever.** -/
theorem Reachable.not_deadlocked [Preorder R] [WellFoundedGT R]
    (hcode : C.Sound (Policy.ordered rank shared needs)) (hreach : Reachable C data s) :
    ¬ Deadlocked C s := by
  rintro ⟨⟨c, hc⟩, hstuck⟩
  have hsound := hreach.sound hcode
  obtain ⟨s', hstep⟩ | ⟨l, hwants, _⟩ := Config.step_or_wants hsound hc
  · exact hstuck c s' hstep
  · obtain ⟨c', s', hstep⟩ := Config.exists_step_of_wants (C := C) hsound hwants
    exact hstuck c' s' hstep

end Progress

/-! ### Reading a lock again -/

section Recursive

variable [DecidableEq Call] [DecidableEq Lock] {C : Code Call Lock Act Data}
  {s s' : Config Call Lock Act Data} {c w : Call} {held : List (Lock × Mode)} {l : Lock}
  {rest restw : List (Instr Lock Act)}

section

variable (hstep : CallStep C c s s')

include hstep

theorem CallStep.unfinished : s.Unfinished c := by
  rw [Config.Unfinished]
  cases hstep <;> simp [*]

theorem CallStep.mayRead (hthread : s.thread c = ⟨held, .rLock l :: rest⟩) : s.MayRead l := by
  cases hstep <;> simp_all

theorem CallStep.mayWrite (hthread : s.thread c = ⟨held, .await l :: rest⟩) : s.MayWrite l := by
  cases hstep <;> simp_all

end

/-- A call that reads a lock and is about to read it again, and one that waits to write
it, stop each other. -/
theorem deadlocked_of_recursive_read
    (hc : s.thread c = ⟨[(l, .read)], .rLock l :: rest⟩) (hw : s.thread w = ⟨[], .await l :: restw⟩)
    (hothers : ∀ c', c' ≠ c → c' ≠ w → ¬ s.Unfinished c') : Deadlocked C s := by
  refine ⟨⟨c, by rw [Config.Unfinished, hc]; simp⟩, ?_⟩
  intro c' s' hstep
  by_cases hcc : c' = c
  · subst hcc
    refine (hstep.mayRead hc w).2 ⟨restw, ?_⟩
    rw [hw]
  · by_cases hcw : c' = w
    · subst hcw
      refine hstep.mayWrite hw c .read ?_
      rw [Config.Holds, hc]
      exact List.mem_singleton_self _
    · exact hothers c' hcc hcw hstep.unfinished

theorem reachable_reading (data : Data) (hc : C.body c = .rLock l :: rest)
    (hready : C.ready c (.init data)) :
    Reachable C data (((Config.init data).make c C).set c ⟨[(l, .read)], rest⟩) := by
  refine .tail (.single (.make c rfl hready)) (.call c (.rLock (by rw [Config.thread_make, hc]) ?_))
  intro c'
  rw [Config.Holds, Config.Waits]
  by_cases hcc : c' = c
  · rw [hcc, Config.thread_make, hc]
    simp
  · rw [Config.thread_make_ne _ hcc]
    simp [Config.init]

/-- **A program that reads a lock twice and one that writes it can stop each other.** -/
theorem exists_deadlocked_of_recursive_read (data : Data) (hne : w ≠ c)
    (hc : C.body c = .rLock l :: .rLock l :: rest) (hw : C.body w = .lock l :: restw)
    (hready : ∀ s, C.ready c s) (hreadyw : ∀ s, C.ready w s) :
    ∃ s, Reachable C data s ∧ Deadlocked C s := by
  have hreading := reachable_reading data hc (hready _)
  generalize hs : ((Config.init data).make c C).set c ⟨[(l, .read)], .rLock l :: rest⟩ = s
    at hreading
  have hnew : s.made w = false := by
    rw [← hs]
    exact update_of_ne hne _ _
  -- the writer is made and waits
  refine ⟨(s.make w C).set w ⟨[], .await l :: restw⟩,
    (hreading.tail (.make w hnew (hreadyw s))).tail (.call w (.lock ?_)), ?_⟩
  · rw [Config.thread_make, hw]
  · have hreader : ((s.make w C).set w ⟨[], .await l :: restw⟩).thread c
        = ⟨[(l, .read)], .rLock l :: rest⟩ := by
      rw [Config.thread_set_ne _ hne.symm, Config.thread_make_ne _ hne.symm, ← hs,
        Config.thread_set]
    refine deadlocked_of_recursive_read hreader (Config.thread_set ..) ?_
    intro c' hcc hcw
    rw [Config.Unfinished, Config.thread_set_ne _ hcw, Config.thread_make_ne _ hcw, ← hs,
      Config.thread_set_ne _ hcc, Config.thread_make_ne _ hcc]
    exact fun hrest => hrest rfl

end Recursive

end RWLock
