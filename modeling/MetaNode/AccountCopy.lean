/-
Copies of an account (`AccountState.Copy`).

Here an account holds its smart contract as a reference into a heap, so that two
accounts could hold the same one.  `Copy` gives the copy a smart contract of its
own, and the setters reach only what their account holds or create; so two
accounts that start apart stay apart, unless `SetSmartContractState` is called on
one of them with the very object of the other.

The BLS key is not copied: Go's `copy` writes into the slice it is given, and
that of the copy is nil.
-/
import MetaNode.AccountState

namespace MetaNode

open Function

/-! ### A heap -/

abbrev Ref := ℕ

/-- Objects that have been allocated one after the other. -/
structure Heap (α : Type) where
  cells : Ref → α
  next : Ref

namespace Heap

variable {α : Type} (H : Heap α)

def alloc (x : α) : Ref × Heap α := (H.next, ⟨update H.cells H.next x, H.next + 1⟩)

def modify (r : Ref) (f : α → α) : Heap α :=
  { H with cells := update H.cells r (f (H.cells r)) }

theorem cells_alloc_self (x : α) : (H.alloc x).2.cells (H.alloc x).1 = x :=
  update_self ..

theorem cells_alloc_of_lt (x : α) {r : Ref} (h : r < H.next) : (H.alloc x).2.cells r = H.cells r :=
  update_of_ne h.ne _ _

theorem cells_modify_of_ne {r q : Ref} (h : q ≠ r) (f : α → α) :
    (H.modify r f).cells q = H.cells q :=
  update_of_ne h _ _

end Heap

namespace AccountState

/-! ### Accounts on the heap -/

variable (H : Heap SmartContractState)

/-- An account with the content of its smart contract. -/
def value (as : AccountState Ref) : AccountState SmartContractState :=
  { as with smartContractState := as.smartContractState.map H.cells }

def copy (H : Heap SmartContractState) (as : AccountState Ref) :
    AccountState Ref × Heap SmartContractState :=
  let (smartContractState, H) : Option Ref × Heap SmartContractState :=
    match as.smartContractState with
    | some r =>
      let (r', H) := H.alloc (H.cells r).copy
      (some r', H)
    | none => (none, H)
  ({ address := as.address
     lastHash := as.lastHash
     balance := as.balance
     pendingBalance := as.pendingBalance
     deviceKey := as.deviceKey
     smartContractState := smartContractState
     nonce := as.nonce
     publicKeyBls := copySlice [] as.publicKeyBls
     accountType := as.accountType
     isDirty := false }, H)

def getOrCreateSmartContractState (as : AccountState Ref) :
    Ref × AccountState Ref × Heap SmartContractState :=
  match as.smartContractState with
  | some r => (r, as.setSmartContractState (some r), H)
  | none =>
    let (r, H) := H.alloc .newEmpty
    (r, as.setSmartContractState (some r), H)

/-- A setter of the smart contract, which is created where there is none. -/
def editSmartContract (as : AccountState Ref)
    (f : SmartContractState → SmartContractState) : AccountState Ref × Heap SmartContractState :=
  let (r, as, H) := as.getOrCreateSmartContractState H
  (as, H.modify r f)

end AccountState

/-! ### Setters -/

/-- The setters and the balance operations of an account. -/
inductive Setter where
  | setBalance (newBalance : ℤ)
  | setNewDeviceKey (newDeviceKey : Hash)
  | setLastHash (newLastHash : Hash)
  | setSmartContractState (smState : Option Ref)
  | addPendingBalance (amount : ℤ)
  | subPendingBalance (amount : ℤ)
  | subBalance (amount : ℤ)
  | subTotalBalance (amount : ℤ)
  | addBalance (amount : ℤ)
  | markDirty
  | getOrCreateSmartContractState
  | setCodeHash (hash : Hash)
  | setStorageAddress (storageAddress : Address)
  | setStorageRoot (hash : Hash)
  | setCreatorPublicKey (creatorPublicKey : BlsPublicKey)
  | addLogHash (hash : Hash)
  | setPendingBalance (newBalance : ℤ)
  | setNonce (newNonce : UInt64)
  | plusOneNonce
  | setPublicKeyBls (publicKeyBls : Bytes)
  | setAccountType (accountTypeNew : AccountType)

namespace Setter

def call (E : Env) (H : Heap SmartContractState) (as : AccountState Ref) :
    Setter → AccountState Ref × Heap SmartContractState
  | setBalance x => (as.setBalance x, H)
  | setNewDeviceKey key => (as.setNewDeviceKey key, H)
  | setLastHash hash => (as.setLastHash hash, H)
  | setSmartContractState smState => (as.setSmartContractState smState, H)
  | addPendingBalance x => (as.addPendingBalance x, H)
  | subPendingBalance x => ((as.subPendingBalance x).2, H)
  | subBalance x => ((as.subBalance x).2, H)
  | subTotalBalance x => ((as.subTotalBalance x).2, H)
  | addBalance x => (as.addBalance x, H)
  | markDirty => (as.markDirty, H)
  | getOrCreateSmartContractState => (as.getOrCreateSmartContractState H).2
  | setCodeHash hash => as.editSmartContract H fun ss => { ss with codeHash := hash }
  | setStorageAddress address =>
    as.editSmartContract H fun ss => { ss with storageAddress := address }
  | setStorageRoot hash => as.editSmartContract H fun ss => { ss with storageRoot := hash }
  | setCreatorPublicKey key => as.editSmartContract H fun ss => { ss with createPublicKey := key }
  | addLogHash hash => as.editSmartContract H fun ss =>
      { ss with logsHash := E.keccak256 (ss.logsHash.1 ++ hash.1) }
  | setPendingBalance x => (as.setPendingBalance x, H)
  | setNonce n => (as.setNonce n, H)
  | plusOneNonce => (as.plusOneNonce, H)
  | setPublicKeyBls key => ((as.setPublicKeyBls key).2, H)
  | setAccountType type => ((as.setAccountType type).2, H)

/-- The object that a call hands to its account. -/
def handed : Setter → Option Ref
  | setSmartContractState smState => smState
  | _ => none

/-- What a call does to the references of its account and to the heap: objects that
the account does not hold stay as they are, and it holds what it held, what it
was handed or what was created. -/
structure Local (H : Heap SmartContractState) (as : AccountState Ref) (handed : Option Ref)
    (after : AccountState Ref × Heap SmartContractState) : Prop where
  frame : ∀ q < H.next, as.smartContractState ≠ some q → after.2.cells q = H.cells q
  next_le : H.next ≤ after.2.next
  holds : ∀ r, after.1.smartContractState = some r →
    as.smartContractState = some r ∨ handed = some r ∨ (H.next ≤ r ∧ r < after.2.next)

variable {E : Env} {H : Heap SmartContractState} {as : AccountState Ref}

theorem Local.of_keep {handed : Option Ref} {as' : AccountState Ref}
    (h : as'.smartContractState = as.smartContractState) : Local H as handed (as', H) :=
  ⟨fun _ _ _ => rfl, le_refl _, fun _ hr => .inl (h ▸ hr)⟩

theorem local_getOrCreate : Local H as none (as.getOrCreateSmartContractState H).2 := by
  unfold AccountState.getOrCreateSmartContractState
  split
  case h_1 r hr => exact .of_keep hr.symm
  case h_2 =>
    refine ⟨fun q hq _ => H.cells_alloc_of_lt _ hq, Nat.le_succ _, ?_⟩
    rintro r ⟨rfl⟩
    exact .inr (.inr ⟨le_refl _, Nat.lt_succ_self _⟩)

theorem getOrCreate_ref (q : Ref) (hq : q < H.next) (hne : as.smartContractState ≠ some q) :
    q ≠ (as.getOrCreateSmartContractState H).1 := by
  unfold AccountState.getOrCreateSmartContractState
  split
  case h_1 r hr =>
    rintro rfl
    exact hne hr
  case h_2 => exact hq.ne

theorem local_editSmartContract (f : SmartContractState → SmartContractState) :
    Local H as none (as.editSmartContract H f) := by
  have hlocal : Local H as none (as.getOrCreateSmartContractState H).2 := local_getOrCreate
  refine ⟨fun q hq hne => ?_, hlocal.next_le, hlocal.holds⟩
  have hother := getOrCreate_ref q hq hne
  exact (Heap.cells_modify_of_ne _ hother f).trans (hlocal.frame q hq hne)

/-- **What a setter may do.** -/
theorem call_spec (s : Setter) : Local H as s.handed (s.call E H as) := by
  cases s with
  | setSmartContractState =>
    exact ⟨fun _ _ _ => rfl, le_refl _, fun r hr => .inr (.inl hr)⟩
  | getOrCreateSmartContractState => exact local_getOrCreate
  | setCodeHash | setStorageAddress | setStorageRoot | setCreatorPublicKey =>
    exact local_editSmartContract _
  | addLogHash => exact local_editSmartContract _
  | subPendingBalance =>
    refine .of_keep ?_
    unfold AccountState.subPendingBalance
    split <;> rfl
  | subBalance =>
    refine .of_keep ?_
    unfold AccountState.subBalance
    split <;> rfl
  | subTotalBalance =>
    refine .of_keep ?_
    unfold AccountState.subTotalBalance
    dsimp only
    split <;> rfl
  | setPublicKeyBls =>
    refine .of_keep ?_
    unfold AccountState.setPublicKeyBls
    repeat' split
    all_goals rfl
  | setAccountType =>
    refine .of_keep ?_
    unfold AccountState.setAccountType
    split <;> rfl
  | _ => exact .of_keep rfl

end Setter

/-! ### An account and its copy -/

inductive Side where
  | original
  | copied
  deriving DecidableEq

def Side.other : Side → Side
  | original => copied
  | copied => original

/-- Two accounts and the smart contracts in memory. -/
structure Memory where
  heap : Heap SmartContractState
  original : AccountState Ref
  copied : AccountState Ref

namespace Memory

def account (M : Memory) : Side → AccountState Ref
  | .original => M.original
  | .copied => M.copied

/-- `Proto` of one of the accounts. -/
def proto (M : Memory) (side : Side) : Pb.AccountState := ((M.account side).value M.heap).proto

/-- The memory after `Copy`. -/
def ofCopy (H : Heap SmartContractState) (as : AccountState Ref) : Memory :=
  ⟨(as.copy H).2, as, (as.copy H).1⟩

def step (E : Env) (M : Memory) (c : Side × Setter) : Memory :=
  let (as, H) := c.2.call E M.heap (M.account c.1)
  match c.1 with
  | .original => { M with original := as, heap := H }
  | .copied => { M with copied := as, heap := H }

def run (E : Env) (M : Memory) (cs : List (Side × Setter)) : Memory := cs.foldl (step E) M

/-- The accounts hold allocated objects, and not the same one. -/
structure Apart (M : Memory) : Prop where
  allocated : ∀ side r, (M.account side).smartContractState = some r → r < M.heap.next
  ne : ∀ r, M.original.smartContractState = some r → M.copied.smartContractState ≠ some r

/-- A call hands an account no object of the other one, and no dangling pointer. -/
def Hands (M : Memory) (c : Side × Setter) : Prop :=
  ∀ r, c.2.handed = some r → r < M.heap.next ∧ (M.account c.1.other).smartContractState ≠ some r

variable {E : Env} {M : Memory} {c : Side × Setter}

theorem account_step_self : (M.step E c).account c.1 = (c.2.call E M.heap (M.account c.1)).1 := by
  obtain ⟨side, s⟩ := c
  cases side <;> rfl

theorem account_step_other : (M.step E c).account c.1.other = M.account c.1.other := by
  obtain ⟨side, s⟩ := c
  cases side <;> rfl

theorem heap_step : (M.step E c).heap = (c.2.call E M.heap (M.account c.1)).2 := by
  obtain ⟨side, s⟩ := c
  cases side <;> rfl

theorem Apart.ne_of_side (h : M.Apart) (side : Side) {r : Ref}
    (hr : (M.account side).smartContractState = some r) :
    (M.account side.other).smartContractState ≠ some r := by
  cases side with
  | original => exact h.ne r hr
  | copied => exact fun hr' => h.ne r hr' hr

theorem apart_of_side (side : Side)
    (hself : ∀ r, (M.account side).smartContractState = some r → r < M.heap.next)
    (hother : ∀ r, (M.account side.other).smartContractState = some r → r < M.heap.next)
    (hne : ∀ r, (M.account side).smartContractState = some r →
      (M.account side.other).smartContractState ≠ some r) : M.Apart := by
  cases side with
  | original => exact ⟨fun side => by cases side <;> assumption, hne⟩
  | copied => exact ⟨fun side => by cases side <;> assumption, fun r hr hr' => hne r hr' hr⟩

/-- **The accounts stay apart.** -/
theorem Apart.step (h : M.Apart) (hc : M.Hands c) : (M.step E c).Apart := by
  have hlocal : Setter.Local M.heap (M.account c.1) c.2.handed
      (c.2.call E M.heap (M.account c.1)) := c.2.call_spec
  apply apart_of_side c.1
  · intro r hr
    rw [account_step_self] at hr
    rw [heap_step]
    rcases hlocal.holds r hr with hr | hr | hr
    · exact lt_of_lt_of_le (h.allocated _ r hr) hlocal.next_le
    · exact lt_of_lt_of_le (hc r hr).1 hlocal.next_le
    · exact hr.2
  · intro r hr
    rw [account_step_other] at hr
    rw [heap_step]
    exact lt_of_lt_of_le (h.allocated _ r hr) hlocal.next_le
  · intro r hr hr'
    rw [account_step_self] at hr
    rw [account_step_other] at hr'
    rcases hlocal.holds r hr with hr | hr | hr
    · exact h.ne_of_side c.1 hr hr'
    · exact (hc r hr).2 hr'
    · -- a new object is not one that the other account held before
      exact absurd (h.allocated _ r hr') (not_lt.mpr hr.1)

theorem Apart.proto_step (h : M.Apart) : (M.step E c).proto c.1.other = M.proto c.1.other := by
  have hlocal : Setter.Local M.heap (M.account c.1) c.2.handed
      (c.2.call E M.heap (M.account c.1)) := c.2.call_spec
  have hvalue : (M.account c.1.other).value (M.step E c).heap
      = (M.account c.1.other).value M.heap := by
    unfold AccountState.value
    cases hother : (M.account c.1.other).smartContractState with
    | none => rfl
    | some q =>
      have hne : (M.account c.1).smartContractState ≠ some q :=
        fun hq => h.ne_of_side c.1 hq hother
      rw [Option.map_some, Option.map_some, heap_step,
        hlocal.frame q (h.allocated _ q hother) hne]
  rw [proto, account_step_other, hvalue, proto]

end Memory

/-! ### Copying -/

namespace AccountState

variable {H : Heap SmartContractState} {as : AccountState Ref}

theorem apart_ofCopy (has : ∀ r, as.smartContractState = some r → r < H.next) :
    (Memory.ofCopy H as).Apart := by
  cases hsc : as.smartContractState with
  | none =>
    have hcopy : (as.copy H).1.smartContractState = none := by simp [copy, hsc]
    apply Memory.apart_of_side .original
    · intro r hr
      exact absurd (hsc.symm.trans hr) nofun
    · intro r hr
      exact absurd (hcopy.symm.trans hr) nofun
    · intro r hr
      exact absurd (hsc.symm.trans hr) nofun
  | some q =>
    have hq := has q hsc
    have hcopy : (as.copy H).1.smartContractState = some H.next := by simp [copy, hsc, Heap.alloc]
    have hnext : (as.copy H).2.next = H.next + 1 := by simp [copy, hsc, Heap.alloc]
    apply Memory.apart_of_side .original
    · intro r hr
      obtain rfl : q = r := Option.some.inj (hsc.symm.trans hr)
      show q < (as.copy H).2.next
      rw [hnext]
      exact Nat.lt_succ_of_lt hq
    · intro r hr
      obtain rfl : H.next = r := Option.some.inj (hcopy.symm.trans hr)
      show H.next < (as.copy H).2.next
      rw [hnext]
      exact Nat.lt_succ_self _
    · intro r hr hr'
      obtain rfl : q = r := Option.some.inj (hsc.symm.trans hr)
      exact hq.ne' (Option.some.inj (hcopy.symm.trans hr'))

theorem value_ofCopy (has : ∀ r, as.smartContractState = some r → r < H.next) :
    as.value (as.copy H).2 = as.value H := by
  unfold value
  cases hsc : as.smartContractState with
  | none => rfl
  | some q =>
    have hcells : (as.copy H).2.cells q = H.cells q := by
      simpa [copy, hsc] using H.cells_alloc_of_lt (H.cells q).copy (has q hsc)
    rw [Option.map_some, Option.map_some, hcells]

theorem rel_copy : Option.Rel SmartContractState.Same
    ((as.copy H).1.value (as.copy H).2).smartContractState (as.value H).smartContractState := by
  cases hsc : as.smartContractState with
  | none => simp [value, copy, hsc]
  | some q =>
    have hcells := H.cells_alloc_self (H.cells q).copy
    simp only [value, copy, hsc, Option.map_some, hcells]
    exact .some (H.cells q).same_copy

/-- **The copy of an account equals it on all encoded fields if and only if there
is no BLS key.  Afterwards no call on one of the two changes the message of the
other**, in any run in which none is handed the smart contract of the other. -/
theorem copy_same_iff (E : Env) (H : Heap SmartContractState) (as : AccountState Ref)
    (has : ∀ r, as.smartContractState = some r → r < H.next) :
    (((as.copy H).1.value (as.copy H).2).Same (as.value H) ↔ as.publicKeyBls = []) ∧
      (Memory.ofCopy H as).proto .original = (as.value H).proto ∧
      ∀ cs : List (Side × Setter),
        (∀ done c, done ++ [c] <+: cs → ((Memory.ofCopy H as).run E done).Hands c) →
        ∀ done c, done ++ [c] <+: cs →
          ((Memory.ofCopy H as).run E (done ++ [c])).proto c.1.other
            = ((Memory.ofCopy H as).run E done).proto c.1.other := by
  refine ⟨⟨?_, ?_⟩, ?_, ?_⟩
  · rintro ⟨hfields, -⟩
    have hkey : copySlice [] as.publicKeyBls = as.publicKeyBls :=
      congrArg AccountState.publicKeyBls hfields
    rw [← hkey, copySlice_nil]
  · intro hkey
    refine ⟨?_, rel_copy⟩
    simp only [value, copy, hkey, copySlice_nil]
  · rw [Memory.proto]
    exact congrArg proto (value_ofCopy has)
  · intro cs hcs
    -- the accounts are apart after every part of the run
    have hapart : ∀ done, done <+: cs → ((Memory.ofCopy H as).run E done).Apart := by
      intro done
      induction done using List.reverseRecOn with
      | nil => exact fun _ => apart_ofCopy has
      | append_singleton done c ih =>
        intro hpre
        have hbefore := ih ((List.prefix_append _ _).trans hpre)
        rw [Memory.run, List.foldl_concat]
        exact hbefore.step (hcs done c hpre)
    intro done c hpre
    rw [Memory.run, List.foldl_concat]
    exact (hapart done ((List.prefix_append _ _).trans hpre)).proto_step

theorem copy_same_iff_contract :
    let H : Heap SmartContractState := ⟨fun _ => .newEmpty, 1⟩
    let as : AccountState Ref :=
      (newAccountState (FixedBytes.zero 20)).setSmartContractState (some 0)
    let M := Memory.ofCopy H as
    let c : Side × Setter := (.copied, .setCodeHash ⟨List.replicate 32 1, rfl⟩)
    ((as.copy H).1.value (as.copy H).2).Same (as.value H) ∧
      (M.run stdEnv [c]).proto .original = M.proto .original ∧
      (M.run stdEnv [c]).proto .copied ≠ M.proto .copied := by
  intro H as M c
  obtain ⟨hsame, -, hindep⟩ := copy_same_iff stdEnv H as (by decide)
  refine ⟨hsame.mpr rfl, hindep [c] ?_ [] c (List.prefix_refl _), ?_⟩
  · intro done c' hpre r hr
    obtain rfl : c' = c := by simpa using hpre.subset (List.mem_append_right _ (.head _))
    cases hr
  · intro hproto
    have hcode := congrArg (fun p => p.smartContractState.map Pb.SmartContractState.codeHash) hproto
    exact absurd hcode (by decide)

/-- The BLS key is lost. -/
theorem copy_loses_publicKeyBls :
    let H : Heap SmartContractState := ⟨fun _ => .newEmpty, 0⟩
    let as : AccountState Ref :=
      ((newAccountState (FixedBytes.zero 20)).setPublicKeyBls (List.replicate 48 1)).2
    ((as.copy H).1.value (as.copy H).2).proto.publicKeyBls = [] ∧
      (as.value H).proto.publicKeyBls = List.replicate 48 1 := by
  decide

end AccountState

end MetaNode
