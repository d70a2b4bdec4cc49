/-
Balances of an account, and what a transaction may cost it.

The balance and what is pending are two amounts that four of the five operations
treat alone; `SubTotalBalance` empties the second into the first.  None of them
lets an amount fall below zero, and together they keep books
(`AccountState.run_balances`).

`ValidMaxFee` compares the total with the amount and the highest fee of a
transaction (`Transaction.maxFee`).  A transaction that is signed as a message
falls under the types that `MaxFee` does not know, for which the fee is zero:
its gas is not covered (`Transaction.validMaxFee_covers_iff`).

`Fee` multiplies with the execution time as well, but takes its factors for
signed numbers: from `2 ^ 63` on, a word counts as negative.
-/
import MetaNode.AccountState
import MetaNode.TransactionHash

namespace MetaNode

variable {σ : Type}

structure AccountState.Solvent (as : AccountState σ) : Prop where
  balance : 0 ≤ as.balance
  pendingBalance : 0 ≤ as.pendingBalance

/-! ### Operations on the balances -/

inductive BalanceOp where
  | addBalance (amount : ℤ)
  | addPendingBalance (amount : ℤ)
  | subBalance (amount : ℤ)
  | subPendingBalance (amount : ℤ)
  | subTotalBalance (amount : ℤ)

variable (as : AccountState σ)

namespace BalanceOp

def amount : BalanceOp → ℤ
  | addBalance amount => amount
  | addPendingBalance amount => amount
  | subBalance amount => amount
  | subPendingBalance amount => amount
  | subTotalBalance amount => amount

def isCredit : BalanceOp → Bool
  | addBalance _ => true
  | addPendingBalance _ => true
  | subBalance _ => false
  | subPendingBalance _ => false
  | subTotalBalance _ => false

def call (as : AccountState σ) : BalanceOp → Except AccountError Unit × AccountState σ
  | addBalance amount => (.ok (), as.addBalance amount)
  | addPendingBalance amount => (.ok (), as.addPendingBalance amount)
  | subBalance amount => as.subBalance amount
  | subPendingBalance amount => as.subPendingBalance amount
  | subTotalBalance amount => as.subTotalBalance amount

/-- By how much a successful operation changes the total. -/
def change (op : BalanceOp) : ℤ := if op.isCredit then op.amount else - op.amount

/-- **What an operation does**: it fails and changes nothing, or it succeeds, the
total changes by its amount and no balance becomes negative.  What is added is
always taken. -/
theorem call_cases (op : BalanceOp) :
    (op.isCredit = false ∧ ∃ e, op.call as = (.error e, as)) ∨
      ∃ as', op.call as = (.ok (), as') ∧ as'.totalBalance = as.totalBalance + op.change ∧
        (0 ≤ op.amount → as.Solvent → as'.Solvent) := by
  cases op with
  | addBalance x =>
    refine .inr ⟨_, rfl, ?_, fun hx h => ⟨add_nonneg h.balance hx, h.pendingBalance⟩⟩
    show as.balance + x + as.pendingBalance = as.balance + as.pendingBalance + x
    omega
  | addPendingBalance x =>
    refine .inr ⟨_, rfl, ?_, fun hx h => ⟨h.balance, add_nonneg h.pendingBalance hx⟩⟩
    show as.balance + (as.pendingBalance + x) = as.balance + as.pendingBalance + x
    omega
  | subBalance x =>
    by_cases hlt : x > as.balance
    · exact .inl ⟨rfl, _, if_pos hlt⟩
    · refine .inr ⟨_, if_neg hlt, ?_, fun _ h => ⟨?_, h.pendingBalance⟩⟩
      · show as.balance - x + as.pendingBalance = as.balance + as.pendingBalance + - x
        omega
      · exact sub_nonneg.mpr (not_lt.mp hlt)
  | subPendingBalance x =>
    by_cases hlt : x > as.pendingBalance
    · exact .inl ⟨rfl, _, if_pos hlt⟩
    · refine .inr ⟨_, if_neg hlt, ?_, fun _ h => ⟨h.balance, ?_⟩⟩
      · show as.balance + (as.pendingBalance - x) = as.balance + as.pendingBalance + - x
        omega
      · exact sub_nonneg.mpr (not_lt.mp hlt)
  | subTotalBalance x =>
    by_cases hlt : x > as.pendingBalance + as.balance
    · exact .inl ⟨rfl, _, if_pos hlt⟩
    · -- all that is left is balance now
      refine .inr ⟨_, if_neg hlt, ?_, fun _ _ => ⟨?_, le_refl 0⟩⟩
      · show as.pendingBalance + as.balance - x + 0 = as.balance + as.pendingBalance + - x
        omega
      · exact sub_nonneg.mpr (not_lt.mp hlt)

end BalanceOp

namespace AccountState

def runBalances (as : AccountState σ) (ops : List BalanceOp) : AccountState σ :=
  ops.foldl (fun as op => (op.call as).2) as

def credited (ops : List BalanceOp) : ℤ :=
  ((ops.filter BalanceOp.isCredit).map BalanceOp.amount).sum

/-- The amounts of the subtractions that returned nil. -/
def debited (as : AccountState σ) : List BalanceOp → ℤ
  | [] => 0
  | op :: ops =>
    (if op.isCredit = false ∧ (op.call as).1 = .ok () then op.amount else 0)
      + debited (op.call as).2 ops

theorem subTotalBalance_ok_iff (x : ℤ) :
    (as.subTotalBalance x).1 = .ok () ↔ x ≤ as.totalBalance := by
  simp only [subTotalBalance, totalBalance, add_comm as.balance]
  split
  case isTrue h => simpa using h
  case isFalse h => simpa using not_lt.mp h

/-- One operation, in the terms of the sums. -/
theorem call_books (op : BalanceOp) (ops : List BalanceOp) :
    (op.call as).2.totalBalance + credited ops
      = as.totalBalance + credited (op :: ops)
        - (if op.isCredit = false ∧ (op.call as).1 = .ok () then op.amount else 0) := by
  rcases op.call_cases as with ⟨hdebit, e, hcall⟩ | ⟨as', hcall, htotal, -⟩
  · simp [hcall, hdebit, credited]
  · rw [hcall, htotal, BalanceOp.change]
    cases hcredit : op.isCredit <;> simp [credited, hcredit] <;> omega

theorem runBalances_spec (ops : List BalanceOp) (as : AccountState σ) (h : as.Solvent)
    (hops : ∀ op ∈ ops, 0 ≤ op.amount) :
    (as.runBalances ops).Solvent ∧
      (as.runBalances ops).totalBalance = as.totalBalance + credited ops - as.debited ops := by
  induction ops generalizing as with
  | nil => exact ⟨h, by simp [runBalances, credited, debited]⟩
  | cons op ops ih =>
    rw [List.forall_mem_cons] at hops
    have hsolvent : (op.call as).2.Solvent := by
      rcases op.call_cases as with ⟨-, e, hcall⟩ | ⟨as', hcall, -, hkeep⟩
      · rwa [hcall]
      · rw [hcall]
        exact hkeep hops.1 h
    obtain ⟨hsol, htotal⟩ := ih (op.call as).2 hsolvent hops.2
    refine ⟨hsol, ?_⟩
    have hbooks := call_books as op ops
    show ((op.call as).2.runBalances ops).totalBalance = _
    rw [htotal, debited, hbooks]
    omega

/-- **The books of an account.**  After any operations with amounts that are not
negative no balance is negative, the total is the first one with all that was
added and without what was successfully subtracted, a call that fails changes
nothing, and `SubTotalBalance` succeeds exactly up to the total. -/
theorem run_balances (as : AccountState σ) (ops : List BalanceOp) (h : as.Solvent)
    (hops : ∀ op ∈ ops, 0 ≤ op.amount) :
    (as.runBalances ops).Solvent ∧
      (as.runBalances ops).totalBalance = as.totalBalance + credited ops - as.debited ops ∧
      (∀ op e, (BalanceOp.call (as.runBalances ops) op).1 = .error e →
        (BalanceOp.call (as.runBalances ops) op).2 = as.runBalances ops) ∧
      ∀ x, ((as.runBalances ops).subTotalBalance x).1 = .ok () ↔
        x ≤ (as.runBalances ops).totalBalance := by
  obtain ⟨hsolvent, htotal⟩ := runBalances_spec ops as h hops
  refine ⟨hsolvent, htotal, ?_, subTotalBalance_ok_iff _⟩
  intro op e herror
  rcases op.call_cases (as.runBalances ops) with ⟨-, e', hcall⟩ | ⟨as', hcall, -⟩
  · rw [hcall]
  · rw [hcall] at herror
    cases herror

/-- Something pending is spent, more than is there is refused. -/
theorem run_balances_pending :
    let as : AccountState Unit := newAccountState (FixedBytes.zero 20)
    let ops : List BalanceOp := [.addPendingBalance 5, .subBalance 1, .subTotalBalance 2]
    (as.runBalances ops).Solvent ∧ (as.runBalances ops).totalBalance = 3 := by
  intro as ops
  obtain ⟨hsolvent, htotal, -⟩ := run_balances as ops ⟨le_refl 0, le_refl 0⟩ (by decide)
  exact ⟨hsolvent, htotal.trans (by decide)⟩

end AccountState

/-! ### What a transaction may cost -/

namespace Transaction

variable (t : Transaction)

def amount : ℤ := BigEndian.toNat t.proto.amount

def gasFeeCap : ℤ := BigEndian.toNat (t.proto.gasFeeCap.getD [])

/-- `MaxFee`: nothing for the types it does not know. -/
def maxFee : ℤ :=
  if t.proto.type = 0 ∨ t.proto.type = 1 then t.proto.maxGas.toNat * t.proto.maxGasPrice.toNat
  else if t.proto.type = 2 then t.proto.maxGas.toNat * t.gasFeeCap
  else 0

def validAmountSpend (fromAccountState : AccountState σ) (spendAmount : ℤ) : Bool :=
  let totalBalance := fromAccountState.balance + fromAccountState.pendingBalance
  let totalSpend := spendAmount + t.amount
  totalBalance ≥ totalSpend

def validMaxFee (fromAccountState : AccountState σ) : Bool :=
  t.validAmountSpend fromAccountState t.maxFee

/-- The price that a transaction agrees to pay for its gas. -/
def price : ℤ := if t.proto.type = 2 then t.gasFeeCap else t.proto.maxGasPrice.toNat

theorem validMaxFee_iff : t.validMaxFee as = true ↔ t.maxFee + t.amount ≤ as.totalBalance := by
  simp [validMaxFee, validAmountSpend, AccountState.totalBalance]

theorem maxFee_eq_of_ne_secpProto
    (htype : t.proto.type = 0 ∨ t.proto.type = 1 ∨ t.proto.type = 2) :
    t.maxFee = t.proto.maxGas.toNat * t.price := by
  rcases htype with h | h | h <;> simp [maxFee, price, h]

theorem maxFee_secpProto (htype : t.proto.type = CachedTransaction.secpProtoType) :
    t.maxFee = 0 := by
  simp [maxFee, htype, CachedTransaction.secpProtoType]

theorem price_secpProto (htype : t.proto.type = CachedTransaction.secpProtoType) :
    t.price = t.proto.maxGasPrice.toNat := by
  simp [price, htype, CachedTransaction.secpProtoType]

/-- **Which transactions `ValidMaxFee` covers**: all of the types 0, 1 and 2, and
those signed as a message only if their gas costs nothing. -/
theorem validMaxFee_covers_iff
    (htype : t.proto.type = 0 ∨ t.proto.type = 1 ∨ t.proto.type = 2 ∨
      t.proto.type = CachedTransaction.secpProtoType) :
    (∀ as : AccountState σ, as.Solvent → t.validMaxFee as = true →
        as.balance + as.pendingBalance ≥ t.amount + t.proto.maxGas.toNat * t.price) ↔
      (t.proto.type = CachedTransaction.secpProtoType →
        t.proto.maxGas.toNat * t.proto.maxGasPrice.toNat = 0) := by
  constructor
  · intro hcovers hsecp
    -- an account that has the amount and nothing more
    have hamount : 0 ≤ t.amount := Int.natCast_nonneg _
    have hpays := hcovers ((newAccountState (FixedBytes.zero 20)).setBalance t.amount)
      ⟨hamount, le_refl 0⟩ (by
        rw [validMaxFee_iff, t.maxFee_secpProto hsecp]
        simp [AccountState.totalBalance, AccountState.setBalance, newAccountState])
    rw [t.price_secpProto hsecp] at hpays
    simp only [AccountState.setBalance, newAccountState] at hpays
    have hle : (t.proto.maxGas.toNat * t.proto.maxGasPrice.toNat : ℤ) ≤ 0 := by linarith
    exact_mod_cast le_antisymm hle (by positivity)
  · intro hfree as _ hvalid
    rw [validMaxFee_iff, AccountState.totalBalance] at hvalid
    rcases htype with h | h | h | h
    · have hfee := t.maxFee_eq_of_ne_secpProto (.inl h)
      linarith
    · have hfee := t.maxFee_eq_of_ne_secpProto (.inr (.inl h))
      linarith
    · have hfee := t.maxFee_eq_of_ne_secpProto (.inr (.inr h))
      linarith
    · have hzero : (t.proto.maxGas.toNat * t.proto.maxGasPrice.toNat : ℤ) = 0 := by
        exact_mod_cast hfree h
      rw [t.price_secpProto h, hzero]
      rw [t.maxFee_secpProto h] at hvalid
      linarith

theorem validMaxFee_covers_iff_dynamicFee :
    let t : Transaction := ⟨{ Pb.Transaction.new with
      type := 2, amount := [5], maxGas := 21000, gasFeeCap := some [10] }⟩
    let as : AccountState SmartContractState :=
      (newAccountState (FixedBytes.zero 20)).setBalance 210005
    t.validMaxFee as = true ∧
      as.balance + as.pendingBalance ≥ t.amount + t.proto.maxGas.toNat * t.price := by
  intro t as
  have hvalid : t.validMaxFee as = true := by decide
  exact ⟨hvalid, (t.validMaxFee_covers_iff (.inr (.inr (.inl rfl)))).mpr (by decide) as
    ⟨by decide, by decide⟩ hvalid⟩

/-- A transfer signed as a message, from an account with its amount only. -/
theorem validMaxFee_secpProto_unpaid :
    let t : Transaction := ⟨{ Pb.Transaction.new with
      type := 0xFF, amount := [5], maxGas := 21000, maxGasPrice := 1000 }⟩
    let as : AccountState SmartContractState := (newAccountState (FixedBytes.zero 20)).setBalance 5
    as.Solvent ∧ t.validMaxFee as = true ∧
      ¬ as.balance + as.pendingBalance ≥ t.amount + t.proto.maxGas.toNat * t.price :=
  ⟨⟨by decide, by decide⟩, by decide, by decide⟩

end Transaction

/-! ### The fee at a price -/

/-- A word taken for a signed number. -/
theorem toInt64_cases (x : UInt64) :
    (x.toNat < 2 ^ 63 ∧ x.toInt64.toInt = x.toNat) ∨
      (2 ^ 63 ≤ x.toNat ∧ x.toInt64.toInt = x.toNat - 2 ^ 64) := by
  have hlt := x.toNat_lt
  have htoInt : x.toInt64.toInt =
      if 2 * x.toNat < 2 ^ 64 then (x.toNat : ℤ) else (x.toNat : ℤ) - (2 ^ 64 : ℕ) :=
    BitVec.toInt_eq_toNat_cond x.toBitVec
  split at htoInt <;> omega

/-- Two words whose product comes out right though both are taken for signed
numbers: for `2 ^ 63` twice, the two signs cancel. -/
def SignedProduct (a b : UInt64) : Prop :=
  a = 0 ∨ b = 0 ∨ (a.toNat < 2 ^ 63 ∧ b.toNat < 2 ^ 63) ∨ (a.toNat = 2 ^ 63 ∧ b.toNat = 2 ^ 63)

/-- Two words whose product, both taken for signed numbers, is with the factor `n` at least
what it should be without: for two negative ones the factor has to make up for them. -/
def CoversProduct (a b : UInt64) (n : ℕ) : Prop :=
  a = 0 ∨ b = 0 ∨ (a.toNat < 2 ^ 63 ∧ b.toNat < 2 ^ 63) ∨
    (2 ^ 63 ≤ a.toNat ∧ 2 ^ 63 ≤ b.toNat) ∧
      a.toNat * b.toNat ≤ (2 ^ 64 - a.toNat) * (2 ^ 64 - b.toNat) * n

theorem toInt_mul_toInt_iff (a b : UInt64) :
    a.toInt64.toInt * b.toInt64.toInt = a.toNat * b.toNat ↔ SignedProduct a b := by
  have ha := a.toNat_lt
  have hb := b.toNat_lt
  have ha0 : a = 0 ↔ a.toNat = 0 := UInt64.toNat_inj.symm
  have hb0 : b = 0 ↔ b.toNat = 0 := UInt64.toNat_inj.symm
  rw [SignedProduct, ha0, hb0]
  obtain ⟨hx, ha'⟩ | ⟨hx, ha'⟩ := toInt64_cases a <;>
    obtain ⟨hy, hb'⟩ | ⟨hy, hb'⟩ := toInt64_cases b <;> rw [ha', hb']
  · exact iff_of_true rfl (.inr (.inr (.inl ⟨hx, hy⟩)))
  · rw [mul_sub, sub_eq_self, mul_eq_zero]
    omega
  · rw [sub_mul, sub_eq_self, mul_eq_zero]
    omega
  · -- both are negative: the error of the product vanishes if they add up to `2 ^ 64`
    have hexpand : ∀ x y : ℤ, (x - 2 ^ 64) * (y - 2 ^ 64) = x * y - 2 ^ 64 * (x + y - 2 ^ 64) := by
      intro x y
      ring
    rw [hexpand, sub_eq_self, mul_eq_zero]
    omega

/-- A number times a negative one covers no positive one. -/
theorem le_mul_sub_iff {x y n : ℕ} (hy : y < 2 ^ 64) (hpos : 0 < y) (hn : 0 < n) :
    (x * y : ℤ) ≤ x * (y - 2 ^ 64) * n ↔ x = 0 := by
  constructor
  · intro hle
    by_contra hx
    have hneg : (x : ℤ) * (y - 2 ^ 64) * n < 0 := by
      refine mul_neg_of_neg_of_pos (mul_neg_of_pos_of_neg ?_ ?_) ?_ <;> omega
    have hprod : (0 : ℤ) < x * y := by
      refine mul_pos ?_ ?_ <;> omega
    omega
  · rintro rfl
    simp

theorem le_toInt_mul_toInt_iff (a b : UInt64) {n : ℕ} (hn : 0 < n) :
    (a.toNat * b.toNat : ℤ) ≤ a.toInt64.toInt * b.toInt64.toInt * n ↔ CoversProduct a b n := by
  have ha := a.toNat_lt
  have hb := b.toNat_lt
  have ha0 : a = 0 ↔ a.toNat = 0 := UInt64.toNat_inj.symm
  have hb0 : b = 0 ↔ b.toNat = 0 := UInt64.toNat_inj.symm
  rw [CoversProduct, ha0, hb0]
  obtain ⟨hx, ha'⟩ | ⟨hx, ha'⟩ := toInt64_cases a <;>
    obtain ⟨hy, hb'⟩ | ⟨hy, hb'⟩ := toInt64_cases b <;> rw [ha', hb']
  · refine iff_of_true ?_ (.inr (.inr (.inl ⟨hx, hy⟩)))
    exact le_mul_of_one_le_right (by positivity) (by omega)
  · rw [le_mul_sub_iff hb (by omega) hn]
    omega
  · rw [mul_comm (a.toNat : ℤ), mul_comm _ (b.toNat : ℤ), le_mul_sub_iff ha (by omega) hn]
    omega
  · have hcast : ((a.toNat : ℤ) - 2 ^ 64) * (b.toNat - 2 ^ 64) * n
        = ((2 ^ 64 - a.toNat) * (2 ^ 64 - b.toNat) * n : ℕ) := by
      push_cast [Nat.cast_sub ha.le, Nat.cast_sub hb.le]
      ring
    rw [hcast, ← Nat.cast_mul, Nat.cast_le]
    constructor
    · intro hle
      exact .inr (.inr (.inr ⟨⟨by omega, by omega⟩, hle⟩))
    · rintro (h | h | h | ⟨-, hle⟩)
      · omega
      · omega
      · omega
      · exact hle

namespace Transaction

variable (t : Transaction)

/-- `Fee`.  Each factor is converted to a signed number. -/
def fee (currentGasPrice : UInt64) : ℤ :=
  t.proto.maxGas.toInt64.toInt * currentGasPrice.toInt64.toInt *
    (t.proto.maxTimeUse / 1000 + 1).toInt64.toInt

theorem toInt_timeFactor (maxTimeUse : UInt64) :
    (maxTimeUse / 1000 + 1).toInt64.toInt = maxTimeUse.toNat / 1000 + 1 := by
  have hlt := maxTimeUse.toNat_lt
  have hfactor : (maxTimeUse / 1000 + 1).toNat = maxTimeUse.toNat / 1000 + 1 := by
    rw [UInt64.toNat_add, UInt64.toNat_div]
    show (maxTimeUse.toNat / 1000 + 1) % 2 ^ 64 = _
    omega
  obtain ⟨-, htoInt⟩ | ⟨hge, -⟩ := toInt64_cases (maxTimeUse / 1000 + 1)
  · rw [htoInt, hfactor]
    push_cast
    rfl
  · omega

theorem maxFee_nonneg : 0 ≤ t.maxFee := by
  have hcap : 0 ≤ t.gasFeeCap := Int.natCast_nonneg _
  rw [maxFee]
  split
  · positivity
  · split
    · positivity
    · exact le_refl 0

/-- **When `Fee` is the product of its factors**, and the fee of a legacy transaction at its
own price covers its `MaxFee`. -/
theorem fee_eq_iff (price : UInt64) :
    (t.fee price = t.proto.maxGas.toNat * price.toNat * (t.proto.maxTimeUse.toNat / 1000 + 1) ∧
      (t.proto.type = 0 → t.fee t.proto.maxGasPrice ≥ t.maxFee ∧ t.maxFee ≥ 0)) ↔
    SignedProduct t.proto.maxGas price ∧
      (t.proto.type = 0 → CoversProduct t.proto.maxGas t.proto.maxGasPrice
        (t.proto.maxTimeUse.toNat / 1000 + 1)) := by
  refine and_congr ?_ (forall_congr' fun htype => ?_)
  · rw [fee, toInt_timeFactor, ← toInt_mul_toInt_iff]
    exact mul_left_inj' (by positivity)
  · have hfee : t.maxFee = t.proto.maxGas.toNat * t.proto.maxGasPrice.toNat := by
      rw [maxFee, if_pos (.inl htype)]
    rw [and_iff_left t.maxFee_nonneg, ge_iff_le, hfee, fee, toInt_timeFactor,
      ← le_toInt_mul_toInt_iff _ _ (Nat.succ_pos _)]
    push_cast
    rfl

/-- A gas limit of `2 ^ 63` at the price 1: the fee is negative. -/
theorem fee_negative :
    let t : Transaction :=
      ⟨{ Pb.Transaction.new with maxGas := 0x8000000000000000, maxGasPrice := 1 }⟩
    t.proto.type = 0 ∧ t.fee 1 = - 2 ^ 63 ∧
      t.proto.maxGas.toNat * (1 : UInt64).toNat * (t.proto.maxTimeUse.toNat / 1000 + 1) = 2 ^ 63 ∧
      ¬ t.fee t.proto.maxGasPrice ≥ t.maxFee := by
  decide +kernel

end Transaction

end MetaNode
