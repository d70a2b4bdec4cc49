/-
The gas of the receipts since the last `Commit` or `Discard`.

`GasUsed` and `UpdateExecuteResultToReceipt` look at the map only, and
`IntermediateRoot` empties it.
-/
import MetaNode.Receipts

namespace MetaNode

open KeyedLog

variable {E : Env}

/-- A collection just after it was made, committed or discarded. -/
inductive Opened (E : Env) : Receipts → Prop
  | new {db : DB} {r : Receipts} : newReceipts E db = .ok r → Opened E r
  | fromRoot {root : Hash} {db : DB} {r : Receipts} :
    newReceiptsFromRoot E root db = .ok r → Opened E r
  | commit {r r' : Receipts} {walk : Walk Receipt} {store : Walk NodeWrapper} {root : Hash} :
    r.commit E walk store = (.ok root, r') → Opened E r'
  | discard (r : Receipts) : Opened E (r.discard E).2

theorem Opened.dirtyReceipts_eq {r : Receipts} (h : Opened E r) : r.dirtyReceipts = ∅ := by
  cases h with
  | new hnew =>
    rw [newReceipts] at hnew
    split at hnew
    · cases hnew
    · cases hnew
      rfl
  | fromRoot hnew =>
    rw [newReceiptsFromRoot] at hnew
    split at hnew
    · cases hnew
    · cases hnew
      rfl
  | commit hcommit =>
    rw [Receipts.commit] at hcommit
    split at hcommit
    · cases hcommit
    · next r₁ hroot =>
      have hdirty := Receipts.dirtyReceipts_intermediateRoot E hroot
      -- what follows in `Commit` leaves the map alone
      split at hcommit
      · cases hcommit
      · split at hcommit
        · cases hcommit
        · dsimp only at hcommit
          split at hcommit
          · cases hcommit
          · cases hcommit
            exact hdirty
  | discard =>
    rw [Receipts.discard]
    split
    · rfl
    · rfl

namespace Receipts

variable {r : Receipts} {pending : List Receipt}

abbrev gasOf (receipt : Receipt) : ℕ := receipt.gasUsed.toNat

theorem toNat_foldl_gas (l : List Receipt) (totalGas : UInt64) :
    (l.foldl (fun totalGas receipt => totalGas + receipt.gasUsed) totalGas).toNat
      = (totalGas.toNat + (l.map gasOf).sum) % 2 ^ 64 := by
  induction l generalizing totalGas with
  | nil =>
    have hlt := totalGas.toNat_lt
    show totalGas.toNat = (totalGas.toNat + 0) % 2 ^ 64
    omega
  | cons receipt l ih =>
    rw [List.foldl_cons, ih, UInt64.toNat_add, List.map_cons, List.sum_cons]
    show _ = (totalGas.toNat + (receipt.gasUsed.toNat + (l.map gasOf).sum)) % 2 ^ 64
    omega

/-- **`GasUsed` is the sum over the distinct hashes in the map**, if it fits. -/
theorem Dirty.gasUsed_eq (h : Dirty r pending) (walk : Walk Receipt)
    (hlt : total Receipt.transactionHash gasOf pending < 2 ^ 64) :
    (r.gasUsed walk).toNat = total Receipt.transactionHash gasOf pending := by
  have hsum : ((walk.order (values r.dirtyReceipts)).map gasOf).sum
      = total Receipt.transactionHash gasOf pending := by
    rw [((walk.perm _).map gasOf).sum_eq, h.sum_values gasOf]
  rw [gasUsed, toNat_foldl_gas, hsum]
  show (0 + _) % 2 ^ 64 = _
  omega

end Receipts

namespace Session

open Receipts

variable {s : Session}

theorem dirty_step (h : s.receipts.Dirty s.pending) {op : ReceiptsOp} (hop : op.Within) :
    (s.step E op).receipts.Dirty (s.step E op).pending := by
  cases op with
  | addReceipt receipt => exact h.addReceipts [receipt]
  | addReceipts receipts => exact h.addReceipts receipts
  | updateExecuteResultToReceipt hash res =>
    rcases step_update E h hash res with hstep | ⟨receipt, -, hstep⟩
    · rw [hstep]
      exact h
    · rw [hstep]
      exact h.addReceipts [receipt.updateExecuteResult res]
  | getReceipt hash =>
    show Reflects _ (s.receipts.getReceipt E hash).2.dirtyReceipts s.pending
    rw [dirtyReceipts_getReceipt]
    exact h
  | intermediateRoot =>
    rw [step]
    split
    · next r hroot =>
      show Reflects _ r.dirtyReceipts s.pending
      rw [dirtyReceipts_intermediateRoot_error E hroot]
      exact h
    · next r hroot =>
      show Reflects _ r.dirtyReceipts []
      rw [dirtyReceipts_intermediateRoot E hroot]
      exact reflects_empty
  | commit | discard | reload => exact hop.elim

theorem dirty_run (h : s.receipts.Dirty s.pending) (ops : List ReceiptsOp)
    (hops : ∀ op ∈ ops, op.Within) :
    (s.run E ops).receipts.Dirty (s.run E ops).pending := by
  induction ops generalizing s with
  | nil => exact h
  | cons op ops ih =>
    exact ih (dirty_step h (hops op List.mem_cons_self))
      fun op' h' => hops op' (List.mem_cons_of_mem op h')

/-- **What `GasUsed` and the updates see.**  After any calls since the last `Commit`
or `Discard`, with a gas sum below `2 ^ 64`: `GasUsed` is the sum over the distinct
hashes added since then and every one of them can be updated, just if each of them
was added or updated after the last `IntermediateRoot`. -/
theorem gasUsed_update_iff {r : Receipts} (hr : Opened E r) (ops : List ReceiptsOp)
    (hops : ∀ op ∈ ops, op.Within)
    (hsum : total Receipt.transactionHash gasOf ((start E r).run E ops).log < 2 ^ 64) :
    ((∀ walk, (((start E r).run E ops).receipts.gasUsed walk).toNat
          = total Receipt.transactionHash gasOf ((start E r).run E ops).log) ∧
        ∀ hash ∈ ((start E r).run E ops).log.map Receipt.transactionHash, ∀ res,
          (((start E r).run E ops).receipts.updateExecuteResultToReceipt hash res).1 = .ok ()) ↔
      ∀ hash ∈ ((start E r).run E ops).log.map Receipt.transactionHash,
        hash ∈ ((start E r).run E ops).pending.map Receipt.transactionHash := by
  have hstart : (start E r).receipts.Dirty (start E r).pending := by
    show Reflects _ r.dirtyReceipts []
    rw [hr.dirtyReceipts_eq]
    exact reflects_empty
  have hdirty := dirty_run (E := E) hstart ops hops
  set s := (start E r).run E ops
  constructor
  · rintro ⟨-, hupdate⟩ hash hmem
    have hok := hupdate hash hmem ⟨0, [], 0, 0, []⟩
    exact (hdirty.update_ok_iff hash _).mp hok
  · intro hall
    -- what was left to the trie is shadowed
    have hlatest : ∀ hash, latest Receipt.transactionHash s.pending hash
        = latest Receipt.transactionHash s.log hash := by
      intro hash
      cases hp : latest Receipt.transactionHash s.pending hash with
      | some => rw [log, latest_append, hp, Option.some_or]
      | none =>
        have hnot : hash ∉ s.log.map Receipt.transactionHash :=
          fun hmem => latest_eq_none_iff.mp hp (hall hash hmem)
        rw [latest_eq_none_iff.mpr hnot]
    have htotal := total_congr (w := gasOf) hlatest
    refine ⟨fun walk => ?_, fun hash hmem res =>
      (hdirty.update_ok_iff hash res).mpr (hall hash hmem)⟩
    rw [hdirty.gasUsed_eq walk (by rwa [htotal]), htotal]

/-- Two receipts, of which the first is added again with more gas. -/
def gasRun : List ReceiptsOp :=
  [.addReceipt (exampleReceipt 1 5), .intermediateRoot .id,
    .addReceipts [exampleReceipt 2 7, exampleReceipt 1 6]]

theorem gasUsed_update_iff_gasRun :
    total Receipt.transactionHash gasOf
        ((start stdEnv exampleReceipts).run stdEnv gasRun).log = 13 ∧
      (∀ walk, (((start stdEnv exampleReceipts).run stdEnv gasRun).receipts.gasUsed walk).toNat
          = total Receipt.transactionHash gasOf
            ((start stdEnv exampleReceipts).run stdEnv gasRun).log) ∧
        ∀ hash ∈ ((start stdEnv exampleReceipts).run stdEnv gasRun).log.map Receipt.transactionHash,
          ∀ res, (((start stdEnv exampleReceipts).run stdEnv
            gasRun).receipts.updateExecuteResultToReceipt hash res).1 = .ok () := by
  refine ⟨by decide +kernel,
    (gasUsed_update_iff (.new (newReceipts_eq stdEnv _)) gasRun ?_ ?_).mpr ?_⟩
  · simp [gasRun, ReceiptsOp.Within]
  · decide +kernel
  · decide +kernel

/-- After `IntermediateRoot` the gas of a receipt no longer counts, and it cannot be
updated. -/
theorem gasUsed_zero_after_intermediateRoot :
    let s := (start stdEnv exampleReceipts).run stdEnv
      [.addReceipt (exampleReceipt 1 5), .intermediateRoot .id]
    Opened stdEnv exampleReceipts ∧
      total Receipt.transactionHash gasOf s.log = 5 ∧ s.receipts.gasUsed .id = 0 ∧
      (s.receipts.updateExecuteResultToReceipt (exampleReceipt 1 5).transactionHash
        ⟨.returned, [], 0, 8, []⟩).1 = .error .receiptNotFound :=
  ⟨.new (newReceipts_eq stdEnv _), by decide +kernel, by decide +kernel, by decide +kernel⟩

end Session

end MetaNode
