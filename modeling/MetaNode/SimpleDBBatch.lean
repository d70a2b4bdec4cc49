/-
Batches that the file database rejects.

`BatchPut` checks each key just before it writes the pair, so that a batch with a bad
key is written up to there, and only the index file is not.  The states here are those
of any calls, with keys of any length, and of stops between them (`SimpleDB.Reached`).
-/
import MetaNode.SimpleDBRun

namespace MetaNode

/-! ### States -/

/-- What a call does to a map, whatever its keys are. -/
def SimpleDBOp.effect (m : Bytes → Option Bytes) : SimpleDBOp → Bytes → Option Bytes
  | put key value _ => if key.length = keySize then Function.update m key (some value) else m
  | batchPut kvs _ => GoMap.putAll m (goodPairs kvs)
  | delete key => if key.length = keySize then Function.update m key none else m
  | compact _ _ => m
  | closeOpen _ => m

namespace SimpleDB

/-- The states of a database: it is opened with two empty files, gets calls, none of which
fails to write, and may stop at any time and be opened again. -/
inductive Reached : SimpleDB → Prop where
  | empty {db} (h : openDB [] [] = .ok db) : Reached db
  | call {db db'} (op : SimpleDBOp) (hdb : Reached db) (h : op.step db = .ok db')
      (hfits : db'.file.length < 2 ^ 63) : Reached db'
  | crash {db db'} (hdb : Reached db) (h : db.crash = .ok db') : Reached db'

variable {db : SimpleDB} {m saved : Bytes → Option Bytes} {db' : SimpleDB}

/-- **One call**, with keys of any length. -/
theorem consistent_step (h : Consistent db m saved) {op : SimpleDBOp} (hstep : op.step db = .ok db')
    (hfits : db'.file.length < 2 ^ 63) : ∃ saved', Consistent db' (op.effect m) saved' := by
  -- with keys of the right length this is the step of a run
  have hsized : op.KeySized → ∃ saved', Consistent db' (op.apply m) saved' := by
    intro hkeys
    obtain ⟨db₁, hstep₁, h₁⟩ := h.step hkeys
    rw [hstep, Except.ok.injEq] at hstep₁
    subst hstep₁
    exact ⟨_, h₁ hfits⟩
  cases op with
  | put key value walk =>
    by_cases hkey : key.length = keySize
    · rw [SimpleDBOp.effect, if_pos hkey]
      exact hsized hkey
    · have hput : db.put key value walk = (.error .keySize, db) := if_pos hkey
      rw [SimpleDBOp.step, hput, Except.ok.injEq] at hstep
      subst hstep
      rw [SimpleDBOp.effect, if_neg hkey]
      exact ⟨saved, h⟩
  | delete key =>
    by_cases hkey : key.length = keySize
    · rw [SimpleDBOp.effect, if_pos hkey]
      exact hsized hkey
    · have hdelete : db.delete key = (.error .keySize, db) := if_pos hkey
      rw [SimpleDBOp.step, hdelete, Except.ok.injEq] at hstep
      subst hstep
      rw [SimpleDBOp.effect, if_neg hkey]
      exact ⟨saved, h⟩
  | batchPut kvs =>
    by_cases hkeys : ∀ kv ∈ kvs, kv.1.length = keySize
    · have hall : goodPairs kvs = kvs := by
        rw [goodPairs, List.takeWhile_eq_self_iff]
        exact fun kv hkv => decide_eq_true (hkeys kv hkv)
      rw [SimpleDBOp.effect, hall]
      exact hsized hkeys
    · rw [SimpleDBOp.step, batchPut_eq, if_neg hkeys, Except.ok.injEq] at hstep
      subst hstep
      obtain ⟨indexMap, es, hperm, hfile, hsaved⟩ := h.onDisk
      obtain ⟨more, hmore⟩ := db.appendAll_file (goodPairs kvs)
      refine ⟨saved, holds_appendAll (goodPairs_sized kvs) h.holds hfits, indexMap, es, hperm,
        ?_, ?_⟩
      · rw [appendAll_indexFile, hfile]
      · -- the index file is left behind, and the records it leads to are still there
        rw [hmore]
        exact hsaved.append more
  | compact | closeOpen => exact hsized trivial

/-- **Every state is consistent** with some map. -/
theorem Reached.consistent (h : db.Reached) : ∃ m saved, Consistent db m saved := by
  induction h with
  | empty h =>
    cases h
    exact ⟨_, _, .empty, ∅, [], .refl _, rfl, .empty⟩
  | call op _ hstep hfits ih =>
    obtain ⟨m, saved, hdb⟩ := ih
    obtain ⟨saved', hdb'⟩ := consistent_step hdb hstep hfits
    exact ⟨_, _, hdb'⟩
  | crash _ hcrash ih =>
    obtain ⟨m, saved, hdb⟩ := ih
    obtain ⟨db', hcrash', hdb'⟩ := hdb.crash
    rw [hcrash, Except.ok.injEq] at hcrash'
    subst hcrash'
    exact ⟨_, _, hdb'⟩

/-! ### A batch that fails -/

theorem get_congr (h : IndexHolds db.file db.indexMap m) (h' : IndexHolds db'.file db'.indexMap m)
    (key : Bytes) : db'.get key = db.get key := by
  rw [h.get_eq, h'.get_eq]

theorem get_putAll_iff {kvs : List (Bytes × Bytes)} (hkeys : ∀ kv ∈ kvs, kv.1.length = keySize)
    (h : IndexHolds db.file db.indexMap m)
    (h' : IndexHolds db'.file db'.indexMap (GoMap.putAll m kvs)) :
    (∀ key, db'.get key = db.get key) ↔
      ∀ key value, GoMap.putAll (fun _ => none) kvs key = some value →
        db.get key = .ok (readBack value) := by
  constructor
  · intro hsame key value hput
    have hlen : key.length = keySize := by
      obtain hnone | hmem := GoMap.putAll_eq_some hput
      · cases hnone
      · exact hkeys _ hmem
    rw [← hsame, h'.get_eq, if_neg (not_not.mpr hlen), GoMap.putAll_eq_or, hput]
    rfl
  · intro hthere key
    cases hput : GoMap.putAll (fun _ => none) kvs key with
    | none => rw [h'.get_eq, h.get_eq, GoMap.putAll_eq_or, hput, Option.none_or]
    | some value =>
      have hget := hthere key value hput
      have hlen : key.length = keySize := by
        by_contra hne
        rw [h.get_eq, if_pos hne] at hget
        cases hget
      rw [hget, h'.get_eq, if_neg (not_not.mpr hlen), GoMap.putAll_eq_or, hput]
      rfl

/-- **A batch that fails leaves every answer as it was exactly if the pairs before its first
bad key put what is there already.**  `Close` and `Open` change no answer. -/
theorem batchPut_error_iff {db db' : SimpleDB} (hdb : db.Reached) {walk : IndexWalk}
    {kvs : List (Bytes × Bytes)} {e : SimpleDBError} (h : batchPut walk db kvs = (.error e, db'))
    (hfits : db'.file.length < 2 ^ 63) :
    ((∀ key, db'.get key = db.get key) ↔
      ∀ key value, GoMap.putAll (fun _ => none) (goodPairs kvs) key = some value →
        db.get key = .ok (readBack value)) ∧
    ∀ walk', ∃ db'', db'.closeOpen walk' = .ok db'' ∧ ∀ key, db''.get key = db'.get key := by
  obtain ⟨m, saved, hm⟩ := hdb.consistent
  have hstep : (SimpleDBOp.batchPut kvs walk).step db = .ok db' := by
    rw [SimpleDBOp.step, h]
  obtain ⟨saved', hm'⟩ := consistent_step hm hstep hfits
  refine ⟨get_putAll_iff (goodPairs_sized kvs) hm.holds hm'.holds, fun walk' => ?_⟩
  obtain ⟨db'', hopen, hm''⟩ := (Consistent.saveIndex hm'.holds walk').crash
  exact ⟨db'', hopen, get_congr hm'.holds hm''.holds⟩

/-- A database with one value. -/
def sampleDB : SimpleDB := ((⟨[], [], ∅⟩ : SimpleDB).put sampleKey [7] Walk.id).2

theorem sampleDB_reached : sampleDB.Reached :=
  .call (.put sampleKey [7] Walk.id) (.empty rfl) rfl (by decide)

/-- A batch that changes the value and changes it back before its bad key. -/
theorem batchPut_error_restored :
    let kvs : List (Bytes × Bytes) := [(sampleKey, [9]), (sampleKey, [7]), ([1], [8])]
    ∃ db', batchPut Walk.id sampleDB kvs = (.error .keySize, db') ∧
      db'.file.length > sampleDB.file.length ∧ (∀ key, db'.get key = sampleDB.get key) ∧
      ∀ walk', ∃ db'', db'.closeOpen walk' = .ok db'' ∧ ∀ key, db''.get key = db'.get key := by
  refine ⟨_, rfl, by decide, ?_⟩
  obtain ⟨hiff, hreopened⟩ := @batchPut_error_iff _ _ sampleDB_reached Walk.id
    [(sampleKey, [9]), (sampleKey, [7]), ([1], [8])] _ rfl (by decide)
  refine ⟨hiff.mpr fun key value hput => ?_, hreopened⟩
  have hmem : (key, value) ∈ ([(sampleKey, [9]), (sampleKey, [7])] : List (Bytes × Bytes)) :=
    (GoMap.putAll_eq_some hput).resolve_left nofun
  have hkey : key = sampleKey := by
    simp only [List.mem_cons, List.not_mem_nil, or_false, Prod.mk.injEq] at hmem
    tauto
  subst hkey
  cases hput
  decide

/-- The pair before the bad key is stored, and is still there after `Close` and `Open`. -/
theorem batchPut_error_stores :
    let db : SimpleDB := ⟨[], [], ∅⟩
    let kvs : List (Bytes × Bytes) := [(sampleKey, [7]), ([1], [8])]
    openDB [] [] = .ok db ∧ (batchPut Walk.id db kvs).1 = .error .keySize ∧
      db.get sampleKey = .error .notFound ∧
      (batchPut Walk.id db kvs).2.get sampleKey = .ok [7] ∧
      ∃ db'', (batchPut Walk.id db kvs).2.closeOpen Walk.id = .ok db'' ∧
        db''.get sampleKey = .ok [7] := by
  refine ⟨rfl, rfl, rfl, by decide, _, rfl, by decide⟩

end SimpleDB

end MetaNode
