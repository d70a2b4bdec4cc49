/-
Runs of the file database.

A run starts with two empty files and calls `Put`, `BatchPut`, `Delete`, `Compact`
and `Close` with `Open` in any order (`SimpleDBOp`); beside it a finite map gets the
same operations (`SimpleDBOp.apply`).  No call fails to write, so no file gets longer
than an offset can say (`FileFits`).

`IndexHolds` relates a data file and an index with a map; each call keeps it.

* `SimpleDB.batchPut_eq` — what a batch does, with or without a bad key.
-/
import Mathlib.Data.List.DropRight
import MetaNode.SimpleDB

namespace MetaNode

open Function

abbrev IndexWalk := Walk (Sigma fun _ : Bytes => Int64)

/-- A call on a database, with the orders in which it walks maps. -/
inductive SimpleDBOp where
  | put (key value : Bytes) (walk : IndexWalk)
  | batchPut (kvs : List (Bytes × Bytes)) (walk : IndexWalk)
  | delete (key : Bytes)
  | compact (walk save : IndexWalk)
  | closeOpen (walk : IndexWalk)

namespace SimpleDBOp

def step (db : SimpleDB) : SimpleDBOp → Except SimpleDBError SimpleDB
  | put key value walk => .ok (db.put key value walk).2
  | batchPut kvs walk => .ok (SimpleDB.batchPut walk db kvs).2
  | delete key => .ok (db.delete key).2
  | compact walk save => .ok (db.compact walk save).2
  | closeOpen walk => db.closeOpen walk

def apply (m : Bytes → Option Bytes) : SimpleDBOp → Bytes → Option Bytes
  | put key value _ => update m key (some value)
  | batchPut kvs _ => GoMap.putAll m kvs
  | delete key => update m key none
  | compact _ _ => m
  | closeOpen _ => m

def stored : SimpleDBOp → List (Bytes × Bytes)
  | put key value _ => [(key, value)]
  | batchPut kvs _ => kvs
  | _ => []

def KeySized : SimpleDBOp → Prop
  | put key _ _ => key.length = keySize
  | batchPut kvs _ => ∀ kv ∈ kvs, kv.1.length = keySize
  | delete key => key.length = keySize
  | compact _ _ => True
  | closeOpen _ => True

def isDelete : SimpleDBOp → Bool
  | delete _ => true
  | _ => false

end SimpleDBOp

variable (ops : List SimpleDBOp)

def runDB : Except SimpleDBError SimpleDB := do
  let db ← openDB [] []
  ops.foldlM SimpleDBOp.step db

def runMap : Bytes → Option Bytes :=
  ops.foldl SimpleDBOp.apply fun _ => none

/-- No call of a run fails to write: the data file has never `2 ^ 63` bytes. -/
def FileFits : Prop :=
  ∀ n db, runDB (ops.take n) = .ok db → db.file.length < 2 ^ 63

/-! ### A data file and an index as a map -/

/-- The index leads to the values of a map. -/
structure IndexHolds (file : Bytes) (indexMap : IndexMap) (m : Bytes → Option Bytes) : Prop where
  keys : ∀ k ∈ indexMap, k.length = keySize
  records : ∀ k, Option.Rel (RecordAt file) (indexMap.lookup k) (m k)

variable {value : Bytes}

namespace IndexHolds

variable {file : Bytes} {indexMap : IndexMap} {m : Bytes → Option Bytes}

theorem empty : IndexHolds [] ∅ fun _ => none where
  keys := by simp
  records _ := by
    rw [AList.lookup_empty]
    exact .none

variable {key : Bytes}

section

variable (h : IndexHolds file indexMap m)

include h

theorem of_lookup_none (hlook : indexMap.lookup key = none) : m key = none := by
  have hrel := h.records key
  rw [hlook] at hrel
  cases hm : m key with
  | none => rfl
  | some =>
    rw [hm] at hrel
    cases hrel

theorem of_lookup_some {offset : Int64} (hlook : indexMap.lookup key = some offset) :
    key.length = keySize ∧ ∃ value, m key = some value ∧ RecordAt file offset value := by
  have hrel := h.records key
  refine ⟨h.keys key (AList.lookup_isSome.mp (by rw [hlook]; rfl)), ?_⟩
  rw [hlook] at hrel
  cases hm : m key with
  | none =>
    rw [hm] at hrel
    cases hrel
  | some value =>
    rw [hm] at hrel
    cases hrel with
    | some hrec => exact ⟨value, rfl, hrec⟩

theorem append (more : Bytes) : IndexHolds (file ++ more) indexMap m where
  keys := h.keys
  records k := by
    cases hlook : indexMap.lookup k with
    | none =>
      rw [h.of_lookup_none hlook]
      exact .none
    | some =>
      obtain ⟨-, value, hm, hrec⟩ := h.of_lookup_some hlook
      rw [hm]
      exact .some (hrec.append more)

theorem congr {indexMap' : IndexMap}
    (heq : ∀ k, indexMap'.lookup k = indexMap.lookup k) : IndexHolds file indexMap' m where
  keys k hk := by
    rw [← AList.lookup_isSome, heq, AList.lookup_isSome] at hk
    exact h.keys k hk
  records k := by
    rw [heq]
    exact h.records k

theorem erase (key : Bytes) : IndexHolds file (indexMap.erase key) (update m key none) where
  keys k hk := h.keys k (AList.mem_erase.mp hk).2
  records k := by
    by_cases hk : k = key
    · rw [hk, AList.lookup_erase, update_self]
      exact .none
    · rw [AList.lookup_erase_ne hk, update_of_ne hk]
      exact h.records k

theorem insert {offset : Int64} (hkey : key.length = keySize) (hrec : RecordAt file offset value) :
    IndexHolds file (indexMap.insert key offset) (update m key (some value)) where
  keys k hk := by
    rcases (AList.mem_insert _).mp hk with rfl | hk
    · exact hkey
    · exact h.keys k hk
  records k := by
    by_cases hk : k = key
    · rw [hk, AList.lookup_insert, update_self]
      exact .some hrec
    · rw [AList.lookup_insert_ne hk, update_of_ne hk]
      exact h.records k

theorem insert_end (hkey : key.length = keySize)
    (hfits : (file ++ record key value).length < 2 ^ 63) :
    IndexHolds (file ++ record key value) (indexMap.insert key (Int64.ofNat file.length))
      (update m key (some value)) :=
  (h.append _).insert hkey (recordAt_end value hfits)

end

theorem get_eq {db : SimpleDB} (h : IndexHolds db.file db.indexMap m) (key : Bytes) :
    db.get key =
      if key.length ≠ keySize then .error .keySize
      else match m key with
        | none => .error .notFound
        | some value => .ok (readBack value) := by
  rw [SimpleDB.get]
  split
  · rfl
  · cases hlook : db.indexMap.lookup key with
    | none => rw [h.of_lookup_none hlook]
    | some =>
      obtain ⟨-, value, hm, hrec⟩ := h.of_lookup_some hlook
      rw [hm]
      exact hrec.readValue

/-- **`Get` answers as the map does**, up to what is read of a value. -/
theorem toOption_get {db : SimpleDB} (h : IndexHolds db.file db.indexMap m) (key : Bytes) :
    (db.get key).toOption = (m key).map readBack := by
  rw [h.get_eq]
  split
  case isTrue hlen =>
    -- the map has no such key
    rw [h.of_lookup_none (AList.lookup_eq_none.mpr fun hin => hlen (h.keys key hin))]
    rfl
  case isFalse =>
    cases m key with
    | none | some => rfl

theorem compactEntries {es : List (Sigma fun _ : Bytes => Int64)}
    (hes : ∀ e ∈ es, e.1.length = keySize ∧ ∃ value, m e.1 = some value ∧ RecordAt file e.2 value)
    (temp : Bytes) (newIndexMap : IndexMap) :
    ∃ file' indexMap',
      SimpleDB.compactEntries file es (temp, newIndexMap) = .ok (file', indexMap') ∧
      temp.length ≤ file'.length ∧
      (file'.length < 2 ^ 63 → ∀ m', IndexHolds temp newIndexMap m' →
        IndexHolds file' indexMap' fun k => if k ∈ es.map Sigma.fst then m k else m' k) := by
  induction es generalizing temp newIndexMap with
  | nil =>
    refine ⟨temp, newIndexMap, rfl, le_rfl, fun _ m' h' => ?_⟩
    simpa using h'
  | cons e es ih =>
    rw [List.forall_mem_cons] at hes
    obtain ⟨⟨hkey, value, hm, hrec⟩, hes⟩ := hes
    obtain ⟨file', indexMap', hrun, hle, hholds⟩ :=
      ih hes (temp ++ record e.1 (readBack value))
        (newIndexMap.insert e.1 (Int64.ofNat temp.length))
    rw [List.length_append] at hle
    refine ⟨file', indexMap', ?_, by omega, fun hlt m' h' => ?_⟩
    · rw [SimpleDB.compactEntries, hrec.readValue]
      exact hrun
    · -- the record just copied is still in the file, as the file only grows
      have hfits : (temp ++ record e.1 (readBack value)).length < 2 ^ 63 := by
        rw [List.length_append]
        omega
      have hstep := hholds hlt _
        ((h'.append _).insert hkey (recordAt_end (readBack value) hfits).of_readBack)
      have hmap : (fun k => if k ∈ (e :: es).map Sigma.fst then m k else m' k)
          = fun k => if k ∈ es.map Sigma.fst then m k
            else update m' e.1 (some value) k := by
        funext k
        by_cases hk : k = e.1
        · simp [hk, hm]
        · simp only [List.map_cons, List.mem_cons, hk, false_or, update_of_ne hk]
      rw [hmap]
      exact hstep

end IndexHolds

/-! ### What a batch does -/

def keySized (kv : Bytes × Bytes) : Bool := kv.1.length = keySize

/-- The pairs before the first one with a bad key. -/
def goodPairs (kvs : List (Bytes × Bytes)) : List (Bytes × Bytes) := kvs.takeWhile keySized

theorem goodPairs_sized (kvs : List (Bytes × Bytes)) :
    ∀ kv ∈ goodPairs kvs, kv.1.length = keySize := by
  intro kv hkv
  have hsized : keySized kv = true := List.mem_takeWhile_imp hkv
  exact of_decide_eq_true hsized

namespace SimpleDB

/-- The pairs are appended, one after the other. -/
def appendAll (db : SimpleDB) (kvs : List (Bytes × Bytes)) : SimpleDB :=
  kvs.foldl (fun db kv => db.appendRecord kv.1 kv.2) db

theorem batchPut_eq (walk : IndexWalk) (db : SimpleDB) (kvs : List (Bytes × Bytes)) :
    batchPut walk db kvs =
      if ∀ kv ∈ kvs, kv.1.length = keySize then (.ok (), (db.appendAll kvs).saveIndex walk)
      else (.error .keySize, db.appendAll (goodPairs kvs)) := by
  induction kvs generalizing db with
  | nil => simp [batchPut, appendAll]
  | cons kv kvs ih =>
    obtain ⟨key, value⟩ := kv
    by_cases hkey : key.length = keySize
    · have hgood : goodPairs ((key, value) :: kvs) = (key, value) :: goodPairs kvs :=
        List.takeWhile_cons_of_pos (by simpa [keySized] using hkey)
      rw [batchPut, if_neg (not_not.mpr hkey), ih, hgood]
      simp only [List.forall_mem_cons, hkey, true_and]
      rfl
    · have hgood : goodPairs ((key, value) :: kvs) = [] :=
        List.takeWhile_cons_of_neg (by simpa [keySized] using hkey)
      rw [batchPut, if_pos hkey, if_neg fun h => hkey (h _ List.mem_cons_self), hgood]
      rfl

theorem appendAll_indexFile (db : SimpleDB) (kvs : List (Bytes × Bytes)) :
    (db.appendAll kvs).indexFile = db.indexFile := by
  induction kvs generalizing db with
  | nil => rfl
  | cons kv kvs ih => exact ih _

theorem appendAll_file (db : SimpleDB) (kvs : List (Bytes × Bytes)) :
    ∃ more, (db.appendAll kvs).file = db.file ++ more := by
  induction kvs generalizing db with
  | nil => exact ⟨[], (List.append_nil _).symm⟩
  | cons kv kvs ih =>
    obtain ⟨more, hmore⟩ := ih (db.appendRecord kv.1 kv.2)
    refine ⟨record kv.1 kv.2 ++ more, ?_⟩
    rw [← List.append_assoc]
    exact hmore

variable {db : SimpleDB} {m : Bytes → Option Bytes}

theorem holds_appendAll {kvs : List (Bytes × Bytes)} (hkeys : ∀ kv ∈ kvs, kv.1.length = keySize)
    (h : IndexHolds db.file db.indexMap m) (hfits : (db.appendAll kvs).file.length < 2 ^ 63) :
    IndexHolds (db.appendAll kvs).file (db.appendAll kvs).indexMap (GoMap.putAll m kvs) := by
  induction kvs generalizing db m with
  | nil => exact h
  | cons kv kvs ih =>
    rw [List.forall_mem_cons] at hkeys
    refine ih hkeys.2 (h.insert_end hkeys.1 ?_) hfits
    -- later pairs only make the file longer
    obtain ⟨more, hmore⟩ := (db.appendRecord kv.1 kv.2).appendAll_file kvs
    have hlen : (db.appendAll (kv :: kvs)).file.length
        = (db.file ++ record kv.1 kv.2).length + more.length := by
      rw [← List.length_append]
      exact congrArg List.length hmore
    omega

end SimpleDB

/-! ### Calls -/

/-- A database in a run: its index leads to the map `m`, and its index file to `saved`. -/
structure Consistent (db : SimpleDB) (m saved : Bytes → Option Bytes) : Prop where
  holds : IndexHolds db.file db.indexMap m
  onDisk : ∃ (indexMap : IndexMap) (es : List (Sigma fun _ : Bytes => Int64)),
    es.Perm indexMap.entries ∧ db.indexFile = es.flatMap indexRecord ∧
      IndexHolds db.file indexMap saved

variable {op : SimpleDBOp}

namespace Consistent

variable {db : SimpleDB} {m saved : Bytes → Option Bytes}

theorem saveIndex (h : IndexHolds db.file db.indexMap m) (walk : IndexWalk) :
    Consistent (db.saveIndex walk) m m :=
  ⟨h, db.indexMap, walk.order db.indexMap.entries, walk.perm _, rfl, h⟩

theorem crash (h : Consistent db m saved) :
    ∃ db', db.crash = .ok db' ∧ Consistent db' saved saved := by
  obtain ⟨indexMap, es, hperm, hfile, hsaved⟩ := h.onDisk
  obtain ⟨indexMap', hopen, hlook⟩ := openDB_indexRecords hsaved.keys hperm db.file
  rw [← hfile] at hopen
  exact ⟨_, hopen, hsaved.congr hlook, indexMap, es, hperm, hfile, hsaved⟩

theorem batchPut (walk : IndexWalk) {kvs : List (Bytes × Bytes)}
    (hkeys : ∀ kv ∈ kvs, kv.1.length = keySize) (h : IndexHolds db.file db.indexMap m)
    (hfits : (SimpleDB.batchPut walk db kvs).2.file.length < 2 ^ 63) :
    Consistent (SimpleDB.batchPut walk db kvs).2
      (GoMap.putAll m kvs) (GoMap.putAll m kvs) := by
  rw [SimpleDB.batchPut_eq, if_pos hkeys] at hfits ⊢
  exact saveIndex (SimpleDB.holds_appendAll hkeys h hfits) walk

theorem compact (h : IndexHolds db.file db.indexMap m) (walk save : IndexWalk)
    (hfits : (db.compact walk save).2.file.length < 2 ^ 63) :
    Consistent (db.compact walk save).2 m m := by
  have hes : ∀ e ∈ walk.order db.indexMap.entries, e.1.length = keySize ∧
      ∃ value, m e.1 = some value ∧ RecordAt db.file e.2 value := by
    intro e he
    exact h.of_lookup_some (AList.mem_lookup_iff.mpr ((walk.perm _).mem_iff.mp he))
  obtain ⟨file', indexMap', hrun, -, hholds⟩ := IndexHolds.compactEntries hes [] ∅
  have hcompact : db.compact walk save
      = (.ok (), { db with file := file', indexMap := indexMap' : SimpleDB }.saveIndex save) := by
    rw [SimpleDB.compact, hrun]
  rw [hcompact] at hfits ⊢
  refine saveIndex ?_ save
  -- a key without an entry is not in the map
  have hmap : (fun k => if k ∈ (walk.order db.indexMap.entries).map Sigma.fst then m k else none)
      = m := by
    funext k
    split
    · rfl
    · rename_i hk
      refine (h.of_lookup_none (AList.lookup_eq_none.mpr fun hin => hk ?_)).symm
      exact ((walk.perm _).map Sigma.fst).mem_iff.mpr hin
  have hend := hholds hfits _ IndexHolds.empty
  rw [hmap] at hend
  exact hend

/-- **One call.** -/
theorem step (h : Consistent db m saved) (hkeys : op.KeySized) :
    ∃ db', op.step db = .ok db' ∧ (db'.file.length < 2 ^ 63 →
      Consistent db' (op.apply m) (if op.isDelete then saved else op.apply m)) := by
  cases op with
  | put key value walk =>
    refine ⟨_, rfl, ?_⟩
    have hput : db.put key value walk = (.ok (),
        ({ db with indexMap := db.indexMap.erase key }.appendRecord key value).saveIndex walk) :=
      if_neg (not_not.mpr hkeys)
    rw [hput]
    intro hfits
    have hholds := (h.holds.erase key).insert_end hkeys hfits
    rw [update_idem] at hholds
    exact saveIndex hholds walk
  | batchPut kvs walk => exact ⟨_, rfl, fun hfits => batchPut walk hkeys h.holds hfits⟩
  | delete key =>
    refine ⟨_, rfl, fun _ => ?_⟩
    have hdelete : db.delete key = (.ok (), { db with indexMap := db.indexMap.erase key }) :=
      if_neg (not_not.mpr hkeys)
    rw [hdelete]
    exact ⟨h.holds.erase key, h.onDisk⟩
  | compact walk save => exact ⟨_, rfl, fun hfits => compact h.holds walk save hfits⟩
  | closeOpen walk =>
    obtain ⟨db', hopen, h'⟩ := (saveIndex h.holds walk).crash
    exact ⟨db', hopen, fun _ => h'⟩

end Consistent

/-! ### Runs -/

theorem runDB_concat (op : SimpleDBOp) : runDB (ops ++ [op]) = (runDB ops).bind op.step := by
  show (openDB [] []).bind (List.foldlM SimpleDBOp.step · (ops ++ [op])) = _
  simp only [List.foldlM_append, List.foldlM_cons, List.foldlM_nil, bind_pure]
  rfl

theorem runMap_concat (op : SimpleDBOp) : runMap (ops ++ [op]) = op.apply (runMap ops) := by
  rw [runMap, List.foldl_append]
  rfl

variable {ops}

theorem FileFits.of_concat (h : FileFits (ops ++ [op])) : FileFits ops := by
  intro n db hrun
  apply h (min n ops.length) db
  rwa [List.take_append_of_le_length (Nat.min_le_right _ _), ← List.take_eq_take_min]

/-- **A run keeps the database consistent** with the map and with what the map was
before the last calls of `Delete`. -/
theorem runDB_consistent (hkeys : ∀ op ∈ ops, op.KeySized) (hfits : FileFits ops) :
    ∃ db, runDB ops = .ok db ∧
      Consistent db (runMap ops) (runMap (ops.rdropWhile SimpleDBOp.isDelete)) := by
  induction ops using List.reverseRecOn with
  | nil => exact ⟨_, rfl, .empty, ∅, [], .refl _, rfl, .empty⟩
  | append_singleton ops op ih =>
    rw [List.forall_mem_append] at hkeys
    obtain ⟨db, hrun, h⟩ := ih hkeys.1 hfits.of_concat
    obtain ⟨db', hstep, h'⟩ := h.step (hkeys.2 op (List.mem_singleton_self op))
    have hrun' : runDB (ops ++ [op]) = .ok db' := by
      rw [runDB_concat, hrun]
      exact hstep
    refine ⟨db', hrun', ?_⟩
    have hlast := h' (hfits (ops ++ [op]).length db' (by rw [List.take_length]; exact hrun'))
    rw [runMap_concat]
    cases hdel : op.isDelete with
    | true =>
      rw [List.rdropWhile_concat_pos _ _ _ hdel]
      simpa only [hdel, if_true] using hlast
    | false =>
      rw [List.rdropWhile_concat_neg _ _ _ (by rw [hdel]; exact Bool.false_ne_true), runMap_concat]
      simpa only [hdel, Bool.false_eq_true, if_false] using hlast

theorem SimpleDBOp.apply_eq_some {m : Bytes → Option Bytes} {key : Bytes}
    (h : op.apply m key = some value) : m key = some value ∨ (key, value) ∈ op.stored := by
  cases op with
  | put k v => exact GoMap.putAll_eq_some (show GoMap.putAll m [(k, v)] key = some value from h)
  | batchPut => exact GoMap.putAll_eq_some h
  | delete k =>
    by_cases hk : key = k
    · rw [SimpleDBOp.apply, hk, update_self] at h
      cases h
    · rw [SimpleDBOp.apply, update_of_ne hk] at h
      exact .inl h
  | compact | closeOpen => exact .inl h

theorem exists_stored {key : Bytes} (h : runMap ops key = some value) :
    ∃ op ∈ ops, (key, value) ∈ op.stored := by
  induction ops using List.reverseRecOn with
  | nil => cases h
  | append_singleton ops op ih =>
    rw [runMap_concat] at h
    rcases SimpleDBOp.apply_eq_some h with hm | hmem
    · obtain ⟨op', hop', hmem⟩ := ih hm
      exact ⟨op', List.mem_append_left _ hop', hmem⟩
    · exact ⟨op, List.mem_append_right _ (List.mem_singleton_self op), hmem⟩

/-- **`Get` answers as the map does.** -/
theorem get_runDB {ops : List SimpleDBOp}
    (hops : ∀ op ∈ ops, op.KeySized ∧ ∀ kv ∈ op.stored, kv.2.length < 2 ^ 30)
    (hfits : FileFits ops) :
    ∃ db, runDB ops = .ok db ∧ ∀ key, (db.get key).toOption = runMap ops key := by
  obtain ⟨db, hrun, h⟩ := runDB_consistent (fun op hop => (hops op hop).1) hfits
  refine ⟨db, hrun, fun key => ?_⟩
  rw [h.holds.toOption_get]
  cases hm : runMap ops key with
  | none => rfl
  | some value =>
    obtain ⟨op, hop, hmem⟩ := exists_stored hm
    have hlt : value.length < 2 ^ 30 := (hops op hop).2 _ hmem
    rw [Option.map_some, readBack_eq_self_iff.mpr (.of_length_le hlt.le)]

def sampleKey : Bytes := List.replicate keySize 1

def putDelete : List SimpleDBOp := [.put sampleKey [7] Walk.id, .delete sampleKey]

theorem fits_put_delete : FileFits putDelete := by
  intro n db hrun
  match n with
  | 0 | 1 =>
    cases hrun
    decide
  | n + 2 =>
    rw [List.take_of_length_le (Nat.le_add_left 2 n)] at hrun
    cases hrun
    decide

theorem get_runDB_put_delete :
    ∃ db, runDB putDelete = .ok db ∧
      ∀ key, (db.get key).toOption = runMap putDelete key :=
  get_runDB (by simp [putDelete, SimpleDBOp.KeySized, SimpleDBOp.stored, sampleKey]) fits_put_delete

/-! ### Stopping without `Close` -/

theorem foldl_apply_delete (hops : ∀ op ∈ ops, op.isDelete) (m : Bytes → Option Bytes)
    (key : Bytes) :
    (SimpleDBOp.delete key ∈ ops → ops.foldl SimpleDBOp.apply m key = none) ∧
    (SimpleDBOp.delete key ∉ ops → ops.foldl SimpleDBOp.apply m key = m key) := by
  induction ops using List.reverseRecOn with
  | nil => exact ⟨nofun, fun _ => rfl⟩
  | append_singleton ops op ih =>
    rw [List.forall_mem_append] at hops
    obtain ⟨hin, hout⟩ := ih hops.1
    cases op with
    | delete k =>
      rw [List.foldl_append]
      by_cases hk : key = k
      · simp [SimpleDBOp.apply, hk]
      · simpa [SimpleDBOp.apply, hk] using ⟨hin, hout⟩
    | _ => exact absurd (hops.2 _ (List.mem_singleton_self _)) Bool.false_ne_true

theorem runMap_trailing (ops : List SimpleDBOp) (key : Bytes) :
    (SimpleDBOp.delete key ∈ ops.rtakeWhile SimpleDBOp.isDelete → runMap ops key = none) ∧
    (SimpleDBOp.delete key ∉ ops.rtakeWhile SimpleDBOp.isDelete →
      runMap ops key = runMap (ops.rdropWhile SimpleDBOp.isDelete) key) := by
  have hsplit : runMap ops = (ops.rtakeWhile SimpleDBOp.isDelete).foldl SimpleDBOp.apply
      (runMap (ops.rdropWhile SimpleDBOp.isDelete)) := by
    rw [runMap, runMap, ← List.foldl_append, List.rdropWhile_append_rtakeWhile]
  rw [hsplit]
  exact foldl_apply_delete (fun op hop => List.mem_rtakeWhile_imp hop) _ key

/-- **A database that is opened again without `Close` is the one before exactly if no
`Delete` at the end of the run removed a key**, and every value is read as it is: at most
`2 ^ 30` bytes are, and up to `2 ^ 32` those behind them are taken for zeros. -/
theorem crash_runDB_iff {ops : List SimpleDBOp} (hkeys : ∀ op ∈ ops, op.KeySized)
    (hfits : FileFits ops) :
    ∃ db db', runDB ops = .ok db ∧ db.crash = .ok db' ∧
      ((∀ key, (db'.get key).toOption = runMap ops key) ↔
        (∀ key, SimpleDBOp.delete key ∈ ops.rtakeWhile SimpleDBOp.isDelete →
          runMap (ops.rdropWhile SimpleDBOp.isDelete) key = none) ∧
        ∀ key value, runMap ops key = some value → Intact value) := by
  obtain ⟨db, hrun, h⟩ := runDB_consistent hkeys hfits
  obtain ⟨db', hcrash, h'⟩ := h.crash
  refine ⟨db, db', hrun, hcrash, ?_⟩
  simp only [h'.holds.toOption_get]
  constructor
  · intro hsame
    refine ⟨fun key hdel => ?_, fun key value hm => ?_⟩
    · have hkey := hsame key
      rw [(runMap_trailing ops key).1 hdel, Option.map_eq_none_iff] at hkey
      exact hkey
    · have hkey := hsame key
      have hnot : SimpleDBOp.delete key ∉ ops.rtakeWhile SimpleDBOp.isDelete := by
        intro hdel
        rw [(runMap_trailing ops key).1 hdel] at hm
        cases hm
      rw [← (runMap_trailing ops key).2 hnot, hm, Option.map_some, Option.some.injEq] at hkey
      exact readBack_eq_self_iff.mp hkey
  · rintro ⟨hdeleted, hintact⟩ key
    by_cases hdel : SimpleDBOp.delete key ∈ ops.rtakeWhile SimpleDBOp.isDelete
    · rw [hdeleted key hdel, (runMap_trailing ops key).1 hdel]
      rfl
    · rw [← (runMap_trailing ops key).2 hdel]
      cases hm : runMap ops key with
      | none => rfl
      | some value => rw [Option.map_some, readBack_eq_self_iff.mpr (hintact key value hm)]

theorem crash_runDB_iff_put_delete :
    ∃ db db', runDB putDelete = .ok db ∧ db.crash = .ok db' ∧
      ((∀ key, (db'.get key).toOption = runMap putDelete key) ↔
        (∀ key, SimpleDBOp.delete key ∈ putDelete.rtakeWhile SimpleDBOp.isDelete →
          runMap (putDelete.rdropWhile SimpleDBOp.isDelete) key = none) ∧
        ∀ key value, runMap putDelete key = some value → Intact value) :=
  crash_runDB_iff (by simp [putDelete, SimpleDBOp.KeySized, sampleKey]) fits_put_delete

/-- A deleted value is back. -/
theorem crash_after_delete :
    ∃ db db', runDB putDelete = .ok db ∧ db.crash = .ok db' ∧
      db.get sampleKey = .error .notFound ∧ runMap putDelete sampleKey = none ∧
      db'.get sampleKey = .ok [7] := by
  refine ⟨_, _, rfl, rfl, ?_, ?_, ?_⟩ <;> decide

end MetaNode
