/-
The manager of LevelDB instances (`pkg/storage/leveldb.go`).

`GetOrCreate` keeps two maps of instances, one for reading and one for writing, and
counts the databases it opens.  `Close` takes the path out of the first map only and
lowers the counter; an operation on a closed instance opens its database again
(`ensureOpen`) and leaves the counter alone.

Opening succeeds and closing ends in time here.  An instance is its place in the list
of all instances that were created.

* `returnsClosed_iff` — `GetOrCreate` returns a closed instance exactly if the writing
  instance of the path is closed.
-/
import Mathlib.Data.Int.Order.Basic
import Mathlib.Data.List.Induction
import Mathlib.Logic.Function.Basic
import MetaNode.Bytes
import MetaNode.Machine

namespace MetaNode

open Function

structure LevelDB where
  path : Bytes
  closed : Bool
  deriving DecidableEq

structure LevelDBManager where
  instances : Bytes → Option ℕ
  writeInstances : Bytes → Option ℕ
  maxOpenFiles : ℤ
  activeFiles : ℤ
  /-- Every instance that was created. -/
  dbs : List LevelDB

inductive LevelDBError where
  /-- `invalid path: path is empty` -/
  | emptyPath
  /-- `cannot open more LevelDB instances, maximum limit reached` -/
  | maxOpenFiles
  deriving DecidableEq

namespace LevelDBManager

variable (mgr : LevelDBManager)

/-- `NewLevelDBManager` -/
def new (maxOpenFiles : ℤ) : LevelDBManager := ⟨fun _ => none, fun _ => none, maxOpenFiles, 0, []⟩

def instancesFor (isReadOnly : Bool) : Bytes → Option ℕ :=
  if isReadOnly then mgr.instances else mgr.writeInstances

/-- A new instance, entered in its map and counted. -/
def create (path : Bytes) (isReadOnly : Bool) : LevelDBManager :=
  { mgr with
    instances :=
      if isReadOnly then update mgr.instances path (some mgr.dbs.length)
      else mgr.instances
    writeInstances :=
      if isReadOnly then mgr.writeInstances
      else update mgr.writeInstances path (some mgr.dbs.length)
    activeFiles := mgr.activeFiles + 1
    dbs := mgr.dbs ++ [⟨path, false⟩] }

/-- `GetOrCreate`; an instance that is in the map is returned as it is. -/
def getOrCreate (path : Bytes) (isReadOnly : Bool) :
    Except LevelDBError ℕ × LevelDBManager :=
  if path = [] then (.error .emptyPath, mgr)
  else
    match mgr.instancesFor isReadOnly path with
    | some id => (.ok id, mgr)
    | none =>
      if mgr.activeFiles ≥ mgr.maxOpenFiles then (.error .maxOpenFiles, mgr)
      else (.ok mgr.dbs.length, mgr.create path isReadOnly)

/-- `removeInstance`: nothing is taken out of `writeInstances`. -/
def removeInstance (path : Bytes) : LevelDBManager :=
  { mgr with
    instances := update mgr.instances path none
    activeFiles := mgr.activeFiles - 1 }

def setClosed (id : ℕ) (db : LevelDB) (closed : Bool) : LevelDBManager :=
  { mgr with dbs := mgr.dbs.set id { db with closed := closed } }

def close (id : ℕ) : LevelDBManager :=
  match mgr.dbs[id]? with
  | some db => if db.closed then mgr else (mgr.setClosed id db true).removeInstance db.path
  | none => mgr

/-- `ensureOpen`, as `Get`, `Put` and `BatchPut` begin. -/
def ensureOpen (id : ℕ) : LevelDBManager :=
  match mgr.dbs[id]? with
  | some db => if db.closed then mgr.setClosed id db false else mgr
  | none => mgr

/-! ### Runs -/

inductive Op where
  | getOrCreate (path : Bytes) (isReadOnly : Bool)
  | close (id : ℕ)
  | use (id : ℕ)
  deriving DecidableEq

def step : Op → LevelDBManager
  | .getOrCreate path isReadOnly => (mgr.getOrCreate path isReadOnly).2
  | .close id => mgr.close id
  | .use id => mgr.ensureOpen id

def run (maxOpenFiles : ℤ) (ops : List Op) : LevelDBManager :=
  Machine.run step (new maxOpenFiles) ops

variable (maxOpenFiles : ℤ) (ops : List Op)

theorem run_concat (op : Op) : run maxOpenFiles (ops ++ [op]) = (run maxOpenFiles ops).step op :=
  Machine.run_concat step (new maxOpenFiles) ops op

def IsClosed (id : ℕ) : Prop := ∃ db, mgr.dbs[id]? = some db ∧ db.closed

def openCount : ℕ := mgr.dbs.countP (! ·.closed)

/-- The operation opens a closed database again. -/
def Reopens (op : Op) : Prop := ∃ id, op = .use id ∧ mgr.IsClosed id

/-- The operation is a `GetOrCreate` that returns an instance which is closed. -/
def ReturnsClosed (op : Op) : Prop :=
  ∃ path isReadOnly id, op = .getOrCreate path isReadOnly ∧
    (mgr.getOrCreate path isReadOnly).1 = .ok id ∧
    (mgr.getOrCreate path isReadOnly).2.IsClosed id

structure Counted : Prop where
  active : mgr.activeFiles = mgr.openCount
  nonneg : 0 ≤ mgr.activeFiles
  le_max : mgr.activeFiles ≤ mgr.maxOpenFiles

/-! ### What a step does -/

inductive Effect (mgr : LevelDBManager) (op : Op) : LevelDBManager → Prop
  | same (h : ¬ mgr.Reopens op) : Effect mgr op mgr
  | created (path : Bytes) (isReadOnly : Bool) (hpath : path ≠ [])
      (hlt : mgr.activeFiles < mgr.maxOpenFiles) (h : ¬ mgr.Reopens op) :
      Effect mgr op (mgr.create path isReadOnly)
  | closed (id : ℕ) (db : LevelDB) (hdb : mgr.dbs[id]? = some db) (hopen : db.closed = false)
      (h : ¬ mgr.Reopens op) : Effect mgr op ((mgr.setClosed id db true).removeInstance db.path)
  | reopened (id : ℕ) (db : LevelDB) (hdb : mgr.dbs[id]? = some db) (hclosed : db.closed = true)
      (h : mgr.Reopens op) : Effect mgr op (mgr.setClosed id db false)

theorem step_effect (op : Op) : Effect mgr op (mgr.step op) := by
  cases op with
  | getOrCreate path isReadOnly =>
    have hno : ¬ mgr.Reopens (.getOrCreate path isReadOnly) := by
      rintro ⟨id, hid, -⟩
      cases hid
    rw [step, getOrCreate]
    split
    · exact .same hno
    · rename_i hpath
      split
      · exact .same hno
      · split
        · exact .same hno
        · rename_i hlt
          exact .created path isReadOnly hpath (not_le.mp hlt) hno
  | close id =>
    have hno : ¬ mgr.Reopens (.close id) := by
      rintro ⟨id', hid, -⟩
      cases hid
    rw [step, close]
    split
    · rename_i db hdb
      split
      · exact .same hno
      · rename_i hopen
        exact .closed id db hdb (Bool.eq_false_iff.mpr hopen) hno
    · exact .same hno
  | use id =>
    rw [step, ensureOpen]
    split
    · rename_i db hdb
      split
      · rename_i hclosed
        exact .reopened id db hdb hclosed ⟨id, rfl, db, hdb, hclosed⟩
      · rename_i hopen
        refine .same ?_
        rintro ⟨id', hid, db', hdb', hclosed⟩
        cases hid
        rw [hdb, Option.some.injEq] at hdb'
        exact hopen (hdb' ▸ hclosed)
    · rename_i hnone
      refine .same ?_
      rintro ⟨id', hid, db', hdb', -⟩
      cases hid
      rw [hnone] at hdb'
      cases hdb'

/-! ### Counting -/

theorem openCount_create (path : Bytes) (isReadOnly : Bool) :
    (mgr.create path isReadOnly).openCount = mgr.openCount + 1 := by
  rw [openCount, create, List.countP_append, List.countP_singleton]
  rfl

variable {mgr}

theorem openCount_close {id : ℕ} {db : LevelDB} (hdb : mgr.dbs[id]? = some db)
    (hopen : db.closed = false) : (mgr.setClosed id db true).openCount + 1 = mgr.openCount := by
  obtain ⟨hid, rfl⟩ := List.getElem?_eq_some_iff.mp hdb
  have hpos : 0 < mgr.dbs.countP (! ·.closed) :=
    List.countP_pos_iff.mpr ⟨mgr.dbs[id], List.getElem_mem hid, by rw [hopen]; rfl⟩
  rw [openCount, openCount, setClosed, List.countP_set hid, hopen]
  simp only [Bool.not_true, Bool.not_false, if_true, Bool.false_eq_true, if_false]
  omega

theorem openCount_reopen {id : ℕ} {db : LevelDB} (hdb : mgr.dbs[id]? = some db)
    (hclosed : db.closed = true) : (mgr.setClosed id db false).openCount = mgr.openCount + 1 := by
  obtain ⟨hid, rfl⟩ := List.getElem?_eq_some_iff.mp hdb
  rw [openCount, openCount, setClosed, List.countP_set hid, hclosed]
  simp

def uncounted (mgr : LevelDBManager) : ℤ := mgr.openCount - mgr.activeFiles

variable {mgr' : LevelDBManager} {op : Op}

theorem Effect.uncounted_of_reopens (he : Effect mgr op mgr') (h : mgr.Reopens op) :
    mgr'.uncounted = mgr.uncounted + 1 := by
  cases he with
  | same hno | created path isReadOnly hpath hlt hno | closed id db hdb hopen hno =>
    exact absurd h hno
  | reopened id db hdb hclosed _ =>
    rw [uncounted, uncounted, openCount_reopen hdb hclosed]
    show ((mgr.openCount + 1 : ℕ) : ℤ) - mgr.activeFiles = mgr.openCount - mgr.activeFiles + 1
    omega

theorem Effect.uncounted_of_not (he : Effect mgr op mgr') (h : ¬ mgr.Reopens op) :
    mgr'.uncounted = mgr.uncounted := by
  cases he with
  | same => rfl
  | created path isReadOnly hpath hlt =>
    rw [uncounted, uncounted, openCount_create]
    show ((mgr.openCount + 1 : ℕ) : ℤ) - (mgr.activeFiles + 1) = mgr.openCount - mgr.activeFiles
    omega
  | closed id db hdb hopen =>
    have hcount := openCount_close hdb hopen
    show ((mgr.setClosed id db true).openCount : ℤ) - (mgr.activeFiles - 1) =
      mgr.openCount - mgr.activeFiles
    omega
  | reopened id db hdb hclosed hyes => exact absurd hyes h

/-- Something holds of every operation of a run in the state it finds. -/
def AtEachStep (maxOpenFiles : ℤ) (ops : List Op) (P : LevelDBManager → Op → Prop) : Prop :=
  ∀ before op, before ++ [op] <+: ops → P (run maxOpenFiles before) op

theorem atEachStep_nil (P : LevelDBManager → Op → Prop) : AtEachStep maxOpenFiles [] P := by
  intro before op h
  simp at h

variable {P : LevelDBManager → Op → Prop}

theorem atEachStep_concat {maxOpenFiles : ℤ} {ops : List Op} :
    AtEachStep maxOpenFiles (ops ++ [op]) P ↔
      AtEachStep maxOpenFiles ops P ∧ P (run maxOpenFiles ops) op := by
  constructor
  · intro h
    refine ⟨fun before op' hbefore => ?_, h ops op (List.prefix_refl _)⟩
    exact h before op' (hbefore.trans (List.prefix_append ops [op]))
  · rintro ⟨hops, hop⟩ before op' hbefore
    rcases List.prefix_concat_iff.mp hbefore with heq | hbefore
    · obtain ⟨rfl, hop'⟩ := List.append_inj' heq rfl
      cases hop'
      exact hop
    · exact hops before op' hbefore

theorem AtEachStep.mono {maxOpenFiles : ℤ} {before ops : List Op}
    (h : AtEachStep maxOpenFiles ops P) (hbefore : before <+: ops) :
    AtEachStep maxOpenFiles before P := by
  intro before' op hbefore'
  exact h before' op (hbefore'.trans hbefore)

theorem uncounted_run :
    0 ≤ (run maxOpenFiles ops).uncounted ∧
      ((run maxOpenFiles ops).uncounted = 0 ↔
        AtEachStep maxOpenFiles ops fun mgr op => ¬ mgr.Reopens op) := by
  induction ops using List.reverseRecOn with
  | nil => exact ⟨le_rfl, fun _ => atEachStep_nil _ _, fun _ => rfl⟩
  | append_singleton ops op ih =>
    obtain ⟨hnonneg, hzero⟩ := ih
    rw [run_concat, atEachStep_concat, ← hzero]
    by_cases h : (run maxOpenFiles ops).Reopens op
    · rw [(step_effect _ op).uncounted_of_reopens h]
      exact ⟨by omega, by omega, fun hno => absurd h hno.2⟩
    · rw [(step_effect _ op).uncounted_of_not h]
      exact ⟨hnonneg, fun h0 => ⟨h0, h⟩, fun h0 => h0.1⟩

theorem Effect.maxOpenFiles_eq (he : Effect mgr op mgr') :
    mgr'.maxOpenFiles = mgr.maxOpenFiles := by
  cases he <;> rfl

theorem Effect.activeFiles_le (he : Effect mgr op mgr') (h : mgr.activeFiles ≤ mgr.maxOpenFiles) :
    mgr'.activeFiles ≤ mgr.maxOpenFiles := by
  cases he with
  | same => exact h
  | created path isReadOnly hpath hlt => exact hlt
  | closed id db hdb hopen =>
    show mgr.activeFiles - 1 ≤ mgr.maxOpenFiles
    omega
  | reopened => exact h

theorem maxOpenFiles_run : (run maxOpenFiles ops).maxOpenFiles = maxOpenFiles := by
  induction ops using List.reverseRecOn with
  | nil => rfl
  | append_singleton ops op ih => rw [run_concat, (step_effect _ op).maxOpenFiles_eq, ih]

theorem activeFiles_run_le {maxOpenFiles : ℤ} (h : 0 ≤ maxOpenFiles) (ops : List Op) :
    (run maxOpenFiles ops).activeFiles ≤ maxOpenFiles := by
  induction ops using List.reverseRecOn with
  | nil => exact h
  | append_singleton ops op ih =>
    have hmax := maxOpenFiles_run maxOpenFiles ops
    rw [run_concat]
    have hle := (step_effect (run maxOpenFiles ops) op).activeFiles_le (by omega)
    omega

/-! ### What `GetOrCreate` returns -/

/-- The map of reading instances has open ones only, under their paths. -/
def Valid (mgr : LevelDBManager) : Prop :=
  ∀ path id, mgr.instances path = some id →
    ∃ db, mgr.dbs[id]? = some db ∧ db.path = path ∧ db.closed = false

theorem Effect.valid (he : Effect mgr op mgr') (h : mgr.Valid) : mgr'.Valid := by
  cases he with
  | same => exact h
  | created path isReadOnly =>
    intro path' id hid
    have hold : mgr.instances path' = some id → ∃ db, (mgr.dbs ++ [⟨path, false⟩])[id]? = some db ∧
        db.path = path' ∧ db.closed = false := by
      intro hid
      obtain ⟨db, hdb, hrest⟩ := h path' id hid
      refine ⟨db, ?_, hrest⟩
      rw [List.getElem?_append_left (List.getElem?_eq_some_iff.mp hdb).1, hdb]
    cases isReadOnly with
    | false => exact hold hid
    | true =>
      by_cases hpath : path' = path
      · have hnew : update mgr.instances path (some mgr.dbs.length) path' = some id := hid
        rw [hpath, update_self, Option.some.injEq] at hnew
        refine ⟨⟨path, false⟩, ?_, hpath.symm, rfl⟩
        rw [create, ← hnew, List.getElem?_concat_length]
      · have hsame : update mgr.instances path (some mgr.dbs.length) path' = some id := hid
        rw [update_of_ne hpath] at hsame
        exact hold hsame
  | closed id db hdb =>
    intro path' id' hid'
    have hlookup : update mgr.instances db.path none path' = some id' := hid'
    by_cases hpath : path' = db.path
    · rw [hpath, update_self] at hlookup
      cases hlookup
    · rw [update_of_ne hpath] at hlookup
      obtain ⟨db', hdb', hpath', hopen'⟩ := h path' id' hlookup
      have hne : id ≠ id' := by
        rintro rfl
        rw [hdb, Option.some.injEq] at hdb'
        exact hpath (hdb' ▸ hpath'.symm)
      refine ⟨db', ?_, hpath', hopen'⟩
      rw [removeInstance, setClosed, List.getElem?_set_ne hne, hdb']
  | reopened id db hdb hclosed =>
    intro path' id' hid'
    obtain ⟨db', hdb', hpath', hopen'⟩ := h path' id' hid'
    have hne : id ≠ id' := by
      rintro rfl
      rw [hdb, Option.some.injEq] at hdb'
      rw [hdb', hopen'] at hclosed
      cases hclosed
    refine ⟨db', ?_, hpath', hopen'⟩
    rw [setClosed, List.getElem?_set_ne hne, hdb']

theorem valid_run : (run maxOpenFiles ops).Valid := by
  induction ops using List.reverseRecOn with
  | nil =>
    intro path id h
    cases h
  | append_singleton ops op ih =>
    rw [run_concat]
    exact (step_effect _ op).valid ih

/-- The operation asks for a writing instance that is closed. -/
def AsksForClosed (mgr : LevelDBManager) (op : Op) : Prop :=
  ∃ path id, op = .getOrCreate path false ∧ path ≠ [] ∧ mgr.writeInstances path = some id ∧
    mgr.IsClosed id

theorem returnsClosed_iff (h : mgr.Valid) (op : Op) :
    mgr.ReturnsClosed op ↔ mgr.AsksForClosed op := by
  constructor
  · rintro ⟨path, isReadOnly, id, rfl, hid, hclosed⟩
    rw [getOrCreate] at hid hclosed
    split at hid
    · cases hid
    · rename_i hpath
      rw [if_neg hpath] at hclosed
      split at hid
      · rename_i id' hlookup
        rw [hlookup] at hclosed
        cases hid
        cases isReadOnly with
        | false => exact ⟨path, id, rfl, hpath, hlookup, hclosed⟩
        | true =>
          -- An instance in the map of reading instances is open.
          obtain ⟨db, hdb, -, hopen⟩ := h path id hlookup
          obtain ⟨db', hdb', hclosed⟩ := hclosed
          rw [hdb, Option.some.injEq] at hdb'
          rw [← hdb', hopen] at hclosed
          cases hclosed
      · rename_i hlookup
        rw [hlookup] at hclosed
        split at hid
        · cases hid
        · rename_i hlt
          -- A new instance is open.
          cases hid
          obtain ⟨db, hdb, hclosed⟩ := hclosed
          simp only [if_neg hlt, create, List.getElem?_concat_length, Option.some.injEq] at hdb
          rw [← hdb] at hclosed
          cases hclosed
  · rintro ⟨path, id, rfl, hpath, hlookup, hclosed⟩
    have hget : mgr.getOrCreate path false = (.ok id, mgr) := by
      rw [getOrCreate, if_neg hpath, instancesFor, if_neg Bool.false_ne_true, hlookup]
    exact ⟨path, false, id, rfl, by rw [hget], by rwa [hget]⟩

/-- **When the manager counts right.**  Along a run of any operations on any paths the
counter equals the number of open databases, stays between 0 and the maximum, and
`GetOrCreate` returns no closed instance, if and only if the maximum is not negative, no
operation uses a closed instance, and no `GetOrCreate` asks for a writing instance that is
closed. -/
theorem counted_run_iff (maxOpenFiles : ℤ) (ops : List Op) :
    (∀ before, before <+: ops → (run maxOpenFiles before).Counted) ∧
      AtEachStep maxOpenFiles ops (fun mgr op => ¬ mgr.ReturnsClosed op) ↔
    0 ≤ maxOpenFiles ∧ AtEachStep maxOpenFiles ops (fun mgr op => ¬ mgr.Reopens op) ∧
      AtEachStep maxOpenFiles ops (fun mgr op => ¬ mgr.AsksForClosed op) := by
  have hasks : AtEachStep maxOpenFiles ops (fun mgr op => ¬ mgr.ReturnsClosed op) ↔
      AtEachStep maxOpenFiles ops (fun mgr op => ¬ mgr.AsksForClosed op) := by
    constructor
    · intro h before op hbefore
      rw [← returnsClosed_iff (valid_run maxOpenFiles before)]
      exact h before op hbefore
    · intro h before op hbefore
      rw [returnsClosed_iff (valid_run maxOpenFiles before)]
      exact h before op hbefore
  rw [hasks, ← and_assoc]
  refine and_congr_left fun _ => ?_
  constructor
  · intro hcounted
    refine ⟨(hcounted [] (List.nil_prefix)).le_max, ?_⟩
    rw [← (uncounted_run maxOpenFiles ops).2, uncounted,
      (hcounted ops (List.prefix_refl ops)).active, Int.sub_self]
  · rintro ⟨hmax, hreopens⟩ before hbefore
    have hzero := (uncounted_run maxOpenFiles before).2.mpr (hreopens.mono hbefore)
    have hle := activeFiles_run_le hmax before
    rw [uncounted] at hzero
    exact ⟨by omega, by omega, by rwa [maxOpenFiles_run]⟩

/-- A closed instance that is used again is not counted, so that closing it once more makes
the counter negative; and a closed writing instance is returned again. -/
theorem run_miscounts :
    (run 1 [.getOrCreate [1] true, .close 0, .use 0]).activeFiles = 0 ∧
    (run 1 [.getOrCreate [1] true, .close 0, .use 0]).openCount = 1 ∧
    (run 1 [.getOrCreate [1] true, .close 0, .use 0, .close 0]).activeFiles = -1 ∧
    ((run 1 [.getOrCreate [1] false, .close 0]).getOrCreate [1] false).1 = .ok 0 ∧
    (run 1 [.getOrCreate [1] false, .close 0]).dbs[0]? = some ⟨[1], true⟩ := by
  decide

end LevelDBManager

end MetaNode
