/-
The locks of the database in memory (`pkg/storage/memorydb.go`).

The database and each of its iterators have a readers-writer lock.  The methods are written
as the locks they take and give back, in the order of the source and of its `defer`s, with
the work on the data in between.  Calls are made at any time and interleave.

`GetIterator` reads the lock of the database twice: itself, and again in
`NewMemoryDbIterator`.  A `Put` that begins to wait between the two keeps the second
reader out, and the first keeps the `Put` out.
-/
import Mathlib.Data.Fintype.Order
import Mathlib.Data.List.Sort
import MetaNode.AddressHex
import MetaNode.MemoryDB
import MetaNode.RWLock

namespace MetaNode

structure MemoryDbIterator where
  keys : List Bytes
  idx : ℕ

namespace MemoryDbIterator

def next (it : MemoryDbIterator) : Bool × MemoryDbIterator :=
  if it.keys.length = it.idx then (false, it) else (true, { it with idx := it.idx + 1 })

/-- `Key`; before the first `Next` it panics. -/
def key (it : MemoryDbIterator) : Option Bytes :=
  if it.idx = 0 then none else it.keys[it.idx - 1]?.map fromHex

/-- `Value`; a key that is gone has the value nil. -/
def value (it : MemoryDbIterator) (kv : MemoryDB) : Option (Option Bytes) :=
  it.key.map fun key => kv.db.lookup (bytes32 key)

end MemoryDbIterator

namespace MemoryDBLocks

open RWLock Function

/-- An iterator is named by the call that makes it. -/
inductive Lock (Call : Type) where
  | db
  | iter (it : Call)
  deriving DecidableEq

inductive Method (Call : Type) where
  | get (key : Bytes)
  | has (key : Bytes)
  | put (key value : Bytes)
  | delete (key : Bytes)
  | getIterator
  | next (it : Call)
  | key (it : Call)
  | value (it : Call)
  | getSnapShot

inductive Act (Call : Type) where
  | get (key : Bytes)
  | has (key : Bytes)
  | put (key value : Bytes)
  | delete (key : Bytes)
  /-- The loop over the map in `NewMemoryDbIterator`. -/
  | range
  /-- The keys are sorted and the iterator is made. -/
  | newIterator
  | next (it : Call)
  | key (it : Call)
  | value (it : Call)
  /-- `for iter.Next()` of `GetSnapShot`. -/
  | loop
  | makeCValue
  | copyKey
  /-- `copy(cValue[:], iter.Value())`, and the write of the new map. -/
  | copyValue
  | snapShot

inductive Result where
  | nothing
  | get (r : Except MemoryDBError Bytes)
  | has (found : Bool)
  | done (r : Except MemoryDBError Unit)
  | iterator
  | next (more : Bool)
  | key (key : Bytes)
  | value (value : Option Bytes)
  | snapShot (kv : MemoryDB)
  | panicked

/-- The variables of a call, and what the last method in it returned. -/
structure Locals where
  keys : List Bytes
  cValue : Bytes
  cKey : FixedBytes 32
  newMDB : MemoryDB
  result : Result

structure Data (Call : Type) where
  kv : MemoryDB
  iterator : Call → MemoryDbIterator
  vars : Call → Locals

variable {Call : Type}

def Data.init (kv : MemoryDB) : Data Call where
  kv := kv
  iterator := fun _ => ⟨[], 0⟩
  vars := fun _ => ⟨[], [], .zero 32, .new, .nothing⟩

/-- `copy` onto the start of an array. -/
def copyOnto (dst src : Bytes) : Bytes := src.take dst.length ++ dst.drop src.length

/-- The answer of `Next`. -/
def Result.more : Result → Bool
  | next more => more
  | _ => false

/-- The answer of `Key` or `Value`; nil has no bytes. -/
def Result.bytes : Result → Bytes
  | value v => v.getD []
  | key k => k
  | _ => []

section Exec

variable [DecidableEq Call] (c : Call)

def Data.setVars (d : Data Call) (v : Locals) : Data Call :=
  { d with vars := update d.vars c v }

def Data.return (d : Data Call) (r : Result) : Data Call :=
  d.setVars c { d.vars c with result := r }

def Data.setIterator (d : Data Call) (it : Call) (i : MemoryDbIterator) : Data Call :=
  { d with iterator := update d.iterator it i }

def exec : Act Call → Data Call → Data Call
  | .get key, d => d.return c (.get (d.kv.get key))
  | .has key, d => d.return c (.has (d.kv.has key))
  | .put key value, d => { d with kv := d.kv.put key value }.return c (.done (.ok ()))
  | .delete key, d => { d with kv := (d.kv.delete key).2 }.return c (.done (d.kv.delete key).1)
  | .range, d => d.setVars c { d.vars c with keys := d.kv.db.keys.map fun key => hexEncode key.1 }
  | .newIterator, d =>
    (d.setIterator c ⟨(d.vars c).keys.insertionSort (· ≤ ·), 0⟩).return c .iterator
  | .next it, d =>
    (d.setIterator it (d.iterator it).next.2).return c (.next (d.iterator it).next.1)
  | .key it, d => d.return c ((d.iterator it).key.elim .panicked .key)
  | .value it, d => d.return c (((d.iterator it).value d.kv).elim .panicked .value)
  | .loop, d => d
  | .makeCValue, d =>
    d.setVars c { d.vars c with cValue := List.replicate (d.vars c).result.bytes.length 0 }
  | .copyKey, d => d.setVars c { d.vars c with cKey := bytes32 (d.vars c).result.bytes }
  | .copyValue, d =>
    let cValue := copyOnto (d.vars c).cValue (d.vars c).result.bytes
    d.setVars c { d.vars c with
      cValue := cValue, newMDB := ⟨(d.vars c).newMDB.db.insert (d.vars c).cKey cValue⟩ }
  | .snapShot, d => d.return c (.snapShot (d.vars c).newMDB)

end Exec

/-! ### The methods -/

abbrev Prog (Call : Type) := List (Instr (Lock Call) (Act Call))

/-- `RLock`, some work and the deferred `RUnlock`. -/
def reading (l : Lock Call) (a : Act Call) : Prog Call :=
  [.rLock l, .act a, .rUnlock l]

/-- `Lock`, some work and the deferred `Unlock`. -/
def writing (l : Lock Call) (a : Act Call) : Prog Call :=
  [.lock l, .act a, .unlock l]

def newMemoryDbIterator : Prog Call :=
  [.rLock .db, .act .range, .rUnlock .db, .act .newIterator]

def getIterator : Prog Call :=
  .rLock .db :: newMemoryDbIterator ++ [.rUnlock .db]

def next (it : Call) : Prog Call := writing (.iter it) (.next it)

def key (it : Call) : Prog Call := reading (.iter it) (.key it)

/-- `Value`; the `RUnlock`s run in the reverse order of their `defer`s. -/
def value (it : Call) : Prog Call :=
  [.rLock (.iter it), .rLock .db, .act (.value it), .rUnlock .db, .rUnlock (.iter it)]

/-- `for iter.Next()` of `GetSnapShot`: the test. -/
def forNext (c : Call) : Prog Call := next c ++ [.branch .loop]

/-- The body of the loop of `GetSnapShot`, up to the next test. -/
def loopBody (c : Call) : Prog Call :=
  value c ++ .act .makeCValue :: key c ++ .act .copyKey :: value c ++ .act .copyValue :: forNext c

/-- `GetSnapShot`; its iterator is its own. -/
def getSnapShot (c : Call) : Prog Call := getIterator ++ forNext c

def choose (c : Call) : Act Call → Data Call → Prog Call
  | .loop, d => if (d.vars c).result.more then loopBody c else [.act .snapShot]
  | _, _ => []

namespace Method

def body (c : Call) : Method Call → Prog Call
  | get k => reading .db (.get k)
  | has k => reading .db (.has k)
  | put k v => writing .db (.put k v)
  | delete k => writing .db (.delete k)
  | getIterator => MemoryDBLocks.getIterator
  | next it => MemoryDBLocks.next it
  | key it => MemoryDBLocks.key it
  | value it => MemoryDBLocks.value it
  | getSnapShot => MemoryDBLocks.getSnapShot c

def iterator : Method Call → Option Call
  | next it | key it | value it => some it
  | _ => none

/-- The method calls `GetIterator`. -/
def makesIterator : Method Call → Bool
  | getIterator | getSnapShot => true
  | _ => false

def writes : Method Call → Bool
  | put _ _ | delete _ => true
  | _ => false

end Method

/-- The code of calls of some methods.  An iterator is used once the `GetIterator` that makes
it has returned. -/
def code [DecidableEq Call] (method : Call → Method Call) :
    Code Call (Lock Call) (Act Call) (Data Call) where
  body c := (method c).body c
  ready c s := ∀ it, (method c).iterator = some it →
    method it = .getIterator ∧ s.made it = true ∧ ¬ s.Unfinished it
  exec := exec
  choose := choose

/-! ### The locks are taken in order -/

/-- The locks under which the shared data is used. -/
def Act.needs : Act Call → List (Lock Call × Mode)
  | .get _ | .has _ | .range => [(.db, .read)]
  | .put _ _ | .delete _ => [(.db, .write)]
  | .next it => [(.iter it, .write)]
  | .key it => [(.iter it, .read)]
  | .value it => [(.iter it, .read), (.db, .read)]
  | .newIterator | .loop | .makeCValue | .copyKey | .copyValue | .snapShot => []

/-- What an act writes is under the locks that it needs, but for the iterator that it makes. -/
theorem exec_of_not_write [DecidableEq Call] (c : Call) (a : Act Call) (d : Data Call) :
    ((.db, .write) ∉ a.needs → (exec c a d).kv = d.kv) ∧
    ∀ it, it ≠ c → (.iter it, .write) ∉ a.needs → (exec c a d).iterator it = d.iterator it := by
  refine ⟨fun hdb => ?_, fun it hne hiter => ?_⟩
  · cases a with
    | put | delete => exact absurd List.mem_cons_self hdb
    | _ => rfl
  · cases a with
    | newIterator => exact update_of_ne hne ..
    | next it' =>
      refine update_of_ne ?_ ..
      rintro rfl
      exact hiter List.mem_cons_self
    | _ => rfl

/-- What an act reads is under the locks that it needs. -/
theorem exec_vars_congr [DecidableEq Call] (c : Call) {a : Act Call} {d d' : Data Call}
    (hvars : d.vars = d'.vars) (hkv : ∀ m, (.db, m) ∈ a.needs → d.kv = d'.kv)
    (hiter : ∀ it m, (.iter it, m) ∈ a.needs → d.iterator it = d'.iterator it) :
    (exec c a d).vars = (exec c a d').vars := by
  cases a with
  | _ => simp_all [exec, Act.needs, Data.return, Data.setVars, Data.setIterator]

variable {l : Lock Call}

section Policies

variable [DecidableEq Call] {P : Policy (Lock Call) (Act Call)} {a : Act Call}

theorem follows_reading (hread : P.read [] l) (hneeds : P.needs a = [(l, .read)]) :
    P.Follows [] (reading l a) := by
  refine ⟨hread, ?_, ?_, ?_⟩
  · rw [hneeds]
    exact fun n hn => hn
  · exact List.mem_singleton_self _
  · simp [Policy.Follows]

theorem follows_writing (hwrite : P.write [] l) (hneeds : P.needs a = [(l, .write)]) :
    P.Follows [] (writing l a) := by
  refine ⟨hwrite, ?_, ?_, ?_⟩
  · rw [hneeds]
    exact fun n hn => hn
  · exact List.mem_singleton_self _
  · simp [Policy.Follows]

structure Allows (P : Policy (Lock Call) (Act Call)) (method : Call → Method Call) : Prop where
  needs : P.needs = Act.needs
  readDb : P.read [] .db
  readIter : ∀ it, P.read [] (.iter it)
  readDbOfIter : ∀ it, P.read [(.iter it, .read)] .db
  writeIter : ∀ it, P.write [] (.iter it)
  writeDb : ∀ c, (method c).writes = true → P.write [] .db
  readDbAgain : ∀ c, (method c).makesIterator = true → P.read [(.db, .read)] .db

variable {method : Call → Method Call} (hallows : Allows P method)

include hallows

theorem Allows.value (it : Call) : P.Follows [] (value it) := by
  refine ⟨hallows.readIter it, hallows.readDbOfIter it, ?_, ?_, ?_, ?_⟩
  · rw [hallows.needs]
    simp [Act.needs]
  · simp
  · simp
  · simp [Policy.Follows]

theorem Allows.key (it : Call) : P.Follows [] (key it) :=
  follows_reading (hallows.readIter it) (by rw [hallows.needs]; rfl)

theorem Allows.next (it : Call) : P.Follows [] (next it) :=
  follows_writing (hallows.writeIter it) (by rw [hallows.needs]; rfl)

theorem Allows.getIterator {c : Call}
    (hc : (method c).makesIterator = true) : P.Follows [] getIterator := by
  refine ⟨hallows.readDb, hallows.readDbAgain c hc, ?_, ?_, ?_, ?_, ?_⟩
  · rw [hallows.needs]
    simp [Act.needs]
  · simp
  · rw [hallows.needs]
    simp [Act.needs]
  · simp
  · simp [Policy.Follows]

theorem Allows.act (ha : a.needs = []) {rest : Prog Call} (hrest : P.Follows [] rest) :
    P.Follows [] (.act a :: rest) := by
  refine ⟨?_, hrest⟩
  rw [hallows.needs, ha]
  simp

theorem Allows.forNext (c : Call) : P.Follows [] (forNext c) :=
  (hallows.next c).append ⟨rfl, rfl⟩

theorem Allows.loopBody (c : Call) : P.Follows [] (loopBody c) := by
  refine (((hallows.value c).append ?_).append ?_).append ?_
  · exact hallows.act rfl (hallows.key c)
  · exact hallows.act rfl (hallows.value c)
  · exact hallows.act rfl (hallows.forNext c)

theorem Allows.choose (c : Call) (a : Act Call) (d : Data Call) : P.Follows [] (choose c a d) := by
  cases a with
  | loop =>
    rw [MemoryDBLocks.choose]
    split
    · exact hallows.loopBody c
    · exact hallows.act rfl rfl
  | _ => exact rfl

theorem Allows.body (c : Call) : P.Follows [] ((method c).body c) := by
  cases hmethod : method c with
  | get | has => exact follows_reading hallows.readDb (by rw [hallows.needs]; rfl)
  | put | delete =>
    exact follows_writing (hallows.writeDb c (by rw [hmethod]; rfl)) (by rw [hallows.needs]; rfl)
  | getIterator => exact hallows.getIterator (c := c) (by rw [hmethod]; rfl)
  | next it => exact hallows.next it
  | key it => exact hallows.key it
  | value it => exact hallows.value it
  | getSnapShot =>
    exact (hallows.getIterator (c := c) (by rw [hmethod]; rfl)).append (hallows.forNext c)

theorem Allows.sound : (code method).Sound P :=
  ⟨hallows.body, hallows.choose⟩

end Policies

/-! ### Races and deadlocks -/

section Calls

variable [DecidableEq Call] {method : Call → Method Call} {c : Call}

/-- **No data race**: while a call is about to write what a lock protects, no other call is
about to use it. -/
theorem no_race {kv : MemoryDB} {s : Config Call (Lock Call) (Act Call) (Data Call)}
    (hreach : Reachable (code method) (.init kv) s) {c' : Call} (hne : c' ≠ c) {a a' : Act Call}
    (hdoing : s.Doing c a) {m : Mode} (hwrite : (l, .write) ∈ a.needs)
    (haccess : (l, m) ∈ a'.needs) : ¬ s.Doing c' a' := by
  have hallows : Allows ⟨fun _ _ => True, fun _ _ => True, Act.needs⟩ method :=
    ⟨rfl, trivial, fun _ => trivial, fun _ => trivial, fun _ => trivial, fun _ _ => trivial,
      fun _ _ => trivial⟩
  intro hdoing'
  exact hne (hreach.alone hallows.sound hdoing hdoing' hwrite haccess)

/-- The lock of an iterator comes before that of the database. -/
def Lock.rank : Lock Call → Bool
  | iter _ => false
  | db => true

omit [DecidableEq Call] in
theorem allows_ordered
    (hnot : ¬ ((∃ c, (method c).makesIterator = true) ∧ ∃ c, (method c).writes = true)) :
    Allows (.ordered Lock.rank (fun l => l = .db ∧ ∀ c, (method c).writes = false) Act.needs)
      method where
  needs := rfl
  readDb := .inr (by simp)
  readIter := fun it => .inr (by simp)
  readDbOfIter := fun it => .inr (by simp [Lock.rank])
  writeIter := fun it => ⟨by simp, by simp⟩
  writeDb := fun c hc => by
    refine ⟨fun hshared => ?_, by simp⟩
    rw [hshared.2 c] at hc
    cases hc
  readDbAgain := fun c hc => by
    refine .inl ⟨rfl, fun w => ?_⟩
    by_contra hw
    exact hnot ⟨⟨c, hc⟩, w, Bool.eq_true_of_not_eq_false hw⟩

omit [DecidableEq Call] in
theorem iterator_of_makesIterator {m : Method Call} (hm : m.makesIterator = true) :
    m.iterator = none := by
  cases m with
  | getIterator | getSnapShot => rfl
  | _ => cases hm

omit [DecidableEq Call] in
theorem iterator_of_writes {m : Method Call} (hm : m.writes = true) : m.iterator = none := by
  cases m with
  | put | delete => rfl
  | _ => cases hm

theorem body_of_makesIterator (hc : (method c).makesIterator = true) :
    ∃ rest, (code method).body c = .rLock .db :: .rLock .db :: rest := by
  show ∃ rest, (method c).body c = _
  cases hmethod : method c with
  | getIterator | getSnapShot => exact ⟨_, rfl⟩
  | _ =>
    rw [hmethod] at hc
    cases hc

theorem body_of_writes {w : Call} (hw : (method w).writes = true) :
    ∃ rest, (code method).body w = .lock .db :: rest := by
  show ∃ rest, (method w).body w = _
  cases hmethod : method w with
  | put | delete => exact ⟨_, rfl⟩
  | _ =>
    rw [hmethod] at hw
    cases hw

theorem ready_of_iterator_none (hc : (method c).iterator = none)
    (s : Config Call (Lock Call) (Act Call) (Data Call)) : (code method).ready c s := by
  intro it hit
  rw [hc] at hit
  cases hit

/-- **No state with an unfinished call and no step is reached exactly if there are not both
calls that make iterators and calls that write the map.** -/
theorem not_deadlocked_iff (method : Call → Method Call) (kv : MemoryDB) :
    (∀ s, Reachable (code method) (.init kv) s → ¬ Deadlocked (code method) s) ↔
      ¬ ((∃ c, (method c).makesIterator = true) ∧ ∃ w, (method w).writes = true) := by
  constructor
  · rintro hnever ⟨⟨c, hc⟩, w, hw⟩
    obtain ⟨rest, hrest⟩ := body_of_makesIterator hc
    obtain ⟨restw, hrestw⟩ := body_of_writes hw
    have hne : w ≠ c := by
      rintro rfl
      rw [hrest] at hrestw
      simp at hrestw
    obtain ⟨s, hreach, hdead⟩ := exists_deadlocked_of_recursive_read (.init kv) hne hrest hrestw
      (ready_of_iterator_none (iterator_of_makesIterator hc))
      (ready_of_iterator_none (iterator_of_writes hw))
    exact hnever s hreach hdead
  · intro hnot s hreach
    exact hreach.not_deadlocked (allows_ordered hnot).sound

/-- A `GetIterator` beside a `Put`. -/
def sampleCalls : Bool → Method Bool
  | false => .getIterator
  | true => .put [1] [2]

/-- `Put` has the lock and is about to write, so `GetIterator` is not about to range. -/
theorem no_race_sampleCalls : ∃ s, Reachable (code sampleCalls) (.init .new) s ∧
    s.Doing true (.put [1] [2]) ∧ ¬ s.Doing false .range := by
  have hmake : Step (code sampleCalls) (.init (.init .new)) _ :=
    .make true rfl (ready_of_iterator_none rfl _)
  have hlocked := (Relation.ReflTransGen.single hmake).tail (.call true (.lock rfl))
  have hwriting := hlocked.tail (.call true (.await rfl (by
    intro c m hheld
    cases c <;> cases hheld)))
  refine ⟨_, hwriting, ⟨_, rfl⟩, ?_⟩
  exact no_race (c := true) (a := .put [1] [2]) hwriting (by decide) ⟨_, rfl⟩ List.mem_cons_self
    List.mem_cons_self

theorem getIterator_put_deadlocked :
    ∃ s, Reachable (code sampleCalls) (.init .new) s ∧ Deadlocked (code sampleCalls) s := by
  have hreader : (code sampleCalls).body false = .rLock .db :: .rLock .db :: _ := rfl
  have hwriter : (code sampleCalls).body true = .lock .db :: _ := rfl
  exact exists_deadlocked_of_recursive_read (.init .new) (by decide) hreader hwriter
    (ready_of_iterator_none rfl) (ready_of_iterator_none rfl)

end Calls

end MemoryDBLocks

end MetaNode
