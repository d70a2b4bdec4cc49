/-
The database in memory of `pkg/storage/memorydb.go`.

Keys are byte strings of any length, but the map behind it is keyed by arrays of 32
bytes: a longer key loses its end, a shorter one is filled with zeros (`bytes32`).
Beside a run of calls, a finite map keyed by the whole strings gets the same calls.
-/
import Mathlib.Data.List.Induction
import Mathlib.Data.Set.Function
import MetaNode.Bytes
import MetaNode.GoMap

namespace MetaNode

open Function

/-- `copy` of a key into a `[32]byte`. -/
def bytes32 (key : Bytes) : FixedBytes 32 :=
  ⟨key.take 32 ++ List.replicate (32 - key.length) 0, by
    rw [List.length_append, List.length_take, List.length_replicate]
    omega⟩

inductive MemoryDBError where
  /-- `[MemKV] key not found: %s`, with the key in hexadecimal -/
  | keyNotFound (hexKey : Bytes)
  deriving DecidableEq

structure MemoryDB where
  db : AList fun _ : FixedBytes 32 => Bytes

namespace MemoryDB

/-- `NewMemoryDb` -/
def new : MemoryDB := ⟨∅⟩

variable (kv : MemoryDB)

def get (key : Bytes) : Except MemoryDBError Bytes :=
  match kv.db.lookup (bytes32 key) with
  | some v => .ok v
  | none => .error (.keyNotFound (hexEncode key))

def put (key value : Bytes) : MemoryDB := ⟨kv.db.insert (bytes32 key) value⟩

def has (key : Bytes) : Bool := (kv.db.lookup (bytes32 key)).isSome

def delete (key : Bytes) : Except MemoryDBError Unit × MemoryDB :=
  if kv.has key then (.ok (), ⟨kv.db.erase (bytes32 key)⟩)
  else (.error (.keyNotFound (hexEncode key)), kv)

def batchPut (kvs : List (Bytes × Bytes)) : MemoryDB := kvs.foldl (fun kv e => kv.put e.1 e.2) kv

end MemoryDB

/-! ### Runs -/

inductive MemoryDBOp where
  | put (key value : Bytes)
  | batchPut (kvs : List (Bytes × Bytes))
  | delete (key : Bytes)

namespace MemoryDBOp

def step (kv : MemoryDB) : MemoryDBOp → MemoryDB
  | put key value => kv.put key value
  | batchPut kvs => kv.batchPut kvs
  | delete key => (kv.delete key).2

def apply (m : Bytes → Option Bytes) : MemoryDBOp → Bytes → Option Bytes
  | put key value => update m key (some value)
  | batchPut kvs => GoMap.putAll m kvs
  | delete key => update m key none

def keys : MemoryDBOp → List Bytes
  | put key _ => [key]
  | batchPut kvs => kvs.map Prod.fst
  | delete key => [key]

end MemoryDBOp

def runMemoryDB (ops : List MemoryDBOp) : MemoryDB := ops.foldl MemoryDBOp.step .new

def runMemoryMap (ops : List MemoryDBOp) : Bytes → Option Bytes :=
  ops.foldl MemoryDBOp.apply fun _ => none

/-! ### The database as a map -/

namespace MemoryDB

theorem toOption_get (kv : MemoryDB) (key : Bytes) :
    (kv.get key).toOption = kv.db.lookup (bytes32 key) := by
  rw [get]
  split <;> rename_i h <;> rw [h] <;> rfl

/-- On the keys of `K` the database answers as a map. -/
def Answers (K : Set Bytes) (kv : MemoryDB) (m : Bytes → Option Bytes) : Prop :=
  ∀ key ∈ K, kv.db.lookup (bytes32 key) = m key

variable {K : Set Bytes} {kv : MemoryDB} {m : Bytes → Option Bytes} {key : Bytes}

section

variable (h : Answers K kv m)

include h

variable (hK : Set.InjOn bytes32 K)

include hK

theorem Answers.put (hkey : key ∈ K)
    (value : Bytes) : Answers K (kv.put key value) (update m key (some value)) := by
  intro k hk
  by_cases hkk : k = key
  · rw [hkk, update_self]
    exact AList.lookup_insert _
  · have hne : bytes32 k ≠ bytes32 key := fun heq => hkk (hK hk hkey heq)
    rw [update_of_ne hkk, ← h k hk]
    exact AList.lookup_insert_ne hne

theorem Answers.batchPut {kvs : List (Bytes × Bytes)} (hkvs : ∀ e ∈ kvs, e.1 ∈ K) :
    Answers K (kv.batchPut kvs) (GoMap.putAll m kvs) := by
  induction kvs generalizing kv m with
  | nil => exact h
  | cons e kvs ih =>
    rw [List.forall_mem_cons] at hkvs
    exact ih (h.put hK hkvs.1 e.2) hkvs.2

theorem Answers.delete (hkey : key ∈ K) : Answers K (kv.delete key).2 (update m key none) := by
  -- a key that is not there is left alone, which is what removing it does
  have herase : ∀ k, (kv.delete key).2.db.lookup k = (kv.db.erase (bytes32 key)).lookup k := by
    intro k
    rw [MemoryDB.delete]
    split
    · rfl
    · rename_i hhas
      by_cases hk : k = bytes32 key
      · rw [hk, AList.lookup_erase]
        simpa [has] using hhas
      · rw [AList.lookup_erase_ne hk]
  intro k hk
  rw [herase]
  by_cases hkk : k = key
  · rw [hkk, update_self, AList.lookup_erase]
  · rw [update_of_ne hkk, ← h k hk,
      AList.lookup_erase_ne fun heq => hkk (hK hk hkey heq)]

/-- **One call.** -/
theorem Answers.step {op : MemoryDBOp}
    (hop : ∀ key ∈ op.keys, key ∈ K) : Answers K (op.step kv) (op.apply m) := by
  cases op with
  | put key value => exact h.put hK (hop key (List.mem_singleton_self key)) value
  | batchPut =>
    exact h.batchPut hK fun e he => hop e.1 (List.mem_map_of_mem he)
  | delete key => exact h.delete hK (hop key (List.mem_singleton_self key))

end

theorem answers_run (hK : Set.InjOn bytes32 K) {ops : List MemoryDBOp}
    (hops : ∀ op ∈ ops, ∀ key ∈ op.keys, key ∈ K) :
    Answers K (runMemoryDB ops) (runMemoryMap ops) := by
  induction ops using List.reverseRecOn with
  | nil => exact fun key _ => AList.lookup_empty _
  | append_singleton ops op ih =>
    rw [List.forall_mem_append] at hops
    have hstep := (ih hops.1).step hK (hops.2 op (List.mem_singleton_self op))
    simpa [runMemoryDB, runMemoryMap] using hstep

end MemoryDB

/-- **A set of keys is served as by a map in every run exactly if its keys stay apart
as arrays of 32 bytes.** -/
theorem memoryDB_iff_injOn (K : Set Bytes) :
    (∀ ops : List MemoryDBOp, (∀ op ∈ ops, ∀ key ∈ op.keys, key ∈ K) → ∀ key ∈ K,
      ((runMemoryDB ops).get key).toOption = runMemoryMap ops key ∧
      (runMemoryDB ops).has key = (runMemoryMap ops key).isSome) ↔
    Set.InjOn bytes32 K := by
  constructor
  · intro hall key hkey key' hkey' heq
    by_contra hne
    -- what is put under the one key is found under the other
    have hrun := (hall [.put key []] (by simpa [MemoryDBOp.keys] using hkey) key' hkey').1
    have hfound : ((runMemoryDB [.put key []]).get key').toOption = some [] := by
      rw [MemoryDB.toOption_get, ← heq]
      exact AList.lookup_insert _
    have hnone : runMemoryMap [.put key []] key' = none := by
      simp [runMemoryMap, MemoryDBOp.apply, Ne.symm hne]
    rw [hfound, hnone] at hrun
    cases hrun
  · intro hK ops hops key hkey
    have hrun := MemoryDB.answers_run hK hops key hkey
    rw [MemoryDB.toOption_get, MemoryDB.has, hrun]
    exact ⟨rfl, rfl⟩

/-- A key and the same key with a zero byte behind it. -/
theorem memoryDB_padded_key :
    ((runMemoryDB [.put [1] [7]]).get [1, 0]).toOption = some [7] ∧
      runMemoryMap [.put [1] [7]] [1, 0] = none := by
  decide

end MetaNode
