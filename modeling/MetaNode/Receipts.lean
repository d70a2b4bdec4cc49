/-
The collection of receipts (`pkg/receipt/receipts.go`).

`Receipts` keeps the receipts added since the last `IntermediateRoot` in a map and
the others in a trie; `Commit` writes the trie to the database and reopens it.
Receipts are values here: the code updates a receipt in place, but one that is in
the map is there under its own transaction hash only.  A map of the source is
walked in any order, which is a parameter (`Walk`).

A `Session` is a run of calls, with what the receipts were that its calls gave.
-/
import MetaNode.KeyedLog
import MetaNode.Receipt
import MetaNode.TrieReopen

namespace MetaNode

open KeyedLog

inductive ReceiptsError where
  /-- `ErrorReceiptNotFound`: `receipt not found` -/
  | receiptNotFound
  /-- the error of `proto.Unmarshal` -/
  | unmarshal
  /-- the error of a call of the trie, as it is -/
  | trie (e : Fault)
  /-- `không thể tạo trie từ root %s: %w` -/
  | newFromRoot (root : Hash) (e : Fault)
  /-- `commit thất bại trong quá trình IntermediateRoot: %w` -/
  | commitIntermediateRoot (e : ReceiptsError)
  /-- `tính toán trie.Commit thất bại: %w` -/
  | commitTrie (e : Fault)
  /-- `hash gốc không khớp sau khi tính toán commit (intermediate: %s, commit: %s)` -/
  | commitMismatch (intermediateHash committedHash : Hash)
  /-- `không thể tải trie mới cho root %s sau khi commit: %w` -/
  | commitReload (root : Hash) (e : Fault)
  deriving DecidableEq

structure Receipts where
  trie : MerklePatriciaTrie
  db : DB
  originRootHash : Hash
  dirtyReceipts : AList fun _ : Hash => Receipt

variable (E : Env)

/-- `NewReceipts`, which panics with the error of the trie. -/
def newReceipts (db : DB) : Except Fault Receipts :=
  match MerklePatriciaTrie.new E db emptyRootHash true with
  | .error e => .error e
  | .ok trie =>
    let (originRootHash, trie) := trie.hash E
    .ok ⟨trie, db, originRootHash, ∅⟩

def newReceiptsFromRoot (root : Hash) (db : DB) : Except ReceiptsError Receipts :=
  match MerklePatriciaTrie.new E db root true with
  | .error e => .error (.newFromRoot root e)
  | .ok trie => .ok ⟨trie, db, root, ∅⟩

theorem newReceipts_eq (db : DB) :
    newReceipts E db = .ok ⟨MerklePatriciaTrie.emptyTrie db true, db, emptyRootHash, ∅⟩ := by
  rw [newReceipts, MerklePatriciaTrie.new_empty]
  rfl

/-- The updates of the trie that `IntermediateRoot` makes. -/
def trieUpdates (receipts : List Receipt) : List (Bytes × Bytes) :=
  receipts.map fun receipt => (receipt.transactionHash.1, receipt.marshal E)

namespace Receipts

variable (r : Receipts)

def receiptsRoot : Hash × Receipts :=
  let (h, trie) := r.trie.hash E
  (h, { r with trie })

def setDirtyReceipt (receipt : Receipt) : Receipts :=
  { r with dirtyReceipts := r.dirtyReceipts.insert receipt.transactionHash receipt }

def addReceipt (receipt : Receipt) : Receipts := r.setDirtyReceipt receipt

def addReceipts (receipts : List Receipt) : Receipts := receipts.foldl setDirtyReceipt r

def updateExecuteResultToReceipt (hash : Hash) (res : ExecuteResult) :
    Except ReceiptsError Unit × Receipts :=
  match r.dirtyReceipts.lookup hash with
  | none => (.error .receiptNotFound, r)
  | some receipt => (.ok (), r.setDirtyReceipt (receipt.updateExecuteResult res))

def gasUsed (walk : Walk Receipt) : UInt64 :=
  (walk.order (values r.dirtyReceipts)).foldl (fun totalGas receipt => totalGas + receipt.gasUsed) 0

def getReceipt (hash : Hash) : Except ReceiptsError Receipt × Receipts :=
  match r.dirtyReceipts.lookup hash with
  | some receipt => (.ok receipt, r)
  | none =>
    match r.trie.get E hash.1 with
    | (.error (.err _), trie) => (.error .receiptNotFound, { r with trie })
    | (.error e, trie) => (.error (.trie e), { r with trie })
    | (.ok data, trie) =>
      -- a missing key has the value nil, and that is a message without fields
      match Receipt.unmarshal E (data.getD []) with
      | none => (.error .unmarshal, { r with trie })
      | some receipt => (.ok receipt, { r with trie })

/-- `Discard`: the map is emptied even if the trie is not replaced. -/
def discard : Except ReceiptsError Unit × Receipts :=
  match MerklePatriciaTrie.new E r.db r.originRootHash true with
  | .error e => (.error (.trie e), { r with dirtyReceipts := ∅ })
  | .ok trie => (.ok (), { r with trie, dirtyReceipts := ∅ })

def intermediateRoot (walk : Walk Receipt) : Except ReceiptsError Hash × Receipts :=
  if (values r.dirtyReceipts).length = 0 then
    let (h, r) := r.receiptsRoot E
    (.ok h, r)
  else
    match r.trie.updateAll E (trieUpdates E (walk.order (values r.dirtyReceipts))) with
    | (.error e, trie) => (.error (.trie e), { r with trie })
    | (.ok (), trie) =>
      let (h, r) := { r with trie, dirtyReceipts := ∅ : Receipts }.receiptsRoot E
      (.ok h, r)

/-- `BatchPut` of the nodes that have a hash; the workers may pass them on in any
order. -/
def batchPut (db : DB) (batch : List NodeWrapper) : DB :=
  (batch.filter fun node => node.hash ≠ FixedBytes.zero 32).foldl
    (fun db node => Function.update db node.hash (some node.blob)) db

def commit (walk : Walk Receipt) (store : Walk NodeWrapper) :
    Except ReceiptsError Hash × Receipts :=
  match r.intermediateRoot E walk with
  | (.error e, r) => (.error (.commitIntermediateRoot e), r)
  | (.ok intermediateHash, r) =>
    match r.trie.commit E true with
    | (.error e, trie) => (.error (.commitTrie e), { r with trie })
    | (.ok ⟨committedHash, nodeSet, _⟩, trie) =>
      if intermediateHash ≠ committedHash then
        (.error (.commitMismatch intermediateHash committedHash), { r with trie })
      else
        let db := batchPut r.db (store.order (entries nodeSet))
        match MerklePatriciaTrie.new E db committedHash true with
        | .error e =>
          -- the trie that is kept reads the same database
          (.error (.commitReload committedHash e),
            { r with trie := { trie with reader := db }, db })
        | .ok trie => (.ok committedHash, { r with trie, db, originRootHash := committedHash })

end Receipts

/-! ### Runs -/

/-- A call on a collection.  `reload` replaces it by one that is opened from the
root of an earlier `Commit`. -/
inductive ReceiptsOp where
  | addReceipt (receipt : Receipt)
  | addReceipts (receipts : List Receipt)
  | updateExecuteResultToReceipt (hash : Hash) (res : ExecuteResult)
  | getReceipt (hash : Hash)
  | intermediateRoot (walk : Walk Receipt)
  | commit (walk : Walk Receipt) (store : Walk NodeWrapper)
  | discard
  | reload (i : ℕ)

def ReceiptsOp.added : ReceiptsOp → List Receipt
  | .addReceipt receipt => [receipt]
  | .addReceipts receipts => receipts
  | _ => []

/-- Calls between one `Commit` or `Discard` and the next. -/
def ReceiptsOp.Within : ReceiptsOp → Prop
  | .commit _ _ => False
  | .discard => False
  | .reload _ => False
  | _ => True

/-- A collection in a run.  An update counts as the receipt added once more, in
its new form. -/
structure Session where
  receipts : Receipts
  /-- what was added up to the last `IntermediateRoot` -/
  flushed : List Receipt
  /-- what was added since -/
  pending : List Receipt
  /-- what had been added at the last `Commit`, or when the collection was opened -/
  base : List Receipt
  /-- the root then -/
  baseRoot : Hash
  /-- the calls of `Commit` so far: what had been added, and the result -/
  commits : List (List Receipt × Except ReceiptsError Hash)

namespace Session

def log (s : Session) : List Receipt := s.flushed ++ s.pending

def start (r : Receipts) : Session := ⟨r, [], [], [], (r.receiptsRoot E).1, []⟩

def step (s : Session) : ReceiptsOp → Session
  | .addReceipt receipt =>
    { s with receipts := s.receipts.addReceipt receipt, pending := s.pending ++ [receipt] }
  | .addReceipts receipts =>
    { s with receipts := s.receipts.addReceipts receipts, pending := s.pending ++ receipts }
  | .updateExecuteResultToReceipt hash res =>
    match s.receipts.updateExecuteResultToReceipt hash res with
    | (.error _, r) => { s with receipts := r }
    | (.ok (), r) =>
      let updated := (latest Receipt.transactionHash s.log hash).map (·.updateExecuteResult res)
      { s with receipts := r, pending := s.pending ++ updated.toList }
  | .getReceipt hash => { s with receipts := (s.receipts.getReceipt E hash).2 }
  | .intermediateRoot walk =>
    match s.receipts.intermediateRoot E walk with
    | (.error _, r) => { s with receipts := r }
    | (.ok _, r) => { s with receipts := r, flushed := s.log, pending := [] }
  | .commit walk store =>
    match s.receipts.commit E walk store with
    | (.error e, r) => { s with receipts := r, commits := s.commits ++ [(s.log, .error e)] }
    | (.ok root, r) =>
      { receipts := r, flushed := s.log, pending := [], base := s.log, baseRoot := root
        commits := s.commits ++ [(s.log, .ok root)] }
  | .discard =>
    match s.receipts.discard E with
    | (.error _, r) => { s with receipts := r, pending := [] }
    | (.ok (), r) => { s with receipts := r, flushed := s.base, pending := [] }
  | .reload i =>
    match s.commits[i]? with
    | some (log, .ok root) =>
      match newReceiptsFromRoot E root s.receipts.db with
      | .error _ => s
      | .ok r =>
        { s with
          receipts := r, flushed := log, pending := [], base := log
          baseRoot := (r.receiptsRoot E).1 }
    | _ => s

def run (s : Session) (ops : List ReceiptsOp) : Session := ops.foldl (step E) s

theorem run_concat (s : Session) (ops : List ReceiptsOp) (op : ReceiptsOp) :
    s.run E (ops ++ [op]) = (s.run E ops).step E op := by
  rw [run, List.foldl_append]
  rfl

end Session

/-- A receipt for the hash with the first byte `n`. -/
def exampleReceipt (n : UInt8) (gasUsed : UInt64) : Receipt :=
  newReceipt ⟨n :: List.replicate 31 0, rfl⟩ (FixedBytes.zero 20) (FixedBytes.zero 20) 0 .returned
    [] 0 0 gasUsed [] 0

def exampleReceipts : Receipts :=
  ⟨MerklePatriciaTrie.emptyTrie (fun _ => none) true, fun _ => none, emptyRootHash, ∅⟩

/-! ### The map of the receipts that are not in the trie -/

namespace Receipts

/-- The map holds what was added since the last `IntermediateRoot`. -/
abbrev Dirty (r : Receipts) (pending : List Receipt) : Prop :=
  Reflects Receipt.transactionHash r.dirtyReceipts pending

variable {r r' : Receipts} {pending : List Receipt}

theorem Dirty.addReceipts (h : Dirty r pending) (receipts : List Receipt) :
    Dirty (r.addReceipts receipts) (pending ++ receipts) := by
  induction receipts generalizing r pending with
  | nil => rwa [List.append_nil]
  | cons receipt receipts ih =>
    have hadd : Dirty (r.setDirtyReceipt receipt) (pending ++ [receipt]) := h.insert receipt
    rw [List.append_cons]
    exact ih hadd

theorem Dirty.update_ok_iff (h : Dirty r pending) (hash : Hash) (res : ExecuteResult) :
    (r.updateExecuteResultToReceipt hash res).1 = .ok () ↔
      hash ∈ pending.map Receipt.transactionHash := by
  rw [updateExecuteResultToReceipt, h hash, ← not_iff_not, ← latest_eq_none_iff]
  cases latest Receipt.transactionHash pending hash with
  | none | some => simp

theorem Dirty.eq_nil (h : Dirty r pending) (hempty : (values r.dirtyReceipts).length = 0) :
    pending = [] := by
  refine List.eq_nil_iff_forall_not_mem.mpr fun a ha => ?_
  have hnone := h a.transactionHash
  rw [eq_empty_of_values hempty, AList.lookup_empty] at hnone
  exact latest_eq_none_iff.mp hnone.symm (List.mem_map_of_mem ha)

theorem dirtyReceipts_getReceipt (r : Receipts) (hash : Hash) :
    (r.getReceipt E hash).2.dirtyReceipts = r.dirtyReceipts := by
  rw [getReceipt]
  split
  · rfl
  · split
    · rfl
    · rfl
    · split
      · rfl
      · rfl

theorem dirtyReceipts_intermediateRoot {walk : Walk Receipt} {h : Hash}
    (hroot : r.intermediateRoot E walk = (.ok h, r')) : r'.dirtyReceipts = ∅ := by
  rw [intermediateRoot] at hroot
  split at hroot
  · next hempty =>
    cases hroot
    exact eq_empty_of_values hempty
  · split at hroot
    · cases hroot
    · cases hroot
      rfl

theorem dirtyReceipts_intermediateRoot_error {walk : Walk Receipt} {e : ReceiptsError}
    (hroot : r.intermediateRoot E walk = (.error e, r')) : r'.dirtyReceipts = r.dirtyReceipts := by
  rw [intermediateRoot] at hroot
  split at hroot
  · cases hroot
  · split at hroot
    · cases hroot
      rfl
    · cases hroot

end Receipts

/-- An update fails and changes nothing, or adds the latest receipt of its hash once
more. -/
theorem Session.step_update {s : Session} (h : s.receipts.Dirty s.pending) (hash : Hash)
    (res : ExecuteResult) :
    s.step E (.updateExecuteResultToReceipt hash res) = s ∨
      ∃ receipt ∈ s.log, s.step E (.updateExecuteResultToReceipt hash res)
        = s.step E (.addReceipt (receipt.updateExecuteResult res)) := by
  cases hlook : s.receipts.dirtyReceipts.lookup hash with
  | none =>
    left
    rw [step, Receipts.updateExecuteResultToReceipt, hlook]
  | some receipt =>
    -- the latest receipt of this hash is the one in the map
    have hlatest : latest Receipt.transactionHash s.log hash = some receipt := by
      rw [log, latest_append, ← h hash, hlook, Option.some_or]
    have hcall : s.receipts.updateExecuteResultToReceipt hash res
        = (.ok (), s.receipts.addReceipt (receipt.updateExecuteResult res)) := by
      rw [Receipts.updateExecuteResultToReceipt, hlook]
      rfl
    refine .inr ⟨receipt, mem_of_latest hlatest, ?_⟩
    simp only [step, hcall, hlatest, Option.map_some, Option.toList_some]

end MetaNode
