/-
The Merkle Patricia trie (`pkg/trie/trie.go`, `tracer.go`, `trie_reader.go`).

`Node.get`, `Node.insert` and `Node.delete` are the recursive functions of the
source on a node that may be partly unloaded; `MerklePatriciaTrie.get` and
`MerklePatriciaTrie.update` are the public `Get` and `Update` around them.
They run in `TrieM`, which threads the tracer and, as in the source, keeps
what was traced before a failure.

The recursion follows hash nodes into the database, so it is bounded by a
fuel argument; `depthBound` allows two calls for every nibble of the key, one
to load a node and one to pass through it.
-/
import Mathlib.Data.List.AList
import MetaNode.TrieNode

namespace MetaNode

/-! ### Tracer -/

/-- The paths of inserted, deleted and loaded nodes since the last reset, and
the hashes of the nodes that insertions replaced. -/
structure Tracer where
  inserts : AList fun _ : Path => Unit
  deletes : AList fun _ : Path => Unit
  oldKeys : List (Option Bytes)
  accessList : AList fun _ : Path => Bytes

namespace Tracer

/-- `newTracer`, and the state after `reset` -/
def new : Tracer := ⟨∅, ∅, [], ∅⟩

def onRead (t : Tracer) (path : Path) (val : Bytes) : Tracer :=
  { t with accessList := t.accessList.insert path val }

def onInsert (t : Tracer) (path : Path) : Tracer :=
  if path ∈ t.deletes then { t with deletes := t.deletes.erase path }
  else { t with inserts := t.inserts.insert path () }

def onDelete (t : Tracer) (path : Path) : Tracer :=
  if path ∈ t.inserts then { t with inserts := t.inserts.erase path }
  else { t with deletes := t.deletes.insert path () }

def addOldKey (t : Tracer) (hash : Option Bytes) : Tracer :=
  { t with oldKeys := t.oldKeys ++ [hash] }

def deletedNodes (t : Tracer) : List Path :=
  t.deletes.keys.filter fun path => path ∈ t.accessList

section Kept

variable (t : Tracer) (path : Path)

@[simp] theorem onInsert_accessList : (t.onInsert path).accessList = t.accessList := by
  rw [onInsert]
  split <;> rfl

@[simp] theorem onInsert_oldKeys : (t.onInsert path).oldKeys = t.oldKeys := by
  rw [onInsert]
  split <;> rfl

@[simp] theorem onDelete_accessList : (t.onDelete path).accessList = t.accessList := by
  rw [onDelete]
  split <;> rfl

@[simp] theorem onDelete_oldKeys : (t.onDelete path).oldKeys = t.oldKeys := by
  rw [onDelete]
  split <;> rfl

end Kept

end Tracer

/-- A computation on the trie: it updates the tracer and may fail. -/
def TrieM (α : Type) := Tracer → Except Fault α × Tracer

namespace TrieM

instance : Monad TrieM where
  pure a := fun t => (.ok a, t)
  bind x f := fun t =>
    match x t with
    | (.ok a, t) => f a t
    | (.error e, t) => (.error e, t)

def throw {α : Type} (e : Fault) : TrieM α := fun t => (.error e, t)

def trace (f : Tracer → Tracer) : TrieM Unit := fun t => (.ok (), f t)

/-- Runs `x` and hands its error, but no panic, to the caller. -/
def attempt {α : Type} (x : TrieM α) : TrieM (Except TrieError α) := fun t =>
  match x t with
  | (.ok a, t) => (.ok (.ok a), t)
  | (.error (.err e), t) => (.ok (.error e), t)
  | (.error e, t) => (.error e, t)

variable {α β : Type}

@[simp] theorem pure_apply (a : α) (t : Tracer) : (pure a : TrieM α) t = (.ok a, t) := rfl

@[simp] theorem throw_apply (e : Fault) (t : Tracer) :
    (throw e : TrieM α) t = (.error e, t) := rfl

@[simp] theorem trace_apply (f : Tracer → Tracer) (t : Tracer) : trace f t = (.ok (), f t) := rfl

theorem bind_apply (x : TrieM α) (f : α → TrieM β) (t : Tracer) :
    (x >>= f) t = match x t with
      | (.ok a, t) => f a t
      | (.error e, t) => (.error e, t) := rfl

variable {x : TrieM α} {f : α → TrieM β}

theorem bind_ok {t t' : Tracer} {a : α} (h : x t = (.ok a, t')) : (x >>= f) t = f a t' := by
  rw [bind_apply, h]

theorem bind_eq_ok {t t'' : Tracer} {b : β} :
    (x >>= f) t = (.ok b, t'') ↔ ∃ a t', x t = (.ok a, t') ∧ f a t' = (.ok b, t'') := by
  rw [bind_apply]
  constructor
  · intro h
    split at h
    · exact ⟨_, _, by assumption, h⟩
    · simp at h
  · rintro ⟨a, t', hx, hf⟩
    rw [hx]
    exact hf

theorem bind_eq_error {t t'' : Tracer} {e : Fault} :
    (x >>= f) t = (.error e, t'') ↔
      x t = (.error e, t'') ∨ ∃ a t', x t = (.ok a, t') ∧ f a t' = (.error e, t'') := by
  rw [bind_apply]
  constructor
  · intro h
    split at h
    · exact .inr ⟨_, _, by assumption, h⟩
    · cases h
      exact .inl (by assumption)
  · rintro (hx | ⟨a, t', hx, hf⟩)
    · rw [hx]
    · rw [hx]
      exact hf

end TrieM

open TrieM

/-! ### Loading nodes -/

/-- The node database; `none` stands for an error of `Get`. -/
abbrev DB := Hash → Option Bytes

/-- `TrieReader.node` -/
def DB.node (db : DB) (path : Path) (hash : Hash) : Except Fault Bytes :=
  match db hash with
  | none => .error (.err (.missingNode hash path))
  | some blob => if blob = [] then .error (.err (.missingNode hash path)) else .ok blob

variable (E : Env) (db : DB)

def resolveAndTrack (n : Bytes) (pre : Path) : TrieM Node := fun t =>
  match db.node pre (bytesToHash n) with
  | .error e => (.error e, t)
  -- the blob counts as read even if it does not decode
  | .ok blob => (decodeNode E n blob, t.onRead pre blob)

def resolve (n : Node) (pre : Path) : TrieM Node :=
  match n with
  | .hash h => resolveAndTrack E db h pre
  | n => pure n

/-! ### get, insert, delete -/

/-- Two calls for every nibble of the key, and two to spare for its end. -/
def depthBound (key : Path) : ℕ := 2 * key.length + 2

/-- `get`: the value, the node with what was loaded on the way, and whether
anything was loaded. -/
def Node.get : ℕ → Node → Path → ℕ → TrieM (Option Bytes × Node × Bool)
  | 0, _, _, _ => throw .outOfFuel
  | _ + 1, .nil, _, _ => pure (none, .nil, false)
  | _ + 1, .value v, _, _ => pure (nilIfEmpty v, .value v, false)
  | fuel + 1, .short nkey nval flags, key, pos =>
    if key.length - pos < nkey.length ∨ nkey ≠ (key.drop pos).take nkey.length then
      -- key not found in trie
      pure (none, .short nkey nval flags, false)
    else do
      let (val, newnode, didResolve) ← Node.get fuel nval key (pos + nkey.length)
      pure (val, .short nkey (if didResolve then newnode else nval) flags, didResolve)
  | fuel + 1, .full ch flags, key, pos =>
    match key[pos]? with
    | none => throw .panic -- index out of range
    | some k => do
      let (val, newnode, didResolve) ← Node.get fuel (ch k) key (pos + 1)
      pure (val, .full (if didResolve then Function.update ch k newnode else ch) flags, didResolve)
  | fuel + 1, .hash h, key, pos => do
    let child ← resolveAndTrack E db h (key.take pos)
    let (val, newnode, _) ← Node.get fuel child key pos
    pure (val, newnode, true)

/-- `insert`: whether the node changed, and the node with `value` put below
`key`. -/
def Node.insert : ℕ → Node → Path → Path → Node → TrieM (Bool × Node)
  | 0, _, _, _, _ => throw .outOfFuel
  | _ + 1, n, _, [], val =>
    match n, val with
    | .value v, .value v' => pure (v != v', val)
    | .value _, _ => throw .panic -- the type assertion on `value`
    | _, _ => pure (true, val)
  | fuel + 1, .short nkey nval flags, pre, k :: key, val =>
    let matchlen := prefixLen (k :: key) nkey
    -- If the whole key matches, keep this short node as is
    -- and only update the value.
    if matchlen = nkey.length then do
      let (dirty, nn) ←
        Node.insert fuel nval (pre ++ (k :: key).take matchlen) ((k :: key).drop matchlen) val
      if !dirty then pure (false, .short nkey nval flags)
      else do
        trace (·.addOldKey flags.hash)
        pure (true, .short nkey nn newFlag)
    else
      -- Otherwise branch out at the index where they differ.
      match nkey.drop matchlen, (k :: key).drop matchlen with
      | a :: as, b :: bs => do
        -- both are inserted into a nil node, where no node is read or replaced
        let (_, old) ← Node.insert fuel .nil (pre ++ nkey.take (matchlen + 1)) as nval
        let (_, new) ← Node.insert fuel .nil (pre ++ (k :: key).take (matchlen + 1)) bs val
        let branch := .full (Function.update (Function.update (fun _ => .nil) a old) b new) newFlag
        -- Replace this shortNode with the branch if it occurs at index 0.
        if matchlen = 0 then do
          trace (·.addOldKey flags.hash)
          pure (true, branch)
        else do
          trace (·.onInsert (pre ++ (k :: key).take matchlen))
          trace (·.addOldKey flags.hash)
          pure (true, .short ((k :: key).take matchlen) branch newFlag)
      | _, _ => throw .panic
  | fuel + 1, .full ch flags, pre, k :: key, val => do
    let (dirty, nn) ← Node.insert fuel (ch k) (pre ++ [k]) key val
    if !dirty then pure (false, .full ch flags)
    else do
      trace (·.addOldKey flags.hash)
      pure (true, .full (Function.update ch k nn) newFlag)
  | _ + 1, .nil, pre, k :: key, val => do
    trace (·.onInsert pre)
    pure (true, .short (k :: key) val newFlag)
  | fuel + 1, .hash h, pre, k :: key, val => do
    match ← attempt (resolveAndTrack E db h pre) with
    | .error _ =>
      -- temporary create new short node
      Node.insert fuel .nil pre (k :: key) val
    | .ok rn => do
      let (dirty, nn) ← Node.insert fuel rn pre (k :: key) val
      if !dirty then pure (false, rn) else pure (true, nn)
  | _ + 1, .value _, _, _ :: _, _ => throw .panic

/-- The loop that looks for the only child of a full node: `pos` is the child
seen so far, and a second one ends the loop without a result. -/
def scanChildren (ch : Nibble → Node) : List Nibble → Option Nibble → Option Nibble
  | [], pos => pos
  | i :: is, none => scanChildren ch is (if (ch i).isNil then none else some i)
  | i :: is, some pos => if (ch i).isNil then scanChildren ch is (some pos) else none

def onlyChild (ch : Nibble → Node) : Option Nibble := scanChildren ch (List.finRange 17) none

/-- `delete`: whether the node changed, and the node without `key`, reduced to
minimal form. -/
def Node.delete : ℕ → Node → Path → Path → TrieM (Bool × Node)
  | 0, _, _, _ => throw .outOfFuel
  | fuel + 1, .short nkey nval flags, pre, key =>
    let matchlen := prefixLen key nkey
    if matchlen < nkey.length then
      pure (false, .short nkey nval flags) -- don't replace n on mismatch
    else if matchlen = key.length then do
      trace (·.onDelete pre)
      pure (true, .nil) -- remove n entirely for whole matches
    else do
      let (dirty, child) ←
        Node.delete fuel nval (pre ++ key.take nkey.length) (key.drop nkey.length)
      if !dirty then pure (false, .short nkey nval flags)
      else
        match child with
        | .short ckey cval _ => do
          -- The child shortNode is merged into its parent.
          trace (·.onDelete (pre ++ nkey))
          pure (true, .short (nkey ++ ckey) cval newFlag)
        | child => pure (true, .short nkey child newFlag)
  | fuel + 1, .full ch flags, pre, k :: key => do
    let (dirty, nn) ← Node.delete fuel (ch k) (pre ++ [k]) key
    if !dirty then pure (false, .full ch flags)
    else
      let ch := Function.update ch k nn
      if !nn.isNil then pure (true, .full ch newFlag)
      else
        match onlyChild ch with
        | some pos =>
          if pos ≠ 16 then do
            -- The entry might not be loaded yet, resolve it just for this check.
            let cnode ← resolve E db (ch pos) (pre ++ [pos])
            match cnode with
            | .short ckey cval _ => do
              trace (·.onDelete (pre ++ [pos]))
              pure (true, .short (pos :: ckey) cval newFlag)
            | _ => pure (true, .short [pos] (ch pos) newFlag)
          else pure (true, .short [pos] (ch pos) newFlag)
        | none => pure (true, .full ch newFlag)
  | _ + 1, .full _ _, _, [] => throw .panic -- `key[0]`
  | _ + 1, .value _, _, _ => pure (true, .nil)
  | _ + 1, .nil, _, _ => pure (false, .nil)
  | fuel + 1, .hash h, pre, key => do
    let rn ← resolveAndTrack E db h pre
    let (dirty, nn) ← Node.delete fuel rn pre key
    if !dirty then pure (false, rn) else pure (true, nn)

/-! ### The trie -/

/-- The known root hash of an empty trie: the hash of the byte `0x80`. -/
def emptyRootHash : Hash :=
  ⟨[0x56, 0xe8, 0x1f, 0x17, 0x1b, 0xcc, 0x55, 0xa6, 0xff, 0x83, 0x45, 0xe6, 0x92, 0xc0, 0xf8, 0x6e,
    0x5b, 0x48, 0xe0, 0x1b, 0x99, 0x6c, 0xad, 0xc0, 0x01, 0x62, 0x2f, 0xb5, 0xe3, 0x63, 0xb4, 0x21],
    rfl⟩

example : stdEnv.keccak256 [0x80] = emptyRootHash := by decide +kernel

structure MerklePatriciaTrie where
  root : Node
  committed : Bool
  reader : DB
  tracer : Tracer
  isHash : Bool

namespace MerklePatriciaTrie

def hashKey (isHash : Bool) (key : Bytes) : Bytes :=
  if key.length = 32 ∨ !isHash then key else (E.keccak256 key).1

def new (root : Hash) (isHash : Bool) : Except Fault MerklePatriciaTrie :=
  if root ≠ FixedBytes.zero 32 ∧ root ≠ emptyRootHash then
    match resolveAndTrack E db root.1 [] .new with
    | (.ok rootnode, tracer) => .ok ⟨rootnode, false, db, tracer, isHash⟩
    | (.error e, _) => .error e
  else .ok ⟨.nil, false, db, .new, isHash⟩

variable (t : MerklePatriciaTrie)

def copy : MerklePatriciaTrie :=
  { t with committed := false, tracer := .new }

/-- The error of `Get` around an error of `get`. -/
def wrapGetError : Fault → Fault
  | .err e => .err (.getKey e)
  | e => e

/-- `Get`.  The nodes loaded on the way are dropped; only the tracer keeps
them. -/
def get (t : MerklePatriciaTrie) (key : Bytes) :
    Except Fault (Option Bytes) × MerklePatriciaTrie :=
  if t.committed then (.error (.err .committed), t)
  else
    let k := keybytesToHex (hashKey E t.isHash key)
    match Node.get E t.reader (depthBound k) t.root k 0 t.tracer with
    | (.ok (value, _, _), tracer) => (.ok value, { t with tracer })
    | (.error e, tracer) => (.error (wrapGetError e), { t with tracer })

/-- The private `update`: an empty value deletes the key. -/
def updateKey (key value : Bytes) : Except Fault Unit × MerklePatriciaTrie :=
  let k := keybytesToHex key
  let r :=
    if value.length ≠ 0 then
      Node.insert E t.reader (depthBound k) t.root [] k (.value value) t.tracer
    else Node.delete E t.reader (depthBound k) t.root [] k t.tracer
  match r with
  | (.ok (_, n), tracer) => (.ok (), { t with root := n, tracer })
  | (.error e, tracer) => (.error e, { t with tracer })

def update (key value : Bytes) : Except Fault Unit × MerklePatriciaTrie :=
  if t.committed then (.error (.err .committed), t)
  else t.updateKey E (hashKey E t.isHash key) value

end MerklePatriciaTrie

end MetaNode
