/-
Hashing and committing (`pkg/trie/hasher.go`, `committer.go`, `node/node_set.go`,
and `Hash`, `Commit` of `trie.go`).

`Hasher.hash` collapses a node to its hash and keeps the computed hashes in a
copy of the node.  `Committer.commit` walks the dirty part of a hashed node
and adds one entry for each node it passes to a `NodeSet`.  The two encode an
unset child of a full node differently: the hasher as an empty byte string,
the committer as 32 zero bytes.
-/
import MetaNode.Trie

namespace MetaNode

variable (E : Env)

/-! ### The hasher -/

namespace Hasher

/-- The bytes hashed for a short node, given its collapsed child. -/
def shortInput (key : Path) (child : Node) : Bytes :=
  shortMarshal E (hexToCompact key) (child.marshal E)

/-- The children of a collapsed full node, given the collapsed form of every
child that is set. -/
def collapseChildren (ch hashed : Nibble → Node) : Nibble → Node := fun i =>
  if i = 16 then ch i
  else if (ch i).isNil then .value [] -- NilValueNode
  else hashed i

def fullInput (ch hashed : Nibble → Node) : Bytes :=
  (Node.full (collapseChildren ch hashed) newFlag).marshal E

/-- `hash`: the collapsed node and a copy of the node that caches its hash.
Value and hash nodes don't have children, so they're left as were. -/
def hash : Node → Node × Node
  | .nil => (.nil, .nil)
  | .value v => (.value v, .value v)
  | .hash h => (.hash h, .hash h)
  | .short key val flags =>
    -- Return the cached hash if it's available
    match flags.hash with
    | some h => (.hash h, .short key val flags)
    | none =>
      let child := hash val
      let h := (E.keccak256 (shortInput E key child.1)).1
      (.hash h, .short key child.2 { flags with hash := some h })
  | .full ch flags =>
    match flags.hash with
    | some h => (.hash h, .full ch flags)
    | none =>
      let h := (E.keccak256 (fullInput E ch fun i => (hash (ch i)).1)).1
      -- the value at 16 is neither hashed nor cached
      let cached : Nibble → Node := fun i =>
        if i = 16 ∨ (ch i).isNil then ch i else (hash (ch i)).2
      (.hash h, .full cached { flags with hash := some h })

end Hasher

/-! ### Node sets -/

structure NodeWrapper where
  hash : Hash
  blob : Bytes
  deriving DecidableEq

namespace NodeWrapper

def isDeleted (n : NodeWrapper) : Bool := n.blob.length == 0

def newDeleted : NodeWrapper := ⟨FixedBytes.zero 32, []⟩

end NodeWrapper

structure Leaf where
  blob : Bytes
  parent : Hash
  deriving DecidableEq

/-- The nodes collected by a commit, each keyed by the hex form of its path.  The
counters are also decreased, so they are integers. -/
structure NodeSet where
  leaves : List Leaf
  nodes : AList fun _ : Bytes => NodeWrapper
  updates : ℤ
  deletes : ℤ

namespace NodeSet

def new : NodeSet := ⟨[], ∅, 0, 0⟩

/-- `AddNode` -/
def addNodeBytes (set : NodeSet) (path : Bytes) (n : NodeWrapper) : NodeSet :=
  let set := if n.isDeleted then { set with deletes := set.deletes + 1 }
    else { set with updates := set.updates + 1 }
  { set with nodes := set.nodes.insert (hexEncode path) n }

/-- `AddNode` as the trie calls it, with a path of nibbles. -/
def addNode (set : NodeSet) (path : Path) (n : NodeWrapper) : NodeSet :=
  set.addNodeBytes path.bytes n

@[simp] theorem addNodeBytes_nodes (set : NodeSet) (path : Bytes) (n : NodeWrapper) :
    (set.addNodeBytes path n).nodes = set.nodes.insert (hexEncode path) n := by
  rw [addNodeBytes]
  split <;> rfl

@[simp] theorem addNode_nodes (set : NodeSet) (path : Path) (n : NodeWrapper) :
    (set.addNode path n).nodes = set.nodes.insert (hexEncode path.bytes) n :=
  set.addNodeBytes_nodes path.bytes n

def addLeaf (set : NodeSet) (parent : Hash) (blob : Bytes) : NodeSet :=
  { set with leaves := set.leaves ++ [⟨blob, parent⟩] }

end NodeSet

/-! ### The committer -/

/-- What `commit` makes of a node: a hash node, or the collapsed node itself,
of which the parent takes only the encoding. -/
inductive Collapsed where
  | hash (h : Bytes)
  | embedded (blob : Bytes)

def Collapsed.marshal : Collapsed → Bytes
  | .hash h => h
  | .embedded blob => blob

abbrev CommitM := StateT NodeSet (Except Fault)

namespace Committer

variable (tracer : Tracer) (collectLeaf : Bool)

/-- `store`, given the cached hash of the collapsed node, its encoding, and its
value if it is a leaf. -/
def store (path : Path) (hash : Option Bytes) (blob : Bytes) (leaf : Option Bytes) :
    CommitM Collapsed :=
  match hash with
  | none => do
    -- The node is embedded in its parent: mark it as deleted only if the node
    -- was existent in database before.
    if path ∈ tracer.accessList then modify fun set => set.addNode path .newDeleted
    pure (.embedded blob)
  | some hash => do
    modify fun set => set.addNode path ⟨bytesToHash hash, blob⟩
    match collectLeaf, leaf with
    | true, some val => modify fun set => set.addLeaf (bytesToHash hash) val
    | _, _ => pure ()
    pure (.hash hash)

/-- The loop of `commitChildren` over the first 16 children; `kids` holds the
encodings of the children committed so far. -/
def commitChildren (commit : Nibble → CommitM Collapsed) (ch : Nibble → Node) :
    List Nibble → (Nibble → Bytes) → CommitM (Nibble → Bytes)
  | [], kids => pure kids
  | i :: is, kids =>
    match ch i with
    | .nil => commitChildren commit ch is kids
    | .hash h => commitChildren commit ch is (Function.update kids i h)
    | _ => do
      let child ← commit i
      commitChildren commit ch is (Function.update kids i child.marshal)

def hexNibbles : List Nibble := (List.finRange 16).map Fin.castSucc

/-- `commit` collapses a node and returns it. -/
def commit : Path → Node → CommitM Collapsed
  | path, .short key val flags =>
    match flags with
    | ⟨some h, false⟩ => pure (.hash h)
    | _ => do
      -- a value or a hash below is encoded as it is
      let child ←
        match val with
        | .full _ _ => do
          let c ← commit (path ++ key) val
          pure c.marshal
        | val => pure (val.marshal E)
      let leaf := match val with
        | .value v => some v
        | _ => none
      store tracer collectLeaf path flags.hash (shortMarshal E (hexToCompact key) child) leaf
  | path, .full ch flags =>
    match flags with
    | ⟨some h, false⟩ => pure (.hash h)
    | _ => do
      -- an unset child is encoded as 32 zero bytes
      let kids ← commitChildren (fun i => commit (path ++ [i]) (ch i)) ch hexNibbles
        fun _ => List.replicate 32 0
      let kids := if (ch 16).isNil then kids else Function.update kids 16 ((ch 16).marshal E)
      store tracer collectLeaf path flags.hash (fullMarshal E kids) none
  | _, .hash h => pure (.hash h)
  | _, _ => throw .panic

end Committer

/-! ### Hash and Commit -/

namespace MerklePatriciaTrie

/-- `Hash`.  The root is never a value node, so the collapsed root is a hash. -/
def hash (t : MerklePatriciaTrie) : Hash × MerklePatriciaTrie :=
  match t.root with
  | .nil => (emptyRootHash, t)
  | root =>
    let (hashed, cached) := Hasher.hash E root
    (bytesToHash (hashed.marshal E), { t with root := cached })

/-- What `Commit` returns: the root hash, the nodes to store, if any, and the
hashes of the replaced nodes. -/
structure CommitResult where
  hash : Hash
  nodeSet : Option NodeSet
  oldKeys : List (Option Bytes)

def deletedSet (tracer : Tracer) : NodeSet :=
  tracer.deletedNodes.foldl (fun nodes path => nodes.addNode path .newDeleted) .new

/-- `Commit`.  Only the tracer of the trie changes: hashing and committing work
on a copy. -/
def commit (t : MerklePatriciaTrie) (collectLeaf : Bool) :
    Except Fault CommitResult × MerklePatriciaTrie :=
  let t' := { t with tracer := .new }
  if t.root.isNil then
    if t.tracer.deletedNodes.length = 0 then (.ok ⟨emptyRootHash, none, t.tracer.oldKeys⟩, t')
    else (.ok ⟨emptyRootHash, some (deletedSet t.tracer), t.tracer.oldKeys⟩, t')
  else
    -- hashing keeps the dirty flags, so a clean root has nothing to write
    let (rootHash, commitTrie) := t.copy.hash E
    if !commitTrie.root.cache.2 then (.ok ⟨rootHash, none, t.tracer.oldKeys⟩, t')
    else
      match (Committer.commit E t.tracer collectLeaf [] commitTrie.root).run
          (deletedSet t.tracer) with
      | .ok (.hash _, nodes) => (.ok ⟨rootHash, some nodes, t.tracer.oldKeys⟩, t')
      | .ok (.embedded _, _) => (.error .panic, t')
      | .error e => (.error e, t')

end MerklePatriciaTrie

end MetaNode
