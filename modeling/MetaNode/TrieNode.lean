/-
Trie nodes and their stored form (`pkg/trie/node`).

A node in memory is nothing, a value, a short node (a run of nibbles), a full
node (17 children) or the hash of a node that has not been loaded.  Its stored
form is an `MPTNode` message around an `MPTShortNode` or `MPTFullNode`
message.  `Env` holds what the code takes from outside the repository: the
protobuf wire format, Keccak-256 and the text of an address.

`decodeNode_shortMarshal` and `decodeNode_fullMarshal` say what comes back
when a stored short or full node is decoded: the children of a full node are
all taken for hashes, and 32 zero bytes for an empty slot.
-/
import Mathlib.Data.List.OfFn
import MetaNode.AddressHex
import MetaNode.Encoding
import MetaNode.Keccak
import MetaNode.Wire

namespace MetaNode

open Wire

/-- The packages outside the repository that the code relies on. -/
structure Env where
  wire : Format
  keccak256 : Bytes → Hash
  /-- `Address.Hex`, which `HexToAddress` reads back. -/
  addressHex : Address → Bytes
  hexToAddress_addressHex : ∀ a, hexToAddress (addressHex a) = a
  addressHex_ascii : ∀ a, ∀ c ∈ addressHex a, c < 0x80

theorem Env.addressHex_injective (E : Env) : Function.Injective E.addressHex :=
  Function.LeftInverse.injective E.hexToAddress_addressHex

def lowerHex (a : Address) : Bytes := [48, 120] ++ hexEncode a.1

theorem hexToAddress_lowerHex (a : Address) : hexToAddress (lowerHex a) = a := by
  rw [lowerHex, hexToAddress, fromHex_append (by rw [length_hexEncode]; omega),
    hexDecode_hexEncode]
  exact FixedBytes.ofBytes_val a

theorem ascii_lowerHex (a : Address) : ∀ c ∈ lowerHex a, c < 0x80 :=
  List.forall_mem_append.mpr ⟨by simp, ascii_hexEncode a.1⟩

def stdEnv : Env where
  wire := leb
  keccak256 b := ⟨Keccak.hash b, Keccak.length_hash b⟩
  addressHex := lowerHex
  hexToAddress_addressHex := hexToAddress_lowerHex
  addressHex_ascii := ascii_lowerHex

inductive TrieError where
  | missingNode (nodeHash : Hash) (path : Path)
  | committed
  /-- `failed to get key: %w` -/
  | getKey (cause : TrieError)
  /-- `không thể lấy tất cả dữ liệu từ Trie: %v` -/
  | exportData (cause : TrieError)
  /-- `không thể tạo Trie mới: %v` -/
  | importNew (cause : TrieError)
  /-- `lỗi cập nhật key %s: %v` -/
  | importUpdate (key : Bytes) (cause : TrieError)
  /-- `lỗi khi đếm phần tử: %w` -/
  | count (cause : TrieError)
  /-- `không thể resolve hash node %s: %w` -/
  | countResolve (n : Bytes) (cause : TrieError)
  deriving DecidableEq

/-- How a call can fail to return: with an error, by a run-time panic, or, in
the model only, because the recursion bound was too small. -/
inductive Fault where
  | err (e : TrieError)
  | panic
  | outOfFuel
  deriving DecidableEq

/-! ### Messages (`merkle_patricia_trie.proto`) -/

inductive MPTNodeType where
  | full
  | short
  | value
  | unrecognized (n : ℕ)
  deriving DecidableEq

def MPTNodeType.number : MPTNodeType → ℕ
  | .full => 0
  | .short => 1
  | .value => 2
  | .unrecognized n => n

def MPTNodeType.ofNumber (n : ℕ) : MPTNodeType :=
  match n % 2 ^ 32 with
  | 0 => .full
  | 1 => .short
  | 2 => .value
  | n => .unrecognized n

structure MPTNode where
  type : MPTNodeType
  data : Bytes

structure MPTFullNode where
  nodes : List Bytes

structure MPTShortNode where
  key : Bytes
  value : Bytes

section Messages

variable (E : Env)

def MPTNode.marshal (m : MPTNode) : Bytes :=
  E.wire.encode (varintField 1 m.type.number ++ bytesField 2 m.data)

def MPTNode.unmarshal (b : Bytes) : Option MPTNode :=
  (E.wire.decode b).map fun fs =>
    ⟨.ofNumber (getVarint 1 fs), getBytes 2 fs⟩

def MPTFullNode.marshal (m : MPTFullNode) : Bytes :=
  E.wire.encode (repeatedField 1 m.nodes)

def MPTFullNode.unmarshal (b : Bytes) : Option MPTFullNode :=
  (E.wire.decode b).map fun fs => ⟨getRepeated 1 fs⟩

def MPTShortNode.marshal (m : MPTShortNode) : Bytes :=
  E.wire.encode (bytesField 1 m.key ++ bytesField 2 m.value)

def MPTShortNode.unmarshal (b : Bytes) : Option MPTShortNode :=
  (E.wire.decode b).map fun fs => ⟨getBytes 1 fs, getBytes 2 fs⟩

theorem MPTNode.unmarshal_marshal {type : MPTNodeType} (h : type = .full ∨ type = .short)
    (data : Bytes) :
    MPTNode.unmarshal E (MPTNode.marshal E ⟨type, data⟩) = some ⟨type, data⟩ := by
  have hnum : type.number < 2 ^ 64 ∧ MPTNodeType.ofNumber type.number = type := by
    rcases h with rfl | rfl <;> decide
  have hvalid := valid_append (valid_varintField 1 (by decide) hnum.1)
    (valid_bytesField 2 (by decide) data)
  rw [MPTNode.unmarshal, MPTNode.marshal, E.wire.decode_encode _ hvalid]
  simp [getVarint, getBytes, getVarints_varintField, getRepeated_bytesField,
    hnum.2]

theorem MPTFullNode.unmarshal_marshal (nodes : List Bytes) :
    MPTFullNode.unmarshal E (MPTFullNode.marshal E ⟨nodes⟩) = some ⟨nodes⟩ := by
  have hvalid := valid_repeatedField 1 (by decide) nodes
  rw [MPTFullNode.unmarshal, MPTFullNode.marshal, E.wire.decode_encode _ hvalid]
  simp [getRepeated_repeatedField]

theorem MPTShortNode.unmarshal_marshal (key value : Bytes) :
    MPTShortNode.unmarshal E (MPTShortNode.marshal E ⟨key, value⟩) = some ⟨key, value⟩ := by
  have hvalid := valid_append (valid_bytesField 1 (by decide) key)
    (valid_bytesField 2 (by decide) value)
  rw [MPTShortNode.unmarshal, MPTShortNode.marshal, E.wire.decode_encode _ hvalid]
  simp [getBytes, getRepeated_bytesField]

theorem MPTNode.marshal_ne_nil {type : MPTNodeType} {data : Bytes}
    (h : type = .short ∨ type = .full ∧ data ≠ []) : MPTNode.marshal E ⟨type, data⟩ ≠ [] := by
  have hnum : type.number < 2 ^ 64 := by
    rcases h with rfl | ⟨rfl, -⟩ <;> decide
  refine E.wire.encode_ne_nil (valid_append (valid_varintField 1 (by decide) hnum)
    (valid_bytesField 2 (by decide) data)) ?_
  rcases h with rfl | ⟨rfl, hdata⟩
  · simp [varintField, MPTNodeType.number]
  · simp [bytesField, hdata]

theorem MPTFullNode.marshal_ne_nil {nodes : List Bytes} (h : nodes ≠ []) :
    MPTFullNode.marshal E ⟨nodes⟩ ≠ [] :=
  E.wire.encode_ne_nil (valid_repeatedField 1 (by decide) nodes)
    (by simpa [repeatedField] using h)

end Messages

/-! ### Nodes -/

/-- The cached hash of a node and whether the node has to be written. -/
structure NodeFlag where
  hash : Option Bytes
  dirty : Bool
  deriving DecidableEq

def newFlag : NodeFlag := ⟨none, true⟩

/-- A node in memory; `nil` is the nil interface value. -/
inductive Node where
  | nil
  | value (v : Bytes)
  | short (key : Path) (val : Node) (flags : NodeFlag)
  | full (children : Nibble → Node) (flags : NodeFlag)
  | hash (h : Bytes)

namespace Node

def isNil : Node → Bool
  | .nil => true
  | _ => false

theorem isNil_iff {n : Node} : n.isNil = true ↔ n = .nil := by
  cases n <;> simp [isNil]

/-- `Cache()`: the cached hash and the dirty flag. -/
def cache : Node → Option Bytes × Bool
  | .short _ _ flags => (flags.hash, flags.dirty)
  | .full _ flags => (flags.hash, flags.dirty)
  | _ => (none, true)

end Node

variable (E : Env)

/-- `ShortNode.Marshal`, given the bytes of the key and of the child. -/
def shortMarshal (key valBuf : Bytes) : Bytes :=
  MPTNode.marshal E ⟨.short, MPTShortNode.marshal E ⟨key, valBuf⟩⟩

/-- `FullNode.Marshal`, given the bytes of the 17 children. -/
def fullMarshal (bufNodes : Nibble → Bytes) : Bytes :=
  MPTNode.marshal E ⟨.full, MPTFullNode.marshal E ⟨List.ofFn bufNodes⟩⟩

/-- `Marshal()`.  In a full node a nil child is written as 32 zero bytes. -/
def Node.marshal : Node → Bytes
  | .nil => []
  | .value v => v
  | .hash h => h
  | .short key val _ => shortMarshal E key.bytes val.marshal
  | .full ch _ =>
    fullMarshal E fun i => if (ch i).isNil then List.replicate 32 0 else (ch i).marshal

/-- `ShortNode.Unmarshal` -/
def shortUnmarshal (hash buf : Bytes) : Option Node :=
  (MPTShortNode.unmarshal E buf).map fun m =>
    let key := compactToHex m.key
    .short key (if hasTerm key then .value m.value else .hash m.value) ⟨nilIfEmpty hash, false⟩

/-- The child read from one element of `nodes`: zero stands for no child. -/
def childOfBytes (v : Bytes) : Node :=
  if bytesToHash v = FixedBytes.zero 32 then .nil else .hash v

/-- `FullNode.Unmarshal`.  Writing past the 17th child is a run-time panic. -/
def fullUnmarshal (hash buf : Bytes) : Option (Except Fault Node) :=
  (MPTFullNode.unmarshal E buf).map fun m =>
    if (m.nodes.drop 17).all fun v => (childOfBytes v).isNil then
      .ok (.full (fun i => childOfBytes (m.nodes.getD i [])) ⟨nilIfEmpty hash, false⟩)
    else .error .panic

/-- `DecodeNode`.  What cannot be parsed is taken for a hash node. -/
def decodeNode (hash buf : Bytes) : Except Fault Node :=
  match MPTNode.unmarshal E buf with
  | none => .ok (.hash buf)
  | some m =>
    match m.type with
    | .full => (fullUnmarshal E hash m.data).getD (.ok (.hash m.data))
    | .short => .ok ((shortUnmarshal E hash m.data).getD (.hash m.data))
    | _ => .ok .nil

/-! ### What comes back from the store -/

theorem shortMarshal_ne_nil (key val : Bytes) : shortMarshal E key val ≠ [] :=
  MPTNode.marshal_ne_nil E (.inl rfl)

theorem fullMarshal_ne_nil (f : Nibble → Bytes) : fullMarshal E f ≠ [] :=
  MPTNode.marshal_ne_nil E (.inr ⟨rfl, MPTFullNode.marshal_ne_nil E (by simp [List.ofFn_succ])⟩)

theorem decodeNode_shortMarshal (hash val : Bytes) {w : Path} (hw : 16 ∉ w) (t : Bool) :
    decodeNode E hash (shortMarshal E (hexToCompact (w ++ if t then [16] else [])) val)
      = .ok (.short (w ++ if t then [16] else []) (if t then .value val else .hash val)
          ⟨nilIfEmpty hash, false⟩) := by
  have hterm : hasTerm (w ++ if t then [16] else []) = t := by
    cases t with
    | true => simp [hasTerm]
    | false => simpa using hasTerm_eq_false hw
  rw [decodeNode, shortMarshal, MPTNode.unmarshal_marshal E (.inr rfl)]
  simp only [shortUnmarshal, MPTShortNode.unmarshal_marshal, Option.map_some, Option.getD_some,
    compactToHex_hexToCompact hw, hterm]

theorem decodeNode_fullMarshal (hash : Bytes) (f : Nibble → Bytes) :
    decodeNode E hash (fullMarshal E f)
      = .ok (.full (fun i => childOfBytes (f i)) ⟨nilIfEmpty hash, false⟩) := by
  have hget : ∀ i : Nibble, (List.ofFn f).getD i [] = f i := by
    intro i
    rw [List.getD_eq_getElem?_getD, List.getElem?_ofFn, dif_pos i.isLt]
    rfl
  rw [decodeNode, fullMarshal, MPTNode.unmarshal_marshal E (.inl rfl)]
  simp only [fullUnmarshal, MPTFullNode.unmarshal_marshal, Option.map_some, Option.getD_some, hget]
  rw [if_pos (by simp [List.drop_eq_nil_of_le])]

theorem fullMarshal_inj {f g : Nibble → Bytes} (h : fullMarshal E f = fullMarshal E g) :
    f = g := by
  have h1 := MPTNode.unmarshal_marshal E (.inl rfl) (MPTFullNode.marshal E ⟨List.ofFn f⟩)
  rw [show MPTNode.marshal E ⟨.full, _⟩ = fullMarshal E f from rfl, h, fullMarshal,
    MPTNode.unmarshal_marshal E (.inl rfl), Option.some.injEq, MPTNode.mk.injEq] at h1
  have h2 := MPTFullNode.unmarshal_marshal E (List.ofFn f)
  rw [← h1.2, MPTFullNode.unmarshal_marshal, Option.some.injEq, MPTFullNode.mk.injEq] at h2
  exact (List.ofFn_injective h2).symm

theorem shortMarshal_ne_fullMarshal (k v : Bytes) (f : Nibble → Bytes) :
    shortMarshal E k v ≠ fullMarshal E f := by
  intro h
  have h1 := MPTNode.unmarshal_marshal E (.inr rfl) (MPTShortNode.marshal E ⟨k, v⟩)
  rw [show MPTNode.marshal E ⟨.short, _⟩ = shortMarshal E k v from rfl, h, fullMarshal,
    MPTNode.unmarshal_marshal E (.inl rfl), Option.some.injEq, MPTNode.mk.injEq] at h1
  exact absurd h1.1 (by decide)

end MetaNode
