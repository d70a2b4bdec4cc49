/-
The proof verifier (`proof/rust-verifier/src/main.rs`).

The program asks a node for the proof of an address and for the state root of a block, and
verifies the one against the other.  The path that it hands to `PathProof::verify` is the one
that the proof itself names; the bytes of the address are read and not used.  `nomt` and
`bincode` are parameters, with the trie of `BitTrie` for what a root stands for.
-/
import MetaNode.AddressHex
import MetaNode.BigEndian
import MetaNode.BitTrie

namespace MetaNode.ProofVerifier

/-! ### Proofs of `nomt` -/

abbrev KeyPath := {bits : List Bool // bits.length = 256}

structure LeafData where
  keyPath : KeyPath
  valueHash : Hash
  deriving DecidableEq

structure VerifiedPathProof where
  path : List Bool
  terminal : Option LeafData

inductive PathProofVerifyError where
  | tooManySiblings
  | rootMismatch

/-! ### The program -/

/-- The answer of the node to a request, where a text is looked for. -/
inductive Response where
  /-- The request fails, or the answer is not JSON. -/
  | failed
  /-- There is no text where it should be. -/
  | noText
  | text (s : Bytes)

structure Externals where
  PathProof : Type
  /-- `eth_getProof` of an address and a block; the text is `result`. -/
  ethGetProof : Bytes → Bytes → Response
  /-- `eth_getBlockByNumber`; the text is `result.stateRoot`. -/
  ethGetBlockByNumber : Bytes → Response
  /-- `bincode::deserialize` -/
  deserialize : Bytes → Option PathProof
  /-- `proof.terminal.path()` -/
  terminalPath : PathProof → List Bool
  /-- `PathProof::verify::<Blake3Hasher>` -/
  verify : PathProof → List Bool → Hash → Except PathProofVerifyError VerifiedPathProof

/-- `trim_start_matches("0x")`, which takes away every one of them. -/
def trimStart0x : Bytes → Bytes
  | 48 :: 120 :: rest => trimStart0x rest
  | s => s

/-- `Vec::from_hex` -/
def vecFromHex : Bytes → Option Bytes
  | [] => some []
  | [_] => none
  | a :: b :: rest =>
    match hexValue a, hexValue b, vecFromHex rest with
    | some x, some y, some bytes => some (UInt8.ofNat (16 * x + y) :: bytes)
    | _, _, _ => none

/-- The digits of `parse::<u64>`. -/
def parseDigits : ℕ → Bytes → Option ℕ
  | n, [] => some n
  | n, c :: rest =>
    if 48 ≤ c ∧ c ≤ 57 ∧ 10 * n + (c.toNat - 48) < 2 ^ 64 then
      parseDigits (10 * n + (c.toNat - 48)) rest
    else none

/-- `parse::<u64>` -/
def parseU64 : Bytes → Option ℕ
  | [] => none
  | 43 :: c :: rest => parseDigits 0 (c :: rest)
  | s => parseDigits 0 s

def latest : Bytes := [108, 97, 116, 101, 115, 116]

def pending : Bytes := [112, 101, 110, 100, 105, 110, 103]

/-- The block of the requests; a number is written in hexadecimal. -/
def blockParam : Option Bytes → Bytes
  | none => latest
  | some param =>
    if param = latest ∨ param = pending then param
    else
      match parseU64 param with
      | some n => 48 :: 120 :: (Nat.toDigits 16 n).map fun c => UInt8.ofNat c.toNat
      | none => param

/-- Why the program ends before it verifies anything. -/
inductive Failure where
  /-- It prints its usage and exits with 1. -/
  | usage
  /-- The error of `from_hex`. -/
  | hex
  /-- The error of a request. -/
  | request
  /-- `Failed to get proof hex from RPC` -/
  | noProof
  /-- `Failed to deserialize proof`, with which the program ends normally. -/
  | undeserialized
  /-- `Failed to get stateRoot from RPC` -/
  | noStateRoot
  /-- `copy_from_slice` panics. -/
  | rootLength

inductive Outcome where
  | unverified (f : Failure)
  /-- `Verification SUCCESS!` against a root. -/
  | success (root : Hash) (verified : VerifiedPathProof)
  /-- `Verification FAILED` -/
  | failed (e : PathProofVerifyError)

inductive Report where
  /-- `Key exists in trie.`, and the value hash -/
  | keyExists (valueHash : Hash)
  /-- `Key DOES NOT exist in trie.` -/
  | keyDoesNotExist

def report (verified : VerifiedPathProof) : Report :=
  match verified.terminal with
  | some leaf => .keyExists leaf.valueHash
  | none => .keyDoesNotExist

def fetchProof (X : Externals) (address block : Bytes) : Except Failure X.PathProof :=
  match X.ethGetProof (48 :: 120 :: address) block with
  | .failed => .error .request
  | .noText => .error .noProof
  | .text proofHex =>
    match vecFromHex (trimStart0x proofHex) with
    | none => .error .hex
    | some proofBytes =>
      match X.deserialize proofBytes with
      | none => .error .undeserialized
      | some proof => .ok proof

def fetchRoot (X : Externals) (block : Bytes) : Except Failure Hash :=
  match X.ethGetBlockByNumber block with
  | .failed => .error .request
  | .noText => .error .noStateRoot
  | .text stateRootHex =>
    match vecFromHex (trimStart0x stateRootHex) with
    | none => .error .hex
    | some stateRootBytes =>
      if h : stateRootBytes.length = 32 then .ok ⟨stateRootBytes, h⟩ else .error .rootLength

def main (X : Externals) (args : List Bytes) : Outcome :=
  match args[1]? with
  | none => .unverified .usage
  | some addressStr =>
    let address := trimStart0x addressStr
    match vecFromHex address with
    | none => .unverified .hex
    | some _addressBytes =>
      let block := blockParam args[2]?
      match fetchProof X address block with
      | .error f => .unverified f
      | .ok proof =>
        match fetchRoot X block with
        | .error f => .unverified f
        | .ok root =>
          let bits := X.terminalPath proof
          match X.verify proof bits root with
          | .ok verified => .success root verified
          | .error e => .failed e

/-- The bytes of the address that is asked about. -/
def requested (args : List Bytes) : Option Bytes :=
  args[1]?.bind fun addressStr => vecFromHex (trimStart0x addressStr)

/-! ### What a success says -/

section Success

variable {X : Externals} {args : List Bytes} {root : Hash} {v : VerifiedPathProof}

theorem main_eq_success (h : main X args = .success root v) :
    ∃ address proof, requested args = some address ∧
      X.verify proof (X.terminalPath proof) root = .ok v := by
  unfold main at h
  split at h
  · cases h
  · next addressStr hargs =>
    simp only at h
    split at h
    · cases h
    · next address hhex =>
      split at h
      · cases h
      · next proof _ =>
        split at h
        · cases h
        · split at h
          · next hverify =>
            cases h
            refine ⟨address, proof, ?_, hverify⟩
            rw [requested, hargs, Option.bind_some, hhex]
          · cases h

def VerifiedPathProof.entry (v : VerifiedPathProof) : BitTrie.Terminal Hash :=
  v.terminal.map fun leaf => (leaf.keyPath.1, leaf.valueHash)

/-- `verify` is sound for the path it is given: what it returns is the terminal of the proof,
at the end of a part of the path, in every trie that the root stands for. -/
structure Sound (X : Externals) (Commits : Hash → BitTrie.Trie Hash → Prop) : Prop where
  length_terminalPath : ∀ proof, (X.terminalPath proof).length ≤ 256
  path_le : ∀ {proof path root v}, X.verify proof path root = .ok v → v.path <+: path
  leaf_path : ∀ {proof path root v}, X.verify proof path root = .ok v →
    ∀ leaf ∈ v.terminal, leaf.keyPath.1 = X.terminalPath proof
  terminalAt : ∀ {proof path root v}, X.verify proof path root = .ok v →
    ∀ t, Commits root t → t.terminalAt v.path = some v.entry

/-- The verified terminal is what the tries of the root have, and it settles whether the key
is in them. -/
def Establishes (Commits : Hash → BitTrie.Trie Hash → Prop) (root : Hash) (v : VerifiedPathProof)
    (key : KeyPath) : Prop :=
  (∀ t, Commits root t → t.terminalAt v.path = some v.entry) ∧
    BitTrie.Determines 256 v.path v.entry key.1

variable {Commits : Hash → BitTrie.Trie Hash → Prop}

theorem wf_of_success (hsound : Sound X Commits) (h : main X args = .success root v) :
    v.path.length ≤ 256 ∧ (BitTrie.Trie.ofTerminal v.entry).WF 256 v.path := by
  obtain ⟨-, proof, -, hverify⟩ := main_eq_success h
  have hpath := hsound.path_le hverify
  refine ⟨Nat.le_trans hpath.length_le (hsound.length_terminalPath proof), ?_⟩
  cases hterminal : v.terminal with
  | none =>
    rw [VerifiedPathProof.entry, hterminal]
    trivial
  | some leaf =>
    rw [VerifiedPathProof.entry, hterminal]
    rw [← hsound.leaf_path hverify leaf hterminal] at hpath
    exact ⟨hpath, leaf.keyPath.2⟩

/-- For every request and all answers of the node, and any way to derive key paths from
addresses: a success establishes whether the key path of the address is in the trie just if
the verified path leads to it. -/
theorem establishes_iff (hsound : Sound X Commits) (keyPath : Bytes → KeyPath)
    (h : main X args = .success root v) :
    ∃ address, requested args = some address ∧
      (Establishes Commits root v (keyPath address) ↔ v.path <+: (keyPath address).1) := by
  obtain ⟨address, proof, haddress, hverify⟩ := main_eq_success h
  obtain ⟨hlen, hwf⟩ := wf_of_success hsound h
  refine ⟨address, haddress, ?_⟩
  rw [Establishes, BitTrie.determines_iff (FixedBytes.zero 32) (keyPath address).2 hlen hwf]
  exact and_iff_right (hsound.terminalAt hverify)

def Report.Holds (t : BitTrie.Trie Hash) (key : KeyPath) : Report → Prop
  | .keyExists _ => (t.find key.1).isSome
  | .keyDoesNotExist => t.find key.1 = none

/-- The printed line follows from what was verified just if the leaf is the leaf of the key,
or there is none and the verified path leads to the key. -/
theorem report_iff (hsound : Sound X Commits) (key : KeyPath)
    (h : main X args = .success root v) :
    (∀ t : BitTrie.Trie Hash, t.WF 256 [] → t.terminalAt v.path = some v.entry →
      (report v).Holds t key) ↔
      match v.terminal with
      | some leaf => leaf.keyPath = key
      | none => v.path <+: key.1 := by
  obtain ⟨hlen, hwf⟩ := wf_of_success hsound h
  obtain ⟨path, terminal⟩ := v
  cases terminal with
  | some => exact (BitTrie.present_iff key.2 hlen hwf).trans Subtype.ext_iff.symm
  | none => exact BitTrie.absent_iff (FixedBytes.zero 32) key.2 hlen

end Success

/-! ### A trie with two leaves -/

def zeroKey : KeyPath := ⟨List.replicate 256 false, List.length_replicate⟩

/-- The key path of `0x80` and 31 zero bytes. -/
def highKey : KeyPath :=
  ⟨true :: List.replicate 255 false, by rw [List.length_cons, List.length_replicate]⟩

/-- The key path of 32 bytes `0xff`. -/
def oneKey : KeyPath := ⟨List.replicate 256 true, List.length_replicate⟩

/-- BLAKE3 of the value `01`. -/
def zeroValueHash : Hash :=
  ⟨BigEndian.fixed 32 0x48fc721fbbc172e0925fa27af1671de225ba927134802998b10a1568a188652b, rfl⟩

/-- BLAKE3 of the value `02`. -/
def highValueHash : Hash :=
  ⟨BigEndian.fixed 32 0xab13bedf42e84bae0f7c62c7dd6a8ada571e8829bed6ea558217f0361b5e25d0, rfl⟩

/-- The node of the leaf of `highKey`: BLAKE3 of its key path and value hash, with the highest
bit set. -/
def highNode : Bytes :=
  BigEndian.fixed 32 0xcb145d329efdc34a45783d998cdb81000b7bd84f16eae63217e8435bdd6e1c84

/-- BLAKE3 of the nodes of the two leaves, with the highest bit cleared. -/
def twoRoot : Hash :=
  ⟨BigEndian.fixed 32 0x24852e36c03343fddbe5018870fca7b03f2e9822064cc9a8d46ded0e4ea1f3a8, rfl⟩

def zeroLeaf : LeafData := ⟨zeroKey, zeroValueHash⟩

def twoTrie : BitTrie.Trie Hash :=
  .node (.leaf zeroKey.1 zeroValueHash) (.leaf highKey.1 highValueHash)

def CommitsTwo (root : Hash) (t : BitTrie.Trie Hash) : Prop := root = twoRoot ∧ t = twoTrie

/-- The proof of `zeroLeaf` as `bincode` writes it: the variant of the terminal, the leaf, the
number of siblings and the sibling. -/
def proofBytes : Bytes :=
  [0, 0, 0, 0] ++ List.replicate 32 0 ++ zeroValueHash.1 ++ [1, 0, 0, 0, 0, 0, 0, 0] ++ highNode

/-- A node that sends the proof of `zeroLeaf` for every address; no other proof is known. -/
def twoLeafNode : Externals where
  PathProof := Unit
  ethGetProof _ _ := .text ([48, 120] ++ hexEncode proofBytes)
  ethGetBlockByNumber _ := .text ([48, 120] ++ hexEncode twoRoot.1)
  deserialize bytes := if bytes = proofBytes then some () else none
  terminalPath _ := zeroKey.1
  verify _ path root :=
    match path with
    | [] => .error .tooManySiblings
    | true :: _ => .error .rootMismatch
    | false :: _ => if root = twoRoot then .ok ⟨[false], some zeroLeaf⟩ else .error .rootMismatch

def verifiedLeaf : VerifiedPathProof := ⟨[false], some zeroLeaf⟩

theorem sound_twoLeafNode : Sound twoLeafNode CommitsTwo := by
  have hverify : ∀ {proof path root v}, twoLeafNode.verify proof path root = .ok v →
      v.path <+: path ∧ v = verifiedLeaf := by
    intro proof path root v h
    simp only [twoLeafNode] at h
    split at h
    · cases h
    · cases h
    · split at h
      · cases h
        exact ⟨List.cons_prefix_cons.mpr ⟨rfl, List.nil_prefix⟩, rfl⟩
      · cases h
  refine ⟨fun _ => Nat.le_of_eq zeroKey.2, fun h => (hverify h).1, fun h leaf hleaf => ?_,
    fun h t ht => ?_⟩
  · rw [(hverify h).2] at hleaf
    cases hleaf
    rfl
  · rw [(hverify h).2, ht.2]
    rfl

/-- The requests for the addresses `00` and `01`. -/
def requestFor (digit : UInt8) : List Bytes := [[], [48, 120, 48, digit]]

theorem main_requestFor {digit : UInt8} (h : digit = 48 ∨ digit = 49) :
    main twoLeafNode (requestFor digit) = .success twoRoot verifiedLeaf := by
  have hhex : ∀ s ∈ [proofBytes, twoRoot.1],
      vecFromHex (trimStart0x ([48, 120] ++ hexEncode s)) = some s := by decide +kernel
  have hproof : ∀ address block, fetchProof twoLeafNode address block = .ok () := by
    intro address block
    simp only [fetchProof, twoLeafNode, hhex proofBytes (by simp), if_true]
  have hroot : ∀ block, fetchRoot twoLeafNode block = .ok twoRoot := by
    intro block
    simp only [fetchRoot, twoLeafNode, hhex twoRoot.1 (by simp), dif_pos twoRoot.2]
  have hverify :
      twoLeafNode.verify () (twoLeafNode.terminalPath ()) twoRoot = .ok verifiedLeaf := by
    show (if twoRoot = twoRoot then _ else Except.error PathProofVerifyError.rootMismatch) = _
    exact if_pos rfl
  have hmain : ∀ address, vecFromHex (trimStart0x [48, 120, 48, digit]) = some address →
      main twoLeafNode (requestFor digit) = .success twoRoot verifiedLeaf := by
    intro address haddress
    simp only [main, requestFor, List.getElem?_cons_succ, List.getElem?_cons_zero, haddress,
      hproof, hroot, hverify]
  obtain rfl | rfl := h
  · exact hmain [0] rfl
  · exact hmain [1] rfl

/-- The address `00` has the key path of the first leaf, others have one that no leaf has. -/
def keyPathOf (address : Bytes) : KeyPath := if address = [0] then zeroKey else oneKey

theorem establishes_iff_example :
    main twoLeafNode (requestFor 48) = .success twoRoot verifiedLeaf ∧
      ∃ address, requested (requestFor 48) = some address ∧
        Establishes CommitsTwo twoRoot verifiedLeaf (keyPathOf address) := by
  have hmain := main_requestFor (Or.inl rfl)
  obtain ⟨address, haddress, hiff⟩ := establishes_iff sound_twoLeafNode keyPathOf hmain
  refine ⟨hmain, address, haddress, hiff.mpr ?_⟩
  cases haddress
  exact List.cons_prefix_cons.mpr ⟨rfl, List.nil_prefix⟩

theorem report_iff_example : (∀ t : BitTrie.Trie Hash, t.WF 256 [] →
    t.terminalAt verifiedLeaf.path = some verifiedLeaf.entry →
      (report verifiedLeaf).Holds t oneKey) ↔ zeroLeaf.keyPath = oneKey :=
  report_iff sound_twoLeafNode oneKey (main_requestFor (Or.inr rfl))

/-- A success for an address that is not in the trie, with a valid proof of a leaf that is:
the proof does not settle whether the key of the address is there, and the line that is
printed says that it is. -/
theorem establishes_fails :
    Sound twoLeafNode CommitsTwo ∧
      main twoLeafNode (requestFor 49) = .success twoRoot verifiedLeaf ∧
      requested (requestFor 49) = some [1] ∧
      ¬ Establishes CommitsTwo twoRoot verifiedLeaf (keyPathOf [1]) ∧
      ∀ t, CommitsTwo twoRoot t → ¬ (report verifiedLeaf).Holds t (keyPathOf [1]) := by
  have hmain := main_requestFor (Or.inr rfl)
  refine ⟨sound_twoLeafNode, hmain, rfl, ?_, ?_⟩
  · rintro ⟨-, hdetermines⟩
    obtain ⟨hlen, hwf⟩ := wf_of_success sound_twoLeafNode hmain
    have hpath := (BitTrie.determines_iff (FixedBytes.zero 32) oneKey.2 hlen hwf).mp hdetermines
    exact Bool.noConfusion (List.cons_prefix_cons.mp hpath).1
  · rintro t ⟨-, rfl⟩ hholds
    have hnone : twoTrie.find oneKey.1 = none := by decide +kernel
    have hfound : (twoTrie.find oneKey.1).isSome := hholds
    rw [hnone] at hfound
    cases hfound

end MetaNode.ProofVerifier
