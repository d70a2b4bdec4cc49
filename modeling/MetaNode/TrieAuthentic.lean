/-
Stored blobs and the hashes they are stored under.

The hasher and the committer encode an unset child of a full node differently,
so the hash of a full node need not be the hash of the blob that is stored
under it.

* `hashEnc_eq_blob_iff` — the two encodings of a node agree exactly when it is
  no full node with an unset child.
-/
import MetaNode.TrieReopen

namespace MetaNode

open Patricia Patricia.Tree

variable {E : Env} {P : KeyTree → Prop} {db : DB}

/-! ### The two encodings of a node -/

/-- The first 16 children of a full node are set. -/
def AllSet (S : KeyTree) : Prop := ∀ ch, S = .full ch → ∀ i, i ≠ 16 → ch i ≠ .empty

theorem hashEnc_eq_blob_iff {S : KeyTree} (hS : IsNode S) : hashEnc E S = blob E S ↔ AllSet S := by
  rcases hS with ⟨k, c, rfl⟩ | ⟨ch, rfl⟩
  · constructor
    · intro _ ch hch
      simp at hch
    · exact fun _ => rfl
  · constructor
    · intro h ch' hch i hi hempty
      obtain rfl := Tree.full.inj hch
      have hslot := congrFun (fullMarshal_inj E h) i
      rw [hashSlot, blobSlot, if_pos (Tree.isEmpty_iff.mpr hempty), if_neg hi,
        if_pos (Tree.isEmpty_iff.mpr hempty)] at hslot
      simp at hslot
    · intro h
      show fullMarshal E _ = fullMarshal E _
      congr 1
      funext i
      rw [hashSlot, blobSlot]
      by_cases hi : i = 16
      · rw [if_pos hi]
      · have hne : ¬ (ch i).isEmpty := mt Tree.isEmpty_iff.mp (h ch rfl i hi)
        rw [if_neg hne, if_neg hne]

/-- The stored forms of the nodes of a trie that is completely in memory. -/
def Node.storedForms (E : Env) : Node → List Bytes
  | .short key val _ => Hasher.shortInput E key (Hasher.hash E val).1 :: val.storedForms E
  | .full ch _ =>
    (Node.full (fun i => (Hasher.hash E (ch i)).1) newFlag).marshal E ::
      Committer.hexNibbles.flatMap fun i => (ch i).storedForms E
  | _ => []

variable {n : Node} {T : KeyTree}

theorem Loads.blobSlot_eq (hP : Holds E P db) (hn : Loads E P n T)
    (hT : Canonical 16 T ∨ ∃ v, T = .leaf v) :
    (if (Hasher.hash E n).1.isNil then List.replicate 32 0 else (Hasher.hash E n).1.marshal E)
      = blobSlot T (ref E T) := by
  by_cases hnil : n = .nil
  · rw [(hn.nil_iff hP).mp hnil, hnil]
    rfl
  · have hne := mt (hn.nil_iff hP).mpr hnil
    rw [Node.marshal_of_ne_nil (Hasher.hash_ne_nil hnil), (hn.hash_spec hP hT).1, blobSlot,
      if_neg (mt Tree.isEmpty_iff.mp hne)]

theorem Loads.storedForms_eq (hn : Loads E Unwritten n T) (hT : Canonical 16 T) :
    n.storedForms E = (nodes T).map fun x => blob E x.2 := by
  have hP := holds_unwritten E fun _ => none
  induction hn with
  | nil | value => rfl
  | hash hmem => exact hmem.elim
  | @short k n fl c hn hfl ih =>
    have hbelow : n.storedForms E = (nodes c).map fun x => blob E x.2 := by
      rcases canonical_or_leaf_of_short hT with hc | ⟨v, rfl⟩
      · exact ih hc
      · rw [hn.of_leaf hP]
        rfl
    rw [Node.storedForms, nodes, List.map_cons, List.map_map, hbelow, Hasher.shortInput,
      (hn.hash_spec hP (canonical_or_leaf_of_short hT)).1]
    rfl
  | @full ch fl Tc hch hfl ih =>
    have hslot := fun i => (hch i).blobSlot_eq hP (hT.child_or_leaf i)
    rw [Node.storedForms, nodes, List.map_cons, List.map_flatMap, Node.marshal, blob]
    simp only [hslot]
    congr 1
    refine List.flatMap_congr fun i hi => ?_
    rw [ih i (hT.child (mem_hexNibbles.mp hi)), List.map_map]
    rfl

theorem Loads.mem_storedForms (hn : Loads E Unwritten n T) (hT : Canonical 16 T) {p : Path}
    {S : KeyTree} (h : NodeAt T p S) : blob E S ∈ n.storedForms E := by
  rw [hn.storedForms_eq hT]
  exact List.mem_map.mpr ⟨(p, S), (mem_nodes hT).mpr h, rfl⟩

/-! ### Dirty full nodes -/

/-- Every full node that a commit has to write has its first 16 children set. -/
def Node.dense : Node → Bool
  | .short _ n fl => !fl.dirty || n.dense
  | .full ch fl => !fl.dirty || Committer.hexNibbles.all fun i => !(ch i).isNil && (ch i).dense
  | _ => true

theorem Loads.dense_iff (hP : Holds E P db) (hn : Loads E P n T) :
    n.dense = true ↔ ∀ x ∈ dirtyNodes n T, AllSet x.2 := by
  induction hn with
  | nil | value | hash => simp [Node.dense, dirtyNodes]
  | @short k n fl c hn hfl ih =>
    rw [Node.dense, dirtyNodes]
    cases fl.dirty with
    | false => simp
    | true =>
      have hself : AllSet (.short k c) := by
        intro ch hch
        simp at hch
      rw [if_pos rfl, List.forall_mem_append, List.forall_mem_map, List.forall_mem_singleton, ← ih]
      simp [hself]
  | @full ch fl Tc hch hfl ih =>
    rw [Node.dense, dirtyNodes]
    cases fl.dirty with
    | false => simp
    | true =>
      -- the node itself, and then its children, against the test of `dense`
      have hself : AllSet (.full Tc) ↔ ∀ i, i ≠ 16 → ch i ≠ .nil := by
        constructor
        · intro h i hi
          exact mt ((hch i).nil_iff hP).mp (h Tc rfl i hi)
        · intro h ch' hch' i hi
          obtain rfl := Tree.full.inj hch'
          exact mt ((hch i).nil_iff hP).mpr (h i hi)
      have hbelow : (∀ x ∈ Committer.hexNibbles.flatMap fun i =>
            (dirtyNodes (ch i) (Tc i)).map fun x => (i :: x.1, x.2), AllSet x.2) ↔
          ∀ i, i ≠ 16 → (ch i).dense = true := by
        constructor
        · intro h i hi
          rw [ih i]
          intro x hx
          exact h (i :: x.1, x.2) (List.mem_flatMap.mpr
            ⟨i, mem_hexNibbles.mpr hi, List.mem_map.mpr ⟨x, hx, rfl⟩⟩)
        · intro h x hx
          obtain ⟨i, hi, hx⟩ := List.mem_flatMap.mp hx
          obtain ⟨y, hy, rfl⟩ := List.mem_map.mp hx
          exact (ih i).mp (h i (mem_hexNibbles.mp hi)) y hy
      rw [if_pos rfl, List.forall_mem_append, hbelow, List.forall_mem_singleton, hself]
      simp only [Bool.not_true, Bool.false_or, List.all_eq_true, mem_hexNibbles, Bool.and_eq_true,
        Bool.not_eq_true', ← Bool.not_eq_true, Node.isNil_iff]
      constructor
      · exact fun h => ⟨fun i hi => (h i hi).2, fun i hi => (h i hi).1⟩
      · exact fun h i hi => ⟨h.2 i hi, h.1 i hi⟩

namespace MerklePatriciaTrie

/-! ### Commit -/

/-- **When stored blobs can be checked against their keys.**  After any rounds
and updates with keys of one length, all entries that `Commit` returns are
stored under the hash of their blob exactly when every full node that is to be
written has its first 16 children set. -/
theorem commit_authentic_iff (E : Env) (db : DB) (isHash : Bool) (len : ℕ) (rs : List Round)
    (ops : List (Bytes × Bytes)) (collectLeaf : Bool)
    (hlen : ∀ op ∈ allOps rs ++ ops, op.1.length = len)
    (hK : ∀ m ∈ (emptyTrie db isHash).memoryStates E rs,
      Ideal E.keccak256 (m.root.encodings E))
    (hinj : ∀ a ∈ (memoryTrie E db isHash (allOps rs ++ ops)).root.encodings E,
      ∀ b ∈ (memoryTrie E db isHash (allOps rs ++ ops)).root.storedForms E,
        E.keccak256 a = E.keccak256 b → a = b) :
    ∃ t t' res, (emptyTrie db isHash).reopen E rs = .ok t ∧ t.updateAll E ops = (.ok (), t') ∧
      (t'.commit E collectLeaf).1 = .ok res ∧
      ((∀ w ∈ entries res.nodeSet, w.isDeleted = false → w.hash = E.keccak256 w.blob) ↔
        t'.root.dense = true) := by
  obtain ⟨t, t', -, T', hre, hupd, -, -, hr', hm', -⟩ := reopen_updateAll E db isHash hlen hK
  obtain ⟨set, hcommit, hw⟩ := commit_represents hr' collectLeaf
  refine ⟨t, t', _, hre, hupd, by rw [hcommit], ?_⟩
  -- an entry is stored under the hash of its blob if its encodings agree
  have hentry : ∀ {p S}, NodeAt T' p S →
      ((wrapper E S).hash = E.keccak256 (wrapper E S).blob ↔ AllSet S) := by
    intro p S h
    rw [← hashEnc_eq_blob_iff (E := E) h.isNode]
    constructor
    · exact hinj _ (hm'.loads.mem_encodings hm'.canonical h) _
        (hm'.loads.mem_storedForms hm'.canonical h)
    · exact fun he => congrArg E.keccak256 he
  rw [hr'.loads.dense_iff hr'.holds]
  constructor
  · rintro h ⟨p, S⟩ hx
    have hat := dirtyNodes_nodeAt hr'.loads hx
    obtain ⟨⟨q, R⟩, hR, hq, hmem⟩ := hw.all (p, S) hx
    obtain rfl : q = p := hq
    obtain rfl := (dirtyNodes_nodeAt hr'.loads hR).unique hr'.canonical hat
    exact (hentry hat).mp (h _ hmem (wrapper_not_deleted hat.isNode))
  · intro h w hmem hdel
    obtain ⟨⟨p, S⟩, hx, rfl⟩ := hw.only w hmem hdel
    exact (hentry (dirtyNodes_nodeAt hr'.loads hx)).mpr (h _ hx)

/-- A round that leaves a branch, and an update below it. -/
theorem commit_authentic_iff_twoRounds :
    ∃ t t' res, (emptyTrie (fun _ => none) false).reopen stdEnv twoRounds = .ok t ∧
      t.updateAll stdEnv [([0x13], [12])] = (.ok (), t') ∧ (t'.commit stdEnv true).1 = .ok res ∧
      ((∀ w ∈ entries res.nodeSet, w.isDeleted = false → w.hash = stdEnv.keccak256 w.blob) ↔
        t'.root.dense = true) :=
  commit_authentic_iff stdEnv (fun _ => none) false 1 twoRounds [([0x13], [12])] true (by decide)
    ideal_twoRounds (by decide +kernel)

/-- A branch with two leaves is not stored under the hash of its blob. -/
theorem commit_branch_not_authentic :
    ∃ w ∈ ((memoryTrie stdEnv (fun _ => none) false [([0x12], [10]), ([0x13], [11])]).commit
        stdEnv false).1.toOption.elim [] fun res => entries res.nodeSet,
      w.isDeleted = false ∧ w.hash ≠ stdEnv.keccak256 w.blob := by
  decide +kernel

end MerklePatriciaTrie

end MetaNode
