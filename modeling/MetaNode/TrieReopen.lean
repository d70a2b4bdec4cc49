/-
Committing, storing and reopening.

A round applies updates, calls `Commit`, stores every entry of the node set that
is no deletion under its hash, and reopens the trie from the returned root.
Assumed are keys of one length and `Ideal` on what the trie in memory hashes.
-/
import MetaNode.PatriciaEntries
import MetaNode.TrieCommit

namespace MetaNode

open Patricia Patricia.Tree Function

variable {E : Env} {P : KeyTree → Prop} {db : DB}

/-! ### What a trie in memory hashes -/

/-- The bytes hashed for the nodes of a trie that is completely in memory. -/
def Node.encodings (E : Env) : Node → List Bytes
  | .short key val _ => Hasher.shortInput E key (Hasher.hash E val).1 :: val.encodings E
  | .full ch _ =>
    Hasher.fullInput E ch (fun i => (Hasher.hash E (ch i)).1) ::
      Committer.hexNibbles.flatMap fun i => (ch i).encodings E
  | _ => []

def nodes : KeyTree → List (Path × KeyTree)
  | .short k c => ([], .short k c) :: (nodes c).map (Prod.map (k ++ ·) id)
  | .full ch =>
    ([], .full ch) ::
      Committer.hexNibbles.flatMap fun i => (nodes (ch i)).map (Prod.map (i :: ·) id)
  | _ => []

variable {p : Path} {S T : KeyTree}

theorem mem_nodes (hT : Canonical 16 T) : (p, S) ∈ nodes T ↔ NodeAt T p S := by
  induction T generalizing p with
  | empty => simp [nodes, not_nodeAt_empty]
  | leaf => simp [nodes, not_nodeAt_leaf]
  | short k c ih =>
    have hbelow : ∀ {q}, (q, S) ∈ nodes c ↔ NodeAt c q S := by
      rcases canonical_or_leaf_of_short hT with hc | ⟨v, rfl⟩
      · exact ih hc
      · simp [nodes, not_nodeAt_leaf]
    rw [nodes, List.mem_cons, mem_map_entries, nodeAt_short, Prod.mk.injEq]
    simp only [hbelow, eq_comm]
  | full ch ih =>
    rw [nodes, List.mem_cons, List.mem_flatMap, nodeAt_full, Prod.mk.injEq]
    refine or_congr_right ⟨?_, ?_⟩
    · rintro ⟨i, hi, hmem⟩
      obtain ⟨q, rfl, hq⟩ := mem_map_entries.mp hmem
      exact ⟨i, q, rfl, (ih i (hT.child (mem_hexNibbles.mp hi))).mp hq⟩
    · rintro ⟨i, q, rfl, hat⟩
      exact ⟨i, mem_hexNibbles.mpr (hat.ne_last hT),
        mem_map_entries.mpr ⟨q, rfl, (ih i (hat.child_canonical hT)).mpr hat⟩⟩

variable {n : Node}

theorem Loads.encodings_eq (hn : Loads E Unwritten n T) (hT : Canonical 16 T) :
    n.encodings E = (nodes T).map fun x => hashEnc E x.2 := by
  have hP := holds_unwritten E fun _ => none
  induction hn with
  | nil | value => rfl
  | hash hmem => exact hmem.elim
  | @short k n fl c hn hfl ih =>
    have hbelow : n.encodings E = (nodes c).map fun x => hashEnc E x.2 := by
      rcases canonical_or_leaf_of_short hT with hc | ⟨v, rfl⟩
      · exact ih hc
      · rw [hn.of_leaf hP]
        rfl
    rw [Node.encodings, nodes, List.map_cons, List.map_map, hbelow, Hasher.shortInput,
      (hn.hash_spec hP (canonical_or_leaf_of_short hT)).1]
    rfl
  | @full ch fl Tc hch hfl ih =>
    rw [Node.encodings, nodes, List.map_cons, List.map_flatMap,
      Loads.fullInput_eq hP hch hT (fun i => Hasher.hash_ne_nil)
        fun i hi => ((hch i).hash_spec hP (.inl (hT.child hi))).1]
    congr 1
    refine List.flatMap_congr fun i hi => ?_
    rw [ih i (hT.child (mem_hexNibbles.mp hi)), List.map_map]
    rfl

theorem Loads.mem_encodings (hn : Loads E Unwritten n T) (hT : Canonical 16 T)
    (h : NodeAt T p S) : hashEnc E S ∈ n.encodings E := by
  rw [hn.encodings_eq hT]
  exact List.mem_map.mpr ⟨(p, S), (mem_nodes hT).mpr h, rfl⟩

/-! ### Storing a node set -/

/-- Stores the entries that are no deletions, one after the other. -/
def storeAll (db : DB) (l : List NodeWrapper) : DB :=
  l.foldl (fun db w => if w.isDeleted then db else update db w.hash (some w.blob)) db

/-- If all that is written under `h` is `b`, and something is or `b` was there
before, then `b` is there. -/
theorem storeAll_eq {h : Hash} {b : Bytes} (l : List NodeWrapper) (db : DB)
    (hall : ∀ w ∈ l, w.isDeleted = false → w.hash = h → w.blob = b)
    (hsome : db h = some b ∨ ∃ w ∈ l, w.isDeleted = false ∧ w.hash = h) :
    storeAll db l h = some b := by
  induction l generalizing db with
  | nil => simpa [storeAll] using hsome
  | cons w l ih =>
    have hall' : ∀ w' ∈ l, w'.isDeleted = false → w'.hash = h → w'.blob = b :=
      fun w' hw' => hall w' (List.mem_cons_of_mem w hw')
    show storeAll (if w.isDeleted then db else update db w.hash (some w.blob)) l h = some b
    refine ih _ hall' ?_
    by_cases hw : w.isDeleted = false ∧ w.hash = h
    · left
      rw [if_neg (by simp [hw.1]), ← hw.2, update_self,
        hall w List.mem_cons_self hw.1 hw.2]
    · rcases hsome with hdb | ⟨w', hmem, hw'⟩
      · left
        split
        · exact hdb
        · rw [update_of_ne, hdb]
          intro he
          exact hw ⟨by simp_all, he.symm⟩
      · rcases List.mem_cons.mp hmem with rfl | hmem
        · exact absurd hw' hw
        · exact .inr ⟨w', hmem, hw'⟩

theorem wrapper_not_deleted (h : IsNode S) : (wrapper E S).isDeleted = false := by
  have hb := blob_ne_nil (E := E) h
  rw [wrapper, NodeWrapper.isDeleted]
  simpa using hb

variable {l : List NodeWrapper}

/-- Storing what a commit writes puts the whole tree on disk, if what it does not
write is there. -/
theorem onDisk_storeAll {set : Option NodeSet} (hn : Loads E P n T)
    (hT : Canonical 16 T) (hne : T ≠ .empty) (hlast : NoLast T)
    (hinj : ∀ {p p' S S'}, NodeAt T p S → NodeAt T p' S' → hashOf E S = hashOf E S' →
      hashEnc E S = hashEnc E S') (hzero : ∀ {p S}, NodeAt T p S → hashOf E S ≠ FixedBytes.zero 32)
    (hw : Writes E (dirtyNodes n T) set) (hl : l.Perm (entries set))
    (hrest : ∀ {p S}, NodeAt T p S → (p, S) ∈ dirtyNodes n T ∨ db (hashOf E S) = some (blob E S)) :
    OnDisk E (storeAll db l) T := by
  refine ⟨isNode_of_canonical hT hne, hT, hlast, ?_⟩
  intro p S h
  refine ⟨storeAll_eq l db ?_ ?_, hzero h⟩
  · -- whatever is written under the hash of `S` is the stored form of `S`
    intro w hmem hdel hhash
    obtain ⟨⟨q, R⟩, hR, rfl⟩ := hw.only w (hl.mem_iff.mp hmem) hdel
    have hRat := dirtyNodes_nodeAt hn hR
    exact blob_eq_of_hashEnc_eq hRat.isNode h.isNode (hRat.canonical hT) (h.canonical hT)
      (hlast.sub hRat) (hlast.sub h) (hinj hRat h hhash)
  · rcases hrest h with hdirty | hdisk
    · obtain ⟨⟨q, R⟩, hR, hpath, hmem⟩ := hw.all (p, S) hdirty
      obtain rfl : q = p := hpath
      obtain rfl := (dirtyNodes_nodeAt hn hR).unique hT h
      exact .inr ⟨_, hl.mem_iff.mpr hmem, wrapper_not_deleted h.isNode, rfl⟩
    · exact .inl hdisk

theorem OnDisk.storeAll {T T' : KeyTree} (h : OnDisk E db T) (hT' : Canonical 16 T')
    (hlast' : NoLast T')
    (hl : ∀ w ∈ l, w.isDeleted = false → ∃ p S, NodeAt T' p S ∧ w = wrapper E S)
    (hinj : ∀ {p p' S S'}, NodeAt T p S → NodeAt T' p' S' → hashOf E S' = hashOf E S →
      hashEnc E S' = hashEnc E S) : OnDisk E (storeAll db l) T := by
  refine ⟨h.isNode, h.canonical, h.noLast, ?_⟩
  intro p S hS
  obtain ⟨hdisk, hzero⟩ := h.entry p S hS
  refine ⟨storeAll_eq l db ?_ (.inl hdisk), hzero⟩
  intro w hmem hdel hhash
  obtain ⟨q, R, hR, rfl⟩ := hl w hmem hdel
  exact blob_eq_of_hashEnc_eq hR.isNode hS.isNode (hR.canonical hT') (hS.canonical h.canonical)
    (hlast'.sub hR) (h.noLast.sub hS) (hinj hS hR hhash)

/-! ### Keys of one length -/

theorem uniform_empty (len : ℕ) : Uniform .empty len := by
  intro p v h
  simp at h

theorem uniform_put {len : ℕ} (hT : Canonical 16 T) (hu : Uniform T len) {key : Path}
    (hk : Terminated 16 key) (hlen : key.length = len) (value : Bytes) :
    Uniform (put T key value) len := by
  intro p v h
  have hput := lookup_put hT hk value p
  rw [h] at hput
  by_cases hp : p = key
  · rw [hp, hlen]
  · rw [if_neg hp] at hput
    obtain ⟨u, hu', -⟩ := Option.map_eq_some_iff.mp hput.symm
    exact hu p u hu'

namespace MerklePatriciaTrie

/-- The length of a hex key whose key has length `len`. -/
def hexLen (isHash : Bool) (len : ℕ) : ℕ := 2 * (if len = 32 ∨ !isHash then len else 32) + 1

theorem length_hexKey (isHash : Bool) (key : Bytes) :
    (hexKey E isHash key).length = hexLen isHash key.length := by
  rw [hexKey, length_keybytesToHex, hashKey, hexLen]
  split
  · rfl
  · rw [(E.keccak256 key).2]

variable {len : ℕ}

theorem uniform_putAll {isHash : Bool} (hT : Canonical 16 T)
    (hu : Uniform T (hexLen isHash len)) (ops : List (Bytes × Bytes))
    (hlen : ∀ op ∈ ops, op.1.length = len) :
    Uniform (putAll E isHash T ops) (hexLen isHash len) := by
  induction ops generalizing T with
  | nil => exact hu
  | cons op ops ih =>
    have hk := terminated_hexKey (E := E) isHash op.1
    refine ih (canonical_put hT hk op.2) (uniform_put hT hu hk ?_ op.2)
      fun op' hop' => hlen op' (List.mem_cons_of_mem op hop')
    rw [length_hexKey, hlen op List.mem_cons_self]

/-! ### Rounds -/

theorem eq_ok_getD {α : Type} {x : Except Fault α} (h : x.toOption.isSome) (d : α) :
    x = .ok (x.toOption.getD d) := by
  cases x with
  | error => simp [Except.toOption] at h
  | ok => rfl

/-- One round: the updates, the flag of `Commit`, and the order in which the
entries of the node set, a map of the source, are stored. -/
structure Round where
  ops : List (Bytes × Bytes)
  collectLeaf : Bool
  order : List NodeWrapper → List NodeWrapper
  perm : ∀ l, (order l).Perm l

/-- Updates, commit, store and reopen: the root and the reopened trie. -/
def round (E : Env) (t : MerklePatriciaTrie) (r : Round) :
    Except Fault (Hash × MerklePatriciaTrie) :=
  match t.updateAll E r.ops with
  | (.error e, _) => .error e
  | (.ok (), t) =>
    match t.commit E r.collectLeaf with
    | (.error e, _) => .error e
    | (.ok res, t) =>
      match new E (storeAll t.reader (r.order (entries res.nodeSet))) res.hash t.isHash with
      | .error e => .error e
      | .ok t => .ok (res.hash, t)

/-- Round after round, with the root and the reopened trie of each. -/
def rounds (E : Env) (t : MerklePatriciaTrie) :
    List Round → Except Fault (List (Hash × MerklePatriciaTrie))
  | [] => .ok []
  | r :: rs =>
    match t.round E r with
    | .error e => .error e
    | .ok out =>
      match out.2.rounds E rs with
      | .error e => .error e
      | .ok outs => .ok (out :: outs)

/-- The same updates on a trie that is neither committed nor reopened: the trie
after each round. -/
def memoryStates (E : Env) (t : MerklePatriciaTrie) : List Round → List MerklePatriciaTrie
  | [] => []
  | r :: rs => (t.updateAll E r.ops).2 :: (t.updateAll E r.ops).2.memoryStates E rs

def emptyTrie (db : DB) (isHash : Bool) : MerklePatriciaTrie := ⟨.nil, false, db, .new, isHash⟩

def reopen (E : Env) (t : MerklePatriciaTrie) : List Round → Except Fault MerklePatriciaTrie
  | [] => .ok t
  | r :: rs =>
    match t.round E r with
    | .error e => .error e
    | .ok out => out.2.reopen E rs

variable {t m : MerklePatriciaTrie}

/-- A trie just opened from a database that holds all nodes of `T`. -/
structure Fresh (E : Env) (t : MerklePatriciaTrie) (T : KeyTree) : Prop where
  represents : Represents E (OnDisk E t.reader) t T
  root : t.root = loadedNode E T
  tracer : t.tracer = if T.isEmpty then .new else Tracer.new.record (.read [] (blob E T))

theorem fresh_emptyTrie (E : Env) (db : DB) (isHash : Bool) :
    Fresh E (emptyTrie db isHash) .empty :=
  ⟨⟨rfl, .nil, .empty, holds_onDisk E db⟩, rfl, rfl⟩

theorem Fresh.onDisk (h : Fresh E t T) (hne : T ≠ .empty) : OnDisk E t.reader T := by
  have hload := h.represents.loads
  rw [h.root] at hload
  rcases isNode_of_canonical h.represents.canonical hne with ⟨k, c, rfl⟩ | ⟨ch, rfl⟩
  · cases hload with
    | short _ hfl => exact (hfl.clean rfl).2
  · cases hload with
    | full _ hfl => exact (hfl.clean rfl).2

theorem new_represents {root : Hash} (isHash : Bool) (hT : OnDisk E db T)
    (hroot : root = hashOf E T) (hne : root ≠ emptyRootHash) :
    ∃ t', new E db root isHash = .ok t' ∧ t'.isHash = isHash ∧ t'.reader = db ∧ Fresh E t' T := by
  have hzero : root ≠ FixedBytes.zero 32 := hroot ▸ (hT.entry [] T (.here hT.isNode)).2
  have hload := hT.loaded []
  rw [hT.isNode.ref_eq, ← hroot] at hload
  refine ⟨⟨loadedNode E T, false, db, Tracer.new.record (.read [] (blob E T)), isHash⟩,
    ?_, rfl, rfl, ⟨rfl, hT.loads, hT.canonical, holds_onDisk E db⟩, rfl, ?_⟩
  · rw [new, if_pos ⟨hzero, hne⟩, hload.resolveAndTrack]
  · rw [if_neg (mt Tree.isEmpty_iff.mp hT.isNode.ne_empty)]

def Available (E : Env) (db : DB) (T : KeyTree) : Prop :=
  T = .empty ∨ OnDisk E db T ∧ hashOf E T ≠ emptyRootHash

theorem Available.new (h : Available E db T) (isHash : Bool) :
    ∃ t', MerklePatriciaTrie.new E db (rootHash E T) isHash = .ok t' ∧ t'.isHash = isHash ∧
      t'.reader = db ∧ Fresh E t' T := by
  rcases h with rfl | ⟨hdisk, hne⟩
  · -- nothing is left: the root is the hash of the empty trie
    rw [rootHash_empty, new_empty]
    exact ⟨_, rfl, rfl, rfl, fresh_emptyTrie E db isHash⟩
  · have hroot := rootHash_of_ne (E := E) hdisk.isNode.ne_empty
    exact new_represents isHash hdisk hroot (hroot ▸ hne)

/-- **Storing what a commit writes** makes the tree available, if what it does not
write is there. -/
theorem available_storeAll {set : Option NodeSet} {encodings : List Bytes} (hn : Loads E P n T)
    (hT : Canonical 16 T) (hlast : NoLast T)
    (hmem : ∀ {p S}, NodeAt T p S → hashEnc E S ∈ encodings) (hK : Ideal E.keccak256 encodings)
    (hw : Writes E (dirtyNodes n T) set) (hl : l.Perm (entries set))
    (hrest : ∀ {p S}, NodeAt T p S → (p, S) ∈ dirtyNodes n T ∨ db (hashOf E S) = some (blob E S)) :
    Available E (storeAll db l) T := by
  by_cases hne : T = .empty
  · exact .inl hne
  · refine .inr ⟨?_, hK.ne_empty _ (hmem (.here (isNode_of_canonical hT hne)))⟩
    exact onDisk_storeAll hn hT hne hlast (fun h h' he => hK.inj _ (hmem h) _ (hmem h') he)
      (fun h => hK.ne_zero _ (hmem h)) hw hl hrest

theorem dirty_or_stored (hr : Represents E (OnDisk E db) t T) (h : NodeAt T p S) :
    (p, S) ∈ dirtyNodes t.root T ∨ db (hashOf E S) = some (blob E S) :=
  (nodeAt_dirty_or hr.loads hr.canonical (fun hT _ h => ⟨hT.sub h, trivial⟩)
    (Node.hashes_true []) h).imp_right fun hS => (hS.1.entry [] _ (.here hS.1.isNode)).1

theorem round_represents (hr : Represents E (OnDisk E t.reader) t T) (r : Round)
    (hlast : NoLast (putAll E t.isHash T r.ops)) {encodings : List Bytes}
    (hmem : ∀ {p S}, NodeAt (putAll E t.isHash T r.ops) p S → hashEnc E S ∈ encodings)
    (hK : Ideal E.keccak256 encodings) :
    ∃ t', t.round E r = .ok (rootHash E (putAll E t.isHash T r.ops), t') ∧
      t'.isHash = t.isHash ∧ Fresh E t' (putAll E t.isHash T r.ops) := by
  obtain ⟨t₁, hupd, hr₁, hdb, hh⟩ := updateAll_represents hr r.ops
  obtain ⟨set, hcommit, hw⟩ := commit_represents hr₁ r.collectLeaf
  rw [← hdb] at hr₁
  have havailable := available_storeAll hr₁.loads hr₁.canonical hlast hmem hK hw (r.perm _)
    (dirty_or_stored hr₁)
  obtain ⟨t', hnew, hh', -, hfresh⟩ := havailable.new t₁.isHash
  refine ⟨t', ?_, hh'.trans hh, hfresh⟩
  rw [round, hupd]
  dsimp only
  rw [hcommit]
  dsimp only
  rw [hnew]

theorem round_lockstep (hr : Represents E (OnDisk E t.reader) t T) (hm : Represents E Unwritten m T)
    (hflag : m.isHash = t.isHash) (hu : Uniform T (hexLen t.isHash len)) (r : Round)
    (hlen : ∀ op ∈ r.ops, op.1.length = len)
    (hK : Ideal E.keccak256 ((m.updateAll E r.ops).2.root.encodings E)) :
    ∃ t' m' T', t.round E r = .ok (rootHash E T', t') ∧ m.updateAll E r.ops = (.ok (), m') ∧
      Fresh E t' T' ∧ Represents E Unwritten m' T' ∧ t'.isHash = t.isHash ∧
      m'.isHash = t.isHash ∧ Uniform T' (hexLen t.isHash len) ∧
      T' = putAll E t.isHash T r.ops := by
  obtain ⟨m', hupd, hm', -, hflag'⟩ := updateAll_represents hm r.ops
  rw [hflag] at hm' hflag'
  rw [hupd] at hK
  have hu' : Uniform (putAll E t.isHash T r.ops) (hexLen t.isHash len) :=
    uniform_putAll hr.canonical hu r.ops hlen
  obtain ⟨t', hround, hh, hfresh⟩ := round_represents hr r (noLast_of_uniform hm'.canonical hu')
    (fun h => hm'.loads.mem_encodings hm'.canonical h) hK
  exact ⟨t', m', _, hround, hupd, hfresh, hm', hh, hflag', hu', rfl⟩

/-- What holds of a reopened trie next to the trie in memory. -/
structure Lockstep (E : Env) (out : Hash × MerklePatriciaTrie) (m : MerklePatriciaTrie)
    (T : KeyTree) : Prop where
  fresh : Fresh E out.2 T
  memory : Represents E Unwritten m T
  root : out.1 = rootHash E T
  isHash : m.isHash = out.2.isHash
  ne_empty : T ≠ .empty → hashOf E T ≠ emptyRootHash

variable {rs : List Round}

theorem rounds_lockstep (hr : Represents E (OnDisk E t.reader) t T)
    (hm : Represents E Unwritten m T) (hflag : m.isHash = t.isHash)
    (hu : Uniform T (hexLen t.isHash len)) (hlen : ∀ r ∈ rs, ∀ op ∈ r.ops, op.1.length = len)
    (hK : ∀ m' ∈ m.memoryStates E rs, Ideal E.keccak256 (m'.root.encodings E)) :
    ∃ outs, t.rounds E rs = .ok outs ∧
      List.Forall₂ (fun out m => ∃ T, Lockstep E out m T) outs (m.memoryStates E rs) := by
  induction rs generalizing t m T with
  | nil => exact ⟨[], rfl, .nil⟩
  | cons r rs ih =>
    rw [List.forall_mem_cons] at hlen
    obtain ⟨t', m', T', hround, hupd, hfresh, hm', hh, hflag', hu', -⟩ :=
      round_lockstep hr hm hflag hu r hlen.1 (hK _ List.mem_cons_self)
    rw [memoryStates, hupd] at hK ⊢
    rw [List.forall_mem_cons] at hK
    obtain ⟨outs, hrounds, hall⟩ :=
      ih hfresh.represents hm' (hflag'.trans hh.symm) (hh ▸ hu') hlen.2 hK.2
    refine ⟨(rootHash E T', t') :: outs, ?_, .cons ⟨T', hfresh, hm', rfl, ?_, ?_⟩ hall⟩
    · rw [rounds, hround]
      dsimp only
      rw [hrounds]
    · exact hflag'.trans hh.symm
    · intro hne
      exact hK.1.ne_empty _
        (hm'.loads.mem_encodings hm'.canonical (.here (isNode_of_canonical hm'.canonical hne)))

/-- **Reopening changes nothing.**  For keys of one length, after every round
the reopened trie answers `Get` as the trie in memory does, and the root that
`Commit` returned is the hash of that trie. -/
theorem rounds_refine (E : Env) (db : DB) (isHash : Bool) (len : ℕ) (rs : List Round)
    (hlen : ∀ r ∈ rs, ∀ op ∈ r.ops, op.1.length = len)
    (hK : ∀ m ∈ (emptyTrie db isHash).memoryStates E rs,
      Ideal E.keccak256 (m.root.encodings E)) :
    new E db emptyRootHash isHash = .ok (emptyTrie db isHash) ∧
      ∃ outs, (emptyTrie db isHash).rounds E rs = .ok outs ∧
        List.Forall₂ (fun out m => out.1 = (m.hash E).1 ∧
          ∀ key, (out.2.get E key).1 = (m.get E key).1)
          outs ((emptyTrie db isHash).memoryStates E rs) := by
  obtain ⟨outs, hrounds, hall⟩ := rounds_lockstep (fresh_emptyTrie E db isHash).represents
    (represents_empty E db isHash) rfl (uniform_empty _) hlen hK
  refine ⟨new_empty E db isHash, outs, hrounds, hall.imp ?_⟩
  rintro out m ⟨T, h⟩
  refine ⟨h.root.trans (hash_represents h.memory).1.symm, ?_⟩
  intro key
  obtain ⟨_, hget, -⟩ := get_represents h.fresh.represents key
  obtain ⟨_, hget', -⟩ := get_represents h.memory key
  rw [hget, hget', h.isHash]

def allOps (rs : List Round) : List (Bytes × Bytes) := rs.flatMap Round.ops

/-- A trie that received the updates and was never committed. -/
def memoryTrie (E : Env) (db : DB) (isHash : Bool) (ops : List (Bytes × Bytes)) :
    MerklePatriciaTrie :=
  ((emptyTrie db isHash).updateAll E ops).2

/-- **The reopened trie is on disk** and holds what all updates put into it. -/
theorem reopen_represents (E : Env) (db : DB) (isHash : Bool)
    (hlen : ∀ r ∈ rs, ∀ op ∈ r.ops, op.1.length = len)
    (hK : ∀ m ∈ (emptyTrie db isHash).memoryStates E rs, Ideal E.keccak256 (m.root.encodings E)) :
    ∃ t T, (emptyTrie db isHash).reopen E rs = .ok t ∧ Fresh E t T ∧ t.isHash = isHash ∧
      Uniform T (hexLen isHash len) ∧ T = putAll E isHash .empty (allOps rs) := by
  have main : ∀ (rs : List Round) (t m : MerklePatriciaTrie) (T : KeyTree),
      Fresh E t T → Represents E Unwritten m T →
      m.isHash = t.isHash → Uniform T (hexLen t.isHash len) →
      (∀ r ∈ rs, ∀ op ∈ r.ops, op.1.length = len) →
      (∀ m' ∈ m.memoryStates E rs, Ideal E.keccak256 (m'.root.encodings E)) →
      ∃ t' T', t.reopen E rs = .ok t' ∧ Fresh E t' T' ∧ t'.isHash = t.isHash ∧
        Uniform T' (hexLen t.isHash len) ∧ T' = putAll E t.isHash T (allOps rs) := by
    intro rs
    induction rs with
    | nil => exact fun t m T hf hm hflag hu _ _ => ⟨t, T, rfl, hf, rfl, hu, rfl⟩
    | cons r rs ih =>
      intro t m T hf hm hflag hu hlen hK
      obtain ⟨t', m', T', hround, hupd, hf', hm', hh, hflag', hu', hT'⟩ :=
        round_lockstep hf.represents hm hflag hu r (hlen r List.mem_cons_self)
          (hK _ List.mem_cons_self)
      rw [memoryStates, hupd] at hK
      obtain ⟨t'', T'', hre, hf'', hh', hu'', hT''⟩ :=
        ih t' m' T' hf' hm' (hflag'.trans hh.symm) (hh ▸ hu')
          (fun r' h' => hlen r' (List.mem_cons_of_mem r h'))
          fun m'' h'' => hK m'' (List.mem_cons_of_mem m' h'')
      rw [hh] at hh' hu'' hT''
      refine ⟨t'', T'', ?_, hf'', hh', hu'', ?_⟩
      · rw [reopen, hround]
        exact hre
      · rw [hT'', hT', allOps, allOps, List.flatMap_cons, putAll_append]
  exact main rs (emptyTrie db isHash) (emptyTrie db isHash) .empty (fresh_emptyTrie E db isHash)
    (represents_empty E db isHash) rfl (uniform_empty _) hlen hK

theorem memoryTrie_represents (E : Env) (db : DB) (isHash : Bool) (ops : List (Bytes × Bytes)) :
    Represents E Unwritten (memoryTrie E db isHash ops) (putAll E isHash .empty ops) := by
  obtain ⟨t, hupd, hrep, -⟩ := updateAll_represents (represents_empty E db isHash) ops
  rw [memoryTrie, emptyTrie, hupd]
  exact hrep

/-- **A reopened trie that was updated further** holds the same tree as the trie in
memory that received all updates. -/
theorem reopen_updateAll (E : Env) (db : DB) (isHash : Bool) {ops : List (Bytes × Bytes)}
    (hlen : ∀ op ∈ allOps rs ++ ops, op.1.length = len)
    (hK : ∀ m ∈ (emptyTrie db isHash).memoryStates E rs, Ideal E.keccak256 (m.root.encodings E)) :
    ∃ t t' T₀ T, (emptyTrie db isHash).reopen E rs = .ok t ∧ t.updateAll E ops = (.ok (), t') ∧
      Fresh E t T₀ ∧ Represents E Unwritten (memoryTrie E db isHash (allOps rs)) T₀ ∧
      Represents E (OnDisk E t.reader) t' T ∧
      Represents E Unwritten (memoryTrie E db isHash (allOps rs ++ ops)) T ∧
      t'.reader = t.reader ∧ t'.isHash = isHash ∧ Uniform T (hexLen isHash len) := by
  have hlen₀ : ∀ r ∈ rs, ∀ op ∈ r.ops, op.1.length = len := fun r hr op hop =>
    hlen op (List.mem_append_left _ (List.mem_flatMap.mpr ⟨r, hr, hop⟩))
  obtain ⟨t, T₀, hre, hfresh, hflag, hu, hT₀⟩ := reopen_represents E db isHash hlen₀ hK
  obtain ⟨t', hupd, hr', hdb, hflag'⟩ := updateAll_represents hfresh.represents ops
  have hm₀ := memoryTrie_represents E db isHash (allOps rs)
  have hm := memoryTrie_represents E db isHash (allOps rs ++ ops)
  rw [← hT₀] at hm₀
  rw [putAll_append, ← hT₀] at hm
  rw [hflag] at hr' hflag'
  exact ⟨t, t', T₀, _, hre, hupd, hfresh, hm₀, hr', hm, hdb, hflag',
    uniform_putAll hfresh.represents.canonical hu ops
      fun op hop => hlen op (List.mem_append_right _ hop)⟩

def twoKeys : Round := ⟨[([0x12], [10]), ([0x13], [11])], false, id, fun _ => .refl _⟩

/-- Two rounds: a branch is built, and then cut back and extended. -/
def twoRounds : List Round :=
  [⟨[([0x12], [10]), ([0x13], [11])], false, id, fun _ => .refl _⟩,
    ⟨[([0x20], [5]), ([0x12], [])], true, List.reverse, List.reverse_perm⟩]

theorem ideal_twoRounds : ∀ m ∈ (emptyTrie (fun _ => none) false).memoryStates stdEnv twoRounds,
    Ideal stdEnv.keccak256 (m.root.encodings stdEnv) := by
  decide +kernel

theorem rounds_refine_twoRounds :
    new stdEnv (fun _ => none) emptyRootHash false = .ok (emptyTrie (fun _ => none) false) ∧
      ∃ outs, (emptyTrie (fun _ => none) false).rounds stdEnv twoRounds = .ok outs ∧
        List.Forall₂ (fun out m => out.1 = (m.hash stdEnv).1 ∧
          ∀ key, (out.2.get stdEnv key).1 = (m.get stdEnv key).1)
          outs ((emptyTrie (fun _ => none) false).memoryStates stdEnv twoRounds) :=
  rounds_refine stdEnv (fun _ => none) false 1 twoRounds (by decide) ideal_twoRounds

/-! ### The root -/

theorem get_memoryTrie (E : Env) (db : DB) (isHash : Bool) (ops : List (Bytes × Bytes))
    (key : Bytes) :
    ((memoryTrie E db isHash ops).get E key).1 = .ok (lastUpdate E isHash ops key) := by
  obtain ⟨t, hupd, hrep, -, hflag⟩ := updateAll_represents (represents_empty E db isHash) ops
  obtain ⟨_, hget, -⟩ := get_represents hrep key
  rw [memoryTrie, emptyTrie, hupd, hget, hflag, lookup_putAll]

/-- A trie in memory is told by its hash. -/
theorem eq_of_hash_eq {t t' : MerklePatriciaTrie} {T T' : KeyTree}
    (hr : Represents E Unwritten t T) (hr' : Represents E Unwritten t' T')
    (hK : Ideal E.keccak256 (t.root.encodings E ++ t'.root.encodings E))
    (hclear : SlotsClear E T) (hclear' : SlotsClear E T') (h : (t.hash E).1 = (t'.hash E).1) :
    T = T' := by
  have hmem : ∀ {p S}, NodeAt T p S → hashEnc E S ∈ _ := fun hat =>
    List.mem_append_left (t'.root.encodings E) (hr.loads.mem_encodings hr.canonical hat)
  have hmem' : ∀ {p S}, NodeAt T' p S → hashEnc E S ∈ _ := fun hat =>
    List.mem_append_right (t.root.encodings E) (hr'.loads.mem_encodings hr'.canonical hat)
  rw [(hash_represents hr).1, (hash_represents hr').1] at h
  refine eq_of_ref_eq hr.canonical hr'.canonical (fun hR hS => hK.inj _ (hmem hR) _ (hmem' hS))
    hclear hclear' ?_
  -- only the empty trie has its root
  by_cases hempty : T = .empty
  · by_cases hempty' : T' = .empty
    · rw [hempty, hempty']
    · have hnode' := isNode_of_canonical hr'.canonical hempty'
      rw [hempty, rootHash_empty, rootHash_of_ne hempty'] at h
      exact absurd h.symm (hK.ne_empty _ (hmem' (.here hnode')))
  · have hnode := isNode_of_canonical hr.canonical hempty
    by_cases hempty' : T' = .empty
    · rw [hempty', rootHash_empty, rootHash_of_ne hempty] at h
      exact absurd h (hK.ne_empty _ (hmem (.here hnode)))
    · rw [rootHash_of_ne hempty, rootHash_of_ne hempty'] at h
      rw [hnode.ref_eq, (isNode_of_canonical hr'.canonical hempty').ref_eq, h]

/-- **The root binds the contents.**  After any updates with keys of one length, two tries
have the same hash just if they have the same values. -/
theorem hash_eq_iff (E : Env) (db db' : DB) (isHash : Bool) (len : ℕ)
    (ops ops' : List (Bytes × Bytes)) (hlen : ∀ op ∈ ops ++ ops', op.1.length = len)
    (hK : Ideal E.keccak256 ((memoryTrie E db isHash ops).root.encodings E ++
      (memoryTrie E db' isHash ops').root.encodings E)) :
    ((memoryTrie E db isHash ops).hash E).1 = ((memoryTrie E db' isHash ops').hash E).1 ↔
      ∀ key, ((memoryTrie E db isHash ops).get E key).1
        = ((memoryTrie E db' isHash ops').get E key).1 := by
  rw [List.forall_mem_append] at hlen
  have hr := memoryTrie_represents E db isHash ops
  have hr' := memoryTrie_represents E db' isHash ops'
  -- with keys of one length no key ends within another
  have hclear : ∀ {ops}, (∀ op ∈ ops, op.1.length = len) →
      SlotsClear E (putAll E isHash .empty ops) := fun {ops} hlen =>
    (noLast_of_uniform (canonical_putAll .empty isHash ops)
      (uniform_putAll .empty (uniform_empty _) ops hlen)).slotsClear
  simp only [get_memoryTrie, Except.ok.injEq]
  constructor
  · intro hroot key
    rw [← lookup_putAll, ← lookup_putAll,
      eq_of_hash_eq hr hr' hK (hclear hlen.1) (hclear hlen.2) hroot]
  · intro hvalues
    rw [(hash_represents hr).1, (hash_represents hr').1, putAll_eq hvalues]

def twoValues (value : UInt8) : List (Bytes × Bytes) := [([0x12], [value]), ([0x13], [11])]

theorem hash_eq_iff_twoValues :
    ((memoryTrie stdEnv (fun _ => none) false (twoValues 1)).hash stdEnv).1
        = ((memoryTrie stdEnv (fun _ => none) false (twoValues 2)).hash stdEnv).1 ↔
      ∀ key, ((memoryTrie stdEnv (fun _ => none) false (twoValues 1)).get stdEnv key).1
        = ((memoryTrie stdEnv (fun _ => none) false (twoValues 2)).get stdEnv key).1 :=
  hash_eq_iff stdEnv _ _ false 1 (twoValues 1) (twoValues 2) (by decide) (by decide +kernel)

end MerklePatriciaTrie

end MetaNode
