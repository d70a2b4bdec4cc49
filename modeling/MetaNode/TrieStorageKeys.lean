/-
The keys of the stored nodes (`GetStorageKeys` of `pkg/trie/trie.go`).

The function opens the trie again from the cached hash of its root and works through a
queue of nodes: the hash of every child is noted, and the child is loaded and queued.
-/
import Mathlib.Algebra.Order.BigOperators.Group.List
import Mathlib.Algebra.Order.Group.Nat
import MetaNode.TrieReopen
import MetaNode.Worklist

namespace MetaNode

open Patricia Patricia.Tree TrieM

section GetStorageKeys

variable (E : Env) (db : DB)

/-- A node that cannot be loaded is logged, and nil takes its place. -/
def resolveOrNil (h : Bytes) : TrieM Node := do
  match ← attempt (resolveAndTrack E db h []) with
  | .ok rn => pure rn
  | .error _ => pure .nil

/-- A node is put into the queue; a hash node is noted and loaded first. -/
def enqueue (s : List Node × List Hash) : Node → TrieM (List Node × List Hash)
  | .hash h => do
    let rn ← resolveOrNil E db h
    pure (s.1 ++ [rn], s.2 ++ [bytesToHash h])
  | n => pure (s.1 ++ [n], s.2)

def enqueueChild (ch : Nibble → Node) (s : List Node × List Hash) (i : Nibble) :
    TrieM (List Node × List Hash) :=
  if (ch i).isNil then pure s else enqueue E db s (ch i)

/-- The loop of `GetStorageKeys` over the unprocessed nodes. -/
def unprocessed : ℕ → List Node → List Hash → TrieM (List Hash)
  | 0, _, _ => throw .outOfFuel
  | _ + 1, [], storageKeys => pure storageKeys
  | fuel + 1, uNode :: queue, storageKeys =>
    match uNode with
    | .short _ val _ => do
      let s ← enqueue E db (queue, storageKeys) val
      unprocessed fuel s.1 s.2
    | .full ch _ => do
      let s ← (List.finRange 17).foldlM (enqueueChild E db ch) (queue, storageKeys)
      unprocessed fuel s.1 s.2
    | .hash h => do
      let s ← enqueue E db (queue, storageKeys) (.hash h)
      unprocessed fuel s.1 s.2
    | _ => unprocessed fuel queue storageKeys

def MerklePatriciaTrie.getStorageKeys (t : MerklePatriciaTrie) (fuel : ℕ) :
    Except Fault (List Hash) × MerklePatriciaTrie :=
  if t.root.isNil then (.error .panic, t) -- `Cache` of a nil interface
  else
    let root := bytesToHash (t.root.cache.1.getD [])
    -- the root is loaded once more, with a tracer of its own
    let rootnode :=
      if root ≠ FixedBytes.zero 32 ∧ root ≠ emptyRootHash then
        (resolveAndTrack E t.reader root.1 [] .new).1
      else .ok .nil
    match rootnode with
    | .error (.err _) => (.ok [], t)
    | .error e => (.error e, t)
    | .ok rootnode =>
      let r := unprocessed E t.reader fuel [rootnode] [root] t.tracer
      (r.1, { t with tracer := r.2 })

end GetStorageKeys

/-! ### Reachable nodes -/

/-- `Reachable E db root h n`: the node `n` is stored under `h`, and a chain of hashes
leads to it from `root`. -/
inductive Reachable (E : Env) (db : DB) (root : Hash) : Hash → Node → Prop
  | root {blob : Bytes} {n : Node} (hl : Loaded E db root.1 [] blob n) : Reachable E db root root n
  | short {h : Hash} {key : Path} {h' blob : Bytes} {flags : NodeFlag} {n : Node}
      (hs : Reachable E db root h (.short key (.hash h') flags)) (hl : Loaded E db h' [] blob n) :
      Reachable E db root (bytesToHash h') n
  | full {h : Hash} {ch : Nibble → Node} {flags : NodeFlag} {i : Nibble} {h' blob : Bytes}
      {n : Node} (hf : Reachable E db root h (.full ch flags)) (hi : ch i = .hash h')
      (hl : Loaded E db h' [] blob n) : Reachable E db root (bytesToHash h') n

def Node.IsInner (n : Node) : Prop := (∃ k v fl, n = .short k v fl) ∨ ∃ ch fl, n = .full ch fl

/-! ### The queue as a list of trees -/

def subtrees : KeyTree → List KeyTree
  | .short _ c => [c]
  | .full ch => ((List.finRange 17).map ch).filter fun c => !c.isEmpty
  | _ => []

def weight : KeyTree → ℕ
  | .short _ c => weight c + 1
  | .full ch => ((List.finRange 17).map fun i => weight (ch i)).sum + 1
  | _ => 1

theorem sum_weight_subtrees (T : KeyTree) : ((subtrees T).map weight).sum < weight T := by
  cases T with
  | empty | leaf => exact Nat.one_pos
  | short => simp [subtrees, weight]
  | full ch =>
    have hsub : ((subtrees (.full ch)).map weight).Sublist
        ((List.finRange 17).map fun i => weight (ch i)) := by
      have h := (List.filter_sublist (p := fun c : KeyTree => !c.isEmpty)
        (l := (List.finRange 17).map ch)).map weight
      rwa [List.map_map] at h
    exact Nat.lt_succ_of_le (hsub.sum_le_sum fun _ _ => Nat.zero_le _)

variable (E : Env) {db : DB}

def queued : KeyTree → Node
  | .leaf v => .value v.1
  | T => loadedNode E T

def stub : KeyTree → Node
  | .leaf v => .value v.1
  | T => .hash (ref E T)

def noted : KeyTree → List Hash
  | .leaf _ => []
  | T => [hashOf E T]

def Queued (db : DB) (T : KeyTree) : Prop := OnDisk E db T ∨ ∃ v, T = .leaf v

variable {E} {T : KeyTree}

theorem OnDisk.of_mem_subtrees (hT : OnDisk E db T) {c : KeyTree} (hc : c ∈ subtrees T) :
    Queued E db c := by
  have hcan := hT.canonical
  cases hcan with
  | empty => cases hc
  | @leaf w v hw =>
    rw [subtrees, List.mem_singleton] at hc
    exact .inr ⟨v, hc⟩
  | @ext k ch hne hk hch =>
    rw [subtrees, List.mem_singleton] at hc
    rw [hc]
    exact .inl (hT.sub (p := k ++ []) (.short (.here (.inr ⟨ch, rfl⟩))))
  | full =>
    obtain ⟨hmem, hne⟩ := List.mem_filter.mp hc
    obtain ⟨i, -, rfl⟩ := List.mem_map.mp hmem
    refine .inl (hT.child ?_)
    intro he
    rw [he] at hne
    cases hne

theorem IsNode.bytesToHash_ref (h : IsNode T) : bytesToHash (ref E T) = hashOf E T := by
  rw [h.ref_eq, bytesToHash_val]

theorem IsNode.stub_eq (h : IsNode T) : stub E T = .hash (ref E T) := by
  rcases h with ⟨k, c, rfl⟩ | ⟨ch, rfl⟩ <;> rfl

theorem IsNode.queued_eq (h : IsNode T) : queued E T = loadedNode E T := by
  rcases h with ⟨k, c, rfl⟩ | ⟨ch, rfl⟩ <;> rfl

theorem IsNode.noted_eq (h : IsNode T) : noted E T = [hashOf E T] := by
  rcases h with ⟨k, c, rfl⟩ | ⟨ch, rfl⟩ <;> rfl

theorem loadedNode_short (k : Path) (c : KeyTree) :
    loadedNode E (.short k c) = .short k (stub E c) ⟨some (ref E (.short k c)), false⟩ := by
  cases c <;> rfl

theorem Queued.of_mem_subtrees (hT : Queued E db T) {c : KeyTree} (hc : c ∈ subtrees T) :
    Queued E db c := by
  rcases hT with hT | ⟨v, rfl⟩
  · exact hT.of_mem_subtrees hc
  · cases hc

/-! ### The loop -/

theorem enqueue_ref (hT : OnDisk E db T) (s : List Node × List Hash) (tr : Tracer) :
    ∃ tr', enqueue E db s (.hash (ref E T)) tr
      = (.ok (s.1 ++ [queued E T], s.2 ++ noted E T), tr') := by
  have hresolve : resolveOrNil E db (ref E T) tr
      = (.ok (loadedNode E T), tr.record (.read [] (blob E T))) := by
    rw [resolveOrNil, bind_apply, attempt, (hT.loaded []).resolveAndTrack]
    rfl
  refine ⟨tr.record (.read [] (blob E T)), ?_⟩
  rw [enqueue, bind_ok hresolve, hT.isNode.bytesToHash_ref, hT.isNode.queued_eq, hT.isNode.noted_eq]
  rfl

theorem enqueue_stub (hT : Queued E db T) (s : List Node × List Hash) (tr : Tracer) :
    ∃ tr', enqueue E db s (stub E T) tr = (.ok (s.1 ++ [queued E T], s.2 ++ noted E T), tr') := by
  rcases hT with hT | ⟨v, rfl⟩
  · rw [hT.isNode.stub_eq]
    exact enqueue_ref hT s tr
  · refine ⟨tr, ?_⟩
    rw [noted, List.append_nil]
    rfl

def childStub (E : Env) (ch : Nibble → KeyTree) (i : Nibble) : Node :=
  if (ch i).isEmpty then .nil else .hash (ref E (ch i))

variable {ch : Nibble → KeyTree}

theorem enqueueChild_empty {i : Nibble} (h : ch i = .empty) (s : List Node × List Hash)
    (tr : Tracer) : enqueueChild E db (childStub E ch) s i tr = (.ok s, tr) := by
  rw [enqueueChild, childStub, h]
  rfl

theorem enqueueChild_onDisk {i : Nibble} (h : OnDisk E db (ch i)) (s : List Node × List Hash)
    (tr : Tracer) :
    ∃ tr', enqueueChild E db (childStub E ch) s i tr
      = (.ok (s.1 ++ [queued E (ch i)], s.2 ++ noted E (ch i)), tr') := by
  have hstub : childStub E ch i = .hash (ref E (ch i)) :=
    if_neg (mt Tree.isEmpty_iff.mp h.isNode.ne_empty)
  rw [enqueueChild, hstub]
  exact enqueue_ref h s tr

theorem enqueue_children {is : List Nibble} (h : ∀ i ∈ is, ch i = .empty ∨ OnDisk E db (ch i))
    (s : List Node × List Hash) (tr : Tracer) :
    ∃ tr', is.foldlM (enqueueChild E db (childStub E ch)) s tr
      = (.ok (s.1 ++ ((is.map ch).filter fun c => !c.isEmpty).map (queued E),
          s.2 ++ ((is.map ch).filter fun c => !c.isEmpty).flatMap (noted E)), tr') := by
  induction is generalizing s tr with
  | nil => exact ⟨tr, by simp⟩
  | cons i is ih =>
    rw [List.forall_mem_cons] at h
    rw [List.foldlM_cons, List.map_cons]
    rcases h.1 with he | hdisk
    · obtain ⟨tr', hrest⟩ := ih h.2 s tr
      refine ⟨tr', ?_⟩
      rw [bind_ok (enqueueChild_empty he s tr), hrest, he]
      rfl
    · have hne : (!(ch i).isEmpty) = true := by
        rw [Bool.not_eq_true', Bool.eq_false_iff]
        exact mt Tree.isEmpty_iff.mp hdisk.isNode.ne_empty
      have hset : ((ch i :: is.map ch).filter fun c => !c.isEmpty)
          = ch i :: (is.map ch).filter fun c => !c.isEmpty := List.filter_cons_of_pos hne
      obtain ⟨tr₁, hfirst⟩ := enqueueChild_onDisk hdisk s tr
      obtain ⟨tr', hrest⟩ := ih h.2 (s.1 ++ [queued E (ch i)], s.2 ++ noted E (ch i)) tr₁
      refine ⟨tr', ?_⟩
      rw [bind_ok hfirst, hrest, hset, List.map_cons, List.flatMap_cons, List.append_assoc,
        List.append_assoc, List.singleton_append]

/-- **One step of the queue** puts the subtrees of a node at its end. -/
theorem unprocessed_step (hT : Queued E db T) (fuel : ℕ) (queue : List Node)
    (storageKeys : List Hash) (tr : Tracer) :
    ∃ tr', unprocessed E db (fuel + 1) (queued E T :: queue) storageKeys tr
      = unprocessed E db fuel (queue ++ (subtrees T).map (queued E))
          (storageKeys ++ (subtrees T).flatMap (noted E)) tr' := by
  rcases hT with hT | ⟨v, rfl⟩
  · rw [hT.isNode.queued_eq]
    rcases hT.isNode with ⟨k, c, rfl⟩ | ⟨ch, rfl⟩
    · have hc : Queued E db c := hT.of_mem_subtrees List.mem_cons_self
      obtain ⟨tr', hone⟩ := enqueue_stub hc (queue, storageKeys) tr
      refine ⟨tr', ?_⟩
      rw [loadedNode_short, unprocessed, bind_ok hone, subtrees, List.flatMap_singleton]
      rfl
    · have hch : ∀ i ∈ List.finRange 17, ch i = .empty ∨ OnDisk E db (ch i) := by
        intro i _
        by_cases he : ch i = .empty
        · exact .inl he
        · exact .inr (hT.child he)
      obtain ⟨tr', hall⟩ := enqueue_children hch (queue, storageKeys) tr
      refine ⟨tr', ?_⟩
      show unprocessed E db (fuel + 1) (.full (childStub E ch) _ :: queue) storageKeys tr = _
      rw [unprocessed, bind_ok hall]
      rfl
  · exact ⟨tr, by simp [queued, unprocessed, subtrees]⟩

theorem unprocessed_run {queue l : List KeyTree} (h : Worklist.Run subtrees queue l)
    (hq : ∀ T ∈ queue, Queued E db T) {fuel : ℕ} (hfuel : l.length < fuel)
    (storageKeys : List Hash) (tr : Tracer) :
    ∃ tr', unprocessed E db fuel (queue.map (queued E)) storageKeys tr
      = (.ok (storageKeys ++ l.flatMap fun T => (subtrees T).flatMap (noted E)), tr') := by
  induction h generalizing fuel storageKeys tr with
  | done =>
    obtain ⟨f, rfl⟩ : ∃ f, fuel = f + 1 := ⟨fuel - 1, by simp at hfuel; omega⟩
    exact ⟨tr, by simp [unprocessed]⟩
  | @take T queue l _ ih =>
    obtain ⟨f, rfl⟩ : ∃ f, fuel = f + 1 := ⟨fuel - 1, by simp at hfuel; omega⟩
    rw [List.forall_mem_cons] at hq
    obtain ⟨tr₁, hstep⟩ :=
      unprocessed_step hq.1 f (queue.map (queued E)) storageKeys tr
    have hq' : ∀ S ∈ queue ++ subtrees T, Queued E db S := by
      intro S hS
      rcases List.mem_append.mp hS with hS | hS
      · exact hq.2 S hS
      · exact hq.1.of_mem_subtrees hS
    obtain ⟨tr', hrest⟩ := ih hq' (Nat.lt_of_succ_lt_succ hfuel)
      (storageKeys ++ (subtrees T).flatMap (noted E)) tr₁
    refine ⟨tr', ?_⟩
    rw [List.map_cons, hstep, ← List.map_append, hrest, List.flatMap_cons, List.append_assoc]

/-! ### What is reached -/

theorem Queued.reach {S : KeyTree} (hT : Queued E db T) (h : Worklist.Reach subtrees T S) :
    Queued E db S := by
  induction h with
  | refl => exact hT
  | tail _ hS ih => exact ih.of_mem_subtrees hS

theorem OnDisk.reachable {S : KeyTree} (hT : OnDisk E db T) (h : Worklist.Reach subtrees T S)
    (hS : IsNode S) : Reachable E db (hashOf E T) (hashOf E S) (loadedNode E S) := by
  induction h with
  | refl =>
    have hl := hT.loaded []
    rw [hT.isNode.ref_eq] at hl
    exact .root hl
  | @tail R S hR hmem ih =>
    have hRq : Queued E db R := Queued.reach (.inl hT) hR
    rcases hRq with hRd | ⟨v, rfl⟩
    · have hl := ((hRd.of_mem_subtrees hmem).resolve_right (by
        rintro ⟨v, rfl⟩
        exact hS.ne_leaf v rfl)).loaded []
      have hreach := ih hRd.isNode
      rw [← hS.bytesToHash_ref]
      rcases hRd.isNode with ⟨k, c, rfl⟩ | ⟨ch, rfl⟩
      · obtain rfl : S = c := List.mem_singleton.mp hmem
        rw [loadedNode_short, hS.stub_eq] at hreach
        exact .short hreach hl
      · obtain ⟨hmap, -⟩ := List.mem_filter.mp hmem
        obtain ⟨i, -, rfl⟩ := List.mem_map.mp hmap
        exact .full hreach (if_neg (mt Tree.isEmpty_iff.mp hS.ne_empty)) hl
    · cases hmem

theorem Reachable.exists_tree (hT : OnDisk E db T) {h : Hash} {n : Node}
    (hr : Reachable E db (hashOf E T) h n) :
    ∃ S, Worklist.Reach subtrees T S ∧ OnDisk E db S ∧ h = hashOf E S ∧ n = loadedNode E S := by
  induction hr with
  | root hl =>
    have hl' := hT.loaded []
    rw [hT.isNode.ref_eq] at hl'
    exact ⟨T, .refl, hT, rfl, hl.unique hl'⟩
  | @short h key h' blob flags n _ hl ih =>
    obtain ⟨S, hS, hdisk, -, heq⟩ := ih
    rcases hdisk.isNode with ⟨k, c, rfl⟩ | ⟨ch, rfl⟩
    · rw [loadedNode_short] at heq
      have hval : stub E c = .hash h' := (Node.short.inj heq).2.1.symm
      have hc : OnDisk E db c := (hdisk.of_mem_subtrees List.mem_cons_self).resolve_right (by
        rintro ⟨v, rfl⟩
        cases hval)
      rw [hc.isNode.stub_eq] at hval
      obtain rfl := Node.hash.inj hval
      exact ⟨c, hS.tail List.mem_cons_self, hc, hc.isNode.bytesToHash_ref,
        hl.unique (hc.loaded [])⟩
    · cases heq
  | @full h ch flags i h' blob n _ hi hl ih =>
    obtain ⟨S, hS, hdisk, -, heq⟩ := ih
    rcases hdisk.isNode with ⟨k, c, rfl⟩ | ⟨Tc, rfl⟩
    · rw [loadedNode_short] at heq
      cases heq
    · have hval : childStub E Tc i = .hash h' := by
        rw [← hi]
        exact (congrFun (Node.full.inj heq).1 i).symm
      have hne : Tc i ≠ .empty := by
        intro he
        rw [childStub, he] at hval
        cases hval
      have hc := hdisk.child hne
      rw [childStub, if_neg (mt Tree.isEmpty_iff.mp hne)] at hval
      obtain rfl := Node.hash.inj hval
      have hmem : Tc i ∈ subtrees (.full Tc) :=
        List.mem_filter.mpr ⟨List.mem_map_of_mem (List.mem_finRange i), by
          rw [Bool.not_eq_true', Bool.eq_false_iff]
          exact mt Tree.isEmpty_iff.mp hne⟩
      exact ⟨Tc i, hS.tail hmem, hc, hc.isNode.bytesToHash_ref, hl.unique (hc.loaded [])⟩

theorem isInner_loadedNode (h : IsNode T) : (loadedNode E T).IsInner := by
  rcases h with ⟨k, c, rfl⟩ | ⟨ch, rfl⟩
  · exact .inl ⟨_, _, _, rfl⟩
  · exact .inr ⟨_, _, rfl⟩

theorem mem_noted_iff (hT : OnDisk E db T) {l : List KeyTree} (hl : Worklist.Run subtrees [T] l)
    {h : Hash} :
    h ∈ hashOf E T :: (l.flatMap fun S => (subtrees S).flatMap (noted E)) ↔
      ∃ n, Reachable E db (hashOf E T) h n ∧ n.IsInner := by
  have hmem : ∀ S, S ∈ l ↔ Worklist.Reach subtrees T S := by
    intro S
    rw [hl.mem_iff]
    simp
  constructor
  · intro hh
    have hex : ∃ S, Worklist.Reach subtrees T S ∧ IsNode S ∧ h = hashOf E S := by
      rcases List.mem_cons.mp hh with rfl | hh
      · exact ⟨T, .refl, hT.isNode, rfl⟩
      · obtain ⟨S, hS, hh⟩ := List.mem_flatMap.mp hh
        obtain ⟨c, hc, hh⟩ := List.mem_flatMap.mp hh
        have hreach : Worklist.Reach subtrees T c := .tail ((hmem S).mp hS) hc
        rcases Queued.reach (.inl hT) hreach with hdisk | ⟨v, rfl⟩
        · rw [hdisk.isNode.noted_eq, List.mem_singleton] at hh
          exact ⟨c, hreach, hdisk.isNode, hh⟩
        · cases hh
    obtain ⟨S, hS, hnode, rfl⟩ := hex
    exact ⟨_, hT.reachable hS hnode, isInner_loadedNode hnode⟩
  · rintro ⟨n, hr, -⟩
    obtain ⟨S, hS, hdisk, rfl, -⟩ := hr.exists_tree hT
    rcases Relation.ReflTransGen.cases_tail hS with rfl | ⟨R, hR, hSR⟩
    · exact List.mem_cons_self
    · refine List.mem_cons_of_mem _ (List.mem_flatMap.mpr ⟨R, (hmem R).mpr hR, ?_⟩)
      refine List.mem_flatMap.mpr ⟨S, hSR, ?_⟩
      rw [hdisk.isNode.noted_eq]
      exact List.mem_singleton_self _

/-! ### GetStorageKeys -/

namespace MerklePatriciaTrie

theorem getStorageKeys_fresh {t : MerklePatriciaTrie} (hf : Fresh E t T) (hne : T ≠ .empty)
    (hroot : hashOf E T ≠ emptyRootHash) :
    ∃ d, ∀ fuel ≥ d, ∃ keys, (t.getStorageKeys E fuel).1 = .ok keys ∧
      ∀ h, h ∈ keys ↔ ∃ n, Reachable E t.reader (hashOf E T) h n ∧ n.IsInner := by
  have hT := hf.onDisk hne
  have hzero : hashOf E T ≠ FixedBytes.zero 32 := (hT.entry [] T (.here hT.isNode)).2
  have hcache : bytesToHash (t.root.cache.1.getD []) = hashOf E T := by
    rw [hf.root, ← hT.isNode.bytesToHash_ref]
    rcases hT.isNode with ⟨k, c, rfl⟩ | ⟨ch, rfl⟩ <;> rfl
  have hnil : t.root.isNil = false := by
    rw [hf.root]
    rcases hT.isNode with ⟨k, c, rfl⟩ | ⟨ch, rfl⟩ <;> rfl
  have hload := hT.loaded []
  rw [hT.isNode.ref_eq] at hload
  obtain ⟨l, hl⟩ := Worklist.Run.exists_of_size sum_weight_subtrees [T]
  refine ⟨l.length + 1, fun fuel hfuel => ?_⟩
  have hq : ∀ S ∈ [T], Queued E t.reader S := by
    rw [List.forall_mem_singleton]
    exact .inl hT
  obtain ⟨tr', hrun⟩ := unprocessed_run hl hq hfuel [hashOf E T] t.tracer
  refine ⟨_, ?_, fun h => mem_noted_iff hT hl⟩
  rw [List.map_singleton, hT.isNode.queued_eq] at hrun
  rw [getStorageKeys, hnil, hcache]
  simp only [Bool.false_eq_true, if_false]
  rw [if_pos ⟨hzero, hroot⟩, hload.resolveAndTrack]
  dsimp only
  rw [hrun]
  rfl

/-- **`GetStorageKeys` is exact.**  After each of any rounds of updates on keys of one
length, commit, store and reopen, unless the trie is empty. -/
theorem getStorageKeys_exact (E : Env) (db : DB) (isHash : Bool) (len : ℕ) (rs : List Round)
    (hlen : ∀ r ∈ rs, ∀ op ∈ r.ops, op.1.length = len)
    (hK : ∀ m ∈ (emptyTrie db isHash).memoryStates E rs,
      Ideal E.keccak256 (m.root.encodings E)) :
    ∃ outs, (emptyTrie db isHash).rounds E rs = .ok outs ∧
      ∀ out ∈ outs, out.2.root ≠ .nil →
        ∃ d, ∀ fuel ≥ d, ∃ keys, (out.2.getStorageKeys E fuel).1 = .ok keys ∧
          ∀ h, h ∈ keys ↔ ∃ n, Reachable E out.2.reader out.1 h n ∧ n.IsInner := by
  obtain ⟨outs, hrounds, hall⟩ := rounds_lockstep (fresh_emptyTrie E db isHash).represents
    (represents_empty E db isHash) rfl (uniform_empty _) hlen hK
  have hlock : ∀ out ∈ outs, ∃ m T, Lockstep E out m T :=
    ((List.forall₂_and_left _ _).mp (hall.imp fun _ m h => ⟨⟨m, h⟩, h⟩)).1
  refine ⟨outs, hrounds, fun out hout hnil => ?_⟩
  obtain ⟨m, T, h⟩ := hlock out hout
  have hne : T ≠ .empty := mt (h.fresh.represents.loads.nil_iff h.fresh.represents.holds).mpr hnil
  rw [h.root, rootHash_of_ne hne]
  exact getStorageKeys_fresh h.fresh hne (h.ne_empty hne)

theorem getStorageKeys_twoRounds :
    ∃ outs, (emptyTrie (fun _ => none) false).rounds stdEnv twoRounds = .ok outs ∧
      ∀ out ∈ outs, out.2.root ≠ .nil →
        ∃ d, ∀ fuel ≥ d, ∃ keys, (out.2.getStorageKeys stdEnv fuel).1 = .ok keys ∧
          ∀ h, h ∈ keys ↔ ∃ n, Reachable stdEnv out.2.reader out.1 h n ∧ n.IsInner :=
  getStorageKeys_exact stdEnv (fun _ => none) false 1 twoRounds (by decide) ideal_twoRounds

end MerklePatriciaTrie

end MetaNode
