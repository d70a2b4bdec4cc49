/-
What a commit writes.
-/
import MetaNode.TrieHash
import MetaNode.TrieStore

namespace MetaNode

open Patricia Patricia.Tree Function

/-- The nodes that a commit has to write, children first: those reached from
the root through dirty nodes only. -/
def dirtyNodes : Node → KeyTree → List (Path × KeyTree)
  | .short k n fl, .short _ c =>
    if fl.dirty then (dirtyNodes n c).map (fun x => (k ++ x.1, x.2)) ++ [([], .short k c)] else []
  | .full ch fl, .full Tc =>
    if fl.dirty then
      (Committer.hexNibbles.flatMap fun i =>
        (dirtyNodes (ch i) (Tc i)).map fun x => (i :: x.1, x.2)) ++ [([], .full Tc)]
    else []
  | _, _ => []

variable {E : Env} {P : KeyTree → Prop} {db : DB}

/-- The entry of a node set for the subtree `S`. -/
def wrapper (E : Env) (S : KeyTree) : NodeWrapper := ⟨hashOf E S, blob E S⟩

/-- Adds the entries of subtrees found below `path`. -/
def addAll (E : Env) (path : Path) (l : List (Path × KeyTree))
    (m : AList fun _ : Bytes => NodeWrapper) : AList fun _ : Bytes => NodeWrapper :=
  l.foldl (fun m x => m.insert (hexEncode (path ++ x.1).bytes) (wrapper E x.2)) m

variable (path : Path)

theorem addAll_append (l l' : List (Path × KeyTree)) (m : AList fun _ : Bytes => NodeWrapper) :
    addAll E path (l ++ l') m = addAll E path l' (addAll E path l m) :=
  List.foldl_append

theorem addAll_map (k : Path) (l : List (Path × KeyTree)) (m : AList fun _ : Bytes => NodeWrapper) :
    addAll E path (l.map fun x => (k ++ x.1, x.2)) m = addAll E (path ++ k) l m := by
  rw [addAll, List.foldl_map, addAll]
  simp only [List.append_assoc]

/-! ### The committer -/

namespace Committer

variable (tracer : Tracer) (collectLeaf : Bool)

theorem store_spec (path : Path) (h b : Bytes) (leaf : Option Bytes) (set : NodeSet) :
    ∃ set', (store tracer collectLeaf path (some h) b leaf).run set = .ok (.hash h, set') ∧
      set'.nodes = set.nodes.insert (hexEncode path.bytes) ⟨bytesToHash h, b⟩ := by
  have hadd := set.addNode_nodes path ⟨bytesToHash h, b⟩
  cases collectLeaf with
  | false => exact ⟨_, rfl, hadd⟩
  | true =>
    cases leaf with
    | none | some => exact ⟨_, rfl, hadd⟩

end Committer

theorem mem_hexNibbles {i : Nibble} : i ∈ Committer.hexNibbles ↔ i ≠ 16 := by
  revert i
  decide

variable {ch : Nibble → Node}

theorem commitChildren_inner {commit : Nibble → CommitM Collapsed} {i : Nibble}
    (hnil : ch i ≠ .nil) (hhash : ∀ h, ch i ≠ .hash h) (l : List Nibble) (kids : Nibble → Bytes) :
    Committer.commitChildren commit ch (i :: l) kids = (do
      let child ← commit i
      Committer.commitChildren commit ch l (update kids i child.marshal)) := by
  rw [Committer.commitChildren]
  cases hn : ch i with
  | nil => exact absurd hn hnil
  | hash h => exact absurd hn (hhash h)
  | _ => rfl

theorem commitChildren_spec {Tc : Nibble → KeyTree} (path : Path)
    (commit : Nibble → CommitM Collapsed) (hch : ∀ i, Loads E P (ch i) (Tc i))
    (hcommit : ∀ i, i ≠ 16 → ch i ≠ .nil → ∀ set, ∃ set',
      (commit i).run set = .ok (.hash (ref E (Tc i)), set') ∧
        set'.nodes = addAll E (path ++ [i]) (dirtyNodes (ch i) (Tc i)) set.nodes)
    (l : List Nibble) (hl : ∀ i ∈ l, i ≠ 16) (kids : Nibble → Bytes) (set : NodeSet) :
    ∃ kids' set', (Committer.commitChildren commit ch l kids).run set = .ok (kids', set') ∧
      set'.nodes = addAll E path
        (l.flatMap fun i => (dirtyNodes (ch i) (Tc i)).map fun x => (i :: x.1, x.2)) set.nodes ∧
      ∀ i, kids' i = if i ∈ l ∧ !(ch i).isNil then ref E (Tc i) else kids i := by
  induction l generalizing kids set with
  | nil => exact ⟨kids, set, rfl, rfl, by simp⟩
  | cons i l ih =>
    have hi : i ≠ 16 := hl i List.mem_cons_self
    have hl' : ∀ j ∈ l, j ≠ 16 := fun j hj => hl j (List.mem_cons_of_mem i hj)
    rw [List.flatMap_cons, addAll_append]
    have hmap : ∀ m, addAll E path ((dirtyNodes (ch i) (Tc i)).map fun x => (i :: x.1, x.2)) m
        = addAll E (path ++ [i]) (dirtyNodes (ch i) (Tc i)) m := addAll_map path [i] _
    rw [hmap]
    by_cases hnil : ch i = .nil
    · obtain ⟨kids', set', hrun, hset, hk⟩ := ih hl' kids set
      rw [Committer.commitChildren, hnil]
      refine ⟨kids', set', hrun, by rw [hset]; rfl, ?_⟩
      intro j
      rw [hk j]
      by_cases hji : j = i
      · subst hji
        simp [Node.isNil_iff.mpr hnil]
      · simp [hji]
    · -- the bytes of the child `i` are `ref E (Tc i)`
      have hkids : ∀ {kids' : Nibble → Bytes},
          (∀ j, kids' j = if j ∈ l ∧ !(ch j).isNil then ref E (Tc j)
            else update kids i (ref E (Tc i)) j) →
          ∀ j, kids' j = if j ∈ i :: l ∧ !(ch j).isNil then ref E (Tc j) else kids j := by
        intro kids' hk j
        rw [hk j]
        by_cases hji : j = i
        · subst hji
          simp [mt Node.isNil_iff.mp hnil]
        · simp [hji]
      by_cases hhash : ∃ h, ch i = .hash h
      · obtain ⟨h, hn⟩ := hhash
        obtain rfl : h = ref E (Tc i) := by
          have hload := hch i
          rw [hn] at hload
          cases hload
          rfl
        obtain ⟨kids', set', hrun, hset, hk⟩ := ih hl' (update kids i (ref E (Tc i))) set
        refine ⟨kids', set', ?_, by rw [hset, hn]; rfl, hkids hk⟩
        rw [Committer.commitChildren, hn]
        exact hrun
      · obtain ⟨set₁, hrun₁, hset₁⟩ := hcommit i hi hnil set
        obtain ⟨kids', set', hrun, hset, hk⟩ :=
          ih hl' (update kids i (ref E (Tc i))) set₁
        refine ⟨kids', set', ?_, by rw [hset, hset₁], hkids hk⟩
        rw [commitChildren_inner hnil (fun h hn => hhash ⟨h, hn⟩), StateT.run_bind, hrun₁]
        exact hrun

variable {S : KeyTree}

theorem addAll_concat (hS : IsNode S) (path : Path) (l : List (Path × KeyTree))
    (m : AList fun _ : Bytes => NodeWrapper) :
    addAll E path (l ++ [([], S)]) m
      = (addAll E path l m).insert (hexEncode path.bytes) ⟨bytesToHash (ref E S), blob E S⟩ := by
  rw [hS.ref_eq, bytesToHash_val, addAll_append]
  show AList.insert (hexEncode (path ++ []).bytes) _ _ = _
  rw [List.append_nil]
  rfl

/-- The collapsed full node has the stored form of its subtree: the references
that `commitChildren` returns, and the value at 16 from the node itself. -/
theorem fullMarshal_collapsed (hP : Holds E P db) {Tc : Nibble → KeyTree}
    {kids : Nibble → Bytes} (hch : ∀ i, Loads E P (ch i) (Tc i))
    (hτ : Tc 16 = .empty ∨ ∃ v, Tc 16 = .leaf v)
    (hkids : ∀ i, kids i = if i ∈ Committer.hexNibbles ∧ !(ch i).isNil then ref E (Tc i)
      else List.replicate 32 0) :
    fullMarshal E (if (ch 16).isNil then kids else update kids 16 ((ch 16).marshal E))
      = blob E (.full Tc) := by
  rw [blob]
  congr 1
  funext i
  have hslot : (Tc i).isEmpty = (ch i).isNil := by
    rw [Bool.eq_iff_iff, Tree.isEmpty_iff, Node.isNil_iff, (hch i).nil_iff hP]
  rw [blobSlot, hslot]
  by_cases hi : i = 16
  · subst hi
    by_cases hnil : (ch 16).isNil
    · rw [if_pos hnil, if_pos hnil, hkids, if_neg]
      simp [mem_hexNibbles]
    · obtain ⟨v, hv⟩ := hτ.resolve_left fun he =>
        hnil (Node.isNil_iff.mpr (((hch 16).nil_iff hP).mpr he))
      have h16 := hch 16
      rw [hv] at h16
      rw [if_neg hnil, if_neg hnil, update_self, h16.of_leaf hP, hv]
      rfl
  · -- the value does not touch the other children
    have hkeep : (if (ch 16).isNil then kids
        else update kids 16 ((ch 16).marshal E)) i = kids i := by
      split
      · rfl
      · exact update_of_ne hi ..
    rw [hkeep, hkids]
    by_cases hnil : (ch i).isNil
    · simp [hnil]
    · simp [hnil, mem_hexNibbles, hi]

variable {n : Node}

/-- **The committer adds an entry for every dirty node**, with the hash and the
stored form of the subtree. -/
theorem Loads.commit_spec (hP : Holds E P db) (tracer : Tracer) (collectLeaf : Bool) {T : KeyTree}
    (hn : Loads E P n T) (hT : Canonical 16 T) (hne : T ≠ .empty) (hall : n.AllHashed) (path : Path)
    (set : NodeSet) :
    ∃ set', (Committer.commit E tracer collectLeaf path n).run set = .ok (.hash (ref E T), set') ∧
      set'.nodes = addAll E path (dirtyNodes n T) set.nodes := by
  induction hn generalizing path set with
  | nil => exact absurd rfl hne
  | value => cases hT
  | hash => exact ⟨set, rfl, rfl⟩
  | @short k n fl c hn hfl ih =>
    obtain ⟨hash, dirty⟩ := fl
    obtain ⟨h, rfl⟩ : ∃ h, hash = some h := Option.ne_none_iff_exists'.mp hall.1
    obtain ⟨rfl, hbelow⟩ := hfl.hash h rfl
    cases dirty with
    | false => exact ⟨set, rfl, rfl⟩
    | true =>
      have hstore := fun leaf => Committer.store_spec tracer collectLeaf path
        (ref E (.short k c)) (shortMarshal E (hexToCompact k) (ref E c)) leaf
      have hadd : ∀ m, addAll E path (dirtyNodes (.short k n ⟨some (ref E (.short k c)), true⟩)
          (.short k c)) m = (addAll E (path ++ k) (dirtyNodes n c) m).insert (hexEncode path.bytes)
            ⟨bytesToHash (ref E (.short k c)), shortMarshal E (hexToCompact k) (ref E c)⟩ := by
        intro m
        rw [dirtyNodes, if_pos rfl, addAll_concat (.inl ⟨k, c, rfl⟩), addAll_map]
        rfl
      -- the child is a value, a hash or a full node
      cases hT with
      | @leaf w v hw =>
        obtain rfl := hn.of_leaf hP
        obtain ⟨set', hrun, hset⟩ := hstore (some v.1) set
        exact ⟨set', hrun, by rw [hset, hadd]; rfl⟩
      | @ext _ Tc hkne hk hc =>
        cases hn with
        | hash =>
          obtain ⟨set', hrun, hset⟩ := hstore none set
          exact ⟨set', hrun, by rw [hset, hadd]; rfl⟩
        | @full ch fl' _ hch hfl' =>
          obtain ⟨set₁, hrun₁, hset₁⟩ := ih hc (by simp) hbelow (path ++ k) set
          obtain ⟨set', hrun, hset⟩ := hstore none set₁
          refine ⟨set', ?_, by rw [hset, hadd, hset₁]⟩
          rw [Committer.commit, StateT.run_bind, hrun₁]
          · exact hrun
          · simp
  | @full ch fl Tc hch hfl ih =>
    obtain ⟨hash, dirty⟩ := fl
    obtain ⟨h, rfl⟩ : ∃ h, hash = some h := Option.ne_none_iff_exists'.mp hall.1
    obtain ⟨rfl, hbelow⟩ := hfl.hash h rfl
    cases dirty with
    | false => exact ⟨set, rfl, rfl⟩
    | true =>
      cases hT with
      | full _ _ _ hτ hc =>
        obtain ⟨kids, set₁, hrun₁, hset₁, hkids⟩ := commitChildren_spec path
          (fun i => Committer.commit E tracer collectLeaf (path ++ [i]) (ch i)) hch
          (fun i hi hnil => ih i (hc i hi) (mt ((hch i).nil_iff hP).mpr hnil) (hbelow i)
            (path ++ [i])) Committer.hexNibbles (fun i hi => mem_hexNibbles.mp hi)
          (fun _ => List.replicate 32 0) set
        obtain ⟨set', hrun, hset⟩ := Committer.store_spec tracer collectLeaf path
          (ref E (.full Tc)) (blob E (.full Tc)) none set₁
        refine ⟨set', ?_, ?_⟩
        · rw [Committer.commit, StateT.run_bind, hrun₁]
          · rw [← fullMarshal_collapsed hP hch hτ hkids] at hrun
            exact hrun
          · simp
        · rw [hset, hset₁, dirtyNodes, if_pos rfl, addAll_concat (.inr ⟨Tc, rfl⟩)]

theorem dirtyNodes_of_clean (hd : n.cache.2 = false) (T : KeyTree) : dirtyNodes n T = [] := by
  cases n with
  | short =>
    cases T with
    | short =>
      rw [dirtyNodes, if_neg]
      simpa [Node.cache] using hd
    | _ => rfl
  | full =>
    cases T with
    | full =>
      rw [dirtyNodes, if_neg]
      simpa [Node.cache] using hd
    | _ => rfl
  | _ => rfl

theorem dirtyNodes_hash (n : Node) (T : KeyTree) :
    dirtyNodes (Hasher.hash E n).2 T = dirtyNodes n T := by
  induction n generalizing T with
  | short k n fl ih =>
    rw [Hasher.hash]
    split
    · rfl
    · cases T with
      | short => rw [dirtyNodes, dirtyNodes, ih]
      | _ => rfl
  | full ch fl ih =>
    rw [Hasher.hash]
    split
    · rfl
    · cases T with
      | full Tc =>
        have hkid : ∀ i, dirtyNodes
            (if i = 16 ∨ (ch i).isNil then ch i else (Hasher.hash E (ch i)).2) (Tc i)
              = dirtyNodes (ch i) (Tc i) := by
          intro i
          split
          · rfl
          · exact ih i (Tc i)
        simp only [dirtyNodes, hkid]
      | _ => rfl
  | _ => rfl

variable {p : Path}

theorem dirtyNodes_nodeAt {T : KeyTree} (hn : Loads E P n T) (h : (p, S) ∈ dirtyNodes n T) :
    NodeAt T p S := by
  induction hn generalizing p S with
  | nil | value | hash => simp [dirtyNodes] at h
  | @short k n fl c hn hfl ih =>
    rw [dirtyNodes] at h
    split at h
    · rcases List.mem_append.mp h with h | h
      · obtain ⟨⟨q, R⟩, hq, he⟩ := List.mem_map.mp h
        obtain ⟨rfl, rfl⟩ := Prod.mk.inj he
        exact .short (ih hq)
      · obtain ⟨rfl, rfl⟩ := Prod.mk.inj (List.mem_singleton.mp h)
        exact .here (.inl ⟨k, c, rfl⟩)
    · simp at h
  | @full ch fl Tc hch hfl ih =>
    rw [dirtyNodes] at h
    split at h
    · rcases List.mem_append.mp h with h | h
      · obtain ⟨i, -, h⟩ := List.mem_flatMap.mp h
        obtain ⟨⟨q, R⟩, hq, he⟩ := List.mem_map.mp h
        obtain ⟨rfl, rfl⟩ := Prod.mk.inj he
        exact .full (ih i hq)
      · obtain ⟨rfl, rfl⟩ := Prod.mk.inj (List.mem_singleton.mp h)
        exact .here (.inr ⟨Tc, rfl⟩)
    · simp at h

/-- All hashes in a node at the path `pre` satisfy `Q` with their path. -/
def Node.Hashes (Q : Path → Bytes → Prop) : Path → Node → Prop
  | pre, .short k n fl => (∀ h, fl.hash = some h → Q pre h) ∧ n.Hashes Q (pre ++ k)
  | pre, .full ch fl => (∀ h, fl.hash = some h → Q pre h) ∧ ∀ i, (ch i).Hashes Q (pre ++ [i])
  | pre, .hash h => Q pre h
  | _, _ => True

theorem Node.hashes_true (pre : Path) : n.Hashes (fun _ _ => True) pre := by
  induction n generalizing pre with
  | short k n fl ih => exact ⟨fun _ _ => trivial, ih _⟩
  | full ch fl ih => exact ⟨fun _ _ => trivial, fun i => ih i _⟩
  | _ => trivial

theorem nodeAt_dirty_or {T : KeyTree} (hn : Loads E P n T) (hT : Canonical 16 T)
    {Q : Path → Bytes → Prop} (hsub : ∀ {T S : KeyTree} {pre p : Path}, P T → Q pre (ref E T) →
      NodeAt T p S → P S ∧ Q (pre ++ p) (ref E S)) {pre : Path} (hh : n.Hashes Q pre)
    (h : NodeAt T p S) : (p, S) ∈ dirtyNodes n T ∨ P S ∧ Q (pre ++ p) (ref E S) := by
  induction hn generalizing pre p S with
  | nil => exact absurd h not_nodeAt_empty
  | value => exact absurd h not_nodeAt_leaf
  | hash hmem => exact .inr (hsub hmem hh h)
  | @short k n fl c hn hfl ih =>
    cases hd : fl.dirty with
    | false => exact .inr (hsub (hfl.clean hd).2 (hh.1 _ (hfl.hash_of_clean hd)) h)
    | true =>
      rw [dirtyNodes, if_pos hd, List.mem_append, List.mem_map]
      rcases nodeAt_short.mp h with ⟨rfl, rfl⟩ | ⟨q, rfl, hbelow⟩
      · exact .inl (.inr (List.mem_singleton.mpr rfl))
      · rcases canonical_or_leaf_of_short hT with hc | ⟨v, rfl⟩
        · rcases ih hc hh.2 hbelow with hq | hS
          · exact .inl (.inl ⟨(q, S), hq, rfl⟩)
          · rw [List.append_assoc] at hS
            exact .inr hS
        · exact absurd hbelow not_nodeAt_leaf
  | @full ch fl Tc hch hfl ih =>
    cases hd : fl.dirty with
    | false => exact .inr (hsub (hfl.clean hd).2 (hh.1 _ (hfl.hash_of_clean hd)) h)
    | true =>
      rw [dirtyNodes, if_pos hd, List.mem_append, List.mem_flatMap]
      rcases nodeAt_full.mp h with ⟨rfl, rfl⟩ | ⟨i, q, rfl, hbelow⟩
      · exact .inl (.inr (List.mem_singleton.mpr rfl))
      · rcases ih i (hbelow.child_canonical hT) (hh.2 i) hbelow with hq | hS
        · exact .inl (.inl ⟨i, mem_hexNibbles.mpr (hbelow.ne_last hT),
            List.mem_map.mpr ⟨(q, S), hq, rfl⟩⟩)
        · rw [List.append_assoc, List.singleton_append] at hS
          exact .inr hS

/-! ### Node sets -/

variable {w : NodeWrapper}

theorem lookup_addAll_mem {path : Path} {l : List (Path × KeyTree)}
    {m : AList fun _ : Bytes => NodeWrapper} {key : Bytes}
    (h : (addAll E path l m).lookup key = some w) :
    (∃ x ∈ l, key = hexEncode (path ++ x.1).bytes ∧ w = wrapper E x.2) ∨ m.lookup key = some w := by
  induction l generalizing m with
  | nil => exact .inr h
  | cons x l ih =>
    rcases ih h with ⟨y, hy, hk, hw⟩ | h
    · exact .inl ⟨y, List.mem_cons_of_mem x hy, hk, hw⟩
    · by_cases hk : key = hexEncode (path ++ x.1).bytes
      · subst hk
        rw [AList.lookup_insert, Option.some.injEq] at h
        exact .inl ⟨x, List.mem_cons_self, rfl, h.symm⟩
      · rw [AList.lookup_insert_ne hk] at h
        exact .inr h

theorem hexPath_inj {q : Path} (h : hexEncode p.bytes = hexEncode q.bytes) : p = q :=
  Path.bytes_injective (hexEncode_injective h)

theorem lookup_addAll {l : List (Path × KeyTree)} (m : AList fun _ : Bytes => NodeWrapper)
    {x : Path × KeyTree} (hx : x ∈ l) :
    ∃ y ∈ l, y.1 = x.1 ∧
      (addAll E path l m).lookup (hexEncode (path ++ x.1).bytes) = some (wrapper E y.2) := by
  induction l using List.reverseRecOn with
  | nil => simp at hx
  | append_singleton l z ih =>
    rw [addAll_append]
    show ∃ y ∈ l ++ [z], y.1 = x.1 ∧ AList.lookup _ (AList.insert _ _ _) = _
    by_cases hz : z.1 = x.1
    · refine ⟨z, by simp, hz, ?_⟩
      rw [hz, AList.lookup_insert]
    · have hxl : x ∈ l := by
        rcases List.mem_append.mp hx with hx | hx
        · exact hx
        · exact absurd (congrArg Prod.fst (List.mem_singleton.mp hx)).symm hz
      obtain ⟨y, hy, hyx, hl⟩ := ih hxl
      refine ⟨y, List.mem_append_left _ hy, hyx, ?_⟩
      rw [AList.lookup_insert_ne, hl]
      intro h
      exact hz (List.append_cancel_left (hexPath_inj h)).symm

def entries (set : Option NodeSet) : List NodeWrapper :=
  match set with
  | none => []
  | some set => set.nodes.entries.map Sigma.snd

/-- The node set holds, besides deletions, an entry for each node of `l`. -/
structure Writes (E : Env) (l : List (Path × KeyTree)) (set : Option NodeSet) : Prop where
  only : ∀ w ∈ entries set, w.isDeleted = false → ∃ x ∈ l, w = wrapper E x.2
  all : ∀ x ∈ l, ∃ y ∈ l, y.1 = x.1 ∧ wrapper E y.2 ∈ entries set

theorem lookup_deletedSet {tracer : Tracer} {key : Bytes}
    (h : (MerklePatriciaTrie.deletedSet tracer).nodes.lookup key = some w) : w = .newDeleted := by
  have hfold : ∀ (l : List Path) (set : NodeSet),
      (∀ k w, set.nodes.lookup k = some w → w = .newDeleted) →
      ∀ k w, (l.foldl (fun nodes path => nodes.addNode path .newDeleted) set).nodes.lookup k
        = some w → w = .newDeleted := by
    intro l
    induction l with
    | nil => exact fun set hset => hset
    | cons p l ih =>
      intro set hset
      refine ih _ ?_
      intro k w hk
      rw [NodeSet.addNode_nodes] at hk
      by_cases hkp : k = hexEncode p.bytes
      · subst hkp
        rw [AList.lookup_insert, Option.some.injEq] at hk
        exact hk.symm
      · rw [AList.lookup_insert_ne hkp] at hk
        exact hset k w hk
  exact hfold tracer.deletedNodes .new (by simp [NodeSet.new]) key w h

theorem mem_entries_some {set : NodeSet} :
    w ∈ entries (some set) ↔ ∃ key, set.nodes.lookup key = some w := by
  rw [entries, List.mem_map]
  constructor
  · rintro ⟨⟨key, w⟩, hmem, rfl⟩
    exact ⟨key, AList.mem_lookup_iff.mpr hmem⟩
  · rintro ⟨key, h⟩
    exact ⟨⟨key, w⟩, AList.mem_lookup_iff.mp h, rfl⟩

/-- The node set of a commit: none, or the deleted paths with the entries of `l`
added. -/
def Collected (E : Env) (tracer : Tracer) (l : List (Path × KeyTree)) (set : Option NodeSet) :
    Prop :=
  (set = none ∧ l = []) ∨
    ∃ s, set = some s ∧ s.nodes = addAll E [] l (MerklePatriciaTrie.deletedSet tracer).nodes

section Collected

variable {tracer : Tracer} {l : List (Path × KeyTree)} {set : Option NodeSet}

theorem Collected.of_mem (h : Collected E tracer l set) (hw : w ∈ entries set) :
    (∃ x ∈ l, w = wrapper E x.2) ∨ w = .newDeleted := by
  rcases h with ⟨rfl, -⟩ | ⟨s, rfl, hs⟩
  · simp [entries] at hw
  · obtain ⟨key, hlook⟩ := mem_entries_some.mp hw
    rw [hs] at hlook
    rcases lookup_addAll_mem hlook with ⟨x, hx, -, rfl⟩ | hlook
    · exact .inl ⟨x, hx, rfl⟩
    · exact .inr (lookup_deletedSet hlook)

theorem Collected.writes (h : Collected E tracer l set) : Writes E l set where
  only := by
    intro w hw hdel
    rcases h.of_mem hw with hx | rfl
    · exact hx
    · exact absurd hdel (by decide)
  all := by
    intro x hx
    rcases h with ⟨-, rfl⟩ | ⟨s, rfl, hs⟩
    · simp at hx
    · obtain ⟨y, hy, hyx, hlook⟩ := lookup_addAll []
        (MerklePatriciaTrie.deletedSet tracer).nodes hx
      rw [← hs] at hlook
      exact ⟨y, hy, hyx, mem_entries_some.mpr ⟨_, hlook⟩⟩

end Collected

namespace MerklePatriciaTrie

variable {t : MerklePatriciaTrie} {T : KeyTree}

theorem commit_collected (hr : Represents E P t T) (collectLeaf : Bool) :
    ∃ set, t.commit E collectLeaf
        = (.ok ⟨rootHash E T, set, t.tracer.oldKeys⟩, { t with tracer := .new }) ∧
      Collected E t.tracer (dirtyNodes t.root T) set := by
  by_cases hnil : t.root = .nil
  · have hT : T = .empty := (hr.loads.nil_iff hr.holds).mp hnil
    have hdirty : dirtyNodes t.root T = [] := by
      rw [hnil]
      rfl
    rw [commit, if_pos (Node.isNil_iff.mpr hnil), hdirty, hT]
    split
    · exact ⟨none, rfl, .inl ⟨rfl, rfl⟩⟩
    · exact ⟨_, rfl, .inr ⟨_, rfl, rfl⟩⟩
  · have hne : T ≠ .empty := mt (hr.loads.nil_iff hr.holds).mpr hnil
    have hcopy : Represents E P t.copy T := ⟨rfl, hr.loads, hr.canonical, hr.holds⟩
    obtain ⟨hroot, -, heq⟩ := hash_represents hcopy
    have hcached : (t.copy.hash E).2.root = (Hasher.hash E t.root).2 := by
      rw [heq]
      rfl
    obtain ⟨-, hload, hall⟩ := hr.loads.hash_spec hr.holds (.inl hr.canonical)
    rw [commit, if_neg (by rwa [Node.isNil_iff])]
    dsimp only
    rw [hroot, hcached, Hasher.dirty_hash]
    cases hd : t.root.cache.2 with
    | false => exact ⟨none, rfl, .inl ⟨rfl, dirtyNodes_of_clean hd T⟩⟩
    | true =>
      obtain ⟨set', hrun, hset⟩ := hload.commit_spec hr.holds t.tracer collectLeaf hr.canonical hne
        hall [] (deletedSet t.tracer)
      rw [hrun]
      rw [dirtyNodes_hash] at hset
      exact ⟨some set', rfl, .inr ⟨set', rfl, hset⟩⟩

/-- **`Commit` returns the root hash and writes the dirty nodes.** -/
theorem commit_represents (hr : Represents E P t T) (collectLeaf : Bool) :
    ∃ set, t.commit E collectLeaf
        = (.ok ⟨rootHash E T, set, t.tracer.oldKeys⟩, { t with tracer := .new }) ∧
      Writes E (dirtyNodes t.root T) set := by
  obtain ⟨set, hcommit, hset⟩ := commit_collected hr collectLeaf
  exact ⟨set, hcommit, hset.writes⟩

end MerklePatriciaTrie

end MetaNode
