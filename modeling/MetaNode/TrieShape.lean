/-
The shape of stored tries.

With keys of different lengths, or with nodes missing from the database, a trie
need not hold the map that was put into it.  Its nodes still keep a shape:
runs are not empty, the terminator stands at the end of a run only, and a value
stands at the end of a key only (`Node.Shaped`).  A database keeps the stored
forms of such nodes (`Written`).
-/
import MetaNode.TrieReopen

namespace MetaNode

open Patricia Function

/-! ### Nodes -/

/-- The shape of a node at which a key has not ended yet.  Where a key ends,
a value may stand instead. -/
def Node.Shaped : Node → Prop
  | .nil => True
  | .value _ => False
  | .short k n _ =>
    (Terminated 16 k ∧ (n.Shaped ∨ ∃ v, n = .value v)) ∨ (k ≠ [] ∧ 16 ∉ k ∧ n.Shaped)
  | .full ch _ => (∀ i, i ≠ 16 → (ch i).Shaped) ∧ ((ch 16).Shaped ∨ ∃ v, ch 16 = .value v)
  | .hash _ => True

theorem Node.shaped_nil : Node.nil.Shaped := trivial

theorem Node.shaped_hash (h : Bytes) : (Node.hash h).Shaped := trivial

variable {k : Path} {n : Node}

theorem Node.shaped_leaf (hk : Terminated 16 k) (hn : n.Shaped ∨ ∃ v, n = .value v)
    (fl : NodeFlag) :
    (Node.short k n fl).Shaped :=
  .inl ⟨hk, hn⟩

theorem Node.shaped_ext (hne : k ≠ []) (hk : 16 ∉ k) (hn : n.Shaped) (fl : NodeFlag) :
    (Node.short k n fl).Shaped :=
  .inr ⟨hne, hk, hn⟩

variable {fl : NodeFlag}

theorem Node.Shaped.update {ch : Nibble → Node} (h : (Node.full ch fl).Shaped) {a : Nibble}
    (hn : n.Shaped ∨ a = 16 ∧ ∃ v, n = .value v) (fl' : NodeFlag) :
    (Node.full (update ch a n) fl').Shaped := by
  constructor
  · intro i hi
    by_cases hia : i = a
    · subst hia
      rw [update_self]
      exact hn.resolve_right fun h => hi h.1
    · rw [update_of_ne hia]
      exact h.1 i hi
  · by_cases ha : 16 = a
    · subst ha
      rw [update_self]
      exact hn.imp_right And.right
    · rw [update_of_ne ha]
      exact h.2

/-! ### Stored forms -/

variable (E : Env)

/-- The stored forms of nodes: a leaf with any value, an extension and a full
node with any children. -/
inductive Wrote : Bytes → Prop
  | leaf {w : Path} (hw : 16 ∉ w) (v : Bytes) :
      Wrote (shortMarshal E (hexToCompact (w ++ [16])) v)
  | ext {k : Path} (hne : k ≠ []) (hk : 16 ∉ k) (r : Bytes) :
      Wrote (shortMarshal E (hexToCompact k) r)
  | full (f : Nibble → Bytes) : Wrote (fullMarshal E f)

/-- Every blob in the database is the stored form of a node. -/
def Written (db : DB) : Prop := ∀ h b, db h = some b → Wrote E b

variable {E} {db : DB} {b : Bytes}

theorem Wrote.decode (hb : Wrote E b) (h : Bytes) :
    ∃ rn, decodeNode E h b = .ok rn ∧ rn.Shaped ∧ ∀ h', rn ≠ .hash h' := by
  cases hb with
  | @leaf w hw v =>
    exact ⟨_, decodeNode_shortMarshal E h v hw true,
      Node.shaped_leaf ⟨w, hw, rfl⟩ (.inr ⟨v, rfl⟩) _, by simp⟩
  | @ext k hne hk r =>
    have hdec := decodeNode_shortMarshal E h r hk false
    simp only [Bool.false_eq_true, if_false, List.append_nil] at hdec
    exact ⟨_, hdec, Node.shaped_ext hne hk (Node.shaped_hash r) _, by simp⟩
  | full f =>
    have hchild : ∀ i, (childOfBytes (f i)).Shaped := by
      intro i
      rw [childOfBytes]
      split
      · exact Node.shaped_nil
      · exact Node.shaped_hash _
    exact ⟨_, decodeNode_fullMarshal E h f, ⟨fun i _ => hchild i, .inl (hchild 16)⟩, by simp⟩

variable {pre : Path}

theorem Written.loaded (hdb : Written E db) {h : Bytes} {rn : Node} (hl : Loaded E db h pre b rn) :
    rn.Shaped := by
  obtain ⟨rn', hdec, hrn, -⟩ := (hdb _ _ (DB.eq_of_node hl.1)).decode h
  obtain rfl := Except.ok.inj (hdec.symm.trans hl.2)
  exact hrn

theorem Written.walkable (hdb : Written E db) : Walkable E db Node.Shaped where
  value := fun _ h => h
  short := fun _ _ _ h => h
  child := fun _ _ a h ha => h.1 a ha
  last := fun _ _ h => h.2
  load := fun h _ b _ hnode => (hdb _ b (DB.eq_of_node hnode)).decode h

/-! ### Updates keep the shape -/

variable {key : Path}

theorem Node.shaped_graft_value (v : Bytes) {b : Nibble} (hk : Terminated 16 (b :: key)) :
    (Node.graft key (.value v)).Shaped ∨ b = 16 ∧ ∃ w, Node.graft key (.value v) = .value w := by
  rcases terminated_cons.mp hk with ⟨rfl, rfl⟩ | ⟨-, hk⟩
  · exact .inr ⟨rfl, v, rfl⟩
  · rw [Node.graft, if_neg hk.ne_nil]
    exact .inl (Node.shaped_leaf hk (.inr ⟨v, rfl⟩) _)

theorem Node.Shaped.cut {p as : Path} {a : Nibble} (h : (Node.short (p ++ a :: as) n fl).Shaped) :
    (Node.graft as n).Shaped ∨ a = 16 ∧ ∃ v, Node.graft as n = .value v := by
  rcases h with ⟨hk, hn⟩ | ⟨-, hk, hn⟩
  · rcases terminated_cons.mp (hk.of_append hk.not_mem_left) with ⟨rfl, rfl⟩ | ⟨-, has⟩
    · rw [Node.graft, if_pos rfl]
      exact hn.imp_right (⟨rfl, ·⟩)
    · rw [Node.graft, if_neg has.ne_nil]
      exact .inl (Node.shaped_leaf has hn _)
  · left
    by_cases has : as = []
    · rwa [Node.graft, if_pos has]
    · rw [Node.graft, if_neg has]
      exact Node.shaped_ext has (fun h => hk (by simp [h])) hn _

variable {evs : List Event}

/-- **An insertion keeps the shape.** -/
theorem InsertRun.shaped (hdb : Written E db) {v : Bytes} {n' : Node} {dirty : Bool}
    (hrun : InsertRun E db v n pre key dirty n' evs) :
    (key = [] → n' = .value v) ∧ (n.Shaped → Terminated 16 key → n'.Shaped) := by
  induction hrun with
  | same => exact ⟨fun _ => rfl, fun h => h.elim⟩
  | replace => exact ⟨fun _ => rfl, fun _ hk => absurd rfl hk.ne_nil⟩
  | shortSame hne => exact ⟨fun h => absurd h hne, fun h _ => h⟩
  | shortNew hne _ ih =>
    refine ⟨fun h => absurd h hne, ?_⟩
    rintro (⟨hk, -⟩ | ⟨hkne, hk, hn⟩) hkey
    · exact Node.shaped_leaf hk (.inr ⟨v, ih.1 (hk.eq_nil_of_append hkey)⟩) _
    · exact Node.shaped_ext hkne hk (ih.2 hn (hkey.of_append hk)) _
  | @fork p as bs pre a b n fl hab =>
    refine ⟨by simp, ?_⟩
    intro hn hkey
    have hp := hkey.not_mem_left
    have hempty : (Node.full (fun _ => .nil) newFlag).Shaped := ⟨fun _ _ => trivial, .inl trivial⟩
    have hbranch := (hempty.update hn.cut newFlag).update
      (Node.shaped_graft_value v (hkey.of_append hp)) newFlag
    rw [Node.graft]
    split
    · exact hbranch
    · exact Node.shaped_ext (by assumption) hp hbranch _
  | fullSame => exact ⟨by simp, fun h _ => h⟩
  | fullNew _ ih =>
    refine ⟨by simp, ?_⟩
    intro hn hkey
    refine hn.update ?_ _
    rcases terminated_cons.mp hkey with ⟨rfl, hrest⟩ | ⟨ha, hrest⟩
    · exact .inr ⟨rfl, v, ih.1 hrest⟩
    · exact .inl (ih.2 (hn.1 _ ha) hrest)
  | nil hne | missing hne =>
    exact ⟨fun h => absurd h hne, fun _ hk => Node.shaped_leaf hk (.inr ⟨v, rfl⟩) _⟩
  | hashSame hne hl => exact ⟨fun h => absurd h hne, fun _ _ => hdb.loaded hl⟩
  | hashNew hne hl _ ih => exact ⟨fun h => absurd h hne, fun _ => ih.2 (hdb.loaded hl)⟩

theorem ResolveRun.shaped (hdb : Written E db) {rn : Node} (hrun : ResolveRun E db n pre rn evs)
    (hn : n.Shaped) : rn.Shaped := by
  cases hrun with
  | here => exact hn
  | hash hl => exact hdb.loaded hl

theorem Node.Shaped.prepend {ck : Path} {c : Node} (hne : k ≠ []) (hk : 16 ∉ k)
    (h : (Node.short ck c fl).Shaped) (fl' : NodeFlag) : (Node.short (k ++ ck) c fl').Shaped := by
  rcases h with ⟨hck, hc⟩ | ⟨-, hck, hc⟩
  · exact Node.shaped_leaf (hck.append hk) hc _
  · refine Node.shaped_ext (by simp [hne]) ?_ hc _
    rw [List.mem_append]
    exact fun h => h.elim hk hck

/-- **A deletion keeps the shape.** -/
theorem DeleteRun.shaped (hdb : Written E db) {n' : Node} {dirty : Bool}
    (hrun : DeleteRun E db n pre key dirty n' evs)
    (hn : n.Shaped ∧ (Terminated 16 key ∨ key = []) ∨ ∃ v, n = .value v) : n'.Shaped := by
  -- a key that goes on below a short node has not ended in its run
  have hext : ∀ {k rest : Path} {n : Node} {fl : NodeFlag}, rest ≠ [] →
      (Node.short k n fl).Shaped ∧ (Terminated 16 (k ++ rest) ∨ k ++ rest = []) ∨
        (∃ v, Node.short k n fl = .value v) →
      k ≠ [] ∧ 16 ∉ k ∧ n.Shaped ∧ Terminated 16 rest := by
    rintro k rest n fl hrest (⟨hn, hkey⟩ | ⟨v, hv⟩)
    · have hkey := hkey.resolve_right (by simp [hrest])
      rcases hn with ⟨hk, -⟩ | ⟨hne, hk, hn⟩
      · exact absurd (hk.eq_nil_of_append hkey) hrest
      · exact ⟨hne, hk, hn, hkey.of_append hk⟩
    · simp at hv
  -- the child of a full node that the key goes to
  have hchild : ∀ {ch : Nibble → Node} {fl : NodeFlag} {a : Nibble} {rest : Path},
      (Node.full ch fl).Shaped ∧ (Terminated 16 (a :: rest) ∨ a :: rest = []) ∨
        (∃ v, Node.full ch fl = .value v) →
      (Node.full ch fl).Shaped ∧
        ((ch a).Shaped ∧ (Terminated 16 rest ∨ rest = []) ∨ ∃ v, ch a = .value v) := by
    rintro ch fl a rest (⟨hn, hkey⟩ | ⟨v, hv⟩)
    · refine ⟨hn, ?_⟩
      rcases terminated_cons.mp (hkey.resolve_right (by simp)) with ⟨rfl, hrest⟩ | ⟨ha, hrest⟩
      · exact hn.2.imp_left (⟨·, .inr hrest⟩)
      · exact .inl ⟨hn.1 a ha, .inl hrest⟩
    · simp at hv
  induction hrun with
  | differ | shortSame => exact (hn.resolve_right (by simp)).1
  | whole => trivial
  | shortMerge hne _ ih =>
    obtain ⟨hkne, hk, hn, hrest⟩ := hext hne hn
    exact (ih (.inl ⟨hn, .inl hrest⟩)).prepend hkne hk _
  | shortNew hne _ _ ih =>
    obtain ⟨hkne, hk, hn, hrest⟩ := hext hne hn
    exact Node.shaped_ext hkne hk (ih (.inl ⟨hn, .inl hrest⟩)) _
  | fullSame => exact (hchild hn).1
  | fullNew _ _ ih => exact (hchild hn).1.update (.inl (ih (hchild hn).2)) _
  | fullMany => exact (hchild hn).1.update (.inl Node.shaped_nil) _
  | reduceMerge _ _ h16 hr =>
    have hi := (hchild hn).1.1 _ h16
    exact Node.Shaped.prepend (List.cons_ne_nil _ []) (by simpa using Ne.symm h16)
      (hr.shaped hdb hi) _
  | reduce _ _ h16 =>
    exact Node.shaped_ext (by simp) (by simpa using Ne.symm h16) ((hchild hn).1.1 _ h16) _
  | reduceValue => exact Node.shaped_leaf ⟨[], by simp, rfl⟩ (hchild hn).1.2 _
  | value | nil => trivial
  | hashSame hl => exact hdb.loaded hl
  | hashNew hl _ ih =>
    exact ih (.inl ⟨hdb.loaded hl, (hn.resolve_right (by simp)).2⟩)

/-! ### Commits write stored forms -/

theorem Hasher.shaped_hash :
    (n.Shaped → (Hasher.hash E n).2.Shaped) ∧
      ((∃ v, n = .value v) → ∃ v, (Hasher.hash E n).2 = .value v) := by
  constructor
  case right =>
    rintro ⟨v, rfl⟩
    exact ⟨v, rfl⟩
  induction n with
  | nil | value | hash => exact id
  | short k n fl ih =>
    intro h
    rw [Hasher.hash]
    split
    · exact h
    · rcases h with ⟨hk, hn | ⟨v, rfl⟩⟩ | ⟨hne, hk, hn⟩
      · exact Node.shaped_leaf hk (.inl (ih hn)) _
      · exact Node.shaped_leaf hk (.inr ⟨v, rfl⟩) _
      · exact Node.shaped_ext hne hk (ih hn) _
  | full ch fl ih =>
    intro h
    rw [Hasher.hash]
    split
    · exact h
    · refine ⟨?_, ?_⟩
      · intro i hi
        show (if i = 16 ∨ (ch i).isNil then ch i else (Hasher.hash E (ch i)).2).Shaped
        split
        · exact h.1 i hi
        · exact ih i (h.1 i hi)
      · exact h.2

theorem CommitM.bind_eq_ok {α β : Type} {x : CommitM α} {f : α → CommitM β} {s s'' : NodeSet}
    {b : β} (h : (x >>= f).run s = .ok (b, s'')) :
    ∃ a s', x.run s = .ok (a, s') ∧ (f a).run s' = .ok (b, s'') := by
  rw [StateT.run_bind] at h
  cases hx : x.run s with
  | error =>
    rw [hx] at h
    cases h
  | ok r =>
    rw [hx] at h
    exact ⟨r.1, r.2, rfl, h⟩

/-- Besides deletions, the node set holds stored forms only. -/
def NodeSet.Sound (E : Env) (set : NodeSet) : Prop :=
  ∀ w ∈ entries (some set), w.isDeleted = false → Wrote E w.blob

theorem NodeSet.Sound.addNode {set : NodeSet} (hset : set.Sound E) (path : Path) {n : NodeWrapper}
    (hn : n.isDeleted = false → Wrote E n.blob) : (set.addNode path n).Sound E := by
  intro w hw hdel
  obtain ⟨key, hkey⟩ := mem_entries_some.mp hw
  rw [NodeSet.addNode_nodes] at hkey
  by_cases hk : key = hexEncode path.bytes
  · subst hk
    rw [AList.lookup_insert, Option.some.injEq] at hkey
    subst hkey
    exact hn hdel
  · rw [AList.lookup_insert_ne hk] at hkey
    exact hset w (mem_entries_some.mpr ⟨key, hkey⟩) hdel

theorem NodeSet.sound_deletedSet (tracer : Tracer) :
    (MerklePatriciaTrie.deletedSet tracer).Sound E := by
  intro w hw hdel
  obtain ⟨key, hkey⟩ := mem_entries_some.mp hw
  rw [lookup_deletedSet hkey] at hdel
  exact absurd hdel (by decide)

namespace Committer

variable {tracer : Tracer} {collectLeaf : Bool} {set set' : NodeSet}

theorem store_sound {path : Path} {hash : Option Bytes} {leaf : Option Bytes} {c : Collapsed}
    (hset : set.Sound E) (hb : Wrote E b)
    (h : (store tracer collectLeaf path hash b leaf).run set = .ok (c, set')) : set'.Sound E := by
  cases hash with
  | none =>
    by_cases hp : path ∈ tracer.accessList
    · simp only [store, hp, if_true] at h
      cases h
      exact hset.addNode path (by simp [NodeWrapper.isDeleted, NodeWrapper.newDeleted])
    · simp only [store, hp, if_false] at h
      cases h
      exact hset
  | some hash =>
    have hadd : (set.addNode path ⟨bytesToHash hash, b⟩).Sound E := hset.addNode path fun _ => hb
    cases collectLeaf with
    | false =>
      cases h
      exact hadd
    | true =>
      cases leaf with
      | none | some =>
        cases h
        exact hadd

theorem commitChildren_sound {commit : Nibble → CommitM Collapsed} {ch : Nibble → Node}
    (hcommit : ∀ i, i ≠ 16 → ∀ {set c set'}, set.Sound E →
      (commit i).run set = .ok (c, set') → set'.Sound E) (l : List Nibble) (hl : ∀ i ∈ l, i ≠ 16)
    {kids kids' : Nibble → Bytes} (hset : set.Sound E)
    (h : (commitChildren commit ch l kids).run set = .ok (kids', set')) : set'.Sound E := by
  induction l generalizing kids set with
  | nil =>
    cases h
    exact hset
  | cons i l ih =>
    have hl' : ∀ j ∈ l, j ≠ 16 := fun j hj => hl j (List.mem_cons_of_mem i hj)
    rw [commitChildren] at h
    split at h
    · exact ih hl' hset h
    · exact ih hl' hset h
    · obtain ⟨child, set₁, hrun, h⟩ := CommitM.bind_eq_ok h
      exact ih hl' (hcommit i (hl i List.mem_cons_self) hset hrun) h

/-- **The committer writes stored forms only.** -/
theorem commit_sound (hn : n.Shaped) {path : Path} {c : Collapsed} (hset : set.Sound E)
    (h : (commit E tracer collectLeaf path n).run set = .ok (c, set')) : set'.Sound E := by
  induction n generalizing path set set' c with
  | nil | value => cases h
  | hash =>
    cases h
    exact hset
  | short k n fl ih =>
    have hform : ∀ r, Wrote E (shortMarshal E (hexToCompact k) r) := by
      rcases hn with ⟨⟨w, hw, rfl⟩, -⟩ | ⟨hne, hk, -⟩
      · exact .leaf hw
      · exact .ext hne hk
    unfold commit at h
    split at h
    · cases h
      exact hset
    · dsimp only at h
      split at h
      · -- only a full node below is committed on its own
        obtain ⟨c', set₁, hrun, h⟩ := CommitM.bind_eq_ok h
        refine store_sound (ih ?_ hset hrun) (hform _) h
        rcases hn with ⟨-, hn | ⟨v, hv⟩⟩ | ⟨-, -, hn⟩
        · exact hn
        · simp at hv
        · exact hn
      · exact store_sound hset (hform _) h
  | full ch fl ih =>
    unfold commit at h
    split at h
    · cases h
      exact hset
    · obtain ⟨kids, set₁, hrun, h⟩ := CommitM.bind_eq_ok h
      have hset₁ := commitChildren_sound (fun i hi => ih i (hn.1 i hi)) hexNibbles
        (fun i hi => mem_hexNibbles.mp hi) hset hrun
      exact store_sound hset₁ (.full _) h

end Committer

namespace MerklePatriciaTrie

variable {t : MerklePatriciaTrie}

theorem commit_wrote (hroot : t.root.Shaped) {collectLeaf : Bool} {res : CommitResult}
    (h : (t.commit E collectLeaf).1 = .ok res) {w : NodeWrapper} (hw : w ∈ entries res.nodeSet)
    (hdel : w.isDeleted = false) : Wrote E w.blob := by
  have hhash : (t.copy.hash E).2.root.Shaped := by
    rw [hash]
    split
    · exact hroot
    · exact Hasher.shaped_hash.1 hroot
  unfold commit at h
  dsimp only at h
  split at h
  · split at h
    · cases h
      simp [entries] at hw
    · cases h
      exact NodeSet.sound_deletedSet _ w hw hdel
  · split at h
    · cases h
      simp [entries] at hw
    · split at h
      · next hrun =>
        cases h
        exact Committer.commit_sound hhash (NodeSet.sound_deletedSet _) hrun w hw hdel
      · cases h
      · cases h

/-! ### Persisted tries -/

/-- Updates one after the other, whatever their results. -/
def applyAll (E : Env) (t : MerklePatriciaTrie) (ops : List (Bytes × Bytes)) :
    MerklePatriciaTrie :=
  ops.foldl (fun t op => (t.update E op.1 op.2).2) t

/-- Opens a trie, updates and commits it, and stores what was written: the new
root and the new database. -/
def persist (E : Env) (db : DB) (root : Hash) (isHash : Bool) (r : Round) :
    Except Fault (Hash × DB) :=
  match new E db root isHash with
  | .error e => .error e
  | .ok t =>
    match ((t.applyAll E r.ops).commit E r.collectLeaf).1 with
    | .error e => .error e
    | .ok res => .ok (res.hash, storeAll db (r.order (entries res.nodeSet)))

end MerklePatriciaTrie

open MerklePatriciaTrie

/-- `root` was returned by a commit, and `db` is a database to which all was
written, though blobs may have been lost at any time. -/
inductive Persisted (E : Env) : DB → Hash → Prop
  | empty : Persisted E (fun _ => none) emptyRootHash
  | round {db db' : DB} {root root' : Hash} {isHash : Bool} {r : Round} (h : Persisted E db root)
      (hr : persist E db root isHash r = .ok (root', db')) : Persisted E db' root'
  | lose {db db' : DB} {root : Hash} (h : Persisted E db root)
      (hdb : ∀ k, db' k = db k ∨ db' k = none) : Persisted E db' root

namespace MerklePatriciaTrie

variable {t : MerklePatriciaTrie}

/-- A trie of shaped nodes over a database of stored forms. -/
structure WellShaped (E : Env) (t : MerklePatriciaTrie) : Prop where
  written : Written E t.reader
  uncommitted : t.committed = false
  root : t.root.Shaped

theorem new_wellShaped (hdb : Written E db) {root : Hash} {isHash : Bool}
    (h : new E db root isHash = .ok t) :
    WellShaped E t ∧ t.reader = db ∧ t.isHash = isHash := by
  rw [new] at h
  split at h
  · split at h
    · next hload =>
      cases h
      obtain ⟨b, hl, -⟩ := resolveAndTrack_eq_ok hload
      exact ⟨⟨hdb, rfl, hdb.loaded hl⟩, rfl, rfl⟩
    · cases h
  · cases h
    exact ⟨⟨hdb, rfl, trivial⟩, rfl, rfl⟩

/-- **An update keeps the shape**, also when it fails. -/
theorem update_wellShaped (h : WellShaped E t) (key value : Bytes) :
    WellShaped E (t.update E key value).2 ∧ (t.update E key value).2.reader = t.reader ∧
      (t.update E key value).2.isHash = t.isHash := by
  have hk := terminated_hexKey (E := E) t.isHash key
  by_cases hv : value = []
  · subst hv
    rw [update, if_neg (by simp [h.uncommitted]), updateKey, if_neg (by simp)]
    generalize hrun : Node.delete E t.reader _ t.root [] _ t.tracer = r
    obtain ⟨e | ⟨dirty, n⟩, tr⟩ := r
    · exact ⟨⟨h.written, h.uncommitted, h.root⟩, rfl, rfl⟩
    · obtain ⟨evs, -, hdel⟩ := Node.delete_sound _ _ _ _ _ _ _ _ hrun
      exact ⟨⟨h.written, h.uncommitted, hdel.shaped h.written (.inl ⟨h.root, .inl hk⟩)⟩, rfl, rfl⟩
  · obtain ⟨n', evs, hupd, hrun⟩ :=
      update_insert_run h.written.walkable h.root h.uncommitted key hv
    rw [hupd]
    rcases hrun with ⟨-, dirty, hins⟩ | ⟨hnil, -⟩
    · exact ⟨⟨h.written, h.uncommitted, (hins.shaped h.written).2 h.root hk⟩, rfl, rfl⟩
    · exact absurd hnil hv

theorem applyAll_wellShaped (h : WellShaped E t) (ops : List (Bytes × Bytes)) :
    WellShaped E (t.applyAll E ops) ∧ (t.applyAll E ops).reader = t.reader ∧
      (t.applyAll E ops).isHash = t.isHash := by
  induction ops generalizing t with
  | nil => exact ⟨h, rfl, rfl⟩
  | cons op ops ih =>
    obtain ⟨h', hdb, hflag⟩ := update_wellShaped h op.1 op.2
    obtain ⟨hall, hdb', hflag'⟩ := ih h'
    exact ⟨hall, hdb'.trans hdb, hflag'.trans hflag⟩

end MerklePatriciaTrie

theorem Written.storeAll {l : List NodeWrapper} (hdb : Written E db)
    (hl : ∀ w ∈ l, w.isDeleted = false → Wrote E w.blob) : Written E (storeAll db l) := by
  induction l generalizing db with
  | nil => exact hdb
  | cons w l ih =>
    refine ih ?_ fun w' hw' => hl w' (List.mem_cons_of_mem w hw')
    dsimp only
    split
    · exact hdb
    · next hdel =>
      intro k b hk
      by_cases hkw : k = w.hash
      · subst hkw
        rw [update_self, Option.some.injEq] at hk
        exact hk ▸ hl w List.mem_cons_self (by simpa using hdel)
      · rw [update_of_ne hkw] at hk
        exact hdb k b hk

/-- **A persisted database keeps stored forms only**, whatever was done to the
trie and whatever was lost. -/
theorem Persisted.written {root : Hash} (h : Persisted E db root) : Written E db := by
  induction h with
  | empty => exact nofun
  | @round db db' root root' isHash r _ hr ih =>
    rw [persist] at hr
    split at hr
    · cases hr
    · next t hnew =>
      split at hr
      · cases hr
      · next res hres =>
        cases hr
        obtain ⟨hall, -⟩ := applyAll_wellShaped (new_wellShaped ih hnew).1 r.ops
        exact ih.storeAll fun w hw =>
          commit_wrote hall.root hres ((r.perm _).mem_iff.mp hw)
  | lose _ hdb ih =>
    intro k b hk
    rcases hdb k with heq | hnone
    · exact ih k b (heq ▸ hk)
    · simp [hnone] at hk

end MetaNode
