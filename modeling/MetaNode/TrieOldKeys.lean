/-
The hashes of replaced nodes.

`Commit` returns in `oldKeys` the hashes of the stored nodes that insertions
replaced.  They are hashes of nodes at their paths; the same hash can be needed
again, because an update was taken back or because the same subtree is stored
at another path as well (`MerklePatriciaTrie.oldKeys_reused`).

`MerklePatriciaTrie.oldKeys_safe` — the hashes in `oldKeys` belong to nodes of the
trie that was opened; if no two of its nodes have the same hash, those of them
that the new root needs are written by the commit, so that the new root can be
read after deleting all `oldKeys` and then storing the node set.
-/
import MetaNode.TrieOrigin

namespace MetaNode

open Patricia Patricia.Tree

variable {E : Env} {P : KeyTree → Prop} {db : DB} {Q : Path → Bytes → Prop}

/-! ### Nodes and their encodings -/

theorem Loads.nodeAt_of_mem_encodings {n : Node} {T : KeyTree} (hn : Loads E Unwritten n T)
    (hT : Canonical 16 T) {e : Bytes} (he : e ∈ n.encodings E) :
    ∃ p S, NodeAt T p S ∧ e = hashEnc E S := by
  rw [hn.encodings_eq hT] at he
  obtain ⟨⟨p, S⟩, hmem, rfl⟩ := List.mem_map.mp he
  exact ⟨p, S, (mem_nodes hT).mp hmem, rfl⟩

theorem Loads.path_unique {n : Node} {T : KeyTree} (hn : Loads E Unwritten n T)
    (hT : Canonical 16 T) (hnd : ((n.encodings E).map E.keccak256).Nodup) {p p' : Path}
    {S S' : KeyTree} (h : NodeAt T p S) (h' : NodeAt T p' S') (he : hashOf E S = hashOf E S') :
    p = p' := by
  rw [hn.encodings_eq hT, List.map_map] at hnd
  have hpair : (p, S) = (p', S') :=
    List.inj_on_of_nodup_map hnd ((mem_nodes hT).mpr h) ((mem_nodes hT).mpr h') he
  exact congrArg Prod.fst hpair

theorem nodeAt_dirty_or_hash (hQ : Loading E db Q) {n : Node} {T : KeyTree}
    (hn : Loads E (OnDisk E db) n T) (hT : Canonical 16 T) {pre : Path} (hh : n.Hashes Q pre)
    {p : Path} {S : KeyTree} (h : NodeAt T p S) :
    (p, S) ∈ dirtyNodes n T ∨ OnDisk E db S ∧ Q (pre ++ p) (ref E S) :=
  nodeAt_dirty_or hn hT (fun hdisk hq h => ⟨hdisk.sub h, hQ.below hdisk hq h⟩) hh h

/-! ### The hashes recorded by a sequence of updates -/

theorem Tracer.mem_oldKeys_recordAll {tr : Tracer} {evs : List Event} {h : Option Bytes} :
    h ∈ (tr.recordAll evs).oldKeys ↔ h ∈ tr.oldKeys ∨ .old h ∈ evs := by
  induction evs generalizing tr with
  | nil => simp
  | cons e evs ih =>
    rw [Tracer.recordAll_cons, ih]
    cases e with
    | read => simp [Tracer.record, Tracer.onRead]
    | ins | del => simp [Tracer.record]
    | old b =>
      simp [Tracer.record, Tracer.addOldKey]
      tauto

namespace MerklePatriciaTrie

variable {t : MerklePatriciaTrie} {T T₀ : KeyTree}

/-- The hashes recorded so far are those of nodes of `T₀` on the ways of some
keys, and no hash that is left in the trie lies on one of these ways. -/
def Replaced (E : Env) (T₀ : KeyTree) (t : MerklePatriciaTrie) : Prop :=
  ∃ keys : List Path,
    t.root.Hashes (fun p h => Stem E T₀ p h ∧ ∀ key ∈ keys, ¬ p <+: key) [] ∧
    ∀ h, some h ∈ t.tracer.oldKeys → ∃ key ∈ keys, ∃ p, p <+: key ∧ Stem E T₀ p h

theorem Fresh.replaced (h : Fresh E t T₀) : Replaced E T₀ t := by
  refine ⟨[], h.hashes.mono fun p b _ hb => ⟨hb, by simp⟩, ?_⟩
  intro b hb
  rw [h.tracer] at hb
  split at hb
  · simp [Tracer.new] at hb
  · simp [Tracer.new, Tracer.record, Tracer.onRead] at hb

theorem update_replaced (hr : Represents E (OnDisk E t.reader) t T)
    (hQ : Loading E t.reader (Stem E T₀)) (h : Replaced E T₀ t) (key value : Bytes) :
    Replaced E T₀ (t.update E key value).2 := by
  obtain ⟨keys, hhash, hold⟩ := h
  obtain ⟨n', evs, hupd, hrun, -⟩ := update_represents hr key value
  rw [hupd]
  rcases hrun with ⟨-, dirty, hrun⟩ | ⟨-, dirty, hrun⟩
  · obtain ⟨hrec, hkeep, hoff⟩ := hrun.hashes (hQ.avoid keys) hhash
    cases dirty with
    | false =>
      refine ⟨keys, hkeep, ?_⟩
      intro b hb
      rcases Tracer.mem_oldKeys_recordAll.mp hb with hb | hb
      · exact hold b hb
      · exact absurd (hrec b hb).1 (by simp)
    | true =>
      -- the way of the key joins the ways that hold no hash any more
      refine ⟨hexKey E t.isHash key :: keys, (hoff rfl).mono ?_, ?_⟩
      · rintro p b - ⟨⟨hstem, havoid⟩, hne⟩
        refine ⟨hstem, ?_⟩
        intro key' hkey'
        rcases List.mem_cons.mp hkey' with rfl | hkey'
        · exact hne
        · exact havoid key' hkey'
      · intro b hb
        rcases Tracer.mem_oldKeys_recordAll.mp hb with hb | hb
        · obtain ⟨key', hkey', hp⟩ := hold b hb
          exact ⟨key', List.mem_cons_of_mem _ hkey', hp⟩
        · obtain ⟨-, p, hp, hstem, -⟩ := hrec b hb
          exact ⟨_, List.mem_cons_self, p, hp, hstem⟩
  · obtain ⟨hnone, hkeep⟩ := hrun.hashes (hQ.avoid keys) hhash
    refine ⟨keys, hkeep, ?_⟩
    intro b hb
    rcases Tracer.mem_oldKeys_recordAll.mp hb with hb | hb
    · exact hold b hb
    · exact absurd hb (hnone _)

theorem updateAll_replaced (hr : Represents E (OnDisk E t.reader) t T)
    (hQ : Loading E t.reader (Stem E T₀)) (h : Replaced E T₀ t) (ops : List (Bytes × Bytes)) :
    Replaced E T₀ (t.updateAll E ops).2 := by
  induction ops generalizing t T with
  | nil => exact h
  | cons op ops ih =>
    have hstep := update_replaced hr hQ h op.1 op.2
    obtain ⟨n', evs, hupd, -, hr'⟩ := update_represents hr op.1 op.2
    rw [hupd] at hstep
    rw [updateAll, hupd]
    exact ih hr' hQ hstep

/-! ### Deleting the replaced nodes -/

/-- Deletes the blobs stored under the given keys. -/
def deleteAll (db : DB) (keys : List (Option Bytes)) : DB :=
  fun h => if some h.1 ∈ keys then none else db h

/-- **What may be deleted after a commit.** -/
theorem oldKeys_safe (E : Env) (db : DB) (isHash : Bool) (len : ℕ) (rs : List Round) (r : Round)
    (hlen : ∀ op ∈ allOps rs ++ r.ops, op.1.length = len)
    (hK : ∀ m ∈ (emptyTrie db isHash).memoryStates E rs, Ideal E.keccak256 (m.root.encodings E))
    (hK' : Ideal E.keccak256 ((memoryTrie E db isHash (allOps rs ++ r.ops)).root.encodings E)) :
    ∃ t t' res, (emptyTrie db isHash).reopen E rs = .ok t ∧ t.updateAll E r.ops = (.ok (), t') ∧
      (t'.commit E r.collectLeaf).1 = .ok res ∧
      (∀ h, some h ∈ res.oldKeys →
        ∃ e ∈ (memoryTrie E db isHash (allOps rs)).root.encodings E, h = (E.keccak256 e).1) ∧
      ((((memoryTrie E db isHash (allOps rs)).root.encodings E).map E.keccak256).Nodup →
        (∀ e ∈ (memoryTrie E db isHash (allOps rs ++ r.ops)).root.encodings E,
          some (E.keccak256 e).1 ∈ res.oldKeys →
            ∃ w ∈ entries res.nodeSet, w.isDeleted = false ∧ w.hash = E.keccak256 e) ∧
        ∃ t'', new E (storeAll (deleteAll t'.reader res.oldKeys) (r.order (entries res.nodeSet)))
            res.hash isHash = .ok t'' ∧
          ∀ key, (t''.get E key).1 = (t'.get E key).1) := by
  obtain ⟨t, t', T₀, T', hre, hupd, hfresh, hm₀, hr', hm, hdb, hflag, hu'⟩ :=
    reopen_updateAll E db isHash hlen hK
  obtain ⟨keys, hhash, hold⟩ :=
    updateAll_replaced hfresh.represents hfresh.loading hfresh.replaced r.ops
  rw [hupd] at hhash hold
  obtain ⟨set, hcommit, hw⟩ := commit_represents hr' r.collectLeaf
  refine ⟨t, t', _, hre, hupd, by rw [hcommit], ?_, ?_⟩
  · intro h hh
    obtain ⟨key, -, p, -, S, hat, rfl⟩ := hold h hh
    exact ⟨_, hm₀.loads.mem_encodings hm₀.canonical hat, hat.isNode.ref_eq E⟩
  · intro hnd
    -- an unwritten node of the new tree has none of the recorded hashes
    have hrest : ∀ {p S}, NodeAt T' p S → (p, S) ∈ dirtyNodes t'.root T' ∨
        OnDisk E t.reader S ∧ some (hashOf E S).1 ∉ t'.tracer.oldKeys := by
      intro p S hat
      rcases nodeAt_dirty_or_hash (hfresh.loading.avoid keys) hr'.loads hr'.canonical hhash hat with
        hdirty | ⟨hdisk, ⟨R, hR, href⟩, havoid⟩
      · exact .inl hdirty
      · refine .inr ⟨hdisk, fun hmem => ?_⟩
        obtain ⟨key, hkey, q, hq, R', hR', href'⟩ := hold _ hmem
        rw [hat.isNode.ref_eq, hR.isNode.ref_eq] at href
        rw [hR'.isNode.ref_eq] at href'
        have hsame : hashOf E R = hashOf E R' :=
          (Subtype.ext href).symm.trans (Subtype.ext href')
        obtain rfl := hm₀.loads.path_unique hm₀.canonical hnd hR hR' hsame
        exact havoid key hkey hq
    refine ⟨?_, ?_⟩
    · intro e he hmem
      obtain ⟨p, S, hat, rfl⟩ := hm.loads.nodeAt_of_mem_encodings hm.canonical he
      rcases hrest hat with hdirty | ⟨-, hnot⟩
      · obtain ⟨⟨q, R⟩, hR, hq, hentry⟩ := hw.all (p, S) hdirty
        obtain rfl : q = p := hq
        obtain rfl := (dirtyNodes_nodeAt hr'.loads hR).unique hr'.canonical hat
        exact ⟨_, hentry, wrapper_not_deleted hat.isNode, rfl⟩
      · exact absurd hmem hnot
    · -- so the writes after the deletions put the whole new tree on the disk
      have hmem : ∀ {p S}, NodeAt T' p S → hashEnc E S ∈ _ :=
        fun hat => hm.loads.mem_encodings hm.canonical hat
      have havailable : Available E (storeAll (deleteAll t'.reader t'.tracer.oldKeys)
          (r.order (entries set))) T' := by
        refine available_storeAll hr'.loads hr'.canonical (noLast_of_uniform hr'.canonical hu')
          hmem hK' hw (r.perm _) fun h => (hrest h).imp_right ?_
        rintro ⟨hS, hnot⟩
        rw [deleteAll, if_neg hnot, hdb]
        exact (hS.entry [] _ (.here hS.isNode)).1
      obtain ⟨t'', hnew, hh'', -, hfresh''⟩ := havailable.new isHash
      refine ⟨t'', hnew, fun key => ?_⟩
      obtain ⟨_, hget, -⟩ := get_represents hr' key
      obtain ⟨_, hget', -⟩ := get_represents hfresh''.represents key
      rw [hget, hget', hh'', hflag]

/-- A branch is stored, and then one of its two values is replaced. -/
theorem oldKeys_safe_branch :
    ∃ t t' res, (emptyTrie (fun _ => none) false).reopen stdEnv [twoKeys] = .ok t ∧
      t.updateAll stdEnv [([0x12], [12])] = (.ok (), t') ∧ (t'.commit stdEnv false).1 = .ok res ∧
      ∃ t'', new stdEnv (storeAll (deleteAll t'.reader res.oldKeys) (entries res.nodeSet))
          res.hash false = .ok t'' ∧
        ∀ key, (t''.get stdEnv key).1 = (t'.get stdEnv key).1 := by
  obtain ⟨t, t', res, hre, hupd, hcommit, -, hsafe⟩ := oldKeys_safe stdEnv (fun _ => none) false 1
    [twoKeys] ⟨[([0x12], [12])], false, id, fun _ => .refl _⟩ (by decide)
    (by decide +kernel) (by decide +kernel)
  exact ⟨t, t', res, hre, hupd, hcommit, (hsafe (by decide +kernel)).2⟩

/-- The result of replacing a stored value and putting it back. -/
def putBack : Except Fault CommitResult :=
  match (emptyTrie (fun _ => none) false).reopen stdEnv
      [⟨[([0x12], [10])], false, id, List.Perm.refl⟩] with
  | .error e => .error e
  | .ok t => ((t.updateAll stdEnv [([0x12], [11]), ([0x12], [10])]).2.commit stdEnv false).1

/-- An update that is taken back: the root itself is among the replaced nodes,
and deleting them after storing the node set leaves no root. -/
theorem oldKeys_reused : ∃ res, putBack = .ok res ∧ some res.hash.1 ∈ res.oldKeys ∧
    (new stdEnv (deleteAll (storeAll (fun _ => none) (entries res.nodeSet)) res.oldKeys)
      res.hash false).toOption.isNone = true :=
  ⟨putBack.toOption.getD ⟨emptyRootHash, none, []⟩, eq_ok_getD (by decide +kernel) _,
    by decide +kernel⟩

end MerklePatriciaTrie

end MetaNode
