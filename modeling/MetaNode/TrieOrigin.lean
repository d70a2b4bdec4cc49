/-
Where the unloaded parts of a trie come from.

Between two commits, every hash that a node carries, cached or as the hash of an
unloaded child, stays at the path where the opened trie had the node with that
hash: splitting and merging runs never moves a subtree to another path.
`Node.Hashes Q pre n` says that all hashes in the node `n`, found at the path
`pre`, satisfy `Q` together with their path.
-/
import MetaNode.TrieReopen

namespace MetaNode

open Patricia Patricia.Tree Function

variable {E : Env} {db : DB} {Q Q' : Path → Bytes → Prop} {n : Node} {pre : Path}

theorem Node.Hashes.mono (h : n.Hashes Q pre) (hQ : ∀ p b, pre <+: p → Q p b → Q' p b) :
    n.Hashes Q' pre := by
  induction n generalizing pre with
  | nil | value => trivial
  | hash b => exact hQ pre b (List.prefix_refl pre) h
  | short k n fl ih =>
    refine ⟨fun b hb => hQ pre b (List.prefix_refl pre) (h.1 b hb), ih h.2 ?_⟩
    intro p b hp
    exact hQ p b ((List.prefix_append pre k).trans hp)
  | full ch fl ih =>
    refine ⟨fun b hb => hQ pre b (List.prefix_refl pre) (h.1 b hb), fun i => ih i (h.2 i) ?_⟩
    intro p b hp
    exact hQ p b ((List.prefix_append pre [i]).trans hp)

/-- Loading the node of an admitted hash gives admitted hashes. -/
def Loading (E : Env) (db : DB) (Q : Path → Bytes → Prop) : Prop :=
  ∀ ⦃h blob : Bytes⦄ ⦃pre : Path⦄ ⦃rn : Node⦄, Q pre h → Loaded E db h pre blob rn →
    rn.Hashes Q pre

variable {key : Path}

theorem Node.hashes_graft (h : n.Hashes Q (pre ++ key)) : (Node.graft key n).Hashes Q pre := by
  rw [Node.graft]
  split
  · next hk =>
    rwa [hk, List.append_nil] at h
  · refine ⟨fun _ hnew => ?_, h⟩
    cases hnew

theorem Node.hashes_update {ch : Nibble → Node} {a : Nibble}
    (hch : ∀ i, i ≠ a → (ch i).Hashes Q (pre ++ [i])) (hn : n.Hashes Q (pre ++ [a])) (i : Nibble) :
    (update ch a n i).Hashes Q (pre ++ [i]) := by
  by_cases hi : i = a
  · subst hi
    rwa [update_self]
  · rw [update_of_ne hi]
    exact hch i hi

/-! ### Insertions -/

variable {p : Path}

/-- A path through `pre ++ [a]` does not lie on the way of a key that goes
through `pre ++ [b]`. -/
theorem off_way {rest : Path} {a b : Nibble} (hab : a ≠ b) (hp : pre ++ [a] <+: p) :
    ¬ p <+: pre ++ b :: rest := by
  intro h
  have hpre := hp.trans h
  rw [List.prefix_append_right_inj, List.cons_prefix_cons] at hpre
  exact hab hpre.1

variable {evs : List Event}

theorem forall_old {fl : NodeFlag} {P : Bytes → Prop} (hold : ∀ h, .old (some h) ∈ evs → P h)
    (hfl : ∀ h, fl.hash = some h → P h) (h : Bytes)
    (hh : .old (some h) ∈ evs ++ [.old fl.hash]) : P h := by
  rcases List.mem_append.mp hh with hh | hh
  · exact hold h hh
  · exact hfl h (by simpa using (List.mem_singleton.mp hh).symm)

/-- **Insertions and hashes.**  The hashes recorded as replaced were on the way
of the key, and after a change all others are off it. -/
theorem InsertRun.hashes (hQ : Loading E db Q) {v : Bytes} {n' : Node} {dirty : Bool}
    (hrun : InsertRun E db v n pre key dirty n' evs) (hn : n.Hashes Q pre) :
    (∀ h, .old (some h) ∈ evs → dirty = true ∧ ∃ p, p <+: pre ++ key ∧ Q p h) ∧ n'.Hashes Q pre ∧
      (dirty = true → n'.Hashes (fun p h => Q p h ∧ ¬ p <+: pre ++ key) pre) := by
  have hreplaced : ∀ {fl : NodeFlag} {pre key : Path}, (∀ h, fl.hash = some h → Q pre h) →
      ∀ h, fl.hash = some h → true = true ∧ ∃ p, p <+: pre ++ key ∧ Q p h :=
    fun hfl h hh => ⟨rfl, _, List.prefix_append _ _, hfl h hh⟩
  induction hrun with
  | same => exact ⟨by simp, trivial, nofun⟩
  | replace => exact ⟨by simp, trivial, fun _ => trivial⟩
  | shortSame _ _ ih =>
    refine ⟨?_, hn, nofun⟩
    intro h hh
    exact absurd ((ih hn.2).1 h hh).1 (by simp)
  | @shortNew k rest pre n nn fl evs hne hrun ih =>
    obtain ⟨hold, hkeep, hoff⟩ := ih hn.2
    rw [List.append_assoc] at hold hoff
    exact ⟨forall_old hold (hreplaced hn.1), ⟨nofun, hkeep⟩, fun _ => ⟨nofun, hoff rfl⟩⟩
  | @fork p as bs pre a b n fl hab =>
    -- the old child moves below the branch, but keeps its path
    have hbelow : n.Hashes Q (pre ++ p ++ [a] ++ as) := by
      simpa [List.append_assoc] using hn.2
    have hbranch : ∀ {R : Path → Bytes → Prop}, n.Hashes R (pre ++ p ++ [a] ++ as) →
        (Node.graft p (Node.fork a (Node.graft as n) b (Node.graft bs (.value v)))).Hashes
          R pre := by
      intro R hR
      have hnil : ∀ i, i ≠ a → Node.nil.Hashes R (pre ++ p ++ [i]) := fun _ _ => trivial
      have hold := Node.hashes_update hnil (Node.hashes_graft hR)
      exact Node.hashes_graft
        ⟨nofun, Node.hashes_update (fun i _ => hold i) (Node.hashes_graft trivial)⟩
    refine ⟨forall_old (fun h hh => ?_) (hreplaced hn.1), hbranch hbelow,
      fun _ => hbranch (hbelow.mono ?_)⟩
    · -- building the branch reports insertions only
      exfalso
      revert hh
      simp only [graftEvents]
      split <;> split <;> split <;> simp
    · intro q h hq hQq
      refine ⟨hQq, ?_⟩
      rw [← List.append_assoc]
      exact off_way hab ((List.prefix_append _ as).trans hq)
  | fullSame _ ih =>
    refine ⟨?_, hn, nofun⟩
    intro h hh
    exact absurd ((ih (hn.2 _)).1 h hh).1 (by simp)
  | @fullNew ch fl a rest pre nn evs hrun ih =>
    obtain ⟨hold, hkeep, hoff⟩ := ih (hn.2 a)
    rw [List.append_assoc, List.singleton_append] at hold hoff
    refine ⟨forall_old hold (hreplaced hn.1),
      ⟨nofun, Node.hashes_update (fun i _ => hn.2 i) hkeep⟩,
      fun _ => ⟨nofun, Node.hashes_update (fun i hi => (hn.2 i).mono ?_) (hoff rfl)⟩⟩
    exact fun q h hq hQq => ⟨hQq, off_way hi hq⟩
  | nil | missing => exact ⟨by simp, ⟨nofun, trivial⟩, fun _ => ⟨nofun, trivial⟩⟩
  | hashSame _ hl _ ih =>
    refine ⟨?_, hQ hn hl, nofun⟩
    intro h hh
    exact absurd ((ih (hQ hn hl)).1 h (by simpa using hh)).1 (by simp)
  | hashNew _ hl _ ih =>
    obtain ⟨hold, hkeep, hoff⟩ := ih (hQ hn hl)
    exact ⟨fun h hh => hold h (by simpa using hh), hkeep, hoff⟩

/-! ### Deletions -/

theorem ResolveRun.hashes (hQ : Loading E db Q) {rn : Node} (hrun : ResolveRun E db n pre rn evs)
    (hn : n.Hashes Q pre) : (∀ h, .old h ∉ evs) ∧ rn.Hashes Q pre := by
  cases hrun with
  | here => exact ⟨by simp, hn⟩
  | hash hl => exact ⟨by simp, hQ hn hl⟩

/-- **Deletions and hashes.**  No hash is recorded as replaced, and all that are
left stay in their places. -/
theorem DeleteRun.hashes (hQ : Loading E db Q) {n' : Node} {dirty : Bool}
    (hrun : DeleteRun E db n pre key dirty n' evs) (hn : n.Hashes Q pre) :
    (∀ h, .old h ∉ evs) ∧ n'.Hashes Q pre := by
  induction hrun with
  | differ => exact ⟨by simp, hn⟩
  | whole => exact ⟨by simp, trivial⟩
  | shortSame _ _ ih => exact ⟨(ih hn.2).1, hn⟩
  | shortMerge _ _ ih =>
    obtain ⟨hold, hkeep⟩ := ih hn.2
    refine ⟨by simpa using hold, nofun, ?_⟩
    rw [← List.append_assoc]
    exact hkeep.2
  | shortNew _ _ _ ih => exact ⟨(ih hn.2).1, nofun, (ih hn.2).2⟩
  | fullSame _ ih => exact ⟨(ih (hn.2 _)).1, hn⟩
  | fullNew _ _ ih | fullMany _ _ ih =>
    obtain ⟨hold, hkeep⟩ := ih (hn.2 _)
    exact ⟨hold, nofun, Node.hashes_update (fun i _ => hn.2 i) hkeep⟩
  | @reduceMerge ch fl cfl a i rest pre ck c evs evs' _ _ _ hr ih =>
    obtain ⟨hold', hc⟩ := hr.hashes hQ (hn.2 i)
    have hold := (ih (hn.2 a)).1
    refine ⟨?_, nofun, ?_⟩
    · intro h
      simp [hold h, hold' h]
    · show Node.Hashes Q (pre ++ ([i] ++ ck)) c
      rw [← List.append_assoc]
      exact hc.2
  | @reduce ch fl a i rest pre c evs evs' _ _ _ hr _ ih =>
    have hold := (ih (hn.2 a)).1
    have hold' := (hr.hashes hQ (hn.2 i)).1
    refine ⟨?_, nofun, hn.2 i⟩
    intro h
    simp [hold h, hold' h]
  | reduceValue _ _ ih => exact ⟨(ih (hn.2 _)).1, nofun, hn.2 16⟩
  | value | nil => exact ⟨by simp, trivial⟩
  | hashSame hl _ ih => exact ⟨by simpa using (ih (hQ hn hl)).1, hQ hn hl⟩
  | hashNew hl _ ih =>
    obtain ⟨hold, hkeep⟩ := ih (hQ hn hl)
    exact ⟨by simpa using hold, hkeep⟩

/-! ### Hashes of a stored tree -/

/-- The tree has a node with this hash at this path. -/
def Stem (E : Env) (T₀ : KeyTree) (p : Path) (h : Bytes) : Prop :=
  ∃ S, NodeAt T₀ p S ∧ h = ref E S

variable {S : KeyTree}

theorem Loaded.eq_loadedNode (hS : OnDisk E db S) {blob : Bytes} {rn : Node}
    (hl : Loaded E db (ref E S) pre blob rn) : rn = loadedNode E S :=
  hl.unique (hS.loaded pre)

theorem hashes_loadedNode {T₀ : KeyTree} (hS : OnDisk E db S) (hat : NodeAt T₀ p S) :
    (loadedNode E S).Hashes (Stem E T₀) p := by
  have hcan := hS.canonical
  cases hcan with
  | empty => exact absurd rfl hS.isNode.ne_empty
  | @leaf w v hw =>
    refine ⟨?_, trivial⟩
    rintro h ⟨⟩
    exact ⟨_, hat, rfl⟩
  | @ext k ch hne hk hc =>
    refine ⟨?_, .full ch, ?_, rfl⟩
    · rintro h ⟨⟩
      exact ⟨_, hat, rfl⟩
    · have hchild : NodeAt (.short k (.full ch)) (k ++ []) (.full ch) :=
        .short (.here (.inr ⟨ch, rfl⟩))
      rw [List.append_nil] at hchild
      exact hat.trans hchild
  | @full ch i j hij hi hj hτ hc =>
    refine ⟨?_, ?_⟩
    · rintro h ⟨⟩
      exact ⟨_, hat, rfl⟩
    · intro x
      show Node.Hashes (Stem E T₀) (p ++ [x])
        (if (ch x).isEmpty then .nil else .hash (ref E (ch x)))
      by_cases hx : ch x = .empty
      · rw [if_pos (Tree.isEmpty_iff.mpr hx)]
        trivial
      · rw [if_neg (mt Tree.isEmpty_iff.mp hx)]
        exact ⟨ch x, hat.trans (.full (.here (hS.child hx).isNode)), rfl⟩

/-- **Loading a node of a stored tree gives hashes of that tree.** -/
theorem loading_stem {T₀ : KeyTree} (hT : OnDisk E db T₀) : Loading E db (Stem E T₀) := by
  rintro h blob pre rn ⟨S, hat, rfl⟩ hl
  rw [hl.eq_loadedNode (hT.sub hat)]
  exact hashes_loadedNode (hT.sub hat) hat

theorem Loading.avoid (hQ : Loading E db Q) (ps : List Path) :
    Loading E db fun p h => Q p h ∧ ∀ r ∈ ps, ¬ p <+: r := by
  rintro h blob pre rn ⟨hq, havoid⟩ hl
  refine (hQ hq hl).mono ?_
  intro p b hp hb
  exact ⟨hb, fun r hr hpr => havoid r hr (hp.trans hpr)⟩

theorem Loading.below (hQ : Loading E db Q) {T : KeyTree} {q : Path} (hT : OnDisk E db T)
    (hq : Q p (ref E T)) (h : NodeAt T q S) : Q (p ++ q) (ref E S) := by
  have hload := hQ hq (hT.loaded p)
  induction h generalizing p with
  | here => rwa [List.append_nil]
  | @short k q c S h ih =>
    rw [← List.append_assoc]
    have hcan := hT.canonical
    have hc : OnDisk E db c := by
      have hchild : NodeAt (.short k c) (k ++ []) c := by
        refine .short (.here ?_)
        cases hcan with
        | leaf => exact absurd h not_nodeAt_leaf
        | ext => exact .inr ⟨_, rfl⟩
      exact hT.sub hchild
    have hq' : Q (p ++ k) (ref E c) := by
      cases hcan with
      | leaf => exact absurd h not_nodeAt_leaf
      | ext => exact hload.2
    exact ih hc hq' (hQ hq' (hc.loaded _))
  | @full ch i q S h ih =>
    rw [← List.singleton_append, ← List.append_assoc]
    have hne : ch i ≠ .empty := by
      intro he
      rw [he] at h
      exact not_nodeAt_empty h
    have hc : OnDisk E db (ch i) :=
      hT.sub (p := [i]) (.full (.here (isNode_of_canonical (h.child_canonical hT.canonical) hne)))
    have hq' : Q (p ++ [i]) (ref E (ch i)) := by
      have hi : Node.Hashes Q (p ++ [i])
          (if (ch i).isEmpty then .nil else .hash (ref E (ch i))) := hload.2 i
      rwa [if_neg (mt Tree.isEmpty_iff.mp hne)] at hi
    exact ih hc hq' (hQ hq' (hc.loaded _))

namespace MerklePatriciaTrie

variable {t : MerklePatriciaTrie} {T₀ : KeyTree}

theorem Fresh.loading (h : Fresh E t T₀) : Loading E t.reader (Stem E T₀) := by
  by_cases hne : T₀ = .empty
  · intro b blob pre rn hstem _
    obtain ⟨S, hat, -⟩ := hstem
    rw [hne] at hat
    exact absurd hat not_nodeAt_empty
  · exact loading_stem (h.onDisk hne)

theorem Fresh.hashes (h : Fresh E t T₀) : t.root.Hashes (Stem E T₀) [] := by
  rw [h.root]
  by_cases hne : T₀ = .empty
  · subst hne
    trivial
  · exact hashes_loadedNode (h.onDisk hne) (.here (h.onDisk hne).isNode)

end MerklePatriciaTrie

end MetaNode
