/-
Updates on a trie with missing nodes.

`insert` does not report a node that is missing from the database: it puts a new
leaf in its place.  `Blocked E db n pre key` says that the way along `key` leads
to such a node.
-/
import MetaNode.TrieShape

namespace MetaNode

open Patricia Function

variable (E : Env) (db : DB)

/-- The way along `key` from a node at `pre` leads to a node that is missing
from the database.  No node is needed where the key has ended. -/
inductive Blocked : Node → Path → Path → Prop
  | missing {h : Bytes} {pre key : Path} {e : Fault} (hne : key ≠ [])
      (he : db.node pre (bytesToHash h) = .error e) : Blocked (.hash h) pre key
  | short {k rest pre : Path} {n : Node} {fl : NodeFlag} (hn : Blocked n (pre ++ k) rest) :
      Blocked (.short k n fl) pre (k ++ rest)
  | full {ch : Nibble → Node} {fl : NodeFlag} {a : Nibble} {rest pre : Path}
      (hn : Blocked (ch a) (pre ++ [a]) rest) : Blocked (.full ch fl) pre (a :: rest)
  | hash {h b : Bytes} {pre key : Path} {rn : Node} (hl : Loaded E db h pre b rn)
      (hn : Blocked rn pre key) : Blocked (.hash h) pre key

variable {E db} {pre : Path}

theorem Loaded.not_missing {h b : Bytes} {rn : Node} {e : Fault} (hl : Loaded E db h pre b rn) :
    db.node pre (bytesToHash h) ≠ .error e := by
  rw [hl.1]
  simp

variable {n : Node} {rest : Path} {o : Except Fault (Option Bytes)} {evs : List Event}

theorem GetRun.unique {o' : Except Fault (Option Bytes)} {evs' : List Event}
    (hrun : GetRun E db n pre rest o evs) (hrun' : GetRun E db n pre rest o' evs') : o = o' := by
  induction hrun generalizing o' evs' with
  | nil | value =>
    cases hrun'
    rfl
  | differ hk =>
    cases hrun' with
    | differ => rfl
    | short => exact absurd (List.prefix_append _ _) hk
  | @short k n fl pre rest o evs hn ih =>
    generalize hkey : k ++ rest = key at hrun'
    cases hrun' with
    | differ hk => exact absurd ⟨rest, hkey⟩ hk
    | short hn' =>
      obtain rfl := List.append_cancel_left hkey
      exact ih hn'
  | full _ ih =>
    cases hrun' with
    | full hn' => exact ih hn'
  | fullEnd =>
    cases hrun'
    rfl
  | missing he =>
    cases hrun' with
    | missing he' => exact congrArg _ (Except.error.inj (he.symm.trans he'))
    | hash hl => exact absurd he hl.not_missing
  | hash hl _ ih =>
    cases hrun' with
    | missing he => exact absurd he hl.not_missing
    | hash hl' hn' =>
      obtain rfl := hl.unique hl'
      exact ih hn'

/-! ### An insertion is local -/

variable {key : Path}

theorem GetRun.graft (hrun : GetRun E db n (pre ++ key) rest o evs) :
    GetRun E db (Node.graft key n) pre (key ++ rest) o evs := by
  rw [Node.graft]
  split
  · next hkey =>
    subst hkey
    rwa [List.append_nil] at hrun
  · exact .short hrun

theorem GetRun.graft_differ (n : Node) (h : ¬ key <+: rest) :
    GetRun E db (Node.graft key n) pre rest (.ok none) [] := by
  rw [Node.graft, if_neg]
  · exact .differ h
  · rintro rfl
    exact h List.nil_prefix

/-- Reading in the branch that an insertion of `b :: bs` makes of the run
`a :: as` in front of `n`. -/
theorem GetRun.fork {fl : NodeFlag} {a b : Nibble} {as bs : Path} {v : Bytes} (hab : a ≠ b)
    (hne : rest ≠ []) (hbs : ¬ b :: bs <+: rest)
    (hrun : GetRun E db (.short (a :: as) n fl) pre rest o evs) :
    GetRun E db (Node.fork a (Node.graft as n) b (Node.graft bs (.value v))) pre rest o evs := by
  have hold : ∀ {rest o evs}, GetRun E db (Node.graft as n) (pre ++ [a]) rest o evs →
      GetRun E db (Node.fork a (Node.graft as n) b (Node.graft bs (.value v))) pre (a :: rest)
        o evs := by
    intro rest o evs h
    refine .full ?_
    rwa [update_of_ne hab, update_self]
  cases hrun with
  | short =>
    refine hold (GetRun.graft ?_)
    rwa [List.append_assoc]
  | differ hk =>
    obtain ⟨c, cs, rfl⟩ := List.exists_cons_of_ne_nil hne
    by_cases hca : c = a
    · subst hca
      rw [List.cons_prefix_cons] at hk
      exact hold (GetRun.graft_differ n fun h => hk ⟨rfl, h⟩)
    · refine .full ?_
      by_cases hcb : c = b
      · subst hcb
        rw [List.cons_prefix_cons] at hbs
        rw [update_self]
        exact GetRun.graft_differ _ fun h => hbs ⟨rfl, h⟩
      · rw [update_of_ne hcb, update_of_ne hca]
        exact .nil

/-- **An insertion whose way is not blocked changes no other key.** -/
theorem InsertRun.get_other {v : Bytes} {n' : Node} {key' : Path} {dirty : Bool} {evs₁ : List Event}
    (hrun : InsertRun E db v n pre key dirty n' evs) (hfree : ¬ Blocked E db n pre key)
    (hkk' : ¬ key <+: key') (hk'k : ¬ key' <+: key) (hget : GetRun E db n pre key' o evs₁) :
    ∃ evs₂, GetRun E db n' pre key' o evs₂ := by
  induction hrun generalizing key' evs₁ with
  | same | replace => exact absurd List.nil_prefix hkk'
  | shortSame => exact ⟨_, hget⟩
  | shortNew _ _ ih =>
    cases hget with
    | differ hk => exact ⟨_, .differ hk⟩
    | short hn =>
      rw [List.prefix_append_right_inj] at hkk' hk'k
      obtain ⟨evs₂, hn'⟩ := ih (fun h => hfree (.short h)) hkk' hk'k hn
      exact ⟨evs₂, .short hn'⟩
  | @fork p as bs pre a b n fl hab =>
    by_cases hp : p <+: key'
    · -- the other key goes through the run before the branch
      obtain ⟨rest, rfl⟩ := hp
      rw [List.prefix_append_right_inj] at hkk' hk'k
      have hrest : rest ≠ [] := by
        rintro rfl
        exact hk'k List.nil_prefix
      have hbelow : GetRun E db (.short (a :: as) n fl) (pre ++ p) rest o evs₁ := by
        generalize hk : p ++ a :: as = k at hget
        generalize hkey : p ++ rest = key at hget
        cases hget with
        | differ hd =>
          subst hk hkey
          rw [List.prefix_append_right_inj] at hd
          exact .differ hd
        | short hn =>
          subst hk
          rw [List.append_assoc, List.append_cancel_left_eq] at hkey
          subst hkey
          rw [← List.append_assoc] at hn
          exact .short hn
      exact ⟨_, GetRun.graft (hbelow.fork hab hrest hkk')⟩
    · -- it leaves the run earlier: not found before, not found now
      have hd : ¬ p ++ a :: as <+: key' := fun h => hp ((List.prefix_append p _).trans h)
      have ho : o = .ok none := hget.unique (.differ hd)
      subst ho
      exact ⟨_, GetRun.graft_differ _ hp⟩
  | fullSame => exact ⟨_, hget⟩
  | @fullNew ch fl a rest pre nn evs _ ih =>
    cases hget with
    | fullEnd => exact absurd List.nil_prefix hk'k
    | @full _ _ a' _ rest' _ _ hn =>
      by_cases ha : a' = a
      · subst ha
        rw [List.cons_prefix_cons] at hkk' hk'k
        obtain ⟨evs₂, hn'⟩ := ih (fun h => hfree (.full h)) (fun h => hkk' ⟨rfl, h⟩)
          (fun h => hk'k ⟨rfl, h⟩) hn
        refine ⟨evs₂, .full ?_⟩
        rwa [update_self]
      · refine ⟨evs₁, .full ?_⟩
        rwa [update_of_ne ha]
  | nil =>
    cases hget with
    | nil => exact ⟨_, .differ hkk'⟩
  -- this is the case that loses other keys, and it is ruled out
  | missing hne he => exact absurd (.missing hne he) hfree
  | hashSame _ hl _ _ =>
    cases hget with
    | missing he => exact absurd he hl.not_missing
    | hash hl' hn =>
      obtain rfl := hl.unique hl'
      exact ⟨_, hn⟩
  | hashNew _ hl _ ih =>
    cases hget with
    | missing he => exact absurd he hl.not_missing
    | hash hl' hn =>
      obtain rfl := hl.unique hl'
      exact ih (fun h => hfree (.hash hl h)) hkk' hk'k hn

/-! ### Update -/

namespace MerklePatriciaTrie

variable {t : MerklePatriciaTrie}

theorem update_ok (h : WellShaped E t) (key : Bytes) {value : Bytes} (hv : value ≠ []) :
    (t.update E key value).1 = .ok () := by
  obtain ⟨n', evs, hupd, -⟩ := update_insert_run h.written.walkable h.root h.uncommitted key hv
  rw [hupd]

theorem get_update_of_not_blocked (h : WellShaped E t) (key key' : Bytes) {value : Bytes}
    (hv : value ≠ [])
    (hfree : ¬ Blocked E t.reader t.root [] (hexKey E t.isHash key))
    (hne : hashKey E t.isHash key' ≠ hashKey E t.isHash key) :
    ((t.update E key value).2.get E key').1 = (t.get E key').1 := by
  have hk := terminated_hexKey (E := E) t.isHash key
  have hk' := terminated_hexKey (E := E) t.isHash key'
  have hne' : hexKey E t.isHash key' ≠ hexKey E t.isHash key := mt hexKey_eq_iff.mp hne
  obtain ⟨n', evs, hupd, hrun⟩ := update_insert_run h.written.walkable h.root h.uncommitted key hv
  obtain ⟨h', -, -⟩ := update_wellShaped h key value
  rw [hupd] at h'
  rcases hrun with ⟨-, dirty, hins⟩ | ⟨hnil, -⟩
  · obtain ⟨o, evs₁, hget, hrel⟩ := get_run h.written.walkable h.root h.uncommitted key'
    obtain ⟨o', evs₂, hget', hrel'⟩ := get_run h'.written.walkable h'.root h'.uncommitted key'
    obtain ⟨evs₃, hrel₃⟩ := hins.get_other hfree
      (fun h => hne' (hk.eq_of_isPrefix hk' h).symm) (fun h => hne' (hk'.eq_of_isPrefix hk h)) hrel
    obtain rfl := hrel₃.unique hrel'
    rw [hupd, hget, hget']
  · exact absurd hnil hv

/-- **When `Update` is safe over a database with missing nodes.**  Its way being
blocked is reported, and the outcomes of `Get` on all other keys stay, exactly
when its way is not blocked. -/
theorem update_safe_iff {root : Hash} (hp : Persisted E db root) {isHash : Bool}
    (hnew : new E db root isHash = .ok t) (key : Bytes) {value : Bytes} (hv : value ≠ []) :
    ((Blocked E db t.root [] (hexKey E isHash key) → ∃ e, (t.update E key value).1 = .error e) ∧
      ∀ key', hashKey E isHash key' ≠ hashKey E isHash key →
        ((t.update E key value).2.get E key').1.toOption = (t.get E key').1.toOption) ↔
    ¬ Blocked E db t.root [] (hexKey E isHash key) := by
  obtain ⟨hw, rfl, rfl⟩ := new_wellShaped hp.written hnew
  constructor
  · rintro ⟨hreport, -⟩ hblocked
    obtain ⟨e, he⟩ := hreport hblocked
    rw [update_ok hw key hv] at he
    cases he
  · intro hfree
    refine ⟨fun hblocked => absurd hblocked hfree, ?_⟩
    intro key' hne
    rw [get_update_of_not_blocked hw key key' hv hfree hne]

/-! ### A store that lost a node -/

/-- A branch with two leaves below an extension. -/
def twoKeysStored : Hash × DB :=
  (persist stdEnv (fun _ => none) emptyRootHash false twoKeys).toOption.getD
    (emptyRootHash, fun _ => none)

/-- The branch and the leaves are lost, the root is left. -/
def rootOnly : DB := fun h => if h = twoKeysStored.1 then twoKeysStored.2 h else none

def rootOnlyTrie : MerklePatriciaTrie :=
  (new stdEnv rootOnly twoKeysStored.1 false).toOption.getD (emptyTrie rootOnly false)

theorem persisted_twoKeysStored : Persisted stdEnv twoKeysStored.2 twoKeysStored.1 := by
  have hstored : persist stdEnv (fun _ => none) emptyRootHash false twoKeys
      = .ok (twoKeysStored.1, twoKeysStored.2) := by
    rw [Prod.mk.eta, twoKeysStored]
    exact eq_ok_getD (by decide +kernel) _
  exact .round .empty hstored

theorem persisted_rootOnly : Persisted stdEnv rootOnly twoKeysStored.1 := by
  refine persisted_twoKeysStored.lose ?_
  intro k
  by_cases hk : k = twoKeysStored.1
  · exact .inl (if_pos hk)
  · exact .inr (if_neg hk)

theorem new_rootOnly : new stdEnv rootOnly twoKeysStored.1 false = .ok rootOnlyTrie := by
  rw [rootOnlyTrie]
  exact eq_ok_getD (by decide +kernel) _

/-- On the way to `0x12` the branch is missing.  `Get` reports that, but
`Update` succeeds, and `Get` of `0x13` then says that this key is absent. -/
theorem update_replaces_missing :
    Persisted stdEnv rootOnly twoKeysStored.1 ∧
      new stdEnv rootOnly twoKeysStored.1 false = .ok rootOnlyTrie ∧
      Blocked stdEnv rootOnly rootOnlyTrie.root [] (hexKey stdEnv false [0x12]) ∧
      (rootOnlyTrie.update stdEnv [0x12] [12]).1 = .ok () ∧
      (rootOnlyTrie.get stdEnv [0x13]).1.toOption = none ∧
      ((rootOnlyTrie.update stdEnv [0x12] [12]).2.get stdEnv [0x13]).1 = .ok none := by
  have hcalls : (rootOnlyTrie.update stdEnv [0x12] [12]).1 = .ok () ∧
      (rootOnlyTrie.get stdEnv [0x13]).1.toOption = none ∧
      ((rootOnlyTrie.update stdEnv [0x12] [12]).2.get stdEnv [0x13]).1 = .ok none := by
    decide +kernel
  refine ⟨persisted_rootOnly, new_rootOnly, ?_, hcalls⟩
  obtain ⟨hw, hdb, hflag⟩ := new_wellShaped persisted_rootOnly.written new_rootOnly
  -- were the way free, the other key would have kept its outcome
  by_contra hfree
  rw [← hdb, ← hflag] at hfree
  have hkeep := get_update_of_not_blocked hw [0x12] [0x13] (show [12] ≠ [] by decide) hfree
    (by rw [hflag]; decide)
  rw [hcalls.2.2] at hkeep
  rw [← hkeep] at hcalls
  exact absurd hcalls.2.1 (by decide)

theorem update_safe_iff_rootOnly :
    ((Blocked stdEnv rootOnly rootOnlyTrie.root [] (hexKey stdEnv false [0x12]) →
        ∃ e, (rootOnlyTrie.update stdEnv [0x12] [12]).1 = .error e) ∧
      ∀ key', hashKey stdEnv false key' ≠ hashKey stdEnv false [0x12] →
        ((rootOnlyTrie.update stdEnv [0x12] [12]).2.get stdEnv key').1.toOption
          = (rootOnlyTrie.get stdEnv key').1.toOption) ↔
    ¬ Blocked stdEnv rootOnly rootOnlyTrie.root [] (hexKey stdEnv false [0x12]) :=
  update_safe_iff persisted_rootOnly new_rootOnly [0x12] (by decide)

end MerklePatriciaTrie

end MetaNode
