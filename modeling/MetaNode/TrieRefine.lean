/-
The trie stores a map.

A `KeyTree` is the minimal compressed trie of the library over nibbles and
non-empty values.  `Loads E P n T` says that the node `n` is the tree `T` in
memory: a subtree may be replaced by its hash where `P` allows it, and a cached
hash is the hash of the subtree it is cached for.  `P` says which subtrees the
database holds; for a trie that was never written it holds of none.

* `InsertRun.loads`, `DeleteRun.loads` — `insert` and `delete` of the source act
  on the tree as `Tree.insert` and `Tree.delete` do;
* `GetRun.loads` — `get` reads the map of the tree;
* `MerklePatriciaTrie.update_represents`, `MerklePatriciaTrie.get_represents` —
  the same for the public functions.
-/
import Mathlib.Data.List.Induction
import MetaNode.PatriciaCanonical
import MetaNode.TrieRun

namespace MetaNode

open Patricia Patricia.Tree Function

/-- The values of a trie: an empty value means that the key is absent. -/
abbrev Val := {v : Bytes // v ≠ []}

abbrev KeyTree := Tree Nibble Val

variable (E : Env)

/-! ### The hash of a tree -/

/-- What the hasher encodes for a child of a full node; `r` is the collapsed
child. -/
def hashSlot (i : Nibble) (T : KeyTree) (r : Bytes) : Bytes :=
  if T.isEmpty then (if i = 16 then List.replicate 32 0 else []) else r

/-- The bytes that stand for a subtree in the node above it. -/
def ref : KeyTree → Bytes
  | .empty => []
  | .leaf v => v.1
  | .short k c => (E.keccak256 (shortMarshal E (hexToCompact k) (ref c))).1
  | .full ch => (E.keccak256 (fullMarshal E fun i => hashSlot i (ch i) (ref (ch i)))).1

/-- The bytes the hasher hashes for a short or full node. -/
def hashEnc : KeyTree → Bytes
  | .short k c => shortMarshal E (hexToCompact k) (ref E c)
  | .full ch => fullMarshal E fun i => hashSlot i (ch i) (ref E (ch i))
  | _ => []

def hashOf (T : KeyTree) : Hash := E.keccak256 (hashEnc E T)

def IsNode (T : KeyTree) : Prop := (∃ k c, T = .short k c) ∨ ∃ ch, T = .full ch

variable {T : KeyTree}

theorem IsNode.ref_eq (h : IsNode T) : ref E T = (hashOf E T).1 := by
  rcases h with ⟨k, c, rfl⟩ | ⟨ch, rfl⟩ <;> rfl

theorem IsNode.ne_empty (h : IsNode T) : T ≠ .empty := by
  rcases h with ⟨k, c, rfl⟩ | ⟨ch, rfl⟩ <;> simp

theorem IsNode.ne_leaf (h : IsNode T) (v : Val) : T ≠ .leaf v := by
  rcases h with ⟨k, c, rfl⟩ | ⟨ch, rfl⟩ <;> simp

theorem isNode_of_canonical (h : Canonical 16 T) (hne : T ≠ .empty) : IsNode T := by
  cases h with
  | empty => exact absurd rfl hne
  | leaf | ext => exact .inl ⟨_, _, rfl⟩
  | full => exact .inr ⟨_, rfl⟩

/-! ### Trees in memory -/

def Node.AllHashed : Node → Prop
  | .short _ n fl => fl.hash ≠ none ∧ n.AllHashed
  | .full ch fl => fl.hash ≠ none ∧ ∀ i, (ch i).AllHashed
  | _ => True

section Loads

variable (P : KeyTree → Prop)

/-- The flags of a node for `T` whose children are hashed if `below` holds: a
cached hash is right and implies that the children are hashed, and a clean
node is in the database. -/
structure FlagOk (fl : NodeFlag) (T : KeyTree) (below : Prop) : Prop where
  hash : ∀ h, fl.hash = some h → h = ref E T ∧ below
  clean : fl.dirty = false → fl.hash ≠ none ∧ P T

inductive Loads : Node → KeyTree → Prop
  | nil : Loads .nil .empty
  | value (v : Val) : Loads (.value v.1) (.leaf v)
  | short {k : Path} {n : Node} {fl : NodeFlag} {c : KeyTree} (hn : Loads n c)
      (hfl : FlagOk E P fl (.short k c) n.AllHashed) : Loads (.short k n fl) (.short k c)
  | full {ch : Nibble → Node} {fl : NodeFlag} {Tc : Nibble → KeyTree}
      (hch : ∀ i, Loads (ch i) (Tc i))
      (hfl : FlagOk E P fl (.full Tc) (∀ i, (ch i).AllHashed)) : Loads (.full ch fl) (.full Tc)
  | hash {T : KeyTree} (hT : P T) : Loads (.hash (ref E T)) T

/-- The database holds the subtrees of `P`, and loading one gives its node. -/
structure Holds (db : DB) : Prop where
  isNode : ∀ T, P T → IsNode T
  load : ∀ T pre, P T → ∃ blob rn, Loaded E db (ref E T) pre blob rn ∧ Loads E P rn T ∧
    ∀ h, rn ≠ .hash h

end Loads

/-- No subtree is in the database. -/
def Unwritten : KeyTree → Prop := fun _ => False

theorem holds_unwritten (db : DB) : Holds E Unwritten db := ⟨nofun, nofun⟩

variable {E} {P : KeyTree → Prop} {db : DB}

theorem flagOk_newFlag {below : Prop} : FlagOk E P newFlag T below := ⟨nofun, nofun⟩

theorem FlagOk.hash_of_clean {fl : NodeFlag} {below : Prop}
    (h : FlagOk E P fl T below) (hd : fl.dirty = false) : fl.hash = some (ref E T) := by
  obtain ⟨b, hb⟩ := Option.ne_none_iff_exists'.mp (h.clean hd).1
  rw [hb, (h.hash b hb).1]

theorem Loads.eq_nil (h : Loads E P .nil T) : T = .empty := by
  cases h
  rfl

variable {v : Val}

theorem Loads.eq_leaf (h : Loads E P (.value v.1) T) : T = .leaf v := by
  generalize hn : Node.value v.1 = n at h
  cases h with
  | value => rw [Subtype.ext (Node.value.inj hn)]
  | _ => simp at hn

theorem Loads.eq_short {k : Path} {n : Node} {fl : NodeFlag}
    (h : Loads E P (.short k n fl) T) : ∃ c, T = .short k c ∧ Loads E P n c := by
  cases h with
  | short hn => exact ⟨_, rfl, hn⟩

section Inversion

variable (hP : Holds E P db)

include hP

variable {n : Node}

theorem Loads.of_empty (h : Loads E P n .empty) : n = .nil := by
  cases h with
  | nil => rfl
  | hash hT => exact absurd rfl (hP.isNode _ hT).ne_empty

variable {T : KeyTree}

theorem Loads.nil_iff (h : Loads E P n T) : n = .nil ↔ T = .empty := by
  constructor
  · rintro rfl
    exact h.eq_nil
  · rintro rfl
    exact h.of_empty hP

theorem Loads.of_leaf (h : Loads E P n (.leaf v)) : n = .value v.1 := by
  cases h with
  | value => rfl
  | hash hT => exact absurd rfl ((hP.isNode _ hT).ne_leaf v)

variable {pre : Path}

theorem Loads.loaded {h blob : Bytes} {rn : Node} (hn : Loads E P (.hash h) T)
    (hl : Loaded E db h pre blob rn) : Loads E P rn T ∧ ∀ h', rn ≠ .hash h' := by
  cases hn with
  | hash hT =>
    obtain ⟨blob', rn', hl', hrn, hne⟩ := hP.load T pre hT
    obtain rfl : blob = blob' := Except.ok.inj (hl.1.symm.trans hl'.1)
    obtain rfl : rn = rn' := Except.ok.inj (hl.2.symm.trans hl'.2)
    exact ⟨hrn, hne⟩

theorem Loads.present {h : Bytes} (hn : Loads E P (.hash h) T) (pre : Path) :
    ∃ blob rn, Loaded E db h pre blob rn := by
  cases hn with
  | hash hT =>
    obtain ⟨blob, rn, hl, -⟩ := hP.load T pre hT
    exact ⟨blob, rn, hl⟩

theorem complete_loads : Complete E db fun n => ∃ T, Loads E P n T ∧ Canonical 16 T where
  value := by
    rintro v ⟨T, hn, hT⟩
    cases hn
    cases hT
  short := by
    rintro k n fl ⟨T, hn, hT⟩
    cases hn with
    | short hn =>
      cases hT with
      | @leaf w v hw => exact .inl ⟨⟨w, hw, rfl⟩, .inr ⟨v.1, hn.of_leaf hP⟩⟩
      | ext hne hk hc => exact .inr ⟨hne, hk, _, hn, hc⟩
  child := by
    rintro ch fl a ⟨T, hn, hT⟩ ha
    cases hn with
    | full hch => exact ⟨_, hch a, hT.child ha⟩
  last := by
    rintro ch fl ⟨T, hn, hT⟩
    cases hn with
    | full hch =>
      have h16 := hch 16
      rcases hT.last with he | ⟨v, hv⟩
      · rw [he] at h16
        exact .inl ⟨_, h16, .empty⟩
      · rw [hv] at h16
        exact .inr ⟨v.1, h16.of_leaf hP⟩
  load := by
    rintro h pre blob ⟨T, hn, hT⟩ hnode
    obtain ⟨blob', rn, hl⟩ := hn.present hP pre
    obtain rfl : blob = blob' := Except.ok.inj (hnode.symm.trans hl.1)
    exact ⟨rn, hl.2, ⟨T, (hn.loaded hP hl).1, hT⟩, (hn.loaded hP hl).2⟩
  present := by
    rintro h pre ⟨T, hn, -⟩
    obtain ⟨blob, rn, hl⟩ := hn.present hP pre
    exact ⟨blob, hl.1⟩
  lastValue := by
    rintro ch fl ⟨T, hn, hT⟩
    cases hn with
    | full hch =>
      have h16 := hch 16
      rcases hT.last with he | ⟨v, hv⟩
      · rw [he] at h16
        exact .inl (h16.of_empty hP)
      · rw [hv] at h16
        exact .inr ⟨v.1, h16.of_leaf hP⟩

/-! ### get reads the map -/

variable {rest : Path} {evs : List Event}

theorem GetRun.loads {o : Except Fault (Option Bytes)} (hrun : GetRun E db n pre rest o evs)
    (hn : Loads E P n T) (hfit : Fits 16 T rest) : o = .ok ((T.lookup rest).map Subtype.val) := by
  induction hrun generalizing T with
  | nil =>
    rw [hn.eq_nil, lookup_empty]
    rfl
  | value =>
    cases hn with
    | value v =>
      rw [hfit.of_leaf, lookup_leaf, if_pos rfl, nilIfEmpty_of_ne v.2]
      rfl
  | differ hk =>
    cases hn with
    | short =>
      rw [lookup_short, dropPrefix?_eq_none.mpr hk]
      rfl
  | short _ ih =>
    cases hn with
    | short hn => rw [lookup_short_append, ih hn hfit.rest]
  | full _ ih =>
    cases hn with
    | full hch => rw [lookup_full_cons, ih (hch _) hfit.child]
  | fullEnd =>
    cases hn with
    | full => exact absurd rfl hfit.of_full.2.ne_nil
  | @missing h pre _ e he =>
    obtain ⟨blob, rn, hl⟩ := hn.present hP pre
    exact absurd (he.symm.trans hl.1) (by simp)
  | hash hl _ ih => exact ih (hn.loaded hP hl).1 hfit

/-! ### insert acts as on the tree -/

omit hP in
theorem Loads.graft (hn : Loads E P n T) (key : Path) :
    Loads E P (Node.graft key n) (graft key T) := by
  by_cases hk : key = []
  · rwa [Node.graft, if_pos hk, Tree.graft, if_pos hk]
  · rw [Node.graft, if_neg hk, Tree.graft, if_neg hk]
    exact .short hn flagOk_newFlag

variable {ch : Nibble → Node} {Tc : Nibble → KeyTree}

omit hP in
theorem Loads.update (hch : ∀ i, Loads E P (ch i) (Tc i)) (a : Nibble) (hn : Loads E P n T)
    (i : Nibble) : Loads E P (update ch a n i) (update Tc a T i) := by
  by_cases hi : i = a
  · subst hi
    rwa [update_self, update_self]
  · rw [update_of_ne hi, update_of_ne hi]
    exact hch i

omit hP in
theorem Loads.fork {m : Node} {U : KeyTree} (hn : Loads E P n T) (hm : Loads E P m U)
    (a b : Nibble) :
    Loads E P (Node.fork a n b m) (fork a T b U) :=
  .full (Loads.update (Loads.update (fun _ => .nil) a hn) b hm) flagOk_newFlag

variable {n' : Node} {key : Path} {dirty : Bool}

theorem InsertRun.loads (hrun : InsertRun E db v.1 n pre key dirty n' evs) (hn : Loads E P n T)
    (hfit : Fits 16 T key) :
    Loads E P n' (T.insert v key) ∧ (dirty = false → T.insert v key = T) := by
  induction hrun generalizing T with
  | same =>
    obtain rfl := hn.eq_leaf
    rw [insert_nil]
    exact ⟨.value v, fun _ => rfl⟩
  | replace =>
    rw [insert_nil]
    exact ⟨.value v, nofun⟩
  | shortSame hne _ ih =>
    cases hn with
    | short hn hfl =>
      have hsame : _ = _ := (ih hn hfit.rest).2 rfl
      rw [insert_short_append _ _ _ _ hne, hsame]
      exact ⟨.short hn hfl, fun _ => rfl⟩
  | shortNew hne _ ih =>
    cases hn with
    | short hn =>
      rw [insert_short_append _ _ _ _ hne]
      exact ⟨.short (ih hn hfit.rest).1 flagOk_newFlag, nofun⟩
  | fork hab =>
    cases hn with
    | short hn =>
      rw [insert_short_fork _ _ _ _ _ hab]
      exact ⟨((hn.graft _).fork ((Loads.value v).graft _) _ _).graft _, nofun⟩
  | fullSame _ ih =>
    cases hn with
    | full hch hfl =>
      have hsame : _ = _ := (ih (hch _) hfit.child).2 rfl
      rw [insert_full, hsame, update_eq_self]
      exact ⟨.full hch hfl, fun _ => rfl⟩
  | fullNew _ ih =>
    cases hn with
    | full hch =>
      rw [insert_full]
      exact ⟨.full (Loads.update hch _ (ih (hch _) hfit.child).1) flagOk_newFlag, nofun⟩
  | nil hne =>
    obtain rfl := hn.eq_nil
    rw [insert_empty _ hne]
    exact ⟨.short (.value v) flagOk_newFlag, nofun⟩
  | @missing h key pre e hne he =>
    -- the database has every node of the tree, so the source's fallback is not taken
    obtain ⟨blob, rn, hl⟩ := hn.present hP pre
    exact absurd (he.symm.trans hl.1) (by simp)
  | hashSame hne hl _ ih =>
    have hrn := (hn.loaded hP hl).1
    have hsame := (ih hrn hfit).2 rfl
    rw [hsame]
    exact ⟨hrn, fun _ => rfl⟩
  | hashNew hne hl _ ih => exact ⟨(ih (hn.loaded hP hl).1 hfit).1, nofun⟩

/-! ### delete acts as on the tree -/

omit hP in
theorem DeleteRun.ne_hash (hrun : DeleteRun E db n pre key dirty n' evs) (hd : dirty = true)
    (h : Bytes) : n' ≠ .hash h := by
  induction hrun with
  | hashNew _ _ ih => exact ih hd
  | _ => simp_all

omit hP in
theorem Loads.ne_short (hn : Loads E P n T) (hh : ∀ h, n ≠ .hash h)
    (hs : ∀ k c fl, n ≠ .short k c fl) (k : Path) (c : KeyTree) : T ≠ .short k c := by
  rintro rfl
  cases hn with
  | short => exact hs _ _ _ rfl
  | hash => exact hh _ rfl

theorem ResolveRun.loads {rn : Node} (hrun : ResolveRun E db n pre rn evs) (hn : Loads E P n T) :
    Loads E P rn T ∧ ∀ h, rn ≠ .hash h := by
  cases hrun with
  | here hne => exact ⟨hn, hne⟩
  | hash hl => exact hn.loaded hP hl

theorem OnlyChild.unique {i : Nibble} (hch : ∀ j, Loads E P (ch j) (Tc j)) :
    OnlyChild ch i ↔ ∀ j, Tc j ≠ .empty ↔ j = i :=
  forall_congr' fun j => by rw [ne_eq, (hch j).nil_iff hP]

theorem delete_full_of_onlyChild {a i : Nibble} (hch : ∀ j, Loads E P (ch j) (Tc j))
    (hnil : Loads E P .nil ((Tc a).delete rest)) (hi : OnlyChild (update ch a .nil) i) :
    Tree.delete (.full Tc) (a :: rest) = extend [i] (Tc i) := by
  have huniq := (OnlyChild.unique hP (Loads.update hch a hnil)).mp hi
  rw [delete_full, contract_of_unique huniq, update_of_ne hi.ne_gone]

omit hP in
theorem delete_full_of_ne_empty {a : Nibble} (hT : Canonical 16 (.full Tc))
    (hne : (Tc a).delete rest ≠ .empty) :
    Tree.delete (.full Tc) (a :: rest)
      = .full (update Tc a ((Tc a).delete rest)) := by
  rw [delete_full]
  cases hT with
  | full hij hi hj =>
    exact contract_of_two hij (update_ne_empty hne hi) (update_ne_empty hne hj)

theorem DeleteRun.loads (hrun : DeleteRun E db n pre key dirty n' evs) (hn : Loads E P n T)
    (hfit : Fits 16 T key) : Loads E P n' (T.delete key) ∧ (dirty = false → T.delete key = T) := by
  induction hrun generalizing T with
  | differ hk =>
    cases hn with
    | short hn hfl =>
      rw [delete_short_of_differ _ hk]
      exact ⟨.short hn hfl, fun _ => rfl⟩
  | whole =>
    cases hn with
    | short =>
      rw [delete_short_self]
      exact ⟨.nil, nofun⟩
  | shortSame hne _ ih =>
    cases hn with
    | short hn hfl =>
      -- nothing was deleted below, and what is below a run is no run
      have hsame : _ = _ := (ih hn hfit.rest).2 rfl
      rw [delete_short_append _ _ _ hne, hsame,
        extend_of_ne_short _ hfit.of_short.1.child_ne_short]
      exact ⟨.short hn hfl, fun _ => rfl⟩
  | shortMerge hne _ ih =>
    cases hn with
    | short hn =>
      have hc := (ih hn hfit.rest).1
      obtain ⟨c', hc', hc⟩ := hc.eq_short
      rw [delete_short_append _ _ _ hne, hc']
      exact ⟨.short hc flagOk_newFlag, nofun⟩
  | shortNew hne hn' hs ih =>
    cases hn with
    | short hn =>
      have hc := (ih hn hfit.rest).1
      rw [delete_short_append _ _ _ hne,
        extend_of_ne_short _ (hc.ne_short (hn'.ne_hash rfl) hs)]
      exact ⟨.short hc flagOk_newFlag, nofun⟩
  | fullSame _ ih =>
    cases hn with
    | full hch hfl =>
      have hsame : _ = _ := (ih (hch _) hfit.child).2 rfl
      have hT := hfit.of_full.1
      rw [delete_full, hsame, update_eq_self]
      -- a minimal full node has two children, so it is not contracted
      cases hT with
      | full hij hi hj =>
        rw [contract_of_two hij hi hj]
        exact ⟨.full hch hfl, fun _ => rfl⟩
  | @fullNew ch fl a rest pre nn evs _ hne ih =>
    cases hn with
    | @full _ _ Tc hch hfl =>
      have hc := (ih (hch a) hfit.child).1
      rw [delete_full_of_ne_empty hfit.of_full.1 (mt (hc.nil_iff hP).mpr hne)]
      exact ⟨.full (Loads.update hch a hc) flagOk_newFlag, nofun⟩
  | @fullMany ch fl a rest pre evs _ hmany ih =>
    cases hn with
    | @full _ _ Tc hch hfl =>
      have hc := Loads.update hch a (ih (hch a) hfit.child).1
      rw [delete_full, contract_of_many]
      · exact ⟨.full hc flagOk_newFlag, nofun⟩
      · rintro ⟨i, hi⟩
        exact hmany i ((OnlyChild.unique hP hc).mpr hi)
  | reduceMerge _ hi h16 hr ih =>
    cases hn with
    | full hch =>
      have hdel := delete_full_of_onlyChild hP hch (ih (hch _) hfit.child).1 hi
      obtain ⟨c', hc', hc⟩ := (hr.loads hP (hch _)).1.eq_short
      rw [hdel, hc']
      exact ⟨.short hc flagOk_newFlag, nofun⟩
  | reduce _ hi h16 hr hs ih =>
    cases hn with
    | full hch =>
      have hdel := delete_full_of_onlyChild hP hch (ih (hch _) hfit.child).1 hi
      obtain ⟨hc, hch'⟩ := hr.loads hP (hch _)
      rw [hdel, extend_of_ne_short _ (hc.ne_short hch' hs)]
      exact ⟨.short (hch _) flagOk_newFlag, nofun⟩
  | reduceValue _ hi ih =>
    cases hn with
    | full hch =>
      have hdel := delete_full_of_onlyChild hP hch (ih (hch _) hfit.child).1 hi
      rw [hdel, extend_of_ne_short _ hfit.of_full.1.last_ne_short]
      exact ⟨.short (hch _) flagOk_newFlag, nofun⟩
  | value =>
    cases hn with
    | value =>
      rw [Tree.delete]
      exact ⟨.nil, nofun⟩
  | nil =>
    obtain rfl := hn.eq_nil
    exact ⟨.nil, fun _ => rfl⟩
  | hashSame hl _ ih =>
    have hrn := (hn.loaded hP hl).1
    have hsame := (ih hrn hfit).2 rfl
    rw [hsame]
    exact ⟨hrn, fun _ => rfl⟩
  | hashNew hl _ ih => exact ⟨(ih (hn.loaded hP hl).1 hfit).1, nofun⟩

end Inversion

/-! ### The public functions -/

/-- The map with `value` put under `key`; an empty value removes the key. -/
noncomputable def put (T : KeyTree) (key : Path) (value : Bytes) : KeyTree :=
  if h : value = [] then T.delete key else T.insert ⟨value, h⟩ key

theorem put_nil (T : KeyTree) (key : Path) : put T key [] = T.delete key := dif_pos rfl

theorem put_of_ne (T : KeyTree) (key : Path) {value : Bytes} (h : value ≠ []) :
    put T key value = T.insert ⟨value, h⟩ key :=
  dif_neg h

theorem canonical_put (hT : Canonical 16 T) {key : Path} (hk : Terminated 16 key)
    (value : Bytes) : Canonical 16 (put T key value) := by
  unfold put
  split
  · exact Canonical.delete (.ahead hT hk) hk.ne_nil
  · exact Canonical.insert _ (.ahead hT hk) hk.ne_nil

theorem lookup_put (hT : Canonical 16 T) {key : Path} (hk : Terminated 16 key)
    (value : Bytes) (key' : Path) :
    ((put T key value).lookup key').map Subtype.val
      = if key' = key then nilIfEmpty value else (T.lookup key').map Subtype.val := by
  have hfit : Fits 16 T key := .ahead hT hk
  by_cases hv : value = []
  · subst hv
    rw [put_nil, lookup_delete hfit]
    split <;> rfl
  · rw [put_of_ne T key hv, lookup_insert _ hfit, nilIfEmpty_of_ne hv]
    split <;> rfl

/-- The trie of the source holds the tree `T`. -/
structure Represents (E : Env) (P : KeyTree → Prop) (t : MerklePatriciaTrie) (T : KeyTree) :
    Prop where
  uncommitted : t.committed = false
  loads : Loads E P t.root T
  canonical : Canonical 16 T
  holds : Holds E P t.reader

/-- The call of `insert` or `delete` that an update makes at the root. -/
def UpdateRun (E : Env) (db : DB) (n : Node) (key : Path) (value : Bytes) (n' : Node)
    (evs : List Event) : Prop :=
  (value ≠ [] ∧ ∃ dirty, InsertRun E db value n [] key dirty n' evs) ∨
    (value = [] ∧ ∃ dirty, DeleteRun E db n [] key dirty n' evs)

namespace MerklePatriciaTrie

/-- The hex key under which `key` is stored. -/
def hexKey (E : Env) (isHash : Bool) (key : Bytes) : Path := keybytesToHex (hashKey E isHash key)

variable (isHash : Bool)

theorem terminated_hexKey (key : Bytes) : Terminated 16 (hexKey E isHash key) :=
  terminated_keybytesToHex _

theorem hexKey_eq_iff {isHash : Bool} {key key' : Bytes} :
    hexKey E isHash key = hexKey E isHash key' ↔ hashKey E isHash key = hashKey E isHash key' :=
  keybytesToHex_injective.eq_iff

variable {t : MerklePatriciaTrie} {T : KeyTree} {S : Node → Prop}

theorem update_insert_run (hS : Walkable E t.reader S) (hroot : S t.root) (ht : t.committed = false)
    (key : Bytes) {value : Bytes} (hv : value ≠ []) :
    ∃ n' evs, t.update E key value
        = (.ok (), { t with root := n', tracer := t.tracer.recordAll evs }) ∧
      UpdateRun E t.reader t.root (hexKey E t.isHash key) value n' evs := by
  have hk := terminated_hexKey (E := E) t.isHash key
  have hlen : value.length ≠ 0 := by simpa using hv
  have hsteps := t.root.steps_le
  obtain ⟨dirty, n', evs, hrun, hrel⟩ := Node.insert_run hS value
    (depthBound (hexKey E t.isHash key)) t.root [] (hexKey E t.isHash key) t.tracer
    (.inl ⟨hroot, hk⟩) (by rw [depthBound]; omega)
  refine ⟨n', evs, ?_, .inl ⟨hv, dirty, hrel⟩⟩
  unfold hexKey at hrun
  rw [update, if_neg (by simp [ht]), updateKey, if_pos hlen, hrun]

theorem update_run (hS : Complete E t.reader S) (hroot : S t.root) (ht : t.committed = false)
    (key value : Bytes) :
    ∃ n' evs, t.update E key value
        = (.ok (), { t with root := n', tracer := t.tracer.recordAll evs }) ∧
      UpdateRun E t.reader t.root (hexKey E t.isHash key) value n' evs := by
  by_cases hv : value = []
  · subst hv
    have hk := terminated_hexKey (E := E) t.isHash key
    have hsteps := t.root.steps_le
    have hfuel : 2 * (hexKey E t.isHash key).length + t.root.steps
        ≤ depthBound (hexKey E t.isHash key) := by
      rw [depthBound]
      omega
    obtain ⟨dirty, n', evs, hrun, hrel⟩ := Node.delete_run hS [] t.tracer hroot hk hfuel
    refine ⟨n', evs, ?_, .inr ⟨rfl, dirty, hrel⟩⟩
    unfold hexKey at hrun
    rw [update, if_neg (by simp [ht]), updateKey, if_neg (by simp), hrun]
  · exact update_insert_run hS.toWalkable hroot ht key hv

theorem get_run (hS : Walkable E t.reader S) (hroot : S t.root) (ht : t.committed = false)
    (key : Bytes) :
    ∃ o evs, t.get E key = (o.mapError wrapGetError, { t with tracer := t.tracer.recordAll evs }) ∧
      GetRun E t.reader t.root [] (hexKey E t.isHash key) o evs := by
  have hk := terminated_hexKey (E := E) t.isHash key
  have hsteps := t.root.steps_le
  obtain ⟨o, evs, hrun, hrel⟩ := Node.get_run hS (depthBound (hexKey E t.isHash key)) t.root []
    (hexKey E t.isHash key) t.tracer (.inl ⟨hroot, .inl hk⟩) (by rw [depthBound]; omega)
  refine ⟨o, evs, ?_, hrel⟩
  unfold hexKey at hrun
  rw [List.nil_append, List.length_nil, Prod.mk.injEq] at hrun
  rw [get, if_neg (by simp [ht])]
  dsimp only
  generalize Node.get E t.reader _ t.root _ 0 t.tracer = r at hrun
  obtain ⟨e | ⟨v, n, b⟩, tr⟩ := r
  · rw [← hrun.1, ← hrun.2]
    rfl
  · rw [← hrun.1, ← hrun.2]
    rfl

theorem update_represents (hr : Represents E P t T) (key value : Bytes) :
    ∃ n' evs, t.update E key value
        = (.ok (), { t with root := n', tracer := t.tracer.recordAll evs }) ∧
      UpdateRun E t.reader t.root (hexKey E t.isHash key) value n' evs ∧
      Represents E P { t with root := n', tracer := t.tracer.recordAll evs }
        (put T (hexKey E t.isHash key) value) := by
  have hk := terminated_hexKey (E := E) t.isHash key
  have hfit : Fits 16 T (hexKey E t.isHash key) := .ahead hr.canonical hk
  obtain ⟨n', evs, hupd, hrun⟩ := update_run (complete_loads hr.holds) ⟨T, hr.loads, hr.canonical⟩
    hr.uncommitted key value
  refine ⟨n', evs, hupd, hrun, hr.uncommitted, ?_, canonical_put hr.canonical hk value, hr.holds⟩
  rcases hrun with ⟨hv, dirty, hrun⟩ | ⟨rfl, dirty, hrun⟩
  · rw [put_of_ne _ _ hv]
    exact (InsertRun.loads hr.holds (v := ⟨value, hv⟩) hrun hr.loads hfit).1
  · rw [put_nil]
    exact (hrun.loads hr.holds hr.loads hfit).1

theorem get_represents (hr : Represents E P t T) (key : Bytes) :
    ∃ evs, t.get E key = (.ok ((T.lookup (hexKey E t.isHash key)).map Subtype.val),
        { t with tracer := t.tracer.recordAll evs }) ∧
      GetRun E t.reader t.root [] (hexKey E t.isHash key)
        (.ok ((T.lookup (hexKey E t.isHash key)).map Subtype.val)) evs := by
  obtain ⟨o, evs, hget, hrun⟩ := get_run (complete_loads hr.holds).toWalkable
    ⟨T, hr.loads, hr.canonical⟩ hr.uncommitted key
  obtain rfl := hrun.loads hr.holds hr.loads (.ahead hr.canonical (terminated_hexKey t.isHash key))
  exact ⟨evs, hget, hrun⟩

/-! ### Sequences of updates -/

/-- A sequence of `Update(key, value)` calls, up to the first error. -/
def updateAll (E : Env) (t : MerklePatriciaTrie) :
    List (Bytes × Bytes) → Except Fault Unit × MerklePatriciaTrie
  | [] => (.ok (), t)
  | (key, value) :: ops =>
    match t.update E key value with
    | (.ok (), t) => t.updateAll E ops
    | (.error e, t) => (.error e, t)

noncomputable def putAll (E : Env) (isHash : Bool) (T : KeyTree) (ops : List (Bytes × Bytes)) :
    KeyTree :=
  ops.foldl (fun T op => put T (hexKey E isHash op.1) op.2) T

theorem putAll_append (T : KeyTree) (ops ops' : List (Bytes × Bytes)) :
    putAll E isHash T (ops ++ ops') = putAll E isHash (putAll E isHash T ops) ops' :=
  List.foldl_append

/-- **Every update succeeds and does to the tree what it should.** -/
theorem updateAll_represents (hr : Represents E P t T) (ops : List (Bytes × Bytes)) :
    ∃ t', t.updateAll E ops = (.ok (), t') ∧ Represents E P t' (putAll E t.isHash T ops) ∧
      t'.reader = t.reader ∧ t'.isHash = t.isHash := by
  induction ops generalizing t T with
  | nil => exact ⟨t, rfl, hr, rfl, rfl⟩
  | cons op ops ih =>
    obtain ⟨n', evs, hupd, -, hr'⟩ := update_represents hr op.1 op.2
    obtain ⟨t', hall, hrep, hdb, hh⟩ := ih hr'
    refine ⟨t', ?_, hrep, hdb, hh⟩
    rw [updateAll, hupd]
    exact hall

/-- The value of the last update of a key with the same hashed key. -/
def lastUpdate (E : Env) (isHash : Bool) (ops : List (Bytes × Bytes)) (key : Bytes) :
    Option Bytes :=
  match ops.reverse.find? fun op => hashKey E isHash op.1 = hashKey E isHash key with
  | some op => nilIfEmpty op.2
  | none => none

theorem lastUpdate_concat (ops : List (Bytes × Bytes)) (op : Bytes × Bytes) (key : Bytes) :
    lastUpdate E isHash (ops ++ [op]) key
      = if hashKey E isHash op.1 = hashKey E isHash key then nilIfEmpty op.2
        else lastUpdate E isHash ops key := by
  rw [lastUpdate, List.reverse_append, List.reverse_singleton, List.singleton_append,
    List.find?_cons]
  by_cases h : hashKey E isHash op.1 = hashKey E isHash key
  · simp [h]
  · simp [h, lastUpdate]

theorem canonical_putAll (hT : Canonical 16 T) (isHash : Bool) (ops : List (Bytes × Bytes)) :
    Canonical 16 (putAll E isHash T ops) := by
  induction ops generalizing T with
  | nil => exact hT
  | cons op ops ih => exact ih (canonical_put hT (terminated_hexKey isHash op.1) op.2)

theorem lookup_putAll (ops : List (Bytes × Bytes)) (key : Bytes) :
    ((putAll E isHash .empty ops).lookup (hexKey E isHash key)).map Subtype.val
      = lastUpdate E isHash ops key := by
  induction ops using List.reverseRecOn with
  | nil => rfl
  | append_singleton ops op ih =>
    have hT := canonical_putAll (E := E) .empty isHash ops
    rw [putAll, List.foldl_append, List.foldl_cons, List.foldl_nil, ← putAll,
      lookup_put hT (terminated_hexKey isHash op.1), ih, lastUpdate_concat]
    exact if_congr (hexKey_eq_iff.trans eq_comm) rfl rfl

theorem new_empty (E : Env) (db : DB) (isHash : Bool) :
    new E db emptyRootHash isHash = .ok ⟨.nil, false, db, .new, isHash⟩ := by
  rw [new, if_neg (by simp)]

theorem represents_empty (E : Env) (db : DB) (isHash : Bool) :
    Represents E Unwritten ⟨.nil, false, db, .new, isHash⟩ .empty :=
  ⟨rfl, .nil, .empty, holds_unwritten E db⟩

/-- **A trie in memory is a map.**  On a new trie every sequence of updates
succeeds, whatever the lengths of the keys, and `Get` then finds the value of
the last update of its key. -/
theorem get_updateAll (E : Env) (db : DB) (isHash : Bool) (ops : List (Bytes × Bytes)) :
    ∃ t t', new E db emptyRootHash isHash = .ok t ∧ t.updateAll E ops = (.ok (), t') ∧
      ∀ key, (t'.get E key).1 = .ok (lastUpdate E isHash ops key) := by
  obtain ⟨t', hall, hrep, -, hh⟩ := updateAll_represents (represents_empty E db isHash) ops
  refine ⟨_, t', new_empty E db isHash, hall, ?_⟩
  intro key
  obtain ⟨evs, hget, -⟩ := get_represents hrep key
  rw [hget, hh, lookup_putAll]

end MerklePatriciaTrie

end MetaNode
