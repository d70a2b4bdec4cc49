/-
The root hash depends on the stored map only, by the uniqueness of the minimal
tree of a map.
-/
import MetaNode.Commit
import MetaNode.TrieRefine

namespace MetaNode

open Patricia Patricia.Tree

variable {E : Env} {P : KeyTree → Prop} {db : DB}

/-! ### The hasher -/

variable {n : Node}

theorem Hasher.hash_ne_nil (hn : n ≠ .nil) : (Hasher.hash E n).1 ≠ .nil := by
  cases n with
  | nil => exact absurd rfl hn
  | value | hash => simp [Hasher.hash]
  | short | full =>
    rw [Hasher.hash]
    split <;> simp

theorem Node.marshal_of_ne_nil {b : Bytes} (hn : n ≠ .nil) :
    (if n.isNil then b else n.marshal E) = n.marshal E := by
  rw [if_neg (by rwa [Node.isNil_iff])]

theorem Loads.last (hP : Holds E P db) {ch : Nibble → Node} {Tc : Nibble → KeyTree}
    (hch : ∀ i, Loads E P (ch i) (Tc i)) (hcan : Canonical 16 (.full Tc)) :
    (ch 16).AllHashed ∧ (if (ch 16).isNil then List.replicate 32 0 else (ch 16).marshal E)
      = hashSlot 16 (Tc 16) (ref E (Tc 16)) := by
  have h16 := hch 16
  rcases hcan.last with he | ⟨v, hv⟩
  · rw [he] at h16 ⊢
    rw [h16.of_empty hP]
    exact ⟨trivial, rfl⟩
  · rw [hv] at h16 ⊢
    rw [h16.of_leaf hP]
    exact ⟨trivial, rfl⟩

theorem Loads.fullInput_eq (hP : Holds E P db) {ch hashed : Nibble → Node} {Tc : Nibble → KeyTree}
    (hch : ∀ i, Loads E P (ch i) (Tc i)) (hcan : Canonical 16 (.full Tc))
    (hne : ∀ i, ch i ≠ .nil → hashed i ≠ .nil)
    (hhash : ∀ i, i ≠ 16 → (hashed i).marshal E = ref E (Tc i)) :
    Hasher.fullInput E ch hashed = hashEnc E (.full Tc) := by
  rw [Hasher.fullInput, Node.marshal, hashEnc]
  congr 1
  funext i
  by_cases hi : i = 16
  · subst hi
    exact (Loads.last hP hch hcan).2
  · rw [hashSlot, if_neg hi]
    by_cases hnil : ch i = .nil
    · have hempty : Hasher.collapseChildren ch hashed i = .value [] :=
        (if_neg hi).trans (if_pos (Node.isNil_iff.mpr hnil))
      rw [hempty, ((hch i).nil_iff hP).mp hnil]
      rfl
    · have hset : Hasher.collapseChildren ch hashed i = hashed i :=
        (if_neg hi).trans (if_neg (by rwa [Node.isNil_iff]))
      have hTne := mt ((hch i).nil_iff hP).mpr hnil
      rw [hset, Node.marshal_of_ne_nil (hne i hnil), hhash i hi,
        if_neg (by rwa [Tree.isEmpty_iff])]

theorem canonical_or_leaf_of_short {k : Path} {c : KeyTree} (h : Canonical 16 (.short k c)) :
    Canonical 16 c ∨ ∃ v, c = .leaf v := by
  cases h with
  | leaf => exact .inr ⟨_, rfl⟩
  | ext _ _ hc => exact .inl hc

variable {T : KeyTree}

/-- **The hasher computes the hash of the tree** and keeps it. -/
theorem Loads.hash_spec (hP : Holds E P db) (hn : Loads E P n T)
    (hT : Canonical 16 T ∨ ∃ v, T = .leaf v) :
    (Hasher.hash E n).1.marshal E = ref E T ∧ Loads E P (Hasher.hash E n).2 T ∧
      (Hasher.hash E n).2.AllHashed := by
  induction hn with
  | nil => exact ⟨rfl, .nil, trivial⟩
  | value v => exact ⟨rfl, .value v, trivial⟩
  | hash hmem => exact ⟨rfl, .hash hmem, trivial⟩
  | @short k n fl c hn hfl ih =>
    rw [Hasher.hash]
    cases hh : fl.hash with
    | some h =>
      obtain ⟨rfl, hall⟩ := hfl.hash h hh
      exact ⟨rfl, .short hn hfl, by simp [hh], hall⟩
    | none =>
      -- not hashed before, hence not clean
      have hdirty : fl.dirty ≠ false := fun h => (hfl.clean h).1 hh
      have hcan := hT.resolve_right (by simp)
      obtain ⟨href, hload, hall⟩ := ih (canonical_or_leaf_of_short hcan)
      have hinput : Hasher.shortInput E k (Hasher.hash E n).1 = hashEnc E (.short k c) := by
        rw [Hasher.shortInput, href]
        rfl
      refine ⟨?_, .short hload ⟨?_, fun h => absurd h hdirty⟩, by simp, hall⟩
      · show (E.keccak256 (Hasher.shortInput E k (Hasher.hash E n).1)).1 = _
        rw [hinput]
        rfl
      · rintro h ⟨⟩
        rw [hinput]
        exact ⟨rfl, hall⟩
  | @full ch fl Tc hch hfl ih =>
    have hcan : Canonical 16 (Tree.full Tc) := hT.resolve_right (by simp)
    rw [Hasher.hash]
    cases hh : fl.hash with
    | some h =>
      obtain ⟨rfl, hall⟩ := hfl.hash h hh
      exact ⟨rfl, .full hch hfl, by simp [hh], hall⟩
    | none =>
      have hdirty : fl.dirty ≠ false := fun h => (hfl.clean h).1 hh
      have hspec := fun (i : Nibble) (hi : i ≠ 16) => ih i (.inl (hcan.child hi))
      have hinput : Hasher.fullInput E ch (fun i => (Hasher.hash E (ch i)).1)
          = hashEnc E (.full Tc) :=
        Loads.fullInput_eq hP hch hcan (fun i => Hasher.hash_ne_nil) fun i hi => (hspec i hi).1
      set cached : Nibble → Node := fun i =>
        if i = 16 ∨ (ch i).isNil then ch i else (Hasher.hash E (ch i)).2
      have hkids : ∀ i, Loads E P (cached i) (Tc i) ∧ (cached i).AllHashed := by
        intro i
        by_cases hi : i = 16
        · subst hi
          exact ⟨hch 16, (Loads.last hP hch hcan).1⟩
        · by_cases hnil : ch i = .nil
          · have hkeep : cached i = .nil := (if_pos (.inr (Node.isNil_iff.mpr hnil))).trans hnil
            rw [hkeep, ← hnil]
            refine ⟨hch i, ?_⟩
            rw [hnil]
            trivial
          · have hnew : cached i = (Hasher.hash E (ch i)).2 :=
              if_neg (by rw [Node.isNil_iff]; tauto)
            rw [hnew]
            exact (hspec i hi).2
      refine ⟨?_, .full (fun i => (hkids i).1) ⟨?_, fun h => absurd h hdirty⟩, by simp,
        fun i => (hkids i).2⟩
      · show (E.keccak256 (Hasher.fullInput E ch fun i => (Hasher.hash E (ch i)).1)).1 = _
        rw [hinput]
        rfl
      · rintro h ⟨⟩
        rw [hinput]
        exact ⟨rfl, fun i => (hkids i).2⟩

theorem Hasher.dirty_hash (n : Node) : (Hasher.hash E n).2.cache.2 = n.cache.2 := by
  cases n with
  | short | full =>
    rw [Hasher.hash]
    split <;> rfl
  | _ => rfl

def rootHash (E : Env) (T : KeyTree) : Hash := if T.isEmpty then emptyRootHash else hashOf E T

theorem rootHash_empty (E : Env) : rootHash E .empty = emptyRootHash := rfl

theorem rootHash_of_ne (h : T ≠ .empty) : rootHash E T = hashOf E T :=
  if_neg (by rwa [Tree.isEmpty_iff])

namespace MerklePatriciaTrie

variable {t : MerklePatriciaTrie}

theorem hash_represents (hr : Represents E P t T) :
    (t.hash E).1 = rootHash E T ∧ Represents E P (t.hash E).2 T ∧
      (t.hash E).2 = { t with root := (Hasher.hash E t.root).2 } := by
  obtain ⟨root, committed, reader, tracer, isHash⟩ := t
  have hload := hr.loads
  by_cases hnil : root = .nil
  · subst hnil
    rw [show T = .empty from hload.eq_nil]
    refine ⟨rfl, ?_, rfl⟩
    rwa [show T = .empty from hload.eq_nil] at hr
  · have hne : T ≠ .empty := mt (hload.nil_iff hr.holds).mpr hnil
    have heq : hash E ⟨root, committed, reader, tracer, isHash⟩
        = (bytesToHash ((Hasher.hash E root).1.marshal E),
          ⟨(Hasher.hash E root).2, committed, reader, tracer, isHash⟩) := by
      cases root with
      | nil => exact absurd rfl hnil
      | _ => rfl
    obtain ⟨href, hload', -⟩ := hload.hash_spec hr.holds (.inl hr.canonical)
    rw [heq, href, rootHash_of_ne hne, (isNode_of_canonical hr.canonical hne).ref_eq,
      bytesToHash_val]
    exact ⟨rfl, ⟨hr.uncommitted, hload', hr.canonical, hr.holds⟩, rfl⟩

/-! ### Runs of updates and hashes -/

inductive Call where
  | update (key value : Bytes)
  | hash

def run (E : Env) (t : MerklePatriciaTrie) : List Call → Except Fault Unit × MerklePatriciaTrie
  | [] => (.ok (), t)
  | .update key value :: calls =>
    match t.update E key value with
    | (.ok (), t) => t.run E calls
    | (.error e, t) => (.error e, t)
  | .hash :: calls => (t.hash E).2.run E calls

def updates : List Call → List (Bytes × Bytes)
  | [] => []
  | .update key value :: calls => (key, value) :: updates calls
  | .hash :: calls => updates calls

theorem run_represents (hr : Represents E P t T) (calls : List Call) :
    ∃ t', t.run E calls = (.ok (), t') ∧
      Represents E P t' (putAll E t.isHash T (updates calls)) ∧ t'.isHash = t.isHash := by
  induction calls generalizing t T with
  | nil => exact ⟨t, rfl, hr, rfl⟩
  | cons call calls ih =>
    cases call with
    | update key value =>
      obtain ⟨n', evs, hupd, -, hr'⟩ := update_represents hr key value
      obtain ⟨t', hrun, hrep, hh⟩ := ih hr'
      refine ⟨t', ?_, hrep, hh⟩
      rw [run, hupd]
      exact hrun
    | hash =>
      obtain ⟨-, hr', heq⟩ := hash_represents hr
      obtain ⟨t', hrun, hrep, hh⟩ := ih hr'
      rw [heq] at hrep hh
      exact ⟨t', hrun, hrep, hh⟩

theorem lookup_putAll_of_ne (isHash : Bool) (ops : List (Bytes × Bytes)) {p : Path}
    (hp : ∀ key, p ≠ hexKey E isHash key) : (putAll E isHash .empty ops).lookup p = none := by
  induction ops using List.reverseRecOn with
  | nil => exact lookup_empty p
  | append_singleton ops op ih =>
    have hT := canonical_putAll (E := E) .empty isHash ops
    have hput := lookup_put hT (terminated_hexKey (E := E) isHash op.1) op.2 p
    rw [if_neg (hp op.1), ih] at hput
    rw [putAll, List.foldl_append, List.foldl_cons, List.foldl_nil, ← putAll]
    simpa using hput

theorem putAll_eq {isHash : Bool} {ops₁ ops₂ : List (Bytes × Bytes)}
    (h : ∀ key, lastUpdate E isHash ops₁ key = lastUpdate E isHash ops₂ key) :
    putAll E isHash .empty ops₁ = putAll E isHash .empty ops₂ := by
  refine Canonical.ext_lookup (canonical_putAll .empty isHash ops₁)
    (canonical_putAll .empty isHash ops₂) ?_
  intro p
  by_cases hp : ∃ key, p = hexKey E isHash key
  · obtain ⟨key, rfl⟩ := hp
    have hkey := h key
    rw [← lookup_putAll, ← lookup_putAll] at hkey
    exact Option.map_injective Subtype.val_injective hkey
  · have hp' : ∀ key, p ≠ hexKey E isHash key := fun key he => hp ⟨key, he⟩
    rw [lookup_putAll_of_ne isHash ops₁ hp', lookup_putAll_of_ne isHash ops₂ hp']

end MerklePatriciaTrie

/-! ### Minimal form in memory -/

namespace Node

def strip : Node → Node
  | .short key val _ => .short key val.strip newFlag
  | .full ch _ => .full (fun i => (ch i).strip) newFlag
  | n => n

/-- Everything is loaded, no short node is the child of a short node, every
full node has two children, and no value is empty. -/
def Minimal : Node → Prop
  | .nil => True
  | .value v => v ≠ []
  | .short _ val _ => (∀ k c fl, val ≠ .short k c fl) ∧ val.Minimal
  | .full ch _ => (∃ i j, i ≠ j ∧ ch i ≠ .nil ∧ ch j ≠ .nil) ∧ ∀ i, (ch i).Minimal
  | .hash _ => False

/-- The node of a tree that is completely in memory. -/
def ofTree : KeyTree → Node
  | .empty => .nil
  | .leaf v => .value v.1
  | .short k c => .short k (ofTree c) newFlag
  | .full ch => .full (fun i => ofTree (ch i)) newFlag

end Node

theorem Loads.strip (hn : Loads E Unwritten n T) : n.strip = Node.ofTree T := by
  induction hn with
  | nil | value => rfl
  | short _ _ ih => rw [Node.strip, ih, Node.ofTree]
  | full _ _ ih =>
    rw [Node.strip, Node.ofTree]
    congr 1
    funext i
    exact ih i
  | hash hT => exact hT.elim

theorem Loads.minimal (hn : Loads E Unwritten n T)
    (hT : Canonical 16 T ∨ ∃ v, T = .leaf v) : n.Minimal := by
  have hP := holds_unwritten E fun _ => none
  induction hn with
  | nil => trivial
  | value v => exact v.2
  | short hn hfl ih =>
    have hcan := hT.resolve_right (by simp)
    have hne := hcan.child_ne_short
    refine ⟨?_, ih ?_⟩
    · rintro k c fl rfl
      obtain ⟨c', hc', -⟩ := hn.eq_short
      exact hne k c' hc'
    · exact canonical_or_leaf_of_short hcan
  | full hch hfl ih =>
    have hcan := hT.resolve_right (by simp)
    cases hcan with
    | @full _ i j hij hi hj hτ hc =>
      refine ⟨⟨i, j, hij, mt ((hch i).nil_iff hP).mp hi, mt ((hch j).nil_iff hP).mp hj⟩, ?_⟩
      intro a
      by_cases ha : a = 16
      · subst ha
        rcases hτ with he | hv
        · exact ih 16 (.inl (he ▸ .empty))
        · exact ih 16 (.inr hv)
      · exact ih a (.inl (hc a ha))
  | hash hmem => exact hmem.elim

namespace MerklePatriciaTrie

/-- **The order of the updates leaves no trace.**  Two sequences of `Update`
and `Hash` calls on new tries that leave the same map leave the same nodes up
to the cache flags, in minimal form, and the same root hash. -/
theorem history_independent (E : Env) (db₁ db₂ : DB) (isHash : Bool) (calls₁ calls₂ : List Call)
    (hmap : ∀ key, lastUpdate E isHash (updates calls₁) key
      = lastUpdate E isHash (updates calls₂) key) :
    ∃ s₁ s₂ t₁ t₂, new E db₁ emptyRootHash isHash = .ok s₁ ∧ s₁.run E calls₁ = (.ok (), t₁) ∧
      new E db₂ emptyRootHash isHash = .ok s₂ ∧ s₂.run E calls₂ = (.ok (), t₂) ∧
      t₁.root.strip = t₂.root.strip ∧ t₁.root.Minimal ∧ t₂.root.Minimal ∧
      (t₁.hash E).1 = (t₂.hash E).1 := by
  obtain ⟨t₁, hrun₁, hrep₁, -⟩ := run_represents (represents_empty E db₁ isHash) calls₁
  obtain ⟨t₂, hrun₂, hrep₂, -⟩ := run_represents (represents_empty E db₂ isHash) calls₂
  rw [← putAll_eq hmap] at hrep₂
  refine ⟨_, _, t₁, t₂, new_empty E db₁ isHash, hrun₁, new_empty E db₂ isHash, hrun₂,
    ?_, ?_, ?_, ?_⟩
  · rw [hrep₁.loads.strip, hrep₂.loads.strip]
  · exact hrep₁.loads.minimal (.inl hrep₁.canonical)
  · exact hrep₂.loads.minimal (.inl hrep₂.canonical)
  · rw [(hash_represents hrep₁).1, (hash_represents hrep₂).1]

/-- Two orders of insertion, one of them with a detour and a hash in between. -/
theorem history_independent_two_orders :
    ∃ s₁ s₂ t₁ t₂, new stdEnv (fun _ => none) emptyRootHash false = .ok s₁ ∧
      s₁.run stdEnv [.update [1] [10], .hash, .update [1, 2] [20], .update [3] [30],
        .update [3] []] = (.ok (), t₁) ∧
      new stdEnv (fun _ => none) emptyRootHash false = .ok s₂ ∧
      s₂.run stdEnv [.update [1, 2] [20], .update [1] [10]] = (.ok (), t₂) ∧
      t₁.root.strip = t₂.root.strip ∧ t₁.root.Minimal ∧ t₂.root.Minimal ∧
      (t₁.hash stdEnv).1 = (t₂.hash stdEnv).1 := by
  refine history_independent stdEnv _ _ false _ _ ?_
  intro key
  have hkey : ∀ k : Bytes, hashKey stdEnv false k = k := fun k => if_pos (.inr rfl)
  simp only [lastUpdate, updates, hkey, List.reverse_cons, List.reverse_nil, List.nil_append,
    List.cons_append, List.find?_cons, List.find?_nil]
  by_cases h3 : [3] = key
  · subst h3
    rfl
  · by_cases h1 : [1] = key
    · subst h1
      rfl
    · simp [h1, h3]

end MerklePatriciaTrie

end MetaNode
