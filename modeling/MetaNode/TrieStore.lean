/-
Trees in the database.

The committer writes a node under its hash, but encodes an empty child other
than the hasher does (`blob` against `hashEnc`).  `OnDisk E db T` says that the
database holds the encodings of all nodes of `T`; loading such a tree node by
node gives it back (`holds_onDisk`).  Full nodes must not hold a value of their
own here, since the source reads every child of a full node as a hash; this is
so when all keys have the same length (`noLast_of_uniform`).

`Ideal` collects what is assumed of Keccak-256 on a list of encodings: no two
of them collide, and none is hashed to one of the two reserved hashes.
-/
import MetaNode.TrieRefine

namespace MetaNode

open Patricia Patricia.Tree

variable (E : Env)

/-! ### The nodes of a tree -/

/-- `NodeAt T p S`: at the path `p`, the tree `T` has a node, with `S` below. -/
inductive NodeAt : KeyTree → Path → KeyTree → Prop
  | here {T : KeyTree} (hT : IsNode T) : NodeAt T [] T
  | short {k p : Path} {c S : KeyTree} (h : NodeAt c p S) : NodeAt (.short k c) (k ++ p) S
  | full {ch : Nibble → KeyTree} {i : Nibble} {p : Path} {S : KeyTree} (h : NodeAt (ch i) p S) :
      NodeAt (.full ch) (i :: p) S

variable {E} {T S : KeyTree} {p : Path}

theorem NodeAt.isNode (h : NodeAt T p S) : IsNode S := by
  induction h with
  | here hT => exact hT
  | short _ ih | full _ ih => exact ih

theorem NodeAt.trans {R : KeyTree} {q : Path} (h : NodeAt T p S) (h' : NodeAt S q R) :
    NodeAt T (p ++ q) R := by
  induction h with
  | here => exact h'
  | short _ ih =>
    rw [List.append_assoc]
    exact .short (ih h')
  | full _ ih => exact .full (ih h')

theorem NodeAt.lookup_append (h : NodeAt T p S) (q : Path) : T.lookup (p ++ q) = S.lookup q := by
  induction h with
  | here => rfl
  | short _ ih => rw [List.append_assoc, lookup_short_append, ih]
  | full _ ih => rw [List.cons_append, lookup_full_cons, ih]

theorem not_nodeAt_empty : ¬ NodeAt .empty p S := by
  intro h
  cases h with
  | here hT => exact hT.ne_empty rfl

theorem not_nodeAt_leaf {v : Val} : ¬ NodeAt (.leaf v) p S := by
  intro h
  cases h with
  | here hT => exact hT.ne_leaf v rfl

theorem nodeAt_short {k : Path} {c : KeyTree} :
    NodeAt (.short k c) p S ↔ (p = [] ∧ S = .short k c) ∨ ∃ q, p = k ++ q ∧ NodeAt c q S := by
  constructor
  · intro h
    cases h with
    | here => exact .inl ⟨rfl, rfl⟩
    | short h => exact .inr ⟨_, rfl, h⟩
  · rintro (⟨rfl, rfl⟩ | ⟨q, rfl, h⟩)
    · exact .here (.inl ⟨k, c, rfl⟩)
    · exact .short h

variable {ch : Nibble → KeyTree}

theorem nodeAt_full :
    NodeAt (.full ch) p S ↔
      (p = [] ∧ S = .full ch) ∨ ∃ i q, p = i :: q ∧ NodeAt (ch i) q S := by
  constructor
  · intro h
    cases h with
    | here => exact .inl ⟨rfl, rfl⟩
    | full h => exact .inr ⟨_, _, rfl, h⟩
  · rintro (⟨rfl, rfl⟩ | ⟨i, q, rfl, h⟩)
    · exact .here (.inr ⟨ch, rfl⟩)
    · exact .full h

variable {i : Nibble}

theorem NodeAt.ne_last (h : NodeAt (ch i) p S) (hT : Canonical 16 (.full ch)) : i ≠ 16 := by
  rintro rfl
  rcases hT.last with he | ⟨v, hv⟩
  · rw [he] at h
    exact not_nodeAt_empty h
  · rw [hv] at h
    exact not_nodeAt_leaf h

theorem NodeAt.child_canonical (h : NodeAt (ch i) p S) (hT : Canonical 16 (.full ch)) :
    Canonical 16 (ch i) := hT.child (h.ne_last hT)

theorem NodeAt.unique {S' : KeyTree} (hT : Canonical 16 T) (h : NodeAt T p S) (h' : NodeAt T p S') :
    S = S' := by
  induction h with
  | @here T _ =>
    -- only the root itself has the empty path, since runs are not empty
    cases hT with
    | empty => exact absurd h' not_nodeAt_empty
    | leaf =>
      rcases nodeAt_short.mp h' with ⟨-, rfl⟩ | ⟨q, hq, -⟩
      · rfl
      · simp at hq
    | ext hne =>
      rcases nodeAt_short.mp h' with ⟨-, rfl⟩ | ⟨q, hq, -⟩
      · rfl
      · exact absurd (List.append_eq_nil_iff.mp hq.symm).1 hne
    | full =>
      rcases nodeAt_full.mp h' with ⟨-, rfl⟩ | ⟨i, q, hq, -⟩
      · rfl
      · simp at hq
  | short h ih =>
    have hk := hT.key_ne_nil
    rcases nodeAt_short.mp h' with ⟨hnil, -⟩ | ⟨q, hq, h'⟩
    · exact absurd (List.append_eq_nil_iff.mp hnil).1 hk
    · obtain rfl := List.append_cancel_left hq
      cases hT with
      | leaf => exact absurd h not_nodeAt_leaf
      | ext _ _ hc => exact ih hc h'
  | @full ch i p S h ih =>
    rcases nodeAt_full.mp h' with ⟨hnil, -⟩ | ⟨j, q, hq, h'⟩
    · simp at hnil
    · obtain ⟨rfl, rfl⟩ := List.cons.inj hq
      exact ih (h.child_canonical hT) h'

theorem NodeAt.canonical (h : NodeAt T p S) (hT : Canonical 16 T) : Canonical 16 S := by
  induction h with
  | here => exact hT
  | short h ih =>
    cases hT with
    | leaf => exact absurd h not_nodeAt_leaf
    | ext _ _ hc => exact ih hc
  | full h ih => exact ih (h.child_canonical hT)

/-! ### Keys of one length -/

/-- All keys of the tree have length `len`. -/
def Uniform (T : KeyTree) (len : ℕ) : Prop := ∀ p v, T.lookup p = some v → p.length = len

def NoLast (T : KeyTree) : Prop := ∀ p ch, NodeAt T p (.full ch) → ch 16 = .empty

theorem NoLast.sub (hT : NoLast T) (h : NodeAt T p S) : NoLast S :=
  fun _ _ h' => hT _ _ (h.trans h')

variable {len : ℕ}

theorem Uniform.short {k : Path} {c : KeyTree} (h : Uniform (.short k c) len) :
    Uniform c (len - k.length) := by
  intro p v hp
  have hlen := h (k ++ p) v (by rwa [lookup_short_append])
  rw [List.length_append] at hlen
  omega

theorem Uniform.child (h : Uniform (.full ch) len) (i : Nibble) : Uniform (ch i) (len - 1) := by
  intro p v hp
  have hlen := h (i :: p) v (by rwa [lookup_full_cons])
  rw [List.length_cons] at hlen
  omega

theorem noLast_of_uniform (hT : Canonical 16 T) (hu : Uniform T len) : NoLast T := by
  have hroot : ∀ {ch : Nibble → KeyTree} {len : ℕ}, Canonical 16 (.full ch) →
      Uniform (.full ch) len → ch 16 = .empty := by
    intro ch len hT hu
    by_contra hne
    cases hT with
    | @full _ i j hij hi hj hτ hc =>
      obtain ⟨v, hv⟩ := hτ.resolve_left hne
      have h1 : len = 1 := (hu [16] v (by rw [lookup_full_cons, hv]; rfl)).symm
      -- one of the two children is not the value
      obtain ⟨x, hx, hx16⟩ : ∃ x, ch x ≠ .empty ∧ x ≠ 16 := by
        by_cases hi16 : i = 16
        · exact ⟨j, hj, fun hj16 => hij (hi16.trans hj16.symm)⟩
        · exact ⟨i, hi, hi16⟩
      obtain ⟨p, u, hp⟩ := (hc x hx16).exists_key hx
      have hpt := (hc x hx16).terminated_of_lookup hp
      have hplen : (x :: p).length = len := hu (x :: p) u (by rwa [lookup_full_cons])
      have hppos := List.length_pos_iff.mpr hpt.ne_nil
      rw [List.length_cons] at hplen
      omega
  intro p ch h
  generalize hS : Tree.full ch = S at h
  induction h generalizing len with
  | here =>
    subst hS
    exact hroot hT hu
  | short h ih =>
    cases hT with
    | leaf => exact absurd h not_nodeAt_leaf
    | ext _ _ hc => exact ih hc hu.short hS
  | full h ih => exact ih (h.child_canonical hT) (hu.child _) hS

/-! ### What the database holds -/

variable (E)

/-- What the committer encodes for a child of a full node. -/
def blobSlot (T : KeyTree) (r : Bytes) : Bytes := if T.isEmpty then List.replicate 32 0 else r

def blob : KeyTree → Bytes
  | .short k c => shortMarshal E (hexToCompact k) (ref E c)
  | .full ch => fullMarshal E fun i => blobSlot (ch i) (ref E (ch i))
  | _ => []

/-- The database holds the node at the top of `S`. -/
def Entry (db : DB) (S : KeyTree) : Prop :=
  db (hashOf E S) = some (blob E S) ∧ hashOf E S ≠ FixedBytes.zero 32

/-- The database holds all nodes of `T`. -/
structure OnDisk (db : DB) (T : KeyTree) : Prop where
  isNode : IsNode T
  canonical : Canonical 16 T
  noLast : NoLast T
  entry : ∀ p S, NodeAt T p S → Entry E db S

variable {E} {db : DB}

theorem OnDisk.sub (hT : OnDisk E db T) (h : NodeAt T p S) :
    OnDisk E db S where
  isNode := h.isNode
  canonical := h.canonical hT.canonical
  noLast := hT.noLast.sub h
  entry := fun _ _ h' => hT.entry _ _ (h.trans h')

theorem OnDisk.child (hT : OnDisk E db (.full ch)) (hne : ch i ≠ .empty) : OnDisk E db (ch i) := by
  have hi : i ≠ 16 := by
    rintro rfl
    exact hne (hT.noLast [] ch (.here hT.isNode))
  exact hT.sub (p := [i]) (.full (.here (isNode_of_canonical (hT.canonical.child hi) hne)))

theorem blob_ne_nil (h : IsNode T) : blob E T ≠ [] := by
  rcases h with ⟨k, c, rfl⟩ | ⟨ch, rfl⟩
  · exact shortMarshal_ne_nil E _ _
  · exact fullMarshal_ne_nil E _

theorem DB.node_of_eq {pre : Path} {h : Hash} {b : Bytes} (hdb : db h = some b) (hb : b ≠ []) :
    db.node pre h = .ok b := by
  rw [DB.node, hdb]
  exact if_neg hb

/-- The node that comes back when the stored form of `T` is decoded. -/
def loadedNode (E : Env) : KeyTree → Node
  | .short k c => .short k (match c with
      | .leaf v => .value v.1
      | c => .hash (ref E c)) ⟨some (ref E (.short k c)), false⟩
  | .full ch => .full (fun i => if (ch i).isEmpty then .nil else .hash (ref E (ch i)))
      ⟨some (ref E (.full ch)), false⟩
  | _ => .nil

theorem ref_ne_nil (h : IsNode T) : ref E T ≠ [] := by
  intro he
  have hlen := (hashOf E T).2
  rw [← h.ref_eq, he] at hlen
  simp at hlen

theorem OnDisk.decode (hT : OnDisk E db T) :
    decodeNode E (ref E T) (blob E T) = .ok (loadedNode E T) := by
  have hflag := nilIfEmpty_of_ne (ref_ne_nil (E := E) hT.isNode)
  have hcan := hT.canonical
  cases hcan with
  | empty => exact absurd rfl hT.isNode.ne_empty
  | @leaf w v hw =>
    have hdec := decodeNode_shortMarshal E (ref E (.short (w ++ [16]) (.leaf v))) v.1 hw true
    rw [hflag] at hdec
    exact hdec
  | @ext k ch hne hk hc =>
    have hdec := decodeNode_shortMarshal E (ref E (.short k (.full ch))) (ref E (.full ch)) hk false
    rw [hflag] at hdec
    simpa [blob, loadedNode] using hdec
  | @full ch i j hij hi hj hτ hc =>
    rw [blob, decodeNode_fullMarshal, hflag, loadedNode]
    congr 2
    funext x
    rw [blobSlot]
    by_cases hx : ch x = .empty
    · rw [if_pos (by rwa [Tree.isEmpty_iff]), if_pos (by rwa [Tree.isEmpty_iff])]
      rfl
    · rw [if_neg (by rwa [Tree.isEmpty_iff]), if_neg (by rwa [Tree.isEmpty_iff])]
      have hchild := hT.child hx
      have hentry := hchild.entry [] (ch x) (.here hchild.isNode)
      rw [childOfBytes, hchild.isNode.ref_eq, bytesToHash_val, if_neg hentry.2]

theorem OnDisk.loads (hT : OnDisk E db T) : Loads E (OnDisk E db) (loadedNode E T) T := by
  have hcan := hT.canonical
  cases hcan with
  | empty => exact absurd rfl hT.isNode.ne_empty
  | @leaf w v hw =>
    refine .short (.value v) ⟨?_, fun _ => ⟨nofun, hT⟩⟩
    rintro h ⟨⟩
    exact ⟨rfl, trivial⟩
  | @ext k ch hne hk hc =>
    have hchild : OnDisk E db (.full ch) := hT.sub (p := k ++ []) (.short (.here (.inr ⟨ch, rfl⟩)))
    refine .short (.hash hchild) ⟨?_, fun _ => ⟨nofun, hT⟩⟩
    rintro h ⟨⟩
    exact ⟨rfl, trivial⟩
  | @full ch i j hij hi hj hτ hc =>
    refine .full ?_ ⟨?_, fun _ => ⟨nofun, hT⟩⟩
    · intro x
      by_cases hx : ch x = .empty
      · rw [hx]
        exact .nil
      · rw [if_neg (by rwa [Tree.isEmpty_iff])]
        -- a value at 16 would come back as a hash node
        exact .hash (hT.child hx)
    · rintro h ⟨⟩
      refine ⟨rfl, ?_⟩
      intro x
      by_cases hx : (ch x).isEmpty
      · rw [if_pos hx]
        trivial
      · rw [if_neg hx]
        trivial

theorem OnDisk.loaded (hT : OnDisk E db T) (pre : Path) :
    Loaded E db (ref E T) pre (blob E T) (loadedNode E T) := by
  refine ⟨?_, hT.decode⟩
  rw [hT.isNode.ref_eq, bytesToHash_val]
  exact DB.node_of_eq (hT.entry [] T (.here hT.isNode)).1 (blob_ne_nil hT.isNode)

theorem loadedNode_ne_hash (T : KeyTree) (h : Bytes) : loadedNode E T ≠ .hash h := by
  cases T <;> simp [loadedNode]

/-- **Loading a stored tree gives it back.** -/
theorem holds_onDisk (E : Env) (db : DB) : Holds E (OnDisk E db) db where
  isNode := fun _ hT => hT.isNode
  load := fun _ pre hT => ⟨_, _, hT.loaded pre, hT.loads, loadedNode_ne_hash _⟩

/-! ### Keccak-256 on the encodings of a trie -/

/-- No two of the encodings collide, and none of them has the zero hash or the
hash of the empty trie. -/
structure Ideal (keccak256 : Bytes → Hash) (encodings : List Bytes) : Prop where
  inj : ∀ a ∈ encodings, ∀ b ∈ encodings, keccak256 a = keccak256 b → a = b
  ne_zero : ∀ a ∈ encodings, keccak256 a ≠ FixedBytes.zero 32
  ne_empty : ∀ a ∈ encodings, keccak256 a ≠ emptyRootHash

instance (keccak256 : Bytes → Hash) (l : List Bytes) : Decidable (Ideal keccak256 l) :=
  decidable_of_iff ((∀ a ∈ l, ∀ b ∈ l, keccak256 a = keccak256 b → a = b) ∧
      (∀ a ∈ l, keccak256 a ≠ FixedBytes.zero 32) ∧ ∀ a ∈ l, keccak256 a ≠ emptyRootHash)
    ⟨fun h => ⟨h.1, h.2.1, h.2.2⟩, fun h => ⟨h.inj, h.ne_zero, h.ne_empty⟩⟩

theorem Ideal.mono {keccak256 : Bytes → Hash} {l l' : List Bytes} (h : Ideal keccak256 l')
    (hsub : l ⊆ l') : Ideal keccak256 l where
  inj := fun a ha b hb => h.inj a (hsub ha) b (hsub hb)
  ne_zero := fun a ha => h.ne_zero a (hsub ha)
  ne_empty := fun a ha => h.ne_empty a (hsub ha)

/-! ### What an encoding says of its node -/

theorem ref_eq_nil_iff (hT : Canonical 16 T) : ref E T = [] ↔ T = .empty := by
  refine ⟨fun h => ?_, fun h => by rw [h, ref]⟩
  by_contra hne
  exact ref_ne_nil (isNode_of_canonical hT hne) h

theorem IsNode.of_ref_eq {T' : KeyTree} (hT : IsNode T) (hT' : Canonical 16 T')
    (h : ref E T = ref E T') : IsNode T' ∧ hashOf E T = hashOf E T' := by
  have hT'' := isNode_of_canonical hT' (mt (ref_eq_nil_iff hT').mpr (h ▸ ref_ne_nil hT))
  exact ⟨hT'', Subtype.ext (by rw [← hT.ref_eq, ← hT''.ref_eq, h])⟩

/-- A short node is told by its encoding, up to the node below it. -/
theorem short_of_hashEnc_eq {k k' : Path} {c c' : KeyTree} (hT : Canonical 16 (.short k c))
    (hT' : Canonical 16 (.short k' c')) (h : hashEnc E (.short k c) = hashEnc E (.short k' c')) :
    k = k' ∧ (c = c' ∨ Canonical 16 c ∧ Canonical 16 c' ∧ ref E c = ref E c') := by
  have hdecode : ∀ {k c}, Canonical 16 (.short k c) → ∃ n fl,
      decodeNode E [] (hashEnc E (.short k c)) = .ok (.short k n fl) ∧
        ((∃ v, c = .leaf v ∧ n = .value v.1) ∨ Canonical 16 c ∧ n = .hash (ref E c)) := by
    intro k c hT
    cases hT with
    | @leaf w v hw =>
      exact ⟨_, _, decodeNode_shortMarshal E [] v.1 hw true, .inl ⟨v, rfl, rfl⟩⟩
    | @ext _ ch _ hk hc =>
      have hdec := decodeNode_shortMarshal E [] (ref E (.full ch)) hk false
      exact ⟨_, _, by simpa [hashEnc] using hdec, .inr ⟨hc, rfl⟩⟩
  obtain ⟨n, fl, hn, hc⟩ := hdecode hT
  obtain ⟨n', fl', hn', hc'⟩ := hdecode hT'
  rw [h, hn'] at hn
  obtain ⟨rfl, rfl, -⟩ := Node.short.inj (Except.ok.inj hn)
  refine ⟨rfl, ?_⟩
  rcases hc with ⟨v, rfl, rfl⟩ | ⟨hc, rfl⟩
  · rcases hc' with ⟨v', rfl, hv⟩ | ⟨-, hv⟩
    · exact .inl (congrArg _ (Subtype.ext (Node.value.inj hv)))
    · cases hv
  · rcases hc' with ⟨v', rfl, hv⟩ | ⟨hc', hv⟩
    · cases hv
    · exact .inr ⟨hc, hc', Node.hash.inj hv⟩

theorem ref_eq_of_hashEnc_eq {ch' : Nibble → KeyTree}
    (h : hashEnc E (.full ch) = hashEnc E (.full ch')) (hi : i ≠ 16) :
    ref E (ch i) = ref E (ch' i) := by
  have hslot : ∀ T : KeyTree, hashSlot i T (ref E T) = ref E T := by
    intro T
    cases T <;> simp [hashSlot, Tree.isEmpty, ref, hi]
  have heq := congrFun (fullMarshal_inj E h) i
  rwa [hslot, hslot] at heq

theorem blob_eq_of_hashEnc_eq {S' : KeyTree} (hS : IsNode S) (hS' : IsNode S') (hc : Canonical 16 S)
    (hc' : Canonical 16 S') (hn : NoLast S) (hn' : NoLast S') (h : hashEnc E S = hashEnc E S') :
    blob E S = blob E S' := by
  rcases hS with ⟨k, c, rfl⟩ | ⟨ch, rfl⟩
  · rcases hS' with ⟨k', c', rfl⟩ | ⟨ch', rfl⟩
    · exact h
    · exact absurd h (shortMarshal_ne_fullMarshal E _ _ _)
  · rcases hS' with ⟨k', c', rfl⟩ | ⟨ch', rfl⟩
    · exact absurd h.symm (shortMarshal_ne_fullMarshal E _ _ _)
    · rw [blob, blob]
      congr 1
      funext i
      by_cases hi : i = 16
      · subst hi
        rw [hn [] ch (.here (.inr ⟨ch, rfl⟩)), hn' [] ch' (.here (.inr ⟨ch', rfl⟩))]
      · have href := ref_eq_of_hashEnc_eq h hi
        have hiff : (ch i).isEmpty ↔ (ch' i).isEmpty := by
          rw [Tree.isEmpty_iff, Tree.isEmpty_iff, ← ref_eq_nil_iff (E := E) (hc.child hi), href,
            ref_eq_nil_iff (hc'.child hi)]
        simp only [blobSlot, href, hiff]

/-- No value at the end of a path is written like an empty slot. -/
def SlotsClear (E : Env) (T : KeyTree) : Prop :=
  ∀ p ch, NodeAt T p (.full ch) → ref E (ch 16) ≠ List.replicate 32 0

theorem NoLast.slotsClear (h : NoLast T) : SlotsClear E T := by
  intro p ch hat
  rw [h p ch hat]
  simp [ref]

/-- **The reference of a tree binds it**, where the encodings of the nodes do not collide. -/
theorem eq_of_ref_eq {T' : KeyTree} (hT : Canonical 16 T) (hT' : Canonical 16 T')
    (hinj : ∀ {p q R S}, NodeAt T p R → NodeAt T' q S → hashOf E R = hashOf E S →
      hashEnc E R = hashEnc E S)
    (hclear : SlotsClear E T) (hclear' : SlotsClear E T') (h : ref E T = ref E T') : T = T' := by
  induction T generalizing T' with
  | empty => exact ((ref_eq_nil_iff hT').mp h.symm).symm
  | leaf => cases hT
  | short k c ih =>
    have hnode : IsNode (.short k c) := .inl ⟨k, c, rfl⟩
    obtain ⟨hnode', hhash⟩ := hnode.of_ref_eq hT' h
    have henc := hinj (.here hnode) (.here hnode') hhash
    rcases hnode' with ⟨k', c', rfl⟩ | ⟨ch', rfl⟩
    · obtain ⟨rfl, rfl | ⟨hc, hc', href⟩⟩ := short_of_hashEnc_eq hT hT' henc
      · rfl
      · rw [ih hc hc' (fun hR hS => hinj (.short hR) (.short hS))
          (fun _ _ hat => hclear _ _ (.short hat)) (fun _ _ hat => hclear' _ _ (.short hat)) href]
    · exact absurd henc (shortMarshal_ne_fullMarshal E _ _ _)
  | full ch ih =>
    have hnode : IsNode (.full ch) := .inr ⟨ch, rfl⟩
    obtain ⟨hnode', hhash⟩ := hnode.of_ref_eq hT' h
    have henc := hinj (.here hnode) (.here hnode') hhash
    rcases hnode' with ⟨k', c', rfl⟩ | ⟨ch', rfl⟩
    · exact absurd henc.symm (shortMarshal_ne_fullMarshal E _ _ _)
    · congr 1
      funext i
      by_cases hi : i = 16
      · subst hi
        have hslot := congrFun (fullMarshal_inj E henc) 16
        have hne := hclear [] ch (.here hnode)
        have hne' := hclear' [] ch' (.here (.inr ⟨ch', rfl⟩))
        rcases hT.last with hempty | ⟨v, hv⟩
        · rcases hT'.last with hempty' | ⟨v', hv'⟩
          · rw [hempty, hempty']
          · rw [hempty, hv'] at hslot
            rw [hv'] at hne'
            exact absurd hslot.symm hne'
        · rcases hT'.last with hempty' | ⟨v', hv'⟩
          · rw [hv, hempty'] at hslot
            rw [hv] at hne
            exact absurd hslot hne
          · rw [hv, hv'] at hslot ⊢
            exact congrArg _ (Subtype.ext hslot)
      · exact ih i (hT.child hi) (hT'.child hi) (fun hR hS => hinj (.full hR) (.full hS))
          (fun _ _ hat => hclear _ _ (.full hat)) (fun _ _ hat => hclear' _ _ (.full hat))
          (ref_eq_of_hashEnc_eq henc hi)

end MetaNode
