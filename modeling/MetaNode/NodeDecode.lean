/-
What comes back from the store (`DecodeNode` of `pkg/trie/node/node.go`, with
`full_node.go` and `short_node.go`).

A stored node does not say of what kind its children are.  `FullNode.Unmarshal` takes
each of them for a hash, also the value at 16, and writes as many as there are into
an array of 17.  `ShortNode.Unmarshal` goes by the terminator of the key.
-/
import MetaNode.TrieShape

namespace MetaNode

open Patricia TrieM

variable (E : Env)

/-! ### Full nodes -/

/-- What `FullNode` holds after its children were collapsed. -/
structure CollapsedFull (ch : Nibble → Node) : Prop where
  child : ∀ i, i ≠ 16 →
    ch i = .nil ∨ ∃ h, ch i = .hash h ∧ h.length = 32 ∧ h ≠ List.replicate 32 0
  last : ch 16 = .nil ∨ ∃ v, ch 16 = .value v ∧ v ≠ []

theorem childOfBytes_hash {h : Bytes} (hlen : h.length = 32) (hne : h ≠ List.replicate 32 0) :
    childOfBytes h = .hash h := by
  rw [childOfBytes, if_neg]
  intro hz
  rw [show bytesToHash h = ⟨h, hlen⟩ from bytesToHash_val ⟨h, hlen⟩] at hz
  exact hne (congrArg Subtype.val hz)

theorem childOfBytes_ne_value (b v : Bytes) : childOfBytes b ≠ .value v := by
  rw [childOfBytes]
  split
  · exact Node.noConfusion
  · exact Node.noConfusion

/-- **A full node comes back with its children just if it has no value at 16.** -/
theorem decodeNode_marshal_full_iff {ch : Nibble → Node} (h : CollapsedFull ch) (flags : NodeFlag)
    (hash : Bytes) :
    (∃ flags', decodeNode E hash ((Node.full ch flags).marshal E) = .ok (.full ch flags')) ↔
      ch 16 = .nil := by
  have hdec := decodeNode_fullMarshal E hash
    fun i => if (ch i).isNil then List.replicate 32 0 else (ch i).marshal E
  rw [Node.marshal, hdec]
  constructor
  · rintro ⟨flags', heq⟩
    have hch := (Node.full.inj (Except.ok.inj heq)).1
    refine h.last.resolve_right ?_
    rintro ⟨v, hv, -⟩
    exact childOfBytes_ne_value _ v ((congrFun hch 16).trans hv)
  · intro h16
    refine ⟨_, congrArg (fun c => Except.ok (Node.full c _)) (funext fun i => ?_)⟩
    have hi : ch i = .nil ∨ ∃ h, ch i = .hash h ∧ h.length = 32 ∧ h ≠ List.replicate 32 0 := by
      by_cases hi : i = 16
      · exact .inl (hi ▸ h16)
      · exact h.child i hi
    rcases hi with hnil | ⟨h, hh, hlen, hne⟩
    · rw [hnil]
      have hzero : bytesToHash (List.replicate 32 0) = FixedBytes.zero 32 := by decide
      exact if_pos hzero
    · rw [hh]
      exact childOfBytes_hash hlen hne

/-- A branch with one child, and a value at 16 or none. -/
def oneChild (last : Node) : Nibble → Node := fun i =>
  if i = 16 then last else if i = 3 then .hash (List.replicate 32 1) else .nil

theorem collapsedFull_oneChild : CollapsedFull (oneChild .nil) where
  child i hi := by
    rw [oneChild, if_neg hi]
    by_cases h3 : i = 3
    · rw [if_pos h3]
      exact .inr ⟨_, rfl, by decide, by decide⟩
    · exact .inl (if_neg h3)
  last := .inl rfl

theorem decodeNode_marshal_oneChild :
    CollapsedFull (oneChild .nil) ∧
      ((∃ flags', decodeNode stdEnv [] ((Node.full (oneChild .nil) newFlag).marshal stdEnv)
          = .ok (.full (oneChild .nil) flags')) ↔ oneChild .nil 16 = .nil) :=
  ⟨collapsedFull_oneChild, decodeNode_marshal_full_iff stdEnv collapsedFull_oneChild newFlag []⟩

/-- Two keys, the first a prefix of the second, so that its value is put at 16. -/
def nestedKeys : MerklePatriciaTrie.Round :=
  ⟨[([0x12], [10]), ([0x12, 0x34], [11])], false, id, List.Perm.refl⟩

/-- The value at 16 comes back as a hash.  After a commit and a reload `Get` of the
shorter key looks for the node of that hash, and reports it missing. -/
theorem last_value_lost :
    (∃ ch' flags',
        decodeNode stdEnv [] ((Node.full (oneChild (.value [10])) newFlag).marshal stdEnv)
          = .ok (.full ch' flags') ∧ ch' 16 = .hash [10]) ∧
      ((MerklePatriciaTrie.persist stdEnv (fun _ => none) emptyRootHash false nestedKeys).bind
          fun stored => (MerklePatriciaTrie.new stdEnv stored.2 stored.1 false).bind
            fun t => (t.get stdEnv [0x12]).1)
        = .error (.err (.getKey (.missingNode (bytesToHash [10]) [1, 2, 16]))) := by
  refine ⟨⟨_, _, decodeNode_fullMarshal stdEnv [] _, ?_⟩, ?_⟩
  · rfl
  · decide +kernel

/-! ### Short nodes -/

def DecodedShort (key : Path) (val : Node) : Prop :=
  (16 ∉ key ∧ ∃ h, val = .hash h) ∨ (Terminated 16 key ∧ ∃ v, val = .value v)

theorem compactToHex_cons (b : UInt8) (bs : Bytes) :
    ∃ w, 16 ∉ w ∧ compactToHex (b :: bs) = w ++ if hiNibble b < 2 then [] else [16] := by
  have hle : 2 - (hiNibble b).val % 2 ≤ (nibbles (b :: bs)).length := by
    rw [length_nibbles, List.length_cons]
    omega
  refine ⟨(nibbles (b :: bs)).drop (2 - (hiNibble b).val % 2),
    fun h => not_mem_nibbles _ (List.mem_of_mem_drop h), ?_⟩
  rw [compactToHex, keybytesToHex]
  by_cases hflag : hiNibble b < 2
  · rw [if_pos hflag, if_pos hflag, List.dropLast_concat, List.append_nil]
  · rw [if_neg hflag, if_neg hflag, List.drop_append_of_le_length hle]

variable {hash buf : Bytes}

theorem shortUnmarshal_eq_some {n : Node} (h : shortUnmarshal E hash buf = some n) :
    ∃ key val flags, n = .short key val flags ∧ DecodedShort key val := by
  rw [shortUnmarshal, Option.map_eq_some_iff] at h
  obtain ⟨m, -, rfl⟩ := h
  refine ⟨_, _, _, rfl, ?_⟩
  cases m.key with
  | nil => exact .inl ⟨List.not_mem_nil, m.value, rfl⟩
  | cons b bs =>
    obtain ⟨w, hw, heq⟩ := compactToHex_cons b bs
    rw [heq]
    by_cases hflag : hiNibble b < 2
    · rw [if_pos hflag, List.append_nil, hasTerm_eq_false hw]
      exact .inl ⟨hw, m.value, rfl⟩
    · rw [if_neg hflag, show hasTerm (w ++ [16]) = true by simp [hasTerm]]
      exact .inr ⟨⟨w, hw, rfl⟩, m.value, rfl⟩

/-- What may be left of a search key at a node: its terminator is ahead, or it is
used up. -/
def Rest (rest : Path) : Prop := rest = [] ∨ Terminated 16 rest

/-- The step from a short node to the hash node below it. -/
structure Below (key : Path) (val : Node) (rest rest' : Path) : Prop where
  hash : ∃ h, val = .hash h
  split : rest = key ++ rest'
  rest : Rest rest'

/-- None of the calls has an index out of range at the short node: where it panics, the
call on the hash node below does. -/
structure Processable (key : Path) (val : Node) : Prop where
  get : ∀ db fuel pre rest flags t t', Rest rest →
    Node.get E db (fuel + 1) (.short key val flags) (pre ++ rest) pre.length t
      = (.error .panic, t') →
    ∃ rest', Below key val rest rest' ∧
      Node.get E db fuel val (pre ++ key ++ rest') (pre ++ key).length t = (.error .panic, t')
  insert : ∀ db fuel pre rest flags v t t', Rest rest →
    Node.insert E db (fuel + 1) (.short key val flags) pre rest (.value v) t
      = (.error .panic, t') →
    ∃ rest', Below key val rest rest' ∧
      Node.insert E db fuel val (pre ++ key) rest' (.value v) t = (.error .panic, t')
  delete : ∀ db fuel pre rest flags t t', Rest rest →
    Node.delete E db (fuel + 1) (.short key val flags) pre rest t = (.error .panic, t') →
    ∃ rest', Below key val rest rest' ∧
      Node.delete E db fuel val (pre ++ key) rest' t = (.error .panic, t')

section DecodedShort

variable {E} {db : DB} {key : Path} {val : Node}

/-- Where the key of the node matches, the search goes on at the hash, or has come
to its end at the value. -/
theorem DecodedShort.below {rest' : Path} (h : DecodedShort key val) (hr : Rest (key ++ rest')) :
    Below key val (key ++ rest') rest' ∨ (rest' = [] ∧ ∃ v, val = .value v) := by
  rcases h with ⟨h16, hval⟩ | ⟨hk, hval⟩
  · refine .inl ⟨hval, rfl, ?_⟩
    rcases hr with hnil | hterm
    · exact .inl (List.append_eq_nil_iff.mp hnil).2
    · exact .inr (hterm.of_append h16)
  · refine .inr ⟨?_, hval⟩
    rcases hr with hnil | hterm
    · exact (List.append_eq_nil_iff.mp hnil).2
    · exact hk.eq_nil_of_append hterm

variable {rest : Path}

theorem DecodedShort.not_past {bs : Path} {b : Nibble} (h : DecodedShort key val)
    (hr : Terminated 16 rest) : key ≠ rest ++ b :: bs := by
  rintro rfl
  rcases h with ⟨h16, -⟩ | ⟨hk, -⟩
  · obtain ⟨w, -, rfl⟩ := hr
    exact h16 (by simp)
  · exact absurd (hr.eq_nil_of_append hk) (List.cons_ne_nil b bs)

theorem Node.get_value_ne_panic (fuel : ℕ) (v : Bytes) (search : Path) (pos : ℕ) (t t' : Tracer) :
    Node.get E db fuel (.value v) search pos t ≠ (.error .panic, t') := by
  intro h
  cases fuel <;> simp [Node.get] at h

theorem Node.insert_value_ne_panic (fuel : ℕ) (v v' : Bytes) (pre : Path) (t t' : Tracer) :
    Node.insert E db fuel (.value v) pre [] (.value v') t ≠ (.error .panic, t') := by
  intro h
  cases fuel <;> simp [Node.insert] at h

theorem Node.insert_short_fork_one {p as bs : Path} {a b : Nibble} (pre : Path) (n v : Node)
    (fl : NodeFlag) (t : Tracer) (hab : a ≠ b) :
    Node.insert E db 1 (.short (p ++ a :: as) n fl) pre (p ++ b :: bs) v t
      = (.error .outOfFuel, t) := by
  obtain ⟨x, xs, hx⟩ := List.exists_cons_of_ne_nil (show p ++ b :: bs ≠ [] by simp)
  have hlen : prefixLen (x :: xs) (p ++ a :: as) = p.length := by
    rw [← hx, prefixLen_fork p as bs hab]
  have hne : p.length ≠ (p ++ a :: as).length := by simp
  rw [hx, Node.insert, if_neg (by rw [hlen]; exact hne), hlen, ← hx]
  simp only [List.drop_left]
  rfl

variable {fuel : ℕ} {pre : Path} {flags : NodeFlag} {t t' : Tracer} (h : DecodedShort key val)

include h

theorem DecodedShort.get (hr : Rest rest)
    (hp : Node.get E db (fuel + 1) (.short key val flags) (pre ++ rest) pre.length t
      = (.error .panic, t')) :
    ∃ rest', Below key val rest rest' ∧
      Node.get E db fuel val (pre ++ key ++ rest') (pre ++ key).length t = (.error .panic, t') := by
  by_cases hk : key <+: rest
  · obtain ⟨rest', rfl⟩ := hk
    rw [Node.get_short_append, bind_eq_error] at hp
    rcases hp with hp | ⟨r, t₁, -, hp⟩
    · rcases h.below hr with hb | ⟨-, v, rfl⟩
      · exact ⟨rest', hb, hp⟩
      · exact absurd hp (Node.get_value_ne_panic fuel v _ _ t t')
    · simp at hp
  · rw [Node.get_short_differ fuel val flags t hk] at hp
    simp at hp

theorem DecodedShort.insert {v : Bytes} (hr : Rest rest)
    (hp : Node.insert E db (fuel + 1) (.short key val flags) pre rest (.value v) t
      = (.error .panic, t')) :
    ∃ rest', Below key val rest rest' ∧
      Node.insert E db fuel val (pre ++ key) rest' (.value v) t = (.error .panic, t') := by
  rcases hr with rfl | hterm
  · -- the end of the search key: the node gives way to the value
    simp [Node.insert] at hp
  rcases prefix_or_fork rest key with
    ⟨rest', rfl⟩ | ⟨p, a, as, b, bs, hab, rfl, rfl⟩ | ⟨b, bs, hpast⟩
  · rw [Node.insert_short_append fuel pre _ t val flags hterm.ne_nil, bind_eq_error] at hp
    rcases hp with hp | ⟨⟨dirty, n⟩, t₁, -, hp⟩
    · rcases h.below (.inr hterm) with hb | ⟨rfl, w, rfl⟩
      · exact ⟨rest', hb, hp⟩
      · exact absurd hp (Node.insert_value_ne_panic fuel w v _ t t')
    · cases dirty <;> simp [bind_apply] at hp
  · -- two nodes are made below a branch
    cases fuel with
    | zero =>
      rw [Node.insert_short_fork_one pre val _ flags t hab] at hp
      simp at hp
    | succ fuel =>
      rw [Node.insert_short_fork fuel pre _ t val flags hab] at hp
      simp at hp
  · exact absurd hpast (h.not_past hterm)

theorem DecodedShort.delete (hr : Rest rest)
    (hp : Node.delete E db (fuel + 1) (.short key val flags) pre rest t = (.error .panic, t')) :
    ∃ rest', Below key val rest rest' ∧
      Node.delete E db fuel val (pre ++ key) rest' t = (.error .panic, t') := by
  by_cases hk : key <+: rest
  · obtain ⟨rest', rfl⟩ := hk
    by_cases hne : rest' = []
    · subst hne
      rw [List.append_nil, Node.delete_short_whole] at hp
      simp at hp
    · rw [Node.delete_short_append fuel pre t key val flags hne, bind_eq_error] at hp
      rcases hp with hp | ⟨⟨dirty, n⟩, t₁, -, hp⟩
      · rcases h.below hr with hb | ⟨hnil, -⟩
        · exact ⟨rest', hb, hp⟩
        · exact absurd hnil hne
      · cases dirty <;> cases n <;> simp [bind_apply] at hp
  · rw [Node.delete_short_differ fuel pre t val flags hk] at hp
    simp at hp

theorem DecodedShort.processable : Processable E key val where
  get _ _ _ _ _ _ _ := h.get
  insert _ _ _ _ _ _ _ _ := h.insert
  delete _ _ _ _ _ _ _ := h.delete

end DecodedShort

/-! ### DecodeNode -/

def Node.Unloaded : Node → Prop
  | .short _ n _ => (∃ v, n = .value v) ∨ ∃ h, n = .hash h
  | .full ch _ => ∀ i, ch i = .nil ∨ ∃ h, ch i = .hash h
  | .value _ => False
  | _ => True

theorem fullUnmarshal_eq_some {r : Except Fault Node} (h : fullUnmarshal E hash buf = some r) :
    r = .error .panic ∨ ∃ n, r = .ok n ∧ n.Unloaded := by
  rw [fullUnmarshal, Option.map_eq_some_iff] at h
  obtain ⟨m, -, rfl⟩ := h
  split
  · refine .inr ⟨_, rfl, fun i => ?_⟩
    show childOfBytes _ = .nil ∨ ∃ h, childOfBytes _ = .hash h
    rw [childOfBytes]
    split
    · exact .inl rfl
    · exact .inr ⟨_, rfl⟩
  · exact .inl rfl

/-- **What decoding yields**: a node with nothing below it loaded, unless it panics. -/
theorem decodeNode_unloaded (hash buf : Bytes) :
    decodeNode E hash buf = .error .panic ∨ ∃ n, decodeNode E hash buf = .ok n ∧ n.Unloaded := by
  rw [decodeNode]
  split
  · exact .inr ⟨_, rfl, trivial⟩
  · next m _ =>
    split
    · cases hf : fullUnmarshal E hash m.data with
      | none => exact .inr ⟨_, rfl, trivial⟩
      | some => exact fullUnmarshal_eq_some E hf
    · cases hs : shortUnmarshal E hash m.data with
      | none => exact .inr ⟨_, rfl, trivial⟩
      | some =>
        obtain ⟨key, val, flags, rfl, hshort⟩ := shortUnmarshal_eq_some E hs
        exact .inr ⟨_, rfl, hshort.symm.imp And.right And.right⟩
    · exact .inr ⟨_, rfl, trivial⟩

def Overfull (buf : Bytes) : Prop :=
  ∃ m f, MPTNode.unmarshal E buf = some m ∧ m.type = .full ∧
    MPTFullNode.unmarshal E m.data = some f ∧ ∃ v ∈ f.nodes.drop 17, childOfBytes v ≠ .nil

def OtherType (buf : Bytes) : Prop :=
  ∃ m, MPTNode.unmarshal E buf = some m ∧ m.type ≠ .full ∧ m.type ≠ .short

/-- `DecodeNode` returns a node that `get`, `insert` and `delete` can work on. -/
def Decodes (hash buf : Bytes) : Prop :=
  ∃ n, decodeNode E hash buf = .ok n ∧ n ≠ .nil ∧
    ∀ key val flags, n = .short key val flags → Processable E key val

theorem decodes_hash {h : Bytes} (hd : decodeNode E hash buf = .ok (.hash h)) :
    Decodes E hash buf := by
  refine ⟨.hash h, hd, Node.noConfusion, ?_⟩
  intro key val flags he
  cases he

theorem decodes_full_iff {m : MPTNode} (hm : MPTNode.unmarshal E buf = some m)
    (ht : m.type = .full) :
    Decodes E hash buf ↔ ¬ ∃ f, MPTFullNode.unmarshal E m.data = some f ∧
      ∃ v ∈ f.nodes.drop 17, childOfBytes v ≠ .nil := by
  have hd : decodeNode E hash buf
      = (fullUnmarshal E hash m.data).getD (.ok (.hash m.data)) := by
    rw [decodeNode, hm]
    dsimp only
    rw [ht]
  rw [fullUnmarshal] at hd
  cases hf : MPTFullNode.unmarshal E m.data with
  | none =>
    rw [hf, Option.map_none, Option.getD_none] at hd
    refine iff_of_true (decodes_hash E hd) ?_
    rintro ⟨f, hf', -⟩
    cases hf'
  | some f =>
    rw [hf, Option.map_some, Option.getD_some] at hd
    by_cases hall : (f.nodes.drop 17).all fun v => (childOfBytes v).isNil
    · rw [if_pos hall] at hd
      refine iff_of_true ⟨_, hd, Node.noConfusion, ?_⟩ ?_
      · intro key val flags he
        cases he
      · rintro ⟨f', hf', v, hv, hne⟩
        obtain rfl := Option.some.inj hf'
        exact hne (Node.isNil_iff.mp (List.all_eq_true.mp hall v hv))
    · -- the array of children is too short
      rw [if_neg hall] at hd
      refine iff_of_false ?_ (not_not_intro ?_)
      · rintro ⟨n, hn, -⟩
        cases hn.symm.trans hd
      · rw [List.all_eq_true] at hall
        push Not at hall
        obtain ⟨v, hv, hne⟩ := hall
        exact ⟨f, rfl, v, hv, mt Node.isNil_iff.mpr hne⟩

theorem decodes_short {m : MPTNode} (hm : MPTNode.unmarshal E buf = some m) (ht : m.type = .short)
    (hash : Bytes) : Decodes E hash buf := by
  have hd : decodeNode E hash buf
      = .ok ((shortUnmarshal E hash m.data).getD (.hash m.data)) := by
    rw [decodeNode, hm]
    dsimp only
    rw [ht]
  cases hs : shortUnmarshal E hash m.data with
  | none =>
    rw [hs, Option.getD_none] at hd
    exact decodes_hash E hd
  | some =>
    rw [hs, Option.getD_some] at hd
    obtain ⟨key, val, flags, rfl, hshort⟩ := shortUnmarshal_eq_some E hs
    refine ⟨_, hd, Node.noConfusion, ?_⟩
    intro key' val' flags' he
    cases he
    exact hshort.processable

theorem not_decodes_otherType (h : OtherType E buf) : ¬ Decodes E hash buf := by
  obtain ⟨m, hm, hfull, hshort⟩ := h
  -- neither a node nor an error
  have hd : decodeNode E hash buf = .ok .nil := by
    rw [decodeNode, hm]
    dsimp only
    split
    · exact absurd (by assumption) hfull
    · exact absurd (by assumption) hshort
    · rfl
  rintro ⟨n, hn, hne, -⟩
  exact hne (Except.ok.inj (hn.symm.trans hd))

/-- **When a blob decodes to a node.** -/
theorem decodeNode_node_iff (hash buf : Bytes) :
    Decodes E hash buf ↔ ¬ Overfull E buf ∧ ¬ OtherType E buf := by
  cases hm : MPTNode.unmarshal E buf with
  | none =>
    have hd : decodeNode E hash buf = .ok (.hash buf) := by rw [decodeNode, hm]
    refine iff_of_true (decodes_hash E hd) ⟨?_, ?_⟩
    · rintro ⟨m, f, hm', -⟩
      cases hm.symm.trans hm'
    · rintro ⟨m, hm', -⟩
      cases hm.symm.trans hm'
  | some m =>
    have hover : Overfull E buf ↔ m.type = .full ∧ ∃ f, MPTFullNode.unmarshal E m.data = some f ∧
        ∃ v ∈ f.nodes.drop 17, childOfBytes v ≠ .nil := by
      simp [Overfull, hm]
    have hother : OtherType E buf ↔ m.type ≠ .full ∧ m.type ≠ .short := by
      simp [OtherType, hm]
    by_cases hfull : m.type = .full
    · rw [decodes_full_iff E hm hfull, hover, hother]
      simp [hfull]
    by_cases hshort : m.type = .short
    · refine iff_of_true (decodes_short E hm hshort hash) ?_
      rw [hover, hother]
      simp [hshort]
    · exact iff_of_false (not_decodes_otherType E (hother.mpr ⟨hfull, hshort⟩))
        fun h => h.2 (hother.mpr ⟨hfull, hshort⟩)

/-- The stored form of a full node with 18 children makes `DecodeNode` panic, and for a
node of the type `VALUE` it returns neither a node nor an error. -/
theorem decodeNode_panics :
    decodeNode stdEnv [] (MPTNode.marshal stdEnv ⟨.full, MPTFullNode.marshal stdEnv
        ⟨List.replicate 18 (List.replicate 32 1)⟩⟩) = .error .panic ∧
      decodeNode stdEnv [] (MPTNode.marshal stdEnv ⟨.value, [1]⟩) = .ok .nil := by
  constructor
  · rw [decodeNode, MPTNode.unmarshal_marshal stdEnv (.inl rfl)]
    dsimp only
    rw [fullUnmarshal, MPTFullNode.unmarshal_marshal]
    rfl
  · rfl

end MetaNode
