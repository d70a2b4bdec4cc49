/-
Exporting and importing a trie (`GetAll`, `ExportTrie` and `ImportTrie` of
`pkg/trie/trie.go`).

`Node.walk` is the depth-first walk behind `getAll`: it loads what is not in
memory and hands every value with its path to `visit`.
-/
import Mathlib.Data.Finset.Lattice.Fold
import Mathlib.Data.Fintype.Basic
import MetaNode.TrieReopen

namespace MetaNode

open Patricia Patricia.Tree TrieM

/-! ### The walk -/

section Walk

variable {σ : Type} (E : Env) (db : DB) (visit : Path → Bytes → σ → σ)

/-- The walk below a node at the path `pre`.  It follows hash nodes into the
database, so it is bounded by a fuel argument. -/
def Node.walk : ℕ → Node → Path → σ → TrieM σ
  | 0, _, _, _ => throw .outOfFuel
  | _ + 1, .nil, _, s => pure s
  | _ + 1, .value v, pre, s => pure (visit pre v s)
  | fuel + 1, .short key val _, pre, s => Node.walk fuel val (pre ++ key) s
  | fuel + 1, .full ch _, pre, s =>
    (List.finRange 17).foldlM (fun s i =>
      if (ch i).isNil then pure s else Node.walk fuel (ch i) (pre ++ [i]) s) s
  | fuel + 1, .hash h, pre, s => do
    let child ← resolveAndTrack E db h pre
    Node.walk fuel child pre s

end Walk

/-- The key under which `getAll` files a value: the hexadecimal text of its path,
followed by the nibbles of the hash of the path. -/
def dataKey (E : Env) (pre : Path) : Bytes :=
  hexEncode (pre.bytes ++ (keybytesToHex (E.keccak256 pre.bytes).1).bytes)

def Node.getAll (E : Env) (db : DB) (fuel : ℕ) (n : Node) (pre : Path)
    (data : AList fun _ : Bytes => Bytes) : TrieM (AList fun _ : Bytes => Bytes) :=
  n.walk E db (fun pre v data => data.insert (dataKey E pre) v) fuel pre data

/-! ### Export and import -/

/-- What the file holds: the root and the pairs of `GetAll`. -/
structure TrieData where
  rootHash : Hash
  keyValues : AList fun _ : Bytes => Bytes

/-- The same data, with the pairs of the map in any order. -/
structure TrieData.Same (file data : TrieData) : Prop where
  rootHash : file.rootHash = data.rootHash
  keyValues : file.keyValues.entries.Perm data.keyValues.entries

def Fault.wrap (f : TrieError → TrieError) : Fault → Fault
  | .err e => .err (f e)
  | e => e

namespace MerklePatriciaTrie

variable (E : Env)

def getAll (t : MerklePatriciaTrie) (fuel : ℕ) :
    Except Fault (AList fun _ : Bytes => Bytes) × MerklePatriciaTrie :=
  if t.committed then (.error (.err .committed), t)
  else
    match t.root.getAll E t.reader fuel [] ∅ t.tracer with
    | (.ok data, tracer) => (.ok data, { t with tracer })
    | (.error e, tracer) => (.error e, { t with tracer })

/-- `ExportTrie`: what is written to the file. -/
def exportTrie (t : MerklePatriciaTrie) (fuel : ℕ) : Except Fault TrieData × MerklePatriciaTrie :=
  let (rootHash, t) := t.hash E
  match t.getAll E fuel with
  | (.ok allData, t) => (.ok ⟨rootHash, allData⟩, t)
  | (.error e, t) => (.error (e.wrap .exportData), t)

/-- The loop of `ImportTrie` over the pairs, in the order the map is ranged
over. -/
def importAll (t : MerklePatriciaTrie) :
    List (Sigma fun _ : Bytes => Bytes) → Except Fault MerklePatriciaTrie
  | [] => .ok t
  | ⟨key, value⟩ :: kvs =>
    match t.update E key value with
    | (.ok (), t) => t.importAll kvs
    | (.error e, _) => .error (e.wrap (.importUpdate key))

/-- `ImportTrie`, over a new database in memory. -/
def importTrie (data : TrieData) : Except Fault MerklePatriciaTrie :=
  match new E (fun _ => none) data.rootHash true with
  | .ok t => t.importAll E data.keyValues.entries
  | .error e => .error (e.wrap .importNew)

end MerklePatriciaTrie

/-! ### What the walk visits -/

variable {E : Env} {P : KeyTree → Prop} {db : DB} {σ : Type}

def pairs (T : KeyTree) : List (Path × Val) := T.entries (List.finRange 17)

theorem pairs_short (k : Path) (c : KeyTree) :
    pairs (.short k c) = (pairs c).map (Prod.map (k ++ ·) id) := rfl

theorem pairs_full (ch : Nibble → KeyTree) :
    pairs (.full ch)
      = (List.finRange 17).flatMap fun i => (pairs (ch i)).map (Prod.map (i :: ·) id) := rfl

theorem mem_pairs {T : KeyTree} {p : Path} {v : Val} : (p, v) ∈ pairs T ↔ T.lookup p = some v :=
  mem_entries List.mem_finRange

theorem nodup_pairs (T : KeyTree) : ((pairs T).map Prod.fst).Nodup :=
  nodup_entries (List.nodup_finRange 17) T

theorem foldlM_ok {α : Type} {f : σ → α → TrieM σ} {g : σ → α → σ} {l : List α}
    (h : ∀ a ∈ l, ∀ s tr, ∃ tr', f s a tr = (.ok (g s a), tr')) (s : σ) (tr : Tracer) :
    ∃ tr', l.foldlM f s tr = (.ok (l.foldl g s), tr') := by
  induction l generalizing s tr with
  | nil => exact ⟨tr, rfl⟩
  | cons a l ih =>
    obtain ⟨tr₁, h₁⟩ := h a List.mem_cons_self s tr
    obtain ⟨tr₂, h₂⟩ := ih (fun b hb => h b (List.mem_cons_of_mem a hb)) (g s a) tr₁
    refine ⟨tr₂, ?_⟩
    rw [List.foldlM_cons, bind_ok h₁, List.foldl_cons]
    exact h₂

/-- The walk below `n` at `pre` ends and visits the pairs of `T`. -/
def Visits (E : Env) (db : DB) (visit : Path → Bytes → σ → σ) (n : Node) (T : KeyTree) (pre : Path)
    (fuel : ℕ) : Prop :=
  ∀ s tr, ∃ tr', n.walk E db visit fuel pre s tr
    = (.ok ((pairs T).foldl (fun s e => visit (pre ++ e.1) e.2.1 s) s), tr')

variable {visit : Path → Bytes → σ → σ} {n : Node} {T : KeyTree} {pre : Path}

theorem exists_visits (d : ℕ) (h : ∀ f ≥ d, Visits E db visit n T pre (f + 1)) :
    ∃ d, ∀ fuel ≥ d, Visits E db visit n T pre fuel := by
  refine ⟨d + 1, fun fuel hfuel => ?_⟩
  obtain ⟨f, rfl⟩ := Nat.exists_eq_add_one.mpr (Nat.zero_lt_of_lt hfuel)
  exact h f (Nat.le_of_succ_le_succ hfuel)

theorem Loads.visits_of_node (hP : Holds E P db) (hnode : ∀ n, Loads E P n T → (∀ h, n ≠ .hash h) →
      ∃ d, ∀ fuel ≥ d, Visits E db visit n T pre fuel)
    (hn : Loads E P n T) : ∃ d, ∀ fuel ≥ d, Visits E db visit n T pre fuel := by
  by_cases hh : ∀ h, n ≠ .hash h
  · exact hnode n hn hh
  · push Not at hh
    obtain ⟨h, rfl⟩ := hh
    obtain ⟨blob, rn, hl⟩ := hn.present hP pre
    obtain ⟨hrn, hne⟩ := hn.loaded hP hl
    obtain ⟨d, hd⟩ := hnode rn hrn hne
    refine exists_visits d fun f hf s tr => ?_
    rw [Node.walk, bind_ok (hl.resolveAndTrack tr)]
    exact hd f hf s _

/-- **The walk** ends with enough fuel and visits the stored pairs. -/
theorem Loads.walk (hP : Holds E P db) (visit : Path → Bytes → σ → σ) (hn : Loads E P n T)
    (pre : Path) : ∃ d, ∀ fuel ≥ d, Visits E db visit n T pre fuel := by
  induction T generalizing n pre with
  | empty =>
    obtain rfl := hn.of_empty hP
    exact exists_visits 0 fun f _ s tr => ⟨tr, rfl⟩
  | leaf v =>
    obtain rfl := hn.of_leaf hP
    refine exists_visits 0 fun f _ s tr => ⟨tr, ?_⟩
    show (Except.ok (visit pre v.1 s), tr) = (Except.ok (visit (pre ++ []) v.1 s), tr)
    rw [List.append_nil]
  | short k c ih =>
    refine hn.visits_of_node hP fun n hn hne => ?_
    cases hn with
    | hash => exact absurd rfl (hne _)
    | @short k n fl c hc hfl =>
      obtain ⟨d, hd⟩ := ih hc (pre ++ k)
      refine exists_visits d fun f hf s tr => ?_
      obtain ⟨tr', h⟩ := hd f hf s tr
      refine ⟨tr', ?_⟩
      rw [Node.walk, h, pairs_short, List.foldl_map]
      simp only [Prod.map_fst, Prod.map_snd, id_eq, List.append_assoc]
  | full Tc ih =>
    refine hn.visits_of_node hP fun n hn hne => ?_
    cases hn with
    | hash => exact absurd rfl (hne _)
    | @full ch fl Tc hch hfl =>
      choose d hd using fun i => ih i (hch i) (pre ++ [i])
      refine exists_visits (Finset.univ.sup d) fun f hf s tr => ?_
      -- every child gets as much fuel as it needs
      have hchild : ∀ i ∈ List.finRange 17, ∀ s tr, ∃ tr',
          (if (ch i).isNil then pure s else Node.walk E db visit f (ch i) (pre ++ [i]) s) tr
            = (.ok ((pairs (Tc i)).foldl (fun s e => visit (pre ++ [i] ++ e.1) e.2.1 s) s),
              tr') := by
        intro i _ s tr
        by_cases hnil : ch i = .nil
        · rw [((hch i).nil_iff hP).mp hnil, hnil]
          exact ⟨tr, rfl⟩
        · rw [if_neg (mt Node.isNil_iff.mp hnil)]
          exact hd i f (Nat.le_trans (Finset.le_sup (Finset.mem_univ i)) hf) s tr
      obtain ⟨tr', h⟩ := foldlM_ok hchild s tr
      refine ⟨tr', ?_⟩
      rw [Node.walk, h, pairs_full, List.foldl_flatMap]
      simp only [List.foldl_map, Prod.map_fst, Prod.map_snd, id_eq, List.append_assoc,
        List.singleton_append]

/-! ### GetAll -/

theorem dataKey_injective (E : Env) : Function.Injective (dataKey E) := by
  intro p q h
  have happ := hexEncode_injective h
  have hlen : ∀ p : Path, (keybytesToHex (E.keccak256 p.bytes).1).bytes.length = 65 := by
    intro p
    rw [Path.bytes, List.length_map, length_keybytesToHex, (E.keccak256 p.bytes).2]
  have hleft := List.append_inj_left' happ ((hlen p).trans (hlen q).symm)
  exact Path.bytes_injective hleft

theorem lookup_foldl_insert {f : Path → Bytes} (hf : Function.Injective f)
    (l : List (Path × Val)) (hl : (l.map Prod.fst).Nodup) (data : AList fun _ : Bytes => Bytes)
    (k v : Bytes) :
    (l.foldl (fun data e => data.insert (f e.1) e.2.1) data).lookup k = some v ↔
      (∃ e ∈ l, k = f e.1 ∧ v = e.2.1) ∨ (∀ e ∈ l, k ≠ f e.1) ∧ data.lookup k = some v := by
  induction l generalizing data with
  | nil => simp
  | cons e l ih =>
    rw [List.map_cons, List.nodup_cons] at hl
    rw [List.foldl_cons, ih hl.2]
    have hfresh : ∀ e' ∈ l, f e.1 ≠ f e'.1 := by
      intro e' he' heq
      exact hl.1 (hf heq ▸ List.mem_map_of_mem he')
    by_cases hk : k = f e.1
    · subst hk
      rw [AList.lookup_insert, Option.some.injEq]
      constructor
      · rintro (⟨e', he', heq, -⟩ | ⟨-, rfl⟩)
        · exact absurd heq (hfresh e' he')
        · exact .inl ⟨e, List.mem_cons_self, rfl, rfl⟩
      · rintro (⟨e', he', heq, hv⟩ | ⟨hall, -⟩)
        · rcases List.mem_cons.mp he' with rfl | he'
          · exact .inr ⟨hfresh, hv.symm⟩
          · exact absurd heq (hfresh e' he')
        · exact absurd rfl (hall e List.mem_cons_self)
    · rw [AList.lookup_insert_ne hk]
      simp [hk]

namespace MerklePatriciaTrie

variable {t : MerklePatriciaTrie}

/-- **`GetAll`** returns one entry for each stored pair. -/
theorem getAll_represents (hr : Represents E P t T) :
    ∃ d data, (∀ fuel ≥ d, (t.getAll E fuel).1 = .ok data) ∧
      ∀ k v, data.lookup k = some v ↔
        ∃ p u, T.lookup p = some u ∧ k = dataKey E p ∧ v = u.1 := by
  obtain ⟨d, hd⟩ := hr.loads.walk hr.holds
    (fun pre v (data : AList fun _ : Bytes => Bytes) => data.insert (dataKey E pre) v) []
  refine ⟨d, (pairs T).foldl (fun data e => data.insert (dataKey E e.1) e.2.1) ∅, ?_, ?_⟩
  · intro fuel hfuel
    obtain ⟨tr', h⟩ := hd fuel hfuel ∅ t.tracer
    rw [getAll, if_neg (by simp [hr.uncommitted]), Node.getAll, h]
    rfl
  · intro k v
    rw [lookup_foldl_insert (dataKey_injective E) _ (nodup_pairs T)]
    constructor
    · rintro (⟨⟨p, u⟩, hmem, hk, hv⟩ | ⟨-, hnone⟩)
      · exact ⟨p, u, mem_pairs.mp hmem, hk, hv⟩
      · simp at hnone
    · rintro ⟨p, u, hp, hk, hv⟩
      exact .inl ⟨(p, u), mem_pairs.mpr hp, hk, hv⟩

/-! ### Importing what was exported -/

theorem exportTrie_represents (hr : Represents E P t T) :
    ∃ d data, data.rootHash = rootHash E T ∧ ∀ fuel ≥ d, (t.exportTrie E fuel).1 = .ok data := by
  obtain ⟨hroot, hr', -⟩ := hash_represents hr
  obtain ⟨d, data, hd, -⟩ := getAll_represents hr'
  refine ⟨d, ⟨rootHash E T, data⟩, rfl, fun fuel hfuel => ?_⟩
  have hall := hd fuel hfuel
  rw [exportTrie]
  dsimp only
  cases hget : (t.hash E).2.getAll E fuel with
  | mk res =>
    rw [hget] at hall
    rw [show res = .ok data from hall, hroot]

theorem exportTrie_nil (hnil : t.root = .nil) (hopen : t.committed = false) {fuel : ℕ}
    {data : TrieData} (h : (t.exportTrie E fuel).1 = .ok data) : data = ⟨emptyRootHash, ∅⟩ := by
  obtain ⟨root, committed, reader, tracer, isHash⟩ := t
  obtain rfl : root = .nil := hnil
  obtain rfl : committed = false := hopen
  cases fuel with
  | zero => exact nomatch h
  | succ => exact (Except.ok.inj h).symm

theorem importTrie_empty {file : TrieData} (hsame : file.Same ⟨emptyRootHash, ∅⟩) :
    importTrie E file = .ok ⟨.nil, false, fun _ => none, .new, true⟩ := by
  have hnil : file.keyValues.entries = [] := hsame.keyValues.eq_nil
  rw [importTrie, hsame.rootHash, new_empty]
  show importAll E _ file.keyValues.entries = _
  rw [hnil, importAll]

theorem importTrie_error {file : TrieData} (hzero : file.rootHash ≠ FixedBytes.zero 32)
    (hempty : file.rootHash ≠ emptyRootHash) :
    importTrie E file = .error (.err (.importNew (.missingNode file.rootHash []))) := by
  have hnode : DB.node (fun _ => none) [] (bytesToHash file.rootHash.1)
      = .error (.err (.missingNode file.rootHash [])) := by
    rw [bytesToHash_val]
    rfl
  rw [importTrie, new, if_pos ⟨hzero, hempty⟩, resolveAndTrack_missing hnode]
  rfl

/-- **Only the empty trie can be imported again.**  The trie is any that was
reopened after some rounds of updates on 32-byte keys and updated further; `file`
is what decoding the exported data gives. -/
theorem import_export_iff (E : Env) (db : DB) (isHash : Bool) (rs : List Round)
    (ops : List (Bytes × Bytes)) (hlen : ∀ op ∈ allOps rs ++ ops, op.1.length = 32)
    (hK : ∀ m ∈ (emptyTrie db isHash).memoryStates E rs, Ideal E.keccak256 (m.root.encodings E))
    (hK' : Ideal E.keccak256 ((memoryTrie E db isHash (allOps rs ++ ops)).root.encodings E)) :
    ∃ t t', (emptyTrie db isHash).reopen E rs = .ok t ∧ t.updateAll E ops = (.ok (), t') ∧
      ((∀ fuel data file, (t'.exportTrie E fuel).1 = .ok data → file.Same data →
          ∃ u, importTrie E file = .ok u ∧ (u.hash E).1 = (t'.hash E).1 ∧
            ∀ key, (u.get E key).1 = (t'.get E key).1) ↔
        t'.root = .nil) := by
  obtain ⟨t, t', -, T', hre, hupd, -, -, hr', hm, -⟩ := reopen_updateAll E db isHash hlen hK
  refine ⟨t, t', hre, hupd, ?_⟩
  constructor
  · intro hall
    by_contra hnil
    have hne : T' ≠ .empty := mt (hr'.loads.nil_iff hr'.holds).mpr hnil
    obtain ⟨d, data, hroot, hexp⟩ := exportTrie_represents hr'
    obtain ⟨u, himp, -⟩ := hall d data data (hexp d le_rfl) ⟨rfl, .refl _⟩
    -- the exported root is the hash of a node
    have hmem := hm.loads.mem_encodings hm.canonical
      (.here (isNode_of_canonical hr'.canonical hne))
    rw [rootHash_of_ne hne] at hroot
    rw [importTrie_error (hroot ▸ hK'.ne_zero _ hmem) (hroot ▸ hK'.ne_empty _ hmem)] at himp
    exact nomatch himp
  · intro hnil fuel data file hexp hsame
    have hempty := (hr'.loads.nil_iff hr'.holds).mp hnil
    obtain rfl := exportTrie_nil hnil hr'.uncommitted hexp
    refine ⟨_, importTrie_empty hsame, ?_, ?_⟩
    · rw [(hash_represents hr').1, hempty]
      rfl
    · intro key
      obtain ⟨_, hget, -⟩ := get_represents hr' key
      obtain ⟨_, hget', -⟩ := get_represents (represents_empty E (fun _ => none) true) key
      rw [hget, hget', hempty, lookup_empty, lookup_empty]

def oneKey : List (Bytes × Bytes) := [(List.replicate 32 0x11, [1])]

theorem import_export_iff_oneKey :
    ∃ t t', (emptyTrie (fun _ => none) true).reopen stdEnv
        [⟨oneKey, false, id, fun _ => .refl _⟩] = .ok t ∧
      t.updateAll stdEnv [(List.replicate 32 0x12, [2])] = (.ok (), t') ∧
      ((∀ fuel data file, (t'.exportTrie stdEnv fuel).1 = .ok data → file.Same data →
          ∃ u, importTrie stdEnv file = .ok u ∧ (u.hash stdEnv).1 = (t'.hash stdEnv).1 ∧
            ∀ key, (u.get stdEnv key).1 = (t'.get stdEnv key).1) ↔
        t'.root = .nil) :=
  import_export_iff stdEnv (fun _ => none) true [⟨oneKey, false, id, fun _ => .refl _⟩]
    [(List.replicate 32 0x12, [2])] (by decide) (by decide +kernel) (by decide +kernel)

/-- A trie with one key is exported, and the import fails: its root is not in the
new database. -/
theorem import_exported_fails :
    ∃ data, ((memoryTrie stdEnv (fun _ => none) true oneKey).exportTrie stdEnv 3).1 = .ok data ∧
      importTrie stdEnv data = .error (.err (.importNew (.missingNode data.rootHash []))) :=
  ⟨((memoryTrie stdEnv (fun _ => none) true oneKey).exportTrie stdEnv 3).1.toOption.getD
      ⟨emptyRootHash, ∅⟩, eq_ok_getD (by decide +kernel) _,
    importTrie_error (by decide +kernel) (by decide +kernel)⟩

end MerklePatriciaTrie

end MetaNode
