/-
The root of a map (`GetRootHash` of `pkg/trie/trie.go`).

The function ranges over a Go map of hexadecimal texts and puts the bytes of each text
into a new trie.  `FromHex` reads a text with and without `0x`, in upper and in lower
case, with and without a leading zero.  Where two texts of the map are read as the same
key, the one that is ranged over last wins.
-/
import MetaNode.AddressHex
import MetaNode.GoMap
import MetaNode.TrieShape

namespace MetaNode

open MerklePatriciaTrie Patricia Patricia.Tree

variable (E : Env) (data : AList fun _ : Bytes => Bytes)
  (walk : Walk (Sigma fun _ : Bytes => Bytes))

def rangeOps : List (Bytes × Bytes) :=
  (walk.order data.entries).map fun e => (fromHex e.1, e.2)

/-- `GetRootHash`, for any order in which the map is ranged over. -/
def getRootHash : Except Fault Hash :=
  match new E (fun _ => none) (FixedBytes.zero 32) false with
  | .error e => .error e
  -- the errors of `Update` are dropped
  | .ok trie => .ok ((trie.applyAll E (rangeOps data walk)).hash E).1

def Agree : Prop :=
  ∀ e ∈ data.entries, ∀ e' ∈ data.entries, fromHex e.1 = fromHex e'.1 → e.2 = e'.2

instance : Decidable (Agree data) :=
  inferInstanceAs (Decidable (∀ e ∈ data.entries, ∀ e' ∈ data.entries, _ → _))

/-! ### The trie that is filled -/

def filled : MerklePatriciaTrie :=
  (emptyTrie (fun _ => none) false).applyAll E (rangeOps data walk)

variable {E} {ops : List (Bytes × Bytes)}

theorem applyAll_of_updateAll {t t' : MerklePatriciaTrie} (h : t.updateAll E ops = (.ok (), t')) :
    t.applyAll E ops = t' := by
  induction ops generalizing t with
  | nil => exact congrArg Prod.snd h
  | cons op ops ih =>
    rw [applyAll, List.foldl_cons]
    rw [updateAll] at h
    split at h
    · next hupd =>
      rw [hupd]
      exact ih h
    · cases h

variable (E) in
theorem represents_filled :
    Represents E Unwritten (filled E data walk) (putAll E false .empty (rangeOps data walk)) ∧
      (filled E data walk).isHash = false := by
  obtain ⟨t', hall, hrep, -, hflag⟩ :=
    updateAll_represents (represents_empty E (fun _ => none) false) (rangeOps data walk)
  have heq : filled E data walk = t' := applyAll_of_updateAll hall
  rw [heq]
  exact ⟨hrep, hflag⟩

theorem getRootHash_eq :
    getRootHash E data walk = .ok (rootHash E (putAll E false .empty (rangeOps data walk))) := by
  rw [← (hash_represents (represents_filled E data walk).1).1]
  rfl

/-! ### The last update of a key -/

variable {data walk}

theorem mem_rangeOps {op : Bytes × Bytes} :
    op ∈ rangeOps data walk ↔ ∃ e ∈ data.entries, (fromHex e.1, e.2) = op := by
  rw [rangeOps, List.mem_map]
  simp only [(walk.perm data.entries).mem_iff]

theorem lastUpdate_of_mem {op : Bytes × Bytes} (hmem : op ∈ ops)
    (hsame : ∀ op' ∈ ops, op'.1 = op.1 → op'.2 = op.2) :
    lastUpdate E false ops op.1 = nilIfEmpty op.2 := by
  rw [lastUpdate]
  cases hfind : ops.reverse.find? fun op' => hashKey E false op'.1 = hashKey E false op.1 with
  | none =>
    rw [List.find?_eq_none] at hfind
    exact absurd (decide_eq_true rfl) (hfind op (List.mem_reverse.mpr hmem))
  | some op' =>
    have hkey : op'.1 = op.1 := by simpa [hashKey] using List.find?_some hfind
    have hmem' : op' ∈ ops := List.mem_reverse.mp (List.mem_of_find?_eq_some hfind)
    exact congrArg nilIfEmpty (hsame op' hmem' hkey)

theorem lastUpdate_of_notMem {key : Bytes} (h : ∀ op ∈ ops, op.1 ≠ key) :
    lastUpdate E false ops key = none := by
  have hfind : (ops.reverse.find? fun op => hashKey E false op.1 = hashKey E false key) = none := by
    rw [List.find?_eq_none]
    intro op hop hkey
    exact h op (List.mem_reverse.mp hop) (by simpa [hashKey] using hkey)
  rw [lastUpdate, hfind]

theorem lastUpdate_order (h : Agree data) (walk walk' : Walk (Sigma fun _ : Bytes => Bytes))
    (key : Bytes) :
    lastUpdate E false (rangeOps data walk) key = lastUpdate E false (rangeOps data walk') key := by
  by_cases hkey : ∃ e ∈ data.entries, fromHex e.1 = key
  · obtain ⟨e, he, rfl⟩ := hkey
    have hlast : ∀ walk : Walk (Sigma fun _ : Bytes => Bytes),
        lastUpdate E false (rangeOps data walk) (fromHex e.1) = nilIfEmpty e.2 := by
      intro walk
      have hmem : (fromHex e.1, e.2) ∈ rangeOps data walk := mem_rangeOps.mpr ⟨e, he, rfl⟩
      refine lastUpdate_of_mem hmem ?_
      intro op' hop' heq
      obtain ⟨e', he', rfl⟩ := mem_rangeOps.mp hop'
      exact h e' he' e he heq
    rw [hlast walk, hlast walk']
  · have hnone : ∀ walk : Walk (Sigma fun _ : Bytes => Bytes),
        lastUpdate E false (rangeOps data walk) key = none := by
      intro walk
      refine lastUpdate_of_notMem ?_
      intro op hop heq
      obtain ⟨e, he, rfl⟩ := mem_rangeOps.mp hop
      exact hkey ⟨e, he, heq⟩
    rw [hnone walk, hnone walk']

/-! ### The condition -/

/-- A walk that comes to `a` last. -/
def Walk.last {α : Type} [DecidableEq α] (a : α) : Walk α where
  order l := if l.contains a then l.erase a ++ [a] else l
  perm l := by
    split
    · next h =>
      have hmem : a ∈ l := List.contains_iff_mem.mp h
      exact (List.perm_append_singleton a _).trans (List.perm_cons_erase hmem).symm
    · exact .refl l

theorem lastUpdate_last {e : Sigma fun _ : Bytes => Bytes} (he : e ∈ data.entries) :
    lastUpdate E false (rangeOps data (Walk.last e)) (fromHex e.1) = nilIfEmpty e.2 := by
  have hcontains : data.entries.contains e = true := List.contains_iff_mem.mpr he
  rw [rangeOps, Walk.last]
  dsimp only
  rw [if_pos hcontains, List.map_append, List.map_singleton, lastUpdate_concat, if_pos rfl]

theorem value_eq_of_last {e e' : Sigma fun _ : Bytes => Bytes} (he : e ∈ data.entries)
    (he' : e' ∈ data.entries) (heq : fromHex e.1 = fromHex e'.1)
    (h : lastUpdate E false (rangeOps data (.last e)) (fromHex e.1)
      = lastUpdate E false (rangeOps data (.last e')) (fromHex e.1)) : e.2 = e'.2 := by
  rw [lastUpdate_last he, heq, lastUpdate_last he'] at h
  exact nilIfEmpty_injective h

/-- A value in the trie is one of the map. -/
theorem mem_entries_of_lookup {p : Path} {v : Val}
    (h : (putAll E false .empty (rangeOps data walk)).lookup p = some v) :
    ∃ e ∈ data.entries, e.2 = v.1 := by
  by_cases hp : ∃ key, p = hexKey E false key
  · obtain ⟨key, rfl⟩ := hp
    have hlast := lookup_putAll (E := E) false (rangeOps data walk) key
    rw [h, Option.map_some, lastUpdate] at hlast
    split at hlast
    · next op hfind =>
      obtain ⟨e, he, rfl⟩ := mem_rangeOps.mp (List.mem_reverse.mp (List.mem_of_find?_eq_some hfind))
      exact ⟨e, he, nilIfEmpty_injective (hlast.symm.trans (nilIfEmpty_of_ne v.2).symm)⟩
    · cases hlast
  · rw [lookup_putAll_of_ne false _ (not_exists.mp hp)] at h
    cases h

theorem slotsClear_filled (h : ∀ e ∈ data.entries, e.2 ≠ List.replicate 32 0) :
    SlotsClear E (putAll E false .empty (rangeOps data walk)) := by
  intro p ch hat
  rcases (hat.canonical (canonical_putAll .empty false _)).last with he | ⟨v, hv⟩
  · rw [he]
    simp [ref]
  · have hlookup := hat.lookup_append [16]
    rw [lookup_full_cons, hv, lookup_leaf, if_pos rfl] at hlookup
    obtain ⟨e, he, heq⟩ := mem_entries_of_lookup hlookup
    rw [hv, ref, ← heq]
    exact h e he

/-- **The root does not depend on the order** if texts of one key have the same value.
Otherwise it does, if the hash has no collisions on the tries of the orders that end with one
of the entries and no value is written like an empty slot. -/
theorem getRootHash_order (E : Env) (data : AList fun _ : Bytes => Bytes) :
    (Agree data → ∃ root, ∀ walk, getRootHash E data walk = .ok root) ∧
    (¬ Agree data → (∀ e ∈ data.entries, e.2 ≠ List.replicate 32 0) →
      (∀ e ∈ data.entries, ∀ e' ∈ data.entries,
        Ideal E.keccak256 ((filled E data (.last e)).root.encodings E ++
          (filled E data (.last e')).root.encodings E)) →
      ∃ walk walk', getRootHash E data walk ≠ getRootHash E data walk') := by
  refine ⟨fun h => ⟨rootHash E (putAll E false .empty (rangeOps data Walk.id)), fun walk => ?_⟩,
    fun hnot hzero hK => ?_⟩
  · rw [getRootHash_eq, putAll_eq (lastUpdate_order h walk Walk.id)]
  · by_contra hsame
    simp only [not_exists, not_not] at hsame
    refine hnot fun e he e' he' heq => value_eq_of_last (E := E) he he' heq ?_
    have htrees := eq_of_hash_eq (represents_filled E data (.last e)).1
      (represents_filled E data (.last e')).1 (hK e he e' he') (slotsClear_filled hzero)
      (slotsClear_filled hzero) (Except.ok.inj (hsame _ _))
    rw [← lookup_putAll, ← lookup_putAll, htrees]

def twoTexts (k k' : Bytes) : AList fun _ : Bytes => Bytes :=
  ((∅ : AList fun _ : Bytes => Bytes).insert k [1]).insert k' [2]

/-- The maps from `ab` and `0xcd`, and from `ab` and `AB`. -/
theorem getRootHash_order_twoTexts :
    (∃ root, ∀ walk, getRootHash stdEnv (twoTexts [97, 98] [48, 120, 99, 100]) walk = .ok root) ∧
    ∃ walk walk', getRootHash stdEnv (twoTexts [97, 98] [65, 66]) walk
      ≠ getRootHash stdEnv (twoTexts [97, 98] [65, 66]) walk' :=
  ⟨(getRootHash_order stdEnv _).1 (by decide),
    (getRootHash_order stdEnv _).2 (by decide) (by decide) (by decide +kernel)⟩

/-- The texts `ab` and `AB` are the same key. -/
theorem getRootHash_ab :
    getRootHash stdEnv (twoTexts [97, 98] [65, 66]) Walk.id
      ≠ getRootHash stdEnv (twoTexts [97, 98] [65, 66]) ⟨List.reverse, List.reverse_perm⟩ := by
  decide +kernel

/-- The content of the trie is the same for every order just if texts of one key have
the same value. -/
theorem agree_iff (E : Env) :
    Agree data ↔ ∀ walk walk' key,
      ((filled E data walk).get E key).1 = ((filled E data walk').get E key).1 := by
  have hget : ∀ walk key, ((filled E data walk).get E key).1
      = .ok (lastUpdate E false (rangeOps data walk) key) := by
    intro walk key
    obtain ⟨hrep, hflag⟩ := represents_filled E data walk
    obtain ⟨evs, hrun, -⟩ := get_represents hrep key
    rw [hrun, hflag, lookup_putAll]
  simp only [hget, Except.ok.injEq]
  exact ⟨lastUpdate_order, fun h e he e' he' heq => value_eq_of_last he he' heq (h _ _ _)⟩

end MetaNode
