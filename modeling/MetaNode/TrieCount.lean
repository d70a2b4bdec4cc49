/-
Counting and listing (`Count` and `GetAll` of `pkg/trie/trie.go`).

`countRecursive` takes the same way as `getAll` and counts the values.
-/
import Mathlib.Data.List.Find
import MetaNode.KeyedLog
import MetaNode.TrieExport

namespace MetaNode

open KeyedLog Patricia Patricia.Tree TrieM

/-- Runs `x` and wraps its error. -/
def TrieM.wrapError {α : Type} (f : TrieError → TrieError) (x : TrieM α) : TrieM α := fun t =>
  match x t with
  | (.ok a, t) => (.ok a, t)
  | (.error e, t) => (.error (e.wrap f), t)

theorem TrieM.wrapError_ok {α : Type} {f : TrieError → TrieError} {x : TrieM α} {t t' : Tracer}
    {a : α} (h : x t = (.ok a, t')) : wrapError f x t = (.ok a, t') := by
  rw [wrapError, h]

/-- `countRecursive`, bounded like the walk of `getAll`. -/
def Node.countRecursive (E : Env) (db : DB) : ℕ → Node → Path → ℕ → TrieM ℕ
  | 0, _, _, _ => throw .outOfFuel
  | _ + 1, .nil, _, count => pure count
  | _ + 1, .value _, _, count => pure (count + 1)
  | fuel + 1, .short key val _, pre, count => Node.countRecursive E db fuel val (pre ++ key) count
  | fuel + 1, .full ch _, pre, count =>
    (List.finRange 17).foldlM (fun count i =>
      if (ch i).isNil then pure count
      else Node.countRecursive E db fuel (ch i) (pre ++ [i]) count) count
  | fuel + 1, .hash h, pre, count => do
    let child ← wrapError (.countResolve h) (resolveAndTrack E db h pre)
    Node.countRecursive E db fuel child pre count

def MerklePatriciaTrie.count (E : Env) (t : MerklePatriciaTrie) (fuel : ℕ) :
    Except Fault ℕ × MerklePatriciaTrie :=
  if t.committed then (.error (.err .committed), t)
  else
    match t.root.countRecursive E t.reader fuel [] 0 t.tracer with
    | (.ok count, tracer) => (.ok count, { t with tracer })
    | (.error e, tracer) => (.error (e.wrap .count), { t with tracer })

/-! ### Counting is a walk -/

variable {E : Env} {P : KeyTree → Prop} {db : DB}

theorem foldlM_ok_of_ok {σ α : Type} {f g : σ → α → TrieM σ}
    (h : ∀ s a tr s' tr', f s a tr = (.ok s', tr') → g s a tr = (.ok s', tr')) {l : List α}
    {s s' : σ} {tr tr' : Tracer} (hf : l.foldlM f s tr = (.ok s', tr')) :
    l.foldlM g s tr = (.ok s', tr') := by
  induction l generalizing s tr with
  | nil => exact hf
  | cons a l ih =>
    rw [List.foldlM_cons, bind_eq_ok] at hf
    obtain ⟨s₁, tr₁, ha, hl⟩ := hf
    rw [List.foldlM_cons, bind_ok (h s a tr s₁ tr₁ ha)]
    exact ih hl

theorem Node.countRecursive_of_walk {fuel : ℕ} {n : Node} {pre : Path} {count count' : ℕ}
    {tr tr' : Tracer}
    (h : n.walk E db (fun _ _ count => count + 1) fuel pre count tr = (.ok count', tr')) :
    n.countRecursive E db fuel pre count tr = (.ok count', tr') := by
  induction fuel generalizing n pre count count' tr tr' with
  | zero => cases h
  | succ fuel ih =>
    cases n with
    | nil | value => exact h
    | short => exact ih h
    | full =>
      refine foldlM_ok_of_ok ?_ h
      intro s i tr s' tr' hi
      split at hi
      · next hnil => rw [if_pos hnil, hi]
      · next hnil => rw [if_neg hnil, ih hi]
    | hash =>
      rw [Node.walk, bind_eq_ok] at h
      obtain ⟨child, tr₁, hload, hwalk⟩ := h
      rw [Node.countRecursive, bind_ok (wrapError_ok hload)]
      exact ih hwalk

variable {T : KeyTree}

/-- **Counting** ends with enough fuel, with the number of stored pairs. -/
theorem Loads.countRecursive (hP : Holds E P db) {n : Node} (hn : Loads E P n T) (pre : Path) :
    ∃ d, ∀ fuel ≥ d, ∀ count tr, ∃ tr',
      n.countRecursive E db fuel pre count tr = (.ok (count + (pairs T).length), tr') := by
  obtain ⟨d, hd⟩ := hn.walk hP (fun _ _ count => count + 1) pre
  refine ⟨d, fun fuel hfuel count tr => ?_⟩
  obtain ⟨tr', hwalk⟩ := hd fuel hfuel count tr
  rw [List.foldl_add_const, Nat.one_mul] at hwalk
  exact ⟨tr', Node.countRecursive_of_walk hwalk⟩

/-! ### Keys with a value -/

variable (ops : List (Bytes × Bytes))

def lastValue (key : Bytes) : Option Bytes :=
  (latest Prod.fst ops key).bind fun op => nilIfEmpty op.2

/-- The distinct keys with a non-empty last value, each with that value. -/
def live : List (Bytes × Bytes) :=
  (ops.map Prod.fst).dedup.filterMap fun key => (lastValue ops key).map fun value => (key, value)

theorem mem_live {ops : List (Bytes × Bytes)} {key value : Bytes} :
    (key, value) ∈ live ops ↔ lastValue ops key = some value := by
  rw [live, List.mem_filterMap]
  constructor
  · rintro ⟨key', -, h⟩
    obtain ⟨value', hv, heq⟩ := Option.map_eq_some_iff.mp h
    cases heq
    exact hv
  · intro hv
    have hmem : key ∈ ops.map Prod.fst := by
      by_contra hno
      rw [lastValue, latest_eq_none_iff.mpr hno] at hv
      cases hv
    exact ⟨key, List.mem_dedup.mpr hmem, by rw [hv]; rfl⟩

theorem nodup_live : (live ops).Nodup := by
  refine (List.nodup_dedup _).filterMap ?_
  intro key key' kv h h'
  obtain ⟨value, -, rfl⟩ := Option.map_eq_some_iff.mp h
  obtain ⟨value', -, heq⟩ := Option.map_eq_some_iff.mp h'
  exact (congrArg Prod.fst heq).symm

namespace MerklePatriciaTrie

/-- The keys of the updates stay apart when they are hashed. -/
def KeysApart (E : Env) (isHash : Bool) (ops : List (Bytes × Bytes)) : Prop :=
  ∀ op ∈ ops, ∀ op' ∈ ops, hashKey E isHash op.1 = hashKey E isHash op'.1 → op.1 = op'.1

theorem keysApart_raw (E : Env) (ops : List (Bytes × Bytes)) : KeysApart E false ops := by
  intro op _ op' _ h
  simpa [hashKey] using h

variable {isHash : Bool} {ops} {key : Bytes}

theorem lastUpdate_eq_lastValue (h : KeysApart E isHash ops) (hkey : key ∈ ops.map Prod.fst) :
    lastUpdate E isHash ops key = lastValue ops key := by
  obtain ⟨op, hop, rfl⟩ := List.mem_map.mp hkey
  have hfind : (ops.reverse.find? fun op' => hashKey E isHash op'.1 = hashKey E isHash op.1)
      = latest Prod.fst ops op.1 := by
    refine List.find?_congr fun op' hop' => ?_
    have hiff : hashKey E isHash op'.1 = hashKey E isHash op.1 ↔ op'.1 = op.1 :=
      ⟨h op' (List.mem_reverse.mp hop') op hop, congrArg _⟩
    exact decide_eq_decide.mpr hiff
  rw [lastUpdate, hfind, lastValue]
  cases latest Prod.fst ops op.1 <;> rfl

variable {value : Bytes}

theorem mem_keys_of_mem_live (h : (key, value) ∈ live ops) : key ∈ ops.map Prod.fst := by
  obtain ⟨key', hmem, heq⟩ := List.mem_filterMap.mp h
  obtain ⟨value', -, hkv⟩ := Option.map_eq_some_iff.mp heq
  cases hkv
  exact List.mem_dedup.mp hmem

theorem exists_of_lastUpdate (h : lastUpdate E isHash ops key = some value) :
    ∃ key' ∈ ops.map Prod.fst, hexKey E isHash key = hexKey E isHash key' ∧
      lastUpdate E isHash ops key' = some value := by
  have hh := h
  rw [lastUpdate] at hh
  split at hh
  · next op hfind =>
    have hkey : hashKey E isHash op.1 = hashKey E isHash key := by
      simpa using List.find?_some hfind
    have hmem : op ∈ ops := List.mem_reverse.mp (List.mem_of_find?_eq_some hfind)
    refine ⟨op.1, List.mem_map_of_mem hmem, hexKey_eq_iff.mpr hkey.symm, ?_⟩
    rw [← h, lastUpdate, lastUpdate, hkey]
  · cases hh

section

variable (h : KeysApart E isHash ops)

include h

theorem exists_of_lookup {p : Path} {u : Val}
    (hp : (putAll E isHash .empty ops).lookup p = some u) :
    ∃ key, (key, u.1) ∈ live ops ∧ p = hexKey E isHash key := by
  by_cases hkey : ∃ key, p = hexKey E isHash key
  · obtain ⟨key, rfl⟩ := hkey
    have hlast : lastUpdate E isHash ops key = some u.1 := by
      rw [← lookup_putAll, hp]
      rfl
    obtain ⟨key', hmem, heq, hlast'⟩ := exists_of_lastUpdate hlast
    rw [lastUpdate_eq_lastValue h hmem] at hlast'
    exact ⟨key', mem_live.mpr hlast', heq⟩
  · rw [lookup_putAll_of_ne isHash ops fun key he => hkey ⟨key, he⟩] at hp
    cases hp

theorem lookup_of_mem_live (hlive : (key, value) ∈ live ops) :
    ∃ u, (putAll E isHash .empty ops).lookup (hexKey E isHash key) = some u ∧ u.1 = value := by
  have hlast := lastUpdate_eq_lastValue h (mem_keys_of_mem_live hlive)
  rw [← lookup_putAll, mem_live.mp hlive] at hlast
  exact Option.map_eq_some_iff.mp hlast

theorem nodup_stored : ((live ops).map fun kv => (hexKey E isHash kv.1, kv.2)).Nodup := by
  refine (nodup_live ops).map_on ?_
  rintro ⟨key, value⟩ hkv ⟨key', value'⟩ hkv' heq
  obtain ⟨op, hop, rfl⟩ := List.mem_map.mp (mem_keys_of_mem_live hkv)
  obtain ⟨op', hop', rfl⟩ := List.mem_map.mp (mem_keys_of_mem_live hkv')
  obtain ⟨hkey, rfl⟩ : hexKey E isHash op.1 = hexKey E isHash op'.1 ∧ value = value' :=
    Prod.mk.inj heq
  rw [h op hop op' hop' (hexKey_eq_iff.mp hkey)]

theorem perm_pairs :
    ((pairs (putAll E isHash .empty ops)).map fun e => (e.1, e.2.1)).Perm
      ((live ops).map fun kv => (hexKey E isHash kv.1, kv.2)) := by
  have hnd : ((pairs (putAll E isHash .empty ops)).map fun e => (e.1, e.2.1)).Nodup := by
    refine List.Nodup.of_map Prod.fst ?_
    rw [List.map_map]
    exact nodup_pairs _
  refine (List.perm_ext_iff_of_nodup hnd (nodup_stored h)).mpr ?_
  rintro ⟨p, value⟩
  rw [List.mem_map, List.mem_map]
  constructor
  · rintro ⟨⟨p', u⟩, hmem, heq⟩
    cases heq
    obtain ⟨key, hlive, rfl⟩ := exists_of_lookup h (mem_pairs.mp hmem)
    exact ⟨(key, u.1), hlive, rfl⟩
  · rintro ⟨⟨key, value'⟩, hlive, heq⟩
    cases heq
    obtain ⟨u, hu, rfl⟩ := lookup_of_mem_live h hlive
    exact ⟨(_, u), mem_pairs.mpr hu, rfl⟩

end

/-! ### Count and GetAll -/

theorem count_represents {t : MerklePatriciaTrie} (hr : Represents E P t T) :
    ∃ d, ∀ fuel ≥ d, (t.count E fuel).1 = .ok (pairs T).length := by
  obtain ⟨d, hd⟩ := hr.loads.countRecursive hr.holds []
  refine ⟨d, fun fuel hfuel => ?_⟩
  obtain ⟨tr', h⟩ := hd fuel hfuel 0 t.tracer
  rw [count, if_neg (by simp [hr.uncommitted]), h, Nat.zero_add]

theorem getAll_perm {t : MerklePatriciaTrie} (hr : Represents E P t T) :
    ∃ d data, (∀ fuel ≥ d, (t.getAll E fuel).1 = .ok data) ∧
      data.entries.Perm ((pairs T).map fun e => ⟨dataKey E e.1, e.2.1⟩) := by
  obtain ⟨d, data, hget, hlook⟩ := getAll_represents hr
  refine ⟨d, data, hget, ?_⟩
  have hnd : ((pairs T).map fun e =>
      (⟨dataKey E e.1, e.2.1⟩ : Sigma fun _ : Bytes => Bytes)).Nodup := by
    refine List.Nodup.of_map Sigma.fst ?_
    rw [List.map_map]
    have hkeys := (nodup_pairs T).map (dataKey_injective E)
    rwa [List.map_map] at hkeys
  refine (List.perm_ext_iff_of_nodup data.nodupKeys.nodup hnd).mpr ?_
  rintro ⟨k, v⟩
  rw [← AList.mem_lookup_iff, Option.mem_def, hlook, List.mem_map]
  constructor
  · rintro ⟨p, u, hp, rfl, rfl⟩
    exact ⟨(p, u), mem_pairs.mpr hp, rfl⟩
  · rintro ⟨⟨p, u⟩, hmem, heq⟩
    cases heq
    exact ⟨p, u, mem_pairs.mp hmem, rfl, rfl⟩

/-- **`Count` and `GetAll`.**  The trie is any that was reopened after some rounds of
updates on keys of one length, with nothing lost in between, and updated further. -/
theorem count_getAll (E : Env) (db : DB) (isHash : Bool) (len : ℕ) (rs : List Round)
    (ops : List (Bytes × Bytes)) (hlen : ∀ op ∈ allOps rs ++ ops, op.1.length = len)
    (hK : ∀ m ∈ (emptyTrie db isHash).memoryStates E rs, Ideal E.keccak256 (m.root.encodings E))
    (hkeys : KeysApart E isHash (allOps rs ++ ops)) :
    ∃ t t' d data, (emptyTrie db isHash).reopen E rs = .ok t ∧ t.updateAll E ops = (.ok (), t') ∧
      (∀ fuel ≥ d, (t'.count E fuel).1 = .ok (live (allOps rs ++ ops)).length ∧
        (t'.getAll E fuel).1 = .ok data) ∧
      data.entries.Perm
        ((live (allOps rs ++ ops)).map fun kv => ⟨dataKey E (hexKey E isHash kv.1), kv.2⟩) := by
  have hlen₀ : ∀ r ∈ rs, ∀ op ∈ r.ops, op.1.length = len := fun r hr op hop =>
    hlen op (List.mem_append_left _ (List.mem_flatMap.mpr ⟨r, hr, hop⟩))
  obtain ⟨t, T₀, hre, hfresh, hflag, -, hT₀⟩ := reopen_represents E db isHash hlen₀ hK
  obtain ⟨t', hupd, hr', -⟩ := updateAll_represents hfresh.represents ops
  rw [hflag, hT₀, ← putAll_append] at hr'
  obtain ⟨d, hcount⟩ := count_represents hr'
  obtain ⟨d', data, hget, hperm⟩ := getAll_perm hr'
  have hstored := perm_pairs hkeys
  refine ⟨t, t', max d d', data, hre, hupd, fun fuel hfuel => ⟨?_, ?_⟩, hperm.trans ?_⟩
  · have hlength := hstored.length_eq
    rw [List.length_map, List.length_map] at hlength
    rw [hcount fuel (le_trans (le_max_left d d') hfuel), hlength]
  · exact hget fuel (le_trans (le_max_right d d') hfuel)
  · have hmap := hstored.map fun e => (⟨dataKey E e.1, e.2⟩ : Sigma fun _ : Bytes => Bytes)
    rwa [List.map_map, List.map_map] at hmap

theorem count_getAll_twoRounds :
    ∃ t t' d data, (emptyTrie (fun _ => none) false).reopen stdEnv twoRounds = .ok t ∧
      t.updateAll stdEnv [([0x12], [7])] = (.ok (), t') ∧
      (∀ fuel ≥ d,
        (t'.count stdEnv fuel).1 = .ok (live (allOps twoRounds ++ [([0x12], [7])])).length ∧
        (t'.getAll stdEnv fuel).1 = .ok data) ∧
      data.entries.Perm ((live (allOps twoRounds ++ [([0x12], [7])])).map fun kv =>
        ⟨dataKey stdEnv (hexKey stdEnv false kv.1), kv.2⟩) :=
  count_getAll stdEnv (fun _ => none) false 1 twoRounds [([0x12], [7])] (by decide) ideal_twoRounds
    (keysApart_raw stdEnv _)

end MerklePatriciaTrie

end MetaNode
