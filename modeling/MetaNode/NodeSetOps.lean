/-
Node sets (`Merge`, `Size` and `ForEachWithOrder` of `pkg/trie/node/node_set.go`).

`AddNode` files a node under the hexadecimal text of its path and counts it, even if
it replaces another.  `Merge` takes a replaced node off the counters, but hands the
text to `AddNode` as if it were the path, so that what it merges is filed under the
text of the text.  Only the empty path is its own text.
-/
import Mathlib.Data.List.Induction
import Mathlib.Data.List.Sort
import MetaNode.AddressHex
import MetaNode.Commit
import MetaNode.GoMap
import MetaNode.KeyedLog
import MetaNode.Machine

namespace MetaNode.NodeSet

open KeyedLog Function

/-! ### Merge and Size -/

variable (set : NodeSet)

/-- The counter of the node that is going to be overwritten is revoked. -/
def revoke (path : Bytes) : NodeSet :=
  match set.nodes.lookup path with
  | some prev =>
    if prev.isDeleted then { set with deletes := set.deletes - 1 }
    else { set with updates := set.updates - 1 }
  | none => set

/-- `Merge`, for any order in which the map is ranged over. -/
def merge (nodes : AList fun _ : Bytes => NodeWrapper)
    (walk : Walk (Sigma fun _ : Bytes => NodeWrapper)) : NodeSet :=
  (walk.order nodes.entries).foldl (fun set e => (set.revoke e.1).addNodeBytes e.1 e.2) set

def size : ℤ × ℤ := (set.updates, set.deletes)

inductive Call where
  | addNode (path : Bytes) (n : NodeWrapper)
  | merge (nodes : AList fun _ : Bytes => NodeWrapper)
      (walk : Walk (Sigma fun _ : Bytes => NodeWrapper))

def call : Call → NodeSet
  | .addNode path n => set.addNodeBytes path n
  | .merge nodes walk => set.merge nodes walk

/-- What a call adds to a map from the texts of paths to nodes. -/
def Call.union (m : Bytes → Option NodeWrapper) : Call → Bytes → Option NodeWrapper
  | .addNode path n => update m (hexEncode path) (some n)
  | .merge nodes _ => fun key => (nodes.lookup key).or (m key)

/-- The right-biased union of all that was added. -/
def added (calls : List Call) : Bytes → Option NodeWrapper :=
  Machine.run Call.union (fun _ => none) calls

/-- `Size` is the number of entries of either kind. -/
def Counted : Prop :=
  set.size = ((GoMap.count (fun n => !n.isDeleted) set.nodes : ℤ),
    (GoMap.count (fun n => n.isDeleted) set.nodes : ℤ))

/-- A merged set has at most the node at the empty path. -/
def Call.RootOnly : Call → Prop
  | .addNode _ _ => True
  | .merge nodes _ => ∀ key ∈ nodes, key = []

/-- The call adds a node at a path that has one. -/
def Repeats : Call → Prop
  | .addNode path _ => hexEncode path ∈ set.nodes
  | .merge _ _ => False

def Fresh (set : NodeSet) : List Call → Prop
  | [] => True
  | c :: calls => ¬ set.Repeats c ∧ (set.call c).Fresh calls

/-! ### The map -/

@[simp] theorem revoke_nodes (path : Bytes) : (set.revoke path).nodes = set.nodes := by
  rw [revoke]
  split
  · split <;> rfl
  · rfl

variable {nodes : AList fun _ : Bytes => NodeWrapper}

theorem merge_eq (h : ∀ key ∈ nodes, key = [])
    (set : NodeSet) (walk : Walk (Sigma fun _ : Bytes => NodeWrapper)) :
    (nodes.entries = [] ∧ set.merge nodes walk = set) ∨
      ∃ n, nodes.entries = [⟨[], n⟩] ∧
        set.merge nodes walk = (set.revoke []).addNodeBytes [] n := by
  have hkey : ∀ e ∈ nodes.entries, e.1 = [] := fun e he => h e.1 (List.mem_map_of_mem he)
  have hnd : (nodes.entries.map Sigma.fst).Nodup := nodes.keys_nodup
  have hperm := walk.perm nodes.entries
  rw [merge]
  match hes : nodes.entries with
  | [] =>
    rw [hes] at hperm
    rw [hperm.eq_nil]
    exact .inl ⟨rfl, rfl⟩
  | [⟨key, n⟩] =>
    rw [hes] at hperm hkey
    obtain rfl : key = [] := hkey _ List.mem_cons_self
    rw [List.perm_singleton.mp hperm]
    exact .inr ⟨n, rfl, rfl⟩
  | e :: e' :: l =>
    rw [hes] at hkey hnd
    have he := hkey e List.mem_cons_self
    have he' := hkey e' (List.mem_cons_of_mem e List.mem_cons_self)
    rw [List.map_cons, List.map_cons, he, he', List.nodup_cons] at hnd
    exact absurd List.mem_cons_self hnd.1

theorem lookup_call {c : Call} (hc : c.RootOnly) (set : NodeSet) (key : Bytes) :
    (set.call c).nodes.lookup key = c.union set.nodes.lookup key := by
  cases c with
  | addNode path =>
    rw [call, addNodeBytes_nodes, Call.union]
    by_cases hk : key = hexEncode path
    · rw [hk, AList.lookup_insert, update_self]
    · rw [AList.lookup_insert_ne hk, update_of_ne hk]
  | merge nodes walk =>
    show (set.merge nodes walk).nodes.lookup key = (nodes.lookup key).or (set.nodes.lookup key)
    rcases merge_eq hc set walk with ⟨hes, heq⟩ | ⟨n, hes, heq⟩
    · have hnone : nodes.lookup key = none := by rw [AList.lookup, hes, List.dlookup_nil]
      rw [heq, hnone, Option.none_or]
    · rw [heq, addNodeBytes_nodes, revoke_nodes]
      have hroot : nodes.lookup key = if key = [] then some n else none := by
        rw [AList.lookup, hes]
        by_cases hk : key = []
        · subst hk
          rfl
        · rw [if_neg hk, List.dlookup_cons_ne _ _ hk, List.dlookup_nil]
      rw [hroot, show hexEncode [] = [] from rfl]
      by_cases hk : key = []
      · rw [hk, AList.lookup_insert, if_pos rfl, Option.some_or]
      · rw [AList.lookup_insert_ne hk, if_neg hk, Option.none_or]

theorem lookup_run {calls : List Call} (h : ∀ c ∈ calls, c.RootOnly) (set : NodeSet) :
    (Machine.run call set calls).nodes.lookup = Machine.run Call.union set.nodes.lookup calls := by
  induction calls generalizing set with
  | nil => rfl
  | cons c calls ih =>
    rw [List.forall_mem_cons] at h
    rw [Machine.run_cons, Machine.run_cons, ih h.2, funext (lookup_call h.1 set)]

/-! ### The counters -/

/-- By how much the counter of a kind exceeds the entries of that kind. -/
def excess (deleted : Bool) : ℤ :=
  (if deleted then set.deletes else set.updates)
    - GoMap.count (fun n => n.isDeleted == deleted) set.nodes

variable {set}

theorem counted_iff : set.Counted ↔ ∀ deleted, set.excess deleted = 0 := by
  rw [Counted, size, Prod.mk.injEq, Bool.forall_bool]
  simp only [excess, sub_eq_zero, beq_false, beq_true, Bool.false_eq_true, if_false, if_true]

variable {path : Bytes}

theorem excess_addNodeBytes_new (h : hexEncode path ∉ set.nodes) (n : NodeWrapper)
    (deleted : Bool) :
    (set.addNodeBytes path n).excess deleted = set.excess deleted := by
  have hcount := GoMap.count_insert_of_notMem (fun n => n.isDeleted == deleted) h n
  rw [excess, addNodeBytes_nodes, hcount, excess, addNodeBytes]
  cases hn : n.isDeleted <;> cases deleted <;> simp

theorem excess_addNodeBytes_old {prev : NodeWrapper}
    (h : set.nodes.lookup (hexEncode path) = some prev) (n : NodeWrapper) (deleted : Bool) :
    (set.addNodeBytes path n).excess deleted
      = set.excess deleted + if prev.isDeleted = deleted then 1 else 0 := by
  have hcount := GoMap.count_insert_of_lookup (fun n => n.isDeleted == deleted) h n
  rw [excess, addNodeBytes_nodes, excess, addNodeBytes]
  cases hn : n.isDeleted <;> cases hp : prev.isDeleted <;> cases deleted <;>
    simp [hn, hp] at hcount ⊢ <;> omega

theorem excess_revoke {prev : NodeWrapper} (h : set.nodes.lookup path = some prev)
    (deleted : Bool) :
    (set.revoke path).excess deleted
      = set.excess deleted - if prev.isDeleted = deleted then 1 else 0 := by
  rw [excess, revoke_nodes, excess, revoke, h]
  cases hp : prev.isDeleted <;> cases deleted <;> simp [hp] <;> omega

theorem excess_merge (h : ∀ key ∈ nodes, key = [])
    (set : NodeSet) (walk : Walk (Sigma fun _ : Bytes => NodeWrapper)) (deleted : Bool) :
    (set.merge nodes walk).excess deleted = set.excess deleted := by
  rcases merge_eq h set walk with ⟨-, heq⟩ | ⟨n, -, heq⟩
  · rw [heq]
  · rw [heq]
    cases hprev : set.nodes.lookup [] with
    | some prev =>
      have hold : (set.revoke []).nodes.lookup (hexEncode []) = some prev := by
        rw [revoke_nodes]
        exact hprev
      rw [excess_addNodeBytes_old hold, excess_revoke hprev, sub_add_cancel]
    | none =>
      have hsame : set.revoke [] = set := by rw [revoke, hprev]
      have hnew : hexEncode [] ∉ set.nodes := by
        rw [← AList.lookup_isSome, show hexEncode [] = [] from rfl, hprev]
        exact Bool.false_ne_true
      rw [hsame, excess_addNodeBytes_new hnew]

theorem excess_call {c : Call} (hc : c.RootOnly) (set : NodeSet) :
    (¬ set.Repeats c ∧ ∀ deleted, (set.call c).excess deleted = set.excess deleted) ∨
      (set.Repeats c ∧ ∃ d, ∀ deleted, (set.call c).excess deleted
        = set.excess deleted + if d = deleted then 1 else 0) := by
  cases c with
  | addNode path n =>
    by_cases hrep : hexEncode path ∈ set.nodes
    · obtain ⟨prev, hprev⟩ := Option.isSome_iff_exists.mp (AList.lookup_isSome.mpr hrep)
      exact .inr ⟨hrep, prev.isDeleted, excess_addNodeBytes_old hprev n⟩
    · exact .inl ⟨hrep, excess_addNodeBytes_new hrep n⟩
  | merge nodes walk => exact .inl ⟨id, excess_merge hc set walk⟩

/-- The counters never fall behind the entries, and keep up with them just if no path
is added twice. -/
theorem excess_run {calls : List Call} (h : ∀ c ∈ calls, c.RootOnly) (set : NodeSet) :
    (∀ deleted, set.excess deleted ≤ (Machine.run call set calls).excess deleted) ∧
      ((∀ deleted, (Machine.run call set calls).excess deleted = set.excess deleted) ↔
        set.Fresh calls) := by
  induction calls generalizing set with
  | nil => exact ⟨fun _ => le_refl _, iff_of_true (fun _ => rfl) trivial⟩
  | cons c calls ih =>
    rw [List.forall_mem_cons] at h
    obtain ⟨hle, hiff⟩ := ih h.2 (set.call c)
    rw [Machine.run_cons, Fresh]
    rcases excess_call h.1 set with ⟨hnew, hsame⟩ | ⟨hrep, d, hmore⟩
    · simp only [hsame] at hle hiff
      exact ⟨hle, by rw [hiff, and_iff_right hnew]⟩
    · simp only [hmore] at hle
      refine ⟨fun deleted => le_trans (by split <;> omega) (hle deleted), iff_of_false ?_ ?_⟩
      · -- the counter of the replaced node is ahead for good
        intro hall
        have hd := hle d
        rw [hall d, if_pos rfl] at hd
        omega
      · exact fun hfresh => hfresh.1 hrep

/-- **What a set holds and what `Size` says** after any calls in which nothing but the
node at the empty path is merged. -/
theorem run_iff (calls : List Call) (h : ∀ c ∈ calls, c.RootOnly) :
    (∀ key, (Machine.run call new calls).nodes.lookup key = added calls key) ∧
      ((Machine.run call new calls).Counted ↔ new.Fresh calls) := by
  have hlook := lookup_run h new
  have hempty : new.nodes.lookup = fun _ => none := funext AList.lookup_empty
  have hzero : ∀ deleted, new.excess deleted = 0 := by decide
  obtain ⟨-, hiff⟩ := excess_run h new
  simp only [hzero] at hiff
  refine ⟨fun key => ?_, counted_iff.trans hiff⟩
  rw [congrFun hlook key, hempty, added]

def liveNode : NodeWrapper := ⟨FixedBytes.zero 32, [1]⟩

/-- A root that is added, and replaced by one that is merged. -/
def rootMerged : List Call :=
  [.addNode [] liveNode, .addNode [1] .newDeleted,
    .merge (new.addNodeBytes [] .newDeleted).nodes Walk.id]

theorem run_iff_rootMerged :
    (∀ key, (Machine.run call new rootMerged).nodes.lookup key = added rootMerged key) ∧
      ((Machine.run call new rootMerged).Counted ↔ new.Fresh rootMerged) := by
  refine run_iff rootMerged ?_
  rw [rootMerged, List.forall_mem_cons, List.forall_mem_cons, List.forall_mem_singleton]
  refine ⟨trivial, trivial, ?_⟩
  rw [Call.RootOnly, addNodeBytes_nodes]
  intro key hkey
  rw [AList.mem_insert] at hkey
  exact hkey.resolve_right (AList.notMem_empty key)

/-- What another set holds at the path `[1]` is merged under `3031`, the text of the
text `01`; and a node that is added twice is counted twice. -/
theorem merge_misfiles :
    let other := new.addNodeBytes [1] liveNode
    let merged := Machine.run call new [.merge other.nodes Walk.id]
    let twice := Machine.run call new [.addNode [1] liveNode, .addNode [1] liveNode]
    (added [.merge other.nodes Walk.id] [0x30, 0x31] = some liveNode ∧
        merged.nodes.lookup [0x30, 0x31] = none ∧
        merged.nodes.lookup [0x33, 0x30, 0x33, 0x31] = some liveNode) ∧
      twice.size = (2, 0) ∧ twice.nodes.entries.length = 1 := by
  decide

/-! ### ForEachWithOrder -/

/-- `ForEachWithOrder`, with what the callback works on as a state. -/
def forEachWithOrder {σ : Type} (set : NodeSet) (walk : Walk Bytes)
    (callback : Bytes → Option NodeWrapper → σ → σ) (s : σ) : σ :=
  let paths := walk.order set.nodes.keys
  -- Bottom-up, the longest path first
  (paths.insertionSort fun a b => b ≤ a).foldl
    (fun s path => callback path (set.nodes.lookup path) s) s

variable (adds : List (Bytes × NodeWrapper))

/-- The set that a sequence of `AddNode` calls fills. -/
def filled : NodeSet :=
  adds.foldl (fun set a => set.addNodeBytes a.1 a.2) new

theorem filled_concat (a : Bytes × NodeWrapper) :
    (filled (adds ++ [a])).nodes = (filled adds).nodes.insert (hexEncode a.1) a.2 := by
  rw [filled, List.foldl_append, List.foldl_cons, List.foldl_nil, addNodeBytes_nodes, filled]

theorem lookup_filled (path : Bytes) :
    (filled adds).nodes.lookup (hexEncode path) = (latest Prod.fst adds path).map Prod.snd := by
  induction adds using List.reverseRecOn with
  | nil => rfl
  | append_singleton adds a ih =>
    rw [filled_concat, latest_concat]
    by_cases hp : a.1 = path
    · rw [if_pos hp, hp, AList.lookup_insert]
      rfl
    · have hne : hexEncode path ≠ hexEncode a.1 := fun h => hp (hexEncode_injective h).symm
      rw [if_neg hp, AList.lookup_insert_ne hne, ih]

variable {adds}

theorem exists_path_of_mem_filled {key : Bytes}
    (h : key ∈ (filled adds).nodes) : ∃ path, key = hexEncode path := by
  induction adds using List.reverseRecOn with
  | nil => exact absurd h (AList.notMem_empty key)
  | append_singleton adds a ih =>
    rw [filled_concat, AList.mem_insert] at h
    rcases h with hkey | hmem
    · exact ⟨a.1, hkey⟩
    · exact ih hmem

theorem not_hexEncode_le {p q : Bytes} (hpq : p <+: q) (hne : p ≠ q) :
    ¬ hexEncode q ≤ hexEncode p := by
  obtain ⟨r, rfl⟩ := hpq
  have hle : hexEncode p ≤ hexEncode (p ++ r) := by
    rw [hexEncode_append]
    exact List.IsPrefix.le (List.prefix_append _ _)
  exact fun h => hne (hexEncode_injective (List.le_antisymm hle h))

theorem exists_calls {keys : List Bytes} (h : ∀ key ∈ keys, key ∈ (filled adds).nodes) :
    ∃ calls : List (Bytes × NodeWrapper), keys = calls.map (fun c => hexEncode c.1) ∧
      ∀ c ∈ calls, (filled adds).nodes.lookup (hexEncode c.1) = some c.2 := by
  induction keys with
  | nil => exact ⟨[], rfl, List.forall_mem_nil _⟩
  | cons key keys ih =>
    rw [List.forall_mem_cons] at h
    obtain ⟨calls, hkeys, hcalls⟩ := ih h.2
    obtain ⟨path, rfl⟩ := exists_path_of_mem_filled h.1
    obtain ⟨n, hn⟩ := Option.isSome_iff_exists.mp (AList.lookup_isSome.mpr h.1)
    refine ⟨(path, n) :: calls, by rw [List.map_cons, hkeys], ?_⟩
    rw [List.forall_mem_cons]
    exact ⟨hn, hcalls⟩

variable (adds)

/-- **`ForEachWithOrder` visits every node once, from the bottom to the top.**  `calls`
are the paths and nodes in the order of the calls: every path that was added occurs once,
with the node that was added last, and none comes before one that it is a prefix of. -/
theorem forEachWithOrder_visits (walk : Walk Bytes) :
    ∃ calls : List (Bytes × NodeWrapper),
      (∀ (σ : Type) (callback : Bytes → Option NodeWrapper → σ → σ) (s : σ),
        (filled adds).forEachWithOrder walk callback s
          = calls.foldl (fun s c => callback (hexEncode c.1) (some c.2) s) s) ∧
      (calls.map Prod.fst).Nodup ∧
      (∀ path n, (path, n) ∈ calls ↔ latest Prod.fst adds path = some (path, n)) ∧
      calls.Pairwise fun c c' => ¬ (c.1 <+: c'.1 ∧ c.1 ≠ c'.1) := by
  have hperm := (List.perm_insertionSort (fun a b : Bytes => b ≤ a)
    (walk.order (filled adds).nodes.keys)).trans (walk.perm _)
  have hsorted := List.pairwise_insertionSort (fun a b : Bytes => b ≤ a)
    (walk.order (filled adds).nodes.keys)
  obtain ⟨calls, hkeys, hcalls⟩ := exists_calls fun key hkey => hperm.mem_iff.mp hkey
  rw [hkeys] at hperm hsorted
  have hnd : (calls.map fun c => hexEncode c.1).Nodup :=
    hperm.nodup_iff.mpr (filled adds).nodes.keys_nodup
  have hlatest : ∀ path n, latest Prod.fst adds path = some (path, n) ↔
      (filled adds).nodes.lookup (hexEncode path) = some n := by
    intro path n
    rw [lookup_filled, Option.map_eq_some_iff]
    constructor
    · exact fun h => ⟨_, h, rfl⟩
    · rintro ⟨a, ha, rfl⟩
      rw [ha, ← key_of_latest ha]
  refine ⟨calls, ?_, ?_, ?_, ?_⟩
  · intro σ callback s
    rw [forEachWithOrder, hkeys, List.foldl_map]
    refine List.foldl_ext _ _ s fun s c hc => ?_
    rw [hcalls c hc]
  · refine List.Nodup.of_map hexEncode ?_
    rwa [List.map_map]
  · intro path n
    rw [hlatest]
    refine ⟨hcalls (path, n), fun hn => ?_⟩
    -- the key is among those that are visited, with this node
    have hmem : hexEncode path ∈ calls.map fun c => hexEncode c.1 :=
      hperm.mem_iff.mpr (AList.lookup_isSome.mp (by rw [hn]; rfl))
    obtain ⟨⟨path', n'⟩, hc, hp⟩ := List.mem_map.mp hmem
    obtain rfl : path' = path := hexEncode_injective hp
    obtain rfl : n' = n := Option.some.inj ((hcalls _ hc).symm.trans hn)
    exact hc
  · rw [List.pairwise_map] at hsorted
    refine hsorted.imp fun {c c'} hle => ?_
    rintro ⟨hpre, hne⟩
    exact not_hexEncode_le hpre hne hle

end MetaNode.NodeSet
