/-
Maps of the source.

A map is an association list with distinct keys.  The source walks a map in any
order, which is a parameter of the functions that do so (`Walk`), and a map that is
filled with the entries of another, in any order, answers as that one does
(`lookup_insertAll_perm`).  `rebuild` fills a map under other keys, `count` is the number of
values with a property, and `total` adds values up.

Where a store is compared with the map it should be, that map is a function into
`Option`; `putAll` puts a list of pairs into it.
-/
import Mathlib.Algebra.Ring.Int.Defs
import Mathlib.Data.List.AList
import Mathlib.Logic.Function.Basic

namespace MetaNode

/-- An order in which the entries of a map are walked. -/
structure Walk (α : Type) where
  order : List α → List α
  perm : ∀ l, (order l).Perm l

def Walk.id {α : Type} : Walk α := ⟨fun l => l, fun _ => .refl _⟩

end MetaNode

namespace GoMap

open Function

variable {κ α : Type} [DecidableEq κ]

/-- One entry after the other is put into a map. -/
def insertAll (m : AList fun _ : κ => α) (es : List (Sigma fun _ : κ => α)) :
    AList fun _ : κ => α :=
  es.foldl (fun m e => m.insert e.1 e.2) m

theorem lookup_insertAll (es : List (Sigma fun _ : κ => α)) (hnd : es.NodupKeys)
    (m : AList fun _ : κ => α) (k : κ) :
    (insertAll m es).lookup k = (es.dlookup k).or (m.lookup k) := by
  induction es generalizing m with
  | nil => rfl
  | cons e es ih =>
    obtain ⟨k', a⟩ := e
    rw [List.nodupKeys_cons] at hnd
    show (insertAll (m.insert k' a) es).lookup k = _
    rw [ih hnd.2]
    by_cases hk : k = k'
    · subst hk
      -- the later entries have other keys
      rw [List.dlookup_eq_none.mpr hnd.1, Option.none_or, AList.lookup_insert, List.dlookup_cons_eq]
      rfl
    · rw [AList.lookup_insert_ne hk, List.dlookup_cons_ne _ _ hk]

variable {m : AList fun _ : κ => α} {es : List (Sigma fun _ : κ => α)}

/-- **The entries of a map in any order fill a map with the same answers.** -/
theorem lookup_insertAll_perm
    (h : es.Perm m.entries) (k : κ) : (insertAll ∅ es).lookup k = m.lookup k := by
  have hnd : es.NodupKeys := (List.perm_nodupKeys h).mpr m.nodupKeys
  rw [lookup_insertAll es hnd, AList.lookup_empty, Option.or_none, List.perm_dlookup k hnd h]
  rfl

/-- A map whose entries are those of another, with their keys and values changed. -/
def rebuild {κ' β : Type} [DecidableEq κ'] (walk : MetaNode.Walk (Sigma fun _ : κ => α))
    (f : κ → κ') (g : α → β) (m : AList fun _ : κ => α) : AList fun _ : κ' => β :=
  insertAll ∅ ((walk.order m.entries).map fun e => ⟨f e.1, g e.2⟩)

theorem lookup_rebuild_eq_some {κ' β : Type} [DecidableEq κ']
    (walk : MetaNode.Walk (Sigma fun _ : κ => α)) {f : κ → κ'} (g : α → β)
    (hf : ∀ k ∈ m, ∀ k' ∈ m, f k = f k' → k = k') {k' : κ'} {b : β} :
    (rebuild walk f g m).lookup k' = some b ↔ ∃ k a, m.lookup k = some a ∧ f k = k' ∧ g a = b := by
  have hperm := walk.perm m.entries
  have hmem : ∀ e ∈ walk.order m.entries, e.1 ∈ m := by
    intro e he
    exact AList.mem_keys.mpr (List.mem_map_of_mem (hperm.mem_iff.mp he))
  have hnd : ((walk.order m.entries).map fun e =>
      (⟨f e.1, g e.2⟩ : Sigma fun _ : κ' => β)).NodupKeys := by
    have hkeys : ((walk.order m.entries).map Sigma.fst).Nodup :=
      (hperm.map Sigma.fst).nodup_iff.mpr m.keys_nodup
    rw [List.NodupKeys, List.keys, List.map_map, List.nodup_map_iff_inj_on hkeys.of_map]
    intro e he e' he' heq
    exact List.inj_on_of_nodup_map hkeys he he' (hf e.1 (hmem e he) e'.1 (hmem e' he') heq)
  rw [rebuild, lookup_insertAll _ hnd, AList.lookup_empty, Option.or_none, ← Option.mem_def,
    List.mem_dlookup_iff hnd, List.mem_map]
  constructor
  · rintro ⟨e, he, heq⟩
    cases heq
    exact ⟨e.1, e.2, AList.mem_lookup_iff.mpr (hperm.mem_iff.mp he), rfl, rfl⟩
  · rintro ⟨k, a, hlook, rfl, rfl⟩
    exact ⟨⟨k, a⟩, hperm.mem_iff.mpr (AList.mem_lookup_iff.mp hlook), rfl⟩

theorem lookup_rebuild_congr {κ' β : Type} [DecidableEq κ'] {f : κ → κ'}
    (hf : Injective f) (g : α → β) (walk walk' : MetaNode.Walk (Sigma fun _ : κ => α))
    {m m' : AList fun _ : κ => α} (h : ∀ k, m.lookup k = m'.lookup k) (k : κ') :
    (rebuild walk f g m).lookup k = (rebuild walk' f g m').lookup k := by
  ext b
  rw [lookup_rebuild_eq_some walk g fun k _ k' _ heq => hf heq,
    lookup_rebuild_eq_some walk' g fun k _ k' _ heq => hf heq]
  simp only [h]

/-- **A map that is rebuilt and rebuilt back answers as before**, also if the one in
between was passed on as another map with the same answers. -/
theorem lookup_rebuild_rebuild {κ' β : Type} [DecidableEq κ'] {f : κ → κ'} {g : α → β}
    {f' : κ' → κ} {g' : β → α} (hf : ∀ k, f' (f k) = k) (hg : ∀ a, g' (g a) = a)
    (walk : MetaNode.Walk (Sigma fun _ : κ => α)) (walk' : MetaNode.Walk (Sigma fun _ : κ' => β))
    {m' : AList fun _ : κ' => β} (h : ∀ k, m'.lookup k = (rebuild walk f g m).lookup k) (k : κ) :
    (rebuild walk' f' g' m').lookup k = m.lookup k := by
  have hinj : ∀ k ∈ m, ∀ k' ∈ m, f k = f k' → k = k' := by
    intro k _ k' _ heq
    rw [← hf k, heq, hf]
  have hfound : ∀ {k' : κ'} {b : β}, m'.lookup k' = some b ↔
      ∃ k a, m.lookup k = some a ∧ f k = k' ∧ g a = b := by
    intro k' b
    rw [h, lookup_rebuild_eq_some walk g hinj]
  have hinj' : ∀ k ∈ m', ∀ k' ∈ m', f' k = f' k' → k = k' := by
    intro k hk k' hk' heq
    obtain ⟨b, hb⟩ := Option.isSome_iff_exists.mp (AList.lookup_isSome.mpr hk)
    obtain ⟨b', hb'⟩ := Option.isSome_iff_exists.mp (AList.lookup_isSome.mpr hk')
    obtain ⟨l, -, -, rfl, -⟩ := hfound.mp hb
    obtain ⟨l', -, -, rfl, -⟩ := hfound.mp hb'
    rw [hf, hf] at heq
    rw [heq]
  ext a
  rw [lookup_rebuild_eq_some walk' g' hinj']
  constructor
  · rintro ⟨k', b, hb, rfl, rfl⟩
    obtain ⟨l, a, hlook, rfl, rfl⟩ := hfound.mp hb
    rwa [hf, hg]
  · intro hlook
    exact ⟨f k, g a, hfound.mpr ⟨k, a, hlook, rfl, rfl⟩, hf k, hg a⟩

theorem eq_empty_iff : m = ∅ ↔ ∀ k, m.lookup k = none := by
  constructor
  · rintro rfl k
    exact AList.lookup_empty k
  · intro h
    refine AList.ext (List.eq_nil_iff_forall_not_mem.mpr fun e he => ?_)
    have hlook : m.lookup e.1 = some e.2 := AList.mem_lookup_iff.mpr he
    rw [h] at hlook
    cases hlook

def putAll (m : κ → Option α) (kvs : List (κ × α)) : κ → Option α :=
  kvs.foldl (fun m kv => update m kv.1 (some kv.2)) m

variable {k : κ}

theorem putAll_eq_some {kvs : List (κ × α)} {m : κ → Option α} {a : α}
    (h : putAll m kvs k = some a) : m k = some a ∨ (k, a) ∈ kvs := by
  induction kvs generalizing m with
  | nil => exact .inl h
  | cons kv kvs ih =>
    have hrest : putAll (update m kv.1 (some kv.2)) kvs k = some a := h
    rcases ih hrest with hm | hmem
    · by_cases hk : k = kv.1
      · rw [hk, update_self, Option.some.injEq] at hm
        right
        rw [hk, ← hm]
        exact List.mem_cons_self
      · rw [update_of_ne hk] at hm
        exact .inl hm
    · exact .inr (List.mem_cons_of_mem _ hmem)

theorem putAll_eq_or (m : κ → Option α) (kvs : List (κ × α)) (k : κ) :
    putAll m kvs k = (putAll (fun _ => none) kvs k).or (m k) := by
  induction kvs generalizing m with
  | nil => rfl
  | cons kv kvs ih =>
    show putAll (update m kv.1 (some kv.2)) kvs k
      = (putAll (update (fun _ => none) kv.1 (some kv.2)) kvs k).or (m k)
    rw [ih, ih (update (fun _ => none) kv.1 (some kv.2)), Option.or_assoc]
    by_cases hk : k = kv.1
    · rw [hk, update_self, update_self, Option.some_or]
    · rw [update_of_ne hk, update_of_ne hk, Option.none_or]

theorem lookup_insertAll_eq_putAll (m : AList fun _ : κ => α) (es : List (Sigma fun _ : κ => α)) :
    (insertAll m es).lookup = putAll m.lookup (es.map fun e => (e.1, e.2)) := by
  induction es generalizing m with
  | nil => rfl
  | cons e es ih =>
    have hinsert : (m.insert e.1 e.2).lookup = update m.lookup e.1 (some e.2) := by
      funext k
      by_cases hk : k = e.1
      · subst hk
        rw [AList.lookup_insert, update_self]
      · rw [AList.lookup_insert_ne hk, update_of_ne hk]
    rw [insertAll, List.foldl_cons, List.map_cons, putAll, List.foldl_cons, ← hinsert]
    exact ih _

theorem lookup_insertAll_eq_some {a : α} (h : (insertAll m es).lookup k = some a) :
    m.lookup k = some a ∨ ⟨k, a⟩ ∈ es := by
  obtain hm | hmem := putAll_eq_some ((congrFun (lookup_insertAll_eq_putAll m es) k).symm.trans h)
  · exact .inl hm
  · obtain ⟨e, he, heq⟩ := List.mem_map.mp hmem
    cases heq
    exact .inr he

/-! ### Counting values -/

/-- The number of values with the property `p`. -/
def count (p : α → Bool) (m : AList fun _ : κ => α) : ℕ := m.entries.countP fun e => p e.2

theorem count_insert_of_notMem (p : α → Bool) (hk : k ∉ m)
    (a : α) : count p (m.insert k a) = count p m + if p a then 1 else 0 := by
  rw [count, AList.entries_insert, List.kerase_of_notMem_keys hk, List.countP_cons]
  rfl

theorem exists_entries_of_lookup {b : α} (hk : m.lookup k = some b) :
    ∃ l₁ l₂, m.entries = l₁ ++ ⟨k, b⟩ :: l₂ ∧ m.entries.kerase k = l₁ ++ l₂ := by
  have hmem : k ∈ m.keys := AList.lookup_isSome.mp (by rw [hk]; rfl)
  obtain ⟨b', l₁, l₂, -, heq, herase⟩ := List.exists_of_kerase hmem
  obtain rfl : b = b' := by
    have hb' : m.lookup k = some b' := AList.mem_lookup_iff.mpr (by rw [heq]; simp)
    exact Option.some.inj (hk.symm.trans hb')
  exact ⟨l₁, l₂, heq, herase⟩

theorem count_insert_of_lookup (p : α → Bool) {b : α} (hk : m.lookup k = some b) (a : α) :
    count p (m.insert k a) + (if p b then 1 else 0) = count p m + if p a then 1 else 0 := by
  obtain ⟨l₁, l₂, heq, herase⟩ := exists_entries_of_lookup hk
  rw [count, AList.entries_insert, herase, count, heq, List.countP_cons, List.countP_append,
    List.countP_append, List.countP_cons]
  dsimp only
  omega

/-! ### Adding up values -/

def total (f : α → ℤ) (m : AList fun _ : κ => α) : ℤ := (m.entries.map fun e => f e.2).sum

theorem total_insert_of_notMem (f : α → ℤ) (hk : k ∉ m) (a : α) :
    total f (m.insert k a) = total f m + f a := by
  rw [total, AList.entries_insert, List.kerase_of_notMem_keys hk, List.map_cons, List.sum_cons,
    Int.add_comm]
  rfl

theorem total_insert_of_lookup (f : α → ℤ) {b : α}
    (hk : m.lookup k = some b) (a : α) : total f (m.insert k a) + f b = total f m + f a := by
  obtain ⟨l₁, l₂, heq, herase⟩ := exists_entries_of_lookup hk
  rw [total, AList.entries_insert, herase, total, heq, List.map_cons, List.sum_cons,
    List.map_append, List.sum_append, List.map_append, List.sum_append, List.map_cons,
    List.sum_cons]
  dsimp only
  omega

end GoMap
