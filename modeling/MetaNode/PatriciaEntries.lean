/-
The stored pairs of a path-compressed trie, listed depth first.

`Tree.entries symbols T` visits the children of a branch in the order of
`symbols`.  If every symbol is listed, `mem_entries` says that the pairs are
those of the stored map, and if none is listed twice, no key is
(`nodup_entries`).
-/
import Mathlib.Data.List.Nodup
import MetaNode.Patricia

namespace Patricia

open Patricia.Tree

variable {α β : Type}

/-- The pairs of keys and values, in depth-first order. -/
def Tree.entries (symbols : List α) : Tree α β → List (List α × β)
  | .empty => []
  | .leaf v => [([], v)]
  | .short k c => (c.entries symbols).map (Prod.map (k ++ ·) id)
  | .full ch => symbols.flatMap fun a => ((ch a).entries symbols).map (Prod.map (a :: ·) id)

variable {symbols : List α}

theorem mem_map_entries {l : List (List α × β)} {f : List α → List α} {key : List α} {v : β} :
    (key, v) ∈ l.map (Prod.map f id) ↔ ∃ r, f r = key ∧ (r, v) ∈ l := by
  rw [List.mem_map]
  constructor
  · rintro ⟨⟨r, u⟩, hmem, he⟩
    obtain ⟨rfl, rfl⟩ := Prod.mk.inj he
    exact ⟨r, rfl, hmem⟩
  · rintro ⟨r, rfl, hmem⟩
    exact ⟨(r, v), hmem, rfl⟩

theorem map_fst_entries (f : List α → List α) (l : List (List α × β)) :
    (l.map (Prod.map f id)).map Prod.fst = (l.map Prod.fst).map f := by
  rw [List.map_map, List.map_map]
  rfl

theorem mem_entries [DecidableEq α] (hall : ∀ a, a ∈ symbols) {T : Tree α β} {key : List α}
    {v : β} : (key, v) ∈ T.entries symbols ↔ T.lookup key = some v := by
  induction T generalizing key with
  | empty => simp [Tree.entries]
  | leaf =>
    rw [Tree.entries, lookup_leaf, List.mem_singleton, Prod.mk.injEq]
    by_cases hkey : key = []
    · simp [hkey, eq_comm]
    · simp [hkey]
  | short k c ih =>
    rw [Tree.entries, mem_map_entries, lookup_short, Option.bind_eq_some_iff]
    constructor
    · rintro ⟨r, rfl, hmem⟩
      exact ⟨r, dropPrefix?_eq_some.mpr rfl, ih.mp hmem⟩
    · rintro ⟨r, hr, hv⟩
      exact ⟨r, (dropPrefix?_eq_some.mp hr).symm, ih.mpr hv⟩
  | full ch ih =>
    rw [Tree.entries, List.mem_flatMap]
    constructor
    · rintro ⟨a, -, hmem⟩
      obtain ⟨r, rfl, hbelow⟩ := mem_map_entries.mp hmem
      rw [lookup_full_cons]
      exact (ih a).mp hbelow
    · intro hv
      cases key with
      | nil => simp at hv
      | cons a r => exact ⟨a, hall a, mem_map_entries.mpr ⟨r, rfl, (ih a).mpr hv⟩⟩

theorem nodup_entries (hsym : symbols.Nodup) (T : Tree α β) :
    ((T.entries symbols).map Prod.fst).Nodup := by
  induction T with
  | empty => exact List.nodup_nil
  | leaf => exact List.nodup_singleton _
  | short k c ih =>
    rw [Tree.entries, map_fst_entries]
    exact ih.map fun _ _ => List.append_cancel_left
  | full ch ih =>
    rw [Tree.entries, List.map_flatMap]
    simp only [map_fst_entries]
    refine List.nodup_flatMap.mpr ⟨fun a _ => ?_, hsym.imp fun {a b} hab => ?_⟩
    · exact (ih a).map fun _ _ h => (List.cons.inj h).2
    · -- keys below different symbols differ in the first place
      intro key ha hb
      obtain ⟨r, -, rfl⟩ := List.mem_map.mp ha
      obtain ⟨r', -, he⟩ := List.mem_map.mp hb
      exact hab (List.cons.inj he).1.symm

end Patricia
