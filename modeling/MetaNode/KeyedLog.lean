/-
Logs in which the last entry of a key counts.

`latest key log k` is the last entry of a log with the key `k`.  A map into which
the entries are put one after the other finds just these (`Reflects`), its values
in any order are a log with the same answers (`Reflects.latest_values`), and a sum
over its values is a sum over the distinct keys of the log (`Reflects.sum_values`).
-/
import Mathlib.Algebra.BigOperators.Group.List.Basic
import Mathlib.Algebra.GroupWithZero.Nat
import Mathlib.Data.List.AList
import Mathlib.Data.List.Dedup

namespace KeyedLog

variable {α κ : Type} [DecidableEq κ] (key : α → κ)

/-! ### The last entry of a key -/

/-- The last entry with the key `k`. -/
def latest (log : List α) (k : κ) : Option α := log.reverse.find? fun a => key a = k

theorem latest_append (log log' : List α) (k : κ) :
    latest key (log ++ log') k = (latest key log' k).or (latest key log k) := by
  rw [latest, List.reverse_append, List.find?_append]
  rfl

theorem latest_concat (log : List α) (a : α) (k : κ) :
    latest key (log ++ [a]) k = if key a = k then some a else latest key log k := by
  rw [latest_append, latest, List.reverse_singleton, List.find?_singleton]
  by_cases h : key a = k <;> simp [h]

variable {key} {log : List α} {k : κ} {a : α}

theorem key_of_latest (h : latest key log k = some a) : key a = k := by
  simpa using List.find?_some h

theorem mem_of_latest (h : latest key log k = some a) : a ∈ log :=
  List.mem_reverse.mp (List.mem_of_find?_eq_some h)

theorem latest_eq_none_iff : latest key log k = none ↔ k ∉ log.map key := by
  rw [latest, List.find?_eq_none]
  simp

theorem latest_of_nodup (hnd : (log.map key).Nodup) (ha : a ∈ log) :
    latest key log (key a) = some a := by
  cases h : latest key log (key a) with
  | none => exact absurd (List.mem_map_of_mem ha) (latest_eq_none_iff.mp h)
  | some =>
    have hkey := key_of_latest h
    rw [List.inj_on_of_nodup_map hnd (mem_of_latest h) ha hkey]

/-! ### Maps -/

/-- The map holds the last entry of every key. -/
def Reflects (key : α → κ) (m : AList fun _ : κ => α) (log : List α) : Prop :=
  ∀ k, m.lookup k = latest key log k

def values (m : AList fun _ : κ => α) : List α := m.entries.map Sigma.snd

variable {m : AList fun _ : κ => α}

omit [DecidableEq κ] in
theorem eq_empty_of_values (h : (values m).length = 0) : m = ∅ :=
  AList.ext (by simpa [values] using h)

theorem reflects_empty : Reflects key ∅ [] := fun k => AList.lookup_empty k

theorem Reflects.insert (h : Reflects key m log) (a : α) :
    Reflects key (m.insert (key a) a) (log ++ [a]) := by
  intro k
  rw [latest_concat]
  by_cases hk : key a = k
  · rw [if_pos hk, ← hk, AList.lookup_insert]
  · rw [if_neg hk, AList.lookup_insert_ne (Ne.symm hk), h k]

theorem Reflects.map_key_values (h : Reflects key m log) : (values m).map key = m.keys := by
  rw [values, List.map_map]
  refine List.map_congr_left fun e he => ?_
  have hlook : m.lookup e.1 = some e.2 := AList.mem_lookup_iff.mpr he
  rw [h] at hlook
  show key e.2 = e.1
  exact key_of_latest hlook

/-- **The values in any order answer as the log does.** -/
theorem Reflects.latest_values (h : Reflects key m log) {l : List α} (hl : l.Perm (values m))
    (k : κ) : latest key l k = latest key log k := by
  have hnd : (l.map key).Nodup := by
    rw [(hl.map key).nodup_iff, h.map_key_values]
    exact m.keys_nodup
  have hmem : ∀ a, a ∈ l ↔ ∃ k', latest key log k' = some a := by
    intro a
    rw [hl.mem_iff, values, List.mem_map]
    constructor
    · rintro ⟨e, he, rfl⟩
      exact ⟨e.1, (h e.1).symm.trans (AList.mem_lookup_iff.mpr he)⟩
    · rintro ⟨k', hk'⟩
      exact ⟨⟨k', a⟩, AList.mem_lookup_iff.mp ((h k').trans hk'), rfl⟩
  cases hlog : latest key log k with
  | some a =>
    have hlast := latest_of_nodup hnd ((hmem a).mpr ⟨k, hlog⟩)
    rwa [key_of_latest hlog] at hlast
  | none =>
    cases hlk : latest key l k with
    | none => rfl
    | some a =>
      obtain ⟨k', hk'⟩ := (hmem a).mp (mem_of_latest hlk)
      rw [← key_of_latest hk', key_of_latest hlk, hlog] at hk'
      cases hk'

/-! ### Sums over the distinct keys -/

/-- The sum of a weight over the distinct keys of a log, of the last entry each. -/
def total (key : α → κ) (w : α → ℕ) (log : List α) : ℕ :=
  ((log.map key).dedup.map fun k => ((latest key log k).map w).getD 0).sum

/-- **The sum over a map is the sum over the distinct keys.** -/
theorem Reflects.sum_values (h : Reflects key m log) (w : α → ℕ) :
    ((values m).map w).sum = total key w log := by
  have hkeys : m.keys.Perm (log.map key).dedup := by
    refine (List.perm_ext_iff_of_nodup m.keys_nodup (List.nodup_dedup _)).mpr fun k => ?_
    rw [List.mem_dedup, ← AList.mem_keys, ← AList.lookup_isSome, h k, ← not_iff_not,
      ← latest_eq_none_iff, Bool.not_eq_true, Option.isSome_eq_false_iff, Option.isNone_iff_eq_none]
  have hvalues : (values m).map w
      = m.keys.map fun k => ((latest key log k).map w).getD 0 := by
    rw [← h.map_key_values, List.map_map]
    refine List.map_congr_left fun a ha => ?_
    obtain ⟨e, he, rfl⟩ := List.mem_map.mp ha
    have hlook : m.lookup e.1 = some e.2 := AList.mem_lookup_iff.mpr he
    rw [h] at hlook
    simp only [Function.comp, key_of_latest hlook, hlook, Option.map_some, Option.getD_some]
  rw [hvalues, total]
  exact (hkeys.map _).sum_eq

theorem total_congr {w : α → ℕ} {log' : List α} (h : ∀ k, latest key log k = latest key log' k) :
    total key w log = total key w log' := by
  have hperm : (log.map key).dedup.Perm (log'.map key).dedup := by
    refine (List.perm_ext_iff_of_nodup (List.nodup_dedup _) (List.nodup_dedup _)).mpr fun k => ?_
    rw [List.mem_dedup, List.mem_dedup, ← not_iff_not, ← latest_eq_none_iff, ← latest_eq_none_iff,
      h k]
  rw [total, total]
  simp only [h]
  exact (hperm.map _).sum_eq

end KeyedLog
