/-
Merkle trees over lists of leaves.

A level of the tree is a list, and the level above holds one node for every two neighbours
(`pairUp`).  `root d l` is the root above `2 ^ d` leaves, `proof d l i` the siblings on the
way up from leaf `i`, and `fold x p i` climbs from `x` with siblings `p`, left or right as the
bits of `i` say.  Nodes need only be free of collisions where they are compared.

* **`root_eq_fold_iff`** — the climb from `x` reaches the root just if `x` is leaf `i` and the
  siblings are its proof;
* **`eq_of_root_eq`** — the root determines the leaves.
-/
import Mathlib.Algebra.Group.Nat.Defs
import Mathlib.Data.List.Basic

namespace Merkle

variable {α : Type*} (node : α → α → α)

/-! ### Levels -/

def pairs : List α → List (α × α)
  | [] => []
  | [_] => []
  | a :: b :: rest => (a, b) :: pairs rest

def pairUp (l : List α) : List α := (pairs l).map fun u => node u.1 u.2

theorem length_pairs (l : List α) : (pairs l).length = l.length / 2 := by
  induction l using pairs.induct with
  | case1 | case2 => simp [pairs]
  | case3 a b rest ih =>
    rw [pairs, List.length_cons, ih, List.length_cons, List.length_cons]
    omega

variable {l : List α}

theorem flatMap_pairs (h : l.length % 2 = 0) : (pairs l).flatMap (fun u => [u.1, u.2]) = l := by
  induction l using pairs.induct with
  | case1 => rfl
  | case2 => cases h
  | case3 a b rest ih =>
    rw [List.length_cons, List.length_cons] at h
    rw [pairs, List.flatMap_cons, ih (by omega)]
    rfl

theorem length_pairUp (l : List α) : (pairUp node l).length = l.length / 2 := by
  rw [pairUp, List.length_map, length_pairs]

theorem length_pairUp_of_eq {d : ℕ} (h : l.length = 2 ^ (d + 1)) :
    (pairUp node l).length = 2 ^ d := by
  rw [length_pairUp, h, Nat.pow_succ]
  omega

theorem getElem?_pairs {j : ℕ} {a b : α} :
    (pairs l)[j]? = some (a, b) ↔ l[2 * j]? = some a ∧ l[2 * j + 1]? = some b := by
  induction l using pairs.induct generalizing j with
  | case1 | case2 => simp [pairs]
  | case3 x y rest ih =>
    cases j with
    | zero => simp [pairs]
    | succ j =>
      have hindex : 2 * (j + 1) = 2 * j + 1 + 1 := by omega
      rw [pairs, List.getElem?_cons_succ, ih, hindex]
      simp

/-- The neighbour of `i`. -/
def sibling (i : ℕ) : ℕ := if i % 2 = 0 then i + 1 else i - 1

/-- A node at `i` and its sibling, in the order of the level. -/
def order (i : ℕ) (x s : α) : α × α := if i % 2 = 0 then (x, s) else (s, x)

theorem getElem?_pairs_order {i : ℕ} {x s : α} :
    (pairs l)[i / 2]? = some (order i x s) ↔ l[i]? = some x ∧ l[sibling i]? = some s := by
  by_cases hi : i % 2 = 0
  · have heven : 2 * (i / 2) = i := by omega
    rw [order, if_pos hi, sibling, if_pos hi, getElem?_pairs, heven]
  · have hodd : 2 * (i / 2) = i - 1 := by omega
    have hsucc : i - 1 + 1 = i := by omega
    rw [order, if_neg hi, sibling, if_neg hi, getElem?_pairs, hodd, hsucc]
    exact And.comm

/-! ### Roots and proofs -/

/-- The root above `2 ^ d` leaves. -/
def root : ℕ → List α → Option α
  | 0, l => l.head?
  | d + 1, l => root d (pairUp node l)

theorem exists_root {d : ℕ} (hl : l.length = 2 ^ d) : ∃ r, root node d l = some r := by
  induction d generalizing l with
  | zero =>
    obtain ⟨a, rfl⟩ := List.length_eq_one_iff.mp hl
    exact ⟨a, rfl⟩
  | succ d ih => exact ih (length_pairUp_of_eq node hl)

/-- The siblings on the way up from leaf `i`. -/
def proof : ℕ → List α → ℕ → List α
  | 0, _, _ => []
  | d + 1, l, i => l[sibling i]?.toList ++ proof d (pairUp node l) (i / 2)

/-- The climb from `x` at `i` with siblings `p`. -/
def fold (x : α) : List α → ℕ → α
  | [], _ => x
  | s :: p, i => fold (node (order i x s).1 (order i x s).2) p (i / 2)

def treePairs : ℕ → List α → List (α × α)
  | 0, _ => []
  | d + 1, l => pairs l ++ treePairs d (pairUp node l)

def foldPairs (x : α) : List α → ℕ → List (α × α)
  | [], _ => []
  | s :: p, i => order i x s :: foldPairs (node (order i x s).1 (order i x s).2) p (i / 2)

/-- No pair of the one list collides with a different pair of the other. -/
def Separate (us vs : List (α × α)) : Prop :=
  ∀ u ∈ us, ∀ v ∈ vs, node u.1 u.2 = node v.1 v.2 → u = v

variable {node} {l' : List α} {d i : ℕ} {x : α} {p : List α}

theorem root_eq_fold_iff (hl : l.length = 2 ^ d) (hi : i < 2 ^ d) (hp : p.length = d)
    (hsep : Separate node (foldPairs node x p i) (treePairs node d l)) :
    root node d l = some (fold node x p i) ↔ l[i]? = some x ∧ p = proof node d l i := by
  induction d generalizing l i x p with
  | zero =>
    obtain rfl := List.eq_nil_of_length_eq_zero hp
    obtain rfl : i = 0 := by omega
    simp [root, fold, proof, List.head?_eq_getElem?]
  | succ d ih =>
    cases p with
    | nil => cases hp
    | cons s p =>
      -- the level above, where the climb goes on
      have hup := length_pairUp_of_eq node hl
      have hhalf : i / 2 < 2 ^ d := by
        rw [Nat.pow_succ] at hi
        omega
      have hsep' : Separate node (foldPairs node (node (order i x s).1 (order i x s).2) p (i / 2))
          (treePairs node d (pairUp node l)) := fun u hu v hv =>
        hsep u (List.mem_cons_of_mem _ hu) v (List.mem_append_right _ hv)
      rw [root, fold, ih hup hhalf (Nat.succ.inj hp) hsep']
      -- at this level, the pair of the climb against the pair of the tree
      have hpair : (pairUp node l)[i / 2]? = some (node (order i x s).1 (order i x s).2) ↔
          l[i]? = some x ∧ l[sibling i]? = some s := by
        rw [← getElem?_pairs_order, pairUp, List.getElem?_map, Option.map_eq_some_iff]
        constructor
        · rintro ⟨v, hv, heq⟩
          have hmem : v ∈ treePairs node (d + 1) l :=
            List.mem_append_left _ (List.mem_of_getElem? hv)
          rw [hv, hsep _ List.mem_cons_self v hmem heq.symm]
        · intro hv
          exact ⟨_, hv, rfl⟩
      rw [hpair, proof]
      constructor
      · rintro ⟨⟨hx, hs⟩, rfl⟩
        exact ⟨hx, by rw [hs]; rfl⟩
      · rintro ⟨hx, heq⟩
        cases hs : l[sibling i]? with
        | some =>
          rw [hs, Option.toList_some, List.singleton_append, List.cons.injEq] at heq
          exact ⟨⟨hx, by rw [heq.1]⟩, heq.2⟩
        | none =>
          -- the sibling is in the level too
          have hlen := List.getElem?_eq_none_iff.mp hs
          rw [hl, Nat.pow_succ, sibling] at hlen
          rw [Nat.pow_succ] at hi
          split at hlen <;> omega

theorem eq_of_map_eq {β γ : Type*} {f : β → γ} {us vs : List β}
    (hinj : ∀ u ∈ us, ∀ v ∈ vs, f u = f v → u = v) (heq : us.map f = vs.map f) : us = vs := by
  induction us generalizing vs with
  | nil => exact (List.map_eq_nil_iff.mp heq.symm).symm
  | cons u us ih =>
    cases vs with
    | nil => cases heq
    | cons v vs =>
      rw [List.map_cons, List.map_cons, List.cons.injEq] at heq
      have htail : us = vs := ih (fun a ha b hb =>
        hinj a (List.mem_cons_of_mem _ ha) b (List.mem_cons_of_mem _ hb)) heq.2
      rw [hinj u List.mem_cons_self v List.mem_cons_self heq.1, htail]

theorem eq_of_root_eq (hl : l.length = 2 ^ d) (hl' : l'.length = 2 ^ d)
    (hsep : Separate node (treePairs node d l) (treePairs node d l'))
    (hroot : root node d l = root node d l') : l = l' := by
  induction d generalizing l l' with
  | zero =>
    obtain ⟨a, rfl⟩ := List.length_eq_one_iff.mp hl
    obtain ⟨b, rfl⟩ := List.length_eq_one_iff.mp hl'
    simpa [root] using hroot
  | succ d ih =>
    have hup : pairUp node l = pairUp node l' := by
      refine ih (length_pairUp_of_eq node hl) (length_pairUp_of_eq node hl') ?_ hroot
      exact fun u hu v hv => hsep u (List.mem_append_right _ hu) v (List.mem_append_right _ hv)
    have hpairs : pairs l = pairs l' := by
      refine eq_of_map_eq ?_ hup
      exact fun u hu v hv => hsep u (List.mem_append_left _ hu) v (List.mem_append_left _ hv)
    have heven : 2 ^ (d + 1) % 2 = 0 := Nat.two_pow_mod_two_eq_zero.mpr (Nat.succ_pos d)
    have hflat := flatMap_pairs (l := l) (by rw [hl, heven])
    rw [hpairs, flatMap_pairs (by rw [hl', heven])] at hflat
    exact hflat.symm

end Merkle
