/-
Binary tries over bit strings, and what one path of a trie says about a key.

A leaf holds its whole key and may sit at any position that its key extends.  `terminalAt p`
is what the trie has at the end of path `p`: nothing, or a leaf.  A key is looked up by walking
along its bits.

* **`find_of_terminalAt`** — a terminal on the way of a key answers the lookup of the key.
-/
import Mathlib.Data.List.Basic

namespace BitTrie

variable {V : Type*}

inductive Trie (V : Type*) where
  | empty
  | leaf (key : List Bool) (value : V)
  | node (left right : Trie V)

/-- The end of a path: `none`, or the key and value of a leaf. -/
abbrev Terminal (V : Type*) := Option (List Bool × V)

namespace Trie

def ofTerminal : Terminal V → Trie V
  | none => .empty
  | some u => .leaf u.1 u.2

/-- The end of path `p`, if it ends there. -/
def terminalAt : Trie V → List Bool → Option (Terminal V)
  | .empty, [] => some none
  | .leaf key value, [] => some (some (key, value))
  | .node left _, false :: p => left.terminalAt p
  | .node _ right, true :: p => right.terminalAt p
  | _, _ => none

/-- The walk along `q` that looks for `key`. -/
def walk (key : List Bool) : Trie V → List Bool → Option V
  | .empty, _ => none
  | .leaf key' value, _ => if key' = key then some value else none
  | .node left _, false :: q => walk key left q
  | .node _ right, true :: q => walk key right q
  | .node _ _, [] => none

def find (t : Trie V) (key : List Bool) : Option V := walk key t key

/-- A trie at position `pos` with keys of `n` bits: a leaf's key extends its position. -/
def WF (n : ℕ) : Trie V → List Bool → Prop
  | .empty, _ => True
  | .leaf key _, pos => pos <+: key ∧ key.length = n
  | .node left right, pos =>
    pos.length < n ∧ WF n left (pos ++ [false]) ∧ WF n right (pos ++ [true])

end Trie

open Trie

/-- What a terminal answers to the lookup of a key that comes by. -/
def answer (key : List Bool) (x : Terminal V) : Option V :=
  x.bind fun u => if u.1 = key then some u.2 else none

variable {x : Terminal V}

theorem walk_of_terminalAt {t : Trie V} {p q key : List Bool}
    (h : t.terminalAt p = some x) (hpq : p <+: q) : walk key t q = answer key x := by
  obtain ⟨rest, rfl⟩ := hpq
  induction p generalizing t with
  | nil =>
    cases t with
    | empty | leaf =>
      obtain rfl := Option.some.inj h
      rfl
    | node => cases h
  | cons b p ih =>
    cases t with
    | empty | leaf => cases h
    | node =>
      cases b with
      | false | true => exact ih h

theorem find_of_terminalAt {t : Trie V} {p key : List Bool}
    (h : t.terminalAt p = some x) (hp : p <+: key) : t.find key = answer key x :=
  walk_of_terminalAt h hp

/-! ### A trie with a given terminal -/

/-- The node with `t` on the side of `b` and `u` on the other. -/
def side (b : Bool) (t u : Trie V) : Trie V := if b then .node u t else .node t u

/-- The trie with terminal `x` at the end of a path and nothing beside it. -/
def chain (x : Terminal V) : List Bool → Trie V
  | [] => ofTerminal x
  | b :: p => side b (chain x p) .empty

/-- A trie with terminal `x` at the end of the first path and `y` where the second one leaves
it. -/
def fork (x y : Terminal V) : List Bool → List Bool → Trie V
  | [], _ => ofTerminal x
  | b :: p, [] => chain x (b :: p)
  | b :: p, c :: q =>
    if b = c then side b (fork x y p q) .empty else side b (chain x p) (ofTerminal y)

theorem terminalAt_side (b : Bool) (t u : Trie V) (p : List Bool) :
    (side b t u).terminalAt (b :: p) = t.terminalAt p := by
  cases b <;> rfl

theorem walk_side_self (b : Bool) (t u : Trie V) (key q : List Bool) :
    walk key (side b t u) (b :: q) = walk key t q := by
  cases b <;> rfl

theorem walk_side_of_ne {b c : Bool} (h : b ≠ c) (t u : Trie V) (key q : List Bool) :
    walk key (side b t u) (c :: q) = walk key u q := by
  cases b <;> cases c <;> first | rfl | exact absurd rfl h

theorem wf_side {n : ℕ} {b : Bool} {t u : Trie V} {pos : List Bool} :
    (side b t u).WF n pos ↔ pos.length < n ∧ t.WF n (pos ++ [b]) ∧ u.WF n (pos ++ [!b]) := by
  cases b with
  | false => rfl
  | true => exact and_congr_right fun _ => And.comm

theorem terminalAt_ofTerminal (x : Terminal V) : (ofTerminal x).terminalAt [] = some x := by
  cases x <;> rfl

theorem walk_ofTerminal (x : Terminal V) (key q : List Bool) :
    walk key (ofTerminal x) q = answer key x := by
  cases x <;> rfl

theorem terminalAt_chain (x : Terminal V) (p : List Bool) : (chain x p).terminalAt p = some x := by
  induction p with
  | nil => exact terminalAt_ofTerminal x
  | cons b p ih => rw [chain, terminalAt_side, ih]

theorem terminalAt_fork (x y : Terminal V) (p q : List Bool) :
    (fork x y p q).terminalAt p = some x := by
  induction p generalizing q with
  | nil =>
    rw [fork]
    exact terminalAt_ofTerminal x
  | cons b p ih =>
    cases q with
    | nil => rw [fork, terminalAt_chain]
    | cons =>
      rw [fork]
      split
      · rw [terminalAt_side, ih]
      · rw [terminalAt_side, terminalAt_chain]

theorem walk_fork {x y : Terminal V} {p q key : List Bool} (hlen : p.length ≤ q.length)
    (hp : ¬ p <+: q) : walk key (fork x y p q) q = answer key y := by
  induction p generalizing q with
  | nil => exact absurd List.nil_prefix hp
  | cons b p ih =>
    cases q with
    | nil => exact absurd hlen (Nat.not_succ_le_zero _)
    | cons =>
      rw [fork]
      split
      · next heq =>
        subst heq
        rw [walk_side_self]
        exact ih (Nat.le_of_succ_le_succ hlen) fun h => hp (List.cons_prefix_cons.mpr ⟨rfl, h⟩)
      · next hne => rw [walk_side_of_ne hne, walk_ofTerminal]

theorem wf_ofTerminal_of_append {n : ℕ} {pos rest : List Bool}
    (h : (ofTerminal x).WF n (pos ++ rest)) : (ofTerminal x).WF n pos := by
  cases x with
  | none => trivial
  | some => exact ⟨(List.prefix_append pos rest).trans h.1, h.2⟩

theorem wf_chain {n : ℕ} {p pos : List Bool}
    (hx : (ofTerminal x).WF n (pos ++ p)) (hlen : pos.length + p.length ≤ n) :
    (chain x p).WF n pos := by
  induction p generalizing pos with
  | nil => exact wf_ofTerminal_of_append hx
  | cons b p ih =>
    rw [List.length_cons] at hlen
    rw [chain, wf_side]
    refine ⟨by omega, ih ?_ ?_, trivial⟩
    · rwa [List.append_assoc]
    · rw [List.length_append, List.length_singleton]
      omega

theorem wf_fork {n : ℕ} {x y : Terminal V} {p q pos : List Bool}
    (hx : (ofTerminal x).WF n (pos ++ p)) (hlen : pos.length + p.length ≤ n)
    (hy : (ofTerminal y).WF n (pos ++ q)) : (fork x y p q).WF n pos := by
  induction p generalizing q pos with
  | nil =>
    rw [fork]
    exact wf_ofTerminal_of_append hx
  | cons b p ih =>
    cases q with
    | nil => exact wf_chain hx hlen
    | cons c q =>
      have hpos : (pos ++ [b]).length + p.length ≤ n := by
        rw [List.length_append, List.length_singleton]
        rw [List.length_cons] at hlen
        omega
      have hx' : (ofTerminal x).WF n (pos ++ [b] ++ p) := by rwa [List.append_assoc]
      have hlt : pos.length < n := by
        rw [List.length_cons] at hlen
        omega
      rw [fork]
      split
      · next heq =>
        subst heq
        refine wf_side.mpr ⟨hlt, ih hx' hpos ?_, trivial⟩
        rwa [List.append_assoc]
      · next hne =>
        have hother : (!b) = c := Bool.not_eq.mpr hne
        have hy' : (ofTerminal y).WF n (pos ++ [!b] ++ q) := by rwa [hother, List.append_assoc]
        exact wf_side.mpr ⟨hlt, wf_chain hx' hpos, wf_ofTerminal_of_append hy'⟩

/-! ### What a terminal says about a key -/

/-- Terminal `x` at the end of `p` settles whether `key` is in the trie. -/
def Determines (n : ℕ) (p : List Bool) (x : Terminal V) (key : List Bool) : Prop :=
  ∃ b, ∀ t : Trie V, t.WF n [] → t.terminalAt p = some x → (t.find key).isSome = b

section Key

variable {n : ℕ} {p key : List Bool}

theorem exists_fork (hkey : key.length = n) (hlen : p.length ≤ n) (hx : (ofTerminal x).WF n p)
    (hp : ¬ p <+: key) {y : Terminal V} (hy : (ofTerminal y).WF n key) :
    ∃ t : Trie V, t.WF n [] ∧ t.terminalAt p = some x ∧ t.find key = answer key y :=
  ⟨fork x y p key, wf_fork hx (by rwa [List.length_nil, Nat.zero_add]) hy,
    terminalAt_fork x y p key, walk_fork (hkey ▸ hlen) hp⟩

/-- **A terminal says whether a key is in the trie just if it is on the way of the key.** -/
theorem determines_iff (value : V) (hkey : key.length = n) (hlen : p.length ≤ n)
    (hx : (ofTerminal x).WF n p) : Determines n p x key ↔ p <+: key := by
  constructor
  · rintro ⟨b, hb⟩
    by_contra hp
    have hpresent : (ofTerminal (some (key, value))).WF n key := ⟨List.prefix_rfl, hkey⟩
    obtain ⟨t, ht, hat, hfind⟩ := exists_fork hkey hlen hx hp hpresent
    obtain ⟨t', ht', hat', hfind'⟩ := exists_fork hkey hlen hx hp (y := none) trivial
    have hyes := hb t ht hat
    have hno := hb t' ht' hat'
    rw [hfind] at hyes
    rw [hfind', ← hyes] at hno
    simp [answer] at hno
  · intro hp
    refine ⟨(answer key x).isSome, fun t _ hat => ?_⟩
    rw [find_of_terminalAt hat hp]

theorem present_iff {u : List Bool × V} (hkey : key.length = n) (hlen : p.length ≤ n)
    (hx : (ofTerminal (some u)).WF n p) :
    (∀ t : Trie V, t.WF n [] → t.terminalAt p = some (some u) → (t.find key).isSome) ↔
      u.1 = key := by
  constructor
  · intro h
    by_cases hp : p <+: key
    · have hchain := h (chain (some u) p)
        (wf_chain hx (by rwa [List.length_nil, Nat.zero_add])) (terminalAt_chain _ p)
      rw [find_of_terminalAt (terminalAt_chain _ p) hp] at hchain
      by_contra hne
      rw [answer, Option.bind_some, if_neg hne] at hchain
      cases hchain
    · obtain ⟨t, ht, hat, hfind⟩ := exists_fork hkey hlen hx hp (y := none) trivial
      have hpresent := h t ht hat
      rw [hfind] at hpresent
      cases hpresent
  · rintro rfl t - hat
    rw [find_of_terminalAt hat hx.1, answer, Option.bind_some, if_pos rfl]
    rfl

theorem absent_iff (value : V) (hkey : key.length = n) (hlen : p.length ≤ n) :
    (∀ t : Trie V, t.WF n [] → t.terminalAt p = some none → t.find key = none) ↔ p <+: key := by
  constructor
  · intro h
    by_contra hp
    have hpresent : (ofTerminal (some (key, value))).WF n key := ⟨List.prefix_rfl, hkey⟩
    obtain ⟨t, ht, hat, hfind⟩ := exists_fork hkey hlen (x := none) trivial hp hpresent
    rw [h t ht hat] at hfind
    simp [answer] at hfind
  · intro hp t _ hat
    rw [find_of_terminalAt hat hp]
    rfl

end Key

end BitTrie
