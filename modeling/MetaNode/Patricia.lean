/-
Path-compressed tries over terminated keys.

A `Tree α β` stores values of type `β` under keys that are words over `α`.
`short` nodes compress a run of single-child positions, `full` nodes branch on
the next symbol.  Keys end in a terminator `τ` that occurs nowhere else in
them, so no key is a prefix of another one (`Terminated`).

`Canonical` is the minimal form: no `short` directly below a `short`, two or
more children below every `full`.  For a minimal tree and a terminated key,
`lookup_insert` and `lookup_delete` say that insertion and deletion act on the
stored map exactly at that key.
-/
import Mathlib.Data.List.Basic
import Mathlib.Logic.Function.Basic

namespace Patricia

open Function

variable {α β : Type}

/-! ### Words: common prefixes and terminated keys -/

theorem prefix_or_fork (key k : List α) :
    (∃ r, key = k ++ r) ∨
      (∃ p a as b bs, a ≠ b ∧ k = p ++ a :: as ∧ key = p ++ b :: bs) ∨
      ∃ b bs, k = key ++ b :: bs := by
  induction k generalizing key with
  | nil => exact .inl ⟨key, rfl⟩
  | cons a k ih =>
    cases key with
    | nil => exact .inr (.inr ⟨a, k, rfl⟩)
    | cons b key =>
      by_cases hab : a = b
      · subst hab
        rcases ih key with ⟨r, rfl⟩ | ⟨p, c, cs, d, ds, hcd, rfl, rfl⟩ | ⟨d, ds, rfl⟩
        · exact .inl ⟨r, rfl⟩
        · exact .inr (.inl ⟨a :: p, c, cs, d, ds, hcd, rfl, rfl⟩)
        · exact .inr (.inr ⟨d, ds, rfl⟩)
      · exact .inr (.inl ⟨[], a, k, b, key, hab, rfl, rfl⟩)

variable {p bs : List α} {a b : α}

theorem not_prefix_of_fork {as : List α} (hab : a ≠ b) : ¬ p ++ a :: as <+: p ++ b :: bs := by
  rintro ⟨r, hr⟩
  rw [List.append_assoc, List.append_cancel_left_eq] at hr
  exact hab (List.cons.inj hr).1

/-- A key that ends in the terminator and contains it nowhere else. -/
def Terminated (τ : α) (key : List α) : Prop := ∃ w, τ ∉ w ∧ key = w ++ [τ]

variable {τ : α} {key : List α}

theorem Terminated.ne_nil (h : Terminated τ key) : key ≠ [] := by
  obtain ⟨w, -, rfl⟩ := h
  simp

theorem terminated_cons :
    Terminated τ (a :: key) ↔ (a = τ ∧ key = []) ∨ (a ≠ τ ∧ Terminated τ key) := by
  constructor
  · rintro ⟨w, hw, he⟩
    cases w with
    | nil =>
      obtain ⟨rfl, rfl⟩ : a = τ ∧ key = [] := by simpa using he
      exact .inl ⟨rfl, rfl⟩
    | cons b w =>
      obtain ⟨rfl, rfl⟩ : a = b ∧ key = w ++ [τ] := by simpa using he
      simp only [List.mem_cons, not_or] at hw
      exact .inr ⟨fun h => hw.1 h.symm, w, hw.2, rfl⟩
  · rintro (⟨rfl, rfl⟩ | ⟨ha, w, hw, rfl⟩)
    · exact ⟨[], List.not_mem_nil, rfl⟩
    · exact ⟨a :: w, by simp [hw, Ne.symm ha], rfl⟩

theorem Terminated.append (hp : τ ∉ p) (h : Terminated τ key) : Terminated τ (p ++ key) := by
  obtain ⟨w, hw, rfl⟩ := h
  exact ⟨p ++ w, by simp [hp, hw], (List.append_assoc p w [τ]).symm⟩

theorem Terminated.of_append (hp : τ ∉ p) (h : Terminated τ (p ++ key)) : Terminated τ key := by
  induction p with
  | nil => exact h
  | cons a p ih =>
    simp only [List.mem_cons, not_or] at hp
    rcases terminated_cons.mp h with ⟨rfl, -⟩ | ⟨-, h⟩
    · exact absurd rfl hp.1
    · exact ih hp.2 h

theorem Terminated.eq_nil_of_append (hp : Terminated τ p) (h : Terminated τ (p ++ key)) :
    key = [] := by
  obtain ⟨w, hw, rfl⟩ := hp
  rw [List.append_assoc] at h
  rcases terminated_cons.mp (h.of_append hw) with ⟨-, hk⟩ | ⟨hne, -⟩
  · exact hk
  · exact absurd rfl hne

theorem Terminated.eq_of_isPrefix {key' : List α} (hk : Terminated τ key) (hk' : Terminated τ key')
    (h : key <+: key') : key = key' := by
  obtain ⟨r, rfl⟩ := h
  rw [hk.eq_nil_of_append hk', List.append_nil]

theorem Terminated.not_mem_left (h : Terminated τ (p ++ b :: bs)) : τ ∉ p := by
  induction p with
  | nil => simp
  | cons a p ih =>
    rcases terminated_cons.mp h with ⟨-, hnil⟩ | ⟨ha, h⟩
    · simp at hnil
    · simp [ih h, Ne.symm ha]

/-! ### Trees and their minimal form -/

/-- A compressed trie: `short` carries a run of symbols, `full` branches on
the next symbol. -/
inductive Tree (α β : Type) where
  | empty
  | leaf (v : β)
  | short (key : List α) (child : Tree α β)
  | full (children : α → Tree α β)

variable {i : α}

namespace Tree

def isEmpty : Tree α β → Bool
  | .empty => true
  | _ => false

variable {T : Tree α β}

theorem isEmpty_iff : T.isEmpty = true ↔ T = .empty := by
  cases T <;> simp [isEmpty]

/-- `graft p T` puts `T` below the word `p`. -/
def graft (p : List α) (T : Tree α β) : Tree α β := if p = [] then T else .short p T

@[simp] theorem graft_nil (T : Tree α β) : graft [] T = T := rfl

theorem graft_of_ne_nil (hp : p ≠ []) (T : Tree α β) : graft p T = .short p T :=
  if_neg hp

variable (k : List α)

theorem graft_leaf_ne_empty (v : β) : graft k (.leaf v) ≠ .empty := by
  unfold graft
  split <;> simp

/-- `extend k T` puts `T` below `k`, merging with a `short` at the top of `T`. -/
def extend (k : List α) : Tree α β → Tree α β
  | .short k' c => .short (k ++ k') c
  | T => .short k T

theorem extend_of_ne_short (h : ∀ k' c, T ≠ .short k' c) : extend k T = .short k T := by
  cases T with
  | short k' c => exact absurd rfl (h k' c)
  | _ => rfl

theorem extend_ne_empty (T : Tree α β) : extend k T ≠ .empty := by
  cases T <;> simp [extend]

open Classical in
/-- Replaces a branching node that has a single child left by a `short`. -/
noncomputable def contract (ch : α → Tree α β) : Tree α β :=
  if h : ∃ i, ∀ j, ch j ≠ .empty ↔ j = i then extend [h.choose] (ch h.choose) else .full ch

variable {ch : α → Tree α β}

theorem contract_of_unique (h : ∀ j, ch j ≠ .empty ↔ j = i) : contract ch = extend [i] (ch i) := by
  have hex : ∃ i, ∀ j, ch j ≠ .empty ↔ j = i := ⟨i, h⟩
  have hi : hex.choose = i := ((h _).mp ((hex.choose_spec _).mpr rfl))
  rw [contract, dif_pos hex, hi]

theorem contract_of_many (h : ¬ ∃ i, ∀ j, ch j ≠ .empty ↔ j = i) : contract ch = .full ch :=
  dif_neg h

theorem contract_of_two {j : α} (hij : i ≠ j) (hi : ch i ≠ .empty) (hj : ch j ≠ .empty) :
    contract ch = .full ch := by
  refine contract_of_many ?_
  rintro ⟨l, hl⟩
  exact hij (((hl i).mp hi).trans ((hl j).mp hj).symm)

theorem update_ne_empty [DecidableEq α] {x : α} (hT : T ≠ .empty) (hx : ch x ≠ .empty) :
    update ch a T x ≠ .empty := by
  by_cases hxa : x = a
  · subst hxa
    rwa [update_self]
  · rwa [update_of_ne hxa]

theorem contract_ne_empty (ch : α → Tree α β) : contract ch ≠ .empty := by
  unfold contract
  split
  · exact extend_ne_empty _ _
  · simp

end Tree

open Patricia.Tree

/-- The minimal form of a tree of terminated keys. -/
inductive Canonical (τ : α) : Tree α β → Prop
  | empty : Canonical τ .empty
  | leaf {w : List α} {v : β} (hw : τ ∉ w) : Canonical τ (.short (w ++ [τ]) (.leaf v))
  | ext {k : List α} {ch : α → Tree α β} (hne : k ≠ []) (hk : τ ∉ k)
      (hc : Canonical τ (.full ch)) : Canonical τ (.short k (.full ch))
  | full {ch : α → Tree α β} {i j : α} (hij : i ≠ j) (hi : ch i ≠ .empty) (hj : ch j ≠ .empty)
      (hτ : ch τ = .empty ∨ ∃ v, ch τ = .leaf v) (hc : ∀ a, a ≠ τ → Canonical τ (ch a)) :
      Canonical τ (.full ch)

/-- `key` is what is left of a terminated key at the position of `T`: either
the terminator is still ahead, or it has just been consumed. -/
inductive Fits (τ : α) : Tree α β → List α → Prop
  | ahead {T : Tree α β} {key : List α} (hT : Canonical τ T) (hk : Terminated τ key) : Fits τ T key
  | noLeaf : Fits τ .empty []
  | onLeaf (v : β) : Fits τ (.leaf v) []

variable {ch : α → Tree α β}

theorem Fits.child (h : Fits τ (.full ch) (a :: key)) : Fits τ (ch a) key := by
  cases h with
  | ahead hT hk =>
    cases hT with
    | full hij hi hj hτ hc =>
      rcases terminated_cons.mp hk with ⟨rfl, rfl⟩ | ⟨ha, hk⟩
      · rcases hτ with he | ⟨v, hv⟩
        · rw [he]
          exact .noLeaf
        · rw [hv]
          exact .onLeaf v
      · exact .ahead (hc a ha) hk

variable {c : Tree α β}

theorem Fits.rest {k r : List α} (h : Fits τ (.short k c) (k ++ r)) : Fits τ c r := by
  generalize hkey : k ++ r = key at h
  cases h with
  | ahead hT hk =>
    subst hkey
    cases hT with
    | leaf hw =>
      obtain rfl := Terminated.eq_nil_of_append ⟨_, hw, rfl⟩ hk
      exact .onLeaf _
    | ext hne hτ hc => exact .ahead hc (hk.of_append hτ)

variable {k : List α}

theorem Fits.of_short (h : Fits τ (.short k c) key) :
    Canonical τ (.short k c) ∧ Terminated τ key := by
  cases h with
  | ahead hT hk => exact ⟨hT, hk⟩

theorem Fits.of_full (h : Fits τ (.full ch) key) : Canonical τ (.full ch) ∧ Terminated τ key := by
  cases h with
  | ahead hT hk => exact ⟨hT, hk⟩

theorem Fits.of_leaf {v : β} (h : Fits τ (.leaf v) key) : key = [] := by
  cases h with
  | ahead hT => cases hT
  | onLeaf => rfl

theorem Fits.of_empty (h : Fits τ (.empty : Tree α β) key) (hk : key ≠ []) : Terminated τ key := by
  cases h with
  | ahead _ hk => exact hk
  | noLeaf => exact absurd rfl hk

theorem Canonical.key_ne_nil (h : Canonical τ (.short k c)) : k ≠ [] := by
  cases h with
  | leaf => simp
  | ext hne => exact hne

theorem Canonical.child_ne_short (h : Canonical τ (.short k c))
    (k' : List α) (c' : Tree α β) : c ≠ .short k' c' := by
  rintro rfl
  cases h

section

variable (h : Canonical τ (.full ch))

include h

theorem Canonical.child (ha : a ≠ τ) : Canonical τ (ch a) := by
  cases h with
  | full _ _ _ _ hc => exact hc a ha

theorem Canonical.last : ch τ = .empty ∨ ∃ v, ch τ = .leaf v := by
  cases h with
  | full _ _ _ hτ => exact hτ

theorem Canonical.child_or_leaf (a : α) : Canonical τ (ch a) ∨ ∃ v, ch a = .leaf v := by
  by_cases ha : a = τ
  · subst ha
    rcases h.last with he | hv
    · exact .inl (he ▸ .empty)
    · exact .inr hv
  · exact .inl (h.child ha)

theorem Canonical.last_ne_short (k : List α) (c : Tree α β) : ch τ ≠ .short k c := by
  rcases h.last with he | ⟨v, hv⟩
  · simp [he]
  · simp [hv]

end

theorem Fits.not_past (h : Fits τ (.short k c) key) : k ≠ key ++ b :: bs := by
  intro hl
  obtain ⟨hT, hk⟩ := h.of_short
  cases hT with
  | @leaf w _ hw =>
    have hnil : b :: bs = [] := hk.eq_nil_of_append ⟨w, hw, hl.symm⟩
    simp at hnil
  | ext _ hτ =>
    obtain ⟨w, -, rfl⟩ := hk
    exact hτ (by simp [hl])

variable {T : Tree α β}

theorem Canonical.extend (hT : Canonical τ T) (hne : T ≠ .empty)
    (hk : k ≠ []) (hτ : τ ∉ k) : Canonical τ (extend k T) := by
  cases hT with
  | empty => exact absurd rfl hne
  | @leaf w v hw =>
    rw [Tree.extend, ← List.append_assoc]
    exact .leaf (by simp [hτ, hw])
  | ext hne' hk' hc => exact .ext (by simp [hk]) (by simp [hτ, hk']) hc
  | full hij hi hj hτ' hc => exact .ext hk hτ (.full hij hi hj hτ' hc)

theorem Canonical.contract (hi : ch i ≠ .empty)
    (hτ : ch τ = .empty ∨ ∃ v, ch τ = .leaf v) (hc : ∀ a, a ≠ τ → Canonical τ (ch a)) :
    Canonical τ (contract ch) := by
  by_cases h : ∃ j, j ≠ i ∧ ch j ≠ .empty
  · obtain ⟨j, hji, hj⟩ := h
    rw [contract_of_two hji hj hi]
    exact .full hji hj hi hτ hc
  · have huniq : ∀ j, ch j ≠ .empty ↔ j = i := by
      intro j
      constructor
      · intro hj
        by_contra hji
        exact h ⟨j, hji, hj⟩
      · rintro rfl
        exact hi
    rw [contract_of_unique huniq]
    by_cases hiτ : i = τ
    · subst hiτ
      rcases hτ with he | ⟨v, hv⟩
      · exact absurd he hi
      · rw [hv]
        exact .leaf (w := []) List.not_mem_nil
    · exact (hc i hiτ).extend hi (by simp) (by simpa using Ne.symm hiτ)

/-! ### The stored map -/

variable [DecidableEq α]

theorem dropPrefix?_eq_some {r : List α} : key.dropPrefix? p = some r ↔ key = p ++ r := by
  rw [List.dropPrefix?_eq_some_iff]
  constructor
  · rintro ⟨p', rfl, hp⟩
    rw [eq_of_beq hp]
  · intro h
    exact ⟨p, h, BEq.rfl⟩

@[simp] theorem dropPrefix?_append (p r : List α) : (p ++ r).dropPrefix? p = some r :=
  dropPrefix?_eq_some.mpr rfl

@[simp] theorem dropPrefix?_self (p : List α) : p.dropPrefix? p = some [] :=
  dropPrefix?_eq_some.mpr (List.append_nil p).symm

theorem dropPrefix?_eq_none : key.dropPrefix? p = none ↔ ¬ p <+: key := by
  cases hd : key.dropPrefix? p with
  | none =>
    simp only [true_iff]
    rintro ⟨r, rfl⟩
    simp at hd
  | some r =>
    have hp : p <+: key := ⟨r, (dropPrefix?_eq_some.mp hd).symm⟩
    simp [hp]

theorem dropPrefix?_append_left (key p q : List α) :
    key.dropPrefix? (p ++ q) = (key.dropPrefix? p).bind fun r => r.dropPrefix? q := by
  ext r
  simp only [dropPrefix?_eq_some, Option.bind_eq_some_iff]
  constructor
  · rintro rfl
    exact ⟨q ++ r, List.append_assoc p q r, rfl⟩
  · rintro ⟨s, rfl, rfl⟩
    exact (List.append_assoc p q r).symm

theorem dropPrefix?_singleton (a b : α) (key : List α) :
    (a :: key).dropPrefix? [b] = if a = b then some key else none := by
  by_cases h : a = b <;> simp [List.dropPrefix?, h]

def commonPrefix : List α → List α → List α
  | a :: as, b :: bs => if a = b then a :: commonPrefix as bs else []
  | _, _ => []

theorem commonPrefix_append (p r : List α) : commonPrefix (p ++ r) p = p := by
  induction p with
  | nil => cases r <;> rfl
  | cons a p ih => simp [commonPrefix, ih]

theorem commonPrefix_fork (p : List α) (as bs : List α) (hab : a ≠ b) :
    commonPrefix (p ++ b :: bs) (p ++ a :: as) = p := by
  induction p with
  | nil => simp [commonPrefix, hab.symm]
  | cons c p ih => simp [commonPrefix, ih]

namespace Tree

def lookup : Tree α β → List α → Option β
  | .empty, _ => none
  | .leaf v, key => if key = [] then some v else none
  | .short k c, key =>
    match key.dropPrefix? k with
    | some r => c.lookup r
    | none => none
  | .full _, [] => none
  | .full ch, a :: key => (ch a).lookup key

@[simp] theorem lookup_empty (key : List α) : lookup (.empty : Tree α β) key = none := by
  cases key <;> rfl

variable (v : β)

theorem lookup_leaf (key : List α) : lookup (.leaf v) key = if key = [] then some v else none := by
  cases key <;> rfl

variable (k : List α) (c : Tree α β)

theorem lookup_short (key : List α) :
    lookup (.short k c) key = (key.dropPrefix? k).bind c.lookup := by
  rw [lookup]
  cases key.dropPrefix? k <;> rfl

variable (ch)

@[simp] theorem lookup_full_nil : lookup (.full ch) [] = none := rfl

@[simp] theorem lookup_full_cons (a : α) (key : List α) :
    lookup (.full ch) (a :: key) = (ch a).lookup key := rfl

variable (r : List α)

@[simp] theorem lookup_short_append (c : Tree α β) : lookup (.short k c) (k ++ r) = c.lookup r := by
  simp [lookup_short]

theorem lookup_short_leaf (v : β) (key : List α) :
    lookup (.short k (.leaf v)) key = if key = k then some v else none := by
  rw [lookup_short]
  cases hd : key.dropPrefix? k with
  | none => rw [if_neg (by rintro rfl; simp at hd)]; rfl
  | some =>
    obtain rfl := dropPrefix?_eq_some.mp hd
    simp [lookup_leaf]

theorem lookup_graft (p : List α) (T : Tree α β) (key : List α) :
    lookup (graft p T) key = (key.dropPrefix? p).bind T.lookup := by
  by_cases hp : p = []
  · subst hp
    simp
  · rw [graft_of_ne_nil hp, lookup_short]

theorem lookup_extend (T : Tree α β) (key : List α) :
    lookup (extend k T) key = (key.dropPrefix? k).bind T.lookup := by
  cases T with
  | short k' c =>
    rw [extend, lookup_short, dropPrefix?_append_left, Option.bind_assoc]
    congr 1
    funext r
    exact (lookup_short k' c r).symm
  | empty | leaf | full => exact lookup_short _ _ _

theorem lookup_contract (key : List α) : lookup (contract ch) key = lookup (.full ch) key := by
  by_cases h : ∃ i, ∀ j, ch j ≠ .empty ↔ j = i
  · obtain ⟨i, hi⟩ := h
    rw [contract_of_unique hi, lookup_extend]
    cases key with
    | nil => rfl
    | cons a =>
      rw [dropPrefix?_singleton, lookup_full_cons]
      by_cases ha : a = i
      · subst ha
        simp
      · have hemp : ch a = .empty := by
          by_contra hne
          exact ha ((hi a).mp hne)
        simp [ha, hemp]
  · rw [contract_of_many h]

/-! ### Insertion and deletion -/

def fork (a : α) (T : Tree α β) (b : α) (S : Tree α β) : Tree α β :=
  .full (update (update (fun _ => .empty) a T) b S)

/-- Stores `v` under `key`.  A `short` whose run leaves the key forks at the
first symbol where the two differ. -/
def insert (v : β) : Tree α β → List α → Tree α β
  | _, [] => .leaf v
  | .empty, key => .short key (.leaf v)
  | .leaf w, _ => .leaf w
  | .short k c, key =>
    let p := commonPrefix key k
    match k.drop p.length, key.drop p.length with
    | [], r => .short k (c.insert v r)
    | a :: as, b :: bs => graft p (fork a (graft as c) b (graft bs (.leaf v)))
    | _ :: _, [] => .short k c
  | .full ch, a :: key => .full (update ch a ((ch a).insert v key))

/-- Removes `key`, contracting the branching nodes on the way back up. -/
noncomputable def delete : Tree α β → List α → Tree α β
  | .empty, _ => .empty
  | .leaf _, _ => .empty
  | .short k c, key =>
    match key.dropPrefix? k with
    | none => .short k c
    | some [] => .empty
    | some (a :: r) => extend k (c.delete (a :: r))
  | .full ch, [] => .full ch
  | .full ch, a :: key => contract (update ch a ((ch a).delete key))

theorem insert_nil (T : Tree α β) : insert v T [] = .leaf v := by
  cases T <;> rfl

theorem insert_empty (hk : key ≠ []) : insert v .empty key = .short key (.leaf v) := by
  obtain ⟨a, key, rfl⟩ := List.exists_cons_of_ne_nil hk
  rfl

theorem insert_full (a : α) (key : List α) :
    insert v (.full ch) (a :: key) = .full (update ch a ((ch a).insert v key)) := rfl

theorem insert_short (hk : key ≠ []) :
    insert v (.short k c) key =
      match k.drop (commonPrefix key k).length, key.drop (commonPrefix key k).length with
      | [], r => .short k (c.insert v r)
      | a :: as, b :: bs =>
        graft (commonPrefix key k) (fork a (graft as c) b (graft bs (.leaf v)))
      | _ :: _, [] => .short k c := by
  obtain ⟨a, key, rfl⟩ := List.exists_cons_of_ne_nil hk
  rfl

theorem insert_short_append (c : Tree α β) (h : k ++ r ≠ []) :
    insert v (.short k c) (k ++ r) = .short k (c.insert v r) := by
  rw [insert_short v k c h, commonPrefix_append]
  simp

theorem insert_short_fork (p : List α) (as bs : List α) (c : Tree α β) (hab : a ≠ b) :
    insert v (.short (p ++ a :: as) c) (p ++ b :: bs)
      = graft p (fork a (graft as c) b (graft bs (.leaf v))) := by
  rw [insert_short v _ c (by simp), commonPrefix_fork p as bs hab]
  simp

theorem delete_full (a : α) (key : List α) :
    delete (.full ch) (a :: key) = contract (update ch a ((ch a).delete key)) := rfl

theorem delete_short_self : delete (.short k c) k = .empty := by
  rw [delete, dropPrefix?_self]

theorem delete_short_append (c : Tree α β) (hr : r ≠ []) :
    delete (.short k c) (k ++ r) = extend k (c.delete r) := by
  obtain ⟨a, r, rfl⟩ := List.exists_cons_of_ne_nil hr
  rw [delete, dropPrefix?_append]

theorem delete_short_of_differ {k : List α} (h : ¬ k <+: key) :
    delete (.short k c) key = .short k c := by
  rw [delete, dropPrefix?_eq_none.mpr h]

end Tree

/-! ### Insertion and deletion act on the stored map -/

theorem lookup_fork (hab : a ≠ b) (T S : Tree α β) (key : List α) :
    lookup (fork a T b S) key
      = ((key.dropPrefix? [a]).bind T.lookup).or ((key.dropPrefix? [b]).bind S.lookup) := by
  cases key with
  | nil => rfl
  | cons c =>
    rw [fork, lookup_full_cons, dropPrefix?_singleton, dropPrefix?_singleton]
    by_cases hb : c = b
    · subst hb
      simp [hab.symm]
    · by_cases ha : c = a
      · subst ha
        simp [hb]
      · simp [ha, hb]

theorem lookup_insert (v : β) (h : Fits τ T key) (key' : List α) :
    lookup (insert v T key) key' = if key' = key then some v else lookup T key' := by
  induction T generalizing key key' with
  | empty =>
    rcases eq_or_ne key [] with rfl | hk
    · rw [insert_nil, lookup_leaf, lookup_empty]
    · rw [insert_empty v hk, lookup_short_leaf, lookup_empty]
  | leaf =>
    obtain rfl := h.of_leaf
    rw [insert_nil, lookup_leaf, lookup_leaf]
    split <;> rfl
  | short k c ih =>
    rcases prefix_or_fork key k with ⟨r, rfl⟩ | ⟨p, a, as, b, bs, hab, rfl, rfl⟩ | ⟨b, bs, hk⟩
    · rw [insert_short_append v k r c h.of_short.2.ne_nil, lookup_short, lookup_short]
      cases hd : key'.dropPrefix? k with
      | none =>
        rw [if_neg (by rintro rfl; simp at hd)]
        rfl
      | some r' =>
        obtain rfl := dropPrefix?_eq_some.mp hd
        simp only [Option.bind_some, ih h.rest r', List.append_cancel_left_eq]
    · -- the new tree forks after `p`; only the branch towards `key` is new
      rw [insert_short_fork v p as bs c hab, lookup_graft, lookup_short,
        dropPrefix?_append_left]
      cases hd : key'.dropPrefix? p with
      | none =>
        rw [if_neg (by rintro rfl; simp at hd)]
        rfl
      | some s =>
        obtain rfl := dropPrefix?_eq_some.mp hd
        simp only [Option.bind_some, List.append_cancel_left_eq]
        rw [lookup_fork hab]
        cases s with
        | nil => simp [List.dropPrefix?]
        | cons x s =>
          have hlong : (x :: s).dropPrefix? (a :: as)
              = if x = a then s.dropPrefix? as else none := by
            by_cases hx : x = a <;> simp [List.dropPrefix?, hx]
          rw [dropPrefix?_singleton, dropPrefix?_singleton, hlong]
          by_cases hxb : x = b
          · subst hxb
            have hgl : lookup (graft bs (.leaf v)) s = if s = bs then some v else none := by
              rw [lookup_graft, ← lookup_short, lookup_short_leaf]
            simp [hab.symm, hgl]
          · by_cases hxa : x = a
            · subst hxa
              simp [hxb, lookup_graft]
            · simp [hxa, hxb]
    · exact absurd hk h.not_past
  | full ch ih =>
    cases key with
    | nil => exact absurd rfl h.of_full.2.ne_nil
    | cons a =>
      rw [insert_full]
      cases key' with
      | nil => simp
      | cons b =>
        rw [lookup_full_cons, lookup_full_cons]
        by_cases hb : b = a
        · subst hb
          rw [update_self, ih b h.child]
          simp
        · rw [update_of_ne hb, if_neg (by simp [hb])]

theorem lookup_delete (h : Fits τ T key) (key' : List α) :
    lookup (delete T key) key' = if key' = key then none else lookup T key' := by
  induction T generalizing key key' with
  | empty => simp [delete]
  | leaf =>
    obtain rfl := h.of_leaf
    rw [delete, lookup_empty, lookup_leaf]
    split <;> rfl
  | short k c ih =>
    by_cases hp : k <+: key
    · obtain ⟨r, rfl⟩ := hp
      rcases eq_or_ne r [] with rfl | hr
      · -- only a leaf can sit where the key ends
        obtain ⟨v, rfl⟩ : ∃ v, c = .leaf v := by
          have hT := h.of_short.1
          cases hT with
          | leaf => exact ⟨_, rfl⟩
          | ext => exact absurd rfl h.rest.of_full.2.ne_nil
        rw [List.append_nil, delete_short_self, lookup_empty, lookup_short_leaf]
        split <;> rfl
      · rw [delete_short_append k r c hr, lookup_extend, lookup_short]
        cases hd : key'.dropPrefix? k with
        | none =>
          rw [if_neg (by rintro rfl; simp at hd)]
          rfl
        | some s =>
          obtain rfl := dropPrefix?_eq_some.mp hd
          simp only [Option.bind_some, ih h.rest s, List.append_cancel_left_eq]
    · rw [delete_short_of_differ c hp]
      split
      · subst key'
        rw [lookup_short, dropPrefix?_eq_none.mpr hp]
        rfl
      · rfl
  | full ch ih =>
    cases key with
    | nil => exact absurd rfl h.of_full.2.ne_nil
    | cons a =>
      rw [delete_full, lookup_contract]
      cases key' with
      | nil => simp
      | cons b =>
        rw [lookup_full_cons, lookup_full_cons]
        by_cases hb : b = a
        · subst hb
          rw [update_self, ih b h.child]
          simp
        · rw [update_of_ne hb, if_neg (by simp [hb])]

end Patricia
