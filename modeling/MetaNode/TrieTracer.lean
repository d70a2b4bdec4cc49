/-
What the tracer knows.

`NodeOn E db n p` — the trie with the root `n` over the database has a short or
full node at the path `p`.  Every insertion and deletion reports to the tracer
the paths at which it makes and removes nodes (`Replay`), and every part of the
opened trie that is no longer unloaded has been read.
-/
import Mathlib.Data.Set.Insert
import MetaNode.TrieOrigin

namespace MetaNode

open Patricia Patricia.Tree Function

variable {E : Env} {P : KeyTree → Prop} {db : DB}

/-! ### Nodes of a partly loaded trie -/

/-- The trie with the root `n` has a short or full node at the path `p`. -/
inductive NodeOn (E : Env) (db : DB) : Node → Path → Prop
  | short {k : Path} {n : Node} {fl : NodeFlag} : NodeOn E db (.short k n fl) []
  | full {ch : Nibble → Node} {fl : NodeFlag} : NodeOn E db (.full ch fl) []
  | inShort {k p : Path} {n : Node} {fl : NodeFlag} (h : NodeOn E db n p) :
      NodeOn E db (.short k n fl) (k ++ p)
  | inFull {ch : Nibble → Node} {fl : NodeFlag} {i : Nibble} {p : Path}
      (h : NodeOn E db (ch i) p) : NodeOn E db (.full ch fl) (i :: p)
  | loaded {b blob : Bytes} {pre p : Path} {rn : Node} (hl : Loaded E db b pre blob rn)
      (h : NodeOn E db rn p) : NodeOn E db (.hash b) p

def nodePaths (E : Env) (db : DB) (n : Node) : Set Path := {p | NodeOn E db n p}

theorem nodePaths_nil : nodePaths E db .nil = ∅ := by
  ext p
  constructor
  · intro h
    cases h
  · exact False.elim

theorem nodePaths_value (v : Bytes) : nodePaths E db (.value v) = ∅ := by
  ext p
  constructor
  · intro h
    cases h
  · exact False.elim

theorem nodePaths_short (k : Path) (n : Node) (fl : NodeFlag) :
    nodePaths E db (.short k n fl) = {[]} ∪ Set.image (k ++ ·) (nodePaths E db n) := by
  ext p
  constructor
  · intro h
    cases h with
    | short => exact .inl rfl
    | inShort h => exact .inr ⟨_, h, rfl⟩
  · rintro (rfl | ⟨q, h, rfl⟩)
    · exact .short
    · exact .inShort h

variable {rn : Node} {pre : Path}

theorem nodePaths_hash {b blob : Bytes} (hl : Loaded E db b pre blob rn) :
    nodePaths E db (.hash b) = nodePaths E db rn := by
  ext p
  constructor
  · intro h
    cases h with
    | loaded hl' h =>
      obtain rfl := hl.unique hl'
      exact h
  · exact .loaded hl

/-- The nodes of a full node outside its child `a`. -/
def otherPaths (E : Env) (db : DB) (ch : Nibble → Node) (a : Nibble) : Set Path :=
  {p | p = [] ∨ ∃ i q, i ≠ a ∧ p = i :: q ∧ NodeOn E db (ch i) q}

theorem nodePaths_update (ch : Nibble → Node) (a : Nibble) (n : Node) (fl : NodeFlag) :
    nodePaths E db (.full (update ch a n) fl)
      = otherPaths E db ch a ∪ Set.image ([a] ++ ·) (nodePaths E db n) := by
  ext p
  constructor
  · intro h
    cases h with
    | full => exact .inl (.inl rfl)
    | @inFull _ _ i q h =>
      by_cases hi : i = a
      · subst hi
        rw [update_self] at h
        exact .inr ⟨q, h, rfl⟩
      · rw [update_of_ne hi] at h
        exact .inl (.inr ⟨i, q, hi, rfl, h⟩)
  · rintro ((rfl | ⟨i, q, hi, rfl, h⟩) | ⟨q, h, rfl⟩)
    · exact .full
    · refine .inFull ?_
      rwa [update_of_ne hi]
    · refine NodeOn.inFull ?_
      rwa [update_self]

theorem nodePaths_full (ch : Nibble → Node) (a : Nibble) (fl : NodeFlag) :
    nodePaths E db (.full ch fl)
      = otherPaths E db ch a ∪ Set.image ([a] ++ ·) (nodePaths E db (ch a)) := by
  rw [← nodePaths_update, update_eq_self]

variable {ch : Nibble → Node} {a : Nibble} {p : Path}

theorem not_prefix_of_mem_otherPaths (h : p ∈ otherPaths E db ch a) : ¬ [a] <+: p := by
  rcases h with rfl | ⟨i, q, hi, rfl, -⟩
  · simp
  · rw [List.cons_prefix_cons]
    exact fun h => hi h.1.symm

theorem nodePaths_graft (key : Path) (n : Node) :
    nodePaths E db (Node.graft key n)
      = {p | key ≠ [] ∧ p = []} ∪ Set.image (key ++ ·) (nodePaths E db n) := by
  rw [Node.graft]
  split
  · next hk =>
    subst hk
    simp
  · next hk =>
    rw [nodePaths_short]
    simp [hk]

variable {b : Nibble}

theorem nodePaths_fork (hab : a ≠ b) (n m : Node) :
    nodePaths E db (Node.fork a n b m)
      = {[]} ∪ Set.image ([a] ++ ·) (nodePaths E db n)
        ∪ Set.image ([b] ++ ·) (nodePaths E db m) := by
  have hother : otherPaths E db (update (fun _ => .nil) a n) b
      = {[]} ∪ Set.image ([a] ++ ·) (nodePaths E db n) := by
    ext p
    constructor
    · rintro (rfl | ⟨i, q, -, rfl, h⟩)
      · exact .inl rfl
      · by_cases hi : i = a
        · subst hi
          rw [update_self] at h
          exact .inr ⟨q, h, rfl⟩
        · rw [update_of_ne hi] at h
          cases h
    · rintro (rfl | ⟨q, h, rfl⟩)
      · exact .inl rfl
      · refine .inr ⟨a, q, hab, rfl, ?_⟩
        rwa [update_self]
  rw [Node.fork, nodePaths_update, hother]

variable {T : KeyTree} {n : Node}

theorem Loads.nodeOn_iff (hP : Holds E P db) (hn : Loads E P n T)
    (p : Path) : NodeOn E db n p ↔ ∃ S, NodeAt T p S := by
  constructor
  · intro h
    induction h generalizing T with
    | short =>
      obtain ⟨c, rfl, -⟩ := hn.eq_short
      exact ⟨_, .here (.inl ⟨_, c, rfl⟩)⟩
    | full =>
      cases hn with
      | full => exact ⟨_, .here (.inr ⟨_, rfl⟩)⟩
    | inShort _ ih =>
      obtain ⟨c, rfl, hc⟩ := hn.eq_short
      obtain ⟨S, hS⟩ := ih hc
      exact ⟨S, .short hS⟩
    | inFull _ ih =>
      cases hn with
      | full hch =>
        obtain ⟨S, hS⟩ := ih (hch _)
        exact ⟨S, .full hS⟩
    | loaded hl _ ih => exact ih (hn.loaded hP hl).1
  · rintro ⟨S, h⟩
    -- an unloaded node is loaded first
    have hload : ∀ {n : Node} {T : KeyTree} {p : Path}, Loads E P n T →
        (∀ {m : Node}, Loads E P m T → (∀ b, m ≠ .hash b) → NodeOn E db m p) → NodeOn E db n p := by
      intro n T p hn hall
      by_cases hh : ∃ b, n = .hash b
      · obtain ⟨b, rfl⟩ := hh
        obtain ⟨blob, rn, hl⟩ := hn.present hP []
        obtain ⟨hrn, hne⟩ := hn.loaded hP hl
        exact .loaded hl (hall hrn hne)
      · exact hall hn fun b hb => hh ⟨b, hb⟩
    induction h generalizing n with
    | here hT =>
      refine hload hn fun hm hne => ?_
      cases hm with
      | nil => exact absurd rfl hT.ne_empty
      | value v => exact absurd rfl (hT.ne_leaf v)
      | short => exact .short
      | full => exact .full
      | hash => exact absurd rfl (hne _)
    | short _ ih =>
      refine hload hn fun hm hne => ?_
      cases hm with
      | short hc => exact .inShort (ih hc)
      | hash => exact absurd rfl (hne _)
    | full _ ih =>
      refine hload hn fun hm hne => ?_
      cases hm with
      | full hch => exact .inFull (ih (hch _))
      | hash => exact absurd rfl (hne _)

/-! ### Reported changes -/

/-- The changes reported at `pre` lead from the relative paths `A` to `B`: only
new paths are reported as inserted and only old ones as deleted. -/
inductive Replay (pre : Path) : Set Path → List Event → Set Path → Prop
  | nil {A : Set Path} : Replay pre A [] A
  | read {A B : Set Path} {p : Path} {b : Bytes} {evs : List Event} (h : Replay pre A evs B) :
      Replay pre A (.read p b :: evs) B
  | old {A B : Set Path} {o : Option Bytes} {evs : List Event} (h : Replay pre A evs B) :
      Replay pre A (.old o :: evs) B
  | ins {A B : Set Path} {p : Path} {evs : List Event} (hp : p ∉ A)
      (h : Replay pre (insert p A) evs B) : Replay pre A (.ins (pre ++ p) :: evs) B
  | del {A B : Set Path} {p : Path} {evs : List Event} (hp : p ∈ A)
      (h : Replay pre (A \ {p}) evs B) : Replay pre A (.del (pre ++ p) :: evs) B

variable {key : Path}

namespace Replay

variable {A B C : Set Path} {evs evs' : List Event}

theorem append (h : Replay pre A evs B) (h' : Replay pre B evs' C) :
    Replay pre A (evs ++ evs') C := by
  induction h with
  | nil => exact h'
  | read _ ih => exact .read (ih h')
  | old _ ih => exact .old (ih h')
  | ins hp _ ih => exact .ins hp (ih h')
  | del hp _ ih => exact .del hp (ih h')

theorem frame {k : Path} (h : Replay (pre ++ k) A evs B) (hC : ∀ p ∈ C, ¬ k <+: p) :
    Replay pre (C ∪ Set.image (k ++ ·) A) evs (C ∪ Set.image (k ++ ·) B) := by
  have hinj : Function.Injective (k ++ · : Path → Path) := List.append_right_injective k
  induction h with
  | nil => exact .nil
  | read _ ih => exact .read ih
  | old _ ih => exact .old ih
  | @ins A B p evs hp _ ih =>
    have hout : k ++ p ∉ C ∪ Set.image (k ++ ·) A := by
      rintro (h | ⟨q, hq, he⟩)
      · exact hC _ h (List.prefix_append k p)
      · rw [hinj he] at hq
        exact hp hq
    rw [Set.image_insert_eq, Set.union_insert] at ih
    rw [List.append_assoc]
    exact .ins hout ih
  | @del A B p evs hp _ ih =>
    have hin : k ++ p ∈ C ∪ Set.image (k ++ ·) A := .inr ⟨p, hp, rfl⟩
    have hset : (C ∪ Set.image (k ++ ·) A) \ {k ++ p} = C ∪ Set.image (k ++ ·) (A \ {p}) := by
      have hCp : C \ {k ++ p} = C := by
        rw [Set.sdiff_singleton_eq_self]
        exact fun h => hC _ h (List.prefix_append k p)
      rw [Set.union_sdiff_distrib, hCp, Set.image_sdiff hinj, Set.image_singleton]
    rw [← hset] at ih
    rw [List.append_assoc]
    exact .del hin ih

theorem of_reads (h : ∀ e ∈ evs, ∃ p b, e = .read p b) : Replay pre A evs A := by
  induction evs with
  | nil => exact .nil
  | cons e evs ih =>
    obtain ⟨p, b, rfl⟩ := h e List.mem_cons_self
    exact .read (ih fun e' he' => h e' (List.mem_cons_of_mem _ he'))

theorem graft (hp : key ≠ [] → p ∉ A) :
    Replay pre A (graftEvents (pre ++ p) key) (A ∪ {q | key ≠ [] ∧ q = p}) := by
  rw [graftEvents]
  by_cases hk : key = []
  · simpa [hk] using Replay.nil
  · have hset : A ∪ {q | key ≠ [] ∧ q = p} = insert p A := by
      ext q
      simp [hk]
    rw [if_neg hk, hset]
    exact .ins (hp hk) .nil

end Replay

/-! ### Insertions and deletions report their changes -/

theorem Loads.nodePaths_of_end (hP : Holds E P db) (hn : Loads E P n T)
    (hfit : Fits 16 T []) : nodePaths E db n = ∅ := by
  cases hfit with
  | ahead _ hk => exact absurd rfl hk.ne_nil
  | noLeaf => rw [hn.of_empty hP, nodePaths_nil]
  | onLeaf => rw [hn.of_leaf hP, nodePaths_value]

theorem nodePaths_forked {p as bs : Path} (hab : a ≠ b) (n : Node) (v : Bytes) :
    nodePaths E db (Node.graft p (Node.fork a (Node.graft as n) b (Node.graft bs (.value v))))
      = {[]} ∪ Set.image ((p ++ a :: as) ++ ·) (nodePaths E db n) ∪ {q | as ≠ [] ∧ q = p ++ [a]}
        ∪ {q | bs ≠ [] ∧ q = p ++ [b]} ∪ {q | p ≠ [] ∧ q = p} := by
  rw [nodePaths_graft, nodePaths_fork hab, nodePaths_graft, nodePaths_graft, nodePaths_value]
  ext q
  constructor
  · rintro (⟨-, rfl⟩ | ⟨_, (rfl | ⟨_, ⟨has, rfl⟩ | ⟨x, hx, rfl⟩, rfl⟩) |
      ⟨_, ⟨hbs, rfl⟩ | ⟨x, hx, -⟩, rfl⟩, rfl⟩)
    · exact .inl (.inl (.inl (.inl rfl)))
    · by_cases hp : p = []
      · exact .inl (.inl (.inl (.inl (by simp [hp]))))
      · exact .inr ⟨hp, List.append_nil p⟩
    · exact .inl (.inl (.inr ⟨has, rfl⟩))
    · exact .inl (.inl (.inl (.inr ⟨x, hx, by simp⟩)))
    · exact .inl (.inr ⟨hbs, rfl⟩)
    · exact hx.elim
  · rintro ((((rfl | ⟨x, hx, rfl⟩) | ⟨has, rfl⟩) | ⟨hbs, rfl⟩) | ⟨hp, rfl⟩)
    · by_cases hp : p = []
      · exact .inr ⟨[], .inl (.inl rfl), by simp [hp]⟩
      · exact .inl ⟨hp, rfl⟩
    · exact .inr ⟨a :: (as ++ x), .inl (.inr ⟨as ++ x, .inr ⟨x, hx, rfl⟩, rfl⟩), by simp⟩
    · exact .inr ⟨[a], .inl (.inr ⟨[], .inl ⟨has, rfl⟩, rfl⟩), rfl⟩
    · exact .inr ⟨[b], .inr ⟨[], .inl ⟨hbs, rfl⟩, rfl⟩, rfl⟩
    · exact .inr ⟨[], .inl (.inl rfl), by simp⟩

theorem Replay.fork {p as bs pre : Path} (hab : a ≠ b) (n : Node) (fl : NodeFlag) (v : Bytes) :
    Replay pre (nodePaths E db (.short (p ++ a :: as) n fl))
      (graftEvents (pre ++ p ++ [a]) as ++ graftEvents (pre ++ p ++ [b]) bs
        ++ (if p = [] then [] else [.ins (pre ++ p)]) ++ [.old fl.hash])
      (nodePaths E db
        (Node.graft p (Node.fork a (Node.graft as n) b (Node.graft bs (.value v))))) := by
  set A := nodePaths E db (.short (p ++ a :: as) n fl) with hA
  rw [nodePaths_short] at hA
  have h₁ : Replay pre A (graftEvents (pre ++ (p ++ [a])) as)
      (A ∪ {q | as ≠ [] ∧ q = p ++ [a]}) := by
    refine Replay.graft fun has h => ?_
    rw [hA] at h
    rcases h with h | ⟨q, -, h⟩
    · simp at h
    · simp [has] at h
  have h₂ : Replay pre (A ∪ {q | as ≠ [] ∧ q = p ++ [a]}) (graftEvents (pre ++ (p ++ [b])) bs)
      (A ∪ {q | as ≠ [] ∧ q = p ++ [a]} ∪ {q | bs ≠ [] ∧ q = p ++ [b]}) := by
    refine Replay.graft fun _ h => ?_
    rw [hA] at h
    rcases h with (h | ⟨q, -, h⟩) | ⟨-, h⟩
    · simp at h
    · simp [hab] at h
    · simp [hab.symm] at h
  have h₃ : Replay pre (A ∪ {q | as ≠ [] ∧ q = p ++ [a]} ∪ {q | bs ≠ [] ∧ q = p ++ [b]})
      (graftEvents (pre ++ p) p) (A ∪ {q | as ≠ [] ∧ q = p ++ [a]} ∪ {q | bs ≠ [] ∧ q = p ++ [b]}
        ∪ {q | p ≠ [] ∧ q = p}) := by
    refine Replay.graft fun hp h => ?_
    rw [hA] at h
    rcases h with ((h | ⟨q, -, h⟩) | ⟨-, h⟩) | ⟨-, h⟩
    · exact hp h
    · simp at h
    · simp at h
    · simp at h
  rw [nodePaths_forked hab, ← hA, List.append_assoc pre, List.append_assoc pre]
  exact ((h₁.append h₂).append h₃).append (.old .nil)

variable {n' : Node} {dirty : Bool}

/-- The events report how the paths of a node become those of another; if it is not dirty,
they are the same. -/
structure Reports (E : Env) (db : DB) (pre : Path) (n : Node) (evs : List Event) (dirty : Bool)
    (n' : Node) : Prop where
  replay : Replay pre (nodePaths E db n) evs (nodePaths E db n')
  same : dirty = false → nodePaths E db n' = nodePaths E db n

namespace Reports

variable {pre : Path} {evs : List Event}

theorem kept (h : Reports E db pre n evs false n') : Reports E db pre n evs false n := by
  refine ⟨?_, fun _ => rfl⟩
  have hrep := h.replay
  rwa [h.same rfl] at hrep

theorem old (h : Reports E db pre n evs dirty n') (o : Option Bytes) :
    Reports E db pre n (evs ++ [.old o]) dirty n' :=
  ⟨h.replay.append (.old .nil), h.same⟩

theorem short {k : Path} (h : Reports E db (pre ++ k) n evs dirty n') (hk : k ≠ [])
    (fl fl' : NodeFlag) : Reports E db pre (.short k n fl) evs dirty (.short k n' fl') := by
  refine ⟨?_, fun hd => by rw [nodePaths_short, nodePaths_short, h.same hd]⟩
  -- the report is about the paths below the run, and the node itself is not one
  rw [nodePaths_short, nodePaths_short]
  exact h.replay.frame (by simpa using hk)

theorem full (h : Reports E db (pre ++ [a]) (ch a) evs dirty n') (fl fl' : NodeFlag) :
    Reports E db pre (.full ch fl) evs dirty (.full (update ch a n') fl') := by
  refine ⟨?_, fun hd => by rw [nodePaths_full ch a, nodePaths_update, h.same hd]⟩
  rw [nodePaths_full ch a, nodePaths_update]
  exact h.replay.frame fun p hp => not_prefix_of_mem_otherPaths hp

theorem hash {b blob : Bytes} (h : Reports E db pre rn evs dirty n')
    (hl : Loaded E db b pre blob rn) :
    Reports E db pre (.hash b) (.read pre blob :: evs) dirty n' := by
  refine ⟨?_, fun hd => by rw [nodePaths_hash hl, h.same hd]⟩
  rw [nodePaths_hash hl]
  exact .read h.replay

end Reports

variable {evs : List Event}

/-- **An insertion reports the paths of its new nodes.** -/
theorem InsertRun.reports (hP : Holds E P db) {v : Bytes}
    (hrun : InsertRun E db v n pre key dirty n' evs)
    (hn : Loads E P n T) (hfit : Fits 16 T key) : Reports E db pre n evs dirty n' := by
  induction hrun generalizing T with
  | same => exact ⟨.nil, fun _ => rfl⟩
  | replace =>
    refine ⟨?_, nofun⟩
    rw [hn.nodePaths_of_end hP hfit, nodePaths_value]
    exact .nil
  | shortSame _ _ ih =>
    obtain ⟨c, rfl, hc⟩ := hn.eq_short
    exact (ih hc hfit.rest).kept.short hfit.of_short.1.key_ne_nil _ _
  | shortNew _ _ ih =>
    obtain ⟨c, rfl, hc⟩ := hn.eq_short
    exact ((ih hc hfit.rest).short hfit.of_short.1.key_ne_nil _ _).old _
  | fork hab => exact ⟨Replay.fork hab _ _ _, nofun⟩
  | fullSame _ ih =>
    cases hn with
    | full hch => simpa using (ih (hch _) hfit.child).kept.full _ _
  | fullNew _ ih =>
    cases hn with
    | full hch => exact ((ih (hch _) hfit.child).full _ _).old _
  | @nil key pre _ =>
    have hset : nodePaths E db (.short key (.value v) newFlag) = insert [] ∅ := by
      rw [nodePaths_short, nodePaths_value]
      simp
    have hone : Replay pre ∅ [.ins (pre ++ [])] (insert [] ∅) := .ins (by simp) .nil
    rw [List.append_nil] at hone
    refine ⟨?_, nofun⟩
    rwa [nodePaths_nil, hset]
  | @missing h key pre e _ he =>
    obtain ⟨blob, rn, hl⟩ := hn.present hP pre
    exact absurd (he.symm.trans hl.1) (by simp)
  | hashSame _ hl _ ih => exact (ih (hn.loaded hP hl).1 hfit).kept.hash hl
  | hashNew _ hl _ ih => exact (ih (hn.loaded hP hl).1 hfit).hash hl

theorem ResolveRun.nodePaths_eq (hrun : ResolveRun E db n pre rn evs) :
    nodePaths E db n = nodePaths E db rn ∧ ∀ e ∈ evs, ∃ p b, e = .read p b := by
  cases hrun with
  | here => exact ⟨rfl, by simp⟩
  | hash hl => exact ⟨nodePaths_hash hl, by simp⟩

variable {i : Nibble}

theorem otherPaths_of_onlyChild (E : Env) (db : DB) (hi : OnlyChild (update ch a .nil) i) :
    otherPaths E db ch a = {[]} ∪ Set.image ([i] ++ ·) (nodePaths E db (ch i)) := by
  have hia := hi.ne_gone
  ext p
  constructor
  · rintro (rfl | ⟨j, q, hj, rfl, h⟩)
    · exact .inl rfl
    · have hne : update ch a .nil j ≠ .nil := by
        rw [update_of_ne hj]
        intro hnil
        rw [hnil] at h
        cases h
      obtain rfl := (hi j).mp hne
      exact .inr ⟨q, h, rfl⟩
  · rintro (rfl | ⟨q, h, rfl⟩)
    · exact .inl rfl
    · exact .inr ⟨i, q, hia, rfl, h⟩

theorem Replay.reduce (fl : NodeFlag)
    (h : Replay (pre ++ [a]) (nodePaths E db (ch a)) evs (nodePaths E db .nil))
    (hi : OnlyChild (update ch a .nil) i) :
    Replay pre (nodePaths E db (.full ch fl)) evs
      ({[]} ∪ Set.image ([i] ++ ·) (nodePaths E db (ch i))) := by
  have hframe := h.frame fun p (hp : p ∈ otherPaths E db ch a) => not_prefix_of_mem_otherPaths hp
  rwa [← nodePaths_full, nodePaths_nil, Set.image_empty, Set.union_empty,
    otherPaths_of_onlyChild E db hi] at hframe

theorem Replay.merge {pre k ck : Path} (hk : k ≠ []) (hck : ck ≠ []) (c : Node)
    (fl fl' : NodeFlag) :
    Replay pre ({[]} ∪ Set.image (k ++ ·) (nodePaths E db (.short ck c fl))) [.del (pre ++ k)]
      (nodePaths E db (.short (k ++ ck) c fl')) := by
  have hin : k ∈ {[]} ∪ Set.image (k ++ ·) (nodePaths E db (.short ck c fl)) :=
    .inr ⟨[], .short, List.append_nil k⟩
  have hset : ({[]} ∪ Set.image (k ++ ·) (nodePaths E db (.short ck c fl))) \ {k}
      = nodePaths E db (.short (k ++ ck) c fl') := by
    rw [nodePaths_short, nodePaths_short]
    ext q
    constructor
    · rintro ⟨rfl | ⟨_, rfl | ⟨x, hx, rfl⟩, rfl⟩, hne⟩
      · exact .inl rfl
      · exact absurd (List.append_nil k) hne
      · exact .inr ⟨x, hx, by simp⟩
    · rintro (rfl | ⟨x, hx, rfl⟩)
      · exact ⟨.inl rfl, fun h => hk h.symm⟩
      · refine ⟨.inr ⟨ck ++ x, .inr ⟨x, hx, rfl⟩, by simp⟩, ?_⟩
        simp [hck]
  rw [← hset]
  exact .del hin .nil

/-- **A deletion reports the paths of the nodes it removes.** -/
theorem DeleteRun.reports (hP : Holds E P db)
    (hrun : DeleteRun E db n pre key dirty n' evs) (hn : Loads E P n T)
    (hfit : Fits 16 T key) : Reports E db pre n evs dirty n' := by
  induction hrun generalizing T with
  | differ | nil => exact ⟨.nil, fun _ => rfl⟩
  | @whole k pre n fl =>
    obtain ⟨c, rfl, hc⟩ := hn.eq_short
    have hend : Fits 16 (.short k c) (k ++ []) := by rwa [List.append_nil]
    have hset : nodePaths E db (.short k n fl) \ {[]} = nodePaths E db .nil := by
      rw [nodePaths_short, hc.nodePaths_of_end hP hend.rest, nodePaths_nil]
      simp
    have hone : Replay pre (nodePaths E db (.short k n fl)) [.del (pre ++ [])] _ :=
      .del .short .nil
    rw [hset, List.append_nil] at hone
    exact ⟨hone, nofun⟩
  | shortSame _ _ ih =>
    obtain ⟨c, rfl, hc⟩ := hn.eq_short
    exact (ih hc hfit.rest).kept.short hfit.of_short.1.key_ne_nil _ _
  | @shortMerge k rest pre ck n c fl cfl evs hne hrun ih =>
    obtain ⟨d, rfl, hd⟩ := hn.eq_short
    have hkne := hfit.of_short.1.key_ne_nil
    -- the merged child is again in minimal form
    obtain ⟨d', hd', -⟩ := (hrun.loads hP hd hfit.rest).1.eq_short
    have hcan := Canonical.delete hfit.rest hne
    rw [hd'] at hcan
    have hrep := ((ih hd hfit.rest).short hkne fl fl).replay
    rw [nodePaths_short k (.short ck c cfl)] at hrep
    exact ⟨hrep.append (Replay.merge hkne hcan.key_ne_nil _ _ _), nofun⟩
  | shortNew _ _ _ ih =>
    obtain ⟨c, rfl, hc⟩ := hn.eq_short
    exact (ih hc hfit.rest).short hfit.of_short.1.key_ne_nil _ _
  | fullSame _ ih =>
    cases hn with
    | full hch => simpa using (ih (hch _) hfit.child).kept.full _ _
  | fullNew _ _ ih | fullMany _ _ ih =>
    cases hn with
    | full hch => exact (ih (hch _) hfit.child).full _ _
  | @reduceMerge ch fl cfl a i rest pre ck c evs evs' _ hi h16 hr ih =>
    cases hn with
    | @full _ _ Tc hch _ =>
      have hrep := (ih (hch a) hfit.child).replay.reduce fl hi
      obtain ⟨hpaths, hreads⟩ := hr.nodePaths_eq
      obtain ⟨d, hd, -⟩ := (hr.loads hP (hch i)).1.eq_short
      have hcan := hfit.of_full.1.child h16
      rw [hd] at hcan
      rw [hpaths] at hrep
      exact ⟨(hrep.append (.of_reads hreads)).append
        (Replay.merge (List.cons_ne_nil i []) hcan.key_ne_nil _ _ _), nofun⟩
  | @reduce ch fl a i rest pre c evs evs' _ hi h16 hr _ ih =>
    cases hn with
    | full hch =>
      refine ⟨?_, nofun⟩
      rw [nodePaths_short]
      exact ((ih (hch a) hfit.child).replay.reduce _ hi).append (.of_reads hr.nodePaths_eq.2)
  | @reduceValue ch fl a rest pre evs _ hi ih =>
    cases hn with
    | full hch =>
      refine ⟨?_, nofun⟩
      rw [nodePaths_short]
      exact (ih (hch a) hfit.child).replay.reduce _ hi
  | value =>
    refine ⟨?_, nofun⟩
    rw [nodePaths_value, nodePaths_nil]
    exact .nil
  | hashSame hl _ ih => exact (ih (hn.loaded hP hl).1 hfit).kept.hash hl
  | hashNew hl _ ih => exact (ih (hn.loaded hP hl).1 hfit).hash hl

/-! ### What has not been loaded -/

def ReadAt (evs : List Event) (p : Path) : Prop := ∃ b, .read p b ∈ evs

theorem ReadAt.mono (h : ReadAt evs p) (hsub : evs ⊆ evs') : ReadAt evs' p := by
  obtain ⟨b, hb⟩ := h
  exact ⟨b, hsub hb⟩

/-- The path leads to or through an unloaded node. -/
def Node.Hides : Node → Path → Prop
  | .short k n _, p => ∃ r, p = k ++ r ∧ n.Hides r
  | .full ch _, p => ∃ i r, p = i :: r ∧ (ch i).Hides r
  | .hash _, _ => True
  | _, _ => False

theorem NodeAt.rest {T S R : KeyTree} {p q : Path} (hT : Canonical 16 T) (h : NodeAt T p S)
    (h' : NodeAt T (p ++ q) R) : NodeAt S q R := by
  induction h with
  | here => exact h'
  | @short k p c S h ih =>
    rcases nodeAt_short.mp h' with ⟨hnil, -⟩ | ⟨q', hq', h'⟩
    · rw [List.append_assoc] at hnil
      exact absurd (List.append_eq_nil_iff.mp hnil).1 hT.key_ne_nil
    · rw [List.append_assoc] at hq'
      obtain rfl := List.append_cancel_left hq'
      cases hT with
      | leaf => exact absurd h not_nodeAt_leaf
      | ext _ _ hc => exact ih hc h'
  | @full ch i p S h ih =>
    rcases nodeAt_full.mp h' with ⟨hnil, -⟩ | ⟨j, q', hq', h'⟩
    · simp at hnil
    · obtain ⟨rfl, rfl⟩ := List.cons.inj hq'
      exact ih (h.child_canonical hT) h'

theorem hides_loadedNode {S R : KeyTree} (hS : OnDisk E db S) (hp : p ≠ [])
    (h : NodeAt S p R) : (loadedNode E S).Hides p := by
  have hcan := hS.canonical
  cases hcan with
  | empty => exact absurd h not_nodeAt_empty
  | leaf =>
    rcases nodeAt_short.mp h with ⟨hnil, -⟩ | ⟨q, -, h⟩
    · exact absurd hnil hp
    · exact absurd h not_nodeAt_leaf
  | ext =>
    rcases nodeAt_short.mp h with ⟨hnil, -⟩ | ⟨q, rfl, h⟩
    · exact absurd hnil hp
    · exact ⟨q, rfl, trivial⟩
  | @full ch _ _ _ _ _ _ _ =>
    rcases nodeAt_full.mp h with ⟨hnil, -⟩ | ⟨i, q, rfl, hbelow⟩
    · exact absurd hnil hp
    · refine ⟨i, q, rfl, ?_⟩
      have hne : ch i ≠ .empty := by
        intro he
        rw [he] at hbelow
        exact not_nodeAt_empty hbelow
      show (if (ch i).isEmpty then Node.nil else .hash (ref E (ch i))).Hides q
      rw [if_neg (mt Tree.isEmpty_iff.mp hne)]
      trivial

theorem Node.hides_graft {r : Path} : (Node.graft key n).Hides (key ++ r) ↔ n.Hides r := by
  rw [Node.graft]
  split
  · next hk =>
    subst hk
    rfl
  · constructor
    · rintro ⟨r', he, h⟩
      rwa [List.append_cancel_left he]
    · exact fun h => ⟨r, rfl, h⟩

/-- What is hidden in the one node at a path of the tree is hidden in the other, or read. -/
def StaysHidden (T₀ : KeyTree) (pre : Path) (n : Node) (evs : List Event) (n' : Node) : Prop :=
  ∀ ⦃p S⦄, n.Hides p → NodeAt T₀ (pre ++ p) S → ReadAt evs (pre ++ p) ∨ n'.Hides p

section StaysHidden

variable {T₀ : KeyTree} {pre : Path} {n : Node} {evs' : List Event}

theorem StaysHidden.mono (h : StaysHidden T₀ pre n evs n') (hsub : evs ⊆ evs') :
    StaysHidden T₀ pre n evs' n' :=
  fun _ _ hp hat => (h hp hat).imp_left (·.mono hsub)

theorem StaysHidden.short {k : Path} (h : StaysHidden T₀ (pre ++ k) n evs n') (fl fl' : NodeFlag) :
    StaysHidden T₀ pre (.short k n fl) evs (.short k n' fl') := by
  rintro _ S ⟨r, rfl, hr⟩ hat
  rw [← List.append_assoc] at hat ⊢
  exact (h hr hat).imp_right (⟨r, rfl, ·⟩)

theorem StaysHidden.full (h : StaysHidden T₀ (pre ++ [a]) (ch a) evs n) (fl : NodeFlag) :
    StaysHidden T₀ pre (.full ch fl) evs (.full (update ch a n) newFlag) := by
  rintro _ S ⟨i, r, rfl, hr⟩ hat
  by_cases hi : i = a
  · subst hi
    rw [← List.singleton_append, ← List.append_assoc] at hat ⊢
    refine (h hr hat).imp_right fun hr' => ⟨i, r, rfl, ?_⟩
    rwa [update_self]
  · refine .inr ⟨i, r, rfl, ?_⟩
    rwa [update_of_ne hi]

theorem hides_onlyChild (hi : OnlyChild (update ch a .nil) i)
    (h : (Node.full (update ch a .nil) newFlag).Hides p) : ∃ r, p = i :: r ∧ (ch i).Hides r := by
  obtain ⟨j, r, rfl, hr⟩ := h
  have hne : update ch a .nil j ≠ .nil := by
    intro hnil
    rw [hnil] at hr
    exact hr
  obtain rfl := (hi j).mp hne
  have hja : j ≠ a := by
    rintro rfl
    exact hne (update_self ..)
  rw [update_of_ne hja] at hr
  exact ⟨r, rfl, hr⟩

theorem StaysHidden.reduce (h : StaysHidden T₀ (pre ++ [a]) (ch a) evs .nil) (fl : NodeFlag)
    (hi : OnlyChild (update ch a .nil) i) :
    StaysHidden T₀ pre (.full ch fl) evs (.short [i] (ch i) newFlag) :=
  fun _ _ hp hat => (h.full fl hp hat).imp_right fun hleft => hides_onlyChild hi hleft

end StaysHidden

section Hides

variable {T₀ : KeyTree} (hT₀ : OnDisk E db T₀)

include hT₀

variable {pre : Path} {S : KeyTree}

theorem hides_of_loaded {b blob : Bytes} (evs : List Event) (hb : Stem E T₀ pre b)
    (hl : Loaded E db b pre blob rn) (hat : NodeAt T₀ (pre ++ p) S) :
    ReadAt (.read pre blob :: evs) (pre ++ p) ∨ rn.Hides p := by
  by_cases hp : p = []
  · rw [hp, List.append_nil]
    exact .inl ⟨blob, List.mem_cons_self⟩
  · obtain ⟨U, hU, rfl⟩ := hb
    rw [hl.eq_loadedNode (hT₀.sub hU)]
    exact .inr (hides_loadedNode (hT₀.sub hU) hp (hU.rest hT₀.canonical hat))

variable {n : Node}

theorem Node.Hides.nodeOn (hh : n.Hashes (Stem E T₀) pre) (h : n.Hides p)
    (hat : NodeAt T₀ (pre ++ p) S) : NodeOn E db n p := by
  induction n generalizing pre p with
  | nil | value => exact h.elim
  | hash =>
    obtain ⟨U, hU, rfl⟩ := hh
    exact (Loads.nodeOn_iff (holds_onDisk E db) (.hash (hT₀.sub hU)) p).mpr
      ⟨S, hU.rest hT₀.canonical hat⟩
  | short k n fl ih =>
    obtain ⟨r, rfl, hr⟩ := h
    rw [← List.append_assoc] at hat
    exact .inShort (ih hh.2 hr hat)
  | full ch fl ih =>
    obtain ⟨i, r, rfl, hr⟩ := h
    rw [← List.singleton_append, ← List.append_assoc] at hat
    exact .inFull (ih i (hh.2 i) hr hat)

variable {evs : List Event}

theorem StaysHidden.load {b blob : Bytes} (h : StaysHidden T₀ pre rn evs n)
    (hb : Stem E T₀ pre b) (hl : Loaded E db b pre blob rn) :
    StaysHidden T₀ pre (.hash b) (.read pre blob :: evs) n := by
  intro p S _ hat
  rcases hides_of_loaded hT₀ evs hb hl hat with hread | hrn
  · exact .inl hread
  · exact (h hrn hat).imp_left (·.mono (List.subset_cons_self ..))

/-- **After an insertion** what was hidden is hidden still, or was read. -/
theorem InsertRun.staysHidden {v : Bytes} (hrun : InsertRun E db v n pre key dirty n' evs)
    (hn : Loads E (OnDisk E db) n T) (hfit : Fits 16 T key)
    (hh : n.Hashes (Stem E T₀) pre) : StaysHidden T₀ pre n evs n' := by
  have hP := holds_onDisk E db
  induction hrun generalizing T with
  | same | nil => exact fun p S h => h.elim
  | replace =>
    intro p S h hat
    have hmem : p ∈ nodePaths E db _ := h.nodeOn hT₀ hh hat
    rw [hn.nodePaths_of_end hP hfit] at hmem
    exact hmem.elim
  | shortSame | fullSame => exact fun p S h _ => .inr h
  | shortNew _ _ ih =>
    obtain ⟨c, rfl, hc⟩ := hn.eq_short
    exact ((ih hc hfit.rest hh.2).short _ _).mono (List.subset_append_left ..)
  | @fork q as bs pre a b n fl hab =>
    rintro _ S ⟨r, rfl, hr⟩ -
    right
    rw [List.append_assoc]
    refine Node.hides_graft.mpr ⟨a, as ++ r, rfl, ?_⟩
    rw [update_of_ne hab, update_self]
    exact Node.hides_graft.mpr hr
  | fullNew _ ih =>
    cases hn with
    | full hch =>
      exact ((ih (hch _) hfit.child (hh.2 _)).full _).mono (List.subset_append_left ..)
  | @missing _ _ pre _ _ he =>
    obtain ⟨blob, rn, hl⟩ := hn.present hP pre
    exact absurd (he.symm.trans hl.1) (by simp)
  | hashSame _ hl => exact fun p S _ => hides_of_loaded hT₀ _ hh hl
  | hashNew _ hl _ ih =>
    exact (ih (hn.loaded hP hl).1 hfit (loading_stem hT₀ hh hl)).load hT₀ hh hl

theorem ResolveRun.hides (hrun : ResolveRun E db n pre rn evs) (hh : n.Hashes (Stem E T₀) pre) :
    StaysHidden T₀ pre n evs rn := by
  cases hrun with
  | here => exact fun p S h _ => .inr h
  | hash hl => exact fun p S _ => hides_of_loaded hT₀ [] hh hl

/-- **After a deletion** what was hidden is hidden still, or was read. -/
theorem DeleteRun.staysHidden (hrun : DeleteRun E db n pre key dirty n' evs)
    (hn : Loads E (OnDisk E db) n T) (hfit : Fits 16 T key) (hh : n.Hashes (Stem E T₀) pre) :
    StaysHidden T₀ pre n evs n' := by
  have hP := holds_onDisk E db
  induction hrun generalizing T with
  | differ | shortSame | fullSame => exact fun p S h _ => .inr h
  | @whole k pre n fl =>
    -- below the removed node there was a value only
    obtain ⟨c, rfl, hc⟩ := hn.eq_short
    rintro _ S ⟨r, rfl, hr⟩ hat
    have hend : Fits 16 (.short k c) (k ++ []) := by rwa [List.append_nil]
    rw [← List.append_assoc] at hat
    have hmem : r ∈ nodePaths E db n := hr.nodeOn hT₀ hh.2 hat
    rw [hc.nodePaths_of_end hP hend.rest] at hmem
    exact hmem.elim
  | @shortMerge k rest pre ck n c fl cfl evs _ _ ih =>
    obtain ⟨d, rfl, hd⟩ := hn.eq_short
    intro p S h hat
    refine ((ih hd hfit.rest hh.2).short fl fl h hat).imp (·.mono (List.subset_append_left ..)) ?_
    rintro ⟨_, rfl, r, rfl, hr⟩
    exact ⟨r, by simp, hr⟩
  | shortNew _ _ _ ih =>
    obtain ⟨c, rfl, hc⟩ := hn.eq_short
    exact (ih hc hfit.rest hh.2).short _ _
  | fullNew _ _ ih | fullMany _ _ ih =>
    cases hn with
    | full hch => exact (ih (hch _) hfit.child (hh.2 _)).full _
  | @reduceMerge ch fl cfl a i rest pre ck c evs evs' _ hi _ hr ih =>
    cases hn with
    | full hch =>
      intro p S h hat
      rcases (ih (hch a) hfit.child (hh.2 a)).reduce fl hi h hat with ⟨b, hb⟩ | hleft
      · exact .inl ⟨b, by simp [hb]⟩
      · rcases (hr.hides hT₀ (hh.2 i)).short newFlag newFlag hleft hat with
          ⟨b, hb⟩ | ⟨_, rfl, r, rfl, hc⟩
        · exact .inl ⟨b, List.mem_append_left _ (List.mem_append_right _ hb)⟩
        · exact .inr ⟨r, by simp, hc⟩
  | reduce _ hi _ _ _ ih =>
    cases hn with
    | full hch =>
      exact ((ih (hch _) hfit.child (hh.2 _)).reduce _ hi).mono (List.subset_append_left ..)
  | reduceValue _ hi ih =>
    cases hn with
    | full hch => exact (ih (hch _) hfit.child (hh.2 _)).reduce _ hi
  | value | nil => exact fun p S h => h.elim
  | hashSame hl => exact fun p S _ => hides_of_loaded hT₀ _ hh hl
  | hashNew hl _ ih =>
    exact (ih (hn.loaded hP hl).1 hfit (loading_stem hT₀ hh hl)).load hT₀ hh hl

end Hides

/-! ### The tracer -/

/-- The tracer has recorded the way from the paths `A₀` to the paths `A`. -/
structure Records (tr : Tracer) (A₀ A : Set Path) : Prop where
  inserts : ∀ p, p ∈ tr.inserts ↔ p ∈ A ∧ p ∉ A₀
  deletes : ∀ p, p ∈ tr.deletes ↔ p ∈ A₀ ∧ p ∉ A

variable {tr : Tracer} {A₀ : Set Path}

theorem Records.onInsert {A : Set Path} (h : Records tr A₀ A) (hp : p ∉ A) :
    Records (tr.onInsert p) A₀ (insert p A) := by
  rw [Tracer.onInsert]
  split
  · -- the path was there at first: the deletion is taken back
    next hdel =>
    have hp₀ := ((h.deletes p).mp hdel).1
    refine ⟨fun q => ?_, fun q => ?_⟩
    · rw [h.inserts q, Set.mem_insert_iff]
      constructor
      · exact fun hq => ⟨.inr hq.1, hq.2⟩
      · rintro ⟨rfl | hq, hq₀⟩
        · exact absurd hp₀ hq₀
        · exact ⟨hq, hq₀⟩
    · rw [AList.mem_erase, h.deletes q, Set.mem_insert_iff]
      tauto
  · next hdel =>
    rw [h.deletes p] at hdel
    refine ⟨fun q => ?_, fun q => ?_⟩
    · rw [AList.mem_insert, h.inserts q, Set.mem_insert_iff]
      constructor
      · rintro (rfl | hq)
        · exact ⟨.inl rfl, fun hq₀ => hdel ⟨hq₀, hp⟩⟩
        · exact ⟨.inr hq.1, hq.2⟩
      · rintro ⟨rfl | hq, hq₀⟩
        · exact .inl rfl
        · exact .inr ⟨hq, hq₀⟩
    · rw [h.deletes q, Set.mem_insert_iff]
      constructor
      · rintro ⟨hq₀, hq⟩
        refine ⟨hq₀, ?_⟩
        rintro (rfl | hq')
        · exact hdel ⟨hq₀, hp⟩
        · exact hq hq'
      · exact fun hq => ⟨hq.1, fun hq' => hq.2 (.inr hq')⟩

def Tracer.swap (t : Tracer) : Tracer := { t with inserts := t.deletes, deletes := t.inserts }

theorem Records.swap {A : Set Path} (h : Records tr A₀ A) : Records tr.swap A₀ᶜ Aᶜ := by
  refine ⟨fun p => ?_, fun p => ?_⟩
  · rw [Set.mem_compl_iff, Set.notMem_compl_iff, and_comm]
    exact h.deletes p
  · rw [Set.mem_compl_iff, Set.notMem_compl_iff, and_comm]
    exact h.inserts p

/-- A deletion is an insertion into the paths that are not there. -/
theorem Records.onDelete {A : Set Path} (h : Records tr A₀ A) (hp : p ∈ A) :
    Records (tr.onDelete p) A₀ (A \ {p}) := by
  have hswap : tr.onDelete p = (tr.swap.onInsert p).swap := by
    by_cases hmem : p ∈ tr.inserts <;>
      simp [Tracer.onDelete, Tracer.onInsert, Tracer.swap, hmem]
  have hset : (insert p Aᶜ)ᶜ = A \ {p} := by
    ext q
    simp [and_comm]
  have hins := (h.swap.onInsert (Set.notMem_compl_iff.mpr hp)).swap
  rwa [compl_compl, hset, ← hswap] at hins

theorem Records.replay {A B : Set Path} (h : Records tr A₀ A)
    (hrep : Replay [] A evs B) : Records (tr.recordAll evs) A₀ B := by
  induction hrep generalizing tr with
  | nil => exact h
  | read _ ih | old _ ih => exact ih ⟨h.inserts, h.deletes⟩
  | ins hp _ ih => exact ih (h.onInsert hp)
  | del hp _ ih => exact ih (h.onDelete hp)

theorem Tracer.mem_accessList_recordAll :
    p ∈ (tr.recordAll evs).accessList ↔ p ∈ tr.accessList ∨ ∃ b, .read p b ∈ evs := by
  induction evs generalizing tr with
  | nil => simp
  | cons e evs ih =>
    rw [Tracer.recordAll_cons, ih]
    cases e with
    | read q b =>
      rw [Tracer.record, Tracer.onRead, AList.mem_insert]
      simp only [List.mem_cons, Event.read.injEq]
      constructor
      · rintro ((rfl | h) | ⟨b', h⟩)
        · exact .inr ⟨b, .inl ⟨rfl, rfl⟩⟩
        · exact .inl h
        · exact .inr ⟨b', .inr h⟩
      · rintro (h | ⟨b', ⟨rfl, -⟩ | h⟩)
        · exact .inl (.inr h)
        · exact .inl (.inl rfl)
        · exact .inr ⟨b', h⟩
    | ins | del => simp [Tracer.record]
    | old => simp [Tracer.record, Tracer.addOldKey]

theorem GetRun.reads {pre rest : Path} {o : Except Fault (Option Bytes)}
    (hrun : GetRun E db n pre rest o evs) : ∀ e ∈ evs, ∃ p b, e = .read p b := by
  induction hrun with
  | short _ ih | full _ ih => exact ih
  | hash _ _ ih =>
    intro e he
    rcases List.mem_cons.mp he with rfl | he
    · exact ⟨_, _, rfl⟩
    · exact ih e he
  | _ => simp

namespace MerklePatriciaTrie

inductive Access where
  | update (key value : Bytes)
  | get (key : Bytes)

def accessAll (E : Env) (t : MerklePatriciaTrie) :
    List Access → Except Fault Unit × MerklePatriciaTrie
  | [] => (.ok (), t)
  | .update key value :: calls =>
    match t.update E key value with
    | (.ok (), t) => t.accessAll E calls
    | (.error e, t) => (.error e, t)
  | .get key :: calls =>
    match t.get E key with
    | (.ok _, t) => t.accessAll E calls
    | (.error e, t) => (.error e, t)

variable {t t₀ : MerklePatriciaTrie} {T₀ : KeyTree}

/-- The state of a trie that was opened as `t₀` with the tree `T₀`. -/
structure Traced (E : Env) (t₀ : MerklePatriciaTrie) (T₀ : KeyTree) (t : MerklePatriciaTrie) :
    Prop where
  reader : t.reader = t₀.reader
  hashes : t.root.Hashes (Stem E T₀) []
  records : Records t.tracer (nodePaths E t₀.reader t₀.root) (nodePaths E t₀.reader t.root)
  access : ∀ p S, NodeAt T₀ p S → p ∈ t.tracer.accessList ∨ t.root.Hides p

theorem Fresh.traced (h : Fresh E t T₀) : Traced E t T₀ t := by
  refine ⟨rfl, h.hashes, ?_, ?_⟩
  · rw [h.tracer]
    split <;> constructor <;> simp [Tracer.new, Tracer.record, Tracer.onRead]
  · intro p S hat
    have hne : T₀ ≠ .empty := by
      rintro rfl
      exact not_nodeAt_empty hat
    by_cases hp : p = []
    · left
      rw [h.tracer, if_neg (mt Tree.isEmpty_iff.mp hne), Tracer.record, Tracer.onRead,
        AList.mem_insert]
      exact .inl hp
    · right
      rw [h.root]
      exact hides_loadedNode (h.onDisk hne) hp hat

/-- **One update** keeps the tracer right. -/
theorem Traced.update (hf : Fresh E t₀ T₀) (h : Traced E t₀ T₀ t)
    (hr : Represents E (OnDisk E t.reader) t T) (key value : Bytes) :
    Traced E t₀ T₀ (t.update E key value).2 := by
  have hfit : Fits 16 T (hexKey E t.isHash key) :=
    .ahead hr.canonical (terminated_hexKey t.isHash key)
  have hload : Loading E t.reader (Stem E T₀) := h.reader ▸ hf.loading
  obtain ⟨n', evs, hupd, hrun, -⟩ := update_represents hr key value
  have hrep : Replay [] (nodePaths E t.reader t.root) evs (nodePaths E t.reader n') := by
    rcases hrun with ⟨-, dirty, hrun⟩ | ⟨-, dirty, hrun⟩
    · exact (hrun.reports hr.holds hr.loads hfit).replay
    · exact (hrun.reports hr.holds hr.loads hfit).replay
  have hhash : n'.Hashes (Stem E T₀) [] := by
    rcases hrun with ⟨-, dirty, hrun⟩ | ⟨-, dirty, hrun⟩
    · exact (hrun.hashes hload h.hashes).2.1
    · exact (hrun.hashes hload h.hashes).2
  rw [hupd]
  rw [h.reader] at hrep
  refine ⟨h.reader, hhash, h.records.replay hrep, ?_⟩
  intro p S hat
  have hne : T₀ ≠ .empty := by
    rintro rfl
    exact not_nodeAt_empty hat
  have hdisk : OnDisk E t.reader T₀ := h.reader ▸ hf.onDisk hne
  rw [Tracer.mem_accessList_recordAll]
  rcases h.access p S hat with hread | hhides
  · exact .inl (.inl hread)
  · have hcases : ReadAt evs p ∨ n'.Hides p := by
      rcases hrun with ⟨-, dirty, hrun⟩ | ⟨-, dirty, hrun⟩
      · exact hrun.staysHidden hdisk hr.loads hfit h.hashes hhides hat
      · exact hrun.staysHidden hdisk hr.loads hfit h.hashes hhides hat
    rcases hcases with hread | hhides
    · exact .inl (.inr hread)
    · exact .inr hhides

/-- **One read** keeps the tracer right. -/
theorem Traced.get (h : Traced E t₀ T₀ t) (hreads : ∀ e ∈ evs, ∃ p b, e = .read p b) :
    Traced E t₀ T₀ { t with tracer := t.tracer.recordAll evs } := by
  refine ⟨h.reader, h.hashes, h.records.replay (.of_reads hreads), ?_⟩
  intro p S hat
  rw [Tracer.mem_accessList_recordAll]
  exact (h.access p S hat).imp_left .inl

theorem Traced.accessAll (hf : Fresh E t₀ T₀) (h : Traced E t₀ T₀ t)
    (hr : Represents E (OnDisk E t.reader) t T) (calls : List Access) :
    ∃ t', t.accessAll E calls = (.ok (), t') ∧ Traced E t₀ T₀ t' := by
  induction calls generalizing t T with
  | nil => exact ⟨t, rfl, h⟩
  | cons call calls ih =>
    cases call with
    | update key value =>
      have hstep := h.update hf hr key value
      obtain ⟨n', evs, hupd, -, hr'⟩ := update_represents hr key value
      rw [hupd] at hstep
      rw [MerklePatriciaTrie.accessAll, hupd]
      exact ih hstep hr'
    | get key =>
      obtain ⟨evs, hget, hrun⟩ := get_represents hr key
      rw [MerklePatriciaTrie.accessAll, hget]
      exact ih (h.get hrun.reads) ⟨hr.uncommitted, hr.loads, hr.canonical, hr.holds⟩

/-- **The deleted paths are exactly those of the nodes that are gone**, and no
path is both inserted and deleted. -/
theorem deletedNodes_exact (E : Env) (db : DB) (isHash : Bool) (len : ℕ) (rs : List Round)
    (hlen : ∀ r ∈ rs, ∀ op ∈ r.ops, op.1.length = len)
    (hK : ∀ m ∈ (emptyTrie db isHash).memoryStates E rs,
      Ideal E.keccak256 (m.root.encodings E)) (calls : List Access) :
    ∃ t t', (emptyTrie db isHash).reopen E rs = .ok t ∧ t.accessAll E calls = (.ok (), t') ∧
      (∀ p, p ∈ t'.tracer.deletedNodes ↔
        NodeOn E t.reader t.root p ∧ ¬ NodeOn E t.reader t'.root p) ∧
      ∀ p, p ∈ t'.tracer.inserts → p ∉ t'.tracer.deletes := by
  obtain ⟨t, T₀, hre, hfresh, -⟩ := reopen_represents E db isHash hlen hK
  obtain ⟨t', hall, htr⟩ := hfresh.traced.accessAll hfresh hfresh.represents calls
  refine ⟨t, t', hre, hall, ?_, ?_⟩
  · intro p
    rw [Tracer.deletedNodes, List.mem_filter, decide_eq_true_eq, ← AList.mem_keys,
      htr.records.deletes p]
    constructor
    · exact fun h => h.1
    · intro h
      refine ⟨h, ?_⟩
      have hiff := Loads.nodeOn_iff hfresh.represents.holds hfresh.represents.loads p
      obtain ⟨S, hat⟩ := hiff.mp h.1
      have hne : T₀ ≠ .empty := by
        rintro rfl
        exact not_nodeAt_empty hat
      rcases htr.access p S hat with hread | hhides
      · exact hread
      · exact absurd (hhides.nodeOn (hfresh.onDisk hne) htr.hashes hat) h.2
  · intro p hins hdel
    exact ((htr.records.deletes p).mp hdel).2 ((htr.records.inserts p).mp hins).1

/-- A branch is cut back and built anew. -/
theorem deletedNodes_exact_twoRounds :
    ∃ t t', (emptyTrie (fun _ => none) false).reopen stdEnv twoRounds = .ok t ∧
      t.accessAll stdEnv [.update [0x20] [], .get [0x13], .update [0x14] [1]] = (.ok (), t') ∧
      (∀ p, p ∈ t'.tracer.deletedNodes ↔
        NodeOn stdEnv t.reader t.root p ∧ ¬ NodeOn stdEnv t.reader t'.root p) ∧
      ∀ p, p ∈ t'.tracer.inserts → p ∉ t'.tracer.deletes :=
  deletedNodes_exact stdEnv (fun _ => none) false 1 twoRounds (by decide) ideal_twoRounds _

end MerklePatriciaTrie

end MetaNode
