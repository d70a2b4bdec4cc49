/-
The minimal form of a compressed trie.

Insertion and deletion keep it (`Canonical.insert`, `Canonical.delete`), and a
minimal tree is determined by the map it stores (`Canonical.ext_lookup`): the run
above a branching node is the longest common prefix of the keys below it
(`Canonical.run_le`).
-/
import MetaNode.Patricia

namespace Patricia

open Patricia.Tree Function

variable {α β : Type} {τ : α} [DecidableEq α]

/-! ### Insertion and deletion keep the minimal form -/

variable {a : α} {T : Tree α β}

theorem Canonical.fork {b : α} {S : Tree α β} (hab : a ≠ b) (hT : T ≠ .empty) (hS : S ≠ .empty)
    (ha : if a = τ then ∃ v, T = .leaf v else Canonical τ T)
    (hb : if b = τ then ∃ v, S = .leaf v else Canonical τ S) : Canonical τ (fork a T b S) := by
  have hchild : ∀ x, update (update (fun _ => Tree.empty) a T) b S x
      = if x = b then S else if x = a then T else .empty := by
    intro x
    simp only [update_apply]
  refine .full hab ?_ ?_ ?_ ?_
  · simpa [hchild, hab] using hT
  · simpa [hchild] using hS
  · rw [hchild]
    split_ifs with h1 h2
    · rw [if_pos h1.symm] at hb
      exact .inr hb
    · rw [if_pos h2.symm] at ha
      exact .inr ha
    · exact .inl rfl
  · intro x hx
    rw [hchild]
    split_ifs with h1 h2
    · subst h1
      rwa [if_neg hx] at hb
    · subst h2
      rwa [if_neg hx] at ha
    · exact .empty

theorem graft_leaf_canonical {x : α} {xs : List α} (v : β) (h : Terminated τ (x :: xs)) :
    if x = τ then ∃ u, graft xs (.leaf v) = .leaf u else Canonical τ (graft xs (.leaf v)) := by
  rcases terminated_cons.mp h with ⟨hx, rfl⟩ | ⟨hx, hxs⟩
  · rw [if_pos hx]
    exact ⟨v, rfl⟩
  · rw [if_neg hx, graft_of_ne_nil hxs.ne_nil]
    obtain ⟨w, hw, rfl⟩ := hxs
    exact .leaf hw

variable {c : Tree α β}

theorem Canonical.graft_rest {p as : List α} (hT : Canonical τ (.short (p ++ a :: as) c))
    (hp : τ ∉ p) :
    graft as c ≠ .empty ∧
      if a = τ then ∃ u, graft as c = .leaf u else Canonical τ (graft as c) := by
  generalize hl : p ++ a :: as = l at hT
  cases hT with
  | @leaf w u hw =>
    have ht : Terminated τ (p ++ a :: as) := ⟨w, hw, hl⟩
    exact ⟨graft_leaf_ne_empty as u, graft_leaf_canonical u (ht.of_append hp)⟩
  | @ext k ch hne hτ hc =>
    subst hl
    simp only [List.mem_append, List.mem_cons, not_or] at hτ
    rw [if_neg (Ne.symm hτ.2.1)]
    rcases eq_or_ne as [] with rfl | has
    · exact ⟨by simp, hc⟩
    · rw [graft_of_ne_nil has]
      exact ⟨by simp, .ext has hτ.2.2 hc⟩

variable {ch : α → Tree α β} {key : List α}

theorem canonical_update (hkey : Terminated τ (a :: key)) (hT : key ≠ [] → Canonical τ T)
    (hc : ∀ x, x ≠ τ → Canonical τ (ch x)) (x : α) (hx : x ≠ τ) :
    Canonical τ (update ch a T x) := by
  by_cases hxa : x = a
  · subst hxa
    rw [update_self]
    rcases terminated_cons.mp hkey with ⟨hx', -⟩ | ⟨-, hk'⟩
    · exact absurd hx' hx
    · exact hT hk'.ne_nil
  · rw [update_of_ne hxa]
    exact hc x hx

theorem Canonical.insert (v : β) (h : Fits τ T key) (hk : key ≠ []) :
    Canonical τ (insert v T key) := by
  induction T generalizing key with
  | empty =>
    obtain ⟨w, hw, rfl⟩ := h.of_empty hk
    rw [insert_empty v hk]
    exact .leaf hw
  | leaf => exact absurd h.of_leaf hk
  | short k c ih =>
    obtain ⟨hT, hkey⟩ := h.of_short
    rcases prefix_or_fork key k with ⟨r, rfl⟩ | ⟨p, a, as, b, bs, hab, rfl, rfl⟩ | ⟨b, bs, hpast⟩
    · rw [insert_short_append v k r c hk]
      have hrest := h.rest
      cases hT with
      | leaf hw =>
        obtain rfl := hrest.of_leaf
        rw [insert_nil]
        exact .leaf hw
      | ext hne hτ =>
        have hr := hrest.of_full.2.ne_nil
        have hc' := ih hrest hr
        obtain ⟨a, r, rfl⟩ := List.exists_cons_of_ne_nil hr
        rw [insert_full] at hc' ⊢
        exact .ext hne hτ hc'
    · rw [insert_short_fork v p as bs c hab]
      have hp : τ ∉ p := hkey.not_mem_left
      have hnew := graft_leaf_canonical v (hkey.of_append hp)
      have hold := hT.graft_rest hp
      have hfork := Canonical.fork hab hold.1 (graft_leaf_ne_empty bs v) hold.2 hnew
      rcases eq_or_ne p [] with rfl | hpne
      · exact hfork
      · rw [graft_of_ne_nil hpne]
        exact .ext hpne hp hfork
    · exact absurd hpast h.not_past
  | full ch ih =>
    obtain ⟨hT, hkey⟩ := h.of_full
    obtain ⟨a, key, rfl⟩ := List.exists_cons_of_ne_nil hk
    rw [insert_full]
    -- the key itself is below the child, so it is not empty
    have hne : (ch a).insert v key ≠ .empty := by
      rcases eq_or_ne key [] with rfl | hkne
      · simp [insert_nil]
      · intro he
        have hl := lookup_insert v h.child key
        simp [he] at hl
    cases hT with
    | @full _ i j hij hi hj hτ hc =>
      refine .full hij (update_ne_empty hne hi) (update_ne_empty hne hj) ?_
        (canonical_update hkey (ih a h.child) hc)
      -- at the terminator there is a value, the new one or the old one
      by_cases ha : a = τ
      · subst ha
        rcases terminated_cons.mp hkey with ⟨-, rfl⟩ | ⟨hne, -⟩
        · exact .inr ⟨v, by rw [update_self, insert_nil]⟩
        · exact absurd rfl hne
      · rwa [update_of_ne (Ne.symm ha)]

theorem Canonical.delete (h : Fits τ T key) (hk : key ≠ []) : Canonical τ (delete T key) := by
  induction T generalizing key with
  | empty => exact .empty
  | leaf => exact absurd h.of_leaf hk
  | short k c ih =>
    obtain ⟨hT, hkey⟩ := h.of_short
    by_cases hp : k <+: key
    · obtain ⟨r, rfl⟩ := hp
      rcases eq_or_ne r [] with rfl | hr
      · rw [List.append_nil, delete_short_self]
        exact .empty
      · rw [delete_short_append k r c hr]
        have hrest := h.rest
        cases hT with
        | leaf => exact absurd hrest.of_leaf hr
        | ext hne hτ =>
          refine (ih hrest hr).extend ?_ hne hτ
          obtain ⟨a, r, rfl⟩ := List.exists_cons_of_ne_nil hr
          exact contract_ne_empty _
    · rwa [delete_short_of_differ c hp]
  | full ch ih =>
    obtain ⟨hT, hkey⟩ := h.of_full
    obtain ⟨a, key, rfl⟩ := List.exists_cons_of_ne_nil hk
    rw [delete_full]
    cases hT with
    | @full _ i j hij hi hj hτ hc =>
      -- one of the two children is not the one the key goes through
      obtain ⟨l, hl, hla⟩ : ∃ l, ch l ≠ .empty ∧ l ≠ a := by
        by_cases hia : i = a
        · exact ⟨j, hj, fun hja => hij (hia.trans hja.symm)⟩
        · exact ⟨i, hi, hia⟩
      refine Canonical.contract (i := l) ?_ ?_ (canonical_update hkey (ih a h.child) hc)
      · rwa [update_of_ne hla]
      · by_cases ha : a = τ
        · subst ha
          left
          rw [update_self]
          rcases hτ with he | ⟨v, hv⟩
          · rw [he]; rfl
          · rw [hv]; rfl
        · rwa [update_of_ne (Ne.symm ha)]

/-! ### A minimal tree is determined by its map -/

theorem Canonical.exists_key (h : Canonical τ T) (hne : T ≠ .empty) :
    ∃ key v, T.lookup key = some v := by
  induction h with
  | empty => exact absurd rfl hne
  | @leaf w v hw => exact ⟨w ++ [τ], v, by rw [lookup_short_leaf, if_pos rfl]⟩
  | @ext k ch _ _ _ ih =>
    obtain ⟨key, v, hv⟩ := ih (by simp)
    exact ⟨k ++ key, v, by rwa [lookup_short_append]⟩
  | @full ch i j hij hi hj hτ hc ih =>
    by_cases hiτ : i = τ
    · subst hiτ
      rcases hτ with he | ⟨v, hv⟩
      · exact absurd he hi
      · exact ⟨[i], v, by rw [lookup_full_cons, hv, lookup_leaf, if_pos rfl]⟩
    · obtain ⟨key, v, hv⟩ := ih i hiτ hi
      exact ⟨i :: key, v, hv⟩

theorem Canonical.child_key (h : Canonical τ (.full ch)) {i : α} (hi : ch i ≠ .empty) :
    ∃ key v, (ch i).lookup key = some v := by
  by_cases hiτ : i = τ
  · subst hiτ
    obtain ⟨v, hv⟩ := h.last.resolve_left hi
    exact ⟨[], v, by rw [hv, lookup_leaf, if_pos rfl]⟩
  · exact (h.child hiτ).exists_key hi

theorem Canonical.two_keys (h : Canonical τ (.full ch)) :
    ∃ i j ki kj vi vj, i ≠ j ∧ lookup (.full ch) (i :: ki) = some vi ∧
      lookup (.full ch) (j :: kj) = some vj := by
  cases id h with
  | @full _ i j hij hi hj hτ hc =>
    obtain ⟨ki, vi, hki⟩ := h.child_key hi
    obtain ⟨kj, vj, hkj⟩ := h.child_key hj
    exact ⟨i, j, ki, kj, vi, vj, hij, hki, hkj⟩

variable {v : β}

theorem Canonical.terminated_of_lookup (h : Canonical τ T) (hv : T.lookup key = some v) :
    Terminated τ key := by
  induction h generalizing key with
  | empty => simp at hv
  | @leaf w u hw =>
    rw [lookup_short_leaf] at hv
    split at hv
    · exact ⟨w, hw, by assumption⟩
    · simp at hv
  | @ext k ch hne hk hc ih =>
    rw [lookup_short] at hv
    obtain ⟨r, hr, hv⟩ := Option.bind_eq_some_iff.mp hv
    rw [dropPrefix?_eq_some.mp hr]
    exact (ih hv).append hk
  | @full ch i j hij hi hj hτ hc ih =>
    cases key with
    | nil => simp at hv
    | cons a key =>
      rw [lookup_full_cons] at hv
      refine terminated_cons.mpr ?_
      by_cases ha : a = τ
      · subst ha
        rcases hτ with he | ⟨u, hu⟩
        · simp [he] at hv
        · rw [hu, lookup_leaf] at hv
          split at hv
          · exact .inl ⟨rfl, by assumption⟩
          · simp at hv
      · exact .inr ⟨ha, ih a ha hv⟩

variable {k : List α}

theorem prefix_of_lookup_short (h : lookup (.short k c) key = some v) : k <+: key := by
  rw [lookup_short] at h
  obtain ⟨r, hr, -⟩ := Option.bind_eq_some_iff.mp h
  exact ⟨r, (dropPrefix?_eq_some.mp hr).symm⟩

/-- The run above a branching node is no longer than any run that all its
keys start with, whatever stands below that run. -/
theorem Canonical.run_le {k' : List α} {c' : Tree α β} (hc : Canonical τ (.full ch))
    (heq : ∀ key, lookup (.short k (.full ch)) key = lookup (.short k' c') key) : k' <+: k := by
  obtain ⟨i, j, ki, kj, vi, vj, hij, hi, hj⟩ := hc.two_keys
  have hpre : ∀ {x kx vx}, lookup (.full ch) (x :: kx) = some vx → k' <+: k ++ x :: kx := by
    intro x kx vx hx
    refine prefix_of_lookup_short (c := c') (v := vx) ?_
    rw [← heq, lookup_short_append, hx]
  rcases prefix_or_fork k k' with ⟨r, rfl⟩ | ⟨p, a, as, b, bs, hab, rfl, rfl⟩ | ⟨b, bs, rfl⟩
  · exact ⟨r, rfl⟩
  · have h := hpre hi
    rw [List.append_assoc, List.cons_append] at h
    exact absurd h (not_prefix_of_fork hab)
  · have h1 := hpre hi
    have h2 := hpre hj
    have hbi : b = i := by
      by_contra hne
      exact not_prefix_of_fork hne h1
    have hbj : b = j := by
      by_contra hne
      exact not_prefix_of_fork hne h2
    exact absurd (hbi.symm.trans hbj) hij

theorem Canonical.leaf_ne_ext {k' : List α} (hc : Canonical τ (.full ch)) :
    ¬ ∀ key, lookup (.short k (.leaf v)) key = lookup (.short k' (.full ch)) key := by
  intro heq
  obtain ⟨i, j, ki, kj, vi, vj, hij, hi, hj⟩ := hc.two_keys
  have hkey : ∀ {x kx vx}, lookup (.full ch) (x :: kx) = some vx → k' ++ x :: kx = k := by
    intro x kx vx hx
    have h := heq (k' ++ x :: kx)
    rw [lookup_short_append, hx, lookup_short_leaf] at h
    by_contra hne
    simp [hne] at h
  have h := (hkey hi).trans (hkey hj).symm
  rw [List.append_cancel_left_eq] at h
  exact hij (List.cons.inj h).1

/-- A run and a branching node store different maps: the keys of the run share
their first symbol. -/
theorem Canonical.short_ne_full (hk : k ≠ []) (hc : Canonical τ (.full ch)) :
    ¬ ∀ key, lookup (.short k c) key = lookup (.full ch) key := by
  intro heq
  obtain ⟨i, j, ki, kj, vi, vj, hij, hi, hj⟩ := hc.two_keys
  obtain ⟨a, k, rfl⟩ := List.exists_cons_of_ne_nil hk
  have hhead : ∀ {x kx vx}, lookup (.full ch) (x :: kx) = some vx → a = x := by
    intro x kx vx hx
    rw [← heq] at hx
    obtain ⟨r, hr⟩ := prefix_of_lookup_short hx
    exact (List.cons.inj hr).1
  exact hij ((hhead hi).symm.trans (hhead hj))

/-- **A minimal tree is determined by the map it stores.** -/
theorem Canonical.ext_lookup {S : Tree α β} (hT : Canonical τ T) (hS : Canonical τ S)
    (heq : ∀ key, T.lookup key = S.lookup key) : T = S := by
  have hempty : ∀ {R : Tree α β}, Canonical τ R → (∀ key, R.lookup key = none) → R = .empty := by
    intro R hR hnone
    by_contra hne
    obtain ⟨key, v, hv⟩ := hR.exists_key hne
    simp [hnone key] at hv
  induction hT generalizing S with
  | empty => exact (hempty hS fun key => by rw [← heq, lookup_empty]).symm
  | @leaf w v hw =>
    cases hS with
    | empty =>
      have h := heq (w ++ [τ])
      simp [lookup_short_leaf] at h
    | @leaf w' v' hw' =>
      have h := heq (w ++ [τ])
      rw [lookup_short_leaf, if_pos rfl, lookup_short_leaf] at h
      split at h
      · rename_i hww
        rw [hww, Option.some.inj h]
      · simp at h
    | ext hne hk hc => exact absurd heq hc.leaf_ne_ext
    | full hij hi hj hτ hc =>
      exact absurd heq (Canonical.short_ne_full (by simp) (.full hij hi hj hτ hc))
  | @ext k ch hne hk hc ih =>
    cases hS with
    | empty =>
      have h := hempty (Canonical.ext hne hk hc) fun key => by rw [heq, lookup_empty]
      simp at h
    | leaf => exact absurd (fun key => (heq key).symm) hc.leaf_ne_ext
    | @ext k' ch' hne' hk' hc' =>
      -- each run is the longest common one, so they agree
      obtain rfl : k = k' :=
        (hc'.run_le fun key => (heq key).symm).eq_of_length_le (hc.run_le heq).length_le
      have hbelow : ∀ key, lookup (.full ch) key = lookup (.full ch') key := by
        intro key
        have h := heq (k ++ key)
        rwa [lookup_short_append, lookup_short_append] at h
      rw [ih hc' hbelow]
    | full hij hi hj hτ hc' =>
      exact absurd heq (Canonical.short_ne_full hne (.full hij hi hj hτ hc'))
  | @full ch i j hij hi hj hτ hc ih =>
    cases hS with
    | empty =>
      have h := hempty (Canonical.full hij hi hj hτ hc) fun key => by rw [heq, lookup_empty]
      simp at h
    | leaf =>
      exact absurd (fun key => (heq key).symm)
        (Canonical.short_ne_full (by simp) (.full hij hi hj hτ hc))
    | ext hne =>
      exact absurd (fun key => (heq key).symm)
        (Canonical.short_ne_full hne (.full hij hi hj hτ hc))
    | @full ch' i' j' hij' hi' hj' hτ' hc' =>
      congr 1
      funext a
      have hbelow : ∀ key, (ch a).lookup key = (ch' a).lookup key := fun key => heq (a :: key)
      by_cases ha : a = τ
      · subst ha
        have h := hbelow []
        rcases hτ with he | ⟨v, hv⟩ <;> rcases hτ' with he' | ⟨v', hv'⟩
        · rw [he, he']
        · simp [he, hv', lookup_leaf] at h
        · simp [hv, he', lookup_leaf] at h
        · rw [hv, hv', lookup_leaf, lookup_leaf, if_pos rfl, if_pos rfl] at h
          rw [hv, hv', Option.some.inj h]
      · exact ih a ha (hc' a ha) hbelow

end Patricia
