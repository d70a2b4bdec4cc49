/-
Updates that fail (`update` and `delete` of `pkg/trie/trie.go`).

Only a deletion can fail, on a node that is missing from the database.  On its way down
`delete` only reads.  But when the node it was looking for is gone, and noted as deleted,
a branch that is left with one child loads that child, and this can fail as well.
-/
import MetaNode.NodeDecode
import MetaNode.TrieMissing

namespace MetaNode

open Patricia TrieM Function

variable (E : Env) (db : DB)

/-! ### Two ways to fail -/

/-- A node on the way of `delete` along `key` is missing. -/
inductive DeleteBlocked : Node → Path → Path → Prop
  | missing {h : Bytes} {pre key : Path} {e : Fault}
      (he : db.node pre (bytesToHash h) = .error e) : DeleteBlocked (.hash h) pre key
  | short {k rest pre : Path} {n : Node} {fl : NodeFlag} (hne : rest ≠ [])
      (hn : DeleteBlocked n (pre ++ k) rest) : DeleteBlocked (.short k n fl) pre (k ++ rest)
  | full {ch : Nibble → Node} {fl : NodeFlag} {a : Nibble} {rest pre : Path}
      (hn : DeleteBlocked (ch a) (pre ++ [a]) rest) : DeleteBlocked (.full ch fl) pre (a :: rest)
  | hash {h blob : Bytes} {pre key : Path} {rn : Node} (hl : Loaded E db h pre blob rn)
      (hn : DeleteBlocked rn pre key) : DeleteBlocked (.hash h) pre key

/-- A branch on the way loses its child, and the only one left is missing.  `evs` are the
events up to there. -/
inductive DeleteStuck : Node → Path → Path → List Event → Prop
  | sibling {ch : Nibble → Node} {fl : NodeFlag} {a i : Nibble} {rest pre : Path} {h : Bytes}
      {e : Fault} {evs : List Event} (hn : DeleteRun E db (ch a) (pre ++ [a]) rest true .nil evs)
      (hi : OnlyChild (update ch a .nil) i) (hh : ch i = .hash h)
      (he : db.node (pre ++ [i]) (bytesToHash h) = .error e) :
      DeleteStuck (.full ch fl) pre (a :: rest) evs
  | short {k rest pre : Path} {n : Node} {fl : NodeFlag} {evs : List Event} (hne : rest ≠ [])
      (hn : DeleteStuck n (pre ++ k) rest evs) : DeleteStuck (.short k n fl) pre (k ++ rest) evs
  | full {ch : Nibble → Node} {fl : NodeFlag} {a : Nibble} {rest pre : Path} {evs : List Event}
      (hn : DeleteStuck (ch a) (pre ++ [a]) rest evs) :
      DeleteStuck (.full ch fl) pre (a :: rest) evs
  | hash {h blob : Bytes} {pre key : Path} {rn : Node} {evs : List Event}
      (hl : Loaded E db h pre blob rn) (hn : DeleteStuck rn pre key evs) :
      DeleteStuck (.hash h) pre key (.read pre blob :: evs)

variable {E db} {n : Node} {key : Path} {evs : List Event} {pre : Path}

theorem DeleteRun.not_blocked {n' : Node} {dirty : Bool}
    (hrun : DeleteRun E db n pre key dirty n' evs) : ¬ DeleteBlocked E db n pre key := by
  intro hb
  induction hb generalizing n' dirty evs with
  | missing he =>
    cases hrun with
    | hashSame hl | hashNew hl => exact hl.not_missing he
  | @short k rest pre n fl hne _ ih =>
    generalize hkey : k ++ rest = key at hrun
    cases hrun with
    | differ hk => exact hk ⟨rest, hkey⟩
    | whole => exact hne (List.append_right_eq_self.mp hkey)
    | shortSame _ hn | shortMerge _ hn | shortNew _ hn =>
      obtain rfl := List.append_cancel_left hkey
      exact ih hn
  | full _ ih =>
    cases hrun with
    | fullSame hn | fullNew hn | fullMany hn | reduceMerge hn | reduce hn | reduceValue hn =>
      exact ih hn
  | hash hl _ ih =>
    cases hrun with
    | hashSame hl' hn | hashNew hl' hn =>
      obtain rfl := hl.unique hl'
      exact ih hn

theorem DeleteStuck.not_blocked (hs : DeleteStuck E db n pre key evs) :
    ¬ DeleteBlocked E db n pre key := by
  intro hb
  induction hb generalizing evs with
  | missing he =>
    cases hs with
    | hash hl => exact hl.not_missing he
  | @short k rest pre n fl _ _ ih =>
    generalize hkey : k ++ rest = key at hs
    cases hs with
    | short _ hn =>
      obtain rfl := List.append_cancel_left hkey
      exact ih hn
  | full hb ih =>
    cases hs with
    | sibling hn => exact hn.not_blocked hb
    | full hn => exact ih hn
  | hash hl _ ih =>
    cases hs with
    | hash hl' hn =>
      obtain rfl := hl.unique hl'
      exact ih hn

/-! ### Events -/

def OnlyReads (evs : List Event) : Prop := ∀ ev ∈ evs, ∃ path blob, ev = .read path blob

theorem OnlyReads.nil : OnlyReads [] := List.forall_mem_nil _

theorem OnlyReads.cons (h : OnlyReads evs) (path : Path) (blob : Bytes) :
    OnlyReads (.read path blob :: evs) :=
  List.forall_mem_cons.mpr ⟨⟨path, blob, rfl⟩, h⟩

/-- What `Update` has to leave alone if it fails. -/
structure Tracer.Same (t t' : Tracer) : Prop where
  inserts : t'.inserts = t.inserts
  deletes : t'.deletes = t.deletes
  oldKeys : t'.oldKeys = t.oldKeys

theorem OnlyReads.same (h : OnlyReads evs) (t : Tracer) : t.Same (t.recordAll evs) := by
  induction evs generalizing t with
  | nil => exact ⟨rfl, rfl, rfl⟩
  | cons ev evs ih =>
    obtain ⟨⟨path, blob, rfl⟩, hrest⟩ := List.forall_mem_cons.mp h
    obtain ⟨hins, hdel, hold⟩ := ih hrest (t.record (.read path blob))
    exact ⟨hins, hdel, hold⟩

variable {h : Bytes}

theorem Loaded.unloaded {blob : Bytes} {rn : Node} (hl : Loaded E db h pre blob rn) :
    rn.Unloaded := by
  rcases decodeNode_unloaded E h blob with hd | ⟨n, hd, hn⟩
  · cases hd.symm.trans hl.2
  · obtain rfl := Except.ok.inj (hd.symm.trans hl.2)
    exact hn

theorem DeleteRun.events_of_nil (hrun : DeleteRun E db n pre key true .nil evs)
    (hn : n.Unloaded) : ∃ reads, OnlyReads reads ∧ evs = reads ++ [.del pre] := by
  generalize hd : true = dirty at hrun
  generalize hnil : Node.nil = n' at hrun
  induction hrun with
  | whole => exact ⟨[], .nil, rfl⟩
  | value => cases hn
  | @hashNew h blob key pre rn nn evs hl _ ih =>
    obtain ⟨reads, hreads, rfl⟩ := ih hl.unloaded hd hnil
    exact ⟨_, hreads.cons pre blob, rfl⟩
  | _ => first | exact Node.noConfusion hnil | exact Bool.noConfusion hd

theorem DeleteStuck.events (hs : DeleteStuck E db n pre key evs) (hn : n.Unloaded) :
    ∃ reads path, OnlyReads reads ∧ evs = reads ++ [.del path] := by
  induction hs with
  | @sibling ch fl a i rest pre h e evs hrun _ _ _ =>
    have ha : (ch a).Unloaded := by
      rcases hn a with hnil | ⟨h', hh⟩
      · rw [hnil]
        trivial
      · rw [hh]
        trivial
    obtain ⟨reads, hreads, rfl⟩ := hrun.events_of_nil ha
    exact ⟨reads, _, hreads, rfl⟩
  | @short k rest pre n fl evs _ hs ih =>
    rcases hn with ⟨v, rfl⟩ | ⟨h, rfl⟩
    · cases hs
    · exact ih trivial
  | @full ch fl a rest pre evs hs ih =>
    rcases hn a with hnil | ⟨h, hh⟩
    · rw [hnil] at hs
      cases hs
    · rw [hh] at ih
      exact ih trivial
  | @hash h blob pre key rn evs hl _ ih =>
    obtain ⟨reads, path, hreads, rfl⟩ := ih hl.unloaded
    exact ⟨_, path, hreads.cons pre blob, rfl⟩

/-! ### Errors of delete -/

variable {f : Fault}

theorem resolveAndTrack_eq_error {t t' : Tracer}
    (hr : resolveAndTrack E db h pre t = (.error f, t')) :
    f = .panic ∨ (∃ e, f = .err e) ∧ db.node pre (bytesToHash h) = .error f ∧ t' = t := by
  cases hnode : db.node pre (bytesToHash h) with
  | error =>
    rw [resolveAndTrack_missing hnode, Prod.mk.injEq, Except.error.injEq] at hr
    obtain ⟨rfl, rfl⟩ := hr
    exact .inr ⟨⟨_, DB.node_eq_error hnode⟩, rfl, rfl⟩
  | ok blob =>
    rw [resolveAndTrack, hnode, Prod.mk.injEq] at hr
    rcases decodeNode_unloaded E h blob with hd | ⟨n, hd, -⟩
    · exact .inl (Except.error.inj (hr.1.symm.trans hd))
    · cases hd.symm.trans hr.1

/-- What is left behind by a call that fails with `f`: it panics, or one of the two ways
to fail applies. -/
def Fails (E : Env) (db : DB) (n : Node) (pre key : Path) (t : Tracer) (f : Fault) (t' : Tracer) :
    Prop :=
  f = .panic ∨ (∃ e, f = .err e) ∧ ∃ evs, t' = t.recordAll evs ∧
    (DeleteBlocked E db n pre key ∧ OnlyReads evs ∨ DeleteStuck E db n pre key evs)

section Fails

variable {t t' : Tracer} {rest : Path}

theorem Fails.short {k : Path} (h : Fails E db n (pre ++ k) rest t f t') (hne : rest ≠ [])
    (fl : NodeFlag) : Fails E db (.short k n fl) pre (k ++ rest) t f t' := by
  rcases h with hp | ⟨he, evs, ht, hb | hs⟩
  · exact .inl hp
  · exact .inr ⟨he, evs, ht, .inl ⟨.short hne hb.1, hb.2⟩⟩
  · exact .inr ⟨he, evs, ht, .inr (.short hne hs)⟩

theorem Fails.full {ch : Nibble → Node} {a : Nibble}
    (h : Fails E db (ch a) (pre ++ [a]) rest t f t') (fl : NodeFlag) :
    Fails E db (.full ch fl) pre (a :: rest) t f t' := by
  rcases h with hp | ⟨he, evs, ht, hb | hs⟩
  · exact .inl hp
  · exact .inr ⟨he, evs, ht, .inl ⟨.full hb.1, hb.2⟩⟩
  · exact .inr ⟨he, evs, ht, .inr (.full hs)⟩

theorem Fails.hash {blob : Bytes} {rn : Node} (hl : Loaded E db h pre blob rn)
    (hf : Fails E db rn pre rest (t.record (.read pre blob)) f t') :
    Fails E db (.hash h) pre rest t f t' := by
  rcases hf with hp | ⟨he, evs, ht, hb | hs⟩
  · exact .inl hp
  · exact .inr ⟨he, .read pre blob :: evs, ht, .inl ⟨.hash hl hb.1, hb.2.cons pre blob⟩⟩
  · exact .inr ⟨he, .read pre blob :: evs, ht, .inr (.hash hl hs)⟩

end Fails

theorem resolve_eq_error {t t' : Tracer} (hr : resolve E db n pre t = (.error f, t')) :
    f = .panic ∨ (∃ e, f = .err e) ∧ t' = t ∧
      ∃ h, n = .hash h ∧ db.node pre (bytesToHash h) = .error f := by
  cases n with
  | hash h =>
    rcases resolveAndTrack_eq_error hr with hp | ⟨he, hnode, ht⟩
    · exact .inl hp
    · exact .inr ⟨he, ht, h, rfl, hnode⟩
  | _ => cases hr

theorem Node.delete_full_error {fuel : ℕ} {ch : Nibble → Node} {fl : NodeFlag} {a : Nibble}
    {pre rest : Path} {t t₁ t' : Tracer} {dirty : Bool} {c : Node}
    (hrun : Node.delete E db fuel (ch a) (pre ++ [a]) rest t = (.ok (dirty, c), t₁))
    (h : Node.delete E db (fuel + 1) (.full ch fl) pre (a :: rest) t = (.error f, t')) :
    Fails E db (.full ch fl) pre (a :: rest) t f t' := by
  obtain ⟨evs, rfl, hdel⟩ := Node.delete_sound _ _ _ _ _ _ _ _ hrun
  by_cases hgone : dirty = true ∧ c = .nil
  · obtain ⟨rfl, rfl⟩ := hgone
    rw [Node.delete_full_gone fuel pre t fl hrun] at h
    cases honly : onlyChild (update ch a .nil) with
    | none =>
      rw [honly] at h
      cases h
    | some i =>
      have hi := onlyChild_eq_some.mp honly
      have hch : update ch a .nil i = ch i := update_of_ne hi.ne_gone ..
      rw [honly] at h
      simp only [hch] at h
      by_cases h16 : i = 16
      · rw [if_neg (by simpa using h16)] at h
        cases h
      · rw [if_pos h16, bind_eq_error] at h
        rcases h with h | ⟨cnode, t₂, -, h⟩
        · rcases resolve_eq_error h with hp | ⟨he, rfl, h', hh, hnode⟩
          · exact .inl hp
          · exact .inr ⟨he, evs, rfl, .inr (.sibling hdel hi hh hnode)⟩
        · cases cnode <;> simp [bind_apply] at h
  · rw [Node.delete, bind_ok hrun] at h
    cases dirty with
    | false => cases h
    | true =>
      have hnil : c.isNil = false := by
        rw [← Bool.not_eq_true, Node.isNil_iff]
        exact fun hc => hgone ⟨rfl, hc⟩
      simp [hnil] at h

/-- **How `delete` fails** within the bound: with a panic, or on a missing node. -/
theorem Node.delete_error {S : Node → Prop} (hS : Walkable E db S) :
    ∀ (fuel : ℕ) (n : Node) (pre key : Path) (t : Tracer) (f : Fault) (t' : Tracer),
      (S n ∧ (Terminated 16 key ∨ key = []) ∨ key = [] ∧ ∃ v, n = .value v) →
      2 * key.length + n.steps ≤ fuel →
      Node.delete E db fuel n pre key t = (.error f, t') → Fails E db n pre key t f t' := by
  intro fuel
  induction fuel with
  | zero =>
    intro n pre key t f t' _ hfuel
    cases n <;> simp [Node.steps] at hfuel
  | succ fuel ih =>
    intro n pre key t f t' hn hfuel h
    cases n with
    | nil | value => cases h
    | short k n fl =>
      obtain ⟨hmem, hrest⟩ := hn.resolve_right (by simp)
      by_cases hpre : k <+: key
      · obtain ⟨r, rfl⟩ := hpre
        have hkne := hS.key_ne_nil hmem
        have hk : Terminated 16 (k ++ r) := hrest.resolve_right (by simp [hkne])
        by_cases hr : r = []
        · subst hr
          rw [List.append_nil, Node.delete_short_whole] at h
          cases h
        · have hnext := (hS.rest hmem hk).resolve_right fun h => hr h.1
          have hlen : 0 < k.length := List.length_pos_iff.mpr hkne
          have hsteps := n.steps_le
          rw [Node.delete_short_append fuel pre t k n fl hr, bind_eq_error] at h
          rcases h with h | ⟨⟨dirty, c⟩, t₁, -, h⟩
          · refine Fails.short (ih n _ r t f t' (.inl ⟨hnext.1, .inl hnext.2⟩) ?_ h) hr fl
            simp only [List.length_append, Node.steps] at hfuel
            omega
          · cases dirty <;> cases c <;> simp [bind_apply] at h
      · rw [Node.delete_short_differ fuel pre t n fl hpre] at h
        cases h
    | full ch fl =>
      obtain ⟨hmem, hrest⟩ := hn.resolve_right (by simp)
      cases key with
      | nil =>
        have hf : Fault.panic = f := Except.error.inj (congrArg Prod.fst h)
        exact .inl hf.symm
      | cons a rest =>
        have hk : Terminated 16 (a :: rest) := hrest.resolve_right (by simp)
        have hsteps := (ch a).steps_le
        have hstep := h
        rw [Node.delete, bind_eq_error] at h
        rcases h with h | ⟨⟨dirty, c⟩, t₁, hrun, -⟩
        · refine Fails.full (ih (ch a) _ rest t f t' (hS.fullNext hmem hk) ?_ h) fl
          simp only [List.length_cons, Node.steps] at hfuel
          omega
        · exact Node.delete_full_error hrun hstep
    | hash h' =>
      obtain ⟨hmem, hrest⟩ := hn.resolve_right (by simp)
      rw [Node.delete, bind_eq_error] at h
      rcases h with h | ⟨rn, t₁, hload, h⟩
      · rcases resolveAndTrack_eq_error h with hp | ⟨he, hnode, rfl⟩
        · exact .inl hp
        · exact .inr ⟨he, [], rfl, .inl ⟨.missing hnode, .nil⟩⟩
      · obtain ⟨blob, hl, rfl⟩ := resolveAndTrack_eq_ok hload
        obtain ⟨rn', hdec, hrn, hrnh⟩ := hS.load h' pre blob hmem hl.1
        obtain rfl := Except.ok.inj (hdec.symm.trans hl.2)
        have hsteps := Node.steps_of_ne hrnh
        rw [bind_eq_error] at h
        rcases h with h | ⟨⟨dirty, c⟩, t₁, -, h⟩
        · refine Fails.hash hl (ih _ pre key _ f t' (.inl ⟨hrn, hrest⟩) ?_ h)
          simp only [Node.steps] at hfuel
          omega
        · cases dirty <;> cases h

/-! ### Update -/

namespace MerklePatriciaTrie

variable {t : MerklePatriciaTrie}

theorem update_error (h : WellShaped E t) {key value : Bytes}
    (herr : (t.update E key value).1 = .error f) :
    (t.update E key value).2.root = t.root ∧
      Fails E t.reader t.root [] (hexKey E t.isHash key) t.tracer f
        (t.update E key value).2.tracer := by
  by_cases hv : value = []
  · subst hv
    rw [update, if_neg (by simp [h.uncommitted]), updateKey, if_neg (by simp)] at herr ⊢
    generalize hrun : Node.delete E t.reader _ t.root [] _ t.tracer = r at herr ⊢
    obtain ⟨e | ⟨dirty, n⟩, tr⟩ := r
    · obtain rfl : e = f := Except.error.inj herr
      refine ⟨rfl, Node.delete_error h.written.walkable _ _ _ _ _ _ _
        (.inl ⟨h.root, .inl (terminated_keybytesToHex _)⟩) ?_ hrun⟩
      exact Nat.add_le_add_left t.root.steps_le _
    · cases herr
  · rw [update_ok h key hv] at herr
    cases herr

theorem update_ne_outOfFuel (h : WellShaped E t) (key value : Bytes) :
    (t.update E key value).1 ≠ .error .outOfFuel := by
  intro herr
  rcases (update_error h herr).2 with hp | ⟨⟨e, he⟩, -⟩
  · cases hp
  · cases he

theorem same_of_blocked (h : WellShaped E t) {key value : Bytes} {e : TrieError}
    (herr : (t.update E key value).1 = .error (.err e))
    (hb : DeleteBlocked E t.reader t.root [] (hexKey E t.isHash key)) :
    t.tracer.Same (t.update E key value).2.tracer := by
  rcases (update_error h herr).2 with hp | ⟨-, evs, ht, ⟨-, hreads⟩ | hs⟩
  · cases hp
  · rw [ht]
    exact hreads.same t.tracer
  · exact absurd hb hs.not_blocked

theorem new_unloaded {root : Hash} {isHash : Bool} (hnew : new E db root isHash = .ok t) :
    t.root.Unloaded ∧ t.tracer.inserts = ∅ ∧ t.tracer.deletes = ∅ := by
  rw [new] at hnew
  split at hnew
  · split at hnew
    · next hload =>
      cases hnew
      obtain ⟨blob, hl, rfl⟩ := resolveAndTrack_eq_ok hload
      exact ⟨hl.unloaded, rfl, rfl⟩
    · cases hnew
  · cases hnew
    exact ⟨trivial, rfl, rfl⟩

theorem not_same_of_deleted {tr : Tracer} (hins : tr.inserts = ∅) (hdel : tr.deletes = ∅)
    {reads : List Event} (hreads : OnlyReads reads) (path : Path) :
    ¬ tr.Same (tr.recordAll (reads ++ [.del path])) := by
  intro hsame
  have hkept := hreads.same tr
  have hnew : path ∉ (tr.recordAll reads).inserts := by
    rw [hkept.inserts, hins]
    exact AList.notMem_empty path
  have hdeletes := hsame.deletes
  rw [Tracer.recordAll_append, Tracer.recordAll_cons, Tracer.recordAll_nil, Tracer.record,
    Tracer.onDelete, if_neg hnew] at hdeletes
  have hmem : path ∈ tr.deletes := by
    rw [← hdeletes]
    exact (AList.mem_insert _).mpr (.inl rfl)
  rw [hdel] at hmem
  exact AList.notMem_empty path hmem

/-- **What a failed `Update` leaves behind.**  It always returns, unless it panics, and
keeps the root.  Whatever was done to the trie since it was opened, the tracer is kept where a
node on the way is missing; on a trie just opened, it is kept only there. -/
theorem update_error_iff {root : Hash} (hp : Persisted E db root) {isHash : Bool}
    (hnew : new E db root isHash = .ok t) (key value : Bytes) :
    (∀ ops, let s := t.applyAll E ops
      (s.update E key value).1 ≠ .error .outOfFuel ∧
        ∀ e, (s.update E key value).1 = .error (.err e) →
          (s.update E key value).2.root = s.root ∧
            (DeleteBlocked E db s.root [] (hexKey E isHash key) →
              s.tracer.Same (s.update E key value).2.tracer)) ∧
      ∀ e, (t.update E key value).1 = .error (.err e) →
        (t.tracer.Same (t.update E key value).2.tracer ↔
          DeleteBlocked E db t.root [] (hexKey E isHash key)) := by
  obtain ⟨hw, hdb, hflag⟩ := new_wellShaped hp.written hnew
  constructor
  · intro ops s
    obtain ⟨hs, hdb', hflag'⟩ := applyAll_wellShaped hw ops
    rw [← hdb, ← hflag, ← hdb', ← hflag']
    exact ⟨update_ne_outOfFuel hs key value, fun e herr =>
      ⟨(update_error hs herr).1, same_of_blocked hs herr⟩⟩
  · intro e herr
    rw [← hdb, ← hflag]
    refine ⟨fun hsame => ?_, same_of_blocked hw herr⟩
    rcases (update_error hw herr).2 with hpanic | ⟨-, evs, ht, ⟨hb, -⟩ | hs⟩
    · cases hpanic
    · exact hb
    · obtain ⟨hun, hins, hdel⟩ := new_unloaded hnew
      obtain ⟨reads, path, hreads, rfl⟩ := hs.events hun
      rw [ht] at hsame
      exact absurd hsame (not_same_of_deleted hins hdel hreads path)

theorem update_error_iff_rootOnly :
    (∀ ops, let s := rootOnlyTrie.applyAll stdEnv ops
      (s.update stdEnv [0x12] []).1 ≠ .error .outOfFuel ∧
        ∀ e, (s.update stdEnv [0x12] []).1 = .error (.err e) →
          (s.update stdEnv [0x12] []).2.root = s.root ∧
            (DeleteBlocked stdEnv rootOnly s.root [] (hexKey stdEnv false [0x12]) →
              s.tracer.Same (s.update stdEnv [0x12] []).2.tracer)) ∧
      ∀ e, (rootOnlyTrie.update stdEnv [0x12] []).1 = .error (.err e) →
        (rootOnlyTrie.tracer.Same (rootOnlyTrie.update stdEnv [0x12] []).2.tracer ↔
          DeleteBlocked stdEnv rootOnly rootOnlyTrie.root [] (hexKey stdEnv false [0x12])) :=
  update_error_iff persisted_rootOnly new_rootOnly [0x12] []

/-! ### A branch that lost a child -/

/-- The leaf with the value of `0x13`. -/
def leafHash : Hash := stdEnv.keccak256 (shortMarshal stdEnv (hexToCompact [16]) [11])

/-- The store of two keys below one branch, without that leaf. -/
def leafLost : DB := fun h => if h = leafHash then none else twoKeysStored.2 h

def leafLostTrie : MerklePatriciaTrie :=
  (new stdEnv leafLost twoKeysStored.1 false).toOption.getD (emptyTrie leafLost false)

/-- `0x12` is to be deleted.  Its leaf is noted as deleted, then the leaf of `0x13` cannot
be loaded: `Update` fails, and the note is left in the tracer. -/
theorem update_error_deletes :
    Persisted stdEnv leafLost twoKeysStored.1 ∧
      new stdEnv leafLost twoKeysStored.1 false = .ok leafLostTrie ∧
      (leafLostTrie.update stdEnv [0x12] []).1 = .error (.err (.missingNode leafHash [1, 3])) ∧
      leafLostTrie.tracer.deletes.keys = [] ∧
      (leafLostTrie.update stdEnv [0x12] []).2.tracer.deletes.keys = [[1, 2]] := by
  refine ⟨persisted_twoKeysStored.lose ?_, ?_, ?_⟩
  · intro k
    by_cases hk : k = leafHash
    · exact .inr (if_pos hk)
    · exact .inl (if_neg hk)
  · rw [leafLostTrie]
    exact eq_ok_getD (by decide +kernel) _
  · decide +kernel

end MerklePatriciaTrie

end MetaNode
