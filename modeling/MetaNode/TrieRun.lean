/-
What a call of `get`, `insert` or `delete` does, as relations.

`GetRun`, `InsertRun` and `DeleteRun` relate the arguments of a call to its
result and to the list of events it leaves in the tracer, with one constructor
for each way the source can go.  Everything proved later about a call is an
induction over these relations.

The relations are tied to the functions on every class of nodes that is closed
under the steps of the recursion (`Walkable`): there the calls stop within the
bound, and what they do is a run (`Node.get_run`, `Node.insert_run`,
`Node.delete_run`).  For `delete`, which fails where a node is missing, what a
success means is also proved without any assumption (`Node.delete_sound`).
-/
import MetaNode.Trie

namespace MetaNode

open Patricia TrieM Function

/-! ### Events -/

inductive Event where
  | read (path : Path) (blob : Bytes)
  | ins (path : Path)
  | del (path : Path)
  | old (hash : Option Bytes)

def Tracer.record (t : Tracer) : Event → Tracer
  | .read path blob => t.onRead path blob
  | .ins path => t.onInsert path
  | .del path => t.onDelete path
  | .old hash => t.addOldKey hash

def Tracer.recordAll (t : Tracer) (evs : List Event) : Tracer := evs.foldl Tracer.record t

@[simp] theorem Tracer.recordAll_nil (t : Tracer) : t.recordAll [] = t := rfl

@[simp] theorem Tracer.recordAll_cons (t : Tracer) (e : Event) (evs : List Event) :
    t.recordAll (e :: evs) = (t.record e).recordAll evs := rfl

@[simp] theorem Tracer.recordAll_append (t : Tracer) (evs evs' : List Event) :
    t.recordAll (evs ++ evs') = (t.recordAll evs).recordAll evs' :=
  List.foldl_append

variable (E : Env) (db : DB)

/-- Loading the node `h` found at `pre` yields `rn`, decoded from `blob`. -/
def Loaded (h : Bytes) (pre : Path) (blob : Bytes) (rn : Node) : Prop :=
  db.node pre (bytesToHash h) = .ok blob ∧ decodeNode E h blob = .ok rn

variable {E db} {h : Bytes} {rn : Node} {pre : Path}

theorem Loaded.resolveAndTrack {blob : Bytes} (hl : Loaded E db h pre blob rn)
    (t : Tracer) : resolveAndTrack E db h pre t = (.ok rn, t.record (.read pre blob)) := by
  rw [MetaNode.resolveAndTrack, hl.1]
  show (decodeNode E h blob, _) = _
  rw [hl.2]
  rfl

variable {e : Fault}

theorem resolveAndTrack_missing (he : db.node pre (bytesToHash h) = .error e)
    (t : Tracer) : resolveAndTrack E db h pre t = (.error e, t) := by
  rw [resolveAndTrack, he]

theorem DB.node_eq_error {h : Hash} (he : db.node pre h = .error e) :
    e = .err (.missingNode h pre) := by
  unfold DB.node at he
  split at he
  · cases he
    rfl
  · split at he
    · cases he
      rfl
    · simp at he

theorem DB.eq_of_node {h : Hash} {b : Bytes} (hnode : db.node pre h = .ok b) : db h = some b := by
  unfold DB.node at hnode
  split at hnode
  · simp at hnode
  · split at hnode
    · simp at hnode
    · simp_all

theorem Loaded.unique {b b' : Bytes} {pre pre' : Path} {rn' : Node} (hl : Loaded E db h pre b rn)
    (hl' : Loaded E db h pre' b' rn') : rn = rn' := by
  have hb := DB.eq_of_node hl.1
  rw [DB.eq_of_node hl'.1, Option.some.injEq] at hb
  subst hb
  exact Except.ok.inj (hl.2.symm.trans hl'.2)

/-! ### Runs of get -/

variable (E db)

/-- `GetRun n pre rest o evs`: `get` on the node `n` at the path `pre`, with
`rest` of the key left, ends in `o`. -/
inductive GetRun : Node → Path → Path → Except Fault (Option Bytes) → List Event → Prop
  | nil {pre rest : Path} : GetRun .nil pre rest (.ok none) []
  | value {v : Bytes} {pre rest : Path} : GetRun (.value v) pre rest (.ok (nilIfEmpty v)) []
  | differ {k : Path} {n : Node} {fl : NodeFlag} {pre rest : Path} (hk : ¬ k <+: rest) :
      GetRun (.short k n fl) pre rest (.ok none) []
  | short {k : Path} {n : Node} {fl : NodeFlag} {pre rest : Path} {o : Except Fault (Option Bytes)}
      {evs : List Event} (hn : GetRun n (pre ++ k) rest o evs) :
      GetRun (.short k n fl) pre (k ++ rest) o evs
  | full {ch : Nibble → Node} {fl : NodeFlag} {a : Nibble} {pre rest : Path}
      {o : Except Fault (Option Bytes)} {evs : List Event}
      (hn : GetRun (ch a) (pre ++ [a]) rest o evs) : GetRun (.full ch fl) pre (a :: rest) o evs
  | fullEnd {ch : Nibble → Node} {fl : NodeFlag} {pre : Path} :
      GetRun (.full ch fl) pre [] (.error .panic) []
  | missing {h : Bytes} {pre rest : Path} {e : Fault}
      (he : db.node pre (bytesToHash h) = .error e) : GetRun (.hash h) pre rest (.error e) []
  | hash {h blob : Bytes} {rn : Node} {pre rest : Path} {o : Except Fault (Option Bytes)}
      {evs : List Event} (hl : Loaded E db h pre blob rn) (hn : GetRun rn pre rest o evs) :
      GetRun (.hash h) pre rest o (.read pre blob :: evs)

/-! ### Runs of insert -/

/-- The node that `insert` puts into an empty place. -/
def Node.graft (key : Path) (n : Node) : Node := if key = [] then n else .short key n newFlag

def graftEvents (pre key : Path) : List Event := if key = [] then [] else [.ins pre]

def Node.fork (a : Nibble) (n : Node) (b : Nibble) (m : Node) : Node :=
  .full (Function.update (Function.update (fun _ => .nil) a n) b m) newFlag

/-- `InsertRun v n pre key dirty n' evs`: `insert` of the value `v` into the
node `n` at the path `pre` returns `dirty` and `n'`. -/
inductive InsertRun (v : Bytes) : Node → Path → Path → Bool → Node → List Event → Prop
  | same {pre : Path} : InsertRun v (.value v) pre [] false (.value v) []
  | replace {n : Node} {pre : Path} (hn : n ≠ .value v) :
      InsertRun v n pre [] true (.value v) []
  | shortSame {k rest pre : Path} {n nn : Node} {fl : NodeFlag} {evs : List Event}
      (hne : k ++ rest ≠ []) (hn : InsertRun v n (pre ++ k) rest false nn evs) :
      InsertRun v (.short k n fl) pre (k ++ rest) false (.short k n fl) evs
  | shortNew {k rest pre : Path} {n nn : Node} {fl : NodeFlag} {evs : List Event}
      (hne : k ++ rest ≠ []) (hn : InsertRun v n (pre ++ k) rest true nn evs) :
      InsertRun v (.short k n fl) pre (k ++ rest) true (.short k nn newFlag) (evs ++ [.old fl.hash])
  | fork {p as bs pre : Path} {a b : Nibble} {n : Node} {fl : NodeFlag} (hab : a ≠ b) :
      InsertRun v (.short (p ++ a :: as) n fl) pre (p ++ b :: bs) true
        (Node.graft p (Node.fork a (Node.graft as n) b (Node.graft bs (.value v))))
        (graftEvents (pre ++ p ++ [a]) as ++ graftEvents (pre ++ p ++ [b]) bs
          ++ (if p = [] then [] else [.ins (pre ++ p)]) ++ [.old fl.hash])
  | fullSame {ch : Nibble → Node} {fl : NodeFlag} {a : Nibble} {rest pre : Path} {nn : Node}
      {evs : List Event} (hn : InsertRun v (ch a) (pre ++ [a]) rest false nn evs) :
      InsertRun v (.full ch fl) pre (a :: rest) false (.full ch fl) evs
  | fullNew {ch : Nibble → Node} {fl : NodeFlag} {a : Nibble} {rest pre : Path} {nn : Node}
      {evs : List Event} (hn : InsertRun v (ch a) (pre ++ [a]) rest true nn evs) :
      InsertRun v (.full ch fl) pre (a :: rest) true (.full (Function.update ch a nn) newFlag)
        (evs ++ [.old fl.hash])
  | nil {key pre : Path} (hne : key ≠ []) :
      InsertRun v .nil pre key true (.short key (.value v) newFlag) [.ins pre]
  | missing {h : Bytes} {key pre : Path} {e : Fault} (hne : key ≠ [])
      (he : db.node pre (bytesToHash h) = .error e) :
      InsertRun v (.hash h) pre key true (.short key (.value v) newFlag) [.ins pre]
  | hashSame {h blob : Bytes} {key pre : Path} {rn nn : Node} {evs : List Event} (hne : key ≠ [])
      (hl : Loaded E db h pre blob rn) (hn : InsertRun v rn pre key false nn evs) :
      InsertRun v (.hash h) pre key false rn (.read pre blob :: evs)
  | hashNew {h blob : Bytes} {key pre : Path} {rn nn : Node} {evs : List Event} (hne : key ≠ [])
      (hl : Loaded E db h pre blob rn) (hn : InsertRun v rn pre key true nn evs) :
      InsertRun v (.hash h) pre key true nn (.read pre blob :: evs)

/-! ### Runs of delete -/

/-- `i` is the only child that is set. -/
def OnlyChild (ch : Nibble → Node) (i : Nibble) : Prop := ∀ j, ch j ≠ .nil ↔ j = i

variable {ch : Nibble → Node} {a : Nibble}

theorem OnlyChild.ne_gone {i : Nibble} (hi : OnlyChild (update ch a .nil) i) : i ≠ a := by
  rintro rfl
  exact (hi i).mpr rfl (update_self ..)

inductive ResolveRun : Node → Path → Node → List Event → Prop
  | here {n : Node} {pre : Path} (hn : ∀ h, n ≠ .hash h) : ResolveRun n pre n []
  | hash {h blob : Bytes} {pre : Path} {rn : Node} (hl : Loaded E db h pre blob rn) :
      ResolveRun (.hash h) pre rn [.read pre blob]

/-- `DeleteRun n pre key dirty n' evs`: `delete` on the node `n` at the path
`pre` returns `dirty` and `n'`. -/
inductive DeleteRun : Node → Path → Path → Bool → Node → List Event → Prop
  | differ {k key pre : Path} {n : Node} {fl : NodeFlag} (hk : ¬ k <+: key) :
      DeleteRun (.short k n fl) pre key false (.short k n fl) []
  | whole {k pre : Path} {n : Node} {fl : NodeFlag} :
      DeleteRun (.short k n fl) pre k true .nil [.del pre]
  | shortSame {k rest pre : Path} {n nn : Node} {fl : NodeFlag} {evs : List Event}
      (hne : rest ≠ []) (hn : DeleteRun n (pre ++ k) rest false nn evs) :
      DeleteRun (.short k n fl) pre (k ++ rest) false (.short k n fl) evs
  | shortMerge {k rest pre ck : Path} {n c : Node} {fl cfl : NodeFlag} {evs : List Event}
      (hne : rest ≠ []) (hn : DeleteRun n (pre ++ k) rest true (.short ck c cfl) evs) :
      DeleteRun (.short k n fl) pre (k ++ rest) true (.short (k ++ ck) c newFlag)
        (evs ++ [.del (pre ++ k)])
  | shortNew {k rest pre : Path} {n nn : Node} {fl : NodeFlag} {evs : List Event}
      (hne : rest ≠ []) (hn : DeleteRun n (pre ++ k) rest true nn evs)
      (hs : ∀ ck c cfl, nn ≠ .short ck c cfl) :
      DeleteRun (.short k n fl) pre (k ++ rest) true (.short k nn newFlag) evs
  | fullSame {ch : Nibble → Node} {fl : NodeFlag} {a : Nibble} {rest pre : Path} {nn : Node}
      {evs : List Event} (hn : DeleteRun (ch a) (pre ++ [a]) rest false nn evs) :
      DeleteRun (.full ch fl) pre (a :: rest) false (.full ch fl) evs
  | fullNew {ch : Nibble → Node} {fl : NodeFlag} {a : Nibble} {rest pre : Path} {nn : Node}
      {evs : List Event} (hn : DeleteRun (ch a) (pre ++ [a]) rest true nn evs) (hne : nn ≠ .nil) :
      DeleteRun (.full ch fl) pre (a :: rest) true (.full (Function.update ch a nn) newFlag) evs
  | fullMany {ch : Nibble → Node} {fl : NodeFlag} {a : Nibble} {rest pre : Path}
      {evs : List Event} (hn : DeleteRun (ch a) (pre ++ [a]) rest true .nil evs)
      (hmany : ∀ i, ¬ OnlyChild (Function.update ch a .nil) i) :
      DeleteRun (.full ch fl) pre (a :: rest) true (.full (Function.update ch a .nil) newFlag) evs
  | reduceMerge {ch : Nibble → Node} {fl cfl : NodeFlag} {a i : Nibble} {rest pre ck : Path}
      {c : Node} {evs evs' : List Event} (hn : DeleteRun (ch a) (pre ++ [a]) rest true .nil evs)
      (hi : OnlyChild (Function.update ch a .nil) i) (h16 : i ≠ 16)
      (hr : ResolveRun E db (ch i) (pre ++ [i]) (.short ck c cfl) evs') :
      DeleteRun (.full ch fl) pre (a :: rest) true (.short (i :: ck) c newFlag)
        (evs ++ evs' ++ [.del (pre ++ [i])])
  | reduce {ch : Nibble → Node} {fl : NodeFlag} {a i : Nibble} {rest pre : Path} {c : Node}
      {evs evs' : List Event} (hn : DeleteRun (ch a) (pre ++ [a]) rest true .nil evs)
      (hi : OnlyChild (Function.update ch a .nil) i) (h16 : i ≠ 16)
      (hr : ResolveRun E db (ch i) (pre ++ [i]) c evs') (hs : ∀ ck c' cfl, c ≠ .short ck c' cfl) :
      DeleteRun (.full ch fl) pre (a :: rest) true (.short [i] (ch i) newFlag) (evs ++ evs')
  | reduceValue {ch : Nibble → Node} {fl : NodeFlag} {a : Nibble} {rest pre : Path}
      {evs : List Event} (hn : DeleteRun (ch a) (pre ++ [a]) rest true .nil evs)
      (hi : OnlyChild (Function.update ch a .nil) 16) :
      DeleteRun (.full ch fl) pre (a :: rest) true (.short [16] (ch 16) newFlag) evs
  | value {v : Bytes} {pre key : Path} : DeleteRun (.value v) pre key true .nil []
  | nil {pre key : Path} : DeleteRun .nil pre key false .nil []
  | hashSame {h blob : Bytes} {key pre : Path} {rn nn : Node} {evs : List Event}
      (hl : Loaded E db h pre blob rn) (hn : DeleteRun rn pre key false nn evs) :
      DeleteRun (.hash h) pre key false rn (.read pre blob :: evs)
  | hashNew {h blob : Bytes} {key pre : Path} {rn nn : Node} {evs : List Event}
      (hl : Loaded E db h pre blob rn) (hn : DeleteRun rn pre key true nn evs) :
      DeleteRun (.hash h) pre key true nn (.read pre blob :: evs)

/-! ### The functions follow the relations -/

/-- A class of nodes closed under the steps of the recursion: wherever a key
with its terminator still ahead arrives, the node there is again in the class,
and what a hash node loads is a node of the class. -/
structure Walkable (S : Node → Prop) : Prop where
  value : ∀ v, ¬ S (.value v)
  short : ∀ k n fl, S (.short k n fl) →
    (Terminated 16 k ∧ (S n ∨ ∃ v, n = .value v)) ∨ (k ≠ [] ∧ 16 ∉ k ∧ S n)
  child : ∀ ch fl a, S (.full ch fl) → a ≠ 16 → S (ch a)
  last : ∀ ch fl, S (.full ch fl) → S (ch 16) ∨ ∃ v, ch 16 = .value v
  load : ∀ h pre blob, S (.hash h) → db.node pre (bytesToHash h) = .ok blob →
    ∃ rn, decodeNode E h blob = .ok rn ∧ S rn ∧ ∀ h', rn ≠ .hash h'

/-- A class in which moreover nothing is missing from the database. -/
structure Complete (S : Node → Prop) : Prop extends Walkable E db S where
  present : ∀ h pre, S (.hash h) → ∃ blob, db.node pre (bytesToHash h) = .ok blob
  lastValue : ∀ ch fl, S (.full ch fl) → ch 16 = .nil ∨ ∃ v, ch 16 = .value v

/-- The calls that a node takes before it consumes a nibble. -/
def Node.steps : Node → ℕ
  | .hash _ => 2
  | _ => 1

theorem Node.steps_le (n : Node) : n.steps ≤ 2 := by
  cases n <;> simp [Node.steps]

variable {n : Node}

theorem Node.steps_of_ne (hn : ∀ h, n ≠ .hash h) : n.steps = 1 := by
  cases n with
  | hash h => exact absurd rfl (hn h)
  | _ => rfl

variable {E db} {S : Node → Prop} {k : Path} {fl : NodeFlag}

section

variable (hS : Walkable E db S)

include hS

theorem Walkable.key_ne_nil (hn : S (.short k n fl)) : k ≠ [] := by
  rcases hS.short k n fl hn with ⟨hk, -⟩ | ⟨hne, -, -⟩
  · exact hk.ne_nil
  · exact hne

theorem Walkable.rest {rest : Path} (hn : S (.short k n fl)) (hk : Terminated 16 (k ++ rest)) :
    S n ∧ Terminated 16 rest ∨ rest = [] ∧ (S n ∨ ∃ v, n = .value v) := by
  rcases hS.short k n fl hn with ⟨hk', hn⟩ | ⟨-, hk16, hn⟩
  · exact .inr ⟨hk'.eq_nil_of_append hk, hn⟩
  · exact .inl ⟨hn, hk.of_append hk16⟩

theorem Walkable.fullChild {rest : Path} (hn : S (.full ch fl))
    (hk : Terminated 16 (a :: rest)) : S (ch a) ∧ Terminated 16 rest ∨ rest = [] := by
  rcases terminated_cons.mp hk with ⟨-, hr⟩ | ⟨ha, hr⟩
  · exact .inr hr
  · exact .inl ⟨hS.child ch fl a hn ha, hr⟩

theorem Walkable.fullNext {rest : Path} (hn : S (.full ch fl)) (hk : Terminated 16 (a :: rest)) :
    S (ch a) ∧ (Terminated 16 rest ∨ rest = []) ∨ rest = [] ∧ ∃ v, ch a = .value v := by
  rcases terminated_cons.mp hk with ⟨rfl, rfl⟩ | ⟨ha, hr⟩
  · exact (hS.last ch fl hn).imp (⟨·, .inr rfl⟩) (⟨rfl, ·⟩)
  · exact .inl ⟨hS.child ch fl a hn ha, .inl hr⟩

end

variable {key : Path} {b : Nibble}

theorem Walkable.not_past (hS : Walkable E db S) {bs : Path} (hn : S (.short k n fl))
    (hk : Terminated 16 key) : k ≠ key ++ b :: bs := by
  intro he
  rcases hS.short k n fl hn with ⟨hk', -⟩ | ⟨-, hk16, -⟩
  · have hnil : b :: bs = [] := hk.eq_nil_of_append (he ▸ hk')
    simp at hnil
  · obtain ⟨w, -, rfl⟩ := hk
    exact hk16 (by simp [he])

theorem prefixLen_append (k r : Path) : prefixLen (k ++ r) k = k.length := by
  rw [prefixLen_eq, commonPrefix_append]

theorem prefixLen_fork (p as bs : Path) (hab : a ≠ b) :
    prefixLen (p ++ b :: bs) (p ++ a :: as) = p.length := by
  rw [prefixLen_eq, commonPrefix_fork p as bs hab]

/-! #### insert -/

section Insert

variable (fuel : ℕ) (pre : Path) (v : Node) (t : Tracer)

theorem Node.insert_graft (key : Path) :
    Node.insert E db (fuel + 1) .nil pre key v t
      = (.ok (true, Node.graft key v), t.recordAll (graftEvents pre key)) := by
  cases key <;> cases v <;> rfl

theorem Node.insert_short_append {rest : Path} (n : Node) (fl : NodeFlag) (hne : k ++ rest ≠ []) :
    Node.insert E db (fuel + 1) (.short k n fl) pre (k ++ rest) v t
      = (Node.insert E db fuel n (pre ++ k) rest v >>= fun r =>
          if !r.1 then pure (false, .short k n fl)
          else do
            trace (·.addOldKey fl.hash)
            pure (true, .short k r.2 newFlag)) t := by
  obtain ⟨x, xs, hx⟩ := List.exists_cons_of_ne_nil hne
  have hlen : prefixLen (x :: xs) k = k.length := by rw [← hx, prefixLen_append]
  have htake : (x :: xs).take k.length = k := by rw [← hx, List.take_left]
  have hdrop : (x :: xs).drop k.length = rest := by rw [← hx, List.drop_left]
  rw [hx, Node.insert, if_pos hlen, hlen, htake, hdrop]

theorem Node.insert_short_fork {p as bs : Path} (n : Node) (fl : NodeFlag) (hab : a ≠ b) :
    Node.insert E db (fuel + 2) (.short (p ++ a :: as) n fl) pre (p ++ b :: bs) v t
      = (.ok (true, Node.graft p (Node.fork a (Node.graft as n) b (Node.graft bs v))),
          t.recordAll (graftEvents (pre ++ p ++ [a]) as ++ graftEvents (pre ++ p ++ [b]) bs
            ++ (if p = [] then [] else [.ins (pre ++ p)]) ++ [.old fl.hash])) := by
  obtain ⟨x, xs, hx⟩ := List.exists_cons_of_ne_nil (show p ++ b :: bs ≠ [] by simp)
  have hlen : prefixLen (x :: xs) (p ++ a :: as) = p.length := by
    rw [← hx, prefixLen_fork p as bs hab]
  have hne : p.length ≠ (p ++ a :: as).length := by simp
  have htake : ∀ c cs, (p ++ c :: cs).take (p.length + 1) = p ++ [c] := by
    intro c cs
    rw [List.take_length_add_append]
    rfl
  rw [hx, Node.insert, if_neg (by rw [hlen]; exact hne), hlen, ← hx]
  simp only [List.drop_left, List.take_left, htake]
  rw [bind_ok (Node.insert_graft fuel _ n t as), bind_ok (Node.insert_graft fuel _ v _ bs)]
  rcases eq_or_ne p [] with rfl | hp
  · simp [Node.graft, Node.fork, Tracer.record, bind_apply]
  · simp [Node.graft, Node.fork, Tracer.record, bind_apply, hp]

theorem Node.insert_full_cons (ch : Nibble → Node) (fl : NodeFlag) (a : Nibble) (rest : Path) :
    Node.insert E db (fuel + 1) (.full ch fl) pre (a :: rest) v t
      = (Node.insert E db fuel (ch a) (pre ++ [a]) rest v >>= fun r =>
          if !r.1 then pure (false, .full ch fl)
          else do
            trace (·.addOldKey fl.hash)
            pure (true, .full (update ch a r.2) newFlag)) t := rfl

theorem Node.insert_missing (hne : key ≠ []) (he : db.node pre (bytesToHash h) = .error e) :
    Node.insert E db (fuel + 2) (.hash h) pre key v t
      = (.ok (true, .short key v newFlag), t.record (.ins pre)) := by
  obtain ⟨x, xs, rfl⟩ := List.exists_cons_of_ne_nil hne
  obtain rfl := DB.node_eq_error he
  have hatt : attempt (resolveAndTrack E db h pre) t
      = (.ok (.error (.missingNode (bytesToHash h) pre)), t) := by
    rw [attempt, resolveAndTrack_missing he]
  rw [Node.insert, bind_ok hatt]
  rfl

theorem Node.insert_loaded {blob : Bytes} (hne : key ≠ []) (hl : Loaded E db h pre blob rn) :
    Node.insert E db (fuel + 1) (.hash h) pre key v t
      = (Node.insert E db fuel rn pre key v >>= fun r =>
          if !r.1 then pure (false, rn) else pure (true, r.2)) (t.record (.read pre blob)) := by
  obtain ⟨x, xs, rfl⟩ := List.exists_cons_of_ne_nil hne
  have hatt : attempt (resolveAndTrack E db h pre) t
      = (.ok (.ok rn), t.record (.read pre blob)) := by
    rw [attempt, hl.resolveAndTrack]
  rw [Node.insert, bind_ok hatt]

end Insert

/-- **`insert` ends within the bound, and what it does is an `InsertRun`.** -/
theorem Node.insert_run (hS : Walkable E db S) (v : Bytes) :
    ∀ (fuel : ℕ) (n : Node) (pre key : Path) (t : Tracer),
      (S n ∧ Terminated 16 key ∨ key = []) → 2 * key.length + n.steps ≤ fuel →
      ∃ dirty n' evs, Node.insert E db fuel n pre key (.value v) t
          = (.ok (dirty, n'), t.recordAll evs) ∧ InsertRun E db v n pre key dirty n' evs := by
  intro fuel
  induction fuel with
  | zero =>
    intro n pre key t _ hfuel
    cases n <;> simp [Node.steps] at hfuel
  | succ fuel ih =>
    intro n pre key t hn hfuel
    rcases hn with ⟨hn, hk⟩ | rfl
    case inr =>
      -- the end of the key: whatever is there gives way to the value
      by_cases hv : n = .value v
      · subst hv
        exact ⟨false, .value v, [], by simp [Node.insert], .same⟩
      · refine ⟨true, .value v, [], ?_, .replace hv⟩
        cases n with
        | value w => simp [Node.insert, show w ≠ v by rintro rfl; exact hv rfl]
        | _ => rfl
    have hne := hk.ne_nil
    cases n with
    | nil =>
      refine ⟨true, _, _, ?_, .nil hne⟩
      rw [Node.insert_graft, Node.graft, if_neg hne, graftEvents, if_neg hne]
    | value w => exact absurd hn (hS.value w)
    | short k n fl =>
      rcases prefix_or_fork key k with ⟨r, rfl⟩ | ⟨p, a, as, b, bs, hab, rfl, rfl⟩ | ⟨b, bs, hpast⟩
      · have hlen : 0 < k.length := List.length_pos_iff.mpr (hS.key_ne_nil hn)
        have hsteps := n.steps_le
        obtain ⟨dirty, n', evs, hrun, hrel⟩ := ih n (pre ++ k) r t
          ((hS.rest hn hk).imp_right And.left) (by
            simp only [List.length_append, Node.steps] at hfuel
            omega)
        rw [Node.insert_short_append fuel pre _ t n fl hne, bind_ok hrun]
        cases dirty with
        | false => exact ⟨_, _, _, rfl, .shortSame hne hrel⟩
        | true =>
          refine ⟨_, _, _, ?_, .shortNew hne hrel⟩
          rw [Tracer.recordAll_append]
          rfl
      · -- each half of the branch is one more call
        obtain ⟨fuel, rfl⟩ : ∃ m, fuel = m + 1 := ⟨fuel - 1, by
          simp only [List.length_append, List.length_cons, Node.steps] at hfuel
          omega⟩
        exact ⟨_, _, _, Node.insert_short_fork fuel pre _ t n fl hab, .fork hab⟩
      · exact absurd hpast (hS.not_past hn hk)
    | full ch fl =>
      obtain ⟨a, rest, rfl⟩ := List.exists_cons_of_ne_nil hne
      have hsteps := (ch a).steps_le
      obtain ⟨dirty, n', evs, hrun, hrel⟩ :=
        ih (ch a) (pre ++ [a]) rest t (hS.fullChild hn hk) (by
          simp only [List.length_cons, Node.steps] at hfuel
          omega)
      rw [Node.insert_full_cons, bind_ok hrun]
      cases dirty with
      | false => exact ⟨_, _, _, rfl, .fullSame hrel⟩
      | true =>
        refine ⟨_, _, _, ?_, .fullNew hrel⟩
        rw [Tracer.recordAll_append]
        rfl
    | hash h =>
      cases hnode : db.node pre (bytesToHash h) with
      | error e =>
        -- the insertion starts over from a nil node
        obtain ⟨fuel, rfl⟩ : ∃ m, fuel = m + 1 := ⟨fuel - 1, by
          simp only [Node.steps] at hfuel
          omega⟩
        exact ⟨_, _, _, Node.insert_missing fuel pre _ t hne hnode, .missing hne hnode⟩
      | ok blob =>
        obtain ⟨rn, hdec, hrn, hrnh⟩ := hS.load h pre blob hn hnode
        have hl : Loaded E db h pre blob rn := ⟨hnode, hdec⟩
        have hsteps := Node.steps_of_ne hrnh
        obtain ⟨dirty, n', evs, hrun, hrel⟩ :=
          ih rn pre key (t.record (.read pre blob)) (.inl ⟨hrn, hk⟩) (by
            simp only [Node.steps] at hfuel
            omega)
        rw [Node.insert_loaded fuel pre _ t hne hl, bind_ok hrun]
        cases dirty with
        | false => exact ⟨_, _, _, rfl, .hashSame hne hl hrel⟩
        | true => exact ⟨_, _, _, rfl, .hashNew hne hl hrel⟩

/-! #### get -/

theorem Node.get_short_append (fuel : ℕ) (pre k rest : Path) (n : Node) (fl : NodeFlag)
    (t : Tracer) :
    Node.get E db (fuel + 1) (.short k n fl) (pre ++ (k ++ rest)) pre.length t
      = (Node.get E db fuel n ((pre ++ k) ++ rest) (pre ++ k).length >>= fun r =>
          pure (r.1, .short k (if r.2.2 then r.2.1 else n) fl, r.2.2)) t := by
  have hcond : ¬ ((pre ++ (k ++ rest)).length - pre.length < k.length ∨
      k ≠ ((pre ++ (k ++ rest)).drop pre.length).take k.length) := by
    rw [List.drop_left, List.take_left]
    simp
  rw [Node.get, if_neg hcond, List.append_assoc, List.length_append]

variable {pre rest : Path}

theorem Node.get_short_differ (fuel : ℕ) (n : Node) (fl : NodeFlag) (t : Tracer)
    (hk : ¬ k <+: rest) :
    Node.get E db (fuel + 1) (.short k n fl) (pre ++ rest) pre.length t
      = (.ok (none, .short k n fl, false), t) := by
  have hcond : (pre ++ rest).length - pre.length < k.length ∨
      k ≠ ((pre ++ rest).drop pre.length).take k.length := by
    rw [List.drop_left]
    right
    intro h
    exact hk (h ▸ List.take_prefix _ _)
  rw [Node.get, if_pos hcond]
  rfl

theorem get_pass {x : TrieM (Option Bytes × Node × Bool)}
    {f : Option Bytes × Node × Bool → TrieM (Option Bytes × Node × Bool)}
    (hf : ∀ r, ∃ n' b, f r = pure (r.1, n', b)) (t : Tracer) :
    (((x >>= f) t).1.map Prod.fst, ((x >>= f) t).2) = ((x t).1.map Prod.fst, (x t).2) := by
  rw [bind_apply]
  rcases x t with ⟨_ | r, t'⟩
  · rfl
  · obtain ⟨n', b, hr⟩ := hf r
    show ((f r t').1.map _, (f r t').2) = _
    rw [hr]
    rfl

/-- **`get` ends within the bound, and what it does is a `GetRun`.** -/
theorem Node.get_run (hS : Walkable E db S) :
    ∀ (fuel : ℕ) (n : Node) (pre rest : Path) (t : Tracer),
      (S n ∧ (Terminated 16 rest ∨ rest = []) ∨ rest = [] ∧ ∃ v, n = .value v) →
      2 * rest.length + n.steps ≤ fuel →
      ∃ o evs, ((Node.get E db fuel n (pre ++ rest) pre.length t).1.map Prod.fst,
          (Node.get E db fuel n (pre ++ rest) pre.length t).2) = (o, t.recordAll evs) ∧
        GetRun E db n pre rest o evs := by
  intro fuel
  induction fuel with
  | zero =>
    intro n pre rest t _ hfuel
    cases n <;> simp [Node.steps] at hfuel
  | succ fuel ih =>
    intro n pre rest t hn hfuel
    cases n with
    | nil => exact ⟨_, [], rfl, .nil⟩
    | value => exact ⟨_, [], rfl, .value⟩
    | short k n fl =>
      obtain ⟨hmem, hrest⟩ := hn.resolve_right (by simp)
      by_cases hpre : k <+: rest
      · obtain ⟨r, rfl⟩ := hpre
        have hkne := hS.key_ne_nil hmem
        have hk : Terminated 16 (k ++ r) := hrest.resolve_right (by simp [hkne])
        have hlen : 0 < k.length := List.length_pos_iff.mpr hkne
        have hsteps := n.steps_le
        -- the run is not empty, which pays for the two calls
        have hnext : S n ∧ (Terminated 16 r ∨ r = []) ∨ r = [] ∧ ∃ v, n = .value v := by
          rcases hS.rest hmem hk with ⟨hn, hr⟩ | ⟨hr, hn | hv⟩
          · exact .inl ⟨hn, .inl hr⟩
          · exact .inl ⟨hn, .inr hr⟩
          · exact .inr ⟨hr, hv⟩
        obtain ⟨o, evs, hrun, hrel⟩ := ih n (pre ++ k) r t hnext (by
          simp only [List.length_append, Node.steps] at hfuel
          omega)
        refine ⟨o, evs, ?_, .short hrel⟩
        rw [Node.get_short_append, ← hrun]
        exact get_pass (fun r => ⟨_, _, rfl⟩) t
      · refine ⟨.ok none, [], ?_, .differ hpre⟩
        rw [Node.get_short_differ fuel n fl t hpre]
        rfl
    | full ch fl =>
      obtain ⟨hmem, hrest⟩ := hn.resolve_right (by simp)
      cases rest with
      | nil =>
        refine ⟨.error .panic, [], ?_, .fullEnd⟩
        rw [Node.get]
        simp
        rfl
      | cons a rest =>
        have hk : Terminated 16 (a :: rest) := hrest.resolve_right (by simp)
        have hsteps := (ch a).steps_le
        obtain ⟨o, evs, hrun, hrel⟩ := ih (ch a) (pre ++ [a]) rest t (hS.fullNext hmem hk) (by
          simp only [List.length_cons, Node.steps] at hfuel
          omega)
        refine ⟨o, evs, ?_, .full hrel⟩
        have hat : (pre ++ a :: rest)[pre.length]? = some a := by simp
        rw [List.append_assoc, List.length_append] at hrun
        rw [Node.get, hat, ← hrun]
        exact get_pass (fun r => ⟨_, _, rfl⟩) t
    | hash h =>
      obtain ⟨hmem, hrest⟩ := hn.resolve_right (by simp)
      cases hnode : db.node pre (bytesToHash h) with
      | error e =>
        refine ⟨.error e, [], ?_, .missing hnode⟩
        rw [Node.get, List.take_left, bind_apply, resolveAndTrack_missing hnode]
        rfl
      | ok blob =>
        obtain ⟨rn, hdec, hrn, hrnh⟩ := hS.load h pre blob hmem hnode
        have hl : Loaded E db h pre blob rn := ⟨hnode, hdec⟩
        have hsteps := Node.steps_of_ne hrnh
        obtain ⟨o, evs, hrun, hrel⟩ :=
          ih rn pre rest (t.record (.read pre blob)) (.inl ⟨hrn, hrest⟩) (by
            simp only [Node.steps] at hfuel
            omega)
        refine ⟨o, _, ?_, .hash hl hrel⟩
        rw [Node.get, List.take_left, bind_ok (hl.resolveAndTrack t), Tracer.recordAll_cons, ← hrun]
        exact get_pass (fun r => ⟨_, _, rfl⟩) _

/-! #### delete -/

theorem scanChildren_some (ch : Nibble → Node) (l : List Nibble) (p i : Nibble) :
    scanChildren ch l (some p) = some i ↔ p = i ∧ ∀ j ∈ l, ch j = .nil := by
  induction l with
  | nil => simp [scanChildren]
  | cons j l ih =>
    rw [scanChildren]
    by_cases hj : ch j = .nil
    · rw [if_pos (Node.isNil_iff.mpr hj), ih]
      simp [hj]
    · rw [if_neg (by rwa [Node.isNil_iff])]
      simp [hj]

theorem scanChildren_none (ch : Nibble → Node) (l : List Nibble) (hl : l.Nodup) (i : Nibble) :
    scanChildren ch l none = some i ↔ i ∈ l ∧ ∀ j ∈ l, ch j ≠ .nil ↔ j = i := by
  induction l with
  | nil => simp [scanChildren]
  | cons j l ih =>
    obtain ⟨hjl, hl⟩ := List.nodup_cons.mp hl
    rw [scanChildren]
    by_cases hj : ch j = .nil
    · rw [if_pos (Node.isNil_iff.mpr hj), ih hl]
      constructor
      · rintro ⟨hi, hall⟩
        refine ⟨List.mem_cons_of_mem j hi, ?_⟩
        intro x hx
        rcases List.mem_cons.mp hx with rfl | hx
        · simp only [hj, ne_eq, not_true_eq_false, false_iff]
          rintro rfl
          exact hjl hi
        · exact hall x hx
      · rintro ⟨hi, hall⟩
        have hji : j ≠ i := fun h => (hall j List.mem_cons_self).mpr h hj
        exact ⟨(List.mem_cons.mp hi).resolve_left (Ne.symm hji),
          fun x hx => hall x (List.mem_cons_of_mem j hx)⟩
    · -- `j` is the child found: the rest of the loop must not meet another
      rw [if_neg (by rwa [Node.isNil_iff]), scanChildren_some]
      constructor
      · rintro ⟨rfl, hall⟩
        refine ⟨List.mem_cons_self, ?_⟩
        intro x hx
        rcases List.mem_cons.mp hx with rfl | hxl
        · simp [hj]
        · simp only [hall x hxl, ne_eq, not_true_eq_false, false_iff]
          rintro rfl
          exact hjl hxl
      · rintro ⟨-, hall⟩
        obtain rfl := (hall j List.mem_cons_self).mp hj
        refine ⟨rfl, ?_⟩
        intro x hx
        by_contra hx0
        have hxj := (hall x (List.mem_cons_of_mem j hx)).mp hx0
        exact hjl (hxj ▸ hx)

theorem onlyChild_eq_some {i : Nibble} : onlyChild ch = some i ↔ OnlyChild ch i := by
  rw [onlyChild, scanChildren_none ch _ (List.nodup_finRange 17)]
  simp [OnlyChild]

theorem onlyChild_eq_none : onlyChild ch = none ↔ ∀ i, ¬ OnlyChild ch i := by
  rw [Option.eq_none_iff_forall_not_mem]
  exact forall_congr' fun i => not_congr onlyChild_eq_some

variable {t' : Tracer}

section Delete

variable (fuel : ℕ) (pre : Path) (t : Tracer)

theorem Node.delete_short_differ (n : Node) (fl : NodeFlag) (hk : ¬ k <+: key) :
    Node.delete E db (fuel + 1) (.short k n fl) pre key t = (.ok (false, .short k n fl), t) := by
  have hlt : prefixLen key k < k.length := by
    rcases prefix_or_fork key k with ⟨r, rfl⟩ | ⟨p, a, as, b, bs, hab, rfl, rfl⟩ | ⟨b, bs, rfl⟩
    · exact absurd (List.prefix_append k r) hk
    · rw [prefixLen_fork p as bs hab]
      simp
    · have hle : prefixLen key (key ++ b :: bs) ≤ key.length := by
        induction key with
        | nil => simp [prefixLen]
        | cons x key ih => simpa [prefixLen] using ih fun h => hk (by simpa using h)
      simp only [List.length_append, List.length_cons]
      omega
  rw [Node.delete, if_pos hlt]
  rfl

theorem Node.delete_short_whole (k : Path) (n : Node) (fl : NodeFlag) :
    Node.delete E db (fuel + 1) (.short k n fl) pre k t
      = (.ok (true, .nil), t.record (.del pre)) := by
  have hlen : prefixLen k k = k.length := by simpa using prefixLen_append k []
  rw [Node.delete, if_neg (by omega), if_pos hlen]
  rfl

theorem Node.delete_short_append (k : Path) {rest : Path} (n : Node) (fl : NodeFlag)
    (hne : rest ≠ []) :
    Node.delete E db (fuel + 1) (.short k n fl) pre (k ++ rest) t
      = (Node.delete E db fuel n (pre ++ k) rest >>= fun r =>
          if !r.1 then pure (false, .short k n fl)
          else
            match r.2 with
            | .short ckey cval _ => do
              trace (·.onDelete (pre ++ k))
              pure (true, .short (k ++ ckey) cval newFlag)
            | child => pure (true, .short k child newFlag)) t := by
  have hpos : 0 < rest.length := List.length_pos_iff.mpr hne
  have hlen := prefixLen_append k rest
  rewrite [Node.delete, if_neg (by omega), if_neg (by rw [hlen, List.length_append]; omega),
    List.take_left, List.drop_left]
  rfl

theorem Node.delete_full_gone {rest : Path} (fl : NodeFlag)
    (hrun : Node.delete E db fuel (ch a) (pre ++ [a]) rest t = (.ok (true, .nil), t')) :
    Node.delete E db (fuel + 1) (.full ch fl) pre (a :: rest) t
      = (match onlyChild (update ch a .nil) with
        | some pos =>
          if pos ≠ 16 then do
            let cnode ← resolve E db (update ch a .nil pos) (pre ++ [pos])
            match cnode with
            | .short ckey cval _ => do
              trace (·.onDelete (pre ++ [pos]))
              pure (true, .short (pos :: ckey) cval newFlag)
            | _ => pure (true, .short [pos] (update ch a .nil pos) newFlag)
          else pure (true, .short [pos] (update ch a .nil pos) newFlag)
        | none => pure (true, .full (update ch a .nil) newFlag) :
          TrieM (Bool × Node)) t' := by
  rw [Node.delete, bind_ok hrun]
  rfl

end Delete

theorem resolveAndTrack_eq_ok {t : Tracer} (hr : resolveAndTrack E db h pre t = (.ok rn, t')) :
    ∃ blob, Loaded E db h pre blob rn ∧ t' = t.record (.read pre blob) := by
  cases hnode : db.node pre (bytesToHash h) with
  | error => simp [resolveAndTrack_missing hnode] at hr
  | ok blob =>
    rw [resolveAndTrack, hnode, Prod.mk.injEq] at hr
    exact ⟨blob, ⟨hnode, hr.1⟩, hr.2.symm⟩

theorem resolve_eq_ok {t : Tracer} (hr : resolve E db n pre t = (.ok rn, t')) :
    ∃ evs, ResolveRun E db n pre rn evs ∧ t' = t.recordAll evs := by
  cases n with
  | hash =>
    obtain ⟨blob, hl, ht⟩ := resolveAndTrack_eq_ok hr
    exact ⟨_, .hash hl, ht⟩
  | _ =>
    simp only [resolve, TrieM.pure_apply, Prod.mk.injEq, Except.ok.injEq] at hr
    obtain ⟨rfl, rfl⟩ := hr
    exact ⟨[], .here (by simp), rfl⟩

theorem Node.delete_gone_sound {fuel : ℕ} {t : Tracer} {evs : List Event} {dirty : Bool} {n' : Node}
    (hrun : Node.delete E db fuel (ch a) (pre ++ [a]) rest t = (.ok (true, .nil), t.recordAll evs))
    (hrel : DeleteRun E db (ch a) (pre ++ [a]) rest true .nil evs)
    (h : Node.delete E db (fuel + 1) (.full ch fl) pre (a :: rest) t = (.ok (dirty, n'), t')) :
    ∃ evs', t' = t.recordAll evs' ∧ DeleteRun E db (.full ch fl) pre (a :: rest) dirty n' evs' := by
  rw [Node.delete_full_gone fuel pre t fl hrun] at h
  cases honly : onlyChild (update ch a .nil) with
  | none =>
    rw [honly] at h
    cases h
    exact ⟨evs, rfl, .fullMany hrel (onlyChild_eq_none.mp honly)⟩
  | some i =>
    have hi := onlyChild_eq_some.mp honly
    have hch : update ch a .nil i = ch i := update_of_ne hi.ne_gone ..
    rw [honly] at h
    simp only [hch] at h
    by_cases h16 : i = 16
    · subst h16
      cases h
      exact ⟨evs, rfl, .reduceValue hrel hi⟩
    · rw [if_pos h16] at h
      obtain ⟨c, t₂, hok, h⟩ := bind_eq_ok.mp h
      obtain ⟨evs', hres, rfl⟩ := resolve_eq_ok hok
      cases c with
      | short =>
        cases h
        refine ⟨_, ?_, .reduceMerge hrel hi h16 hres⟩
        rw [Tracer.recordAll_append, Tracer.recordAll_append]
        rfl
      | _ =>
        cases h
        refine ⟨_, ?_, .reduce hrel hi h16 hres (by simp)⟩
        rw [Tracer.recordAll_append]

/-- **What a successful `delete` does is a `DeleteRun`.** -/
theorem Node.delete_sound : ∀ (fuel : ℕ) (n : Node) (pre key : Path) (t : Tracer) (dirty : Bool)
    (n' : Node) (t' : Tracer), Node.delete E db fuel n pre key t = (.ok (dirty, n'), t') →
    ∃ evs, t' = t.recordAll evs ∧ DeleteRun E db n pre key dirty n' evs := by
  intro fuel
  induction fuel with
  | zero =>
    intro n pre key t dirty n' t' h
    simp [Node.delete] at h
  | succ fuel ih =>
    intro n pre key t dirty n' t' h
    cases n with
    | nil =>
      cases h
      exact ⟨[], rfl, .nil⟩
    | value =>
      cases h
      exact ⟨[], rfl, .value⟩
    | short k n fl =>
      by_cases hpre : k <+: key
      case neg =>
        rw [Node.delete_short_differ fuel pre t n fl hpre] at h
        cases h
        exact ⟨[], rfl, .differ hpre⟩
      obtain ⟨r, rfl⟩ := hpre
      rcases eq_or_ne r [] with rfl | hr
      · rw [List.append_nil, Node.delete_short_whole] at h
        cases h
        rw [List.append_nil]
        exact ⟨[.del pre], rfl, .whole⟩
      · rw [Node.delete_short_append fuel pre t k n fl hr] at h
        obtain ⟨⟨d, c⟩, t₁, hrun, h⟩ := bind_eq_ok.mp h
        obtain ⟨evs, rfl, hrel⟩ := ih _ _ _ _ _ _ _ hrun
        cases d with
        | false =>
          cases h
          exact ⟨evs, rfl, .shortSame hr hrel⟩
        | true =>
          cases c with
          | short =>
            cases h
            refine ⟨_, ?_, .shortMerge hr hrel⟩
            rw [Tracer.recordAll_append]
            rfl
          | _ =>
            cases h
            exact ⟨evs, rfl, .shortNew hr hrel (by simp)⟩
    | full =>
      cases key with
      | nil => simp [Node.delete] at h
      | cons =>
        have hstep := h
        rw [Node.delete] at h
        obtain ⟨⟨d, c⟩, t₁, hrun, h⟩ := bind_eq_ok.mp h
        obtain ⟨evs, rfl, hrel⟩ := ih _ _ _ _ _ _ _ hrun
        cases d with
        | false =>
          cases h
          exact ⟨evs, rfl, .fullSame hrel⟩
        | true =>
          by_cases hnil : c = .nil
          case neg =>
            have hnil' : c.isNil = false := by rwa [← Bool.not_eq_true, Node.isNil_iff]
            obtain ⟨⟨rfl, rfl⟩, rfl⟩ : (_ ∧ _) ∧ _ := by simpa [hnil'] using h
            exact ⟨evs, rfl, .fullNew hrel hnil⟩
          subst hnil
          exact Node.delete_gone_sound hrun hrel hstep
    | hash =>
      rw [Node.delete] at h
      obtain ⟨rn, t₁, hres, h⟩ := bind_eq_ok.mp h
      obtain ⟨blob, hl, rfl⟩ := resolveAndTrack_eq_ok hres
      obtain ⟨⟨d, c⟩, t₂, hrun, h⟩ := bind_eq_ok.mp h
      obtain ⟨evs, rfl, hrel⟩ := ih _ _ _ _ _ _ _ hrun
      cases d with
      | false =>
        cases h
        exact ⟨_, rfl, .hashSame hl hrel⟩
      | true =>
        cases h
        exact ⟨_, rfl, .hashNew hl hrel⟩

variable (hS : Complete E db S)

include hS

theorem Complete.resolve (hn : S n) (pre : Path) (t : Tracer) :
    ∃ rn t', MetaNode.resolve E db n pre t = (.ok rn, t') := by
  cases n with
  | hash h =>
    obtain ⟨blob, hnode⟩ := hS.present h pre hn
    obtain ⟨rn, hdec, hrn, -⟩ := hS.load h pre blob hn hnode
    exact ⟨rn, _, Loaded.resolveAndTrack ⟨hnode, hdec⟩ t⟩
  | _ => exact ⟨_, t, rfl⟩

theorem Complete.delete_gone {fuel : ℕ} {t t₁ : Tracer} (hn : S (.full ch fl))
    (hrun : Node.delete E db fuel (ch a) (pre ++ [a]) rest t = (.ok (true, .nil), t₁)) :
    ∃ r t', Node.delete E db (fuel + 1) (.full ch fl) pre (a :: rest) t = (.ok r, t') := by
  rw [Node.delete_full_gone fuel pre t fl hrun]
  cases honly : onlyChild (update ch a .nil) with
  | none => exact ⟨_, _, rfl⟩
  | some i =>
    have hi := onlyChild_eq_some.mp honly
    have hch : update ch a .nil i = ch i := update_of_ne hi.ne_gone ..
    simp only [hch]
    by_cases h16 : i = 16
    · rw [if_neg (by simpa using h16)]
      exact ⟨_, _, rfl⟩
    · obtain ⟨c, t₂, hres⟩ := hS.resolve (hS.child ch fl i hn h16) (pre ++ [i]) t₁
      rw [if_pos h16, bind_ok hres]
      cases c <;> exact ⟨_, _, rfl⟩

theorem Node.delete_total :
    ∀ (fuel : ℕ) (n : Node) (pre key : Path) (t : Tracer),
      (S n ∧ Terminated 16 key ∨ key = [] ∧ (n = .nil ∨ ∃ v, n = .value v)) →
      2 * key.length + n.steps ≤ fuel →
      ∃ r t', Node.delete E db fuel n pre key t = (.ok r, t') := by
  intro fuel
  induction fuel with
  | zero =>
    intro n pre key t _ hfuel
    cases n <;> simp [Node.steps] at hfuel
  | succ fuel ih =>
    intro n pre key t hn hfuel
    -- below the terminator of the key there is a value or nothing
    rcases hn with ⟨hn, hk⟩ | ⟨rfl, rfl | ⟨v, rfl⟩⟩
    case inr.inl => exact ⟨_, _, rfl⟩
    case inr.inr => exact ⟨_, _, rfl⟩
    have hne := hk.ne_nil
    cases n with
    | nil => exact ⟨_, _, rfl⟩
    | value w => exact absurd hn (hS.value w)
    | short k n fl =>
      by_cases hpre : k <+: key
      · obtain ⟨r, rfl⟩ := hpre
        rcases eq_or_ne r [] with rfl | hr
        · rw [List.append_nil, Node.delete_short_whole]
          exact ⟨_, _, rfl⟩
        · have hrest := (hS.rest hn hk).resolve_right fun h => hr h.1
          have hlen : 0 < k.length := List.length_pos_iff.mpr (hS.key_ne_nil hn)
          have hsteps := n.steps_le
          obtain ⟨⟨dirty, n'⟩, t₁, hrun⟩ := ih n (pre ++ k) r t (.inl hrest) (by
            simp only [List.length_append, Node.steps] at hfuel
            omega)
          rw [Node.delete_short_append fuel pre t k n fl hr, bind_ok hrun]
          cases dirty with
          | false => exact ⟨_, _, rfl⟩
          | true => cases n' <;> exact ⟨_, _, rfl⟩
      · rw [Node.delete_short_differ fuel pre t n fl hpre]
        exact ⟨_, _, rfl⟩
    | full ch fl =>
      obtain ⟨a, rest, rfl⟩ := List.exists_cons_of_ne_nil hne
      have hsteps := (ch a).steps_le
      have hnext : S (ch a) ∧ Terminated 16 rest ∨
          rest = [] ∧ (ch a = .nil ∨ ∃ v, ch a = .value v) := by
        rcases terminated_cons.mp hk with ⟨rfl, rfl⟩ | ⟨ha, hr⟩
        · exact .inr ⟨rfl, hS.lastValue ch fl hn⟩
        · exact .inl ⟨hS.child ch fl a hn ha, hr⟩
      obtain ⟨⟨dirty, n'⟩, t₁, hrun⟩ := ih (ch a) (pre ++ [a]) rest t hnext (by
        simp only [List.length_cons, Node.steps] at hfuel
        omega)
      -- only if the child is gone is another child looked at
      by_cases hgone : dirty = true ∧ n' = .nil
      · obtain ⟨rfl, rfl⟩ := hgone
        exact hS.delete_gone hn hrun
      · rw [Node.delete, bind_ok hrun]
        cases dirty with
        | false => exact ⟨_, _, rfl⟩
        | true =>
          have hnil : n'.isNil = false := by
            rw [← Bool.not_eq_true, Node.isNil_iff]
            exact fun h => hgone ⟨rfl, h⟩
          simp [hnil]
    | hash h =>
      obtain ⟨blob, hnode⟩ := hS.present h pre hn
      obtain ⟨rn, hdec, hrn, hrnh⟩ := hS.load h pre blob hn hnode
      have hl : Loaded E db h pre blob rn := ⟨hnode, hdec⟩
      have hsteps := Node.steps_of_ne hrnh
      obtain ⟨⟨dirty, n'⟩, t₁, hrun⟩ :=
        ih rn pre key (t.record (.read pre blob)) (.inl ⟨hrn, hk⟩) (by
          simp only [Node.steps] at hfuel
          omega)
      rw [Node.delete, bind_ok (hl.resolveAndTrack t), bind_ok hrun]
      cases dirty <;> exact ⟨_, _, rfl⟩

theorem Node.delete_run {fuel : ℕ} (pre : Path) (t : Tracer) (hn : S n)
    (hk : Terminated 16 key) (hfuel : 2 * key.length + n.steps ≤ fuel) :
    ∃ dirty n' evs, Node.delete E db fuel n pre key t = (.ok (dirty, n'), t.recordAll evs) ∧
      DeleteRun E db n pre key dirty n' evs := by
  obtain ⟨⟨dirty, n'⟩, t', hrun⟩ := Node.delete_total hS fuel n pre key t (.inl ⟨hn, hk⟩) hfuel
  obtain ⟨evs, rfl, hrel⟩ := Node.delete_sound fuel n pre key t dirty n' t' hrun
  exact ⟨dirty, n', evs, hrun, hrel⟩

end MetaNode
