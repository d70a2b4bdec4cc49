/-
Receipts in the trie and in the database.

The trie of a collection holds the tree `receiptTree` of what was added up to the
last `IntermediateRoot`, `Commit` puts that tree into the database beside the trees
of all earlier calls of `Commit`, and `GetReceipt` looks first into the map and then
into the trie.

* `Session.sound_run` — what holds after any run of calls.

Assumed are receipts that name a transaction and `Ideal` on what the tries of the
calls of `Commit` hash.
-/
import MetaNode.Receipts

namespace MetaNode

open KeyedLog Patricia Patricia.Tree MerklePatriciaTrie

variable {E : Env} {db : DB}

/-! ### The tree of a log -/

/-- The tree after the receipts of a log were put into a trie. -/
noncomputable def receiptTree (E : Env) (log : List Receipt) : KeyTree :=
  putAll E true .empty (trieUpdates E log)

/-- The hash under which a trie with hashed keys looks for a key. -/
def hashedKey (E : Env) (key : Bytes) : Hash :=
  ⟨hashKey E true key, by
    rw [hashKey]
    split
    · next h => simpa using h
    · exact (E.keccak256 key).2⟩

theorem hashedKey_val (h : Hash) : hashedKey E h.1 = h :=
  Subtype.ext (if_pos (.inl h.2))

section Tree

variable {log log' : List Receipt}

theorem lastUpdate_trieUpdates (hlog : ∀ receipt ∈ log, receipt.Named) (key : Bytes) :
    lastUpdate E true (trieUpdates E log) key
      = (latest Receipt.transactionHash log (hashedKey E key)).map (Receipt.marshal · E) := by
  induction log using List.reverseRecOn with
  | nil => rfl
  | append_singleton log receipt ih =>
    have hkey : hashKey E true receipt.transactionHash.1 = hashKey E true key ↔
        receipt.transactionHash = hashedKey E key := by
      have hval : hashKey E true receipt.transactionHash.1 = receipt.transactionHash.1 :=
        congrArg Subtype.val (hashedKey_val receipt.transactionHash)
      rw [hval]
      exact ⟨fun h => Subtype.ext h, fun h => congrArg Subtype.val h⟩
    rw [trieUpdates, List.map_append, List.map_singleton, lastUpdate_concat, latest_concat,
      nilIfEmpty_of_ne ((hlog receipt (by simp)).marshal_ne_nil E), ← trieUpdates,
      ih fun r hr => hlog r (List.mem_append_left _ hr)]
    by_cases h : receipt.transactionHash = hashedKey E key
    · rw [if_pos (hkey.mpr h), if_pos h]
      rfl
    · rw [if_neg (mt hkey.mp h), if_neg h]

theorem receiptTree_congr (hlog : ∀ receipt ∈ log, receipt.Named)
    (hlog' : ∀ receipt ∈ log', receipt.Named)
    (h : ∀ hash,
      latest Receipt.transactionHash log hash = latest Receipt.transactionHash log' hash) :
    receiptTree E log = receiptTree E log' := by
  refine putAll_eq fun key => ?_
  rw [lastUpdate_trieUpdates hlog, lastUpdate_trieUpdates hlog', h]

theorem canonical_receiptTree (E : Env) (log : List Receipt) : Canonical 16 (receiptTree E log) :=
  canonical_putAll .empty true _

theorem noLast_receiptTree (E : Env) (log : List Receipt) : NoLast (receiptTree E log) := by
  have hlen : ∀ op ∈ trieUpdates E log, op.1.length = 32 := by
    intro op hop
    obtain ⟨receipt, -, rfl⟩ := List.mem_map.mp hop
    exact receipt.transactionHash.2
  exact noLast_of_uniform (canonical_receiptTree E log)
    (uniform_putAll .empty (uniform_empty _) _ hlen)

def logEncodings (E : Env) (log : List Receipt) : List Bytes :=
  (memoryTrie E (fun _ => none) true (trieUpdates E log)).root.encodings E

theorem mem_logEncodings {p : Path} {S : KeyTree} (h : NodeAt (receiptTree E log) p S) :
    hashEnc E S ∈ logEncodings E log :=
  (memoryTrie_represents E (fun _ => none) true _).loads.mem_encodings
    (canonical_receiptTree E log) h

end Tree

/-! ### Trees in the database -/

/-- The tree of the log can be opened from its root. -/
def Stored (E : Env) (db : DB) (log : List Receipt) : Prop := Available E db (receiptTree E log)

variable {log : List Receipt}

theorem Stored.new (h : Stored E db log) :
    ∃ t, MerklePatriciaTrie.new E db (rootHash E (receiptTree E log)) true = .ok t ∧
      t.isHash = true ∧ t.reader = db ∧ Represents E (OnDisk E db) t (receiptTree E log) := by
  obtain ⟨t, hnew, hh, hreader, hfresh⟩ := Available.new h true
  have hrep := hfresh.represents
  rw [hreader] at hrep
  exact ⟨t, hnew, hh, hreader, hrep⟩

theorem stored_nil (E : Env) (db : DB) : Stored E db [] := .inl rfl

theorem batchPut_eq_storeAll {l : List NodeWrapper}
    (h : ∀ w ∈ l, w.hash = FixedBytes.zero 32 ↔ w.isDeleted = true) (db : DB) :
    Receipts.batchPut db l = storeAll db l := by
  induction l generalizing db with
  | nil => rfl
  | cons w l ih =>
    have hw := h w List.mem_cons_self
    have ih' := ih fun w' hw' => h w' (List.mem_cons_of_mem w hw')
    show _ = storeAll (if w.isDeleted then db else Function.update db w.hash (some w.blob)) l
    rw [← ih', Receipts.batchPut, Receipts.batchPut]
    by_cases hdel : w.isDeleted = true
    · rw [List.filter_cons_of_neg (by simpa using hw.mpr hdel), if_pos hdel]
    · rw [List.filter_cons_of_pos (by simpa using mt hw.mp hdel), if_neg hdel, List.foldl_cons]

namespace Receipts

/-! ### Single calls -/

/-- The collection holds the receipts `flushed` in its trie and `pending` in its
map. -/
structure Keeps (E : Env) (r : Receipts) (flushed pending : List Receipt) : Prop where
  dirty : r.Dirty pending
  named : ∀ receipt ∈ flushed ++ pending, receipt.Named
  reader : r.trie.reader = r.db
  isHash : r.trie.isHash = true
  trie : Represents E (OnDisk E r.db) r.trie (receiptTree E flushed)

/-- Neither the database nor the root that `Discard` goes back to has changed. -/
structure Frame (r r' : Receipts) : Prop where
  db : r'.db = r.db
  originRootHash : r'.originRootHash = r.originRootHash

variable {r : Receipts} {flushed pending : List Receipt}

/-- What `GetReceipt` returns. -/
def answer (log : List Receipt) (hash : Hash) : Receipt :=
  (latest Receipt.transactionHash log hash).getD ⟨.new⟩

section

variable (h : Keeps E r flushed pending)

include h

theorem Keeps.addReceipts {receipts : List Receipt} (hnew : ∀ receipt ∈ receipts, receipt.Named) :
    Keeps E (r.addReceipts receipts) flushed (pending ++ receipts) ∧
      Frame r (r.addReceipts receipts) := by
  induction receipts generalizing r pending with
  | nil =>
    rw [List.append_nil]
    exact ⟨h, rfl, rfl⟩
  | cons receipt receipts ih =>
    have hnamed : ∀ receipt' ∈ flushed ++ (pending ++ [receipt]), receipt'.Named := by
      intro receipt' hmem
      rw [← List.append_assoc, List.mem_append, List.mem_singleton] at hmem
      rcases hmem with hmem | rfl
      · exact h.named receipt' hmem
      · exact hnew receipt' List.mem_cons_self
    have hone : Keeps E (r.setDirtyReceipt receipt) flushed (pending ++ [receipt]) :=
      ⟨h.dirty.insert receipt, hnamed, h.reader, h.isHash, h.trie⟩
    obtain ⟨hkeeps, hdb, horigin⟩ :=
      ih hone fun r' hr' => hnew r' (List.mem_cons_of_mem receipt hr')
    rw [List.append_cons]
    exact ⟨hkeeps, hdb, horigin⟩

theorem Keeps.getReceipt (hash : Hash) :
    (r.getReceipt E hash).1 = .ok (answer (flushed ++ pending) hash) ∧
      Keeps E (r.getReceipt E hash).2 flushed pending ∧ Frame r (r.getReceipt E hash).2 := by
  have hmap := h.dirty hash
  rw [Receipts.getReceipt, answer, latest_append]
  cases hp : latest Receipt.transactionHash pending hash with
  | some =>
    rw [hmap, hp]
    exact ⟨rfl, h, rfl, rfl⟩
  | none =>
    -- the trie is asked
    have hflushed : ∀ receipt ∈ flushed, receipt.Named :=
      fun receipt hr => h.named receipt (List.mem_append_left _ hr)
    obtain ⟨evs, hget, -⟩ := get_represents h.trie hash.1
    have hvalue : ((receiptTree E flushed).lookup (hexKey E r.trie.isHash hash.1)).map Subtype.val
        = (latest Receipt.transactionHash flushed hash).map (Receipt.marshal · E) := by
      rw [h.isHash, receiptTree, lookup_putAll, lastUpdate_trieUpdates hflushed, hashedKey_val]
    rw [hvalue] at hget
    have hkeeps : Keeps E { r with trie := { r.trie with tracer := r.trie.tracer.recordAll evs } }
        flushed pending :=
      ⟨h.dirty, h.named, h.reader, h.isHash,
        ⟨h.trie.uncommitted, h.trie.loads, h.trie.canonical, h.trie.holds⟩⟩
    rw [hmap, hp, hget]
    cases latest Receipt.transactionHash flushed hash with
    | none =>
      have hempty : Receipt.unmarshal E [] = some ⟨.new⟩ := by
        rw [Receipt.unmarshal, Pb.Receipt.unmarshal_nil]
        rfl
      dsimp only [Option.map_none, Option.getD_none]
      rw [hempty]
      exact ⟨rfl, hkeeps, rfl, rfl⟩
    | some =>
      dsimp only [Option.map_some, Option.getD_some]
      rw [Receipt.unmarshal_marshal]
      exact ⟨rfl, hkeeps, rfl, rfl⟩

theorem Keeps.receiptsRoot :
    (r.receiptsRoot E).1 = rootHash E (receiptTree E flushed) ∧
      Keeps E (r.receiptsRoot E).2 flushed pending ∧ Frame r (r.receiptsRoot E).2 := by
  obtain ⟨hroot, hrep, heq⟩ := hash_represents h.trie
  refine ⟨hroot, ⟨h.dirty, h.named, ?_, ?_, hrep⟩, rfl, rfl⟩
  · show (r.trie.hash E).2.reader = r.db
    rw [heq]
    exact h.reader
  · show (r.trie.hash E).2.isHash = true
    rw [heq]
    exact h.isHash

/-- **`IntermediateRoot` puts the map into the trie**, in any order. -/
theorem Keeps.intermediateRoot (walk : Walk Receipt) :
    ∃ r', r.intermediateRoot E walk = (.ok (rootHash E (receiptTree E (flushed ++ pending))), r') ∧
      Keeps E r' (flushed ++ pending) [] ∧ Frame r r' := by
  by_cases hempty : (values r.dirtyReceipts).length = 0
  · obtain rfl := h.dirty.eq_nil hempty
    obtain ⟨hroot, hkeeps, hframe⟩ := h.receiptsRoot
    rw [Receipts.intermediateRoot, if_pos hempty, List.append_nil, ← hroot]
    exact ⟨_, rfl, hkeeps, hframe⟩
  · set walked := walk.order (values r.dirtyReceipts) with hwalked
    obtain ⟨t, hupd, hrep, hreader, hh⟩ := updateAll_represents h.trie (trieUpdates E walked)
    have hlatest := h.dirty.latest_values (walk.perm _)
    have hmem : ∀ receipt ∈ walked, receipt.Named := by
      intro receipt hr
      obtain ⟨e, he, rfl⟩ := List.mem_map.mp ((walk.perm _).mem_iff.mp hr)
      have hlook := AList.mem_lookup_iff.mpr he
      rw [h.dirty] at hlook
      exact h.named _ (List.mem_append_right _ (mem_of_latest hlook))
    -- the walked receipts answer as those that were added
    have htree : putAll E r.trie.isHash (receiptTree E flushed) (trieUpdates E walked)
        = receiptTree E (flushed ++ pending) := by
      rw [h.isHash, receiptTree, ← putAll_append, trieUpdates, trieUpdates, ← List.map_append]
      show receiptTree E (flushed ++ walked) = _
      refine receiptTree_congr ?_ h.named fun hash => ?_
      · intro receipt hr
        rcases List.mem_append.mp hr with hr | hr
        · exact h.named receipt (List.mem_append_left _ hr)
        · exact hmem receipt hr
      · rw [latest_append, latest_append, hlatest]
    rw [htree] at hrep
    have hkeeps : Keeps E { r with trie := t, dirtyReceipts := ∅ } (flushed ++ pending) [] :=
      ⟨reflects_empty, by simpa using h.named, hreader.trans h.reader, hh.trans h.isHash, hrep⟩
    obtain ⟨hroot, hkeeps', hdb, horigin⟩ := hkeeps.receiptsRoot
    rw [Receipts.intermediateRoot, if_neg hempty, ← hwalked, hupd, ← hroot]
    exact ⟨_, rfl, hkeeps', hdb, horigin⟩

/-- **`Commit` writes the tree and keeps the trees that are there.** -/
theorem Keeps.commit (walk : Walk Receipt) (store : Walk NodeWrapper) {encodings : List Bytes}
    (hlog : logEncodings E (flushed ++ pending) ⊆ encodings) (hK : Ideal E.keccak256 encodings) :
    ∃ r', r.commit E walk store = (.ok (rootHash E (receiptTree E (flushed ++ pending))), r') ∧
      Keeps E r' (flushed ++ pending) [] ∧
      r'.originRootHash = rootHash E (receiptTree E (flushed ++ pending)) ∧
      Stored E r'.db (flushed ++ pending) ∧
      ∀ old, Stored E r.db old → logEncodings E old ⊆ encodings → Stored E r'.db old := by
  set T := receiptTree E (flushed ++ pending) with hT
  have hcanonical : Canonical 16 T := canonical_receiptTree E _
  have hlast : NoLast T := noLast_receiptTree E _
  have hmem : ∀ {p S}, NodeAt T p S → hashEnc E S ∈ encodings :=
    fun hS => hlog (mem_logEncodings hS)
  obtain ⟨r₁, hroot, hkeeps, hdb, -⟩ := h.intermediateRoot walk
  obtain ⟨set, hcommit, hset⟩ := commit_collected hkeeps.trie true
  set l := store.order (entries set) with hl
  have hperm : l.Perm (entries set) := store.perm _
  -- the entries of the node set: nodes of the tree, and deletions
  have hentry : ∀ w ∈ l, (∃ p S, NodeAt T p S ∧ w = wrapper E S) ∨ w = .newDeleted := by
    intro w hw
    rcases hset.of_mem (hperm.mem_iff.mp hw) with ⟨x, hx, rfl⟩ | rfl
    · exact .inl ⟨x.1, x.2, dirtyNodes_nodeAt hkeeps.trie.loads hx, rfl⟩
    · exact .inr rfl
  have hput : batchPut r₁.db l = storeAll r₁.db l := by
    refine batchPut_eq_storeAll (fun w hw => ?_) r₁.db
    rcases hentry w hw with ⟨p, S, hS, rfl⟩ | rfl
    · have hzero : (wrapper E S).hash ≠ FixedBytes.zero 32 := hK.ne_zero _ (hmem hS)
      simp [hzero, wrapper_not_deleted hS.isNode]
    · decide
  have hstored : Stored E (storeAll r₁.db l) (flushed ++ pending) :=
    available_storeAll hkeeps.trie.loads hcanonical hlast hmem hK hset.writes hperm
      (dirty_or_stored hkeeps.trie)
  obtain ⟨t, hnew, hh, hreader, hrep⟩ := hstored.new
  refine ⟨⟨t, storeAll r₁.db l, rootHash E T, r₁.dirtyReceipts⟩, ?_,
    ⟨hkeeps.dirty, hkeeps.named, hreader, hh, hrep⟩, rfl, hstored, ?_⟩
  · rw [Receipts.commit, hroot]
    dsimp only
    rw [hcommit]
    dsimp only
    rw [if_neg (by simp), ← hl, hput, hnew]
  · intro old hold hsub
    rcases hold with hempty | ⟨hdisk, hne⟩
    · exact .inl hempty
    · refine .inr ⟨?_, hne⟩
      rw [← hdb] at hdisk
      refine hdisk.storeAll hcanonical hlast (fun w hw hdel => ?_) fun hS hS' he =>
        hK.inj _ (hmem hS') _ (hsub (mem_logEncodings hS)) he
      rcases hentry w hw with hS | rfl
      · exact hS
      · exact absurd hdel (by decide)

end

theorem keeps_of_stored (h : Stored E db log) (hnamed : ∀ receipt ∈ log, receipt.Named) :
    ∃ r, newReceiptsFromRoot E (rootHash E (receiptTree E log)) db = .ok r ∧
      Keeps E r log [] ∧ r.db = db ∧ r.originRootHash = rootHash E (receiptTree E log) := by
  obtain ⟨t, hnew, hh, hreader, hrep⟩ := h.new
  refine ⟨⟨t, db, rootHash E (receiptTree E log), ∅⟩, ?_,
    ⟨reflects_empty, by simpa using hnamed, hreader, hh, hrep⟩, rfl, rfl⟩
  rw [newReceiptsFromRoot, hnew]

theorem discard_stored (h : Stored E r.db log) (hnamed : ∀ receipt ∈ log, receipt.Named)
    (horigin : r.originRootHash = rootHash E (receiptTree E log)) :
    ∃ r', r.discard E = (.ok (), r') ∧ Keeps E r' log [] ∧ Frame r r' := by
  obtain ⟨t, hnew, hh, hreader, hrep⟩ := h.new
  refine ⟨{ r with trie := t, dirtyReceipts := ∅ }, ?_,
    ⟨reflects_empty, by simpa using hnamed, hreader, hh, hrep⟩, rfl, rfl⟩
  rw [discard, horigin, hnew]

end Receipts

/-! ### Runs -/

namespace Session

open Receipts

variable {s s' : Session}

/-- The bytes hashed for the tries of all calls of `Commit`. -/
def hashed (E : Env) (s : Session) : List Bytes := s.commits.flatMap fun c => logEncodings E c.1

theorem logEncodings_subset {c : List Receipt × Except ReceiptsError Hash} (h : c ∈ s.commits) :
    logEncodings E c.1 ⊆ s.hashed E :=
  fun _ hb => List.mem_flatMap.mpr ⟨c, h, hb⟩

theorem commits_step (s : Session) (op : ReceiptsOp) : s.commits ⊆ (s.step E op).commits := by
  cases op with
  | addReceipt | addReceipts => exact List.Subset.refl _
  | updateExecuteResultToReceipt | intermediateRoot | discard =>
    rw [step]
    split
    · exact List.Subset.refl _
    · exact List.Subset.refl _
  | getReceipt => exact List.Subset.refl _
  | commit =>
    rw [step]
    split
    · exact List.subset_append_left _ _
    · exact List.subset_append_left _ _
  | reload =>
    rw [step]
    split
    · split
      · exact List.Subset.refl _
      · exact List.Subset.refl _
    · exact List.Subset.refl _

/-- What is true after every call. -/
structure Sound (E : Env) (s : Session) : Prop where
  keeps : Keeps E s.receipts s.flushed s.pending
  origin : s.receipts.originRootHash = s.baseRoot
  baseRoot : s.baseRoot = rootHash E (receiptTree E s.base)
  base : s.base = [] ∨ ∃ c ∈ s.commits, c.1 = s.base
  result : ∀ c ∈ s.commits, c.2 = .ok (rootHash E (receiptTree E c.1))
  stored : ∀ c ∈ s.commits, Stored E s.receipts.db c.1
  named : ∀ c ∈ s.commits, ∀ receipt ∈ c.1, receipt.Named

section

variable (h : Sound E s)

include h

theorem Sound.stored_base : Stored E s.receipts.db s.base := by
  rcases h.base with hbase | ⟨c, hc, hbase⟩
  · rw [hbase]
    exact stored_nil E _
  · exact hbase ▸ h.stored c hc

theorem Sound.named_base : ∀ receipt ∈ s.base, receipt.Named := by
  rcases h.base with hbase | ⟨c, hc, hbase⟩
  · simp [hbase]
  · exact hbase ▸ h.named c hc

theorem Sound.of_frame (hframe : Frame s.receipts s'.receipts)
    (hkeeps : Keeps E s'.receipts s'.flushed s'.pending)
    (hsame : (s'.base, s'.baseRoot, s'.commits) = (s.base, s.baseRoot, s.commits)) :
    Sound E s' := by
  rw [Prod.mk.injEq, Prod.mk.injEq] at hsame
  obtain ⟨hbase, hroot, hcommits⟩ := hsame
  refine ⟨hkeeps, ?_, ?_, ?_, ?_, ?_, ?_⟩
  · rw [hframe.originRootHash, h.origin, hroot]
  · rw [hroot, hbase, h.baseRoot]
  · rw [hbase, hcommits]
    exact h.base
  · rw [hcommits]
    exact h.result
  · rw [hcommits, hframe.db]
    exact h.stored
  · rw [hcommits]
    exact h.named

theorem Sound.addReceipts {receipts : List Receipt}
    (hnew : ∀ receipt ∈ receipts, receipt.Named) : Sound E (s.step E (.addReceipts receipts)) := by
  obtain ⟨hkeeps, hframe⟩ := h.keeps.addReceipts hnew
  exact h.of_frame hframe hkeeps rfl

theorem Sound.commit (walk : Walk Receipt) (store : Walk NodeWrapper)
    (hK : Ideal E.keccak256 ((s.step E (.commit walk store)).hashed E)) :
    Sound E (s.step E (.commit walk store)) := by
  have hold : ∀ c ∈ s.commits, logEncodings E c.1 ⊆ (s.step E (.commit walk store)).hashed E :=
    fun c hc => logEncodings_subset (commits_step s _ hc)
  have hlog : logEncodings E s.log ⊆ (s.step E (.commit walk store)).hashed E := by
    have hmem : ∃ c ∈ (s.step E (.commit walk store)).commits, c.1 = s.log := by
      rw [step]
      split
      · exact ⟨_, List.mem_append_right _ (List.mem_singleton.mpr rfl), rfl⟩
      · exact ⟨_, List.mem_append_right _ (List.mem_singleton.mpr rfl), rfl⟩
    obtain ⟨c, hc, hlog⟩ := hmem
    rw [← hlog]
    exact logEncodings_subset hc
  obtain ⟨r, hcommit, hkeeps, horigin, hstored, hrest⟩ := h.keeps.commit walk store hlog hK
  rw [step, hcommit]
  have hrest' : ∀ c ∈ s.commits, Stored E r.db c.1 :=
    fun c hc => hrest c.1 (h.stored c hc) (hold c hc)
  refine ⟨hkeeps, horigin, rfl, .inr ⟨_, List.mem_append_right _ (List.mem_singleton.mpr rfl), rfl⟩,
    ?_, ?_, ?_⟩
  · exact List.forall_mem_append.mpr ⟨h.result, List.forall_mem_singleton.mpr rfl⟩
  · exact List.forall_mem_append.mpr ⟨hrest', List.forall_mem_singleton.mpr hstored⟩
  · exact List.forall_mem_append.mpr ⟨h.named, List.forall_mem_singleton.mpr h.keeps.named⟩

theorem Sound.reload (i : ℕ) : Sound E (s.step E (.reload i)) := by
  rw [step]
  split
  · next log root hi =>
    have hc := List.mem_of_getElem? hi
    obtain rfl : root = rootHash E (receiptTree E log) := Except.ok.inj (h.result _ hc)
    obtain ⟨r, hnew, hkeeps, hdb, horigin⟩ := keeps_of_stored (h.stored _ hc) (h.named _ hc)
    have hroot := hkeeps.receiptsRoot.1
    rw [hnew]
    refine ⟨hkeeps, horigin.trans hroot.symm, hroot, .inr ⟨_, hc, rfl⟩, h.result, ?_, h.named⟩
    show ∀ c ∈ s.commits, Stored E r.db c.1
    rw [hdb]
    exact h.stored
  · exact h

/-- **Every call keeps the invariant.** -/
theorem Sound.step {op : ReceiptsOp} (hop : ∀ receipt ∈ op.added, receipt.Named)
    (hK : Ideal E.keccak256 ((s.step E op).hashed E)) : Sound E (s.step E op) := by
  cases op with
  | addReceipt | addReceipts => exact h.addReceipts hop
  | updateExecuteResultToReceipt hash res =>
    rcases step_update E h.keeps.dirty hash res with hstep | ⟨receipt, hmem, hstep⟩
    · rw [hstep]
      exact h
    · have hnamed := (h.keeps.named receipt hmem).updateExecuteResult res
      rw [hstep]
      exact h.addReceipts fun _ hr => List.mem_singleton.mp hr ▸ hnamed
  | getReceipt hash =>
    obtain ⟨-, hkeeps, hframe⟩ := h.keeps.getReceipt hash
    exact h.of_frame hframe hkeeps rfl
  | intermediateRoot walk =>
    obtain ⟨r, hroot, hkeeps, hframe⟩ := h.keeps.intermediateRoot walk
    rw [Session.step, hroot]
    exact h.of_frame hframe hkeeps rfl
  | commit walk store => exact h.commit walk store hK
  | discard =>
    obtain ⟨r, hdiscard, hkeeps, hframe⟩ :=
      discard_stored h.stored_base h.named_base (h.origin.trans h.baseRoot)
    rw [Session.step, hdiscard]
    exact h.of_frame hframe hkeeps rfl
  | reload i => exact h.reload i

end

variable {r : Receipts}

theorem sound_start (hr : newReceipts E db = .ok r) : Sound E (start E r) := by
  rw [newReceipts_eq, Except.ok.injEq] at hr
  subst hr
  have hkeeps : Keeps E ⟨emptyTrie db true, db, emptyRootHash, ∅⟩ [] [] :=
    ⟨reflects_empty, by simp, rfl, rfl, (fresh_emptyTrie E db true).represents⟩
  exact ⟨hkeeps, rfl, rfl, .inl rfl, by simp [start], by simp [start], by simp [start]⟩

theorem sound_run (hr : newReceipts E db = .ok r) (ops : List ReceiptsOp)
    (hops : ∀ op ∈ ops, ∀ receipt ∈ op.added, receipt.Named)
    (hK : Ideal E.keccak256 (((start E r).run E ops).hashed E)) :
    Sound E ((start E r).run E ops) := by
  induction ops using List.reverseRecOn with
  | nil => exact sound_start hr
  | append_singleton ops op ih =>
    rw [run_concat] at hK ⊢
    -- what is hashed only grows
    have hsub : ((start E r).run E ops).hashed E ⊆
        (((start E r).run E ops).step E op).hashed E := by
      intro b hb
      obtain ⟨c, hc, hb⟩ := List.mem_flatMap.mp hb
      exact logEncodings_subset (commits_step _ op hc) hb
    exact (ih (fun op' h' => hops op' (List.mem_append_left _ h')) (hK.mono hsub)).step
      (hops op (by simp)) hK

/-- What `GetReceipt` is to return: the last receipt of the hash, or the error. -/
def expected (log : List Receipt) (hash : Hash) : Except ReceiptsError Receipt :=
  match latest Receipt.transactionHash log hash with
  | some receipt => .ok receipt
  | none => .error .receiptNotFound

/-- **`GetReceipt` finds what was added, and never reports what was not.**  After any
calls on a new collection it returns without an error, and what it returns is right
just for the hashes of which a receipt was added. -/
theorem getReceipt_answers_iff (hr : newReceipts E db = .ok r)
    (ops : List ReceiptsOp) (hops : ∀ op ∈ ops, ∀ receipt ∈ op.added, receipt.Named)
    (hK : Ideal E.keccak256 (((start E r).run E ops).hashed E)) (hash : Hash) :
    (((start E r).run E ops).receipts.getReceipt E hash).1
        = .ok (answer ((start E r).run E ops).log hash) ∧
      ((((start E r).run E ops).receipts.getReceipt E hash).1
          = expected ((start E r).run E ops).log hash ↔
        hash ∈ ((start E r).run E ops).log.map Receipt.transactionHash) := by
  have hs := sound_run hr ops hops hK
  set s := (start E r).run E ops
  obtain ⟨hget, -⟩ := hs.keeps.getReceipt hash
  refine ⟨hget, ?_⟩
  rw [hget, expected, answer, ← log, ← not_iff_not, ← latest_eq_none_iff]
  cases latest Receipt.transactionHash s.log hash with
  | some | none => simp

/-- Two calls of `Commit`, of which the second replaces a receipt, and a receipt that is
dropped again. -/
def storeRun : List ReceiptsOp :=
  [.addReceipt (exampleReceipt 1 5), .commit .id .id,
    .addReceipts [exampleReceipt 2 7, exampleReceipt 1 6],
    .updateExecuteResultToReceipt (exampleReceipt 2 7).transactionHash ⟨.returned, [1], 0, 8, []⟩,
    .commit .id ⟨List.reverse, List.reverse_perm⟩, .addReceipt (exampleReceipt 3 1),
    .intermediateRoot .id, .discard, .addReceipt (exampleReceipt 18 2)]

theorem named_storeRun : ∀ op ∈ storeRun, ∀ receipt ∈ op.added, receipt.Named := by
  decide

theorem ideal_storeRun :
    Ideal stdEnv.keccak256
      (((start stdEnv exampleReceipts).run stdEnv storeRun).hashed stdEnv) := by
  decide +kernel

theorem getReceipt_answers_iff_storeRun :
    (((start stdEnv exampleReceipts).run stdEnv storeRun).receipts.getReceipt stdEnv
        (exampleReceipt 1 6).transactionHash).1
      = expected ((start stdEnv exampleReceipts).run stdEnv storeRun).log
        (exampleReceipt 1 6).transactionHash :=
  (getReceipt_answers_iff (newReceipts_eq stdEnv _) storeRun named_storeRun ideal_storeRun
    (exampleReceipt 1 6).transactionHash).2.mpr (by decide +kernel)

theorem getReceipt_of_new :
    newReceipts stdEnv (fun _ => none) = .ok exampleReceipts ∧
      (exampleReceipts.getReceipt stdEnv (exampleReceipt 1 5).transactionHash).1 = .ok ⟨.new⟩ :=
  ⟨newReceipts_eq stdEnv _, by decide +kernel⟩

/-- **Every `Commit` can be reopened.**  After any calls on a new collection each
`Commit` so far has succeeded, `NewReceiptsFromRoot` opens its root in the database
as it is now and finds what had been added by then, and `Discard` has the root and
the receipts of the last `Commit`. -/
theorem commits_reopen (hr : newReceipts E db = .ok r)
    (ops : List ReceiptsOp) (hops : ∀ op ∈ ops, ∀ receipt ∈ op.added, receipt.Named)
    (hK : Ideal E.keccak256 (((start E r).run E ops).hashed E)) :
    (∀ c ∈ ((start E r).run E ops).commits, ∃ root r', c.2 = .ok root ∧
        newReceiptsFromRoot E root ((start E r).run E ops).receipts.db = .ok r' ∧
        ∀ hash, (r'.getReceipt E hash).1 = .ok (answer c.1 hash)) ∧
      ∃ r', ((start E r).run E ops).receipts.discard E = (.ok (), r') ∧
        (r'.receiptsRoot E).1 = ((start E r).run E ops).baseRoot ∧
        ∀ hash, (r'.getReceipt E hash).1 = .ok (answer ((start E r).run E ops).base hash) := by
  have hs := sound_run hr ops hops hK
  set s := (start E r).run E ops
  constructor
  · intro c hc
    obtain ⟨r', hopen, hkeeps, -⟩ := keeps_of_stored (hs.stored c hc) (hs.named c hc)
    refine ⟨_, r', hs.result c hc, hopen, fun hash => ?_⟩
    rw [(hkeeps.getReceipt hash).1, List.append_nil]
  · obtain ⟨r', hdiscard, hkeeps, -⟩ :=
      discard_stored hs.stored_base hs.named_base (hs.origin.trans hs.baseRoot)
    refine ⟨r', hdiscard, hkeeps.receiptsRoot.1.trans hs.baseRoot.symm, fun hash => ?_⟩
    rw [(hkeeps.getReceipt hash).1, List.append_nil]

theorem commits_reopen_storeRun :
    ((start stdEnv exampleReceipts).run stdEnv storeRun).commits.length = 2 ∧
      (∀ c ∈ ((start stdEnv exampleReceipts).run stdEnv storeRun).commits, ∃ root r',
        c.2 = .ok root ∧
        newReceiptsFromRoot stdEnv root
          ((start stdEnv exampleReceipts).run stdEnv storeRun).receipts.db = .ok r' ∧
        ∀ hash, (r'.getReceipt stdEnv hash).1 = .ok (answer c.1 hash)) ∧
      ∃ r', ((start stdEnv exampleReceipts).run stdEnv storeRun).receipts.discard stdEnv
          = (.ok (), r') ∧
        (r'.receiptsRoot stdEnv).1 = ((start stdEnv exampleReceipts).run stdEnv storeRun).baseRoot ∧
        ∀ hash, (r'.getReceipt stdEnv hash).1
          = .ok (answer ((start stdEnv exampleReceipts).run stdEnv storeRun).base hash) :=
  ⟨by decide +kernel,
    commits_reopen (newReceipts_eq stdEnv _) storeRun named_storeRun ideal_storeRun⟩

end Session

end MetaNode
