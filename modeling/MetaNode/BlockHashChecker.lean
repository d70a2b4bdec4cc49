/-
The batches of the block checker (`block/block_hash_checker/main.go`).

`checkBatch` asks every node for every block of a range, compares for each block what the
nodes returned, and checks on each node that a block names the one before it as its parent.
The hashes of the block before are kept while the range is walked, and are unknown at its
first block.

What a batch reports is a recursion over its results (`reports`), to which the loop of the
source with its counters is equal (`checkBatch_mismatches`).
-/
import MetaNode.Receipt

namespace MetaNode.BlockHashChecker

open Function

/-! ### Blocks and the requests for them -/

structure TxOrderEntry where
  hash : Bytes
  groupID : Bytes
  transactionIndex : Bytes
  deriving DecidableEq

/-- `blockResult`: the block of a response. -/
structure BlockResult where
  hash : Bytes := []
  parentHash : Bytes := []
  stateRoot : Bytes := []
  transactionsRoot : Bytes := []
  receiptsRoot : Bytes := []
  timestamp : Bytes := []
  miner : Bytes := []
  globalExecIndex : Bytes := []
  epoch : Bytes := []
  stakeStatesRoot : Bytes := []
  aggregateSignature : Bytes := []
  commitIndex : Bytes := []
  transactions : List TxOrderEntry := []

structure BlockInfo where
  hash : Bytes := []
  parentHash : Bytes := []
  stateRoot : Bytes := []
  transactionsRoot : Bytes := []
  receiptsRoot : Bytes := []
  timestamp : Bytes := []
  miner : Bytes := []
  globalExecIndex : Bytes := []
  epoch : Bytes := []
  stakeStatesRoot : Bytes := []
  aggregateSignature : Bytes := []
  commitIndex : Bytes := []
  txCount : ℕ := 0
  sysTxCount : ℕ := 0
  error : Bytes := []
  txOrder : List TxOrderEntry := []

def BlockInfo.isError (b : BlockInfo) : Bool := b.error != []

/-- `(block không tồn tại)`, in UTF-8 -/
def missingError : Bytes :=
  asciiBytes "(block kh" ++ [0xC3, 0xB4] ++ asciiBytes "ng t" ++ [0xE1, 0xBB, 0x93] ++
    asciiBytes "n t" ++ [0xE1, 0xBA, 0xA1] ++ asciiBytes "i)"

inductive Response where
  /-- No response. -/
  | failed (err : Bytes)
  /-- Not a JSON object. -/
  | invalid (err : Bytes)
  | rpcError (code : ℤ) (message : Bytes)
  /-- No such block. -/
  | null
  /-- Not a block. -/
  | unparsable (err : Bytes)
  /-- A block, and the answer to `getSystemTxsCount` if that is asked for. -/
  | block (b : BlockResult) (systemTxs : Option ℕ)

/-- The two values `bi, err` of the source: `bi` is empty if there is an error. -/
abbrev Answer := Except Bytes BlockInfo

def getBlockInfo : Response → Answer
  | .failed err => .error err
  | .invalid err => .error (asciiBytes "invalid JSON response: " ++ err)
  | .rpcError code message =>
    .error (asciiBytes "RPC error " ++ asciiBytes (toString code) ++ asciiBytes ": " ++ message)
  | .null => .ok { error := missingError }
  | .unparsable err => .error (asciiBytes "cannot parse block result: " ++ err)
  | .block b systemTxs =>
    .ok {
      hash := b.hash
      parentHash := b.parentHash
      stateRoot := b.stateRoot
      stakeStatesRoot := b.stakeStatesRoot
      transactionsRoot := b.transactionsRoot
      receiptsRoot := b.receiptsRoot
      timestamp := b.timestamp
      miner := b.miner
      globalExecIndex := b.globalExecIndex
      epoch := b.epoch
      aggregateSignature := b.aggregateSignature
      commitIndex := b.commitIndex
      txCount := b.transactions.length
      sysTxCount := if b.transactions.length = 0 then systemTxs.getD 0 else 0
      txOrder := b.transactions }

/-- `err == nil && bi.Error == "(block không tồn tại)"` -/
def isMissing : Answer → Bool
  | .ok bi => bi.error == missingError
  | .error _ => false

/-- `err == nil && !bi.IsError()` -/
def isValid : Answer → Bool
  | .ok bi => !bi.isError
  | .error _ => false

/-- `err != nil || (bi.IsError() && bi.Error != "(block không tồn tại)")` -/
def isFailed : Answer → Bool
  | .ok bi => bi.isError && bi.error != missingError
  | .error _ => true

/-- `strings.Contains` -/
def contains (s text : Bytes) : Bool := s.tails.any fun t => text.isPrefixOf t

def isPruned : Answer → Bool
  | .ok bi => bi.isError && contains bi.error (asciiBytes "pruned")
  | .error err => contains err (asciiBytes "pruned")

/-- The responses to one node's requests for one block, as far as they are made. -/
structure Requests where
  first : Response
  /-- `getLatestBlockNumber`, if there was no error -/
  latest : Option UInt64
  /-- The requests again, if the block is missing but the node has come so far. -/
  lag : ℕ → Response
  /-- The requests again after an error. -/
  again : ℕ → Response

/-- The requests that are made again until one is answered as it should be. -/
def retry (enough : Answer → Bool) : List Response → Answer → Answer
  | [], last => last
  | response :: rest, _ =>
    if enough (getBlockInfo response) then getBlockInfo response
    else retry enough rest (getBlockInfo response)

/-- What a node is asked for a block, with all that is asked again. -/
def fetch (blockNum : UInt64) (q : Requests) : Answer :=
  let bi := getBlockInfo q.first
  let bi :=
    if isMissing bi && q.latest.any (blockNum ≤ ·) then
      retry isValid ((List.range 10).map q.lag) bi
    else bi
  if isFailed bi && !isPruned bi then
    retry (fun bi => isValid bi || isMissing bi) ((List.range 3).map q.again) bi
  else bi

def recorded (blockNum : UInt64) (q : Requests) : BlockInfo :=
  match fetch blockNum q with
  | .ok bi => bi
  | .error err => { error := asciiBytes "ERROR: " ++ err }

/-- `nodeInfo`.  Nodes that have a name in common share an entry of each map. -/
structure NodeInfo where
  name : Bytes
  url : Bytes

abbrev Blocks := AList fun _ : Bytes => BlockInfo

/-- `r.blocks[node.Name]` -/
def getBlock (blocks : Blocks) (name : Bytes) : BlockInfo := (blocks.lookup name).getD {}

structure Result where
  blockNum : UInt64
  blocks : Blocks
  hasError : Bool

/-- Records what the node at place `p.2` answers. -/
def addRecord (net : ℕ → Requests) (blockNum : UInt64) (r : Result) (p : NodeInfo × ℕ) : Result :=
  let bi := recorded blockNum (net p.2)
  { r with blocks := r.blocks.insert p.1.name bi, hasError := r.hasError || bi.isError }

variable (nodes : List NodeInfo)

/-- The results for a block, when the node at place `i` answers `net i`. -/
def fetchBlock (net : ℕ → Requests) (blockNum : UInt64) : Result :=
  nodes.zipIdx.foldl (addRecord net blockNum) ⟨blockNum, ∅, false⟩

/-! ### The check of a block -/

inductive Field where
  | hash | parentHash | stateRoot | stakeStatesRoot | transactionsRoot | receiptsRoot | timestamp
  | miner | epoch | globalExecIndex | commitIndex | txCount | txOrder | chainBroken

/-- The field, if it is not that of the reference. -/
def unequal (f : Field) (x ref : Bytes) : List Field := if x ≠ ref then [f] else []

/-- The order of the transactions: their number, or else one of the three fields of an entry. -/
def differingTxOrder (order ref : List TxOrderEntry) : List Field :=
  if order.length ≠ ref.length then [.txCount]
  else if (order.zip ref).any fun e => e.1 != e.2 then [.txOrder]
  else []

/-- The fields in which a block is not the reference. -/
def differing (ref b : BlockInfo) : List Field :=
  unequal .hash b.hash ref.hash ++
  unequal .parentHash b.parentHash ref.parentHash ++
  unequal .stateRoot b.stateRoot ref.stateRoot ++
  unequal .stakeStatesRoot b.stakeStatesRoot ref.stakeStatesRoot ++
  unequal .transactionsRoot b.transactionsRoot ref.transactionsRoot ++
  unequal .receiptsRoot b.receiptsRoot ref.receiptsRoot ++
  unequal .timestamp b.timestamp ref.timestamp ++
  unequal .miner b.miner ref.miner ++
  unequal .epoch b.epoch ref.epoch ++
  unequal .globalExecIndex b.globalExecIndex ref.globalExecIndex ++
  unequal .commitIndex b.commitIndex ref.commitIndex ++
  differingTxOrder b.txOrder ref.txOrder

inductive Stop where
  /-- The panic of `make`, when there are too many results. -/
  | makeslice
  /-- The panic of a slice of a string that is shorter. -/
  | sliceBounds
  /-- A loop goes on for more rounds than were counted. -/
  | rounds
  deriving DecidableEq

structure Mismatch where
  blockNumber : UInt64
  blocks : Blocks

/-- `prevBlockHashes`: the hash of the block before, by the name of the node. -/
abbrev Hashes := Bytes → Option Bytes

def validBlocks (blocks : Blocks) : List BlockInfo :=
  (nodes.map fun node => getBlock blocks node.name).filter fun bi => !bi.isError

def missingResponseCount (blocks : Blocks) : ℕ :=
  nodes.countP fun node => (getBlock blocks node.name).error == missingError

def chainBrokenError (parentHash prevHash : Bytes) : Bytes :=
  asciiBytes "CHAIN BROKEN: parentHash=" ++ parentHash.take 18 ++ asciiBytes "..." ++
    asciiBytes " but prev block hash=" ++ prevHash.take 18 ++ asciiBytes "..."

/-- Marks the block of a node if the link to the block before is broken. -/
def markBroken (prev : Hashes) (s : Blocks × List Field) (node : NodeInfo) :
    Except Stop (Blocks × List Field) :=
  let bi := getBlock s.1 node.name
  if bi.isError then .ok s
  else
    match prev node.name with
    | none => .ok s
    | some prevHash =>
      if bi.parentHash = prevHash then .ok s
      else if bi.parentHash.length < 18 || prevHash.length < 18 then .error .sliceBounds
      else
        .ok (s.1.insert node.name { bi with error := chainBrokenError bi.parentHash prevHash },
          s.2 ++ [.chainBroken])

/-- The comparison of the valid blocks, `ref` and the others, and the check of the links. -/
def compare (prev : Hashes) (r : Result) (ref : BlockInfo)
    (others : List BlockInfo) : Except Stop (Option Mismatch) := do
  let (blocks, broken) ← nodes.foldlM (markBroken prev) (r.blocks, [])
  let mismatchedFields := others.flatMap (differing ref) ++ broken
  .ok (if mismatchedFields.isEmpty then none else some ⟨r.blockNum, blocks⟩)

/-- What `checkBatch` returns. -/
structure Output where
  mismatches : List Mismatch := []
  matchCount : UInt64 := 0
  errorCount : UInt64 := 0
  skipCount : UInt64 := 0
  nilBlocks : List UInt64 := []
  emptyBlocks : List UInt64 := []

structure Pass where
  out : Output
  prevBlockHashes : Hashes

/-- `delete(prevBlockHashes, node.Name)` for all nodes -/
def forget (prev : Hashes) : Hashes :=
  nodes.foldl (fun prev node => update prev node.name none) prev

/-- The hashes that are kept of a block that is not compared. -/
def keepHashes (blocks : Blocks) (prev : Hashes) : Hashes :=
  nodes.foldl
    (fun prev node =>
      let bi := getBlock blocks node.name
      update prev node.name (if bi.isError then none else some bi.hash))
    prev

def originalHashes (blocks : Blocks) : Hashes :=
  nodes.foldl
    (fun original node =>
      let bi := getBlock blocks node.name
      if bi.isError then original else update original node.name (some bi.hash))
    fun _ => none

/-- The hashes that are kept of a block that is compared. -/
def updateHashes (original prev : Hashes) : Hashes :=
  nodes.foldl
    (fun prev node =>
      if (original node.name).isNone then update prev node.name none else prev)
    fun name => (original name).or (prev name)

def Output.countError (out : Output) (hasError : Bool) : Output :=
  if hasError then { out with errorCount := out.errorCount + 1 } else out

def Output.countCompared (out : Output) (blockNum : UInt64) (ref : BlockInfo)
    (m : Option Mismatch) : Output :=
  let out :=
    if ref.txCount = 0 ∧ ref.sysTxCount = 0 then
      { out with emptyBlocks := out.emptyBlocks ++ [blockNum] }
    else out
  match m with
  | some m => { out with mismatches := out.mismatches ++ [m] }
  | none => { out with matchCount := out.matchCount + 1 }

def checkResult (p : Pass) (r : Result) : Except Stop Pass :=
  let prev := p.prevBlockHashes
  let out := p.out.countError r.hasError
  match validBlocks nodes r.blocks with
  | ref :: other :: others => do
    let m ← compare nodes prev r ref (other :: others)
    .ok ⟨out.countCompared r.blockNum ref m,
      updateHashes nodes (originalHashes nodes r.blocks) prev⟩
  | valid =>
    if valid.length = 0 ∧ 0 < missingResponseCount nodes r.blocks then
      .ok ⟨{ out with nilBlocks := out.nilBlocks ++ [r.blockNum] }, forget nodes prev⟩
    else .ok ⟨{ out with skipCount := out.skipCount + 1 }, keepHashes nodes r.blocks prev⟩

/-- The size of a `result`: a number, a map and a flag. -/
def resultSize : ℕ := 24

/-- The most that can be allocated, on 64 bit machines. -/
def maxAlloc : ℕ := 281474976710656

variable (net : UInt64 → ℕ → Requests)

/-- The results for the block `b`, when the node at place `i` answers `net b i`. -/
def resultOf (b : UInt64) : Result :=
  fetchBlock nodes (net b) b

def results (fromBlock : UInt64) (count : ℕ) : List Result :=
  (List.range count).map fun idx => resultOf nodes net (fromBlock + UInt64.ofNat idx)

def checkBatch (fromBlock toBlock : UInt64) :
    Except Stop Output := do
  let count := (toBlock - fromBlock + 1).toNat
  if maxAlloc < resultSize * count then .error .makeslice
  else
    let p ← (results nodes net fromBlock count).foldlM (checkResult nodes) ⟨{}, fun _ => none⟩
    .ok p.out

/-! ### The hashes of the block before -/

section Hashes

variable {nodes} {blocks : Blocks} {prev : Hashes}

/-- The hashes of a block, on the nodes that have it. -/
def hashOf (nodes : List NodeInfo) (blocks : Blocks) : Hashes := fun name =>
  if (nodes.map (·.name)).contains name && !(getBlock blocks name).isError then
    some (getBlock blocks name).hash
  else none

/-- No hash is kept under a name that no node has. -/
def Within (nodes : List NodeInfo) (prev : Hashes) : Prop :=
  ∀ name, (nodes.map (·.name)).contains name = false → prev name = none

theorem within_hashOf : Within nodes (hashOf nodes blocks) := by
  intro name hname
  rw [hashOf, hname]
  rfl

theorem foldl_update (c : Bytes → Bool) (g : Bytes → Option Bytes) (nodes : List NodeInfo)
    (prev : Hashes) :
    nodes.foldl
      (fun prev node => if c node.name then update prev node.name (g node.name) else prev)
      prev =
    fun name => if (nodes.map (·.name)).contains name && c name then g name else prev name := by
  induction nodes generalizing prev with
  | nil => rfl
  | cons node nodes ih =>
    rw [List.foldl_cons, ih]
    funext name
    by_cases hname : name = node.name
    · subst hname
      by_cases hc : c node.name = true <;> simp [hc]
    · by_cases hc : c node.name = true <;> simp [hc, hname, update_of_ne]

theorem forget_eq :
    forget nodes prev = fun name =>
      if (nodes.map (·.name)).contains name then none else prev name := by
  have h := foldl_update (fun _ => true) (fun _ => none) nodes prev
  simp only [if_true, Bool.and_true] at h
  exact h

theorem keepHashes_eq :
    keepHashes nodes blocks prev = fun name =>
      if (nodes.map (·.name)).contains name then
        if (getBlock blocks name).isError then none else some (getBlock blocks name).hash
      else prev name := by
  have h := foldl_update (fun _ => true) (fun name =>
    if (getBlock blocks name).isError then none else some (getBlock blocks name).hash) nodes prev
  simp only [if_true, Bool.and_true] at h
  exact h

theorem originalHashes_eq : originalHashes nodes blocks = hashOf nodes blocks := by
  have h := foldl_update (fun name => !(getBlock blocks name).isError)
    (fun name => some (getBlock blocks name).hash) nodes fun _ => none
  refine Eq.trans ?_ h
  rw [originalHashes]
  congr 1
  funext original node
  dsimp only
  cases (getBlock blocks node.name).isError <;> rfl

variable (hprev : Within nodes prev)

include hprev

/-- **After each block the hashes are those of this block.** -/
theorem updateHashes_eq :
    updateHashes nodes (originalHashes nodes blocks) prev = hashOf nodes blocks := by
  rw [originalHashes_eq]
  refine (foldl_update (fun name => (hashOf nodes blocks name).isNone) (fun _ => none) nodes
    _).trans ?_
  funext name
  cases hname : (nodes.map (·.name)).contains name with
  | false => simp [hprev name hname]
  | true =>
    cases hhash : hashOf nodes blocks name <;> simp

theorem keepHashes_of_within : keepHashes nodes blocks prev = hashOf nodes blocks := by
  rw [keepHashes_eq]
  funext name
  rw [hashOf]
  cases hname : (nodes.map (·.name)).contains name with
  | false => simp [hprev name hname]
  | true => cases (getBlock blocks name).isError <;> rfl

theorem forget_of_within (hvalid : validBlocks nodes blocks = []) :
    forget nodes prev = hashOf nodes blocks := by
  rw [forget_eq]
  funext name
  rw [hashOf]
  cases hname : (nodes.map (·.name)).contains name with
  | false => simp [hprev name hname]
  | true =>
    obtain ⟨node, hnode, rfl⟩ := List.mem_map.mp (List.contains_iff_mem.mp hname)
    have herror := List.filter_eq_nil_iff.mp hvalid _ (List.mem_map_of_mem hnode)
    simp only [Bool.not_eq_true', Bool.not_eq_false] at herror
    simp [herror]

end Hashes

/-! ### The links -/

section Links

variable {nodes} {blocks : Blocks} {prev : Hashes} {s s' : Blocks × List Field}

/-- The node has this block and the one before, and the one before is not the parent. -/
def Broken (prev : Hashes) (blocks : Blocks) (name : Bytes) : Prop :=
  (getBlock blocks name).isError = false ∧
    ∃ prevHash, prev name = some prevHash ∧ (getBlock blocks name).parentHash ≠ prevHash

/-- The link is broken, and a hash is too short for the message. -/
def TooShort (prev : Hashes) (blocks : Blocks) (name : Bytes) : Prop :=
  (getBlock blocks name).isError = false ∧
    ∃ prevHash, prev name = some prevHash ∧ (getBlock blocks name).parentHash ≠ prevHash ∧
      ((getBlock blocks name).parentHash.length < 18 ∨ prevHash.length < 18)

variable {name : Bytes}

theorem TooShort.broken (h : TooShort prev blocks name) : Broken prev blocks name := by
  obtain ⟨hvalid, prevHash, hprev, hne, -⟩ := h
  exact ⟨hvalid, prevHash, hprev, hne⟩

theorem not_broken_empty : ¬ Broken (fun _ => none) blocks name := by
  rintro ⟨-, prevHash, hprev, -⟩
  cases hprev

@[simp]
theorem getBlock_insert (blocks : Blocks) (name : Bytes) (bi : BlockInfo) :
    getBlock (blocks.insert name bi) name = bi := by
  rw [getBlock, AList.lookup_insert]
  rfl

theorem getBlock_insert_ne (bi : BlockInfo) {name' : Bytes} (h : name' ≠ name) :
    getBlock (blocks.insert name bi) name' = getBlock blocks name' := by
  rw [getBlock, AList.lookup_insert_ne h]
  rfl

theorem chainBrokenError_ne (parentHash prevHash : Bytes) :
    chainBrokenError parentHash prevHash ≠ [] := by
  intro h
  have hlength := congrArg List.length h
  simp [chainBrokenError, asciiBytes] at hlength

theorem markBroken_cases (prev : Hashes) (s : Blocks × List Field) (node : NodeInfo) :
    (¬ Broken prev s.1 node.name ∧ markBroken prev s node = .ok s) ∨
    (TooShort prev s.1 node.name ∧ markBroken prev s node = .error .sliceBounds) ∨
    (Broken prev s.1 node.name ∧ ¬ TooShort prev s.1 node.name ∧ ∃ bi, bi.isError = true ∧
      markBroken prev s node = .ok (s.1.insert node.name bi, s.2 ++ [.chainBroken])) := by
  cases herror : (getBlock s.1 node.name).isError with
  | true =>
    left
    refine ⟨fun h => ?_, by simp [markBroken, herror]⟩
    rw [h.1] at herror
    cases herror
  | false =>
    cases hprev : prev node.name with
    | none =>
      left
      refine ⟨?_, by simp [markBroken, herror, hprev]⟩
      rintro ⟨-, prevHash, hsome, -⟩
      rw [hprev] at hsome
      cases hsome
    | some prevHash =>
      by_cases hparent : (getBlock s.1 node.name).parentHash = prevHash
      · left
        refine ⟨?_, by simp [markBroken, herror, hprev, hparent]⟩
        rintro ⟨-, prevHash', hsome, hne⟩
        rw [hprev] at hsome
        cases hsome
        exact hne hparent
      · right
        by_cases hshort :
            (getBlock s.1 node.name).parentHash.length < 18 ∨ prevHash.length < 18
        · left
          exact ⟨⟨herror, prevHash, hprev, hparent, hshort⟩,
            by simp [markBroken, herror, hprev, hparent, hshort]⟩
        · right
          refine ⟨⟨herror, prevHash, hprev, hparent⟩, ?_, _, ?_,
            by simp [markBroken, herror, hprev, hparent, hshort]; rfl⟩
          · rintro ⟨-, prevHash', hsome, -, hshort'⟩
            rw [hprev] at hsome
            cases hsome
            exact hshort hshort'
          · simp [BlockInfo.isError, chainBrokenError_ne]

theorem not_tooShort_insert {node : NodeInfo} {bi : BlockInfo} (hbi : bi.isError = true)
    (h : ¬ TooShort prev blocks node.name) (name : Bytes) :
    TooShort prev (blocks.insert node.name bi) name ↔ TooShort prev blocks name := by
  by_cases hname : name = node.name
  · subst hname
    refine iff_of_false (fun h' => ?_) h
    have hvalid := h'.1
    rw [getBlock_insert, hbi] at hvalid
    cases hvalid
  · rw [TooShort, TooShort, getBlock_insert_ne bi hname]

theorem marks_ok_iff :
    (∃ s', nodes.foldlM (markBroken prev) s = .ok s') ↔
      ∀ node ∈ nodes, ¬ TooShort prev s.1 node.name := by
  induction nodes generalizing s with
  | nil => exact iff_of_true ⟨s, rfl⟩ (by simp)
  | cons node nodes ih =>
    rw [List.foldlM_cons, List.forall_mem_cons]
    obtain ⟨hlinked, hok⟩ | ⟨hshort, herror⟩ | ⟨-, hlong, bi, hbi, hok⟩ :=
      markBroken_cases prev s node
    · rw [hok]
      exact ih.trans (and_iff_right fun h => hlinked h.broken).symm
    · rw [herror]
      exact iff_of_false (fun ⟨s', h⟩ => by cases h) fun h => h.1 hshort
    · rw [hok]
      refine ih.trans (Iff.trans ?_ (and_iff_right hlong).symm)
      simp only [not_tooShort_insert hbi hlong]

theorem marks_of_linked (h : ∀ node ∈ nodes, ¬ Broken prev s.1 node.name) :
    nodes.foldlM (markBroken prev) s = .ok s := by
  induction nodes with
  | nil => rfl
  | cons node nodes ih =>
    rw [List.forall_mem_cons] at h
    have hok : markBroken prev s node = .ok s := by
      obtain ⟨-, hok⟩ | ⟨hshort, -⟩ | ⟨hbroken, -⟩ := markBroken_cases prev s node
      · exact hok
      · exact absurd hshort.broken h.1
      · exact absurd hbroken h.1
    rw [List.foldlM_cons, hok]
    exact ih h.2

theorem marks_keep (h : nodes.foldlM (markBroken prev) s = .ok s')
    (herror : (getBlock s.1 name).isError = true) (hfields : s.2 ≠ []) :
    (getBlock s'.1 name).isError = true ∧ s'.2 ≠ [] := by
  induction nodes generalizing s with
  | nil =>
    cases h
    exact ⟨herror, hfields⟩
  | cons node nodes ih =>
    rw [List.foldlM_cons] at h
    obtain ⟨-, hok⟩ | ⟨-, hstop⟩ | ⟨-, -, bi, hbi, hok⟩ := markBroken_cases prev s node
    · rw [hok] at h
      exact ih h herror hfields
    · rw [hstop] at h
      cases h
    · rw [hok] at h
      refine ih h ?_ (by simp)
      by_cases hname : name = node.name
      · rw [hname, getBlock_insert, hbi]
      · rw [getBlock_insert_ne bi hname, herror]

theorem marks_of_broken (h : nodes.foldlM (markBroken prev) s = .ok s') {node : NodeInfo}
    (hnode : node ∈ nodes) (hbroken : Broken prev s.1 node.name) :
    (getBlock s'.1 node.name).isError = true ∧ s'.2 ≠ [] := by
  induction nodes generalizing s with
  | nil => cases hnode
  | cons node' nodes ih =>
    rw [List.foldlM_cons] at h
    obtain ⟨hlinked, hok⟩ | ⟨-, hstop⟩ | ⟨-, -, bi, hbi, hok⟩ := markBroken_cases prev s node'
    · rw [hok] at h
      obtain rfl | hnode := List.mem_cons.mp hnode
      · exact absurd hbroken hlinked
      · exact ih h hnode hbroken
    · rw [hstop] at h
      cases h
    · rw [hok] at h
      by_cases hname : node.name = node'.name
      · refine marks_keep h ?_ (by simp)
        rw [hname, getBlock_insert, hbi]
      · obtain rfl | hnode := List.mem_cons.mp hnode
        · exact absurd rfl hname
        · refine ih h hnode ?_
          rw [Broken, getBlock_insert_ne bi hname]
          exact hbroken

end Links

/-! ### What a batch reports -/

def Compares (blocks : Blocks) : Prop :=
  2 ≤ (validBlocks nodes blocks).length

def report (prev : Hashes) (r : Result) : Except Stop (Option Mismatch) :=
  match validBlocks nodes r.blocks with
  | ref :: other :: others => compare nodes prev r ref (other :: others)
  | _ => .ok none

/-- What is reported for a block with no broken link. -/
def differences (r : Result) : Option Mismatch :=
  match validBlocks nodes r.blocks with
  | ref :: other :: others =>
    if ((other :: others).flatMap (differing ref)).isEmpty then none
    else some ⟨r.blockNum, r.blocks⟩
  | _ => none

/-- What is reported for the blocks that follow one with the hashes `prev`. -/
def reports (nodes : List NodeInfo) : Hashes → List Result → Except Stop (List Mismatch)
  | _, [] => .ok []
  | prev, r :: rs => do
    let m ← report nodes prev r
    let ms ← reports nodes (hashOf nodes r.blocks) rs
    .ok (m.toList ++ ms)

variable {ref : BlockInfo}

section Reports

variable {nodes} {prev : Hashes} {p : Pass} {r : Result} {rs : List Result}
  {m : Option Mismatch} {e : Stop} {blocks : Blocks}

theorem Compares.valid (h : Compares nodes blocks) :
    ∃ ref other others, validBlocks nodes blocks = ref :: other :: others := by
  rw [Compares] at h
  match hvalid : validBlocks nodes blocks with
  | [] => simp [hvalid] at h
  | [_] => simp [hvalid] at h
  | ref :: other :: others => exact ⟨ref, other, others, rfl⟩

theorem compares_of_valid {other : BlockInfo} {others : List BlockInfo}
    (h : validBlocks nodes blocks = ref :: other :: others) : Compares nodes blocks := by
  rw [Compares, h]
  simp

theorem report_of_not_compares (h : ¬ Compares nodes r.blocks) :
    report nodes prev r = .ok none := by
  rw [report]
  split
  · next hvalid => exact absurd (compares_of_valid hvalid) h
  · rfl

theorem report_of_valid {other : BlockInfo} {others : List BlockInfo}
    (h : validBlocks nodes r.blocks = ref :: other :: others) :
    report nodes prev r = (nodes.foldlM (markBroken prev) (r.blocks, [])).map fun s =>
      if ((other :: others).flatMap (differing ref) ++ s.2).isEmpty then none
      else some ⟨r.blockNum, s.1⟩ := by
  rw [report, h]
  show compare nodes prev r ref (other :: others) = _
  rw [compare]
  cases nodes.foldlM (markBroken prev) (r.blocks, []) <;> rfl

theorem report_ok_iff :
    (∃ m, report nodes prev r = .ok m) ↔
      ¬ (Compares nodes r.blocks ∧ ∃ node ∈ nodes, TooShort prev r.blocks node.name) := by
  by_cases hcompares : Compares nodes r.blocks
  · obtain ⟨ref, other, others, hvalid⟩ := hcompares.valid
    have hmarks : (∃ s', nodes.foldlM (markBroken prev) (r.blocks, []) = .ok s') ↔ _ := marks_ok_iff
    rw [report_of_valid hvalid]
    cases hfold : nodes.foldlM (markBroken prev) (r.blocks, []) with
    | error =>
      refine iff_of_false (fun ⟨m, h⟩ => by cases h) fun h => ?_
      have hlong : ∀ node ∈ nodes, ¬ TooShort prev r.blocks node.name := fun node hnode hshort =>
        h ⟨hcompares, node, hnode, hshort⟩
      obtain ⟨s', hs'⟩ := hmarks.mpr hlong
      rw [hfold] at hs'
      cases hs'
    | ok s' =>
      refine iff_of_true ⟨_, rfl⟩ ?_
      rintro ⟨-, node, hnode, hshort⟩
      exact hmarks.mp ⟨s', hfold⟩ node hnode hshort
  · rw [report_of_not_compares hcompares]
    exact iff_of_true ⟨none, rfl⟩ fun h => hcompares h.1

theorem report_of_linked
    (h : Compares nodes r.blocks → ∀ node ∈ nodes, ¬ Broken prev r.blocks node.name) :
    report nodes prev r = .ok (differences nodes r) := by
  by_cases hcompares : Compares nodes r.blocks
  · obtain ⟨ref, other, others, hvalid⟩ := hcompares.valid
    rw [report_of_valid hvalid, marks_of_linked (h hcompares), differences, hvalid]
    simp only [Except.map, List.append_nil]
  · rw [report_of_not_compares hcompares, differences]
    split
    · next hvalid => exact absurd (compares_of_valid hvalid) hcompares
    · rfl

theorem differences_cases (nodes : List NodeInfo) (r : Result) :
    differences nodes r = none ∨ differences nodes r = some ⟨r.blockNum, r.blocks⟩ := by
  rw [differences]
  split
  · split
    · exact .inl rfl
    · exact .inr rfl
  · exact .inl rfl

theorem report_of_broken (hcompares : Compares nodes r.blocks) {node : NodeInfo}
    (hnode : node ∈ nodes) (hbroken : Broken prev r.blocks node.name)
    (h : report nodes prev r = .ok m) :
    ∃ blocks, m = some ⟨r.blockNum, blocks⟩ ∧ blocks ≠ r.blocks := by
  obtain ⟨ref, other, others, hvalid⟩ := hcompares.valid
  rw [report_of_valid hvalid] at h
  cases hfold : nodes.foldlM (markBroken prev) (r.blocks, []) with
  | error =>
    rw [hfold] at h
    cases h
  | ok s' =>
    obtain ⟨hmarked, hfields⟩ := marks_of_broken hfold hnode hbroken
    rw [hfold] at h
    refine ⟨s'.1, ?_, fun heq => ?_⟩
    · have hnonempty : ((other :: others).flatMap (differing ref) ++ s'.2).isEmpty = false := by
        simp [hfields]
      simp only [Except.map, hnonempty] at h
      exact (Except.ok.inj h).symm
    · rw [heq, hbroken.1] at hmarked
      cases hmarked

theorem report_blockNumber (h : report nodes prev r = .ok m) {x : Mismatch} (hx : x ∈ m) :
    x.blockNumber = r.blockNum := by
  by_cases hbroken : Compares nodes r.blocks ∧ ∃ node ∈ nodes, Broken prev r.blocks node.name
  · obtain ⟨hcompares, node, hnode, hbroken⟩ := hbroken
    obtain ⟨blocks, rfl, -⟩ := report_of_broken hcompares hnode hbroken h
    cases hx
    rfl
  · rw [report_of_linked fun hcompares node hnode hb => hbroken ⟨hcompares, node, hnode, hb⟩] at h
    cases h
    obtain hnone | hsome := differences_cases nodes r
    · rw [hnone] at hx
      cases hx
    · rw [hsome] at hx
      cases hx
      rfl

/-! ### The loop -/

theorem checkResult_of_error (h : report nodes p.prevBlockHashes r = .error e) :
    checkResult nodes p r = .error e := by
  rw [report] at h
  split at h
  · next hvalid =>
    rw [checkResult, hvalid]
    simp only [h]
    rfl
  · cases h

@[simp]
theorem countError_mismatches (out : Output) (hasError : Bool) :
    (out.countError hasError).mismatches = out.mismatches := by
  cases hasError <;> rfl

@[simp]
theorem countCompared_mismatches (out : Output) (blockNum : UInt64) (ref : BlockInfo)
    (m : Option Mismatch) :
    (out.countCompared blockNum ref m).mismatches = out.mismatches ++ m.toList := by
  cases m <;> simp [Output.countCompared, apply_ite Output.mismatches]

theorem checkResult_of_ok (hprev : Within nodes p.prevBlockHashes)
    (h : report nodes p.prevBlockHashes r = .ok m) :
    ∃ p', checkResult nodes p r = .ok p' ∧
      p'.out.mismatches = p.out.mismatches ++ m.toList ∧
      p'.prevBlockHashes = hashOf nodes r.blocks := by
  rw [report] at h
  split at h
  · next ref other others hvalid =>
    rw [checkResult, hvalid]
    simp only [h]
    exact ⟨_, rfl, by simp, updateHashes_eq hprev⟩
  · next hvalid =>
    cases h
    rw [checkResult]
    split
    · next hvalid' => exact absurd hvalid' (hvalid _ _ _)
    · split
      · next hnil =>
        exact ⟨_, rfl, by simp, forget_of_within hprev (List.eq_nil_of_length_eq_zero hnil.1)⟩
      · exact ⟨_, rfl, by simp, keepHashes_of_within hprev⟩

/-- **The loop reports what the recursion does.** -/
theorem pass_mismatches (hprev : Within nodes p.prevBlockHashes) :
    (rs.foldlM (checkResult nodes) p).map (·.out.mismatches) =
      (reports nodes p.prevBlockHashes rs).map (p.out.mismatches ++ ·) := by
  induction rs generalizing p with
  | nil => simp [reports, Except.map, pure, Except.pure]
  | cons r rs ih =>
    rw [List.foldlM_cons, reports]
    cases hreport : report nodes p.prevBlockHashes r with
    | error =>
      rw [checkResult_of_error hreport]
      rfl
    | ok m =>
      obtain ⟨p', hok, hmismatches, hhashes⟩ := checkResult_of_ok hprev hreport
      rw [hok]
      show (rs.foldlM (checkResult nodes) p').map (·.out.mismatches) = _
      rw [ih (hhashes ▸ within_hashOf), hmismatches, hhashes]
      show _ = Except.map _ (Except.bind (reports nodes (hashOf nodes r.blocks) rs) _)
      cases reports nodes (hashOf nodes r.blocks) rs with
      | error => rfl
      | ok ms =>
        show Except.ok (p.out.mismatches ++ m.toList ++ ms) = Except.ok (_ ++ (m.toList ++ ms))
        rw [List.append_assoc]

variable {ms : List Mismatch}

theorem reports_cons_ok :
    reports nodes prev (r :: rs) = .ok ms ↔
      ∃ m ms', report nodes prev r = .ok m ∧ reports nodes (hashOf nodes r.blocks) rs = .ok ms' ∧
        ms = m.toList ++ ms' := by
  rw [reports]
  cases report nodes prev r with
  | error => exact iff_of_false (fun h => by cases h) fun ⟨_, _, h, _⟩ => by cases h
  | ok m =>
    show Except.bind (reports nodes (hashOf nodes r.blocks) rs) _ = _ ↔ _
    cases reports nodes (hashOf nodes r.blocks) rs with
    | error => exact iff_of_false (fun h => by cases h) fun ⟨_, _, _, h, _⟩ => by cases h
    | ok ms' =>
      constructor
      · intro h
        cases h
        exact ⟨m, ms', rfl, rfl, rfl⟩
      · rintro ⟨_, _, hm, hms, rfl⟩
        cases hm
        cases hms
        rfl

theorem reports_blockNumber (h : reports nodes prev rs = .ok ms) {x : Mismatch} (hx : x ∈ ms) :
    ∃ r ∈ rs, x.blockNumber = r.blockNum := by
  induction rs generalizing prev ms with
  | nil =>
    cases h
    cases hx
  | cons r rs ih =>
    obtain ⟨m, ms', hreport, hreports, rfl⟩ := reports_cons_ok.mp h
    obtain hx | hx := List.mem_append.mp hx
    · exact ⟨r, List.mem_cons_self, report_blockNumber hreport (Option.mem_toList.mp hx)⟩
    · obtain ⟨r', hr', hnumber⟩ := ih hreports hx
      exact ⟨r', List.mem_cons_of_mem _ hr', hnumber⟩

def after (nodes : List NodeInfo) : Hashes → List Result → Hashes
  | prev, [] => prev
  | _, r :: rs => after nodes (hashOf nodes r.blocks) rs

theorem after_concat : after nodes prev (rs ++ [r]) = hashOf nodes r.blocks := by
  induction rs generalizing prev with
  | nil => rfl
  | cons r' rs ih => exact ih

theorem reports_append_ok {rs' : List Result} :
    reports nodes prev (rs ++ rs') = .ok ms ↔
      ∃ ms₁ ms₂, reports nodes prev rs = .ok ms₁ ∧
        reports nodes (after nodes prev rs) rs' = .ok ms₂ ∧ ms = ms₁ ++ ms₂ := by
  induction rs generalizing prev ms with
  | nil =>
    constructor
    · exact fun h => ⟨[], ms, rfl, h, rfl⟩
    · rintro ⟨_, _, h₁, h₂, rfl⟩
      cases h₁
      exact h₂
  | cons r rs ih =>
    rw [List.cons_append, reports_cons_ok]
    constructor
    · rintro ⟨m, ms', hreport, hreports, rfl⟩
      obtain ⟨ms₁, ms₂, h₁, h₂, rfl⟩ := ih.mp hreports
      exact ⟨m.toList ++ ms₁, ms₂, reports_cons_ok.mpr ⟨m, ms₁, hreport, h₁, rfl⟩, h₂,
        (List.append_assoc ..).symm⟩
    · rintro ⟨_, ms₂, h₁, h₂, rfl⟩
      obtain ⟨m, ms₁, hreport, hrest, rfl⟩ := reports_cons_ok.mp h₁
      exact ⟨m, ms₁ ++ ms₂, hreport, ih.mpr ⟨ms₁, ms₂, hrest, h₂, rfl⟩, List.append_assoc ..⟩

/-! ### Neighbours -/

/-- A node's block that has another parent than its block before, `x`. -/
structure Unlinked (x y : BlockInfo) : Prop where
  before : x.isError = false
  valid : y.isError = false
  parent : y.parentHash ≠ x.hash

/-- A link is broken from a block to the next, which at least two nodes have. -/
def BrokenLink (nodes : List NodeInfo) (r r' : Result) : Prop :=
  Compares nodes r'.blocks ∧
    ∃ node ∈ nodes, Unlinked (getBlock r.blocks node.name) (getBlock r'.blocks node.name)

/-- A link is broken, where one of the two hashes is shorter than 18 bytes. -/
def ShortLink (nodes : List NodeInfo) (r r' : Result) : Prop :=
  Compares nodes r'.blocks ∧
    ∃ node ∈ nodes, Unlinked (getBlock r.blocks node.name) (getBlock r'.blocks node.name) ∧
      ((getBlock r'.blocks node.name).parentHash.length < 18 ∨
        (getBlock r.blocks node.name).hash.length < 18)

variable {r' : Result} {node : NodeInfo}

theorem ShortLink.broken (h : ShortLink nodes r r') : BrokenLink nodes r r' := by
  obtain ⟨hcompares, node, hnode, hunlinked, -⟩ := h
  exact ⟨hcompares, node, hnode, hunlinked⟩

theorem hashOf_eq_some (hnode : node ∈ nodes) {h : Bytes} :
    hashOf nodes blocks node.name = some h ↔
      (getBlock blocks node.name).isError = false ∧ (getBlock blocks node.name).hash = h := by
  have hname : (nodes.map (·.name)).contains node.name = true :=
    List.contains_iff_mem.mpr (List.mem_map_of_mem hnode)
  rw [hashOf, hname]
  cases (getBlock blocks node.name).isError <;> simp

theorem broken_iff (hnode : node ∈ nodes) :
    Broken (hashOf nodes r.blocks) r'.blocks node.name ↔
      Unlinked (getBlock r.blocks node.name) (getBlock r'.blocks node.name) := by
  constructor
  · rintro ⟨hvalid, prevHash, hprev, hne⟩
    obtain ⟨hbefore, rfl⟩ := (hashOf_eq_some hnode).mp hprev
    exact ⟨hbefore, hvalid, hne⟩
  · rintro ⟨hbefore, hvalid, hne⟩
    exact ⟨hvalid, _, (hashOf_eq_some hnode).mpr ⟨hbefore, rfl⟩, hne⟩

theorem tooShort_iff (hnode : node ∈ nodes) :
    TooShort (hashOf nodes r.blocks) r'.blocks node.name ↔
      Unlinked (getBlock r.blocks node.name) (getBlock r'.blocks node.name) ∧
        ((getBlock r'.blocks node.name).parentHash.length < 18 ∨
          (getBlock r.blocks node.name).hash.length < 18) := by
  constructor
  · rintro ⟨hvalid, prevHash, hprev, hne, hshort⟩
    obtain ⟨hbefore, rfl⟩ := (hashOf_eq_some hnode).mp hprev
    exact ⟨⟨hbefore, hvalid, hne⟩, hshort⟩
  · rintro ⟨⟨hbefore, hvalid, hne⟩, hshort⟩
    exact ⟨hvalid, _, (hashOf_eq_some hnode).mpr ⟨hbefore, rfl⟩, hne, hshort⟩

theorem report_next_ok_iff :
    (∃ m, report nodes (hashOf nodes r.blocks) r' = .ok m) ↔ ¬ ShortLink nodes r r' := by
  rw [report_ok_iff, not_iff_not]
  exact and_congr_right fun _ => exists_congr fun node => and_congr_right tooShort_iff

theorem report_first (nodes : List NodeInfo) (r : Result) :
    report nodes (fun _ => none) r = .ok (differences nodes r) :=
  report_of_linked fun _ _ _ => not_broken_empty

theorem reports_ok_iff :
    (∃ ms, reports nodes prev (r :: rs) = .ok ms) ↔
      (∃ m, report nodes prev r = .ok m) ∧
        (r :: rs).IsChain fun r r' => ¬ ShortLink nodes r r' := by
  induction rs generalizing prev r with
  | nil =>
    constructor
    · rintro ⟨ms, h⟩
      obtain ⟨m, -, hreport, -⟩ := reports_cons_ok.mp h
      exact ⟨⟨m, hreport⟩, .singleton r⟩
    · rintro ⟨⟨m, hreport⟩, -⟩
      exact ⟨_, reports_cons_ok.mpr ⟨m, [], hreport, rfl, rfl⟩⟩
  | cons r' rs ih =>
    rw [List.isChain_cons_cons, ← report_next_ok_iff, ← ih]
    constructor
    · rintro ⟨ms, h⟩
      obtain ⟨m, ms', hreport, hreports, -⟩ := reports_cons_ok.mp h
      exact ⟨⟨m, hreport⟩, ms', hreports⟩
    · rintro ⟨⟨m, hreport⟩, ms', hreports⟩
      exact ⟨_, reports_cons_ok.mpr ⟨m, ms', hreport, hreports, rfl⟩⟩

theorem reports_first_ok_iff :
    (∃ ms, reports nodes (fun _ => none) rs = .ok ms) ↔
      rs.IsChain fun r r' => ¬ ShortLink nodes r r' := by
  cases rs with
  | nil => exact iff_of_true ⟨[], rfl⟩ .nil
  | cons r =>
    exact reports_ok_iff.trans (and_iff_right ⟨_, report_first nodes r⟩)

/-- **A list of results reports what two parts of it report exactly if no hash is too short
and no link is broken between the parts.** -/
theorem reports_split_iff {q : Result} {l : List Result}
    (hleft : ∀ r' ∈ l ++ [q], r'.blockNum ≠ r.blockNum)
    (hright : ∀ r' ∈ rs, r'.blockNum ≠ r.blockNum) :
    (∃ full left right,
      reports nodes (fun _ => none) ((l ++ [q]) ++ r :: rs) = .ok full ∧
      reports nodes (fun _ => none) (l ++ [q]) = .ok left ∧
      reports nodes (fun _ => none) (r :: rs) = .ok right ∧
      ∀ x, x ∈ full ↔ x ∈ left ∨ x ∈ right) ↔
    ((l ++ [q]) ++ r :: rs).IsChain (fun r r' => ¬ ShortLink nodes r r') ∧
      ¬ BrokenLink nodes q r := by
  constructor
  · rintro ⟨full, left, right, hfull, hl, hr, hsame⟩
    refine ⟨reports_first_ok_iff.mp ⟨full, hfull⟩, ?_⟩
    rintro ⟨hcompares, node, hnode, hunlinked⟩
    obtain ⟨ms₁, ms₂, -, h₂, rfl⟩ := reports_append_ok.mp hfull
    rw [after_concat] at h₂
    obtain ⟨m, ms', hreport, -, rfl⟩ := reports_cons_ok.mp h₂
    obtain ⟨blocks, rfl, hblocks⟩ :=
      report_of_broken hcompares hnode ((broken_iff hnode).mpr hunlinked) hreport
    -- the marked block is in neither part
    have hmem : (⟨r.blockNum, blocks⟩ : Mismatch) ∈ ms₁ ++ ([⟨r.blockNum, blocks⟩] ++ ms') := by
      simp
    obtain hx | hx := (hsame _).mp hmem
    · obtain ⟨r', hr', hnumber⟩ := reports_blockNumber hl hx
      exact hleft r' hr' hnumber.symm
    · obtain ⟨m, ms'', hreport', hreports, rfl⟩ := reports_cons_ok.mp hr
      rw [report_first] at hreport'
      cases hreport'
      obtain hx | hx := List.mem_append.mp hx
      · obtain hnone | hsome := differences_cases nodes r
        · rw [hnone] at hx
          cases hx
        · rw [hsome] at hx
          cases List.mem_singleton.mp hx
          exact hblocks rfl
      · obtain ⟨r', hr', hnumber⟩ := reports_blockNumber hreports hx
        exact hright r' hr' hnumber.symm
  · rintro ⟨hchain, hlinked⟩
    obtain ⟨full, hfull⟩ := reports_first_ok_iff.mpr hchain
    obtain ⟨ms₁, ms₂, h₁, h₂, rfl⟩ := reports_append_ok.mp hfull
    refine ⟨ms₁ ++ ms₂, ms₁, ms₂, hfull, h₁, ?_, fun x => List.mem_append⟩
    rw [after_concat] at h₂
    obtain ⟨m, ms', hreport, hreports, rfl⟩ := reports_cons_ok.mp h₂
    -- with no broken link the block before does not matter
    have hsame : report nodes (hashOf nodes q.blocks) r = .ok (differences nodes r) :=
      report_of_linked fun hcompares node hnode hbroken =>
        hlinked ⟨hcompares, node, hnode, (broken_iff hnode).mp hbroken⟩
    rw [hsame] at hreport
    cases hreport
    exact reports_cons_ok.mpr ⟨_, ms', report_first nodes r, hreports, rfl⟩

end Reports

/-! ### Batches -/

section Batches

variable {nodes} {net} {fromBlock m toBlock : UInt64}
  {count : ℕ}

@[simp]
theorem resultOf_blockNum (b : UInt64) : (resultOf nodes net b).blockNum = b := by
  have hfold : ∀ (l : List (NodeInfo × ℕ)) (r : Result),
      (l.foldl (addRecord (net b) b) r).blockNum = r.blockNum := by
    intro l
    induction l with
    | nil => exact fun r => rfl
    | cons p l ih => exact fun r => ih _
  exact hfold _ _

@[simp]
theorem length_results : (results nodes net fromBlock count).length = count := by
  simp [results]

theorem getElem_results {idx : ℕ} (h : idx < (results nodes net fromBlock count).length) :
    (results nodes net fromBlock count)[idx] =
      resultOf nodes net (fromBlock + UInt64.ofNat idx) := by
  simp [results]

theorem results_add (count count' : ℕ) :
    results nodes net fromBlock (count + count') =
      results nodes net fromBlock count ++
        results nodes net (fromBlock + UInt64.ofNat count) count' := by
  rw [results, List.range_add, List.map_append, List.map_map]
  congr 1
  refine List.map_congr_left fun idx _ => ?_
  simp only [comp_apply, UInt64.ofNat_add, UInt64.add_assoc]

theorem checkBatch_mismatches :
    (checkBatch nodes net fromBlock toBlock).map (·.mismatches) =
      if maxAlloc < resultSize * (toBlock - fromBlock + 1).toNat then .error .makeslice
      else
        reports nodes (fun _ => none)
          (results nodes net fromBlock (toBlock - fromBlock + 1).toNat) := by
  rw [checkBatch]
  split
  · rfl
  · have hout : ∀ x : Except Stop Pass,
        (x >>= fun p => Except.ok p.out).map (·.mismatches) = x.map (·.out.mismatches) := by
      intro x
      cases x <;> rfl
    have hnil : ∀ x : Except Stop (List Mismatch), x.map ([] ++ ·) = x := by
      intro x
      cases x <;> rfl
    have hempty : Within nodes fun _ => none := fun _ _ => rfl
    exact (hout _).trans ((pass_mismatches hempty).trans (hnil _))

theorem checkBatch_ok_iff {ms : List Mismatch} :
    (∃ out, checkBatch nodes net fromBlock toBlock = .ok out ∧ out.mismatches = ms) ↔
      resultSize * (toBlock - fromBlock + 1).toNat ≤ maxAlloc ∧
        reports nodes (fun _ => none)
          (results nodes net fromBlock (toBlock - fromBlock + 1).toNat) = .ok ms := by
  have hmap : (checkBatch nodes net fromBlock toBlock).map _ = _ := checkBatch_mismatches
  constructor
  · rintro ⟨out, hout, rfl⟩
    rw [hout] at hmap
    split at hmap
    · cases hmap
    · next hsize => exact ⟨Nat.le_of_not_lt hsize, hmap.symm⟩
  · rintro ⟨hsize, hms⟩
    rw [if_neg (Nat.not_lt.mpr hsize), hms] at hmap
    cases hout : checkBatch nodes net fromBlock toBlock with
    | error =>
      rw [hout] at hmap
      cases hmap
    | ok out =>
      rw [hout] at hmap
      exact ⟨out, rfl, Except.ok.inj hmap⟩

/-- **A batch returns exactly if its results can be allocated and no broken link has a hash
that is too short for the message.** -/
theorem checkBatch_returns_iff (nodes : List NodeInfo) (net : UInt64 → ℕ → Requests)
    (fromBlock toBlock : UInt64) :
    (∃ out, checkBatch nodes net fromBlock toBlock = .ok out) ↔
      resultSize * (toBlock - fromBlock + 1).toNat ≤ maxAlloc ∧
        ∀ idx, idx + 1 < (toBlock - fromBlock + 1).toNat →
          ¬ ShortLink nodes (resultOf nodes net (fromBlock + UInt64.ofNat idx))
            (resultOf nodes net (fromBlock + UInt64.ofNat (idx + 1))) := by
  have hreturns : (∃ out, checkBatch nodes net fromBlock toBlock = .ok out) ↔
      ∃ ms out, checkBatch nodes net fromBlock toBlock = .ok out ∧ out.mismatches = ms := by
    constructor
    · exact fun ⟨out, h⟩ => ⟨out.mismatches, out, h, rfl⟩
    · exact fun ⟨_, out, h, _⟩ => ⟨out, h⟩
  simp only [hreturns, checkBatch_ok_iff, exists_and_left, reports_first_ok_iff]
  refine and_congr_right fun _ => ?_
  rw [List.isChain_iff_getElem]
  simp only [length_results, getElem_results]

def twoNodes : List NodeInfo := [⟨asciiBytes "a", []⟩, ⟨asciiBytes "b", []⟩]

def answering (b : BlockResult) : Requests :=
  ⟨.block b none, none, fun _ => .block b none, fun _ => .block b none⟩

/-- Nodes that have the same block at all heights. -/
def constant (hash parentHash : Bytes) : UInt64 → ℕ → Requests :=
  fun _ _ => answering { hash, parentHash }

/-- A block with a short parent hash that is not the hash of the block before. -/
theorem checkBatch_panics :
    checkBatch twoNodes (constant (asciiBytes "0x2") (asciiBytes "0x1")) 1 2 =
      .error .sliceBounds := by
  rfl

theorem mem_results {r : Result} :
    r ∈ results nodes net fromBlock count ↔
      ∃ idx < count, resultOf nodes net (fromBlock + UInt64.ofNat idx) = r := by
  simp [results]

@[simp]
theorem results_one : results nodes net fromBlock 1 = [resultOf nodes net fromBlock] := by
  simp [results]

variable (nodes net) in
/-- **The batch of a single block returns, with what the block has by itself.** -/
theorem checkBatch_single (b : UInt64) :
    ∃ out, checkBatch nodes net b b = .ok out ∧
      out.mismatches = (differences nodes (resultOf nodes net b)).toList := by
  have hcount : (b - b + 1).toNat = 1 := by
    rw [UInt64.sub_self]
    rfl
  refine checkBatch_ok_iff.mpr ?_
  rw [hcount, results_one]
  refine ⟨by decide, reports_cons_ok.mpr ⟨_, [], report_first nodes _, rfl, ?_⟩⟩
  rw [List.append_nil]

variable {b : UInt64}

theorem resultOf_mem (h : b - fromBlock < toBlock - fromBlock + 1) :
    resultOf nodes net b ∈ results nodes net fromBlock (toBlock - fromBlock + 1).toNat := by
  refine mem_results.mpr ⟨(b - fromBlock).toNat, UInt64.lt_iff_toNat_lt.mp h, ?_⟩
  rw [UInt64.ofNat_toNat, UInt64.add_comm, UInt64.sub_add_cancel]

theorem toNat_succ {b' : UInt64} (h : b < b') : (b + 1).toNat = b.toNat + 1 := by
  have hlt := UInt64.lt_iff_toNat_lt.mp h
  have hbound := b'.toNat_lt
  rw [UInt64.toNat_add, UInt64.toNat_one]
  omega

theorem toNat_count {b' : UInt64} (h : b ≤ b')
    (hbound : b'.toNat - b.toNat + 1 < 18446744073709551616) :
    (b' - b + 1).toNat = b'.toNat - b.toNat + 1 := by
  rw [UInt64.toNat_add, UInt64.toNat_sub_of_le _ _ h, UInt64.toNat_one]
  omega

theorem toNat_offset {idx : ℕ} (h : b.toNat + idx < 18446744073709551616) :
    (b + UInt64.ofNat idx).toNat = b.toNat + idx := by
  rw [UInt64.toNat_add, UInt64.toNat_ofNat']
  omega

theorem results_split (hfrom : fromBlock ≤ m) (hto : m < toBlock) :
    ∃ l rs, results nodes net fromBlock (m - fromBlock + 1).toNat = l ++ [resultOf nodes net m] ∧
      results nodes net (m + 1) (toBlock - (m + 1) + 1).toNat =
        resultOf nodes net (m + 1) :: rs ∧
      results nodes net fromBlock (toBlock.toNat - fromBlock.toNat + 1) =
        (l ++ [resultOf nodes net m]) ++ resultOf nodes net (m + 1) :: rs ∧
      (∀ r ∈ l ++ [resultOf nodes net m], r.blockNum ≠ m + 1) ∧
      ∀ r ∈ rs, r.blockNum ≠ m + 1 := by
  have hfrom' := UInt64.le_iff_toNat_le.mp hfrom
  have hto' := UInt64.lt_iff_toNat_lt.mp hto
  have hbound := toBlock.toNat_lt
  have hsucc := toNat_succ hto
  obtain ⟨k, hk⟩ := Nat.exists_eq_add_of_le hfrom'
  obtain ⟨k', hk'⟩ := Nat.exists_eq_add_of_le (show (m + 1).toNat ≤ toBlock.toNat by omega)
  have hleft : (m - fromBlock + 1).toNat = k + 1 := by
    rw [toNat_count hfrom (by omega)]
    omega
  have hright : (toBlock - (m + 1) + 1).toNat = 1 + k' := by
    rw [toNat_count (UInt64.le_iff_toNat_le.mpr (by omega)) (by omega)]
    omega
  have hm : fromBlock + UInt64.ofNat k = m := by
    rw [← UInt64.toNat_inj, toNat_offset (by omega)]
    omega
  have hm' : fromBlock + UInt64.ofNat (k + 1) = m + 1 := by
    rw [← UInt64.toNat_inj, toNat_offset (by omega)]
    omega
  have hl : results nodes net fromBlock (k + 1) =
      results nodes net fromBlock k ++ [resultOf nodes net m] := by
    rw [results_add, hm, results_one]
  have hr : results nodes net (m + 1) (1 + k') =
      resultOf nodes net (m + 1) :: results nodes net (m + 1 + UInt64.ofNat 1) k' := by
    rw [results_add, results_one]
    rfl
  refine ⟨_, _, hleft ▸ hl, hright ▸ hr, ?_, ?_, ?_⟩
  · have hcount : toBlock.toNat - fromBlock.toNat + 1 = (k + 1) + (1 + k') := by omega
    rw [hcount, results_add, hm', hl, hr]
  · rw [← hl]
    intro r hmem
    obtain ⟨idx, hidx, rfl⟩ := mem_results.mp hmem
    rw [resultOf_blockNum, ← UInt64.toNat_inj.ne, toNat_offset (by omega)]
    omega
  · intro r hmem
    obtain ⟨idx, hidx, rfl⟩ := mem_results.mp hmem
    have htwo : (m + 1 + UInt64.ofNat 1).toNat = m.toNat + 2 := by
      rw [toNat_offset (by omega)]
      omega
    rw [resultOf_blockNum, ← UInt64.toNat_inj.ne, toNat_offset (by omega)]
    omega

theorem isChain_results :
    (results nodes net fromBlock (count + 1)).IsChain (fun r r' => ¬ ShortLink nodes r r') ↔
      ∀ idx < count, ¬ ShortLink nodes (resultOf nodes net (fromBlock + UInt64.ofNat idx))
        (resultOf nodes net (fromBlock + UInt64.ofNat (idx + 1))) := by
  rw [List.isChain_iff_getElem]
  simp only [length_results, getElem_results, Nat.add_lt_add_iff_right]

theorem reports_results_iff (hfrom : fromBlock ≤ m) (hto : m < toBlock) :
    (∃ full left right,
      reports nodes (fun _ => none)
        (results nodes net fromBlock (toBlock.toNat - fromBlock.toNat + 1)) = .ok full ∧
      reports nodes (fun _ => none) (results nodes net fromBlock (m - fromBlock + 1).toNat) =
        .ok left ∧
      reports nodes (fun _ => none) (results nodes net (m + 1) (toBlock - (m + 1) + 1).toNat) =
        .ok right ∧
      ∀ x, x ∈ full ↔ x ∈ left ∨ x ∈ right) ↔
    (∀ idx < toBlock.toNat - fromBlock.toNat,
      ¬ ShortLink nodes (resultOf nodes net (fromBlock + UInt64.ofNat idx))
        (resultOf nodes net (fromBlock + UInt64.ofNat (idx + 1)))) ∧
      ¬ BrokenLink nodes (resultOf nodes net m) (resultOf nodes net (m + 1)) := by
  obtain ⟨l, rs, hleft, hright, hfull, hne, hne'⟩ := results_split hfrom hto
  rw [← isChain_results, hleft, hright, hfull]
  refine reports_split_iff ?_ ?_
  · rw [resultOf_blockNum]
    exact hne
  · rw [resultOf_blockNum]
    exact hne'

/-- The counts of a range and of its parts.  A range of all numbers has count 0, but then one
of its parts is too large. -/
theorem counts (hfrom : fromBlock ≤ m) (hto : m < toBlock) :
    (m - fromBlock + 1).toNat = m.toNat - fromBlock.toNat + 1 ∧
      (toBlock - (m + 1) + 1).toNat = toBlock.toNat - m.toNat ∧
      (resultSize * (m - fromBlock + 1).toNat ≤ maxAlloc →
        resultSize * (toBlock - (m + 1) + 1).toNat ≤ maxAlloc →
        (toBlock - fromBlock + 1).toNat = toBlock.toNat - fromBlock.toNat + 1) := by
  have hfrom' := UInt64.le_iff_toNat_le.mp hfrom
  have hto' := UInt64.lt_iff_toNat_lt.mp hto
  have hbound := toBlock.toNat_lt
  have hsucc := toNat_succ hto
  have hle : m + 1 ≤ toBlock := UInt64.le_iff_toNat_le.mpr (by omega)
  have hleft : (m - fromBlock + 1).toNat = m.toNat - fromBlock.toNat + 1 :=
    toNat_count hfrom (by omega)
  have hright : (toBlock - (m + 1) + 1).toNat = toBlock.toNat - m.toNat := by
    rw [toNat_count hle (by omega)]
    omega
  refine ⟨hleft, hright, fun hsize hsize' => ?_⟩
  rw [hleft, resultSize, maxAlloc] at hsize
  rw [hright, resultSize, maxAlloc] at hsize'
  exact toNat_count (UInt64.le_trans hfrom (UInt64.le_of_lt hto)) (by omega)

/-- **A batch reports what its two parts report exactly if all return and no link is broken
where they meet.** -/
theorem checkBatch_split_iff (nodes : List NodeInfo) (net : UInt64 → ℕ → Requests)
    (fromBlock m toBlock : UInt64) (hfrom : fromBlock ≤ m) (hto : m < toBlock) :
    (∃ full left right, checkBatch nodes net fromBlock toBlock = .ok full ∧
      checkBatch nodes net fromBlock m = .ok left ∧
      checkBatch nodes net (m + 1) toBlock = .ok right ∧
      ∀ x, x ∈ full.mismatches ↔ x ∈ left.mismatches ∨ x ∈ right.mismatches) ↔
    resultSize * (toBlock.toNat - fromBlock.toNat + 1) ≤ maxAlloc ∧
      (∀ idx < toBlock.toNat - fromBlock.toNat,
        ¬ ShortLink nodes (resultOf nodes net (fromBlock + UInt64.ofNat idx))
          (resultOf nodes net (fromBlock + UInt64.ofNat (idx + 1)))) ∧
      ¬ BrokenLink nodes (resultOf nodes net m) (resultOf nodes net (m + 1)) := by
  obtain ⟨hleft, hright, hfull⟩ := counts hfrom hto
  have hfrom' := UInt64.le_iff_toNat_le.mp hfrom
  have hto' := UInt64.lt_iff_toNat_lt.mp hto
  rw [← reports_results_iff hfrom hto]
  constructor
  · rintro ⟨full, left, right, h, h₁, h₂, hsame⟩
    obtain ⟨hsize, hreports⟩ := checkBatch_ok_iff.mp ⟨full, h, rfl⟩
    obtain ⟨hsize₁, hreports₁⟩ := checkBatch_ok_iff.mp ⟨left, h₁, rfl⟩
    obtain ⟨hsize₂, hreports₂⟩ := checkBatch_ok_iff.mp ⟨right, h₂, rfl⟩
    rw [hfull hsize₁ hsize₂] at hsize hreports
    exact ⟨hsize, _, _, _, hreports, hreports₁, hreports₂, hsame⟩
  · rintro ⟨hsize, full, left, right, hreports, hreports₁, hreports₂, hsame⟩
    have hsize₁ : resultSize * (m - fromBlock + 1).toNat ≤ maxAlloc :=
      Nat.le_trans (Nat.mul_le_mul_left _ (by omega)) hsize
    have hsize₂ : resultSize * (toBlock - (m + 1) + 1).toNat ≤ maxAlloc :=
      Nat.le_trans (Nat.mul_le_mul_left _ (by omega)) hsize
    rw [← hfull hsize₁ hsize₂] at hsize hreports
    obtain ⟨out, h, rfl⟩ := checkBatch_ok_iff.mpr ⟨hsize, hreports⟩
    obtain ⟨out₁, h₁, rfl⟩ := checkBatch_ok_iff.mpr ⟨hsize₁, hreports₁⟩
    obtain ⟨out₂, h₂, rfl⟩ := checkBatch_ok_iff.mpr ⟨hsize₂, hreports₂⟩
    exact ⟨out, out₁, out₂, h, h₁, h₂, hsame⟩

end Batches

/-- Blocks whose parent is never the block before. -/
def unlinkedNet : UInt64 → ℕ → Requests := constant (List.replicate 66 0) (List.replicate 66 1)

/-- The broken link from block 1 to block 2 is reported by the batch of both, and by none of
the batches of one. -/
theorem checkBatch_split_loses :
    (checkBatch twoNodes unlinkedNet 1 2).map (·.mismatches.map (·.blockNumber)) = .ok [2] ∧
      (checkBatch twoNodes unlinkedNet 1 1).map (·.mismatches.map (·.blockNumber)) = .ok [] ∧
      (checkBatch twoNodes unlinkedNet 2 2).map (·.mismatches.map (·.blockNumber)) = .ok [] :=
  ⟨rfl, rfl, rfl⟩

/-- Blocks that are linked, and on whose miner the nodes do not agree. -/
def linkedNet : UInt64 → ℕ → Requests := fun _ i =>
  answering {
    hash := List.replicate 66 0
    parentHash := List.replicate 66 0
    miner := List.replicate i 1 }

theorem linkedNet_linked (b b' : UInt64) :
    ¬ BrokenLink twoNodes (resultOf twoNodes linkedNet b) (resultOf twoNodes linkedNet b') := by
  rintro ⟨-, node, hnode, hunlinked⟩
  obtain rfl | rfl : node = ⟨asciiBytes "a", []⟩ ∨ node = ⟨asciiBytes "b", []⟩ := by
    simpa [twoNodes] using hnode
  · exact hunlinked.parent rfl
  · exact hunlinked.parent rfl

theorem checkBatch_split_linked :
    (checkBatch twoNodes linkedNet 1 2).map (·.mismatches.map (·.blockNumber)) = .ok [1, 2] ∧
    ∃ full left right, checkBatch twoNodes linkedNet 1 2 = .ok full ∧
      checkBatch twoNodes linkedNet 1 1 = .ok left ∧
      checkBatch twoNodes linkedNet (1 + 1) 2 = .ok right ∧
      ∀ x, x ∈ full.mismatches ↔ x ∈ left.mismatches ∨ x ∈ right.mismatches :=
  ⟨rfl, (checkBatch_split_iff _ _ 1 1 2 (by decide) (by decide)).mpr
    ⟨by decide, fun _ _ h => linkedNet_linked _ _ h.broken, linkedNet_linked _ _⟩⟩

/-! ### A batch without mismatches -/

/-- The block without the fields that are not compared. -/
def BlockInfo.compared (b : BlockInfo) : BlockInfo :=
  { b with aggregateSignature := [], txCount := 0, sysTxCount := 0, error := [] }

theorem zip_any_ne {α : Type} [DecidableEq α] {l l' : List α} (h : l.length = l'.length) :
    ((l.zip l').any fun e => e.1 != e.2) = false ↔ l = l' := by
  induction l generalizing l' with
  | nil =>
    cases l' with
    | nil => simp
    | cons => cases h
  | cons a l ih =>
    cases l' with
    | nil => cases h
    | cons =>
      rw [List.zip_cons_cons, List.any_cons, Bool.or_eq_false_iff, ih (Nat.succ.inj h)]
      simp

theorem differing_eq_nil {b : BlockInfo} : differing ref b = [] ↔ b.compared = ref.compared := by
  have hfield : ∀ (f : Field) (x y : Bytes), unequal f x y = [] ↔ x = y := by
    intro f x y
    by_cases h : x = y <;> simp [unequal, h]
  have horder : differingTxOrder b.txOrder ref.txOrder = [] ↔ b.txOrder = ref.txOrder := by
    rw [differingTxOrder]
    by_cases hlength : b.txOrder.length = ref.txOrder.length
    · rw [if_neg (not_not.mpr hlength), ← zip_any_ne hlength]
      cases (b.txOrder.zip ref.txOrder).any fun e => e.1 != e.2 <;> simp
    · rw [if_pos hlength]
      exact iff_of_false (by simp) fun h => hlength (congrArg List.length h)
  simp only [differing, List.append_eq_nil_iff, hfield, horder, BlockInfo.compared,
    BlockInfo.mk.injEq]
  tauto

section Agreement

variable {nodes} {net : UInt64 → ℕ → Requests} {prev : Hashes} {r : Result}
  {rs : List Result} {b : UInt64} {i : ℕ}

theorem agree_of_report (h : report nodes prev r = .ok none) {x y : BlockInfo}
    (hx : x ∈ validBlocks nodes r.blocks) (hy : y ∈ validBlocks nodes r.blocks) :
    x.compared = y.compared := by
  by_cases hcompares : Compares nodes r.blocks
  · obtain ⟨ref, other, others, hvalid⟩ := hcompares.valid
    rw [report_of_valid hvalid] at h
    cases hfold : nodes.foldlM (markBroken prev) (r.blocks, []) with
    | error =>
      rw [hfold] at h
      cases h
    | ok =>
      have hnil : (other :: others).flatMap (differing ref) = [] := by
        rw [hfold] at h
        have hfields := Except.ok.inj h
        dsimp only at hfields
        split at hfields
        · next hempty => exact (List.append_eq_nil_iff.mp (List.isEmpty_iff.mp hempty)).1
        · cases hfields
      -- each of the others agrees with the first
      have hagree : ∀ x ∈ validBlocks nodes r.blocks, x.compared = ref.compared := by
        rw [hvalid]
        intro x hx
        obtain rfl | hx := List.mem_cons.mp hx
        · rfl
        · exact differing_eq_nil.mp (List.flatMap_eq_nil_iff.mp hnil x hx)
      rw [hagree x hx, hagree y hy]
  · match hvalid : validBlocks nodes r.blocks with
    | [] =>
      rw [hvalid] at hx
      cases hx
    | [z] =>
      rw [hvalid, List.mem_singleton] at hx hy
      rw [hx, hy]
    | _ :: _ :: _ => exact absurd (compares_of_valid hvalid) hcompares

theorem report_of_reports_nil (h : reports nodes prev rs = .ok []) (hr : r ∈ rs) :
    ∃ prev', report nodes prev' r = .ok none := by
  induction rs generalizing prev with
  | nil => cases hr
  | cons r' rs ih =>
    obtain ⟨m, ms, hreport, hreports, hnil⟩ := reports_cons_ok.mp h
    obtain ⟨hm, rfl⟩ := List.append_eq_nil_iff.mp hnil.symm
    rw [Option.toList_eq_nil_iff] at hm
    subst hm
    obtain rfl | hr := List.mem_cons.mp hr
    · exact ⟨prev, hreport⟩
    · exact ih hreports hr

theorem getBlock_foldl_of_ne {l : List (NodeInfo × ℕ)} {name : Bytes}
    (h : ∀ p ∈ l, p.1.name ≠ name) (r : Result) :
    getBlock (l.foldl (addRecord (net b) b) r).blocks name = getBlock r.blocks name := by
  induction l generalizing r with
  | nil => rfl
  | cons p l ih =>
    rw [List.forall_mem_cons] at h
    rw [List.foldl_cons, ih h.2]
    exact getBlock_insert_ne _ h.1.symm

theorem getBlock_foldl {l : List (NodeInfo × ℕ)} (h : (l.map (·.1.name)).Nodup)
    {p : NodeInfo × ℕ} (hp : p ∈ l) (r : Result) :
    getBlock (l.foldl (addRecord (net b) b) r).blocks p.1.name = recorded b (net b p.2) := by
  induction l generalizing r with
  | nil => cases hp
  | cons p' l ih =>
    rw [List.map_cons, List.nodup_cons] at h
    obtain rfl | hp := List.mem_cons.mp hp
    · -- the nodes that follow have other names
      have hne : ∀ p' ∈ l, p'.1.name ≠ p.1.name := fun p' hp' heq =>
        h.1 (heq ▸ List.mem_map_of_mem hp')
      rw [List.foldl_cons, getBlock_foldl_of_ne hne]
      exact getBlock_insert _ _ _
    · exact ih h.2 hp _

theorem getBlock_resultOf (hnames : (nodes.map (·.name)).Nodup) (hi : i < nodes.length) :
    getBlock (resultOf nodes net b).blocks nodes[i].name = recorded b (net b i) := by
  have hnodup : (nodes.zipIdx.map (·.1.name)).Nodup := by
    have hmap : nodes.zipIdx.map (·.1.name) = (nodes.zipIdx.map Prod.fst).map (·.name) :=
      List.map_map.symm
    rw [hmap, List.zipIdx_map_fst]
    exact hnames
  have hmem : (nodes[i], i) ∈ nodes.zipIdx := by
    rw [List.mem_zipIdx_iff_getElem?]
    exact List.getElem?_eq_getElem hi
  exact getBlock_foldl hnodup hmem _

theorem mem_validBlocks (hnames : (nodes.map (·.name)).Nodup) (hi : i < nodes.length)
    (hvalid : (recorded b (net b i)).isError = false) :
    recorded b (net b i) ∈ validBlocks nodes (resultOf nodes net b).blocks := by
  have hget : _ = recorded b (net b i) := getBlock_resultOf hnames hi
  rw [validBlocks, List.mem_filter, List.mem_map]
  exact ⟨⟨nodes[i], List.getElem_mem hi, hget⟩, by rw [hvalid]; rfl⟩

end Agreement

end MetaNode.BlockHashChecker
