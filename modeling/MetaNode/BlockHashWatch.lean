/-
The watch of the block checker (`block/block_hash_checker/main.go`).

`watchOnce` checks the blocks above the last one verified, in batches of 20, up to the highest
block of any node, and if all of them match moves the last one verified to the lowest height
of any node that responded.  A block that fewer than two nodes returned is skipped, and
counts as verified.  If a batch has a mismatch, the first block with one is searched for.

A block can be passed by although two nodes have it (`watchOnce_skips`).
-/
import MetaNode.BlockHashChecker

namespace MetaNode.BlockHashWatch

open BlockHashChecker

/-! ### The model -/

/-- The answers to a call of `watchOnce`.  A batch is checked in the rounds of a loop, and
once again if only the node that synchronises differs. -/
structure Net where
  /-- `getLatestBlockNumber`, if there was no error -/
  latest : ℕ → Option UInt64
  /-- The requests of a round, of the first or of the second check, for a block. -/
  check : ℕ → Bool → UInt64 → ℕ → Requests
  /-- The order in which the blocks of a mismatch are walked. -/
  walk : ℕ → UInt64 → Walk (Sigma fun _ : Bytes => BlockInfo)
  /-- The requests of the search for the first mismatch. -/
  probe : UInt64 → ℕ → Requests
  /-- The requests for the block that was found. -/
  refetch : UInt64 → ℕ → Requests

/-- The loop over the blocks of a mismatch, with the hash that the others are compared with. -/
def sameHash : Bytes → List (Sigma fun _ : Bytes => BlockInfo) → Bool
  | _, [] => true
  | refHash, ⟨nodeName, bi⟩ :: rest =>
    if nodeName = asciiBytes "m4" ∨ nodeName = asciiBytes "node4" then sameHash refHash rest
    else if bi.isError then sameHash refHash rest
    else if refHash = [] then sameHash bi.hash rest
    else if refHash ≠ bi.hash then false
    else sameHash refHash rest

/-- No two nodes other than the one that synchronises differ in a hash. -/
def isSyncNodeMismatchOnly (walk : UInt64 → Walk (Sigma fun _ : Bytes => BlockInfo))
    (mismatches : List Mismatch) : Bool :=
  mismatches.all fun m => sameHash [] ((walk m.blockNumber).order m.blocks.entries)

/-- A batch that was checked, with the answers that were taken. -/
structure Check where
  fromBlock : UInt64
  toBlock : UInt64
  net : UInt64 → ℕ → Requests

variable (nodes : List NodeInfo) (net : Net)

def checkChunk (round : ℕ) (batchStart batchEnd : UInt64) : Except Stop (Check × Output) := do
  let out ← checkBatch nodes (net.check round false) batchStart batchEnd
  if out.mismatches.isEmpty then .ok (⟨batchStart, batchEnd, net.check round false⟩, out)
  else if isSyncNodeMismatchOnly (net.walk round) out.mismatches then do
    let out ← checkBatch nodes (net.check round true) batchStart batchEnd
    .ok (⟨batchStart, batchEnd, net.check round true⟩, out)
  else .ok (⟨batchStart, batchEnd, net.check round false⟩, out)

def batchSize : UInt64 := 20

def batchEnd (maxBlock batchStart : UInt64) : UInt64 :=
  if maxBlock < batchStart + batchSize - 1 then maxBlock else batchStart + batchSize - 1

/-- The loop over the batches, for a number of rounds: what it found, and the batches. -/
def scan (nodes : List NodeInfo) (net : Net) (maxBlock : UInt64) :
    ℕ → ℕ → UInt64 → List Check → Except Stop (List Mismatch × List Check)
  | 0, _, _, _ => .error .rounds
  | rounds + 1, round, batchStart, checks =>
    if batchStart ≤ maxBlock then do
      let (check, out) ← checkChunk nodes net round batchStart (batchEnd maxBlock batchStart)
      if out.mismatches.isEmpty then
        scan nodes net maxBlock rounds (round + 1) (batchStart + batchSize) (checks ++ [check])
      else .ok (out.mismatches, checks ++ [check])
    else .ok ([], checks)

/-- The state of the search for the first mismatch. -/
structure Search where
  low : UInt64
  high : UInt64
  realFirstMismatch : UInt64

def Search.mid (s : Search) : UInt64 := s.low + (s.high - s.low) / 2

/-- The step of the search when there is, or is not, a mismatch in the middle. -/
def Search.next (s : Search) (found : Bool) : Search :=
  if found then { s with realFirstMismatch := s.mid, high := s.mid - 1 }
  else { s with low := s.mid + 1 }

/-- `len(m) > 0` of the check of a single block -/
def probe (b : UInt64) : Except Stop Bool := do
  let out ← checkBatch nodes net.probe b b
  .ok (!out.mismatches.isEmpty)

def search (nodes : List NodeInfo) (net : Net) : ℕ → Search → Except Stop UInt64
  | 0, _ => .error .rounds
  | rounds + 1, s =>
    if s.low ≤ s.high then do
      let found ← probe nodes net s.mid
      search nodes net rounds (s.next found)
    else .ok s.realFirstMismatch

def heights : List UInt64 :=
  (List.range nodes.length).filterMap net.latest

def minBlock (heights : List UInt64) : UInt64 :=
  heights.foldl (fun minBlock num => if num < minBlock then num else minBlock) 0xFFFFFFFFFFFFFFFF

def maxBlock (heights : List UInt64) : UInt64 :=
  heights.foldl (fun maxBlock num => if maxBlock < num then num else maxBlock) 0

/-- How a call begins: it ends at once, or there is a range to be scanned. -/
inductive Start where
  | idle (lastVerifiedBlock : UInt64)
  | scan (lastVerifiedBlock fromBlock : UInt64)

/-- The cursor, after a node came back with a smaller height. -/
def rewind (minBlock lastVerifiedBlock : UInt64) : UInt64 :=
  if minBlock < lastVerifiedBlock then if 0 < minBlock then minBlock - 1 else 0
  else lastVerifiedBlock

/-- `from` -/
def nextBlock (lastVerifiedBlock : UInt64) : UInt64 :=
  if 0 < lastVerifiedBlock then lastVerifiedBlock + 1 else 1

def start (heights : List UInt64) (lastVerifiedBlock : UInt64) : Start :=
  if minBlock heights = 0xFFFFFFFFFFFFFFFF then .idle lastVerifiedBlock
  else if heights.length < 2 then .idle lastVerifiedBlock
  else
    let lastVerifiedBlock := rewind (minBlock heights) lastVerifiedBlock
    let fromBlock := nextBlock lastVerifiedBlock
    if maxBlock heights < fromBlock then .idle lastVerifiedBlock
    else .scan lastVerifiedBlock fromBlock

structure Report where
  firstMismatchInBatch : UInt64
  realFirstMismatch : UInt64
  mismatches : List Mismatch

/-- The end of a call, with the batches that it checked.  There is a report if it returns
`true`. -/
structure Outcome where
  lastVerifiedBlock : UInt64
  report : Option Report
  checks : List Check

/-- The report about mismatches, of which `first` is the first.  The search has at most as many
rounds as there are blocks. -/
def locate (first : UInt64) (mismatches : List Mismatch) :
    Except Stop Report := do
  let real ← search nodes net first.toNat ⟨1, first - 1, first⟩
  if real < first then do
    let out ← checkBatch nodes net.refetch real real
    .ok ⟨first, real, out.mismatches ++ mismatches⟩
  else .ok ⟨first, real, mismatches⟩

def watchOnce (rounds : ℕ) (nodes : List NodeInfo) (net : Net) (lastVerifiedBlock : UInt64) :
    Except Stop Outcome :=
  match start (heights nodes net) lastVerifiedBlock with
  | .idle last => .ok ⟨last, none, []⟩
  | .scan last fromBlock => do
    let (mismatches, checks) ← scan nodes net (maxBlock (heights nodes net)) rounds 0 fromBlock []
    match mismatches with
    | [] => .ok ⟨minBlock (heights nodes net), none, checks⟩
    | m :: ms => do
      let report ← locate nodes net m.blockNumber (m :: ms)
      .ok ⟨last, some report, checks⟩

/-! ### The range -/

section Range

variable {nodes} {net} {maxBlock last last' fromBlock b : UInt64}
  {hs : List UInt64}

theorem foldl_best (better : UInt64 → UInt64 → Prop) [DecidableRel better]
    (irrefl : ∀ a, ¬ better a a) (trans : ∀ a b c, better a b → better b c → better a c)
    (total : ∀ a b c, better a c → better a b ∨ better b c) (hs : List UInt64) (m : UInt64) :
    ¬ better m (hs.foldl (fun m num => if better num m then num else m) m) ∧
      ∀ h ∈ hs, ¬ better h (hs.foldl (fun m num => if better num m then num else m) m) := by
  induction hs generalizing m with
  | nil => exact ⟨irrefl m, by simp⟩
  | cons num hs ih =>
    rw [List.foldl_cons, List.forall_mem_cons]
    obtain ⟨hkept, hall⟩ := ih (if better num m then num else m)
    by_cases hbetter : better num m
    · rw [if_pos hbetter] at hkept hall ⊢
      exact ⟨fun h => hkept (trans _ _ _ hbetter h), hkept, hall⟩
    · rw [if_neg hbetter] at hkept hall ⊢
      exact ⟨hkept, fun h => (total _ m _ h).elim hbetter hkept, hall⟩

theorem minBlock_le {h : UInt64} (hh : h ∈ hs) : minBlock hs ≤ h := by
  have hbest := foldl_best (· < ·) (by grind) (by grind) (by grind) hs 0xFFFFFFFFFFFFFFFF
  exact UInt64.not_lt.mp (hbest.2 h hh)

theorem le_maxBlock {h : UInt64} (hh : h ∈ hs) : h ≤ BlockHashWatch.maxBlock hs := by
  have hbest := foldl_best (fun a b => b < a) (by grind) (by grind) (by grind) hs 0
  exact UInt64.not_lt.mp (hbest.2 h hh)

theorem rewind_le (minBlock last : UInt64) : rewind minBlock last ≤ last := by
  rw [rewind]
  grind

theorem nextBlock_le (h : last < b) : nextBlock last ≤ b := by
  rw [nextBlock]
  grind

theorem idle_le (h : start hs last = .idle last') : last' ≤ last := by
  have hrewind := rewind_le (minBlock hs) last
  rw [start] at h
  grind

theorem scan_range (h : start hs last = .scan last' fromBlock) :
    last' ≤ last ∧ ∀ b, last < b → b ≤ minBlock hs →
      fromBlock ≤ b ∧ b ≤ BlockHashWatch.maxBlock hs := by
  have hrewind := rewind_le (minBlock hs) last
  rw [start] at h
  split at h
  · cases h
  · split at h
    · cases h
    · next hlength =>
      dsimp only at h
      have hmax : minBlock hs ≤ BlockHashWatch.maxBlock hs := by
        cases hs with
        | nil => simp at hlength
        | cons =>
          exact UInt64.le_trans (minBlock_le List.mem_cons_self) (le_maxBlock List.mem_cons_self)
      split at h
      · cases h
      · injection h with hlast hfrom
        refine ⟨hlast ▸ hrewind, fun b hb hmin => ⟨?_, UInt64.le_trans hmin hmax⟩⟩
        rw [← hfrom]
        exact nextBlock_le (UInt64.lt_of_le_of_lt hrewind hb)

end Range

/-! ### The batches -/

def Check.Covers (c : Check) (b : UInt64) : Prop :=
  b - c.fromBlock < c.toBlock - c.fromBlock + 1

/-- The batch was checked with answers of the call, and there was no mismatch. -/
structure Check.Clean (c : Check) : Prop where
  answers : ∃ round again, c.net = net.check round again
  returned : ∃ out, checkBatch nodes c.net c.fromBlock c.toBlock = .ok out ∧ out.mismatches = []

section Scan

variable {nodes} {net} {maxBlock batchStart b : UInt64} {round : ℕ}
  {checks checks' : List Check}

theorem checkChunk_ok {toBlock : UInt64} {c : Check} {out : Output}
    (h : checkChunk nodes net round batchStart toBlock = .ok (c, out)) :
    ∃ again, c = ⟨batchStart, toBlock, net.check round again⟩ ∧
      checkBatch nodes c.net batchStart toBlock = .ok out := by
  rw [checkChunk] at h
  cases hfirst : checkBatch nodes (net.check round false) batchStart toBlock with
  | error =>
    rw [hfirst] at h
    cases h
  | ok first =>
    rw [hfirst] at h
    change (if first.mismatches.isEmpty then _ else _) = _ at h
    split at h
    · cases h
      exact ⟨false, rfl, hfirst⟩
    · split at h
      · cases hsecond : checkBatch nodes (net.check round true) batchStart toBlock with
        | error =>
          rw [hsecond] at h
          cases h
        | ok =>
          rw [hsecond] at h
          cases h
          exact ⟨true, rfl, hsecond⟩
      · cases h
        exact ⟨false, rfl, hfirst⟩

theorem covers_or_next (hstart : batchStart ≤ b) (hmax : b ≤ maxBlock) :
    b - batchStart < batchEnd maxBlock batchStart - batchStart + 1 ∨
      batchStart + batchSize ≤ b := by
  rw [batchEnd, batchSize]
  grind

/-- **A scan without mismatches has checked all blocks up to the highest.** -/
theorem scan_covers {rounds : ℕ}
    (h : scan nodes net maxBlock rounds round batchStart checks = .ok ([], checks')) :
    checks ⊆ checks' ∧ ∀ b, batchStart ≤ b → b ≤ maxBlock →
      ∃ c ∈ checks', c.Covers b ∧ c.Clean nodes net := by
  induction rounds generalizing round batchStart checks with
  | zero => cases h
  | succ rounds ih =>
    rw [scan] at h
    split at h
    · cases hchunk : checkChunk nodes net round batchStart (batchEnd maxBlock batchStart) with
      | error =>
        rw [hchunk] at h
        cases h
      | ok p =>
        obtain ⟨c, out⟩ := p
        obtain ⟨again, hc, hout⟩ := checkChunk_ok hchunk
        rw [hchunk] at h
        change (if out.mismatches.isEmpty then _ else _) = _ at h
        split at h
        · next hempty =>
          obtain ⟨hsub, hcovers⟩ := ih h
          have hmem : c ∈ checks' := hsub (by simp)
          refine ⟨fun c' hc' => hsub (List.mem_append_left _ hc'), fun b hstart hmax => ?_⟩
          obtain hin | hnext := covers_or_next hstart hmax
          · subst hc
            exact ⟨_, hmem, hin, ⟨round, again, rfl⟩, out, hout, List.isEmpty_iff.mp hempty⟩
          · exact hcovers b hnext hmax
        · next hnonempty =>
          have hnil : out.mismatches = [] := congrArg Prod.fst (Except.ok.inj h)
          rw [hnil] at hnonempty
          exact absurd rfl hnonempty
    · next hend =>
      cases h
      exact ⟨fun c hc => hc, fun b hstart hmax => absurd (UInt64.le_trans hstart hmax) hend⟩

end Scan

/-! ### The answers of a fixed chain -/

/-- The response is an error, or what the chain has. -/
def Truthful (x : Option BlockResult) : Response → Prop
  | .null => x = none
  | .block b _ => x = some b
  | _ => True

/-- All responses to the requests for a block are. -/
structure TruthfulRequests (x : Option BlockResult) (q : Requests) : Prop where
  first : Truthful x q.first
  lag : ∀ k, Truthful x (q.lag k)
  again : ∀ k, Truthful x (q.again k)

/-- The first request is answered by a block, or fails for another reason than that the block
was pruned, and one of the three that follow is. -/
def Served (q : Requests) : Prop :=
  isValid (getBlockInfo q.first) = true ∨
    isPruned (getBlockInfo q.first) = false ∧
      ∃ k < 3, isValid (getBlockInfo (q.again k)) = true

section Answers

variable {x : BlockResult} {q : Requests} {b : UInt64}

/-- If the chain has the block, it is never missing, and what is not an error is the block. -/
theorem truthful_cases {response : Response} (h : Truthful (some x) response) :
    isMissing (getBlockInfo response) = false ∧
      isFailed (getBlockInfo response) = !isValid (getBlockInfo response) := by
  cases response with
  | null => cases h
  | block | failed | invalid | rpcError | unparsable => exact ⟨rfl, rfl⟩

theorem isSome_of_valid {x : Option BlockResult} {response : Response} (h : Truthful x response)
    (hvalid : isValid (getBlockInfo response) = true) : x.isSome = true := by
  cases response with
  | block y =>
    rw [show x = some y from h]
    rfl
  | null | failed | invalid | rpcError | unparsable => cases hvalid

theorem isSome_of_served {x : Option BlockResult} (h : TruthfulRequests x q) (hserved : Served q) :
    x.isSome = true := by
  obtain hfirst | ⟨-, k, -, hagain⟩ := hserved
  · exact isSome_of_valid h.first hfirst
  · exact isSome_of_valid (h.again k) hagain

theorem retry_valid {l : List Response} {last : Answer}
    (h : ∀ response ∈ l, Truthful (some x) response)
    (hvalid : ∃ response ∈ l, isValid (getBlockInfo response) = true) :
    isValid (retry (fun bi => isValid bi || isMissing bi) l last) = true := by
  induction l generalizing last with
  | nil => simp at hvalid
  | cons response l ih =>
    rw [List.forall_mem_cons] at h
    rw [retry, (truthful_cases h.1).1, Bool.or_false]
    split
    · next hfirst => exact hfirst
    · next hfirst =>
      refine ih h.2 ?_
      obtain ⟨response', hmem, hvalid⟩ := hvalid
      obtain rfl | hmem := List.mem_cons.mp hmem
      · exact absurd hvalid hfirst
      · exact ⟨response', hmem, hvalid⟩

theorem recorded_of_served {x : Option BlockResult} (h : TruthfulRequests x q)
    (hserved : Served q) : (recorded b q).isError = false := by
  obtain ⟨x, rfl⟩ := Option.isSome_iff_exists.mp (isSome_of_served h hserved)
  obtain ⟨hmissing, hfailed⟩ := truthful_cases h.first
  have hvalid : isValid (fetch b q) = true := by
    rw [fetch]
    simp only [hmissing, hfailed, Bool.false_and, Bool.false_eq_true, if_false]
    split
    · next hretry =>
      rw [Bool.and_eq_true, Bool.not_eq_true'] at hretry
      obtain hfirst | ⟨-, k, hk, hagain⟩ := hserved
      · rw [hfirst] at hretry
        cases hretry.1
      · refine retry_valid (x := x) ?_ ⟨_, List.mem_map_of_mem (List.mem_range.mpr hk), hagain⟩
        intro response hresponse
        obtain ⟨k, -, rfl⟩ := List.mem_map.mp hresponse
        exact h.again k
    · next hretry =>
      obtain hfirst | ⟨hpruned, -⟩ := hserved
      · exact hfirst
      · rw [hpruned] at hretry
        simpa using hretry
  rw [recorded]
  cases hfetch : fetch b q with
  | error =>
    rw [hfetch] at hvalid
    cases hvalid
  | ok =>
    rw [hfetch] at hvalid
    simpa [isValid] using hvalid

end Answers

/-! ### Runs -/

/-- In the batch the block was returned by at least two nodes, and those that returned it
agree in all the fields that are compared. -/
structure Compared (c : Check) (b : UInt64) : Prop where
  covers : c.Covers b
  two : ∃ i j, i < j ∧ j < nodes.length ∧ (recorded b (c.net b i)).isError = false ∧
    (recorded b (c.net b j)).isError = false
  equal : ∀ i j, i < nodes.length → j < nodes.length → (recorded b (c.net b i)).isError = false →
    (recorded b (c.net b j)).isError = false →
    (recorded b (c.net b i)).compared = (recorded b (c.net b j)).compared

def OnTwo (chains : ℕ → UInt64 → Option BlockResult) (b : UInt64) : Prop :=
  ∃ i j, i < j ∧ j < nodes.length ∧ (chains i b).isSome ∧ (chains j b).isSome

/-- Every block above the cursor that is not above any height that a node reports, and that
at least two nodes have, is served by two nodes, in the checks of its batch. -/
def Serves (chains : ℕ → UInt64 → Option BlockResult) (cursor : UInt64)
    (net : Net) (checks : List Check) : Prop :=
  ∀ b, cursor < b → (∀ i < nodes.length, ∀ h ∈ net.latest i, b ≤ h) → OnTwo nodes chains b →
    ∀ c ∈ checks, c.Covers b →
      ∃ i j, i < j ∧ j < nodes.length ∧ Served (c.net b i) ∧ Served (c.net b j)

/-- The cursor after some calls that reported no mismatch, and the batches they checked.  The
chains of the nodes are fixed, but requests may fail. -/
inductive Watch (nodes : List NodeInfo) (chains : ℕ → UInt64 → Option BlockResult)
    (condition : UInt64 → Net → List Check → Prop) (initial : UInt64) :
    UInt64 → List Check → Prop where
  | initial : Watch nodes chains condition initial initial []
  | call {cursor : UInt64} {checks : List Check} {rounds : ℕ} {net : Net} {out : Outcome}
      (before : Watch nodes chains condition initial cursor checks)
      (truthful : ∀ round again b i, TruthfulRequests (chains i b) (net.check round again b i))
      (meets : condition cursor net out.checks)
      (returned : watchOnce rounds nodes net cursor = .ok out) (silent : out.report = none) :
      Watch nodes chains condition initial out.lastVerifiedBlock (checks ++ out.checks)

section Runs

variable {nodes} {chains : ℕ → UInt64 → Option BlockResult} {net}
  {cursor initial b : UInt64} {rounds : ℕ} {out : Outcome} {checks : List Check}

theorem compared_of_clean (hnames : (nodes.map (·.name)).Nodup)
    (htruthful : ∀ round again b i, TruthfulRequests (chains i b) (net.check round again b i))
    {c : Check}
    (hserved : ∃ i j, i < j ∧ j < nodes.length ∧ Served (c.net b i) ∧ Served (c.net b j))
    (hcovers : c.Covers b) (hclean : c.Clean nodes net) : Compared nodes c b := by
  obtain ⟨round, again, hnet⟩ := hclean.answers
  obtain ⟨out, hout, hnil⟩ := hclean.returned
  obtain ⟨-, hreports⟩ := checkBatch_ok_iff.mp ⟨out, hout, hnil⟩
  obtain ⟨prev, hreport⟩ := report_of_reports_nil hreports (resultOf_mem hcovers)
  refine ⟨hcovers, ?_, fun i j hi hj hvalid hvalid' => ?_⟩
  · obtain ⟨i, j, hlt, hj, hserved, hserved'⟩ := hserved
    rw [hnet] at hserved hserved' ⊢
    exact ⟨i, j, hlt, hj, recorded_of_served (htruthful round again b i) hserved,
      recorded_of_served (htruthful round again b j) hserved'⟩
  · exact agree_of_report hreport (mem_validBlocks hnames hi hvalid)
      (mem_validBlocks hnames hj hvalid')

theorem mem_heights {h : UInt64} :
    h ∈ heights nodes net ↔ ∃ i < nodes.length, h ∈ net.latest i := by
  simp [heights, List.mem_filterMap]

theorem watchOnce_silent (hreturned : watchOnce rounds nodes net cursor = .ok out)
    (hsilent : out.report = none) :
    start (heights nodes net) cursor = .idle out.lastVerifiedBlock ∨
      ∃ last fromBlock, start (heights nodes net) cursor = .scan last fromBlock ∧
        scan nodes net (maxBlock (heights nodes net)) rounds 0 fromBlock [] = .ok ([], out.checks) ∧
        out.lastVerifiedBlock = minBlock (heights nodes net) := by
  rw [watchOnce] at hreturned
  cases hstart : start (heights nodes net) cursor with
  | idle =>
    rw [hstart] at hreturned
    cases hreturned
    exact .inl rfl
  | scan last fromBlock =>
    simp only [hstart] at hreturned
    cases hscan : scan nodes net (maxBlock (heights nodes net)) rounds 0 fromBlock [] with
    | error =>
      rw [hscan] at hreturned
      cases hreturned
    | ok p =>
      obtain ⟨mismatches, checks⟩ := p
      rw [hscan] at hreturned
      cases mismatches with
      | nil =>
        cases hreturned
        exact .inr ⟨last, fromBlock, rfl, hscan, rfl⟩
      | cons m ms =>
        change (do
          let report ← locate nodes net m.blockNumber (m :: ms)
          Except.ok (⟨last, some report, checks⟩ : Outcome)) = .ok out at hreturned
        cases hlocate : locate nodes net m.blockNumber (m :: ms) with
        | error =>
          rw [hlocate] at hreturned
          cases hreturned
        | ok =>
          rw [hlocate] at hreturned
          cases hreturned
          cases hsilent

/-- **A call compares what it passes.** -/
theorem watchOnce_compared (hnames : (nodes.map (·.name)).Nodup)
    (htruthful : ∀ round again b i, TruthfulRequests (chains i b) (net.check round again b i))
    (hserves : Serves nodes chains cursor net out.checks)
    (hreturned : watchOnce rounds nodes net cursor = .ok out) (hsilent : out.report = none)
    (hb : cursor < b) (hle : b ≤ out.lastVerifiedBlock) (htwo : OnTwo nodes chains b) :
    ∃ c ∈ out.checks, Compared nodes c b := by
  obtain hidle | ⟨last, fromBlock, hstart, hscan, hlast⟩ := watchOnce_silent hreturned hsilent
  · -- the cursor has not moved forward
    exact absurd (UInt64.lt_of_lt_of_le hb hle) (UInt64.not_lt.mpr (idle_le hidle))
  · rw [hlast] at hle
    obtain ⟨hfrom, hmax⟩ := (scan_range hstart).2 b hb hle
    obtain ⟨c, hc, hcovers, hclean⟩ := (scan_covers hscan).2 b hfrom hmax
    have hheights : ∀ i < nodes.length, ∀ h ∈ net.latest i, b ≤ h := fun i hi h hh =>
      UInt64.le_trans hle (minBlock_le (mem_heights.mpr ⟨i, hi, hh⟩))
    exact ⟨c, hc, compared_of_clean hnames htruthful (hserves b hb hheights htwo c hc hcovers)
      hcovers hclean⟩

/-- **While no call reports a mismatch, every block that the cursor has passed since the start
and that at least two nodes have was compared, and found equal.** -/
theorem watch_compared (nodes : List NodeInfo) (chains : ℕ → UInt64 → Option BlockResult)
    (initial cursor : UInt64) (checks : List Check) (hnames : (nodes.map (·.name)).Nodup)
    (hwatch : Watch nodes chains (Serves nodes chains) initial cursor checks) (b : UInt64)
    (hb : initial < b) (hle : b ≤ cursor) (htwo : OnTwo nodes chains b) :
    ∃ c ∈ checks, Compared nodes c b := by
  induction hwatch with
  | initial => exact absurd hle (UInt64.not_le.mpr hb)
  | @call cursor checks rounds net out before truthful meets returned silent ih =>
    by_cases hbefore : b ≤ cursor
    · obtain ⟨c, hc, hcompared⟩ := ih hbefore
      exact ⟨c, List.mem_append_left _ hc, hcompared⟩
    · obtain ⟨c, hc, hcompared⟩ := watchOnce_compared hnames truthful meets returned silent
        (UInt64.not_le.mp hbefore) hle htwo
      exact ⟨c, List.mem_append_right _ hc, hcompared⟩

end Runs

variable (b : UInt64)

def having : Requests :=
  if b = 1 then answering { hash := [1] } else ⟨.null, none, fun _ => .null, fun _ => .null⟩

def timeout : Response := .failed (asciiBytes "timeout")

def failing : Requests := ⟨timeout, none, fun _ => timeout, fun _ => timeout⟩

def oneBlock : ℕ → UInt64 → Option BlockResult := fun _ b =>
  if b = 1 then some { hash := [1] } else none

/-- Two nodes at height 1, of which the first answers. -/
def netOf (second : UInt64 → Requests) : Net where
  latest _ := some 1
  check _ _ b i := if i = 0 then having b else second b
  walk _ _ := .id
  probe b i := if i = 0 then having b else second b
  refetch b i := if i = 0 then having b else second b

theorem truthful_having (i : ℕ) : TruthfulRequests (oneBlock i b) (having b) := by
  rw [oneBlock, having]
  by_cases hb : b = 1
  · rw [if_pos hb, if_pos hb]
    exact ⟨rfl, fun _ => rfl, fun _ => rfl⟩
  · rw [if_neg hb, if_neg hb]
    exact ⟨rfl, fun _ => rfl, fun _ => rfl⟩

theorem truthful_netOf {second : UInt64 → Requests}
    (h : ∀ b i, TruthfulRequests (oneBlock i b) (second b)) (round : ℕ) (again : Bool) (b : UInt64)
    (i : ℕ) : TruthfulRequests (oneBlock i b) ((netOf second).check round again b i) := by
  show TruthfulRequests (oneBlock i b) (if i = 0 then having b else second b)
  by_cases hi : i = 0
  · rw [if_pos hi]
    exact truthful_having b i
  · rw [if_neg hi]
    exact h b i

theorem watch_netOf (second : UInt64 → Requests) {condition : UInt64 → Net → List Check → Prop}
    (h : ∀ b i, TruthfulRequests (oneBlock i b) (second b))
    (hmeets : condition 0 (netOf second) [⟨1, 1, (netOf second).check 0 false⟩])
    (hreturned : watchOnce 2 twoNodes (netOf second) 0 =
      .ok ⟨1, none, [⟨1, 1, (netOf second).check 0 false⟩]⟩) :
    Watch twoNodes oneBlock condition 0 1 [⟨1, 1, (netOf second).check 0 false⟩] :=
  .call .initial (truthful_netOf h) hmeets hreturned rfl

/-- Both nodes have block 1, but the requests to the second fail: the block is skipped and
counts as verified. -/
theorem watchOnce_skips :
    Watch twoNodes oneBlock (fun _ _ _ => True) 0 1
        [⟨1, 1, (netOf fun _ => failing).check 0 false⟩] ∧
      OnTwo twoNodes oneBlock 1 ∧
      ¬ Compared twoNodes ⟨1, 1, (netOf fun _ => failing).check 0 false⟩ 1 := by
  refine ⟨watch_netOf _ (fun _ _ => ⟨trivial, fun _ => trivial, fun _ => trivial⟩) trivial rfl,
    ⟨0, 1, by decide, by decide, rfl, rfl⟩, fun h => ?_⟩
  obtain ⟨i, j, hlt, hj, -, hvalid⟩ := h.two
  have hone : j = 1 := by
    have hj : j < 2 := hj
    omega
  subst hone
  cases hvalid

/-- Two requests fail before one is answered. -/
def flaky : Requests :=
  { having b with
    first := timeout
    again := fun k => if k = 0 then timeout else (having b).again k }

theorem truthful_flaky (i : ℕ) : TruthfulRequests (oneBlock i b) (flaky b) := by
  refine ⟨trivial, (truthful_having b i).lag, fun k => ?_⟩
  show Truthful _ (if k = 0 then timeout else (having b).again k)
  split
  · trivial
  · exact (truthful_having b i).again k

theorem watch_compared_flaky :
    ∃ c ∈ [(⟨1, 1, (netOf flaky).check 0 false⟩ : Check)], Compared twoNodes c 1 := by
  refine watch_compared twoNodes oneBlock 0 1 _ (by decide)
    (watch_netOf flaky truthful_flaky ?_ rfl) 1 (by decide) (by decide)
    ⟨0, 1, by decide, by decide, rfl, rfl⟩
  intro b hb hheights _ c hc _
  have hone : b = 1 := by
    have hle : b ≤ 1 := hheights 0 (by decide) 1 rfl
    grind
  subst hone
  obtain rfl := List.mem_singleton.mp hc
  exact ⟨0, 1, by decide, by decide, .inl rfl, .inr ⟨rfl, 1, by decide, rfl⟩⟩

/-! ### The search -/

/-- The check of the block by itself has a mismatch. -/
def Mismatched (net : UInt64 → ℕ → Requests) (b : UInt64) : Prop :=
  ∃ out, checkBatch nodes net b b = .ok out ∧ out.mismatches ≠ []

/-- The first block up to `first` with a property, or `first` if there is none. -/
def IsFirst (U : UInt64 → Prop) (first real : UInt64) : Prop :=
  (U real ∧ 1 ≤ real ∧ real ≤ first ∧ ∀ b, 1 ≤ b → b ≤ first → U b → real ≤ b) ∨
    (real = first ∧ ∀ b, 1 ≤ b → b ≤ first → ¬ U b)

/-- The states of the search that starts from `first`. -/
inductive Search.Reached (nodes : List NodeInfo) (net : Net) (first : UInt64) : Search → Prop where
  | start : Reached nodes net first ⟨1, first - 1, first⟩
  | next {s : Search} {found : Bool} (before : Reached nodes net first s)
      (unfinished : s.low ≤ s.high) (probed : probe nodes net s.mid = .ok found) :
      Reached nodes net first (s.next found)

/-- The bounds of the search, what is known below them, and what was found above. -/
structure Search.Inv (U : UInt64 → Prop) (first : UInt64) (s : Search) : Prop where
  low : 1 ≤ s.low.toNat
  bounds : s.low.toNat ≤ s.high.toNat + 1
  high : s.high.toNat + 1 = s.realFirstMismatch.toNat
  real : s.realFirstMismatch.toNat ≤ first.toNat
  below : ∀ b, 1 ≤ b → b < s.low → ¬ U b
  found : s.realFirstMismatch = first ∨ U s.realFirstMismatch

section Searching

variable {nodes} {net} {first : UInt64} {s : Search} {found : Bool}
  {U : UInt64 → Prop}

theorem toNat_mid (h : s.low ≤ s.high) :
    s.mid.toNat = s.low.toNat + (s.high.toNat - s.low.toNat) / 2 := by
  have hle := UInt64.le_iff_toNat_le.mp h
  have hbound := s.high.toNat_lt
  have htwo : (2 : UInt64).toNat = 2 := rfl
  rw [Search.mid, UInt64.toNat_add, UInt64.toNat_div, UInt64.toNat_sub_of_le _ _ h, htwo]
  omega

theorem probe_ok (nodes : List NodeInfo) (net : Net) (b : UInt64) :
    ∃ found, probe nodes net b = .ok found ∧ (found = true ↔ Mismatched nodes net.probe b) := by
  obtain ⟨out, hout, -⟩ := checkBatch_single nodes net.probe b
  refine ⟨!out.mismatches.isEmpty, by rw [probe, hout]; rfl, ?_⟩
  have hne : (!out.mismatches.isEmpty) = true ↔ out.mismatches ≠ [] := by
    cases out.mismatches <;> simp
  rw [hne]
  constructor
  · exact fun h => ⟨out, hout, h⟩
  · rintro ⟨out', hout', h⟩
    rw [hout] at hout'
    cases hout'
    exact h

theorem Search.inv_start (hfirst : 1 ≤ first) : Search.Inv U first ⟨1, first - 1, first⟩ := by
  have hfirst' : 1 ≤ first.toNat := UInt64.le_iff_toNat_le.mp hfirst
  have hhigh : (first - 1).toNat = first.toNat - 1 := UInt64.toNat_sub_of_le _ _ hfirst
  have hone : (1 : UInt64).toNat = 1 := rfl
  constructor
  · exact Nat.le_refl 1
  · show (1 : UInt64).toNat ≤ (first - 1).toNat + 1
    omega
  · show (first - 1).toNat + 1 = first.toNat
    omega
  · exact Nat.le_refl _
  · intro b hb hlow
    exact absurd hb (UInt64.not_le.mpr hlow)
  · exact .inl rfl

/-- **A step keeps the invariant and makes the interval smaller.** -/
theorem Search.Inv.next (hup : ∀ b b', U b → b ≤ b' → U b') (h : Search.Inv U first s)
    (hopen : s.low ≤ s.high) (hfound : found = true ↔ U s.mid) :
    Search.Inv U first (s.next found) ∧
      (s.next found).high.toNat + s.low.toNat < s.high.toNat + (s.next found).low.toNat := by
  have hmid := toNat_mid hopen
  have hopen' := UInt64.le_iff_toNat_le.mp hopen
  obtain ⟨hlow, hbounds, hhigh, hreal, hbelow, hsome⟩ := h
  cases found with
  | true =>
    have hpred : (s.mid - 1).toNat = s.mid.toNat - 1 := by
      refine UInt64.toNat_sub_of_le _ _ (UInt64.le_iff_toNat_le.mpr ?_)
      show 1 ≤ s.mid.toNat
      omega
    refine ⟨⟨hlow, ?_, ?_, ?_, hbelow, .inr (hfound.mp rfl)⟩, ?_⟩
    · show s.low.toNat ≤ (s.mid - 1).toNat + 1
      omega
    · show (s.mid - 1).toNat + 1 = s.mid.toNat
      omega
    · show s.mid.toNat ≤ first.toNat
      omega
    · show (s.mid - 1).toNat + s.low.toNat < s.high.toNat + s.low.toNat
      omega
  | false =>
    have hsucc : (s.mid + 1).toNat = s.mid.toNat + 1 := by
      refine toNat_succ (UInt64.lt_iff_toNat_lt.mpr (?_ : s.mid.toNat < first.toNat))
      omega
    refine ⟨⟨?_, ?_, hhigh, hreal, ?_, hsome⟩, ?_⟩
    · show 1 ≤ (s.mid + 1).toNat
      omega
    · show (s.mid + 1).toNat ≤ s.high.toNat + 1
      omega
    · -- a mismatch below the middle would be one in the middle
      intro b hb hlt hU
      have hle : b ≤ s.mid := by
        have hlt' : b.toNat < (s.mid + 1).toNat := UInt64.lt_iff_toNat_lt.mp hlt
        rw [UInt64.le_iff_toNat_le]
        omega
      exact Bool.false_ne_true (hfound.mpr (hup b s.mid hU hle))
    · show s.high.toNat + s.low.toNat < s.high.toNat + (s.mid + 1).toNat
      omega

theorem Search.Inv.isFirst (hup : ∀ b b', U b → b ≤ b' → U b') (h : Search.Inv U first s)
    (hclosed : ¬ s.low ≤ s.high) : IsFirst U first s.realFirstMismatch := by
  have hlow : s.low = s.realFirstMismatch := by
    have hlt := UInt64.lt_iff_toNat_lt.mp (UInt64.not_le.mp hclosed)
    have hbounds := h.bounds
    have hhigh := h.high
    rw [← UInt64.toNat_inj]
    omega
  have hpos : 1 ≤ s.realFirstMismatch := hlow ▸ UInt64.le_iff_toNat_le.mpr h.low
  have hbelow := h.below
  rw [hlow] at hbelow
  by_cases hU : U s.realFirstMismatch
  · refine .inl ⟨hU, hpos, UInt64.le_iff_toNat_le.mpr h.real, fun b hb _ hUb => ?_⟩
    exact UInt64.not_lt.mp fun hlt => hbelow b hb hlt hUb
  · have hreal := h.found.resolve_right hU
    refine .inr ⟨hreal, fun b _ hle hUb => hU ?_⟩
    exact hup b _ hUb (hreal ▸ hle)

variable (hup : ∀ b b', Mismatched nodes net.probe b → b ≤ b' → Mismatched nodes net.probe b')

include hup

/-- **With as many rounds as there are blocks in the interval the search ends.** -/
theorem search_first {rounds : ℕ} (h : Search.Inv (Mismatched nodes net.probe) first s)
    (hrounds : s.high.toNat + 2 ≤ s.low.toNat + rounds) :
    ∃ real, search nodes net rounds s = .ok real ∧
      IsFirst (Mismatched nodes net.probe) first real := by
  induction rounds generalizing s with
  | zero =>
    have hbounds := h.bounds
    omega
  | succ rounds ih =>
    rw [search]
    by_cases hopen : s.low ≤ s.high
    · rw [if_pos hopen]
      obtain ⟨found, hprobe, hfound⟩ := probe_ok nodes net s.mid
      obtain ⟨hinv, hless⟩ := h.next hup hopen hfound
      rw [hprobe]
      exact ih hinv (by omega)
    · rw [if_neg hopen]
      exact ⟨_, rfl, h.isFirst hup hopen⟩

theorem Search.Reached.inv (hfirst : 1 ≤ first) (h : Search.Reached nodes net first s) :
    Search.Inv (Mismatched nodes net.probe) first s := by
  induction h with
  | start => exact Search.inv_start hfirst
  | @next s found before hopen probed ih =>
    obtain ⟨found', hprobe, hfound⟩ := probe_ok nodes net s.mid
    rw [probed] at hprobe
    cases hprobe
    exact (ih.next hup hopen hfound).1

theorem locate_first (hfirst : 1 ≤ first) (mismatches : List Mismatch) :
    ∃ report, locate nodes net first mismatches = .ok report ∧
      report.firstMismatchInBatch = first ∧
      IsFirst (Mismatched nodes net.probe) first report.realFirstMismatch := by
  have hrounds : (first - 1).toNat + 2 ≤ (1 : UInt64).toNat + first.toNat := by
    have hfirst' : 1 ≤ first.toNat := UInt64.le_iff_toNat_le.mp hfirst
    have hone : (1 : UInt64).toNat = 1 := rfl
    rw [UInt64.toNat_sub_of_le _ _ hfirst]
    omega
  obtain ⟨real, hsearch, hreal⟩ := search_first hup (Search.inv_start hfirst) hrounds
  rw [locate, hsearch]
  show ∃ report, (if real < first then _ else _) = _ ∧ _
  split
  · obtain ⟨out, hout, -⟩ := checkBatch_single nodes net.refetch real
    rw [hout]
    exact ⟨_, rfl, rfl, hreal⟩
  · exact ⟨_, rfl, rfl, hreal⟩

end Searching

/-- The scan of the call finds mismatches, the first of which is for the block `first`. -/
def Finds (rounds : ℕ) (nodes : List NodeInfo) (net : Net) (lastVerifiedBlock first : UInt64) :
    Prop :=
  ∃ last fromBlock m ms checks,
    start (heights nodes net) lastVerifiedBlock = .scan last fromBlock ∧
      scan nodes net (maxBlock (heights nodes net)) rounds 0 fromBlock [] = .ok (m :: ms, checks) ∧
      m.blockNumber = first

/-- **Where the blocks that have a mismatch by themselves are all those from some block on, the
search ends at the first of them, or where it started if they come later, and subtracts 1
only from positive numbers.** -/
theorem watchOnce_first (rounds : ℕ) (nodes : List NodeInfo) (net : Net)
    (lastVerifiedBlock first : UInt64) (hfinds : Finds rounds nodes net lastVerifiedBlock first)
    (hfirst : 1 ≤ first)
    (hup : ∀ b b', Mismatched nodes net.probe b → b ≤ b' → Mismatched nodes net.probe b') :
    (∃ out report, watchOnce rounds nodes net lastVerifiedBlock = .ok out ∧
      out.report = some report ∧ report.firstMismatchInBatch = first ∧
      IsFirst (Mismatched nodes net.probe) first report.realFirstMismatch) ∧
    ∀ s, Search.Reached nodes net first s → s.low ≤ s.high → 1 ≤ s.mid := by
  constructor
  · obtain ⟨last, fromBlock, m, ms, checks, hstart, hscan, rfl⟩ := hfinds
    obtain ⟨report, hlocate, hsame, hreal⟩ := locate_first hup hfirst (m :: ms)
    refine ⟨⟨last, some report, checks⟩, report, ?_, rfl, hsame, hreal⟩
    rw [watchOnce]
    simp only [hstart, hscan]
    show (do
      let report ← locate nodes net m.blockNumber (m :: ms)
      Except.ok (⟨last, some report, checks⟩ : Outcome)) = _
    rw [hlocate]
    rfl
  · intro s hs hopen
    have hlow := (hs.inv hup hfirst).low
    have hmid := toNat_mid hopen
    rw [UInt64.le_iff_toNat_le]
    show 1 ≤ s.mid.toNat
    omega

/-- Two nodes at height 5 that differ in all blocks. -/
def differingNet : Net :=
  let answers := fun i => answering { hash := if i = 0 then [1] else [2] }
  { latest := fun _ => some 5
    check := fun _ _ _ i => answers i
    walk := fun _ _ => .id
    probe := fun _ i => answers i
    refetch := fun _ i => answers i }

theorem finds_differing : Finds 2 twoNodes differingNet 4 5 :=
  ⟨4, 5, _, [], _, rfl, rfl, rfl⟩

theorem mismatched_differing : Mismatched twoNodes differingNet.probe b := by
  obtain ⟨out, hout, hmismatches⟩ := checkBatch_single twoNodes differingNet.probe b
  refine ⟨out, hout, ?_⟩
  have hvalid : validBlocks twoNodes (resultOf twoNodes differingNet.probe b).blocks =
      [{ hash := [1] }, { hash := [2] }] := rfl
  rw [hmismatches, differences, hvalid]
  exact List.cons_ne_nil _ _

/-- The call finds block 5 and goes back to block 1. -/
theorem watchOnce_first_differing :
    (∃ out report, watchOnce 2 twoNodes differingNet 4 = .ok out ∧ out.report = some report ∧
      report.firstMismatchInBatch = 5 ∧
      IsFirst (Mismatched twoNodes differingNet.probe) 5 report.realFirstMismatch) ∧
    ∀ s, Search.Reached twoNodes differingNet 5 s → s.low ≤ s.high → 1 ≤ s.mid := by
  refine watchOnce_first 2 twoNodes differingNet 4 5 finds_differing (by decide) ?_
  intro b b' _ _
  exact mismatched_differing b'

end MetaNode.BlockHashWatch
