/-
The Merkle root of an uploaded file (`file-storage/up-down-debug/main.go`).

The uploader cuts a file into chunks, hashes each of them, pads the hashes to a power of two
with the hash of the empty string and hashes neighbours together until one is left.  The two
loops of the source, one for the root and one for a proof, are followed level by level and
compared with the trees of `Merkle`.  `none` is a panic.

`math.Log2`, `math.Ceil` and `math.Pow` are taken to be exact.
-/
import MetaNode.Merkle
import MetaNode.TrieNode
import Mathlib.Data.Nat.Log
import Mathlib.Data.Set.Function

namespace MetaNode.FileMerkle

variable (E : Env)

/-! ### The root -/

def calculateNextPowerOfTwo (n : ℕ) : ℕ := if n ≤ 1 then 1 else 2 ^ Nat.clog 2 n

/-- What is hashed for two neighbours, `append(treeLevel[i], treeLevel[i+1]...)`. -/
def combined (u : Hash × Hash) : Bytes := u.1.1 ++ u.2.1

def combine (a b : Hash) : Hash := E.keccak256 (combined (a, b))

def nextLevel : List Hash → Option (List Hash)
  | [] => some []
  -- treeLevel[i+1] is out of range
  | [_] => none
  | a :: b :: rest => (nextLevel rest).map (combine E a b :: ·)

/-- `for len(treeLevel) > 1`, then `treeLevel[0]`. -/
def climb : ℕ → List Hash → Option Hash
  | 0, _ => none
  | fuel + 1, treeLevel =>
    if 1 < treeLevel.length then (nextLevel E treeLevel).bind (climb fuel) else treeLevel.head?

variable (chunks : List Bytes)

/-- The hashes of the chunks, padded with the hash of the empty string. -/
def paddedLeaves : List Hash :=
  chunks.map E.keccak256 ++
    List.replicate (calculateNextPowerOfTwo chunks.length - chunks.length) (E.keccak256 [])

def buildMerkleTreePadded : Option (List Hash × Hash) :=
  if chunks.length = 0 then some ([], E.keccak256 [])
  else
    let leaves := paddedLeaves E chunks
    (climb E (leaves.length + 1) leaves).map fun root => (leaves, root)

/-! ### The proof of a chunk -/

/-- One pass over a level from `i`: the siblings that are met, and the level above. -/
def scan (currentIndex : ℕ) : ℕ → List Hash → Option (List Hash × List Hash)
  | _, [] => some ([], [])
  | _, [_] => none
  | i, a :: b :: rest => (scan currentIndex (i + 2) rest).map fun found =>
      (if currentIndex = i then b :: found.1
        else if currentIndex = i + 1 then a :: found.1
        else found.1,
        combine E a b :: found.2)

def collect : ℕ → List Hash → ℕ → Option (List Hash)
  | 0, _, _ => none
  | fuel + 1, treeLevel, currentIndex =>
    if 1 < treeLevel.length then
      (scan E currentIndex 0 treeLevel).bind fun found =>
        (collect fuel found.2 (currentIndex / 2)).map (found.1 ++ ·)
    else some []

def getMerkleProofPadded (leaves : List Hash) (chunkIndex : ℕ) : Option (List Hash) :=
  collect E (leaves.length + 1) leaves chunkIndex

/-! ### The loops and the tree -/

theorem calculateNextPowerOfTwo_eq (n : ℕ) : calculateNextPowerOfTwo n = 2 ^ Nat.clog 2 n := by
  unfold calculateNextPowerOfTwo
  split
  · next h => rw [Nat.clog_of_right_le_one h, Nat.pow_zero]
  · rfl

theorem length_paddedLeaves : (paddedLeaves E chunks).length = 2 ^ Nat.clog 2 chunks.length := by
  have hle := Nat.le_pow_clog (b := 2) (by decide) chunks.length
  rw [paddedLeaves, List.length_append, List.length_map, List.length_replicate,
    calculateNextPowerOfTwo_eq]
  omega

theorem combined_injective : Function.Injective combined := by
  rintro ⟨a, b⟩ ⟨c, d⟩ h
  obtain ⟨h₁, h₂⟩ := List.append_inj h (a.2.trans c.2.symm)
  exact Prod.ext (Subtype.ext h₁) (Subtype.ext h₂)

variable {E} {l : List Hash}

theorem nextLevel_eq (h : l.length % 2 = 0) :
    nextLevel E l = some (Merkle.pairUp (combine E) l) := by
  induction l using Merkle.pairs.induct with
  | case1 => rfl
  | case2 => cases h
  | case3 a b rest ih =>
    rw [List.length_cons, List.length_cons] at h
    rw [nextLevel, ih (by omega)]
    rfl

variable {d : ℕ}

theorem length_of_succ (hl : l.length = 2 ^ (d + 1)) : 1 < l.length ∧ l.length % 2 = 0 := by
  rw [hl]
  exact ⟨Nat.one_lt_two_pow (Nat.succ_ne_zero d),
    Nat.two_pow_mod_two_eq_zero.mpr (Nat.succ_pos d)⟩

theorem climb_eq {fuel : ℕ} (hl : l.length = 2 ^ d) (hfuel : d < fuel) :
    climb E fuel l = Merkle.root (combine E) d l := by
  induction d generalizing fuel l with
  | zero =>
    obtain ⟨fuel, rfl⟩ := Nat.exists_eq_add_one.mpr hfuel
    rw [climb, if_neg (by rw [hl]; decide), Merkle.root]
  | succ d ih =>
    obtain ⟨fuel, rfl⟩ := Nat.exists_eq_add_one.mpr (Nat.zero_lt_of_lt hfuel)
    have hup := Merkle.length_pairUp_of_eq (combine E) hl
    obtain ⟨hlong, heven⟩ := length_of_succ hl
    rw [climb, if_pos hlong, nextLevel_eq heven, Option.bind_some,
      ih hup (Nat.lt_of_succ_lt_succ hfuel), Merkle.root]

variable {c i : ℕ}

theorem scan_of_lt (hl : l.length % 2 = 0) (hc : c < i) :
    scan E c i l = some ([], Merkle.pairUp (combine E) l) := by
  induction l using Merkle.pairs.induct generalizing i with
  | case1 => rfl
  | case2 => cases hl
  | case3 a b rest ih =>
    rw [List.length_cons, List.length_cons] at hl
    rw [scan, ih (by omega) (by omega), Option.map_some, if_neg (by omega), if_neg (by omega)]
    rfl

theorem scan_eq (hl : l.length % 2 = 0) (hi : i % 2 = 0) (hc : i ≤ c) :
    scan E c i l = some (l[Merkle.sibling c - i]?.toList, Merkle.pairUp (combine E) l) := by
  induction l using Merkle.pairs.induct generalizing i with
  | case1 => rfl
  | case2 => cases hl
  | case3 a b rest ih =>
    rw [List.length_cons, List.length_cons] at hl
    -- the index is the left one, the right one, or further on
    obtain hleft | hright | hfurther : c = i ∨ c = i + 1 ∨ i + 2 ≤ c := by omega
    · have hsibling : Merkle.sibling c - i = 1 := by
        rw [Merkle.sibling, if_pos (by omega)]
        omega
      rw [scan, scan_of_lt (by omega) (by omega), Option.map_some, if_pos hleft, hsibling]
      rfl
    · have hsibling : Merkle.sibling c - i = 0 := by
        rw [Merkle.sibling, if_neg (by omega)]
        omega
      rw [scan, scan_of_lt (by omega) (by omega), Option.map_some, if_neg (by omega),
        if_pos hright, hsibling]
      rfl
    · have hsibling : Merkle.sibling c - i = Merkle.sibling c - (i + 2) + 2 := by
        unfold Merkle.sibling
        split <;> omega
      rw [scan, ih (by omega) (by omega) hfurther, Option.map_some, if_neg (by omega),
        if_neg (by omega), hsibling]
      rfl

theorem collect_eq {fuel : ℕ} (hl : l.length = 2 ^ d) (hfuel : d < fuel) :
    collect E fuel l c = some (Merkle.proof (combine E) d l c) := by
  induction d generalizing fuel l c with
  | zero =>
    obtain ⟨fuel, rfl⟩ := Nat.exists_eq_add_one.mpr hfuel
    rw [collect, if_neg (by rw [hl]; decide), Merkle.proof]
  | succ d ih =>
    obtain ⟨fuel, rfl⟩ := Nat.exists_eq_add_one.mpr (Nat.zero_lt_of_lt hfuel)
    have hup := Merkle.length_pairUp_of_eq (combine E) hl
    obtain ⟨hlong, heven⟩ := length_of_succ hl
    rw [collect, if_pos hlong, scan_eq heven rfl (Nat.zero_le c), Option.bind_some,
      ih hup (Nat.lt_of_succ_lt_succ hfuel), Option.map_some, Merkle.proof]
    rfl

theorem getMerkleProofPadded_eq {leaves : List Hash} (h : leaves.length = 2 ^ d) (i : ℕ) :
    getMerkleProofPadded E leaves i = some (Merkle.proof (combine E) d leaves i) :=
  collect_eq h (by rw [h]; exact Nat.lt_succ_of_lt Nat.lt_two_pow_self)

variable {chunks}

theorem buildMerkleTreePadded_eq_some_iff (h : chunks ≠ []) {leaves : List Hash} {root : Hash} :
    buildMerkleTreePadded E chunks = some (leaves, root) ↔ leaves = paddedLeaves E chunks ∧
      Merkle.root (combine E) (Nat.clog 2 chunks.length) (paddedLeaves E chunks) = some root := by
  have hlen := length_paddedLeaves E chunks
  have hfuel : Nat.clog 2 chunks.length < (paddedLeaves E chunks).length + 1 := by
    rw [hlen]
    exact Nat.lt_succ_of_lt Nat.lt_two_pow_self
  simp only [buildMerkleTreePadded, List.length_eq_zero_iff, if_neg h, climb_eq hlen hfuel,
    Option.map_eq_some_iff, Prod.mk.injEq]
  constructor
  · rintro ⟨root, hroot, rfl, rfl⟩
    exact ⟨rfl, hroot⟩
  · rintro ⟨rfl, hroot⟩
    exact ⟨root, hroot, rfl, rfl⟩

/-! ### What is hashed -/

/-- The strings of 64 bytes that are hashed for the tree above the chunks. -/
def treeInputs (E : Env) (chunks : List Bytes) : List Bytes :=
  (Merkle.treePairs (combine E) (Nat.clog 2 chunks.length) (paddedLeaves E chunks)).map combined

/-- The strings of 64 bytes that are hashed on the way up from `x` with siblings `p`. -/
def foldInputs (E : Env) (x : Hash) (p : List Hash) (i : ℕ) : List Bytes :=
  (Merkle.foldPairs (combine E) x p i).map combined

theorem separate_of_injOn {S : Set Bytes} (hinj : Set.InjOn E.keccak256 S)
    {us vs : List (Hash × Hash)} (hus : ∀ b ∈ us.map combined, b ∈ S)
    (hvs : ∀ b ∈ vs.map combined, b ∈ S) : Merkle.Separate (combine E) us vs := by
  intro u hu v hv heq
  exact combined_injective
    (hinj (hus _ (List.mem_map_of_mem hu)) (hvs _ (List.mem_map_of_mem hv)) heq)

/-- For every chunk and every list of siblings: climbing with them reaches the root just if
the chunk's hash is the leaf at its index and the siblings are its proof. -/
theorem fold_eq_root_iff (E : Env) {chunks : List Bytes} {i : ℕ} (hi : i < chunks.length)
    (d : Bytes) {p : List Hash}
    (hp : p.length = Nat.log 2 (calculateNextPowerOfTwo chunks.length))
    (hinj : Set.InjOn E.keccak256
      {b | b ∈ foldInputs E (E.keccak256 d) p i ∨ b ∈ treeInputs E chunks}) :
    ∃ leaves root, buildMerkleTreePadded E chunks = some (leaves, root) ∧
      (Merkle.fold (combine E) (E.keccak256 d) p i = root ↔
        leaves[i]? = some (E.keccak256 d) ∧ getMerkleProofPadded E leaves i = some p) := by
  have hne : chunks ≠ [] := List.ne_nil_of_length_pos (Nat.zero_lt_of_lt hi)
  have hlen := length_paddedLeaves E chunks
  have hdepth : p.length = Nat.clog 2 chunks.length := by
    rw [hp, calculateNextPowerOfTwo_eq, Nat.log_pow (by decide)]
  have hlt : i < 2 ^ Nat.clog 2 chunks.length :=
    Nat.lt_of_lt_of_le hi (Nat.le_pow_clog (by decide) _)
  obtain ⟨root, hroot⟩ := Merkle.exists_root (combine E) hlen
  refine ⟨_, root, (buildMerkleTreePadded_eq_some_iff hne).mpr ⟨rfl, hroot⟩, ?_⟩
  have hsep : Merkle.Separate (combine E) (Merkle.foldPairs (combine E) (E.keccak256 d) p i)
      (Merkle.treePairs (combine E) (Nat.clog 2 chunks.length) (paddedLeaves E chunks)) :=
    separate_of_injOn hinj (fun b hb => Or.inl hb) (fun b hb => Or.inr hb)
  have hiff := Merkle.root_eq_fold_iff hlen hlt hdepth hsep
  rw [hroot, Option.some_inj] at hiff
  rw [getMerkleProofPadded_eq hlen, Option.some_inj, eq_comm (b := p), ← hiff]
  exact eq_comm

theorem treeInputs_pair (a b : Bytes) :
    treeInputs E [a, b] = [combined (E.keccak256 a, E.keccak256 b)] := rfl

theorem fold_eq_root_iff_example :
    ∃ leaves root, buildMerkleTreePadded stdEnv [[1], [2]] = some (leaves, root) ∧
      (Merkle.fold (combine stdEnv) (stdEnv.keccak256 [1]) [stdEnv.keccak256 [2]] 0 = root ↔
        leaves[0]? = some (stdEnv.keccak256 [1]) ∧
          getMerkleProofPadded stdEnv leaves 0 = some [stdEnv.keccak256 [2]]) := by
  refine fold_eq_root_iff stdEnv (by decide) [1] (by decide) ?_
  -- one string is hashed, in the tree and on the way up
  have hone : ∀ b, b ∈ foldInputs stdEnv (stdEnv.keccak256 [1]) [stdEnv.keccak256 [2]] 0 ∨
      b ∈ treeInputs stdEnv [[1], [2]] →
      b = combined (stdEnv.keccak256 [1], stdEnv.keccak256 [2]) := by
    rintro b (hb | hb)
    · exact List.mem_singleton.mp hb
    · rw [treeInputs_pair] at hb
      exact List.mem_singleton.mp hb
  intro b hb b' hb' _
  rw [hone b hb, hone b' hb']

/-! ### The chunks of a file -/

/-- The number of chunks.  The sum is a `uint64` and can wrap. -/
def totalChunks (chunkSize : UInt64) (fileData : Bytes) : UInt64 :=
  (UInt64.ofNat fileData.length + chunkSize - 1) / chunkSize

/-- `fileData[start:end]` for chunk `i`. -/
def chunkData (chunkSize : UInt64) (fileData : Bytes) (i : ℕ) : Option Bytes :=
  let contentLen := UInt64.ofNat fileData.length
  let start := UInt64.ofNat i * chunkSize
  let stop := if start + chunkSize > contentLen then contentLen else start + chunkSize
  if start ≤ stop then some ((fileData.drop start.toNat).take (stop.toNat - start.toNat))
  else none

/-- The chunks that `uploadFile` cuts a file into. -/
def uploadChunks (chunkSize : UInt64) (fileData : Bytes) : Option (List Bytes) :=
  if chunkSize = 0 then none
  else (List.range (totalChunks chunkSize fileData).toNat).mapM (chunkData chunkSize fileData)

/-- A file in pieces of `n` bytes. -/
def split (n : ℕ) (file : Bytes) : List Bytes :=
  (List.range ((file.length + n - 1) / n)).map fun i => (file.drop (i * n)).take n

variable {n : ℕ}

theorem flatten_split (hn : 0 < n) (file : Bytes) : (split n file).flatten = file := by
  have htake : ∀ m, ((List.range m).map fun i => (file.drop (i * n)).take n).flatten =
      file.take (m * n) := by
    intro m
    induction m with
    | zero => simp
    | succ m ih =>
      rw [List.range_succ, List.map_append, List.flatten_append, ih, Nat.succ_mul, List.take_add]
      simp
  rw [split, htake]
  -- rounded up, the pieces reach the end of the file
  refine List.take_of_length_le ?_
  have hdiv := Nat.div_add_mod (file.length + n - 1) n
  have hmod := Nat.mod_lt (file.length + n - 1) hn
  rw [Nat.mul_comm] at hdiv
  omega

theorem start_lt {len : ℕ} (hn : 0 < n) (hi : i < (len + n - 1) / n) : i * n < len := by
  have hle : (i + 1) * n ≤ len + n - 1 := (Nat.le_div_iff_mul_le hn).mp hi
  rw [Nat.succ_mul] at hle
  omega

theorem ne_nil_of_mem_split (hn : 0 < n) {file chunk : Bytes} (h : chunk ∈ split n file) :
    chunk ≠ [] := by
  obtain ⟨i, hi, rfl⟩ := List.mem_map.mp h
  have hstart := start_lt hn (List.mem_range.mp hi)
  refine List.ne_nil_of_length_pos ?_
  rw [List.length_take, List.length_drop]
  omega

section Upload

variable {chunkSize : UInt64} {file : Bytes}

theorem toNat_contentLen (hlen : file.length < 2 ^ 63) :
    (UInt64.ofNat file.length).toNat = file.length :=
  UInt64.toNat_ofNat_of_lt (Nat.lt_trans hlen (by decide))

theorem toNat_totalChunks (hlen : file.length < 2 ^ 63) (hsize : 0 < chunkSize.toNat) :
    (totalChunks chunkSize file).toNat =
      if file.length + chunkSize.toNat ≤ 2 ^ 64 then
        (file.length + chunkSize.toNat - 1) / chunkSize.toNat
      else 0 := by
  have hlt := chunkSize.toNat_lt
  rw [totalChunks, UInt64.toNat_div, UInt64.toNat_sub, UInt64.toNat_add, toNat_contentLen hlen,
    UInt64.toNat_one]
  split
  · next hfits =>
    congr 1
    omega
  · next hwraps => exact Nat.div_eq_of_lt (by omega)

theorem toNat_start (hsize : 0 < chunkSize.toNat) (hi : i * chunkSize.toNat < 2 ^ 63) :
    (UInt64.ofNat i * chunkSize).toNat = i * chunkSize.toNat := by
  have hle : i ≤ i * chunkSize.toNat := Nat.le_mul_of_pos_right i hsize
  rw [UInt64.toNat_mul, UInt64.toNat_ofNat', Nat.mod_eq_of_lt (by omega : i < 2 ^ 64),
    Nat.mod_eq_of_lt (by omega)]

variable (hlen : file.length < 2 ^ 63)

include hlen

theorem chunkData_eq (hfits : file.length + chunkSize.toNat ≤ 2 ^ 64)
    (hi : i * chunkSize.toNat < file.length) (hsize : 0 < chunkSize.toNat) :
    chunkData chunkSize file i = some ((file.drop (i * chunkSize.toNat)).take chunkSize.toNat) := by
  have hcontent := toNat_contentLen hlen
  have hstart : (UInt64.ofNat i * chunkSize).toNat = i * chunkSize.toNat :=
    toNat_start hsize (Nat.lt_trans hi hlen)
  have hstop : (UInt64.ofNat i * chunkSize + chunkSize).toNat =
      i * chunkSize.toNat + chunkSize.toNat := by
    rw [UInt64.toNat_add, hstart, Nat.mod_eq_of_lt (by omega)]
  simp only [chunkData, gt_iff_lt, UInt64.lt_iff_toNat_lt, UInt64.le_iff_toNat_le, hstart, hcontent,
    hstop]
  split
  · next hlast =>
    have hdrop : (file.drop (i * chunkSize.toNat)).length = file.length - i * chunkSize.toNat :=
      List.length_drop
    rw [hcontent, if_pos (Nat.le_of_lt hi), List.take_of_length_le (Nat.le_of_eq hdrop),
      List.take_of_length_le (by omega)]
  · rw [hstop, if_pos (Nat.le_add_right _ _), Nat.add_sub_cancel_left]

theorem uploadChunks_of_pos (hsize : 0 < chunkSize.toNat) :
    uploadChunks chunkSize file = (List.range (if file.length + chunkSize.toNat ≤ 2 ^ 64 then
      (file.length + chunkSize.toNat - 1) / chunkSize.toNat else 0)).mapM
        (chunkData chunkSize file) := by
  have hzero : chunkSize ≠ 0 := by
    rintro rfl
    exact Nat.lt_irrefl 0 hsize
  rw [uploadChunks, if_neg hzero, toNat_totalChunks hlen hsize]

theorem uploadChunks_eq_split (hsize : 0 < chunkSize.toNat)
    (hfits : file.length + chunkSize.toNat ≤ 2 ^ 64) :
    uploadChunks chunkSize file = some (split chunkSize.toNat file) := by
  rw [uploadChunks_of_pos hlen hsize, if_pos hfits]
  refine Wire.mapM_eq_some_map fun i hi => ?_
  exact chunkData_eq hlen hfits (start_lt hsize (List.mem_range.mp hi)) hsize

variable (h : uploadChunks chunkSize file = some chunks)

include h

theorem uploadChunks_eq_some :
    0 < chunkSize.toNat ∧ (chunks = [] ∨ chunks = split chunkSize.toNat file) := by
  have hsize : 0 < chunkSize.toNat := by
    refine Nat.pos_of_ne_zero fun hz => ?_
    rw [uploadChunks, if_pos (UInt64.toNat_inj.mp hz)] at h
    cases h
  refine ⟨hsize, ?_⟩
  by_cases hfits : file.length + chunkSize.toNat ≤ 2 ^ 64
  · rw [uploadChunks_eq_split hlen hsize hfits] at h
    exact Or.inr (Option.some.inj h).symm
  · rw [uploadChunks_of_pos hlen hsize, if_neg hfits] at h
    exact Or.inl (Option.some.inj h).symm

theorem ne_nil_of_uploadChunks : ∀ c ∈ chunks, c ≠ [] := by
  obtain ⟨hsize, rfl | rfl⟩ := uploadChunks_eq_some hlen h
  · exact List.forall_mem_nil _
  · exact fun c hc => ne_nil_of_mem_split hsize hc

theorem flatten_uploadChunks : chunks.flatten ++ file.drop chunks.flatten.length = file := by
  obtain ⟨hsize, rfl | rfl⟩ := uploadChunks_eq_some hlen h
  · rfl
  · rw [flatten_split hsize, List.drop_length, List.append_nil]

end Upload

/-! ### The root as the name of a file -/

/-- Everything that is hashed for a list of chunks: the empty string for the padding, the
chunks, and the tree above them. -/
def hashedInputs (E : Env) (chunks : List Bytes) : List Bytes :=
  [] :: chunks ++ treeInputs E chunks

theorem paddedLeaves_eq_map (chunks : List Bytes) :
    paddedLeaves E chunks = (chunks ++
      List.replicate (calculateNextPowerOfTwo chunks.length - chunks.length) []).map
        E.keccak256 := by
  rw [paddedLeaves, List.map_append, List.map_replicate]

theorem filter_padded (hne : ∀ c ∈ chunks, c ≠ []) (k : ℕ) :
    (chunks ++ List.replicate k []).filter (· ≠ []) = chunks := by
  rw [List.filter_append, List.filter_replicate_of_neg (by decide), List.append_nil,
    List.filter_eq_self]
  intro c hc
  exact decide_eq_true (hne c hc)

variable {cs ds : List Bytes}

theorem eq_of_paddedLeaves_eq (hcs : ∀ c ∈ cs, c ≠ [])
    (hds : ∀ c ∈ ds, c ≠ []) {S : Set Bytes} (hinj : Set.InjOn E.keccak256 S)
    (hS : ∀ b ∈ [] :: cs, b ∈ S) (hS' : ∀ b ∈ [] :: ds, b ∈ S)
    (heq : paddedLeaves E cs = paddedLeaves E ds) : cs = ds := by
  have hmem : ∀ {l : List Bytes} {k : ℕ} {b : Bytes},
      b ∈ l ++ List.replicate k [] → b ∈ [] :: l := by
    intro l k b hb
    obtain hb | hb := List.mem_append.mp hb
    · exact List.mem_cons_of_mem _ hb
    · rw [List.eq_of_mem_replicate hb]
      exact List.mem_cons_self
  rw [paddedLeaves_eq_map, paddedLeaves_eq_map] at heq
  have hpadded := Merkle.eq_of_map_eq
    (fun u hu v hv => hinj (hS u (hmem hu)) (hS' v (hmem hv))) heq
  rw [← filter_padded hcs, hpadded, filter_padded hds]

theorem eq_nil_of_root {ds : List Bytes} (hds : ∀ c ∈ ds, c ≠ [])
    (hinj : Set.InjOn E.keccak256 {b | b ∈ hashedInputs E ds})
    (hsize : calculateNextPowerOfTwo ds.length = 1) {ms : List Hash}
    (hd : buildMerkleTreePadded E ds = some (ms, E.keccak256 [])) : ds = [] := by
  rw [calculateNextPowerOfTwo_eq] at hsize
  match ds with
  | [] => rfl
  | [d] =>
    have hroot : E.keccak256 d = E.keccak256 [] := (Prod.mk.inj (Option.some.inj hd)).2
    have hnil : d = [] := hinj (by simp [hashedInputs]) (by simp [hashedInputs]) hroot
    exact absurd hnil (hds d List.mem_cons_self)
  | _ :: _ :: ds =>
    have hle := Nat.le_pow_clog (b := 2) (by decide) (ds.length + 1 + 1)
    rw [List.length_cons, List.length_cons] at hsize
    omega

theorem eq_of_root_eq_of_size_eq (hcs : ∀ c ∈ cs, c ≠ []) (hds : ∀ c ∈ ds, c ≠ [])
    (hinj : Set.InjOn E.keccak256 {b | b ∈ hashedInputs E cs ∨ b ∈ hashedInputs E ds})
    {ls ms : List Hash} {root : Hash} (hc : buildMerkleTreePadded E cs = some (ls, root))
    (hd : buildMerkleTreePadded E ds = some (ms, root))
    (hsize : calculateNextPowerOfTwo cs.length = calculateNextPowerOfTwo ds.length) : cs = ds := by
  by_cases hne : cs = []
  · subst hne
    obtain ⟨-, rfl⟩ := Prod.mk.inj (Option.some.inj hc)
    exact (eq_nil_of_root hds (hinj.mono fun b => Or.inr) hsize.symm hd).symm
  by_cases hne' : ds = []
  · subst hne'
    obtain ⟨-, rfl⟩ := Prod.mk.inj (Option.some.inj hd)
    exact eq_nil_of_root hcs (hinj.mono fun b => Or.inl) hsize hc
  obtain ⟨-, hroot⟩ := (buildMerkleTreePadded_eq_some_iff hne).mp hc
  obtain ⟨-, hroot'⟩ := (buildMerkleTreePadded_eq_some_iff hne').mp hd
  rw [calculateNextPowerOfTwo_eq, calculateNextPowerOfTwo_eq] at hsize
  have hdepth : Nat.clog 2 cs.length = Nat.clog 2 ds.length := Nat.pow_right_injective le_rfl hsize
  have hsep : Merkle.Separate (combine E)
      (Merkle.treePairs (combine E) (Nat.clog 2 cs.length) (paddedLeaves E cs))
      (Merkle.treePairs (combine E) (Nat.clog 2 ds.length) (paddedLeaves E ds)) :=
    separate_of_injOn hinj (fun b hb => Or.inl (List.mem_append_right _ hb))
      (fun b hb => Or.inr (List.mem_append_right _ hb))
  have hlen' := length_paddedLeaves E ds
  rw [← hdepth] at hroot' hsep hlen'
  have hleaves := Merkle.eq_of_root_eq (length_paddedLeaves E cs) hlen' hsep
    (hroot.trans hroot'.symm)
  exact eq_of_paddedLeaves_eq hcs hds hinj (fun b hb => Or.inl (List.mem_append_left _ hb))
    (fun b hb => Or.inr (List.mem_append_left _ hb)) hleaves

/-- For every two files that are cut with the same chunk size and get the same root: they are
equal just if their trees have the same number of leaves and the bytes that are in no chunk,
if there are any, are equal. -/
theorem content_eq_iff (E : Env) {chunkSize : UInt64} {file file' : Bytes}
    (hlen : file.length < 2 ^ 63) (hlen' : file'.length < 2 ^ 63)
    (hcs : uploadChunks chunkSize file = some cs) (hds : uploadChunks chunkSize file' = some ds)
    (hinj : Set.InjOn E.keccak256 {b | b ∈ hashedInputs E cs ∨ b ∈ hashedInputs E ds})
    {ls ms : List Hash} {root : Hash} (hc : buildMerkleTreePadded E cs = some (ls, root))
    (hd : buildMerkleTreePadded E ds = some (ms, root)) :
    file = file' ↔
      calculateNextPowerOfTwo cs.length = calculateNextPowerOfTwo ds.length ∧
        file.drop cs.flatten.length = file'.drop ds.flatten.length := by
  constructor
  · rintro rfl
    obtain rfl := Option.some.inj (hcs.symm.trans hds)
    exact ⟨rfl, rfl⟩
  · rintro ⟨hsize, hrest⟩
    have hchunks : cs = ds := eq_of_root_eq_of_size_eq (ne_nil_of_uploadChunks hlen hcs)
      (ne_nil_of_uploadChunks hlen' hds) hinj hc hd hsize
    calc file = cs.flatten ++ file.drop cs.flatten.length := (flatten_uploadChunks hlen hcs).symm
      _ = ds.flatten ++ file'.drop ds.flatten.length := by rw [hrest, hchunks]
      _ = file' := flatten_uploadChunks hlen' hds

def longFile : Bytes := List.replicate 65 0

/-- The file of 64 bytes that holds the hashes of the two chunks. -/
def shortFile : Bytes :=
  combined (stdEnv.keccak256 (List.replicate 64 0), stdEnv.keccak256 [0])

def sampleInputs : List Bytes := [[], List.replicate 64 0, [0], shortFile]

theorem samples :
    uploadChunks 64 longFile = some [List.replicate 64 0, [0]] ∧
      uploadChunks 64 shortFile = some [shortFile] ∧
      (∀ a ∈ sampleInputs, ∀ b ∈ sampleInputs, stdEnv.keccak256 a = stdEnv.keccak256 b → a = b) ∧
      (∀ b ∈ hashedInputs stdEnv [List.replicate 64 0, [0]], b ∈ sampleInputs) ∧
      ∀ b ∈ hashedInputs stdEnv [shortFile], b ∈ sampleInputs := by
  decide +kernel

theorem injOn_hashedInputs : Set.InjOn stdEnv.keccak256
    {b | b ∈ hashedInputs stdEnv [List.replicate 64 0, [0]] ∨
      b ∈ hashedInputs stdEnv [shortFile]} := by
  obtain ⟨-, -, hall, hlong, hshort⟩ := samples
  exact fun a ha b hb => hall a (ha.elim (hlong a) (hshort a)) b (hb.elim (hlong b) (hshort b))

theorem content_eq_iff_example : longFile = shortFile ↔
    calculateNextPowerOfTwo [List.replicate 64 0, [0]].length =
        calculateNextPowerOfTwo [shortFile].length ∧
      longFile.drop [List.replicate 64 0, [0]].flatten.length =
        shortFile.drop [shortFile].flatten.length :=
  content_eq_iff stdEnv (by decide) (by decide) samples.1 samples.2.1 injOn_hashedInputs rfl rfl

/-- The root of the file of two chunks is also the root of the file that holds their hashes,
with no collision among the strings that are hashed. -/
theorem content_mismatch : longFile ≠ [] ∧ shortFile ≠ [] ∧ longFile ≠ shortFile ∧
    ∃ cs ds ls ms root, uploadChunks 64 longFile = some cs ∧ uploadChunks 64 shortFile = some ds ∧
      Set.InjOn stdEnv.keccak256
        {b | b ∈ hashedInputs stdEnv cs ∨ b ∈ hashedInputs stdEnv ds} ∧
      buildMerkleTreePadded stdEnv cs = some (ls, root) ∧
      buildMerkleTreePadded stdEnv ds = some (ms, root) := by
  have hlong : longFile.length = 65 := List.length_replicate
  have hshort : shortFile.length = 64 := by
    rw [shortFile, combined, List.length_append, (stdEnv.keccak256 _).2, (stdEnv.keccak256 _).2]
  refine ⟨List.ne_nil_of_length_pos (by omega), List.ne_nil_of_length_pos (by omega), ?_, ?_⟩
  · intro heq
    rw [heq] at hlong
    omega
  · exact ⟨_, _, _, _, _, samples.1, samples.2.1, injOn_hashedInputs,
      rfl, rfl⟩

end MetaNode.FileMerkle
