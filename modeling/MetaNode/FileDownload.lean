/-
Downloading a file from the storage servers (`DownloadFile` of
`file-storage/up-down-debug/main.go`, `quic_client.go`).

The record of the file comes from the chain.  Each chunk is asked for by a goroutine of its
own, from one of two servers; it arrives in a frame of the server's choice and is written at
its offset in the output file, in any order (`Step`).  The call succeeds if as many chunks
were written as the record has.  Nothing is compared with the Merkle root of the record.

The file system makes no errors of its own.
-/
import MetaNode.BigEndian
import MetaNode.Blocking
import MetaNode.FileMerkle
import Mathlib.Algebra.Order.BigOperators.Group.Finset

namespace MetaNode.FileDownload

open FileMerkle Function

/-! ### Chunks from a storage server -/

/-- `DownloadChunkPayload`; texts are the bytes of their characters. -/
structure DownloadChunkPayload where
  contractAddress : Bytes
  fileKey : Bytes
  downloadKey : Bytes
  chunkIndex : Int64
  signature : Bytes

structure DownloadResponse where
  status : String
  message : String

/-- The bytes that a stream delivers.  If it does not end behind them it stays open and silent,
and a read of more bytes waits for ever: no deadline is set. -/
structure Stream where
  bytes : Bytes
  ends : Bool

/-- What a server does with a request. -/
inductive Reply where
  /-- The stream cannot be opened. -/
  | noStream
  /-- The request cannot be written. -/
  | noRequest
  /-- The server lets no stream be opened, or takes no bytes of the request. -/
  | silent
  | stream (stream : Stream)

/-- The errors of `readFrameWithLength`. -/
inductive FrameError where
  /-- `lỗi đọc length` -/
  | length
  /-- `frame quá lớn: %d bytes` -/
  | tooLarge (length : ℕ)
  /-- `lỗi đọc data` -/
  | data

/-- The errors of `RequestChunkFromRustServerQuic`. -/
inductive ChunkError where
  /-- `không thể mở stream` -/
  | openStream
  /-- `lỗi khi gửi request` -/
  | sendRequest
  /-- `lỗi khi đọc response` -/
  | readResponse (cause : FrameError)
  /-- `lỗi khi parse response` -/
  | parseResponse
  /-- `server báo lỗi` -/
  | serverError (message : String)
  /-- `lỗi khi đọc chunk data` -/
  | readChunk (cause : FrameError)

def maxFrame : ℕ := 8 * 1024 * 1024

def writeFrameWithLength (data : Bytes) : Bytes := BigEndian.fixed 4 data.length ++ data

/-- `io.ReadFull` of `n` bytes; `none` if it waits for ever. -/
def readFull (e : FrameError) (n : ℕ) (stream : Stream) :
    Option (Except FrameError (Bytes × Stream)) :=
  if n ≤ stream.bytes.length then
    some (.ok (stream.bytes.take n, ⟨stream.bytes.drop n, stream.ends⟩))
  else if stream.ends then some (.error e)
  else none

/-- A frame of the stream, and what comes behind it. -/
def readFrameWithLength (stream : Stream) : Option (Except FrameError (Bytes × Stream)) :=
  match readFull .length 4 stream with
  | some (.ok (lengthBuf, rest)) =>
    let length := BigEndian.toNat lengthBuf
    if maxFrame < length then some (.error (.tooLarge length)) else readFull .data length rest
  | failed => failed

/-- `unmarshal` is `json.Unmarshal` into a `DownloadResponse`; `none` is a call that does not
return. -/
def requestChunkFromRustServerQuic (unmarshal : Bytes → Option DownloadResponse)
    (conn : DownloadChunkPayload → Reply) (request : DownloadChunkPayload) :
    Option (Except ChunkError Bytes) :=
  match conn request with
  | .noStream => some (.error .openStream)
  | .noRequest => some (.error .sendRequest)
  | .silent => none
  | .stream stream =>
    match readFrameWithLength stream with
    | none => none
    | some (.error e) => some (.error (.readResponse e))
    | some (.ok (responseData, rest)) =>
      match unmarshal responseData with
      | none => some (.error .parseResponse)
      | some response =>
        if response.status ≠ "SUCCESS" then some (.error (.serverError response.message))
        else
          match readFrameWithLength rest with
          | none => none
          | some (.error e) => some (.error (.readChunk e))
          | some (.ok (chunkData, _)) => some (.ok chunkData)

theorem readFull_append (e : FrameError) (data rest : Bytes) (ends : Bool) :
    readFull e data.length ⟨data ++ rest, ends⟩ = some (.ok (data, ⟨rest, ends⟩)) := by
  have hle : data.length ≤ (data ++ rest).length := by
    rw [List.length_append]
    exact Nat.le_add_right _ _
  rw [readFull, if_pos hle, List.take_left, List.drop_left]

theorem readFrameWithLength_writeFrameWithLength {data : Bytes} (h : data.length ≤ maxFrame)
    (rest : Bytes) (ends : Bool) :
    readFrameWithLength ⟨writeFrameWithLength data ++ rest, ends⟩ =
      some (.ok (data, ⟨rest, ends⟩)) := by
  have hnat : BigEndian.toNat (BigEndian.fixed 4 data.length) = data.length := by
    rw [BigEndian.toNat_fixed]
    exact Nat.mod_eq_of_lt (Nat.lt_of_le_of_lt h (by decide))
  have hread := readFull_append .length (BigEndian.fixed 4 data.length) (data ++ rest) ends
  rw [BigEndian.length_fixed] at hread
  rw [readFrameWithLength, writeFrameWithLength, List.append_assoc, hread]
  simp only [hnat, if_neg (Nat.not_lt.mpr h), readFull_append]

/-- The stream with a response and the bytes of a chunk. -/
def sends (json chunk : Bytes) : Reply :=
  .stream ⟨writeFrameWithLength json ++ writeFrameWithLength chunk, true⟩

theorem requestChunk_eq {unmarshal : Bytes → Option DownloadResponse}
    {conn : DownloadChunkPayload → Reply} {request : DownloadChunkPayload} {json chunk : Bytes}
    {message : String} (hconn : conn request = sends json chunk)
    (hjson : unmarshal json = some ⟨"SUCCESS", message⟩) (hlen : json.length ≤ maxFrame)
    (hlen' : chunk.length ≤ maxFrame) :
    requestChunkFromRustServerQuic unmarshal conn request = some (.ok chunk) := by
  have hchunk := readFrameWithLength_writeFrameWithLength hlen' [] true
  rw [List.append_nil] at hchunk
  simp only [requestChunkFromRustServerQuic, hconn, sends,
    readFrameWithLength_writeFrameWithLength hlen, hjson, ne_eq, not_true_eq_false, if_false,
    hchunk]

/-! ### The call -/

/-- The part of the record on the chain that a download reads. -/
structure Info where
  merkleRoot : Hash
  contentLen : UInt64
  totalChunks : UInt64

structure Config where
  contractAddressHex : Bytes
  chunkSize : UInt64

/-- The errors of `DownloadFile`. -/
inductive DownloadError where
  /-- `lỗi lấy thông tin tệp` -/
  | getFileInfo
  /-- `không tìm thấy thông tin cho FileKey này hoặc tệp không có nội dung` -/
  | noContent
  /-- `lỗi lấy chain ID` -/
  | chainID
  /-- `lỗi tạo transactor` -/
  | transactor
  /-- `lỗi thanh toán cho việc tải tệp` -/
  | payForDownload
  /-- `lỗi chờ giao dịch được khai thác` -/
  | waitForTransaction
  /-- `không thể tìm thấy sự kiện DownloadKeyGenerated trong biên lai giao dịch` -/
  | noDownloadKey
  /-- `lỗi tạo kết nối QUIC đến server %d` -/
  | connect (server : ℕ)
  /-- `lỗi ký thông điệp tải xuống` -/
  | sign
  /-- `tải tệp thất bại. Chỉ tải được %d/%d chunks` -/
  | incomplete (downloaded total : ℕ)

/-- What the chain, the key and the servers answer; `none` is an error. -/
structure Externals where
  getFileInfo : Hash → Option Info
  chainID : Option ℕ
  newKeyedTransactor : ℕ → Bool
  payForDownload : Hash → Option Hash
  /-- The logs of the receipt. -/
  waitForTransaction : Hash → Option (List Bytes)
  parseDownloadKeyGenerated : Bytes → Option Hash
  /-- The connections to the servers. -/
  conn1 : Option (DownloadChunkPayload → Reply)
  conn2 : Option (DownloadChunkPayload → Reply)
  signMessage : Bytes → Option Bytes
  unmarshal : Bytes → Option DownloadResponse

/-- The record and the key for the download, steps 1 and 2 of the call. -/
def payment (x : Externals) (fileKey : Hash) : Except DownloadError (Info × Hash) :=
  match x.getFileInfo fileKey with
  | none => .error .getFileInfo
  | some info =>
    if info.contentLen = 0 then .error .noContent
    else
      match x.chainID with
      | none => .error .chainID
      | some chainID =>
        if x.newKeyedTransactor chainID then
          match x.payForDownload fileKey with
          | none => .error .payForDownload
          | some tx =>
            match x.waitForTransaction tx with
            | none => .error .waitForTransaction
            | some logs =>
              match logs.findSome? x.parseDownloadKeyGenerated with
              | none => .error .noDownloadKey
              | some downloadKey => .ok (info, downloadKey)
        else .error .transactor

structure Job where
  info : Info
  fileKey : Hash
  downloadKey : Hash
  conn1 : DownloadChunkPayload → Reply
  conn2 : DownloadChunkPayload → Reply
  sign : Bytes

abbrev Job.total (job : Job) : ℕ := job.info.totalChunks.toNat

/-- The connections and the signature, once the output file is open. -/
def connect (x : Externals) (fileKey : Hash) (paid : Info × Hash) : Except DownloadError Job :=
  match x.conn1 with
  | none => .error (.connect 1)
  | some conn1 =>
    match x.conn2 with
    | none => .error (.connect 2)
    | some conn2 =>
      match x.signMessage (hexEncode paid.2.1) with
      | none => .error .sign
      | some sign => .ok ⟨paid.1, fileKey, paid.2, conn1, conn2, sign⟩

section Job

variable (cfg : Config) (x : Externals) (job : Job)

/-- The request of the goroutine for chunk `i`; `none` if it does not return. -/
def fetch (i : ℕ) : Option (Except ChunkError Bytes) :=
  requestChunkFromRustServerQuic x.unmarshal (if i % 2 = 0 then job.conn1 else job.conn2)
    ⟨cfg.contractAddressHex, hexEncode job.fileKey.1, hexEncode job.downloadKey.1,
      (UInt64.ofNat i).toInt64, job.sign⟩

/-- `int64(i * config.ChunkSize)` -/
def offset (i : ℕ) : Int64 := (UInt64.ofNat i * cfg.chunkSize).toInt64

end Job

/-- `Truncate(int64(size))`, whose error for a negative size is ignored. -/
def truncate (file : Bytes) (size : UInt64) : Bytes :=
  if size.toInt64 < 0 then file
  else file.take size.toNat ++ List.replicate (size.toNat - file.length) 0

/-- `WriteAt` at an offset that is not negative. -/
def writeAt (file : Bytes) (off : ℕ) (data : Bytes) : Bytes :=
  if data = [] then file
  else file.take off ++ List.replicate (off - file.length) 0 ++ data ++
    file.drop (off + data.length)

inductive Phase where
  | idle
  | requesting
  | received (chunkData : Bytes)
  | written
  /-- It has returned after an error. -/
  | failed
  /-- It has returned after it added to `downloadedCount`. -/
  | counted
  deriving DecidableEq

structure State where
  /-- The next chunk of the loop. -/
  next : ℕ
  /-- The goroutines that hold a place in `sem`. -/
  active : ℕ
  phase : ℕ → Phase
  file : Bytes
  downloadedCount : ℕ

def State.init (file : Bytes) : State := ⟨0, 0, fun _ => .idle, file, 0⟩

/-- The loop starts the goroutine of the next chunk. -/
def State.spawn (s : State) : State :=
  { s with
    next := s.next + 1, active := s.active + 1,
    phase := Function.update s.phase s.next .requesting }

/-- The capacity of `sem`. -/
def capacity (workers : ℤ) : ℕ := if workers ≤ 0 then 50 else workers.toNat

inductive Step (cfg : Config) (x : Externals) (job : Job) (workers : ℤ) : State → State → Prop where
  | spawn {s : State} : s.next < job.total → s.active < capacity workers →
    Step cfg x job workers s s.spawn
  | receive {s : State} (i : ℕ) (chunkData : Bytes) : s.phase i = .requesting →
    fetch cfg x job i = some (.ok chunkData) →
    Step cfg x job workers s { s with phase := Function.update s.phase i (.received chunkData) }
  | requestError {s : State} (i : ℕ) (e : ChunkError) : s.phase i = .requesting →
    fetch cfg x job i = some (.error e) →
    Step cfg x job workers s { s with
      active := s.active - 1, phase := Function.update s.phase i .failed }
  | write {s : State} (i : ℕ) (chunkData : Bytes) : s.phase i = .received chunkData →
    0 ≤ offset cfg i →
    Step cfg x job workers s { s with
      file := writeAt s.file (offset cfg i).toNatClampNeg chunkData,
      phase := Function.update s.phase i .written }
  | writeError {s : State} (i : ℕ) (chunkData : Bytes) : s.phase i = .received chunkData →
    offset cfg i < 0 →
    Step cfg x job workers s { s with
      active := s.active - 1, phase := Function.update s.phase i .failed }
  | count {s : State} (i : ℕ) : s.phase i = .written →
    Step cfg x job workers s { s with
      active := s.active - 1, downloadedCount := s.downloadedCount + 1,
      phase := Function.update s.phase i .counted }

/-- The loop is over and every goroutine has returned, so `wg.Wait` returns. -/
structure State.Final (job : Job) (s : State) : Prop where
  next : s.next = job.total
  phase : ∀ i < job.total, s.phase i = .failed ∨ s.phase i = .counted

def State.result (job : Job) (s : State) : Except DownloadError UInt64 :=
  if s.downloadedCount ≠ job.total then
    .error (.incomplete s.downloadedCount job.total)
  else .ok job.info.contentLen

/-- What `DownloadFile` returns, and the output file it leaves, where `old` was before. -/
inductive DownloadFile (cfg : Config) (x : Externals) (fileKey : Hash) (workers : ℤ) (old : Bytes) :
    Except DownloadError UInt64 → Bytes → Prop where
  | unpaid (e : DownloadError) : payment x fileKey = .error e →
    DownloadFile cfg x fileKey workers old (.error e) old
  | unconnected (paid : Info × Hash) (e : DownloadError) : payment x fileKey = .ok paid →
    connect x fileKey paid = .error e →
    DownloadFile cfg x fileKey workers old (.error e) (truncate old paid.1.contentLen)
  | finished (paid : Info × Hash) (job : Job) (s : State) : payment x fileKey = .ok paid →
    connect x fileKey paid = .ok job →
    Relation.ReflTransGen (Step cfg x job workers)
      (State.init (truncate old job.info.contentLen)) s →
    s.Final job → DownloadFile cfg x fileKey workers old (s.result job) s.file

/-! ### Writing chunks into a file -/

theorem toInt_toInt64 {n : UInt64} (h : n.toNat < 2 ^ 63) : n.toInt64.toInt = n.toNat := by
  show n.toBitVec.toInt = _
  rw [BitVec.toInt_eq_toNat_of_lt (show 2 * n.toNat < 2 ^ 64 by omega)]
  rfl

/-- The bytes of chunk `i`. -/
def piece (n i : ℕ) (file : Bytes) : Bytes := (file.drop (i * n)).take n

theorem length_piece (n i : ℕ) (file : Bytes) :
    (piece n i file).length = min n (file.length - i * n) := by
  rw [piece, List.length_take, List.length_drop]

theorem getElem?_piece (n i : ℕ) (file : Bytes) (j : ℕ) :
    (piece n i file)[j]? = if j < n then file[i * n + j]? else none := by
  rw [piece, List.getElem?_take, List.getElem?_drop]

theorem split_eq_map_piece (n : ℕ) (file : Bytes) :
    split n file = (List.range ((file.length + n - 1) / n)).map fun i => piece n i file := rfl

section Write

variable {file data base : Bytes} {off n k : ℕ}

section

variable (h : off + data.length ≤ file.length)

include h

theorem writeAt_eq :
    writeAt file off data = file.take off ++ data ++ file.drop (off + data.length) := by
  have hpad : off - file.length = 0 := by omega
  unfold writeAt
  split
  · next hnil =>
    subst hnil
    simp
  · rw [hpad, List.replicate_zero, List.append_nil]

theorem length_writeAt : (writeAt file off data).length = file.length := by
  rw [writeAt_eq h, List.length_append, List.length_append, List.length_take, List.length_drop]
  omega

theorem getElem?_writeAt (j : ℕ) :
    (writeAt file off data)[j]? =
      if off ≤ j ∧ j < off + data.length then data[j - off]? else file[j]? := by
  have htake : (file.take off).length = off := by
    rw [List.length_take]
    omega
  rw [writeAt_eq h, List.append_assoc, List.getElem?_append, htake, List.getElem?_append,
    List.getElem?_take, List.getElem?_drop]
  split
  · next hbefore => rw [if_neg (by omega)]
  · next hafter =>
    split
    · next hinside => rw [if_pos (by omega)]
    · next hbehind =>
      rw [if_neg (by omega)]
      congr 1
      omega

end

/-- A chunk that is too short leaves the rest of what was there. -/
theorem piece_writeAt_self {i : ℕ} (h : i * n + data.length ≤ file.length)
    (hdata : data.length ≤ n) :
    piece n i (writeAt file (i * n) data) = data ++ (piece n i file).drop data.length := by
  refine List.ext_getElem? fun j => ?_
  rw [getElem?_piece, getElem?_writeAt h, List.getElem?_append, List.getElem?_drop, getElem?_piece]
  by_cases hj : j < data.length
  · rw [if_pos (by omega), if_pos (by omega), if_pos hj, Nat.add_sub_cancel_left]
  · have hsame : data.length + (j - data.length) = j := by omega
    rw [if_neg (show ¬ (i * n ≤ i * n + j ∧ _) by omega), if_neg hj, hsame]

theorem piece_writeAt_of_ne {i : ℕ} (h : i * n + data.length ≤ file.length)
    (hdata : data.length ≤ n) (hne : k ≠ i) :
    piece n k (writeAt file (i * n) data) = piece n k file := by
  refine List.ext_getElem? fun j => ?_
  rw [getElem?_piece, getElem?_piece, getElem?_writeAt h]
  split
  · next hj =>
    -- chunks of different numbers do not meet
    have hapart : k * n + n ≤ i * n ∨ i * n + n ≤ k * n := by
      obtain hlt | hlt := Nat.lt_or_gt_of_ne hne
      · exact Or.inl (Nat.succ_mul k n ▸ Nat.mul_le_mul_right n hlt)
      · exact Or.inr (Nat.succ_mul i n ▸ Nat.mul_le_mul_right n hlt)
    rw [if_neg (by omega)]
  · rfl

/-- Chunks written at their offsets, the last one first in the list. -/
def laid (base : Bytes) (writes : List (ℕ × Bytes)) : Bytes :=
  writes.foldr (fun w file => writeAt file w.1 w.2) base

/-- **Chunks that are not too long leave each other alone**, so their order does not matter. -/
theorem piece_laid {d : ℕ → Bytes} {order : List ℕ} (hnodup : order.Nodup)
    (hd : ∀ i ∈ order, i * n + (d i).length ≤ base.length ∧ (d i).length ≤ n) :
    (laid base (order.map fun i => (i * n, d i))).length = base.length ∧
      ∀ k, piece n k (laid base (order.map fun i => (i * n, d i))) =
        if k ∈ order then d k ++ (piece n k base).drop (d k).length else piece n k base := by
  induction order with
  | nil => exact ⟨rfl, fun k => rfl⟩
  | cons i order ih =>
    obtain ⟨⟨hfits, hle⟩, hd⟩ := List.forall_mem_cons.mp hd
    obtain ⟨hi, hnodup⟩ := List.nodup_cons.mp hnodup
    obtain ⟨hlen, hpiece⟩ := ih hnodup hd
    rw [← hlen] at hfits
    refine ⟨(length_writeAt hfits).trans hlen, fun k => ?_⟩
    by_cases hk : k = i
    · subst hk
      rw [if_pos List.mem_cons_self]
      refine (piece_writeAt_self hfits hle).trans ?_
      rw [hpiece k, if_neg hi]
    · refine (piece_writeAt_of_ne hfits hle hk).trans ((hpiece k).trans ?_)
      simp only [List.mem_cons, hk, false_or]

theorem length_truncate {size : UInt64} (h : size.toNat < 2 ^ 63) :
    (truncate file size).length = size.toNat := by
  have hsize : ¬ size.toInt64 < 0 := by
    rw [Int64.lt_iff_toInt_lt, toInt_toInt64 h, Int64.toInt_zero]
    omega
  rw [truncate, if_neg hsize, List.length_append, List.length_take, List.length_replicate]
  omega

end Write

/-! ### Runs -/

section Runs

variable {cfg : Config} {x : Externals} {job : Job} {workers : ℤ} {s s' : State} {old : Bytes}

variable {i : ℕ} {p : Phase}

/-- The steps that a goroutine has before it. -/
def Phase.left : Phase → ℕ
  | .idle => 4
  | .requesting => 3
  | .received _ => 2
  | .written => 1
  | .failed | .counted => 0

/-- The goroutine holds a place in `sem`. -/
def Phase.holds : Phase → ℕ
  | .requesting | .received _ | .written => 1
  | .idle | .failed | .counted => 0

/-- The goroutine has added to `downloadedCount`. -/
def Phase.adds : Phase → ℕ
  | .counted => 1
  | _ => 0

def State.sum (job : Job) (s : State) (f : Phase → ℕ) : ℕ :=
  ∑ i ∈ Finset.range job.total, f (s.phase i)

/-- The goroutines of the chunks before `next` were started; `active` counts those that hold a
place, `downloadedCount` those that returned without an error. -/
structure Tally (job : Job) (s : State) : Prop where
  next_le : s.next ≤ job.total
  started : ∀ i, s.phase i ≠ .idle ↔ i < s.next
  active : s.active = s.sum job Phase.holds
  count : s.downloadedCount = s.sum job Phase.adds

theorem tally_init (file : Bytes) : Tally job (State.init file) where
  next_le := Nat.zero_le _
  started := fun i => iff_of_false (not_not.mpr rfl) (Nat.not_lt_zero i)
  active := (Finset.sum_eq_zero fun _ _ => rfl).symm
  count := (Finset.sum_eq_zero fun _ _ => rfl).symm

section

variable (h : Tally job s)

include h

theorem Tally.phase_next : s.phase s.next = .idle := by
  by_contra hne
  exact Nat.lt_irrefl _ ((h.started _).mp hne)

theorem Tally.lt_of_phase {q : Phase} (hi : s.phase i = q) (hq : q ≠ .idle) : i < job.total :=
  Nat.lt_of_lt_of_le ((h.started i).mp (hi ▸ hq)) h.next_le

theorem Tally.move {q : Phase} (hq : s.phase i = q) {t : State}
    (hphase : t.phase = update s.phase i p) (hp : p ≠ .idle) (hless : p.left < q.left)
    (hactive : t.active = s.active + p.holds - q.holds)
    (hcount : t.downloadedCount = s.downloadedCount + p.adds - q.adds)
    (hle : t.next ≤ job.total) (hi : i < t.next) (hnext : ∀ k, k ≠ i → (k < t.next ↔ k < s.next)) :
    Tally job t ∧ t.sum job Phase.left < s.sum job Phase.left := by
  have hsum : ∀ f, t.sum job f + f q = s.sum job f + f p := by
    intro f
    rw [State.sum, State.sum, hphase, ← hq]
    exact Blocking.sum_update s.phase (Finset.mem_range.mpr (Nat.lt_of_lt_of_le hi hle)) p f
  have hholds := hsum Phase.holds
  have hadds := hsum Phase.adds
  rw [← h.active] at hholds
  rw [← h.count] at hadds
  refine ⟨⟨hle, ?_, by omega, by omega⟩, ?_⟩
  · rw [hphase]
    exact (forall_update_iff s.phase fun k p => p ≠ .idle ↔ k < t.next).mpr
      ⟨iff_of_true hp hi, fun k hk => (h.started k).trans (hnext k hk).symm⟩
  · have hleft := hsum Phase.left
    omega

theorem Tally.step (hstep : Step cfg x job workers s s') :
    Tally job s' ∧ s'.sum job Phase.left < s.sum job Phase.left := by
  -- a goroutine that takes a step was started
  have hstarted : ∀ {i : ℕ} {q : Phase}, s.phase i = q → q ≠ .idle → i < s.next := by
    rintro i q rfl hq
    exact (h.started i).mp hq
  cases hstep with
  | spawn hnext =>
    refine h.move h.phase_next rfl nofun (by decide) rfl rfl hnext (Nat.lt_succ_self _) ?_
    intro k hk
    show k < s.next + 1 ↔ k < s.next
    omega
  | receive i d hi =>
    exact h.move hi rfl nofun (Nat.lt_add_one 2) rfl rfl h.next_le (hstarted hi nofun)
      fun _ _ => Iff.rfl
  | write i d hi =>
    exact h.move hi rfl nofun (Nat.lt_add_one 1) rfl rfl h.next_le (hstarted hi nofun)
      fun _ _ => Iff.rfl
  | requestError i e hi =>
    exact h.move hi rfl nofun (Nat.succ_pos 2) rfl rfl h.next_le (hstarted hi nofun)
      fun _ _ => Iff.rfl
  | writeError i d hi =>
    exact h.move hi rfl nofun (Nat.succ_pos 1) rfl rfl h.next_le (hstarted hi nofun)
      fun _ _ => Iff.rfl
  | count i hi =>
    exact h.move hi rfl nofun (Nat.succ_pos 0) rfl rfl h.next_le (hstarted hi nofun)
      fun _ _ => Iff.rfl

theorem Tally.all_counted_iff :
    s.downloadedCount = job.total ↔
      ∀ i < job.total, s.phase i = .counted := by
  have hone : job.total = ∑ i ∈ Finset.range job.total, 1 := by
    rw [← Finset.card_eq_sum_ones, Finset.card_range]
  have hle : ∀ p : Phase, p.adds ≤ 1 ∧ (p.adds = 1 ↔ p = .counted) := by
    intro p
    cases p <;> simp [Phase.adds]
  rw [h.count, State.sum, eq_comm.trans (Eq.congr_left hone), eq_comm,
    Finset.sum_eq_sum_iff_of_le fun i _ => (hle _).1]
  simp only [Finset.mem_range, (hle _).2]

end

theorem capacity_pos (workers : ℤ) : 0 < capacity workers := by
  unfold capacity
  split
  · decide
  · omega

/-! ### The output file -/

/-- A record as the uploader writes it, for a file whose length does not wrap. -/
structure Consistent (chunkSize : UInt64) (info : Info) : Prop where
  pos : 0 < chunkSize.toNat
  contentLen_lt : info.contentLen.toNat < 2 ^ 63
  fits : info.contentLen.toNat + chunkSize.toNat ≤ 2 ^ 64
  totalChunks : info.totalChunks.toNat =
    (info.contentLen.toNat + chunkSize.toNat - 1) / chunkSize.toNat

/-- The chunk that is received for `i`. -/
def sent (cfg : Config) (x : Externals) (job : Job) (i : ℕ) : Bytes :=
  match fetch cfg x job i with
  | some (.ok chunkData) => chunkData
  | _ => []

/-- Where chunk `i` is written, and what. -/
def arrival (cfg : Config) (x : Externals) (job : Job) (i : ℕ) : ℕ × Bytes :=
  ((offset cfg i).toNatClampNeg, sent cfg x job i)

/-- What the phase of a goroutine says about the chunks that were written so far. -/
def Phase.Laid (cfg : Config) (x : Externals) (job : Job) (order : List ℕ) (i : ℕ) : Phase → Prop
  | .idle | .requesting => i ∉ order
  | .received chunkData => i ∉ order ∧ fetch cfg x job i = some (.ok chunkData)
  | .written | .counted => i ∈ order ∧ (fetch cfg x job i).isSome
  | .failed => i ∉ order ∧ (fetch cfg x job i).isSome

theorem Phase.laid_cons (order : List ℕ) {k : ℕ} (hne : k ≠ i) :
    p.Laid cfg x job (i :: order) k ↔ p.Laid cfg x job order k := by
  cases p <;> simp [Phase.Laid, hne]

/-- The chunks of `order` were written, the last one first. -/
structure Laid (cfg : Config) (x : Externals) (job : Job) (base : Bytes) (s : State)
    (order : List ℕ) : Prop where
  file : s.file = laid base (order.map (arrival cfg x job))
  nodup : order.Nodup
  phase : ∀ i, (s.phase i).Laid cfg x job order i

theorem toInt_offset (hcons : Consistent cfg.chunkSize job.info) (hi : i < job.total) :
    (offset cfg i).toInt = (i * cfg.chunkSize.toNat : ℕ) := by
  have hlt := Nat.lt_trans (start_lt hcons.pos (Nat.lt_of_lt_of_eq hi hcons.totalChunks))
    hcons.contentLen_lt
  have hmul := toNat_start hcons.pos hlt
  rw [offset, toInt_toInt64 (by rwa [hmul]), hmul]

theorem arrival_eq (hcons : Consistent cfg.chunkSize job.info) (hi : i < job.total) :
    arrival cfg x job i = (i * cfg.chunkSize.toNat, sent cfg x job i) := by
  rw [arrival, Int64.toNatClampNeg, toInt_offset hcons hi, Int.toNat_natCast]

theorem Laid.step {base : Bytes} {order : List ℕ} (h : Laid cfg x job base s order)
    (htally : Tally job s) (hstep : Step cfg x job workers s s') :
    ∃ order, Laid cfg x job base s' order := by
  have hmove : ∀ {i : ℕ} {p : Phase}, p.Laid cfg x job order i →
      ∀ k, (update s.phase i p k).Laid cfg x job order k := by
    intro i p hp
    exact (forall_update_iff s.phase fun k p => p.Laid cfg x job order k).mpr
      ⟨hp, fun k _ => h.phase k⟩
  have hphase : ∀ {i : ℕ} {p : Phase}, s.phase i = p → p.Laid cfg x job order i := by
    rintro i p rfl
    exact h.phase i
  cases hstep with
  | spawn => exact ⟨order, h.file, h.nodup, hmove (show _ ∉ order from hphase htally.phase_next)⟩
  | receive i d hi hfetch => exact ⟨order, h.file, h.nodup, hmove ⟨hphase hi, hfetch⟩⟩
  | requestError i e hi hfetch =>
    exact ⟨order, h.file, h.nodup, hmove ⟨hphase hi, hfetch ▸ rfl⟩⟩
  | write i d hi =>
    obtain ⟨hmem, hfetch⟩ := hphase hi
    have harrival : arrival cfg x job i = ((offset cfg i).toNatClampNeg, d) := by
      rw [arrival, sent, hfetch]
    refine ⟨i :: order, ?_, List.nodup_cons.mpr ⟨hmem, h.nodup⟩, ?_⟩
    · rw [List.map_cons, harrival, h.file]
      rfl
    · refine (forall_update_iff s.phase fun k p => p.Laid cfg x job (i :: order) k).mpr ⟨?_, ?_⟩
      · exact ⟨List.mem_cons_self, hfetch ▸ rfl⟩
      · exact fun k hk => (Phase.laid_cons order hk).mpr (h.phase k)
  | writeError i d hi =>
    obtain ⟨hmem, hfetch⟩ := hphase hi
    exact ⟨order, h.file, h.nodup, hmove ⟨hmem, hfetch ▸ rfl⟩⟩
  | count i hi =>
    have hwritten := hphase hi
    exact ⟨order, h.file, h.nodup, hmove hwritten⟩

/-- The steps of a call from the opened file on. -/
abbrev Reaches (cfg : Config) (x : Externals) (job : Job) (workers : ℤ) (old : Bytes) (s : State) :
    Prop :=
  Relation.ReflTransGen (Step cfg x job workers)
    (State.init (truncate old job.info.contentLen)) s

theorem Reaches.tally (h : Reaches cfg x job workers old s) : Tally job s := by
  induction h with
  | refl => exact tally_init _
  | tail _ hstep ih => exact (ih.step hstep).1

theorem exists_step_of_holds (cfg : Config) (x : Externals) (job : Job) (workers : ℤ)
    (h : (s.phase i).holds ≠ 0) (hanswered : (fetch cfg x job i).isSome) :
    ∃ s', Step cfg x job workers s s' := by
  cases hphase : s.phase i with
  | idle | failed | counted =>
    rw [hphase] at h
    exact absurd rfl h
  | requesting =>
    obtain ⟨r, hfetch⟩ := Option.isSome_iff_exists.mp hanswered
    cases r with
    | error e => exact ⟨_, .requestError i e hphase hfetch⟩
    | ok d => exact ⟨_, .receive i d hphase hfetch⟩
  | received d =>
    by_cases hneg : offset cfg i < 0
    · exact ⟨_, .writeError i d hphase hneg⟩
    · exact ⟨_, .write i d hphase (Int64.not_lt.mp hneg)⟩
  | written => exact ⟨_, .count i hphase⟩

section

variable (h : Reaches cfg x job workers old s)

include h

theorem Reaches.laid : ∃ order, Laid cfg x job (truncate old job.info.contentLen) s order := by
  induction h with
  | refl => exact ⟨[], rfl, List.nodup_nil, fun _ => List.not_mem_nil⟩
  | tail hrun hstep ih =>
    obtain ⟨order, hlaid⟩ := ih
    exact hlaid.step (Reaches.tally hrun) hstep

theorem Reaches.acc : Acc (fun s' s => Step cfg x job workers s s') s :=
  Blocking.acc_of_rank (I := Tally job) (fun s => s.sum job Phase.left)
    (fun _ _ htally hstep => htally.step hstep) h.tally

theorem Reaches.final_of_stuck (hstuck : ∀ s', ¬ Step cfg x job workers s s')
    (hanswered : ∀ i < job.total, (fetch cfg x job i).isSome) : s.Final job := by
  have hholds : ∀ i, (s.phase i).holds = 0 := by
    intro i
    by_contra hne
    have hidle : s.phase i ≠ .idle := by
      intro hidle
      rw [hidle] at hne
      exact hne rfl
    obtain ⟨s', hstep⟩ := exists_step_of_holds cfg x job workers hne
      (hanswered i (h.tally.lt_of_phase rfl hidle))
    exact hstuck s' hstep
  have hactive : s.active = 0 := h.tally.active.trans (Finset.sum_eq_zero fun i _ => hholds i)
  have hnext : s.next = job.total := by
    refine Nat.le_antisymm h.tally.next_le (Nat.not_lt.mp fun hlt => ?_)
    exact hstuck _ (.spawn hlt (hactive ▸ capacity_pos workers))
  refine ⟨hnext, fun i hi => ?_⟩
  have hbegun := (h.tally.started i).mpr (hnext ▸ hi)
  have hfree := hholds i
  cases hphase : s.phase i with
  | failed => exact .inl rfl
  | counted => exact .inr rfl
  | idle => exact absurd hphase hbegun
  | requesting | received d | written =>
    rw [hphase] at hfree
    cases hfree

theorem Reaches.phase_ne_failed (hcons : Consistent cfg.chunkSize job.info)
    (hserved : ∀ i < job.total, ∃ d, fetch cfg x job i = some (.ok d)) :
    ∀ i, s.phase i ≠ .failed := by
  induction h with
  | refl => exact fun i => nofun
  | @tail s s' hrun hstep ih =>
    have htally := Reaches.tally hrun
    have hmove : ∀ i p, p ≠ .failed → ∀ k, update s.phase i p k ≠ .failed :=
      fun i p hp => (forall_update_iff s.phase fun _ p => p ≠ .failed).mpr
        ⟨hp, fun k _ => ih k⟩
    cases hstep with
    | spawn | receive | write | count => exact hmove _ _ nofun
    | requestError i e hi hfetch =>
      obtain ⟨d, hd⟩ := hserved i (htally.lt_of_phase hi nofun)
      rw [hd] at hfetch
      cases hfetch
    | writeError i d hi hoff =>
      rw [Int64.lt_iff_toInt_lt, toInt_offset hcons (htally.lt_of_phase hi nofun),
        Int64.toInt_zero] at hoff
      omega

/-- **After a success the file is made of the received chunks**, each at its offset, in the order
in which they were written. -/
theorem Reaches.arrived (hall : s.downloadedCount = job.total) :
    ∃ order : List ℕ, order.Perm (List.range job.total) ∧
      s.file = FileDownload.laid (truncate old job.info.contentLen)
        (order.map (arrival cfg x job)) := by
  obtain ⟨order, hlaid⟩ := h.laid
  refine ⟨order, (List.perm_ext_iff_of_nodup hlaid.nodup List.nodup_range).mpr fun i => ?_,
    hlaid.file⟩
  have hphase := hlaid.phase i
  rw [List.mem_range]
  constructor
  · intro hi
    refine h.tally.lt_of_phase rfl fun hidle => ?_
    rw [hidle] at hphase
    exact hphase hi
  · intro hi
    rw [h.tally.all_counted_iff.mp hall i hi] at hphase
    exact hphase.1

end

/-- Every received chunk has at most the length that the record gives it. -/
def NotLonger (cfg : Config) (x : Externals) (job : Job) : Prop :=
  ∀ i < job.total, (sent cfg x job i).length ≤
    min cfg.chunkSize.toNat (job.info.contentLen.toNat - i * cfg.chunkSize.toNat)

section Apart

variable {order : List ℕ} {base : Bytes} (hcons : Consistent cfg.chunkSize job.info)
  (hperm : order.Perm (List.range job.total))
  (hbase : base.length = job.info.contentLen.toNat) (hlens : NotLonger cfg x job)
include hcons hperm hbase hlens

theorem piece_arrived :
    (laid base (order.map (arrival cfg x job))).length = base.length ∧
      ∀ i < job.total, piece cfg.chunkSize.toNat i (laid base (order.map (arrival cfg x job))) =
        sent cfg x job i ++
          (piece cfg.chunkSize.toNat i base).drop (sent cfg x job i).length := by
  have hlt : ∀ i ∈ order, i < job.total :=
    fun i hi => List.mem_range.mp (hperm.mem_iff.mp hi)
  have hfits : ∀ i ∈ order, i * cfg.chunkSize.toNat + (sent cfg x job i).length ≤ base.length ∧
      (sent cfg x job i).length ≤ cfg.chunkSize.toNat := by
    intro i hi
    have hstart := start_lt hcons.pos (Nat.lt_of_lt_of_eq (hlt i hi) hcons.totalChunks)
    have hlen := hlens i (hlt i hi)
    omega
  rw [List.map_congr_left fun i hi => arrival_eq hcons (hlt i hi)]
  obtain ⟨hlen, hpiece⟩ := piece_laid (hperm.nodup_iff.mpr List.nodup_range) hfits
  refine ⟨hlen, fun i hi => (hpiece i).trans (if_pos ?_)⟩
  exact hperm.mem_iff.mpr (List.mem_range.mpr hi)

end Apart

end Runs

/-! ### The record -/

section Record

variable {cfg : Config} {x : Externals} {fileKey : Hash} {workers : ℤ} {old file : Bytes}
  {paid : Info × Hash} {job : Job} {n : UInt64}

theorem DownloadFile.reaches {r : Except DownloadError UInt64}
    (h : DownloadFile cfg x fileKey workers old r file) (hpaid : payment x fileKey = .ok paid)
    (hjob : connect x fileKey paid = .ok job) :
    ∃ s, Reaches cfg x job workers old s ∧ s.Final job ∧ s.result job = r ∧ s.file = file := by
  cases h with
  | unpaid e he => cases hpaid.symm.trans he
  | unconnected paid' e hpaid' he =>
    obtain rfl := Except.ok.inj (hpaid.symm.trans hpaid')
    cases hjob.symm.trans he
  | finished paid' job' s hpaid' hjob' hrun hfinal =>
    obtain rfl := Except.ok.inj (hpaid.symm.trans hpaid')
    obtain rfl := Except.ok.inj (hjob.symm.trans hjob')
    exact ⟨s, hrun, hfinal, rfl, rfl⟩

theorem DownloadFile.arrived (h : DownloadFile cfg x fileKey workers old (.ok n) file)
    (hpaid : payment x fileKey = .ok paid) (hjob : connect x fileKey paid = .ok job) :
    ∃ order : List ℕ, order.Perm (List.range job.total) ∧
      file = laid (truncate old job.info.contentLen) (order.map (arrival cfg x job)) := by
  obtain ⟨s, hrun, -, hresult, rfl⟩ := h.reaches hpaid hjob
  refine hrun.arrived ?_
  by_contra hne
  rw [State.result, if_pos hne] at hresult
  cases hresult

/-- The file, split by the chunk size, has the number of chunks and the root of the record. -/
def Matches (E : Env) (chunkSize : UInt64) (info : Info) (file : Bytes) : Prop :=
  0 < chunkSize.toNat ∧ (split chunkSize.toNat file).length = info.totalChunks.toNat ∧
    ∃ leaves, buildMerkleTreePadded E (split chunkSize.toNat file) = some (leaves, info.merkleRoot)

section Served

variable {original : Bytes} (hpaid : payment x fileKey = .ok paid)
  (hjob : connect x fileKey paid = .ok job) (hcons : Consistent cfg.chunkSize job.info)
  (hlen : original.length = job.info.contentLen.toNat)
  (hserved : ∀ i < job.total,
    fetch cfg x job i = some (.ok (piece cfg.chunkSize.toNat i original)))
include hserved

theorem sent_of_served {i : ℕ} (hi : i < job.total) :
    sent cfg x job i = piece cfg.chunkSize.toNat i original := by
  rw [sent, hserved i hi]

include hlen

theorem notLonger_of_served : NotLonger cfg x job := by
  intro i hi
  rw [sent_of_served hserved hi, length_piece, hlen]

include hcons

theorem Reaches.eq_of_served {s : State} (hrun : Reaches cfg x job workers old s)
    (hfinal : s.Final job) : s.result job = .ok job.info.contentLen ∧ s.file = original := by
  have hfailed := hrun.phase_ne_failed hcons fun i hi => ⟨_, hserved i hi⟩
  have hall := hrun.tally.all_counted_iff.mpr fun i hi =>
    (hfinal.phase i hi).resolve_left (hfailed i)
  refine ⟨if_neg (not_not.mpr hall), ?_⟩
  have hlens := notLonger_of_served hlen hserved
  have hbase : (truncate old job.info.contentLen).length = job.info.contentLen.toNat :=
    length_truncate hcons.contentLen_lt
  obtain ⟨order, hperm, hfile⟩ := hrun.arrived hall
  have hsplit : split cfg.chunkSize.toNat s.file = split cfg.chunkSize.toNat original := by
    obtain ⟨hlength, hpiece⟩ := piece_arrived hcons hperm hbase hlens
    rw [split_eq_map_piece, split_eq_map_piece, hfile, hlength, hbase, hlen, ← hcons.totalChunks]
    refine List.map_congr_left fun i hi => ?_
    have hi := List.mem_range.mp hi
    -- a chunk of the right length leaves nothing of what was there
    rw [hpiece i hi, sent_of_served hserved hi,
      List.drop_eq_nil_of_le, List.append_nil]
    rw [length_piece, length_piece, hbase, hlen]
  rw [← flatten_split hcons.pos s.file, hsplit, flatten_split hcons.pos]

include hpaid hjob

theorem downloadFile_of_served (workers : ℤ) (old : Bytes) :
    DownloadFile cfg x fileKey workers old (.ok job.info.contentLen) original := by
  have hstart : Reaches cfg x job workers old (State.init (truncate old job.info.contentLen)) :=
    .refl
  obtain ⟨s, hrun, hstuck⟩ := Blocking.exists_stuck hstart.acc
  have hfinal : s.Final job := Reaches.final_of_stuck hrun hstuck fun i hi => hserved i hi ▸ rfl
  obtain ⟨hresult, rfl⟩ := Reaches.eq_of_served hcons hlen hserved hrun hfinal
  exact hresult ▸ .finished paid job s hpaid hjob hrun hfinal

/-- **An uploaded file comes back.**  If the servers send the chunks of the file, the call
returns; it succeeds and writes the file, for any number of workers and in any order. -/
theorem downloadFile_uploaded (workers : ℤ) (old : Bytes) :
    DownloadFile cfg x fileKey workers old (.ok job.info.contentLen) original ∧
      ∀ r file, DownloadFile cfg x fileKey workers old r file →
        r = .ok job.info.contentLen ∧ file = original := by
  refine ⟨downloadFile_of_served hpaid hjob hcons hlen hserved workers old, fun r file h => ?_⟩
  obtain ⟨s, hrun, hfinal, rfl, rfl⟩ := h.reaches hpaid hjob
  exact hrun.eq_of_served hcons hlen hserved hfinal

end Served

end Record

/-! ### A file of two chunks -/

/-- The response `{"status":"SUCCESS"}`. -/
def successResponse : Bytes :=
  "\x7b\"status\":\"SUCCESS\"\x7d".toList.map fun c => UInt8.ofNat c.toNat

/-- The record of the file `[1, 2]`, in chunks of one byte. -/
def twoBytesInfo : Info :=
  ⟨combine stdEnv (stdEnv.keccak256 [1]) (stdEnv.keccak256 [2]), 2, 2⟩

/-- The first server sends its chunk. -/
def twoBytes (reply : Reply) : Externals where
  getFileInfo _ := some twoBytesInfo
  chainID := some 991
  newKeyedTransactor _ := true
  payForDownload _ := some (FixedBytes.zero 32)
  waitForTransaction _ := some [[]]
  parseDownloadKeyGenerated _ := some (FixedBytes.zero 32)
  conn1 := some fun _ => sends successResponse [1]
  conn2 := some fun _ => reply
  signMessage _ := some []
  unmarshal data := if data = successResponse then some ⟨"SUCCESS", ""⟩ else none

def twoBytesConfig : Config := ⟨[], 1⟩

def twoBytesJob (reply : Reply) : Job :=
  ⟨twoBytesInfo, FixedBytes.zero 32, FixedBytes.zero 32, fun _ => sends successResponse [1],
    fun _ => reply, []⟩

theorem payment_twoBytes (reply : Reply) : payment (twoBytes reply) (FixedBytes.zero 32) =
    .ok (twoBytesInfo, FixedBytes.zero 32) := rfl

theorem connect_twoBytes (reply : Reply) : connect (twoBytes reply) (FixedBytes.zero 32)
    (twoBytesInfo, FixedBytes.zero 32) = .ok (twoBytesJob reply) := rfl

theorem consistent_twoBytes : Consistent twoBytesConfig.chunkSize twoBytesInfo where
  pos := by decide
  contentLen_lt := by
    show (2 : UInt64).toNat < 2 ^ 63
    decide
  fits := by
    show (2 : UInt64).toNat + (1 : UInt64).toNat ≤ 2 ^ 64
    decide
  totalChunks := by
    show (2 : UInt64).toNat = ((2 : UInt64).toNat + (1 : UInt64).toNat - 1) / (1 : UInt64).toNat
    decide

theorem fetch_twoBytes (b : UInt8) : ∀ i < 2,
    fetch twoBytesConfig (twoBytes (sends successResponse [b]))
      (twoBytesJob (sends successResponse [b])) i = some (.ok (piece 1 i [1, b])) := by
  have hjson : (twoBytes (sends successResponse [b])).unmarshal successResponse =
      some ⟨"SUCCESS", ""⟩ := by
    show (if successResponse = successResponse then some _ else none) = _
    exact if_pos rfl
  have hlen : successResponse.length ≤ maxFrame := by decide +kernel
  have hone : 1 ≤ maxFrame := by decide
  intro i hi
  obtain rfl | rfl : i = 0 ∨ i = 1 := by omega
  · exact requestChunk_eq rfl hjson hlen hone
  · exact requestChunk_eq rfl hjson hlen hone

theorem downloadFile_uploaded_twoBytes :
    DownloadFile twoBytesConfig (twoBytes (sends successResponse [2])) (FixedBytes.zero 32) 2 []
        (.ok 2) [1, 2] ∧
      ∀ r file, DownloadFile twoBytesConfig (twoBytes (sends successResponse [2]))
        (FixedBytes.zero 32) 2 [] r file → r = .ok 2 ∧ file = [1, 2] :=
  downloadFile_uploaded (payment_twoBytes _) (connect_twoBytes _) consistent_twoBytes rfl
    (fetch_twoBytes 2) 2 []

end MetaNode.FileDownload
