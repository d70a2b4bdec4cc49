/-
Files of batches, puts and deletes (`pkg/storage/batchstore.go`).

`AppendBatch`, `AppendPut` and `AppendDelete` encode a record with `encoding/gob` and
append it to a file, with its size before it; `LoadBatch`, `LoadAllPut` and
`LoadAllDelete` read all records of a file.  The readers refuse a record above a limit,
which the writers do not know.

What the code needs of `encoding/gob` is a `Gob`: what was encoded, up to more than the
readers' limits, is decoded again.  Nil slices count as empty.
-/
import MetaNode.Gob
import MetaNode.SimpleDB

namespace MetaNode.BatchStore

open Function

inductive BatchStoreError where
  /-- `failed to serialize batch for append: %w`, `failed to encode data: %w`,
  `failed to encode key: %w` -/
  | encode
  /-- `os.ErrNotExist` of `LoadBatch` -/
  | notExist
  /-- `failed to open file: %w` -/
  | openFile
  /-- `failed to read batch data size: %w`, `failed to read entry size: %w` -/
  | readSize (e : ReadError)
  /-- `invalid batch data size: %d`, `invalid entry size: %d` -/
  | invalidSize (size : Int64)
  /-- `failed to read batch data`, `failed to read entry data: %w` -/
  | readData (e : ReadError)
  /-- `failed to deserialize batch data: %w`, `failed to decode entry data: %w` -/
  | decode
  deriving DecidableEq

abbrev Files := Bytes → Option Bytes

/-- Opening with `O_CREATE`. -/
def create (files : Files) (filename : Bytes) : Files :=
  update files filename (some ((files filename).getD []))

def frame (data : Bytes) : Bytes := LittleEndian.fixed 8 data.length ++ data

def appendFrame (files : Files) (filename data : Bytes) : Files :=
  update files filename (some ((files filename).getD [] ++ frame data))

def maxBatchSize : Int64 := 50 * 1024 * 1024

def maxEntrySize : Int64 := 10 * 1024 * 1024

/-! ### The calls -/

section Calls

variable {α : Type}

/-- `AppendBatch`: the file is only opened once the batch is encoded. -/
def appendBatch (gob : Gob (List (Bytes × Bytes))) (files : Files) (filename : Bytes)
    (data : List (Bytes × Bytes)) : Except BatchStoreError Unit × Files :=
  match gob.encode data with
  | none => (.error .encode, files)
  | some encoded => (.ok (), appendFrame files filename encoded)

/-- `AppendPut` and `AppendDelete`, which open the file first. -/
def appendEntry (gob : Gob α) (files : Files) (filename : Bytes) (entry : α) :
    Except BatchStoreError Unit × Files :=
  match gob.encode entry with
  | none => (.error .encode, create files filename)
  | some encoded => (.ok (), appendFrame files filename encoded)

theorem appendEntry_ok {gob : Gob α} {files files' : Files} {filename : Bytes} {entry : α}
    (h : appendEntry gob files filename entry = (.ok (), files')) :
    ∃ b, gob.encode entry = some b ∧ files' = appendFrame files filename b := by
  rw [appendEntry] at h
  cases hb : gob.encode entry with
  | none =>
    rw [hb] at h
    cases h
  | some b =>
    rw [hb] at h
    cases h
    exact ⟨b, rfl, rfl⟩

def appendPut (gob : Gob (Bytes × Bytes)) (files : Files) (filename key value : Bytes) :
    Except BatchStoreError Unit × Files :=
  appendEntry gob files filename (key, value)

def appendDelete (gob : Gob Bytes) (files : Files) (filename key : Bytes) :
    Except BatchStoreError Unit × Files :=
  appendEntry gob files filename key

theorem length_of_binaryRead {rest b : Bytes} {n : ℕ} (h : binaryRead rest n = .ok b) :
    n ≤ rest.length := by
  rw [binaryRead] at h
  split at h
  · assumption
  · split at h <;> cases h

/-- The loop of the readers over what is left of the file. -/
def readEntries (limit : Int64) (gob : Gob α) (rest : Bytes) : Except BatchStoreError (List α) :=
  match _h : binaryRead rest 8 with
  | .error .eof => .ok []
  | .error .unexpectedEOF => .error (.readSize .unexpectedEOF)
  | .ok b =>
    let size := (UInt64.ofNat (LittleEndian.toNat b)).toInt64
    if size ≤ 0 ∨ size > limit then .error (.invalidSize size)
    else
      match binaryRead (rest.drop 8) size.toNatClampNeg with
      | .error e => .error (.readData e)
      | .ok data =>
        match gob.decode data with
        | none => .error .decode
        | some entry =>
          (readEntries limit gob ((rest.drop 8).drop size.toNatClampNeg)).map (entry :: ·)
termination_by rest.length
decreasing_by
  have hle := length_of_binaryRead _h
  rw [List.length_drop, List.length_drop]
  omega

def loadBatch (gob : Gob (List (Bytes × Bytes))) (files : Files) (filename : Bytes) :
    Except BatchStoreError (List (Bytes × Bytes)) :=
  match files filename with
  | none => .error .notExist
  | some content => (readEntries maxBatchSize gob content).map List.flatten

/-- `LoadAllPut` and `LoadAllDelete`. -/
def loadAll (gob : Gob α) (files : Files) (filename : Bytes) : Except BatchStoreError (List α) :=
  match files filename with
  | none => .error .openFile
  | some content => readEntries maxEntrySize gob content

def loadAllPut (gob : Gob (Bytes × Bytes)) (files : Files) (filename : Bytes) :
    Except BatchStoreError (List (Bytes × Bytes)) := loadAll gob files filename

def loadAllDelete (gob : Gob Bytes) (files : Files) (filename : Bytes) :
    Except BatchStoreError (List Bytes) := loadAll gob files filename

end Calls

/-! ### Reading what was written -/

section Frames

variable {α : Type} {gob : Gob α}

theorem readEntries_nil (limit : Int64) (gob : Gob α) : readEntries limit gob [] = .ok [] := by
  rw [readEntries]
  rfl

theorem size_eq {n : ℕ} (h : n < 2 ^ 63) :
    (UInt64.ofNat (LittleEndian.toNat (LittleEndian.fixed 8 n))).toInt64 = Int64.ofNat n := by
  rw [LittleEndian.toNat_fixed, Nat.mod_eq_of_lt (by omega), UInt64.toInt64_ofNat']

theorem readEntries_frame {data : Bytes} (hpos : 0 < data.length) (hlt : data.length < 2 ^ 63)
    (limit : Int64) (gob : Gob α) (rest : Bytes) :
    readEntries limit gob (frame data ++ rest) =
      if limit.toInt < data.length then .error (.invalidSize (Int64.ofNat data.length))
      else match gob.decode data with
        | none => .error .decode
        | some entry => (readEntries limit gob rest).map (entry :: ·) := by
  have hlen : (LittleEndian.fixed 8 data.length).length = 8 := LittleEndian.length_fixed _ _
  have hsize := binaryRead_append (b := LittleEndian.fixed 8 data.length) (data ++ rest)
  have hdata := binaryRead_append (b := data) rest
  rw [hlen] at hsize
  have hint : (Int64.ofNat data.length).toInt = data.length := Int64.toInt_ofNat_of_lt hlt
  have hbad : (Int64.ofNat data.length ≤ 0 ∨ Int64.ofNat data.length > limit) ↔
      limit.toInt < data.length := by
    rw [gt_iff_lt, Int64.le_iff_toInt_le, Int64.lt_iff_toInt_lt, hint, Int64.toInt_zero]
    omega
  have hdrop : (LittleEndian.fixed 8 data.length ++ (data ++ rest)).drop 8 = data ++ rest :=
    List.drop_left' hlen
  rw [readEntries, frame, List.append_assoc]
  split
  · rename_i h
    rw [hsize] at h
    cases h
  · rename_i h
    rw [hsize] at h
    cases h
  · rename_i b h
    rw [hsize] at h
    cases h
    simp only [size_eq hlt, hbad, hdrop, Int64.toNatClampNeg_ofNat_of_lt hlt, hdata, List.drop_left]

/-- **The records of a file come back exactly if they keep to the limit.** -/
theorem readEntries_frames_iff {limit : Int64} (hlimit : limit.toInt ≤ Gob.reach)
    {as xs : List α} {bs : List Bytes}
    (h : List.Forall₂ (fun a b => gob.encode a = some b) as bs) :
    readEntries limit gob (bs.flatMap frame) = .ok xs ↔ xs = as ∧ ∀ a ∈ as, gob.Fits limit a := by
  induction h generalizing xs with
  | nil => simp [readEntries_nil, eq_comm]
  | @cons a b as bs hab _ ih =>
    obtain ⟨hpos, hlt⟩ := gob.length_encode a b hab
    rw [List.flatMap_cons, readEntries_frame hpos hlt, List.forall_mem_cons, Gob.fits_iff hab]
    split
    · rename_i hbig
      constructor
      · intro herr
        cases herr
      · intro hok
        omega
    · rename_i hsmall
      rw [not_lt] at hsmall
      rw [gob.decode_encode a b hab (by omega)]
      cases hrest : readEntries limit gob (bs.flatMap frame) with
      | error =>
        have hnot : ¬ ∀ a ∈ as, gob.Fits limit a := by
          intro hall
          have hok := ih.mpr ⟨rfl, hall⟩
          rw [hrest] at hok
          cases hok
        simp [Except.map, hnot]
      | ok =>
        obtain ⟨has, hall⟩ := ih.mp hrest
        constructor
        · intro h
          cases h
          exact ⟨by rw [has], hsmall, hall⟩
        · rintro ⟨rfl, -, -⟩
          rw [has]
          rfl

end Frames

/-! ### Calls on many files -/

/-- The encodings of the three kinds of records. -/
structure Gobs where
  batch : Gob (List (Bytes × Bytes))
  put : Gob (Bytes × Bytes)
  delete : Gob Bytes

inductive Append where
  | batch (filename : Bytes) (data : List (Bytes × Bytes))
  | put (filename key value : Bytes)
  | delete (filename key : Bytes)

namespace Append

variable (g : Gobs)

def filename : Append → Bytes
  | batch filename _ => filename
  | put filename _ _ => filename
  | delete filename _ => filename

def encoded : Append → Option Bytes
  | batch _ data => g.batch.encode data
  | put _ key value => g.put.encode (key, value)
  | delete _ key => g.delete.encode key

def call (files : Files) : Append → Except BatchStoreError Unit × Files
  | batch filename data => appendBatch g.batch files filename data
  | put filename key value => appendPut g.put files filename key value
  | delete filename key => appendDelete g.delete files filename key

def run (files : Files) (calls : List Append) : Option Files :=
  calls.foldlM (fun files c => match c.call g files with
    | (.ok (), files) => some files
    | (.error _, _) => none) files

theorem call_ok {g : Gobs} {files files' : Files} {c : Append}
    (h : c.call g files = (.ok (), files')) :
    ∃ b, c.encoded g = some b ∧ files' = appendFrame files c.filename b := by
  cases c with
  | batch filename data =>
    rw [call, appendBatch] at h
    cases hb : g.batch.encode data with
    | none =>
      rw [hb] at h
      cases h
    | some b =>
      rw [hb] at h
      cases h
      exact ⟨b, hb, rfl⟩
  | put | delete => exact appendEntry_ok h

/-- The content of a file after successful calls: what it had and a record for each call on it. -/
theorem run_content {g : Gobs} {files files' : Files} {calls : List Append} (f : Bytes)
    (h : run g files calls = some files') :
    ∃ bs, List.Forall₂ (fun c b => c.encoded g = some b) (calls.filter (·.filename = f)) bs ∧
      (files' f).getD [] = (files f).getD [] ++ bs.flatMap frame ∧
      (bs = [] → files' f = files f) ∧ (bs ≠ [] → (files' f).isSome) := by
  induction calls generalizing files with
  | nil =>
    cases h
    exact ⟨[], .nil, by simp, fun _ => rfl, fun h => absurd rfl h⟩
  | cons c calls ih =>
    rw [run, List.foldlM_cons, Option.bind_eq_bind, Option.bind_eq_some_iff] at h
    obtain ⟨mid, hmid, hrun⟩ := h
    have hcall : c.call g files = (.ok (), mid) := by
      split at hmid
      · rename_i hc
        rw [hc, Option.some.inj hmid]
      · cases hmid
    obtain ⟨b, hb, rfl⟩ := call_ok hcall
    obtain ⟨bs, hbs, hcontent, hsame, hsome⟩ := ih hrun
    by_cases hf : c.filename = f
    · have hfile : appendFrame files c.filename b f = some ((files f).getD [] ++ frame b) := by
        rw [appendFrame, hf, update_self]
      rw [hfile, Option.getD_some] at hcontent
      refine ⟨b :: bs, ?_, ?_, fun h => absurd h (List.cons_ne_nil _ _), fun _ => ?_⟩
      · rw [List.filter_cons_of_pos (by simpa using hf)]
        exact .cons hb hbs
      · rw [hcontent, List.flatMap_cons, List.append_assoc]
      · by_cases hnil : bs = []
        · rw [hsame hnil, hfile]
          rfl
        · exact hsome hnil
    · have hfile : appendFrame files c.filename b f = files f := by
        rw [appendFrame, update_of_ne (Ne.symm hf)]
      rw [hfile] at hcontent hsame
      refine ⟨bs, ?_, hcontent, hsame, hsome⟩
      rwa [List.filter_cons_of_neg (by simpa using hf)]

end Append

/-! ### Loading the records of a file -/

/-- The records of one kind in one file: how they are encoded, which call appends one, and
which record a call appends. -/
structure Kind (g : Gobs) (f : Bytes) (α : Type) where
  gob : Gob α
  append : α → Append
  record : Append → Option α
  encoded_append : ∀ a, (append a).encoded g = gob.encode a
  record_append : ∀ a, record (append a) = some a
  filename_of_record : ∀ c a, record c = some a → c.filename = f

namespace Kind

variable {g : Gobs} {f : Bytes} {α : Type}

def records (k : Kind g f α) (calls : List Append) : List α := calls.filterMap k.record

def Only (k : Kind g f α) (calls : List Append) : Prop :=
  ∀ c ∈ calls, c.filename = f → ∃ a, c = k.append a

variable {k : Kind g f α} {calls : List Append}

theorem filter_eq (h : k.Only calls) :
    calls.filter (·.filename = f) = (k.records calls).map k.append := by
  induction calls with
  | nil => rfl
  | cons c calls ih =>
    have hcalls := ih fun c' hc' => h c' (List.mem_cons_of_mem c hc')
    by_cases hf : c.filename = f
    · obtain ⟨a, rfl⟩ := h c List.mem_cons_self hf
      rw [List.filter_cons_of_pos (by simpa using hf), hcalls, records, records,
        List.filterMap_cons_some (k.record_append a), List.map_cons]
    · have hnone : k.record c = none := by
        rw [Option.eq_none_iff_forall_ne_some]
        intro a ha
        exact hf (k.filename_of_record c a ha)
      rw [List.filter_cons_of_neg (by simpa using hf), hcalls, records, records,
        List.filterMap_cons_none hnone]

variable {files files' : Files}

theorem content_run (hrun : Append.run g files calls = some files') (hfresh : files f = none)
    (h : k.Only calls) :
    k.records calls = [] ∧ files' f = none ∨
      k.records calls ≠ [] ∧ ∃ content, files' f = some content ∧
        ∀ limit : Int64, limit.toInt ≤ Gob.reach → ∀ xs, readEntries limit k.gob content = .ok xs ↔
          xs = k.records calls ∧ ∀ a ∈ k.records calls, k.gob.Fits limit a := by
  obtain ⟨bs, hbs, hcontent, hsame, hsome⟩ := Append.run_content f hrun
  rw [filter_eq h, List.forall₂_map_left_iff] at hbs
  simp only [k.encoded_append] at hbs
  by_cases hnil : bs = []
  · left
    rw [hnil, List.forall₂_nil_right_iff] at hbs
    exact ⟨hbs, (hsame hnil).trans hfresh⟩
  · right
    obtain ⟨content, hfile⟩ := Option.isSome_iff_exists.mp (hsome hnil)
    rw [hfile, hfresh, Option.getD_some, Option.getD_none, List.nil_append] at hcontent
    refine ⟨?_, content, hfile, ?_⟩
    · intro hrecords
      rw [hrecords, List.forall₂_nil_left_iff] at hbs
      exact hnil hbs
    · intro limit hlimit xs
      rw [hcontent]
      exact readEntries_frames_iff hlimit hbs

variable (g f)

def batch : Kind g f (List (Bytes × Bytes)) where
  gob := g.batch
  append := .batch f
  record
    | .batch filename data => if filename = f then some data else none
    | .put _ _ _ => none
    | .delete _ _ => none
  encoded_append _ := rfl
  record_append _ := if_pos rfl
  filename_of_record c a h := by
    cases c with
    | batch filename data =>
      rw [Option.ite_none_right_eq_some] at h
      exact h.1
    | put | delete => cases h

def put : Kind g f (Bytes × Bytes) where
  gob := g.put
  append p := .put f p.1 p.2
  record
    | .batch _ _ => none
    | .put filename key value => if filename = f then some (key, value) else none
    | .delete _ _ => none
  encoded_append _ := rfl
  record_append _ := if_pos rfl
  filename_of_record c a h := by
    cases c with
    | batch => cases h
    | put filename key value =>
      rw [Option.ite_none_right_eq_some] at h
      exact h.1
    | delete => cases h

def delete : Kind g f Bytes where
  gob := g.delete
  append := .delete f
  record
    | .batch _ _ => none
    | .put _ _ _ => none
    | .delete filename key => if filename = f then some key else none
  encoded_append _ := rfl
  record_append _ := if_pos rfl
  filename_of_record c a h := by
    cases c with
    | batch | put => cases h
    | delete filename key =>
      rw [Option.ite_none_right_eq_some] at h
      exact h.1

variable {g f}

theorem loadAll_iff (hrun : Append.run g files calls = some files') (hfresh : files f = none)
    (h : k.Only calls) :
    loadAll k.gob files' f = .ok (k.records calls) ↔
      k.records calls ≠ [] ∧ ∀ a ∈ k.records calls, k.gob.Fits maxEntrySize a := by
  rw [loadAll]
  rcases content_run hrun hfresh h with ⟨hnil, hfile⟩ | ⟨hne, content, hfile, hread⟩
  · simp [hfile, hnil]
  · simp [hfile, hread maxEntrySize (by decide), hne]

theorem loadBatch_iff (hrun : Append.run g files calls = some files') (hfresh : files f = none)
    (h : (batch g f).Only calls) :
    loadBatch g.batch files' f = .ok ((batch g f).records calls).flatten ↔
      (batch g f).records calls ≠ [] ∧
        ∀ a ∈ (batch g f).records calls, g.batch.Fits maxBatchSize a := by
  rw [loadBatch]
  rcases content_run hrun hfresh h with ⟨hnil, hfile⟩ | ⟨hne, content, hfile, hread⟩
  · simp [hfile, hnil]
  · have hbatch := hread maxBatchSize (by decide)
    simp only [hfile]
    constructor
    · intro hload
      cases hentries : readEntries maxBatchSize g.batch content with
      | error =>
        rw [hentries] at hload
        cases hload
      | ok xs => exact ⟨hne, ((hbatch xs).mp hentries).2⟩
    · rintro ⟨-, hfits⟩
      have hentries : readEntries maxBatchSize g.batch content = .ok _ :=
        (hbatch _).mpr ⟨rfl, hfits⟩
      rw [hentries]
      rfl

end Kind

/-- **What is loaded from a fresh file.**  After calls that all succeed, on any files and in
any order, the records of a file are loaded in order if and only if there are some and what
was written for each of them keeps to the reader's limit. -/
theorem load_iff (g : Gobs) {files files' : Files} {calls : List Append}
    (hrun : Append.run g files calls = some files') (f : Bytes) (hfresh : files f = none) :
    ((Kind.batch g f).Only calls →
      (loadBatch g.batch files' f = .ok ((Kind.batch g f).records calls).flatten ↔
        (Kind.batch g f).records calls ≠ [] ∧
          ∀ data ∈ (Kind.batch g f).records calls, g.batch.Fits maxBatchSize data)) ∧
    ((Kind.put g f).Only calls →
      (loadAllPut g.put files' f = .ok ((Kind.put g f).records calls) ↔
        (Kind.put g f).records calls ≠ [] ∧
          ∀ p ∈ (Kind.put g f).records calls, g.put.Fits maxEntrySize p)) ∧
    ((Kind.delete g f).Only calls →
      (loadAllDelete g.delete files' f = .ok ((Kind.delete g f).records calls) ↔
        (Kind.delete g f).records calls ≠ [] ∧
          ∀ key ∈ (Kind.delete g f).records calls, g.delete.Fits maxEntrySize key)) :=
  ⟨Kind.loadBatch_iff hrun hfresh, Kind.loadAll_iff hrun hfresh, Kind.loadAll_iff hrun hfresh⟩

/-- The encodings of byte slices and pairs of them. -/
def gobs : Gobs := ⟨Gob.bytesPairs, Gob.bytesPair, Gob.bytes⟩

def sampleCalls : List Append :=
  [.put [1] [7] [8], .delete [2] [7], .batch [3] [([7], [8]), ([9], [])], .put [1] [9] [],
    .delete [2] [9]]

theorem load_sampleCalls : ∃ files', Append.run gobs (fun _ => none) sampleCalls = some files' ∧
    loadBatch gobs.batch files' [3] = .ok [([7], [8]), ([9], [])] ∧
    loadAllPut gobs.put files' [1] = .ok [([7], [8]), ([9], [])] ∧
    loadAllDelete gobs.delete files' [2] = .ok [[7], [9]] := by
  have hrun : Append.run gobs (fun _ => none) sampleCalls = some _ := rfl
  refine ⟨_, hrun, ?_, ?_, ?_⟩
  · refine ((load_iff gobs hrun [3] rfl).1 ?_).mpr (by decide)
    simp [Kind.Only, sampleCalls, Kind.batch, Append.filename]
  · refine ((load_iff gobs hrun [1] rfl).2.1 ?_).mpr (by decide)
    simp [Kind.Only, sampleCalls, Kind.put, Append.filename]
  · refine ((load_iff gobs hrun [2] rfl).2.2 ?_).mpr (by decide)
    simp [Kind.Only, sampleCalls, Kind.delete, Append.filename]

/-- A key of ten megabytes is appended, and the file cannot be read any more. -/
theorem loadAllDelete_refuses : ∃ key : Bytes, key.length = 10485760 ∧
    ∃ files', Append.run gobs (fun _ => none) [.delete [2] key] = some files' ∧
      loadAllDelete gobs.delete files' [2] = .error (.invalidSize 10485770) := by
  obtain ⟨key, hkey⟩ : ∃ key : Bytes, key.length = 10485760 :=
    ⟨List.replicate 10485760 0, List.length_replicate⟩
  obtain ⟨e, he, hlen⟩ := Gob.length_bytes (b := key) (by omega) (by omega)
  have hcall : Append.call gobs (fun _ => none) (.delete [2] key) =
      (.ok (), appendFrame (fun _ => none) [2] e) := by
    rw [Append.call, appendDelete, appendEntry, gobs, he]
  refine ⟨key, hkey, appendFrame (fun _ => none) [2] e, ?_, ?_⟩
  · rw [Append.run, List.foldlM_cons, hcall]
    rfl
  · have hread : readEntries maxEntrySize gobs.delete (frame e ++ []) = _ :=
      readEntries_frame (by omega) (by omega) maxEntrySize gobs.delete []
    rw [List.append_nil, hlen, hkey, if_pos (by decide)] at hread
    rw [loadAllDelete, loadAll, appendFrame, update_self]
    exact hread

end MetaNode.BatchStore
