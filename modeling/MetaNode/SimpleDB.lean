/-
The file database of `pkg/storage/simpledb.go`.

A value is appended to the data file as a record: its length, the value, its key.
It is read back with one call of `Read`, whose count is dropped (`readBack`).
The index has the offset of the record of each key and is kept in memory; it is
written to the index file as a whole (`saveIndex`) and read from there when the
database is opened.

`RecordAt` says that a record stands at an offset; a record that stands there stays
there when more is appended (`RecordAt.append`), and it is what `Get` and `Compact`
read (`RecordAt.readValue`).  An index whose entries are written out is read back
with the same answers (**`openDB_indexRecords`**).
-/
import MetaNode.BigEndian
import MetaNode.Bytes
import MetaNode.GoMap

namespace MetaNode

/-! ### Reading a file -/

/-- The most bytes that one call of `Read` reads. -/
def maxRW : ℕ := 2 ^ 30

/-- What a call of `Read` with a buffer of `n` bytes reads of the rest of a file. -/
def readChunk (rest : Bytes) (n : ℕ) : Bytes := rest.take (min n maxRW)

/-- The buffer of `n` bytes after the call: what was not read is zero. -/
def readBuffer (rest : Bytes) (n : ℕ) : Bytes :=
  readChunk rest n ++ List.replicate (n - (readChunk rest n).length) 0

/-- `Read` into a buffer of `n` bytes, without a look at the count; nothing at all is
`io.EOF`. -/
def fileRead (rest : Bytes) (n : ℕ) : Option Bytes :=
  if n = 0 then some []
  else if rest = [] then none
  else some (readBuffer rest n)

/-- `binary.Read` of a value of `n` bytes, which has to be there as a whole. -/
def binaryRead (rest : Bytes) (n : ℕ) : Except ReadError Bytes :=
  if n ≤ rest.length then .ok (rest.take n)
  else if rest = [] then .error .eof
  else .error .unexpectedEOF

variable {b : Bytes}

/-- Bytes behind those that are asked for play no part. -/
theorem fileRead_append {n : ℕ} (h : n ≤ b.length) (rest : Bytes) :
    fileRead (b ++ rest) n = some (readBuffer b n) := by
  have hchunk : readChunk (b ++ rest) n = readChunk b n :=
    List.take_append_of_le_length ((Nat.min_le_left _ _).trans h)
  unfold fileRead
  split
  · rename_i hn
    rw [hn]
    rfl
  · rename_i hn
    rw [if_neg (by rintro hnil; simp_all), readBuffer, hchunk, readBuffer]

theorem length_readChunk {n : ℕ} (h : n ≤ b.length) : (readChunk b n).length = min n maxRW := by
  rw [readChunk, List.length_take]
  omega

theorem readBuffer_eq_self (h : b.length ≤ maxRW) : readBuffer b b.length = b := by
  rw [readBuffer, length_readChunk le_rfl, readChunk, Nat.min_eq_left h, List.take_length,
    Nat.sub_self, List.replicate_zero, List.append_nil]

theorem binaryRead_append (rest : Bytes) : binaryRead (b ++ rest) b.length = .ok b := by
  rw [binaryRead, if_pos (by simp), List.take_left]

/-! ### The database -/

inductive SimpleDBError where
  /-- `key phải có đúng 32 bytes` -/
  | keySize
  /-- `không tìm thấy key` -/
  | notFound
  /-- `lỗi khi di chuyển đến offset: %w` -/
  | seek
  /-- `lỗi khi đọc độ dài value: %w` (`Get` adds which file, and names `io.EOF`) -/
  | readSize (e : ReadError)
  /-- `lỗi khi đọc value: %w` (`Get` likewise) -/
  | readValue
  /-- `lỗi khi đọc offset từ file index: %w` -/
  | loadOffset (e : ReadError)
  deriving DecidableEq

def keySize : ℕ := 32

def indexEntry : ℕ := keySize + 8

abbrev IndexMap := AList fun _ : Bytes => Int64

/-- An open database, with the contents of its two files. -/
structure SimpleDB where
  file : Bytes
  indexFile : Bytes
  indexMap : IndexMap

/-- What `Put` appends: the length of the value as a `uint32`, the value and the key. -/
def record (key value : Bytes) : Bytes := LittleEndian.fixed 4 value.length ++ value ++ key

/-- The value of the record at an offset, as `Get` and `Compact` read it. -/
def readValue (file : Bytes) (offset : Int64) : Except SimpleDBError Bytes :=
  if offset < 0 then .error .seek
  else
    let rest := file.drop offset.toNatClampNeg
    match binaryRead rest 4 with
    | .error e => .error (.readSize e)
    | .ok valueSize =>
      match fileRead (rest.drop 4) (LittleEndian.toNat valueSize) with
      | none => .error .readValue
      | some value => .ok value

def indexRecord (e : Sigma fun _ : Bytes => Int64) : Bytes :=
  e.1 ++ LittleEndian.fixed 8 e.2.toUInt64.toNat

/-- The loop of `loadIndex`, for `n` more entries. -/
def loadEntries : ℕ → Bytes → IndexMap → Except SimpleDBError IndexMap
  | 0, _, indexMap => .ok indexMap
  | n + 1, rest, indexMap =>
    match fileRead rest keySize with
    | none => .ok indexMap
    | some key =>
      match binaryRead (rest.drop keySize) 8 with
      | .error e => .error (.loadOffset e)
      | .ok offset =>
        loadEntries n ((rest.drop keySize).drop 8)
          (indexMap.insert key (UInt64.ofNat (LittleEndian.toNat offset)).toInt64)

/-- `Open` of two files, with `loadIndex`: one round for each entry that begins before
the end of the index file. -/
def openDB (file indexFile : Bytes) : Except SimpleDBError SimpleDB :=
  match loadEntries ((indexFile.length + (indexEntry - 1)) / indexEntry) indexFile ∅ with
  | .error e => .error e
  | .ok indexMap => .ok ⟨file, indexFile, indexMap⟩

namespace SimpleDB

variable (db : SimpleDB)

def saveIndex (walk : Walk (Sigma fun _ : Bytes => Int64)) : SimpleDB :=
  { db with indexFile := (walk.order db.indexMap.entries).flatMap indexRecord }

/-- A record goes to the end of the data file, and its offset to the index. -/
def appendRecord (key value : Bytes) : SimpleDB :=
  { db with
    file := db.file ++ record key value
    indexMap := db.indexMap.insert key (Int64.ofNat db.file.length) }

def put (key value : Bytes) (walk : Walk (Sigma fun _ : Bytes => Int64)) :
    Except SimpleDBError Unit × SimpleDB :=
  if key.length ≠ keySize then (.error .keySize, db)
  else
    let db := { db with indexMap := db.indexMap.erase key }
    (.ok (), (db.appendRecord key value).saveIndex walk)

/-- `BatchPut`: the pairs before one with a bad key are in the file and in the index,
which is then not saved. -/
def batchPut (walk : Walk (Sigma fun _ : Bytes => Int64)) :
    SimpleDB → List (Bytes × Bytes) → Except SimpleDBError Unit × SimpleDB
  | db, [] => (.ok (), db.saveIndex walk)
  | db, (key, value) :: kvs =>
    if key.length ≠ keySize then (.error .keySize, db)
    else batchPut walk (db.appendRecord key value) kvs

def get (key : Bytes) : Except SimpleDBError Bytes :=
  if key.length ≠ keySize then .error .keySize
  else
    match db.indexMap.lookup key with
    | none => .error .notFound
    | some offset => readValue db.file offset

/-- `Delete`, which does not save the index. -/
def delete (key : Bytes) : Except SimpleDBError Unit × SimpleDB :=
  if key.length ≠ keySize then (.error .keySize, db)
  else (.ok (), { db with indexMap := db.indexMap.erase key })

/-- The loop of `Compact`, over the entries that are left: the temporary file and the
new index. -/
def compactEntries (file : Bytes) :
    List (Sigma fun _ : Bytes => Int64) → Bytes × IndexMap → Except SimpleDBError (Bytes × IndexMap)
  | [], temp => .ok temp
  | e :: es, (tempFile, newIndexMap) =>
    match readValue file e.2 with
    | .error err => .error err
    | .ok value =>
      compactEntries file es
        (tempFile ++ record e.1 value, newIndexMap.insert e.1 (Int64.ofNat tempFile.length))

def compact (walk save : Walk (Sigma fun _ : Bytes => Int64)) :
    Except SimpleDBError Unit × SimpleDB :=
  match compactEntries db.file (walk.order db.indexMap.entries) ([], ∅) with
  | .error e => (.error e, db)
  | .ok (file, indexMap) => (.ok (), { db with file, indexMap : SimpleDB }.saveIndex save)

/-- `Close`, and `Open` of the same files. -/
def closeOpen (walk : Walk (Sigma fun _ : Bytes => Int64)) : Except SimpleDBError SimpleDB :=
  openDB (db.saveIndex walk).file (db.saveIndex walk).indexFile

/-- The process stops and the files are opened again. -/
def crash : Except SimpleDBError SimpleDB := openDB db.file db.indexFile

end SimpleDB

/-! ### Records in the data file -/

/-- What is read of a value: its length is taken as a `uint32`, and it is read with one call. -/
def readBack (value : Bytes) : Bytes := readBuffer value (value.length % 2 ^ 32)

/-- A value that is read as it is. -/
def Intact (value : Bytes) : Prop := value.length < 2 ^ 32 ∧ ∀ b ∈ value.drop maxRW, b = 0

theorem Intact.of_length_le {value : Bytes} (h : value.length ≤ maxRW) : Intact value := by
  refine ⟨h.trans_lt (by decide), ?_⟩
  simp [List.drop_eq_nil_of_le h]

theorem length_readBack (value : Bytes) : (readBack value).length = value.length % 2 ^ 32 := by
  have hle := Nat.mod_le value.length (2 ^ 32)
  rw [readBack, readBuffer, List.length_append, List.length_replicate, length_readChunk hle]
  omega

theorem readBack_readBack (value : Bytes) : readBack (readBack value) = readBack value := by
  have hle := Nat.mod_le value.length (2 ^ 32)
  have hchunk : readChunk (readBack value) (value.length % 2 ^ 32)
      = readChunk value (value.length % 2 ^ 32) := by
    rw [readChunk, readBack, readBuffer, ← length_readChunk hle, List.take_left]
  rw [readBack, length_readBack, Nat.mod_mod, readBuffer, hchunk, readBack, readBuffer]

theorem readBack_eq_self_iff {value : Bytes} : readBack value = value ↔ Intact value := by
  constructor
  · intro h
    have hlen := length_readBack value
    rw [h] at hlen
    refine ⟨by omega, fun b hb => ?_⟩
    rw [← h, readBack, readBuffer] at hb
    -- what is behind the bytes of one call was left zero
    have hshort : (readChunk value (value.length % 2 ^ 32)).length ≤ maxRW := by
      rw [length_readChunk (Nat.mod_le _ _)]
      exact Nat.min_le_right _ _
    rw [List.drop_append, List.drop_eq_nil_of_le hshort, List.nil_append] at hb
    exact List.eq_of_mem_replicate (List.mem_of_mem_drop hb)
  · rintro ⟨hlt, hzero⟩
    rw [readBack, Nat.mod_eq_of_lt hlt]
    rcases Nat.le_total value.length maxRW with hle | hle
    · exact readBuffer_eq_self hle
    · have hrest : value.drop maxRW = List.replicate (value.length - maxRW) 0 :=
        List.eq_replicate_iff.mpr ⟨List.length_drop, hzero⟩
      rw [readBuffer, length_readChunk le_rfl, readChunk, Nat.min_eq_right hle, ← hrest,
        List.take_append_drop]

/-- A record of the value stands at the offset, or of one that is read in the same way. -/
def RecordAt (file : Bytes) (offset : Int64) (value : Bytes) : Prop :=
  ∃ before key value' after, file = before ++ record key value' ++ after ∧
    before.length < 2 ^ 63 ∧ offset = Int64.ofNat before.length ∧
    readBack value' = readBack value

variable {file : Bytes} {offset : Int64} {value : Bytes}

theorem RecordAt.append (h : RecordAt file offset value) (more : Bytes) :
    RecordAt (file ++ more) offset value := by
  obtain ⟨before, key, value', after, rfl, hlt, hoff, hfit⟩ := h
  exact ⟨before, key, value', after ++ more, by simp only [List.append_assoc], hlt, hoff, hfit⟩

theorem RecordAt.of_readBack (h : RecordAt file offset (readBack value)) :
    RecordAt file offset value := by
  obtain ⟨before, key, value', after, hfile, hlt, hoff, hfit⟩ := h
  rw [readBack_readBack] at hfit
  exact ⟨before, key, value', after, hfile, hlt, hoff, hfit⟩

theorem recordAt_end {key : Bytes} (value : Bytes)
    (h : (file ++ record key value).length < 2 ^ 63) :
    RecordAt (file ++ record key value) (Int64.ofNat file.length) value := by
  rw [List.length_append] at h
  exact ⟨file, key, value, [], by rw [List.append_nil], by omega, rfl, rfl⟩

theorem RecordAt.readValue (h : RecordAt file offset value) :
    MetaNode.readValue file offset = .ok (readBack value) := by
  obtain ⟨before, key, value', after, rfl, hlt, rfl, hfit⟩ := h
  have hpos : ¬ Int64.ofNat before.length < 0 := by
    rw [Int64.lt_iff_toInt_lt, Int64.toInt_ofNat_of_lt hlt]
    simp
  have hsize := binaryRead_append (b := LittleEndian.fixed 4 value'.length)
    (value' ++ key ++ after)
  have hvalue := fileRead_append (Nat.mod_le value'.length (2 ^ 32)) (key ++ after)
  rw [LittleEndian.length_fixed] at hsize
  have hdrop : (LittleEndian.fixed 4 value'.length ++ (value' ++ (key ++ after))).drop 4
      = value' ++ (key ++ after) := List.drop_left' (LittleEndian.length_fixed _ _)
  rw [MetaNode.readValue, if_neg hpos, Int64.toNatClampNeg_ofNat_of_lt hlt, record]
  simp only [List.append_assoc, List.drop_left] at hsize ⊢
  rw [hsize]
  simp only [hdrop, LittleEndian.toNat_fixed]
  rw [show 256 ^ 4 = 2 ^ 32 from rfl, hvalue, ← hfit, readBack]

/-! ### The index file -/

@[simp] theorem length_indexRecord {e : Sigma fun _ : Bytes => Int64} (h : e.1.length = keySize) :
    (indexRecord e).length = indexEntry := by
  rw [indexRecord, List.length_append, h, LittleEndian.length_fixed]
  rfl

variable {es : List (Sigma fun _ : Bytes => Int64)}

theorem length_flatMap_indexRecord (h : ∀ e ∈ es, e.1.length = keySize) :
    (es.flatMap indexRecord).length = indexEntry * es.length := by
  induction es with
  | nil => rfl
  | cons e es ih =>
    rw [List.forall_mem_cons] at h
    rw [List.flatMap_cons, List.length_append, length_indexRecord h.1, ih h.2, List.length_cons,
      Nat.mul_succ, Nat.add_comm]

theorem loadEntries_flatMap (h : ∀ e ∈ es, e.1.length = keySize) (indexMap : IndexMap) :
    loadEntries es.length (es.flatMap indexRecord) indexMap =
      .ok (GoMap.insertAll indexMap es) := by
  induction es generalizing indexMap with
  | nil => rfl
  | cons e es ih =>
    rw [List.forall_mem_cons] at h
    obtain ⟨key, offset⟩ := e
    have hkeylen : key.length = keySize := h.1
    have hkey := fileRead_append (Nat.le_refl key.length)
      (LittleEndian.fixed 8 offset.toUInt64.toNat ++ es.flatMap indexRecord)
    rw [readBuffer_eq_self (by rw [hkeylen]; decide)] at hkey
    have hoffset := binaryRead_append (b := LittleEndian.fixed 8 offset.toUInt64.toNat)
      (es.flatMap indexRecord)
    rw [hkeylen] at hkey
    rw [LittleEndian.length_fixed] at hoffset
    have hread : (UInt64.ofNat (LittleEndian.toNat
        (LittleEndian.fixed 8 offset.toUInt64.toNat))).toInt64 = offset := by
      have hlt := offset.toUInt64.toNat_lt
      rw [LittleEndian.toNat_fixed, Nat.mod_eq_of_lt (by omega), UInt64.ofNat_toNat,
        Int64.toInt64_toUInt64]
    rw [List.flatMap_cons, List.length_cons, indexRecord, List.append_assoc, loadEntries, hkey]
    simp only [List.drop_left' hkeylen, hoffset,
      List.drop_left' (LittleEndian.length_fixed 8 offset.toUInt64.toNat), hread]
    exact ih h.2 _

/-- **The entries of an index, in any order, are opened as an index with the same
answers.** -/
theorem openDB_indexRecords {indexMap : IndexMap} (hkeys : ∀ k ∈ indexMap, k.length = keySize)
    (hes : es.Perm indexMap.entries) (file : Bytes) :
    ∃ indexMap', openDB file (es.flatMap indexRecord)
        = .ok ⟨file, es.flatMap indexRecord, indexMap'⟩ ∧
      ∀ k, indexMap'.lookup k = indexMap.lookup k := by
  have hlen : ∀ e ∈ es, e.1.length = keySize := by
    intro e he
    exact hkeys e.1 (AList.mem_keys.mpr (List.mem_map_of_mem (hes.mem_iff.mp he)))
  have hrounds : ((es.flatMap indexRecord).length + (indexEntry - 1)) / indexEntry = es.length := by
    rw [length_flatMap_indexRecord hlen]
    show (40 * es.length + 39) / 40 = es.length
    omega
  refine ⟨GoMap.insertAll ∅ es, ?_, GoMap.lookup_insertAll_perm hes⟩
  rw [openDB, hrounds, loadEntries_flatMap hlen]

end MetaNode
