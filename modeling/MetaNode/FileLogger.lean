/-
Log files that are rotated by size (`pkg/loggerfile/logger_file.go`).

A logger appends its lines to one file.  Once it has written as many bytes as it may, it
closes the file, removes the oldest of the files it keeps (`.n`), moves each other one up by
one number, from the top down, and makes the current file the new `.1`.
-/
import MetaNode.AccountJson
import MetaNode.Machine
import MetaNode.Receipt

namespace MetaNode.FileLogger

open Function

/-! ### The file system -/

abbrev FileSystem := Bytes → Option Bytes

namespace FileSystem

variable (fs : FileSystem)

/-- `os.Remove` -/
def remove (path : Bytes) : FileSystem := update fs path none

/-- `os.Rename`, which does nothing if there is no such file. -/
def rename (oldPath newPath : Bytes) : FileSystem :=
  match fs oldPath with
  | none => fs
  | some content => update (update fs oldPath none) newPath (some content)

/-- `os.OpenFile` with `O_APPEND|O_CREATE` -/
def openFile (path : Bytes) : FileSystem :=
  update fs path (some ((fs path).getD []))

/-- `WriteString` on a file that is open for appending. -/
def append (path line : Bytes) : FileSystem :=
  update fs path ((fs path).map (· ++ line))

variable {fs} {oldPath newPath path : Bytes}

theorem rename_of_none (h : fs oldPath = none) : fs.rename oldPath newPath = fs := by
  rw [rename, h]

theorem rename_of_some {content : Bytes} (h : fs oldPath = some content) :
    fs.rename oldPath newPath =
      update (update fs oldPath none) newPath (some content) := by
  rw [rename, h]

theorem rename_new (h : fs newPath = none) : fs.rename oldPath newPath newPath = fs oldPath := by
  cases hold : fs oldPath with
  | none => rw [rename_of_none hold, h]
  | some => rw [rename_of_some hold, update_self]

theorem rename_old (hne : oldPath ≠ newPath) : fs.rename oldPath newPath oldPath = none := by
  cases hold : fs oldPath with
  | none => rw [rename_of_none hold, hold]
  | some => rw [rename_of_some hold, update_of_ne hne, update_self]

theorem rename_of_ne (hold : path ≠ oldPath) (hnew : path ≠ newPath) :
    fs.rename oldPath newPath path = fs path := by
  cases h : fs oldPath with
  | none => rw [rename_of_none h]
  | some =>
    rw [rename_of_some h, update_of_ne hnew, update_of_ne hold]

end FileSystem

/-! ### The logger -/

/-- `FileLogger`, with the files.  What it writes goes to `filePath`. -/
structure Logger where
  fs : FileSystem
  filePath : Bytes
  maxFileSize : Int64
  maxLogFiles : ℕ
  bytesWritten : Int64

/-- The `i`-th rotated file, `fmt.Sprintf("%s.%d", filePath, i)`. -/
def rotated (filePath : Bytes) (i : ℕ) : Bytes := filePath ++ asciiBytes "." ++ decimalNat i

namespace Logger

def defaultMaxLogFileSize : Int64 := 200 * 1024 * 1024

def defaultMaxLogFiles : ℕ := 5

def newFileLogger (fs : FileSystem) (filePath : Bytes) : Logger where
  fs := fs.openFile filePath
  filePath := filePath
  maxFileSize := defaultMaxLogFileSize
  maxLogFiles := defaultMaxLogFiles
  bytesWritten := Int64.ofNat ((fs filePath).getD []).length

variable (fl : Logger)

def setMaxFileSize (size : Int64) : Logger :=
  if 0 < size then { fl with maxFileSize := size } else fl

def setMaxLogFiles (n : ℤ) : Logger :=
  if 0 < n then { fl with maxLogFiles := n.toNat } else fl

/-- The loop of `rotateLocked`, from the number `i` down. -/
def cascade (filePath : Bytes) (maxLogFiles : ℕ) : ℕ → FileSystem → FileSystem
  | 0, fs => fs
  | i + 1, fs =>
    cascade filePath maxLogFiles i <|
      if i + 1 = maxLogFiles then fs.remove (rotated filePath (i + 1))
      else fs.rename (rotated filePath (i + 1)) (rotated filePath (i + 2))

def rotateLocked : Logger :=
  let fs := cascade fl.filePath fl.maxLogFiles fl.maxLogFiles fl.fs
  let fs := fs.rename fl.filePath (rotated fl.filePath 1)
  { fl with fs := fs.openFile fl.filePath, bytesWritten := 0 }

def checkAndRotate : Logger :=
  if fl.maxFileSize ≤ 0 ∨ fl.bytesWritten < fl.maxFileSize then fl else fl.rotateLocked

/-- What is logged, with the time of the call as text. -/
structure Entry where
  timestamp : Bytes
  message : Bytes

/-- `fmt.Sprintf("%s: %s\n", timestamp, message)` -/
def Entry.line (e : Entry) : Bytes :=
  e.timestamp ++ asciiBytes ": " ++ e.message ++ asciiBytes "\n"

def log (e : Entry) : Logger :=
  { fl with
    fs := fl.fs.append fl.filePath e.line
    bytesWritten := fl.bytesWritten + Int64.ofNat e.line.length }.checkAndRotate

end Logger

/-! ### Rotated files are told apart -/

section Names

variable {filePath : Bytes} {i j : ℕ}

theorem rotated_inj : rotated filePath i = rotated filePath j ↔ i = j := by
  constructor
  · intro h
    have hdecimal : decimalNat i = decimalNat j := List.append_cancel_left h
    have hparsed := parseDecimal_decimalNat i
    rw [hdecimal, parseDecimal_decimalNat, Option.some.injEq] at hparsed
    exact hparsed.symm
  · rintro rfl
    rfl

theorem rotated_ne_filePath : rotated filePath i ≠ filePath := by
  intro h
  have hlength := congrArg List.length h
  rw [rotated, List.length_append, List.length_append] at hlength
  have hdot : (asciiBytes ".").length = 1 := rfl
  omega

end Names

/-! ### The renames -/

variable {filePath : Bytes} {n : ℕ} {fs : FileSystem}

theorem cascade_of_ne {path : Bytes} (hpath : ∀ i, path ≠ rotated filePath (i + 1)) (k : ℕ) :
    Logger.cascade filePath n k fs path = fs path := by
  induction k generalizing fs with
  | zero => rfl
  | succ k ih =>
    rw [Logger.cascade, ih]
    split
    · exact update_of_ne (hpath _) _ _
    · exact FileSystem.rename_of_ne (hpath _) (hpath _)

/-- **The renames move each file up by one.**  From a number whose place is free, below the
largest one. -/
theorem cascade_below {k : ℕ} (hk : k < n) (hfree : fs (rotated filePath (k + 1)) = none) (i : ℕ) :
    Logger.cascade filePath n k fs (rotated filePath (i + 1)) =
      if i = 0 then none
      else if i ≤ k then fs (rotated filePath i) else fs (rotated filePath (i + 1)) := by
  induction k generalizing fs with
  | zero =>
    rw [Logger.cascade]
    split
    · next hi => rw [hi, hfree]
    · next hi => rw [if_neg (by omega)]
  | succ k ih =>
    have hne : rotated filePath (k + 1) ≠ rotated filePath (k + 2) := by
      rw [Ne, rotated_inj]
      omega
    rw [Logger.cascade, if_neg (by omega), ih (by omega) (FileSystem.rename_old hne)]
    split
    · rfl
    · next hi =>
      by_cases hik : i ≤ k
      · -- files below the one that moves
        rw [if_pos hik, if_pos (by omega)]
        refine FileSystem.rename_of_ne ?_ ?_ <;>
        · rw [Ne, rotated_inj]
          omega
      · rw [if_neg hik]
        by_cases hmoved : i = k + 1
        · rw [if_pos (by omega), hmoved, FileSystem.rename_new hfree]
        · rw [if_neg (by omega)]
          refine FileSystem.rename_of_ne ?_ ?_ <;>
          · rw [Ne, rotated_inj]
            omega

theorem cascade_rotated (i : ℕ) :
    Logger.cascade filePath (n + 1) (n + 1) fs (rotated filePath (i + 1)) =
      if i = 0 then none
      else if i ≤ n then fs (rotated filePath i) else fs (rotated filePath (i + 1)) := by
  have hfree : fs.remove (rotated filePath (n + 1)) (rotated filePath (n + 1)) = none :=
    update_self _ _ _
  have hother : ∀ j, j ≠ n + 1 →
      fs.remove (rotated filePath (n + 1)) (rotated filePath j) = fs (rotated filePath j) := by
    intro j hj
    refine update_of_ne ?_ _ _
    rwa [Ne, rotated_inj]
  rw [Logger.cascade, if_pos rfl, cascade_below (Nat.lt_succ_self n) hfree]
  split
  · rfl
  · split
    · rw [hother i (by omega)]
    · rw [hother (i + 1) (by omega)]

/-! ### Which lines stand where -/

/-- The rotated files hold `chunks`, the newest first, and the current one holds `current`;
there are no other files. -/
structure Archive (filePath : Bytes) (fs : FileSystem) (chunks : List (List Bytes))
    (current : List Bytes) : Prop where
  file : fs filePath = some current.flatten
  rotated : ∀ i, fs (rotated filePath (i + 1)) = chunks[i]?.map List.flatten
  other : ∀ path, path ≠ filePath → (∀ i, path ≠ FileLogger.rotated filePath (i + 1)) →
    fs path = none

variable {chunks : List (List Bytes)} {current : List Bytes}

theorem Archive.append (h : Archive filePath fs chunks current) (line : Bytes) :
    Archive filePath (fs.append filePath line) chunks (current ++ [line]) where
  file := by
    rw [FileSystem.append, update_self, h.file, List.flatten_append]
    simp
  rotated i := by
    rw [FileSystem.append, update_of_ne rotated_ne_filePath, h.rotated]
  other path hpath hrotated := by
    rw [FileSystem.append, update_of_ne hpath, h.other path hpath hrotated]

def rotateFiles (filePath : Bytes) (n : ℕ) (fs : FileSystem) : FileSystem :=
  ((Logger.cascade filePath n n fs).rename filePath (rotated filePath 1)).openFile filePath

theorem Archive.rotate (h : Archive filePath fs chunks current)
    (hlength : chunks.length ≤ n + 1) :
    Archive filePath (rotateFiles filePath (n + 1) fs) (current :: chunks.take n) [] := by
  have hfile : Logger.cascade filePath (n + 1) (n + 1) fs filePath = some current.flatten := by
    rw [cascade_of_ne fun i => rotated_ne_filePath.symm, h.file]
  have hfree : Logger.cascade filePath (n + 1) (n + 1) fs (FileLogger.rotated filePath (0 + 1)) =
      none := by
    rw [cascade_rotated, if_pos rfl]
  have hne : filePath ≠ FileLogger.rotated filePath (0 + 1) := rotated_ne_filePath.symm
  refine ⟨?_, ?_, ?_⟩
  · -- a new file
    rw [rotateFiles, FileSystem.openFile, update_self, FileSystem.rename_old hne]
    rfl
  · intro i
    rw [rotateFiles, FileSystem.openFile, update_of_ne rotated_ne_filePath]
    cases i with
    | zero =>
      rw [FileSystem.rename_new hfree, hfile]
      rfl
    | succ i =>
      have hi : FileLogger.rotated filePath (i + 1 + 1) ≠ FileLogger.rotated filePath (0 + 1) := by
        rw [Ne, rotated_inj]
        omega
      rw [FileSystem.rename_of_ne rotated_ne_filePath hi, cascade_rotated,
        if_neg (Nat.succ_ne_zero i), List.getElem?_cons_succ, List.getElem?_take]
      split
      · next hin => rw [h.rotated, if_pos (by omega)]
      · next hin =>
        -- there was no file with this number
        rw [h.rotated, if_neg (by omega), List.getElem?_eq_none (by omega)]
  · intro path hpath hrotated
    rw [rotateFiles, FileSystem.openFile, update_of_ne hpath,
      FileSystem.rename_of_ne hpath (hrotated 0), cascade_of_ne hrotated,
      h.other path hpath hrotated]

/-! ### Whole runs -/

structure Holds (filePath : Bytes) (n : ℕ) (lines : List Bytes) (fl : Logger) : Prop where
  path : fl.filePath = filePath
  maxLogFiles : fl.maxLogFiles = n
  archive : ∃ dropped chunks current, lines = dropped ++ chunks.reverse.flatten ++ current ∧
    chunks.length ≤ n ∧ Archive filePath fl.fs chunks current

variable {lines : List Bytes} {fl : Logger}

theorem Holds.append (h : Holds filePath n lines fl) (line : Bytes) (bytesWritten : Int64) :
    Holds filePath n (lines ++ [line])
      { fl with fs := fl.fs.append fl.filePath line, bytesWritten := bytesWritten } := by
  obtain ⟨dropped, chunks, current, hlines, hlength, harchive⟩ := h.archive
  refine ⟨h.path, h.maxLogFiles, dropped, chunks, current ++ [line], ?_, hlength, ?_⟩
  · rw [hlines, List.append_assoc]
  · rw [h.path]
    exact harchive.append line

section

variable (h : Holds filePath (n + 1) lines fl)

include h

theorem Holds.rotateLocked : Holds filePath (n + 1) lines fl.rotateLocked := by
  obtain ⟨dropped, chunks, current, hlines, hlength, harchive⟩ := h.archive
  refine ⟨h.path, h.maxLogFiles, dropped ++ (chunks.drop n).reverse.flatten,
    current :: chunks.take n, [], ?_, ?_, ?_⟩
  · -- the oldest file is the one that is dropped
    have hsplit : chunks.reverse.flatten =
        (chunks.drop n).reverse.flatten ++ (chunks.take n).reverse.flatten := by
      rw [← List.flatten_append, ← List.reverse_append, List.take_append_drop]
    rw [hlines, hsplit, List.reverse_cons, List.flatten_append]
    simp
  · rw [List.length_cons, List.length_take]
    omega
  · have hrotate := harchive.rotate hlength
    rw [rotateFiles] at hrotate
    rw [Logger.rotateLocked, h.path, h.maxLogFiles]
    exact hrotate

theorem Holds.log (e : Logger.Entry) : Holds filePath (n + 1) (lines ++ [e.line]) (fl.log e) := by
  have hwritten := h.append e.line (fl.bytesWritten + Int64.ofNat e.line.length)
  rw [Logger.log, Logger.checkAndRotate]
  split
  · exact hwritten
  · exact hwritten.rotateLocked

theorem Holds.run (entries : List Logger.Entry) :
    Holds filePath (n + 1) (lines ++ entries.map Logger.Entry.line)
      (Machine.run Logger.log fl entries) := by
  induction entries generalizing lines fl with
  | nil =>
    rw [List.map_nil, List.append_nil]
    exact h
  | cons e rest ih =>
    have hrest := ih (h.log e)
    rwa [List.append_assoc] at hrest

end

/-- A logger on an empty directory, set up to keep `n` files. -/
def Logger.start (filePath : Bytes) (size : Int64) (n : ℤ) : Logger :=
  ((newFileLogger (fun _ => none) filePath).setMaxFileSize size).setMaxLogFiles n

theorem holds_start (filePath : Bytes) (size : Int64) (n : ℕ) :
    Holds filePath (n + 1) [] (Logger.start filePath size (n + 1 : ℕ)) := by
  have hfs : (Logger.start filePath size (n + 1 : ℕ)).fs =
      FileSystem.openFile (fun _ => none) filePath := by
    rw [Logger.start, Logger.setMaxLogFiles, if_pos (by omega), Logger.setMaxFileSize]
    split <;> rfl
  refine ⟨?_, ?_, [], [], [], rfl, Nat.zero_le _, ?_⟩
  · rw [Logger.start, Logger.setMaxLogFiles, if_pos (by omega), Logger.setMaxFileSize]
    split <;> rfl
  · rw [Logger.start, Logger.setMaxLogFiles, if_pos (by omega)]
    rfl
  · rw [hfs, FileSystem.openFile]
    refine ⟨update_self _ _ _, fun i => ?_, fun path hpath _ => ?_⟩
    · rw [update_of_ne rotated_ne_filePath]
      rfl
    · exact update_of_ne hpath _ _

/-- The contents of the rotated files, from `.n` to `.1`, and of the current one. -/
def concatenated (filePath : Bytes) (n : ℕ) (fs : FileSystem) : Bytes :=
  ((List.range n).map fun i => (fs (rotated filePath (i + 1))).getD []).reverse.flatten ++
    (fs filePath).getD []

theorem flatten_getD_range (files : List Bytes) {n : ℕ} (h : files.length ≤ n) :
    ((List.range n).map fun i => files[i]?.getD []).reverse.flatten = files.reverse.flatten := by
  have hpad : (List.range n).map (fun i => files[i]?.getD []) =
      files ++ List.replicate (n - files.length) [] := by
    apply List.ext_getElem?
    intro i
    rw [List.getElem?_map, List.getElem?_append, List.getElem?_replicate]
    by_cases hi : i < n
    · rw [List.getElem?_range hi]
      split
      · next hlt => simp [List.getElem?_eq_getElem hlt]
      · next hlt =>
        rw [if_pos (by omega), Option.map_some, List.getElem?_eq_none (by omega)]
        rfl
    · rw [List.getElem?_eq_none (by rw [List.length_range]; omega), if_neg (by omega),
        if_neg (by omega)]
      rfl
  rw [hpad, List.reverse_append, List.flatten_append, List.reverse_replicate,
    List.flatten_replicate_nil, List.nil_append]

theorem Archive.concatenated (h : Archive filePath fs chunks current)
    (hlength : chunks.length ≤ n) :
    concatenated filePath n fs = (chunks.reverse.flatten ++ current).flatten := by
  have hfiles : ((List.range n).map fun i => (fs (FileLogger.rotated filePath (i + 1))).getD []) =
      (List.range n).map fun i => (chunks.map List.flatten)[i]?.getD [] := by
    refine List.map_congr_left fun i _ => ?_
    rw [h.rotated, List.getElem?_map]
  rw [FileLogger.concatenated, hfiles, h.file,
    flatten_getD_range _ (by rwa [List.length_map]), List.flatten_append, ← List.map_reverse,
    ← List.flatten_flatten]
  rfl

/-- **The files hold the last lines.**  Whatever is logged from an empty directory on, at
most `n` rotated files exist; together, from `.n` to `.1` and the current file, they hold the
lines from some one on; and each file holds whole lines, in order. -/
theorem log_archive (filePath : Bytes) (size : Int64) {n : ℕ} (hn : 1 ≤ n)
    (entries : List Logger.Entry) :
    let fs := (Machine.run Logger.log (Logger.start filePath size n) entries).fs
    (∀ path, fs path ≠ none →
      path = filePath ∨ ∃ i, 1 ≤ i ∧ i ≤ n ∧ path = rotated filePath i) ∧
    ∃ (k : ℕ) (chunks : List (List Bytes)) (current : List Bytes),
      (entries.map Logger.Entry.line).drop k = chunks.flatten ++ current ∧
      (∀ i, fs (rotated filePath (i + 1)) = chunks.reverse[i]?.map List.flatten) ∧
      fs filePath = some current.flatten ∧
      concatenated filePath n fs = ((entries.map Logger.Entry.line).drop k).flatten := by
  obtain ⟨n, rfl⟩ := Nat.exists_eq_add_of_le' hn
  obtain ⟨-, -, dropped, chunks, current, hlines, hlength, harchive⟩ :=
    (holds_start filePath size n).run entries
  rw [List.nil_append] at hlines
  refine ⟨fun path hpath => ?_, dropped.length, chunks.reverse, current, ?_, ?_, harchive.file, ?_⟩
  · by_contra hnone
    rw [not_or, not_exists] at hnone
    refine hpath (harchive.other path hnone.1 fun i hi => ?_)
    -- only the numbers of the chunks are taken
    have hexists := harchive.rotated i
    by_cases hin : i < n + 1
    · exact hnone.2 (i + 1) ⟨by omega, by omega, hi⟩
    · rw [List.getElem?_eq_none (by omega)] at hexists
      rw [hi] at hpath
      exact hpath hexists
  · rw [hlines, List.append_assoc, List.drop_left]
  · rw [List.reverse_reverse]
    exact harchive.rotated
  · rw [harchive.concatenated hlength, hlines, List.append_assoc, List.drop_left]

/-- Four messages in files of at least one byte, of which two are kept. -/
def sampleEntries : List Logger.Entry :=
  ["a", "b", "c", "d"].map fun message => ⟨asciiBytes "2026-01-02T15:04:05Z", asciiBytes message⟩

theorem log_archive_sample : 1 ≤ 2 ∧
    ∃ k, concatenated (asciiBytes "App.log") 2
        (Machine.run Logger.log (Logger.start (asciiBytes "App.log") 1 (2 : ℕ)) sampleEntries).fs =
      ((sampleEntries.map Logger.Entry.line).drop k).flatten := by
  obtain ⟨-, k, chunks, current, -, -, -, hall⟩ :=
    log_archive (asciiBytes "App.log") 1 (n := 2) (by decide) sampleEntries
  exact ⟨by decide, k, hall⟩

end MetaNode.FileLogger
