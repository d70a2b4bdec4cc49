/-
The outputs of the logger and its log file (`pkg/logger/logger.go`, with the files of
`pkg/loggerfile/logger_file.go`).

While a daily log file is enabled, its handle is one of the outputs.  Enabling, closing and the
change of the date replace it there; a write through the file logger that passes the size limit
closes the handle and opens another one, of which the outputs are not told.  What is logged with
`logger.Info` goes to the outputs, and changes nothing here.

Handles and file loggers are numbered as they are made.  Whether a file could be opened, and how
large it was, is given with the event.
-/
import Mathlib.Data.List.Nodup
import Mathlib.Logic.Function.Basic
import MetaNode.Bytes
import MetaNode.Machine

namespace MetaNode.LoggerOutputs

open Function

/-- A `*os.File` that is not nil. -/
inductive File where
  | stdout
  /-- One of the callers' own. -/
  | own (n : ℕ)
  /-- The handle of a log file. -/
  | log (n : ℕ)
  deriving DecidableEq

/-- `loggerfile.FileLogger` -/
structure FileLogger where
  file : Option File := none
  bytesWritten : ℕ := 0

/-- `DefaultMaxLogFileSize` -/
def maxFileSize : ℕ := 200 * 1024 * 1024

/-- The variables of the package, with all file loggers that it made. -/
structure State where
  outputs : List File
  closed : List File := []
  opened : ℕ := 0
  loggers : ℕ → FileLogger := fun _ => {}
  made : ℕ := 0
  /-- `fileLoggerInstance` -/
  active : Option ℕ := none
  currentDate : Bytes := []
  consoleOutputEnabled : Bool

inductive Event where
  /-- `EnableDailyFileLog`, with the size of the file if it can be opened. -/
  | enableDailyFileLog (size : Option ℕ) (today : Bytes)
  | closeFileLog
  | setOutputs (outputs : List (Option File))
  /-- A write through a file logger, and whether the next file can be opened. -/
  | log (logger written : ℕ) (reopens : Bool)
  /-- The minute of the ticker. -/
  | tick (nowDate : Bytes) (size : Option ℕ)

/-! ### The code -/

/-- The loop of `dedupeOutputs`. -/
def dedupeOutputs : List File → List (Option File) → List File
  | _, [] => []
  | seen, none :: outputs => dedupeOutputs seen outputs
  | seen, some out :: outputs =>
    if seen.contains out then dedupeOutputs seen outputs
    else out :: dedupeOutputs (out :: seen) outputs

def enforceConsolePreference (enabled : Bool) (outputs : List File) : List File :=
  if enabled then if outputs.contains .stdout then outputs else outputs ++ [.stdout]
  else outputs.filter (· ≠ .stdout)

namespace State

variable (s : State)

def setOutputsUnsafe (outputs : List (Option File)) : State :=
  { s with outputs := enforceConsolePreference s.consoleOutputEnabled (dedupeOutputs [] outputs) }

/-- `File` of a file logger. -/
def file (i : ℕ) : Option File := (s.loggers i).file

/-- `attachFileLoggerOutputLocked` -/
def attach : State :=
  match s.active.bind s.file with
  | none => s
  | some f => s.setOutputsUnsafe ((s.outputs ++ [f]).map some)

/-- `removeOutputLocked` -/
def removeOutput : Option File → State
  | none => s
  | some target => s.setOutputsUnsafe ((s.outputs.filter (· ≠ target)).map some)

/-- `Close` of a file. -/
def close (f : Option File) : State := { s with closed := f.toList ++ s.closed }

/-- `NewFileLogger`, whose logger is the active one from then on. -/
def newFileLogger (size : ℕ) (date : Bytes) : State :=
  { s with
    opened := s.opened + 1
    loggers := update s.loggers s.made ⟨some (.log s.opened), size⟩
    made := s.made + 1
    active := some s.made
    currentDate := date }

/-- The active logger is closed, and its file removed from the outputs. -/
def disable : State :=
  match s.active with
  | none => s
  | some i => ({ s with active := none }.close (s.file i)).removeOutput (s.file i)

def enableDailyFileLog (size : Option ℕ) (today : Bytes) : State :=
  match size with
  | none => s.disable
  | some size => (s.disable.newFileLogger size today).attach

def closeFileLog : State := if s.active = none then s else { s.disable with currentDate := [] }

/-- `rotateLocked` of a file logger. -/
def rotateLocked (i : ℕ) (reopens : Bool) : State :=
  { s.close (s.file i) with
    opened := s.opened + 1
    loggers := update s.loggers i ⟨if reopens then some (.log s.opened) else none, 0⟩ }

/-- A write through a file logger, with `checkAndRotate`. -/
def log (i written : ℕ) (reopens : Bool) : State :=
  let bytesWritten := (s.loggers i).bytesWritten + written
  if bytesWritten < maxFileSize then
    { s with loggers := update s.loggers i ⟨s.file i, bytesWritten⟩ }
  else s.rotateLocked i reopens

/-- The ticker, with `rotateFileLoggerLocked`. -/
def tick (nowDate : Bytes) (size : Option ℕ) : State :=
  match s.active with
  | none => s
  | some i =>
    if nowDate = s.currentDate then s
    else
      match size with
      | none => s
      | some size =>
        ((s.newFileLogger size nowDate).attach.removeOutput (s.file i)).close (s.file i)

end State

def step (s : State) : Event → State
  | .enableDailyFileLog size today => s.enableDailyFileLog size today
  | .closeFileLog => s.closeFileLog
  | .setOutputs outputs => (s.setOutputsUnsafe outputs).attach
  | .log i written reopens => s.log i written reopens
  | .tick nowDate size => s.tick nowDate size

def start (console : Bool) : State where
  outputs := if console then [.stdout] else []
  consoleOutputEnabled := console

/-! ### The invariant -/

section

variable {s : State} {f : File} {seen : List File} {outputs : List (Option File)}

theorem mem_dedupeOutputs : f ∈ dedupeOutputs seen outputs ↔ some f ∈ outputs ∧ f ∉ seen := by
  fun_induction dedupeOutputs with
  | case1 => simp
  | case2 seen outputs ih => simp [ih]
  | case3 seen out outputs hseen ih =>
    have hseen : out ∈ seen := by simpa using hseen
    by_cases hf : f = out
    · subst hf
      simp [ih, hseen]
    · simp [ih, hf]
  | case4 seen out outputs hseen ih =>
    have hseen : out ∉ seen := by simpa using hseen
    by_cases hf : f = out
    · simp [hf, hseen]
    · simp [ih, hf]

theorem nodup_dedupeOutputs : (dedupeOutputs seen outputs).Nodup := by
  fun_induction dedupeOutputs with
  | case1 => exact List.nodup_nil
  | case2 seen outputs ih | case3 seen out outputs hseen ih => exact ih
  | case4 seen out outputs hseen ih =>
    exact List.nodup_cons.mpr ⟨fun h => (mem_dedupeOutputs.mp h).2 (List.mem_cons_self ..), ih⟩

theorem mem_setOutputsUnsafe (hf : f ≠ .stdout) :
    f ∈ (s.setOutputsUnsafe outputs).outputs ↔ some f ∈ outputs := by
  have hdedupe : f ∈ dedupeOutputs [] outputs ↔ some f ∈ outputs := by simp [mem_dedupeOutputs]
  rw [← hdedupe, State.setOutputsUnsafe, enforceConsolePreference]
  split
  · split <;> simp [hf]
  · simp [hf]

theorem nodup_setOutputsUnsafe : (s.setOutputsUnsafe outputs).outputs.Nodup := by
  have hnodup : (dedupeOutputs [] outputs).Nodup := nodup_dedupeOutputs
  rw [State.setOutputsUnsafe, enforceConsolePreference]
  split
  · split
    · exact hnodup
    · next hout =>
      refine List.nodup_append.mpr ⟨hnodup, List.pairwise_singleton _ _, ?_⟩
      rintro f hf g hg rfl
      rw [List.mem_singleton.mp hg] at hf
      exact hout (List.contains_iff_mem.mpr hf)
  · exact hnodup.filter _

/-- A handle that was opened. -/
def Known (s : State) (f : File) : Prop := ∃ n < s.opened, f = .log n

/-- Only files that were opened are closed or held by a logger. -/
structure Files (s : State) : Prop where
  closed : ∀ f ∈ s.closed, Known s f
  file : ∀ i f, s.file i = some f → Known s f

/-- Every output is there once, and open. -/
structure Open (s : State) : Prop extends Files s where
  nodup : s.outputs.Nodup
  not_closed : ∀ f ∈ s.outputs, f ∉ s.closed

/-- The log file is one of the outputs while it is enabled. -/
def Attached (s : State) : Prop := ∀ i, s.active = some i → ∃ f, s.file i = some f ∧ f ∈ s.outputs

theorem Known.ne_stdout (h : Known s f) : f ≠ .stdout := by
  obtain ⟨n, -, rfl⟩ := h
  exact File.noConfusion

theorem not_known_new : ¬ Known s (.log s.opened) := by
  rintro ⟨n, hn, heq⟩
  cases heq
  exact Nat.lt_irrefl _ hn

theorem Known.succ (h : Known s f) {s' : State} (hopened : s'.opened = s.opened + 1) :
    Known s' f := by
  obtain ⟨n, hn, rfl⟩ := h
  exact ⟨n, by omega, rfl⟩

theorem Files.setOutputsUnsafe (h : Files s) (hopen : ∀ f, some f ∈ outputs → f ∉ s.closed) :
    Open (s.setOutputsUnsafe outputs) := by
  refine ⟨⟨h.closed, h.file⟩, nodup_setOutputsUnsafe, fun f hf hclosed => ?_⟩
  exact hopen f ((mem_setOutputsUnsafe (h.closed f hclosed).ne_stdout).mp hf) hclosed

theorem Open.attach (h : Open s)
    (hopen : ∀ i, s.active = some i → ∃ f, s.file i = some f ∧ f ∉ s.closed) :
    Open s.attach ∧ Attached s.attach := by
  rw [State.attach]
  cases hactive : s.active with
  | none => exact ⟨h, fun i hi => absurd (hactive.symm.trans hi) (by simp)⟩
  | some i =>
    obtain ⟨f, hf, hclosed⟩ := hopen i hactive
    rw [Option.bind_some, hf]
    refine ⟨h.setOutputsUnsafe fun g hg => ?_, fun j hj => ?_⟩
    · simp only [List.mem_map, List.mem_append, List.mem_singleton, Option.some.injEq,
        exists_eq_right] at hg
      rcases hg with hg | rfl
      · exact h.not_closed g hg
      · exact hclosed
    · obtain rfl : i = j := Option.some.inj (hactive.symm.trans hj)
      exact ⟨f, hf, (mem_setOutputsUnsafe (h.file i f hf).ne_stdout).mpr (by simp)⟩

theorem Open.remove (h : Open s) {f : Option File} (hf : ∀ g, f = some g → Known s g) :
    Open ((s.close f).removeOutput f) := by
  cases f with
  | none => exact h
  | some f =>
    have hfiles : Files (s.close (some f)) :=
      ⟨List.forall_mem_cons.mpr ⟨hf f rfl, h.closed⟩, h.file⟩
    refine hfiles.setOutputsUnsafe fun g hg => ?_
    simp only [List.mem_map, List.mem_filter, Option.some.injEq, exists_eq_right,
      decide_eq_true_eq] at hg
    exact fun hmem => (List.mem_cons.mp hmem).elim hg.2 (h.not_closed g hg.1)

theorem Attached.remove (h : Attached s) (hs : Open s) {f : Option File}
    (hf : ∀ i, s.active = some i → s.file i ≠ f) : Attached ((s.close f).removeOutput f) := by
  cases f with
  | none => exact h
  | some g =>
    intro i hi
    obtain ⟨f, hfile, hmem⟩ := h i hi
    refine ⟨f, hfile, (mem_setOutputsUnsafe (hs.file i f hfile).ne_stdout).mpr ?_⟩
    have hne : f ≠ g := fun hfg => hf i hi (hfile.trans (congrArg some hfg))
    exact List.mem_map_of_mem (List.mem_filter.mpr ⟨hmem, decide_eq_true hne⟩)

theorem Files.update (h : Files s) {s' : State} (hopened : s'.opened = s.opened + 1)
    (hclosed : ∀ f ∈ s'.closed, Known s f) {i : ℕ} {fl : FileLogger}
    (hloggers : s'.loggers = update s.loggers i fl)
    (hfl : ∀ f, fl.file = some f → f = .log s.opened) : Files s' := by
  refine ⟨fun f hf => (hclosed f hf).succ hopened, fun j f hf => ?_⟩
  rw [State.file, hloggers, update_apply] at hf
  split at hf
  · exact ⟨s.opened, by omega, hfl f hf⟩
  · exact (h.file j f hf).succ hopened

theorem file_newFileLogger (size : ℕ) (date : Bytes) :
    (s.newFileLogger size date).file s.made = some (.log s.opened) := by
  simp [State.file, State.newFileLogger]

theorem Open.newFileLogger (h : Open s) (size : ℕ) (date : Bytes) :
    Open (s.newFileLogger size date).attach ∧ Attached (s.newFileLogger size date).attach := by
  have hfiles : Files (s.newFileLogger size date) :=
    h.toFiles.update rfl h.closed rfl fun f hf => (Option.some.inj hf).symm
  refine Open.attach ⟨hfiles, h.nodup, h.not_closed⟩ fun i hi => ?_
  cases hi
  exact ⟨_, file_newFileLogger size date, fun hclosed => not_known_new (h.closed _ hclosed)⟩

theorem attach_newFileLogger (size : ℕ) (date : Bytes) :
    (s.newFileLogger size date).attach =
      (s.newFileLogger size date).setOutputsUnsafe
        ((s.outputs ++ [File.log s.opened]).map some) := by
  have hfile : (s.newFileLogger size date).active.bind (s.newFileLogger size date).file
      = some (.log s.opened) := file_newFileLogger size date
  rw [State.attach, hfile]
  rfl

theorem removeOutput_close (f : Option File) :
    (s.removeOutput f).close f = (s.close f).removeOutput f := by
  cases f <;> rfl

theorem Open.rotateLocked (h : Open s) (hattached : Attached s) {i : ℕ}
    (hout : ∀ f, s.file i = some f → f ∉ s.outputs) (reopens : Bool) :
    Open (s.rotateLocked i reopens) ∧ Attached (s.rotateLocked i reopens) := by
  have hclosed : ∀ f ∈ (s.rotateLocked i reopens).closed, s.file i = some f ∨ f ∈ s.closed := by
    intro f hf
    exact (List.mem_append.mp hf).imp_left Option.mem_toList.mp
  have hfiles : Files (s.rotateLocked i reopens) := by
    refine h.toFiles.update rfl (fun f hf => ?_) rfl fun f hf => ?_
    · exact (hclosed f hf).elim (h.file i f) (h.closed f)
    · cases reopens with
      | false => simp at hf
      | true => exact (Option.some.inj hf).symm
  refine ⟨⟨hfiles, h.nodup, fun f hf hmem => ?_⟩, fun j hj => ?_⟩
  · exact (hclosed f hmem).elim (fun hfile => hout f hfile hf) (h.not_closed f hf)
  · obtain ⟨f, hf, hmem⟩ := hattached j hj
    have hji : j ≠ i := by
      rintro rfl
      exact hout f hf hmem
    refine ⟨f, ?_, hmem⟩
    simpa [State.file, State.rotateLocked, hji] using hf

theorem Open.disable (h : Open s) : Open s.disable ∧ s.disable.active = none := by
  rw [State.disable]
  cases hactive : s.active with
  | none => exact ⟨h, hactive⟩
  | some i =>
    have hs : Open { s with active := none } := ⟨⟨h.closed, h.file⟩, h.nodup, h.not_closed⟩
    refine ⟨hs.remove (h.file i), ?_⟩
    dsimp only
    cases s.file i <;> rfl

end

/-- What must not happen: a closed file is given to `SetOutputs`, or a logger whose file is an
output passes the limit. -/
def Harmless (s : State) : Event → Prop
  | .setOutputs outputs => ∀ f, some f ∈ outputs → f ∉ s.closed
  | .log i written _ => maxFileSize ≤ (s.loggers i).bytesWritten + written →
      ∀ f, s.file i = some f → f ∉ s.outputs
  | _ => True

theorem step_outputs {s : State} (h : Open s ∧ Attached s) {e : Event} (he : Harmless s e) :
    Open (step s e) ∧ Attached (step s e) := by
  obtain ⟨h, hattached⟩ := h
  obtain ⟨hdisabled, hnone⟩ := h.disable
  cases e with
  | enableDailyFileLog size today =>
    cases size with
    | none => exact ⟨hdisabled, fun i hi => absurd (hnone.symm.trans hi) (by simp)⟩
    | some size => exact hdisabled.newFileLogger size today
  | closeFileLog =>
    rw [step, State.closeFileLog]
    split
    · exact ⟨h, hattached⟩
    · exact ⟨⟨⟨hdisabled.closed, hdisabled.file⟩, hdisabled.nodup, hdisabled.not_closed⟩,
        fun i hi => absurd (hnone.symm.trans hi) (by simp)⟩
  | setOutputs =>
    refine (h.setOutputsUnsafe he).attach fun i hi => ?_
    obtain ⟨f, hf, hmem⟩ := hattached i hi
    exact ⟨f, hf, h.not_closed f hmem⟩
  | log i written reopens =>
    rw [step, State.log]
    split
    · have hfile : ∀ j n, (update s.loggers i ⟨s.file i, n⟩ j).file = s.file j := by
        intro j n
        by_cases hj : j = i
        · rw [hj, update_self]
        · rw [update_of_ne hj, State.file]
      refine ⟨⟨⟨h.closed, fun j f hf => h.file j f ((hfile j _).symm.trans hf)⟩, h.nodup,
        h.not_closed⟩, fun j hj => ?_⟩
      obtain ⟨f, hf, hmem⟩ := hattached j hj
      exact ⟨f, (hfile j _).trans hf, hmem⟩
    · next hlimit => exact h.rotateLocked hattached (he (Nat.le_of_not_lt hlimit)) reopens
  | tick nowDate size =>
    rw [step, State.tick]
    cases s.active with
    | none => exact ⟨h, hattached⟩
    | some i =>
      dsimp only
      split
      · exact ⟨h, hattached⟩
      · cases size with
        | none => exact ⟨h, hattached⟩
        | some size =>
          obtain ⟨hopen, hnew⟩ := h.newFileLogger size nowDate
          dsimp only
          rw [removeOutput_close]
          rw [attach_newFileLogger] at hopen hnew ⊢
          refine ⟨hopen.remove fun g hg => (h.file i g hg).succ rfl,
            hnew.remove hopen fun j hj hg => ?_⟩
          -- the new file was not there before
          cases hj
          exact not_known_new (h.file i _ (hg.symm.trans (file_newFileLogger size nowDate)))

def HarmlessRun : State → List Event → Prop
  | _, [] => True
  | s, e :: events => Harmless s e ∧ HarmlessRun (step s e) events

/-- **The outputs of the logger.**  As long as `SetOutputs` is not given a closed file and no logger
whose file is an output passes the limit, no output is closed, and while a log file is enabled it is
there exactly once. -/
theorem run_outputs (console : Bool) (events : List Event)
    (h : HarmlessRun (start console) events) :
    (∀ f ∈ (Machine.run step (start console) events).outputs,
        f ∉ (Machine.run step (start console) events).closed) ∧
      ∀ i, (Machine.run step (start console) events).active = some i →
        ∃ f, (Machine.run step (start console) events).file i = some f ∧
          (Machine.run step (start console) events).outputs.count f = 1 := by
  have hrun : ∀ s, Open s ∧ Attached s → HarmlessRun s events →
      Open (Machine.run step s events) ∧ Attached (Machine.run step s events) := by
    clear h
    induction events with
    | nil => exact fun s hs _ => hs
    | cons e events ih => exact fun s hs h => ih _ (step_outputs hs h.1) h.2
  have hstart : Open (start console) ∧ Attached (start console) := by
    refine ⟨⟨⟨by simp [start], by simp [start, State.file]⟩, ?_, by simp [start]⟩,
      by simp [Attached, start]⟩
    cases console <;> decide
  obtain ⟨hopen, hattached⟩ := hrun _ hstart h
  refine ⟨hopen.not_closed, fun i hi => ?_⟩
  obtain ⟨f, hf, hmem⟩ := hattached i hi
  exact ⟨f, hf, List.count_eq_one_of_mem hopen.nodup hmem⟩

/-- A log file, another output, a line in the file, and the next day. -/
theorem run_outputs_days :
    let s := Machine.run step (start true) [.enableDailyFileLog (some 0) [1],
      .setOutputs [some (.own 0), none], .log 0 80 true, .tick [2] (some 0)]
    (∀ f ∈ s.outputs, f ∉ s.closed) ∧
      ∀ i, s.active = some i → ∃ f, s.file i = some f ∧ s.outputs.count f = 1 := by
  refine run_outputs true _ ⟨trivial, ?_, ?_, trivial, trivial⟩
  · exact fun f _ => List.not_mem_nil
  · exact fun hlimit => absurd hlimit (by decide)

/-- A file of the size limit is enabled, and one line is written: the closed file stays. -/
theorem log_leaves_closed :
    let s := Machine.run step (start true)
      [.enableDailyFileLog (some maxFileSize) [], .log 0 1 true]
    s.outputs = [.stdout, .log 0] ∧ s.closed = [.log 0] ∧ s.active.bind s.file = some (.log 1) := by
  decide

end MetaNode.LoggerOutputs
