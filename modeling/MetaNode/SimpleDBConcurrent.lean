/-
Concurrent calls of `Get` and `Put` on one file database.

All calls share the cursor of the data file.  `Put` holds the lock from its first step
to its last, but `Get` only while it looks up the offset: it moves the cursor and reads
without it.  A call is a sequence of steps, each an access to the index or a seek, a read
or a write of the data file (`SharedDB.step`), and a schedule says whose turn it is; a
call that has to wait for the lock, or has returned, lets its turn pass.
-/
import Mathlib.Data.List.Infix
import Mathlib.Tactic.FinCases
import MetaNode.Machine
import MetaNode.SimpleDBRun

namespace MetaNode

open Function

/-- Bytes are written at a position; a hole before it reads as zeros. -/
def writeAt (file : Bytes) (pos : ℕ) (b : Bytes) : Bytes :=
  if b = [] then file
  else file.take pos ++ List.replicate (pos - file.length) 0 ++ b ++ file.drop (pos + b.length)

theorem writeAt_end (file b : Bytes) : writeAt file file.length b = file ++ b := by
  unfold writeAt
  split
  · rename_i hb
    rw [hb, List.append_nil]
  · simp

theorem RecordAt.fileRead_eq {file value size : Bytes} {offset : Int64}
    (h : RecordAt file offset value)
    (hsize : binaryRead (file.drop offset.toNatClampNeg) 4 = .ok size) :
    fileRead (file.drop (offset.toNatClampNeg + 4)) (LittleEndian.toNat size)
      = some (readBack value) := by
  have hvalue := h.readValue
  rw [MetaNode.readValue] at hvalue
  split at hvalue
  · cases hvalue
  · dsimp only at hvalue
    rw [hsize] at hvalue
    dsimp only at hvalue
    split at hvalue
    · cases hvalue
    · rename_i v hv
      cases hvalue
      rw [← List.drop_drop]
      exact hv

inductive SharedOp where
  | get (key : Bytes)
  | put (key value : Bytes) (walk : IndexWalk)

/-- Where a call stands, with what it remembers. -/
inductive CallPhase where
  | start
  /-- `Get` has looked up the offset. -/
  | found (offset : Int64)
  /-- `Get` has moved the cursor. -/
  | sought
  /-- `Get` has read the length. -/
  | sized (valueSize : ℕ)
  /-- `Put` has the lock. -/
  | locked
  /-- `Put` has taken the key out of the index. -/
  | unindexed
  /-- `Put` has moved the cursor to the end. -/
  | atEnd (offset : Int64)
  | sizeWritten (offset : Int64)
  | valueWritten (offset : Int64)
  | keyWritten (offset : Int64)
  /-- `Put` has put the offset into the index. -/
  | indexed
  /-- `Put` has saved the index. -/
  | saved
  | returned (result : Except SimpleDBError Bytes)
  deriving DecidableEq

namespace CallPhase

def begun : CallPhase → Bool
  | start => false
  | _ => true

/-- Between the seek of `Get` and its last read. -/
def reading : CallPhase → Bool
  | sought | sized _ => true
  | _ => false

/-- Between the seek of `Put` and its last write. -/
def writing : CallPhase → Bool
  | atEnd _ | sizeWritten _ | valueWritten _ => true
  | _ => false

/-- `Put` has the lock. -/
def locking : CallPhase → Bool
  | locked | unindexed | atEnd _ | sizeWritten _ | valueWritten _ | keyWritten _ | indexed
  | saved => true
  | _ => false

theorem locking_of_writing {p : CallPhase} (h : p.writing) : p.locking := by
  cases p <;> first | rfl | cases h

end CallPhase

/-- A database with its shared cursor, its lock, and the calls on it. -/
structure SharedDB (Call : Type) where
  db : SimpleDB
  cursor : ℕ
  /-- The call that holds the lock for writing. -/
  writer : Option Call
  phase : Call → CallPhase

namespace SharedDB

variable {Call : Type} [DecidableEq Call]

def init (db : SimpleDB) : SharedDB Call := ⟨db, 0, none, fun _ => .start⟩

def setPhase (s : SharedDB Call) (c : Call) (p : CallPhase) : SharedDB Call :=
  { s with phase := update s.phase c p }

def write (s : SharedDB Call) (b : Bytes) : SharedDB Call :=
  { s with
    db := { s.db with file := writeAt s.db.file s.cursor b }
    cursor := s.cursor + b.length }

/-- The next step of `Get`. -/
def stepGet (s : SharedDB Call) (c : Call) (key : Bytes) : SharedDB Call :=
  let rest := s.db.file.drop s.cursor
  match s.phase c with
  | .start =>
    if key.length ≠ keySize then s.setPhase c (.returned (.error .keySize))
    else if s.writer.isSome then s
    else
      match s.db.indexMap.lookup key with
      | none => s.setPhase c (.returned (.error .notFound))
      | some offset => s.setPhase c (.found offset)
  | .found offset =>
    if offset < 0 then s.setPhase c (.returned (.error .seek))
    else { s with cursor := offset.toNatClampNeg }.setPhase c .sought
  | .sought =>
    match binaryRead rest 4 with
    | .error e =>
      { s with cursor := s.cursor + rest.length }.setPhase c (.returned (.error (.readSize e)))
    | .ok valueSize =>
      { s with cursor := s.cursor + 4 }.setPhase c (.sized (LittleEndian.toNat valueSize))
  | .sized n =>
    match fileRead rest n with
    | none => s.setPhase c (.returned (.error .readValue))
    | some value =>
      { s with cursor := s.cursor + (readChunk rest n).length }.setPhase c (.returned (.ok value))
  | _ => s

/-- The next step of `Put`. -/
def stepPut (s : SharedDB Call) (c : Call) (key value : Bytes) (walk : IndexWalk) :
    SharedDB Call :=
  match s.phase c with
  | .start =>
    if key.length ≠ keySize then s.setPhase c (.returned (.error .keySize))
    else if s.writer.isSome then s
    else { s with writer := some c }.setPhase c .locked
  | .locked =>
    { s with db := { s.db with indexMap := s.db.indexMap.erase key } }.setPhase c .unindexed
  | .unindexed =>
    { s with cursor := s.db.file.length }.setPhase c (.atEnd (Int64.ofNat s.db.file.length))
  | .atEnd offset => (s.write (LittleEndian.fixed 4 value.length)).setPhase c (.sizeWritten offset)
  | .sizeWritten offset => (s.write value).setPhase c (.valueWritten offset)
  | .valueWritten offset => (s.write key).setPhase c (.keyWritten offset)
  | .keyWritten offset =>
    { s with db := { s.db with indexMap := s.db.indexMap.insert key offset } }.setPhase c .indexed
  | .indexed => { s with db := s.db.saveIndex walk }.setPhase c .saved
  | .saved => { s with writer := none }.setPhase c (.returned (.ok []))
  | _ => s

variable (op : Call → SharedOp)

def step (s : SharedDB Call) (c : Call) : SharedDB Call :=
  match op c with
  | .get key => s.stepGet c key
  | .put key value walk => s.stepPut c key value walk

/-- The state after a schedule, from two empty files on. -/
def run (schedule : List Call) : SharedDB Call := Machine.run (step op) (init ⟨[], [], ∅⟩) schedule

/-! ### Single steps -/

section Steps

variable {op} {s : SharedDB Call} {c : Call}

@[simp] theorem setPhase_phase_self (s : SharedDB Call) (c : Call) (p : CallPhase) :
    (s.setPhase c p).phase c = p := update_self ..

theorem setPhase_phase_of_ne {c' : Call} (h : c' ≠ c) (s : SharedDB Call) (p : CallPhase) :
    (s.setPhase c p).phase c' = s.phase c' := update_of_ne h ..

theorem step_get {key : Bytes} (hop : op c = .get key) (s : SharedDB Call) :
    step op s c = s.stepGet c key := by
  rw [step, hop]

theorem step_put {key value : Bytes} {walk : IndexWalk} (hop : op c = .put key value walk)
    (s : SharedDB Call) : step op s c = s.stepPut c key value walk := by
  rw [step, hop]

omit [DecidableEq Call] in
theorem write_db (h : s.cursor = s.db.file.length) (b : Bytes) :
    (s.write b).db = { s.db with file := s.db.file ++ b } := by
  rw [write, h, writeAt_end]

omit [DecidableEq Call] in
theorem write_cursor (h : s.cursor = s.db.file.length) (b : Bytes) :
    (s.write b).cursor = (s.write b).db.file.length := by
  rw [write_db h, List.length_append, ← h]
  rfl

end Steps

/-! ### Calls that do not disturb each other -/

/-- While a `Get` is between its seek and its last read, no other call is between its seek
and its last access to the file. -/
def Exclusive (s : SharedDB Call) : Prop :=
  ∀ c c', (s.phase c).reading → (s.phase c').reading ∨ (s.phase c').writing → c' = c

/-- A call that has begun puts the value for the key. -/
def WasPut (s : SharedDB Call) (key value : Bytes) : Prop :=
  ∃ c walk, op c = .put key value walk ∧ (s.phase c).begun

/-- What a call may rely on at a phase: where the record of its key is, and, between its
seek and its last access to the file, where the cursor is. -/
def PhaseOk (put : Bytes → Bytes → Prop) (file : Bytes) (cursor : ℕ) : SharedOp → CallPhase → Prop
  | .get key, .found offset => ∃ value, put key value ∧ RecordAt file offset value
  | .get key, .sought => ∃ value offset, put key value ∧ RecordAt file offset value ∧
      cursor = offset.toNatClampNeg
  | .get key, .sized n => ∃ value, put key value ∧
      fileRead (file.drop cursor) n = some (readBack value)
  | .get key, .returned (.ok result) => ∃ value, put key value ∧ result = readBack value
  | .put _ _ _, .atEnd offset => offset = Int64.ofNat file.length ∧ cursor = file.length
  | .put _ value _, .sizeWritten offset => cursor = file.length ∧
      ∃ before, offset = Int64.ofNat before.length ∧
        file = before ++ LittleEndian.fixed 4 value.length
  | .put _ value _, .valueWritten offset => cursor = file.length ∧
      ∃ before, offset = Int64.ofNat before.length ∧
        file = before ++ LittleEndian.fixed 4 value.length ++ value
  | .put _ value _, .keyWritten offset => RecordAt file offset value
  | _, _ => True

section Phases

variable {put put' : Bytes → Bytes → Prop} {file : Bytes} {cursor : ℕ} {o : SharedOp}
  {p : CallPhase}

theorem PhaseOk.mono (hput : ∀ k v, put k v → put' k v) (h : PhaseOk put file cursor o p) :
    PhaseOk put' file cursor o p := by
  cases o with
  | put => cases p <;> exact h
  | get =>
    cases p with
    | found =>
      obtain ⟨value, hv, hrec⟩ := h
      exact ⟨value, hput _ _ hv, hrec⟩
    | sought =>
      obtain ⟨value, offset, hv, hrec⟩ := h
      exact ⟨value, offset, hput _ _ hv, hrec⟩
    | sized =>
      obtain ⟨value, hv, hread⟩ := h
      exact ⟨value, hput _ _ hv, hread⟩
    | returned r =>
      cases r with
      | error => trivial
      | ok =>
        obtain ⟨value, hv, hresult⟩ := h
        exact ⟨value, hput _ _ hv, hresult⟩
    | _ => trivial

theorem PhaseOk.grow (h : PhaseOk put file cursor o p) (hread : p.reading = false)
    (hwrite : p.writing = false) (more : Bytes) (cursor' : ℕ) :
    PhaseOk put (file ++ more) cursor' o p := by
  cases o with
  | put =>
    cases p with
    | atEnd | sizeWritten | valueWritten => cases hwrite
    | keyWritten => exact RecordAt.append h more
    | _ => exact h
  | get =>
    cases p with
    | found =>
      obtain ⟨value, hv, hrec⟩ := h
      exact ⟨value, hv, hrec.append more⟩
    | sought | sized => cases hread
    | returned r => cases r <;> exact h
    | _ => exact h

end Phases

/-- The calls know what they rely on, and the index leads to what was put. -/
structure Sound (s : SharedDB Call) : Prop where
  lock : ∀ c, (s.phase c).locking → s.writer = some c
  keys : ∀ c key value walk, op c = .put key value walk → (s.phase c).locking →
    key.length = keySize
  index : ∃ m, IndexHolds s.db.file s.db.indexMap m ∧ ∀ k v, m k = some v → WasPut op s k v
  phases : ∀ c, PhaseOk (WasPut op s) s.db.file s.cursor (op c) (s.phase c)

variable {op} {s s' : SharedDB Call} {c : Call} {p : CallPhase}

theorem WasPut.of_update (hphase : s'.phase = update s.phase c p) (hp : p.begun)
    {key value : Bytes} (h : WasPut op s key value) : WasPut op s' key value := by
  obtain ⟨c', walk, hop, hbegun⟩ := h
  refine ⟨c', walk, hop, ?_⟩
  rw [hphase, update_apply]
  split
  · exact hp
  · exact hbegun

namespace Sound

omit [DecidableEq Call] in
theorem init : Sound op (init ⟨[], [], ∅⟩ : SharedDB Call) where
  lock c hc := by cases hc
  keys c key value walk _ hc := by cases hc
  index := ⟨_, IndexHolds.empty, fun k v h => by cases h⟩
  phases c := by cases op c <;> trivial

section

variable (h : Sound op s)

include h

/-- **What one step of a call has to show**: the file has only become longer, and the
cursor has not moved unless no other call is at the file. -/
theorem move (hphase : s'.phase = update s.phase c p) (hp : p.begun)
    {more : Bytes} (hfile : s'.db.file = s.db.file ++ more)
    (hothers : more = [] ∧ s'.cursor = s.cursor ∨
      ∀ c', c' ≠ c → (s.phase c').reading = false ∧ (s.phase c').writing = false)
    (hlock : p.locking → s'.writer = some c ∧
      ∀ key value walk, op c = .put key value walk → key.length = keySize)
    (hwriter : ∀ c', c' ≠ c → s.writer = some c' → s'.writer = some c')
    (hindex : ∀ m, IndexHolds s.db.file s.db.indexMap m →
      (∀ k v, m k = some v → WasPut op s' k v) →
      ∃ m', IndexHolds s'.db.file s'.db.indexMap m' ∧ ∀ k v, m' k = some v → WasPut op s' k v)
    (hself : PhaseOk (WasPut op s') s'.db.file s'.cursor (op c) p) : Sound op s' where
  lock c' hc' := by
    rw [hphase, update_apply] at hc'
    split at hc'
    · rename_i heq
      rw [heq]
      exact (hlock hc').1
    · rename_i hne
      exact hwriter c' hne (h.lock c' hc')
  keys c' key value walk hop hc' := by
    rw [hphase, update_apply] at hc'
    split at hc'
    · rename_i heq
      exact (hlock hc').2 key value walk (heq ▸ hop)
    · exact h.keys c' key value walk hop hc'
  index := by
    obtain ⟨m, hm, hput⟩ := h.index
    exact hindex m hm fun k v hkv => (hput k v hkv).of_update hphase hp
  phases c' := by
    rw [hphase, update_apply]
    split
    · rename_i heq
      rw [heq]
      exact hself
    · rename_i hne
      have hmono := (h.phases c').mono fun k v hkv => WasPut.of_update hphase hp hkv
      rw [hfile]
      rcases hothers with ⟨rfl, hcursor⟩ | hidle
      · rw [hcursor, List.append_nil]
        exact hmono
      · exact hmono.grow (hidle c' hne).1 (hidle c' hne).2 more s'.cursor

omit [DecidableEq Call] in
theorem writing_eq_false (hc : (s.phase c).locking) {c' : Call} (hne : c' ≠ c) :
    (s.phase c').writing = false := by
  by_contra hwrite
  rw [Bool.not_eq_false] at hwrite
  have hlock := h.lock c hc
  rw [h.lock c' (CallPhase.locking_of_writing hwrite), Option.some.injEq] at hlock
  exact hne hlock

omit [DecidableEq Call] in
theorem idle_of_exclusive (hex : Exclusive s)
    (hc : (s.phase c).reading ∨ (s.phase c).writing) (c' : Call) (hne : c' ≠ c) :
    (s.phase c').reading = false ∧ (s.phase c').writing = false := by
  constructor
  · by_contra hread
    rw [Bool.not_eq_false] at hread
    exact hne (hex c' c hread hc).symm
  · rcases hc with hread | hwrite
    · by_contra hwrite
      rw [Bool.not_eq_false] at hwrite
      exact hne (hex c c' hread (.inr hwrite))
    · exact h.writing_eq_false (CallPhase.locking_of_writing hwrite) hne

theorem access (db : SimpleDB) (cursor : ℕ) (p : CallPhase) (hp : p.begun)
    (hlock : p.locking = false ∨ (s.phase c).locking) (hmap : db.indexMap = s.db.indexMap)
    {more : Bytes} (hfile : db.file = s.db.file ++ more) (hothers : more = [] ∧ cursor = s.cursor ∨
      ∀ c', c' ≠ c → (s.phase c').reading = false ∧ (s.phase c').writing = false)
    (hself : PhaseOk (WasPut op s) db.file cursor (op c) p) :
    Sound op ({ s with db := db, cursor := cursor }.setPhase c p) := by
  refine h.move rfl hp hfile hothers (fun hp' => ?_) (fun _ _ hw => hw) (fun m hm hput => ?_)
    (hself.mono fun k v hkv => WasPut.of_update rfl hp hkv)
  · have hc := hlock.resolve_left (Bool.not_eq_false _ ▸ hp')
    exact ⟨h.lock c hc, fun key value walk hop => h.keys c key value walk hop hc⟩
  · refine ⟨m, ?_, hput⟩
    show IndexHolds db.file db.indexMap m
    rw [hfile, hmap]
    exact hm.append more

theorem advance (p : CallPhase) (hp : p.begun) (hlock : p.locking = false ∨ (s.phase c).locking)
    (hself : PhaseOk (WasPut op s) s.db.file s.cursor (op c) p) : Sound op (s.setPhase c p) :=
  h.access s.db s.cursor p hp hlock rfl (List.append_nil _).symm (.inl ⟨rfl, rfl⟩) hself

theorem seek (cursor : ℕ) (p : CallPhase) (hp : p.begun)
    (hlock : p.locking = false ∨ (s.phase c).locking)
    (hidle : ∀ c', c' ≠ c → (s.phase c').reading = false ∧ (s.phase c').writing = false)
    (hself : PhaseOk (WasPut op s) s.db.file cursor (op c) p) :
    Sound op ({ s with cursor := cursor }.setPhase c p) :=
  h.access s.db cursor p hp hlock rfl (List.append_nil _).symm (.inr hidle) hself

theorem reindex (hc : (s.phase c).locking) (indexMap : IndexMap) (p : CallPhase) (hp : p.begun)
    (hindex : ∀ m, IndexHolds s.db.file s.db.indexMap m →
      ∃ m', IndexHolds s.db.file indexMap m' ∧
        ∀ k v, m' k = some v → m k = some v ∨ ∃ walk, op c = .put k v walk)
    (hself : PhaseOk (WasPut op s) s.db.file s.cursor (op c) p) :
    Sound op ({ s with db := { s.db with indexMap := indexMap } }.setPhase c p) := by
  refine h.move rfl hp (List.append_nil _).symm (.inl ⟨rfl, rfl⟩) (fun _ => ?_)
    (fun _ _ hw => hw) (fun m hm hput => ?_)
    (hself.mono fun k v hkv => WasPut.of_update rfl hp hkv)
  · exact ⟨h.lock c hc, fun key value walk hop => h.keys c key value walk hop hc⟩
  · obtain ⟨m', hm', hnew⟩ := hindex m hm
    refine ⟨m', hm', fun k v hkv => ?_⟩
    rcases hnew k v hkv with hold | ⟨walk, hop⟩
    · exact hput k v hold
    · refine ⟨c, walk, hop, ?_⟩
      rw [setPhase_phase_self]
      exact hp

theorem fail (c : Call) (e : SimpleDBError) : Sound op (s.setPhase c (.returned (.error e))) := by
  refine h.advance _ rfl (.inl rfl) ?_
  cases op c <;> trivial

theorem stepGet {key : Bytes} (hop : op c = .get key) (hex : Exclusive s)
    (hex' : Exclusive (s.stepGet c key)) : Sound op (s.stepGet c key) := by
  have hphase := h.phases c
  rw [hop] at hphase
  rw [SharedDB.stepGet]
  cases hc : s.phase c with
  | start =>
    dsimp only
    split
    · exact h.fail c .keySize
    split
    · exact h
    cases hlook : s.db.indexMap.lookup key with
    | none => exact h.fail c .notFound
    | some offset =>
      obtain ⟨m, hm, hput⟩ := h.index
      obtain ⟨-, value, hvalue, hrec⟩ := hm.of_lookup_some hlook
      refine h.advance (.found offset) rfl (.inl rfl) ?_
      rw [hop]
      exact ⟨value, hput key value hvalue, hrec⟩
  | found offset =>
    rw [SharedDB.stepGet, hc] at hex'
    rw [hc] at hphase
    obtain ⟨value, hput, hrec⟩ := hphase
    dsimp only at hex' ⊢
    split
    · exact h.fail c .seek
    · rename_i hpos
      rw [if_neg hpos] at hex'
      refine h.seek _ .sought rfl (.inl rfl) (fun c' hne => ?_) ?_
      · -- after the seek no other call is at the file, and their phases are the same as before
        have hat : ¬ ((s.phase c').reading ∨ (s.phase c').writing) := by
          intro hat
          refine hne (hex' c c' (by rw [setPhase_phase_self]; rfl) ?_)
          rw [setPhase_phase_of_ne hne]
          exact hat
        rw [not_or, Bool.not_eq_true, Bool.not_eq_true] at hat
        exact hat
      · rw [hop]
        exact ⟨value, offset, hput, hrec, rfl⟩
  | sought =>
    have hidle := h.idle_of_exclusive hex (.inl (by rw [hc]; rfl))
    rw [hc] at hphase
    obtain ⟨value, offset, hput, hrec, hcursor⟩ := hphase
    dsimp only
    cases hread : binaryRead (s.db.file.drop s.cursor) 4 with
    | error e =>
      refine h.seek _ (.returned (.error (.readSize e))) rfl (.inl rfl) hidle ?_
      rw [hop]
      trivial
    | ok valueSize =>
      refine h.seek _ (.sized (LittleEndian.toNat valueSize)) rfl (.inl rfl) hidle ?_
      rw [hcursor] at hread
      rw [hop, hcursor]
      exact ⟨value, hput, hrec.fileRead_eq hread⟩
  | sized =>
    have hidle := h.idle_of_exclusive hex (.inl (by rw [hc]; rfl))
    rw [hc] at hphase
    obtain ⟨value, hput, hread⟩ := hphase
    dsimp only
    rw [hread]
    refine h.seek _ (.returned (.ok (readBack value))) rfl (.inl rfl) hidle ?_
    rw [hop]
    exact ⟨value, hput, rfl⟩
  | _ => exact h

theorem append (hex : Exclusive s) (hc : (s.phase c).writing) (p : CallPhase)
    (hp : p.begun) (hend : s.cursor = s.db.file.length) (b : Bytes)
    (hself : PhaseOk (WasPut op s) (s.db.file ++ b) (s.db.file ++ b).length (op c) p) :
    Sound op ((s.write b).setPhase c p) := by
  have hcursor : (s.write b).cursor = (s.db.file ++ b).length := by
    rw [write_cursor hend, write_db hend]
  refine h.access (s.write b).db (s.write b).cursor p hp
    (.inr (CallPhase.locking_of_writing hc)) rfl (by rw [write_db hend])
    (.inr (h.idle_of_exclusive hex (.inr hc))) ?_
  rw [hcursor, write_db hend]
  exact hself

end

section Put

variable {key value : Bytes} {walk : IndexWalk} (h : Sound op s) (hop : op c = .put key value walk)

include h hop

theorem takeLock (hkey : key.length = keySize)
    (hfree : s.writer = none) : Sound op ({ s with writer := some c }.setPhase c .locked) := by
  refine h.move rfl rfl (List.append_nil _).symm (.inl ⟨rfl, rfl⟩) (fun _ => ⟨rfl, ?_⟩)
    (fun c' _ hw => ?_) (fun m hm hput => ⟨m, hm, hput⟩) ?_
  · intro key' value' walk' hop'
    rw [hop, SharedOp.put.injEq] at hop'
    rw [← hop'.1]
    exact hkey
  · rw [hfree] at hw
    cases hw
  · rw [hop]
    trivial

section

variable (hlocked : (s.phase c).locking)

include hlocked

theorem unindex :
    Sound op ({ s with db := { s.db with indexMap := s.db.indexMap.erase key } }.setPhase c
      .unindexed) := by
  refine h.reindex hlocked _ .unindexed rfl
    (fun m hm => ⟨_, hm.erase key, fun k v hkv => .inl ?_⟩) ?_
  · rw [update_apply] at hkv
    split at hkv
    · cases hkv
    · exact hkv
  · rw [hop]
    trivial

theorem seekEnd (hex' : Exclusive ({ s with cursor := s.db.file.length }.setPhase c
      (.atEnd (Int64.ofNat s.db.file.length)))) :
    Sound op ({ s with cursor := s.db.file.length }.setPhase c
      (.atEnd (Int64.ofNat s.db.file.length))) := by
  refine h.seek _ (.atEnd (Int64.ofNat s.db.file.length)) rfl (.inr hlocked)
    (fun c' hne => ⟨?_, h.writing_eq_false hlocked hne⟩) ?_
  · by_contra hread
    rw [Bool.not_eq_false] at hread
    refine hne (hex' c' c ?_ (.inr ?_)).symm
    · rw [setPhase_phase_of_ne hne]
      exact hread
    · rw [setPhase_phase_self]
      rfl
  · rw [hop]
    exact ⟨rfl, rfl⟩

theorem index_put {offset : Int64} (hrec : RecordAt s.db.file offset value) :
    Sound op ({ s with db := { s.db with indexMap := s.db.indexMap.insert key offset } }.setPhase c
      .indexed) := by
  have hkey : key.length = keySize := h.keys c key value walk hop hlocked
  refine h.reindex hlocked _ .indexed rfl
    (fun m hm => ⟨_, hm.insert hkey hrec, fun k v hkv => ?_⟩) ?_
  · rw [update_apply] at hkv
    split at hkv
    · rename_i hk
      cases hkv
      exact .inr ⟨walk, by rw [hop, hk]⟩
    · exact .inl hkv
  · rw [hop]
    trivial

end

theorem releaseLock (hlock : s.writer = some c) :
    Sound op ({ s with writer := none }.setPhase c (.returned (.ok []))) := by
  refine h.move rfl rfl (List.append_nil _).symm (.inl ⟨rfl, rfl⟩) (fun hp => ?_)
    (fun c' hne hw => ?_) (fun m hm hput => ⟨m, hm, hput⟩) ?_
  · cases hp
  · rw [hlock, Option.some.injEq] at hw
    exact absurd hw.symm hne
  · rw [hop]
    trivial

theorem stepPut (hex : Exclusive s) (hex' : Exclusive (s.stepPut c key value walk))
    (hfits : (s.stepPut c key value walk).db.file.length < 2 ^ 63) :
    Sound op (s.stepPut c key value walk) := by
  have hphase := h.phases c
  rw [hop] at hphase
  rw [SharedDB.stepPut]
  cases hc : s.phase c with
  | start =>
    dsimp only
    split
    · exact h.fail c .keySize
    · rename_i hkey
      split
      · exact h
      · rename_i hfree
        exact h.takeLock hop (not_not.mp hkey) (Option.not_isSome_iff_eq_none.mp hfree)
  | locked => exact h.unindex hop (by rw [hc]; rfl)
  | unindexed =>
    rw [SharedDB.stepPut, hc] at hex'
    exact h.seekEnd hop (by rw [hc]; rfl) hex'
  | atEnd offset =>
    rw [hc] at hphase
    obtain ⟨hoffset, hend⟩ := hphase
    refine h.append hex (by rw [hc]; rfl) (.sizeWritten offset) rfl hend _ ?_
    rw [hop]
    exact ⟨rfl, s.db.file, hoffset, rfl⟩
  | sizeWritten offset =>
    rw [hc] at hphase
    obtain ⟨hend, before, hoffset, hfile⟩ := hphase
    refine h.append hex (by rw [hc]; rfl) (.valueWritten offset) rfl hend _ ?_
    rw [hop]
    exact ⟨rfl, before, hoffset, by rw [hfile]⟩
  | valueWritten offset =>
    rw [SharedDB.stepPut, hc] at hfits
    rw [hc] at hphase
    obtain ⟨hend, before, hoffset, hfile⟩ := hphase
    refine h.append hex (by rw [hc]; rfl) (.keyWritten offset) rfl hend _ ?_
    have hrecord : s.db.file ++ key = before ++ record key value := by
      rw [hfile, record]
      simp only [List.append_assoc]
    have hlen : (before ++ record key value).length < 2 ^ 63 := by
      rw [← hrecord]
      have hdb : (s.write key).db.file = s.db.file ++ key := by rw [write_db hend]
      rw [← hdb]
      exact hfits
    rw [hop, hoffset, hrecord]
    exact recordAt_end value hlen
  | keyWritten =>
    rw [hc] at hphase
    exact h.index_put hop (by rw [hc]; rfl) hphase
  | indexed =>
    have hlocked : (s.phase c).locking := by rw [hc]; rfl
    refine h.access (s.db.saveIndex walk) s.cursor .saved rfl (.inr hlocked) rfl
      (List.append_nil _).symm (.inl ⟨rfl, rfl⟩) ?_
    rw [hop]
    trivial
  | saved => exact h.releaseLock hop (h.lock c (by rw [hc]; rfl))
  | _ => exact h

end Put

/-- **One step of any call.** -/
theorem step (h : Sound op s) (hex : Exclusive s) (hex' : Exclusive (step op s c))
    (hfits : (SharedDB.step op s c).db.file.length < 2 ^ 63) : Sound op (SharedDB.step op s c) := by
  cases hop : op c with
  | get =>
    rw [step_get hop] at hex' ⊢
    exact h.stepGet hop hex hex'
  | put =>
    rw [step_put hop] at hex' hfits ⊢
    exact h.stepPut hop hex hex' hfits

/-- **A run in which the calls do not disturb each other.** -/
theorem run {schedule : List Call}
    (hundisturbed : ∀ before ∈ schedule.inits, Exclusive (run op before) ∧
      (SharedDB.run op before).db.file.length < 2 ^ 63) : Sound op (SharedDB.run op schedule) := by
  induction schedule using List.reverseRecOn with
  | nil => exact Sound.init
  | append_singleton schedule c ih =>
    have hinits : ∀ before, before <+: schedule → before ∈ (schedule ++ [c]).inits := by
      intro before hbefore
      rw [List.mem_inits]
      exact hbefore.trans (List.prefix_append _ _)
    have hbefore := hundisturbed schedule (hinits schedule (List.prefix_refl _))
    have hafter := hundisturbed (schedule ++ [c]) (by rw [List.mem_inits])
    have hsound := ih fun before hmem =>
      hundisturbed before (hinits before ((List.mem_inits _ _).mp hmem))
    rw [SharedDB.run, Machine.run_concat] at hafter ⊢
    exact hsound.step hbefore.1 hafter.1 hafter.2

end Sound

/-- **What a `Get` returns was put for its key**, if no other call is at the file while a
`Get` is, every value is read as it is and no write fails. -/
theorem get_returns_put {schedule : List Call}
    (hundisturbed : ∀ before ∈ schedule.inits, Exclusive (run op before) ∧
      (run op before).db.file.length < 2 ^ 63)
    (hintact : ∀ c key value walk, op c = .put key value walk → Intact value)
    {key value : Bytes} (hop : op c = .get key)
    (hreturned : (run op schedule).phase c = .returned (.ok value)) :
    WasPut op (run op schedule) key value := by
  have hphase := (Sound.run hundisturbed).phases c
  rw [hop, hreturned] at hphase
  obtain ⟨value', hput, rfl⟩ := hphase
  obtain ⟨c', walk, hop', hbegun⟩ := hput
  rw [readBack_eq_self_iff.mpr (hintact c' key value' walk hop')]
  exact ⟨c', walk, hop', hbegun⟩

instance decidableExclusive [Fintype Call] (s : SharedDB Call) : Decidable (Exclusive s) :=
  inferInstanceAs (Decidable (∀ c c', _ → _ → c' = c))

def otherKey : Bytes := List.replicate keySize 2

def sampleOps : Fin 4 → SharedOp
  | 0 => .put sampleKey [7] Walk.id
  | 1 => .put otherKey [8] Walk.id
  | 2 => .get sampleKey
  | 3 => .get otherKey

/-- A `Get` that waits for the lock of a `Put`. -/
theorem get_returns_put_oneByOne :
    let schedule : List (Fin 4) := List.replicate 4 0 ++ [2] ++ List.replicate 5 0
      ++ List.replicate 4 2
    (run sampleOps schedule).phase 2 = .returned (.ok [7]) ∧
      WasPut sampleOps (run sampleOps schedule) sampleKey [7] := by
  intro schedule
  have hreturned : (run sampleOps schedule).phase 2 = .returned (.ok [7]) := by decide +kernel
  refine ⟨hreturned, get_returns_put (by decide +kernel) ?_ rfl hreturned⟩
  intro c key value walk hop
  fin_cases c <;> cases hop <;> exact .of_length_le (by decide)

/-- Between the seek of one `Get` and its reads another one moves the cursor: the first
returns what was put for the key of the second. -/
theorem get_returns_other :
    let schedule : List (Fin 4) := List.replicate 9 0 ++ List.replicate 9 1 ++ [2, 2, 3, 3, 2, 2]
    (run sampleOps schedule).phase 2 = .returned (.ok [8]) ∧ sampleOps 2 = .get sampleKey ∧
      ∀ c walk, sampleOps c ≠ .put sampleKey [8] walk := by
  refine ⟨by decide +kernel, rfl, fun c walk hop => ?_⟩
  fin_cases c <;> cases hop

end SharedDB

end MetaNode
