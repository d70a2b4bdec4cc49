/-
Messages between nodes (`message.proto`, `pkg/network/message.go`).

A message is a header and a body.  The code makes messages with `NewMessage` only,
which puts an empty header where there is none, so that a `Message` always has one.
Three fields of the header are strings: `Marshal` fails if one of them is not UTF-8.

A message that is marshalled is read back (**`Message.unmarshal_marshal`**).
-/
import MetaNode.TrieNode
import MetaNode.WireTypes

namespace MetaNode

open Wire

namespace Pb

structure Header where
  command : Bytes
  pubkey : Bytes
  toAddress : Bytes
  sign : Bytes
  version : Bytes
  id : Bytes
  deriving DecidableEq

/-- `&pb.Header{}` -/
def Header.new : Header := ⟨[], [], [], [], [], []⟩

structure Message where
  header : Option Header
  body : Bytes
  deriving DecidableEq

variable (E : Env)

namespace Header

def entries (h : Header) : List (ℕ × Content) :=
  [(1, .bytes h.command), (2, .bytes h.pubkey), (3, .bytes h.toAddress), (4, .bytes h.sign),
    (5, .bytes h.version), (6, .bytes h.id)]

def Utf8 (h : Header) : Prop :=
  validUtf8 h.command ∧ validUtf8 h.version ∧ validUtf8 h.id

instance (h : Header) : Decidable h.Utf8 := inferInstanceAs (Decidable (_ ∧ _ ∧ _))

def marshal (h : Header) : Option Bytes :=
  if h.Utf8 then some (E.wire.encode (fieldsOf h.entries)) else none

def parse (fs : List Field) : Option Header :=
  let h : Header := ⟨getBytes 1 fs, getBytes 2 fs, getBytes 3 fs, getBytes 4 fs,
    getBytes 5 fs, getBytes 6 fs⟩
  if h.Utf8 then some h else none

theorem valid_entries (h : Header) : ∀ e ∈ h.entries, ValidEntry e := by
  simp [entries]

theorem parse_entries {h : Header} (hutf : h.Utf8) : parse (fieldsOf h.entries) = some h := by
  have hnd : (h.entries.map Prod.fst).Nodup := by
    simp [entries]
  set fs := fieldsOf h.entries with hfs
  have hbytes : ∀ {num b}, _ → getBytes num fs = b := getBytes_fieldsOf hnd
  have hsame : (⟨getBytes 1 fs, getBytes 2 fs, getBytes 3 fs, getBytes 4 fs,
      getBytes 5 fs, getBytes 6 fs⟩ : Header) = h := by
    rw [Header.mk.injEq]
    refine ⟨hbytes ?_, hbytes ?_, hbytes ?_, hbytes ?_, hbytes ?_, hbytes ?_⟩
    all_goals simp [entries]
  simp only [parse, hsame]
  exact if_pos hutf

end Header

namespace Message

/-- The numbered fields, given the encoding of the header if there is one. -/
def entries (m : Message) (header : Option Bytes) : List (ℕ × Content) :=
  [(1, .repeated header.toList), (2, .bytes m.body)]

/-- `proto.Marshal` -/
def marshal (m : Message) : Option Bytes := do
  let header ← m.header.mapM (Header.marshal E)
  pure (E.wire.encode (fieldsOf (m.entries header)))

/-- The header: several records of it are merged. -/
def parseHeader (records : List Bytes) : Option (Option Header) :=
  if records = [] then some none
  else do
    let parts ← records.mapM E.wire.decode
    (Header.parse parts.flatten).map some

/-- `proto.Unmarshal` -/
def unmarshal (b : Bytes) : Option Message := do
  let fs ← E.wire.decode b
  let header ← parseHeader E (getRepeated 1 fs)
  pure ⟨header, getBytes 2 fs⟩

theorem valid_entries (m : Message) (header : Option Bytes) :
    ∀ e ∈ m.entries header, ValidEntry e := by
  simp [entries]

theorem parseHeader_marshal {header : Option Header} {b : Option Bytes}
    (h : header.mapM (Header.marshal E) = some b) : parseHeader E b.toList = some header := by
  cases header with
  | none =>
    cases h
    rfl
  | some header =>
    rw [Option.mapM_some, Header.marshal] at h
    split at h
    · rename_i hutf
      cases h
      have hdecode := E.wire.decode_fieldsOf (Header.valid_entries header)
      simp [parseHeader, hdecode, Header.parse_entries hutf]
    · cases h

theorem unmarshal_marshal {m : Message} {b : Bytes} (h : m.marshal E = some b) :
    unmarshal E b = some m := by
  rw [marshal, Option.bind_eq_bind, Option.bind_eq_some_iff] at h
  obtain ⟨header, hheader, hb⟩ := h
  cases hb
  have hnd : ((m.entries header).map Prod.fst).Nodup := by
    simp [entries]
  have hrecords : getRepeated 1 (fieldsOf (m.entries header)) = header.toList :=
    getRepeated_fieldsOf hnd (by simp [entries])
  have hbody : getBytes 2 (fieldsOf (m.entries header)) = m.body :=
    getBytes_fieldsOf hnd (by simp [entries])
  rw [unmarshal, E.wire.decode_fieldsOf (valid_entries m header)]
  show (parseHeader E (getRepeated 1 _)).bind _ = _
  rw [hrecords, parseHeader_marshal E hheader, Option.bind_some, hbody]
  rfl

end Message

end Pb

/-! ### Messages of the network -/

/-- `network.Message`: a message with a header. -/
structure Message where
  header : Pb.Header
  body : Bytes
  deriving DecidableEq

def newMessage (pbMessage : Pb.Message) : Message :=
  ⟨pbMessage.header.getD .new, pbMessage.body⟩

namespace Message

variable (E : Env)

def proto (m : Message) : Pb.Message := ⟨some m.header, m.body⟩

def marshal (m : Message) : Option Bytes := m.proto.marshal E

/-- **A message that is marshalled is read back.** -/
theorem unmarshal_marshal {m : Message} {b : Bytes} (h : m.marshal E = some b) :
    (Pb.Message.unmarshal E b).map newMessage = some m := by
  rw [Pb.Message.unmarshal_marshal E h]
  rfl

end Message

end MetaNode
