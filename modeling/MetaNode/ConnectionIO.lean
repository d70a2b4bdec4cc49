/-
The loops of a connection (`writeLoop` and `readLoop` of `pkg/network/connection.go`).

A message travels as its length, eight bytes in little-endian order, and its encoding.
The reader is that of a connection which delivers the stream in segments and is closed
behind the last one; every request finds room in its channel, and nobody asks the loop
to quit.

`Parses` says which messages a stream of bytes has; these are what `readLoop` emits
(`readLoop_eq_iff`).
-/
import MetaNode.BigEndian
import MetaNode.ByteStream
import MetaNode.PbMessage

namespace MetaNode

open ByteStream

/-- The fields of `Config` that the loops use. -/
structure ConnectionConfig where
  maxMessageLength : UInt64
  errorChanSize : ℕ

/-- `DefaultConfig` -/
def ConnectionConfig.default : ConnectionConfig := ⟨1024 * 1024 * 1024, 2000⟩

inductive TerminalError where
  /-- while `reading message length` -/
  | length (e : ReadError)
  /-- while `checking message length`: `ErrExceedMessageLength`, with both lengths -/
  | exceed (received max : UInt64)
  /-- while `reading message content` -/
  | content (e : ReadError)
  /-- `unmarshal error: %w` -/
  | unmarshal
  deriving DecidableEq

variable (E : Env)

/-! ### The loops -/

/-- `writeLoop`: the bytes for the messages of the channel.  One that cannot be
marshalled is skipped. -/
def writeLoop (messages : List Message) : Bytes :=
  messages.flatMap fun message =>
    match message.marshal E with
    | none => []
    | some b => LittleEndian.fixed 8 b.length ++ b

/-- `io.ReadFull` into `n` bytes. -/
def readFull (reader : Reader) (n : ℕ) : Except ReadError Bytes × Reader :=
  let (b, reader) := reader.collect n
  (if b.length = n then .ok b else if b = [] then .error .eof else .error .unexpectedEOF, reader)

/-- `io.CopyN` into an empty buffer.  A negative number is no error. -/
def copyN (reader : Reader) (n : Int64) : Except ReadError Bytes × Reader :=
  let (b, reader) := reader.collect n.toNatClampNeg
  (if b.length = n.toNatClampNeg then .ok b else .error .eof, reader)

variable {n : ℕ} {b : Bytes} {reader reader' : Reader}

theorem readFull_eq_ok (h : readFull reader n = (.ok b, reader')) :
    b.length = n ∧ reader.content = b ++ reader'.content := by
  have hcollect := reader.collect_eq n
  simp only [readFull, Prod.mk.injEq] at h
  obtain ⟨hb, rfl⟩ := h
  split at hb
  · rename_i hlen
    cases hb
    exact ⟨hlen, by rw [hcollect.1, hcollect.2, List.take_append_drop]⟩
  · split at hb <;> cases hb

theorem copyN_eq_ok {n : Int64} (h : copyN reader n = (.ok b, reader')) :
    reader.content = b ++ reader'.content := by
  have hcollect := reader.collect_eq n.toNatClampNeg
  simp only [copyN, Prod.mk.injEq] at h
  obtain ⟨hb, rfl⟩ := h
  split at hb
  · cases hb
    rw [hcollect.1, hcollect.2, List.take_append_drop]
  · cases hb

theorem readFull_eq_error {err : ReadError}
    (h : readFull reader n = (.error err, reader')) : reader.content.length < n := by
  have herr := congrArg Prod.fst h
  simp only [readFull, reader.length_collect] at herr
  split at herr
  · cases herr
  · omega

theorem copyN_eq_error {n : Int64} {err : ReadError} (h : copyN reader n = (.error err, reader')) :
    reader.content.length < n.toNatClampNeg := by
  have herr := congrArg Prod.fst h
  simp only [copyN, reader.length_collect] at herr
  split at herr
  · cases herr
  · omega

theorem length_copyN {n : Int64} (h : copyN reader n = (.ok b, reader')) :
    b.length = n.toNatClampNeg := by
  have hok := congrArg Prod.fst h
  simp only [copyN] at hok
  split at hok
  · cases hok
    assumption
  · cases hok

/-- `handleTerminalError`: the error goes to the channel if there is room. -/
def handleTerminalError (config : ConnectionConfig) (errorChan : List TerminalError)
    (err : TerminalError) : List TerminalError :=
  if errorChan.length < config.errorChanSize then errorChan ++ [err] else errorChan

/-- `readLoop`: the messages of the requests that it emits, and the error channel when it
returns. -/
def readLoop (config : ConnectionConfig) (errorChan : List TerminalError) (reader : Reader) :
    List Message × List TerminalError :=
  match _h : readFull reader 8 with
  | (.error err, _) => ([], handleTerminalError config errorChan (.length err))
  | (.ok bLength, reader') =>
    let messageLength := UInt64.ofNat (LittleEndian.toNat bLength)
    if messageLength = 0 then readLoop config errorChan reader'
    else if messageLength > config.maxMessageLength then
      ([], handleTerminalError config errorChan (.exceed messageLength config.maxMessageLength))
    else
      match _h' : copyN reader' messageLength.toInt64 with
      | (.error err, _) => ([], handleTerminalError config errorChan (.content err))
      | (.ok buf, reader'') =>
        match Pb.Message.unmarshal E buf with
        | none => ([], handleTerminalError config errorChan .unmarshal)
        | some msgProto =>
          let (requests, errorChan) := readLoop config errorChan reader''
          (newMessage msgProto :: requests, errorChan)
termination_by reader.content.length
decreasing_by
  · have hread := readFull_eq_ok _h
    rw [hread.2, List.length_append]
    omega
  · have hread := readFull_eq_ok _h
    have hcopy := copyN_eq_ok _h'
    rw [hread.2, hcopy, List.length_append, List.length_append]
    omega

/-! ### Frames -/

variable {E}

/-- What `writeLoop` makes of a message. -/
def Message.Framed (E : Env) (config : ConnectionConfig) (message : Message) (b : Bytes) : Prop :=
  message.marshal E = some b ∧ 1 ≤ b.length ∧ b.length ≤ config.maxMessageLength.toNat ∧
    b.length < 2 ^ 63

variable {message : Message}

theorem writeLoop_cons (h : message.marshal E = some b) (messages : List Message) :
    writeLoop E (message :: messages)
      = LittleEndian.fixed 8 b.length ++ (b ++ writeLoop E messages) := by
  rw [writeLoop, List.flatMap_cons, h, List.append_assoc]
  rfl

/-! ### Any stream -/

/-- A frame with the length `x`: `io.CopyN` takes no bytes for a length that is negative as an
`int64`. -/
def IsFrame (config : ConnectionConfig) (x : UInt64) (b : Bytes) : Prop :=
  x ≤ config.maxMessageLength ∧ b.length = x.toInt64.toNatClampNeg

def frame (x : UInt64) (b : Bytes) : Bytes := LittleEndian.fixed 8 x.toNat ++ b

/-- The messages of a stream, up to a frame that is cut, too long or no message.  Frames of
length zero are skipped. -/
inductive Parses (E : Env) (config : ConnectionConfig) : Bytes → List Message → Prop
  | stop {stream : Bytes} : (∀ x b, IsFrame config x b → frame x b <+: stream →
      x ≠ 0 ∧ Pb.Message.unmarshal E b = none) → Parses E config stream []
  | skip {stream : Bytes} {messages : List Message} : Parses E config stream messages →
    Parses E config (frame 0 [] ++ stream) messages
  | message {x : UInt64} {b stream : Bytes} {messages : List Message} (msgProto : Pb.Message) :
    x ≠ 0 → IsFrame config x b → Pb.Message.unmarshal E b = some msgProto →
    Parses E config stream messages →
    Parses E config (frame x b ++ stream) (newMessage msgProto :: messages)

variable {config : ConnectionConfig} (errorChan : List TerminalError)

theorem readFull_length {bLength : Bytes} {reader' : Reader}
    (h : readFull reader 8 = (.ok bLength, reader')) :
    reader.content = frame (UInt64.ofNat (LittleEndian.toNat bLength)) reader'.content := by
  obtain ⟨hlen, hcontent⟩ := readFull_eq_ok h
  have hfixed := BigEndian.fixed_toNat bLength.reverse
  rw [List.length_reverse, hlen] at hfixed
  have hmod := BigEndian.toNat_fixed 8 (BigEndian.toNat bLength.reverse)
  rw [hfixed] at hmod
  have hnat : LittleEndian.toNat bLength % 2 ^ 64 = LittleEndian.toNat bLength := hmod.symm
  rw [hcontent, frame, UInt64.toNat_ofNat', hnat, LittleEndian.fixed, LittleEndian.toNat, hfixed,
    List.reverse_reverse]

theorem length_frame (x : UInt64) (b : Bytes) : (frame x b).length = 8 + b.length := by
  rw [frame, List.length_append, LittleEndian.length_fixed]

theorem frame_append (x : UInt64) (b rest : Bytes) : frame x b ++ rest = frame x (b ++ rest) :=
  List.append_assoc ..

theorem frame_inj {x y : UInt64} {b b' : Bytes} (h : frame x b = frame y b') : x = y ∧ b = b' := by
  obtain ⟨hlength, hrest⟩ := List.append_inj h (by simp)
  have hnat := congrArg LittleEndian.toNat hlength
  rw [LittleEndian.toNat_fixed, LittleEndian.toNat_fixed] at hnat
  have hx := x.toNat_lt
  have hy := y.toNat_lt
  exact ⟨UInt64.toNat_inj.mp (by omega), hrest⟩

theorem frame_prefix {x y : UInt64} {rest : Bytes} (h : frame x b <+: frame y rest) :
    x = y ∧ b <+: rest := by
  obtain ⟨tail, htail⟩ := h
  rw [frame_append] at htail
  obtain ⟨hxy, hrest⟩ := frame_inj htail
  exact ⟨hxy, tail, hrest⟩

variable (E config) in
/-- **`readLoop` emits the messages of the stream**, however it is delivered. -/
theorem readLoop_parses (reader : Reader) :
    Parses E config reader.content (readLoop E config errorChan reader).1 ∧
      ∃ err, (readLoop E config errorChan reader).2 = handleTerminalError config errorChan err := by
  fun_induction readLoop E config errorChan reader with
  | case1 reader err _ hread =>
    refine ⟨.stop fun x b _ hprefix => ?_, _, rfl⟩
    have hlen := hprefix.length_le
    have hshort := readFull_eq_error hread
    rw [length_frame] at hlen
    omega
  | case2 reader bLength reader' hread messageLength hzero ih =>
    rw [readFull_length hread, show UInt64.ofNat _ = 0 from hzero]
    exact ⟨.skip ih.1, ih.2⟩
  | case3 reader bLength reader' hread messageLength hzero hgt =>
    refine ⟨.stop fun x b hframe hprefix => ?_, _, rfl⟩
    rw [readFull_length hread] at hprefix
    obtain ⟨rfl, -⟩ := frame_prefix hprefix
    exact absurd hframe.1 (UInt64.not_le.mpr hgt)
  | case4 reader bLength reader' hread messageLength hzero hgt err _ hcopy =>
    refine ⟨.stop fun x b hframe hprefix => ?_, _, rfl⟩
    rw [readFull_length hread] at hprefix
    obtain ⟨rfl, hb⟩ := frame_prefix hprefix
    exact absurd (hframe.2 ▸ hb.length_le) (not_le.mpr (copyN_eq_error hcopy))
  | case5 reader bLength reader' hread messageLength hzero hgt buf reader'' hcopy hnone =>
    refine ⟨.stop fun x b hframe hprefix => ?_, _, rfl⟩
    rw [readFull_length hread] at hprefix
    obtain ⟨rfl, tail, htail⟩ := frame_prefix hprefix
    rw [copyN_eq_ok hcopy] at htail
    obtain ⟨rfl, -⟩ := List.append_inj htail (hframe.2.trans (length_copyN hcopy).symm)
    exact ⟨hzero, hnone⟩
  | case6 reader bLength reader' hread messageLength hzero hgt buf reader'' hcopy msgProto hsome
      requests chan hloop ih =>
    rw [hloop] at ih
    rw [readFull_length hread, copyN_eq_ok hcopy, ← frame_append]
    exact ⟨.message msgProto hzero ⟨UInt64.not_lt.mp hgt, length_copyN hcopy⟩ hsome ih.1, ih.2⟩

variable {messages : List Message}

theorem Parses.of_frame {x : UInt64} {rest : Bytes}
    (hframe : IsFrame config x b) (h : Parses E config (frame x b ++ rest) messages) :
    x ≠ 0 ∧ Pb.Message.unmarshal E b = none ∨ x = 0 ∧ Parses E config rest messages ∨
      ∃ msgProto messages', x ≠ 0 ∧ Pb.Message.unmarshal E b = some msgProto ∧
        messages = newMessage msgProto :: messages' ∧ Parses E config rest messages' := by
  generalize hstream : frame x b ++ rest = stream at h
  cases h with
  | stop hstop => exact .inl (hstop x b hframe ⟨rest, hstream⟩)
  | skip h =>
    rw [frame_append, frame_append] at hstream
    obtain ⟨rfl, hrest⟩ := frame_inj hstream
    obtain ⟨-, rfl⟩ := List.append_inj hrest hframe.2
    exact .inr (.inl ⟨rfl, h⟩)
  | message msgProto hx hframe' hsome h =>
    rw [frame_append, frame_append] at hstream
    obtain ⟨rfl, hrest⟩ := frame_inj hstream
    obtain ⟨rfl, rfl⟩ := List.append_inj hrest (hframe.2.trans hframe'.2.symm)
    exact .inr (.inr ⟨msgProto, _, hx, hsome, rfl, h⟩)

theorem Parses.unique {stream : Bytes} {messages messages' : List Message}
    (h : Parses E config stream messages) (h' : Parses E config stream messages') :
    messages = messages' := by
  have hzero : IsFrame config 0 [] := ⟨UInt64.zero_le, rfl⟩
  induction h generalizing messages' with
  | stop hstop =>
    cases h' with
    | stop => rfl
    | skip => exact absurd rfl (hstop 0 [] hzero (List.prefix_append ..)).1
    | message msgProto _ hframe hsome =>
      cases hsome.symm.trans (hstop _ _ hframe (List.prefix_append ..)).2
  | skip _ ih =>
    rcases h'.of_frame hzero with ⟨hx, -⟩ | ⟨-, h'⟩ | ⟨_, _, hx, -⟩
    · exact absurd rfl hx
    · exact ih h'
    · exact absurd rfl hx
  | message msgProto hx hframe hsome _ ih =>
    rcases h'.of_frame hframe with ⟨-, hnone⟩ | ⟨rfl, -⟩ | ⟨_, _, -, hsome', rfl, hrest⟩
    · cases hsome.symm.trans hnone
    · exact absurd rfl hx
    · cases hsome.symm.trans hsome'
      rw [ih hrest]

/-- **The protocol of the stream**: `readLoop` emits just the messages of the stream, for
every stream and however it is delivered. -/
theorem readLoop_eq_iff :
    (readLoop E config errorChan reader).1 = messages ↔
      Parses E config reader.content messages := by
  have hparses := (readLoop_parses E config errorChan reader).1
  constructor
  · rintro rfl
    exact hparses
  · exact hparses.unique

/-! ### A stream that is cut -/

variable (E) in
/-- Of a stream that is cut, the first `k` messages have arrived as a whole, and no more. -/
def Arrived (messages : List Message) (cut k : ℕ) : Prop :=
  k ≤ messages.length ∧ (writeLoop E (messages.take k)).length ≤ cut ∧
    (k < messages.length → cut < (writeLoop E (messages.take (k + 1))).length)

section

variable (h : message.marshal E = some b)

include h

theorem length_writeLoop_take_succ (messages : List Message) (k : ℕ) :
    (writeLoop E ((message :: messages).take (k + 1))).length
      = 8 + b.length + (writeLoop E (messages.take k)).length := by
  rw [List.take_succ_cons, writeLoop_cons h, List.length_append, List.length_append,
    LittleEndian.length_fixed]
  omega

theorem Arrived.zero (messages : List Message) {cut : ℕ}
    (hcut : cut < 8 + b.length) : Arrived E (message :: messages) cut 0 := by
  refine ⟨Nat.zero_le _, Nat.zero_le _, fun _ => ?_⟩
  rw [length_writeLoop_take_succ h]
  omega

theorem Arrived.succ {cut k : ℕ}
    (hcut : 8 + b.length ≤ cut) (hrest : Arrived E messages (cut - 8 - b.length) k) :
    Arrived E (message :: messages) cut (k + 1) := by
  obtain ⟨hk, hle, hnext⟩ := hrest
  rw [Arrived, length_writeLoop_take_succ h, length_writeLoop_take_succ h, List.length_cons]
  refine ⟨by omega, by omega, fun hlt => ?_⟩
  have hnext' := hnext (by omega)
  omega

end

theorem parses_take (hsize : ∀ message ∈ messages, ∃ b, message.Framed E config b) (cut : ℕ) :
    ∃ k, Parses E config ((writeLoop E messages).take cut) (messages.take k) ∧
      Arrived E messages cut k := by
  induction messages generalizing cut with
  | nil =>
    refine ⟨0, .stop fun x b _ hprefix => ?_, le_rfl, Nat.zero_le _,
      fun h => absurd h (lt_irrefl 0)⟩
    have hlen := hprefix.length_le
    rw [length_frame, writeLoop, List.flatMap_nil, List.take_nil, List.length_nil] at hlen
    omega
  | cons message messages ih =>
    rw [List.forall_mem_cons] at hsize
    obtain ⟨⟨b, hmarshal, hpos, hmax, hlt⟩, hsize⟩ := hsize
    set x := UInt64.ofNat b.length with hx
    have hnat : x.toNat = b.length := UInt64.toNat_ofNat_of_lt' (hlt.trans (by decide))
    have hframe : IsFrame config x b := by
      refine ⟨UInt64.le_iff_toNat_le.mpr (hnat ▸ hmax), ?_⟩
      rw [hx, UInt64.toInt64_ofNat', Int64.toNatClampNeg_ofNat_of_lt hlt]
    have hwrite : writeLoop E (message :: messages) = frame x b ++ writeLoop E messages := by
      rw [writeLoop_cons hmarshal, frame, hnat, List.append_assoc]
    rw [hwrite]
    by_cases hcut : cut < 8 + b.length
    · -- the frame is cut
      refine ⟨0, .stop fun y b' hframe' hprefix => ?_, .zero hmarshal messages hcut⟩
      have hwhole := hprefix.trans (List.take_prefix _ _)
      rw [frame_append] at hwhole
      obtain ⟨rfl, -⟩ := frame_prefix hwhole
      have hlen := hprefix.length_le
      rw [length_frame, hframe'.2, ← hframe.2, List.length_take] at hlen
      omega
    · obtain ⟨k, hparses, hk⟩ := ih hsize (cut - 8 - b.length)
      refine ⟨k + 1, ?_, hk.succ hmarshal (by omega)⟩
      obtain ⟨msgProto, hsome, rfl⟩ :=
        Option.map_eq_some_iff.mp (Message.unmarshal_marshal E hmarshal)
      rw [List.take_append, List.take_of_length_le (by rw [length_frame]; omega), length_frame,
        ← Nat.sub_sub, List.take_succ_cons]
      refine .message msgProto (fun hzero => ?_) hframe hsome hparses
      rw [hzero] at hnat
      exact Nat.ne_of_lt hpos hnat

/-- **The messages that arrived as a whole are emitted, and then the loop ends.** -/
theorem readLoop_take (hsize : ∀ message ∈ messages, ∃ b, message.Framed E config b) (cut : ℕ)
    (hcontent : reader.content = (writeLoop E messages).take cut) :
    ∃ k err, readLoop E config errorChan reader
        = (messages.take k, handleTerminalError config errorChan err) ∧
      Arrived E messages cut k := by
  obtain ⟨hparses, err, herr⟩ := readLoop_parses E config errorChan reader
  obtain ⟨k, htake, hk⟩ := parses_take hsize cut
  rw [hcontent] at hparses
  exact ⟨k, err, Prod.ext (hparses.unique htake) herr, hk⟩

/-- **Framing**: the messages that `writeLoop` sends are emitted by `readLoop`, however
the stream is delivered; where it is cut, those that arrived as a whole are emitted
and then an error is reported. -/
theorem readLoop_cut (hroom : 0 < config.errorChanSize)
    (hsize : ∀ message ∈ messages, ∃ b, message.Framed E config b) :
    (∀ segments : List Bytes, segments.flatten = writeLoop E messages →
      (readLoop E config [] (Reader.new segments)).1 = messages) ∧
    (∀ (cut : ℕ) (segments : List Bytes), segments.flatten = (writeLoop E messages).take cut →
      ∃ k err, readLoop E config [] (Reader.new segments) = (messages.take k, [err]) ∧
        k ≤ messages.length ∧ (writeLoop E (messages.take k)).length ≤ cut ∧
        (k < messages.length → cut < (writeLoop E (messages.take (k + 1))).length)) := by
  have hcut : ∀ (cut : ℕ) (segments : List Bytes),
      segments.flatten = (writeLoop E messages).take cut →
      ∃ k err, readLoop E config [] (Reader.new segments) = (messages.take k, [err]) ∧
        k ≤ messages.length ∧ (writeLoop E (messages.take k)).length ≤ cut ∧
        (k < messages.length → cut < (writeLoop E (messages.take (k + 1))).length) := by
    intro cut segments hsegments
    obtain ⟨k, err, hloop, hk⟩ := readLoop_take [] hsize cut
      (show (Reader.new segments).content = _ from hsegments)
    rw [handleTerminalError, if_pos (show ([] : List TerminalError).length < _ from hroom)] at hloop
    exact ⟨k, err, hloop, hk⟩
  refine ⟨fun segments hsegments => ?_, hcut⟩
  obtain ⟨k, err, hloop, hk, -, hnext⟩ :=
    hcut (writeLoop E messages).length segments (by rw [List.take_length, hsegments])
  have hall : k = messages.length := by
    refine le_antisymm hk (not_lt.mp fun hlt => ?_)
    -- a shorter list would have a shorter stream
    have hsplit : writeLoop E messages
        = writeLoop E (messages.take (k + 1)) ++ writeLoop E (messages.drop (k + 1)) := by
      rw [writeLoop, writeLoop, writeLoop, ← List.flatMap_append, List.take_append_drop]
    have hnext' := hnext hlt
    rw [hsplit, List.length_append] at hnext'
    omega
  rw [hloop, hall, List.take_length]

/-- The command `Ping`, without a body. -/
def pingMessage : Message := ⟨{ Pb.Header.new with command := [80, 105, 110, 103] }, []⟩

def pings : List Message := [pingMessage, { pingMessage with body := [1] }]

theorem pings_framed : ∀ message ∈ pings, ∃ b, message.Framed stdEnv .default b := by
  have hping : pingMessage.Framed stdEnv .default [10, 6, 10, 4, 80, 105, 110, 103] := by
    refine ⟨?_, ?_, ?_, ?_⟩ <;> decide +kernel
  have hbody : ({ pingMessage with body := [1] } : Message).Framed stdEnv .default
      [10, 6, 10, 4, 80, 105, 110, 103, 18, 1, 1] := by
    refine ⟨?_, ?_, ?_, ?_⟩ <;> decide +kernel
  exact List.forall_mem_cons.mpr ⟨⟨_, hping⟩, List.forall_mem_singleton.mpr ⟨_, hbody⟩⟩

/-- The stream of two messages, and the same cut within the second. -/
theorem readLoop_cut_pings :
    (∀ segments : List Bytes, segments.flatten = writeLoop stdEnv pings →
      (readLoop stdEnv .default [] (Reader.new segments)).1 = pings) ∧
    (∀ segments : List Bytes, segments.flatten = (writeLoop stdEnv pings).take 20 →
      ∃ err, readLoop stdEnv .default [] (Reader.new segments) = ([pingMessage], [err])) := by
  obtain ⟨hall, hcut⟩ := readLoop_cut (by decide) pings_framed
  refine ⟨hall, fun segments hsegments => ?_⟩
  obtain ⟨k, err, hloop, hk, hle, hlt⟩ := hcut 20 segments hsegments
  have hone : (writeLoop stdEnv (pings.take 1)).length = 16 := by decide +kernel
  have htwo : (writeLoop stdEnv (pings.take 2)).length = 35 := by decide +kernel
  match k, hk with
  | 0, _ => exact absurd (hlt (by decide)) (by rw [hone]; decide)
  | 1, _ => exact ⟨err, hloop⟩
  | 2, _ => exact absurd hle (by rw [htwo]; decide)

end MetaNode
