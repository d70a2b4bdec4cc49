/-
Values as `encoding/gob` writes them.

`Gob` is an encoder of one type with its decoder.  `ofValue` builds one from the
description of the type and the format of its values: a message is its length
followed by the type's number and the value, and the encoder refuses a message above
`tooBig`.  The description precedes the value, as with an encoder that is used once.

A format is proved by its `Reads`, which the rules for slices, pairs and lists build up.
-/
import Mathlib.Algebra.Group.Nat.Defs
import MetaNode.BigEndian

/-- How long an encoding may be that has to be decoded.  The decoder has limits of its own
for the memory of a slice, which shorter encodings cannot reach. -/
def Gob.reach : ℕ := 2 ^ 26

/-- An encoder may fail; it writes no more than an `int` can count. -/
structure Gob (α : Type) where
  encode : α → Option (List UInt8)
  decode : List UInt8 → Option α
  decode_encode : ∀ a b, encode a = some b → b.length ≤ Gob.reach → decode b = some a
  length_encode : ∀ a b, encode a = some b → 0 < b.length ∧ b.length < 2 ^ 63

namespace Gob

variable {α : Type}

/-- What the encoder writes for the value keeps to the limit. -/
def Fits (gob : Gob α) (limit : Int64) (a : α) : Prop :=
  ∀ b, gob.encode a = some b → b.length ≤ limit.toInt

variable {b : List UInt8}

theorem fits_iff {gob : Gob α} {limit : Int64} {a : α} (h : gob.encode a = some b) :
    gob.Fits limit a ↔ b.length ≤ limit.toInt := by
  constructor
  · intro hfits
    exact hfits b h
  · intro hle b' hb'
    rw [h, Option.some.injEq] at hb'
    rwa [← hb']

instance decidableFits (gob : Gob α) (limit : Int64) (a : α) : Decidable (gob.Fits limit a) :=
  decidable_of_iff ((gob.encode a).all fun b => b.length ≤ limit.toInt) (by
    rw [Option.all_eq_true]
    simp only [decide_eq_true_eq]
    rfl)

/-! ### Unsigned integers -/

/-- One byte up to 127, otherwise the shortest bytes after their negated number. -/
def uint (n : ℕ) : List UInt8 :=
  if n ≤ 127 then [UInt8.ofNat n]
  else UInt8.ofNat (256 - (BigEndian.ofNat n).length) :: BigEndian.ofNat n

def readUint : List UInt8 → Option (ℕ × List UInt8)
  | [] => none
  | x :: rest =>
    if x.toNat ≤ 127 then some (x.toNat, rest)
    else
      let len := 256 - x.toNat
      if 8 < len ∨ rest.length < len then none
      else some (BigEndian.toNat (rest.take len), rest.drop len)

variable {n : ℕ}

theorem length_uint_le (h : n < 2 ^ 64) : (uint n).length ≤ 9 := by
  have hlen : (BigEndian.ofNat n).length ≤ 8 := BigEndian.length_ofNat_le_iff.mpr (by omega)
  rw [uint]
  split
  · simp
  · rw [List.length_cons]
    omega

theorem length_uint_pos (n : ℕ) : 0 < (uint n).length := by
  rw [uint]
  split <;> simp

theorem readUint_uint (h : n < 2 ^ 64) (rest : List UInt8) :
    readUint (uint n ++ rest) = some (n, rest) := by
  rw [uint]
  split
  · rename_i hsmall
    have hbyte : (UInt8.ofNat n).toNat = n := by
      rw [UInt8.toNat_ofNat']
      omega
    rw [List.singleton_append, readUint, hbyte, if_pos hsmall]
  · rename_i hbig
    have hlen : (BigEndian.ofNat n).length ≤ 8 := BigEndian.length_ofNat_le_iff.mpr (by omega)
    have hpos : 0 < (BigEndian.ofNat n).length := by
      rw [List.length_pos_iff, Ne, BigEndian.ofNat_eq_nil]
      omega
    have hbyte : (UInt8.ofNat (256 - (BigEndian.ofNat n).length)).toNat =
        256 - (BigEndian.ofNat n).length := by
      rw [UInt8.toNat_ofNat']
      omega
    have hcount : 256 - (256 - (BigEndian.ofNat n).length) = (BigEndian.ofNat n).length := by omega
    have hfits : ¬ (8 < (BigEndian.ofNat n).length ∨
        (BigEndian.ofNat n ++ rest).length < (BigEndian.ofNat n).length) := by
      rw [List.length_append]
      omega
    rw [List.cons_append, readUint, hbyte, if_neg (by omega)]
    simp only [hcount, if_neg hfits, List.take_left, List.drop_left, BigEndian.toNat_ofNat]

/-! ### Formats -/

variable (write : α → List UInt8) (read : List UInt8 → Option (α × List UInt8))

/-- A reader gives back what was written, and leaves what follows. -/
def Reads : Prop :=
  ∀ a rest, (write a).length < 2 ^ 64 → read (write a ++ rest) = some (a, rest)

def slice (b : List UInt8) : List UInt8 := uint b.length ++ b

def readSlice (b : List UInt8) : Option (List UInt8 × List UInt8) := do
  let (len, rest) ← readUint b
  if rest.length < len then none else some (rest.take len, rest.drop len)

theorem readSlice_slice (h : b.length < 2 ^ 64) (rest : List UInt8) :
    readSlice (slice b ++ rest) = some (b, rest) := by
  have hlen : ¬ (b ++ rest).length < b.length := by
    rw [List.length_append]
    omega
  simp only [readSlice, slice, List.append_assoc, readUint_uint h, Option.bind_eq_bind,
    Option.bind_some, if_neg hlen, List.take_left, List.drop_left]

theorem reads_slice : Reads slice readSlice := by
  intro b rest h
  rw [slice, List.length_append] at h
  exact readSlice_slice (by omega) rest

/-- An array of two: its length stands before it. -/
def pair (p : α × α) : List UInt8 := uint 2 ++ (write p.1 ++ write p.2)

def readPair (b : List UInt8) : Option ((α × α) × List UInt8) := do
  let (_, rest) ← readUint b
  let (x, rest) ← read rest
  let (y, rest) ← read rest
  some ((x, y), rest)

def list (as : List α) : List UInt8 := uint as.length ++ as.flatMap write

def readMany : ℕ → List UInt8 → Option (List α × List UInt8)
  | 0, b => some ([], b)
  | n + 1, b => do
    let (a, rest) ← read b
    let (as, rest) ← readMany n rest
    some (a :: as, rest)

def readList (b : List UInt8) : Option (List α × List UInt8) := do
  let (n, rest) ← readUint b
  readMany read n rest

variable {write read}

theorem Reads.pair (h : Reads write read) : Reads (pair write) (readPair read) := by
  intro p rest hlen
  rw [Gob.pair, List.length_append, List.length_append] at hlen
  have hx := h p.1 (write p.2 ++ rest) (by omega)
  have hy := h p.2 rest (by omega)
  simp only [readPair, Gob.pair, List.append_assoc, readUint_uint (show 2 < 2 ^ 64 by decide),
    Option.bind_eq_bind, Option.bind_some, hx, hy]

theorem Reads.many (h : Reads write read) (as : List α) (rest : List UInt8)
    (hlen : (as.flatMap write).length < 2 ^ 64) :
    readMany read as.length (as.flatMap write ++ rest) = some (as, rest) := by
  induction as with
  | nil => rfl
  | cons a as ih =>
    rw [List.flatMap_cons, List.length_append] at hlen
    have ha := h a (as.flatMap write ++ rest) (by omega)
    simp only [List.length_cons, readMany, List.flatMap_cons, List.append_assoc, ha,
      Option.bind_eq_bind, Option.bind_some, ih (by omega)]

/-- The elements of a list must not be empty, so that its length is small enough to be read. -/
theorem Reads.list (h : Reads write read) (hpos : ∀ a, 0 < (write a).length) :
    Reads (list write) (readList read) := by
  intro as rest hlen
  have hcount : as.length ≤ (as.flatMap write).length := by
    clear hlen
    induction as with
    | nil => simp
    | cons a as ih =>
      rw [List.flatMap_cons, List.length_append, List.length_cons]
      have ha := hpos a
      omega
  rw [Gob.list, List.length_append] at hlen
  rw [readList, Gob.list, List.append_assoc, readUint_uint (by omega), Option.bind_eq_bind,
    Option.bind_some]
  exact h.many as rest (by omega)

/-! ### Messages -/

/-- Messages from here on are refused: `gob: encoder: message too big`. -/
def tooBig : ℕ := 2 ^ 33

/-- A message: the number of the type, a zero as for the only field of a struct, and the value. -/
def message (type : List UInt8) (write : α → List UInt8) (a : α) : List UInt8 :=
  type ++ 0 :: write a

def readMessage (type : List UInt8) (read : List UInt8 → Option (α × List UInt8))
    (b : List UInt8) : Option α :=
  if b.take type.length = type then (read (b.drop (type.length + 1))).map Prod.fst else none

theorem readMessage_message (h : Reads write read) (type : List UInt8) {a : α}
    (hlen : (message type write a).length < tooBig) :
    readMessage type read (message type write a) = some a := by
  have hvalue : (write a).length < 2 ^ 64 := by
    rw [message, List.length_append, List.length_cons] at hlen
    simp only [tooBig] at hlen
    omega
  have hread := h a [] hvalue
  rw [List.append_nil] at hread
  have hdrop : (type ++ 0 :: write a).drop (type.length + 1) = write a := by
    rw [← List.drop_drop, List.drop_left, List.drop_succ_cons, List.drop_zero]
  rw [readMessage, message, if_pos List.take_left, hdrop, hread, Option.map_some]

/-- The description of a type and a message. -/
def ofValue (description type : List UInt8) (write : α → List UInt8)
    (read : List UInt8 → Option (α × List UInt8)) (h : Reads write read)
    (hdescription : description.length < tooBig) : Gob α where
  encode a :=
    if (message type write a).length < tooBig then
      some (description ++ slice (message type write a))
    else none
  decode b :=
    if b.take description.length = description then
      (readSlice (b.drop description.length)).bind fun m => readMessage type read m.1
    else none
  decode_encode a b hb _ := by
    split at hb
    · rename_i hlen
      cases hb
      have hslice := readSlice_slice (b := message type write a) (hlen.trans (by decide)) []
      rw [List.append_nil] at hslice
      rw [if_pos List.take_left, List.drop_left, hslice, Option.bind_some]
      exact readMessage_message h type hlen
    · cases hb
  length_encode a b hb := by
    split at hb
    · rename_i hlen
      cases hb
      have hpos := length_uint_pos (message type write a).length
      have hle := length_uint_le (n := (message type write a).length) (hlen.trans (by decide))
      rw [List.length_append, slice, List.length_append]
      simp only [tooBig] at hlen hdescription
      omega
    · cases hb

/-- `[]byte`, the type 5. -/
def bytes : Gob (List UInt8) := ofValue [] [0x0a] slice readSlice reads_slice (by decide)

theorem length_uint_of_lt (hlow : 2 ^ 16 ≤ n) (hhigh : n < 2 ^ 24) : (uint n).length = 4 := by
  have hle : (BigEndian.ofNat n).length ≤ 3 := BigEndian.length_ofNat_le_iff.mpr (by omega)
  have hgt : ¬ (BigEndian.ofNat n).length ≤ 2 := by
    rw [BigEndian.length_ofNat_le_iff]
    omega
  rw [uint, if_neg (by omega), List.length_cons]
  omega

theorem length_bytes (hlow : 2 ^ 16 ≤ b.length) (hhigh : b.length + 6 < 2 ^ 24) :
    ∃ e, bytes.encode b = some e ∧ e.length = b.length + 10 := by
  have hmessage : (message [0x0a] slice b).length = b.length + 6 := by
    rw [message, List.singleton_append, List.length_cons, List.length_cons, slice,
      List.length_append, length_uint_of_lt hlow (by omega)]
    omega
  refine ⟨slice (message [0x0a] slice b), if_pos ?_, ?_⟩
  · rw [hmessage]
    exact hhigh.trans (by decide)
  · rw [slice, List.length_append, hmessage, length_uint_of_lt (by omega) hhigh]
    omega

/-- The description of `[2][]byte` as the type 65: an array of two elements of the type 5. -/
def pairDescription : List UInt8 :=
  slice [0xff, 0x81, 0x01, 0x01, 0x02, 0xff, 0x82, 0x00, 0x01, 0x0a, 0x01, 0x04, 0x00, 0x00]

/-- `[2][]byte` -/
def bytesPair : Gob (List UInt8 × List UInt8) :=
  ofValue pairDescription [0xff, 0x82] (pair slice) (readPair readSlice) reads_slice.pair
    (by decide)

theorem length_pair_pos (write : α → List UInt8) (p : α × α) : 0 < (pair write p).length := by
  have hpos := length_uint_pos 2
  rw [pair, List.length_append]
  omega

/-- The description of `[][2][]byte` as the type 66: a slice of the type 65. -/
def pairsDescription : List UInt8 :=
  slice [0xff, 0x83, 0x02, 0x01, 0x02, 0xff, 0x84, 0x00, 0x01, 0xff, 0x82, 0x00, 0x00]

/-- `[][2][]byte`: the description of the elements follows. -/
def bytesPairs : Gob (List (List UInt8 × List UInt8)) :=
  ofValue (pairsDescription ++ pairDescription) [0xff, 0x84] (list (pair slice))
    (readList (readPair readSlice)) (reads_slice.pair.list (length_pair_pos slice)) (by decide)

end Gob
