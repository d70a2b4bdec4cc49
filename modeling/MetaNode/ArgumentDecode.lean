/-
Strings in the arguments of a contract call (`pkg/smart_contract/argument_encode`).

`DecodeStringInput` reads the word of an argument as an offset, the word at that
offset as a length, and returns the bytes behind it.  Words have 256 bits, of which
the code takes the lowest 64, and its sums are taken modulo `2 ^ 64`; `IsAbiString`
says where the string is when the words are read as they are.

The sums are resolved once (`decodeStringInput_eq`, `decodeStringAt_eq`).
-/
import Mathlib.Algebra.Group.Int.Defs
import MetaNode.BigEndian
import MetaNode.Bytes

namespace MetaNode

inductive SlicePanic where
  | outOfRange
  deriving DecidableEq

variable (input : Bytes)

/-- `input[lo:hi]`.  Where `hi` is used it is at most the length of the input, so that
spare capacity plays no part. -/
def sliceBytes (lo hi : ℤ) : Except SlicePanic Bytes :=
  if 0 ≤ lo ∧ lo ≤ hi ∧ hi ≤ input.length then
    .ok ((input.drop lo.toNat).take (hi - lo).toNat)
  else .error .outOfRange

/-- `SetBytes` of a `uint256`, and `Uint64` of it. -/
def wordUint64 (word : Bytes) : UInt64 := UInt64.ofNat (BigEndian.toNat word)

/-- `DecodeStringInput`, once the offset is read. -/
def decodeStringAt (start : UInt64) : Except SlicePanic Bytes :=
  if start + 32 > UInt64.ofNat input.length then .ok []
  else do
    let word ← sliceBytes input start.toNat (start + 32).toNat
    let strLen := wordUint64 word
    if start + 32 + strLen > UInt64.ofNat input.length then .ok []
    else sliceBytes input (start + 32).toNat (start + 32 + strLen).toNat

variable (idx : Int64)

def decodeStringInput : Except SlicePanic Bytes :=
  if idx < 0 ∨ (idx + 1) * 32 > Int64.ofNat input.length then .ok []
  else do
    let word ← sliceBytes input (idx * 32).toInt ((idx + 1) * 32).toInt
    decodeStringAt input (wordUint64 word)

/-! ### Where a string is -/

/-- The word at a position, as a number of 256 bits. -/
def wordAt (pos : ℕ) : ℕ := BigEndian.toNat ((input.drop pos).take 32)

/-- The string of argument `idx`: the word of the argument is its offset, the word there
its length, and all of it lies in the input. -/
def IsAbiString (str : Bytes) : Prop :=
  ∃ pos : ℕ, (pos : ℤ) = 32 * idx.toInt ∧ pos + 32 ≤ input.length ∧
    wordAt input pos + 32 + wordAt input (wordAt input pos) ≤ input.length ∧
    str = (input.drop (wordAt input pos + 32)).take (wordAt input (wordAt input pos))

/-- The end of the word of an argument, as the code computes it. -/
def wordEnd : ℤ := (32 * (idx.toInt + 1)).bmod (2 ^ 64)

/-- The words are in range where they are used: the sums with the offset and with the
length do not wrap, and a string is returned only where nothing was cut off. -/
def InRange : Prop :=
  idx.toInt < 0 ∨ input.length < wordEnd idx ∨
  0 < wordEnd idx ∧
    let offset := wordAt input (wordEnd idx - 32).toNat
    let start := offset % 2 ^ 64
    let length := wordAt input start
    let strLen := length % 2 ^ 64
    start + 32 < 2 ^ 64 ∧
    (start + 32 ≤ input.length → start + 32 + strLen < 2 ^ 64 ∧
      (0 < strLen → start + 32 + strLen ≤ input.length →
        wordEnd idx = 32 * (idx.toInt + 1) ∧ offset < 2 ^ 64 ∧ length < 2 ^ 64))

/-! ### The sums -/

variable {input}

theorem sliceBytes_ok {lo hi : ℕ} (h : lo ≤ hi) (hhi : hi ≤ input.length) :
    sliceBytes input lo hi = .ok ((input.drop lo).take (hi - lo)) := by
  rw [sliceBytes, if_pos (by omega)]
  congr 2
  omega

theorem sliceBytes_of_gt {lo hi : ℤ} (h : hi < lo) :
    sliceBytes input lo hi = .error .outOfRange := if_neg (by omega)

theorem toNat_wordUint64 (word : Bytes) :
    (wordUint64 word).toNat = BigEndian.toNat word % 2 ^ 64 := UInt64.toNat_ofNat'

/-- The second half, in natural numbers: a sum that wraps gives a slice whose end is
before its start. -/
theorem decodeStringAt_eq (hlen : input.length < 2 ^ 63) (h32 : 32 ≤ input.length)
    (start : UInt64) :
    decodeStringAt input start =
      let strLen := wordAt input start.toNat % 2 ^ 64
      if 2 ^ 64 ≤ start.toNat + 32 then .error .outOfRange
      else if input.length < start.toNat + 32 then .ok []
      else if 2 ^ 64 ≤ start.toNat + 32 + strLen then .error .outOfRange
      else if input.length < start.toNat + 32 + strLen then .ok []
      else .ok ((input.drop (start.toNat + 32)).take strLen) := by
  have hstart := start.toNat_lt
  have hsum : (start + 32).toNat = (start.toNat + 32) % 2 ^ 64 := UInt64.toNat_add _ _
  have hgt : start + 32 > UInt64.ofNat input.length ↔
      input.length < (start.toNat + 32) % 2 ^ 64 := by
    rw [gt_iff_lt, UInt64.lt_iff_toNat_lt, UInt64.toNat_ofNat', hsum, Nat.mod_eq_of_lt (by omega)]
  simp only [decodeStringAt, hgt]
  by_cases hwrap : 2 ^ 64 ≤ start.toNat + 32
  · rw [if_neg (by omega), sliceBytes_of_gt (by omega), if_pos hwrap]
    rfl
  rw [Nat.mod_eq_of_lt (by omega)] at hsum ⊢
  rw [if_neg hwrap]
  by_cases hshort : input.length < start.toNat + 32
  · rw [if_pos hshort, if_pos hshort]
  rw [if_neg hshort, if_neg hshort, hsum, sliceBytes_ok (by omega) (by omega),
    Nat.add_sub_cancel_left]
  show (if start + 32 + wordUint64 ((input.drop start.toNat).take 32) > _ then _ else _) = _
  generalize hstr : wordUint64 ((input.drop start.toNat).take 32) = strLen
  have hstrLen : wordAt input start.toNat % 2 ^ 64 = strLen.toNat := by
    rw [← hstr, toNat_wordUint64]
    rfl
  have hlt := strLen.toNat_lt
  have hsum' : (start + 32 + strLen).toNat = (start.toNat + 32 + strLen.toNat) % 2 ^ 64 := by
    rw [UInt64.toNat_add, hsum]
  have hgt' : start + 32 + strLen > UInt64.ofNat input.length
      ↔ input.length < (start.toNat + 32 + strLen.toNat) % 2 ^ 64 := by
    rw [gt_iff_lt, UInt64.lt_iff_toNat_lt, UInt64.toNat_ofNat', hsum', Nat.mod_eq_of_lt (by omega)]
  simp only [hgt', hstrLen, hsum']
  by_cases hwrap' : 2 ^ 64 ≤ start.toNat + 32 + strLen.toNat
  · rw [if_neg (by omega), sliceBytes_of_gt (by omega), if_pos hwrap']
  rw [Nat.mod_eq_of_lt (by omega), if_neg hwrap']
  by_cases hshort' : input.length < start.toNat + 32 + strLen.toNat
  · rw [if_pos hshort', if_pos hshort']
  rw [if_neg hshort', if_neg hshort', sliceBytes_ok (by omega) (by omega), Nat.add_sub_cancel_left]

theorem toInt_wordEnd : ((idx + 1) * 32).toInt = wordEnd idx := by
  have h1 : (1 : Int64).toInt = 1 := rfl
  have h32 : (32 : Int64).toInt = 32 := rfl
  rw [Int64.toInt_mul, Int64.toInt_add, h1, h32, wordEnd, Int.bmod_def, Int.bmod_def, Int.bmod_def]
  omega

/-- The first half: the end of the word is wrapped, and the word read is the one before
it. -/
theorem decodeStringInput_eq (hlen : input.length < 2 ^ 63) (idx : Int64) :
    decodeStringInput input idx =
      if idx.toInt < 0 ∨ input.length < wordEnd idx then .ok []
      else if wordEnd idx ≤ 0 then .error .outOfRange
      else decodeStringAt input (UInt64.ofNat (wordAt input (wordEnd idx - 32).toNat)) := by
  have hneg : idx < 0 ↔ idx.toInt < 0 := Int64.lt_iff_toInt_lt
  have hgt : (idx + 1) * 32 > Int64.ofNat input.length ↔ input.length < wordEnd idx := by
    rw [gt_iff_lt, Int64.lt_iff_toInt_lt, Int64.toInt_ofNat_of_lt hlen, toInt_wordEnd]
  simp only [decodeStringInput, hneg, hgt, toInt_wordEnd]
  by_cases hout : idx.toInt < 0 ∨ (input.length : ℤ) < wordEnd idx
  · rw [if_pos hout, if_pos hout]
  rw [if_neg hout, if_neg hout]
  -- the start of the word is 32 bytes before its end, unless that is below zero
  have hstart : (idx * 32).toInt = (32 * idx.toInt).bmod (2 ^ 64) := by
    have h32 : (32 : Int64).toInt = 32 := rfl
    rw [Int64.toInt_mul, h32, mul_comm]
  have hend : wordEnd idx = (32 * (idx.toInt + 1)).bmod (2 ^ 64) := rfl
  rw [Int.bmod_def] at hstart hend
  by_cases hzero : wordEnd idx ≤ 0
  · have hslice : sliceBytes input (idx * 32).toInt (wordEnd idx) = .error .outOfRange :=
      if_neg (by omega)
    rw [if_pos hzero, hslice]
    rfl
  · have hlo : (idx * 32).toInt = ((wordEnd idx - 32).toNat : ℤ) := by omega
    have hhi : wordEnd idx = (((wordEnd idx - 32).toNat + 32 : ℕ) : ℤ) := by omega
    have hslice : sliceBytes input (idx * 32).toInt (wordEnd idx)
        = .ok ((input.drop (wordEnd idx - 32).toNat).take 32) := by
      rw [hlo]
      nth_rewrite 2 [hhi]
      rw [sliceBytes_ok (by omega) (by omega), Nat.add_sub_cancel_left]
    rw [if_neg hzero, hslice]
    rfl

/-! ### What is returned -/

theorem wordEnd_of_lt {idx : Int64} (h0 : 0 ≤ idx.toInt) (h : 32 * (idx.toInt + 1) < 2 ^ 63) :
    wordEnd idx = 32 * (idx.toInt + 1) := by
  rw [wordEnd, Int.bmod_def]
  omega

theorem le_wordEnd {idx : Int64} (h : 0 < wordEnd idx) : 32 ≤ wordEnd idx := by
  rw [wordEnd, Int.bmod_def] at h ⊢
  omega

/-- A string that is cut out with the low bits of the words is the string of the
argument exactly if nothing was cut off. -/
theorem isAbiString_iff (hlen : input.length < 2 ^ 63) {idx : Int64} (hpos : 0 < wordEnd idx)
    (hin : wordEnd idx ≤ input.length) {offset start length : ℕ}
    (hoffset : offset = wordAt input (wordEnd idx - 32).toNat) (hstart : start = offset % 2 ^ 64)
    (hlength : length = wordAt input start)
    (hfits : start + 32 + length % 2 ^ 64 ≤ input.length) :
    IsAbiString input idx ((input.drop (start + 32)).take (length % 2 ^ 64)) ↔
      wordEnd idx = 32 * (idx.toInt + 1) ∧ offset < 2 ^ 64 ∧ length < 2 ^ 64 := by
  constructor
  · rintro ⟨pos, hidx, hword, hstr, -⟩
    have hend : wordEnd idx = 32 * (idx.toInt + 1) := wordEnd_of_lt (by omega) (by omega)
    have hposEq : (wordEnd idx - 32).toNat = pos := by omega
    rw [hposEq] at hoffset
    rw [← hoffset] at hstr
    have hsame : start = offset := by omega
    rw [hsame] at hlength
    rw [← hlength] at hstr
    exact ⟨hend, by omega, by omega⟩
  · rintro ⟨hend, hoffsetLt, hlengthLt⟩
    have hge := le_wordEnd hpos
    rw [Nat.mod_eq_of_lt hoffsetLt] at hstart
    rw [Nat.mod_eq_of_lt hlengthLt] at hfits ⊢
    rw [hstart] at hlength hfits ⊢
    refine ⟨(wordEnd idx - 32).toNat, by omega, by omega, ?_, ?_⟩ <;>
      rw [← hoffset, ← hlength]
    exact hfits

/-- **A call returns, and a non-empty result is the string of the argument, exactly if
the words are in range where they are used.** -/
theorem decodeStringInput_iff (hlen : input.length < 2 ^ 63) (idx : Int64) :
    (∃ str, decodeStringInput input idx = .ok str ∧ (str ≠ [] → IsAbiString input idx str)) ↔
      InRange input idx := by
  rw [decodeStringInput_eq hlen, InRange]
  by_cases hout : idx.toInt < 0 ∨ (input.length : ℤ) < wordEnd idx
  · rw [if_pos hout]
    exact iff_of_true ⟨[], rfl, fun h => absurd rfl h⟩ (by tauto)
  rw [if_neg hout]
  by_cases hpos : wordEnd idx ≤ 0
  · rw [if_pos hpos]
    refine iff_of_false nofun ?_
    rintro (h | h | h)
    · exact hout (.inl h)
    · exact hout (.inr h)
    · omega
  have hge := le_wordEnd (not_le.mp hpos)
  rw [if_neg hpos, decodeStringAt_eq hlen (by omega), UInt64.toNat_ofNat']
  dsimp only
  generalize hoffset : wordAt input (wordEnd idx - 32).toNat = offset
  generalize hstart : offset % 2 ^ 64 = start
  generalize hlength : wordAt input start = length
  simp only [not_or] at hout
  simp only [hout, not_le.mp hpos, false_or, true_and]
  by_cases hwrap : 2 ^ 64 ≤ start + 32
  · rw [if_pos hwrap]
    exact iff_of_false nofun (by omega)
  rw [if_neg hwrap]
  by_cases hshort : input.length < start + 32
  · rw [if_pos hshort]
    exact iff_of_true ⟨[], rfl, fun h => absurd rfl h⟩ (by omega)
  rw [if_neg hshort]
  by_cases hwrap' : 2 ^ 64 ≤ start + 32 + length % 2 ^ 64
  · rw [if_pos hwrap']
    exact iff_of_false nofun (by omega)
  rw [if_neg hwrap']
  by_cases hshort' : input.length < start + 32 + length % 2 ^ 64
  · rw [if_pos hshort']
    exact iff_of_true ⟨[], rfl, fun h => absurd rfl h⟩ (by omega)
  rw [if_neg hshort']
  have hstring := isAbiString_iff hlen (not_le.mp hpos) (not_lt.mp hout.2) hoffset.symm hstart.symm
    hlength.symm (not_lt.mp hshort')
  have hne : (input.drop (start + 32)).take (length % 2 ^ 64) ≠ [] ↔ 0 < length % 2 ^ 64 := by
    rw [← List.length_pos_iff, List.length_take, List.length_drop]
    omega
  constructor
  · rintro ⟨str, hstr, himp⟩
    cases hstr
    exact ⟨by omega, fun _ => ⟨by omega, fun h _ => hstring.mp (himp (hne.mpr h))⟩⟩
  · rintro ⟨-, himp⟩
    refine ⟨_, rfl, fun h => hstring.mpr ?_⟩
    exact (himp (by omega)).2 (hne.mp h) (by omega)

/-- A string of three bytes, with the offset 32 and the length 3. -/
def sampleArgument : Bytes :=
  List.replicate 31 0 ++ [32] ++ List.replicate 31 0 ++ [3] ++ [97, 98, 99]

theorem decodeStringInput_iff_sample :
    sampleArgument.length < 2 ^ 63 ∧
    ((∃ str, decodeStringInput sampleArgument 0 = .ok str ∧
        (str ≠ [] → IsAbiString sampleArgument 0 str)) ↔ InRange sampleArgument 0) :=
  ⟨by decide, decodeStringInput_iff (by decide) 0⟩

/-- An offset near `2 ^ 64` panics, as does an index whose word ends at `2 ^ 64`; the
index `2 ^ 59` is taken for zero. -/
theorem decodeStringInput_out_of_range :
    decodeStringInput (List.replicate 32 255) 0 = .error .outOfRange ∧
    decodeStringInput sampleArgument (2 ^ 59 - 1) = .error .outOfRange ∧
    decodeStringInput sampleArgument (2 ^ 59) = .ok [97, 98, 99] ∧
    ¬ IsAbiString sampleArgument (2 ^ 59) [97, 98, 99] := by
  refine ⟨by decide +kernel, by decide +kernel, by decide +kernel, ?_⟩
  rintro ⟨pos, hpos, hword, -⟩
  have hidx : (2 ^ 59 : Int64).toInt = 2 ^ 59 := by decide +kernel
  have hlen : sampleArgument.length = 67 := by decide
  rw [hidx] at hpos
  omega

end MetaNode
