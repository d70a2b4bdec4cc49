/-
Strings as the arguments of a contract call (`pkg/smart_contract/argument_encode`).

There are two encoders.  `EncodeSingleString` fills three parts of a buffer, whose size it
computes with floating point numbers; `EncodeStringInput` writes the offset and the length
with their leading zeros cut off, to the left of their words.
-/
import MetaNode.ArgumentDecode
import MetaNode.Receipt

/-! ### Rounding -/

namespace Binary64

/-- The natural number that a `float64` has for `n`: 53 bits, to the nearest, and to the even
one of two. -/
def round (n : ℕ) : ℕ :=
  let unit := 2 ^ (n.log2 - 52)
  if unit < 2 * (n % unit) ∨ (unit = 2 * (n % unit) ∧ n / unit % 2 = 1) then (n / unit + 1) * unit
  else n / unit * unit

theorem round_of_dvd {n k : ℕ} (hdvd : 2 ^ k ∣ n) (hlt : n < 2 ^ (53 + k)) : round n = n := by
  have hlog : n.log2 - 52 ≤ k := by
    by_cases hn : n = 0
    · subst hn
      simp
    · have h := (Nat.log2_lt hn).mpr hlt
      omega
  have hunit : 2 ^ (n.log2 - 52) ∣ n := (Nat.pow_dvd_pow 2 hlog).trans hdvd
  have hpos : 0 < 2 ^ (n.log2 - 52) := Nat.two_pow_pos _
  rw [round, Nat.mod_eq_zero_of_dvd hunit, if_neg (by omega), Nat.div_mul_cancel hunit]

theorem le_round {n k : ℕ} (h : 2 ^ k ≤ n) : 2 ^ k ≤ round n := by
  have hn : n ≠ 0 := by
    have := Nat.two_pow_pos k
    omega
  have hlow : 2 ^ n.log2 ≤ n / 2 ^ (n.log2 - 52) * 2 ^ (n.log2 - 52) := by
    have hsplit : 2 ^ n.log2 = 2 ^ (n.log2 - (n.log2 - 52)) * 2 ^ (n.log2 - 52) := by
      rw [← Nat.pow_add]
      congr 1
      omega
    rw [hsplit]
    refine Nat.mul_le_mul_right _ ?_
    rw [Nat.le_div_iff_mul_le (Nat.two_pow_pos _), ← hsplit]
    exact Nat.log2_self_le hn
  have hlog : 2 ^ k ≤ 2 ^ n.log2 := Nat.pow_le_pow_right (by decide) ((Nat.le_log2 hn).mpr h)
  rw [round]
  split
  · exact (hlog.trans hlow).trans (Nat.mul_le_mul_right _ (Nat.le_succ _))
  · exact hlog.trans hlow

end Binary64

namespace MetaNode.ArgumentEncode

/-- `EncodeSingleString`.  Division by 32, `Ceil` and multiplication by 32 are exact for a
`float64`; the conversion of the length and the sum are rounded. -/
def encodeSingleString (input : Bytes) : Bytes :=
  let start := BigEndian.fixed 32 32
  let length := BigEndian.fixed 32 input.length
  let allocateLen := (Binary64.round input.length + 31) / 32 * 32
  let size := Binary64.round (64 + allocateLen)
  let rs : Bytes := List.replicate size 0
  let rs := copyInto rs 0 size start
  let rs := copyInto rs 32 size length
  copyInto rs 64 size input

/-! ### Filling a buffer -/

variable (filled : Bytes) {n : ℕ}

theorem copyInto_zeros {room : ℕ} {src : Bytes} (h : src.length ≤ room) :
    copyInto (filled ++ List.replicate n 0) filled.length (filled.length + room) src
      = filled ++ src ++ List.replicate (n - src.length) 0 := by
  rw [copyInto, List.take_left, Nat.add_sub_cancel_left, List.take_of_length_le h,
    Nat.min_eq_left h, List.drop_append, List.drop_replicate, Nat.add_sub_cancel_left,
    List.drop_of_length_le (Nat.le_add_right _ _), List.nil_append]

theorem head?_copyInto {dst : Bytes} {x : UInt8} (h : dst.head? = some x) {lo : ℕ} (hlo : 0 < lo)
    (hi : ℕ) (src : Bytes) : (copyInto dst lo hi src).head? = some x := by
  cases dst with
  | nil => cases h
  | cons =>
    cases lo with
    | zero => cases hlo
    | succ =>
      rw [copyInto, List.take_succ_cons]
      exact h

/-- The argument data of one string: an offset, a length and the string, filled up with zeros
to a whole word. -/
def abiString (str : Bytes) : Bytes :=
  BigEndian.fixed 32 32 ++ BigEndian.fixed 32 str.length ++ str
    ++ List.replicate ((str.length + 31) / 32 * 32 - str.length) 0

theorem round_size (h : n < 2 ^ 53) :
    Binary64.round (64 + (Binary64.round n + 31) / 32 * 32) = 64 + (n + 31) / 32 * 32 := by
  have hn : Binary64.round n = n := Binary64.round_of_dvd (k := 0) (one_dvd n) (by simpa using h)
  have hdvd : 2 ^ 5 ∣ 64 + (n + 31) / 32 * 32 := by omega
  rw [hn]
  exact Binary64.round_of_dvd hdvd (by omega)

/-- **`EncodeSingleString` returns the argument data of the string.** -/
theorem encodeSingleString_eq {str : Bytes} (h : str.length < 2 ^ 53) :
    encodeSingleString str = abiString str := by
  set room := (str.length + 31) / 32 * 32 with hroom
  set start := BigEndian.fixed 32 32 with hstart
  set length := BigEndian.fixed 32 str.length with hlength
  have hle : str.length ≤ room := by omega
  have hlens : start.length = 32 := BigEndian.length_fixed 32 32
  have hlenl : length.length = 32 := BigEndian.length_fixed 32 str.length
  have hwords : (start ++ length).length = 64 := by rw [List.length_append, hlens, hlenl]
  have hfirst : copyInto (List.replicate (64 + room) 0) 0 (64 + room) start
      = start ++ List.replicate (32 + room) 0 := by
    have hfits : start.length ≤ 64 + room := by omega
    have hcopy := copyInto_zeros [] (n := 64 + room) hfits
    rw [List.nil_append, List.nil_append, List.length_nil, Nat.zero_add, hlens] at hcopy
    have hrest : 64 + room - 32 = 32 + room := by omega
    rw [hcopy, hrest]
  have hsecond : copyInto (start ++ List.replicate (32 + room) 0) 32 (64 + room) length
      = start ++ length ++ List.replicate room 0 := by
    have hfits : length.length ≤ 32 + room := by omega
    have hcopy := copyInto_zeros start (n := 32 + room) hfits
    rw [hlens, hlenl, Nat.add_sub_cancel_left, ← Nat.add_assoc] at hcopy
    exact hcopy
  have hthird : copyInto (start ++ length ++ List.replicate room 0) 64 (64 + room) str
      = abiString str := by
    have hcopy := copyInto_zeros (start ++ length) (n := room) hle
    rw [hwords] at hcopy
    exact hcopy
  rw [encodeSingleString, round_size h]
  show copyInto (copyInto (copyInto (List.replicate (64 + room) 0) 0 (64 + room) start) 32
    (64 + room) length) 64 (64 + room) str = abiString str
  rw [hfirst, hsecond, hthird]

/-! ### Reading the string back -/

theorem wordAt_append {filled word rest : Bytes} (hword : word.length = 32) :
    wordAt (filled ++ word ++ rest) filled.length = BigEndian.toNat word := by
  rw [wordAt, List.append_assoc, List.drop_left, ← hword, List.take_left]

theorem wordAt_fixed (rest : Bytes) (h : n < 2 ^ 256) :
    wordAt (filled ++ BigEndian.fixed 32 n ++ rest) filled.length = n := by
  rw [wordAt_append (BigEndian.length_fixed 32 n), BigEndian.toNat_fixed]
  exact Nat.mod_eq_of_lt (h.trans_eq (by norm_num))

variable (str : Bytes)

theorem length_abiString : (abiString str).length = 64 + (str.length + 31) / 32 * 32 := by
  have hle : str.length ≤ (str.length + 31) / 32 * 32 := by omega
  rw [abiString, List.length_append, List.length_append, List.length_append,
    BigEndian.length_fixed, BigEndian.length_fixed, List.length_replicate]
  omega

theorem wordAt_abiString : wordAt (abiString str) 0 = 32 := by
  have h := wordAt_fixed [] (BigEndian.fixed 32 str.length ++ str
    ++ List.replicate ((str.length + 31) / 32 * 32 - str.length) 0) (n := 32) (by decide)
  rw [List.nil_append, List.length_nil] at h
  rw [abiString, List.append_assoc, List.append_assoc, ← List.append_assoc _ str]
  exact h

theorem wordAt_abiString_length {str : Bytes} (h : str.length < 2 ^ 53) :
    wordAt (abiString str) 32 = str.length := by
  have hword := wordAt_fixed (BigEndian.fixed 32 32)
    (str ++ List.replicate ((str.length + 31) / 32 * 32 - str.length) 0) (n := str.length)
    (by omega)
  rw [BigEndian.length_fixed] at hword
  rw [abiString, List.append_assoc]
  exact hword

theorem drop_take_abiString : ((abiString str).drop 64).take str.length = str := by
  have hwords : (BigEndian.fixed 32 32 ++ BigEndian.fixed 32 str.length).length = 64 := by
    rw [List.length_append, BigEndian.length_fixed, BigEndian.length_fixed]
  rw [abiString, List.append_assoc, ← hwords, List.drop_left, List.take_left]

theorem decodeStringInput_abiString {str : Bytes} (h : str.length < 2 ^ 53) :
    decodeStringInput (abiString str) 0 = .ok str := by
  have hlen := length_abiString str
  have hend : wordEnd 0 = 32 := by decide
  have hstart : (UInt64.ofNat 32).toNat = 32 := rfl
  have hsmall : (abiString str).length < 2 ^ 63 := by omega
  rw [decodeStringInput_eq hsmall, hend, if_neg (by simp; omega), if_neg (by decide)]
  show decodeStringAt (abiString str) (UInt64.ofNat (wordAt (abiString str) 0)) = _
  rw [wordAt_abiString, decodeStringAt_eq hsmall (by omega), hstart, wordAt_abiString_length h]
  dsimp only
  rw [Nat.mod_eq_of_lt (by omega), if_neg (by omega), if_neg (by omega), if_neg (by omega),
    if_neg (by omega), drop_take_abiString]

/-- **A string that `EncodeSingleString` has encoded is decoded to itself.** -/
theorem decodeStringInput_encodeSingleString (str : Bytes) (h : str.length < 2 ^ 53) :
    decodeStringInput (encodeSingleString str) 0 = .ok str := by
  rw [encodeSingleString_eq h, decodeStringInput_abiString h]

theorem decodeStringInput_encodeSingleString_abc :
    decodeStringInput (encodeSingleString [97, 98, 99]) 0 = .ok [97, 98, 99] :=
  decodeStringInput_encodeSingleString [97, 98, 99] (by decide)

/-! ### The other encoder -/

theorem head?_encodeSingleString : (encodeSingleString str).head? = some 0 := by
  set size := Binary64.round (64 + (Binary64.round str.length + 31) / 32 * 32) with hsize
  have hle : 2 ^ 6 ≤ size := Binary64.le_round (by omega)
  have hfirst :
      (copyInto (List.replicate size 0) 0 size (BigEndian.fixed 32 32)).head? = some 0 := by
    have hword : (BigEndian.fixed 32 32).length ≤ size := by
      rw [BigEndian.length_fixed]
      omega
    have hcopy := copyInto_zeros [] (n := size) hword
    rw [List.nil_append, List.nil_append, List.length_nil, Nat.zero_add] at hcopy
    rw [hcopy]
    rfl
  exact head?_copyInto (head?_copyInto hfirst (by decide) size _) (by decide) size str

theorem head?_encodeStringInput : (encodeStringInput str).head? = some 32 := by
  have hoffset : BigEndian.ofNat 32 = [32] := by decide
  have hfirst : (copyInto (List.replicate (32 + 32 + str.length) 0) 0 32
      (BigEndian.ofNat 32)).head? = some 32 := by
    rw [hoffset]
    rfl
  have hfilled := head?_copyInto (head?_copyInto hfirst (by decide : 0 < 32) (32 + 32)
    (BigEndian.ofNat str.length)) (by decide : 0 < 32 + 32) (32 + 32 + str.length) str
  rw [encodeStringInput]
  split
  · exact head?_copyInto hfilled (by omega) _ _
  · exact hfilled

/-- **The two encoders return different bytes for every string**: the first byte is that of
the offset in the one, and a leading zero in the other. -/
theorem encodeStringInput_ne (str : Bytes) : encodeStringInput str ≠ encodeSingleString str := by
  intro heq
  have hhead := head?_encodeStringInput str
  rw [heq, head?_encodeSingleString] at hhead
  cases hhead

def haltedText : Bytes := asciiBytes "transaction halted"

/-- The return data begins with 32 and has 82 bytes; the argument data of its text begins with
a zero and has 96. -/
theorem encodeStringInput_halted :
    encodeStringInput haltedText ≠ encodeSingleString haltedText ∧
    (encodeStringInput haltedText).head? = some 32 ∧
    (encodeSingleString haltedText).head? = some 0 ∧
    (encodeStringInput haltedText).length = 82 ∧ (encodeSingleString haltedText).length = 96 := by
  decide +kernel

end MetaNode.ArgumentEncode
