/-
Addresses and bytes as text (`FromHex` and `HexToAddress` of `go-ethereum/common`).

Digits are read in either case, up to the first pair that is none.  The plain digits of
`hex.EncodeToString` are read back (`hexToAddress_hexEncode`).
-/
import MetaNode.EthTypes

namespace MetaNode

def hexValue (c : UInt8) : Option ℕ :=
  if 48 ≤ c ∧ c ≤ 57 then some (c.toNat - 48)
  else if 97 ≤ c ∧ c ≤ 102 then some (c.toNat - 87)
  else if 65 ≤ c ∧ c ≤ 70 then some (c.toNat - 55)
  else none

/-- `hex.DecodeString`, of which only the bytes are used: those before an error. -/
def hexDecode : Bytes → Bytes
  | a :: b :: rest =>
    match hexValue a, hexValue b with
    | some x, some y => UInt8.ofNat (16 * x + y) :: hexDecode rest
    | _, _ => []
  | _ => []

/-- `common.FromHex` -/
def fromHex (s : Bytes) : Bytes :=
  let s := if s.take 2 = [48, 120] ∨ s.take 2 = [48, 88] then s.drop 2 else s
  hexDecode (if s.length % 2 = 1 then 48 :: s else s)

/-- `common.HexToAddress` -/
def hexToAddress (s : Bytes) : Address := bytesToAddress (fromHex s)

theorem length_hexEncode (b : Bytes) : (hexEncode b).length = 2 * b.length := by
  induction b with
  | nil => rfl
  | cons x xs ih =>
    rw [hexEncode, List.length_cons, List.length_cons, ih, List.length_cons]
    omega

theorem hexDecode_hexEncode (b : Bytes) : hexDecode (hexEncode b) = b := by
  have hdigit : ∀ n : Fin 16, hexValue (hexDigit n) = some n.1 := by decide
  induction b with
  | nil => rfl
  | cons x xs ih =>
    have hx := x.toNat_lt
    have hbyte : 16 * (x.toNat / 16) + x.toNat % 16 = x.toNat := by omega
    rw [hexEncode, hexDecode, hdigit ⟨x.toNat / 16, by omega⟩, hdigit ⟨x.toNat % 16, by omega⟩, ih]
    simp [hbyte]

/-- Digits without the prefix are read back: they do not begin like it, as `x` is no digit. -/
theorem fromHex_hexEncode (b : Bytes) : fromHex (hexEncode b) = b := by
  have hpre : ¬ ((hexEncode b).take 2 = [48, 120] ∨ (hexEncode b).take 2 = [48, 88]) := by
    have hx : ∀ n : Fin 16, hexDigit n ≠ 120 ∧ hexDigit n ≠ 88 := by decide
    cases b with
    | nil => simp [hexEncode]
    | cons y ys =>
      have hy := hx ⟨y.toNat % 16, by omega⟩
      simp [hexEncode, hy.1, hy.2]
  rw [fromHex, if_neg hpre]
  simp only [length_hexEncode]
  rw [if_neg (by omega), hexDecode_hexEncode]

theorem hexToAddress_hexEncode (a : Address) : hexToAddress (hexEncode a.1) = a := by
  rw [hexToAddress, fromHex_hexEncode]
  exact FixedBytes.ofBytes_val a

theorem fromHex_append {s : Bytes} (h : s.length % 2 = 0) :
    fromHex ([48, 120] ++ s) = hexDecode s := by
  have htake : ([48, 120] ++ s).take 2 = [48, 120] := rfl
  have hdrop : ([48, 120] ++ s).drop 2 = s := rfl
  simp only [fromHex, htake, hdrop, true_or, if_true]
  rw [if_neg (by omega)]

/-! ### The characters -/

theorem ascii_hexEncode (b : Bytes) : ∀ c ∈ hexEncode b, c < 0x80 := by
  have hdigit : ∀ n : Fin 16, hexDigit n < 0x80 := by decide
  induction b with
  | nil => exact List.forall_mem_nil _
  | cons x xs ih =>
    have hx := x.toNat_lt
    rw [hexEncode, List.forall_mem_cons, List.forall_mem_cons]
    exact ⟨hdigit ⟨x.toNat / 16, by omega⟩, hdigit ⟨x.toNat % 16, by omega⟩, ih⟩

end MetaNode
