/-
Numbers as big-endian byte strings.

`ofNat` is the shortest string for a number (`Bytes` of `math/big`), `fixed` the
one of a given length (`PutUint64` of `encoding/binary` for length 8), and
`toNat` reads both (`SetBytes`, `Uint64`).  `LittleEndian` has the bytes the other
way round.
-/
import Mathlib.Data.List.Induction
import Mathlib.Data.Nat.Digits.Lemmas

namespace BigEndian

def toNat (b : List UInt8) : ℕ := Nat.ofDigits 256 (b.reverse.map UInt8.toNat)

/-- The shortest string: it has no leading zero, and zero is the empty string. -/
def ofNat (n : ℕ) : List UInt8 := ((Nat.digits 256 n).map UInt8.ofNat).reverse

/-- The last `len` bytes. -/
def fixed : ℕ → ℕ → List UInt8
  | 0, _ => []
  | len + 1, n => fixed len (n / 256) ++ [UInt8.ofNat n]

@[simp] theorem toNat_nil : toNat [] = 0 := rfl

theorem toNat_concat (b : List UInt8) (x : UInt8) :
    toNat (b ++ [x]) = x.toNat + 256 * toNat b := by
  rw [toNat, List.reverse_append, List.reverse_singleton, List.singleton_append, List.map_cons,
    Nat.ofDigits_cons]
  rfl

@[simp] theorem toNat_ofNat (n : ℕ) : toNat (ofNat n) = n := by
  have hdigits : ((Nat.digits 256 n).map UInt8.ofNat).map UInt8.toNat = Nat.digits 256 n := by
    rw [List.map_map, List.map_congr_left (g := id) ?_, List.map_id]
    intro d hd
    have hlt : d < 256 := Nat.digits_lt_base (by decide) hd
    show (UInt8.ofNat d).toNat = d
    rw [UInt8.toNat_ofNat']
    omega
  rw [toNat, ofNat, List.reverse_reverse, hdigits, Nat.ofDigits_digits]

theorem ofNat_eq_nil {n : ℕ} : ofNat n = [] ↔ n = 0 := by
  rw [ofNat, List.reverse_eq_nil_iff, List.map_eq_nil_iff, Nat.digits_eq_nil_iff_eq_zero]

theorem length_ofNat_le_iff {n k : ℕ} : (ofNat n).length ≤ k ↔ n < 256 ^ k := by
  rw [ofNat, List.length_reverse, List.length_map, Nat.digits_length_le_iff (by decide)]

theorem length_ofNat_eq_iff {n k : ℕ} :
    (ofNat n).length = k + 1 ↔ 256 ^ k ≤ n ∧ n < 256 ^ (k + 1) := by
  rw [← length_ofNat_le_iff, ← not_lt, ← length_ofNat_le_iff]
  omega

@[simp] theorem length_fixed (len n : ℕ) : (fixed len n).length = len := by
  induction len generalizing n with
  | zero => rfl
  | succ len ih => rw [fixed, List.length_append, ih, List.length_singleton]

theorem toNat_fixed (len n : ℕ) : toNat (fixed len n) = n % 256 ^ len := by
  induction len generalizing n with
  | zero => rw [fixed, toNat_nil, pow_zero, Nat.mod_one]
  | succ len ih =>
    have hbyte : (UInt8.ofNat n).toNat = n % 256 := UInt8.toNat_ofNat'
    rw [fixed, toNat_concat, ih, hbyte, pow_succ', Nat.mod_mul]

theorem fixed_toNat (b : List UInt8) : fixed b.length (toNat b) = b := by
  induction b using List.reverseRecOn with
  | nil => rfl
  | append_singleton b x ih =>
    have hlt := x.toNat_lt
    have hdiv : (x.toNat + 256 * toNat b) / 256 = toNat b := by omega
    have hbyte : UInt8.ofNat (x.toNat + 256 * toNat b) = x := by
      rw [← UInt8.toNat_inj, UInt8.toNat_ofNat']
      omega
    rw [List.length_append, List.length_singleton, fixed, toNat_concat, hdiv, hbyte, ih]

theorem ofNat_eq_fixed_iff {len n : ℕ} : ofNat n = fixed len n ↔ (ofNat n).length = len := by
  constructor
  · intro h
    rw [h, length_fixed]
  · intro h
    have hfixed := fixed_toNat (ofNat n)
    rw [h, toNat_ofNat] at hfixed
    exact hfixed.symm

end BigEndian

namespace LittleEndian

/-- The number a byte string stands for, its first byte being the lowest. -/
def toNat (b : List UInt8) : ℕ := BigEndian.toNat b.reverse

/-- The lowest `len` bytes. -/
def fixed (len n : ℕ) : List UInt8 := (BigEndian.fixed len n).reverse

@[simp] theorem length_fixed (len n : ℕ) : (fixed len n).length = len := by
  rw [fixed, List.length_reverse, BigEndian.length_fixed]

theorem toNat_fixed (len n : ℕ) : toNat (fixed len n) = n % 256 ^ len := by
  rw [toNat, fixed, List.reverse_reverse, BigEndian.toNat_fixed]

end LittleEndian
