/-
Byte strings, fixed-size byte arrays and hexadecimal text.

`Hash` is `common.Hash` (a `[32]byte`), `bytesToHash` the conversion from a
slice: a longer slice loses bytes on the left, a shorter one is padded there.
Text is kept as the bytes of its ASCII characters.
-/
import Mathlib.Data.List.Basic

namespace MetaNode

abbrev Bytes := List UInt8

/-- How a read ends that does not find what it wants. -/
inductive ReadError where
  /-- `io.EOF` -/
  | eof
  /-- `io.ErrUnexpectedEOF` -/
  | unexpectedEOF
  deriving DecidableEq

/-- A slice of the source that is nil exactly when it is empty. -/
def nilIfEmpty (b : Bytes) : Option Bytes := if b = [] then none else some b

theorem nilIfEmpty_of_ne {b : Bytes} (h : b ≠ []) : nilIfEmpty b = some b := if_neg h

theorem nilIfEmpty_injective : Function.Injective nilIfEmpty := by
  intro a b h
  cases a <;> cases b <;> simp_all [nilIfEmpty]

abbrev FixedBytes (n : ℕ) := {b : Bytes // b.length = n}

/-- `SetBytes` of `common.Hash` and `common.Address`. -/
def FixedBytes.ofBytes (n : ℕ) (b : Bytes) : FixedBytes n :=
  ⟨List.replicate (n - b.length) 0 ++ b.drop (b.length - n), by
    rw [List.length_append, List.length_replicate, List.length_drop]
    omega⟩

theorem FixedBytes.ofBytes_val {n : ℕ} (b : FixedBytes n) : ofBytes n b.1 = b := by
  obtain ⟨b, rfl⟩ := b
  simp [ofBytes]

def FixedBytes.zero (n : ℕ) : FixedBytes n := ⟨List.replicate n 0, List.length_replicate⟩

abbrev Hash := FixedBytes 32

abbrev bytesToHash : Bytes → Hash := FixedBytes.ofBytes 32

theorem bytesToHash_val (h : Hash) : bytesToHash h.1 = h := FixedBytes.ofBytes_val h

def hexDigit (n : ℕ) : UInt8 := UInt8.ofNat (if n < 10 then 48 + n else 87 + n)

/-- `hex.EncodeToString`. -/
def hexEncode : Bytes → Bytes
  | [] => []
  | b :: bs => hexDigit (b.toNat / 16) :: hexDigit (b.toNat % 16) :: hexEncode bs

theorem hexDigit_inj {m n : ℕ} (hm : m < 16) (hn : n < 16) (h : hexDigit m = hexDigit n) :
    m = n := by
  have h' := congrArg UInt8.toNat h
  simp only [hexDigit, UInt8.toNat_ofNat'] at h'
  split at h' <;> split at h' <;> omega

theorem hexEncode_append (a b : Bytes) : hexEncode (a ++ b) = hexEncode a ++ hexEncode b := by
  induction a with
  | nil => rfl
  | cons x a ih =>
    rw [List.cons_append, hexEncode, hexEncode, ih, List.cons_append, List.cons_append]

theorem hexEncode_injective : Function.Injective hexEncode := by
  intro a
  induction a with
  | nil =>
    intro b h
    cases b with
    | nil => rfl
    | cons => simp [hexEncode] at h
  | cons x xs ih =>
    intro b h
    cases b with
    | nil => simp [hexEncode] at h
    | cons y ys =>
      simp only [hexEncode, List.cons.injEq] at h
      have hx := x.toNat_lt
      have hy := y.toNat_lt
      have h1 := hexDigit_inj (by omega) (by omega) h.1
      have h2 := hexDigit_inj (by omega) (by omega) h.2.1
      have hxy : x = y := UInt8.toNat_inj.mp (by omega)
      rw [hxy, ih h.2.2]

end MetaNode
