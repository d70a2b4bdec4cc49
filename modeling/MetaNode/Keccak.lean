/-
Keccak-256, in the padding that precedes the SHA-3 standard.

The state is one number of 1600 bits: 25 lanes of 64 bits, the lane at column
`x` and row `y` at bit `64 (x + 5 y)`, so that a row is 320 bits wide.  All
steps but the lane rotations act on whole rows or on the whole state, which
keeps the function cheap to evaluate in proofs.
-/
import Mathlib.Algebra.Group.Nat.Defs

namespace Keccak

def rows (row : ℕ) : ℕ := row * (1 + 2 ^ 320 + 2 ^ 640 + 2 ^ 960 + 2 ^ 1280)

/-- Mixes the parities of the two neighbouring columns into every column. -/
def theta (s : ℕ) : ℕ :=
  let parity := (s ^^^ s >>> 320 ^^^ s >>> 640 ^^^ s >>> 960 ^^^ s >>> 1280) % 2 ^ 320
  let left := (parity <<< 64 ||| parity >>> 256) % 2 ^ 320
  let right := (parity >>> 64 ||| parity <<< 256) % 2 ^ 320
  -- every lane of `right` is rotated by one bit: `top` holds the bits that wrap
  let top := right >>> 63 &&& (1 + 2 ^ 64 + 2 ^ 128 + 2 ^ 192 + 2 ^ 256)
  s ^^^ rows (left ^^^ ((right ^^^ top <<< 63) <<< 1 ||| top))

def rotl (x n : ℕ) : ℕ := (x <<< n ||| x >>> (64 - n)) % 2 ^ 64

/-- For every lane of the result, in order: the lane it comes from and by how
many bits that lane is rotated. -/
def moves : List (ℕ × ℕ) :=
  [(0, 0), (6, 44), (12, 43), (18, 21), (24, 14), (3, 28), (9, 20), (10, 3), (16, 45), (22, 61),
    (1, 1), (7, 6), (13, 25), (19, 8), (20, 18), (4, 27), (5, 36), (11, 10), (17, 15), (23, 56),
    (2, 62), (8, 55), (14, 39), (15, 41), (21, 2)]

def rhoPi (s : ℕ) : List (ℕ × ℕ) → ℕ
  | [] => 0
  | (lane, n) :: rest => rotl ((s >>> (64 * lane)) % 2 ^ 64) n ||| rhoPi s rest <<< 64

/-- Combines every lane with the two lanes after it in its row. -/
def chi (s : ℕ) : ℕ :=
  let next := s >>> 64 &&& rows (2 ^ 256 - 1) ||| s <<< 256 &&& rows (2 ^ 320 - 2 ^ 256)
  let after := s >>> 128 &&& rows (2 ^ 192 - 1) ||| s <<< 192 &&& rows (2 ^ 320 - 2 ^ 192)
  s ^^^ after ^^^ (next &&& after)

def roundConstants : List ℕ :=
  [0x0000000000000001, 0x0000000000008082, 0x800000000000808A, 0x8000000080008000,
    0x000000000000808B, 0x0000000080000001, 0x8000000080008081, 0x8000000000008009,
    0x000000000000008A, 0x0000000000000088, 0x0000000080008009, 0x000000008000000A,
    0x000000008000808B, 0x800000000000008B, 0x8000000000008089, 0x8000000000008003,
    0x8000000000008002, 0x8000000000000080, 0x000000000000800A, 0x800000008000000A,
    0x8000000080008081, 0x8000000000008080, 0x0000000080000001, 0x8000000080008008]

def permute (s : ℕ) : ℕ :=
  roundConstants.foldl (fun s rc => chi (rhoPi (theta s) moves) ^^^ rc) s

def rate : ℕ := 136

def pad (msg : List UInt8) : List UInt8 :=
  let q := rate - msg.length % rate
  if q = 1 then msg ++ [0x81] else msg ++ 0x01 :: List.replicate (q - 2) 0 ++ [0x80]

/-- The number whose little-endian bytes are `b`. -/
def ofBytes : List UInt8 → ℕ
  | [] => 0
  | x :: b => x.toNat + 256 * ofBytes b

/-- The first `n` little-endian bytes of a number. -/
def toBytes : ℕ → ℕ → List UInt8
  | 0, _ => []
  | n + 1, x => UInt8.ofNat (x % 256) :: toBytes n (x / 256)

def absorb : ℕ → ℕ → List UInt8 → ℕ
  | 0, s, _ => s
  | n + 1, s, msg => absorb n (permute (s ^^^ ofBytes (msg.take rate))) (msg.drop rate)

def hash (msg : List UInt8) : List UInt8 :=
  toBytes 32 (absorb ((pad msg).length / rate) 0 (pad msg))

theorem length_toBytes (n x : ℕ) : (toBytes n x).length = n := by
  induction n generalizing x with
  | zero => rfl
  | succ n ih => rw [toBytes, List.length_cons, ih]

theorem length_hash (msg : List UInt8) : (hash msg).length = 32 := length_toBytes 32 _

end Keccak
