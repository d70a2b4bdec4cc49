/-
Ethereum transactions (`core/types` of go-ethereum), as far as the conversion of
`pkg/transaction` sees them.

The accessors of a transaction never return nil for a number, and a nil byte
slice or access list hashes like an empty one, so numbers are natural numbers
and slices are lists.  `deriveChainId` is what `ChainId` returns for a legacy
transaction.
-/
import Mathlib.Algebra.Group.Nat.Defs
import MetaNode.Bytes

namespace MetaNode

abbrev Address := FixedBytes 20

abbrev bytesToAddress : Bytes → Address := FixedBytes.ofBytes 20

structure AccessTuple where
  address : Address
  storageKeys : List Hash
  deriving DecidableEq

/-- The fields that all types of transactions have; `recipient` (`To`)
is nil for the creation of a contract. -/
structure TxFields where
  nonce : UInt64
  gas : UInt64
  recipient : Option Address
  value : ℕ
  data : Bytes
  v : ℕ
  r : ℕ
  s : ℕ
  deriving DecidableEq

/-- A transaction; `unsupported` stands for the types above 2. -/
inductive EthTx where
  | legacy (tx : TxFields) (gasPrice : ℕ)
  | accessList (tx : TxFields) (chainID gasPrice : ℕ) (accessList : List AccessTuple)
  | dynamicFee (tx : TxFields) (chainID gasTipCap gasFeeCap : ℕ) (accessList : List AccessTuple)
  | unsupported
  deriving DecidableEq

/-- The chain id in the `v` of a signature: 27 and 28 carry none.  A `v` of at
most 64 bits is computed with in 64 bits. -/
def deriveChainId (v : ℕ) : ℕ :=
  if v < 2 ^ 64 then
    if v = 27 ∨ v = 28 then 0 else (v + (2 ^ 64 - 35)) % 2 ^ 64 / 2
  else (v - 35) / 2

inductive Signer where
  | homestead
  | eip155 (chainID : ℕ)
  | london (chainID : ℕ)
  deriving DecidableEq

/-- `types.Sender`: the address that signed a transaction, or none if the
signature is not valid. -/
abbrev Sender := Signer → EthTx → Option Address

end MetaNode
