/-
Accounts (`pkg/state/account_state.go`, `smart_contract_state.go`).

An account holds its smart contract as a pointer.  Most of the code never
notices, so `AccountState` leaves open what stands for the smart contract: the
contract itself where its content matters, a reference where two accounts could
share one.  A `big.Int` is never changed in place and is its value; nor is the
map of a smart contract, which stands in the order in which it is walked.

A method that can fail returns its result together with the account it leaves.
-/
import MetaNode.PbState
import MetaNode.Transaction

namespace MetaNode

/-- `p_common.PublicKey` -/
abbrev BlsPublicKey := FixedBytes 48

/-- `copy` of the bytes of one slice over those of another. -/
def copySlice (dst src : Bytes) : Bytes := src.take dst.length ++ dst.drop src.length

theorem length_copySlice (dst src : Bytes) : (copySlice dst src).length = dst.length := by
  simp only [copySlice, List.length_append, List.length_take, List.length_drop]
  omega

theorem copySlice_of_length_eq {dst src : Bytes} (h : src.length = dst.length) :
    copySlice dst src = src := by
  rw [copySlice, List.take_of_length_le h.le, List.drop_eq_nil_of_le h.ge, List.append_nil]

theorem copySlice_nil (src : Bytes) : copySlice [] src = [] := by
  simp [copySlice]

def pubkeyFromBytes (b : Bytes) : BlsPublicKey :=
  ⟨copySlice (FixedBytes.zero 48).1 b, by rw [length_copySlice]; exact (FixedBytes.zero 48).2⟩

theorem pubkeyFromBytes_val (k : BlsPublicKey) : pubkeyFromBytes k.1 = k :=
  Subtype.ext (copySlice_of_length_eq (k.2.trans (FixedBytes.zero 48).2.symm))

/-- `pb.ACCOUNT_TYPE`: an enum may hold numbers it has no name for. -/
abbrev AccountType := Int32

def AccountType.regularAccount : AccountType := 0

def AccountType.readWriteStrict : AccountType := 1

/-! ### Smart contracts -/

structure SmartContractState where
  createPublicKey : BlsPublicKey
  storageAddress : Address
  codeHash : Hash
  storageRoot : Hash
  mapFullDbHash : Hash
  simpleDbHash : Hash
  logsHash : Hash
  trieDatabaseMap : Wire.ByteMap
  deriving DecidableEq

namespace SmartContractState

/-- `NewEmptySmartContractState` -/
def newEmpty : SmartContractState where
  createPublicKey := FixedBytes.zero 48
  storageAddress := FixedBytes.zero 20
  codeHash := FixedBytes.zero 32
  storageRoot := FixedBytes.zero 32
  mapFullDbHash := FixedBytes.zero 32
  simpleDbHash := FixedBytes.zero 32
  logsHash := FixedBytes.zero 32
  trieDatabaseMap := ∅

def proto (ss : SmartContractState) : Pb.SmartContractState where
  creatorPublicKey := ss.createPublicKey.1
  storageAddress := ss.storageAddress.1
  codeHash := ss.codeHash.1
  storageRoot := ss.storageRoot.1
  logsHash := ss.logsHash.1
  mapFullDbHash := ss.mapFullDbHash.1
  simpleDbHash := ss.simpleDbHash.1
  trieDatabaseMap := ss.trieDatabaseMap

/-- `FromProto`: every field is overwritten. -/
def fromProto (pbData : Pb.SmartContractState) : SmartContractState where
  createPublicKey := pubkeyFromBytes pbData.creatorPublicKey
  storageAddress := bytesToAddress pbData.storageAddress
  codeHash := bytesToHash pbData.codeHash
  storageRoot := bytesToHash pbData.storageRoot
  logsHash := bytesToHash pbData.logsHash
  mapFullDbHash := bytesToHash pbData.mapFullDbHash
  simpleDbHash := bytesToHash pbData.simpleDbHash
  trieDatabaseMap := pbData.trieDatabaseMap

/-- `Copy`: a new map is filled with the entries of the old one. -/
def copy (ss : SmartContractState) : SmartContractState :=
  { ss with trieDatabaseMap := Wire.ByteMap.insertAll ∅ ss.trieDatabaseMap.toList }

/-- All fields are equal, the map in whatever order. -/
def Same (ss ss' : SmartContractState) : Prop :=
  ss = { ss' with trieDatabaseMap := ss.trieDatabaseMap } ∧
    ss.trieDatabaseMap.Same ss'.trieDatabaseMap

theorem same_copy (ss : SmartContractState) : ss.copy.Same ss :=
  ⟨rfl, ss.trieDatabaseMap.same_insertAll⟩

end SmartContractState

/-! ### Accounts -/

structure AccountState (σ : Type) where
  address : Address
  lastHash : Hash
  balance : ℤ
  pendingBalance : ℤ
  deviceKey : Hash
  smartContractState : Option σ
  nonce : UInt64
  publicKeyBls : Bytes
  accountType : AccountType
  isDirty : Bool
  deriving DecidableEq

inductive AccountError where
  /-- `invalid sub pending amount` -/
  | invalidSubPendingAmount
  /-- `invalid sub balance amount` -/
  | invalidSubBalanceAmount
  /-- `invalid publicKeyBls length` -/
  | invalidPublicKeyBlsLength
  /-- `publicKeyBls is already set` -/
  | publicKeyBlsAlreadySet
  /-- `invalid account type` -/
  | invalidAccountType
  deriving DecidableEq

def newAccountState {σ : Type} (address : Address) : AccountState σ where
  address := address
  lastHash := FixedBytes.zero 32
  balance := 0
  pendingBalance := 0
  deviceKey := FixedBytes.zero 32
  smartContractState := none
  nonce := 0
  publicKeyBls := []
  accountType := .regularAccount
  isDirty := false

namespace AccountState

/-! ### The message of an account -/

section Proto

variable (E : Env) (as : AccountState SmartContractState)

def proto : Pb.AccountState where
  address := as.address.1
  lastHash := as.lastHash.1
  balance := bigBytes as.balance
  pendingBalance := bigBytes as.pendingBalance
  deviceKey := as.deviceKey.1
  nonce := putUint64 as.nonce
  publicKeyBls := as.publicKeyBls
  accountType := as.accountType
  smartContractState := as.smartContractState.map SmartContractState.proto

/-- `FromProto`: a message without a smart contract leaves the one that is
there. -/
def fromProto (pbData : Pb.AccountState) : AccountState SmartContractState :=
  { as with
    address := bytesToAddress pbData.address
    lastHash := bytesToHash pbData.lastHash
    balance := BigEndian.toNat pbData.balance
    pendingBalance := BigEndian.toNat pbData.pendingBalance
    deviceKey := bytesToHash pbData.deviceKey
    smartContractState :=
      match pbData.smartContractState with
      | some ss => some (SmartContractState.fromProto ss)
      | none => as.smartContractState
    nonce :=
      if pbData.nonce.length = 8 then UInt64.ofNat (BigEndian.toNat pbData.nonce) else 0
    publicKeyBls := pbData.publicKeyBls
    accountType := pbData.accountType }

def marshal : Option Bytes := as.proto.marshal E

/-- `Unmarshal` into this account; `none` for an error, which changes nothing. -/
def unmarshal (b : Bytes) : Option (AccountState SmartContractState) :=
  (Pb.AccountState.unmarshal E b).map as.fromProto

/-- All fields that `Proto` encodes are equal, the maps in whatever order. -/
def Same (as as' : AccountState SmartContractState) : Prop :=
  as = { as' with smartContractState := as.smartContractState, isDirty := as.isDirty } ∧
    Option.Rel SmartContractState.Same as.smartContractState as'.smartContractState

end Proto

/-! ### Getters and setters -/

section Setters

variable {σ : Type} (as : AccountState σ)

def totalBalance : ℤ := as.balance + as.pendingBalance

def setBalance (newBalance : ℤ) : AccountState σ := { as with balance := newBalance }

def setPendingBalance (newBalance : ℤ) : AccountState σ := { as with pendingBalance := newBalance }

def setNewDeviceKey (newDeviceKey : Hash) : AccountState σ := { as with deviceKey := newDeviceKey }

def setLastHash (newLastHash : Hash) : AccountState σ := { as with lastHash := newLastHash }

def setSmartContractState (smState : Option σ) : AccountState σ :=
  { as with smartContractState := smState }

variable (amount : ℤ)

def addPendingBalance : AccountState σ :=
  { as with pendingBalance := as.pendingBalance + amount }

def subPendingBalance : Except AccountError Unit × AccountState σ :=
  if amount > as.pendingBalance then (.error .invalidSubPendingAmount, as)
  else (.ok (), { as with pendingBalance := as.pendingBalance - amount })

def subBalance : Except AccountError Unit × AccountState σ :=
  if amount > as.balance then (.error .invalidSubBalanceAmount, as)
  else (.ok (), { as with balance := as.balance - amount })

/-- `SubTotalBalance`: what is pending becomes balance.  The error is that of
`SubBalance`. -/
def subTotalBalance : Except AccountError Unit × AccountState σ :=
  let totalBalance := as.pendingBalance + as.balance
  if amount > totalBalance then (.error .invalidSubBalanceAmount, as)
  else (.ok (), { as with pendingBalance := 0, balance := totalBalance - amount })

def addBalance : AccountState σ := { as with balance := as.balance + amount }

def markDirty : AccountState σ := { as with isDirty := true }

def setNonce (newNonce : UInt64) : AccountState σ := { as with nonce := newNonce }

def plusOneNonce : AccountState σ := { as with nonce := as.nonce + 1 }

/-- `SetPublicKeyBls`: a key is set once. -/
def setPublicKeyBls (publicKeyBls : Bytes) : Except AccountError Unit × AccountState σ :=
  if publicKeyBls.length ≠ 48 then (.error .invalidPublicKeyBlsLength, as)
  else if as.publicKeyBls.length = 0 then (.ok (), { as with publicKeyBls := publicKeyBls })
  else (.error .publicKeyBlsAlreadySet, as)

def setAccountType (accountTypeNew : AccountType) : Except AccountError Unit × AccountState σ :=
  if accountTypeNew = .readWriteStrict ∨ accountTypeNew = .regularAccount then
    (.ok (), { as with accountType := accountTypeNew })
  else (.error .invalidAccountType, as)

end Setters

end AccountState

end MetaNode
