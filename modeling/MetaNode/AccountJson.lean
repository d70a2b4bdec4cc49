/-
An account through its JSON form (`JsonAccountState`, `pkg/state/account_state.go`, and
`JsonSmartContractState`, `smart_contract_state.go`).

Addresses, hashes and keys are written in hexadecimal, the balances in decimal.  The JSON
text itself is taken as faithful: what is decoded is what was encoded, with the map in
whatever order.  `JsonSmartContractState` has no field for `simpleDbHash`, which comes back
as zero.
-/
import MetaNode.AccountState
import MetaNode.AddressHex

namespace MetaNode

/-! ### Numbers in decimal -/

def decimalDigit (d : ℕ) : UInt8 := UInt8.ofNat (48 + d)

def decimalNat (n : ℕ) : Bytes :=
  if n = 0 then [48] else ((Nat.digits 10 n).map decimalDigit).reverse

/-- `big.Int.String` -/
def decimal (x : ℤ) : Bytes := if x < 0 then 45 :: decimalNat x.natAbs else decimalNat x.natAbs

/-- The digits of a number, of which there is at least one. -/
def parseDecimal (s : Bytes) : Option ℕ :=
  if s ≠ [] ∧ s.all fun c => 48 ≤ c && c ≤ 57 then
    some (Nat.ofDigits 10 (s.reverse.map fun c => c.toNat - 48))
  else none

/-- `big.Int.SetString` with base 10. -/
def setString : Bytes → Option ℤ
  | [] => none
  | c :: s =>
    if c = 45 then (parseDecimal s).map fun n : ℕ => -(n : ℤ)
    else if c = 43 then (parseDecimal s).map fun n : ℕ => (n : ℤ)
    else (parseDecimal (c :: s)).map fun n : ℕ => (n : ℤ)

theorem decimalDigit_toNat {d : ℕ} (h : d < 10) : (decimalDigit d).toNat = 48 + d := by
  rw [decimalDigit, UInt8.toNat_ofNat']
  omega

theorem decimalNat_ne_nil (n : ℕ) : decimalNat n ≠ [] := by
  rw [decimalNat]
  split
  · simp
  · rename_i hn
    simpa [Nat.digits_eq_nil_iff_eq_zero] using hn

theorem decimalNat_digits (n : ℕ) : ∀ c ∈ decimalNat n, 48 ≤ c ∧ c ≤ 57 := by
  intro c hc
  rw [decimalNat] at hc
  split at hc
  · rw [List.mem_singleton] at hc
    rw [hc]
    decide
  · rw [List.mem_reverse, List.mem_map] at hc
    obtain ⟨d, hd, rfl⟩ := hc
    have hlt : d < 10 := Nat.digits_lt_base (by decide) hd
    rw [UInt8.le_iff_toNat_le, UInt8.le_iff_toNat_le, decimalDigit_toNat hlt]
    show 48 ≤ 48 + d ∧ 48 + d ≤ 57
    omega

theorem parseDecimal_decimalNat (n : ℕ) : parseDecimal (decimalNat n) = some n := by
  have hall : (decimalNat n).all fun c => 48 ≤ c && c ≤ 57 := by
    rw [List.all_eq_true]
    intro c hc
    simpa using decimalNat_digits n c hc
  rw [parseDecimal, if_pos ⟨decimalNat_ne_nil n, hall⟩, decimalNat]
  split
  · rename_i hn
    rw [hn]
    rfl
  · have hdigits : ((Nat.digits 10 n).map decimalDigit).map (fun c => c.toNat - 48) =
        Nat.digits 10 n := by
      rw [List.map_map, List.map_congr_left (g := id) ?_, List.map_id]
      intro d hd
      show (decimalDigit d).toNat - 48 = d
      rw [decimalDigit_toNat (Nat.digits_lt_base (by decide) hd)]
      omega
    rw [List.reverse_reverse, hdigits, Nat.ofDigits_digits]

/-- **A number in decimal is read back.** -/
theorem setString_decimal (x : ℤ) : setString (decimal x) = some x := by
  rw [decimal]
  split
  · rename_i hneg
    rw [setString, if_pos rfl, parseDecimal_decimalNat, Option.map_some]
    congr 1
    omega
  · rename_i hnonneg
    have hparse := parseDecimal_decimalNat x.natAbs
    have hdigits := decimalNat_digits x.natAbs
    cases hs : decimalNat x.natAbs with
    | nil => exact absurd hs (decimalNat_ne_nil _)
    | cons c s =>
      rw [hs] at hparse hdigits
      -- The first digit is no sign.
      have hc := (hdigits c List.mem_cons_self).1
      have hminus : c ≠ 45 := by
        rintro rfl
        exact absurd hc (by decide)
      have hplus : c ≠ 43 := by
        rintro rfl
        exact absurd hc (by decide)
      rw [setString, if_neg hminus, if_neg hplus, hparse, Option.map_some]
      congr 1
      omega

/-! ### Hashes in hexadecimal -/

/-- `Hash.Hex` -/
def Hash.hex (h : Hash) : Bytes := [48, 120] ++ hexEncode h.1

/-- `common.HexToHash` -/
def hexToHash (s : Bytes) : Hash := bytesToHash (fromHex s)

theorem hexToHash_hex (h : Hash) : hexToHash h.hex = h := by
  rw [hexToHash, Hash.hex, fromHex_append (by rw [length_hexEncode]; omega), hexDecode_hexEncode]
  exact FixedBytes.ofBytes_val h

/-! ### The JSON form -/

structure JsonSmartContractState where
  creatorPublicKey : Bytes
  storageAddress : Bytes
  codeHash : Bytes
  storageRoot : Bytes
  logsHash : Bytes
  mapFullDbHash : Bytes
  trieDatabaseMap : Wire.ByteMap

structure JsonAccountState where
  address : Bytes
  balance : Bytes
  pendingBalance : Bytes
  lastHash : Bytes
  deviceKey : Bytes
  smartContractState : Option JsonSmartContractState
  nonce : UInt64
  publicKeyBls : Bytes
  accountType : Int32

def JsonSmartContractState.fromSmartContractState (E : Env) (ss : SmartContractState) :
    JsonSmartContractState where
  creatorPublicKey := hexEncode ss.createPublicKey.1
  storageAddress := E.addressHex ss.storageAddress
  codeHash := ss.codeHash.hex
  storageRoot := ss.storageRoot.hex
  logsHash := ss.logsHash.hex
  mapFullDbHash := ss.mapFullDbHash.hex
  trieDatabaseMap := ss.trieDatabaseMap

/-- `ToSmartContractState`: a new state, of which the fields of the JSON form are set. -/
def JsonSmartContractState.toSmartContractState (jss : JsonSmartContractState) :
    SmartContractState :=
  { SmartContractState.newEmpty with
    createPublicKey := pubkeyFromBytes (fromHex jss.creatorPublicKey)
    storageAddress := hexToAddress jss.storageAddress
    codeHash := hexToHash jss.codeHash
    storageRoot := hexToHash jss.storageRoot
    logsHash := hexToHash jss.logsHash
    trieDatabaseMap := jss.trieDatabaseMap
    mapFullDbHash := hexToHash jss.mapFullDbHash }

namespace JsonAccountState

def fromAccountState (E : Env) (as : AccountState SmartContractState) : JsonAccountState where
  address := E.addressHex as.address
  balance := decimal as.balance
  pendingBalance := decimal as.pendingBalance
  lastHash := as.lastHash.hex
  deviceKey := as.deviceKey.hex
  smartContractState :=
    as.smartContractState.map (JsonSmartContractState.fromSmartContractState E)
  nonce := as.nonce
  publicKeyBls := hexEncode as.publicKeyBls
  accountType := as.accountType

/-- `ToAccountState`; a balance that is no number, for which `SetString` promises nothing, is
taken as zero. -/
def toAccountState (j : JsonAccountState) : AccountState SmartContractState where
  address := hexToAddress j.address
  lastHash := hexToHash j.lastHash
  balance := (setString j.balance).getD 0
  pendingBalance := (setString j.pendingBalance).getD 0
  deviceKey := hexToHash j.deviceKey
  smartContractState :=
    j.smartContractState.map JsonSmartContractState.toSmartContractState
  nonce := j.nonce
  publicKeyBls := fromHex j.publicKeyBls
  accountType := j.accountType
  isDirty := false

/-- What is decoded from the JSON text of `j`: the map may be in another order. -/
def Decodes (j j' : JsonAccountState) : Prop :=
  j' = { j with smartContractState := j'.smartContractState } ∧
    Option.Rel (fun jss' jss => ∃ map : Wire.ByteMap,
      jss' = { jss with trieDatabaseMap := map } ∧ map.Same jss.trieDatabaseMap)
      j'.smartContractState j.smartContractState

end JsonAccountState

/-- Two messages of accounts with the same fields, the maps in whatever order. -/
def Pb.AccountState.Same (m m' : Pb.AccountState) : Prop :=
  m = { m' with smartContractState := m.smartContractState } ∧
    Pb.AccountState.SameContract m.smartContractState m'.smartContractState

/-! ### There and back -/

theorem JsonSmartContractState.toSmartContractState_eq (E : Env) (ss : SmartContractState)
    (map : Wire.ByteMap) :
    toSmartContractState { fromSmartContractState E ss with trieDatabaseMap := map } =
      { ss with simpleDbHash := FixedBytes.zero 32, trieDatabaseMap := map } := by
  simp only [toSmartContractState, fromSmartContractState, E.hexToAddress_addressHex, hexToHash_hex,
    fromHex_hexEncode, pubkeyFromBytes_val, SmartContractState.newEmpty]

theorem JsonAccountState.toAccountState_eq (E : Env) (as : AccountState SmartContractState)
    (jss : Option JsonSmartContractState) :
    toAccountState { fromAccountState E as with smartContractState := jss } =
      { as with
        smartContractState := jss.map JsonSmartContractState.toSmartContractState
        isDirty := false } := by
  simp only [toAccountState, fromAccountState, E.hexToAddress_addressHex, hexToHash_hex,
    setString_decimal, Option.getD_some, fromHex_hexEncode]

theorem sameContract_iff {ss : SmartContractState} {hash : Hash} {map : Wire.ByteMap}
    (hmap : map.Same ss.trieDatabaseMap) :
    Pb.AccountState.SameContract
      (some { ss with simpleDbHash := hash, trieDatabaseMap := map }.proto) (some ss.proto) ↔
      ss.simpleDbHash = hash := by
  constructor
  · rintro (⟨⟨map', heq, -⟩⟩)
    have hfield := congrArg Pb.SmartContractState.simpleDbHash heq
    exact Subtype.ext hfield.symm
  · rintro rfl
    exact .some ⟨map, rfl, hmap⟩

/-- **What comes back from JSON has the same message**, for every account and however its map
is decoded, if and only if the account has no smart contract or its `simpleDbHash` is zero. -/
theorem json_same_iff (E : Env) (a : AccountState SmartContractState) (j : JsonAccountState)
    (hj : (JsonAccountState.fromAccountState E a).Decodes j) :
    j.toAccountState.proto.Same a.proto ↔
      ∀ ss, a.smartContractState = some ss → ss.simpleDbHash = FixedBytes.zero 32 := by
  obtain ⟨heq, hcontract⟩ := hj
  rw [heq, JsonAccountState.toAccountState_eq]
  have hfields : ∀ sc, ({ a with smartContractState := sc, isDirty := false }.proto).Same a.proto ↔
      Pb.AccountState.SameContract (sc.map SmartContractState.proto)
        (a.smartContractState.map SmartContractState.proto) := by
    intro sc
    exact and_iff_right rfl
  rw [hfields]
  have hsc : (JsonAccountState.fromAccountState E a).smartContractState =
      a.smartContractState.map (JsonSmartContractState.fromSmartContractState E) := rfl
  rw [hsc] at hcontract
  cases ha : a.smartContractState with
  | none =>
    rw [ha] at hcontract
    cases hjss : j.smartContractState with
    | none => exact iff_of_true .none fun ss hss => (by cases hss)
    | some =>
      rw [hjss] at hcontract
      cases hcontract
  | some =>
    rw [ha] at hcontract
    cases hjss : j.smartContractState with
    | none =>
      rw [hjss] at hcontract
      cases hcontract
    | some =>
      rw [hjss] at hcontract
      cases hcontract with
      | some hdecoded =>
        obtain ⟨map, rfl, hmap⟩ := hdecoded
        rw [Option.map_some, Option.map_some, Option.map_some,
          JsonSmartContractState.toSmartContractState_eq, sameContract_iff hmap]
        simp

namespace JsonAccountState

theorem decodes_self (j : JsonAccountState) : j.Decodes j := by
  refine ⟨rfl, ?_⟩
  cases j.smartContractState with
  | none => exact .none
  | some jss => exact .some ⟨jss.trieDatabaseMap, rfl, fun _ => rfl⟩

end JsonAccountState

/-- An account with a smart contract that has the given `simpleDbHash`. -/
def sampleContractAccount (simpleDbHash : Hash) : AccountState SmartContractState :=
  ((newAccountState (FixedBytes.zero 20)).setBalance 7).setSmartContractState
    (some { SmartContractState.newEmpty with simpleDbHash := simpleDbHash })

theorem json_same_zero :
    let a := sampleContractAccount (FixedBytes.zero 32)
    let j := JsonAccountState.fromAccountState stdEnv a
    j.Decodes j ∧ j.toAccountState.proto.Same a.proto := by
  intro a j
  refine ⟨j.decodes_self, (json_same_iff stdEnv a j j.decodes_self).mpr ?_⟩
  intro ss hss
  cases hss
  rfl

/-- A `simpleDbHash` comes back as zero. -/
theorem json_loses_simpleDbHash :
    let a := sampleContractAccount (bytesToHash [1])
    let j := JsonAccountState.fromAccountState stdEnv a
    j.Decodes j ∧ ¬ j.toAccountState.proto.Same a.proto := by
  intro a j
  refine ⟨j.decodes_self, ?_⟩
  rintro ⟨-, hcontract⟩
  have hfield : j.toAccountState.proto.smartContractState.map (·.simpleDbHash) =
      a.proto.smartContractState.map (·.simpleDbHash) := by
    cases hcontract with
    | some h =>
      obtain ⟨map, heq, -⟩ := h
      exact congrArg (fun sc => some sc.simpleDbHash) heq
  revert hfield
  decide

end MetaNode
