/-
An account through its message.

What `Marshal` writes, `Unmarshal` reads back into any account, whatever that
held before, with one exception: a message says that there is no smart contract
by not mentioning it, and `FromProto` takes that for no change.  A receiver that
has a smart contract keeps it.
-/
import MetaNode.AccountState

namespace MetaNode

theorem SmartContractState.same_fromProto {ss : SmartContractState} {map : Wire.ByteMap}
    (h : map.Same ss.trieDatabaseMap) :
    (fromProto { ss.proto with trieDatabaseMap := map }).Same ss := by
  refine ⟨?_, h⟩
  simp only [fromProto, proto, FixedBytes.ofBytes_val, pubkeyFromBytes_val]

theorem toNat_bigBytes {x : ℤ} (h : 0 ≤ x) : (BigEndian.toNat (bigBytes x) : ℤ) = x := by
  rw [bigBytes, BigEndian.toNat_ofNat, Int.natAbs_of_nonneg h]

namespace AccountState

variable {E : Env}

/-- The receiver of a message takes all fields from it, the smart contract only if
there is one. -/
theorem fromProto_proto (r : AccountState SmartContractState) {a : AccountState SmartContractState}
    (hbalance : 0 ≤ a.balance) (hpending : 0 ≤ a.pendingBalance)
    (sc : Option Pb.SmartContractState) :
    r.fromProto { a.proto with smartContractState := sc } =
      { a with
        smartContractState := (sc.map SmartContractState.fromProto).or r.smartContractState
        isDirty := r.isDirty } := by
  have hnonce : UInt64.ofNat (BigEndian.toNat (putUint64 a.nonce)) = a.nonce := by
    rw [toNat_putUint64, UInt64.ofNat_toNat]
  simp only [fromProto, proto, FixedBytes.ofBytes_val, toNat_bigBytes hbalance,
    toNat_bigBytes hpending, length_putUint64, if_true, hnonce]
  cases sc <;> rfl

theorem rel_same_of_sameContract {sc : Option SmartContractState}
    {sc' : Option Pb.SmartContractState}
    (h : Pb.AccountState.SameContract sc' (sc.map SmartContractState.proto)) :
    Option.Rel SmartContractState.Same (sc'.map SmartContractState.fromProto) sc := by
  cases sc with
  | none =>
    cases h
    exact .none
  | some =>
    cases h with
    | some h =>
      obtain ⟨map, rfl, hsame⟩ := h
      exact .some (SmartContractState.same_fromProto hsame)

/-- **An account that is unmarshalled equals the one that was marshalled, on every
encoded field, if and only if that one has a smart contract or the receiver had
none.** -/
theorem unmarshal_same_iff (a r : AccountState SmartContractState) (b : Bytes)
    (hbalance : 0 ≤ a.balance) (hpending : 0 ≤ a.pendingBalance) (hb : a.marshal E = some b) :
    ∃ r', r.unmarshal E b = some r' ∧
      (r'.Same a ↔ a.smartContractState.isSome ∨ r.smartContractState = none) := by
  obtain ⟨sc, hread, hsc⟩ := Pb.AccountState.unmarshal_marshal E hb
  have hrel := rel_same_of_sameContract hsc
  refine ⟨_, by rw [unmarshal, hread, Option.map_some], ?_⟩
  rw [fromProto_proto r hbalance hpending]
  simp only [Same, true_and]
  cases ha : a.smartContractState with
  | some =>
    rw [ha] at hrel
    cases hmap : sc.map SmartContractState.fromProto with
    | none =>
      rw [hmap] at hrel
      cases hrel
    | some =>
      rw [hmap] at hrel
      simp [hrel]
  | none =>
    rw [ha] at hrel
    cases hmap : sc.map SmartContractState.fromProto with
    | some =>
      rw [hmap] at hrel
      cases hrel
    | none =>
      -- nothing in the message: the receiver keeps what it had
      cases hr : r.smartContractState with
      | none | some => simp

theorem unmarshal_same_iff_contract :
    let r : AccountState SmartContractState := newAccountState (FixedBytes.zero 20)
    let a := ((r.setBalance 7).setNonce 3).setSmartContractState (some .newEmpty)
    ∃ b r', a.marshal stdEnv = some b ∧ r.unmarshal stdEnv b = some r' ∧ r'.Same a := by
  intro r a
  obtain ⟨b, hb⟩ := Option.isSome_iff_exists.mp
    (show (a.marshal stdEnv).isSome by decide +kernel)
  obtain ⟨r', hr', hiff⟩ := unmarshal_same_iff a r b (by decide) (by decide) hb
  exact ⟨b, r', hb, hr', hiff.mpr (.inl rfl)⟩

/-- A plain account is read into one with a smart contract, which stays. -/
theorem unmarshal_keeps_contract :
    let a : AccountState SmartContractState := newAccountState (FixedBytes.zero 20)
    let r := a.setSmartContractState (some .newEmpty)
    (a.marshal stdEnv).bind (r.unmarshal stdEnv) = some r ∧ ¬ r.Same a := by
  intro a r
  constructor
  · obtain ⟨b, hb⟩ := Option.isSome_iff_exists.mp
      (show (a.marshal stdEnv).isSome by decide +kernel)
    obtain ⟨sc, hread, hsc⟩ := Pb.AccountState.unmarshal_marshal stdEnv hb
    cases hsc
    rewrite [hb, Option.bind_some, unmarshal, hread, Option.map_some,
      fromProto_proto r (by decide) (by decide)]
    rfl
  · rintro ⟨-, hrel⟩
    cases hrel

end AccountState

end MetaNode
