/-
From an Ethereum transaction to a message and back.

`Carries` says what a message made from a transaction holds; `EthTx.returned` is
what `ToEthTransaction` then gives.

* `newTransactionFromEth_encodes`, `Encodes.toEthTransaction` — the way there and
  the way back, for every signed transaction.
-/
import MetaNode.Transaction

namespace MetaNode

/-! ### What the message carries -/

/-- The message holds the common fields of `tx`, sent by `a`. -/
structure Carries (E : Env) (tx : TxFields) (a : Address) (p : Pb.Transaction) : Prop where
  toAddress : p.toAddress = addressBytes tx.recipient
  amount : p.amount = BigEndian.ofNat tx.value
  maxGas : p.maxGas = tx.gas
  nonce : p.nonce = putUint64 tx.nonce
  data : p.data = prepareTransactionSpecificData E tx.data tx.recipient
  fromAddress : p.fromAddress = a.1
  v : p.v = BigEndian.ofNat tx.v
  r : p.r = BigEndian.ofNat tx.r
  s : p.s = BigEndian.ofNat tx.s

/-- The data of a creation or of a call to the zero address, from an account that
has sent nothing yet or is the zero address itself. -/
def TxFields.LosesData (tx : TxFields) (a : Address) : Prop :=
  tx.data ≠ [] ∧ tx.recipient.getD (FixedBytes.zero 20) = FixedBytes.zero 20 ∧
    (tx.nonce = 0 ∨ a = FixedBytes.zero 20)

instance (tx : TxFields) (a : Address) : Decidable (tx.LosesData a) :=
  inferInstanceAs (Decidable (_ ∧ _ ∧ _))

def TxFields.kept (tx : TxFields) (a : Address) : TxFields :=
  if tx.LosesData a then { tx with data := [] } else tx

section Prepare

variable (E : Env) {txData : Bytes}

theorem prepare_nil (ethRecipient : Option Address) :
    prepareTransactionSpecificData E [] ethRecipient = [] := by
  cases ethRecipient <;> rfl

theorem prepare_deploy (h : txData ≠ []) : prepareTransactionSpecificData E txData none
    = Pb.DeployData.marshal E ⟨txData, storageAddressForDeploy.1⟩ := if_neg h

theorem prepare_call (h : txData ≠ []) (b : Address) :
    prepareTransactionSpecificData E txData (some b) = Pb.CallData.marshal E ⟨txData⟩ := if_neg h

theorem prepare_ne_nil (h : txData ≠ []) (ethRecipient : Option Address) :
    prepareTransactionSpecificData E txData ethRecipient ≠ [] := by
  cases ethRecipient with
  | none =>
    rw [prepare_deploy E h]
    exact Pb.DeployData.marshal_ne_nil E h
  | some =>
    rw [prepare_call E h]
    exact Pb.CallData.marshal_ne_nil E h

end Prepare

namespace Carries

variable {E : Env} {tx : TxFields} {a : Address} {t : Transaction} (h : Carries E tx a t.proto)
include h

theorem getNonce_eq : t.getNonce = tx.nonce := by
  rw [Transaction.getNonce, h.nonce, if_pos (length_putUint64 _), toNat_putUint64,
    UInt64.ofNat_toNat]

theorem fromAddress_eq : t.fromAddress = a := by
  rw [Transaction.fromAddress, h.fromAddress, bytesToAddress, FixedBytes.ofBytes_val]

theorem toAddress_eq : t.toAddress = tx.recipient.getD (FixedBytes.zero 20) := by
  rw [Transaction.toAddress, h.toAddress]
  cases tx.recipient with
  | none => rfl
  | some b => exact FixedBytes.ofBytes_val b

theorem ethFields_eq (data : Bytes) : t.ethFields data = { tx with data := data } := by
  have hnonce : (if t.proto.nonce.length > 0 then UInt64.ofNat (BigEndian.toNat t.proto.nonce)
      else 0) = tx.nonce := by
    rw [h.nonce, length_putUint64, if_pos (by decide), toNat_putUint64, UInt64.ofNat_toNat]
  have hrecipient : (if t.proto.toAddress.length > 0 then some (bytesToAddress t.proto.toAddress)
      else none) = tx.recipient := by
    rw [h.toAddress]
    cases tx.recipient with
    | none => rfl
    | some b => rw [addressBytes, b.2, if_pos (by decide), bytesToAddress, FixedBytes.ofBytes_val]
  rw [Transaction.ethFields, hnonce, hrecipient, h.maxGas, h.amount, h.v, h.r, h.s]
  simp only [BigEndian.toNat_ofNat]

theorem length_data_pos : t.proto.data.length > 0 ↔ tx.data ≠ [] := by
  rw [h.data, gt_iff_lt, List.length_pos_iff]
  constructor
  · intro hne hnil
    rw [hnil, prepare_nil] at hne
    exact hne rfl
  · exact fun hne => prepare_ne_nil E hne tx.recipient

theorem deployCode_eq (hdata : tx.data ≠ []) : t.deployCode E = .ok tx.data := by
  rw [Transaction.deployCode, h.data]
  cases tx.recipient with
  | none => rw [prepare_deploy E hdata, Pb.DeployData.unmarshal_marshal]
  | some => rw [prepare_call E hdata, Pb.DeployData.unmarshal_callData]

theorem callInput_eq (hdata : tx.data ≠ []) {b : Address} (hb : tx.recipient = some b) :
    t.callInput E = tx.data := by
  rw [Transaction.callInput, h.data, hb, prepare_call E hdata, Pb.CallData.unmarshal_marshal]

/-- **Which data comes back.** -/
theorem ethData_eq : t.ethData E = .ok (tx.kept a).data := by
  have hcall : t.isCallContract = true ↔
      tx.recipient.getD (FixedBytes.zero 20) ≠ FixedBytes.zero 20 ∧ tx.data ≠ [] := by
    rw [Transaction.isCallContract, h.toAddress_eq, Bool.and_eq_true, decide_eq_true_eq,
      decide_eq_true_eq, h.length_data_pos]
  have hdeploy : t.isDeployContract = true ↔ tx.nonce ≠ 0 ∧ a ≠ FixedBytes.zero 20 ∧
      tx.recipient.getD (FixedBytes.zero 20) = FixedBytes.zero 20 ∧ tx.data ≠ [] := by
    rw [Transaction.isDeployContract, h.getNonce_eq, h.fromAddress_eq, h.toAddress_eq]
    simp only [Bool.and_eq_true, decide_eq_true_eq, h.length_data_pos]
    constructor
    · rintro ⟨⟨⟨hn, ha⟩, hz⟩, hd⟩
      exact ⟨hn, hz ▸ ha, hz, hd⟩
    · rintro ⟨hn, ha, hz, hd⟩
      exact ⟨⟨⟨hn, hz.symm ▸ ha⟩, hz⟩, hd⟩
  rw [Transaction.ethData, TxFields.kept]
  by_cases hdep : t.isDeployContract = true
  · -- a deployment, or a call to the zero address that is taken for one
    obtain ⟨hn, ha, -, hd⟩ := hdeploy.mp hdep
    rw [if_pos hdep, h.deployCode_eq hd, if_neg]
    rintro ⟨-, -, hzero | hzero⟩
    · exact hn hzero
    · exact ha hzero
  · rw [if_neg hdep]
    by_cases hc : t.isCallContract = true
    · -- a call to an address that is not zero
      obtain ⟨hz, hd⟩ := hcall.mp hc
      obtain ⟨b, hb⟩ : ∃ b, tx.recipient = some b := by
        cases hr : tx.recipient with
        | none =>
          rw [hr] at hz
          exact absurd rfl hz
        | some b => exact ⟨b, rfl⟩
      rw [if_pos hc, h.callInput_eq hd hb, if_neg fun hl => hz hl.2.1]
    · -- neither: the data is dropped, or there was none
      rw [if_neg hc]
      by_cases hd : tx.data = []
      · rw [if_neg fun hl => hl.1 hd, hd]
      · rw [hcall, not_and_or, not_not, not_not] at hc
        have hz := hc.resolve_right hd
        have hl : tx.LosesData a := by
          refine ⟨hd, hz, ?_⟩
          by_contra hne
          rw [not_or] at hne
          exact hdep (hdeploy.mpr ⟨hne.1, hne.2, hz, hd⟩)
        rw [if_pos hl]

end Carries

/-! ### What comes back -/

section Back

variable {E : Env} {tx : TxFields} {a : Address} {t : Transaction}

theorem TxFields.with_kept_data (tx : TxFields) (a : Address) :
    { tx with data := (tx.kept a).data } = tx.kept a := by
  rw [kept]
  split <;> rfl

theorem TxFields.kept_eq_iff : tx.kept a = tx ↔ ¬ tx.LosesData a := by
  rw [kept]
  split
  · next hl =>
    refine ⟨fun h => ?_, fun h => absurd hl h⟩
    have hdata : [] = tx.data := congrArg TxFields.data h
    exact absurd hdata.symm hl.1
  · next hl => exact ⟨fun _ => hl, fun _ => rfl⟩

theorem Carries.ethFields_kept (h : Carries E tx a t.proto) :
    t.ethFields (tx.kept a).data = tx.kept a := by
  rw [h.ethFields_eq, TxFields.with_kept_data]

theorem toEthAccessList_pbAccessList (l : List AccessTuple) :
    Transaction.toEthAccessList (pbAccessList l) = l := by
  have hkeys : ∀ keys : List Hash, (keys.map Subtype.val).map bytesToHash = keys := by
    intro keys
    rw [List.map_map]
    exact List.map_id'' bytesToHash_val keys
  rw [Transaction.toEthAccessList, pbAccessList, List.map_map]
  refine List.map_id'' (fun item => ?_) l
  show (⟨bytesToAddress item.address.1, _⟩ : AccessTuple) = item
  rw [hkeys, bytesToAddress, FixedBytes.ofBytes_val]

variable (h : Carries E tx a t.proto)

include h

theorem Carries.toEth_legacy (htype : t.proto.type = 0) :
    t.toEthTransaction E = .ok (some (.legacy (tx.kept a) t.proto.maxGasPrice.toNat)) := by
  rw [Transaction.toEthTransaction, h.ethData_eq]
  show (if t.proto.type = 0 then _ else _) = _
  rw [if_pos htype, h.ethFields_kept]
  rfl

theorem Carries.toEth_accessList (htype : t.proto.type = 1) :
    t.toEthTransaction E = .ok (if t.proto.chainID = 0 ∨ t.proto.maxGasPrice = 0 then none
      else some (.accessList (tx.kept a) t.proto.chainID.toNat t.proto.maxGasPrice.toNat
        (Transaction.toEthAccessList t.proto.accessList))) := by
  rw [Transaction.toEthTransaction, h.ethData_eq]
  show (if t.proto.type = 0 then _ else if t.proto.type = 1 then _ else _) = _
  rw [htype, if_neg (by decide), if_pos rfl, h.ethFields_kept]
  by_cases hc : t.proto.chainID = 0
  · rw [if_pos hc, if_pos (.inl hc)]
    rfl
  · rw [if_neg hc]
    by_cases hp : t.proto.maxGasPrice = 0
    · rw [if_pos hp, if_pos (.inr hp)]
      rfl
    · rw [if_neg hp, if_neg (by simp [hc, hp])]
      rfl

theorem Carries.toEth_dynamicFee (htype : t.proto.type = 2) :
    t.toEthTransaction E = .ok (if t.proto.chainID = 0 then none
      else match t.proto.gasTipCap, t.proto.gasFeeCap with
        | some gasTipCap, some gasFeeCap => some (.dynamicFee (tx.kept a) t.proto.chainID.toNat
          (BigEndian.toNat gasTipCap) (BigEndian.toNat gasFeeCap)
          (Transaction.toEthAccessList t.proto.accessList))
        | _, _ => none) := by
  rw [Transaction.toEthTransaction, h.ethData_eq]
  show (if t.proto.type = 0 then _ else if t.proto.type = 1 then _
    else if t.proto.type = 2 then _ else _) = _
  rw [htype, if_neg (by decide), if_neg (by decide), if_pos rfl, h.ethFields_kept]
  by_cases hc : t.proto.chainID = 0
  · rw [if_pos hc, if_pos hc]
    rfl
  · rw [if_neg hc, if_neg hc]
    cases t.proto.gasTipCap with
    | none => rfl
    | some =>
      cases t.proto.gasFeeCap with
      | none | some => rfl

end Back

namespace EthTx

/-- The signer with which the sender is recovered. -/
def signer : EthTx → Signer
  | .legacy tx _ => legacySigner tx.v
  | .accessList _ chainID _ _ => .london chainID
  | .dynamicFee _ chainID _ _ _ => .london chainID
  | .unsupported => .homestead

/-- What `ToEthTransaction` gives for the message made from a transaction that `a`
signed: prices and chain ids are cut to 64 bits, and the checks for zero apply. -/
def returned (a : Address) : EthTx → Option EthTx
  | .legacy tx gasPrice => some (.legacy (tx.kept a) (gasPrice % 2 ^ 64))
  | .accessList tx chainID gasPrice tuples =>
    if chainID % 2 ^ 64 = 0 ∨ gasPrice % 2 ^ 64 = 0 then none
    else some (.accessList (tx.kept a) (chainID % 2 ^ 64) (gasPrice % 2 ^ 64) tuples)
  | .dynamicFee tx chainID gasTipCap gasFeeCap tuples =>
    if chainID % 2 ^ 64 = 0 then none
    else some (.dynamicFee (tx.kept a) (chainID % 2 ^ 64) gasTipCap gasFeeCap tuples)
  | .unsupported => none

/-- Prices and chain ids fit in 64 bits, and there is a chain id where there has
to be one. -/
def Fits : EthTx → Prop
  | .legacy _ gasPrice => gasPrice < 2 ^ 64
  | .accessList _ chainID gasPrice _ => (0 < chainID ∧ chainID < 2 ^ 64) ∧ gasPrice < 2 ^ 64
  | .dynamicFee _ chainID _ _ _ => 0 < chainID ∧ chainID < 2 ^ 64
  | .unsupported => False

/-- An access-list transaction that pays nothing for its gas. -/
def ZeroGasPrice : EthTx → Prop
  | .accessList _ _ gasPrice _ => gasPrice = 0
  | _ => False

/-- See `TxFields.LosesData`. -/
def LosesData (a : Address) : EthTx → Prop
  | .legacy tx _ => tx.LosesData a
  | .accessList tx _ _ _ => tx.LosesData a
  | .dynamicFee tx _ _ _ _ => tx.LosesData a
  | .unsupported => False

/-- A dynamic-fee transaction, for some chain, with a fee cap of zero. -/
def ZeroFeeCap : EthTx → Prop
  | .dynamicFee _ chainID gasTipCap gasFeeCap _ =>
    chainID % 2 ^ 64 ≠ 0 ∧ (gasTipCap = 0 ∨ gasFeeCap = 0)
  | _ => False

instance : DecidablePred ZeroFeeCap
  | .dynamicFee .. => inferInstanceAs (Decidable (_ ∧ (_ ∨ _)))
  | .legacy .. => inferInstanceAs (Decidable False)
  | .accessList .. => inferInstanceAs (Decidable False)
  | .unsupported => inferInstanceAs (Decidable False)

theorem returned_eq_iff {tx : EthTx} {a : Address} (hfit : tx.Fits) :
    tx.returned a = some tx ↔ ¬ tx.ZeroGasPrice ∧ ¬ tx.LosesData a := by
  cases tx with
  | legacy =>
    rw [returned, Nat.mod_eq_of_lt hfit, Option.some.injEq, EthTx.legacy.injEq,
      TxFields.kept_eq_iff]
    simp [ZeroGasPrice, LosesData]
  | accessList tx chainID gasPrice tuples =>
    obtain ⟨⟨hpos, hchain⟩, hprice⟩ := hfit
    rw [returned, Nat.mod_eq_of_lt hchain, Nat.mod_eq_of_lt hprice]
    by_cases hzero : gasPrice = 0
    · rw [if_pos (.inr hzero)]
      simp [ZeroGasPrice, hzero]
    · rw [if_neg (by omega), Option.some.injEq, EthTx.accessList.injEq, TxFields.kept_eq_iff]
      simp [ZeroGasPrice, LosesData, hzero]
  | dynamicFee tx chainID gasTipCap gasFeeCap tuples =>
    obtain ⟨hpos, hchain⟩ := hfit
    rw [returned, Nat.mod_eq_of_lt hchain, if_neg (by omega), Option.some.injEq,
      EthTx.dynamicFee.injEq, TxFields.kept_eq_iff]
    simp [ZeroGasPrice, LosesData]
  | unsupported => exact hfit.elim

end EthTx

/-! ### There and back -/

section RoundTrip

/-- What the message made from a transaction that `a` signed holds. -/
def Encodes (E : Env) (a : Address) (p : Pb.Transaction) : EthTx → Prop
  | .legacy tx gasPrice =>
    Carries E tx a p ∧ p.type = 0 ∧ p.maxGasPrice = UInt64.ofNat gasPrice
  | .accessList tx chainID gasPrice tuples =>
    Carries E tx a p ∧ p.type = 1 ∧ p.chainID = UInt64.ofNat chainID ∧
      p.maxGasPrice = UInt64.ofNat gasPrice ∧ p.accessList = pbAccessList tuples
  | .dynamicFee tx chainID gasTipCap gasFeeCap tuples =>
    Carries E tx a p ∧ p.type = 2 ∧ p.chainID = UInt64.ofNat chainID ∧
      p.gasTipCap = some (BigEndian.ofNat gasTipCap) ∧
      p.gasFeeCap = some (BigEndian.ofNat gasFeeCap) ∧ p.accessList = pbAccessList tuples
  | .unsupported => False

variable {E : Env} {sender : Sender} {tx : EthTx} {a : Address} {t : Transaction}

theorem newTransactionFromEth_encodes (E : Env) (hsup : tx ≠ .unsupported)
    (hsigned : sender tx.signer tx = some a) :
    ∃ t, newTransactionFromEth E sender (some tx) = .ok t ∧ Encodes E a t.proto tx := by
  cases tx with
  | legacy tx gasPrice =>
    have hs : sender (legacySigner tx.v) (.legacy tx gasPrice) = some a := hsigned
    simp only [newTransactionFromEth, fromEthLegacyTx, hs, Except.map]
    exact ⟨_, rfl, ⟨rfl, rfl, rfl, rfl, rfl, rfl, rfl, rfl, rfl⟩, rfl, rfl⟩
  | accessList tx chainID gasPrice tuples =>
    have hs : sender (.london chainID) (.accessList tx chainID gasPrice tuples) = some a := hsigned
    simp only [newTransactionFromEth, fromEthEIP2930Tx, hs, Except.map]
    exact ⟨_, rfl, ⟨rfl, rfl, rfl, rfl, rfl, rfl, rfl, rfl, rfl⟩, rfl, rfl, rfl, rfl⟩
  | dynamicFee tx chainID gasTipCap gasFeeCap tuples =>
    have hs : sender (.london chainID) (.dynamicFee tx chainID gasTipCap gasFeeCap tuples)
        = some a := hsigned
    simp only [newTransactionFromEth, fromEthEIP1559Tx, hs, Except.map]
    exact ⟨_, rfl, ⟨rfl, rfl, rfl, rfl, rfl, rfl, rfl, rfl, rfl⟩, rfl, rfl, rfl, rfl, rfl⟩
  | unsupported => exact absurd rfl hsup

theorem ofNat64_eq_zero {n : ℕ} : UInt64.ofNat n = 0 ↔ n % 2 ^ 64 = 0 := by
  rw [← UInt64.toNat_inj, UInt64.toNat_ofNat']
  rfl

/-- **The way back.** -/
theorem Encodes.toEthTransaction (h : Encodes E a t.proto tx) :
    t.toEthTransaction E = .ok (tx.returned a) := by
  cases tx with
  | legacy =>
    obtain ⟨hc, htype, hprice⟩ := h
    rw [hc.toEth_legacy htype, hprice, UInt64.toNat_ofNat', EthTx.returned]
  | accessList =>
    obtain ⟨hc, htype, hchain, hprice, haccess⟩ := h
    rw [hc.toEth_accessList htype, hchain, hprice, haccess, toEthAccessList_pbAccessList,
      UInt64.toNat_ofNat', UInt64.toNat_ofNat', EthTx.returned]
    simp only [ofNat64_eq_zero]
  | dynamicFee =>
    obtain ⟨hc, htype, hchain, htip, hfee, haccess⟩ := h
    rw [hc.toEth_dynamicFee htype, hchain, htip, hfee, haccess, toEthAccessList_pbAccessList,
      UInt64.toNat_ofNat', EthTx.returned]
    simp only [ofNat64_eq_zero, BigEndian.toNat_ofNat]
  | unsupported => exact h.elim

theorem Carries.normalize {tx : TxFields} {p : Pb.Transaction} (h : Carries E tx a p) :
    Carries E tx a p.normalize :=
  ⟨h.toAddress, h.amount, h.maxGas, h.nonce, h.data, h.fromAddress, h.v, h.r, h.s⟩

/-- **The way back from the wire**: a fee cap of zero has become nil. -/
theorem Encodes.toEthTransaction_normalize {p : Pb.Transaction} (h : Encodes E a p tx) :
    (Transaction.mk p.normalize).toEthTransaction E
      = .ok (if tx.ZeroFeeCap then none else tx.returned a) := by
  cases tx with
  | legacy tx gasPrice =>
    obtain ⟨hc, htype, hprice⟩ := h
    rw [if_neg (show ¬ (EthTx.legacy tx gasPrice).ZeroFeeCap from id)]
    exact Encodes.toEthTransaction (t := ⟨p.normalize⟩) ⟨hc.normalize, htype, hprice⟩
  | accessList tx chainID gasPrice tuples =>
    obtain ⟨hc, hrest⟩ := h
    rw [if_neg (show ¬ (EthTx.accessList tx chainID gasPrice tuples).ZeroFeeCap from id)]
    exact Encodes.toEthTransaction (t := ⟨p.normalize⟩) ⟨hc.normalize, hrest⟩
  | dynamicFee tx chainID gasTipCap gasFeeCap tuples =>
    obtain ⟨hc, htype, hchain, htip, hfee, haccess⟩ := h
    have htip' : p.normalize.gasTipCap = nilIfEmpty (BigEndian.ofNat gasTipCap) := by
      rw [Pb.Transaction.normalize, htip, Option.getD_some]
    have hfee' : p.normalize.gasFeeCap = nilIfEmpty (BigEndian.ofNat gasFeeCap) := by
      rw [Pb.Transaction.normalize, hfee, Option.getD_some]
    by_cases hzero : gasTipCap = 0 ∨ gasFeeCap = 0
    · -- one of the caps is nil now; without a chain id both results are nil anyway
      have hnone : ∀ f : Bytes → Bytes → EthTx,
          (match p.normalize.gasTipCap, p.normalize.gasFeeCap with
            | some x, some y => some (f x y)
            | _, _ => none) = none := by
        intro f
        rw [htip', hfee']
        rcases hzero with rfl | rfl
        · rfl
        · cases nilIfEmpty (BigEndian.ofNat gasTipCap) <;> rfl
      have hback : (if (EthTx.dynamicFee tx chainID gasTipCap gasFeeCap tuples).ZeroFeeCap then none
          else EthTx.returned a (.dynamicFee tx chainID gasTipCap gasFeeCap tuples)) = none := by
        by_cases hchain0 : chainID % 2 ^ 64 = 0
        · rw [if_neg fun hz => hz.1 hchain0, EthTx.returned, if_pos hchain0]
        · rw [if_pos ⟨hchain0, hzero⟩]
      rw [Carries.toEth_dynamicFee (t := ⟨p.normalize⟩) hc.normalize htype, hback, hnone, ite_self]
    · -- neither cap is empty, so that both come back
      rw [not_or] at hzero
      rw [nilIfEmpty_of_ne (mt BigEndian.ofNat_eq_nil.mp hzero.1)] at htip'
      rw [nilIfEmpty_of_ne (mt BigEndian.ofNat_eq_nil.mp hzero.2)] at hfee'
      rw [if_neg fun hz => hz.2.elim hzero.1 hzero.2]
      exact Encodes.toEthTransaction (t := ⟨p.normalize⟩)
        ⟨hc.normalize, htype, hchain, htip', hfee', haccess⟩
  | unsupported => exact h.elim

/-- **When the transaction comes back.**  For every signed transaction whose
prices and chain id fit. -/
theorem toEth_fromEth_iff (E : Env) (sender : Sender) (tx : EthTx) (a : Address)
    (hfit : tx.Fits) (hsigned : sender tx.signer tx = some a) :
    ∃ t, newTransactionFromEth E sender (some tx) = .ok t ∧
      (t.toEthTransaction E = .ok (some tx) ↔ ¬ tx.ZeroGasPrice ∧ ¬ tx.LosesData a) := by
  have hsup : tx ≠ .unsupported := by
    rintro rfl
    exact hfit
  obtain ⟨t, hnew, henc⟩ := newTransactionFromEth_encodes E hsup hsigned
  refine ⟨t, hnew, ?_⟩
  rw [henc.toEthTransaction, Except.ok.injEq, EthTx.returned_eq_iff hfit]

/-- **When the wire makes no difference.** -/
theorem toEth_unmarshal_iff (E : Env) (sender : Sender) (tx : EthTx) (a : Address)
    (hsup : tx ≠ .unsupported) (hsigned : sender tx.signer tx = some a) :
    ∃ t t', newTransactionFromEth E sender (some tx) = .ok t ∧
      Transaction.unmarshal E (t.marshal E) = some t' ∧
      (t'.toEthTransaction E = t.toEthTransaction E ↔ ¬ tx.ZeroFeeCap) := by
  obtain ⟨t, hnew, henc⟩ := newTransactionFromEth_encodes E hsup hsigned
  refine ⟨t, ⟨t.proto.normalize⟩, hnew, ?_, ?_⟩
  · rw [Transaction.unmarshal, Transaction.marshal, Pb.Transaction.unmarshal_marshal]
    rfl
  · rw [henc.toEthTransaction, henc.toEthTransaction_normalize, Except.ok.injEq]
    by_cases hz : tx.ZeroFeeCap
    · -- before, the chain id was the only check
      rw [if_pos hz]
      cases tx with
      | dynamicFee =>
        rw [EthTx.returned, if_neg hz.1]
        refine ⟨fun h => ?_, fun h => absurd hz h⟩
        cases h
      | _ => exact hz.elim
    · rw [if_neg hz]
      exact ⟨fun _ => hz, fun _ => rfl⟩

end RoundTrip

/-! ### Signed transactions -/

section Signed

/-- The address of the key `0x4646…46`. -/
def exampleSender : Address :=
  ⟨BigEndian.fixed 20 0x9d8a62f656a8d1615c1294fd71e9cfb3e4855a4f, rfl⟩

def exampleRecipient : Address := ⟨List.replicate 20 0x35, rfl⟩

/-- The sender function on one transaction of that key. -/
def knowing (tx : EthTx) : Sender := fun signer tx' =>
  if signer = tx.signer ∧ tx' = tx then some exampleSender else none

def exampleTransfer : EthTx :=
  .legacy ⟨9, 21000, some exampleRecipient, 10 ^ 18, [], 37,
    0x28ef61340bd939bc2195fe537567866003e1a15d3c71ff63e1590620aa636276,
    0x67cbe9d8997f761aecb703304b3800ccf555c9f3dc64214b297fb1966a3b6d83⟩ (20 * 10 ^ 9)

theorem toEth_fromEth_iff_exampleTransfer :
    ∃ t, newTransactionFromEth stdEnv (knowing exampleTransfer) (some exampleTransfer) = .ok t ∧
      (t.toEthTransaction stdEnv = .ok (some exampleTransfer) ↔
        ¬ exampleTransfer.ZeroGasPrice ∧ ¬ exampleTransfer.LosesData exampleSender) :=
  toEth_fromEth_iff stdEnv (knowing exampleTransfer) exampleTransfer exampleSender
    (show 20 * 10 ^ 9 < 2 ^ 64 by decide) (if_pos ⟨rfl, rfl⟩)

/-- The creation of a contract as the first transaction of an account. -/
def firstDeploy (data : Bytes) : EthTx :=
  .dynamicFee ⟨0, 100000, none, 0, data, 1,
    30509853573654167498527439274587661944852299641856820747692573813908999300414,
    37258470581370270609064940823591536696325256712584649566235339356919924327557⟩ 1 1 2 []

/-- An access-list transaction that pays nothing for its gas. -/
def freeTransfer : EthTx :=
  .accessList ⟨1, 21000, some exampleRecipient, 5, [], 0,
    8434315052881566451401952309424968096494117220200864117239272547694635863575,
    49578917770493229608713315379764083504414985105223009609736782764194172073728⟩ 1 0 []

/-- The creation loses its code, and the free transfer does not come back. -/
theorem toEth_fromEth_fails :
    (newTransactionFromEth stdEnv (knowing (firstDeploy [0x60, 0x00]))
        (some (firstDeploy [0x60, 0x00]))).map (·.toEthTransaction stdEnv)
      = .ok (.ok (some (firstDeploy []))) ∧
    (newTransactionFromEth stdEnv (knowing freeTransfer) (some freeTransfer)).map
        (·.toEthTransaction stdEnv)
      = .ok (.ok none) := by
  decide +kernel

def tipTransfer : EthTx :=
  .dynamicFee ⟨1, 21000, some exampleRecipient, 5, [], 1,
    108246133654590824225597054315773061230875289930769502580667476424327730389252,
    55414031157994361383088490864723636459054202817516337668144424957007733085461⟩ 1 1 2 []

theorem toEth_unmarshal_iff_tipTransfer :
    ∃ t t', newTransactionFromEth stdEnv (knowing tipTransfer) (some tipTransfer) = .ok t ∧
      Transaction.unmarshal stdEnv (t.marshal stdEnv) = some t' ∧
      (t'.toEthTransaction stdEnv = t.toEthTransaction stdEnv ↔ ¬ tipTransfer.ZeroFeeCap) :=
  toEth_unmarshal_iff stdEnv (knowing tipTransfer) tipTransfer exampleSender nofun
    (if_pos ⟨rfl, rfl⟩)

def noTipTransfer : EthTx :=
  .dynamicFee ⟨1, 21000, some exampleRecipient, 5, [], 1,
    39057328239605141699776297299861050879732314362467840882951062849719410094886,
    57785046201164061824182266609426152727260832866888854308214318856324670351380⟩ 1 0 2 []

/-- Without a tip the transaction comes back at once, but not from the wire. -/
theorem toEth_unmarshal_fails :
    (newTransactionFromEth stdEnv (knowing noTipTransfer) (some noTipTransfer)).map
        (fun t => (t.toEthTransaction stdEnv,
          (Transaction.unmarshal stdEnv (t.marshal stdEnv)).map (·.toEthTransaction stdEnv)))
      = .ok (.ok (some noTipTransfer), some (.ok none)) := by
  decide +kernel

end Signed

end MetaNode
