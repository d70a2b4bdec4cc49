/-
The decoders for one type (`eth_legacy.go`, `eth_eip2930.go`, `eth_eip1559.go`).

`ToEthLegacyTx`, `ToEthEIP2930Tx` and `ToEthEIP1559Tx` decode the message that
`ToEthTransaction` decodes, without unwrapping its data.  `ToEthLegacyTx` also
prefers `Sign` to `R`, `S` and `V`, and computes `V` from the chain id of the
message, which has 64 bits.
-/
import MetaNode.EthRoundTrip
import MetaNode.TransactionHash

namespace MetaNode

/-! ### The decoders -/

variable (tx : Pb.Transaction)

/-- The signature values `(v, r, s)` that `ToEthLegacyTx` takes: those in `Sign` if
it has 65 bytes, else the fields of their own; zeros if there is no signature. -/
def legacySignature : ℕ × ℕ × ℕ :=
  if tx.sign.length = 65 then
    let vRaw := tx.sign.getD 64 0
    let v := if tx.chainID ≠ 0 then vRaw.toNat + (tx.chainID.toNat * 2 + 35) else (vRaw + 27).toNat
    (v, BigEndian.toNat (tx.sign.take 32), BigEndian.toNat ((tx.sign.drop 32).take 32))
  else if tx.r.length > 0 ∧ tx.s.length > 0 ∧ tx.v.length > 0 then
    (BigEndian.toNat tx.v, BigEndian.toNat tx.r, BigEndian.toNat tx.s)
  else (0, 0, 0)

def toEthLegacyTx : Option EthTx :=
  if tx.type ≠ 0 then none
  else
    let (v, r, s) := legacySignature tx
    some (.legacy { (Transaction.mk tx).ethFields tx.data with v := v, r := r, s := s }
      tx.maxGasPrice.toNat)

def toEthEIP2930Tx : Option EthTx :=
  if tx.type ≠ 1 then none
  else if tx.chainID = 0 then none
  else if tx.maxGasPrice = 0 then none
  else some (.accessList ((Transaction.mk tx).ethFields tx.data) tx.chainID.toNat
    tx.maxGasPrice.toNat (Transaction.toEthAccessList tx.accessList))

def toEthEIP1559Tx : Option EthTx :=
  if tx.type ≠ 2 then none
  else if tx.chainID = 0 then none
  else
    match tx.gasTipCap, tx.gasFeeCap with
    | some gasTipCap, some gasFeeCap =>
      some (.dynamicFee ((Transaction.mk tx).ethFields tx.data) tx.chainID.toNat
        (BigEndian.toNat gasTipCap) (BigEndian.toNat gasFeeCap)
        (Transaction.toEthAccessList tx.accessList))
    | _, _ => none

def toEthByType : Option EthTx :=
  if tx.type = 0 then toEthLegacyTx tx
  else if tx.type = 1 then toEthEIP2930Tx tx
  else toEthEIP1559Tx tx

namespace EthTx

def data : EthTx → Bytes
  | .legacy tx _ => tx.data
  | .accessList tx _ _ _ => tx.data
  | .dynamicFee tx _ _ _ _ => tx.data
  | .unsupported => []

/-- The values of a signature of a legacy transaction, on a chain or before chain
ids. -/
def ValidSignature : EthTx → Prop
  | .legacy tx _ => (0 < tx.r ∧ tx.r < secp256k1N) ∧ (0 < tx.s ∧ tx.s < secp256k1N) ∧
      (tx.v = 27 ∨ tx.v = 28 ∨ 37 ≤ tx.v)
  | _ => True

/-- `ToEthLegacyTx` computes `V` with the right chain id, or takes it as it is. -/
def KeepsChainID : EthTx → Prop
  | .legacy tx _ => deriveChainId tx.v < 2 ^ 64 ∨ tx.r < 2 ^ 248 ∨ tx.s < 2 ^ 248
  | _ => True

end EthTx

/-! ### The data -/

theorem length_lt_prepare {d : Bytes} (hd : d ≠ []) (recipient : Option Address) :
    d.length < (prepareTransactionSpecificData stdEnv d recipient).length := by
  have hfield : (⟨1, .bytes d⟩ : Wire.Field) ∈ Wire.bytesField 1 d := by
    simp [Wire.bytesField, hd]
  cases recipient with
  | none =>
    rw [prepare_deploy stdEnv hd]
    exact Wire.length_lt_encodeFields (List.mem_append_left _ hfield)
  | some =>
    rw [prepare_call stdEnv hd]
    exact Wire.length_lt_encodeFields hfield

theorem prepare_eq_kept_iff (tx : TxFields) (a : Address) :
    (tx.kept a).data = prepareTransactionSpecificData stdEnv tx.data tx.recipient ↔
      tx.data = [] := by
  constructor
  · intro h
    by_contra hd
    have hlt := length_lt_prepare hd tx.recipient
    rw [← h, TxFields.kept] at hlt
    split at hlt
    · exact absurd hlt (Nat.not_lt_zero _)
    · exact lt_irrefl _ hlt
  · intro hd
    have hkept : tx.kept a = tx := TxFields.kept_eq_iff.mpr fun hl => hl.1 hd
    rw [hkept, hd, prepare_nil]

theorem kept_eq_with_iff (tx : TxFields) (a : Address) (d : Bytes) (sig : ℕ × ℕ × ℕ) :
    tx.kept a = { tx with data := d, v := sig.1, r := sig.2.1, s := sig.2.2 } ↔
      (tx.kept a).data = d ∧ sig = (tx.v, tx.r, tx.s) := by
  obtain ⟨v, r, s⟩ := sig
  rw [← TxFields.with_kept_data, TxFields.mk.injEq, Prod.mk.injEq, Prod.mk.injEq]
  constructor
  · rintro ⟨-, -, -, -, hdata, hv, hr, hs⟩
    exact ⟨hdata, hv.symm, hr.symm, hs.symm⟩
  · rintro ⟨hdata, hv, hr, hs⟩
    exact ⟨rfl, rfl, rfl, rfl, hdata, hv.symm, hr.symm, hs.symm⟩

theorem kept_eq_wrapped_iff (tx : TxFields) (a : Address) :
    tx.kept a = { tx with data := prepareTransactionSpecificData stdEnv tx.data tx.recipient } ↔
      tx.data = [] := by
  rw [← prepare_eq_kept_iff tx a]
  exact (kept_eq_with_iff tx a _ (tx.v, tx.r, tx.s)).trans (and_iff_left rfl)

/-! ### The signature of a legacy transaction -/

theorem length_ofNat_eq_32_iff {n : ℕ} (hn : n < secp256k1N) :
    (BigEndian.ofNat n).length = 32 ↔ 2 ^ 248 ≤ n := by
  have hN : secp256k1N ≤ 256 ^ 32 := by decide
  have hpow : (256 : ℕ) ^ 31 = 2 ^ 248 := by decide
  rw [BigEndian.length_ofNat_eq_iff, hpow]
  exact and_iff_left (hn.trans_le hN)

theorem length_signature_iff {r s : ℕ} (hr : r < secp256k1N) (hs : s < secp256k1N) (x : UInt8) :
    (BigEndian.ofNat r ++ BigEndian.ofNat s ++ [x]).length = 65 ↔ 2 ^ 248 ≤ r ∧ 2 ^ 248 ≤ s := by
  have hN : secp256k1N ≤ 256 ^ 32 := by decide
  have hr32 := BigEndian.length_ofNat_le_iff.mpr (hr.trans_le hN)
  have hs32 := BigEndian.length_ofNat_le_iff.mpr (hs.trans_le hN)
  rw [List.length_append, List.length_append, List.length_singleton, ← length_ofNat_eq_32_iff hr,
    ← length_ofNat_eq_32_iff hs]
  omega

theorem deriveChainId_of_le {v : ℕ} (hv : 37 ≤ v) : deriveChainId v = (v - 35) / 2 := by
  unfold deriveChainId
  split
  · rw [if_neg (by omega)]
    omega
  · rfl

theorem recoveryID_of_le {v : ℕ} (hv : 37 ≤ v) :
    recoveryID (deriveChainId v) v = UInt8.ofNat ((v - 35) % 2) := by
  have hchain := deriveChainId_of_le hv
  have hbit : ((v : ℤ) - (deriveChainId v * 2 + 35)).natAbs = (v - 35) % 2 := by omega
  rw [recoveryID, if_pos (by omega), bigUint64, hbit, UInt64.toUInt8_ofNat']

theorem recoveryID_add {v : ℕ} (hv : 37 ≤ v) :
    deriveChainId v ≠ 0 ∧
      (recoveryID (deriveChainId v) v).toNat + (deriveChainId v * 2 + 35) = v := by
  rw [recoveryID_of_le hv, UInt8.toNat_ofNat', deriveChainId_of_le hv]
  omega

theorem legacyV_eq_iff {v : ℕ} (hv : v = 27 ∨ v = 28 ∨ 37 ≤ v) :
    (if UInt64.ofNat (deriveChainId v) ≠ 0
      then (recoveryID (deriveChainId v) v).toNat
        + ((UInt64.ofNat (deriveChainId v)).toNat * 2 + 35)
      else (recoveryID (deriveChainId v) v + 27).toNat) = v ↔ deriveChainId v < 2 ^ 64 := by
  rcases hv with rfl | rfl | hv
  · decide
  · decide
  · obtain ⟨hne, hadd⟩ := recoveryID_add hv
    have hbyte := (recoveryID (deriveChainId v) v).toNat_lt
    rw [UInt64.toNat_ofNat']
    by_cases hzero : UInt64.ofNat (deriveChainId v) = 0
    · -- a chain id whose low 64 bits are zero is taken for none
      rw [if_neg (not_not.mpr hzero), UInt8.toNat_add]
      rw [ofNat64_eq_zero] at hzero
      have h27 : (27 : UInt8).toNat = 27 := rfl
      rw [h27]
      omega
    · rw [if_pos hzero]
      omega

section Legacy

variable {tx : TxFields} {a : Address} {p : Pb.Transaction} {gasPrice : ℕ}

/-- The signature fields of the message made from a legacy transaction. -/
structure LegacySigned (tx : TxFields) (p : Pb.Transaction) : Prop where
  sign : p.sign = BigEndian.ofNat tx.r ++ BigEndian.ofNat tx.s
    ++ [recoveryID (deriveChainId tx.v) tx.v]
  chainID : p.chainID = UInt64.ofNat (deriveChainId tx.v)

theorem newTransactionFromEth_legacySigned {E : Env} {sender : Sender} {t : Transaction}
    (h : newTransactionFromEth E sender (some (.legacy tx gasPrice)) = .ok t) :
    LegacySigned tx t.proto := by
  simp only [newTransactionFromEth, fromEthLegacyTx] at h
  split at h
  · cases h
  · cases h
    exact ⟨rfl, rfl⟩

/-- **When `ToEthLegacyTx` finds the signature of the transaction.** -/
theorem legacySignature_eq_iff {E : Env} (hc : Carries E tx a p) (hs : LegacySigned tx p)
    (hsig : (EthTx.legacy tx gasPrice).ValidSignature) :
    legacySignature p = (tx.v, tx.r, tx.s) ↔ (EthTx.legacy tx gasPrice).KeepsChainID := by
  obtain ⟨⟨hr0, hrN⟩, ⟨hs0, hsN⟩, hv⟩ := hsig
  have hfull := length_signature_iff hrN hsN (recoveryID (deriveChainId tx.v) tx.v)
  rw [← hs.sign] at hfull
  unfold legacySignature EthTx.KeepsChainID
  by_cases hlen : p.sign.length = 65
  · obtain ⟨hrbig, hsbig⟩ := hfull.mp hlen
    have hrlen := (length_ofNat_eq_32_iff hrN).mpr hrbig
    have hslen := (length_ofNat_eq_32_iff hsN).mpr hsbig
    have htake : p.sign.take 32 = BigEndian.ofNat tx.r := by
      rw [hs.sign, List.append_assoc, List.take_left' hrlen]
    have hdrop : (p.sign.drop 32).take 32 = BigEndian.ofNat tx.s := by
      rw [hs.sign, List.append_assoc, List.drop_left' hrlen, List.take_left' hslen]
    have hlast : p.sign.getD 64 0 = recoveryID (deriveChainId tx.v) tx.v := by
      simp [hs.sign, List.getD_eq_getElem?_getD, hrlen, hslen]
    rw [if_pos hlen, htake, hdrop, hlast, hs.chainID]
    simp only [BigEndian.toNat_ofNat, Prod.mk.injEq, and_true]
    rw [legacyV_eq_iff hv]
    omega
  · -- the fields of their own are not empty
    have hlenR : p.r.length > 0 := by
      rw [hc.r, gt_iff_lt, List.length_pos_iff]
      exact mt BigEndian.ofNat_eq_nil.mp hr0.ne'
    have hlenS : p.s.length > 0 := by
      rw [hc.s, gt_iff_lt, List.length_pos_iff]
      exact mt BigEndian.ofNat_eq_nil.mp hs0.ne'
    have hlenV : p.v.length > 0 := by
      rw [hc.v, gt_iff_lt, List.length_pos_iff]
      exact mt BigEndian.ofNat_eq_nil.mp (by omega)
    rw [if_neg hlen, if_pos ⟨hlenR, hlenS, hlenV⟩, hc.v, hc.r, hc.s]
    simp only [BigEndian.toNat_ofNat, true_iff]
    rw [hfull] at hlen
    omega

end Legacy

/-! ### The two decoders -/

/-- **When the two decoders agree**, for every signed transaction that both of them
decode. -/
theorem decoders_agree_iff (sender : Sender) (tx : EthTx) (a : Address) (hsup : tx ≠ .unsupported)
    (hsig : tx.ValidSignature) (hsigned : sender tx.signer tx = some a) :
    ∃ t, newTransactionFromEth stdEnv sender (some tx) = .ok t ∧
      ∀ tx₁ tx₂, t.toEthTransaction stdEnv = .ok (some tx₁) → toEthByType t.proto = some tx₂ →
        (tx₁ = tx₂ ↔ tx.data = [] ∧ tx.KeepsChainID) := by
  obtain ⟨t, hnew, henc⟩ := newTransactionFromEth_encodes stdEnv hsup hsigned
  refine ⟨t, hnew, ?_⟩
  intro tx₁ tx₂ h₁ h₂
  cases tx with
  | legacy =>
    have hs := newTransactionFromEth_legacySigned hnew
    obtain ⟨hc, htype, -⟩ := henc
    rw [hc.toEth_legacy htype, Except.ok.injEq, Option.some.injEq] at h₁
    rw [toEthByType, if_pos htype, toEthLegacyTx, if_neg (not_not.mpr htype), Option.some.injEq,
      hc.ethFields_eq, hc.data] at h₂
    rw [← h₁, ← h₂, EthTx.legacy.injEq, and_iff_left rfl, kept_eq_with_iff, prepare_eq_kept_iff,
      legacySignature_eq_iff hc hs hsig]
    rfl
  | accessList tx chainID =>
    obtain ⟨hc, htype, -⟩ := henc
    have h₂' : toEthEIP2930Tx t.proto = some tx₂ := by
      rwa [toEthByType, htype, if_neg (by decide), if_pos rfl] at h₂
    by_cases hzero : t.proto.chainID = 0 ∨ t.proto.maxGasPrice = 0
    · -- neither of them succeeds
      rw [hc.toEth_accessList htype, if_pos hzero] at h₁
      cases h₁
    · rw [hc.toEth_accessList htype, if_neg hzero, Except.ok.injEq, Option.some.injEq] at h₁
      rw [not_or] at hzero
      rw [toEthEIP2930Tx, if_neg (not_not.mpr htype), if_neg hzero.1, if_neg hzero.2,
        Option.some.injEq, hc.ethFields_eq, hc.data] at h₂'
      rw [← h₁, ← h₂', EthTx.accessList.injEq, and_iff_left ⟨rfl, rfl, rfl⟩]
      exact (kept_eq_wrapped_iff tx a).trans (and_iff_left trivial).symm
  | dynamicFee tx chainID =>
    obtain ⟨hc, htype, -, htip, hfee, -⟩ := henc
    have h₂' : toEthEIP1559Tx t.proto = some tx₂ := by
      rwa [toEthByType, htype, if_neg (by decide), if_neg (by decide)] at h₂
    by_cases hzero : t.proto.chainID = 0
    · rw [hc.toEth_dynamicFee htype, if_pos hzero] at h₁
      cases h₁
    · rw [hc.toEth_dynamicFee htype, if_neg hzero, htip, hfee, Except.ok.injEq,
        Option.some.injEq] at h₁
      rw [toEthEIP1559Tx, if_neg (not_not.mpr htype), if_neg hzero, htip, hfee] at h₂'
      dsimp only at h₂'
      rw [Option.some.injEq, hc.ethFields_eq, hc.data] at h₂'
      rw [← h₁, ← h₂', EthTx.dynamicFee.injEq, and_iff_left ⟨rfl, rfl, rfl, rfl⟩]
      exact (kept_eq_wrapped_iff tx a).trans (and_iff_left trivial).symm
  | unsupported => exact absurd rfl hsup

/-- A transfer on chain 1, which both decoders give back. -/
theorem decoders_agree_iff_exampleTransfer :
    ∃ t, newTransactionFromEth stdEnv (knowing exampleTransfer) (some exampleTransfer) = .ok t ∧
      (∃ tx₁, t.toEthTransaction stdEnv = .ok (some tx₁)) ∧
      (∃ tx₂, toEthByType t.proto = some tx₂) ∧
      ∀ tx₁ tx₂, t.toEthTransaction stdEnv = .ok (some tx₁) → toEthByType t.proto = some tx₂ →
        tx₁ = tx₂ := by
  obtain ⟨t, hnew, hagree⟩ := decoders_agree_iff (knowing exampleTransfer) exampleTransfer
    exampleSender nofun ⟨⟨by decide, by decide⟩, ⟨by decide, by decide⟩, .inr (.inr (by decide))⟩
    (if_pos ⟨rfl, rfl⟩)
  have heval : (newTransactionFromEth stdEnv (knowing exampleTransfer) (some exampleTransfer)).map
      (fun t => (t.toEthTransaction stdEnv, toEthByType t.proto))
        = .ok (.ok (some exampleTransfer), some exampleTransfer) := by decide +kernel
  rw [hnew] at heval
  obtain ⟨h₁, h₂⟩ := Prod.mk.inj (Except.ok.inj heval)
  refine ⟨t, hnew, ⟨_, h₁⟩, ⟨_, h₂⟩, fun tx₁ tx₂ h₁ h₂ => ?_⟩
  exact (hagree tx₁ tx₂ h₁ h₂).mpr ⟨rfl, .inl (by decide)⟩

def exampleCall (data : Bytes) : EthTx :=
  .legacy ⟨9, 100000, some exampleRecipient, 0, data, 37,
    0x5823d6c46a507ec034725b53f0f1c22387c28482be122a2000c06d1c9ceaf8c6,
    0x6c809cd3594d2f2b56d074d455a92bc5727db6ec5be290525bf7f002fddba88a⟩ (20 * 10 ^ 9)

/-- `ToEthTransaction` gives the input of a call, `ToEthLegacyTx` the message around
it. -/
theorem decoders_differ_on_call :
    (newTransactionFromEth stdEnv (knowing (exampleCall [0xa9])) (some (exampleCall [0xa9]))).map
        (fun t => (t.toEthTransaction stdEnv, toEthByType t.proto))
      = .ok (.ok (some (exampleCall [0xa9])), some (exampleCall [0x0a, 0x01, 0xa9])) := by
  decide +kernel

end MetaNode
