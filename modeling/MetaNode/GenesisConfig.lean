/-
The validators of a genesis file and the configurations of their nodes
(`private_chain_kit/gen_single_chain.py`).

Keys are made for one validator after the other.  The genesis file gets the address of each in
lower case; the configuration of its node gets it after `lstrip("0x")`, which takes away every
`0` and `x` at the front and not only the prefix.
-/
import MetaNode.AccountJson
import MetaNode.GenesisAlloc

namespace MetaNode.GenesisConfig

open GenesisAlloc (asciiLower)

/-! ### The script -/

/-- A text of an address: its 40 digits, letters in any case, after `0x` or not. -/
def IsText (a : Address) (s : Bytes) : Prop :=
  ∃ digits, asciiLower digits = hexEncode a.1 ∧ (s = digits ∨ s = asciiBytes "0x" ++ digits)

structure EthAddress where
  account : Address
  text : Bytes
  isText : IsText account text

/-- What `generate_validator_keys` returns. -/
structure ValidatorKeys where
  authorityKey : Bytes
  protocolKey : Bytes
  networkKey : Bytes
  authorityKeyPrivate : Bytes
  ethPrivateKey : Bytes
  address : EthAddress

/-- An element of `validators_entries`, by the fields that come from the keys. -/
structure ValidatorEntry where
  address : Bytes
  ethPrivateKey : Bytes
  delegatorStakes : List (Bytes × Bytes)
  networkKey : Bytes
  hostname : Bytes
  authorityKey : Bytes
  protocolKey : Bytes

/-- `config.json` of a node, by the fields that come from the keys. -/
structure NodeConfig where
  privateKey : Bytes
  address : Bytes
  blsPrivateKey : Bytes

/-- `stake_wei` -/
def stakeWei : Bytes := asciiBytes "1000000000000000000000"

/-- `lstrip("0x")` -/
def lstrip0x (s : Bytes) : Bytes := s.dropWhile fun c => c == 48 || c == 120

/-- `val_entry` -/
def validatorEntry (nodeId : ℕ) (keys : ValidatorKeys) : ValidatorEntry where
  address := asciiLower keys.address.text
  ethPrivateKey := keys.ethPrivateKey
  delegatorStakes := [(asciiLower keys.address.text, stakeWei)]
  networkKey := keys.networkKey
  hostname := asciiBytes "node-" ++ decimalNat nodeId
  authorityKey := keys.authorityKey
  protocolKey := keys.protocolKey

/-- `exec_config` -/
def nodeConfig (keys : ValidatorKeys) : NodeConfig where
  privateKey := keys.authorityKeyPrivate
  address := asciiLower (lstrip0x keys.address.text)
  blsPrivateKey := keys.authorityKeyPrivate

variable (keysList : List ValidatorKeys)

def validators : List ValidatorEntry :=
  keysList.mapIdx validatorEntry

def configs : List NodeConfig := keysList.map nodeConfig

/-! ### Texts of an address -/

theorem ne_x_hexEncode (b : Bytes) : (120 : UInt8) ∉ hexEncode b := by
  have hdigit : ∀ n : Fin 16, hexDigit n ≠ 120 := by decide
  induction b with
  | nil => simp [hexEncode]
  | cons x b ih =>
    have hx := x.toNat_lt
    simp only [hexEncode, List.mem_cons, not_or]
    exact ⟨(hdigit ⟨x.toNat / 16, by omega⟩).symm, (hdigit ⟨x.toNat % 16, by omega⟩).symm, ih⟩

/-- What is taken away does not depend on the case of letters, if there is no capital `X`. -/
theorem asciiLower_lstrip0x {s : Bytes} (h : (88 : UInt8) ∉ s) :
    asciiLower (lstrip0x s) = lstrip0x (asciiLower s) := by
  have hletter : ∀ c : UInt8, c ≠ 88 →
      ((if 65 ≤ c && c ≤ 90 then c + 32 else c) == 48 ||
        (if 65 ≤ c && c ≤ 90 then c + 32 else c) == 120) = (c == 48 || c == 120) := by
    grind
  induction s with
  | nil => rfl
  | cons c s ih =>
    rw [List.mem_cons, not_or] at h
    have hc := hletter c (Ne.symm h.1)
    rw [lstrip0x, lstrip0x, List.dropWhile_cons, asciiLower, asciiLower, List.map_cons,
      List.dropWhile_cons, hc]
    split
    · exact ih h.2
    · rfl

theorem asciiLower_text {a : Address} {s : Bytes} (h : IsText a s) :
    asciiLower s = hexEncode a.1 ∨ asciiLower s = asciiBytes "0x" ++ hexEncode a.1 := by
  obtain ⟨digits, hdigits, rfl | rfl⟩ := h
  · exact .inl hdigits
  · refine .inr ?_
    rw [asciiLower, List.map_append, ← asciiLower, ← asciiLower, hdigits]
    rfl

theorem not_mem_text {a : Address} {s : Bytes} (h : IsText a s) : (88 : UInt8) ∉ s := by
  obtain ⟨digits, hdigits, hs⟩ := h
  have hnot : (88 : UInt8) ∉ digits := by
    intro hmem
    have hlower : (120 : UInt8) ∈ asciiLower digits := List.mem_map.mpr ⟨88, hmem, rfl⟩
    rw [hdigits] at hlower
    exact ne_x_hexEncode a.1 hlower
  obtain rfl | rfl := hs
  · exact hnot
  · rw [List.mem_append, not_or]
    exact ⟨by decide, hnot⟩

theorem nodeConfig_address (keys : ValidatorKeys) :
    (nodeConfig keys).address = lstrip0x (hexEncode keys.address.account.1) := by
  have htext := keys.address.isText
  show asciiLower (lstrip0x keys.address.text) = _
  rw [asciiLower_lstrip0x (not_mem_text htext)]
  obtain h | h := asciiLower_text htext
  · rw [h]
  · rw [h]
    rfl

theorem hexToAddress_validatorEntry (nodeId : ℕ) (keys : ValidatorKeys) :
    hexToAddress (validatorEntry nodeId keys).address = keys.address.account := by
  show hexToAddress (asciiLower keys.address.text) = _
  obtain h | h := asciiLower_text keys.address.isText
  · rw [h, hexToAddress_hexEncode]
  · have heven : (hexEncode keys.address.account.1).length % 2 = 0 := by
      rw [length_hexEncode]
      omega
    rw [h, hexToAddress, show asciiBytes "0x" = [48, 120] from rfl, fromHex_append heven,
      hexDecode_hexEncode]
    exact FixedBytes.ofBytes_val _

/-! ### Digits without the zeros at the front -/

theorem lstrip0x_cons {n : ℕ} (hn : n < 16) (s : Bytes) :
    lstrip0x (hexDigit n :: s) = if n = 0 then lstrip0x s else hexDigit n :: s := by
  have hstrip : ∀ n : Fin 16, (hexDigit n == 48 || hexDigit n == 120) = decide (n.val = 0) := by
    decide
  rw [lstrip0x, List.dropWhile_cons, hstrip ⟨n, hn⟩]
  simp [lstrip0x]

theorem length_lstrip0x_le (s : Bytes) : (lstrip0x s).length ≤ s.length :=
  (List.dropWhile_sublist _).length_le

theorem lstrip0x_eq_iff {x : UInt8} {b : Bytes} :
    lstrip0x (hexEncode (x :: b)) = hexEncode (x :: b) ↔ 16 ≤ x.toNat := by
  have hx := x.toNat_lt
  rw [hexEncode, lstrip0x_cons (by omega)]
  split
  · next hzero =>
    refine iff_of_false (fun heq => ?_) (by omega)
    have hshort := length_lstrip0x_le (hexDigit (x.toNat % 16) :: hexEncode b)
    rw [heq, List.length_cons, List.length_cons] at hshort
    omega
  · exact iff_of_true rfl (by omega)

theorem nodeConfig_address_iff (nodeId : ℕ) (keys : ValidatorKeys) :
    (nodeConfig keys).address = hexEncode (hexToAddress (validatorEntry nodeId keys).address).1 ↔
      16 ≤ (keys.address.account.1.headD 0).toNat := by
  rw [hexToAddress_validatorEntry, nodeConfig_address]
  obtain ⟨x, b, hcons⟩ := List.exists_cons_of_length_pos (l := keys.address.account.1)
    (by rw [keys.address.account.2]; decide)
  rw [hcons, lstrip0x_eq_iff]
  rfl

/-- **The configuration of each node has the 40 digits of its address in the genesis file exactly
if no address starts with the digit 0.** -/
theorem configs_address_iff :
    (∀ (i : ℕ) (entry : ValidatorEntry) (config : NodeConfig),
        (validators keysList)[i]? = some entry → (configs keysList)[i]? = some config →
        config.address = hexEncode (hexToAddress entry.address).1) ↔
      ∀ keys ∈ keysList, 16 ≤ (keys.address.account.1.headD 0).toNat := by
  have hentry : ∀ i : ℕ, (validators keysList)[i]? = keysList[i]?.map (validatorEntry i) := by
    intro i
    rw [validators, List.getElem?_mapIdx]
  have hconfig : ∀ i : ℕ, (configs keysList)[i]? = keysList[i]?.map nodeConfig := by
    intro i
    rw [configs, List.getElem?_map]
  constructor
  · intro h keys hkeys
    obtain ⟨i, hi⟩ := List.mem_iff_getElem?.mp hkeys
    have hnode := h i (validatorEntry i keys) (nodeConfig keys)
      (by rw [hentry, hi, Option.map_some]) (by rw [hconfig, hi, Option.map_some])
    exact (nodeConfig_address_iff i keys).mp hnode
  · intro h i entry config hi hi'
    rw [hentry] at hi
    obtain ⟨keys, hkeys, rfl⟩ := Option.map_eq_some_iff.mp hi
    rw [hconfig, hkeys, Option.map_some, Option.some.injEq] at hi'
    rw [← hi']
    exact (nodeConfig_address_iff i keys).mpr (h keys (List.mem_of_getElem? hkeys))

/-- The address whose first byte is 1 and whose other bytes are 0xab. -/
def smallAccount : Address := ⟨1 :: List.replicate 19 0xab, rfl⟩

def smallText : Bytes := asciiBytes "0x01ABABababababababababababababababababab"

theorem isText_smallText : IsText smallAccount smallText := by
  refine ⟨smallText.drop 2, ?_, .inr ?_⟩ <;> decide

def smallKeys : ValidatorKeys where
  authorityKey := []
  protocolKey := []
  networkKey := []
  authorityKeyPrivate := []
  ethPrivateKey := []
  address := ⟨smallAccount, smallText, isText_smallText⟩

/-- An address that starts with the digit 0 loses it in the configuration. -/
theorem config_loses_zero :
    (validators [smallKeys]).map ValidatorEntry.address =
        [asciiBytes "0x01ababababababababababababababababababab"] ∧
      (configs [smallKeys]).map NodeConfig.address =
        [asciiBytes "1ababababababababababababababababababab"] ∧
      asciiBytes "1ababababababababababababababababababab" ≠
        hexEncode (hexToAddress (asciiBytes "0x01ababababababababababababababababababab")).1 := by
  decide

end MetaNode.GenesisConfig
