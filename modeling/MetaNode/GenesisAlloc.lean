/-
The accounts of a genesis file (`private_chain_kit/gen_single_chain.py`).

The list `alloc` of a genesis file gets the accounts of the validators, then the developer
accounts of a file of keys, then the account of the relayer, then the accounts of a template.
Developer accounts and accounts of the template whose address was seen before are passed
over.  The relayer is put in without a look at the addresses seen, and its address is not
added to them.
-/
import Mathlib.Data.List.Nodup
import MetaNode.Receipt

namespace MetaNode.GenesisAlloc

/-- The account of the relayer that every chain has. -/
def relayerAddress : Bytes := asciiBytes "0x7d8bfbaba9268b59bab9ef8ff3f314d3f5747366"

/-- `str.lower` -/
structure LowerCase where
  lower : Bytes → Bytes
  lower_lower : ∀ s, lower (lower s) = lower s
  lower_relayerAddress : lower relayerAddress = relayerAddress

/-! ### The files -/

inductive JsonAccount where
  | address (s : Bytes)
  /-- An object without an address. -/
  | noAddress
  /-- An object with an address that is no text. -/
  | otherAddress
  | notObject
  deriving DecidableEq

/-- `acc["address"]` as a text; there is an exception if it is none. -/
def JsonAccount.item : JsonAccount → Option Bytes
  | .address s => some s
  | _ => none

/-- `ex_acc.get("address", "")` as a text; there is an exception if it is none. -/
def JsonAccount.get : JsonAccount → Option Bytes
  | .address s => some s
  | .noAddress => some []
  | _ => none

/-- A value of the file of keys: a list of accounts, or something else. -/
abbrev ChainKeys := Option (List JsonAccount)

/-- What `json.load` makes of the file of keys. -/
inductive KeysFile where
  /-- There is no such file, or it is no JSON. -/
  | unreadable
  | notObject
  | object (entries : List (Bytes × ChainKeys))

/-- `data[key] = accounts` -/
def assign (key : Bytes) (accounts : ChainKeys) (data : List (Bytes × ChainKeys)) :
    List (Bytes × ChainKeys) :=
  if data.any (·.1 == key) then data.map fun e => if e.1 = key then (key, accounts) else e
  else data ++ [(key, accounts)]

def hasKeys (key : Bytes) (data : List (Bytes × ChainKeys)) : Bool :=
  match data.find? (·.1 == key) with
  | some (_, some (_ :: _)) => true
  | _ => false

/-- The accounts of all chains that `load_or_generate_private_dev_keys` returns; `fresh` are the
addresses of the accounts that it generates if there are none for the chain. -/
def loadOrGenerate (chainKey : Bytes) (fresh : List Bytes) : KeysFile → Option (List JsonAccount)
  | .notObject => none
  | .unreadable => some (fresh.map .address)
  | .object entries =>
    let data :=
      if hasKeys chainKey entries then entries
      else assign chainKey (some (fresh.map .address)) entries
    some (data.flatMap fun e => e.2.getD [])

/-! ### The list -/

section Alloc

variable (L : LowerCase)

/-- The loop over the developer accounts: the accounts that it adds. -/
def addDevAccounts (seen : List Bytes) : List JsonAccount → Option (List Bytes)
  | [] => some []
  | acc :: rest => do
    let addr := L.lower (← acc.item)
    if seen.contains addr then addDevAccounts seen rest
    else return addr :: (← addDevAccounts (addr :: seen) rest)

/-- The loop over the accounts of the template.  It ends at an exception, with the accounts
that were added. -/
def mergeTemplate (seen : List Bytes) : List JsonAccount → List Bytes
  | [] => []
  | acc :: rest =>
    match acc.get with
    | none => []
    | some s =>
      if L.lower s = [] ∨ seen.contains (L.lower s) then mergeTemplate seen rest
      else s :: mergeTemplate (L.lower s :: seen) rest

/-- The addresses of `alloc_list`.  `validators` are the addresses of the keys that are made
for the validators; `template` are the accounts of the template if there is one to merge. -/
def alloc (validators : List Bytes) (devAccounts : List JsonAccount)
    (template : List JsonAccount) : Option (List Bytes) := do
  let allocList := validators.map L.lower
  let seen := allocList.map L.lower
  let added ← addDevAccounts L seen devAccounts
  return allocList ++ added ++ [relayerAddress] ++ mergeTemplate L (added ++ seen) template

/-- The addresses in the genesis file, if it is written. -/
def genesisAlloc (validators : List Bytes) (chainKey : Bytes) (fresh : List Bytes)
    (keysFile : KeysFile) (template : List JsonAccount) : Option (List Bytes) := do
  alloc L validators (← loadOrGenerate chainKey fresh keysFile) template

end Alloc

/-! ### Addresses that are new -/

variable (L : LowerCase)

/-- The addresses that were not seen before, in any case of their letters. -/
def addNew (seen : List Bytes) : List Bytes → List Bytes
  | [] => []
  | a :: rest =>
    if seen.contains (L.lower a) then addNew seen rest
    else a :: addNew (L.lower a :: seen) rest

theorem mem_addNew (seen addresses : List Bytes) (key : Bytes) :
    key ∈ (addNew L seen addresses).map L.lower ↔ key ∈ addresses.map L.lower ∧ key ∉ seen := by
  induction addresses generalizing seen with
  | nil => simp [addNew]
  | cons a rest ih =>
    rw [addNew]
    split
    · next hseen =>
      rw [ih, List.map_cons, List.mem_cons]
      constructor
      · rintro ⟨hkey, hnot⟩
        exact ⟨.inr hkey, hnot⟩
      · rintro ⟨rfl | hkey, hnot⟩
        · exact absurd (List.contains_iff_mem.mp hseen) hnot
        · exact ⟨hkey, hnot⟩
    · next hseen =>
      rw [List.contains_iff_mem] at hseen
      rw [List.map_cons, List.map_cons, List.mem_cons, List.mem_cons, ih, List.mem_cons, not_or]
      constructor
      · rintro (rfl | ⟨hkey, -, hnot⟩)
        · exact ⟨.inl rfl, hseen⟩
        · exact ⟨.inr hkey, hnot⟩
      · rintro ⟨hkey, hnot⟩
        by_cases ha : key = L.lower a
        · exact .inl ha
        · exact .inr ⟨hkey.resolve_left ha, ha, hnot⟩

theorem nodup_addNew (seen addresses : List Bytes) :
    ((addNew L seen addresses).map L.lower).Nodup := by
  induction addresses generalizing seen with
  | nil => exact List.nodup_nil
  | cons a rest ih =>
    rw [addNew]
    split
    · exact ih seen
    · rw [List.map_cons, List.nodup_cons, mem_addNew]
      refine ⟨?_, ih _⟩
      rintro ⟨-, hnot⟩
      exact hnot List.mem_cons_self

theorem addNew_subset {seen addresses : List Bytes} {a : Bytes} (h : a ∈ addNew L seen addresses) :
    a ∈ addresses := by
  induction addresses generalizing seen with
  | nil => cases h
  | cons b rest ih =>
    rw [addNew] at h
    split at h
    · exact List.mem_cons_of_mem _ (ih h)
    · obtain rfl | h := List.mem_cons.mp h
      · exact List.mem_cons_self
      · exact List.mem_cons_of_mem _ (ih h)

/-! ### The loops -/

/-- The addresses of the developer accounts, in lower case. -/
def devKeys (devAccounts : List JsonAccount) : List Bytes :=
  (devAccounts.filterMap JsonAccount.item).map L.lower

def templateAddresses (template : List JsonAccount) : List Bytes :=
  ((template.takeWhile (·.get.isSome)).filterMap JsonAccount.get).filter (L.lower · ≠ [])

theorem addDevAccounts_eq {seen added : List Bytes} {devAccounts : List JsonAccount}
    (h : addDevAccounts L seen devAccounts = some added) :
    added = addNew L seen (devKeys L devAccounts) := by
  induction devAccounts generalizing seen added with
  | nil =>
    cases h
    rfl
  | cons acc rest ih =>
    cases hitem : acc.item with
    | none => simp [addDevAccounts, hitem] at h
    | some s =>
      have hkeys : devKeys L (acc :: rest) = L.lower s :: devKeys L rest := by
        rw [devKeys, List.filterMap_cons_some hitem, List.map_cons, devKeys]
      rw [hkeys, addNew, L.lower_lower]
      simp only [addDevAccounts, hitem, Option.bind_eq_bind, Option.bind_some] at h
      split at h
      · next hseen =>
        rw [if_pos hseen]
        exact ih h
      · next hseen =>
        rw [if_neg hseen]
        obtain ⟨more, hmore, hadded⟩ := Option.bind_eq_some_iff.mp h
        cases hadded
        rw [ih hmore]

theorem mergeTemplate_eq (seen : List Bytes) (template : List JsonAccount) :
    mergeTemplate L seen template = addNew L seen (templateAddresses L template) := by
  induction template generalizing seen with
  | nil => rfl
  | cons acc rest ih =>
    cases hget : acc.get with
    | none => simp [mergeTemplate, templateAddresses, hget, addNew]
    | some s =>
      by_cases hempty : L.lower s = []
      · have hrest : templateAddresses L (acc :: rest) = templateAddresses L rest := by
          simp [templateAddresses, hget, hempty]
        simp only [mergeTemplate, hget, hempty, true_or, if_true]
        rw [ih, hrest]
      · have hcons : templateAddresses L (acc :: rest) = s :: templateAddresses L rest := by
          simp [templateAddresses, hget, hempty]
        simp only [mergeTemplate, hget, hempty, false_or]
        rw [hcons, addNew, ih, ih]

/-! ### The list -/

variable {L} {validators : List Bytes} {devAccounts template : List JsonAccount}
  {addresses : List Bytes}

theorem map_lower_map_lower (l : List Bytes) : (l.map L.lower).map L.lower = l.map L.lower := by
  rw [List.map_map]
  exact List.map_congr_left fun s _ => L.lower_lower s

/-- The developer accounts that are added, by their addresses in lower case. -/
def newDevKeys (L : LowerCase) (validators : List Bytes) (devAccounts : List JsonAccount) :
    List Bytes :=
  addNew L (validators.map L.lower) (devKeys L devAccounts)

theorem newDevKeys_lower : (newDevKeys L validators devAccounts).map L.lower =
    newDevKeys L validators devAccounts := by
  have hlower : ∀ key ∈ newDevKeys L validators devAccounts, L.lower key = id key := by
    intro key hkey
    obtain ⟨s, -, rfl⟩ := List.mem_map.mp (addNew_subset L hkey)
    exact L.lower_lower s
  rw [List.map_congr_left hlower, List.map_id]

theorem keys_alloc (h : alloc L validators devAccounts template = some addresses) :
    addresses.map L.lower =
      validators.map L.lower ++ newDevKeys L validators devAccounts ++ [relayerAddress] ++
        (addNew L (newDevKeys L validators devAccounts ++ validators.map L.lower)
          (templateAddresses L template)).map L.lower := by
  have htwice := map_lower_map_lower (L := L) validators
  rw [alloc] at h
  obtain ⟨added, hadded, h⟩ := Option.bind_eq_some_iff.mp h
  have hnew : added = newDevKeys L validators devAccounts := by
    rw [addDevAccounts_eq L hadded, htwice, newDevKeys]
  rw [htwice, hnew] at h
  cases h
  rw [mergeTemplate_eq, List.map_append, List.map_append, List.map_append, htwice,
    newDevKeys_lower, List.map_singleton, L.lower_relayerAddress]

/-- Parts of which each has none of the elements of those before it, but for one element that
stands by itself. -/
theorem nodup_parts {V D T : List Bytes} {r : Bytes} (hD : D.Nodup) (hT : T.Nodup)
    (hDV : ∀ key ∈ D, key ∉ V) (hTDV : ∀ key ∈ T, key ∉ D ++ V) :
    (V ++ D ++ [r] ++ T).Nodup ↔ V.Nodup ∧ r ∉ V ∧ r ∉ D ∧ r ∉ T := by
  simp only [List.append_assoc, List.singleton_append, List.nodup_append, List.nodup_cons,
    List.mem_append, List.mem_cons]
  simp only [List.mem_append, not_or] at hTDV
  constructor
  · rintro ⟨hV, ⟨-, ⟨hrT, -⟩, hDr⟩, hVr⟩
    refine ⟨hV, fun hr => ?_, fun hr => ?_, hrT⟩
    · exact hVr r hr r (.inr (.inl rfl)) rfl
    · exact hDr r hr r (.inl rfl) rfl
  · rintro ⟨hV, hrV, hrD, hrT⟩
    refine ⟨hV, ⟨hD, ⟨hrT, hT⟩, ?_⟩, ?_⟩
    · rintro a ha b (rfl | hb) rfl
      · exact hrD ha
      · exact (hTDV a hb).1 ha
    · rintro a ha b (hb | rfl | hb) rfl
      · exact hDV a hb ha
      · exact hrV ha
      · exact (hTDV a hb).2 ha

/-- **The addresses of a genesis file are pairwise distinct, in any case of their letters,
exactly if those of the validators are and no other account is the relayer.** -/
theorem alloc_nodup_iff (L : LowerCase) (validators : List Bytes) (chainKey : Bytes)
    (fresh : List Bytes) (keysFile : KeysFile) (template : List JsonAccount)
    {devAccounts : List JsonAccount} {addresses : List Bytes}
    (hdev : loadOrGenerate chainKey fresh keysFile = some devAccounts)
    (h : genesisAlloc L validators chainKey fresh keysFile template = some addresses) :
    (addresses.map L.lower).Nodup ↔
      (validators.map L.lower).Nodup ∧ relayerAddress ∉ validators.map L.lower ∧
        relayerAddress ∉ devKeys L devAccounts ∧
        relayerAddress ∉ (templateAddresses L template).map L.lower := by
  rw [genesisAlloc, hdev] at h
  have hdevKeys : ∀ key, key ∈ newDevKeys L validators devAccounts ↔
      key ∈ devKeys L devAccounts ∧ key ∉ validators.map L.lower := by
    intro key
    have hmem := mem_addNew L (validators.map L.lower) (devKeys L devAccounts) key
    rw [← newDevKeys, newDevKeys_lower] at hmem
    rw [hmem, devKeys, map_lower_map_lower]
  have hmerged := mem_addNew L (newDevKeys L validators devAccounts ++ validators.map L.lower)
    (templateAddresses L template)
  have hnodup : (newDevKeys L validators devAccounts).Nodup := by
    rw [← newDevKeys_lower]
    exact nodup_addNew L _ _
  rw [keys_alloc h, nodup_parts hnodup (nodup_addNew L _ _)
    (fun key hkey => ((hdevKeys key).mp hkey).2)
    fun key hkey => ((hmerged key).mp hkey).2, hmerged, hdevKeys]
  simp only [List.mem_append, hdevKeys, not_and, not_or, not_not]
  tauto

/-! ### Addresses in ASCII -/

def asciiLower (s : Bytes) : Bytes := s.map fun c => if 65 ≤ c && c ≤ 90 then c + 32 else c

theorem asciiLower_asciiLower (s : Bytes) : asciiLower (asciiLower s) = asciiLower s := by
  rw [asciiLower, asciiLower, List.map_map]
  refine List.map_congr_left fun c _ => ?_
  show (if 65 ≤ (if 65 ≤ c && c ≤ 90 then c + 32 else c) &&
      (if 65 ≤ c && c ≤ 90 then c + 32 else c) ≤ 90 then _ else _) = _
  by_cases hc : (65 ≤ c && c ≤ 90) = true
  · -- a letter that was made small is no capital
    simp only [hc, if_true]
    rw [if_neg]
    simp only [Bool.and_eq_true, decide_eq_true_eq, UInt8.le_iff_toNat_le] at hc ⊢
    have hadd : (c + 32).toNat = (c.toNat + 32) % 256 := UInt8.toNat_add c 32
    have h65 : (65 : UInt8).toNat = 65 := rfl
    have h90 : (90 : UInt8).toNat = 90 := rfl
    omega
  · simp only [hc, if_false, Bool.false_eq_true]

theorem asciiLower_relayerAddress : asciiLower relayerAddress = relayerAddress := by
  decide

def ascii : LowerCase := ⟨asciiLower, asciiLower_asciiLower, asciiLower_relayerAddress⟩

def oneKey : KeysFile := .object [(asciiBytes "1337", some [.address (asciiBytes "0xDE")])]

theorem alloc_nodup_oneKey :
    genesisAlloc ascii [asciiBytes "0xAB"] (asciiBytes "1337") [] oneKey
        [.address (asciiBytes "0xdE"), .noAddress, .address (asciiBytes "0xEF")] =
      some [asciiBytes "0xab", asciiBytes "0xde", relayerAddress, asciiBytes "0xEF"] ∧
    (([asciiBytes "0xab", asciiBytes "0xde", relayerAddress, asciiBytes "0xEF"] : List Bytes).map
      ascii.lower).Nodup := by
  have hdev : loadOrGenerate (asciiBytes "1337") [] oneKey =
      some [.address (asciiBytes "0xDE")] := by decide
  have halloc : genesisAlloc ascii [asciiBytes "0xAB"] (asciiBytes "1337") [] oneKey
        [.address (asciiBytes "0xdE"), .noAddress, .address (asciiBytes "0xEF")] =
      some [asciiBytes "0xab", asciiBytes "0xde", relayerAddress, asciiBytes "0xEF"] := by decide
  exact ⟨halloc, (alloc_nodup_iff ascii _ _ _ _ _ hdev halloc).mpr (by decide)⟩

/-- A template with the account of the relayer gives a second entry for it, also if the
address is written in capitals. -/
theorem alloc_relayer_twice :
    genesisAlloc ascii [asciiBytes "0xAB"] (asciiBytes "1337") [] oneKey
        [.address (asciiBytes "0x7D8BFBABA9268B59BAB9EF8FF3F314D3F5747366")] =
      some [asciiBytes "0xab", asciiBytes "0xde", relayerAddress,
        asciiBytes "0x7D8BFBABA9268B59BAB9EF8FF3F314D3F5747366"] ∧
    ¬ (([asciiBytes "0xab", asciiBytes "0xde", relayerAddress,
        asciiBytes "0x7D8BFBABA9268B59BAB9EF8FF3F314D3F5747366"] : List Bytes).map
      ascii.lower).Nodup := by
  decide

end MetaNode.GenesisAlloc
