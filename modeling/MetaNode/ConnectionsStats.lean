/-
The numbers of connections that a manager reports (`pkg/network/connections_manager.go`,
`pkg/common/connection_type.go`).

`Stats` counts the records of each type and puts the number under the name of the type.
`MapIndexToConnectionType` has no name for the index of `master_read_only`, whose number goes
to the name of connections without a type.
-/
import MetaNode.ConnectionsManager

namespace MetaNode

def mapIndexToConnectionType (index : ℕ) : String :=
  if index = 1 then "validator"
  else if index = 2 then "node"
  else if index = 3 then "child_node"
  else if index = 4 then "execute_miner"
  else if index = 5 then "verify_miner"
  else if index = 6 then "client"
  else if index = 7 then "storage"
  else if index = 8 then "explorer"
  else if index = 9 then "state_channel_validator"
  else if index = 10 then "backup"
  else "none"

/-- The name under which `Stats` reports a type. -/
def connectionTypeName (cType : ℕ) : String :=
  let connectionTypeName := mapIndexToConnectionType cType
  if connectionTypeName = "" then "UNKNOWN_TYPE_" ++ toString cType else connectionTypeName

namespace ConnectionsManager

variable {Conn : Type} (cm : ConnectionsManager Conn)

def typeTotal (cType : ℕ) : ℕ :=
  ((List.range numConnectionShards).map fun i =>
    (cm.typeToShards (cType, i)).entries.length).sum

def totalBelow (n : ℕ) : ℕ :=
  ((List.range n).map cm.typeTotal).sum

def totalRecords : ℕ := cm.totalBelow maxConnectionTypes

/-- The loop of `Stats`, over the first types. -/
def statsBelow (n : ℕ) : AList fun _ : String => Int32 :=
  (List.range n).foldl (fun totalConnectionByType cType =>
    if 0 < cm.typeTotal cType then
      totalConnectionByType.insert (connectionTypeName cType) (Int32.ofNat (cm.typeTotal cType))
    else totalConnectionByType) ∅

/-- `Stats`: the map `TotalConnectionByType` -/
def stats : AList fun _ : String => Int32 :=
  cm.statsBelow maxConnectionTypes

/-! ### What the numbers add up to -/

variable {cm} {n : ℕ}

theorem statsBelow_succ (cm : ConnectionsManager Conn) (n : ℕ) :
    cm.statsBelow (n + 1) =
      if 0 < cm.typeTotal n then
        (cm.statsBelow n).insert (connectionTypeName n) (Int32.ofNat (cm.typeTotal n))
      else cm.statsBelow n := by
  rw [statsBelow, List.range_succ, List.foldl_concat, ← statsBelow]

theorem totalBelow_succ (cm : ConnectionsManager Conn) (n : ℕ) :
    cm.totalBelow (n + 1) = cm.totalBelow n + cm.typeTotal n := by
  rw [totalBelow, List.range_succ, List.map_append, List.sum_append, List.map_singleton,
    List.sum_singleton, ← totalBelow]

theorem mapConnectionTypeToIndex_connectionTypeName :
    ∀ c < 11, mapConnectionTypeToIndex (connectionTypeName c) = c := by
  decide +kernel

theorem connectionTypeName_inj {c d : ℕ} (hc : c < 11) (hd : d < 11)
    (h : connectionTypeName c = connectionTypeName d) : c = d := by
  have hindex := mapConnectionTypeToIndex_connectionTypeName c hc
  rw [h, mapConnectionTypeToIndex_connectionTypeName d hd] at hindex
  omega

theorem lookup_statsBelow {c : ℕ} (hn : n ≤ 11) (hc : c < 11) :
    (cm.statsBelow n).lookup (connectionTypeName c) =
      if c < n ∧ 0 < cm.typeTotal c then some (Int32.ofNat (cm.typeTotal c)) else none := by
  induction n with
  | zero => simp [statsBelow]
  | succ n ih =>
    have hbefore := ih (by omega)
    rw [statsBelow_succ]
    by_cases hcn : c = n
    · subst hcn
      by_cases hpos : 0 < cm.typeTotal c
      · rw [if_pos hpos, AList.lookup_insert, if_pos ⟨Nat.lt_succ_self c, hpos⟩]
      · rw [if_neg hpos, hbefore, if_neg (fun h => hpos h.2), if_neg (fun h => hpos h.2)]
    · have hname : connectionTypeName c ≠ connectionTypeName n := by
        intro heq
        exact hcn (connectionTypeName_inj hc (by omega) heq)
      have hlookup : (if 0 < cm.typeTotal n then (cm.statsBelow n).insert (connectionTypeName n)
          (Int32.ofNat (cm.typeTotal n)) else cm.statsBelow n).lookup (connectionTypeName c)
          = (cm.statsBelow n).lookup (connectionTypeName c) := by
        split
        · exact AList.lookup_insert_ne hname
        · rfl
      have hlt : c < n + 1 ∧ 0 < cm.typeTotal c ↔ c < n ∧ 0 < cm.typeTotal c := by omega
      rw [hlookup, hbefore]
      simp only [hlt]

theorem typeTotal_le_totalBelow {c : ℕ} (hc : c < n) : cm.typeTotal c ≤ cm.totalBelow n := by
  induction n with
  | zero => omega
  | succ n ih =>
    rw [totalBelow_succ]
    by_cases hcn : c = n
    · rw [hcn]
      omega
    · have := ih (by omega)
      omega

theorem total_statsBelow (hn : n ≤ 11) (hsmall : cm.totalBelow n < 2 ^ 31) :
    GoMap.total Int32.toInt (cm.statsBelow n) = cm.totalBelow n := by
  induction n with
  | zero => rfl
  | succ n ih =>
    rw [totalBelow_succ] at hsmall
    have hbefore := ih (by omega) (by omega)
    rw [statsBelow_succ, totalBelow_succ]
    split
    · have hnew : connectionTypeName n ∉ cm.statsBelow n := by
        rw [← AList.lookup_eq_none, lookup_statsBelow (by omega) (by omega),
          if_neg (fun h => Nat.lt_irrefl n h.1)]
      rw [GoMap.total_insert_of_notMem _ hnew, hbefore, Int32.toInt_ofNat_of_lt (by omega)]
      omega
    · rw [hbefore]
      omega

theorem below_of_unused (hunused : ∀ c, 11 < c → cm.typeTotal c = 0) (k : ℕ) :
    cm.statsBelow (12 + k) = cm.statsBelow 12 ∧ cm.totalBelow (12 + k) = cm.totalBelow 12 := by
  induction k with
  | zero => exact ⟨rfl, rfl⟩
  | succ k ih =>
    have hzero := hunused (12 + k) (by omega)
    have hnone : ¬ 0 < cm.typeTotal (12 + k) := by omega
    rw [← Nat.add_assoc, statsBelow_succ, totalBelow_succ, if_neg hnone, hzero]
    exact ih

/-- **What the numbers add up to**: connections without a type are not counted if there are
some of the last type. -/
theorem total_stats (hunused : ∀ c, 11 < c → cm.typeTotal c = 0)
    (hsmall : cm.totalRecords < 2 ^ 31) :
    GoMap.total Int32.toInt cm.stats =
      cm.totalRecords - if 0 < cm.typeTotal 0 ∧ 0 < cm.typeTotal 11 then cm.typeTotal 0 else 0 := by
  obtain ⟨hstats, htotal⟩ := below_of_unused hunused 8
  have hsame : connectionTypeName 11 = connectionTypeName 0 := by decide
  have hrecords : cm.totalRecords = cm.totalBelow 11 + cm.typeTotal 11 :=
    htotal.trans (cm.totalBelow_succ 11)
  have hfirst : cm.typeTotal 0 ≤ cm.totalBelow 11 := typeTotal_le_totalBelow (by decide)
  have hsum : GoMap.total Int32.toInt (cm.statsBelow 11) = cm.totalBelow 11 :=
    total_statsBelow (Nat.le_refl 11) (by omega)
  have hlookup : (cm.statsBelow 11).lookup (connectionTypeName 0) = _ :=
    lookup_statsBelow (Nat.le_refl 11) (by decide)
  rw [stats, maxConnectionTypes, hstats, statsBelow_succ, hsame]
  by_cases hlast : 0 < cm.typeTotal 11
  · have hvalue := Int32.toInt_ofNat_of_lt (n := cm.typeTotal 11) (by omega)
    rw [if_pos hlast]
    by_cases hnone : 0 < cm.typeTotal 0
    · -- the number of the last type replaces that of connections without a type
      have hvalue' := Int32.toInt_ofNat_of_lt (n := cm.typeTotal 0) (by omega)
      rw [if_pos ⟨by decide, hnone⟩] at hlookup
      have hreplaced := GoMap.total_insert_of_lookup Int32.toInt hlookup
        (Int32.ofNat (cm.typeTotal 11))
      rw [if_pos ⟨hnone, hlast⟩]
      omega
    · rw [if_neg (fun h => hnone h.2)] at hlookup
      have hadded := GoMap.total_insert_of_notMem Int32.toInt (AList.lookup_eq_none.mp hlookup)
        (Int32.ofNat (cm.typeTotal 11))
      rw [if_neg (fun h => hnone h.1)]
      omega
  · rw [if_neg hlast, if_neg (fun h => hlast h.2)]
    omega

end ConnectionsManager

/-! ### Tables that calls lead to -/

/-- No record stands under an index that has no name for its type. -/
def ConnectionsManager.Named {Conn : Type} (cm : ConnectionsManager Conn) : Prop :=
  ∀ shard : ℕ × ℕ, 11 < shard.1 → cm.typeToShards shard = ∅

namespace ConnectionsManager

variable {Conn : Type} {E : Env} {cm : ConnectionsManager Conn}

theorem Named.setShard (h : cm.Named) {shard : ℕ × ℕ} (hshard : shard.1 ≤ 11)
    (connections : AList fun _ : Bytes => ConnectionRecord Conn) :
    (cm.setShard shard connections).Named := by
  intro shard' hshard'
  have hne : shard' ≠ shard := by
    intro heq
    rw [heq] at hshard'
    omega
  show Function.update cm.typeToShards shard connections shard' = ∅
  rw [Function.update_of_ne hne]
  exact h shard' hshard'

theorem getShard_le {cType : String} {address : Address} {shard : ℕ × ℕ}
    (h : getShard (mapConnectionTypeToIndex cType) address = some shard) : shard.1 ≤ 11 := by
  obtain ⟨hpos, hmax⟩ := mapConnectionTypeToIndex_range cType
  obtain ⟨-, -, rfl⟩ := getShard_eq_some.mp h
  show (mapConnectionTypeToIndex cType).toNat ≤ 11
  omega

theorem Named.addConnectionWithAddress (h : cm.Named) (metaOf : Conn → ConnectionMeta)
    (conn : Option Conn) (address : Address) (replace : Bool) (cTypeOverride : String) :
    (cm.addConnectionWithAddress E metaOf conn address replace cTypeOverride).Named := by
  rw [addConnectionWithAddress.eq_def]
  split
  · exact h
  · dsimp only
    split
    · exact h
    · next hshard =>
      split
      · exact h
      · exact h.setShard (getShard_le hshard) _

variable [DecidableEq Conn]

theorem Named.removeConnection (h : cm.Named) (metaOf : Conn → ConnectionMeta)
    (conn : Option Conn) : (cm.removeConnection E metaOf conn).Named := by
  cases conn with
  | none => exact h
  | some conn =>
    obtain ⟨shard, hshard⟩ := getShard_mapConnectionTypeToIndex (metaOf conn).cType
      (metaOf conn).address
    have hdelete : (cm.deleteRecord E shard (metaOf conn).address conn).Named := by
      rw [deleteRecord]
      split
      · split
        · exact h.setShard (getShard_le hshard) _
        · exact h
      · exact h
    rw [removeConnection_eq hshard]
    exact hdelete

theorem Named.step {s : ConnectionsState Conn} (h : s.manager.Named) (op : ConnectionsOp Conn) :
    (op.step E s).manager.Named := by
  cases op with
  | addConnection conn =>
    cases conn with
    | none => exact h
    | some => exact h.addConnectionWithAddress _ _ _ _ _
  | addConnectionWithAddress =>
    exact h.addConnectionWithAddress _ _ _ _ _
  | addParentConnection conn =>
    cases conn with
    | none | some => exact h
  | init => exact h
  | removeConnection => exact h.removeConnection _ _

theorem named_run (metaOf : Conn → ConnectionMeta) (ops : List (ConnectionsOp Conn)) :
    (runConnections E ⟨.new, metaOf⟩ ops).manager.Named := by
  induction ops using List.reverseRecOn with
  | nil => exact fun _ _ => rfl
  | append_singleton ops op ih =>
    rw [runConnections, List.foldl_concat, ← runConnections]
    exact ih.step op

omit [DecidableEq Conn] in
theorem Named.typeTotal (h : cm.Named) {c : ℕ} (hc : 11 < c) : cm.typeTotal c = 0 := by
  have hempty : (fun i => (cm.typeToShards (c, i)).entries.length) = fun _ => 0 := by
    funext i
    rw [h (c, i) hc]
    rfl
  rw [ConnectionsManager.typeTotal, hempty]
  simp

/-- **The numbers of `Stats` add up to the number of records exactly if there are not both
connections without a type and of the type `master_read_only`.** -/
theorem total_stats_iff (E : Env) (metaOf : Conn → ConnectionMeta) (ops : List (ConnectionsOp Conn))
    (hsmall : (runConnections E ⟨.new, metaOf⟩ ops).manager.totalRecords < 2 ^ 31) :
    GoMap.total Int32.toInt (runConnections E ⟨.new, metaOf⟩ ops).manager.stats
        = (runConnections E ⟨.new, metaOf⟩ ops).manager.totalRecords ↔
      ¬ (0 < (runConnections E ⟨.new, metaOf⟩ ops).manager.typeTotal 0 ∧
        0 < (runConnections E ⟨.new, metaOf⟩ ops).manager.typeTotal 11) := by
  have hnamed : (runConnections E ⟨.new, metaOf⟩ ops).manager.Named := named_run metaOf ops
  rw [total_stats (fun c hc => hnamed.typeTotal hc) hsmall]
  split
  · next hboth =>
    have hpos := hboth.1
    refine iff_of_false ?_ (not_not.mpr hboth)
    omega
  · next hnot => exact iff_of_true (Int.sub_zero _) hnot

def twoConnections : List (ConnectionsOp Bool) :=
  [.addConnection (some false) true "", .addConnection (some true) true ""]

/-- One connection of the type `master_read_only`, the other of the type `t`. -/
def twoTypes (t : String) (conn : Bool) : ConnectionMeta :=
  if conn then ⟨addressOfByte 1, "master_read_only"⟩ else ⟨addressOfByte 2, t⟩

theorem total_stats_typed :
    (runConnections stdEnv ⟨.new, twoTypes "client"⟩ twoConnections).manager.totalRecords = 2 ∧
    GoMap.total Int32.toInt
        (runConnections stdEnv ⟨.new, twoTypes "client"⟩ twoConnections).manager.stats
      = (runConnections stdEnv ⟨.new, twoTypes "client"⟩ twoConnections).manager.totalRecords :=
  ⟨by decide +kernel, (total_stats_iff stdEnv (twoTypes "client") twoConnections
    (by decide +kernel)).mpr (by decide +kernel)⟩

/-- Two connections are in the table, and the numbers add up to one. -/
theorem stats_loses_untyped :
    (runConnections stdEnv ⟨.new, twoTypes ""⟩ twoConnections).manager.totalRecords = 2 ∧
    GoMap.total Int32.toInt (runConnections stdEnv ⟨.new, twoTypes ""⟩ twoConnections).manager.stats
      = 1 := by
  decide +kernel

end ConnectionsManager

end MetaNode
