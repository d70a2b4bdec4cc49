/-
The table of connections of `pkg/network/connections_manager.go`.

The table has a map for each type of connection and each shard of the addresses, keyed by
the address as text.  Where a connection is put follows from the arguments of the call
that adds it; where it is looked for when it is removed follows from what the connection
itself says at that time, and `Init` changes that.

A connection that was added under another address stays in the table, and so does one
that `Init` renamed since (`removeConnection_leaves_record`).
-/
import Mathlib.Data.List.Induction
import MetaNode.GoMap
import MetaNode.TrieNode

namespace MetaNode

def mapConnectionTypeToIndex (cSType : String) : ℤ :=
  if cSType = "validator" then 1
  else if cSType = "node" then 2
  else if cSType = "child_node" then 3
  else if cSType = "execute_miner" then 4
  else if cSType = "verify_miner" then 5
  else if cSType = "client" then 6
  else if cSType = "storage" then 7
  else if cSType = "explorer" then 8
  else if cSType = "state_channel_validator" then 9
  else if cSType = "backup" then 10
  else if cSType = "master_read_only" then 11
  else 0

/-- What a connection says about itself: `Address()` and `Type()`. -/
structure ConnectionMeta where
  address : Address
  cType : String

structure ConnectionRecord (Conn : Type) where
  address : Address
  conn : Conn

/-- The shards are numbered by the index of the type and their own index. -/
structure ConnectionsManager (Conn : Type) where
  parentConnection : Option Conn
  typeToShards : ℕ × ℕ → AList fun _ : Bytes => ConnectionRecord Conn

def maxConnectionTypes : ℕ := 20

def numConnectionShards : ℕ := 32

def calculateShardIndex (address : Address) : ℕ :=
  (address.1.getD 19 0).toNat &&& (numConnectionShards - 1)

/-- `getShard`; an index without shards is an error. -/
def getShard (cType : ℤ) (address : Address) : Option (ℕ × ℕ) :=
  if cType < 0 ∨ (maxConnectionTypes : ℤ) ≤ cType then none
  else some (cType.toNat, calculateShardIndex address)

def addressKey (E : Env) (address : Address) : Bytes := E.addressHex address

namespace ConnectionsManager

variable {Conn : Type} (E : Env)

/-- `NewConnectionsManager` -/
def new : ConnectionsManager Conn := ⟨none, fun _ => ∅⟩

variable (cm : ConnectionsManager Conn)

def setShard (shard : ℕ × ℕ)
    (connections : AList fun _ : Bytes => ConnectionRecord Conn) : ConnectionsManager Conn :=
  { cm with typeToShards := Function.update cm.typeToShards shard connections }

/-! ### Lookups -/

def connectionByTypeAndAddress (cType : ℤ) (address : Address) : Option Conn :=
  match getShard cType address with
  | none => none
  | some shard => ((cm.typeToShards shard).lookup (addressKey E address)).map (·.conn)

/-- `ConnectionsByType`: the shards are walked one after the other. -/
def connectionsByType (walk : Walk (Sigma fun _ : Bytes => ConnectionRecord Conn))
    (cm : ConnectionsManager Conn) (cType : ℤ) : AList fun _ : Address => Conn :=
  if cType < 0 ∨ (maxConnectionTypes : ℤ) ≤ cType then ∅
  else GoMap.insertAll ∅ ((List.range numConnectionShards).flatMap fun i =>
    (walk.order (cm.typeToShards (cType.toNat, i)).entries).map fun e => ⟨e.2.address, e.2.conn⟩)

def Returns (conn : Conn) : Prop :=
  (∃ cType address, cm.connectionByTypeAndAddress E cType address = some conn) ∨
  (∃ walk cType address, (cm.connectionsByType walk cType).lookup address = some conn) ∨
  cm.parentConnection = some conn

/-! ### Calls -/

variable (metaOf : Conn → ConnectionMeta)

/-- `AddConnectionWithAddress`; `none` is a nil connection.  A connection that is replaced is
disconnected later, which is not the table's business. -/
def addConnectionWithAddress
    (conn : Option Conn) (address : Address) (replace : Bool) (cTypeOverride : String) :
    ConnectionsManager Conn :=
  match conn with
  | none => cm
  | some conn =>
    let cTypeStr := if cTypeOverride = "" then (metaOf conn).cType else cTypeOverride
    match getShard (mapConnectionTypeToIndex cTypeStr) address with
    | none => cm
    | some shard =>
      if ((cm.typeToShards shard).lookup (addressKey E address)).isSome ∧ replace = false then cm
      else cm.setShard shard ((cm.typeToShards shard).insert (addressKey E address) ⟨address, conn⟩)

/-- There is a connection under the address, and it is not to be replaced. -/
def Skips (conn : Conn) (address : Address) (replace : Bool) (cTypeOverride : String) : Prop :=
  replace = false ∧ (cm.connectionByTypeAndAddress E (mapConnectionTypeToIndex
    (if cTypeOverride = "" then (metaOf conn).cType else cTypeOverride)) address).isSome

def addConnection
    (conn : Option Conn) (replace : Bool) (cTypeOverride : String) : ConnectionsManager Conn :=
  match conn with
  | none => cm
  | some conn =>
    cm.addConnectionWithAddress E metaOf (some conn) (metaOf conn).address replace cTypeOverride

def addParentConnection (conn : Option Conn) : ConnectionsManager Conn :=
  match conn with
  | none => cm
  | some conn => { cm with parentConnection := some conn }

variable [DecidableEq Conn]

/-- The record of the connection is taken out of its shard, if it is there. -/
def deleteRecord (shard : ℕ × ℕ) (address : Address) (conn : Conn) : ConnectionsManager Conn :=
  match (cm.typeToShards shard).lookup (addressKey E address) with
  | some record =>
    if record.conn = conn then
      cm.setShard shard ((cm.typeToShards shard).erase (addressKey E address))
    else cm
  | none => cm

def removeConnection (conn : Option Conn) : ConnectionsManager Conn :=
  match conn with
  | none => cm
  | some conn =>
    let address := (metaOf conn).address
    match getShard (mapConnectionTypeToIndex (metaOf conn).cType) address with
    | none => cm
    | some shard =>
      let cm := cm.deleteRecord E shard address conn
      if cm.parentConnection = some conn then { cm with parentConnection := none } else cm

end ConnectionsManager

/-! ### Runs -/

/-- A manager, and what the connections say about themselves. -/
structure ConnectionsState (Conn : Type) where
  manager : ConnectionsManager Conn
  metaOf : Conn → ConnectionMeta

inductive ConnectionsOp (Conn : Type) where
  | addConnection (conn : Option Conn) (replace : Bool) (cTypeOverride : String)
  | addConnectionWithAddress (conn : Option Conn) (address : Address) (replace : Bool)
      (cTypeOverride : String)
  | addParentConnection (conn : Option Conn)
  /-- `Connection.Init` -/
  | init (conn : Conn) (address : Address) (cType : String)
  | removeConnection (conn : Option Conn)

namespace ConnectionsOp

variable {Conn : Type} [DecidableEq Conn] (E : Env)

def step (s : ConnectionsState Conn) : ConnectionsOp Conn → ConnectionsState Conn
  | addConnection conn replace cTypeOverride =>
    { s with manager := s.manager.addConnection E s.metaOf conn replace cTypeOverride }
  | addConnectionWithAddress conn address replace cTypeOverride =>
    { s with
      manager := s.manager.addConnectionWithAddress E s.metaOf conn address replace cTypeOverride }
  | addParentConnection conn => { s with manager := s.manager.addParentConnection conn }
  | init conn address cType =>
    { s with metaOf := Function.update s.metaOf conn ⟨address, cType⟩ }
  | removeConnection conn => { s with manager := s.manager.removeConnection E s.metaOf conn }

/-- The call adds the connection; one that is passed over does not. -/
def Adds (s : ConnectionsState Conn) (conn : Conn) : ConnectionsOp Conn → Prop
  | addConnection conn' replace cTypeOverride =>
    conn' = some conn ∧
      ¬ s.manager.Skips E s.metaOf conn (s.metaOf conn).address replace cTypeOverride
  | addConnectionWithAddress conn' address replace cTypeOverride =>
    conn' = some conn ∧ ¬ s.manager.Skips E s.metaOf conn address replace cTypeOverride
  | addParentConnection conn' => conn' = some conn
  | _ => False

end ConnectionsOp

variable {Conn : Type} [DecidableEq Conn] (E : Env)

def runConnections (s : ConnectionsState Conn) (ops : List (ConnectionsOp Conn)) :
    ConnectionsState Conn :=
  ops.foldl (ConnectionsOp.step E) s

def NeverAdds (conn : Conn) : ConnectionsState Conn → List (ConnectionsOp Conn) → Prop
  | _, [] => True
  | s, op :: ops => ¬ op.Adds E s conn ∧ NeverAdds conn (op.step E s) ops

/-! ### Shards -/

variable {cType : ℤ} {shard : ℕ × ℕ} {address : Address}

theorem getShard_eq_some :
    getShard cType address = some shard ↔
      0 ≤ cType ∧ cType < maxConnectionTypes ∧
        (cType.toNat, calculateShardIndex address) = shard := by
  rw [getShard]
  split
  · simp only [reduceCtorEq, false_iff, not_and]
    omega
  · rw [Option.some.injEq]
    constructor
    · exact fun h => ⟨by omega, by omega, h⟩
    · exact fun h => h.2.2

theorem getShard_inj {cType' : ℤ} {address address' : Address}
    (h : getShard cType address = some shard) (h' : getShard cType' address' = some shard) :
    cType = cType' := by
  rw [getShard_eq_some] at h h'
  have hindex := congrArg Prod.fst (h.2.2.trans h'.2.2.symm)
  simp only at hindex
  omega

theorem mapConnectionTypeToIndex_range (cSType : String) :
    0 ≤ mapConnectionTypeToIndex cSType ∧ mapConnectionTypeToIndex cSType ≤ 11 := by
  have hite : ∀ {c : Prop} [Decidable c] {m n : ℤ}, 0 ≤ m ∧ m ≤ 11 → 0 ≤ n ∧ n ≤ 11 →
      0 ≤ (if c then m else n) ∧ (if c then m else n) ≤ 11 := by
    intro c _ m n hm hn
    split
    · exact hm
    · exact hn
  rw [mapConnectionTypeToIndex]
  repeat refine hite (by decide) ?_
  decide

theorem getShard_mapConnectionTypeToIndex (cSType : String) (address : Address) :
    ∃ shard, getShard (mapConnectionTypeToIndex cSType) address = some shard := by
  obtain ⟨hpos, hmax⟩ := mapConnectionTypeToIndex_range cSType
  refine ⟨_, getShard_eq_some.mpr ⟨hpos, ?_, rfl⟩⟩
  rw [maxConnectionTypes]
  omega

namespace ConnectionsManager

variable {E} {cm : ConnectionsManager Conn} {metaOf : Conn → ConnectionMeta}
  {key : Bytes} {record : ConnectionRecord Conn}

omit [DecidableEq Conn] in
theorem lookup_setShard (cm : ConnectionsManager Conn) (shard shard' : ℕ × ℕ)
    (connections : AList fun _ : Bytes => ConnectionRecord Conn) (key : Bytes) :
    ((cm.setShard shard connections).typeToShards shard').lookup key =
      if shard' = shard then connections.lookup key else (cm.typeToShards shard').lookup key := by
  rw [setShard]
  simp only [Function.update_apply]
  split <;> rfl

def InPlace (E : Env) (shard : ℕ × ℕ) (key : Bytes) (record : ConnectionRecord Conn) : Prop :=
  key = addressKey E record.address ∧ ∃ cType, getShard cType record.address = some shard

omit [DecidableEq Conn] in
theorem lookup_addConnectionWithAddress {conn : Option Conn} {replace : Bool}
    {cTypeOverride : String}
    (h : ((cm.addConnectionWithAddress E metaOf conn address replace cTypeOverride).typeToShards
      shard).lookup key = some record) :
    (cm.typeToShards shard).lookup key = some record ∨
      (conn = some record.conn ∧ ¬ cm.Skips E metaOf record.conn address replace cTypeOverride) ∧
        InPlace E shard key record := by
  rw [addConnectionWithAddress.eq_def] at h
  split at h
  · exact .inl h
  · rename_i conn
    dsimp only at h
    split at h
    · exact .inl h
    · rename_i shard' hshard
      split at h
      · exact .inl h
      · rename_i hskip
        rw [lookup_setShard] at h
        split at h
        · rename_i heq
          subst heq
          by_cases hkey : key = addressKey E address
          · subst hkey
            rw [AList.lookup_insert] at h
            cases h
            refine .inr ⟨⟨rfl, ?_⟩, rfl, _, hshard⟩
            rintro ⟨hreplace, hsome⟩
            rw [connectionByTypeAndAddress, hshard, Option.isSome_map] at hsome
            exact hskip ⟨hsome, hreplace⟩
          · rw [AList.lookup_insert_ne hkey] at h
            exact .inl h
        · exact .inl h

variable {conn : Conn}

theorem lookup_deleteRecord {shard' : ℕ × ℕ}
    (h : ((cm.deleteRecord E shard' address conn).typeToShards shard).lookup key = some record) :
    (cm.typeToShards shard).lookup key = some record := by
  rw [deleteRecord] at h
  split at h
  · split at h
    · rw [lookup_setShard] at h
      split at h
      · rename_i heq
        subst heq
        by_cases hkey : key = addressKey E address
        · rw [hkey, AList.lookup_erase] at h
          cases h
        · rwa [AList.lookup_erase_ne hkey] at h
      · exact h
    · exact h
  · exact h

omit [DecidableEq Conn] in
theorem parentConnection_addConnectionWithAddress (conn : Option Conn) (address : Address)
    (replace : Bool) (cTypeOverride : String) :
    (cm.addConnectionWithAddress E metaOf conn address replace cTypeOverride).parentConnection
      = cm.parentConnection := by
  rw [addConnectionWithAddress.eq_def]
  split
  · rfl
  · dsimp only
    split
    · rfl
    · split <;> rfl

theorem parentConnection_deleteRecord (address : Address) (conn : Conn) :
    (cm.deleteRecord E shard address conn).parentConnection = cm.parentConnection := by
  rw [deleteRecord]
  split
  · split <;> rfl
  · rfl

theorem lookup_deleteRecord_self :
    ((cm.deleteRecord E shard address conn).typeToShards shard).lookup (addressKey E address)
      = some record → record.conn ≠ conn := by
  intro h
  rw [deleteRecord] at h
  split at h
  · split at h
    · rw [lookup_setShard, if_pos rfl, AList.lookup_erase] at h
      cases h
    · rename_i record' hrecord hne
      rw [hrecord] at h
      cases h
      exact hne
  · rename_i hnone
    rw [hnone] at h
    cases h

theorem removeConnection_eq
    (hshard : getShard (mapConnectionTypeToIndex (metaOf conn).cType) (metaOf conn).address
      = some shard) :
    cm.removeConnection E metaOf (some conn)
      = ⟨if cm.parentConnection = some conn then none else cm.parentConnection,
        (cm.deleteRecord E shard (metaOf conn).address conn).typeToShards⟩ := by
  rw [removeConnection]
  simp only [hshard, parentConnection_deleteRecord]
  split
  · rfl
  · rw [← parentConnection_deleteRecord (metaOf conn).address conn]

end ConnectionsManager

open ConnectionsManager

/-! ### What a call adds -/

namespace ConnectionsOp

variable {E} {s : ConnectionsState Conn} {op : ConnectionsOp Conn} {shard : ℕ × ℕ} {key : Bytes}
  {record : ConnectionRecord Conn}

theorem lookup_step (h : ((op.step E s).manager.typeToShards shard).lookup key = some record) :
    (s.manager.typeToShards shard).lookup key = some record ∨
      op.Adds E s record.conn ∧ InPlace E shard key record := by
  cases op with
  | addConnection conn =>
    cases conn with
    | none => exact .inl h
    | some =>
      rw [step, ConnectionsManager.addConnection] at h
      obtain hbefore | ⟨⟨hconn, hskip⟩, hplace⟩ :=
        lookup_addConnectionWithAddress h
      · exact .inl hbefore
      · cases hconn
        exact .inr ⟨⟨rfl, hskip⟩, hplace⟩
  | addConnectionWithAddress =>
    exact lookup_addConnectionWithAddress h
  | addParentConnection conn => cases conn <;> exact .inl h
  | init => exact .inl h
  | removeConnection conn =>
    cases conn with
    | none => exact .inl h
    | some conn =>
      obtain ⟨shard', hshard⟩ := getShard_mapConnectionTypeToIndex (s.metaOf conn).cType
        (s.metaOf conn).address
      rw [step, removeConnection_eq hshard] at h
      exact .inl (lookup_deleteRecord h)

theorem parentConnection_step {conn : Conn}
    (h : (op.step E s).manager.parentConnection = some conn) :
    s.manager.parentConnection = some conn ∨ op.Adds E s conn := by
  cases op with
  | addConnection conn' =>
    cases conn' with
    | none => exact .inl h
    | some =>
      rw [step, ConnectionsManager.addConnection,
        parentConnection_addConnectionWithAddress] at h
      exact .inl h
  | addConnectionWithAddress =>
    rw [step, parentConnection_addConnectionWithAddress] at h
    exact .inl h
  | addParentConnection conn' =>
    cases conn' with
    | none => exact .inl h
    | some => exact .inr h
  | init => exact .inl h
  | removeConnection conn' =>
    cases conn' with
    | none => exact .inl h
    | some conn' =>
      obtain ⟨shard', hshard⟩ := getShard_mapConnectionTypeToIndex (s.metaOf conn').cType
        (s.metaOf conn').address
      rw [step, removeConnection_eq hshard] at h
      dsimp only at h
      split at h
      · cases h
      · exact .inl h

end ConnectionsOp

/-! ### What the table holds -/

namespace ConnectionsManager

variable {E} {cm : ConnectionsManager Conn} {s : ConnectionsState Conn} {conn : Conn}

/-- Every record stands where its address says. -/
def Keyed (E : Env) (cm : ConnectionsManager Conn) : Prop :=
  ∀ shard key record, (cm.typeToShards shard).lookup key = some record → InPlace E shard key record

theorem Keyed.step (h : Keyed E s.manager) (op : ConnectionsOp Conn) :
    Keyed E (op.step E s).manager := by
  intro shard key record hrecord
  obtain hbefore | ⟨-, hplace⟩ := ConnectionsOp.lookup_step hrecord
  · exact h shard key record hbefore
  · exact hplace

theorem keyed_run (metaOf : Conn → ConnectionMeta) (ops : List (ConnectionsOp Conn)) :
    Keyed E (runConnections E ⟨.new, metaOf⟩ ops).manager := by
  induction ops using List.reverseRecOn with
  | nil =>
    intro shard key record hrecord
    cases (AList.lookup_empty key).symm.trans hrecord
  | append_singleton ops op ih =>
    rw [runConnections, List.foldl_append]
    exact ih.step op

omit [DecidableEq Conn] in
theorem connectionByTypeAndAddress_of_inPlace {key : Bytes}
    {record : ConnectionRecord Conn} (hplace : InPlace E shard key record)
    (h : (cm.typeToShards shard).lookup key = some record) :
    ∃ cType, getShard cType record.address = some shard ∧
      cm.connectionByTypeAndAddress E cType record.address = some record.conn := by
  obtain ⟨rfl, cType, hshard⟩ := hplace
  refine ⟨cType, hshard, ?_⟩
  rw [connectionByTypeAndAddress, hshard]
  simp only [h, Option.map_some]

def Absent (conn : Conn) (cm : ConnectionsManager Conn) : Prop :=
  (∀ shard key record, (cm.typeToShards shard).lookup key = some record → record.conn ≠ conn) ∧
    cm.parentConnection ≠ some conn

omit [DecidableEq Conn] in
theorem Absent.not_returns (h : Absent conn cm) : ¬ cm.Returns E conn := by
  rintro (⟨cType, address, hfound⟩ | ⟨walk, cType, address, hfound⟩ | hparent)
  · rw [connectionByTypeAndAddress] at hfound
    split at hfound
    · cases hfound
    · obtain ⟨record, hrecord, hconn⟩ := Option.map_eq_some_iff.mp hfound
      exact h.1 _ _ record hrecord hconn
  · rw [connectionsByType] at hfound
    split at hfound
    · cases (AList.lookup_empty address).symm.trans hfound
    · obtain hnone | hmem := GoMap.lookup_insertAll_eq_some hfound
      · cases (AList.lookup_empty address).symm.trans hnone
      · -- the entry comes from a record of one of the shards
        obtain ⟨i, -, hi⟩ := List.mem_flatMap.mp hmem
        obtain ⟨e, he, heq⟩ := List.mem_map.mp hi
        cases heq
        have hentry := (walk.perm _).mem_iff.mp he
        exact h.1 _ e.1 e.2 (AList.mem_lookup_iff.mpr hentry) rfl
  · exact h.2 hparent

theorem Absent.step (h : Absent conn s.manager) {op : ConnectionsOp Conn}
    (hop : ¬ op.Adds E s conn) :
    Absent conn (op.step E s).manager := by
  constructor
  · rintro shard key record hrecord rfl
    obtain hbefore | ⟨hadds, -⟩ := ConnectionsOp.lookup_step hrecord
    · exact h.1 shard key record hbefore rfl
    · exact hop hadds
  · intro hparent
    obtain hbefore | hadds := ConnectionsOp.parentConnection_step hparent
    · exact h.2 hbefore
    · exact hop hadds

theorem Absent.run (h : Absent conn s.manager) {ops : List (ConnectionsOp Conn)}
    (hops : NeverAdds E conn s ops) : Absent conn (runConnections E s ops).manager := by
  induction ops generalizing s with
  | nil => exact h
  | cons op ops ih => exact ih (h.step hops.1) hops.2

variable {metaOf : Conn → ConnectionMeta}

theorem connectionByTypeAndAddress_removeConnection
    (hne : ¬ (cType = mapConnectionTypeToIndex (metaOf conn).cType ∧
      address = (metaOf conn).address)) :
    (cm.removeConnection E metaOf (some conn)).connectionByTypeAndAddress E cType address
      = cm.connectionByTypeAndAddress E cType address := by
  obtain ⟨shard, hshard⟩ := getShard_mapConnectionTypeToIndex (metaOf conn).cType
    (metaOf conn).address
  rw [removeConnection_eq hshard, connectionByTypeAndAddress, connectionByTypeAndAddress]
  split
  · rfl
  · rename_i shard' hshard'
    dsimp only
    rw [deleteRecord]
    split
    · split
      · rw [lookup_setShard]
        split
        · rename_i heq
          subst heq
          rw [AList.lookup_erase_ne]
          intro hkey
          exact hne ⟨getShard_inj hshard' hshard, E.addressHex_injective hkey⟩
        · rfl
      · rfl
    · rfl

omit [DecidableEq Conn] in
theorem connectionByTypeAndAddress_addConnectionWithAddress
    (hfree : cm.connectionByTypeAndAddress E (mapConnectionTypeToIndex (metaOf conn).cType) address
      = none) (replace : Bool) :
    (cm.addConnectionWithAddress E metaOf (some conn) address replace "").connectionByTypeAndAddress
      E (mapConnectionTypeToIndex (metaOf conn).cType) address = some conn := by
  obtain ⟨shard, hshard⟩ := getShard_mapConnectionTypeToIndex (metaOf conn).cType address
  have hnone : (cm.typeToShards shard).lookup (addressKey E address) = none := by
    rw [connectionByTypeAndAddress, hshard] at hfree
    exact Option.map_eq_none_iff.mp hfree
  rw [addConnectionWithAddress, connectionByTypeAndAddress, hshard]
  simp [hshard, hnone, lookup_setShard]

end ConnectionsManager

/-- **A connection is gone after `RemoveConnection` exactly if the table had it only where
it says itself**, at the type and the address that `Type()` and `Address()` return when
it is removed. -/
theorem removeConnection_iff (metaOf : Conn → ConnectionMeta) (ops : List (ConnectionsOp Conn))
    (conn : Conn) :
    (∀ later : List (ConnectionsOp Conn),
      NeverAdds E conn (runConnections E ⟨.new, metaOf⟩ (ops ++ [.removeConnection (some conn)]))
        later →
      ¬ (runConnections E ⟨.new, metaOf⟩
        (ops ++ .removeConnection (some conn) :: later)).manager.Returns E conn) ↔
    ∀ cType address,
      (runConnections E ⟨.new, metaOf⟩ ops).manager.connectionByTypeAndAddress E cType address
        = some conn →
      cType = mapConnectionTypeToIndex ((runConnections E ⟨.new, metaOf⟩ ops).metaOf conn).cType ∧
        address = ((runConnections E ⟨.new, metaOf⟩ ops).metaOf conn).address := by
  have hkeyed := keyed_run (E := E) metaOf ops
  have hrun : ∀ later : List (ConnectionsOp Conn),
      runConnections E ⟨.new, metaOf⟩ (ops ++ .removeConnection (some conn) :: later)
      = runConnections E ((ConnectionsOp.removeConnection (some conn)).step E
        (runConnections E ⟨.new, metaOf⟩ ops)) later :=
    fun later => by rw [runConnections, List.foldl_append]; rfl
  generalize runConnections E ⟨.new, metaOf⟩ ops = s at hkeyed hrun ⊢
  constructor
  · intro hgone cType address hfound
    by_contra hne
    refine hgone [] trivial (.inl ⟨cType, address, ?_⟩)
    rw [hrun]
    exact (connectionByTypeAndAddress_removeConnection hne).trans hfound
  · intro honly later hlater
    rw [hrun] at hlater ⊢
    obtain ⟨shard, hshard⟩ := getShard_mapConnectionTypeToIndex (s.metaOf conn).cType
      (s.metaOf conn).address
    refine Absent.not_returns (Absent.run ?_ hlater)
    rw [ConnectionsOp.step, removeConnection_eq hshard]
    constructor
    · rintro shard' key record hrecord rfl
      -- the record was in the table before, so it is where it is looked for
      have hbefore := lookup_deleteRecord hrecord
      have hplace := hkeyed shard' key record hbefore
      obtain ⟨cType, hshard', hfound⟩ :=
        connectionByTypeAndAddress_of_inPlace hplace hbefore
      obtain ⟨hcType, haddress⟩ := honly cType record.address hfound
      rw [hcType, haddress, hshard] at hshard'
      cases hshard'
      rw [hplace.1, haddress] at hrecord
      exact lookup_deleteRecord_self hrecord rfl
    · dsimp only
      split
      · nofun
      · assumption

def addressOfByte (b : UInt8) : Address := bytesToAddress [b]

/-- **Connections that stay in the table**: one that was added under another address than
its own, and one that has got another address by `Init` since it was added. -/
theorem removeConnection_leaves_record :
    (runConnections stdEnv ⟨.new, fun _ : Unit => ⟨addressOfByte 1, "node"⟩⟩
        [.addConnectionWithAddress (some ()) (addressOfByte 2) false "",
          .removeConnection (some ())]).manager.connectionByTypeAndAddress stdEnv 2
        (addressOfByte 2) = some () ∧
    (runConnections stdEnv ⟨.new, fun _ : Unit => ⟨addressOfByte 1, "node"⟩⟩
        [.addConnection (some ()) false "", .init () (addressOfByte 2) "node",
          .removeConnection (some ())]).manager.connectionByTypeAndAddress stdEnv 2
        (addressOfByte 1) = some () := by
  have hne : addressOfByte 2 ≠ addressOfByte 1 := by decide
  have hnode : mapConnectionTypeToIndex "node" = 2 := by decide
  have hfree : ∀ address, (.new : ConnectionsManager Unit).connectionByTypeAndAddress stdEnv
      (mapConnectionTypeToIndex "node") address = none := by
    intro address
    rw [ConnectionsManager.connectionByTypeAndAddress]
    split
    · rfl
    · rw [ConnectionsManager.new, AList.lookup_empty, Option.map_none]
  have hadd : ∀ address, (ConnectionsManager.new.addConnectionWithAddress stdEnv
      (fun _ => ⟨addressOfByte 1, "node"⟩) (some ()) address false "").connectionByTypeAndAddress
      stdEnv (mapConnectionTypeToIndex "node") address = some () :=
    fun address =>
      connectionByTypeAndAddress_addConnectionWithAddress (hfree address) false
  simp only [runConnections, List.foldl_cons, List.foldl_nil, ConnectionsOp.step,
    ConnectionsManager.addConnection, ← hnode]
  constructor
  · refine (connectionByTypeAndAddress_removeConnection ?_).trans (hadd _)
    exact fun h => hne h.2
  · refine (connectionByTypeAndAddress_removeConnection ?_).trans (hadd _)
    exact fun h => hne h.2.symm

end MetaNode
