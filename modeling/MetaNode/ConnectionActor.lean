/-
The goroutine of a connection (`pkg/network/connection.go`).

`run` owns the state of a connection and changes it by one command of `cmdChan` after the
other (`Actor.handle`); it also writes a cache from which the callers read (`Cache.handle`).
`Init` and `SetRealConnAddr` post the same command, and the remote address in the command of
`Init` is empty.

Here each call is answered before the next one is made; what happens when commands queue up
is in `ConnectionQueue`.
-/
import Mathlib.Data.List.Induction
import MetaNode.EthTypes
import MetaNode.Machine

namespace MetaNode.ConnectionActor

/-- A TCP connection, with its two addresses as text. -/
structure TcpConn where
  remoteAddr : String
  localAddr : String
  deriving DecidableEq

/-- The commands of `cmdChan`. -/
inductive Cmd where
  | init (address : Address) (cType realConnAddr : String)
  | accept (tcpConn : TcpConn)
  | connect (realConnAddr : String)
  | sendMessage
  | disconnect
  | clone
  | getIsConnect
  | getAddress
  | getChannels
  | getType
  | getRemoteAddr
  | getTCPAddr (isLocal : Bool)
  deriving DecidableEq

/-- The variables of `run`. -/
structure Actor where
  address : Address
  cType : String
  tcpConn : Option TcpConn
  connect : Bool
  realConnAddr : String
  shutdownTimer : Bool
  /-- The socket and the channels of the connection are open. -/
  tcpOpen : Bool
  /-- `cleanup` waits for the goroutines that read and write. -/
  cleaning : Bool
  /-- `run` has returned. -/
  stopped : Bool

/-- What `run` shows to the callers. -/
structure Cache where
  cachedAddr : Address
  cachedType : String
  cachedAddrStr : String
  cachedConnected : Bool
  cachedTcpRemoteAddr : Option String
  cachedTcpLocalAddr : Option String
  /-- `sendChan` is not nil. -/
  sendChan : Bool

/-! ### The commands -/

namespace Actor

/-- The variables at the start of `run`. -/
def new : Actor where
  address := FixedBytes.zero 20
  cType := ""
  tcpConn := none
  connect := false
  realConnAddr := ""
  shutdownTimer := false
  tcpOpen := false
  cleaning := false
  stopped := false

def stopShutdownTimer (a : Actor) : Actor := { a with shutdownTimer := false }

def startShutdownTimer (a : Actor) : Actor := { a with shutdownTimer := true }

def establish (a : Actor) (tcpConn : TcpConn) (realConnAddr : String) : Actor :=
  { a with tcpConn := some tcpConn, realConnAddr, connect := true, tcpOpen := true }

/-- The first part of `cleanup`, up to its waits. -/
def startCleanup (a : Actor) : Actor :=
  { a with connect := false, tcpOpen := false, cleaning := true }

/-- The end of `cleanup` and of the command that called it. -/
def finishCleanup (a : Actor) : Actor := ({ a with cleaning := false }).startShutdownTimer

/-- What `run` does with a command.  `dial` is the connection that `net.DialTimeout` gives, if
it is called.  A command that only asks for something is answered, and the answer is the
variable that it asks for. -/
def handle (dial : Option TcpConn) (a : Actor) : Cmd → Actor
  | .init address cType realConnAddr => { a.stopShutdownTimer with address, cType, realConnAddr }
  | .accept tcpConn =>
    if a.connect then a.stopShutdownTimer
    else a.stopShutdownTimer.establish tcpConn tcpConn.remoteAddr
  | .connect realConnAddr =>
    if a.connect then a.stopShutdownTimer
    else dial.elim a.stopShutdownTimer fun conn => a.stopShutdownTimer.establish conn realConnAddr
  | .disconnect => if a.connect then a.startCleanup else a.startShutdownTimer
  | .sendMessage | .clone | .getIsConnect | .getAddress | .getChannels | .getType
  | .getRemoteAddr | .getTCPAddr _ => a.stopShutdownTimer

/-- A connection stands, and `run` waits for commands. -/
structure Up (a : Actor) : Prop where
  connect : a.connect = true
  tcpOpen : a.tcpOpen = true
  stopped : a.stopped = false
  shutdownTimer : a.shutdownTimer = false
  cleaning : a.cleaning = false

theorem Up.handle {a : Actor} (h : a.Up) (dial : Option TcpConn) {cmd : Cmd}
    (hdisconnect : cmd ≠ .disconnect) : (a.handle dial cmd).Up := by
  cases cmd with
  | disconnect => exact absurd rfl hdisconnect
  | accept | connect =>
    rw [Actor.handle, if_pos h.connect]
    exact ⟨h.connect, h.tcpOpen, h.stopped, rfl, h.cleaning⟩
  | _ => exact ⟨h.connect, h.tcpOpen, h.stopped, rfl, h.cleaning⟩

end Actor

namespace Cache

def new : Cache where
  cachedAddr := FixedBytes.zero 20
  cachedType := ""
  cachedAddrStr := ""
  cachedConnected := false
  cachedTcpRemoteAddr := none
  cachedTcpLocalAddr := none
  sendChan := false

def establish (m : Cache) (tcpConn : TcpConn) (realConnAddr : String) : Cache :=
  { m with
    cachedAddrStr := realConnAddr
    cachedConnected := true
    cachedTcpRemoteAddr := some tcpConn.remoteAddr
    cachedTcpLocalAddr := some tcpConn.localAddr
    sendChan := true }

/-- What `run` writes with a command. -/
def handle (dial : Option TcpConn) (connected : Bool) (m : Cache) : Cmd → Cache
  | .init address cType realConnAddr =>
    { m with cachedAddr := address, cachedType := cType, cachedAddrStr := realConnAddr }
  | .accept tcpConn => if connected then m else m.establish tcpConn tcpConn.remoteAddr
  | .connect realConnAddr =>
    if connected then m else dial.elim m fun conn => m.establish conn realConnAddr
  | .disconnect => { m with cachedConnected := false, sendChan := false }
  | .sendMessage | .clone | .getIsConnect | .getAddress | .getChannels | .getType
  | .getRemoteAddr | .getTCPAddr _ => m

end Cache

/-! ### The calls -/

structure Connection where
  actor : Actor
  cache : Cache

/-- How `SendMessage` ends once the cache says that there is a connection. -/
inductive SendOutcome where
  | sent
  | noSendChan
  | timeout
  deriving DecidableEq

/-- A call, with what it meets: `dial` is the connection that `net.DialTimeout` gives, and
`stale` says that the cache was not written for some time.  `sendMessage` includes no
disconnect; the one that it posts after a timeout is a call of its own.  `shutdown` is the
end of the time after a disconnect. -/
inductive Call where
  | accept (tcpConn : TcpConn)
  | connect (dial : Option TcpConn)
  | disconnect
  | init (address : Address) (cType : String)
  | setRealConnAddr (realConnAddr : String) (stale : Bool)
  | sendMessage (outcome : SendOutcome)
  | requestChan
  | clone
  | isConnect (stale : Bool)
  | address (stale : Bool)
  | type
  | remoteAddr
  | tcpAddr (isLocal : Bool)
  | shutdown

namespace Connection

/-- `newConnectionBase`, with `run` started -/
def new : Connection := ⟨.new, .new⟩

/-- A command is posted and handled, with the waits of `cleanup`.  Nothing handles it once
`run` has returned. -/
def perform (dial : Option TcpConn) (c : Connection) (cmd : Cmd) : Connection :=
  if c.actor.stopped then c
  else
    let actor := c.actor.handle dial cmd
    ⟨if actor.cleaning then actor.finishCleanup else actor,
      c.cache.handle dial c.actor.connect cmd⟩

/-- `Address` -/
def readAddress (stale : Bool) (c : Connection) : Address × Connection :=
  if stale ∧ ¬ c.actor.stopped then
    let c := c.perform none .getAddress
    (c.actor.address, { c with cache := { c.cache with cachedAddr := c.actor.address } })
  else (c.cache.cachedAddr, c)

variable (c : Connection)

/-- `Type` -/
def readType : String × Connection :=
  if c.cache.cachedType = "" ∧ ¬ c.actor.stopped then
    let c := c.perform none .getType
    (c.actor.cType, { c with cache := { c.cache with cachedType := c.actor.cType } })
  else (c.cache.cachedType, c)

def remoteAddrSafe : String × Connection :=
  if c.cache.cachedAddrStr = "" ∧ ¬ c.actor.stopped then
    let c := c.perform none .getRemoteAddr
    (c.actor.realConnAddr,
      { c with cache := { c.cache with cachedAddrStr := c.actor.realConnAddr } })
  else (c.cache.cachedAddrStr, c)

/-- `TcpLocalAddr` and `TcpRemoteAddr` -/
def readTcpAddr (isLocal : Bool) (c : Connection) : Connection :=
  if isLocal then
    if c.cache.cachedTcpLocalAddr = none ∧ ¬ c.actor.stopped then
      let c := c.perform none (.getTCPAddr true)
      { c with cache :=
        { c.cache with cachedTcpLocalAddr := c.actor.tcpConn.map TcpConn.localAddr } }
    else c
  else if c.cache.cachedTcpRemoteAddr = none ∧ ¬ c.actor.stopped then
    let c := c.perform none (.getTCPAddr false)
    { c with cache :=
      { c.cache with cachedTcpRemoteAddr := c.actor.tcpConn.map TcpConn.remoteAddr } }
  else c

def setRealConnAddr (realConnAddr : String) (stale : Bool) (c : Connection) : Connection :=
  let (address, c) := c.readAddress stale
  let (cType, c) := c.readType
  let c := { c with cache := { c.cache with cachedAddrStr := realConnAddr } }
  c.perform none (.init address cType realConnAddr)

def init (address : Address) (cType : String) (c : Connection) : Connection :=
  let c := { c with cache := { c.cache with cachedAddr := address, cachedType := cType } }
  c.perform none (.init address cType "")

def connect (dial : Option TcpConn) (c : Connection) : Connection :=
  let (addr, c) := c.remoteAddrSafe
  if addr = "" then c else c.perform dial (.connect addr)

def sendMessage (outcome : SendOutcome) (c : Connection) : Connection :=
  if ¬ c.cache.cachedConnected ∨ outcome = .sent then c
  else { c with cache := { c.cache with cachedConnected := false } }

def isConnect (stale : Bool) (c : Connection) : Connection :=
  if stale ∧ ¬ c.actor.stopped then
    let c := c.perform none .getIsConnect
    { c with cache := { c.cache with cachedConnected := c.actor.connect } }
  else c

/-- The timer of `run` fires. -/
def shutdown : Connection :=
  if c.actor.shutdownTimer ∧ ¬ c.actor.stopped then
    { c with actor := { c.actor with shutdownTimer := false, stopped := true } }
  else c

def step : Call → Connection
  | .accept tcpConn => c.perform none (.accept tcpConn)
  | .connect dial => c.connect dial
  | .disconnect => c.perform none .disconnect
  | .init address cType => c.init address cType
  | .setRealConnAddr realConnAddr stale => c.setRealConnAddr realConnAddr stale
  | .sendMessage outcome => c.sendMessage outcome
  | .requestChan => c.perform none .getChannels
  | .clone => c.perform none .clone
  | .isConnect stale => c.isConnect stale
  | .address stale => (c.readAddress stale).2
  | .type => c.readType.2
  | .remoteAddr => c.remoteAddrSafe.2
  | .tcpAddr isLocal => c.readTcpAddr isLocal
  | .shutdown => c.shutdown

def run (calls : List Call) : Connection := Machine.run step new calls

/-! ### A connection that stands -/

variable {c} {addr : String} {dial : Option TcpConn} {cmd : Cmd}

/-- A connection stands, with the remote address `addr`. -/
structure Standing (c : Connection) (addr : String) : Prop extends c.actor.Up where
  realConnAddr : c.actor.realConnAddr = addr
  cachedAddrStr : c.cache.cachedAddrStr = addr

theorem Standing.remoteAddrSafe (h : Standing c addr) : c.remoteAddrSafe.1 = addr := by
  rw [Connection.remoteAddrSafe]
  split
  · rw [perform, if_neg (by simp [h.stopped])]
    show (if (c.actor.stopShutdownTimer).cleaning then _ else _ : Actor).realConnAddr = addr
    rw [if_neg (by simp [Actor.stopShutdownTimer, h.cleaning])]
    exact h.realConnAddr
  · exact h.cachedAddrStr

theorem perform_eq (h : c.actor.stopped = false)
    (hcleaning : (c.actor.handle dial cmd).cleaning = false) :
    c.perform dial cmd
      = ⟨c.actor.handle dial cmd, c.cache.handle dial c.actor.connect cmd⟩ := by
  rw [perform, if_neg (by simp [h])]
  simp [hcleaning]

theorem Standing.perform (h : Standing c addr) (hinit : ∀ a t r, cmd ≠ .init a t r)
    (hdisconnect : cmd ≠ .disconnect) : Standing (c.perform dial cmd) addr := by
  have hup : (c.actor.handle dial cmd).Up := h.toUp.handle dial hdisconnect
  rw [perform_eq h.stopped hup.cleaning]
  refine ⟨hup, ?_, ?_⟩
  · cases cmd with
    | init a t r => exact absurd rfl (hinit a t r)
    | disconnect => exact absurd rfl hdisconnect
    | accept | connect realConnAddr =>
      rw [Actor.handle, if_pos h.connect]
      exact h.realConnAddr
    | _ => exact h.realConnAddr
  · cases cmd with
    | init a t r => exact absurd rfl (hinit a t r)
    | disconnect => exact absurd rfl hdisconnect
    | accept | connect =>
      rw [Cache.handle, if_pos h.connect]
      exact h.cachedAddrStr
    | _ => exact h.cachedAddrStr

theorem perform_init {a : Actor} (h : a.Up) (m : Cache) (address : Address)
    (cType realConnAddr : String) :
    Standing ((⟨a, m⟩ : Connection).perform dial (.init address cType realConnAddr))
      realConnAddr := by
  have hup : (a.handle dial (.init address cType realConnAddr)).Up := h.handle dial (by simp)
  rw [perform_eq h.stopped hup.cleaning]
  exact ⟨hup, rfl, rfl⟩

section

variable (h : Standing c addr)

include h

theorem Standing.withCache {m : Cache}
    (hm : m.cachedAddrStr = c.cache.cachedAddrStr) : Standing { c with cache := m } addr :=
  ⟨h.toUp, h.realConnAddr, hm.trans h.cachedAddrStr⟩

theorem Standing.readAddress (stale : Bool) : Standing (c.readAddress stale).2 addr := by
  rw [Connection.readAddress]
  split
  · exact (h.perform (by simp) (by simp)).withCache rfl
  · exact h

theorem Standing.readType : Standing c.readType.2 addr := by
  rw [Connection.readType]
  split
  · exact (h.perform (by simp) (by simp)).withCache rfl
  · exact h

theorem Standing.read : Standing c.remoteAddrSafe.2 addr := by
  rw [Connection.remoteAddrSafe]
  split
  · have hasked : Standing (c.perform none .getRemoteAddr) addr := h.perform (by simp) (by simp)
    exact ⟨hasked.toUp, hasked.realConnAddr, hasked.realConnAddr⟩
  · exact h

theorem Standing.readTcpAddr (isLocal : Bool) : Standing (c.readTcpAddr isLocal) addr := by
  rw [Connection.readTcpAddr]
  split
  · split
    · exact (h.perform (by simp) (by simp)).withCache rfl
    · exact h
  · split
    · exact (h.perform (by simp) (by simp)).withCache rfl
    · exact h

end

/-- The remote address after a call, while a connection stands. -/
def addrAfter (addr : String) : Call → String
  | .init _ _ => ""
  | .setRealConnAddr realConnAddr _ => realConnAddr
  | _ => addr

/-- **While a connection stands, `Init` empties its remote address.** -/
theorem Standing.step (h : Standing c addr) {call : Call} (hcall : call ≠ .disconnect) :
    Standing (c.step call) (addrAfter addr call) := by
  cases call with
  | disconnect => exact absurd rfl hcall
  | accept | requestChan | clone => exact h.perform (by simp) (by simp)
  | connect dial =>
    show Standing (c.connect dial) addr
    rw [Connection.connect]
    dsimp only
    split
    · exact h.read
    · exact h.read.perform (by simp) (by simp)
  | init address cType => exact perform_init h.toUp _ address cType ""
  | setRealConnAddr realConnAddr stale =>
    have hread := (h.readAddress stale).readType
    exact perform_init hread.toUp _ _ _ realConnAddr
  | sendMessage outcome =>
    show Standing (c.sendMessage outcome) addr
    rw [Connection.sendMessage]
    split
    · exact h
    · exact h.withCache rfl
  | isConnect stale =>
    show Standing (c.isConnect stale) addr
    rw [Connection.isConnect]
    split
    · exact (h.perform (by simp) (by simp)).withCache rfl
    · exact h
  | address stale => exact h.readAddress stale
  | type => exact h.readType
  | remoteAddr => exact h.read
  | tcpAddr isLocal => exact h.readTcpAddr isLocal
  | shutdown =>
    show Standing c.shutdown addr
    rw [Connection.shutdown, if_neg (by simp [h.shutdownTimer])]
    exact h

/-! ### The address that was established or set -/

/-- The address of a connection that the call establishes. -/
def established (c : Connection) : Call → Option String
  | .accept tcpConn =>
    if c.actor.connect ∨ c.actor.stopped then none else some tcpConn.remoteAddr
  | .connect (some _) =>
    if c.actor.connect ∨ c.actor.stopped ∨ c.remoteAddrSafe.1 = "" then none
    else some c.remoteAddrSafe.1
  | _ => none

/-- The last address of a `SetRealConnAddr`, or else `addr`. -/
def lastSet (addr : String) (calls : List Call) : String :=
  calls.foldl (fun addr call =>
    match call with
    | .setRealConnAddr realConnAddr _ => realConnAddr
    | _ => addr) addr

/-- There was an `Init` since the last `SetRealConnAddr`. -/
def initSince (calls : List Call) : Bool :=
  calls.foldl (fun since call =>
    match call with
    | .setRealConnAddr _ _ => false
    | .init _ _ => true
    | _ => since) false

/-! ### Runs -/

/-- After the calls the address is empty if there was an `Init` since the last that was set. -/
theorem Standing.run_calls (h : Standing c addr) {calls : List Call}
    (hcalls : .disconnect ∉ calls) :
    Standing (Machine.run Connection.step c calls)
      (if initSince calls then "" else lastSet addr calls) := by
  induction calls using List.reverseRecOn with
  | nil => exact h
  | append_singleton calls call ih =>
    rw [List.mem_append, List.mem_singleton, not_or] at hcalls
    have hstep := (ih hcalls.1).step (Ne.symm hcalls.2)
    rw [Machine.run_concat]
    rw [initSince, lastSet, List.foldl_concat, List.foldl_concat, ← initSince, ← lastSet]
    cases call with
    | init | setRealConnAddr => exact hstep
    | _ => exact hstep

theorem perform_cleaning {a : Actor} (h : a.cleaning = false) (m : Cache) (dial : Option TcpConn)
    (cmd : Cmd) : ((⟨a, m⟩ : Connection).perform dial cmd).actor.cleaning = false := by
  rw [Connection.perform]
  split
  · exact h
  · show (if (a.handle dial cmd).cleaning then _ else _ : Actor).cleaning = false
    split
    · rfl
    · next hno => simpa using hno

section

variable (h : c.actor.cleaning = false)

include h

theorem readAddress_cleaning (stale : Bool) : (c.readAddress stale).2.actor.cleaning = false := by
  rw [Connection.readAddress]
  split
  · exact perform_cleaning h _ _ _
  · exact h

theorem readType_cleaning : c.readType.2.actor.cleaning = false := by
  rw [Connection.readType]
  split
  · exact perform_cleaning h _ _ _
  · exact h

theorem remoteAddrSafe_cleaning : c.remoteAddrSafe.2.actor.cleaning = false := by
  rw [Connection.remoteAddrSafe]
  split
  · exact perform_cleaning h _ _ _
  · exact h

theorem readTcpAddr_cleaning (isLocal : Bool) : (c.readTcpAddr isLocal).actor.cleaning = false := by
  rw [Connection.readTcpAddr]
  split <;> split
  · exact perform_cleaning h _ _ _
  · exact h
  · exact perform_cleaning h _ _ _
  · exact h

theorem step_cleaning (call : Call) : (c.step call).actor.cleaning = false := by
  cases call with
  | connect dial =>
    show (c.connect dial).actor.cleaning = false
    rw [Connection.connect]
    dsimp only
    split
    · exact remoteAddrSafe_cleaning h
    · exact perform_cleaning (remoteAddrSafe_cleaning h) _ _ _
  | init => exact perform_cleaning h _ _ _
  | setRealConnAddr realConnAddr stale =>
    exact perform_cleaning (readType_cleaning (readAddress_cleaning h stale)) _ _ _
  | sendMessage outcome =>
    show (c.sendMessage outcome).actor.cleaning = false
    rw [Connection.sendMessage]
    split <;> exact h
  | isConnect stale =>
    show (c.isConnect stale).actor.cleaning = false
    rw [Connection.isConnect]
    split
    · exact perform_cleaning h _ _ _
    · exact h
  | address stale => exact readAddress_cleaning h stale
  | type => exact readType_cleaning h
  | remoteAddr => exact remoteAddrSafe_cleaning h
  | tcpAddr isLocal => exact readTcpAddr_cleaning h isLocal
  | shutdown =>
    show c.shutdown.actor.cleaning = false
    rw [Connection.shutdown]
    split <;> exact h
  | _ => exact perform_cleaning h _ _ _

end

theorem run_cleaning (calls : List Call) : (run calls).actor.cleaning = false := by
  have hstep : ∀ c call, c.actor.cleaning = false → True →
      (Connection.step c call).actor.cleaning = false := by
    intro c call hc _
    exact step_cleaning hc call
  exact Machine.run_keeps hstep (fun _ _ => trivial) rfl

section

variable (hcleaning : c.actor.cleaning = false)

include hcleaning

theorem standing_of_establish (hstopped : c.actor.stopped = false) (tcpConn : TcpConn)
    (hactor : c.actor.handle dial cmd = c.actor.stopShutdownTimer.establish tcpConn addr)
    (hcache : c.cache.handle dial c.actor.connect cmd = c.cache.establish tcpConn addr) :
    Standing (c.perform dial cmd) addr := by
  have hstill : (c.actor.handle dial cmd).cleaning = false := by
    rw [hactor]
    exact hcleaning
  rw [perform_eq hstopped hstill, hactor, hcache]
  exact ⟨⟨rfl, rfl, hstopped, rfl, hcleaning⟩, rfl, rfl⟩

theorem remoteAddrSafe_actor (hstopped : c.actor.stopped = false) :
    c.remoteAddrSafe.2.actor.cleaning = false ∧ c.remoteAddrSafe.2.actor.stopped = false ∧
      c.remoteAddrSafe.2.actor.connect = c.actor.connect := by
  rw [Connection.remoteAddrSafe]
  split
  · have hstill : (c.actor.handle none .getRemoteAddr).cleaning = false := hcleaning
    rw [perform_eq hstopped hstill]
    exact ⟨hcleaning, hstopped, rfl⟩
  · exact ⟨hcleaning, hstopped, rfl⟩

theorem standing_of_established {call : Call}
    (h : c.established call = some addr) : Standing (c.step call) addr := by
  cases call with
  | accept tcpConn =>
    rw [established] at h
    split at h
    · cases h
    · next hdown =>
      obtain rfl := Option.some.inj h
      simp only [not_or, Bool.not_eq_true] at hdown
      refine standing_of_establish hcleaning hdown.2 tcpConn ?_ ?_
      · rw [Actor.handle, if_neg (by simp [hdown.1])]
      · rw [Cache.handle, if_neg (by simp [hdown.1])]
  | connect dial =>
    cases dial with
    | none => cases h
    | some tcpConn =>
      rw [established] at h
      split at h
      · cases h
      · next hdown =>
        obtain rfl := Option.some.inj h
        simp only [not_or, Bool.not_eq_true] at hdown
        obtain ⟨hclean, hlive, hconnect⟩ := remoteAddrSafe_actor hcleaning hdown.2.1
        rw [hdown.1] at hconnect
        show Standing (c.connect (some tcpConn)) _
        rw [Connection.connect]
        dsimp only
        rw [if_neg hdown.2.2]
        refine standing_of_establish hclean hlive tcpConn ?_ ?_
        · rw [Actor.handle, if_neg (by simp [hconnect]), Option.elim_some]
        · rw [Cache.handle, if_neg (by simp [hconnect]), Option.elim_some]
  | _ => cases h

end

/-- **The remote address of a connection is the one it was established with, or the last one
that was set, exactly if there was no `Init` since** (or if that address is empty). -/
theorem remoteAddr_iff (before : List Call) (call : Call) (addr : String)
    (hcall : (run before).established call = some addr) (during : List Call)
    (hduring : .disconnect ∉ during) :
    (run (before ++ call :: during)).remoteAddrSafe.1 = lastSet addr during ↔
      initSince during = false ∨ lastSet addr during = "" := by
  have hstands := (standing_of_established (run_cleaning before) hcall).run_calls hduring
  have hrun : run (before ++ call :: during)
      = Machine.run step ((run before).step call) during := by
    rw [run, Machine.run_append, Machine.run_cons, run]
  rw [hrun, hstands.remoteAddrSafe]
  cases initSince during with
  | true =>
    rw [if_pos rfl, eq_comm]
    simp
  | false => simp

def samplePeer : TcpConn := ⟨"10.0.0.2:4200", "10.0.0.1:4200"⟩

theorem remoteAddr_samplePeer :
    (run [.accept samplePeer, .setRealConnAddr "10.0.0.3:4200" true]).remoteAddrSafe.1
      = "10.0.0.3:4200" :=
  (remoteAddr_iff [] (.accept samplePeer) "10.0.0.2:4200" rfl
    [.setRealConnAddr "10.0.0.3:4200" true] (by simp)).mpr (.inl rfl)

/-- `Init` empties the remote address of an accepted connection. -/
theorem init_clears_remoteAddr :
    (run [.accept samplePeer]).remoteAddrSafe.1 = "10.0.0.2:4200" ∧
    (run [.accept samplePeer, .init (FixedBytes.zero 20) "client"]).remoteAddrSafe.1 = "" ∧
    (run [.accept samplePeer, .init (FixedBytes.zero 20) "client"]).actor.connect = true := by
  decide

end Connection

end MetaNode.ConnectionActor
