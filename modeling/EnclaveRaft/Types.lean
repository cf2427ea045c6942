import Mathlib.Algebra.Order.Ring.Int
import EnclaveRaft.Lib.Act

/-!
# The data the servers keep and exchange

Configurations, snapshots, log entries, messages, peers and parameters, after the headers of
the raft library. Terms and log indices (`ulong`) are natural numbers; a subtraction that can
go below zero in the source is `usub`, which wraps as the source's does. Server ids (`int32`)
are integers, and `-1` is the source's "nobody".

An entry's buffer is kept in decoded form (`Payload`): what a server would read back from the
bytes it was given.
-/

namespace EnclaveRaft

/-- `a - b` on `ulong`. -/
def usub (a b : Nat) : Nat := if b ≤ a then a - b else a + 2 ^ 64 - b

/-- `a + 1` on `ulong`. -/
def usucc (a : Nat) : Nat := (a + 1) % 2 ^ 64

/-- A signed value converted to `ulong`. -/
def ulong (z : Int) : Nat := (z % 2 ^ 64).toNat

/-- A value cut to `int32`. -/
def int32 (z : Int) : Int := z.bmod (2 ^ 32)

theorem usub_of_le {a b : Nat} (h : b ≤ a) : usub a b = a - b := if_pos h

theorem usub_succ (a : Nat) : usub (a + 1) 1 = a := by simp [usub]

abbrev Bytes := List UInt8

/-- The id that stands for "no server". -/
def nobody : Int := -1

/-! ## Configurations and snapshots -/

structure SrvConfig where
  id : Int
  endpoint : Bytes
  deriving DecidableEq

/-- Server `id`, a digit, at `tcp://h:` and its id. -/
def srvAt (id : Int) : SrvConfig :=
  ⟨id, [116, 99, 112, 58, 47, 47, 104, 58, 48 + id.toNat.toUInt8]⟩

structure ClusterConfig where
  logIdx : Nat := 0
  prevLogIdx : Nat := 0
  servers : List SrvConfig := []
  deriving DecidableEq

namespace ClusterConfig

def setLogIdx (c : ClusterConfig) (logIdx : Nat) : ClusterConfig :=
  { c with prevLogIdx := c.logIdx, logIdx := logIdx }

def getServer (c : ClusterConfig) (id : Int) : Option SrvConfig :=
  c.servers.find? fun s => s.id = id

/-- The ids of a configuration's servers. -/
def ids (c : ClusterConfig) : List Int := c.servers.map SrvConfig.id

theorem getServer_isSome {c : ClusterConfig} {id : Int} :
    (c.getServer id).isSome ↔ id ∈ c.ids := by
  simp [getServer, ids, List.find?_isSome]

end ClusterConfig

structure Snapshot where
  lastLogIdx : Nat
  lastLogTerm : Nat
  lastConfig : ClusterConfig
  size : Nat := 0
  deriving DecidableEq

structure SnapshotSyncCtx where
  snapshot : Snapshot
  offset : Nat := 0
  deriving DecidableEq

structure SnapshotSyncReq where
  snapshot : Snapshot
  offset : Nat
  data : Bytes
  done : Bool
  deriving DecidableEq

/-! ## Log entries -/

inductive LogValType
  | appLog
  | conf
  | clusterServer
  | logPack
  | snpSyncReq
  deriving DecidableEq

/-- The contents of an entry's buffer. -/
inductive Payload
  | bytes (b : Bytes)
  | config (c : ClusterConfig)
  | server (c : SrvConfig)
  | int (z : Int)
  | pack (entries : List (Nat × LogValType × Payload))
  | snapshotSync (r : SnapshotSyncReq)

structure LogEntry where
  term : Nat
  valType : LogValType
  buf : Payload

/-! ## Messages -/

inductive MsgType
  | requestVoteRequest
  | requestVoteResponse
  | appendEntriesRequest
  | appendEntriesResponse
  | clientRequest
  | addServerRequest
  | addServerResponse
  | removeServerRequest
  | removeServerResponse
  | syncLogRequest
  | syncLogResponse
  | joinClusterRequest
  | joinClusterResponse
  | leaveClusterRequest
  | leaveClusterResponse
  | installSnapshotRequest
  | installSnapshotResponse
  deriving DecidableEq

structure ReqMsg where
  term : Nat
  type : MsgType
  src : Int
  dst : Int
  lastLogTerm : Nat
  lastLogIdx : Nat
  commitIdx : Nat
  logEntries : List LogEntry := []

structure RespMsg where
  term : Nat
  type : MsgType
  src : Int
  dst : Int
  nextIdx : Nat := 0
  accepted : Bool := false
  deriving DecidableEq

def RespMsg.accept (r : RespMsg) (nextIdx : Nat) : RespMsg :=
  { r with nextIdx := nextIdx, accepted := true }

/-! ## Parameters and the application -/

structure RaftParams where
  electionTimeoutUpperBound : Int := 300
  electionTimeoutLowerBound : Int := 150
  heartBeatInterval : Int := 75
  rpcFailureBackoff : Int := 25
  logSyncBatchSize : Int := 1000
  logSyncStopGap : Int := 10
  snapshotDistance : Int := 0
  snapshotBlockSize : Int := 0
  maxAppendSize : Int := 100
  reservedLogItems : Int := 10000

def RaftParams.maxHbInterval (p : RaftParams) : Int :=
  max p.heartBeatInterval (p.electionTimeoutLowerBound - p.heartBeatInterval.tdiv 2)

/-- What the servers ask of the application's state machine and get an answer to. -/
structure StateMachine where
  /-- Does `pre_commit` return for the entry, or throw? -/
  preCommit : Payload → Bool
  /-- Does `commit`? -/
  commit : Payload → Bool
  createSnapshot : Snapshot → Bool
  applySnapshot : Snapshot → Bool
  /-- The bytes read for a buffer of the given size at the given offset. -/
  readSnapshotData : Snapshot → Nat → Nat → Bytes

/-- `get_str` finds a string in the buffer: one that ends with a zero and is not empty. -/
def Payload.holdsString : Payload → Bool
  | .bytes b =>
    let s := b.takeWhile (· ≠ 0)
    0 < s.length && s.length < b.length
  | _ => true

/-- `echo_state_machine`, which makes a string of every entry it is given and has no snapshot data
to read. -/
def echoStateMachine : StateMachine where
  preCommit := Payload.holdsString
  commit := Payload.holdsString
  createSnapshot _ := true
  applySnapshot _ := true
  readSnapshotData _ _ _ := []

structure Context where
  params : RaftParams := {}
  stateMachine : StateMachine := echoStateMachine

/-! ## Peers -/

/-- A timer task: `cancel` sets the flag, scheduling the task again clears it. -/
structure DelayedTask where
  cancelled : Bool := false
  deriving DecidableEq

/-- A peer object. `uid` is its identity: replies come back to the object a request was sent
through, which may no longer be the one registered under the server's id. -/
structure Peer where
  uid : Nat
  config : SrvConfig
  currentHbInterval : Int
  hbInterval : Int
  rpcBackoff : Int
  maxHbInterval : Int
  nextLogIdx : Nat := 0
  matchedIdx : Nat := 0
  lastResp : Int := 0
  busyFlag : Bool := false
  pendingCommitFlag : Bool := false
  hbEnabled : Bool := false
  hbTask : DelayedTask := {}
  snpSyncCtx : Option SnapshotSyncCtx := none
  deriving DecidableEq

namespace Peer

def id (p : Peer) : Int := p.config.id

def new (ctx : Context) (uid : Nat) (config : SrvConfig) : Peer where
  uid := uid
  config := config
  currentHbInterval := ctx.params.heartBeatInterval
  hbInterval := ctx.params.heartBeatInterval
  rpcBackoff := ctx.params.rpcFailureBackoff
  maxHbInterval := ctx.params.maxHbInterval

def makeBusy (p : Peer) : Peer := { p with busyFlag := true }

def setFree (p : Peer) : Peer := { p with busyFlag := false }

/-- Disabling the heartbeat also cancels its task. -/
def enableHb (p : Peer) (enable : Bool) : Peer :=
  { p with hbEnabled := enable, hbTask := if enable then p.hbTask else ⟨true⟩ }

def setNextLogIdx (p : Peer) (idx : Nat) : Peer := { p with nextLogIdx := idx }

def setMatchedIdx (p : Peer) (idx : Nat) : Peer := { p with matchedIdx := idx }

def setLastResp (p : Peer) (t : Int) : Peer := { p with lastResp := t }

def setPendingCommit (p : Peer) : Peer := { p with pendingCommitFlag := true }

def clearPendingCommit (p : Peer) : Peer := { p with pendingCommitFlag := false }

def setSnapshotInSync (p : Peer) (s : Option Snapshot) : Peer :=
  { p with snpSyncCtx := s.map fun s => ⟨s, 0⟩ }

def slowDownHb (p : Peer) : Peer :=
  { p with currentHbInterval := min p.maxHbInterval (p.currentHbInterval + p.rpcBackoff) }

def resumeHbSpeed (p : Peer) : Peer := { p with currentHbInterval := p.hbInterval }

end Peer

inductive SrvRole
  | follower
  | candidate
  | leader
  deriving DecidableEq

structure SrvState where
  term : Nat := 0
  votedFor : Int := nobody
  deriving DecidableEq

/-- The exceptions the handlers throw. The source's messages are named by their cause. -/
inductive RaftException
  | anotherLeader (src : Int)
  | anotherLeaderSnapshot (src : Int)
  | unknownRequest (type : MsgType)
  | unexpectedResponse (type : MsgType)
  | unexpectedExtResponse (type : MsgType)
  | badLogIdx (idx : Nat)
  | lastLogIndexTooLarge (lastLogIdx nextSlot : Nat)
  | noSnapshotForPeer (peer : Int)
  | invalidSnapshot
  | shortSnapshotRead (read expected : Nat)
  | badRoleForSnapshot
  | snapshotInstallFailed
  | leaderElectionTimeout
  | steppedDown
  | nullSnapshotSyncCtx
  | noSnapshotForConfig
  | noConfigAtIndexOne
  /-- A buffer that does not hold what is read from it. -/
  | badBuffer
  /-- An exception of the state machine. -/
  | stateMachineFailed
  /-- `length_error` from reserving a negative range. -/
  | badRange
  /-- A null pointer or an endless loop. -/
  | crash
  deriving DecidableEq

end EnclaveRaft
