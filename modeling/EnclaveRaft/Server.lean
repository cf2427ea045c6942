import Mathlib.Data.List.Sort
import EnclaveRaft.LogStore
import EnclaveRaft.Wire.Config

/-!
# The state of a server

The members of `raft_server` that its handlers read and write, with the parts of the state
manager and of the state machine it keeps in memory, and the constructor.

Handlers run in `M`: they update the server, emit effects and may throw. A request that is sent
carries the server as it was when the request was created (`Rpc.creator`), which no handler
reads: statements about what the sender held at that moment refer to it.
-/

namespace EnclaveRaft

structure Server where
  id : Int
  leader : Int := nobody
  votesGranted : Nat := 0
  quickCommitIdx : Nat := 0
  smCommitIndex : Nat := 0
  electionCompleted : Bool := true
  configChanging : Bool := false
  catchingUp : Bool := false
  stepsToDown : Int := 0
  snpInProgress : Bool := false
  electionTask : Option DelayedTask := none
  peers : List Peer := []
  role : SrvRole := .follower
  state : SrvState := {}
  logStore : LogStore := .empty
  config : ClusterConfig := {}
  srvToJoin : Option Peer := none
  confToAdd : Option SrvConfig := none
  lastSnapshot : Option Snapshot := none
  votedServers : List Int := []
  /-- The state machine's own last snapshot. -/
  smLastSnapshot : Option Snapshot := none
  /-- What the state manager has saved. -/
  savedConfig : ClusterConfig := {}
  /-- Is `config_` still the object that the state manager holds, as `load_config` returns it? -/
  configShared : Bool := false
  savedState : Option SrvState := none
  /-- The static variable of `handle_cli_req`. -/
  timeElapsedSinceQuorumResp : Int := 2 ^ 31 - 1
  /-- The identity of the next peer object. -/
  nextUid : Nat := 0

/-- Which of the two response handlers a request was sent with. -/
inductive RespHandler
  | peerResp
  | extResp
  deriving DecidableEq

/-- A request on its way, sent through the peer object `uid`, whose connection leads to the
server `target`. -/
structure Rpc where
  handler : RespHandler
  uid : Nat
  target : Int
  req : ReqMsg
  creator : Server

/-- What a handler does besides updating the server. -/
inductive Effect
  | send (rpc : Rpc)
  /-- A request scheduled to be sent again through a peer object. -/
  | retry (rpc : Rpc)
  | preCommit (idx : Nat) (buf : Payload)
  | rollback (idx : Nat) (buf : Payload)
  | commit (idx : Nat) (buf : Payload)
  /-- `log_store_->compact` is called, on a store that starts at `startIdx`. -/
  | compact (startIdx lastLogIndex : Nat)
  /-- `log_store_->pack` is called. -/
  | pack (index : Nat) (cnt : Int)
  /-- The background thread takes an entry out of the log to apply it. -/
  | process (idx : Nat) (entry : LogEntry)
  | saveSnapshotData (s : Snapshot) (offset : Nat) (data : Bytes)
  | systemExit (code : Int)

abbrev M := Act Server Effect RaftException

open Act

namespace Server

def term (s : Server) : Nat := s.state.term

def votedFor (s : Server) : Int := s.state.votedFor

def nextSlot (s : Server) : Nat := s.logStore.nextSlot

def findPeer (s : Server) (id : Int) : Option Peer := s.peers.find? fun p => p.id = id

/-- The peer object with a given identity, among the peers or as the server to join. -/
def object (s : Server) (uid : Nat) : Option Peer :=
  (s.peers ++ s.srvToJoin.toList).find? fun p => p.uid = uid

/-- Update the peer object with a given identity. -/
def onPeer (uid : Nat) (f : Peer → Peer) (s : Server) : Server :=
  let g := fun p : Peer => if p.uid = uid then f p else p
  { s with peers := s.peers.map g, srvToJoin := s.srvToJoin.map g }

/-- `peers_.insert`: an id that is present is not replaced. -/
def addPeer (p : Peer) (s : Server) : Server :=
  if (s.findPeer p.id).isSome then s else { s with peers := s.peers ++ [p] }

def setVotedFor (v : Int) (s : Server) : Server :=
  { s with state := { s.state with votedFor := v } }

def saveState (s : Server) : Server := { s with savedState := some s.state }

/-- Change the object that `config_` points to. -/
def setConfig (c : ClusterConfig) (s : Server) : Server :=
  { s with config := c, savedConfig := if s.configShared then c else s.savedConfig }

/-- The state manager has a copy of its own from then on. -/
def keepConfig (saved : ClusterConfig) (s : Server) : Server :=
  { s with savedConfig := saved, configShared := false }

/-! ## Timers -/

/-- The election timer is not started while the server is catching up. -/
def restartElectionTimer (s : Server) : Server :=
  if s.catchingUp then s else { s with electionTask := some {} }

def stopElectionTimer (s : Server) : Server :=
  { s with electionTask := s.electionTask.map fun _ => ⟨true⟩ }

def enableHbForPeer (uid : Nat) (s : Server) : Server :=
  s.onPeer uid fun p => { (p.enableHb true).resumeHbSpeed with hbTask := {} }

/-! ## Construction -/

/-- What a server starts from: what the state manager and the state machine have stored. -/
structure Boot where
  config : ClusterConfig
  state : Option SrvState := none
  logStore : LogStore := .empty
  lastCommitIndex : Nat := 0
  snapshot : Option Snapshot := none

/-- Is there a configuration among the entries from `i` on, below `next`? -/
def hasConfFrom (st : LogStore) (i : Nat) : Bool :=
  (List.range' i (st.nextSlot - i)).any fun j => (st.entryAt j).valType = .conf

/-- The peers of a configuration, in order, without the server itself. -/
def addPeers (ctx : Context) (s : Server) : List SrvConfig → Server
  | [] => s
  | srv :: srvs =>
    let s := if srv.id = s.id then s
      else { s.addPeer (Peer.new ctx s.nextUid srv) with nextUid := s.nextUid + 1 }
    addPeers ctx s srvs

/-- The members before the peers are created. -/
def load (id : Int) (b : Boot) : Server where
  id := id
  quickCommitIdx := b.lastCommitIndex
  smCommitIndex := b.lastCommitIndex
  state := b.state.getD {}
  logStore := b.logStore
  config := b.config
  lastSnapshot := b.snapshot
  smLastSnapshot := b.snapshot
  savedConfig := b.config
  configShared := true
  savedState := b.state
  configChanging := hasConfFrom b.logStore (max (b.lastCommitIndex + 1) b.logStore.startIdx)

/-- The constructor. -/
def new (ctx : Context) (id : Int) (b : Boot) : Server :=
  ((load id b).addPeers ctx b.config.servers).restartElectionTimer

end Server

/-- `system_exit` followed by an exception. The state manager's `system_exit` does nothing. -/
def exitWith {α : Type} (code : Int) (e : RaftException) : M α := do
  emit (.systemExit code)
  throw e

/-- An exception on the way is caught, and thrown as `e` after `system_exit`. -/
def orExit (e : RaftException) (x : M Unit) : M Unit := catching x fun _ => exitWith (-1) e

/-- `save_config` writes the configuration to a buffer and reads it back. -/
def saveConfig (c : ClusterConfig) : M Unit :=
  match c.copied with
  | some saved => modify (Server.keepConfig saved)
  | none => throw .badBuffer

/-- Read a value that may not be there. -/
def orThrow {α : Type} (e : RaftException) : Option α → M α
  | some a => pure a
  | none => throw e

/-- `peer::send_req`, on the peer object `uid` of the server `target`. -/
def sendReq (uid : Nat) (target : Int) (req : ReqMsg) (handler : RespHandler) : M Unit := do
  let s ← get
  emit (.send ⟨handler, uid, target, req, s⟩)

end EnclaveRaft
