import EnclaveRaft.RaftServer

/-!
# Requests, responses and timeouts

After `raft_server_handle_req.cxx`, `raft_server_handle_resp.cxx`,
`raft_server_handle_timeout.cxx` and `process_req`. Where the source reads the clock, the time
is an argument.
-/

namespace EnclaveRaft

open Act Server

variable (ctx : Context)

/-! ## Append requests -/

/-- Skip the entries the log already holds with the same term. -/
def skipMatching (st : LogStore) : Nat → List LogEntry → Nat × List LogEntry
  | idx, [] => (idx, [])
  | idx, e :: es =>
    if idx < st.nextSlot ∧ st.termAt idx = e.term then skipMatching st (idx + 1) es
    else (idx, e :: es)

/-- `pre_commit` of the state machine, which may throw. -/
def preCommit (idx : Nat) (buf : Payload) : M Unit := do
  emit (.preCommit idx buf)
  when (¬ctx.stateMachine.preCommit buf) (throw .stateMachineFailed)

/-- What follows once an entry from the leader is in the log. -/
def noteEntry (idx : Nat) (entry : LogEntry) : M Unit :=
  match entry.valType with
  | .appLog => preCommit ctx idx entry.buf
  | .conf => modify fun s => { s with configChanging := true }
  | _ => pure ()

/-- What follows for an entry that is about to be overwritten. -/
def revertEntry (idx : Nat) (old : LogEntry) : M Unit :=
  match old.valType with
  | .appLog => emit (.rollback idx old.buf)
  | .conf => modify fun s => { s with configChanging := false }
  | _ => pure ()

/-- Overwrite from `idx` on while there is something to overwrite. What is left is returned. -/
def overwriteEntries : Nat → List LogEntry → M (List LogEntry)
  | _, [] => pure []
  | idx, e :: es => do
    let s ← get
    if idx < s.nextSlot then do
      revertEntry idx (s.logStore.entryAt idx)
      modify fun s => { s with logStore := s.logStore.writeAt idx e }
      noteEntry ctx idx e
      overwriteEntries (idx + 1) es
    else pure (e :: es)

def appendNewEntry (e : LogEntry) : M Unit := do
  let s ← get
  modify fun s => { s with logStore := s.logStore.append e }
  noteEntry ctx s.nextSlot e

/-- Write the entries of a request to the store, starting from the overlapping ones. -/
def writeEntries (req : ReqMsg) : M Unit := do
  let s ← get
  let (idx, es) := skipMatching s.logStore (req.lastLogIdx + 1) req.logEntries
  let rest ← overwriteEntries ctx idx es
  each (appendNewEntry ctx) rest

/-- A message of the current term from a leader makes a candidate step down and restarts the
election timer. -/
def hearLeader (e : RaftException) : M Unit := do
  let s ← get
  match s.role with
  | .candidate => modify becomeFollower
  | .leader => exitWith (-1) e
  | .follower => modify restartElectionTimer

/-- Does the log hold the entry the request starts after? -/
def logOkay (req : ReqMsg) : M Bool := do
  let s ← get
  if req.lastLogIdx = 0 then pure true
  else if req.lastLogIdx < s.nextSlot then do
    let t ← termForLog req.lastLogIdx
    pure (req.lastLogTerm = t)
  else pure false

def handleAppendEntries (req : ReqMsg) : M RespMsg := do
  let s ← get
  when (req.term = s.term) (hearLeader (.anotherLeader req.src))
  let s ← get
  let resp : RespMsg :=
    { term := s.term
      type := .appendEntriesResponse
      src := s.id
      dst := req.src
      nextIdx := s.nextSlot }
  let okay ← logOkay req
  if req.term < s.term ∨ ¬okay then pure resp
  else do
    writeEntries ctx req
    modify fun s => { s with leader := req.src }
    commit ctx req.commitIdx
    pure (resp.accept (req.lastLogIdx + req.logEntries.length + 1))

/-! ## Vote requests -/

/-- Is the candidate's log at least as up to date as this server's? -/
def voteLogOkay (s : Server) (req : ReqMsg) : Bool :=
  s.logStore.lastEntry.term < req.lastLogTerm ||
    (req.lastLogTerm = s.logStore.lastEntry.term && usub s.nextSlot 1 ≤ req.lastLogIdx)

def grantsVote (s : Server) (req : ReqMsg) : Bool :=
  req.term = s.term && voteLogOkay s req && (s.votedFor = req.src || s.votedFor = nobody)

def handleVoteReq (req : ReqMsg) : M RespMsg := do
  let s ← get
  let resp : RespMsg :=
    { term := s.term, type := .requestVoteResponse, src := s.id, dst := req.src }
  if grantsVote s req then do
    modify fun s => (s.setVotedFor req.src).saveState
    pure (resp.accept s.nextSlot)
  else pure resp

/-! ## Client requests -/

/-- The time since a majority was last heard from. -/
def elapsedSinceQuorumResp (s : Server) (now : Int) : Int :=
  int32 (now - (((s.peers.map Peer.lastResp).insertionSort (· ≤ ·)).getD (s.peers.length / 2) 0))

/-- Has the leader lost touch with a majority? The time is only looked at again once the last
value is too large. -/
def leaderExpired (now : Int) : M Bool := do
  let s ← get
  let bound := ctx.params.electionTimeoutUpperBound * 2
  if s.role = .leader ∧ s.peers ≠ [] ∧ bound < s.timeElapsedSinceQuorumResp then do
    modify fun s => { s with timeElapsedSinceQuorumResp := elapsedSinceQuorumResp s now }
    pure (decide (bound < elapsedSinceQuorumResp s now))
  else pure false

/-- Append a client's entry under the current term. -/
def appendClientEntry (entry : LogEntry) : M Unit := do
  modify fun s => { s with logStore := s.logStore.append { entry with term := s.term } }
  let s ← get
  preCommit ctx (usub s.nextSlot 1) entry.buf

def handleCliReq (req : ReqMsg) (now : Int) : M RespMsg := do
  let expired ← leaderExpired ctx now
  let s ← get
  let resp : RespMsg :=
    { term := s.term, type := .appendEntriesResponse, src := s.id, dst := s.leader }
  if expired then pure { resp with dst := nobody }
  else if s.role ≠ .leader then pure resp
  else do
    each (appendClientEntry ctx) req.logEntries
    requestAppendEntries ctx
    let s ← get
    pure (resp.accept s.nextSlot)

/-! ## Membership requests -/

def handleAddSrvReq (req : ReqMsg) : M RespMsg := do
  let s ← get
  let resp : RespMsg :=
    { term := s.term, type := .addServerResponse, src := s.id, dst := s.leader }
  match req.logEntries with
  | [entry] =>
    if entry.valType ≠ .clusterServer ∨ s.role ≠ .leader then pure resp
    else match entry.buf with
      | .server srv =>
        -- `get_str` gives a null pointer for an empty endpoint
        if srv.endpoint = [] then throw .badBuffer
        else if (s.findPeer srv.id).isSome ∨ s.id = srv.id ∨ s.configChanging then pure resp
        else do
          modify fun s =>
            { s with
              confToAdd := some srv
              srvToJoin := some (Peer.new ctx s.nextUid srv)
              nextUid := s.nextUid + 1 }
          inviteSrvToJoinCluster
          pure (resp.accept s.nextSlot)
      | _ => throw .badBuffer
  | _ => pure resp

def handleRmSrvReq (req : ReqMsg) : M RespMsg := do
  let s ← get
  let resp : RespMsg :=
    { term := s.term, type := .removeServerResponse, src := s.id, dst := s.leader }
  match req.logEntries with
  | [⟨_, _, .int srvId⟩] =>
    if s.role ≠ .leader ∨ s.configChanging ∨ srvId = s.id then pure resp
    else match s.findPeer srvId with
      | none => pure resp
      | some p => do
        sendReq p.uid p.id
          { term := s.term
            type := .leaveClusterRequest
            src := s.id
            dst := srvId
            lastLogTerm := 0
            lastLogIdx := usub s.nextSlot 1
            commitIdx := s.quickCommitIdx } .extResp
        pure (resp.accept s.nextSlot)
  | _ => pure resp

def handleLogSyncReq (req : ReqMsg) : M RespMsg := do
  let s ← get
  let resp : RespMsg :=
    { term := s.term, type := .syncLogResponse, src := s.id, dst := req.src }
  match req.logEntries with
  | [entry] =>
    if entry.valType ≠ .logPack ∨ ¬s.catchingUp then pure resp
    else match entry.buf with
      | .pack entries => do
        modify fun s =>
          { s with logStore := s.logStore.applyPack (usucc req.lastLogIdx) entries }
        let s ← get
        commit ctx (usub s.nextSlot 1)
        pure (resp.accept s.nextSlot)
      | _ => throw .badBuffer
  | _ => pure resp

/-- Start catching up with the cluster of `req`. -/
def startCatchingUp (req : ReqMsg) (s : Server) : Server :=
  { s with
    catchingUp := true
    role := .follower
    leader := req.src
    smCommitIndex := 0
    quickCommitIdx := 0
    state := ⟨req.term, nobody⟩
    savedState := some ⟨req.term, nobody⟩ }

def handleJoinClusterReq (req : ReqMsg) : M RespMsg := do
  let s ← get
  let resp : RespMsg :=
    { term := s.term, type := .joinClusterResponse, src := s.id, dst := req.src }
  match req.logEntries with
  | [entry] =>
    if entry.valType ≠ .conf ∨ s.catchingUp then pure resp
    else do
      modify (startCatchingUp req)
      match entry.buf with
      | .config config =>
        if config.copied.isNone then throw .badBuffer
        else do
          reconfigure ctx config
          pure (resp.accept s.nextSlot)
      | _ => throw .badBuffer
  | _ => pure resp

def handleLeaveClusterReq (req : ReqMsg) : M RespMsg := do
  let s ← get
  let resp : RespMsg :=
    { term := s.term, type := .leaveClusterResponse, src := s.id, dst := req.src }
  if s.configChanging then pure resp
  else do
    modify fun s => { s with stepsToDown := 2 }
    pure (resp.accept s.nextSlot)

/-! ## Snapshot installation -/

/-- `handle_snapshot_sync_req`: any exception on the way is turned into one of its own. -/
def handleSnapshotSyncReq (req : SnapshotSyncReq) : M Unit := do
  emit (.saveSnapshotData req.snapshot req.offset req.data)
  when (req.done) do
    let s ← get
    when (s.role ≠ .follower) do
      emit (.systemExit (-1))
      exitWith (-1) .snapshotInstallFailed
    emit (.compact s.logStore.startIdx req.snapshot.lastLogIdx)
    modify fun s => { s with logStore := s.logStore.compact req.snapshot.lastLogIdx }
    modify stopElectionTimer
    when (¬ctx.stateMachine.applySnapshot req.snapshot) do
      emit (.systemExit (-1))
      exitWith (-1) .snapshotInstallFailed
    modify fun s => { s with smLastSnapshot := some req.snapshot }
    orExit .snapshotInstallFailed do
      reconfigure ctx req.snapshot.lastConfig
      let s ← get
      saveConfig s.config
    modify fun s =>
      { s.saveState with
        smCommitIndex := req.snapshot.lastLogIdx
        quickCommitIdx := req.snapshot.lastLogIdx
        lastSnapshot := some { req.snapshot with lastConfig := s.config } }
    modify restartElectionTimer

def handleInstallSnapshotReq (req : ReqMsg) : M RespMsg := do
  let s ← get
  when (req.term = s.term ∧ ¬s.catchingUp) (hearLeader (.anotherLeaderSnapshot req.src))
  let s ← get
  let resp : RespMsg :=
    { term := s.term, type := .installSnapshotResponse, src := s.id, dst := req.src }
  if ¬s.catchingUp ∧ req.term < s.term then pure resp
  else match req.logEntries with
    | [entry] =>
      if entry.valType ≠ .snpSyncReq then pure resp
      else match entry.buf with
        | .snapshotSync sync =>
          if sync.snapshot.lastConfig.copied.isNone then throw .badBuffer
          else if sync.snapshot.lastLogIdx ≤ s.smCommitIndex then pure resp
          else do
            handleSnapshotSyncReq ctx sync
            pure (resp.accept (sync.offset + sync.data.length))
        | _ => throw .badBuffer
    | _ => pure resp

/-! ## Dispatch -/

def handleExtendedMsg (req : ReqMsg) : M RespMsg :=
  match req.type with
  | .addServerRequest => handleAddSrvReq ctx req
  | .removeServerRequest => handleRmSrvReq req
  | .syncLogRequest => handleLogSyncReq ctx req
  | .joinClusterRequest => handleJoinClusterReq ctx req
  | .leaveClusterRequest => handleLeaveClusterReq req
  | .installSnapshotRequest => handleInstallSnapshotReq ctx req
  | t => exitWith (-1) (.unknownRequest t)

/-- Requests of the protocol itself carry the sender's term. -/
def MsgType.bringsTerm (t : MsgType) : Bool :=
  t = .appendEntriesRequest || t = .requestVoteRequest || t = .installSnapshotRequest

def processReq (req : ReqMsg) (now : Int) : M RespMsg := do
  when (req.type.bringsTerm) do
    let _ ← updateTerm req.term
    modify fun s => if 0 < s.stepsToDown then { s with stepsToDown := 2 } else s
  match req.type with
  | .appendEntriesRequest => handleAppendEntries ctx req
  | .requestVoteRequest => handleVoteReq req
  | .clientRequest => handleCliReq ctx req now
  | _ => handleExtendedMsg ctx req

/-! ## Responses from peers -/

/-- Count a response to a vote request. -/
def countVote (resp : RespMsg) (s : Server) : Server :=
  { s with
    votedServers := s.votedServers.insert resp.src
    votesGranted := if resp.accepted then s.votesGranted + 1 else s.votesGranted
    electionCompleted := s.electionCompleted ||
      decide (s.peers.length + 1 ≤ (s.votedServers.insert resp.src).length) }

def handleVotingResp (resp : RespMsg) : M Unit := do
  let s ← get
  if resp.term ≠ s.term ∨ s.electionCompleted ∨ resp.src ∈ s.votedServers then pure ()
  else do
    modify (countVote resp)
    let s ← get
    when ((s.peers.length + 1) / 2 < s.votesGranted) do
      modify fun s => { s with electionCompleted := true }
      becomeLeader ctx

/-- The index a majority holds, by the matched indices on record. -/
def majorityIdx (s : Server) : Nat :=
  ((usub s.nextSlot 1 :: s.peers.map Peer.matchedIdx).insertionSort (· ≥ ·)).getD
    ((s.peers.length + 1) / 2) 0

/-- Record what an accepting peer holds. -/
def recordMatch (nextIdx : Nat) (p : Peer) : Peer :=
  (p.setNextLogIdx nextIdx).setMatchedIdx (usub nextIdx 1)

/-- Move a rejecting peer's cursor back. -/
def moveBack (nextIdx : Nat) (p : Peer) : Peer :=
  if 0 < nextIdx ∧ nextIdx < p.nextLogIdx then p.setNextLogIdx nextIdx
  else p.setNextLogIdx (usub p.nextLogIdx 1)

/-- `clear_pending_commit`: was the flag set? -/
def clearPendingCommit (uid : Nat) : M Bool := do
  let s ← get
  modify (onPeer uid Peer.clearPendingCommit)
  pure ((s.object uid).any Peer.pendingCommitFlag)

/-- Go on replicating to a peer, if this is still a leader. -/
def catchUp (uid : Nat) (needToCatchup : Bool) : M Unit := do
  let s ← get
  when (s.role = .leader ∧ needToCatchup) do
    let _ ← requestAppendEntriesTo ctx uid

def handleAppendEntriesResp (resp : RespMsg) : M Unit := do
  let s ← get
  match s.findPeer resp.src with
  | none => pure ()
  | some p =>
    if resp.accepted then do
      modify (onPeer p.uid (recordMatch resp.nextIdx))
      let s ← get
      commit ctx (majorityIdx s)
      let pending ← clearPendingCommit p.uid
      let s ← get
      catchUp ctx p.uid (pending || resp.nextIdx < s.nextSlot)
    else do
      modify (onPeer p.uid (moveBack resp.nextIdx))
      catchUp ctx p.uid true

/-- A peer has the whole of a snapshot. -/
def recordSnapshot (snp : Snapshot) (p : Peer) : Peer :=
  ((p.setNextLogIdx (snp.lastLogIdx + 1)).setMatchedIdx snp.lastLogIdx).setSnapshotInSync none

def setOffset (sync : SnapshotSyncCtx) (offset : Nat) (p : Peer) : Peer :=
  { p with snpSyncCtx := some { sync with offset := offset } }

/-- What the leader notes of a block that was accepted. -/
def noteBlock (sync : SnapshotSyncCtx) (nextIdx : Nat) (p : Peer) : Peer :=
  if sync.snapshot.size ≤ nextIdx then recordSnapshot sync.snapshot p else setOffset sync nextIdx p

def handleInstallSnapshotResp (resp : RespMsg) : M Unit := do
  let s ← get
  match s.findPeer resp.src with
  | none => pure ()
  | some p =>
    if resp.accepted then
      match p.snpSyncCtx with
      | none => pure ()
      | some sync => do
        modify (onPeer p.uid (noteBlock sync resp.nextIdx))
        if sync.snapshot.size ≤ resp.nextIdx then do
          let pending ← clearPendingCommit p.uid
          let s ← get
          catchUp ctx p.uid (pending || resp.nextIdx < s.nextSlot)
        else catchUp ctx p.uid true
    else catchUp ctx p.uid true

/-- Note when a peer was last heard from. -/
def heardFrom (src : Int) (now : Int) (s : Server) : Server :=
  { s with peers := s.peers.map fun p => if p.id = src then p.setLastResp now else p }

def handlePeerResp (resp : RespMsg) (now : Int) : M Unit := do
  modify (heardFrom resp.src now)
  let updated ← updateTerm resp.term
  if updated then pure ()
  else match resp.type with
    | .requestVoteResponse => handleVotingResp ctx resp
    | .appendEntriesResponse => handleAppendEntriesResp ctx resp
    | .installSnapshotResponse => handleInstallSnapshotResp ctx resp
    | t => exitWith (-1) (.unexpectedResponse t)

/-! ## Responses to membership requests -/

/-- Update the server to join. -/
def onJoin (f : Peer → Peer) (s : Server) : Server := { s with srvToJoin := s.srvToJoin.map f }

def handleExtResp (resp : RespMsg) : M Unit := do
  let s ← get
  match resp.type with
  | .syncLogResponse =>
    when (s.srvToJoin.isSome) do
      modify (onJoin fun p => recordMatch resp.nextIdx p.resumeHbSpeed)
      syncLogToNewSrv ctx resp.nextIdx
  | .joinClusterResponse =>
    when (s.srvToJoin.isSome ∧ resp.accepted) (syncLogToNewSrv ctx resp.nextIdx)
  | .leaveClusterResponse =>
    when (resp.accepted) (rmSrvFromCluster ctx resp.src)
  | .installSnapshotResponse =>
    match s.srvToJoin with
    | none => pure ()
    | some p =>
      if ¬resp.accepted then pure ()
      else match p.snpSyncCtx with
        | none => exitWith (-1) .nullSnapshotSyncCtx
        | some sync => do
          modify (onJoin (noteBlock sync resp.nextIdx))
          let s ← get
          let p ← orThrow .crash s.srvToJoin
          syncLogToNewSrv ctx p.nextLogIdx
  | t => exitWith (-1) (.unexpectedExtResponse t)

/-- With two servers, the one that cannot be reached is dropped from the peers at once. -/
def dropOnlyPeer (id : Int) (s : Server) : Server :=
  if s.peers.length = 1 then { s with peers := s.peers.filter fun p => p.id ≠ id } else s

/-- The peer object a failed request is retried through. -/
def retryPeer (req : ReqMsg) (s : Server) : Option Peer :=
  match req.type with
  | .leaveClusterRequest => s.findPeer req.dst
  | .syncLogRequest => s.srvToJoin
  | .joinClusterRequest => s.srvToJoin
  | _ => none

def handleExtRespErr (req : ReqMsg) : M Unit := do
  let s ← get
  match retryPeer req s with
  | none => pure ()
  | some p =>
    if ctx.params.maxHbInterval ≤ p.currentHbInterval then
      if req.type = .leaveClusterRequest then do
        modify (dropOnlyPeer p.id)
        rmSrvFromCluster ctx p.id
      else modify fun s => { s with configChanging := false, srvToJoin := none }
    else do
      modify (onPeer p.uid Peer.slowDownHb)
      emit (.retry ⟨.extResp, p.uid, p.id, req, s⟩)

/-! ## Results of calls -/

/-- `peer::handle_rpc_result`, on the peer object the request was sent through. -/
def handleRpcResult (rpc : Rpc) (ok : Bool) (s : Server) : Server :=
  s.onPeer rpc.uid fun p =>
    let p := if rpc.req.type = .appendEntriesRequest ∨ rpc.req.type = .installSnapshotRequest
      then p.setFree else p
    if ok then p.resumeHbSpeed else p.slowDownHb

/-- The response to a request comes back. -/
def onResponse (rpc : Rpc) (resp : RespMsg) (now : Int) : M Unit := do
  modify (handleRpcResult rpc true)
  match rpc.handler with
  | .peerResp => handlePeerResp ctx resp now
  | .extResp => handleExtResp ctx resp

/-- A request fails. -/
def onFailure (rpc : Rpc) : M Unit := do
  modify (handleRpcResult rpc false)
  match rpc.handler with
  | .peerResp => pure ()
  | .extResp => handleExtRespErr ctx rpc.req

/-! ## Timeouts -/

/-- Become a candidate for the next term. `inc_term` wraps at the end of `ulong`, which takes a server
in term `2 ^ 64 - 1` to term 0; terms are natural numbers here and go on. -/
def becomeCandidate (s : Server) : Server :=
  { s with
    state := ⟨s.term + 1, nobody⟩
    role := .candidate
    votesGranted := 0
    votedServers := []
    electionCompleted := false
    savedState := some ⟨s.term + 1, nobody⟩ }

/-- A server that is stepping down leaves its own configuration. -/
def leaveConfig (s : Server) : Server :=
  s.setConfig { s.config with servers := s.config.servers.eraseP fun srv => srv.id = s.id }

def handleElectionTimeout : M Unit := do
  let s ← get
  if 0 < s.stepsToDown then do
    modify fun s => { s with stepsToDown := s.stepsToDown - 1 }
    if s.stepsToDown = 1 then do
      when ((s.config.getServer s.id).isSome) do
        modify leaveConfig
        let s ← get
        saveConfig s.config
      exitWith (-1) .steppedDown
    else modify restartElectionTimer
  else if s.catchingUp then modify restartElectionTimer
  else if s.role = .leader then exitWith (-1) .leaderElectionTimeout
  else do
    modify becomeCandidate
    requestVote ctx
    modify fun s => if s.role = .leader then s else s.restartElectionTimer

def handleHbTimeout (uid : Nat) : M Unit := do
  let s ← get
  when (s.role = .leader) do
    let _ ← requestAppendEntriesTo ctx uid
    modify (onPeer uid fun p => if p.hbEnabled then { p with hbTask := {} } else p)

end EnclaveRaft
