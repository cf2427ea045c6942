import EnclaveRaft.Server

/-!
# The server's own procedures

After `raft_server.cxx`: role changes, replication requests, the commit index, snapshots,
reconfiguration and log synchronisation. Procedures that the source runs under `lock_` are
single actions. Logging is left out.
-/

namespace EnclaveRaft

open Act Server

variable (ctx : Context)

/-! ## Requests to peers -/

/-- The term of the entry at an index. Below the start of the log only the index of the last
snapshot is known. -/
def termForLog (logIdx : Nat) : M Nat := do
  let s ← get
  if logIdx = 0 then pure 0
  else if s.logStore.startIdx ≤ logIdx then pure (s.logStore.termAt logIdx)
  else match s.smLastSnapshot with
    | some snp =>
      if logIdx = snp.lastLogIdx then pure snp.lastLogTerm
      else exitWith (-1) (.badLogIdx logIdx)
    | none => exitWith (-1) (.badLogIdx logIdx)

def getSnapshotSyncBlockSize : Int :=
  if ctx.params.snapshotBlockSize = 0 then 4 * 1024 else ctx.params.snapshotBlockSize

/-- Does the transfer to a peer have to start over with the latest snapshot? -/
def needsLatestSnapshot (s : Server) (p : Peer) : Bool :=
  match p.snpSyncCtx, s.lastSnapshot with
  | none, _ => true
  | some _, none => false
  | some c, some snp => c.snapshot.lastLogIdx < snp.lastLogIdx

/-- Point a peer's transfer at the latest snapshot. -/
def startSnapshotSync (uid lastLogIdx : Nat) (p : Peer) : M Unit := do
  let s ← get
  match s.lastSnapshot with
  | none => throw .crash
  | some snp =>
    if snp.lastLogIdx < lastLogIdx then exitWith (-1) (.noSnapshotForPeer p.id)
    else if snp.size < 1 then exitWith (-1) .invalidSnapshot
    else modify (onPeer uid (·.setSnapshotInSync (some snp)))

/-- The next block of a snapshot transfer. -/
def snapshotBlock (p : Peer) (sync : SnapshotSyncCtx) (term commitIdx : Nat) : M ReqMsg := do
  let s ← get
  let snp := sync.snapshot
  let size := min (getSnapshotSyncBlockSize ctx) (int32 (usub snp.size sync.offset))
  if size < 0 then throw .badBuffer
  else
    let read := ctx.stateMachine.readSnapshotData snp sync.offset size.toNat
    let block : SnapshotSyncReq :=
      { snapshot := snp
        offset := sync.offset
        data := read.take size.toNat
        done := snp.size ≤ sync.offset + size.toNat }
    if read.length < size.toNat then
      exitWith (-1) (.shortSnapshotRead read.length size.toNat)
    else if ¬block.serialize.isOk then throw .badBuffer
    else
      pure
        { term := term
          type := .installSnapshotRequest
          src := s.id
          dst := p.id
          lastLogTerm := snp.lastLogTerm
          lastLogIdx := snp.lastLogIdx
          commitIdx := commitIdx
          logEntries := [⟨term, .snpSyncReq, .snapshotSync block⟩] }

def createSyncSnapshotReq (uid lastLogIdx term commitIdx : Nat) : M ReqMsg := do
  let s ← get
  let p ← orThrow .crash (s.object uid)
  when (needsLatestSnapshot s p) (startSnapshotSync uid lastLogIdx p)
  let s ← get
  let sync ← orThrow .crash ((s.object uid).bind Peer.snpSyncCtx)
  snapshotBlock ctx p sync term commitIdx

/-- The entries of an append request after `lastLogIdx`, at most `max_append_size_` of them. -/
def entriesAfter (s : Server) (lastLogIdx : Nat) : Option (List LogEntry) :=
  if s.nextSlot ≤ lastLogIdx + 1 then some []
  else s.logStore.logEntries (lastLogIdx + 1)
    (min s.nextSlot (ulong (lastLogIdx + 1 + ctx.params.maxAppendSize)))

def createAppendEntriesReq (uid : Nat) : M ReqMsg := do
  modify fun s => s.onPeer uid fun p =>
    if p.nextLogIdx = 0 then p.setNextLogIdx s.nextSlot else p
  let s ← get
  let p ← orThrow .crash (s.object uid)
  let lastLogIdx := usub p.nextLogIdx 1
  if s.nextSlot ≤ lastLogIdx then
    exitWith (-1) (.lastLogIndexTooLarge lastLogIdx s.nextSlot)
  else if 0 < lastLogIdx ∧ lastLogIdx < usub s.logStore.startIdx 1 then
    createSyncSnapshotReq ctx uid lastLogIdx s.term s.quickCommitIdx
  else do
    let lastLogTerm ← termForLog lastLogIdx
    let logEntries ← orThrow .badRange (entriesAfter ctx s lastLogIdx)
    pure
      { term := s.term
        type := .appendEntriesRequest
        src := s.id
        dst := p.id
        lastLogTerm := lastLogTerm
        lastLogIdx := lastLogIdx
        commitIdx := s.quickCommitIdx
        logEntries := logEntries }

/-- `request_append_entries(peer &)`: nothing is sent to a peer that is busy. -/
def requestAppendEntriesTo (uid : Nat) : M Bool := do
  let s ← get
  let p ← orThrow .crash (s.object uid)
  if p.busyFlag then pure false
  else do
    modify (onPeer uid Peer.makeBusy)
    let msg ← createAppendEntriesReq ctx uid
    sendReq uid p.id msg .peerResp
    pure true

/-- Tell a peer of a new commit index, or note that it has to be told. -/
def notifyCommit (p : Peer) : M Unit := do
  let sent ← requestAppendEntriesTo ctx p.uid
  if sent then pure () else modify (onPeer p.uid Peer.setPendingCommit)

/-- Raise the commit index. A leader tells its peers. -/
def commit (targetIdx : Nat) : M Unit := do
  let s ← get
  when (s.quickCommitIdx < targetIdx) do
    modify fun s => { s with quickCommitIdx := targetIdx }
    when (s.role = .leader) (each (notifyCommit ctx) s.peers)

/-- `request_append_entries()`. -/
def requestAppendEntries : M Unit := do
  let s ← get
  if s.peers = [] then commit ctx (usub s.nextSlot 1)
  else each (fun p => do let _ ← requestAppendEntriesTo ctx p.uid) s.peers

/-! ## Roles and terms -/

/-- Put the configuration a cluster was started with into the log. -/
def saveInitialConfig (s : Server) : Server :=
  let config := s.config.setLogIdx s.nextSlot
  { s.setConfig config with
    logStore := s.logStore.append ⟨s.term, .conf, .config config⟩
    configChanging := true }

/-- What `become_leader` does to each peer. -/
def resetPeer (s : Server) (p : Peer) : Peer :=
  let p := ((p.setNextLogIdx s.nextSlot).setSnapshotInSync none).setFree
  { (p.enableHb true).resumeHbSpeed with hbTask := {} }

/-- The role change itself: every peer is reset but for its matched index. -/
def takeLead (s : Server) : Server :=
  { s.stopElectionTimer with
    role := .leader
    leader := s.id
    srvToJoin := none
    peers := s.peers.map (resetPeer s) }

def becomeLeader : M Unit := do
  modify takeLead
  let s ← get
  when (s.config.logIdx = 0) (modify saveInitialConfig)
  requestAppendEntries ctx

def becomeFollower (s : Server) : Server :=
  restartElectionTimer
    { s with peers := s.peers.map (·.enableHb false), srvToJoin := none, role := .follower }

/-- Enter a higher term as a follower that has not voted. -/
def enterTerm (term : Nat) (s : Server) : Server :=
  becomeFollower
    { s with
      state := ⟨term, nobody⟩
      electionCompleted := false
      votesGranted := 0
      votedServers := []
      savedState := some ⟨term, nobody⟩ }

def updateTerm (term : Nat) : M Bool := do
  let s ← get
  if s.term < term then do
    modify (enterTerm term)
    pure true
  else pure false

/-- The vote request to a peer. -/
def sendVoteReq (p : Peer) : M Unit := do
  let s ← get
  let lastLogTerm ← termForLog (usub s.nextSlot 1)
  sendReq p.uid p.id
    { term := s.term
      type := .requestVoteRequest
      src := s.id
      dst := p.id
      lastLogTerm := lastLogTerm
      lastLogIdx := usub s.nextSlot 1
      commitIdx := s.quickCommitIdx } .peerResp

/-- Vote for oneself. -/
def voteForSelf (s : Server) : Server :=
  { (s.setVotedFor s.id).saveState with
    votesGranted := s.votesGranted + 1
    votedServers := s.votedServers.insert s.id }

def requestVote : M Unit := do
  modify voteForSelf
  let s ← get
  -- is this the only server?
  if (s.peers.length + 1) / 2 < s.votesGranted then do
    modify fun s => { s with electionCompleted := true }
    becomeLeader ctx
  else each sendVoteReq s.peers

/-! ## Reconfiguration -/

/-- A server added by a configuration. A leader that was bringing it up goes on from there. -/
def addConfigured (s : Server) (srv : SrvConfig) : Server :=
  let p := (Peer.new ctx s.nextUid srv).setNextLogIdx s.nextSlot
  let s' : Server := { s.addPeer p with nextUid := s.nextUid + 1 }
  if s.role = .leader then
    let s' := s'.enableHbForPeer p.uid
    match s.srvToJoin with
    | some j =>
      if j.id = p.id then
        { s'.onPeer p.uid (·.setNextLogIdx j.nextLogIdx) with srvToJoin := none }
      else s'
    | none => s'
  else s'

/-- The peers that a configuration no longer names, without the server itself. -/
def dropUnconfigured (config : ClusterConfig) (s : Server) : Server :=
  { s with peers := s.peers.filter fun p => (config.getServer p.id).isSome }

/-- Adopt a configuration. A server that it removes saves it, asks to exit and returns with the
old configuration in place. -/
def reconfigure (newConfig : ClusterConfig) : M Unit := do
  let s ← get
  let added := newConfig.servers.filter fun srv => (s.findPeer srv.id).isNone ∧ srv.id ≠ s.id
  modify fun s => added.foldl (addConfigured ctx) s
  modify (dropUnconfigured newConfig)
  let s ← get
  if (newConfig.getServer s.id).isNone ∧ ¬s.catchingUp then do
    saveConfig newConfig
    emit (.systemExit 0)
  else modify fun s => { s with config := newConfig, configShared := false }

/-! ## Bringing up a new server, removing one -/

/-- The configuration in the log that takes effect next. -/
def appendConfig (config : ClusterConfig) (s : Server) : Server :=
  { s with
    logStore := s.logStore.append ⟨s.term, .conf, .config config⟩
    configChanging := true }

/-- How far the new server is behind, as the source computes it. -/
def syncGap (s : Server) (startIdx : Nat) : Int := int32 (usub s.quickCommitIdx startIdx)

/-- The current configuration and the server to add. -/
def configWith (s : Server) (srv : SrvConfig) : ClusterConfig :=
  { logIdx := s.nextSlot, prevLogIdx := s.config.logIdx, servers := s.config.servers ++ [srv] }

/-- The current configuration without a server. -/
def configWithout (s : Server) (id : Int) : ClusterConfig where
  logIdx := s.nextSlot
  prevLogIdx := s.config.logIdx
  servers := s.config.servers.filter fun srv => srv.id ≠ id

def syncLogToNewSrv (startIdx : Nat) : M Unit := do
  let s ← get
  let p ← orThrow .crash s.srvToJoin
  if syncGap s startIdx < ctx.params.logSyncStopGap then do
    let srv ← orThrow .crash s.confToAdd
    modify (appendConfig (configWith s srv))
    requestAppendEntries ctx
  else if 0 < startIdx ∧ startIdx < s.logStore.startIdx then do
    let req ← createSyncSnapshotReq ctx p.uid startIdx s.term s.quickCommitIdx
    sendReq p.uid p.id req .extResp
  else do
    let sizeToSync := min (syncGap s startIdx) ctx.params.logSyncBatchSize
    emit (.pack startIdx sizeToSync)
    let logPack ← orThrow .crash (s.logStore.pack startIdx sizeToSync)
    sendReq p.uid p.id
      { term := s.term
        type := .syncLogRequest
        src := s.id
        dst := p.id
        lastLogTerm := 0
        lastLogIdx := usub startIdx 1
        commitIdx := s.quickCommitIdx
        logEntries := [⟨s.term, .logPack, .pack logPack⟩] } .extResp

def inviteSrvToJoinCluster : M Unit := do
  let s ← get
  let p ← orThrow .crash s.srvToJoin
  sendReq p.uid p.id
    { term := s.term
      type := .joinClusterRequest
      src := s.id
      dst := p.id
      lastLogTerm := 0
      lastLogIdx := usub s.nextSlot 1
      commitIdx := s.quickCommitIdx
      logEntries := [⟨s.term, .conf, .config s.config⟩] } .extResp

def rmSrvFromCluster (srvId : Int) : M Unit := do
  modify fun s => appendConfig (configWithout s srvId) s
  requestAppendEntries ctx

/-! ## Snapshots -/

/-- Walk back along the configurations in the log until one at or below `committedIdx`. The
walk visits an index at most once unless it never ends, so the length of the log bounds it. -/
def findConfig (st : LogStore) (committedIdx : Nat) :
    Nat → ClusterConfig → Except RaftException ClusterConfig
  | 0, _ => .error .crash
  | fuel + 1, conf =>
    if committedIdx < conf.logIdx ∧ st.startIdx ≤ conf.prevLogIdx then
      match (st.entryAt conf.prevLogIdx).buf with
      | .config c =>
        if c.copied.isSome then findConfig st committedIdx fuel c else .error .badBuffer
      | _ => .error .badBuffer
    else .ok conf

/-- The configuration a snapshot at `committedIdx` carries. -/
def snapshotConfig (s : Server) (committedIdx : Nat) : Except RaftException ClusterConfig := do
  let conf ← findConfig s.logStore committedIdx (s.nextSlot + 1) s.config
  if committedIdx < conf.logIdx ∧ 0 < conf.prevLogIdx ∧ conf.prevLogIdx < s.logStore.startIdx then
    match s.lastSnapshot with
    | none => .error .noSnapshotForConfig
    | some snp => pure snp.lastConfig
  else if committedIdx < conf.logIdx ∧ conf.prevLogIdx = 0 then .error .noConfigAtIndexOne
  else pure conf

/-- `on_snapshot_completed`: keep `reserved_log_items_` entries below the snapshot. -/
def onSnapshotCompleted (snp : Snapshot) (s : Server) : Server :=
  let reserved := ulong ctx.params.reservedLogItems
  { s with
    lastSnapshot := some snp
    logStore := if reserved < snp.lastLogIdx then s.logStore.compact (snp.lastLogIdx - reserved)
      else s.logStore }

/-- Is it time for a snapshot at `committedIdx`? -/
def snapshotDue (s : Server) (committedIdx : Nat) : Bool :=
  let distance := ulong ctx.params.snapshotDistance
  ctx.params.snapshotDistance ≠ 0 && distance ≤ usub committedIdx s.logStore.startIdx &&
    (match s.lastSnapshot with
      | none => true
      | some snp => distance ≤ usub committedIdx snp.lastLogIdx) &&
    !s.snpInProgress

/-- Create a snapshot when it is due. The exceptions on the way are caught. -/
def snapshotAndCompact (committedIdx : Nat) : M Unit := do
  let s ← get
  if snapshotDue ctx s committedIdx then
    match snapshotConfig s committedIdx with
    | .error .noSnapshotForConfig => emit (.systemExit (-1))
    | .error .noConfigAtIndexOne => emit (.systemExit (-1))
    | .error .crash => throw .crash
    | .error _ => pure ()
    | .ok conf =>
      let snp : Snapshot := ⟨committedIdx, s.logStore.termAt committedIdx, conf, 0⟩
      -- the echo state machine remembers the snapshot and reports at once
      if ctx.stateMachine.createSnapshot snp then do
        let reserved := ulong ctx.params.reservedLogItems
        when (reserved < committedIdx)
          (emit (.compact s.logStore.startIdx (committedIdx - reserved)))
        modify fun s => onSnapshotCompleted ctx snp { s with smLastSnapshot := some snp }
      else pure ()
  else pure ()

/-! ## The background thread -/

/-- Apply a committed configuration. Once it has been saved, `reconfigure` can save it too. -/
def applyConfig (newConf : ClusterConfig) : M Unit := do
  orExit .badBuffer (saveConfig newConf)
  modify fun s => { s with configChanging := false }
  let s ← get
  when (s.config.logIdx < newConf.logIdx) (reconfigure ctx newConf)
  modify fun s =>
    if s.catchingUp ∧ (newConf.getServer s.id).isSome then { s with catchingUp := false } else s

/-- Hand a committed entry to the state machine, or adopt the configuration it holds. -/
def applyEntry (idx : Nat) (entry : LogEntry) : M Unit :=
  match entry.valType with
  | .appLog => do
    emit (.commit idx entry.buf)
    when (¬ctx.stateMachine.commit entry.buf) (exitWith (-1) .stateMachineFailed)
  | .conf =>
    match entry.buf with
    | .config newConf => applyConfig ctx newConf
    | _ => exitWith (-1) .badBuffer
  | _ => pure ()

/-- One round of `commit_in_bg`: take the next committed entry and apply it. An exception ends the
thread. The thread takes `lock_` only to apply a configuration; here a round is one action, between
two of the others. -/
def commitInBg : M Unit := do
  let s ← get
  let idx := s.smCommitIndex + 1
  when (s.smCommitIndex < s.quickCommitIdx ∧ s.smCommitIndex < usub s.nextSlot 1) do
    modify fun s => { s with smCommitIndex := idx }
    emit (.process idx (s.logStore.entryAt idx))
    applyEntry ctx idx (s.logStore.entryAt idx)
    snapshotAndCompact ctx idx

end EnclaveRaft
