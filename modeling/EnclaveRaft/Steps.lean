import EnclaveRaft.Cluster

/-!
# What a handler can do to a server

A handler is a sequence of small steps, and `Micro` lists them: entering a term, granting a
vote, sending a request, raising the commit index, and so on, each with the checks that the
code makes before it. The steps carry the input the handler got and the state `s₀` it started
from, since several checks are made against what was there at the start.

Fields that no later decision depends on (timers, the peers' flags, what has been saved) are
left open: `Quiet` relates states that differ in them only, and `Keeps` also allows the role,
the term and the vote to differ.
-/

namespace EnclaveRaft

open Act Server

/-! ## Frames -/

/-- A peer without its flags and timers. -/
def Peer.core (p : Peer) : Peer :=
  { p with
    currentHbInterval := 0
    lastResp := 0
    busyFlag := false
    pendingCommitFlag := false
    hbEnabled := false
    hbTask := {} }

namespace Server

/-- A server without timers, saved copies and the peers' flags. -/
def core (s : Server) : Server :=
  { s with
    leader := nobody
    electionTask := none
    savedConfig := {}
    configShared := false
    savedState := none
    timeElapsedSinceQuorumResp := 0
    peers := s.peers.map Peer.core
    srvToJoin := s.srvToJoin.map Peer.core }

/-- A server without its peer objects. -/
def body (s : Server) : Server := { s.core with peers := [], srvToJoin := none }

/-- A server without what elections and stepping down change. -/
def data (s : Server) : Server :=
  { s.core with
    role := .follower
    state := {}
    votesGranted := 0
    votedServers := []
    electionCompleted := false
    stepsToDown := 0
    srvToJoin := none }

end Server

/-- Only timers, saved copies and flags differ. -/
def Quiet (s s' : Server) : Prop := s'.core = s.core

/-- Nothing but the role, the term, the votes, the countdown of a server that is stepping down
and what `Quiet` leaves open differs. -/
def Keeps (s s' : Server) : Prop := s'.data = s.data

theorem Quiet.refl (s : Server) : Quiet s s := rfl

theorem Quiet.trans {s s' s'' : Server} (h : Quiet s s') (h' : Quiet s' s'') : Quiet s s'' :=
  Eq.trans h' h

theorem Keeps.refl (s : Server) : Keeps s s := rfl

theorem Keeps.trans {s s' s'' : Server} (h : Keeps s s') (h' : Keeps s' s'') : Keeps s s'' :=
  Eq.trans h' h

/-- What `data` forgets, it forgets of the core. -/
def Server.forgetElection (s : Server) : Server :=
  { s with
    role := .follower
    state := {}
    votesGranted := 0
    votedServers := []
    electionCompleted := false
    stepsToDown := 0
    srvToJoin := none }

theorem Quiet.body {s s' : Server} (h : Quiet s s') : s'.body = s.body :=
  congrArg (fun s : Server => { s with peers := [], srvToJoin := none }) h

theorem Quiet.keeps {s s' : Server} (h : Quiet s s') : Keeps s s' :=
  congrArg Server.forgetElection h

section

variable {α : Type} {s s' : Server}

/-- A reading that the core determines is the same in quietly related states. -/
theorem Quiet.field (h : Quiet s s') (f : Server → α)
    (hf : ∀ s : Server, f s.core = f s := by intro _; rfl) : f s' = f s := by
  rw [← hf s', h, hf]

theorem Keeps.field (h : Keeps s s') (f : Server → α)
    (hf : ∀ s : Server, f s.data = f s := by intro _; rfl) : f s' = f s := by
  rw [← hf s', h, hf]

/-- A reading that the core of a peer determines. -/
theorem Peer.field_eq {p p' : Peer} (h : p.core = p'.core) (f : Peer → α)
    (hf : ∀ p : Peer, f p.core = f p := by intro _; rfl) : f p = f p' := by
  rw [← hf p, h, hf]

theorem Quiet.peers (h : Quiet s s') : s'.peers.map Peer.core = s.peers.map Peer.core :=
  congrArg Server.peers h

theorem Keeps.peers (h : Keeps s s') : s'.peers.map Peer.core = s.peers.map Peer.core :=
  congrArg Server.peers h

end

/-- An update of a peer's flags and timers is quiet. -/
theorem quiet_onPeer (s : Server) (uid : Nat) {f : Peer → Peer} (hf : ∀ p, (f p).core = p.core) :
    Quiet s (s.onPeer uid f) := by
  have hg : ∀ p : Peer, (if p.uid = uid then f p else p).core = p.core := fun p => by
    split <;> simp [hf]
  simp [Quiet, Server.core, onPeer, hg, Function.comp_def]

/-! ## Effects and inputs -/

/-- Effects that are neither messages nor a processed entry. -/
def Effect.Inert : Effect → Prop
  | .send _ => False
  | .retry _ => False
  | .process _ _ => False
  | _ => True

/-- The calls that go with writing an entry. -/
def Effect.Writes : Effect → Prop
  | .preCommit _ _ => True
  | .rollback _ _ => True
  | _ => False

theorem Effect.Writes.inert {e : Effect} (h : e.Writes) : e.Inert := by
  cases e <;> first | exact h.elim | trivial

namespace Input

/-- The input carries a term that a server adopts if it is higher than its own. -/
def Brings (inp : Input) (t : Nat) : Prop :=
  (∃ req now, inp = request req now ∧ req.type.bringsTerm ∧ req.term = t) ∨
    ∃ rpc resp now, inp = response rpc resp now ∧ rpc.handler = .peerResp ∧ resp.term = t

/-- The input is a leader's request of term `t`. -/
def FromLeader (inp : Input) (t : Nat) : Prop :=
  ∃ req now, inp = request req now ∧
    (req.type = .appendEntriesRequest ∨ req.type = .installSnapshotRequest) ∧ req.term = t

/-- A response to a membership request, or the failure of one. -/
def IsExt : Input → Prop
  | response rpc _ _ => rpc.handler = .extResp
  | failure rpc => rpc.handler = .extResp
  | _ => False

/-- The configuration that `syncLogToNewSrv` appends, once the new server is close enough. -/
def joinedConfig (ctx : Context) (s : Server) (startIdx : Nat) : Option ClusterConfig :=
  if syncGap s startIdx < ctx.params.logSyncStopGap then s.confToAdd.map (configWith s) else none

/-- The index a new server has reached when it answers a block of a snapshot. -/
def joinedIdx (sync : SnapshotSyncCtx) (resp : RespMsg) (p : Peer) : Nat :=
  (noteBlock sync resp.nextIdx p).nextLogIdx

/-- The configuration that a response to a membership request makes its receiver append. -/
def extConfig (ctx : Context) (s : Server) (resp : RespMsg) : Option ClusterConfig :=
  match resp.type, s.srvToJoin with
  | .leaveClusterResponse, _ => if resp.accepted then some (configWithout s resp.src) else none
  | .syncLogResponse, some _ => joinedConfig ctx s resp.nextIdx
  | .joinClusterResponse, some _ =>
    if resp.accepted then joinedConfig ctx s resp.nextIdx else none
  | .installSnapshotResponse, some p =>
    if resp.accepted then p.snpSyncCtx.bind fun sync => joinedConfig ctx s (joinedIdx sync resp p)
    else none
  | _, _ => none

/-- The configuration that the failure of a membership request makes its sender append: that of
a leave request, once its peer has been slowed down enough. -/
def failConfig (ctx : Context) (s : Server) (req : ReqMsg) : Option ClusterConfig :=
  if req.type = .leaveClusterRequest then (s.findPeer req.dst).bind fun p =>
    if ctx.params.maxHbInterval ≤ p.currentHbInterval then some (configWithout s p.id) else none
  else none

/-- The configuration, if any, that an input makes the server append other than on becoming
leader. -/
def newConfig (ctx : Context) (s : Server) : Input → Option ClusterConfig
  | response rpc resp _ =>
    if rpc.handler = .extResp then extConfig ctx (handleRpcResult rpc true s) resp else none
  | failure rpc =>
    if rpc.handler = .extResp then failConfig ctx (handleRpcResult rpc false s) rpc.req else none
  | _ => none

/-- The server leads, or it is handling an input that makes it append a configuration. -/
def Leads (ctx : Context) (inp : Input) (s₀ s : Server) : Prop :=
  s.role = .leader ∨ ((inp.newConfig ctx s₀).isSome ∧ s.role = s₀.role)

/-- Membership requests and the responses to them. -/
def IsAdmin : Input → Prop
  | request req _ => req.type ≠ .appendEntriesRequest ∧ req.type ≠ .requestVoteRequest ∧
      req.type ≠ .clientRequest ∧ req.type ≠ .installSnapshotRequest
  | inp => inp.IsExt

/-- The input is a response of the given type to a request sent with the ordinary handler. -/
def Answers (inp : Input) (type : MsgType) (resp : RespMsg) : Prop :=
  ∃ rpc now, inp = response rpc resp now ∧ rpc.handler = .peerResp ∧ resp.type = type

/-- The input is a request to install a snapshot. -/
def Installs (inp : Input) (snp : Snapshot) : Prop :=
  ∃ req now e sync, inp = request req now ∧ req.type = .installSnapshotRequest ∧
    req.logEntries = [e] ∧ e.buf = .snapshotSync sync ∧ sync.snapshot = snp

/-- The effects that an input may have on their own: calls to the application and to the log store
belong to certain inputs. -/
def Notes (inp : Input) : Effect → Prop
  | .preCommit _ _ => False
  | .rollback _ _ => False
  | .commit _ _ => inp = commitBg
  | .compact _ _ => inp = commitBg ∨ ∃ snp, inp.Installs snp
  | _ => True

/-- The configurations a server may adopt on an input. -/
def Offers (inp : Input) (s₀ : Server) (c : ClusterConfig) : Prop :=
  (inp = commitBg ∧ (s₀.logStore.entryAt (s₀.smCommitIndex + 1)).buf = .config c) ∨
    (∃ snp, inp.Installs snp ∧ snp.lastConfig = c) ∨ inp.IsAdmin

end Input

/-- `termForLog` answers `t` for `idx`. -/
def TermForLog (s : Server) (idx t : Nat) : Prop :=
  (idx = 0 ∧ t = 0) ∨ (idx ≠ 0 ∧ s.logStore.startIdx ≤ idx ∧ t = s.logStore.termAt idx) ∨
    (idx ≠ 0 ∧ idx < s.logStore.startIdx ∧ ∃ snp, s.smLastSnapshot = some snp ∧
      idx = snp.lastLogIdx ∧ t = snp.lastLogTerm)

instance (s : Server) (idx t : Nat) : Decidable (TermForLog s idx t) :=
  inferInstanceAs (Decidable (_ ∨ _ ∨ (_ ∧ _ ∧ ∃ snp, snp ∈ s.smLastSnapshot ∧ _)))

/-- The server's log holds the entry that an append request starts after. -/
def ReqOkay (s : Server) (req : ReqMsg) : Prop :=
  req.lastLogIdx = 0 ∨
    (req.lastLogIdx < s.nextSlot ∧ TermForLog s req.lastLogIdx req.lastLogTerm)

instance (s : Server) (req : ReqMsg) : Decidable (ReqOkay s req) :=
  inferInstanceAs (Decidable (_ ∨ _))

theorem ReqOkay.keeps {s s' : Server} {req : ReqMsg} (h : Keeps s s') (hok : ReqOkay s' req) :
    ReqOkay s req := by
  have hlog : s'.logStore = s.logStore := h.field Server.logStore
  have hsnp : s'.smLastSnapshot = s.smLastSnapshot := h.field Server.smLastSnapshot
  simpa [ReqOkay, TermForLog, nextSlot, hlog, hsnp] using hok

/-! ## What is written from an append request -/

/-- The store after `overwriteEntries`, and what is left to append. -/
def overwritten : LogStore → Nat → List LogEntry → LogStore × List LogEntry
  | st, _, [] => (st, [])
  | st, idx, e :: es =>
    if idx < st.nextSlot then overwritten (st.writeAt idx e) (idx + 1) es else (st, e :: es)

/-- The store after `writeEntries`. -/
def written (st : LogStore) (lastLogIdx : Nat) (entries : List LogEntry) : LogStore :=
  let (idx, es) := skipMatching st (lastLogIdx + 1) entries
  let (st', rest) := overwritten st idx es
  rest.foldl LogStore.append st'

/-- The calls for an entry that is written at `idx`. -/
def noteOut (idx : Nat) (e : LogEntry) : List Effect :=
  if e.valType = .appLog then [.preCommit idx e.buf] else []

/-- The calls for an entry at `idx` that is overwritten. -/
def revertOut (idx : Nat) (old : LogEntry) : List Effect :=
  if old.valType = .appLog then [.rollback idx old.buf] else []

/-- What becomes of `config_changing_` when an entry is written. -/
def noteFlag (b : Bool) (e : LogEntry) : Bool := b || e.valType = .conf

/-- What becomes of `config_changing_` when an entry is overwritten. -/
def revertFlag (b : Bool) (old : LogEntry) : Bool := b && old.valType ≠ .conf

/-- The calls of `overwriteEntries`. -/
def overwrittenOut : LogStore → Nat → List LogEntry → List Effect
  | _, _, [] => []
  | st, idx, e :: es =>
    if idx < st.nextSlot then
      revertOut idx (st.entryAt idx) ++
        (noteOut idx e ++ overwrittenOut (st.writeAt idx e) (idx + 1) es)
    else []

/-- `config_changing_` after `overwriteEntries`. -/
def overwrittenFlag : LogStore → Nat → List LogEntry → Bool → Bool
  | _, _, [], b => b
  | st, idx, e :: es, b =>
    if idx < st.nextSlot then
      overwrittenFlag (st.writeAt idx e) (idx + 1) es (noteFlag (revertFlag b (st.entryAt idx)) e)
    else b

/-- The calls for entries that are appended. -/
def appendedOut : LogStore → List LogEntry → List Effect
  | _, [] => []
  | st, e :: es => noteOut st.nextSlot e ++ appendedOut (st.append e) es

/-- The calls of `writeEntries`. -/
def writtenOut (st : LogStore) (lastLogIdx : Nat) (entries : List LogEntry) : List Effect :=
  let (idx, es) := skipMatching st (lastLogIdx + 1) entries
  let (st', rest) := overwritten st idx es
  overwrittenOut st idx es ++ appendedOut st' rest

/-- The state machine takes an entry that is written. -/
def StateMachine.takes (m : StateMachine) (e : LogEntry) : Bool :=
  e.valType ≠ .appLog || m.preCommit e.buf

/-- The entries up to the first one that the state machine does not take, and this one. -/
def StateMachine.tried (m : StateMachine) : List LogEntry → List LogEntry
  | [] => []
  | e :: es => e :: if m.takes e then m.tried es else []

/-- The entries of a request that `writeEntries` gets to: those that the log holds, and then those
that the state machine takes up to the first one that it does not. -/
def StateMachine.reached (m : StateMachine) (st : LogStore) : Nat → List LogEntry → List LogEntry
  | _, [] => []
  | idx, e :: es =>
    if idx < st.nextSlot ∧ st.termAt idx = e.term then e :: m.reached st (idx + 1) es
    else m.tried (e :: es)

section Tried

variable {m : StateMachine} {st : LogStore}

theorem tried_isPrefix (es : List LogEntry) : m.tried es <+: es := by
  induction es with
  | nil => exact List.prefix_rfl
  | cons e es ih =>
    unfold StateMachine.tried
    split
    · exact (List.prefix_cons_inj e).2 ih
    · exact (List.prefix_cons_inj e).2 (List.nil_prefix)

theorem tried_of_all {es : List LogEntry} (h : ∀ e ∈ es, m.takes e) : m.tried es = es := by
  induction es with
  | nil => rfl
  | cons e es ih =>
    rw [StateMachine.tried, if_pos (h e (by simp)), ih fun e' he' => h e' (by simp [he'])]

theorem tried_eq_nil {es : List LogEntry} : m.tried es = [] ↔ es = [] := by
  cases es <;> simp [StateMachine.tried]

theorem reached_isPrefix (idx : Nat) (es : List LogEntry) : m.reached st idx es <+: es := by
  induction es generalizing idx with
  | nil => exact List.prefix_rfl
  | cons e es ih =>
    unfold StateMachine.reached
    split
    · exact (List.prefix_cons_inj e).2 (ih _)
    · exact tried_isPrefix _

theorem mem_of_reached {idx : Nat} {es : List LogEntry} {e : LogEntry}
    (he : e ∈ m.reached st idx es) : e ∈ es :=
  (reached_isPrefix idx es).subset he

theorem skipMatching_reached (idx : Nat) (es : List LogEntry) :
    skipMatching st idx (m.reached st idx es) =
      ((skipMatching st idx es).1, m.tried (skipMatching st idx es).2) := by
  induction es generalizing idx with
  | nil => rfl
  | cons e es ih =>
    unfold StateMachine.reached
    by_cases hmatch : idx < st.nextSlot ∧ st.termAt idx = e.term
    · rw [if_pos hmatch, skipMatching, if_pos hmatch, ih, skipMatching, if_pos hmatch]
    · rw [if_neg hmatch, StateMachine.tried, skipMatching, if_neg hmatch, skipMatching,
        if_neg hmatch]
      rfl

/-- All entries are got to if the state machine takes those that are written. -/
theorem reached_of_all {idx : Nat} {es : List LogEntry}
    (h : ∀ e ∈ (skipMatching st idx es).2, m.takes e) : m.reached st idx es = es := by
  induction es generalizing idx with
  | nil => rfl
  | cons e es ih =>
    unfold skipMatching at h
    unfold StateMachine.reached
    by_cases hmatch : idx < st.nextSlot ∧ st.termAt idx = e.term
    · rw [if_pos hmatch] at h ⊢
      rw [ih h]
    · rw [if_neg hmatch] at h ⊢
      exact tried_of_all h

end Tried

theorem noteOut_writes {idx : Nat} {e : LogEntry} : ∀ o ∈ noteOut idx e, o.Writes := by
  unfold noteOut
  split <;> simp [Effect.Writes]

theorem revertOut_writes {idx : Nat} {e : LogEntry} : ∀ o ∈ revertOut idx e, o.Writes := by
  unfold revertOut
  split <;> simp [Effect.Writes]

theorem overwrittenOut_writes (es : List LogEntry) :
    ∀ (st : LogStore) (idx : Nat), ∀ o ∈ overwrittenOut st idx es, o.Writes := by
  induction es with
  | nil => simp [overwrittenOut]
  | cons e es ih =>
    intro st idx o ho
    unfold overwrittenOut at ho
    split at ho
    · simp only [List.mem_append] at ho
      rcases ho with ho | ho | ho
      · exact revertOut_writes o ho
      · exact noteOut_writes o ho
      · exact ih _ _ o ho
    · cases ho

theorem appendedOut_writes (es : List LogEntry) :
    ∀ st : LogStore, ∀ o ∈ appendedOut st es, o.Writes := by
  induction es with
  | nil => simp [appendedOut]
  | cons e es ih =>
    intro st o ho
    rcases List.mem_append.1 ho with ho | ho
    · exact noteOut_writes o ho
    · exact ih _ o ho

theorem writtenOut_writes {st : LogStore} {k : Nat} {es : List LogEntry} :
    ∀ o ∈ writtenOut st k es, o.Writes := by
  intro o ho
  rcases List.mem_append.1 ho with ho | ho
  · exact overwrittenOut_writes _ _ _ o ho
  · exact appendedOut_writes _ _ o ho

theorem writtenOut_inert {st : LogStore} {k : Nat} {es : List LogEntry} :
    ∀ o ∈ writtenOut st k es, o.Inert :=
  fun o ho => (writtenOut_writes o ho).inert

/-- `config_changing_` after `writeEntries`. -/
def writtenFlag (st : LogStore) (lastLogIdx : Nat) (entries : List LogEntry) (b : Bool) : Bool :=
  let (idx, es) := skipMatching st (lastLogIdx + 1) entries
  (overwritten st idx es).2.foldl noteFlag (overwrittenFlag st idx es b)

/-! ## Requests -/

/-- The vote request of `s` to `p`. -/
def voteReq (s : Server) (p : Peer) (lastLogTerm : Nat) : ReqMsg :=
  { term := s.term
    type := .requestVoteRequest
    src := s.id
    dst := p.id
    lastLogTerm := lastLogTerm
    lastLogIdx := usub s.nextSlot 1
    commitIdx := s.quickCommitIdx }

/-- The append request of `s` to `p`. -/
def appendReq (s : Server) (p : Peer) (lastLogTerm : Nat) (entries : List LogEntry) : ReqMsg :=
  { term := s.term
    type := .appendEntriesRequest
    src := s.id
    dst := p.id
    lastLogTerm := lastLogTerm
    lastLogIdx := usub p.nextLogIdx 1
    commitIdx := s.quickCommitIdx
    logEntries := entries }

/-- `req` is an append request of `s` through the peer object `uid`. -/
def AppendMsg (ctx : Context) (s : Server) (uid : Nat) (req : ReqMsg) : Prop :=
  ∃ p t es, s.object uid = some p ∧ usub p.nextLogIdx 1 < s.nextSlot ∧
    ¬(0 < usub p.nextLogIdx 1 ∧ usub p.nextLogIdx 1 < usub s.logStore.startIdx 1) ∧
    TermForLog s (usub p.nextLogIdx 1) t ∧ entriesAfter ctx s (usub p.nextLogIdx 1) = some es ∧
    req = appendReq s p t es

/-- `req` carries a block of the snapshot that `s` is sending through the peer object `uid`. -/
def SnapshotMsg (s : Server) (uid : Nat) (req : ReqMsg) : Prop :=
  ∃ p sync e r, s.object uid = some p ∧ p.snpSyncCtx = some sync ∧
    req.type = .installSnapshotRequest ∧ req.term = s.term ∧ req.src = s.id ∧ req.dst = p.id ∧
    req.logEntries = [e] ∧ e.buf = .snapshotSync r ∧ r.snapshot = sync.snapshot

/-- The failure of a request to a new server is the last one that is put up with. -/
def Rpc.GivesUp (ctx : Context) (s : Server) (rpc : Rpc) : Prop :=
  rpc.handler = .extResp ∧ rpc.req.type ≠ .leaveClusterRequest ∧
    ∃ p ∈ retryPeer rpc.req (handleRpcResult rpc false s),
      ctx.params.maxHbInterval ≤ p.currentHbInterval

/-! ## Small steps -/

/-- The small steps of a handler that got `inp` in state `s₀`. -/
inductive Micro (ctx : Context) (inp : Input) (s₀ : Server) :
    Server → List Effect → Server → Prop
  | quiet {s s' : Server} (h : Quiet s s') : Micro ctx inp s₀ s [] s'
  | note {s : Server} {e : Effect} (h : e.Inert) (hin : inp.Notes e) : Micro ctx inp s₀ s [e] s
  -- elections
  | enterTerm {s : Server} {t : Nat} (hlt : s.term < t) (hin : inp.Brings t) (hk : Quiet s₀ s) :
      Micro ctx inp s₀ s [] (enterTerm t s)
  | stepDown {s : Server} (hrole : s.role = .candidate) (hin : inp.FromLeader s.term) :
      Micro ctx inp s₀ s [] (becomeFollower s)
  | stand {s : Server} (hin : inp = .electionTimeout) (hk : Quiet s₀ s) (hrole : s.role ≠ .leader) :
      Micro ctx inp s₀ s [] (voteForSelf (becomeCandidate s))
  | standWin {s : Server} (hin : inp = .electionTimeout) (hk : Quiet s₀ s)
      (hrole : s.role ≠ .leader) (hpeers : s.peers = []) :
      Micro ctx inp s₀ s []
        (takeLead { voteForSelf (becomeCandidate s) with electionCompleted := true })
  | grant {s : Server} {req : ReqMsg} {now : Int} (hin : inp = .request req now)
      (htype : req.type = .requestVoteRequest) (h : grantsVote s req) (hk : Keeps s₀ s) :
      Micro ctx inp s₀ s [] (s.setVotedFor req.src).saveState
  | tally {s : Server} {resp : RespMsg} (hin : inp.Answers .requestVoteResponse resp)
      (hk : Quiet s₀ s) (hterm : resp.term = s.term) (hopen : s.electionCompleted = false)
      (hnew : resp.src ∉ s.votedServers) : Micro ctx inp s₀ s [] (countVote resp s)
  | tallyWin {s : Server} {resp : RespMsg} (hin : inp.Answers .requestVoteResponse resp)
      (hk : Quiet s₀ s) (hterm : resp.term = s.term) (hopen : s.electionCompleted = false)
      (hnew : resp.src ∉ s.votedServers)
      (hmaj : (s.peers.length + 1) / 2 < (countVote resp s).votesGranted) :
      Micro ctx inp s₀ s [] (takeLead { countVote resp s with electionCompleted := true })
  | sendVote {s : Server} {p : Peer} {t : Nat} (hin : inp = .electionTimeout)
      (hrole : s.role = .candidate) (hself : s.votedFor = s.id) (hp : p ∈ s.peers)
      (ht : TermForLog s (usub s.nextSlot 1) t) :
      Micro ctx inp s₀ s [.send ⟨.peerResp, p.uid, p.id, voteReq s p t, s⟩] s
  -- a leader's own entries
  | saveInitial {s : Server} (hrole : s.role = .leader) (h0 : s.config.logIdx = 0) :
      Micro ctx inp s₀ s [] (saveInitialConfig s)
  | client {s : Server} {req : ReqMsg} {now : Int} {e : LogEntry} (hin : inp = .request req now)
      (htype : req.type = .clientRequest) (he : e ∈ req.logEntries) (hrole : s.role = .leader) :
      Micro ctx inp s₀ s
        [.preCommit (usub (s.logStore.append { e with term := s.term }).nextSlot 1) e.buf]
        { s with logStore := s.logStore.append { e with term := s.term } }
  -- replication
  | aim {s : Server} {uid : Nat} : Micro ctx inp s₀ s []
      (s.onPeer uid fun p => if p.nextLogIdx = 0 then p.setNextLogIdx s.nextSlot else p)
  | sendAppend {s : Server} {uid : Nat} {req : ReqMsg} (hrole : inp.Leads ctx s₀ s)
      (hmsg : AppendMsg ctx s uid req) :
      Micro ctx inp s₀ s [.send ⟨.peerResp, uid, req.dst, req, s⟩] s
  | startSync {s : Server} {uid : Nat} {snp : Snapshot} (h : s.lastSnapshot = some snp)
      (hsize : 0 < snp.size) :
      Micro ctx inp s₀ s [] (s.onPeer uid (·.setSnapshotInSync (some snp)))
  | sendSnapshot {s : Server} {uid : Nat} {target : Int} {req : ReqMsg} {h : RespHandler}
      (hrole : (s.role = .leader ∧ h = .peerResp ∧ target = req.dst) ∨ inp.IsExt)
      (hmsg : SnapshotMsg s uid req) : Micro ctx inp s₀ s [.send ⟨h, uid, target, req, s⟩] s
  | ack {s : Server} {resp : RespMsg} {p : Peer} (hin : inp.Answers .appendEntriesResponse resp)
      (hk : Quiet s₀ s) (hterm : resp.term ≤ s.term) (hacc : resp.accepted)
      (hp : s.findPeer resp.src = some p) :
      Micro ctx inp s₀ s [] (s.onPeer p.uid (recordMatch resp.nextIdx))
  | nack {s : Server} {resp : RespMsg} {p : Peer} (hin : inp.Answers .appendEntriesResponse resp)
      (hk : Quiet s₀ s) (hterm : resp.term ≤ s.term) (hacc : resp.accepted = false)
      (hp : s.findPeer resp.src = some p) :
      Micro ctx inp s₀ s [] (s.onPeer p.uid (moveBack resp.nextIdx))
  | snapshotAck {s : Server} {resp : RespMsg} {p : Peer} {sync : SnapshotSyncCtx}
      {f : Peer → Peer} (hin : inp.Answers .installSnapshotResponse resp)
      (hp : s.findPeer resp.src = some p) (hsync : p.snpSyncCtx = some sync)
      (hf : f = recordSnapshot sync.snapshot ∨ f = setOffset sync resp.nextIdx)
      (hk : Quiet s₀ s) : Micro ctx inp s₀ s [] (s.onPeer p.uid f)
  | merge {s : Server} {req : ReqMsg} {now : Int} {es : List LogEntry}
      (hin : inp = .request req now) (htype : req.type = .appendEntriesRequest)
      (hk : Keeps s₀ s) (hrole : s.role = .follower) (hterm : req.term = s.term)
      (hokay : ReqOkay s req)
      (hes : es = ctx.stateMachine.reached s.logStore (req.lastLogIdx + 1) req.logEntries)
      (hle : s₀.term ≤ req.term) : Micro ctx inp s₀ s (writtenOut s.logStore req.lastLogIdx es)
        { s with
          logStore := written s.logStore req.lastLogIdx es
          configChanging := writtenFlag s.logStore req.lastLogIdx es s.configChanging }
  -- commit indices
  | commitMajority {s s₁ : Server} {resp : RespMsg} {p : Peer}
      (hin : inp.Answers .appendEntriesResponse resp) (hk : Quiet s₀ s₁)
      (hterm : resp.term ≤ s.term) (hacc : resp.accepted) (hp : s₁.findPeer resp.src = some p)
      (hs : s = s₁.onPeer p.uid (recordMatch resp.nextIdx)) (hlt : s.quickCommitIdx < majorityIdx s) :
      Micro ctx inp s₀ s [] { s with quickCommitIdx := majorityIdx s }
  | commitAlone {s : Server} (hrole : inp.Leads ctx s₀ s) (hpeers : s.peers = [])
      (hlt : s.quickCommitIdx < usub s.nextSlot 1) :
      Micro ctx inp s₀ s [] { s with quickCommitIdx := usub s.nextSlot 1 }
  | commitFollower {s : Server} {req : ReqMsg} {now : Int}
      (hin : inp = .request req now) (htype : req.type = .appendEntriesRequest)
      (hrole : s.role = .follower) (hterm : req.term = s.term)
      (hquick : s.quickCommitIdx = s₀.quickCommitIdx)
      (hlog : s.logStore = written s₀.logStore req.lastLogIdx req.logEntries)
      (hsnp : s.smLastSnapshot = s₀.smLastSnapshot) (hokay : ReqOkay s₀ req)
      (hlt : s.quickCommitIdx < req.commitIdx) :
      Micro ctx inp s₀ s [] { s with quickCommitIdx := req.commitIdx }
  -- the background thread
  | process {s : Server} (hin : inp = .commitBg) (hk : Quiet s₀ s)
      (hquick : s.smCommitIndex < s.quickCommitIdx)
      (hlog : s.smCommitIndex < usub s.nextSlot 1) :
      Micro ctx inp s₀ s
        [.process (s.smCommitIndex + 1) (s.logStore.entryAt (s.smCommitIndex + 1))]
        { s with smCommitIndex := s.smCommitIndex + 1 }
  | confApplied {s : Server} (hin : inp = .commitBg) :
      Micro ctx inp s₀ s [] { s with configChanging := false }
  | caughtUp {s : Server} (hin : inp = .commitBg) :
      Micro ctx inp s₀ s [] { s with catchingUp := false }
  | snapshot {s : Server} {snp : Snapshot} {conf : ClusterConfig} (hin : inp = .commitBg)
      (hdist : ctx.params.snapshotDistance ≠ 0) (hlog : s.logStore = s₀.logStore)
      (hidx : s.smCommitIndex = s₀.smCommitIndex + 1) (hle : s.smCommitIndex ≤ usub s.nextSlot 1)
      (hconf : snapshotConfig s s.smCommitIndex = .ok conf)
      (hsnp : snp = ⟨s.smCommitIndex, s.logStore.termAt s.smCommitIndex, conf, 0⟩) :
      Micro ctx inp s₀ s [] (onSnapshotCompleted ctx snp { s with smLastSnapshot := some snp })
  -- configurations
  | addConfigured {s : Server} {c : ClusterConfig} {added : List SrvConfig}
      (hin : inp.Offers s₀ c) (hadded : ∀ srv ∈ added, srv ∈ c.servers)
      (hnew : ∀ srv ∈ added, (s.findPeer srv.id).isNone ∧ srv.id ≠ s.id) :
      Micro ctx inp s₀ s [] (added.foldl (addConfigured ctx) s)
  | dropUnconfigured {s : Server} {c : ClusterConfig} (hin : inp.Offers s₀ c) :
      Micro ctx inp s₀ s [] (dropUnconfigured c s)
  | setConfig {s : Server} {c : ClusterConfig} (hin : inp.Offers s₀ c) :
      Micro ctx inp s₀ s [] { s with config := c, configShared := false }
  -- snapshots from the leader
  | installCompact {s : Server} {snp : Snapshot} (hin : inp.Installs snp)
      (hrole : s.role = .follower) :
      Micro ctx inp s₀ s [] { s with logStore := s.logStore.compact snp.lastLogIdx }
  | installApply {s : Server} {snp : Snapshot} (hin : inp.Installs snp) :
      Micro ctx inp s₀ s [] { s with smLastSnapshot := some snp }
  | installDone {s : Server} {snp : Snapshot} (hin : inp.Installs snp) :
      Micro ctx inp s₀ s []
        { s.saveState with
          smCommitIndex := snp.lastLogIdx
          quickCommitIdx := snp.lastLogIdx
          lastSnapshot := some { snp with lastConfig := s.config } }
  -- stepping down from the cluster
  | countdown {s : Server} {n : Int} (h : 0 < s.stepsToDown) :
      Micro ctx inp s₀ s [] { s with stepsToDown := n }
  | leaveConfig {s : Server} (hin : inp = .electionTimeout) (h : 0 < s₀.stepsToDown) :
      Micro ctx inp s₀ s [] (leaveConfig s)
  -- membership requests and the responses to them
  | invite {s : Server} {req : ReqMsg} {now : Int} {srv : SrvConfig} (hin : inp = .request req now)
      (htype : req.type = .addServerRequest) (hk : s = s₀) (hrole : s.role = .leader)
      (hnew : (s.findPeer srv.id).isNone) (hself : s.id ≠ srv.id)
      (hfree : s.configChanging = false) :
      Micro ctx inp s₀ s []
        { s with
          confToAdd := some srv
          srvToJoin := some (Peer.new ctx s.nextUid srv)
          nextUid := s.nextUid + 1 }
  | leaving {s : Server} {req : ReqMsg} {now : Int} (hin : inp = .request req now)
      (htype : req.type = .leaveClusterRequest) : Micro ctx inp s₀ s [] { s with stepsToDown := 2 }
  | joinProgress {s : Server} {f : Peer → Peer} (hin : inp.IsExt)
      (hf : ∀ p, (f p).uid = p.uid ∧ (f p).config = p.config) : Micro ctx inp s₀ s [] (onJoin f s)
  | dropOnly {s : Server} {id : Int} (hin : inp.IsExt) : Micro ctx inp s₀ s [] (dropOnlyPeer id s)
  | abandon {s : Server} {rpc : Rpc} (hin : inp = .failure rpc) (hext : inp.IsExt)
      (hk : Quiet s₀ s) (hgive : rpc.GivesUp ctx s₀) :
      Micro ctx inp s₀ s [] { s with configChanging := false, srvToJoin := none }
  | join {s : Server} {req : ReqMsg} {now : Int} (hin : inp = .request req now)
      (htype : req.type = .joinClusterRequest) (hk : s = s₀) (hcatch : s.catchingUp = false)
      (hentry : ∃ e, req.logEntries = [e] ∧ e.valType = .conf) :
      Micro ctx inp s₀ s [] (startCatchingUp req s)
  | pack {s : Server} {req : ReqMsg} {now : Int} {es : List (Nat × LogValType × Payload)}
      (hin : inp = .request req now) (htype : req.type = .syncLogRequest) (hk : s = s₀)
      (hcatch : s.catchingUp = true)
      (hentry : ∃ t, req.logEntries = [⟨t, .logPack, .pack es⟩]) :
      Micro ctx inp s₀ s []
        { s with logStore := s.logStore.applyPack (usucc req.lastLogIdx) es }
  | packCommit {s : Server} {req : ReqMsg} {now : Int} (hin : inp = .request req now)
      (htype : req.type = .syncLogRequest) (hlt : s.quickCommitIdx < usub s.nextSlot 1) :
      Micro ctx inp s₀ s [] { s with quickCommitIdx := usub s.nextSlot 1 }
  | confAppend {s : Server} {c : ClusterConfig} (hc : inp.newConfig ctx s₀ = some c)
      (hk : s.body = s₀.body) : Micro ctx inp s₀ s [] (appendConfig c s)
  | sendExt {s : Server} {p : Peer} {req : ReqMsg} (hin : inp.IsAdmin)
      (hp : (s.srvToJoin = some p ∧
          (req.type = .joinClusterRequest ∨ req.type = .syncLogRequest)) ∨
        (s.findPeer p.id = some p ∧ req.type = .leaveClusterRequest)) (hdst : req.dst = p.id) :
      Micro ctx inp s₀ s [.send ⟨.extResp, p.uid, p.id, req, s⟩] s
  | retry {s s' : Server} {rpc : Rpc} {p : Peer} (hin : inp = .failure rpc) (hext : inp.IsExt)
      (hk : Quiet s' s) (hp : retryPeer rpc.req s' = some p) :
      Micro ctx inp s₀ s [.retry ⟨.extResp, p.uid, p.id, rpc.req, s'⟩] s
  | resend {s : Server} {rpc : Rpc} (hin : inp = .resend rpc) :
      Micro ctx inp s₀ s [.send ⟨rpc.handler, rpc.uid, rpc.target, rpc.req, s⟩] s

end EnclaveRaft
