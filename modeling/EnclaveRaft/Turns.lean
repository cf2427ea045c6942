import EnclaveRaft.Walks

/-!
# Roles, timers and slots

The small steps of `Steps.lean` leave timers and the peers' flags open. Some properties are about
nothing else: which role the server is in, whether its election timer runs, which peer objects are
busy, and which of the requests that make a peer busy are sent. Here the handlers are resolved once
more, for such a property.

The property is a relation `m` on states and outputs. `Admits` lists what it has to allow: steps that
keep all four (`Plain`), steps to a role other than leader, peers that come and go. What it has to
allow of `request_append_entries` is a parameter as well (`Replicates`), with a condition `I` under
which a request can be made and which lasts while the log grows (`Grows`).
-/

namespace EnclaveRaft

open Act Server

/-- The identity of a peer object, and whether it is busy. -/
def Peer.slot (p : Peer) : Nat × Bool := (p.uid, p.busyFlag)

/-- What requests to a peer are made from. -/
def Peer.aim (p : Peer) : Nat × Nat × Option SnapshotSyncCtx := (p.uid, p.nextLogIdx, p.snpSyncCtx)

/-- Requests that make a peer busy. -/
def MsgType.takesSlot (t : MsgType) : Bool := t = .appendEntriesRequest || t = .installSnapshotRequest

/-- No request that makes a peer busy is sent, now or later. -/
def Effect.Slotless : Effect → Prop
  | .send rpc => rpc.req.type.takesSlot = false
  | .retry rpc => rpc.req.type.takesSlot = false
  | _ => True

/-- The same peer objects are busy. The server to join may have been given up. -/
structure SameSlots (s s' : Server) : Prop where
  peers : s'.peers.map Peer.slot = s.peers.map Peer.slot
  join : s'.srvToJoin.map Peer.uid = s.srvToJoin.map Peer.uid ∨ s'.srvToJoin = none
  nextUid : s'.nextUid = s.nextUid

/-- Neither role nor timer nor slots change. -/
structure Plain (s s' : Server) : Prop extends SameSlots s s' where
  role : s'.role = s.role
  timer : s'.electionTask = s.electionTask

/-- Requests to the peers that are left are made from the same cursors and snapshots. -/
structure SameAims (s s' : Server) : Prop where
  peers : s'.peers.map Peer.aim ⊆ s.peers.map Peer.aim
  lastSnapshot : s'.lastSnapshot = s.lastSnapshot
  smLastSnapshot : s'.smLastSnapshot = s.smLastSnapshot

/-- The relation allows effects that make no peer busy. -/
structure Notes (m : Server → List Effect → Server → Prop) : Prop where
  note (s : Server) {e : Effect} (he : e.Slotless) : m s [e] s

/-- The relation allows changes of a peer object that do not make it busy or free. -/
structure Touches (m : Server → List Effect → Server → Prop) (uid : Nat) : Prop extends Notes m where
  touch (s : Server) {f : Peer → Peer} (hf : ∀ p, (f p).slot = p.slot) : m s [] (s.onPeer uid f)

/-- The relation allows everything but role changes to leader and requests to peers. -/
structure Admits (ctx : Context) (m : Server → List Effect → Server → Prop) : Prop where
  plain {s s' : Server} {o : List Effect} (h : Plain s s') (ho : ∀ e ∈ o, e.Slotless) : m s o s'
  follow {s s' : Server} (hrole : s'.role ≠ .leader) (h : SameSlots s s') : m s [] s'
  addConfigured (s : Server) (srv : SrvConfig) : m s [] (addConfigured ctx s srv)
  drop (s : Server) (q : Peer → Bool) : m s [] { s with peers := s.peers.filter q }
  invite (s : Server) (srv : SrvConfig) : m s []
    { s with
      confToAdd := some srv
      srvToJoin := some (Peer.new ctx s.nextUid srv)
      nextUid := s.nextUid + 1 }
  sync {s : Server} {uid : Nat} (target : Int) (req : ReqMsg)
    (hp : s.srvToJoin.map Peer.uid = some uid) : m s [.send ⟨.extResp, uid, target, req, s⟩] s

/-- The relation allows requests to peers in states where `I` holds, and these keep `I`. While the log
grows, the stronger `J` is kept. -/
structure Replicates (ctx : Context) (m : Server → List Effect → Server → Prop)
    (J I : Server → Prop) : Prop where
  call (s : Server) (uid : Nat) (hs : I s) :
    Walks m (requestAppendEntriesTo ctx uid) s fun _ => I
  keep {s s' : Server} (hs : I s) (h : SameAims s s') (hlog : s'.logStore = s.logStore) : I s'
  grow {s s' : Server} (hs : J s) (h : SameAims s s')
    (hlog : ∃ es : List LogEntry, s'.logStore = es.foldl LogStore.append s.logStore) : J s'
  ready {s : Server} (hs : J s) : I s

section Frames

variable {s s' s'' : Server}

theorem SameSlots.refl (s : Server) : SameSlots s s := ⟨rfl, .inl rfl, rfl⟩

theorem Plain.refl (s : Server) : Plain s s := ⟨.refl s, rfl, rfl⟩

/-- The update of a peer object that keeps identity and flag. -/
theorem map_slot_onPeer {f : Peer → Peer} (uid : Nat) (hf : ∀ p, (f p).slot = p.slot)
    (ps : List Peer) :
    (ps.map fun p => if p.uid = uid then f p else p).map Peer.slot = ps.map Peer.slot := by
  rw [List.map_map]
  refine List.map_congr_left fun p _ => ?_
  show (if p.uid = uid then f p else p).slot = p.slot
  split
  · exact hf p
  · rfl

theorem map_uid_onPeer {f : Peer → Peer} (uid : Nat) (hf : ∀ p, (f p).uid = p.uid)
    (j : Option Peer) :
    (j.map fun p => if p.uid = uid then f p else p).map Peer.uid = j.map Peer.uid := by
  cases j with
  | none => rfl
  | some p =>
    show some (if p.uid = uid then f p else p).uid = some p.uid
    split
    · rw [hf]
    · rfl

theorem plain_onPeer (s : Server) (uid : Nat) {f : Peer → Peer} (hf : ∀ p, (f p).slot = p.slot) :
    Plain s (s.onPeer uid f) where
  peers := map_slot_onPeer uid hf s.peers
  join := .inl (map_uid_onPeer uid (fun p => congrArg Prod.fst (hf p)) s.srvToJoin)
  nextUid := rfl
  role := rfl
  timer := rfl

theorem sameAims_onPeer (s : Server) (uid : Nat) {f : Peer → Peer}
    (hf : ∀ p, (f p).aim = p.aim) : SameAims s (s.onPeer uid f) where
  peers := by
    have heq : (s.onPeer uid f).peers.map Peer.aim = s.peers.map Peer.aim := by
      show (s.peers.map _).map Peer.aim = _
      rw [List.map_map]
      refine List.map_congr_left fun p _ => ?_
      show (if p.uid = uid then f p else p).aim = p.aim
      split
      · exact hf p
      · rfl
    rw [heq]
    exact fun _ => id
  lastSnapshot := rfl
  smLastSnapshot := rfl

theorem plain_onJoin (s : Server) {f : Peer → Peer} (hf : ∀ p, (f p).uid = p.uid) :
    Plain s (onJoin f s) where
  peers := rfl
  join := by
    left
    show (s.srvToJoin.map f).map Peer.uid = _
    rw [Option.map_map]
    exact congrArg (fun g => s.srvToJoin.map g) (funext hf)
  nextUid := rfl
  role := rfl
  timer := rfl

end Frames

/-! ## What a response does to its peer -/

/-- The cursor of a peer after its response to an append request. -/
def RespMsg.appendMove (resp : RespMsg) : Peer → Peer :=
  if resp.accepted then recordMatch resp.nextIdx else moveBack resp.nextIdx

/-- The cursor of a peer after its response to a block of the snapshot `p.snpSyncCtx`. -/
def RespMsg.snapshotMove (resp : RespMsg) (p q : Peer) : Peer :=
  match resp.accepted, p.snpSyncCtx with
  | true, some sync => noteBlock sync resp.nextIdx q
  | _, _ => q

theorem RespMsg.slot_appendMove (resp : RespMsg) (q : Peer) : (resp.appendMove q).slot = q.slot := by
  unfold RespMsg.appendMove moveBack
  split
  · rfl
  · dsimp only
    split <;> rfl

theorem RespMsg.slot_snapshotMove (resp : RespMsg) (p q : Peer) :
    (resp.snapshotMove p q).slot = q.slot := by
  unfold RespMsg.snapshotMove noteBlock
  split
  · split <;> rfl
  · rfl

/-- The response is the vote that decides the election. -/
def RespMsg.Elects (resp : RespMsg) (s : Server) : Prop :=
  resp.term = s.term ∧ s.electionCompleted = false ∧ resp.src ∉ s.votedServers ∧
    (s.peers.length + 1) / 2 < (countVote resp s).votesGranted

instance (resp : RespMsg) (s : Server) : Decidable (resp.Elects s) :=
  inferInstanceAs (Decidable (_ ∧ _))

theorem Quiet.elects {s s' : Server} {resp : RespMsg} (h : Quiet s s') (hwin : resp.Elects s') :
    resp.Elects s := by
  have hsame : resp.Elects s' = resp.Elects s := h.field (fun s => resp.Elects s) fun s => by
    simp [RespMsg.Elects, Server.core, countVote, Server.term]
  exact hsame ▸ hwin

/-- The server that the response has decided the election for. -/
def RespMsg.elected (resp : RespMsg) (s : Server) : Server :=
  { countVote resp s with electionCompleted := true }

theorem plain_heardFrom (s : Server) (src now : Int) : Plain s (heardFrom src now s) where
  peers := by
    show (s.peers.map _).map Peer.slot = _
    rw [List.map_map]
    refine List.map_congr_left fun p _ => ?_
    show (if p.id = src then p.setLastResp now else p).slot = p.slot
    split <;> rfl
  join := .inl rfl
  nextUid := rfl
  role := rfl
  timer := rfl

namespace Admits

variable {ctx : Context} {m : Server → List Effect → Server → Prop}

theorem quiet (hm : Admits ctx m) {s s' : Server} (h : Plain s s') : m s [] s' :=
  hm.plain h (by simp)

theorem notes (hm : Admits ctx m) : Notes m :=
  ⟨fun s _ he => hm.plain (.refl s) (by simpa using he)⟩

theorem note (hm : Admits ctx m) (s : Server) {e : Effect} (he : e.Slotless) : m s [e] s :=
  hm.notes.note s he

theorem touches (hm : Admits ctx m) (uid : Nat) : Touches m uid :=
  ⟨hm.notes, fun s _ hf => hm.quiet (plain_onPeer s uid hf)⟩

end Admits

namespace Turn

variable {ctx : Context} {m : Server → List Effect → Server → Prop} {J I : Server → Prop}
  {s : Server}

/-! ## Steps without requests to peers -/

theorem within_orThrow {α : Type} (e : RaftException) (o : Option α) : Within m (orThrow e o) := by
  cases o with
  | none => exact within_throw e
  | some a => exact within_pure a

theorem walks_exitWith (hn : Notes m) {α : Type} {code : Int} {e : RaftException}
    {Q : α → Server → Prop} : Walks m (exitWith code e) s Q :=
  walks_emit_bind (hn.note s (e := .systemExit code) trivial) walks_throw

theorem within_exitWith (hn : Notes m) {α : Type} (code : Int) (e : RaftException) :
    Within m (exitWith code e : M α) :=
  fun _ => walks_exitWith hn

theorem within_sendReq (hn : Notes m) (uid : Nat) (target : Int) {req : ReqMsg}
    (h : RespHandler) (hreq : req.type.takesSlot = false) : Within m (sendReq uid target req h) :=
  within_get.bind fun _ => within_emit fun s => hn.note s hreq

theorem walks_termForLog (hn : Notes m) (idx : Nat) :
    Walks m (termForLog idx) s fun _ s' => s' = s := by
  refine walks_get_bind (walks_ite (fun _ => walks_pure rfl) fun _ => ?_)
  refine walks_ite (fun _ => walks_pure rfl) fun _ => ?_
  cases s.smLastSnapshot with
  | none => exact walks_exitWith hn
  | some snp => exact walks_ite (fun _ => walks_pure rfl) fun _ => walks_exitWith hn

theorem walks_startSnapshotSync {uid : Nat} (ht : Touches m uid) (lastLogIdx : Nat) (p : Peer) :
    Walks m (startSnapshotSync uid lastLogIdx p) s fun _ s' =>
      s'.srvToJoin.map Peer.uid = s.srvToJoin.map Peer.uid := by
  refine walks_get_bind ?_
  cases s.lastSnapshot with
  | none => exact walks_throw
  | some snp =>
    refine walks_ite (fun _ => walks_exitWith ht.toNotes) fun _ => ?_
    refine walks_ite (fun _ => walks_exitWith ht.toNotes) fun _ => ?_
    refine walks_modify (ht.touch s fun _ => rfl) ?_
    exact map_uid_onPeer (f := (·.setSnapshotInSync (some snp))) uid (fun _ => rfl) s.srvToJoin

theorem walks_snapshotBlock (hn : Notes m) (p : Peer) (sync : SnapshotSyncCtx)
    (term commitIdx : Nat) :
    Walks m (snapshotBlock ctx p sync term commitIdx) s fun _ s' => s' = s := by
  refine walks_get_bind (walks_ite (fun _ => walks_throw) fun _ => ?_)
  refine walks_ite (fun _ => walks_exitWith hn) fun _ => ?_
  exact walks_ite (fun _ => walks_throw) fun _ => walks_pure rfl

theorem walks_createSyncSnapshotReq {uid : Nat} (ht : Touches m uid)
    (lastLogIdx term commitIdx : Nat) :
    Walks m (createSyncSnapshotReq ctx uid lastLogIdx term commitIdx) s fun _ s' =>
      s'.srvToJoin.map Peer.uid = s.srvToJoin.map Peer.uid := by
  refine walks_get_bind (walks_orThrow_bind fun p _ => ?_)
  refine walks_bind (R := fun _ s' => s'.srvToJoin.map Peer.uid = s.srvToJoin.map Peer.uid) ?_
    fun _ s₁ h₁ => walks_get_bind (walks_orThrow_bind fun sync _ => ?_)
  · refine walks_when (fun _ => ?_) fun _ => rfl
    exact walks_startSnapshotSync ht lastLogIdx p
  · exact (walks_snapshotBlock ht.toNotes p sync term commitIdx).weaken fun _ _ h => h ▸ h₁

theorem sameSlots_restartElectionTimer (s : Server) : SameSlots s s.restartElectionTimer := by
  unfold restartElectionTimer
  split <;> exact ⟨rfl, .inl rfl, rfl⟩

theorem restartElectionTimer_role (s : Server) : s.restartElectionTimer.role = s.role := by
  unfold restartElectionTimer
  split <;> rfl

theorem SameSlots.trans {s s' s'' : Server} (h : SameSlots s s') (h' : SameSlots s' s'') :
    SameSlots s s'' where
  peers := h'.peers.trans h.peers
  join := by
    rcases h'.join with hj | hj
    · rcases h.join with hj' | hj'
      · exact .inl (hj.trans hj')
      · right
        simpa [hj'] using hj
    · exact .inr hj
  nextUid := h'.nextUid.trans h.nextUid

theorem sameSlots_becomeFollower (s : Server) : SameSlots s (becomeFollower s) := by
  refine SameSlots.trans ?_ (sameSlots_restartElectionTimer _)
  refine ⟨?_, .inr rfl, rfl⟩
  show (s.peers.map fun p => p.enableHb false).map Peer.slot = _
  rw [List.map_map]
  rfl

theorem follow_becomeFollower (hm : Admits ctx m) (s : Server) : m s [] (becomeFollower s) :=
  hm.follow (by simp [becomeFollower_role]) (sameSlots_becomeFollower s)

theorem follow_enterTerm (hm : Admits ctx m) (t : Nat) (s : Server) : m s [] (enterTerm t s) := by
  unfold enterTerm
  refine hm.follow ?_ (SameSlots.trans ?_ (sameSlots_becomeFollower _))
  · simp [becomeFollower_role]
  · exact ⟨rfl, .inl rfl, rfl⟩

/-- Only a server that does not lead restarts its timer. -/
theorem follow_restartElectionTimer (hm : Admits ctx m) {s : Server} (hr : s.role ≠ .leader) :
    m s [] s.restartElectionTimer :=
  hm.follow (by rwa [restartElectionTimer_role]) (sameSlots_restartElectionTimer s)

/-- Unless the term was taken over, nothing has changed. -/
theorem walks_updateTerm (hm : Admits ctx m) (t : Nat) (s : Server) :
    Walks m (updateTerm t) s fun updated s' =>
      t ≤ s'.term ∧ (updated = false → s' = s) ∧ (updated = true → s'.role ≠ .leader) := by
  refine walks_get_bind (walks_ite (fun hlt => ?_) fun hge => walks_pure ?_)
  · refine walks_modify_bind (follow_enterTerm hm t s) (walks_pure ⟨?_, by simp, fun _ => ?_⟩)
    · exact (congrArg SrvState.term (enterTerm_state t s)).ge
    · show (becomeFollower _).role ≠ _
      simp [becomeFollower_role]
  · exact ⟨Nat.le_of_not_lt hge, fun _ => rfl, by simp⟩

theorem walks_hearLeader (hm : Admits ctx m) (e : RaftException) (s : Server) :
    Walks m (hearLeader e) s fun _ s' => s'.term = s.term ∧ s'.role = .follower := by
  refine walks_get_bind ?_
  cases hr : s.role with
  | candidate =>
    refine walks_modify (follow_becomeFollower hm s) ⟨?_, becomeFollower_role s⟩
    exact congrArg SrvState.term (becomeFollower_state s)
  | leader => exact walks_exitWith hm.notes
  | follower =>
    refine walks_modify (follow_restartElectionTimer hm (by simp [hr])) ⟨?_, ?_⟩
    · exact (quiet_restartElectionTimer s).field Server.term
    · rw [restartElectionTimer_role, hr]

/-! ## Requests to peers -/

theorem within_requestAppendEntriesTo {uid : Nat} (ht : Touches m uid)
    (hbusy : ∀ s, m s [] (s.onPeer uid Peer.makeBusy))
    (hsend : ∀ s target req, m s [.send ⟨.peerResp, uid, target, req, s⟩] s) :
    Within m (requestAppendEntriesTo ctx uid) := by
  have haim : Within m (createAppendEntriesReq ctx uid) := by
    refine within_modify_bind (fun s => ht.touch s fun p => ?_) ?_
    · split <;> rfl
    refine within_get.bind fun s => (within_orThrow _ _).bind fun p => ?_
    refine within_ite (within_exitWith ht.toNotes _ _) (within_ite ?_ ?_)
    · exact fun s => (walks_createSyncSnapshotReq ht _ _ _).weaken fun _ _ _ => trivial
    · refine Within.bind (fun s => ?_) fun t => ?_
      · exact (walks_termForLog ht.toNotes _).weaken fun _ _ _ => trivial
      exact (within_orThrow _ _).bind fun es => within_pure _
  refine within_get.bind fun s => (within_orThrow _ _).bind fun p => ?_
  refine within_ite (within_pure _) (within_modify_bind hbusy (haim.bind fun req => ?_))
  refine Within.bind ?_ fun _ => within_pure _
  exact within_get_bind fun s => walks_emit (hsend s _ _) trivial

theorem walks_notifyCommit (hm : Admits ctx m) (hI : Replicates ctx m J I) (p : Peer) (hs : I s) :
    Walks m (notifyCommit ctx p) s fun _ => I := by
  refine walks_bind (hI.call s p.uid hs) fun sent s' hs' => ?_
  refine walks_ite (fun _ => walks_pure hs') fun _ => ?_
  exact walks_modify (hm.quiet (plain_onPeer s' p.uid fun _ => rfl))
    (hI.keep hs' (sameAims_onPeer s' p.uid fun _ => rfl) rfl)

theorem walks_commit (hm : Admits ctx m) (hI : Replicates ctx m J I) (k : Nat) (hs : I s) :
    Walks m (commit ctx k) s fun _ => I := by
  refine walks_get_bind (walks_when (fun _ => ?_) fun _ => hs)
  have hs' : I { s with quickCommitIdx := k } := hI.keep hs ⟨fun _ h => h, rfl, rfl⟩ rfl
  refine walks_modify_bind (hm.quiet ⟨⟨rfl, .inl rfl, rfl⟩, rfl, rfl⟩) ?_
  refine walks_when (fun _ => ?_) fun _ => hs'
  exact walks_each s.peers hs' (fun p _ s'' h => walks_notifyCommit hm hI p h) fun _ h => h

/-- A server that does not lead only raises its commit index. -/
theorem walks_commit_quiet (hm : Admits ctx m) (k : Nat) (hr : s.role ≠ .leader) :
    Walks m (commit ctx k) s fun _ s' => s'.role ≠ .leader := by
  refine walks_get_bind (walks_when (fun _ => ?_) fun _ => hr)
  refine walks_modify_bind (hm.quiet ⟨⟨rfl, .inl rfl, rfl⟩, rfl, rfl⟩) ?_
  exact walks_when (fun hl => (hr hl).elim) fun _ => hr

/-- Only a leader makes requests when it raises its commit index. -/
theorem walks_commit_leading (hm : Admits ctx m) (hI : Replicates ctx m J I) (k : Nat)
    (hs : s.role = .leader → I s) :
    Walks m (commit ctx k) s fun _ s' => s'.role = .leader → I s' := by
  by_cases hr : s.role = .leader
  · exact (walks_commit hm hI k (hs hr)).weaken fun _ _ h _ => h
  · exact (walks_commit_quiet hm k hr).weaken fun _ _ h hl => (h hl).elim

theorem walks_requestAppendEntries (hm : Admits ctx m) (hI : Replicates ctx m J I) (hs : I s) :
    Walks m (requestAppendEntries ctx) s fun _ => I := by
  refine walks_get_bind (walks_ite (fun _ => walks_commit hm hI _ hs) fun _ => ?_)
  refine walks_each s.peers hs (fun p _ s' h => ?_) fun _ h => h
  exact walks_bind (hI.call s' p.uid h) fun _ _ h' => walks_pure h'

/-- What follows the role change. -/
theorem walks_becomeLeader (hm : Admits ctx m) (hI : Replicates ctx m J I)
    (hlead : m s [] (takeLead s)) (hs : J (takeLead s)) :
    Walks m (becomeLeader ctx) s fun _ => I := by
  refine walks_modify_bind hlead (walks_get_bind (walks_bind (R := fun _ => I) ?_ fun _ _ h => ?_))
  · refine walks_when (fun _ => walks_modify ?_ ?_) fun _ => hI.ready hs
    · exact hm.quiet ⟨⟨rfl, .inl rfl, rfl⟩, rfl, rfl⟩
    · exact hI.ready (hI.grow hs ⟨fun _ h => h, rfl, rfl⟩ ⟨[_], rfl⟩)
  · exact walks_requestAppendEntries hm hI h

/-! ## Configurations and snapshots -/

theorem path_foldl_addConfigured (hm : Admits ctx m) (srvs : List SrvConfig) (s : Server) :
    Path m s [] (srvs.foldl (addConfigured ctx) s) := by
  induction srvs generalizing s with
  | nil => exact .nil s
  | cons srv srvs ih => exact Path.cons (hm.addConfigured s srv) (ih (addConfigured ctx s srv))

theorem keeps_role_saveConfig (hm : Admits ctx m) (c : ClusterConfig) (s : Server) :
    Walks m (saveConfig c) s fun _ s' => s'.role = s.role :=
  walks_saveConfig fun _ _ => ⟨hm.quiet ⟨⟨rfl, .inl rfl, rfl⟩, rfl, rfl⟩, rfl⟩

theorem walks_reconfigure (hm : Admits ctx m) (c : ClusterConfig) :
    Walks m (reconfigure ctx c) s fun _ s' => s'.role = s.role := by
  refine walks_get_bind (walks_bind (R := fun _ s' => s'.role = s.role) ?_ fun _ s₁ h₁ => ?_)
  · refine ⟨path_foldl_addConfigured hm _ s, fun _ _ => ?_⟩
    obtain ⟨ps, j, n, hfold⟩ := foldl_addConfigured_frame ctx
      (c.servers.filter fun srv => (s.findPeer srv.id).isNone ∧ srv.id ≠ s.id) s
    show (List.foldl _ s _).role = s.role
    rw [hfold]
  refine walks_modify_bind (hm.drop s₁ _) (walks_get_bind (walks_ite (fun _ => ?_) fun _ => ?_))
  · refine walks_bind (keeps_role_saveConfig hm c _) fun _ s₂ h₂ => ?_
    exact walks_emit (hm.note s₂ (e := .systemExit 0) trivial) (h₂.trans h₁)
  · exact walks_modify (hm.quiet ⟨⟨rfl, .inl rfl, rfl⟩, rfl, rfl⟩) h₁

theorem within_reconfigure (hm : Admits ctx m) (c : ClusterConfig) : Within m (reconfigure ctx c) :=
  fun _ => (walks_reconfigure hm c).weaken fun _ _ _ => trivial

theorem within_snapshotAndCompact (hm : Admits ctx m) (idx : Nat) :
    Within m (snapshotAndCompact ctx idx) := by
  have hexit : Within m (emit (.systemExit (-1)) : M Unit) :=
    within_emit fun s => hm.note s (e := .systemExit (-1)) trivial
  refine within_get.bind fun s => within_ite ?_ (within_pure ())
  split
  · exact hexit
  · exact hexit
  · exact within_throw _
  · exact within_pure ()
  · refine within_ite ((within_when ?_).bind fun _ => within_modify fun s => ?_) (within_pure ())
    · exact within_emit fun s => hm.note s (e := .compact _ _) trivial
    · exact hm.quiet ⟨⟨rfl, .inl rfl, rfl⟩, rfl, rfl⟩

theorem within_applyConfig (hm : Admits ctx m) (c : ClusterConfig) : Within m (applyConfig ctx c) := by
  have hsave : Within m (saveConfig c) :=
    fun s => (keeps_role_saveConfig hm c s).weaken fun _ _ _ => trivial
  refine (within_orExit hsave fun s => hm.note s (e := .systemExit (-1)) trivial).bind fun _ => ?_
  refine within_modify_bind (fun s => hm.quiet ⟨⟨rfl, .inl rfl, rfl⟩, rfl, rfl⟩) ?_
  refine within_get.bind fun s => (within_when (within_reconfigure hm c)).bind fun _ => ?_
  refine within_modify fun s => ?_
  split
  · exact hm.quiet ⟨⟨rfl, .inl rfl, rfl⟩, rfl, rfl⟩
  · exact hm.quiet (.refl s)

theorem within_applyEntry (hm : Admits ctx m) (idx : Nat) (e : LogEntry) :
    Within m (applyEntry ctx idx e) := by
  unfold applyEntry
  split
  · refine within_emit_bind (fun s => hm.note s (e := .commit _ _) trivial) ?_
    exact within_when (within_exitWith hm.notes _ _)
  · split
    · exact within_applyConfig hm _
    · exact within_exitWith hm.notes _ _
  · exact within_pure ()

theorem within_commitInBg (hm : Admits ctx m) : Within m (commitInBg ctx) := by
  refine within_get.bind fun s => within_when ?_
  refine within_modify_bind (fun s => hm.quiet ⟨⟨rfl, .inl rfl, rfl⟩, rfl, rfl⟩) ?_
  refine within_emit_bind (fun s => hm.note s (e := .process _ _) trivial) ?_
  exact (within_applyEntry hm _ _).bind fun _ => within_snapshotAndCompact hm _

/-! ## Requests -/

theorem walks_handleAppendEntries (hm : Admits ctx m) (req : ReqMsg) (hle : req.term ≤ s.term) :
    Walks m (handleAppendEntries ctx req) s fun _ _ => True := by
  refine walks_get_bind (walks_bind
    (R := fun _ s' => s'.term = s.term ∧ (req.term = s.term → s'.role = .follower)) ?_ ?_)
  · refine walks_when (fun heq => ?_) fun hne => ⟨rfl, fun heq => (hne heq).elim⟩
    exact (walks_hearLeader hm _ s).weaken fun _ s' h => ⟨h.1, fun _ => h.2⟩
  intro _ s₁ h
  obtain ⟨hterm, hfollow⟩ := h
  have hlog : Walks m (logOkay req) s₁ fun _ s' => s' = s₁ := by
    refine walks_get_bind (walks_ite (fun _ => walks_pure rfl) fun _ => ?_)
    refine walks_ite (fun _ => ?_) fun _ => walks_pure rfl
    exact walks_bind (walks_termForLog hm.notes _) fun _ _ h => walks_pure h
  refine walks_get_bind (walks_bind hlog fun okay s₂ h => ?_)
  subst h
  refine walks_ite (fun _ => walks_pure trivial) fun hacc => ?_
  rw [not_or] at hacc
  have hrole : s₂.role = .follower := hfollow (by omega)
  refine walks_bind (R := fun _ s' => s'.role = .follower)
    ((walks_writeEntries fun es _ => ?_).weaken fun _ s' h => h ▸ hrole) fun _ s₃ h₃ => ?_
  · refine hm.plain ⟨⟨rfl, .inl rfl, rfl⟩, rfl, rfl⟩ fun e he => ?_
    have hw := writtenOut_writes e he
    cases e <;> first | exact hw.elim | trivial
  refine walks_modify_bind (hm.quiet ⟨⟨rfl, .inl rfl, rfl⟩, rfl, rfl⟩) ?_
  refine walks_bind (walks_commit_quiet hm _ ?_) fun _ _ _ => walks_pure trivial
  simp [h₃]

theorem within_handleVoteReq (hm : Admits ctx m) (req : ReqMsg) : Within m (handleVoteReq req) := by
  refine within_get.bind fun s => within_ite ?_ (within_pure _)
  exact within_modify_bind (fun s => hm.quiet ⟨⟨rfl, .inl rfl, rfl⟩, rfl, rfl⟩) (within_pure _)

theorem walks_handleCliReq (hm : Admits ctx m) (hI : Replicates ctx m J I) (req : ReqMsg) (now : Int)
    (hs : s.role = .leader → J s) : Walks m (handleCliReq ctx req now) s fun _ _ => True := by
  have hexpired : Walks m (leaderExpired ctx now) s fun _ s' => s'.role = .leader → J s' := by
    refine walks_get_bind (walks_ite (fun _ => ?_) fun _ => walks_pure hs)
    refine walks_modify_bind (hm.quiet ⟨⟨rfl, .inl rfl, rfl⟩, rfl, rfl⟩) (walks_pure fun hr => ?_)
    exact hI.grow (hs hr) ⟨fun _ h => h, rfl, rfl⟩ ⟨[], rfl⟩
  refine walks_bind hexpired fun expired s₁ hs₁ => walks_get_bind ?_
  refine walks_ite (fun _ => walks_pure trivial) fun _ => ?_
  refine walks_ite (fun _ => walks_pure trivial) fun hr => ?_
  rw [ne_eq, not_not] at hr
  refine walks_bind (R := fun _ => J) ?_ fun _ s₂ hs₂ => ?_
  · refine walks_each req.logEntries (hs₁ hr) (fun e _ s' hs' => ?_) fun _ h => h
    refine walks_appendClientEntry (hm.plain ⟨⟨rfl, .inl rfl, rfl⟩, rfl, rfl⟩ ?_) ?_
    · simp [Effect.Slotless]
    · exact hI.grow hs' ⟨fun _ h => h, rfl, rfl⟩ ⟨[_], rfl⟩
  · refine walks_bind (walks_requestAppendEntries hm hI (hI.ready hs₂)) fun _ _ _ => ?_
    exact walks_get_bind (walks_pure trivial)

theorem within_handleAddSrvReq (hm : Admits ctx m) (req : ReqMsg) :
    Within m (handleAddSrvReq ctx req) := by
  refine within_get.bind fun s => ?_
  split
  · refine within_ite (within_pure _) ?_
    split
    · refine within_ite (within_throw _) (within_ite (within_pure _) ?_)
      refine within_modify_bind (fun s => hm.invite s _) ?_
      refine Within.bind ?_ fun _ => within_pure _
      refine within_get.bind fun s => (within_orThrow _ _).bind fun p => ?_
      exact within_sendReq hm.notes _ _ _ rfl
    · exact within_throw _
  · exact within_pure _

theorem within_handleRmSrvReq (hm : Admits ctx m) (req : ReqMsg) : Within m (handleRmSrvReq req) := by
  refine within_get.bind fun s => ?_
  split
  · refine within_ite (within_pure _) ?_
    split
    · exact within_pure _
    · exact (within_sendReq hm.notes _ _ _ rfl).bind fun _ => within_pure _
  · exact within_pure _

/-- The condition is on the log with the pack. -/
def PackReady (J : Server → Prop) (req : ReqMsg) (s : Server) : Prop :=
  ∀ e es, req.logEntries = [e] → e.buf = .pack es →
    J { s with logStore := s.logStore.applyPack (usucc req.lastLogIdx) es }

instance [DecidablePred J] (req : ReqMsg) (s : Server) : Decidable (PackReady J req s) :=
  match hl : req.logEntries with
  | [e] =>
    match hb : e.buf with
    | .pack es =>
      decidable_of_iff (J { s with logStore := s.logStore.applyPack (usucc req.lastLogIdx) es })
        ⟨fun h e' es' he hes => by rw [hl] at he; cases he; rw [hb] at hes; cases hes; exact h,
          fun h => h e es hl hb⟩
    | .bytes _ | .config _ | .server _ | .int _ | .snapshotSync _ =>
      isTrue fun e' es' he hes => by rw [hl] at he; cases he; rw [hb] at hes; cases hes
  | [] | _ :: _ :: _ => isTrue fun e' es' he => by rw [hl] at he; cases he

theorem walks_handleLogSyncReq (hm : Admits ctx m) (hI : Replicates ctx m J I) (req : ReqMsg)
    (hs : s.role = .leader → PackReady J req s) :
    Walks m (handleLogSyncReq ctx req) s fun _ _ => True := by
  refine walks_get_bind ?_
  split
  next entry hentry =>
    refine walks_ite (fun _ => walks_pure trivial) fun _ => ?_
    split
    next es hbuf =>
      refine walks_modify_bind (hm.quiet ⟨⟨rfl, .inl rfl, rfl⟩, rfl, rfl⟩) (walks_get_bind ?_)
      refine walks_bind (R := fun _ _ => True) ?_ fun _ _ _ => walks_pure trivial
      refine (walks_commit_leading hm hI _ fun hr => hI.ready ?_).weaken fun _ _ _ => trivial
      exact hs hr entry es hentry hbuf
    next => exact walks_throw
  next => exact walks_pure trivial

theorem within_handleJoinClusterReq (hm : Admits ctx m) (req : ReqMsg) :
    Within m (handleJoinClusterReq ctx req) := by
  refine within_get.bind fun s => ?_
  split
  · refine within_ite (within_pure _) (within_modify_bind (fun s => ?_) ?_)
    · exact hm.follow (by simp [startCatchingUp]) ⟨rfl, .inl rfl, rfl⟩
    · split
      · exact within_ite (within_throw _) ((within_reconfigure hm _).bind fun _ => within_pure _)
      · exact within_throw _
  · exact within_pure _

theorem within_handleLeaveClusterReq (hm : Admits ctx m) (req : ReqMsg) :
    Within m (handleLeaveClusterReq req) := by
  refine within_get.bind fun s => within_ite (within_pure _) ?_
  exact within_modify_bind (fun s => hm.quiet ⟨⟨rfl, .inl rfl, rfl⟩, rfl, rfl⟩) (within_pure _)

theorem walks_handleSnapshotSyncReq (hm : Admits ctx m) (req : SnapshotSyncReq) (s : Server) :
    Walks m (handleSnapshotSyncReq ctx req) s fun _ _ => True := by
  refine walks_emit_bind (hm.note s (e := .saveSnapshotData _ _ _) trivial) ?_
  refine walks_when (fun _ => walks_get_bind ?_) fun _ => trivial
  have hfail {c : Prop} [Decidable c] (s' : Server) : Walks m (when c (do
      emit (.systemExit (-1))
      exitWith (-1) .snapshotInstallFailed)) s' fun _ s'' => s'' = s' ∧ ¬c := by
    refine walks_when (fun _ => ?_) fun hc => ⟨rfl, hc⟩
    exact walks_emit_bind (hm.note s' (e := .systemExit (-1)) trivial) (walks_exitWith hm.notes)
  refine walks_bind (hfail s) fun _ s₁ h₁ => ?_
  obtain ⟨rfl, hrole⟩ := h₁
  rw [ne_eq, not_not] at hrole
  refine walks_emit_bind (hm.note s₁ (e := .compact _ _) trivial) ?_
  refine walks_modify_bind (hm.quiet ⟨⟨rfl, .inl rfl, rfl⟩, rfl, rfl⟩) ?_
  refine walks_modify_bind (hm.follow ?_ ⟨rfl, .inl rfl, rfl⟩) ?_
  · simp [stopElectionTimer, hrole]
  refine walks_bind (hfail _) fun _ s₂ h₂ => ?_
  obtain ⟨rfl, -⟩ := h₂
  refine walks_modify_bind (hm.quiet ⟨⟨rfl, .inl rfl, rfl⟩, rfl, rfl⟩) ?_
  refine walks_bind (R := fun _ s' => s'.role = .follower) (walks_catching ?_ fun _ _ =>
    walks_exitWith hm.notes) fun _ s₃ h₃ => ?_
  · refine walks_bind (walks_reconfigure hm _) fun _ s₃ h₃ => walks_get_bind ?_
    refine (keeps_role_saveConfig hm _ _).weaken fun _ _ h => h.trans (h₃.trans ?_)
    simp [stopElectionTimer, hrole]
  refine walks_modify_bind (hm.quiet ⟨⟨rfl, .inl rfl, rfl⟩, rfl, rfl⟩) ?_
  refine walks_modify (follow_restartElectionTimer hm ?_) trivial
  show s₃.role ≠ _
  simp [h₃]

theorem within_handleInstallSnapshotReq (hm : Admits ctx m) (req : ReqMsg) :
    Within m (handleInstallSnapshotReq ctx req) := by
  refine within_get.bind fun s => (within_when ?_).bind fun _ => within_get.bind fun s => ?_
  · exact fun s => (walks_hearLeader hm _ s).weaken fun _ _ _ => trivial
  refine within_ite (within_pure _) ?_
  split
  · refine within_ite (within_pure _) ?_
    split
    · refine within_ite (within_throw _) (within_ite (within_pure _) ?_)
      exact Within.bind (walks_handleSnapshotSyncReq hm _) fun _ => within_pure _
    · exact within_throw _
  · exact within_pure _

theorem walks_handleExtendedMsg (hm : Admits ctx m) (hI : Replicates ctx m J I) (req : ReqMsg)
    (hs : req.type = .syncLogRequest → s.role = .leader → PackReady J req s) :
    Walks m (handleExtendedMsg ctx req) s fun _ _ => True := by
  unfold handleExtendedMsg
  split
  next => exact within_handleAddSrvReq hm req s
  next => exact within_handleRmSrvReq hm req s
  next htype => exact walks_handleLogSyncReq hm hI req (hs htype)
  next => exact within_handleJoinClusterReq hm req s
  next => exact within_handleLeaveClusterReq hm req s
  next => exact within_handleInstallSnapshotReq hm req s
  next => exact walks_exitWith hm.notes

/-- In which states the requests that a request from outside gives rise to are made. -/
def RequestReady (J : Server → Prop) (req : ReqMsg) (s : Server) : Prop :=
  s.role = .leader →
    (req.type = .clientRequest → J s) ∧ (req.type = .syncLogRequest → PackReady J req s)

instance [DecidablePred J] (req : ReqMsg) (s : Server) : Decidable (RequestReady J req s) :=
  inferInstanceAs (Decidable (_ → _ ∧ _))

theorem walks_processReq (hm : Admits ctx m) (hI : Replicates ctx m J I) (req : ReqMsg) (now : Int)
    (hs : RequestReady J req s) : Walks m (processReq ctx req now) s fun _ _ => True := by
  refine walks_bind (R := fun _ s' => (req.type.bringsTerm = false → s' = s) ∧
    (req.type.bringsTerm = true → req.term ≤ s'.term)) ?_ fun _ s₁ h₁ => ?_
  · refine walks_when (fun hb => ?_) fun hb => ⟨fun _ => rfl, fun h => (hb h).elim⟩
    refine walks_bind (walks_updateTerm hm req.term s) fun _ s' h => ?_
    refine walks_modify ?_ ⟨by simp [hb], fun _ => ?_⟩
    · split
      · exact hm.quiet ⟨⟨rfl, .inl rfl, rfl⟩, rfl, rfl⟩
      · exact hm.quiet (.refl s')
    · show req.term ≤ (if _ then _ else _ : Server).term
      split <;> exact h.1
  split
  next htype =>
    exact walks_handleAppendEntries hm req (h₁.2 (by simp [htype, MsgType.bringsTerm]))
  next => exact within_handleVoteReq hm req s₁
  next htype =>
    rw [h₁.1 (by simp [htype, MsgType.bringsTerm])]
    exact walks_handleCliReq hm hI req now fun hr => (hs hr).1 htype
  next =>
    refine walks_handleExtendedMsg hm hI req fun htype hr => ?_
    have hsame := h₁.1 (by simp [htype, MsgType.bringsTerm])
    rw [hsame] at hr ⊢
    exact (hs hr).2 htype

/-! ## Responses -/

theorem walks_clearPendingCommit (hm : Admits ctx m) (hI : Replicates ctx m J I) (uid : Nat)
    (hs : s.role = .leader → I s) :
    Walks m (clearPendingCommit uid) s fun _ s' => s'.role = .leader → I s' := by
  refine walks_get_bind (walks_modify_bind (hm.quiet (plain_onPeer s uid fun _ => rfl)) ?_)
  exact walks_pure fun hr => hI.keep (hs hr) (sameAims_onPeer s uid fun _ => rfl) rfl

theorem walks_catchUp (hI : Replicates ctx m J I) (uid : Nat) (b : Bool)
    (hs : s.role = .leader → I s) : Walks m (catchUp ctx uid b) s fun _ _ => True := by
  refine walks_get_bind (walks_when (fun hb => ?_) fun _ => trivial)
  exact walks_bind (hI.call s uid (hs hb.1)) fun _ _ _ => walks_pure trivial

/-- In which states the requests that a response of the protocol gives rise to are made, and that it
may decide the election. -/
structure ResponseReady (m : Server → List Effect → Server → Prop) (J I : Server → Prop)
    (resp : RespMsg) (s : Server) : Prop where
  elect : resp.type = .requestVoteResponse → resp.Elects s →
    m (resp.elected s) [] (takeLead (resp.elected s)) ∧ J (takeLead (resp.elected s))
  append : resp.type = .appendEntriesResponse → s.role = .leader → ∀ p ∈ s.findPeer resp.src,
    I (s.onPeer p.uid resp.appendMove)
  snapshot : resp.type = .installSnapshotResponse → s.role = .leader → ∀ p ∈ s.findPeer resp.src,
    I (s.onPeer p.uid (resp.snapshotMove p))

theorem walks_handleVotingResp (hm : Admits ctx m) (hI : Replicates ctx m J I) (resp : RespMsg)
    (hs : resp.Elects s → m (resp.elected s) [] (takeLead (resp.elected s)) ∧
      J (takeLead (resp.elected s))) :
    Walks m (handleVotingResp ctx resp) s fun _ _ => True := by
  refine walks_get_bind (walks_ite (fun _ => walks_pure trivial) fun hopen => ?_)
  simp only [not_or, not_not, Bool.not_eq_true] at hopen
  refine walks_modify_bind (hm.quiet ⟨⟨rfl, .inl rfl, rfl⟩, rfl, rfl⟩) (walks_get_bind ?_)
  refine walks_when (fun hmaj => ?_) fun _ => trivial
  obtain ⟨hlead, hI'⟩ := hs ⟨hopen.1, hopen.2.1, hopen.2.2, hmaj⟩
  refine walks_modify_bind (hm.quiet ⟨⟨rfl, .inl rfl, rfl⟩, rfl, rfl⟩) ?_
  exact (walks_becomeLeader hm hI hlead hI').weaken fun _ _ _ => trivial

theorem walks_handleAppendEntriesResp (hm : Admits ctx m) (hI : Replicates ctx m J I)
    (resp : RespMsg) (hs : s.role = .leader → ∀ p ∈ s.findPeer resp.src,
      I (s.onPeer p.uid resp.appendMove)) :
    Walks m (handleAppendEntriesResp ctx resp) s fun _ _ => True := by
  refine walks_get_bind ?_
  split
  next => exact walks_pure trivial
  next p hp =>
    have hs' (hr : s.role = .leader) := hs hr p hp
    have hplain := hm.quiet (plain_onPeer s p.uid resp.slot_appendMove)
    unfold RespMsg.appendMove at hs' hplain
    refine walks_ite (fun hacc => ?_) fun hacc => ?_
    · rw [if_pos hacc] at hs' hplain
      refine walks_modify_bind hplain (walks_get_bind ?_)
      refine walks_bind (walks_commit_leading hm hI _ hs') fun _ s₁ h₁ => ?_
      refine walks_bind (walks_clearPendingCommit hm hI p.uid h₁) fun _ s₂ h₂ => ?_
      exact walks_get_bind (walks_catchUp hI p.uid _ h₂)
    · rw [if_neg hacc] at hs' hplain
      exact walks_modify_bind hplain (walks_catchUp hI p.uid true hs')

theorem walks_handleInstallSnapshotResp (hm : Admits ctx m) (hI : Replicates ctx m J I)
    (resp : RespMsg) (hs : s.role = .leader → ∀ p ∈ s.findPeer resp.src,
      I (s.onPeer p.uid (resp.snapshotMove p))) :
    Walks m (handleInstallSnapshotResp ctx resp) s fun _ _ => True := by
  refine walks_get_bind ?_
  split
  next => exact walks_pure trivial
  next p hp =>
    have hs' (hr : s.role = .leader) := hs hr p hp
    have hplain := hm.quiet (plain_onPeer s p.uid (resp.slot_snapshotMove p))
    unfold RespMsg.snapshotMove at hs' hplain
    refine walks_ite (fun hacc => ?_) fun hacc => ?_
    · split
      next => exact walks_pure trivial
      next sync hsync =>
        simp only [hacc, hsync] at hs' hplain
        refine walks_modify_bind hplain (walks_ite (fun _ => ?_) fun _ => walks_catchUp hI _ _ hs')
        refine walks_bind (walks_clearPendingCommit hm hI p.uid hs') fun _ s₂ h₂ => ?_
        exact walks_get_bind (walks_catchUp hI p.uid _ h₂)
    · simp only [hacc, onPeer_self] at hs'
      exact walks_catchUp hI p.uid true hs'

theorem walks_handlePeerResp (hm : Admits ctx m) (hI : Replicates ctx m J I) (resp : RespMsg)
    (now : Int) (hs : ResponseReady m J I resp (heardFrom resp.src now s)) :
    Walks m (handlePeerResp ctx resp now) s fun _ _ => True := by
  refine walks_modify_bind (hm.quiet (plain_heardFrom s resp.src now)) ?_
  refine walks_bind (walks_updateTerm hm resp.term _) fun updated s₁ h₁ => ?_
  refine walks_ite (fun _ => walks_pure trivial) fun hno => ?_
  rw [h₁.2.1 (by simpa using hno)]
  split
  next htype => exact walks_handleVotingResp hm hI resp (hs.elect htype)
  next htype => exact walks_handleAppendEntriesResp hm hI resp (hs.append htype)
  next htype => exact walks_handleInstallSnapshotResp hm hI resp (hs.snapshot htype)
  next => exact walks_exitWith hm.notes

/-! ## Responses to membership requests -/

theorem walks_rmSrvFromCluster (hm : Admits ctx m) (hI : Replicates ctx m J I) (srvId : Int)
    (hs : J s) : Walks m (rmSrvFromCluster ctx srvId) s fun _ _ => True := by
  refine walks_modify_bind (hm.quiet ⟨⟨rfl, .inl rfl, rfl⟩, rfl, rfl⟩) ?_
  refine (walks_requestAppendEntries hm hI ?_).weaken fun _ _ _ => trivial
  exact hI.ready (hI.grow hs ⟨fun _ h => h, rfl, rfl⟩ ⟨[_], rfl⟩)

theorem walks_syncLogToNewSrv (hm : Admits ctx m) (hI : Replicates ctx m J I) (startIdx : Nat)
    (hs : J s) : Walks m (syncLogToNewSrv ctx startIdx) s fun _ _ => True := by
  refine walks_get_bind (walks_orThrow_bind fun p hp => ?_)
  refine walks_ite (fun _ => walks_orThrow_bind fun srv _ => ?_) fun _ => ?_
  · refine walks_modify_bind (hm.quiet ⟨⟨rfl, .inl rfl, rfl⟩, rfl, rfl⟩) ?_
    refine (walks_requestAppendEntries hm hI ?_).weaken fun _ _ _ => trivial
    exact hI.ready (hI.grow hs ⟨fun _ h => h, rfl, rfl⟩ ⟨[_], rfl⟩)
  refine walks_ite (fun _ => ?_) fun _ => walks_emit_bind (hm.note s trivial)
    (walks_orThrow_bind fun logPack _ => ?_)
  · refine walks_bind (walks_createSyncSnapshotReq (hm.touches _) _ _ _) fun req s₁ h₁ => ?_
    refine walks_get_bind (walks_emit (hm.sync p.id req ?_) trivial)
    rw [h₁, hp]
    rfl
  · exact within_sendReq hm.notes _ _ _ rfl s

theorem walks_handleExtResp (hm : Admits ctx m) (hI : Replicates ctx m J I) (resp : RespMsg)
    (hs : J s) : Walks m (handleExtResp ctx resp) s fun _ _ => True := by
  have hjoin (f : Peer → Peer) : J (onJoin f s) := hI.grow hs ⟨fun _ h => h, rfl, rfl⟩ ⟨[], rfl⟩
  refine walks_get_bind ?_
  split
  next =>
    refine walks_when (fun _ => ?_) fun _ => trivial
    exact walks_modify_bind (hm.quiet (plain_onJoin s fun _ => rfl))
      (walks_syncLogToNewSrv hm hI _ (hjoin _))
  next => exact walks_when (fun _ => walks_syncLogToNewSrv hm hI _ hs) fun _ => trivial
  next => exact walks_when (fun _ => walks_rmSrvFromCluster hm hI _ hs) fun _ => trivial
  next =>
    split
    next => exact walks_pure trivial
    next p hp =>
      refine walks_ite (fun _ => walks_pure trivial) fun _ => ?_
      split
      next => exact walks_exitWith hm.notes
      next sync hsync =>
        refine walks_modify_bind (hm.quiet (plain_onJoin s fun q => ?_)) ?_
        · unfold noteBlock
          split <;> rfl
        · exact walks_get_bind (walks_orThrow_bind fun q _ => walks_syncLogToNewSrv hm hI _ (hjoin _))
  next => exact walks_exitWith hm.notes

theorem drop_dropOnlyPeer (hm : Admits ctx m) (srvId : Int) (s : Server) :
    m s [] (dropOnlyPeer srvId s) := by
  unfold dropOnlyPeer
  split
  · exact hm.drop s _
  · exact hm.quiet (.refl s)

theorem grow_dropOnlyPeer (hI : Replicates ctx m J I) (srvId : Int) (hs : J s) :
    J (dropOnlyPeer srvId s) := by
  unfold dropOnlyPeer
  split
  · exact hI.grow hs ⟨List.map_subset _ (List.filter_subset_self _), rfl, rfl⟩ ⟨[], rfl⟩
  · exact hs

/-- Only membership requests are tried again. -/
theorem takesSlot_of_retryPeer {req : ReqMsg} {p : Peer} (h : retryPeer req s = some p) :
    req.type.takesSlot = false := by
  unfold retryPeer at h
  split at h
  next htype => simp [htype, MsgType.takesSlot]
  next htype => simp [htype, MsgType.takesSlot]
  next htype => simp [htype, MsgType.takesSlot]
  next => cases h

theorem walks_handleExtRespErr (hm : Admits ctx m) (hI : Replicates ctx m J I) (req : ReqMsg)
    (hs : J s) : Walks m (handleExtRespErr ctx req) s fun _ _ => True := by
  refine walks_get_bind ?_
  split
  next => exact walks_pure trivial
  next p hp =>
    refine walks_ite (fun _ => walks_ite (fun _ => ?_) fun _ => ?_) fun _ => ?_
    · refine walks_modify_bind (drop_dropOnlyPeer hm p.id s) ?_
      exact walks_rmSrvFromCluster hm hI p.id (grow_dropOnlyPeer hI p.id hs)
    · exact walks_modify (hm.quiet ⟨⟨rfl, .inr rfl, rfl⟩, rfl, rfl⟩) trivial
    · refine walks_modify_bind (hm.quiet (plain_onPeer s p.uid fun _ => rfl)) ?_
      exact walks_emit (hm.note _ (e := .retry _) (takesSlot_of_retryPeer hp)) trivial

/-! ## Timeouts -/

theorem walks_handleHbTimeout (hm : Admits ctx m) (hI : Replicates ctx m J I) (uid : Nat)
    (hs : s.role = .leader → I s) : Walks m (handleHbTimeout ctx uid) s fun _ _ => True := by
  refine walks_get_bind (walks_when (fun hr => ?_) fun _ => trivial)
  refine walks_bind (hI.call s uid (hs hr)) fun _ s₁ _ => ?_
  refine walks_modify (hm.quiet (plain_onPeer s₁ uid fun p => ?_)) trivial
  split <;> rfl

theorem within_sendVoteReq (hm : Admits ctx m) (p : Peer) : Within m (sendVoteReq p) := by
  refine within_get.bind fun s => Within.bind ?_ fun t => within_sendReq hm.notes _ _ _ rfl
  exact fun s => (walks_termForLog hm.notes _).weaken fun _ _ _ => trivial

/-- A server without peers as its own vote leaves it. -/
def selfElected (s : Server) : Server :=
  { voteForSelf (becomeCandidate s) with electionCompleted := true }

/-- The server is about to stand for election. -/
def Stands (s : Server) : Prop := ¬0 < s.stepsToDown ∧ s.catchingUp = false

instance (s : Server) : Decidable (Stands s) := inferInstanceAs (Decidable (_ ∧ _))

/-- A server that leads restarts its timer only while it is stepping down. A server that stands for
election is elected at once if it has no peers. -/
structure TimeoutReady (m : Server → List Effect → Server → Prop) (J : Server → Prop)
    (s : Server) : Prop where
  restart : ∀ s' : Server, s'.role = s.role → m s' [] s'.restartElectionTimer
  elect : Stands s → s.role ≠ .leader → s.peers = [] →
    m (selfElected s) [] (takeLead (selfElected s)) ∧ J (takeLead (selfElected s))

theorem walks_requestVote (hm : Admits ctx m) (hI : Replicates ctx m J I)
    (hs : s.peers = [] → m (selfElected s) [] (takeLead (selfElected s)) ∧
      J (takeLead (selfElected s))) :
    Walks m (requestVote ctx) (becomeCandidate s) fun _ _ => True := by
  refine walks_modify_bind (hm.quiet ⟨⟨rfl, .inl rfl, rfl⟩, rfl, rfl⟩) (walks_get_bind ?_)
  refine walks_ite (fun hmaj => ?_) fun _ => within_each (within_sendVoteReq hm) _ _
  have hpeers : s.peers = [] := by
    have hlt : (s.peers.length + 1) / 2 < 0 + 1 := hmaj
    exact List.length_eq_zero_iff.1 (by omega)
  obtain ⟨hlead, hI'⟩ := hs hpeers
  refine walks_modify_bind (hm.quiet ⟨⟨rfl, .inl rfl, rfl⟩, rfl, rfl⟩) ?_
  exact (walks_becomeLeader hm hI hlead hI').weaken fun _ _ _ => trivial

theorem walks_handleElectionTimeout (hm : Admits ctx m) (hI : Replicates ctx m J I)
    (hs : TimeoutReady m J s) : Walks m (handleElectionTimeout ctx) s fun _ _ => True := by
  refine walks_get_bind (walks_ite (fun _ => ?_) fun hdown => ?_)
  · refine walks_modify_bind (hm.quiet ⟨⟨rfl, .inl rfl, rfl⟩, rfl, rfl⟩) ?_
    refine walks_ite (fun _ => ?_) fun _ => walks_modify (hs.restart _ rfl) trivial
    refine walks_bind (R := fun _ _ => True) (walks_when (fun _ => ?_) fun _ => trivial)
      fun _ _ _ => walks_exitWith hm.notes
    refine walks_modify_bind (hm.quiet ⟨⟨rfl, .inl rfl, rfl⟩, rfl, rfl⟩) (walks_get_bind ?_)
    exact walks_saveConfig fun _ _ => ⟨hm.quiet ⟨⟨rfl, .inl rfl, rfl⟩, rfl, rfl⟩, trivial⟩
  refine walks_ite (fun _ => walks_modify (hs.restart s rfl) trivial) fun hcatch => ?_
  refine walks_ite (fun _ => walks_exitWith hm.notes) fun hrole => ?_
  refine walks_modify_bind (hm.follow (by simp [becomeCandidate]) ⟨rfl, .inl rfl, rfl⟩) ?_
  refine walks_bind (walks_requestVote hm hI ?_) fun _ s₁ _ => walks_modify ?_ trivial
  · exact hs.elect ⟨hdown, by simpa using hcatch⟩ hrole
  · split
    next => exact hm.quiet (.refl s₁)
    next hr => exact follow_restartElectionTimer hm hr

end Turn

end EnclaveRaft
