import EnclaveRaft.Walks

/-!
# What the state manager has saved

A server must not act on a term or a vote that it would forget if it stopped. The source saves the
state by hand in each place where it changes. Here the handlers are resolved once more, for what is
saved: whatever a server handles, the saved state is the state it goes by (`Server.Saved`), not only
when the handler is through but at each moment at which a request is sent.

The saved configuration changes in few places: where a copy of another one is saved, and where the
configuration in use changes and is still the object that the state manager holds. Which servers the
two may name is a parameter `C` of the argument.
-/

namespace EnclaveRaft

open Act Server

/-- What is saved of the state is what the server goes by. A server that has never saved its state
goes by the one that the constructor makes up. -/
def Server.Saved (s : Server) : Prop := s.savedState.getD {} = s.state

instance (s : Server) : Decidable s.Saved := inferInstanceAs (Decidable (_ = _))

/-- Neither what is saved nor the state changes. -/
structure SameSaved (s s' : Server) : Prop where
  state : s'.state = s.state
  savedState : s'.savedState = s.savedState
  savedConfig : s'.savedConfig = s.savedConfig
  config : s'.config = s.config

/-- The configurations that a request may make its receiver save. -/
def ReqMsg.Offers (req : ReqMsg) (c : ClusterConfig) : Prop :=
  ∃ e ∈ req.logEntries, e.buf = .config c ∨
    ∃ sync, e.buf = .snapshotSync sync ∧ sync.snapshot.lastConfig = c

/-- A list of servers that is saved and read back is in `C` again. -/
def CopiesIn (C : List SrvConfig → Prop) : Prop :=
  ∀ c c' : ClusterConfig, C c.servers → c.copied = some c' → C c'.servers

/-- The configuration in use and the saved one name servers of `C`. -/
def Server.ConfigsIn (C : List SrvConfig → Prop) (s : Server) : Prop :=
  C s.config.servers ∧ C s.savedConfig.servers

/-- An input makes the server use and save configurations of `C` only. -/
def Input.SavesIn (C : List SrvConfig → Prop) (s : Server) : Input → Prop
  | request req _ => C s.config.servers ∧ ∀ c, req.Offers c → C c.servers
  | electionTimeout => 0 < s.stepsToDown → C (leaveConfig s).config.servers
  | commitBg => ∀ c, (s.logStore.entryAt (s.smCommitIndex + 1)).buf = .config c → C c.servers
  | _ => True

/-- The saved state stays up to date, requests are sent with it up to date, and the configurations stay
in `C`. -/
structure Records (C : List SrvConfig → Prop) (s : Server) (o : List Effect) (s' : Server) :
    Prop where
  saved : s.Saved → s'.Saved
  sent : s.Saved → ∀ rpc, .send rpc ∈ o → rpc.creator.Saved
  config : s.ConfigsIn C → s'.ConfigsIn C

namespace Records

variable {C : List SrvConfig → Prop} {s s' s'' : Server} {o o' : List Effect}

theorem refl (s : Server) : Records C s [] s :=
  ⟨id, fun _ _ h => (List.not_mem_nil h).elim, id⟩

theorem trans (h : Records C s o s') (h' : Records C s' o' s'') : Records C s (o ++ o') s'' where
  saved := h'.saved ∘ h.saved
  sent hs rpc hrpc := (List.mem_append.1 hrpc).elim (h.sent hs rpc) (h'.sent (h.saved hs) rpc)
  config := h'.config ∘ h.config

theorem same (h : SameSaved s s') : Records C s [] s' where
  saved hs := by
    unfold Server.Saved
    rw [h.savedState, h.state]
    exact hs
  sent _ _ h := (List.not_mem_nil h).elim
  config hs := by
    unfold Server.ConfigsIn
    rw [h.config, h.savedConfig]
    exact hs

/-- The state changes and is saved. -/
theorem save (hstate : s'.savedState = some s'.state) (hsaved : s'.savedConfig = s.savedConfig)
    (hconfig : s'.config = s.config) : Records C s [] s' where
  saved _ := by
    unfold Server.Saved
    rw [hstate]
    rfl
  sent _ _ h := (List.not_mem_nil h).elim
  config hs := by
    unfold Server.ConfigsIn
    rw [hconfig, hsaved]
    exact hs

/-- A configuration changes, and the state does not. -/
theorem setConfig (hstate : s'.state = s.state) (hsaved : s'.savedState = s.savedState)
    (hC : s.ConfigsIn C → s'.ConfigsIn C) : Records C s [] s' where
  saved hs := by
    unfold Server.Saved
    rw [hsaved, hstate]
    exact hs
  sent _ _ h := (List.not_mem_nil h).elim
  config := hC

/-- The object that `config_` points to may be the state manager's. -/
theorem changeConfig {c : ClusterConfig} (hC : C s.config.servers → C c.servers) :
    Records C s [] (s.setConfig c) := by
  refine setConfig rfl rfl fun hs => ⟨hC hs.1, ?_⟩
  show C (if s.configShared then c else s.savedConfig).servers
  split
  · exact hC hs.1
  · exact hs.2

theorem send (handler : RespHandler) (uid : Nat) (target : Int) (req : ReqMsg) (s : Server) :
    Records C s [.send ⟨handler, uid, target, req, s⟩] s where
  saved := id
  sent hs rpc hrpc := by
    cases List.mem_singleton.1 hrpc
    exact hs
  config := id

theorem note {e : Effect} (he : e.sent = none) (s : Server) : Records C s [e] s where
  saved := id
  sent _ rpc hrpc := by
    cases List.mem_singleton.1 hrpc
    cases he
  config := id

end Records

namespace Durable

variable {ctx : Context} {C : List SrvConfig → Prop} {s : Server}

/-! ## Frames -/

theorem sameSaved_onPeer (uid : Nat) (f : Peer → Peer) (s : Server) :
    SameSaved s (s.onPeer uid f) :=
  ⟨rfl, rfl, rfl, rfl⟩

theorem sameSaved_restartElectionTimer (s : Server) : SameSaved s s.restartElectionTimer := by
  unfold restartElectionTimer
  split <;> exact ⟨rfl, rfl, rfl, rfl⟩

theorem sameSaved_becomeFollower (s : Server) : SameSaved s (becomeFollower s) := by
  obtain ⟨hstate, hsaved, hsavedConfig, hconfig⟩ := sameSaved_restartElectionTimer
    { s with peers := s.peers.map (·.enableHb false), srvToJoin := none, role := .follower }
  exact ⟨hstate, hsaved, hsavedConfig, hconfig⟩

theorem records_enterTerm (t : Nat) (s : Server) : Records C s [] (enterTerm t s) := by
  obtain ⟨hstate, hsaved, hsavedConfig, hconfig⟩ := sameSaved_becomeFollower
    { s with
      state := ⟨t, nobody⟩
      electionCompleted := false
      votesGranted := 0
      votedServers := []
      savedState := some ⟨t, nobody⟩ }
  refine .save ?_ hsavedConfig hconfig
  unfold enterTerm
  rw [hsaved, hstate]

/-! ## Requests to peers -/

theorem within_orThrow {α : Type} (e : RaftException) (o : Option α) :
    Within (Records C) (orThrow e o) := by
  cases o with
  | none => exact within_throw e
  | some a => exact within_pure a

theorem within_exitWith {α : Type} (code : Int) (e : RaftException) :
    Within (Records C) (exitWith code e : M α) :=
  within_emit_bind (Records.note rfl) (within_throw e)

theorem within_sendReq (uid : Nat) (target : Int) (req : ReqMsg) (h : RespHandler) :
    Within (Records C) (sendReq uid target req h) :=
  within_get_bind fun s => walks_emit (Records.send h uid target req s) trivial

/-- An update of the server that is not saved. -/
theorem within_update {f : Server → Server} (h : ∀ s, SameSaved s (f s)) :
    Within (Records C) (modify f : M Unit) :=
  within_modify fun s => .same (h s)

theorem within_update_bind {α : Type} {g : Server → Server} {f : Unit → M α}
    (h : ∀ s, SameSaved s (g s)) (hf : Within (Records C) (f ())) :
    Within (Records C) (modify g >>= f) :=
  within_modify_bind (fun s => .same (h s)) hf

theorem within_termForLog (idx : Nat) : Within (Records C) (termForLog idx) := by
  refine within_get.bind fun s => within_ite (within_pure _) (within_ite (within_pure _) ?_)
  cases s.smLastSnapshot with
  | none => exact within_exitWith _ _
  | some snp => exact within_ite (within_pure _) (within_exitWith _ _)

theorem within_startSnapshotSync (uid lastLogIdx : Nat) (p : Peer) :
    Within (Records C) (startSnapshotSync uid lastLogIdx p) := by
  refine within_get.bind fun s => ?_
  cases s.lastSnapshot with
  | none => exact within_throw _
  | some snp =>
    refine within_ite (within_exitWith _ _) (within_ite (within_exitWith _ _) ?_)
    exact within_update (sameSaved_onPeer uid _)

theorem within_snapshotBlock (p : Peer) (sync : SnapshotSyncCtx) (term commitIdx : Nat) :
    Within (Records C) (snapshotBlock ctx p sync term commitIdx) := by
  refine within_get.bind fun s => within_ite (within_throw _) ?_
  exact within_ite (within_exitWith _ _) (within_ite (within_throw _) (within_pure _))

theorem within_createSyncSnapshotReq (uid lastLogIdx term commitIdx : Nat) :
    Within (Records C) (createSyncSnapshotReq ctx uid lastLogIdx term commitIdx) := by
  refine within_get.bind fun s => (within_orThrow _ _).bind fun p => ?_
  refine (within_when (within_startSnapshotSync uid lastLogIdx p)).bind fun _ => ?_
  refine within_get.bind fun s => (within_orThrow _ _).bind fun sync => ?_
  exact within_snapshotBlock p sync term commitIdx

theorem within_createAppendEntriesReq (uid : Nat) :
    Within (Records C) (createAppendEntriesReq ctx uid) := by
  refine within_update_bind (fun s => sameSaved_onPeer uid _ s) ?_
  refine within_get.bind fun s => (within_orThrow _ _).bind fun p => ?_
  refine within_ite (within_exitWith _ _) (within_ite (within_createSyncSnapshotReq _ _ _ _) ?_)
  refine (within_termForLog _).bind fun t => (within_orThrow _ _).bind fun es => ?_
  exact within_pure _

theorem within_requestAppendEntriesTo (uid : Nat) :
    Within (Records C) (requestAppendEntriesTo ctx uid) := by
  refine within_get.bind fun s => (within_orThrow _ _).bind fun p => within_ite (within_pure _) ?_
  refine within_update_bind (sameSaved_onPeer uid _) ?_
  refine (within_createAppendEntriesReq uid).bind fun msg => ?_
  exact (within_sendReq _ _ _ _).bind fun _ => within_pure _

theorem within_commit (targetIdx : Nat) : Within (Records C) (commit ctx targetIdx) := by
  refine within_get.bind fun s => within_when ?_
  refine within_update_bind (fun _ => ⟨rfl, rfl, rfl, rfl⟩) (within_when ?_)
  refine within_each (fun p => ?_) _
  refine (within_requestAppendEntriesTo p.uid).bind fun sent => within_ite (within_pure _) ?_
  exact within_update (sameSaved_onPeer p.uid _)

theorem within_requestAppendEntries : Within (Records C) (requestAppendEntries ctx) := by
  refine within_get.bind fun s => within_ite (within_commit _) ?_
  refine within_each (fun p => ?_) _
  exact (within_requestAppendEntriesTo p.uid).bind fun _ => within_pure _

/-! ## Elections -/

theorem within_becomeLeader : Within (Records C) (becomeLeader ctx) := by
  refine within_update_bind (fun _ => ⟨rfl, rfl, rfl, rfl⟩) (within_get.bind fun s => ?_)
  refine Within.bind (within_when ?_) fun _ => within_requestAppendEntries
  refine within_modify fun s => ?_
  have hset : Records C s [] (s.setConfig (s.config.setLogIdx s.nextSlot)) := .changeConfig id
  exact ⟨hset.saved, hset.sent, hset.config⟩

theorem within_updateTerm (t : Nat) : Within (Records C) (updateTerm t) := by
  refine within_get.bind fun s => within_ite ?_ (within_pure _)
  exact within_modify_bind (records_enterTerm t) (within_pure _)

theorem within_requestVote : Within (Records C) (requestVote ctx) := by
  refine within_modify_bind (fun s => .save rfl rfl rfl) (within_get.bind fun s => within_ite ?_ ?_)
  · exact within_update_bind (fun _ => ⟨rfl, rfl, rfl, rfl⟩) within_becomeLeader
  · refine within_each (fun p => within_get.bind fun s => (within_termForLog _).bind fun t => ?_) _
    exact within_sendReq _ _ _ _

theorem within_handleVotingResp (resp : RespMsg) :
    Within (Records C) (handleVotingResp ctx resp) := by
  refine within_get.bind fun s => within_ite (within_pure _) ?_
  refine within_update_bind (fun _ => ⟨rfl, rfl, rfl, rfl⟩) (within_get.bind fun s => ?_)
  exact within_when (within_update_bind (fun _ => ⟨rfl, rfl, rfl, rfl⟩) within_becomeLeader)

/-! ## Saving a configuration -/

theorem records_keepConfig (hcopy : CopiesIn C) {c saved : ClusterConfig} (hC : C c.servers)
    (hsaved : c.copied = some saved) (s : Server) : Records C s [] (s.keepConfig saved) :=
  .setConfig rfl rfl fun hs => ⟨hs.1, hcopy c saved hC hsaved⟩

/-- The election timer fires. A server that is stepping down saves the configuration without
itself. -/
theorem walks_handleElectionTimeout (hcopy : CopiesIn C)
    (hC : 0 < s.stepsToDown → C (leaveConfig s).config.servers) :
    Walks (Records C) (handleElectionTimeout ctx) s fun _ _ => True := by
  have hrestart : Within (Records C) (modify restartElectionTimer : M Unit) :=
    within_update sameSaved_restartElectionTimer
  refine walks_get_bind (walks_ite (fun hdown => ?_) fun _ => ?_)
  · refine walks_modify_bind (.same ⟨rfl, rfl, rfl, rfl⟩) (walks_ite (fun _ => ?_) fun _ => hrestart _)
    refine walks_bind (R := fun _ _ => True) (walks_when (fun _ => ?_) fun _ => trivial)
      fun _ _ _ => within_exitWith _ _ _
    refine walks_modify_bind (.changeConfig fun _ => hC hdown) (walks_get_bind ?_)
    exact within_saveConfig (fun _ => records_keepConfig hcopy (hC hdown)) _
  · have hstand : Within (Records C) (do
        modify becomeCandidate
        requestVote ctx
        modify fun s => if s.role = .leader then s else s.restartElectionTimer) := by
      refine within_modify_bind (fun s => .save rfl rfl rfl) (within_requestVote.bind fun _ => ?_)
      refine within_update fun s => ?_
      split
      · exact ⟨rfl, rfl, rfl, rfl⟩
      · exact sameSaved_restartElectionTimer s
    exact within_ite hrestart (within_ite (within_exitWith _ _) hstand) s

/-! ## Configurations -/

theorem sameSaved_addConfigured (ctx : Context) (srvs : List SrvConfig) (s : Server) :
    SameSaved s (srvs.foldl (addConfigured ctx) s) := by
  obtain ⟨ps, j, n, hfold⟩ := foldl_addConfigured_frame ctx srvs s
  rw [hfold]
  exact ⟨rfl, rfl, rfl, rfl⟩

/-- `reconfigure` leaves the old configuration or the new one in use. -/
theorem walks_reconfigure (hcopy : CopiesIn C) {c : ClusterConfig} (hC : C c.servers) :
    Walks (Records C) (reconfigure ctx c) s fun _ s' => s'.config = s.config ∨ s'.config = c := by
  have hadd := sameSaved_addConfigured ctx
    (c.servers.filter fun srv => (s.findPeer srv.id).isNone ∧ srv.id ≠ s.id) s
  have hconf : ((c.servers.filter fun srv => (s.findPeer srv.id).isNone ∧ srv.id ≠ s.id).foldl
      (addConfigured ctx) s).config = s.config := by
    obtain ⟨ps, j, n, hfold⟩ := foldl_addConfigured_frame ctx
      (c.servers.filter fun srv => (s.findPeer srv.id).isNone ∧ srv.id ≠ s.id) s
    rw [hfold]
  refine walks_get_bind (walks_modify_bind (.same hadd) ?_)
  refine walks_modify_bind (.same ⟨rfl, rfl, rfl, rfl⟩)
    (walks_get_bind (walks_ite (fun _ => ?_) fun _ => ?_))
  · refine walks_bind (R := fun _ s' => s'.config = s.config) ?_ fun _ s' h =>
      walks_emit (.note rfl s') (.inl h)
    exact walks_saveConfig fun saved hsaved => ⟨records_keepConfig hcopy hC hsaved _, hconf⟩
  · exact walks_modify (.setConfig rfl rfl fun hs => ⟨hC, hs.2⟩) (.inr rfl)

theorem within_reconfigure (hcopy : CopiesIn C) {c : ClusterConfig} (hC : C c.servers) :
    Within (Records C) (reconfigure ctx c) :=
  fun _ => (walks_reconfigure hcopy hC).weaken fun _ _ _ => trivial

theorem within_applyConfig (hcopy : CopiesIn C) {c : ClusterConfig} (hC : C c.servers) :
    Within (Records C) (applyConfig ctx c) := by
  refine (within_orExit (within_saveConfig fun _ => records_keepConfig hcopy hC)
    (Records.note rfl)).bind fun _ => ?_
  refine within_update_bind (fun _ => ⟨rfl, rfl, rfl, rfl⟩) (within_get.bind fun s => ?_)
  refine (within_when (within_reconfigure hcopy hC)).bind fun _ => within_update fun s => ?_
  split <;> exact ⟨rfl, rfl, rfl, rfl⟩

theorem within_snapshotAndCompact (idx : Nat) :
    Within (Records C) (snapshotAndCompact ctx idx) := by
  refine within_get.bind fun s => within_ite ?_ (within_pure _)
  split
  · exact within_emit (Records.note rfl)
  · exact within_emit (Records.note rfl)
  · exact within_throw _
  · exact within_pure _
  · refine within_ite ?_ (within_pure _)
    refine (within_when (within_emit (Records.note rfl))).bind fun _ => ?_
    exact within_update fun _ => ⟨rfl, rfl, rfl, rfl⟩

theorem within_applyEntry (hcopy : CopiesIn C) (idx : Nat) {e : LogEntry}
    (hC : ∀ c, e.buf = .config c → C c.servers) :
    Within (Records C) (applyEntry ctx idx e) := by
  unfold applyEntry
  split
  · exact within_emit_bind (Records.note rfl) (within_when (within_exitWith _ _))
  · split
    next c hc => exact within_applyConfig hcopy (hC c hc)
    next => exact within_exitWith _ _
  · exact within_pure _

/-- A round of the background thread may save the configuration that it applies. -/
theorem walks_commitInBg (hcopy : CopiesIn C)
    (hC : ∀ c, (s.logStore.entryAt (s.smCommitIndex + 1)).buf = .config c → C c.servers) :
    Walks (Records C) (commitInBg ctx) s fun _ _ => True := by
  refine walks_get_bind (walks_when (fun _ => ?_) fun _ => trivial)
  refine walks_modify_bind (.same ⟨rfl, rfl, rfl, rfl⟩) (walks_emit_bind (.note rfl _) ?_)
  exact ((within_applyEntry hcopy _ hC).bind fun _ => within_snapshotAndCompact _) _

/-! ## Requests -/

theorem within_preCommit (idx : Nat) (buf : Payload) :
    Within (Records C) (preCommit ctx idx buf) :=
  within_emit_bind (Records.note rfl) (within_when (within_throw _))

theorem within_noteEntry (idx : Nat) (e : LogEntry) :
    Within (Records C) (noteEntry ctx idx e) := by
  unfold noteEntry
  split
  · exact within_preCommit _ _
  · exact within_update fun _ => ⟨rfl, rfl, rfl, rfl⟩
  · exact within_pure _

theorem within_revertEntry (idx : Nat) (e : LogEntry) : Within (Records C) (revertEntry idx e) := by
  unfold revertEntry
  split
  · exact within_emit (Records.note rfl)
  · exact within_update fun _ => ⟨rfl, rfl, rfl, rfl⟩
  · exact within_pure _

theorem within_overwriteEntries (idx : Nat) (es : List LogEntry) :
    Within (Records C) (overwriteEntries ctx idx es) := by
  induction es generalizing idx with
  | nil => exact within_pure _
  | cons e es ih =>
    refine within_get.bind fun s => within_ite ?_ (within_pure _)
    refine (within_revertEntry _ _).bind fun _ => ?_
    refine within_update_bind (fun _ => ⟨rfl, rfl, rfl, rfl⟩) ?_
    exact (within_noteEntry _ _).bind fun _ => ih _

theorem within_writeEntries (req : ReqMsg) : Within (Records C) (writeEntries ctx req) := by
  refine within_get.bind fun s => (within_overwriteEntries _ _).bind fun rest => ?_
  refine within_each (fun e => within_get.bind fun s => ?_) _
  exact within_update_bind (fun _ => ⟨rfl, rfl, rfl, rfl⟩) (within_noteEntry _ _)

theorem within_hearLeader (e : RaftException) : Within (Records C) (hearLeader e) := by
  refine within_get.bind fun s => ?_
  cases s.role with
  | candidate => exact within_update sameSaved_becomeFollower
  | leader => exact within_exitWith _ _
  | follower => exact within_update sameSaved_restartElectionTimer

theorem within_handleAppendEntries (req : ReqMsg) :
    Within (Records C) (handleAppendEntries ctx req) := by
  refine within_get.bind fun s => (within_when (within_hearLeader _)).bind fun _ => ?_
  have hokay : Within (Records C) (logOkay req) :=
    within_get.bind fun s => within_ite (within_pure _)
      (within_ite ((within_termForLog _).bind fun _ => within_pure _) (within_pure _))
  refine within_get.bind fun s => hokay.bind fun okay => within_ite (within_pure _) ?_
  refine (within_writeEntries req).bind fun _ => ?_
  refine within_update_bind (fun _ => ⟨rfl, rfl, rfl, rfl⟩) ?_
  exact (within_commit _).bind fun _ => within_pure _

theorem within_handleVoteReq (req : ReqMsg) : Within (Records C) (handleVoteReq req) := by
  refine within_get.bind fun s => within_ite ?_ (within_pure _)
  exact within_modify_bind (fun s => .save rfl rfl rfl) (within_pure _)

theorem within_handleCliReq (req : ReqMsg) (now : Int) :
    Within (Records C) (handleCliReq ctx req now) := by
  have hexpired : Within (Records C) (leaderExpired ctx now) :=
    within_get.bind fun s => within_ite
      (within_update_bind (fun _ => ⟨rfl, rfl, rfl, rfl⟩) (within_pure _)) (within_pure _)
  refine hexpired.bind fun expired => within_get.bind fun s => within_ite (within_pure _) ?_
  refine within_ite (within_pure _) ?_
  refine (within_each (fun e => ?_) _).bind fun _ => within_requestAppendEntries.bind fun _ => ?_
  · refine within_update_bind (fun _ => ⟨rfl, rfl, rfl, rfl⟩) (within_get.bind fun s => ?_)
    exact within_preCommit _ _
  · exact within_get.bind fun s => within_pure _

theorem within_handleAddSrvReq (req : ReqMsg) : Within (Records C) (handleAddSrvReq ctx req) := by
  refine within_get.bind fun s => ?_
  dsimp only
  split
  · refine within_ite (within_pure _) ?_
    split
    · refine within_ite (within_throw _) (within_ite (within_pure _) ?_)
      refine within_update_bind (fun _ => ⟨rfl, rfl, rfl, rfl⟩) ?_
      refine Within.bind ?_ fun _ => within_pure _
      exact within_get.bind fun s => (within_orThrow _ _).bind fun p => within_sendReq _ _ _ _
    · exact within_throw _
  · exact within_pure _

theorem within_handleRmSrvReq (req : ReqMsg) : Within (Records C) (handleRmSrvReq req) := by
  refine within_get.bind fun s => ?_
  dsimp only
  split
  · refine within_ite (within_pure _) ?_
    split
    · exact within_pure _
    · exact (within_sendReq _ _ _ _).bind fun _ => within_pure _
  · exact within_pure _

theorem within_handleLogSyncReq (req : ReqMsg) : Within (Records C) (handleLogSyncReq ctx req) := by
  refine within_get.bind fun s => ?_
  dsimp only
  split
  · refine within_ite (within_pure _) ?_
    split
    · refine within_update_bind (fun _ => ⟨rfl, rfl, rfl, rfl⟩) (within_get.bind fun s => ?_)
      exact (within_commit _).bind fun _ => within_pure _
    · exact within_throw _
  · exact within_pure _

theorem within_handleJoinClusterReq (hcopy : CopiesIn C) {req : ReqMsg}
    (hC : ∀ c, req.Offers c → C c.servers) :
    Within (Records C) (handleJoinClusterReq ctx req) := by
  refine within_get.bind fun s => ?_
  dsimp only
  split
  next entry hentry =>
    refine within_ite (within_pure _) (within_modify_bind (fun s => .save rfl rfl rfl) ?_)
    split
    next c hc =>
      have hoffer : req.Offers c := ⟨entry, by simp [hentry], .inl hc⟩
      refine within_ite (within_throw _) ?_
      exact (within_reconfigure hcopy (hC c hoffer)).bind fun _ => within_pure _
    next => exact within_throw _
  next => exact within_pure _

theorem within_handleLeaveClusterReq (req : ReqMsg) :
    Within (Records C) (handleLeaveClusterReq req) := by
  refine within_get.bind fun s => within_ite (within_pure _) ?_
  exact within_update_bind (fun _ => ⟨rfl, rfl, rfl, rfl⟩) (within_pure _)

/-- A snapshot from the leader is installed. What is saved is the configuration in use. -/
theorem walks_handleSnapshotSyncReq (hcopy : CopiesIn C) {sync : SnapshotSyncReq}
    (hs : C s.config.servers) (hC : C sync.snapshot.lastConfig.servers) :
    Walks (Records C) (handleSnapshotSyncReq ctx sync) s fun _ _ => True := by
  refine walks_emit_bind (.note rfl s) (walks_when (fun _ => walks_get_bind ?_) fun _ => trivial)
  refine walks_bind (R := fun _ s' => s' = s) (walks_when (fun _ => ?_) fun _ => rfl) ?_
  · exact walks_emit_bind (.note rfl s) (walks_emit_bind (.note rfl s) walks_throw)
  rintro _ s rfl
  refine walks_emit_bind (.note rfl s) (walks_modify_bind (.same ⟨rfl, rfl, rfl, rfl⟩) ?_)
  refine walks_modify_bind (.same ⟨rfl, rfl, rfl, rfl⟩) ?_
  refine walks_bind (R := fun _ s' => s'.config = s.config)
    (walks_when (fun _ => ?_) fun _ => rfl) ?_
  · exact walks_emit_bind (.note rfl _) (walks_emit_bind (.note rfl _) walks_throw)
  intro _ s₁ h₁
  refine walks_modify_bind (.same ⟨rfl, rfl, rfl, rfl⟩) (walks_bind (R := fun _ _ => True)
    (walks_catching ?_ fun _ s' => within_exitWith _ _ s') fun _ s₃ _ => ?_)
  · refine walks_bind (walks_reconfigure hcopy hC) fun _ s₂ h₂ => walks_get_bind ?_
    have hC₂ : C s₂.config.servers := by
      rcases h₂ with h₂ | h₂
      · rw [h₂]
        exact h₁ ▸ hs
      · exact h₂ ▸ hC
    exact within_saveConfig (fun _ => records_keepConfig hcopy hC₂) s₂
  · refine walks_modify_bind (.save rfl rfl rfl) ?_
    exact within_update sameSaved_restartElectionTimer _

theorem config_hearLeader (e : RaftException) :
    Walks (Records C) (hearLeader e) s fun _ s' => s'.config = s.config := by
  refine walks_get_bind ?_
  cases s.role with
  | candidate =>
    exact walks_modify (.same (sameSaved_becomeFollower s))
      ((keeps_becomeFollower s).field Server.config)
  | leader => exact walks_emit_bind (.note rfl s) walks_throw
  | follower =>
    exact walks_modify (.same (sameSaved_restartElectionTimer s))
      ((quiet_restartElectionTimer s).field Server.config)

theorem walks_handleInstallSnapshotReq (hcopy : CopiesIn C) {req : ReqMsg} (hs : C s.config.servers)
    (hC : ∀ c, req.Offers c → C c.servers) :
    Walks (Records C) (handleInstallSnapshotReq ctx req) s fun _ _ => True := by
  refine walks_get_bind (walks_bind (R := fun _ s' => s'.config = s.config)
    (walks_when (fun _ => config_hearLeader _) fun _ => rfl) fun _ s₁ h₁ => walks_get_bind ?_)
  refine walks_ite (fun _ => walks_pure trivial) fun _ => ?_
  split
  next entry hentry =>
    refine walks_ite (fun _ => walks_pure trivial) fun _ => ?_
    split
    next sync hsync =>
      have hoffer : req.Offers sync.snapshot.lastConfig :=
        ⟨entry, by simp [hentry], .inr ⟨sync, hsync, rfl⟩⟩
      refine walks_ite (fun _ => walks_throw) fun _ => ?_
      refine walks_ite (fun _ => walks_pure trivial) fun _ => ?_
      refine walks_bind (walks_handleSnapshotSyncReq hcopy (h₁ ▸ hs) (hC _ hoffer)) fun _ _ _ => ?_
      exact walks_pure trivial
    next => exact walks_throw
  next => exact walks_pure trivial

theorem walks_processReq (hcopy : CopiesIn C) {req : ReqMsg} (now : Int) (hs : C s.config.servers)
    (hC : ∀ c, req.Offers c → C c.servers) :
    Walks (Records C) (processReq ctx req now) s fun _ _ => True := by
  have hterm : Walks (Records C) (when (req.type.bringsTerm) do
      let _ ← updateTerm req.term
      modify fun s => if 0 < s.stepsToDown then { s with stepsToDown := 2 } else s) s
      fun _ s' => s'.config = s.config := by
    refine walks_when (fun _ => walks_bind (R := fun _ s' => s'.config = s.config) ?_ ?_)
      fun _ => rfl
    · refine walks_get_bind (walks_ite (fun _ => ?_) fun _ => walks_pure rfl)
      refine walks_modify_bind (records_enterTerm _ s) (walks_pure ?_)
      exact (keeps_enterTerm _ s).field Server.config
    · intro _ s₁ h₁
      refine walks_modify (.same ?_) ?_
      · split <;> exact ⟨rfl, rfl, rfl, rfl⟩
      · split <;> exact h₁
  refine walks_bind hterm fun _ s₁ h₁ => ?_
  split
  · exact within_handleAppendEntries req s₁
  · exact within_handleVoteReq req s₁
  · exact within_handleCliReq req now s₁
  · unfold handleExtendedMsg
    split
    · exact within_handleAddSrvReq req s₁
    · exact within_handleRmSrvReq req s₁
    · exact within_handleLogSyncReq req s₁
    · exact within_handleJoinClusterReq hcopy hC s₁
    · exact within_handleLeaveClusterReq req s₁
    · exact walks_handleInstallSnapshotReq hcopy (h₁ ▸ hs) hC
    · exact within_exitWith _ _ s₁

/-! ## Responses -/

theorem within_catchUp (uid : Nat) (need : Bool) : Within (Records C) (catchUp ctx uid need) := by
  refine within_get.bind fun s => within_when ?_
  exact (within_requestAppendEntriesTo uid).bind fun _ => within_pure _

theorem within_clearPendingCommit (uid : Nat) : Within (Records C) (clearPendingCommit uid) :=
  within_get.bind fun _ => within_update_bind (sameSaved_onPeer uid _) (within_pure _)

theorem within_handleAppendEntriesResp (resp : RespMsg) :
    Within (Records C) (handleAppendEntriesResp ctx resp) := by
  refine within_get.bind fun s => ?_
  split
  · exact within_pure _
  · refine within_ite (within_update_bind (sameSaved_onPeer _ _) ?_)
      (within_update_bind (sameSaved_onPeer _ _) (within_catchUp _ _))
    refine within_get.bind fun s => (within_commit _).bind fun _ => ?_
    refine (within_clearPendingCommit _).bind fun _ => within_get.bind fun s => ?_
    exact within_catchUp _ _

theorem within_handleInstallSnapshotResp (resp : RespMsg) :
    Within (Records C) (handleInstallSnapshotResp ctx resp) := by
  refine within_get.bind fun s => ?_
  split
  · exact within_pure _
  · refine within_ite ?_ (within_catchUp _ _)
    split
    · exact within_pure _
    · refine within_update_bind (sameSaved_onPeer _ _) (within_ite ?_ (within_catchUp _ _))
      refine (within_clearPendingCommit _).bind fun _ => within_get.bind fun s => ?_
      exact within_catchUp _ _

theorem within_handlePeerResp (resp : RespMsg) (now : Int) :
    Within (Records C) (handlePeerResp ctx resp now) := by
  refine within_update_bind (fun _ => ⟨rfl, rfl, rfl, rfl⟩)
    ((within_updateTerm _).bind fun updated => ?_)
  refine within_ite (within_pure _) ?_
  split
  · exact within_handleVotingResp resp
  · exact within_handleAppendEntriesResp resp
  · exact within_handleInstallSnapshotResp resp
  · exact within_exitWith _ _

theorem within_syncLogToNewSrv (startIdx : Nat) :
    Within (Records C) (syncLogToNewSrv ctx startIdx) := by
  refine within_get.bind fun s => (within_orThrow _ _).bind fun p => ?_
  refine within_ite ?_ (within_ite ?_ ?_)
  · refine (within_orThrow _ _).bind fun srv => ?_
    exact within_update_bind (fun _ => ⟨rfl, rfl, rfl, rfl⟩) within_requestAppendEntries
  · exact (within_createSyncSnapshotReq _ _ _ _).bind fun req => within_sendReq _ _ _ _
  · refine within_emit_bind (Records.note rfl) ((within_orThrow _ _).bind fun pack => ?_)
    exact within_sendReq _ _ _ _

theorem within_rmSrvFromCluster (srvId : Int) :
    Within (Records C) (rmSrvFromCluster ctx srvId) :=
  within_update_bind (fun _ => ⟨rfl, rfl, rfl, rfl⟩) within_requestAppendEntries

theorem within_handleExtResp (resp : RespMsg) : Within (Records C) (handleExtResp ctx resp) := by
  refine within_get.bind fun s => ?_
  split
  · exact within_when (within_update_bind (fun _ => ⟨rfl, rfl, rfl, rfl⟩) (within_syncLogToNewSrv _))
  · exact within_when (within_syncLogToNewSrv _)
  · exact within_when (within_rmSrvFromCluster _)
  · split
    · exact within_pure _
    · refine within_ite (within_pure _) ?_
      split
      · exact within_exitWith _ _
      · refine within_update_bind (fun _ => ⟨rfl, rfl, rfl, rfl⟩) (within_get.bind fun s => ?_)
        exact (within_orThrow _ _).bind fun p => within_syncLogToNewSrv _
  · exact within_exitWith _ _

theorem within_handleExtRespErr (req : ReqMsg) : Within (Records C) (handleExtRespErr ctx req) := by
  refine within_get.bind fun s => ?_
  split
  · exact within_pure _
  · refine within_ite (within_ite (within_update_bind (fun s => ?_)
      (within_rmSrvFromCluster _)) ?_) ?_
    · unfold dropOnlyPeer
      split <;> exact ⟨rfl, rfl, rfl, rfl⟩
    · exact within_update fun _ => ⟨rfl, rfl, rfl, rfl⟩
    · exact within_update_bind (sameSaved_onPeer _ _) (within_emit (Records.note rfl))

/-! ## Inputs -/

/-- **What a handler saves.** -/
theorem walks_handle (hcopy : CopiesIn C) {inp : Input} (hin : inp.SavesIn C s) :
    Walks (Records C) (inp.handle ctx) s fun _ _ => True := by
  have hpure {α β : Type} {x : M α} {f : α → β} (h : Walks (Records C) x s fun _ _ => True) :
      Walks (Records C) (x >>= fun a => pure (f a)) s fun _ _ => True :=
    walks_bind h fun _ _ _ => walks_pure trivial
  cases inp with
  | electionTimeout => exact hpure (walks_handleElectionTimeout hcopy hin)
  | hbTimeout uid =>
    refine hpure (walks_get_bind (walks_when (fun _ => ?_) fun _ => trivial))
    refine walks_bind (within_requestAppendEntriesTo uid s) fun _ s₁ _ => ?_
    exact walks_modify (.same (sameSaved_onPeer uid _ s₁)) trivial
  | request req now => exact hpure (walks_processReq hcopy now hin.1 hin.2)
  | response rpc resp now =>
    refine hpure (walks_modify_bind (.same (sameSaved_onPeer _ _ s)) ?_)
    cases rpc.handler with
    | peerResp => exact within_handlePeerResp resp now _
    | extResp => exact within_handleExtResp resp _
  | failure rpc =>
    refine hpure (walks_modify_bind (.same (sameSaved_onPeer _ _ s)) ?_)
    cases rpc.handler with
    | peerResp => exact walks_pure trivial
    | extResp => exact within_handleExtRespErr rpc.req _
  | resend rpc => exact hpure (within_sendReq _ _ _ _ s)
  | commitBg => exact hpure (walks_commitInBg hcopy hin)

/-- An input, as a whole. -/
theorem records_handle (ctx : Context) (hcopy : CopiesIn C) {inp : Input} (hin : inp.SavesIn C s) :
    Records C s (inp.handle ctx s).out (inp.handle ctx s).state :=
  (walks_handle hcopy hin).1.fold .refl fun _ _ _ _ _ h h' => h.trans h'

end Durable

end EnclaveRaft
