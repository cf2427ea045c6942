import EnclaveRaft.Walks

/-!
# The handlers of membership requests

The small steps of `Steps.lean` do not tell which of the membership handlers sends what: a leave
response might as well start a log sync, as far as they know. Here these handlers are resolved on
their own, for a relation `m` on states and outputs.

`Serves` lists what `m` has to allow in any case: what leaves the log alone and sends nothing, and
requests to peers. What else a handler does is a hypothesis of the lemma about it: the configuration
that it appends, and the requests that it sends with the handler of membership responses.
-/

namespace EnclaveRaft

open Act Server

variable {ctx : Context} {m : Server → List Effect → Server → Prop} {s : Server}

/-- No request is sent, now or later, and no part of the log is packed for one. -/
def Effect.Mute : Effect → Prop
  | .send _ => False
  | .retry _ => False
  | .pack _ _ => False
  | _ => True

/-- The relation allows whatever leaves the log alone and sends nothing, and requests to peers. -/
structure Serves (m : Server → List Effect → Server → Prop) : Prop where
  calm {s s' : Server} {o : List Effect} (hlog : s'.logStore = s.logStore)
    (ho : ∀ e ∈ o, e.Mute) : m s o s'
  peer {s : Server} {uid : Nat} {target : Int} {req : ReqMsg}
    (htype : req.type ≠ .syncLogRequest) : m s [.send ⟨.peerResp, uid, target, req, s⟩] s

namespace Serves

theorem silent (h : Serves m) {s s' : Server} (hlog : s'.logStore = s.logStore) : m s [] s' :=
  h.calm hlog fun _ he => absurd he List.not_mem_nil

theorem note (h : Serves m) (s : Server) {e : Effect} (he : e.Mute) : m s [e] s := by
  refine h.calm rfl fun x hx => ?_
  rw [List.mem_singleton.1 hx]
  exact he

theorem exits {α : Type} (h : Serves m) (code : Int) (e : RaftException) :
    Within m (exitWith code e : M α) :=
  within_emit_bind (fun s => h.note s trivial) (within_throw e)

/-! ## Requests to peers -/

theorem termForLog (h : Serves m) (idx : Nat) : Within m (EnclaveRaft.termForLog idx) := by
  refine within_get.bind fun s => within_ite (within_pure _) (within_ite (within_pure _) ?_)
  split
  · exact within_ite (within_pure _) (h.exits _ _)
  · exact h.exits _ _

theorem snapshotBlock (h : Serves m) (p : Peer) (sync : SnapshotSyncCtx) (term commitIdx : Nat)
    (s : Server) :
    Walks m (EnclaveRaft.snapshotBlock ctx p sync term commitIdx) s fun req _ =>
      req.type = .installSnapshotRequest := by
  refine walks_get_bind (walks_ite (fun _ => walks_throw) fun _ => ?_)
  refine walks_ite (fun _ => ?_) fun _ => walks_ite (fun _ => walks_throw) fun _ => walks_pure rfl
  exact walks_emit_bind (h.note s trivial) walks_throw

theorem createSyncSnapshotReq (h : Serves m) (uid lastLogIdx term commitIdx : Nat) (s : Server) :
    Walks m (EnclaveRaft.createSyncSnapshotReq ctx uid lastLogIdx term commitIdx) s
      fun req _ => req.type = .installSnapshotRequest := by
  have hstart : ∀ p, Within m (startSnapshotSync uid lastLogIdx p) := by
    intro p
    refine within_get.bind fun s => ?_
    split
    · exact within_throw _
    · refine within_ite (h.exits _ _) (within_ite (h.exits _ _) ?_)
      exact within_modify fun s => h.silent rfl
  refine walks_get_bind (walks_orThrow_bind fun p _ => ?_)
  refine walks_bind (within_when (hstart p) s) fun _ s₁ _ => walks_get_bind ?_
  exact walks_orThrow_bind fun sync _ => h.snapshotBlock p sync term commitIdx s₁

theorem createAppendEntriesReq (h : Serves m) (uid : Nat) (s : Server) :
    Walks m (EnclaveRaft.createAppendEntriesReq ctx uid) s fun req _ =>
      req.type ≠ .syncLogRequest := by
  refine walks_modify_bind (h.silent rfl) (walks_get_bind (walks_orThrow_bind fun p _ => ?_))
  refine walks_ite (fun _ => ?_) fun _ => walks_ite (fun _ => ?_) fun _ => ?_
  · exact walks_emit_bind (h.note _ trivial) walks_throw
  · exact (h.createSyncSnapshotReq _ _ _ _ _).weaken fun req _ htype => by simp [htype]
  · refine walks_bind (h.termForLog _ _) fun t s₁ _ => walks_orThrow_bind fun es _ => ?_
    exact walks_pure (by simp)

theorem requestAppendEntriesTo (h : Serves m) (uid : Nat) :
    Within m (EnclaveRaft.requestAppendEntriesTo ctx uid) := by
  intro s
  refine walks_get_bind (walks_orThrow_bind fun p _ => ?_)
  refine walks_ite (fun _ => walks_pure trivial) fun _ => walks_modify_bind (h.silent rfl) ?_
  refine walks_bind (h.createAppendEntriesReq uid _) fun req s₁ hne => ?_
  have hsend : Walks m (sendReq uid p.id req .peerResp) s₁ fun _ _ => True :=
    walks_get_bind (walks_emit (h.peer hne) trivial)
  exact walks_bind hsend fun _ _ _ => walks_pure trivial

theorem commit (h : Serves m) (targetIdx : Nat) :
    Within m (EnclaveRaft.commit ctx targetIdx) := by
  refine within_get.bind fun s => within_when (within_modify_bind (fun _ => h.silent rfl) ?_)
  refine within_when (within_each (fun p => ?_) _)
  refine (h.requestAppendEntriesTo p.uid).bind fun sent => ?_
  exact within_ite (within_pure _) (within_modify fun _ => h.silent rfl)

theorem requestAppendEntries (h : Serves m) : Within m (EnclaveRaft.requestAppendEntries ctx) := by
  refine within_get.bind fun s => within_ite (h.commit _) ?_
  exact within_each (fun p : Peer => (h.requestAppendEntriesTo p.uid).bind fun _ => within_pure _) _

/-! ## Responses -/

/-- The relation allows the requests of a log sync. -/
structure Syncs (m : Server → List Effect → Server → Prop) : Prop extends Serves m where
  block {s : Server} {uid : Nat} {target : Int} {req : ReqMsg}
    (htype : req.type = .installSnapshotRequest) :
    m s [.send ⟨.extResp, uid, target, req, s⟩] s
  packCall {s : Server} {i : Nat} {c : Int} : m s [.pack i c] s
  pack {s : Server} {uid : Nat} {target : Int} {req : ReqMsg} {i : Nat} {c : Int}
    {es : List (Nat × LogValType × Payload)} (htype : req.type = .syncLogRequest)
    (hpack : s.logStore.pack i c = some es) (hreq : req.logEntries = [⟨s.term, .logPack, .pack es⟩])
    (hlast : req.lastLogIdx = usub i 1) (hsrc : req.src = s.id) :
    m s [.send ⟨.extResp, uid, target, req, s⟩] s

theorem syncLogToNewSrv (h : Syncs m) {startIdx : Nat}
    (hconf : ∀ c, Input.joinedConfig ctx s startIdx = some c → m s [] (appendConfig c s)) :
    Walks m (EnclaveRaft.syncLogToNewSrv ctx startIdx) s fun _ _ => True := by
  refine walks_get_bind (walks_orThrow_bind fun p _ => walks_ite (fun hgap => ?_) fun _ => ?_)
  · refine walks_orThrow_bind fun srv hsrv => walks_modify_bind (hconf _ ?_) ?_
    · rw [Input.joinedConfig, if_pos hgap, hsrv]
      rfl
    · exact h.requestAppendEntries _
  refine walks_ite (fun _ => ?_) fun _ => walks_emit_bind h.packCall
    (walks_orThrow_bind fun pack hpack => ?_)
  · refine walks_bind (h.createSyncSnapshotReq _ _ _ _ _) fun req s₁ htype => ?_
    exact walks_get_bind (walks_emit (h.block htype) trivial)
  · exact walks_get_bind (walks_emit (h.pack rfl hpack rfl rfl rfl) trivial)

theorem rmSrvFromCluster (h : Serves m) {id : Int}
    (hconf : m s [] (appendConfig (configWithout s id) s)) :
    Walks m (EnclaveRaft.rmSrvFromCluster ctx id) s fun _ _ => True :=
  walks_modify_bind hconf (h.requestAppendEntries _)

/-- Responses that carry on with a log sync. -/
theorem handleExtResp (h : Syncs m) {resp : RespMsg}
    (hconf : ∀ s' c, Input.extConfig ctx s resp = some c → m s' [] (appendConfig c s')) :
    Walks m (EnclaveRaft.handleExtResp ctx resp) s fun _ _ => True := by
  refine walks_get_bind ?_
  split
  next htype =>
    refine walks_when (fun hsome => ?_) fun _ => trivial
    obtain ⟨p, hp⟩ := Option.isSome_iff_exists.1 hsome
    refine walks_modify_bind (h.silent rfl) (syncLogToNewSrv h fun c hc => hconf _ c ?_)
    rw [Input.extConfig, htype, hp]
    exact hc
  next htype =>
    refine walks_when (fun hacc => syncLogToNewSrv h fun c hc => hconf _ c ?_) fun _ => trivial
    obtain ⟨p, hp⟩ := Option.isSome_iff_exists.1 hacc.1
    simp only [Input.extConfig, htype, hp, hacc.2, if_true, hc]
  next htype =>
    refine walks_when (fun hacc => h.rmSrvFromCluster (hconf _ _ ?_)) fun _ => trivial
    simp only [Input.extConfig, htype, hacc, if_true]
  next htype =>
    split
    next => exact walks_pure trivial
    next p hp =>
      refine walks_ite (fun _ => walks_pure trivial) fun hacc => ?_
      split
      next => exact h.exits _ _ s
      next sync hsync =>
        refine walks_modify_bind (h.silent rfl) (walks_get_bind ?_)
        refine walks_orThrow_bind fun p' hp' => syncLogToNewSrv h fun c hc => hconf _ c ?_
        have hp'' : p' = _ := Option.some.inj (hp'.symm.trans (congrArg (Option.map _) hp))
        subst hp''
        simp only [Input.extConfig, htype, hp, not_not.1 hacc, if_true, hsync, Option.bind_some]
        exact hc
  next => exact h.exits _ _ s

/-- A leave response starts no log sync. -/
theorem handleExtResp_leave (h : Serves m) {resp : RespMsg}
    (htype : resp.type = .leaveClusterResponse)
    (hconf : ∀ s' c, Input.extConfig ctx s resp = some c → m s' [] (appendConfig c s')) :
    Walks m (EnclaveRaft.handleExtResp ctx resp) s fun _ _ => True := by
  refine walks_get_bind ?_
  simp only [htype]
  refine walks_when (fun hacc => h.rmSrvFromCluster (hconf _ _ ?_)) fun _ => trivial
  simp only [Input.extConfig, htype, hacc, if_true]

theorem handleExtRespErr (h : Serves m) {req : ReqMsg}
    (hconf : ∀ s' c, Input.failConfig ctx s req = some c → m s' [] (appendConfig c s'))
    (hretry : ∀ s' p, retryPeer req s = some p →
      m s' [.retry ⟨.extResp, p.uid, p.id, req, s⟩] s') :
    Walks m (EnclaveRaft.handleExtRespErr ctx req) s fun _ _ => True := by
  refine walks_get_bind ?_
  split
  next => exact walks_pure trivial
  next p hp =>
    refine walks_ite (fun hmax => walks_ite (fun hleave => ?_) fun _ => ?_) fun _ => ?_
    · obtain ⟨ps, -, hdrop⟩ := dropOnlyPeer_frame p.id s
      refine walks_modify_bind (h.silent (by rw [hdrop])) ?_
      rw [hdrop]
      have hfind : s.findPeer req.dst = some p := by simpa [retryPeer, hleave] using hp
      refine h.rmSrvFromCluster (hconf _ _ ?_)
      show _ = some (configWithout s p.id)
      rw [Input.failConfig, if_pos hleave, hfind, Option.bind_some, if_pos hmax]
    · exact walks_modify (h.silent rfl) trivial
    · exact walks_modify_bind (h.silent rfl) (walks_emit (hretry _ p hp) trivial)

/-! ## Requests -/

theorem handleAddSrvReq (h : Serves m) {req : ReqMsg}
    (hjoin : ∀ s' target req, req.type = .joinClusterRequest →
      m s' [.send ⟨.extResp, s.nextUid, target, req, s'⟩] s') :
    Walks m (EnclaveRaft.handleAddSrvReq ctx req) s fun _ _ => True := by
  refine walks_get_bind ?_
  split
  · refine walks_ite (fun _ => walks_pure trivial) fun _ => ?_
    split
    next srv _ =>
      refine walks_ite (fun _ => walks_throw) fun _ => ?_
      refine walks_ite (fun _ => walks_pure trivial) fun _ => walks_modify_bind (h.silent rfl) ?_
      have hinvite : Walks m inviteSrvToJoinCluster
          { s with
            confToAdd := some srv
            srvToJoin := some (Peer.new ctx s.nextUid srv)
            nextUid := s.nextUid + 1 } fun _ _ => True := by
        refine walks_get_bind (walks_orThrow_bind fun p hp => ?_)
        cases hp
        exact walks_get_bind (walks_emit (hjoin _ _ _ rfl) trivial)
      exact walks_bind hinvite fun _ _ _ => walks_pure trivial
    next => exact walks_throw
  · exact walks_pure trivial

theorem handleRmSrvReq {req : ReqMsg}
    (hleave : ∀ s uid target req, req.type = .leaveClusterRequest →
      m s [.send ⟨.extResp, uid, target, req, s⟩] s) :
    Walks m (EnclaveRaft.handleRmSrvReq req) s fun _ _ => True := by
  refine walks_get_bind ?_
  split
  · refine walks_ite (fun _ => walks_pure trivial) fun _ => ?_
    split
    · exact walks_pure trivial
    next p _ =>
      refine walks_bind (R := fun _ _ => True) ?_ fun _ _ _ => walks_pure trivial
      exact walks_get_bind (walks_emit (hleave _ _ _ _ rfl) trivial)
  · exact walks_pure trivial

theorem handleLogSyncReq (h : Serves m) (hpack : ∀ s st, m s [] { s with logStore := st })
    (req : ReqMsg) : Within m (EnclaveRaft.handleLogSyncReq ctx req) := by
  refine within_get.bind fun s => ?_
  split
  · refine within_ite (within_pure _) ?_
    split
    · refine within_modify_bind (fun _ => hpack _ _) (within_get.bind fun s => ?_)
      exact (h.commit _).bind fun _ => within_pure _
    · exact within_throw _
  · exact within_pure _

theorem reconfigure (h : Serves m) (c : ClusterConfig) :
    Within m (EnclaveRaft.reconfigure ctx c) := by
  refine within_get.bind fun s => within_modify_bind (fun s' => h.silent ?_) ?_
  · obtain ⟨ps, j, n, hfold⟩ := foldl_addConfigured_frame ctx
      (c.servers.filter fun srv => (s.findPeer srv.id).isNone ∧ srv.id ≠ s.id) s'
    rw [hfold]
  refine within_modify_bind (fun _ => h.silent rfl) (within_get.bind fun s => within_ite ?_ ?_)
  · refine (within_saveConfig fun _ _ _ => h.silent rfl).bind fun _ => ?_
    exact within_emit fun s => h.note s trivial
  · exact within_modify fun _ => h.silent rfl

theorem handleJoinClusterReq (h : Serves m) (req : ReqMsg) :
    Within m (EnclaveRaft.handleJoinClusterReq ctx req) := by
  refine within_get.bind fun s => ?_
  split
  · refine within_ite (within_pure _) (within_modify_bind (fun _ => h.silent rfl) ?_)
    split
    · exact within_ite (within_throw _) ((h.reconfigure _).bind fun _ => within_pure _)
    · exact within_throw _
  · exact within_pure _

theorem handleLeaveClusterReq (h : Serves m) (req : ReqMsg) :
    Within m (EnclaveRaft.handleLeaveClusterReq req) := by
  refine within_get.bind fun s => within_ite (within_pure _) ?_
  exact within_modify_bind (fun _ => h.silent rfl) (within_pure _)

/-- The requests that `handle_extended_msg` is left with, apart from snapshots. -/
theorem handleExtendedMsg (h : Serves m) {req : ReqMsg} (hne : req.type ≠ .installSnapshotRequest)
    (hjoin : req.type = .addServerRequest → ∀ s' target req, req.type = .joinClusterRequest →
      m s' [.send ⟨.extResp, s.nextUid, target, req, s'⟩] s')
    (hleave : ∀ s uid target req, req.type = .leaveClusterRequest →
      m s [.send ⟨.extResp, uid, target, req, s⟩] s)
    (hpack : req.type = .syncLogRequest → ∀ s st, m s [] { s with logStore := st }) :
    Walks m (EnclaveRaft.handleExtendedMsg ctx req) s fun _ _ => True := by
  unfold EnclaveRaft.handleExtendedMsg
  split
  next htype => exact h.handleAddSrvReq (hjoin htype)
  next => exact handleRmSrvReq hleave
  next htype => exact h.handleLogSyncReq (hpack htype) req s
  next => exact h.handleJoinClusterReq req s
  next => exact h.handleLeaveClusterReq req s
  next htype => exact (hne htype).elim
  next => exact h.exits _ _ s

end Serves

/-! ## Inputs -/

section Inputs

variable {rpc : Rpc} {resp : RespMsg} {req : ReqMsg} {now : Int}

theorem walks_admin (hin : (Input.request req now).IsAdmin)
    (hx : Walks m (handleExtendedMsg ctx req) s fun _ _ => True) :
    Walks m ((Input.request req now).handle ctx) s fun _ _ => True := by
  obtain ⟨happend, hvote, hclient, hinstall⟩ := hin
  have hterm : req.type.bringsTerm = false := by
    simp [MsgType.bringsTerm, happend, hvote, hinstall]
  refine walks_bind (R := fun _ _ => True) ?_ fun _ _ _ => walks_pure trivial
  unfold processReq
  rw [hterm, when_neg (by simp)]
  refine walks_bind (R := fun _ s' => s' = s) (walks_pure rfl) ?_
  rintro _ _ rfl
  split
  next htype => exact (happend htype).elim
  next htype => exact (hvote htype).elim
  next htype => exact (hclient htype).elim
  next => exact hx

theorem walks_ext_response (h : Serves m) (hext : rpc.handler = .extResp)
    (hx : Walks m (handleExtResp ctx resp) (handleRpcResult rpc true s) fun _ _ => True) :
    Walks m ((Input.response rpc resp now).handle ctx) s fun _ _ => True := by
  refine walks_bind (R := fun _ _ => True) ?_ fun _ _ _ => walks_pure trivial
  refine walks_modify_bind (h.silent rfl) ?_
  rw [hext]
  exact hx

theorem walks_ext_failure (h : Serves m) (hext : rpc.handler = .extResp)
    (hx : Walks m (handleExtRespErr ctx rpc.req) (handleRpcResult rpc false s) fun _ _ => True) :
    Walks m ((Input.failure rpc).handle ctx) s fun _ _ => True := by
  refine walks_bind (R := fun _ _ => True) ?_ fun _ _ _ => walks_pure trivial
  refine walks_modify_bind (h.silent rfl) ?_
  rw [hext]
  exact hx

end Inputs

end EnclaveRaft
