import EnclaveRaft.Membership
import EnclaveRaft.Origins
import EnclaveRaft.Objects
import EnclaveRaft.OneServer

/-!
# Invitations and what follows them

A leader that is asked to add a server makes a peer object for it (`srv_to_join_`), notes its
configuration (`conf_to_add_`) and sends an invitation through the object. This module says what
becomes of the two under any input, which requests go out with the handler of membership responses
and through which objects, and what a server appends to its log on its own.
-/

namespace EnclaveRaft

open Act Server

variable {ctx : Context} {inp : Input} {s₀ s s' : Server} {o : List Effect}

/-! ## The invitation -/

/-- The object that the latest invitation went through, and the server that was invited. -/
def Server.invitee (s : Server) : Option (Nat × SrvConfig) :=
  s.srvToJoin.map fun p => (p.uid, p.config)

theorem Server.mem_invitee {u : Nat} {srv : SrvConfig} (h : s.invitee = some (u, srv)) :
    ∃ p ∈ s.srvToJoin, p.uid = u ∧ p.config = srv := by
  obtain ⟨p, hp, heq⟩ := Option.map_eq_some_iff.1 h
  cases heq
  exact ⟨p, hp, rfl, rfl⟩

theorem Server.invitee_of_mem {p : Peer} (h : p ∈ s.srvToJoin) :
    s.invitee = some (p.uid, p.config) := by
  rw [invitee, Option.mem_def.1 h]
  rfl

/-- The input is a request to add a server. -/
def Input.Invites : Input → Prop
  | .request req _ => req.type = .addServerRequest
  | _ => False

/-- The invitation stays as it is or is given up. -/
structure KeepsInvitee (s s' : Server) : Prop where
  invitee : s'.invitee = s.invitee ∨ s'.invitee = none
  conf : s'.confToAdd = s.confToAdd
  nextUid : s.nextUid ≤ s'.nextUid

namespace KeepsInvitee

theorem refl (s : Server) : KeepsInvitee s s := ⟨.inl rfl, rfl, le_rfl⟩

theorem trans {s'' : Server} (h : KeepsInvitee s s') (h' : KeepsInvitee s' s'') :
    KeepsInvitee s s'' := by
  refine ⟨?_, h'.conf.trans h.conf, h.nextUid.trans h'.nextUid⟩
  rcases h'.invitee with heq | heq
  · rw [heq]
    exact h.invitee
  · exact .inr heq

theorem of_eq (hjoin : s'.srvToJoin = s.srvToJoin) (hconf : s'.confToAdd = s.confToAdd)
    (huid : s'.nextUid = s.nextUid) : KeepsInvitee s s' :=
  ⟨.inl (by rw [Server.invitee, Server.invitee, hjoin]), hconf, huid.ge⟩

theorem quiet (h : Quiet s s') : KeepsInvitee s s' where
  invitee := .inl (h.field Server.invitee fun s => by
    simp [Server.invitee, Server.core, Peer.core, Function.comp_def])
  conf := h.field Server.confToAdd
  nextUid := (h.field Server.nextUid).ge

theorem onPeer (uid : Nat) {f : Peer → Peer} (hf : ∀ p, (f p).uid = p.uid ∧ (f p).config = p.config) :
    KeepsInvitee s (s.onPeer uid f) := by
  refine ⟨.inl ?_, rfl, le_rfl⟩
  show (s.srvToJoin.map _).map _ = s.srvToJoin.map _
  rw [Option.map_map]
  congr 1
  funext p
  show (((if p.uid = uid then f p else p).uid, (if p.uid = uid then f p else p).config) :
    Nat × SrvConfig) = _
  split
  · rw [(hf p).1, (hf p).2]
  · rfl

theorem addConfigured (srv : SrvConfig) : KeepsInvitee s (addConfigured ctx s srv) := by
  have hadd : ∀ p, KeepsInvitee s { s.addPeer p with nextUid := s.nextUid + 1 } := by
    intro p
    refine ⟨.inl ?_, ?_, Nat.le_succ _⟩ <;> unfold addPeer <;> split <;> rfl
  unfold EnclaveRaft.addConfigured
  dsimp only
  split
  · have henable := (hadd ((Peer.new ctx s.nextUid srv).setNextLogIdx s.nextSlot)).trans
      (onPeer (s.nextUid) (f := fun p =>
        { (p.enableHb true).resumeHbSpeed with hbTask := {} }) fun _ => ⟨rfl, rfl⟩)
    split
    · split
      · exact ⟨.inr rfl, henable.conf, henable.nextUid⟩
      · exact henable
    · exact henable
  · exact hadd _

theorem foldl_addConfigured (added : List SrvConfig) (s : Server) :
    KeepsInvitee s (added.foldl (EnclaveRaft.addConfigured ctx) s) := by
  induction added generalizing s with
  | nil => exact .refl s
  | cons srv added ih => exact (addConfigured srv).trans (ih _)

end KeepsInvitee

/-- Only a request to add a server makes an invitation. -/
theorem Micro.keepsInvitee (hm : Micro ctx inp s₀ s o s') (hadd : ¬inp.Invites) :
    KeepsInvitee s s' := by
  cases hm with
  | quiet h => exact .quiet h
  | enterTerm =>
    have hnone : ∀ s : Server, (becomeFollower s).invitee = none := fun s =>
      ((quiet_restartElectionTimer _).field Server.invitee fun s => by
        simp [Server.invitee, Server.core, Peer.core, Function.comp_def]).trans rfl
    exact ⟨.inr (hnone _), (keeps_enterTerm _ s).field Server.confToAdd,
      ((keeps_enterTerm _ s).field Server.nextUid).ge⟩
  | stepDown =>
    refine ⟨.inr ?_, (keeps_becomeFollower s).field Server.confToAdd,
      ((keeps_becomeFollower s).field Server.nextUid).ge⟩
    exact ((quiet_restartElectionTimer _).field Server.invitee fun s => by
      simp [Server.invitee, Server.core, Peer.core, Function.comp_def]).trans rfl
  | standWin => exact ⟨.inr rfl, rfl, le_rfl⟩
  | tallyWin => exact ⟨.inr rfl, rfl, le_rfl⟩
  | aim => exact .onPeer _ fun p => by split <;> exact ⟨rfl, rfl⟩
  | startSync => exact .onPeer _ fun _ => ⟨rfl, rfl⟩
  | ack => exact .onPeer _ fun _ => ⟨rfl, rfl⟩
  | nack => exact .onPeer _ fun p => by unfold moveBack; split <;> exact ⟨rfl, rfl⟩
  | snapshotAck _ _ _ hf => rcases hf with rfl | rfl <;> exact .onPeer _ fun _ => ⟨rfl, rfl⟩
  | addConfigured => exact .foldl_addConfigured _ s
  | dropOnly =>
    obtain ⟨ps, -, hdrop⟩ := dropOnlyPeer_frame _ s
    rw [hdrop]
    exact .of_eq rfl rfl rfl
  | invite hin htype => exact (hadd (hin ▸ htype)).elim
  | joinProgress _ hf =>
    refine ⟨.inl ?_, rfl, le_rfl⟩
    simp [Server.invitee, onJoin, Function.comp_def, hf]
  | abandon => exact ⟨.inr rfl, rfl, le_rfl⟩
  | _ => exact .of_eq rfl rfl rfl

theorem Server.take_keepsInvitee (hadd : ¬inp.Invites) : KeepsInvitee s (s.take ctx inp) :=
  (take_path ctx s inp).fold (R := fun s _ s' => KeepsInvitee s s') .refl
    fun _ _ _ _ _ hm h => (hm.keepsInvitee hadd).trans h

/-! ## Requests with the handler of membership responses -/

/-- The membership request that is sent, or is to be sent again. -/
def Effect.ext? : Effect → Option Rpc
  | .send rpc => if rpc.handler = .extResp then some rpc else none
  | .retry rpc => some rpc
  | _ => none

/-- Every membership request that goes out has `A`. -/
def ExtSends (A : Rpc → Prop) (_ : Server) (o : List Effect) (_ : Server) : Prop :=
  ∀ e ∈ o, ∀ rpc, e.ext? = some rpc → A rpc

namespace ExtSends

variable {A : Rpc → Prop}

theorem single {e : Effect} (h : ∀ rpc, e.ext? = some rpc → A rpc) (s s' : Server) :
    ExtSends A s [e] s' := by
  intro e' he'
  rw [List.mem_singleton.1 he']
  exact h

theorem silent (s s' : Server) : ExtSends A s [] s' := fun _ h => absurd h List.not_mem_nil

theorem serves (A : Rpc → Prop) : Serves (ExtSends A) where
  calm _ ho e he rpc hrpc := by
    cases e <;> first | exact (ho _ he).elim | cases hrpc
  peer _ := single (fun rpc hrpc => by cases hrpc) _ _

/-- A request of the given types. -/
theorem send {rpc : Rpc} (h : A rpc) (s s' : Server) : ExtSends A s [.send rpc] s' := by
  refine single (fun rpc' hrpc => ?_) s s'
  obtain ⟨-, hrpc⟩ := Option.ite_none_right_eq_some.1 hrpc
  cases hrpc
  exact h

theorem syncs (hA : ∀ rpc : Rpc, rpc.req.type = .installSnapshotRequest ∨
    rpc.req.type = .syncLogRequest → A rpc) : Serves.Syncs (ExtSends A) where
  toServes := serves A
  block htype := send (hA _ (.inl htype)) _ _
  packCall := single (fun rpc hrpc => by cases hrpc) _ _
  pack htype _ _ _ _ := send (hA _ (.inr htype)) _ _

theorem of_walks {α : Type} {x : M α} {Q : α → Server → Prop} (h : Walks (ExtSends A) x s Q) :
    ExtSends A s (x s).out (x s).state := by
  refine h.1.fold (fun s => silent s s) ?_
  intro s₁ s₂ s₃ o o' h h' e he
  exact (List.mem_append.1 he).elim (h e) (h' e)

end ExtSends

/-- Membership requests go out on membership inputs, or are sent again. -/
theorem Micro.ext_isAdmin (hm : Micro ctx inp s₀ s o s') :
    ExtSends (fun rpc => inp.IsAdmin ∨
      ∃ rpc', inp = .resend rpc' ∧ rpc.uid = rpc'.uid ∧ rpc.req = rpc'.req) s o s' := by
  cases hm with
  | sendVote => exact .single (fun rpc hrpc => by cases hrpc) _ _
  | sendAppend => exact .single (fun rpc hrpc => by cases hrpc) _ _
  | sendSnapshot hrole =>
    refine .single (fun rpc hrpc => ?_) _ _
    rcases hrole with ⟨-, rfl, -⟩ | hext
    · cases hrpc
    · exact .inl (isAdmin_of_isExt hext)
  | sendExt hin => exact .send (.inl hin) _ _
  | resend hin => exact .send (.inr ⟨_, hin, rfl, rfl⟩) _ _
  | retry hin hext => exact .single (fun rpc _ => .inl (isAdmin_of_isExt hext)) _ _
  | note he =>
    refine .single (fun rpc hrpc => ?_) _ _
    rename_i e _
    cases e <;> first | exact he.elim | cases hrpc
  | client => exact .single (fun rpc hrpc => by cases hrpc) _ _
  | process => exact .single (fun rpc hrpc => by cases hrpc) _ _
  | merge =>
    intro e he rpc hrpc
    have hinert := writtenOut_inert e he
    cases e <;> first | exact hinert.elim | cases hrpc
  | _ => exact .silent _ _

/-- What makes a response go on with the log sync, as far as it says itself. -/
def RespMsg.GoesOn (resp : RespMsg) : Prop :=
  resp.type ≠ .leaveClusterResponse ∧
    (resp.type = .joinClusterResponse → resp.accepted = true)

/-- Why a membership request goes out, if no invitation was asked for. -/
inductive Input.Emits (inp : Input) (s : Server) (rpc : Rpc) : Prop
  | again {rpc' : Rpc} (hin : inp = .resend rpc') (huid : rpc.uid = rpc'.uid)
      (hreq : rpc.req = rpc'.req)
  | leave (htype : rpc.req.type = .leaveClusterRequest)
  | sync {rpc' : Rpc} {resp : RespMsg} {now : Int} (hin : inp = .response rpc' resp now)
      (hext : rpc'.handler = .extResp) (hgoes : resp.GoesOn)
      (htype : rpc.req.type ≠ .joinClusterRequest)
  | retry {rpc' : Rpc} {p : Peer} (hin : inp = .failure rpc') (hext : rpc'.handler = .extResp)
      (hreq : rpc.req = rpc'.req) (hp : p ∈ s.srvToJoin) (huid : rpc.uid = p.uid)

theorem emits_request {req : ReqMsg} {now : Int} (hin : (Input.request req now).IsAdmin)
    (hadd : req.type ≠ .addServerRequest) :
    ExtSends ((Input.request req now).Emits s) s ((Input.request req now).handle ctx s).out
      (s.take ctx (.request req now)) := by
  refine .of_walks (walks_admin hin ((ExtSends.serves _).handleExtendedMsg hin.2.2.2 ?_ ?_ ?_))
  · exact fun htype => (hadd htype).elim
  · exact fun _ _ _ _ htype => .send (.leave htype) _ _
  · exact fun _ _ _ => .silent _ _

theorem emits_response {rpc : Rpc} {resp : RespMsg} {now : Int} (hext : rpc.handler = .extResp) :
    ExtSends ((Input.response rpc resp now).Emits s) s
      ((Input.response rpc resp now).handle ctx s).out (s.take ctx (.response rpc resp now)) := by
  refine .of_walks (walks_ext_response (ExtSends.serves _) hext ?_)
  by_cases hleave : resp.type = .leaveClusterResponse
  · exact (ExtSends.serves _).handleExtResp_leave hleave fun _ _ _ => .silent _ _
  by_cases hrej : resp.type = .joinClusterResponse ∧ resp.accepted = false
  · refine walks_get_bind ?_
    simp only [hrej.1]
    exact walks_when (fun h => by simp [hrej.2] at h) fun _ => trivial
  refine Serves.handleExtResp (ExtSends.syncs fun rpc' htype => ?_) fun _ _ _ => .silent _ _
  refine .sync rfl hext ⟨hleave, fun hjoin => ?_⟩ ?_
  · exact (Bool.eq_false_or_eq_true _).resolve_right fun h => hrej ⟨hjoin, h⟩
  · rcases htype with htype | htype <;> simp [htype]

theorem emits_failure {rpc : Rpc} (hext : rpc.handler = .extResp) :
    ExtSends ((Input.failure rpc).Emits s) s ((Input.failure rpc).handle ctx s).out
      (s.take ctx (.failure rpc)) := by
  have hjoin {p : Peer} (hp : (handleRpcResult rpc false s).srvToJoin = some p) :
      (Input.failure rpc).Emits s ⟨.extResp, p.uid, p.id, rpc.req, handleRpcResult rpc false s⟩ := by
    have hsome := invitee_of_mem (Option.mem_def.2 hp)
    rcases (KeepsInvitee.quiet (quiet_handleRpcResult rpc false s)).invitee with heq | hnone
    · obtain ⟨p', hp', huid, -⟩ := mem_invitee (heq.symm.trans hsome)
      exact .retry rfl hext rfl hp' huid.symm
    · cases hnone.symm.trans hsome
  refine .of_walks (walks_ext_failure (ExtSends.serves _) hext ?_)
  refine (ExtSends.serves _).handleExtRespErr (fun _ _ _ => .silent _ _) fun _ p hp => ?_
  refine .single (fun rpc' hrpc => ?_) _ _
  cases hrpc
  unfold retryPeer at hp
  split at hp
  next htype => exact .leave htype
  next => exact hjoin hp
  next => exact hjoin hp
  next => cases hp

theorem emits (ctx : Context) (s : Server) (hadd : ¬inp.Invites) :
    ExtSends (inp.Emits s) s (inp.handle ctx s).out (s.take ctx inp) := by
  by_cases hadmin : inp.IsAdmin
  · cases inp with
    | request req now => exact emits_request hadmin hadd
    | response rpc resp now => exact emits_response hadmin
    | failure rpc => exact emits_failure hadmin
    | _ => exact hadmin.elim
  · have hpath : ExtSends _ s (inp.handle ctx s).out (s.take ctx inp) :=
      ExtSends.of_walks (Q := fun _ _ => True)
        ⟨(take_path ctx s inp).mono fun _ _ _ hm => hm.ext_isAdmin, fun _ _ => trivial⟩
    intro e he rpc hrpc
    obtain ⟨rpc', hin, huid, hreq⟩ := (hpath e he rpc hrpc).resolve_left hadmin
    exact .again hin huid hreq

/-! ## The objects of the requests -/

theorem PeerObjects.object_lt (h : PeerObjects s) {uid : Nat} {p : Peer}
    (hp : s.object uid = some p) : uid < s.nextUid := by
  have huid : p.uid = uid := by simpa using List.find?_some hp
  rw [← huid]
  rcases List.mem_append.1 (List.mem_of_find?_eq_some hp) with hmem | hmem
  · exact h.lt _ (List.mem_map_of_mem hmem)
  · rw [Option.mem_toList] at hmem
    exact (h.join p.uid (by rw [Option.mem_def.1 hmem]; rfl)).1

theorem PeerObjects.findPeer_lt (h : PeerObjects s) {id : Int} {p : Peer}
    (hp : s.findPeer id = some p) : p.uid < s.nextUid :=
  h.lt _ (List.mem_map_of_mem (List.mem_of_find?_eq_some hp))

theorem PeerObjects.join_lt (h : PeerObjects s) {p : Peer} (hp : p ∈ s.srvToJoin) :
    p.uid < s.nextUid := (h.join p.uid (by rw [Option.mem_def.1 hp]; rfl)).1

theorem Micro.ext_uid (hm : Micro ctx inp s₀ s o s') (ho : PeerObjects s) :
    ExtSends (fun rpc => rpc.uid < s.nextUid ∨ ∃ rpc', inp = .resend rpc' ∧ rpc.uid = rpc'.uid)
      s o s' := by
  cases hm with
  | sendVote => exact .single (fun rpc hrpc => by cases hrpc) _ _
  | sendAppend => exact .single (fun rpc hrpc => by cases hrpc) _ _
  | sendSnapshot _ hmsg =>
    obtain ⟨p, sync, e, r, hobj, -⟩ := hmsg
    exact .send (.inl (ho.object_lt hobj)) _ _
  | sendExt _ hp =>
    rcases hp with ⟨hp, -⟩ | ⟨hp, -⟩
    · exact .send (.inl (ho.join_lt hp)) _ _
    · exact .send (.inl (ho.findPeer_lt hp)) _ _
  | resend hin => exact .send (.inr ⟨_, hin, rfl⟩) _ _
  | @retry s₁ rpc p _ _ hk hp =>
    have ho₁ : PeerObjects s₁ := ho.quiet (Eq.symm hk)
    have hnext : s.nextUid = s₁.nextUid := hk.field Server.nextUid
    refine .single (fun rpc' hrpc => .inl ?_) _ _
    cases hrpc
    rw [hnext]
    unfold retryPeer at hp
    split at hp
    · exact ho₁.findPeer_lt hp
    · exact ho₁.join_lt hp
    · exact ho₁.join_lt hp
    · cases hp
  | note he =>
    refine .single (fun rpc hrpc => ?_) _ _
    rename_i e _
    cases e <;> first | exact he.elim | cases hrpc
  | client => exact .single (fun rpc hrpc => by cases hrpc) _ _
  | process => exact .single (fun rpc hrpc => by cases hrpc) _ _
  | merge =>
    intro e he rpc hrpc
    have hinert := writtenOut_inert e he
    cases e <;> first | exact hinert.elim | cases hrpc
  | _ => exact .silent _ _

/-- Membership requests go out through objects that the server has, or are sent again. -/
theorem Server.take_ext_uid (ctx : Context) (hadd : ¬inp.Invites) (ho : PeerObjects s) :
    PeerObjects (s.take ctx inp) ∧ ExtSends (fun rpc => rpc.uid < (s.take ctx inp).nextUid ∨
      ∃ rpc', inp = .resend rpc' ∧ rpc.uid = rpc'.uid) s (inp.handle ctx s).out
      (s.take ctx inp) := by
  have hfold := (take_path ctx s inp).fold (R := fun s₁ o s₂ => PeerObjects s₁ →
    PeerObjects s₂ ∧ s₁.nextUid ≤ s₂.nextUid ∧ ExtSends (fun rpc => rpc.uid < s₂.nextUid ∨
      ∃ rpc', inp = .resend rpc' ∧ rpc.uid = rpc'.uid) s₁ o s₂)
    (fun s₁ ho => ⟨ho, le_rfl, .silent _ _⟩) ?_ ho
  · exact ⟨hfold.1, hfold.2.2⟩
  intro s₁ s₂ s₃ o o' hm ih ho₁
  obtain ⟨ho₃, hle, hsends⟩ := ih (ho₁.micro hm)
  have hle₁ := (hm.keepsInvitee hadd).nextUid.trans hle
  refine ⟨ho₃, hle₁, fun e he rpc hrpc => ?_⟩
  rcases List.mem_append.1 he with he | he
  · exact (hm.ext_uid ho₁ e he rpc hrpc).imp_left fun hlt =>
      hlt.trans_le hle₁
  · exact hsends e he rpc hrpc

/-! ## Invitations -/

/-- The server after it has made an object for the server `srv`. -/
def Server.inviting (ctx : Context) (srv : SrvConfig) (s : Server) : Server :=
  { s with
    confToAdd := some srv
    srvToJoin := some (Peer.new ctx s.nextUid srv)
    nextUid := s.nextUid + 1 }

/-- A request to add a server makes the server send one invitation, or changes nothing. -/
theorem Server.take_add (ctx : Context) (s : Server) {req : ReqMsg}
    (htype : req.type = .addServerRequest) (now : Int) :
    (s.take ctx (.request req now) = s ∧ ((Input.request req now).handle ctx s).out = []) ∨
      ∃ srv rpc, s.take ctx (.request req now) = s.inviting ctx srv ∧
        ((Input.request req now).handle ctx s).out = [.send rpc] ∧ rpc.uid = s.nextUid ∧
        rpc.req.type = .joinClusterRequest := by
  have hrun : (Input.request req now).handle ctx s =
      (handleAddSrvReq ctx req >>= fun resp => pure (some resp)) s := by
    have hterm : req.type.bringsTerm = false := by simp [MsgType.bringsTerm, htype]
    have hproc : processReq ctx req now = handleAddSrvReq ctx req := by
      unfold processReq
      rw [hterm, when_neg (by simp)]
      simp only [htype, handleExtendedMsg]
      rfl
    show (processReq ctx req now >>= fun resp => pure (some resp)) s = _
    rw [hproc]
  unfold Server.take
  rw [hrun]
  have hkeep : ∀ x : M RespMsg, ((x >>= fun resp => pure (some resp)) s).state = (x s).state ∧
      ((x >>= fun resp => pure (some resp)) s).out = (x s).out :=
    fun x => ⟨bind_pure_state _ _ _, bind_pure_out _ _ _⟩
  rw [(hkeep _).1, (hkeep _).2]
  unfold handleAddSrvReq
  rw [get_bind_apply]
  rcases req.logEntries with _ | ⟨entry, _ | ⟨entry', rest⟩⟩
  · exact .inl ⟨rfl, rfl⟩
  · by_cases hrefuse : entry.valType ≠ .clusterServer ∨ s.role ≠ .leader
    · simp only [if_pos hrefuse]
      exact .inl ⟨rfl, rfl⟩
    simp only [if_neg hrefuse]
    cases entry.buf with
    | server srv =>
      by_cases hempty : srv.endpoint = []
      · simp only [if_pos hempty]
        exact .inl ⟨rfl, rfl⟩
      simp only [if_neg hempty]
      by_cases hknown : (s.findPeer srv.id).isSome ∨ s.id = srv.id ∨ s.configChanging
      · simp only [if_pos hknown]
        exact .inl ⟨rfl, rfl⟩
      · simp only [if_neg hknown]
        exact .inr ⟨srv, _, rfl, rfl, rfl, rfl⟩
    | _ => exact .inl ⟨rfl, rfl⟩
  · exact .inl ⟨rfl, rfl⟩

/-! ## Configurations that the server appends -/

/-- What a server may add to its log on its own: anything but a configuration, one without new
servers, and the one that the input makes it append. -/
def Input.MayAdd (ctx : Context) (inp : Input) (s : Server) (e : LogEntry) : Prop :=
  e.valType = .conf →
    ∃ c, e.buf = .config c ∧ (c.ids ⊆ s.config.ids ∨ inp.newConfig ctx s = some c)

/-- Every entry that is added has `B`. -/
def Adds (B : LogEntry → Prop) (s : Server) (_ : List Effect) (s' : Server) : Prop :=
  ∀ x ∈ s'.logStore.logs, x ∈ s.logStore.logs ∨ B x.2

namespace Adds

variable {B : LogEntry → Prop}

theorem of_subset {s s' : Server} (h : s'.logStore.logs ⊆ s.logStore.logs) (o : List Effect) :
    Adds B s o s' := fun _ hx => .inl (h hx)

theorem of_eq {s s' : Server} (h : s'.logStore = s.logStore) (o : List Effect) : Adds B s o s' :=
  of_subset (h ▸ List.Subset.refl _) o

theorem append {s s' : Server} {e : LogEntry} (h : s'.logStore = s.logStore.append e) (he : B e)
    (o : List Effect) : Adds B s o s' := by
  intro x hx
  rw [h] at hx
  rcases OrderedMap.mem_put hx with rfl | hx
  · exact .inr he
  · exact .inl hx

theorem trans {s s' s'' : Server} {o o' : List Effect} (h : Adds B s o s') (h' : Adds B s' o' s'')
    (o'' : List Effect) : Adds B s o'' s'' := by
  intro x hx
  rcases h' x hx with hx | hx
  · exact h x hx
  · exact .inr hx

theorem syncs (B : LogEntry → Prop) : Serves.Syncs (Adds B) where
  calm hlog _ := of_eq hlog _
  peer _ := of_eq rfl _
  block _ := of_eq rfl _
  packCall := of_eq rfl _
  pack _ _ _ _ _ := of_eq rfl _

theorem of_walks {α : Type} {x : M α} {Q : α → Server → Prop} (h : Walks (Adds B) x s Q) :
    Adds B s (x s).out (x s).state :=
  h.1.fold (fun _ => of_eq rfl _) fun _ _ _ _ _ h h' => h.trans h' _

end Adds

theorem mayAdd_newConfig {c : ClusterConfig} (h : inp.newConfig ctx s = some c) (t : Nat) :
    inp.MayAdd ctx s ⟨t, .conf, .config c⟩ := fun _ => ⟨c, rfl, .inr h⟩

/-- On membership inputs, only the configuration of `Input.newConfig` is added. -/
theorem adds_admin (hadmin : inp.IsAdmin) (hcopy : ¬inp.Copies) :
    Adds (inp.MayAdd ctx s) s (inp.handle ctx s).out (s.take ctx inp) := by
  have h := Adds.syncs (inp.MayAdd ctx s)
  cases inp with
  | request req now =>
    refine Adds.of_walks (walks_admin hadmin (h.handleExtendedMsg hadmin.2.2.2 ?_ ?_ ?_))
    · exact fun _ _ _ _ _ => .of_eq rfl _
    · exact fun _ _ _ _ _ => .of_eq rfl _
    · exact fun htype => (hcopy (.inr htype)).elim
  | response rpc resp now =>
    have hext : rpc.handler = .extResp := hadmin
    refine Adds.of_walks (walks_ext_response h.toServes hext (Serves.handleExtResp h ?_))
    intro s' c hc
    exact .append rfl (mayAdd_newConfig (by rw [Input.newConfig, if_pos hext, hc]) _) _
  | failure rpc =>
    have hext : rpc.handler = .extResp := hadmin
    refine Adds.of_walks (walks_ext_failure h.toServes hext (h.handleExtRespErr ?_ ?_))
    · intro s' c hc
      exact .append rfl (mayAdd_newConfig (by rw [Input.newConfig, if_pos hext, hc]) _) _
    · exact fun _ _ _ => .of_eq rfl _
  | _ => exact hadmin.elim

/-- Clients' requests carry no configurations. -/
def Input.PlainClient : Input → Prop
  | .request req _ => req.type = .clientRequest → ∀ e ∈ req.logEntries, e.valType ≠ .conf
  | _ => True

/-- Other inputs make a server append nothing but the configuration that it has. -/
theorem Micro.adds (hm : Micro ctx inp s₀ s o s') (hplain : inp.PlainClient) (hcopy : ¬inp.Copies)
    (hadmin : ¬inp.IsAdmin) (hbg : inp ≠ .commitBg) (hinst : ∀ snp, ¬inp.Installs snp)
    (hids : s.config.ids ⊆ s₀.config.ids) :
    s'.config.ids ⊆ s₀.config.ids ∧ Adds (inp.MayAdd ctx s₀) s o s' := by
  have hoffers : ∀ c, ¬inp.Offers s₀ c := by
    rintro c (⟨h, -⟩ | ⟨snp, h, -⟩ | h)
    · exact hbg h
    · exact hinst snp h
    · exact hadmin h
  have hsame {s' : Server} (hconfig : s'.config = s.config) (hlog : s'.logStore = s.logStore) :
      s'.config.ids ⊆ s₀.config.ids ∧ Adds (inp.MayAdd ctx s₀) s o s' :=
    ⟨hconfig ▸ hids, .of_eq hlog o⟩
  have hkeeps {s' : Server} (hk : Keeps s s') := hsame (hk.field Server.config)
    (hk.field Server.logStore)
  cases hm with
  | quiet hq => exact hkeeps hq.keeps
  | enterTerm => exact hkeeps (keeps_enterTerm _ s)
  | stepDown => exact hkeeps (keeps_becomeFollower s)
  | saveInitial => exact ⟨hids, .append rfl (fun _ => ⟨_, rfl, .inl hids⟩) _⟩
  | client hin htype he =>
    subst hin
    exact ⟨hids, .append rfl (fun hconf => (hplain htype _ he hconf).elim) _⟩
  | confAppend hc => exact ⟨hids, .append rfl (mayAdd_newConfig hc _) _⟩
  | merge hin htype => exact (hcopy (hin ▸ .inl htype)).elim
  | pack hin htype => exact (hcopy (hin ▸ .inr htype)).elim
  | snapshot hin => exact (hbg hin).elim
  | installCompact hin => exact (hinst _ hin).elim
  | installDone hin => exact (hinst _ hin).elim
  | setConfig hin => exact (hoffers _ hin).elim
  | addConfigured hin => exact (hoffers _ hin).elim
  | leaveConfig =>
    have hids' : (EnclaveRaft.leaveConfig s).config.ids ⊆ s.config.ids :=
      List.map_subset _ List.eraseP_subset
    exact ⟨List.Subset.trans hids' hids, .of_eq rfl []⟩
  | dropOnly hin => exact (hadmin (isAdmin_of_isExt hin)).elim
  | _ => exact hsame rfl rfl

/-- **What a server appends on its own.** A server that copies nothing adds no configuration with a
new server, unless `Input.newConfig` says so. -/
theorem Server.take_adds (hplain : inp.PlainClient) (hcopy : ¬inp.Copies) :
    Adds (inp.MayAdd ctx s) s (inp.handle ctx s).out (s.take ctx inp) := by
  have hledger {st : LogStore} (h : (s.take ctx inp).ledger.logStore = st)
      (hsub : st.logs ⊆ s.logStore.logs) :
      Adds (inp.MayAdd ctx s) s (inp.handle ctx s).out (s.take ctx inp) :=
    .of_subset (List.Subset.trans (congrArg LogStore.logs h ▸ List.Subset.refl _) hsub) _
  rcases inp.kinds with rfl | ⟨req, now, rfl, htype⟩ | ⟨hbg, hinst⟩
  · have hround := take_bg ctx s
    generalize hl : (s.take ctx .commitBg).ledger = l, calls _ = o at hround
    cases hround with
    | idle => exact hledger (congrArg Ledger.logStore hl) (List.Subset.refl _)
    | plain => exact hledger (congrArg Ledger.logStore hl) (List.Subset.refl _)
    | snapshot =>
      refine hledger (congrArg Ledger.logStore hl) ?_
      unfold Ledger.snapshot
      dsimp only
      split
      · exact LogStore.compact_subset _ _
      · exact List.Subset.refl _
  · rcases take_install htype now with ⟨hl, -⟩ | ⟨sync, -, hround⟩
    · exact hledger (congrArg Ledger.logStore hl) (List.Subset.refl _)
    generalize hl : (s.take ctx (.request req now)).ledger = l, calls _ = o at hround
    cases hround with
    | failed => exact hledger (congrArg Ledger.logStore hl) (LogStore.compact_subset _ _)
    | unsaved => exact hledger (congrArg Ledger.logStore hl) (LogStore.compact_subset _ _)
    | done => exact hledger (congrArg Ledger.logStore hl) (LogStore.compact_subset _ _)
  by_cases hadmin : inp.IsAdmin
  · exact adds_admin hadmin hcopy
  · have hfold := (take_path ctx s inp).fold (R := fun s₁ o s₂ => s₁.config.ids ⊆ s.config.ids →
      s₂.config.ids ⊆ s.config.ids ∧ Adds (inp.MayAdd ctx s) s₁ o s₂)
      (fun _ hids => ⟨hids, .of_eq rfl _⟩) ?_ (List.Subset.refl _)
    · exact hfold.2
    intro s₁ s₂ s₃ o o' hm ih hids
    obtain ⟨hids₂, hadds⟩ := hm.adds hplain hcopy hadmin hbg hinst hids
    obtain ⟨hids₃, hadds'⟩ := ih hids₂
    exact ⟨hids₃, hadds.trans hadds' _⟩

end EnclaveRaft
