import EnclaveRaft.Invitations
import EnclaveRaft.LogSync

/-!
# The handshake with a new server

What comes back through the object of an invitation takes the log to the new server, until a
response says that it is close enough; then the configuration with the new server is appended.

There is one slot for the object and one for the configuration, and the next request to add a server
overwrites both. A response is not compared with them, the index it names is used whether it accepts
or not, and the distance to the commit index is cut to 32 bits. `Input.Fits` says what a response has
to be for the server that is added to be the one that has answered.

The run is one of the leader alone: what the other servers answer, and when, is left open.
-/

namespace EnclaveRaft

open Act Server

variable {ctx : Context} {inp : Input} {s : Server}

/-! ## What the new server has said -/

/-- The request is an invitation. -/
def Rpc.Invites (rpc : Rpc) : Prop :=
  rpc.handler = .extResp ∧ rpc.req.type = .joinClusterRequest

/-- Server `id` accepts the invitation that went out through the object `uid`. -/
def Input.Accepts (uid : Nat) (id : Int) : Input → Prop
  | .response rpc resp _ => rpc.Invites ∧ rpc.uid = uid ∧ resp.src = id ∧ resp.accepted = true
  | _ => False

/-- Server `id` acknowledges, through the object `uid`, that it holds the log below `k`: it has taken
an invitation or a part of the log and names `k` as its next index, or it has taken the last block of
a snapshot up to there. -/
def Input.Acknowledges (uid : Nat) (id : Int) (k : Nat) : Input → Prop
  | .response rpc resp _ => rpc.handler = .extResp ∧ rpc.uid = uid ∧ resp.src = id ∧
      resp.accepted = true ∧
      (((resp.type = .joinClusterResponse ∨ resp.type = .syncLogResponse) ∧ resp.nextIdx = k) ∨
        (resp.type = .installSnapshotResponse ∧ ∃ sync, rpc.req.sync? = some sync ∧
          sync.snapshot.size ≤ resp.nextIdx ∧ k = sync.snapshot.lastLogIdx + 1))
  | _ => False

/-- Server `id` has accepted the latest invitation and acknowledged an index that is close enough to
the commit index `quick`. -/
def Handshaken (ctx : Context) (past : List Effect) (taken : List Input) (quick : Nat) (id : Int) :
    Prop :=
  ∃ uid k, (∃ inp ∈ taken, inp.Accepts uid id) ∧
    (∀ rpc, .send rpc ∈ past → rpc.Invites → rpc.uid ≤ uid) ∧
    (∃ inp ∈ taken, inp.Acknowledges uid id k) ∧ (quick : Int) - k < ctx.params.logSyncStopGap

/-! ## Inputs -/

/-- Requests of one kind through one object. -/
def Rpc.Same (rpc rpc' : Rpc) : Prop :=
  rpc'.handler = rpc.handler ∧ rpc'.uid = rpc.uid ∧ rpc'.req.type = rpc.req.type

instance (rpc rpc' : Rpc) : Decidable (rpc.Same rpc') := inferInstanceAs (Decidable (_ ∧ _))

/-- What the server has done accounts for the input: a response or a failure is that of a request it
has sent, what is sent again has waited for it, and clients' requests carry no configurations. -/
def Input.Accounted (past : List Effect) : Input → Prop
  | .response rpc resp _ => (∃ rpc' ∈ past.filterMap Effect.sent, rpc.Same rpc') ∧
      rpc.req.type.reply = some resp.type
  | .failure rpc => ∃ rpc' ∈ past.filterMap Effect.sent, rpc.Same rpc'
  | .resend rpc => ∃ rpc' ∈ past.filterMap Effect.retried, rpc.Same rpc'
  | inp => inp.PlainClient

/-- A response that is part of the handshake with the server behind `p`. It comes from this server
through this object. A part of the log was taken. The last block of a snapshot is that of the
snapshot which is being sent, and at any other block the log sync is not over. The distance of the
index to the commit index is a value of `int32`. -/
def FitsInvitation (ctx : Context) (s : Server) (p : Peer) (rpc : Rpc) (resp : RespMsg) : Prop :=
  rpc.uid = p.uid ∧ resp.src = p.id ∧
    (resp.type = .syncLogResponse → resp.accepted = true) ∧
    (resp.type = .installSnapshotResponse → resp.accepted = true → ∀ sync ∈ p.snpSyncCtx,
      if sync.snapshot.size ≤ resp.nextIdx then
        rpc.req.sync?.map SnapshotSyncReq.snapshot = some sync.snapshot
      else ctx.params.logSyncStopGap ≤ syncGap s p.nextLogIdx) ∧
    ∀ k ∈ syncStart resp s,
      -2 ^ 31 ≤ (s.quickCommitIdx : Int) - k ∧ (s.quickCommitIdx : Int) - k < 2 ^ 31

instance (ctx : Context) (s : Server) (p : Peer) (rpc : Rpc) (resp : RespMsg) :
    Decidable (FitsInvitation ctx s p rpc resp) :=
  inferInstanceAs (Decidable (_ ∧ _ ∧ (_ → _) ∧ (_ → _ → ∀ sync ∈ p.snpSyncCtx, _) ∧
    ∀ k ∈ syncStart resp s, _ ∧ _))

/-- While a server is being brought up, responses and failures are part of the handshake with it. -/
def Input.Fits (ctx : Context) (s : Server) : Input → Prop
  | .response rpc resp _ => rpc.handler = .extResp → resp.type ≠ .leaveClusterResponse →
      ∀ p ∈ s.srvToJoin, FitsInvitation ctx s p rpc resp
  | .failure rpc => rpc.handler = .extResp → rpc.req.type ≠ .leaveClusterRequest →
      ∀ p ∈ s.srvToJoin, rpc.uid = p.uid
  | _ => True

/-- The inputs of a run that keeps handshakes apart. -/
def KeepsApart (ctx : Context) (past : List Effect) (s : Server) (inp : Input) : Prop :=
  inp.Accounted past ∧ inp.Fits ctx s

instance (inp : Input) : Decidable inp.PlainClient :=
  match inp with
  | .request _ _ => inferInstanceAs (Decidable (_ → ∀ e ∈ _, _))
  | .electionTimeout | .hbTimeout _ | .response .. | .failure _ | .resend _ | .commitBg =>
    instDecidableTrue

instance (past : List Effect) (inp : Input) : Decidable (inp.Accounted past) :=
  match inp with
  | .response .. => inferInstanceAs (Decidable ((∃ rpc' ∈ _, _) ∧ _))
  | .failure _ | .resend _ => inferInstanceAs (Decidable (∃ rpc' ∈ _, _))
  | .request req now => inferInstanceAs (Decidable (Input.request req now).PlainClient)
  | .electionTimeout | .hbTimeout _ | .commitBg => instDecidableTrue

instance (ctx : Context) (s : Server) (inp : Input) : Decidable (inp.Fits ctx s) :=
  match inp with
  | .response rpc resp _ =>
    inferInstanceAs (Decidable (_ → _ → ∀ p ∈ s.srvToJoin, FitsInvitation ctx s p rpc resp))
  | .failure rpc => inferInstanceAs (Decidable (_ → _ → ∀ p ∈ s.srvToJoin, rpc.uid = p.uid))
  | .electionTimeout | .hbTimeout _ | .request .. | .resend _ | .commitBg => instDecidableTrue

instance (ctx : Context) (past : List Effect) (s : Server) (inp : Input) :
    Decidable (KeepsApart ctx past s inp) := inferInstanceAs (Decidable (_ ∧ _))

theorem mem_ext_of_sent {past : List Effect} {rpc rpc' : Rpc}
    (h : rpc' ∈ past.filterMap Effect.sent) (hsame : rpc.Same rpc') (hext : rpc.handler = .extResp) :
    ∃ e ∈ past, e.ext? = some rpc' := by
  obtain ⟨e, he, hsent⟩ := List.mem_filterMap.1 h
  cases e <;> cases hsent
  exact ⟨_, he, if_pos (hsame.1.trans hext)⟩

theorem mem_ext_of_retried {past : List Effect} {rpc : Rpc}
    (h : rpc ∈ past.filterMap Effect.retried) : ∃ e ∈ past, e.ext? = some rpc := by
  obtain ⟨e, he, hsent⟩ := List.mem_filterMap.1 h
  cases e <;> cases hsent
  exact ⟨_, he, rfl⟩

/-! ## The state of the handshake -/

/-- As far as the membership request says, a request through the object `p` is no older invitation
than the one through `p`, and if it is not an invitation itself, that one has been accepted. -/
def Belongs (taken : List Input) (p : Peer) (rpc : Rpc) : Prop :=
  (rpc.req.type = .joinClusterRequest → rpc.uid ≤ p.uid) ∧
    (rpc.uid = p.uid → rpc.req.type = .joinClusterRequest ∨
      rpc.req.type = .leaveClusterRequest ∨ ∃ inp ∈ taken, inp.Accepts p.uid p.id)

theorem Belongs.mono {taken taken' : List Input} {p p' : Peer} {rpc rpc' : Rpc}
    (h : Belongs taken p rpc) (hsub : taken ⊆ taken') (huid : p'.uid = p.uid)
    (hconfig : p'.config = p.config) (hrpc : rpc'.uid = rpc.uid)
    (htype : rpc'.req.type = rpc.req.type) : Belongs taken' p' rpc' := by
  rw [Belongs, hrpc, htype, huid, Peer.id, hconfig]
  refine ⟨h.1, fun heq => ?_⟩
  rcases h.2 heq with hjoin | hleave | ⟨inp, hmem, hacc⟩
  · exact .inl hjoin
  · exact .inr (.inl hleave)
  · exact .inr (.inr ⟨inp, hsub hmem, hacc⟩)

theorem Belongs.leave {rpc : Rpc} (h : rpc.req.type = .leaveClusterRequest) (taken : List Input)
    (p : Peer) : Belongs taken p rpc := by
  refine ⟨fun hjoin => ?_, fun _ => .inr (.inl h)⟩
  cases h.symm.trans hjoin

/-- What is known of the handshake after the inputs `taken`, in which the server has done `past`. -/
structure Tracked (taken : List Input) (past : List Effect) (s : Server) : Prop where
  objects : PeerObjects s
  used : ∀ e ∈ past, ∀ rpc, e.ext? = some rpc → rpc.uid < s.nextUid
  conf : ∀ p ∈ s.srvToJoin, s.confToAdd = some p.config
  belongs : ∀ p ∈ s.srvToJoin, ∀ e ∈ past, ∀ rpc, e.ext? = some rpc → Belongs taken p rpc

namespace Tracked

variable {taken : List Input} {past : List Effect}

theorem new (ctx : Context) (i : Int) (b : Boot) : Tracked [] [] (Server.new ctx i b) := by
  obtain ⟨ps, n, hadd⟩ := addPeers_frame ctx b.config.servers (load i b)
  have hnone : (Server.new ctx i b).invitee = none := by
    refine (KeepsInvitee.quiet (quiet_restartElectionTimer _)).invitee.elim (fun h => ?_) id
    rw [Server.new, h, hadd]
    rfl
  refine ⟨.new ctx i b, fun _ h => absurd h List.not_mem_nil, fun p hp => ?_, fun p hp => ?_⟩
  all_goals cases hnone.symm.trans (invitee_of_mem hp)

/-- A response that carries on with the log sync and fits says that the invitation was accepted. -/
theorem accepts (h : Tracked taken past s) {rpc : Rpc} {resp : RespMsg} {now : Int}
    (hacc : (Input.response rpc resp now).Accounted past) (hext : rpc.handler = .extResp)
    (hgoes : resp.GoesOn) {p : Peer} (hp : p ∈ s.srvToJoin)
    (hfits : FitsInvitation ctx s p rpc resp) :
    ∃ inp ∈ taken ++ [.response rpc resp now], inp.Accepts p.uid p.id := by
  obtain ⟨⟨rpc', hsent, hsame⟩, hreply⟩ := hacc
  obtain ⟨e, he, hrpc⟩ := mem_ext_of_sent hsent hsame hext
  rcases (h.belongs p hp e he rpc' hrpc).2 (hsame.2.1.trans hfits.1) with htype | htype | hold
  · rw [hsame.2.2] at htype
    rw [htype] at hreply
    refine ⟨_, List.mem_append_right _ (List.mem_singleton_self _), ⟨hext, htype⟩, hfits.1,
      hfits.2.1, hgoes.2 (Option.some.inj hreply).symm⟩
  · rw [hsame.2.2] at htype
    rw [htype] at hreply
    exact (hgoes.1 (Option.some.inj hreply).symm).elim
  · obtain ⟨inp, hmem, hinp⟩ := hold
    exact ⟨inp, List.mem_append_left _ hmem, hinp⟩

/-- Every request that goes out belongs to the handshake. -/
theorem emits (h : Tracked taken past s) (hacc : inp.Accounted past) (hfits : inp.Fits ctx s)
    {p : Peer} (hp : p ∈ s.srvToJoin) {rpc : Rpc} (hemits : inp.Emits s rpc) :
    Belongs (taken ++ [inp]) p rpc := by
  have hsub : taken ⊆ taken ++ [inp] := List.subset_append_left _ _
  cases hemits with
  | again hin huid hreq =>
    subst hin
    obtain ⟨rpc', hmem, hsame⟩ := hacc
    obtain ⟨e, he, hrpc⟩ := mem_ext_of_retried hmem
    refine (h.belongs p hp e he rpc' hrpc).mono hsub rfl rfl ?_ ?_
    · rw [huid, hsame.2.1]
    · rw [hreq, hsame.2.2]
  | leave htype => exact .leave htype _ p
  | sync hin hext hgoes htype =>
    subst hin
    refine ⟨fun hjoin => (htype hjoin).elim, fun _ => .inr (.inr ?_)⟩
    exact h.accepts hacc hext hgoes hp (hfits hext hgoes.1 p hp)
  | @retry rpc₀ p' hin hext hreq hp' huid =>
    subst hin
    cases Option.mem_unique hp hp'
    by_cases hleave : rpc₀.req.type = .leaveClusterRequest
    · exact .leave (hreq ▸ hleave) _ p
    obtain ⟨rpc', hsent, hsame⟩ := hacc
    obtain ⟨e, he, hrpc⟩ := mem_ext_of_sent hsent hsame hext
    refine (h.belongs p hp e he rpc' hrpc).mono hsub rfl rfl ?_ ?_
    · rw [huid, hsame.2.1, hfits hext hleave p hp]
    · rw [hreq, hsame.2.2]

/-- Inputs that ask for no invitation. -/
theorem keep (h : Tracked taken past s) (hacc : inp.Accounted past) (hfits : inp.Fits ctx s)
    (hadd : ¬inp.Invites) :
    Tracked (taken ++ [inp]) (past ++ (inp.handle ctx s).out) (s.take ctx inp) := by
  have hkeep : KeepsInvitee s (s.take ctx inp) := take_keepsInvitee hadd
  obtain ⟨hobjects, huids⟩ := take_ext_uid ctx hadd h.objects
  have hsub : taken ⊆ taken ++ [inp] := List.subset_append_left _ _
  -- the object is the one from before
  have hsame : ∀ p ∈ (s.take ctx inp).srvToJoin, ∃ p₀ ∈ s.srvToJoin,
      p₀.uid = p.uid ∧ p₀.config = p.config := by
    intro p hp
    have hsome := invitee_of_mem hp
    rcases hkeep.invitee with heq | hnone
    · exact mem_invitee (heq.symm.trans hsome)
    · cases hnone.symm.trans hsome
  refine ⟨hobjects, fun e he rpc hrpc => ?_, fun p hp => ?_, fun p hp e he rpc hrpc => ?_⟩
  · rcases List.mem_append.1 he with he | he
    · exact (h.used e he rpc hrpc).trans_le hkeep.nextUid
    · rcases huids e he rpc hrpc with hlt | ⟨rpc', hin, huid⟩
      · exact hlt
      · subst hin
        obtain ⟨rpc₁, hmem, hsame₁⟩ := hacc
        obtain ⟨e₁, he₁, hrpc₁⟩ := mem_ext_of_retried hmem
        rw [huid, ← hsame₁.2.1]
        exact (h.used e₁ he₁ rpc₁ hrpc₁).trans_le hkeep.nextUid
  · obtain ⟨p₀, hp₀, -, hconfig⟩ := hsame p hp
    rw [hkeep.conf, h.conf p₀ hp₀, hconfig]
  · obtain ⟨p₀, hp₀, huid, hconfig⟩ := hsame p hp
    rcases List.mem_append.1 he with he | he
    · exact (h.belongs p₀ hp₀ e he rpc hrpc).mono hsub huid.symm hconfig.symm rfl rfl
    · have hemits := EnclaveRaft.emits ctx s hadd e he rpc hrpc
      exact (h.emits hacc hfits hp₀ hemits).mono (List.Subset.refl _) huid.symm hconfig.symm rfl rfl

/-- A request to add a server. Nothing has gone out through the new object but the invitation. -/
theorem invite (h : Tracked taken past s) (hadd : inp.Invites) :
    Tracked (taken ++ [inp]) (past ++ (inp.handle ctx s).out) (s.take ctx inp) := by
  have hsub : taken ⊆ taken ++ [inp] := List.subset_append_left _ _
  cases inp with
  | request req now =>
    rcases take_add ctx s hadd now with ⟨hs, ho⟩ | ⟨srv, rpc, hs, ho, huid, htype⟩
    · rw [hs, ho, List.append_nil]
      exact ⟨h.objects, h.used, h.conf, fun p hp e he rpc hrpc =>
        (h.belongs p hp e he rpc hrpc).mono hsub rfl rfl rfl rfl⟩
    · rw [hs, ho]
      have hnew : ∀ e ∈ past ++ [.send rpc], ∀ rpc', e.ext? = some rpc' →
          rpc'.uid < s.nextUid ∨ rpc' = rpc := by
        intro e he rpc' hrpc'
        rcases List.mem_append.1 he with he | he
        · exact .inl (h.used e he rpc' hrpc')
        · rw [List.mem_singleton.1 he] at hrpc'
          exact .inr (Option.some.inj (Option.ite_none_right_eq_some.1 hrpc').2).symm
      refine ⟨Distinct.rejoin h.objects, fun e he rpc' hrpc' => ?_, fun p hp => ?_,
        fun p hp e he rpc' hrpc' => ?_⟩
      · show rpc'.uid < s.nextUid + 1
        rcases hnew e he rpc' hrpc' with hlt | rfl <;> omega
      · cases hp
        rfl
      · cases hp
        show Belongs _ (Peer.new ctx s.nextUid srv) rpc'
        rcases hnew e he rpc' hrpc' with hlt | rfl
        · exact ⟨fun _ => hlt.le, fun heq => (hlt.ne heq).elim⟩
        · exact ⟨fun _ => huid.le, fun _ => .inl htype⟩
  | _ => exact hadd.elim

theorem step (h : Tracked taken past s) (hacc : inp.Accounted past) (hfits : inp.Fits ctx s) :
    Tracked (taken ++ [inp]) (past ++ (inp.handle ctx s).out) (s.take ctx inp) := by
  by_cases hadd : inp.Invites
  · exact h.invite hadd
  · exact h.keep hacc hfits hadd

/-- **Runs.** After any run of inputs that fit. -/
theorem run (ctx : Context) (i : Int) (b : Boot) {inps : List Input}
    (hmeets : (Server.new ctx i b).MeetsPast ctx (KeepsApart ctx) [] inps) :
    Tracked inps ((Server.new ctx i b).trace ctx inps) ((Server.new ctx i b).run ctx inps) := by
  induction inps using List.reverseRecOn with
  | nil => exact .new ctx i b
  | append_singleton inps inp ih =>
    obtain ⟨hinps, hlast, -⟩ := meetsPast_append.1 hmeets
    rw [List.nil_append] at hlast
    have htrace : ((Server.new ctx i b).run ctx inps).trace ctx [inp] =
        (inp.handle ctx ((Server.new ctx i b).run ctx inps)).out := List.append_nil _
    have hrun : (Server.new ctx i b).run ctx (inps ++ [inp]) =
        ((Server.new ctx i b).run ctx inps).take ctx inp := List.foldl_append
    rw [trace_append, htrace, hrun]
    exact (ih hinps).step hlast.1 hlast.2

end Tracked

/-! ## The configuration that is appended -/

/-- The server appends a configuration with a new server `id`. -/
def AddsServer (ctx : Context) (s : Server) (inp : Input) (id : Int) : Prop :=
  ∃ x ∈ (s.take ctx inp).logStore.logs, x ∉ s.logStore.logs ∧ x.2.valType = .conf ∧
    ∃ c, x.2.buf = .config c ∧ id ∈ c.ids ∧ id ∉ s.config.ids

theorem syncStart_quiet {s' : Server} (hq : Quiet s s') (resp : RespMsg) :
    syncStart resp s' = syncStart resp s :=
  hq.field (syncStart resp) fun s => by
    unfold syncStart Server.core
    dsimp only
    cases s.srvToJoin <;> rfl

theorem syncStart_isSome {resp : RespMsg} {k : Nat} (h : syncStart resp s = some k) :
    s.srvToJoin.isSome := by
  unfold syncStart at h
  split at h
  · exact (Option.ite_none_right_eq_some.1 h).1
  · exact (Option.ite_none_right_eq_some.1 h).1.1
  · obtain ⟨p, hp, -⟩ := Option.bind_eq_some_iff.1 h
    rw [hp]
    rfl
  · cases h

theorem extConfig_eq {resp : RespMsg} (hne : resp.type ≠ .leaveClusterResponse) :
    Input.extConfig ctx s resp = (syncStart resp s).bind (Input.joinedConfig ctx s) := by
  unfold Input.extConfig syncStart
  cases htype : resp.type with
  | leaveClusterResponse => exact (hne htype).elim
  | syncLogResponse => cases s.srvToJoin <;> rfl
  | joinClusterResponse =>
    cases s.srvToJoin with
    | none => rfl
    | some p => cases resp.accepted <;> rfl
  | installSnapshotResponse =>
    cases s.srvToJoin with
    | none => rfl
    | some p =>
      cases resp.accepted with
      | false => rfl
      | true =>
        cases hsync : p.snpSyncCtx with
        | none => simp [hsync]
        | some sync =>
          simp only [if_true, hsync, Option.bind_some, Option.map_some, Input.joinedIdx, noteBlock]
          split <;> rfl
  | _ => rfl

theorem configWithout_ids (s : Server) (id : Int) : (configWithout s id).ids ⊆ s.config.ids :=
  List.map_subset _ List.filter_sublist.subset

/-- A configuration with a new server comes from a response, and the new server is the one whose
configuration was noted. -/
theorem newConfig_adds {c : ClusterConfig} {id : Int} (h : inp.newConfig ctx s = some c)
    (hid : id ∈ c.ids) (hnew : id ∉ s.config.ids) :
    ∃ rpc resp now k srv, inp = .response rpc resp now ∧ rpc.handler = .extResp ∧
      resp.type ≠ .leaveClusterResponse ∧ syncStart resp s = some k ∧
      syncGap s k < ctx.params.logSyncStopGap ∧ s.confToAdd = some srv ∧ id = srv.id := by
  cases inp with
  | response rpc resp now =>
    obtain ⟨hext, hc⟩ := Option.ite_none_right_eq_some.1 h
    have hq := quiet_handleRpcResult rpc true s
    by_cases hleave : resp.type = .leaveClusterResponse
    · simp only [Input.extConfig, hleave] at hc
      obtain ⟨-, hc⟩ := Option.ite_none_right_eq_some.1 hc
      cases hc
      exact (hnew (configWithout_ids _ _ hid)).elim
    rw [extConfig_eq hleave, syncStart_quiet hq] at hc
    obtain ⟨k, hk, hc⟩ := Option.bind_eq_some_iff.1 hc
    have hconfig : Input.joinedConfig ctx s k = some c :=
      (hq.field fun s => Input.joinedConfig ctx s k).symm.trans hc
    obtain ⟨hgap, hc⟩ := Option.ite_none_right_eq_some.1 hconfig
    obtain ⟨srv, hsrv, rfl⟩ := Option.map_eq_some_iff.1 hc
    refine ⟨rpc, resp, now, k, srv, rfl, hext, hleave, hk, hgap, hsrv, ?_⟩
    rcases List.mem_map.1 hid with ⟨srv', hmem, rfl⟩
    rcases List.mem_append.1 hmem with hmem | hmem
    · exact (hnew (List.mem_map_of_mem hmem)).elim
    · rw [List.mem_singleton.1 hmem]
  | failure rpc =>
    obtain ⟨-, hc⟩ := Option.ite_none_right_eq_some.1 h
    obtain ⟨-, hc⟩ := Option.ite_none_right_eq_some.1 hc
    obtain ⟨p, -, hc⟩ := Option.bind_eq_some_iff.1 hc
    obtain ⟨-, hc⟩ := Option.ite_none_right_eq_some.1 hc
    cases hc
    exact (hnew (configWithout_ids _ _ hid)).elim
  | _ => cases h

/-- A response that fits and is close enough acknowledges the index. -/
theorem FitsInvitation.acknowledges {p : Peer} {rpc : Rpc} {resp : RespMsg} {k : Nat}
    (h : FitsInvitation ctx s p rpc resp) (hp : p ∈ s.srvToJoin) (hext : rpc.handler = .extResp)
    (hk : syncStart resp s = some k) (hgap : syncGap s k < ctx.params.logSyncStopGap) (now : Int) :
    resp.accepted = true ∧ (Input.response rpc resp now).Acknowledges p.uid p.id k := by
  obtain ⟨huid, hsrc, hsync, hblock, -⟩ := h
  have hack (hacc : resp.accepted = true) (hwhat : _) :
      resp.accepted = true ∧ (Input.response rpc resp now).Acknowledges p.uid p.id k :=
    ⟨hacc, hext, huid, hsrc, hacc, hwhat⟩
  unfold syncStart at hk
  split at hk
  next htype =>
    obtain ⟨-, hk⟩ := Option.ite_none_right_eq_some.1 hk
    exact hack (hsync htype) (.inl ⟨.inr htype, Option.some.inj hk⟩)
  next htype =>
    obtain ⟨hacc, hk⟩ := Option.ite_none_right_eq_some.1 hk
    exact hack hacc.2 (.inl ⟨.inl htype, Option.some.inj hk⟩)
  next htype =>
    rw [Option.mem_def.1 hp, Option.bind_some] at hk
    obtain ⟨hacc, hk⟩ := Option.ite_none_right_eq_some.1 hk
    obtain ⟨sync, hctx, hk⟩ := Option.map_eq_some_iff.1 hk
    have hfits := hblock htype hacc sync hctx
    split at hk
    next hlast =>
      rw [if_pos hlast] at hfits
      obtain ⟨r, hr, hsnp⟩ := Option.map_eq_some_iff.1 hfits
      exact hack hacc (.inr ⟨htype, r, hr, hsnp ▸ hlast, hsnp ▸ hk.symm⟩)
    next hlast =>
      rw [if_neg hlast, hk] at hfits
      omega
  next => cases hk

/-- **The handshake does not mix servers.** In every run in which responses and failures are part of
the handshake with the server that is being brought up, a server that is added has itself accepted
the latest invitation, and has acknowledged an index that is close enough to the commit index. -/
theorem join_handshake (ctx : Context) (i : Int) (b : Boot) (inps : List Input) (inp : Input)
    (hmeets : (Server.new ctx i b).MeetsPast ctx (KeepsApart ctx) [] (inps ++ [inp]))
    (hcopy : ¬inp.Copies) (id : Int)
    (hadds : AddsServer ctx ((Server.new ctx i b).run ctx inps) inp id) :
    Handshaken ctx ((Server.new ctx i b).trace ctx inps) (inps ++ [inp])
      ((Server.new ctx i b).run ctx inps).quickCommitIdx id := by
  obtain ⟨hinps, ⟨hacc, hfits⟩, -⟩ := meetsPast_append.1 hmeets
  rw [List.nil_append] at hacc
  have htracked := Tracked.run ctx i b hinps
  generalize (Server.new ctx i b).run ctx inps = s at *
  generalize (Server.new ctx i b).trace ctx inps = past at *
  have hplain : inp.PlainClient := by
    cases inp <;> trivial
  obtain ⟨x, hx, hnotin, hconf, c, hbuf, hid, hnew⟩ := hadds
  -- the configuration is the one that the response makes the server append
  obtain ⟨c', hbuf', hwhy⟩ := (take_adds hplain hcopy x hx).resolve_left hnotin hconf
  cases hbuf.symm.trans hbuf'
  have hconfig := hwhy.resolve_left fun hsub => hnew (hsub hid)
  obtain ⟨rpc, resp, now, k, srv, rfl, hext, hleave, hk, hgap, hsrv, rfl⟩ :=
    newConfig_adds hconfig hid hnew
  obtain ⟨p, hp⟩ := Option.isSome_iff_exists.1 (syncStart_isSome hk)
  have hinv := hfits hext hleave p hp
  obtain ⟨haccepted, hack⟩ := hinv.acknowledges hp hext hk hgap now
  have hsame : p.id = srv.id := by
    rw [htracked.conf p hp] at hsrv
    rw [Peer.id, Option.some.inj hsrv]
  rw [← hsame]
  have hlast : (Input.response rpc resp now) ∈ inps ++ [.response rpc resp now] :=
    List.mem_append_right _ (List.mem_singleton_self _)
  refine ⟨p.uid, k, ?_, fun rpc' hsent hinvites => ?_, ⟨_, hlast, hack⟩, ?_⟩
  · exact htracked.accepts hacc hext ⟨hleave, fun _ => haccepted⟩ hp hinv
  · exact (htracked.belongs p hp _ hsent rpc' (if_pos hinvites.1)).1 hinvites.2
  · obtain ⟨hlo, hhi⟩ := hinv.2.2.2.2 k hk
    rw [← syncGap_eq hlo hhi]
    exact hgap

theorem AddsServer.of_last {k t : Nat} {c : ClusterConfig} {id : Int}
    (hlast : (s.take ctx inp).logStore.logs.getLast? = some (k, ⟨t, .conf, .config c⟩))
    (hnew : k ∉ s.logStore.logs.map Prod.fst) (hid : id ∈ c.ids) (hnot : id ∉ s.config.ids) :
    AddsServer ctx s inp id :=
  ⟨_, List.mem_of_getLast? hlast, fun hmem => hnew (List.mem_map_of_mem hmem), rfl, c, rfl, hid,
    hnot⟩

/-- A server on its own, which leads itself and is asked to add server 4. -/
def addsFour : List Input :=
  [.electionTimeout, .commitBg, .request (addSrvReq (srvAt 4)) 0]

/-- Server 4 accepts the invitation. -/
def fourAccepts : Input :=
  .response ⟨.extResp, 0, 4, outsideReq .joinClusterRequest [], load 1 (alone 1)⟩
    ⟨1, .joinClusterResponse, 4, 1, 1, true⟩ 0

theorem join_handshake_four :
    AddsServer {} ((Server.new {} 1 (alone 1)).run {} addsFour) fourAccepts 4 ∧
      Handshaken {} ((Server.new {} 1 (alone 1)).trace {} addsFour) (addsFour ++ [fourAccepts])
        ((Server.new {} 1 (alone 1)).run {} addsFour).quickCommitIdx 4 := by
  have hadds : AddsServer {} ((Server.new {} 1 (alone 1)).run {} addsFour) fourAccepts 4 :=
    .of_last (c := ⟨2, 1, [srvAt 1, srvAt 4]⟩) rfl (by decide +kernel) (by decide) (by decide +kernel)
  exact ⟨hadds, join_handshake {} 1 (alone 1) addsFour fourAccepts (by decide +kernel) id 4 hadds⟩

/-- A second request, for server 5, arrives before server 4 has answered. Its answer adds server 5,
which has not said anything. -/
theorem join_mixes_servers :
    ∃ inps inp, (Server.new {} 1 (alone 1)).MeetsPast {} (fun past _ inp => inp.Accounted past) []
        (inps ++ [inp]) ∧ ¬inp.Copies ∧
      AddsServer {} ((Server.new {} 1 (alone 1)).run {} inps) inp 5 ∧
      ¬Handshaken {} ((Server.new {} 1 (alone 1)).trace {} inps) (inps ++ [inp])
        ((Server.new {} 1 (alone 1)).run {} inps).quickCommitIdx 5 := by
  refine ⟨addsFour ++ [.request (addSrvReq (srvAt 5)) 0], fourAccepts, by decide +kernel, id, ?_, ?_⟩
  · exact .of_last (c := ⟨2, 1, [srvAt 1, srvAt 5]⟩) rfl (by decide +kernel) (by decide)
      (by decide +kernel)
  · rintro ⟨uid, k, ⟨inp, hmem, hacc⟩, -⟩
    simp [addsFour] at hmem
    rcases hmem with rfl | rfl | rfl | rfl | rfl
    all_goals first | exact hacc.elim | exact absurd hacc.2.2.1 (by decide)

end EnclaveRaft
