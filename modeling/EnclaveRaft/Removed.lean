import EnclaveRaft.ElectionTimer
import EnclaveRaft.Stale
import EnclaveRaft.Votes
import EnclaveRaft.Intact

/-!
# Servers that have been removed

A server that applies a configuration without itself is to step down: `reconfigure` says so in its
log and calls `system_exit`. The state manager's `system_exit` returns, and nothing else keeps the
server from going on. Its timer runs, its handlers answer, and the peers it has left are those of the
new configuration.

So it is silent for as long as nothing happens that would make any server stand or adopt a term, and
not a moment longer. `Input.Rouses` lists these inputs, and `silent_iff` says that they are all.
-/

namespace EnclaveRaft

open Act Server

/-- The server is about to apply a configuration without itself, and is not being brought up. -/
structure Server.Leaves (s : Server) (conf : ClusterConfig) : Prop where
  settled : s.catchingUp = false
  committed : s.smCommitIndex < s.quickCommitIdx
  logged : s.smCommitIndex < usub s.nextSlot 1
  entry : (s.logStore.entryAt (s.smCommitIndex + 1)).valType = .conf
  config : (s.logStore.entryAt (s.smCommitIndex + 1)).buf = .config conf
  gone : conf.getServer s.id = none

/-- The server neither increments its term nor becomes leader nor asks for votes. -/
structure Silent (ctx : Context) (s : Server) (inp : Input) : Prop where
  term : (s.take ctx inp).term ≤ s.term
  role : (s.take ctx inp).role = .leader → s.role = .leader
  votes : ∀ rpc, .send rpc ∈ (inp.handle ctx s).out → rpc.req.type ≠ .requestVoteRequest

/-- An invitation of a later term, to a server that takes it. -/
def ReqMsg.InvitesAhead (req : ReqMsg) (s : Server) : Prop :=
  req.type = .joinClusterRequest ∧ s.catchingUp = false ∧ s.term < req.term ∧
    req.logEntries.length = 1 ∧ ∀ e ∈ req.logEntries, e.valType = .conf

/-- The inputs that make a server stand for election, adopt a term, or lead. -/
def Input.Rouses (s : Server) : Input → Prop
  | electionTimeout => Turn.Stands s ∧ s.role ≠ .leader
  | request req _ => (req.type.bringsTerm ∧ s.term < req.term) ∨ req.InvitesAhead s
  | response rpc resp _ => rpc.handler = .peerResp ∧ (s.term < resp.term ∨
      (resp.type = .requestVoteResponse ∧ s.role ≠ .leader ∧ resp.Elects s))
  | resend rpc => rpc.req.type = .requestVoteRequest
  | _ => False

instance (req : ReqMsg) (s : Server) : Decidable (req.InvitesAhead s) :=
  inferInstanceAs (Decidable (_ ∧ _))

instance (s : Server) : (inp : Input) → Decidable (inp.Rouses s)
  | .electionTimeout => inferInstanceAs (Decidable (_ ∧ _))
  | .request _ _ => inferInstanceAs (Decidable (_ ∨ _))
  | .response _ _ _ => inferInstanceAs (Decidable (_ ∧ _))
  | .resend _ => inferInstanceAs (Decidable (_ = _))
  | .hbTimeout _ | .failure _ | .commitBg => instDecidableFalse

variable {ctx : Context} {inp : Input} {s₀ s s' : Server} {o : List Effect}

/-! ## What does not rouse a server leaves it silent -/

/-- The term a message brings is not ahead. -/
def Input.Bounded (inp : Input) (s : Server) : Prop := ∀ t, inp.Brings t → t ≤ s.term

theorem bounded_of_not_rouses (h : ¬inp.Rouses s) : inp.Bounded s := by
  intro t hin
  by_contra hlt
  rw [Nat.not_le] at hlt
  rcases hin with ⟨req, now, rfl, hb, rfl⟩ | ⟨rpc, resp, now, rfl, hh, rfl⟩
  · exact h (.inl ⟨hb, hlt⟩)
  · exact h ⟨hh, .inl hlt⟩

/-- Without a term from outside and without standing, the term stays or goes back. -/
theorem Micro.term_le (hm : Micro ctx inp s₀ s o s') (hs : inp.Bounded s)
    (hne : inp ≠ .electionTimeout) (hr : ¬inp.Rouses s₀) : inp.Bounded s' ∧ s'.term ≤ s.term := by
  have hkeep (hstate : s'.state = s.state) : inp.Bounded s' ∧ s'.term ≤ s.term :=
    have hterm : s'.term = s.term := congrArg SrvState.term hstate
    ⟨fun t ht => (hs t ht).trans hterm.ge, hterm.le⟩
  cases hm with
  | quiet hq => exact hkeep (hq.field Server.state)
  | enterTerm hlt hin => exact (hlt.not_ge (hs _ hin)).elim
  | stepDown => exact hkeep (becomeFollower_state s)
  | stand hin | standWin hin => exact (hne hin).elim
  | grant => exact ⟨hs, le_rfl⟩
  | addConfigured =>
    obtain ⟨ps, j, n, hfold⟩ := foldl_addConfigured_frame ctx _ s
    exact hkeep (by rw [hfold])
  | dropOnly =>
    obtain ⟨ps, -, hdrop⟩ := dropOnlyPeer_frame _ s
    exact hkeep (by rw [hdrop])
  | @join req now hin htype hk hcatch hentry =>
    subst hin hk
    refine ⟨?_, ?_⟩
    · rintro t (⟨_, _, heq, hb, -⟩ | ⟨_, _, _, heq, -⟩)
      · cases heq
        simp [MsgType.bringsTerm, htype] at hb
      · cases heq
    · -- an invitation of a later term would have roused the server
      obtain ⟨e, hes, hval⟩ := hentry
      show req.term ≤ s.term
      by_contra hlt
      exact hr (.inr ⟨htype, hcatch, Nat.lt_of_not_le hlt, by simp [hes], by simp [hes, hval]⟩)
  | _ => exact hkeep rfl

theorem term_le_of_not_rouses (hne : inp ≠ .electionTimeout) (hr : ¬inp.Rouses s) :
    (s.take ctx inp).term ≤ s.term := by
  have hfold := (take_path ctx s inp).fold (R := fun s₁ _ s₂ =>
      inp.Bounded s₁ → s₂.term ≤ s₁.term) (fun _ _ => le_rfl) ?_
  · exact hfold (bounded_of_not_rouses hr)
  · intro s₁ s₂ s₃ o o' hm ih h₁
    obtain ⟨h₂, hle⟩ := hm.term_le h₁ hne hr
    exact (ih h₂).trans hle

theorem role_of_not_rouses (hne : inp ≠ .electionTimeout) (hr : ¬inp.Rouses s)
    (hlead : (s.take ctx inp).role = .leader) : s.role = .leader := by
  by_contra hrole
  have helects : ¬inp.Elects s := by
    intro h
    cases inp with
    | response rpc resp now => exact hr ⟨h.1, .inr ⟨h.2.1, hrole, h.2.2⟩⟩
    | _ => exact h
  exact role_path (walks_handle_timerStep ctx inp s hne).1 helects hrole hlead

theorem votes_of_not_rouses (hne : inp ≠ .electionTimeout) (hr : ¬inp.Rouses s) {rpc : Rpc}
    (hrpc : .send rpc ∈ (inp.handle ctx s).out) : rpc.req.type ≠ .requestVoteRequest := by
  intro htype
  have hfold := (take_path ctx s inp).fold (R := fun _ o _ => .send rpc ∉ o)
    (fun _ => List.not_mem_nil) ?_
  · exact hfold hrpc
  · intro s₁ s₂ s₃ o o' hm ih hmem
    refine (List.mem_append.1 hmem).elim (fun h => ?_) ih
    rcases hm.sends_vote h htype with ⟨hin, -⟩ | ⟨rpc', hin, hreq⟩
    · exact hne hin
    · subst hin
      exact hr ((congrArg ReqMsg.type hreq).trans htype)

theorem silent_timeout (hr : ¬Input.electionTimeout.Rouses s) : Silent ctx s .electionTimeout := by
  have hwalk : Walks Dormant (Input.electionTimeout.handle ctx) s fun _ _ => True :=
    walks_discard (walks_timeout_dormant hr)
  have hfold := hwalk.1.fold (R := Dormant) (fun _ => ⟨rfl, rfl, fun _ => List.not_mem_nil⟩) ?_
  · obtain ⟨hstate, hrole, hsends⟩ := hfold
    exact ⟨(congrArg SrvState.term hstate).le, fun h => hrole.symm.trans h,
      fun rpc hrpc => (hsends rpc hrpc).elim⟩
  · intro s₁ s₂ s₃ o o' h h'
    refine ⟨h'.1.trans h.1, h'.2.1.trans h.2.1, fun rpc hmem => ?_⟩
    exact (List.mem_append.1 hmem).elim (h.2.2 rpc) (h'.2.2 rpc)

/-! ## What rouses a server -/

/-- A request of a later term finds the server in that term. -/
theorem processReq_enterTerm {req : ReqMsg} (now : Int) (hb : req.type.bringsTerm)
    (hlt : s.term < req.term) :
    processReq ctx req now s = processReq ctx req now (enterTerm req.term s) := by
  have hterm : ¬(enterTerm req.term s).term < req.term :=
    (term_of_state (enterTerm_state req.term s)).not_lt
  refine bind_apply_congr ?_ _
  rw [when_pos hb]
  show Act.bind _ _ s = Act.bind _ _ (enterTerm req.term s)
  rw [Act.bind, Act.bind, updateTerm_of_lt hlt, updateTerm_of_le (Nat.le_of_not_lt hterm)]
  rfl

theorem term_lt_of_request {req : ReqMsg} {now : Int} (h : (Input.request req now).Rouses s) :
    s.term < (s.take ctx (.request req now)).term := by
  rcases h with ⟨hb, hlt⟩ | ⟨htype, hcatch, hlt, hone, hconf⟩
  · have hstate : s.take ctx (.request req now) =
        (enterTerm req.term s).take ctx (.request req now) := by
      show (Act.bind (processReq ctx req now) _ s).state =
        (Act.bind (processReq ctx req now) _ _).state
      rw [Act.bind, Act.bind, processReq_enterTerm now hb hlt]
    have hnot : ¬JoinResets (.request req now) (enterTerm req.term s) := by
      rintro ⟨req', now', e, heq, htype, -⟩
      cases heq
      simp [MsgType.bringsTerm, htype] at hb
    have hmono := ((votesOnce_iff ctx (.request req now) (enterTerm req.term s)).2 hnot).1
    rw [term_of_state (enterTerm_state req.term s)] at hmono
    rw [hstate]
    exact hlt.trans_le hmono
  · obtain ⟨e, hes⟩ := List.length_eq_one_iff.1 hone
    have hstate := joined_state ctx now htype hes (hconf e (by simp [hes])) hcatch
    exact hlt.trans_eq (term_of_state hstate).symm

/-- The replication that a new leader starts leaves it the leader. It does not depend on what made the
server leader. -/
theorem Micro.leads_on {uid : Nat} (hm : Micro ctx (.hbTimeout uid) s₀ s o s')
    (hl : s.role = .leader) : s'.role = .leader := by
  have hno : ∀ t, ¬(Input.hbTimeout uid).Brings t := by
    rintro t (⟨_, _, h, -⟩ | ⟨_, _, _, h, -⟩) <;> cases h
  have hle := (hm.term_le (fun t ht => (hno t ht).elim) (by simp) fun h => h).2
  cases hm.ballot with
  | same _ _ _ hrole =>
    rcases hrole with hrole | ⟨hrole, -⟩
    · exact hrole.trans hl
    · cases hl.symm.trans hrole
  | enter t _ hin => exact (hno t hin).elim
  | stand hstate =>
    rw [term_of_state hstate] at hle
    exact (Nat.not_succ_le_self _ hle).elim
  | grant _ _ hin => cases hin
  | tally _ hin => obtain ⟨_, _, h, -⟩ := hin; cases h
  | join _ _ hin => cases hin

theorem becomeLeader_role (s : Server) : (becomeLeader ctx s).state.role = .leader := by
  rw [becomeLeader, modify_bind_apply]
  have hwalk := (walks_becomeLeader_rest rfl : Walks (Micro ctx (.hbTimeout 0) s) _ (takeLead s) _)
  refine hwalk.1.fold (R := fun s _ s' => s.role = .leader → s'.role = .leader)
    (fun _ => fun h => h) ?_ rfl
  exact fun _ _ _ _ _ hm ih hl => ih (hm.leads_on hl)

/-- What a response from a peer does first. -/
def Server.hears (s : Server) (rpc : Rpc) (resp : RespMsg) (now : Int) : Server :=
  heardFrom resp.src now (handleRpcResult rpc true s)

theorem take_response {rpc : Rpc} {resp : RespMsg} {now : Int} (hh : rpc.handler = .peerResp) :
    s.take ctx (.response rpc resp now) = ((updateTerm resp.term >>= fun updated =>
      if updated then pure ()
      else match resp.type with
        | .requestVoteResponse => handleVotingResp ctx resp
        | .appendEntriesResponse => handleAppendEntriesResp ctx resp
        | .installSnapshotResponse => handleInstallSnapshotResp ctx resp
        | t => exitWith (-1) (.unexpectedResponse t)) (s.hears rpc resp now)).state := by
  have hstate : s.take ctx (.response rpc resp now) = (onResponse ctx rpc resp now s).state :=
    bind_pure_state (onResponse ctx rpc resp now) _ s
  rw [hstate, onResponse, modify_bind_apply, hh]
  rfl

theorem term_of_response {rpc : Rpc} {resp : RespMsg} (now : Int) (hh : rpc.handler = .peerResp)
    (hlt : s.term < resp.term) : (s.take ctx (.response rpc resp now)).term = resp.term := by
  have hahead : (s.hears rpc resp now).term < resp.term := hlt
  rw [take_response hh, bind_state, updateTerm_of_lt hahead]
  exact term_of_state (enterTerm_state _ _)

theorem handleVotingResp_elects {resp : RespMsg} (h : resp.Elects s) :
    handleVotingResp ctx resp s = becomeLeader ctx (resp.elected s) := by
  obtain ⟨hterm, hopen, hnew, hmaj⟩ := h
  rw [handleVotingResp, get_bind_apply, if_neg (by simp [hterm, hopen, hnew]), modify_bind_apply,
    get_bind_apply]
  exact congrFun (when_pos hmaj _) _

theorem elects_hears {rpc : Rpc} {resp : RespMsg} (now : Int) (h : resp.Elects s) :
    resp.Elects (s.hears rpc resp now) := by
  obtain ⟨hterm, hopen, hnew, hmaj⟩ := h
  refine ⟨hterm, hopen, hnew, ?_⟩
  simpa [Server.hears, heardFrom, handleRpcResult, onPeer, countVote] using hmaj

theorem role_of_response {rpc : Rpc} {resp : RespMsg} (now : Int) (hh : rpc.handler = .peerResp)
    (htype : resp.type = .requestVoteResponse) (h : resp.Elects s) :
    (s.take ctx (.response rpc resp now)).role = .leader := by
  have helects : resp.Elects (s.hears rpc resp now) := elects_hears now h
  rw [take_response hh, bind_apply_congr (updateTerm_of_le helects.1.le), pure_bind_apply]
  simp only [htype, Bool.false_eq_true, if_false]
  rw [handleVotingResp_elects helects]
  exact becomeLeader_role _

/-- **Silence.** -/
theorem silent_iff (ctx : Context) (s : Server) (inp : Input) :
    Silent ctx s inp ↔ ¬inp.Rouses s := by
  constructor
  · intro hsilent hr
    cases inp with
    | electionTimeout => exact (term_lt_of_stands hr).not_ge hsilent.term
    | request req now => exact (term_lt_of_request hr).not_ge hsilent.term
    | response rpc resp now =>
      obtain ⟨hh, hlt | ⟨htype, hne, helects⟩⟩ := hr
      · exact (hlt.trans_eq (term_of_response now hh hlt).symm).not_ge hsilent.term
      · exact hne (hsilent.role (role_of_response now hh htype helects))
    | resend rpc => exact hsilent.votes _ (List.mem_singleton_self _) hr
    | hbTimeout | failure | commitBg => exact hr
  · intro hr
    by_cases hne : inp = .electionTimeout
    · subst hne
      exact silent_timeout hr
    · exact ⟨term_le_of_not_rouses hne hr, role_of_not_rouses hne hr,
        fun rpc => votes_of_not_rouses hne hr⟩

/-! ## Runs -/

/-- A server that would stand at the next timeout still does after a round of the background
thread. -/
theorem Micro.poised (hm : Micro ctx .commitBg s₀ s o s')
    (h : Input.electionTimeout.Rouses s) : Input.electionTimeout.Rouses s' := by
  obtain ⟨⟨hdown, hcatch⟩, hrole⟩ := h
  cases hm with
  | quiet hq =>
    refine ⟨⟨?_, (hq.field Server.catchingUp).trans hcatch⟩, ?_⟩
    · rwa [hq.field Server.stepsToDown]
    · rwa [hq.field Server.role]
  | enterTerm _ hin => rcases hin with ⟨_, _, h, -⟩ | ⟨_, _, _, h, -⟩ <;> cases h
  | stepDown _ hin => obtain ⟨_, _, h, -⟩ := hin; cases h
  | stand hin | standWin hin | leaveConfig hin | leaving hin | join hin => cases hin
  | tallyWin hin => obtain ⟨_, _, h, -⟩ := hin; cases h
  | countdown h => exact (hdown h).elim
  | caughtUp => exact ⟨⟨hdown, rfl⟩, hrole⟩
  | addConfigured =>
    obtain ⟨ps, j, n, hfold⟩ := foldl_addConfigured_frame ctx _ s
    rw [hfold]
    exact ⟨⟨hdown, hcatch⟩, hrole⟩
  | dropOnly hin => exact hin.elim
  | _ => exact ⟨⟨hdown, hcatch⟩, hrole⟩

theorem Server.take_bg_poised (h : Input.electionTimeout.Rouses s) :
    Input.electionTimeout.Rouses (s.take ctx .commitBg) := by
  refine (take_path ctx s .commitBg).fold (R := fun s₁ _ s₂ =>
    Input.electionTimeout.Rouses s₁ → Input.electionTimeout.Rouses s₂) (fun _ h => h) ?_ h
  exact fun _ _ _ _ _ hm ih h => ih (hm.poised h)

theorem Server.meets_congr {C D : Server → Input → Prop} (h : ∀ s inp, C s inp ↔ D s inp)
    (inps : List Input) : s.Meets ctx C inps ↔ s.Meets ctx D inps := by
  induction inps generalizing s with
  | nil => exact Iff.rfl
  | cons inp inps ih => exact and_congr (h s inp) ih

/-- **Removed servers.** In every run of a server, from the round on in which it applies a
configuration without itself, it is silent for exactly as long as nothing rouses it. The next
election timeout does, unless the server leads or counts down to its end. -/
theorem removed_silent_iff (ctx : Context) (id : Int) (b : Boot) (inps later : List Input)
    (conf : ClusterConfig) (hleaves : ((Server.new ctx id b).run ctx inps).Leaves conf) :
    let s := (Server.new ctx id b).run ctx inps
    let s' := s.take ctx .commitBg
    (s'.Meets ctx (Silent ctx) later ↔ s'.Meets ctx (fun s inp => ¬inp.Rouses s) later) ∧
      (s.role ≠ .leader → ¬0 < s.stepsToDown → Input.electionTimeout.Rouses s') := by
  intro s s'
  refine ⟨meets_congr (silent_iff ctx) later, fun hrole hdown => ?_⟩
  exact take_bg_poised ⟨⟨hdown, hleaves.settled⟩, hrole⟩

/-- Servers 1 and 3, at index 2. -/
def withoutTwo : ClusterConfig := { (bootOf [1, 3]).config with logIdx := 2, prevLogIdx := 1 }

/-- Server 2 applies the configuration of three servers, and is about to apply one without itself. -/
def aboutToLeave : Server :=
  (Server.new {} 2 (bootOf [1, 2, 3])).run {}
    [.request (entriesReq 1 0 2 [confEntry 3 1, ⟨1, .conf, .config withoutTwo⟩]) 0, .commitBg]

theorem aboutToLeave_leaves : aboutToLeave.Leaves withoutTwo := by
  have hconf : (aboutToLeave.logStore.entryAt (aboutToLeave.smCommitIndex + 1)).config? =
      some withoutTwo := by decide +kernel
  obtain ⟨hentry, hconfig⟩ := LogEntry.config?_eq_some.1 hconf
  exact ⟨by decide +kernel, by decide +kernel, by decide +kernel, hentry, hconfig,
    by decide +kernel⟩

/-- The leader's heartbeats and its own rounds leave it silent. -/
theorem removed_silent_iff_heartbeat :
    (aboutToLeave.take {} .commitBg).Meets {} (Silent {})
      [.request (entriesReq 1 2 2 []) 0, .commitBg, .hbTimeout 0] :=
  (removed_silent_iff {} 2 (bootOf [1, 2, 3]) _ _ withoutTwo aboutToLeave_leaves).1.2
    (by decide +kernel)

/-- The request of server 2 for the vote of server 1 in term 2. -/
def askOne : ReqMsg where
  term := 2
  type := .requestVoteRequest
  src := 2
  dst := 1
  lastLogTerm := 1
  lastLogIdx := 2
  commitIdx := 2
  logEntries := []

/-- Server 1 gives it. -/
def voteForTwo : Input :=
  .response ⟨.peerResp, 0, 1, askOne, aboutToLeave⟩ ⟨2, .requestVoteResponse, 1, 2, 3, true⟩ 0

/-- Server 2 has been removed, but its timer is still on. It stands in term 2, asks the two servers of
the configuration without it for their votes, and is elected. -/
theorem removed_server_leads :
    aboutToLeave.id = 2 ∧ withoutTwo.getServer 2 = none ∧
      (Input.commitBg.handle {} aboutToLeave).out.any (· matches .systemExit 0) ∧
      ((aboutToLeave.take {} .commitBg).run {} [.electionTimeout]).term = 2 ∧
      (Input.electionTimeout.handle {} (aboutToLeave.take {} .commitBg)).out.filterMap
        (fun e => e.sent.map (·.req.type)) = [.requestVoteRequest, .requestVoteRequest] ∧
      ((aboutToLeave.take {} .commitBg).run {} [.electionTimeout, voteForTwo]).role = .leader := by
  decide +kernel

end EnclaveRaft
