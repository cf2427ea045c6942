import EnclaveRaft.Ballots
import EnclaveRaft.Turns

/-!
# Votes in clusters that change

With any inputs, membership requests included, two handlers can make a server's term go back or
take back its vote: `handle_join_cluster_req` writes both without looking at them, and an election
timeout in term `2 ^ 64 - 1` wraps the term to 0. Every other handler is monotone. Along runs in
which neither happens, a server never grants its vote in a term to two candidates.
-/

namespace EnclaveRaft

open Act Server

variable {ctx : Context} {inp : Input} {s₀ s s' : Server} {o : List Effect}

/-! ## One handler -/

/-- The term does not go back, and within a term the vote stays or goes from nobody to the
candidate that asked for it. -/
def VotesOnce (inp : Input) (s s' : Server) : Prop :=
  s.term ≤ s'.term ∧ (s'.term = s.term → s'.votedFor = s.votedFor ∨ (s.votedFor = nobody ∧
    ∃ req now, inp = .request req now ∧ req.type = .requestVoteRequest ∧ s'.votedFor = req.src))

/-- A join request that makes the server go back to an earlier term, or forget a vote. -/
def JoinResets (inp : Input) (s : Server) : Prop :=
  ∃ req now e, inp = .request req now ∧ req.type = .joinClusterRequest ∧ req.logEntries = [e] ∧
    e.valType = .conf ∧ s.catchingUp = false ∧
    (req.term < s.term ∨ (req.term = s.term ∧ s.votedFor ≠ nobody))

/-- `JoinResets`, computed. -/
def joinResets : Input → Server → Bool
  | .request req _, s =>
    match req.logEntries with
    | [e] => req.type = .joinClusterRequest && e.valType = .conf && !s.catchingUp &&
        (req.term < s.term || (req.term = s.term && s.votedFor ≠ nobody))
    | _ => false
  | _, _ => false

theorem joinResets_iff : joinResets inp s = true ↔ JoinResets inp s := by
  cases inp with
  | request req now =>
    simp only [joinResets]
    split
    next e hes =>
      constructor
      · intro h
        simp only [Bool.and_eq_true, Bool.or_eq_true, decide_eq_true_eq, Bool.not_eq_true'] at h
        exact ⟨req, now, e, rfl, h.1.1.1, hes, h.1.1.2, h.1.2, h.2⟩
      · rintro ⟨req', now', e', heq, htype, hes', hval, hcatch, hreset⟩
        cases heq
        cases hes.symm.trans hes'
        simp [htype, hval, hcatch, hreset]
    next hes =>
      refine ⟨fun h => (Bool.false_ne_true h).elim, ?_⟩
      rintro ⟨req', now', e', heq, -, hes', -⟩
      cases heq
      exact (hes e' hes').elim
  | _ =>
    refine ⟨fun h => (Bool.false_ne_true h).elim, ?_⟩
    rintro ⟨req', now', e', heq, -⟩
    cases heq

instance (inp : Input) (s : Server) : Decidable (JoinResets inp s) :=
  decidable_of_iff _ joinResets_iff

theorem VotesOnce.refl (s : Server) : VotesOnce inp s s := ⟨le_rfl, fun _ => .inl rfl⟩

theorem VotesOnce.trans {s'' : Server} (h : VotesOnce inp s s') (h' : VotesOnce inp s' s'') :
    VotesOnce inp s s'' := by
  refine ⟨h.1.trans h'.1, fun heq => ?_⟩
  have hterm : s'.term = s.term := le_antisymm (heq ▸ h'.1) h.1
  have hterm' : s''.term = s'.term := heq.trans hterm.symm
  rcases h'.2 hterm' with hsame | ⟨hnone, hgrant⟩
  · rw [hsame]
    exact h.2 hterm
  · rcases h.2 hterm with hsame | ⟨hnone', -⟩
    · exact .inr ⟨hsame ▸ hnone, hgrant⟩
    · exact .inr ⟨hnone', hgrant⟩

theorem VotesOnce.voteMonotone (h : VotesOnce inp s s') : VoteMonotone s s' :=
  ⟨h.1, fun heq => (h.2 heq).imp_right And.left⟩

theorem Micro.votesOnce (hm : Micro ctx inp s₀ s o s') (hj : ¬JoinResets inp s₀) :
    VotesOnce inp s s' := by
  cases hm.ballot with
  | same hstate | tally _ _ _ _ hstate =>
    simp [VotesOnce, Server.term, Server.votedFor, hstate]
  | enter t hlt _ hstate =>
    have := term_of_state hstate
    exact ⟨this ▸ hlt.le, fun h => by omega⟩
  | stand hstate =>
    have := term_of_state hstate
    exact ⟨by omega, fun h => by omega⟩
  | grant req now hin htype hgrant hstate =>
    refine ⟨(term_of_state hstate).ge, fun _ => ?_⟩
    have hvote := votedFor_of_state hstate
    rcases grantsVote_votedFor hgrant with h | h
    · exact .inl (hvote.trans h.symm)
    · exact .inr ⟨h, req, now, hin, htype, hvote⟩
  | join req now hin htype hk hcatch hentry hstate =>
    -- a join request that does not reset brings a later term, or finds no vote to forget
    subst hk
    obtain ⟨e, hes, hval⟩ := hentry
    have hno : ¬(req.term < s.term ∨ (req.term = s.term ∧ s.votedFor ≠ nobody)) :=
      fun h => hj ⟨req, now, e, hin, htype, hes, hval, hcatch, h⟩
    rw [not_or, not_lt] at hno
    rw [VotesOnce, term_of_state hstate, votedFor_of_state hstate]
    refine ⟨hno.1, fun heq => .inl ?_⟩
    by_contra hne
    exact hno.2 ⟨heq, fun h => hne h.symm⟩

/-- What adopting a configuration may change. -/
theorem reconfigure_frame (ctx : Context) (c : ClusterConfig) (s : Server) :
    ∃ ps j n conf shared saved, (reconfigure ctx c s).state =
      { s with
        peers := ps, srvToJoin := j, nextUid := n, config := conf, configShared := shared,
        savedConfig := saved } := by
  obtain ⟨ps, j, n, hfold⟩ := foldl_addConfigured_frame ctx
    (c.servers.filter fun srv => (s.findPeer srv.id).isNone ∧ srv.id ≠ s.id) s
  rw [reconfigure, get_bind_apply, modify_bind_apply, modify_bind_apply, get_bind_apply, hfold]
  split
  · rw [saveConfig]
    cases c.copied with
    | none => exact ⟨_, _, _, _, _, _, rfl⟩
    | some saved => exact ⟨_, _, _, _, _, _, rfl⟩
  · exact ⟨_, _, _, _, _, _, rfl⟩

/-- A join request that is taken. -/
theorem joined_frame (ctx : Context) {req : ReqMsg} (now : Int) {e : LogEntry}
    (htype : req.type = .joinClusterRequest) (hes : req.logEntries = [e])
    (hval : e.valType = .conf) (hcatch : s.catchingUp = false) :
    ∃ ps j n conf shared saved, ((Input.request req now).handle ctx s).state =
      { startCatchingUp req s with
        peers := ps, srvToJoin := j, nextUid := n, config := conf, configShared := shared,
        savedConfig := saved } := by
  have hnot : ¬req.type.bringsTerm := by simp [MsgType.bringsTerm, htype]
  have hno : ¬(e.valType ≠ .conf ∨ s.catchingUp = true) := by simp [hval, hcatch]
  have hrun : (processReq ctx req now s).state = (handleJoinClusterReq ctx req s).state := by
    simp only [processReq, when_neg hnot, pure_bind_apply, htype, handleExtendedMsg]
  rw [Input.handle, bind_pure_state, hrun, handleJoinClusterReq, get_bind_apply]
  simp only [hes, if_neg hno, modify_bind_apply]
  cases e.buf with
  | config c =>
    by_cases hcopied : c.copied.isNone
    · simp only [if_pos hcopied]
      exact ⟨_, _, _, _, _, _, rfl⟩
    · simp only [if_neg hcopied]
      rw [bind_pure_state]
      exact reconfigure_frame ctx c (startCatchingUp req s)
  | _ => exact ⟨_, _, _, _, _, _, rfl⟩

/-- A join request that is taken leaves its own term and no vote. -/
theorem joined_state (ctx : Context) {req : ReqMsg} (now : Int) {e : LogEntry}
    (htype : req.type = .joinClusterRequest) (hes : req.logEntries = [e])
    (hval : e.valType = .conf) (hcatch : s.catchingUp = false) :
    ((Input.request req now).handle ctx s).state.state = ⟨req.term, nobody⟩ := by
  obtain ⟨ps, j, n, conf, shared, saved, hframe⟩ := joined_frame ctx now htype hes hval hcatch
  rw [hframe]
  rfl

/-- **Votes and join requests.** A handler is monotone in the term and the vote unless it takes a
join request that resets them. -/
theorem votesOnce_iff (ctx : Context) (inp : Input) (s : Server) :
    VotesOnce inp s (inp.handle ctx s).state ↔ ¬JoinResets inp s := by
  constructor
  · rintro ⟨hle, hvote⟩ ⟨req, now, e, rfl, htype, hes, hval, hcatch, hreset⟩
    have hstate := joined_state ctx now htype hes hval hcatch
    rw [term_of_state hstate] at hle hvote
    rcases hreset with hlt | ⟨heq, hne⟩
    · exact hlt.not_ge hle
    · rcases hvote heq with hsame | ⟨hnone, -⟩
      · rw [votedFor_of_state hstate] at hsame
        exact hne hsame.symm
      · exact hne hnone
  · intro hj
    obtain ⟨hpath, -⟩ := walks_handle ctx inp s
    refine hpath.fold (R := fun s _ s' => VotesOnce inp s s') VotesOnce.refl ?_
    exact fun _ _ _ _ _ hm h => (hm.votesOnce hj).trans h

/-! ## Election timeouts -/

/-- Nothing that matters here happens. -/
def Dormant (s : Server) (o : List Effect) (s' : Server) : Prop :=
  s'.state = s.state ∧ s'.role = s.role ∧ ∀ rpc, .send rpc ∉ o

theorem dormant_restartElectionTimer (s : Server) : Dormant s [] s.restartElectionTimer := by
  have hq := quiet_restartElectionTimer s
  exact ⟨hq.field Server.state, hq.field Server.role, fun _ => List.not_mem_nil⟩

/-- A timeout at a server that does not stand. -/
theorem walks_timeout_dormant (hr : ¬(Turn.Stands s ∧ s.role ≠ .leader)) :
    Walks Dormant (handleElectionTimeout ctx) s fun _ _ => True := by
  have hexit (code : Int) (e : RaftException) (s : Server) :
      Walks Dormant (exitWith code e : M Unit) s fun _ _ => True :=
    walks_emit_bind ⟨rfl, rfl, by simp⟩ walks_throw
  refine walks_get_bind (walks_ite (fun _ => ?_) fun hdown => ?_)
  · refine walks_modify_bind ⟨rfl, rfl, by simp⟩ (walks_ite (fun _ => ?_) fun _ => ?_)
    · refine walks_bind (R := fun _ _ => True) (walks_when (fun _ => ?_) fun _ => trivial)
        fun _ _ _ => hexit _ _ _
      refine walks_modify_bind ⟨rfl, rfl, by simp⟩ (walks_get_bind ?_)
      exact walks_saveConfig fun _ _ => ⟨⟨rfl, rfl, by simp⟩, trivial⟩
    · exact walks_modify (dormant_restartElectionTimer _) trivial
  refine walks_ite (fun _ => walks_modify (dormant_restartElectionTimer s) trivial) fun hcatch => ?_
  refine walks_ite (fun _ => hexit _ _ _) fun hrole => ?_
  exact (hr ⟨⟨hdown, by simpa using hcatch⟩, hrole⟩).elim

/-- Small steps of a timeout do not lead back to an earlier term. -/
theorem Micro.term_le_of_timeout (hm : Micro ctx .electionTimeout s₀ s o s') : s.term ≤ s'.term :=
  (hm.ballot.voteMonotone fun _ _ h => nomatch h).1

/-- A candidate stays in its new term. -/
theorem walks_requestVote_term (s : Server) :
    Walks (fun s _ s' => s.term ≤ s'.term) (requestVote ctx) (becomeCandidate s)
      fun _ _ => True := by
  refine walks_modify_bind le_rfl (walks_get_bind (walks_ite (fun _ => ?_) fun _ => ?_))
  · refine walks_modify_bind le_rfl (walks_modify_bind le_rfl ?_)
    exact Walks.mono (m := Micro ctx .electionTimeout s)
      ((walks_becomeLeader_rest rfl).weaken fun _ _ _ => trivial)
      fun _ _ _ => Micro.term_le_of_timeout
  · exact Walks.mono (m := Micro ctx .electionTimeout s) (walks_sendVotes rfl rfl rfl)
      fun _ _ _ => Micro.term_le_of_timeout

theorem term_lt_of_stands (h : Turn.Stands s ∧ s.role ≠ .leader) :
    s.term < (Input.electionTimeout.handle ctx s).state.term := by
  obtain ⟨⟨hdown, hcatch⟩, hrole⟩ := h
  have hrun : handleElectionTimeout ctx s = (requestVote ctx >>= fun _ =>
      modify fun s => if s.role = .leader then s else s.restartElectionTimer) (becomeCandidate s) := by
    rw [handleElectionTimeout, get_bind_apply, if_neg hdown, if_neg (by simp [hcatch]),
      if_neg hrole]
    rfl
  have hwalk : Walks (fun s _ s' => s.term ≤ s'.term) (requestVote ctx >>= fun _ =>
      modify fun s => if s.role = .leader then s else s.restartElectionTimer) (becomeCandidate s)
      fun _ _ => True := by
    refine walks_bind (walks_requestVote_term s) fun _ s₁ _ => walks_modify ?_ trivial
    split
    · exact le_rfl
    · exact (congrArg SrvState.term ((quiet_restartElectionTimer s₁).field Server.state)).ge
  have hle := hwalk.1.fold (R := fun s _ s' => s.term ≤ s'.term) (fun _ => le_rfl)
    fun _ _ _ _ _ h h' => le_trans h h'
  have hstate : (Input.electionTimeout.handle ctx s).state =
      (handleElectionTimeout ctx s).state :=
    bind_pure_state (handleElectionTimeout ctx) _ s
  rw [hstate, hrun]
  exact Nat.lt_of_lt_of_le (Nat.lt_succ_self _) hle

/-! ## The end of the terms -/

/-- The terms of `srv_state` and of the messages are `ulong`s. -/
def termLimit : Nat := 2 ^ 64

/-- The term of a message is one that `ulong` holds. -/
def Input.TermFits : Input → Prop
  | request req _ => req.term < termLimit
  | response _ resp _ => resp.term < termLimit
  | _ => True

/-- The server as the source stores it: after `inc_term` the term is that of `ulong`. -/
def Server.cutTerm (s : Server) : Server := { s with state := ⟨s.term % termLimit, s.votedFor⟩ }

/-- The server stands for election and its term is the last one. -/
def StandsAtLimit (inp : Input) (s : Server) : Prop :=
  inp = .electionTimeout ∧ (Turn.Stands s ∧ s.role ≠ .leader) ∧ termLimit ≤ s.term + 1

instance (inp : Input) (s : Server) : Decidable (StandsAtLimit inp s) :=
  match inp with
  | .electionTimeout => decidable_of_iff ((Turn.Stands s ∧ s.role ≠ .leader) ∧
      termLimit ≤ s.term + 1) ⟨fun h => ⟨rfl, h⟩, fun h => h.2⟩
  | .request _ _ | .hbTimeout _ | .response _ _ _ | .failure _ | .resend _ | .commitBg =>
    isFalse fun h => nomatch h.1

theorem Server.cutTerm_of_lt (h : s.term < termLimit) : s.cutTerm = s := by
  rw [Server.cutTerm, Nat.mod_eq_of_lt h]
  rfl

theorem Input.TermFits.of_brings (hfits : inp.TermFits) {t : Nat} (h : inp.Brings t) :
    t < termLimit := by
  rcases h with ⟨req, now, rfl, -, rfl⟩ | ⟨rpc, resp, now, rfl, -, rfl⟩
  · exact hfits
  · exact hfits

/-- Inside a handler that started in `s₀`, only standing takes the term past the last one. -/
def Input.TermWithin (inp : Input) (s₀ s : Server) : Prop :=
  s.term < termLimit ∨ (inp = .electionTimeout ∧ s.term = s₀.term + 1)

theorem Micro.termWithin (hm : Micro ctx inp s₀ s o s') (hfits : inp.TermFits)
    (h : inp.TermWithin s₀ s) : inp.TermWithin s₀ s' := by
  have hsame (ht : s'.term = s.term) : inp.TermWithin s₀ s' := by
    rwa [Input.TermWithin, ht]
  cases hm.ballot with
  | same hstate | tally _ _ _ _ hstate => exact hsame (congrArg SrvState.term hstate)
  | grant _ _ _ _ _ hstate => exact hsame (term_of_state hstate)
  | enter t _ hin hstate => exact .inl (term_of_state hstate ▸ hfits.of_brings hin)
  | stand hstate _ _ _ hin hfirst =>
    refine .inr ⟨hin, (term_of_state hstate).trans ?_⟩
    rw [Server.term, hfirst]
    rfl
  | join req now hin _ _ _ _ hstate =>
    subst hin
    exact .inl ((term_of_state hstate).trans_lt hfits)

theorem handle_termWithin (ctx : Context) (hfits : inp.TermFits) (hs : s.term < termLimit) :
    inp.TermWithin s (inp.handle ctx s).state :=
  (walks_handle ctx inp s).1.fold
    (R := fun s₁ _ s₂ => inp.TermWithin s s₁ → inp.TermWithin s s₂) (fun _ h => h)
    (fun _ _ _ _ _ hm ih h => ih (hm.termWithin hfits h)) (.inl hs)

/-- A server that does not stand keeps its term at a timeout. -/
theorem term_of_not_stands (h : ¬(Turn.Stands s ∧ s.role ≠ .leader)) :
    (Input.electionTimeout.handle ctx s).state.term = s.term := by
  have hwalk : Walks Dormant (handleElectionTimeout ctx) s fun _ _ => True :=
    walks_timeout_dormant h
  have hstate : (handleElectionTimeout ctx s).state.state = s.state :=
    hwalk.1.fold (R := fun (s : Server) _ (s' : Server) => s'.state = s.state) (fun _ => rfl)
      fun _ _ _ _ _ hm ih => ih.trans hm.1
  rw [Input.handle, bind_pure_state]
  exact congrArg SrvState.term hstate

theorem handle_term_lt (hfits : inp.TermFits) (hs : s.term < termLimit)
    (hlimit : ¬StandsAtLimit inp s) : (inp.handle ctx s).state.term < termLimit := by
  rcases handle_termWithin ctx hfits hs with h | ⟨rfl, h⟩
  · exact h
  · by_cases hstands : Turn.Stands s ∧ s.role ≠ .leader
    · rw [h]
      exact not_le.1 fun hle => hlimit ⟨rfl, hstands, hle⟩
    · rwa [term_of_not_stands hstands]

/-- Standing in the last term leads to term 0. -/
theorem cutTerm_of_standsAtLimit (hs : s.term < termLimit) (h : StandsAtLimit inp s) :
    (inp.handle ctx s).state.cutTerm.term = 0 := by
  obtain ⟨rfl, hstands, hle⟩ := h
  have hlt : s.term < (Input.electionTimeout.handle ctx s).state.term := term_lt_of_stands hstands
  have hterm : (Input.electionTimeout.handle ctx s).state.term = termLimit := by
    have hfits : Input.electionTimeout.TermFits := trivial
    rcases handle_termWithin ctx hfits hs with h | ⟨-, h⟩
    · omega
    · omega
  show _ % termLimit = 0
  rw [hterm, Nat.mod_self]

/-- **Terms, votes and what resets them.** As the source stores its term, a handler is monotone in
the term and the vote unless it takes a join request that resets them, or stands for election in
the last term. -/
theorem votesOnce_cutTerm_iff (ctx : Context) (inp : Input) (s : Server) (hfits : inp.TermFits)
    (hs : s.term < termLimit) :
    VotesOnce inp s (inp.handle ctx s).state.cutTerm ↔
      ¬JoinResets inp s ∧ ¬StandsAtLimit inp s := by
  by_cases hlimit : StandsAtLimit inp s
  · refine ⟨fun h => ?_, fun h => (h.2 hlimit).elim⟩
    have hle := h.1
    rw [cutTerm_of_standsAtLimit hs hlimit] at hle
    have hpos : 1 < termLimit := by decide
    have := hlimit.2.2
    omega
  · rw [Server.cutTerm_of_lt (handle_term_lt hfits hs hlimit), votesOnce_iff]
    exact ⟨fun h => ⟨h, hlimit⟩, And.left⟩

/-! ## Runs -/

/-- Server `j` has given its vote of term `t` to `x`: it answered so, or it stood itself. -/
def Cluster.Granted (c : Cluster) (j : Int) (t : Nat) (x : Int) : Prop :=
  (∃ rpc resp, c.RespTo rpc resp ∧ rpc.req.type = .requestVoteRequest ∧ resp.accepted = true ∧
    rpc.target = j ∧ resp.term = t ∧ rpc.req.src = x) ∨
  (x = j ∧ ∃ rpc ∈ c.rpcs, rpc.req.type = .requestVoteRequest ∧ rpc.req.src = j ∧
    rpc.req.term = t)

/-- No join request resets a ballot, no server stands in the last term, and nobody stands under the
id of "nobody". -/
def KeepsVotes (c : Cluster) (e : Event) : Prop :=
  e.Allowed (fun c i inp => ¬JoinResets inp (c.servers i) ∧ ¬StandsAtLimit inp (c.servers i)) c ∧
    e ≠ .electionTimeout nobody

instance (c : Cluster) (e : Event) : Decidable (KeepsVotes c e) :=
  inferInstanceAs (Decidable (_ ∧ _))

/-- The table `v` has every vote that was given. -/
structure VoteBook (v : Table) (c : Cluster) : Prop where
  numbered : c.Numbered
  id : ∀ i, (c.servers i).id = i
  recorded : ∀ i, Recorded v i (c.servers i)
  reply : ∀ rpc resp, c.RespTo rpc resp → rpc.req.type = .requestVoteRequest →
    resp.accepted = true → v rpc.target resp.term = some rpc.req.src
  request : ∀ rpc ∈ c.rpcs, rpc.req.type = .requestVoteRequest →
    rpc.req.src ≠ nobody ∧ v rpc.req.src rpc.req.term = some rpc.req.src
  retries : ∀ rpc ∈ c.retries, rpc.req.type ≠ .requestVoteRequest

theorem VoteBook.granted {v : Table} {c : Cluster} (h : VoteBook v c) {j : Int} {t : Nat} {x : Int}
    (hg : c.Granted j t x) : v j t = some x := by
  rcases hg with ⟨rpc, resp, hr, htype, hacc, rfl, rfl, rfl⟩ | ⟨rfl, rpc, hr, htype, rfl, rfl⟩
  · exact h.reply rpc resp hr htype hacc
  · exact (h.request rpc hr htype).2

/-- The vote requests that a small step sends are those of a server that has voted for itself. -/
theorem Micro.sends_vote (hm : Micro ctx inp s₀ s o s') {rpc : Rpc} (hrpc : .send rpc ∈ o)
    (htype : rpc.req.type = .requestVoteRequest) :
    (inp = .electionTimeout ∧ s' = s ∧ s.votedFor = s.id ∧ rpc.req.src = s.id ∧
      rpc.req.term = s.term) ∨ ∃ rpc', inp = .resend rpc' ∧ rpc'.req = rpc.req := by
  cases hm with
  | sendVote hin _ hself =>
    cases List.mem_singleton.1 hrpc
    exact .inl ⟨hin, rfl, hself, rfl, rfl⟩
  | sendAppend _ hmsg =>
    cases List.mem_singleton.1 hrpc
    obtain ⟨p, t, es, -, -, -, -, -, rfl⟩ := hmsg
    cases htype
  | sendSnapshot _ hmsg =>
    cases List.mem_singleton.1 hrpc
    obtain ⟨p, sync, e, r, -, -, ht, -⟩ := hmsg
    cases ht.symm.trans htype
  | sendExt _ hp =>
    cases List.mem_singleton.1 hrpc
    rcases hp with ⟨-, ht | ht⟩ | ⟨-, ht⟩ <;> cases ht.symm.trans htype
  | resend hin =>
    cases List.mem_singleton.1 hrpc
    exact .inr ⟨_, hin, rfl⟩
  | note he => cases List.mem_singleton.1 hrpc; exact he.elim
  | merge => exact (writtenOut_inert _ hrpc).elim
  | client => cases List.mem_singleton.1 hrpc
  | process => cases List.mem_singleton.1 hrpc
  | retry => cases List.mem_singleton.1 hrpc
  | _ => cases hrpc

theorem Micro.retries (hm : Micro ctx inp s₀ s o s') {rpc : Rpc} (hrpc : .retry rpc ∈ o) :
    rpc.req.type = .leaveClusterRequest ∨ rpc.req.type = .syncLogRequest ∨
      rpc.req.type = .joinClusterRequest := by
  cases hm with
  | retry _ _ _ hp =>
    cases List.mem_singleton.1 hrpc
    unfold retryPeer at hp
    split at hp
    next ht => exact .inl ht
    next ht => exact .inr (.inl ht)
    next ht => exact .inr (.inr ht)
    next => cases hp
  | note he => cases List.mem_singleton.1 hrpc; exact he.elim
  | merge => exact (writtenOut_inert _ hrpc).elim
  | _ => first | cases hrpc; done | cases List.mem_singleton.1 hrpc

namespace VoteBook

variable {v : Table} {c : Cluster} {i : Int}

/-- A small step that is monotone in the vote keeps the book. -/
theorem micro (h : VoteBook v c) (hl : c.Legit i inp)
    (hi : inp = .electionTimeout → i ≠ nobody) (hv : VoteMonotone (c.servers i) s')
    (hm : Micro ctx inp s₀ (c.servers i) o s') :
    VoteBook (v.cast i s') (c.update i s' o) := by
  have hle := (h.recorded i).le_cast hv
  have hrec := (h.recorded i).cast hv
  refine ⟨h.numbered.update i s' o, fun j => ?_, fun j => ?_, fun rpc resp hr htype hacc => ?_,
    fun rpc hr htype => ?_, fun rpc hr => ?_⟩
  · by_cases hji : j = i
    · subst hji
      simpa using hm.id_eq.trans (h.id j)
    · simpa [Cluster.update, hji] using h.id j
  · by_cases hji : j = i
    · subst hji
      simpa using hrec
    · have hcast : v.cast i s' j = v j := funext (Table.cast_of_ne v hji s')
      simp only [Cluster.update, if_neg hji]
      exact ⟨hcast ▸ (h.recorded j).current, hcast ▸ (h.recorded j).future⟩
  · exact hle _ _ _ (h.reply rpc resp (hr.of_update h.numbered) htype hacc)
  · rcases Cluster.mem_update_rpcs hr with hr | hr
    · exact ⟨(h.request rpc hr htype).1, hle _ _ _ (h.request rpc hr htype).2⟩
    · rcases hm.sends_vote hr htype with ⟨hin, rfl, hself, hsrc, hterm⟩ | ⟨rpc', rfl, hreq⟩
      · have hne := hi hin
        rw [hsrc, hterm, h.id i]
        refine ⟨hne, ?_⟩
        rw [hrec.current, hself, h.id i, voteOf_eq_some]
        exact ⟨hne, rfl⟩
      · exact (h.retries rpc' hl.1 (hreq ▸ htype)).elim
  · rcases Cluster.mem_update_retries hr with hr | hr
    · exact h.retries rpc hr
    · rcases hm.retries hr with ht | ht | ht <;> simp [ht]

theorem answer {rpc : Rpc} {k : Nat} {resp : RespMsg} (h : VoteBook v c)
    (hsrc : rpc ∈ c.rpcs) (hk : c.rpcs[k]? = some rpc)
    (hrep : Replied s₀ rpc.req resp (c.servers rpc.target)) : VoteBook v (c.answer k resp) := by
  refine ⟨h.numbered.answer hk resp, h.id, h.recorded, fun rpc' resp' hr htype hacc => ?_,
    h.request, h.retries⟩
  rcases hr.of_answer with hr | ⟨hk', rfl⟩
  · exact h.reply rpc' resp' hr htype hacc
  · obtain rfl : rpc = rpc' := Option.some.inj (hk.symm.trans hk')
    have hvote := hrep.vote htype
    rw [hvote.term, (h.recorded rpc.target).current, (hvote.accepted hacc).2, voteOf_eq_some]
    exact ⟨(h.request rpc hsrc htype).1, rfl⟩

theorem start (ctx : Context) (b : Int → Boot) : ∃ v, VoteBook v (Cluster.start ctx b) := by
  refine ⟨fun i t => if t = (Server.new ctx i (b i)).term
    then voteOf (Server.new ctx i (b i)).votedFor else none,
    fun _ hr => (List.not_mem_nil hr).elim, fun i => ?_,
    fun i => ⟨if_pos rfl, fun t hlt => if_neg hlt.ne'⟩, fun rpc resp hr => ?_,
    fun _ hr => (List.not_mem_nil hr).elim, fun _ hr => (List.not_mem_nil hr).elim⟩
  · obtain ⟨ps, n, hq⟩ := new_frame ctx i (b i)
    exact hq.field Server.id
  · obtain ⟨k, -, hr⟩ := hr
    exact (List.not_mem_nil hr).elim

theorem run (h : VoteBook v c) {es : List Event} (hes : c.Meets ctx KeepsVotes es) :
    ∃ v', VoteBook v' (c.run ctx es) := by
  refine Cluster.inv_run (I := fun c => ∃ v, VoteBook v c) (fun c e hI hC => ?_) ⟨v, h⟩ hes
  refine Cluster.inv_step (I := fun c => ∃ v, VoteBook v c) ?_ ?_ hI
  · rintro c' i inp k o s' hin - hl ⟨v', hv'⟩ hm
    have hmono := (hm.votesOnce (hC.1 i inp k hin).1).voteMonotone
    refine ⟨v'.cast i s', hv'.micro hl (fun hto hi => ?_) hmono hm⟩
    subst hto hi
    exact hC.2 (Cluster.input_electionTimeout hin)
  · rintro c' rpc now n resp hin - hl ⟨v', hv'⟩ hrpc hrep
    exact ⟨v', hv'.answer (List.mem_of_getElem? hrpc) hrpc hrep⟩

end VoteBook

/-- **Terms and votes.** A handler keeps the term and the vote monotone exactly if it does not
take a join request that resets them and does not stand in the last term. In every run without
either no server gives its vote in a term to two candidates. -/
theorem votes_once (ctx : Context) :
    (∀ inp s, inp.TermFits → s.term < termLimit →
        (VotesOnce inp s (inp.handle ctx s).state.cutTerm ↔
          ¬JoinResets inp s ∧ ¬StandsAtLimit inp s)) ∧
      ∀ (b : Int → Boot) (es : List Event), (Cluster.start ctx b).Meets ctx KeepsVotes es →
        ∀ (j : Int) (t : Nat) (x y : Int), ((Cluster.start ctx b).run ctx es).Granted j t x →
          ((Cluster.start ctx b).run ctx es).Granted j t y → x = y := by
  refine ⟨votesOnce_cutTerm_iff ctx, fun b es hes j t x y hx hy => ?_⟩
  obtain ⟨v, hv⟩ := VoteBook.start ctx b
  obtain ⟨v', hv'⟩ := hv.run hes
  exact Option.some.inj ((hv'.granted hx).symm.trans (hv'.granted hy))

/-- The vote that response number `n` gives: voter, term and candidate. -/
def Cluster.voteAt (c : Cluster) (n : Nat) : Option (Int × Nat × Int) :=
  match c.resps[n]? with
  | none => none
  | some (k, resp) =>
    match c.rpcs[k]? with
    | none => none
    | some rpc => if rpc.req.type = .requestVoteRequest ∧ resp.accepted = true
      then some (rpc.target, resp.term, rpc.req.src) else none

theorem Cluster.granted_of_voteAt {c : Cluster} {n : Nat} {j : Int} {t : Nat} {x : Int}
    (h : c.voteAt n = some (j, t, x)) : c.Granted j t x := by
  unfold voteAt at h
  split at h
  · cases h
  next k resp hresp =>
    split at h
    · cases h
    next rpc hrpc =>
      split at h
      next hacc =>
        cases h
        exact .inl ⟨rpc, resp, ⟨k, hrpc, List.mem_of_getElem? hresp⟩, hacc.1, hacc.2, rfl, rfl, rfl⟩
      next => cases h

theorem votes_once_elected :
    ((Cluster.start {} fun _ => three.fresh).run {} electOne).Granted 2 1 1 ∧ (1 : Int) = 1 := by
  have hg : ((Cluster.start {} fun _ => three.fresh).run {} electOne).Granted 2 1 1 :=
    Cluster.granted_of_voteAt (n := 0) (by decide +kernel)
  exact ⟨hg, (votes_once {}).2 (fun _ => three.fresh) electOne (by decide +kernel) 2 1 1 1 hg hg⟩

/-- A fresh server that knows only itself. -/
def alone (i : Int) : Boot := { config := { servers := [srvAt i] } }

/-- Server 1 starts alone, adds server 2 and replicates to it; server 2 then stands for
election. The join request, number 0, is still on its way a second time. -/
def joinTwo : List Event :=
  [.electionTimeout 1, .commitBg 1, .addServer 1 (srvAt 2), .deliver 0 0, .respond 0 0, .commitBg 1,
    .hbTimeout 1 1, .deliver 1 0, .respond 1 0, .deliver 2 0, .commitBg 2, .commitBg 2,
    .electionTimeout 2]

/-- A join request that arrives twice takes a candidate back a term, and its vote with it. -/
theorem join_request_twice :
    ((((Cluster.start {} alone).run {} joinTwo).servers 2).state = ⟨2, 2⟩) ∧
      (((Cluster.start {} alone).run {} (joinTwo ++ [.deliver 0 0])).servers 2).state =
        ⟨1, nobody⟩ := by
  decide +kernel

end EnclaveRaft
