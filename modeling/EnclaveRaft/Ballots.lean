import EnclaveRaft.Lib.Quorum
import EnclaveRaft.Static

/-!
# Terms, votes and leaders

Every small step does one of a few things to a server's ballot: its term, its vote, the votes it
has counted and its role (`BallotStep`). Over a static cluster the votes cast are recorded in a
table that only grows, every vote that a server counts is in the table, and a leader has a
majority of it. Hence a term has at most one leader.
-/

namespace EnclaveRaft

open Act Server

variable {m : Members} {ctx : Context} {inp : Input} {s₀ s s' : Server} {o : List Effect}

/-! ## What a small step does to the ballot -/

/-- What a small step does to the term, the vote, the tally and the role. -/
inductive BallotStep (inp : Input) (s₀ s s' : Server) : Prop
  | same (hstate : s'.state = s.state) (hvotes : s'.votesGranted = s.votesGranted)
      (hvoted : s'.votedServers = s.votedServers)
      (hrole : s'.role = s.role ∨ (s.role = .candidate ∧ s'.role = .follower))
  | enter (t : Nat) (hlt : s.term < t) (hin : inp.Brings t) (hstate : s'.state = ⟨t, nobody⟩)
      (hvotes : s'.votesGranted = 0) (hvoted : s'.votedServers = [])
      (hrole : s'.role = .follower)
  | stand (hstate : s'.state = ⟨s.term + 1, s.id⟩) (hvotes : s'.votesGranted = 1)
      (hvoted : s'.votedServers = [s.id])
      (hrole : s'.role = .candidate ∨ (s'.role = .leader ∧ s.peers = []))
      (hin : inp = .electionTimeout) (hfirst : s.state = s₀.state)
  | grant (req : ReqMsg) (now : Int) (hin : inp = .request req now)
      (htype : req.type = .requestVoteRequest) (hgrant : grantsVote s req)
      (hstate : s'.state = ⟨s.term, req.src⟩) (hvotes : s'.votesGranted = s.votesGranted)
      (hvoted : s'.votedServers = s.votedServers) (hrole : s'.role = s.role)
  | tally (resp : RespMsg) (hin : inp.Answers .requestVoteResponse resp)
      (hterm : resp.term = s.term) (hnew : resp.src ∉ s.votedServers)
      (hstate : s'.state = s.state)
      (hvotes : s'.votesGranted = if resp.accepted then s.votesGranted + 1 else s.votesGranted)
      (hvoted : s'.votedServers = s.votedServers.insert resp.src)
      (hrole : s'.role = s.role ∨
        (s'.role = .leader ∧ (s.peers.length + 1) / 2 < s'.votesGranted))
  | join (req : ReqMsg) (now : Int) (hin : inp = .request req now)
      (htype : req.type = .joinClusterRequest) (hk : s = s₀) (hcatch : s.catchingUp = false)
      (hentry : ∃ e, req.logEntries = [e] ∧ e.valType = .conf)
      (hstate : s'.state = ⟨req.term, nobody⟩)

theorem becomeFollower_votes (s : Server) :
    (becomeFollower s).votesGranted = s.votesGranted ∧
      (becomeFollower s).votedServers = s.votedServers :=
  ⟨(quiet_restartElectionTimer _).field Server.votesGranted,
    (quiet_restartElectionTimer _).field Server.votedServers⟩

theorem Micro.ballot (hm : Micro ctx inp s₀ s o s') : BallotStep inp s₀ s s' := by
  cases hm with
  | quiet hq =>
    exact .same (hq.field Server.state) (hq.field Server.votesGranted)
      (hq.field Server.votedServers) (.inl (hq.field Server.role))
  | enterTerm hlt hin =>
    exact .enter _ hlt hin (enterTerm_state _ s) (becomeFollower_votes _).1
      (becomeFollower_votes _).2 (becomeFollower_role _)
  | stepDown hrole =>
    exact .same (becomeFollower_state s) (becomeFollower_votes s).1 (becomeFollower_votes s).2
      (.inr ⟨hrole, becomeFollower_role s⟩)
  | stand hin hk => exact .stand rfl rfl rfl (.inl rfl) hin (hk.field Server.state)
  | standWin hin hk _ hpeers =>
    exact .stand rfl rfl rfl (.inr ⟨rfl, hpeers⟩) hin (hk.field Server.state)
  | grant hin htype h => exact .grant _ _ hin htype h rfl rfl rfl rfl
  | tally hin _ hterm _ hnew => exact .tally _ hin hterm hnew rfl rfl rfl (.inl rfl)
  | tallyWin hin _ hterm _ hnew hmaj =>
    exact .tally _ hin hterm hnew rfl rfl rfl (.inr ⟨rfl, hmaj⟩)
  | addConfigured =>
    obtain ⟨ps, j, n, hfold⟩ := foldl_addConfigured_frame ctx _ s
    rw [hfold]
    exact .same rfl rfl rfl (.inl rfl)
  | dropOnly =>
    obtain ⟨ps, -, hdrop⟩ := dropOnlyPeer_frame _ s
    rw [hdrop]
    exact .same rfl rfl rfl (.inl rfl)
  | join hin htype hk hcatch hentry => exact .join _ _ hin htype hk hcatch hentry rfl
  | _ => exact .same rfl rfl rfl (.inl rfl)

theorem term_of_state {t : Nat} {v : Int} (h : s.state = ⟨t, v⟩) : s.term = t :=
  congrArg SrvState.term h

theorem votedFor_of_state {t : Nat} {v : Int} (h : s.state = ⟨t, v⟩) : s.votedFor = v :=
  congrArg SrvState.votedFor h

/-! ## The table of votes -/

/-- Who voted for whom in which term. -/
abbrev Table := Int → Nat → Option Int

/-- The vote that `votedFor` stands for. -/
def voteOf (v : Int) : Option Int := if v = nobody then none else some v

/-- The table after server `i` has moved to `s`. -/
def Table.cast (v : Table) (i : Int) (s : Server) : Table := fun j t =>
  if j = i ∧ t = s.term ∧ s.votedFor ≠ nobody then some s.votedFor else v j t

/-- `i` has won term `t`. -/
def Won (m : Members) (v : Table) (t : Nat) (i : Int) : Prop :=
  Majority m.ids fun j => v j t = some i

theorem Won.unique {v : Table} {t : Nat} {i j : Int} (hi : Won m v t i) (hj : Won m v t j) :
    i = j := by
  obtain ⟨k, -, h, h'⟩ := hi.inter hj
  exact Option.some.inj (h.symm.trans h')

/-- Votes are only added. -/
def Table.Le (v v' : Table) : Prop := ∀ j t x, v j t = some x → v' j t = some x

theorem Won.mono {v v' : Table} {t : Nat} {i : Int} (h : Won m v t i) (hle : v.Le v') :
    Won m v' t i :=
  Majority.mono h fun j _ => hle j t i

/-- The votes a server has counted are in the table. -/
def Counted (m : Members) (v : Table) (s : Server) : Prop :=
  ∃ voters : List Int, voters.Nodup ∧
    (∀ j ∈ voters, j ∈ m.ids ∧ j ∈ s.votedServers ∧ v j s.term = some s.id) ∧
    voters.length = s.votesGranted

/-- The table has the vote of server `i`, and none of later terms. -/
structure Recorded (v : Table) (i : Int) (s : Server) : Prop where
  current : v i s.term = voteOf s.votedFor
  future : ∀ t, s.term < t → v i t = none

/-- The table `v` accounts for the cluster. -/
structure Ballots (m : Members) (v : Table) (c : Cluster) : Prop where
  recorded : ∀ i ∈ m.ids, Recorded v i (c.servers i)
  reply : ∀ rpc resp, c.RespTo rpc resp → resp.type = .requestVoteResponse →
    resp.src ∈ m.ids ∧ (resp.accepted → v resp.src resp.term = some rpc.req.src)
  counted : ∀ i ∈ m.ids, Counted m v (c.servers i)
  leader : ∀ i ∈ m.ids, (c.servers i).role = .leader → Won m v (c.servers i).term i

/-- The term does not go back, and within a term a vote is only cast once. -/
def VoteMonotone (s s' : Server) : Prop :=
  s.term ≤ s'.term ∧ (s'.term = s.term → s'.votedFor = s.votedFor ∨ s.votedFor = nobody)

theorem grantsVote_votedFor {req : ReqMsg} (h : grantsVote s req) :
    s.votedFor = req.src ∨ s.votedFor = nobody := by
  simp only [grantsVote, Bool.and_eq_true, Bool.or_eq_true, decide_eq_true_eq] at h
  exact h.2

/-- Apart from a join request, every small step is monotone in the vote. -/
theorem BallotStep.voteMonotone (h : BallotStep inp s₀ s s')
    (hj : ∀ req now, inp = .request req now → req.type ≠ .joinClusterRequest) :
    VoteMonotone s s' := by
  cases h with
  | same hstate | tally _ _ _ _ hstate =>
    simp [VoteMonotone, Server.term, Server.votedFor, hstate]
  | enter t hlt _ hstate =>
    have := term_of_state hstate
    exact ⟨this ▸ hlt.le, fun h => by omega⟩
  | stand hstate =>
    have := term_of_state hstate
    exact ⟨by omega, fun h => by omega⟩
  | grant req now _ _ hgrant hstate =>
    refine ⟨(term_of_state hstate).ge, fun _ => (grantsVote_votedFor hgrant).imp_left fun h => ?_⟩
    rw [votedFor_of_state hstate, h]
  | join req now hin htype => exact (hj req now hin htype).elim

/-! ## Small steps keep the account -/

theorem Members.ne_nobody {i : Int} (hi : i ∈ m.ids) : i ≠ nobody := fun h =>
  m.nobody_notMem (h ▸ hi)

theorem voteOf_eq_some {v x : Int} : voteOf v = some x ↔ v ≠ nobody ∧ v = x := by
  unfold voteOf
  split <;> simp_all

theorem Table.cast_of_ne (v : Table) {i j : Int} (h : j ≠ i) (s : Server) (t : Nat) :
    v.cast i s j t = v j t := if_neg fun h' => h h'.1

namespace Recorded

variable {v : Table} {i : Int}

/-- A server that is monotone in its vote overwrites nothing. -/
theorem le_cast (h : Recorded v i s) (hv : VoteMonotone s s') : v.Le (v.cast i s') := by
  intro j t x hx
  unfold Table.cast
  split
  next hcast =>
    obtain ⟨rfl, rfl, hne⟩ := hcast
    rcases hv.1.lt_or_eq with hlt | heq
    · rw [h.future _ hlt] at hx
      cases hx
    · rw [← heq, h.current, voteOf_eq_some] at hx
      rcases hv.2 heq.symm with hsame | hnone
      · rw [hsame, hx.2]
      · exact (hx.1 hnone).elim
  next => exact hx

theorem cast_same (h : Recorded v i s) (hstate : s'.state = s.state) : v.cast i s' = v := by
  funext j t
  unfold Table.cast
  split
  next hcast =>
    obtain ⟨rfl, rfl, hne⟩ := hcast
    have hterm : s'.term = s.term := congrArg SrvState.term hstate
    have hvoted : s'.votedFor = s.votedFor := congrArg SrvState.votedFor hstate
    rw [hterm, h.current, voteOf, if_neg (hvoted ▸ hne), hvoted]
  next => rfl

theorem cast (h : Recorded v i s) (hv : VoteMonotone s s') : Recorded (v.cast i s') i s' where
  current := by
    unfold Table.cast voteOf
    by_cases hnone : s'.votedFor = nobody
    · rw [if_neg (by simp [hnone]), if_pos hnone]
      rcases hv.1.lt_or_eq with hlt | heq
      · exact h.future _ hlt
      · have hvote : s.votedFor = nobody := (hv.2 heq.symm).elim (fun h => h ▸ hnone) id
        rw [← heq, h.current, voteOf, if_pos hvote]
    · rw [if_pos ⟨rfl, rfl, hnone⟩, if_neg hnone]
  future t hlt := by
    unfold Table.cast
    rw [if_neg fun h' => hlt.ne' h'.2.1]
    exact h.future t (hv.1.trans_lt hlt)

end Recorded

theorem StaticInput.not_join (hin : StaticInput m inp) (req : ReqMsg) (now : Int)
    (h : inp = .request req now) : req.type ≠ .joinClusterRequest := by
  subst h
  intro htype
  simp [StaticInput, htype] at hin

namespace Ballots

variable {v : Table} {c c₀ : Cluster} {i : Int}

theorem Counted.mono {v v' : Table} (h : Counted m v s) (hle : v.Le v')
    (hterm : s'.term = s.term) (hid : s'.id = s.id) (hvotes : s'.votesGranted = s.votesGranted)
    (hvoted : s'.votedServers = s.votedServers) : Counted m v' s' := by
  obtain ⟨voters, hnd, hmem, hlen⟩ := h
  refine ⟨voters, hnd, fun j hj => ?_, hlen.trans hvotes.symm⟩
  obtain ⟨h1, h2, h3⟩ := hmem j hj
  exact ⟨h1, hvoted ▸ h2, by rw [hterm, hid]; exact hle j _ _ h3⟩

/-- A vote that is counted is in the table. -/
theorem vote_of_answer (h : Ballots m v c) {rpc : Rpc} {resp : RespMsg} {now : Int}
    (hl : c.Legit i (.response rpc resp now)) (ht : resp.type = .requestVoteResponse) :
    resp.src ∈ m.ids ∧ (resp.accepted → v resp.src resp.term = some i) := by
  obtain ⟨h1, h2⟩ := h.reply rpc resp hl.1 ht
  exact ⟨h1, fun hacc => hl.2 ▸ h2 hacc⟩

theorem counted_micro (h : Ballots m v c) (ht : Turn m c₀ c i inp) (hid' : s'.id = i)
    (hb : BallotStep inp s₀ (c.servers i) s') (hle : v.Le (v.cast i s'))
    (hrec : Recorded (v.cast i s') i s') : Counted m (v.cast i s') s' := by
  have hid := ht.static.id i ht.mem
  have hold := h.counted i ht.mem
  cases hb with
  | same hstate hvotes hvoted =>
    exact Counted.mono hold hle (congrArg SrvState.term hstate) (hid'.trans hid.symm) hvotes hvoted
  | enter t _ _ hstate hvotes hvoted => exact ⟨[], List.nodup_nil, nofun, hvotes.symm⟩
  | stand hstate hvotes hvoted =>
    have hvote := (votedFor_of_state hstate).trans hid
    refine ⟨[i], List.nodup_singleton i, fun j hj => ?_, hvotes.symm⟩
    obtain rfl := List.mem_singleton.1 hj
    refine ⟨ht.mem, by simp [hvoted, hid], ?_⟩
    rw [hrec.current, hvote, hid', voteOf_eq_some]
    exact ⟨Members.ne_nobody ht.mem, rfl⟩
  | grant req now _ _ _ hstate hvotes hvoted =>
    exact Counted.mono hold hle (term_of_state hstate) (hid'.trans hid.symm) hvotes hvoted
  | tally resp hin hterm hnew hstate hvotes hvoted =>
    obtain ⟨rpc, now, rfl, -, htype⟩ := hin
    obtain ⟨hsrc, hvote⟩ := h.vote_of_answer ht.legit htype
    have hterm' : s'.term = (c.servers i).term := congrArg SrvState.term hstate
    obtain ⟨voters, hnd, hmem, hlen⟩ := hold
    have hmem' : ∀ j ∈ voters, j ∈ m.ids ∧ j ∈ s'.votedServers ∧
        v.cast i s' j s'.term = some s'.id := fun j hj => by
      obtain ⟨h1, h2, h3⟩ := hmem j hj
      refine ⟨h1, by rw [hvoted]; exact List.mem_insert_of_mem h2, ?_⟩
      have h3' := hle _ _ _ h3
      rw [hterm', hid']
      rwa [hid] at h3'
    by_cases hacc : resp.accepted
    · refine ⟨resp.src :: voters, List.nodup_cons.2 ⟨fun hin => ?_, hnd⟩, fun j hj => ?_, ?_⟩
      · exact hnew (hmem _ hin).2.1
      · rcases List.mem_cons.1 hj with rfl | hj
        · refine ⟨hsrc, by simp [hvoted], ?_⟩
          rw [hterm', ← hterm, hid']
          exact hle _ _ _ (hvote hacc)
        · exact hmem' j hj
      · rw [hvotes, if_pos hacc, List.length_cons, hlen]
    · exact ⟨voters, hnd, hmem', by rw [hvotes, if_neg hacc, hlen]⟩
  | join req now hin htype => exact (ht.input.not_join req now hin htype).elim

theorem leader_micro (h : Ballots m v c) (ht : Turn m c₀ c i inp)
    (hb : BallotStep inp s₀ (c.servers i) s') (hle : v.Le (v.cast i s'))
    (hcount : Counted m (v.cast i s') s') (hid' : s'.id = i) (hl : s'.role = .leader) :
    Won m (v.cast i s') s'.term i := by
  have hlen := (ht.static.server i ht.mem).length_peers
  have hwon : m.ids.length / 2 < s'.votesGranted → Won m (v.cast i s') s'.term i := fun hmaj => by
    obtain ⟨voters, hnd, hmem, hvotes⟩ := hcount
    exact ⟨voters, hnd, fun j hj => ⟨(hmem j hj).1, hid' ▸ (hmem j hj).2.2⟩, hvotes ▸ hmaj⟩
  have hkeep : s'.term = (c.servers i).term → (c.servers i).role = .leader →
      Won m (v.cast i s') s'.term i := fun hterm hrole => by
    rw [hterm]
    exact (h.leader i ht.mem hrole).mono hle
  cases hb with
  | same hstate _ _ hrole =>
    rcases hrole with hrole | ⟨-, hrole⟩
    · exact hkeep (congrArg SrvState.term hstate) (hrole ▸ hl)
    · cases hrole.symm.trans hl
  | enter t _ _ _ _ _ hrole => cases hrole.symm.trans hl
  | stand _ hvotes _ hrole =>
    rcases hrole with hrole | ⟨-, hpeers⟩
    · cases hrole.symm.trans hl
    · exact hwon (by rw [hvotes, ← hlen, hpeers]; decide)
  | grant req now _ _ _ hstate _ _ hrole => exact hkeep (term_of_state hstate) (hrole ▸ hl)
  | tally resp _ _ _ hstate _ _ hrole =>
    rcases hrole with hrole | ⟨-, hmaj⟩
    · exact hkeep (congrArg SrvState.term hstate) (hrole ▸ hl)
    · exact hwon (hlen ▸ hmaj)
  | join req now hin htype => exact (ht.input.not_join req now hin htype).elim

theorem micro (h : Ballots m v c) (ht : Turn m c₀ c i inp)
    (hm : Micro ctx inp s₀ (c.servers i) o s') :
    v.Le (v.cast i s') ∧ Ballots m (v.cast i s') (c.update i s' o) := by
  have hb := hm.ballot
  have hid' := hm.id_eq.trans (ht.static.id i ht.mem)
  have hmono := hb.voteMonotone ht.input.not_join
  have hle := (h.recorded i ht.mem).le_cast hmono
  have hrec := (h.recorded i ht.mem).cast hmono
  have hcount := h.counted_micro ht hid' hb hle hrec
  have hother : ∀ j, j ≠ i → (c.update i s' o).servers j = c.servers j := fun j hj => if_neg hj
  refine ⟨hle, fun j hj => ?_, fun rpc resp hr htype => ?_, fun j hj => ?_, fun j hj hl => ?_⟩
  · by_cases hji : j = i
    · subst hji
      simpa using hrec
    · rw [hother j hji]
      have hcast : v.cast i s' j = v j := funext (Table.cast_of_ne v hji s')
      exact ⟨hcast ▸ (h.recorded j hj).current, hcast ▸ (h.recorded j hj).future⟩
  · obtain ⟨hsrc, hvote⟩ := h.reply rpc resp (hr.of_update ht.static.numbered) htype
    exact ⟨hsrc, fun hacc => hle _ _ _ (hvote hacc)⟩
  · by_cases hji : j = i
    · subst hji
      simpa using hcount
    · rw [hother j hji]
      exact Counted.mono (h.counted j hj) hle rfl rfl rfl rfl
  · by_cases hji : j = i
    · subst hji
      rw [Cluster.update_servers_self] at hl ⊢
      exact h.leader_micro ht hb hle hcount hid' hl
    · rw [hother j hji] at hl ⊢
      exact (h.leader j hj hl).mono hle

theorem answer {rpc : Rpc} {now : Int} {k : Nat} {resp : RespMsg} (h : Ballots m v c)
    (ht : Turn m c₀ c i (.request rpc.req now)) (hk : c.rpcs[k]? = some rpc)
    (hrep : Replied s₀ rpc.req resp (c.servers i)) : Ballots m v (c.answer k resp) := by
  refine ⟨h.recorded, fun rpc' resp' hr htype => ?_, h.counted, h.leader⟩
  rcases hr.of_answer with hr | ⟨hk', rfl⟩
  · exact h.reply rpc' resp' hr htype
  · obtain rfl : rpc = rpc' := Option.some.inj (hk.symm.trans hk')
    have hstatic := ht.static.rpc rpc (List.mem_of_getElem? hk)
    rcases hstatic.type with hreq | hreq | hreq
    · cases htype.symm.trans (hrep.append hreq).type
    · have hvote := hrep.vote hreq
      have hsrc : resp'.src = i := hvote.src.trans (ht.static.id i ht.mem)
      refine ⟨hsrc ▸ ht.mem, fun hacc => ?_⟩
      rw [hsrc, hvote.term, (h.recorded i ht.mem).current, (hvote.accepted hacc).2, voteOf_eq_some]
      exact ⟨Members.ne_nobody hstatic.src, rfl⟩
    · have hinst := hrep.type
      rw [hreq, htype] at hinst
      cases hinst

/-- The votes on record at the start. -/
def startTable (ctx : Context) (b : Int → Boot) : Table := fun i t =>
  if t = (Server.new ctx i (b i)).term then voteOf (Server.new ctx i (b i)).votedFor else none

theorem start (ctx : Context) {b : Int → Boot} (hb : ∀ i ∈ m.ids, StaticBoot m (b i)) :
    Ballots m (startTable ctx b) (Cluster.start ctx b) := by
  refine ⟨fun i _ => ⟨if_pos rfl, fun t hlt => if_neg hlt.ne'⟩, fun rpc resp hr => ?_,
    fun i hi => ?_, fun i hi hl => ?_⟩
  · obtain ⟨k, -, hr⟩ := hr
    exact (List.not_mem_nil hr).elim
  · obtain ⟨ps, n, hq, -⟩ := (hb i hi).new ctx i
    exact ⟨[], List.nodup_nil, by simp, (hq.field Server.votesGranted).symm⟩
  · obtain ⟨ps, n, hq, -⟩ := (hb i hi).new ctx i
    cases (hq.field Server.role).symm.trans hl

end Ballots

/-! ## Election safety -/

theorem Table.Le.refl (v : Table) : v.Le v := fun _ _ _ h => h

theorem Table.Le.trans {v v' v'' : Table} (h : v.Le v') (h' : v'.Le v'') : v.Le v'' :=
  fun j t x hx => h' j t x (h j t x hx)

/-- The account is kept along a run, and votes are only added to the table. -/
theorem ballots_run (ctx : Context) {v : Table} {c : Cluster} (hc : StaticCluster m c)
    (hv : Ballots m v c)
    {es : List Event} (hes : ∀ e ∈ es, e.Static m) :
    StaticCluster m (c.run ctx es) ∧ ∃ v', v.Le v' ∧ Ballots m v' (c.run ctx es) := by
  refine Cluster.inv_run (I := fun c => StaticCluster m c ∧ ∃ v', v.Le v' ∧ Ballots m v' c)
    (fun c e h he => ?_) ⟨hc, v, .refl v, hv⟩ (Cluster.meets_of_forall hes)
  refine static_step (J := fun c => ∃ v', v.Le v' ∧ Ballots m v' c)
    (K := fun _ _ _ => True) he (fun _ _ _ _ => trivial) h.1 h.2 ?_ ?_
  · rintro c i inp o s' ht - ⟨v', hle, hb⟩ hm
    exact ⟨v'.cast i s', hle.trans (hb.micro ht hm).1, (hb.micro ht hm).2⟩
  · rintro c rpc now k resp ht - ⟨v', hle, hb⟩ hk hrep
    exact ⟨v', hle, hb.answer ht hk hrep⟩

/-- Three servers. -/
def three : Members where
  servers := [srvAt 1, srvAt 2, srvAt 3]
  nodup := by decide
  nobody_notMem := by decide

/-- Five servers. -/
def five : Members where
  servers := [srvAt 1, srvAt 2, srvAt 3, srvAt 4, srvAt 5]
  nodup := by decide
  nobody_notMem := by decide

/-- A fresh server of a static cluster. -/
def Members.fresh (m : Members) : Boot := { config := { servers := m.servers } }

theorem Members.staticBoot_fresh (m : Members) : StaticBoot m m.fresh :=
  ⟨rfl, fun p hp => by rw [List.mem_singleton.1 hp]; trivial, fun _ h => by cases h⟩

/-- Server 1 is elected with the vote of server 2. -/
def electOne : List Event := [.electionTimeout 1, .deliver 0 0, .respond 0 0]

end EnclaveRaft
