import EnclaveRaft.Lib.Ranks
import EnclaveRaft.Stale
import Mathlib.Data.Finset.Card

/-!
# The majority point

An accepted append reply makes the leader sort what the servers hold and commit the element in the
middle: the largest index that more than half of the servers hold. An election is won with the votes
of more than half of them. So a set of voters and a set of servers that hold the committed index
have a server in common.
-/

namespace EnclaveRaft

open Act Server

variable {ctx : Context} {s : Server}

/-! ## What the servers hold -/

/-- The servers that a server knows: itself and its peers. -/
def Server.electorate (s : Server) : List Int := s.id :: s.peers.map Peer.id

/-- The servers and the last index each of them holds, as a leader has it on record. -/
def Server.holdings (s : Server) : List (Int × Nat) :=
  (s.id, usub s.nextSlot 1) :: s.peers.map fun p => (p.id, p.matchedIdx)

/-- Strictly more than half of the servers hold index `n`. -/
def Server.HeldByMost (s : Server) (n : Nat) : Prop :=
  s.peers.length + 1 < 2 * s.holdings.countP fun h => n ≤ h.2

/-- More than half of the servers, all of which hold index `n`. -/
structure Server.Justifies (s : Server) (holders : Finset Int) (n : Nat) : Prop where
  most : s.peers.length + 1 < 2 * holders.card
  hold : ∀ i ∈ holders, ∃ k, (i, k) ∈ s.holdings ∧ n ≤ k

/-- `matched_indexes[(peers_.size() + 1) / 2]` is the largest index that most servers hold. -/
theorem majorityIdx_isGreatest (s : Server) : IsGreatest {n | s.HeldByMost n} (majorityIdx s) := by
  have hmap : usub s.nextSlot 1 :: s.peers.map Peer.matchedIdx = s.holdings.map Prod.snd := by
    simp [Server.holdings, Function.comp_def]
  have hlen : s.holdings.length = s.peers.length + 1 := by simp [Server.holdings]
  have hset : {n | s.HeldByMost n} =
      {n | (s.peers.length + 1) / 2 < (s.holdings.map Prod.snd).countP (n ≤ ·)} := by
    ext n
    simp only [Server.HeldByMost, Set.mem_ofPred_eq, List.countP_map, Function.comp_def]
    omega
  rw [hset, majorityIdx, hmap]
  exact Ranks.isGreatest_descending (by rw [List.length_map, hlen]; omega) 0

/-- The commit index after an accepted reply. -/
theorem quickCommitIdx_accepted {resp : RespMsg} {p : Peer} (hp : s.findPeer resp.src = some p)
    (hacc : resp.accepted = true) :
    (handleAppendEntriesResp ctx resp s).state.quickCommitIdx =
      max s.quickCommitIdx (majorityIdx (s.onPeer p.uid (recordMatch resp.nextIdx))) := by
  rw [handleAppendEntriesResp_accepted hp hacc]
  exact quick_afterMatch ctx p.uid resp.nextIdx (s.onPeer p.uid (recordMatch resp.nextIdx))

/-! ## Elections -/

/-- A server stands for the next term and then handles responses to its vote requests. -/
def Server.election (ctx : Context) (s : Server) (resps : List RespMsg) : Server :=
  resps.foldl (fun s resp => (handleVotingResp ctx resp s).state)
    ((do modify becomeCandidate; requestVote ctx : M Unit) s).state

/-- Servers whose votes make `votes_granted_` reach the threshold, when `s` stands: its own vote and
those that responses bring, in any order, also more than once. The voters are members: the handler of
the responses counts the vote of any server, whether or not it is a peer. -/
structure Server.CanElect (ctx : Context) (s : Server) (voters : Finset Int) : Prop where
  stands : s.role ≠ .leader
  self : s.id ∈ voters
  known : ∀ i ∈ voters, i ∈ s.electorate
  wins : ∃ resps : List RespMsg,
    (∀ resp ∈ resps, resp.type = .requestVoteResponse ∧
      (resp.accepted = true → resp.src ∈ voters)) ∧
    (s.peers.length + 1) / 2 < (s.election ctx resps).votesGranted

/-- Every vote counted is that of a server in `voters`. -/
def Backed (voters : Finset Int) (s : Server) : Prop :=
  ∃ counted ⊆ voters, (∀ i ∈ counted, i ∈ s.votedServers) ∧ counted.card = s.votesGranted

section Backed

variable {voters : Finset Int} {inp : Input} {s₀ s' : Server}

theorem Backed.same (h : Backed voters s) (hvotes : s'.votesGranted = s.votesGranted)
    (hvoted : s'.votedServers = s.votedServers) : Backed voters s' := by
  obtain ⟨counted, hsub, hmem, hcard⟩ := h
  exact ⟨counted, hsub, hvoted.symm ▸ hmem, hcard.trans hvotes.symm⟩

/-- A step adds a vote of one more server, if it adds one. -/
theorem Backed.step (hb : BallotStep inp s₀ s s') (hself : s.id ∈ voters)
    (hreq : ∀ req now, inp ≠ .request req now)
    (hresp : ∀ resp, inp.Answers .requestVoteResponse resp → resp.accepted = true →
      resp.src ∈ voters)
    (h : Backed voters s) : Backed voters s' := by
  cases hb with
  | same _ hvotes hvoted _ => exact h.same hvotes hvoted
  | enter _ _ _ _ hvotes hvoted _ => exact ⟨∅, by simp, by simp, by simp [hvotes]⟩
  | stand _ hvotes hvoted _ => exact ⟨{s.id}, by simpa, by simp [hvoted], by simp [hvotes]⟩
  | grant req now hin => exact (hreq req now hin).elim
  | join req now hin => exact (hreq req now hin).elim
  | tally resp hin _ hnew _ hvotes hvoted _ =>
    obtain ⟨counted, hsub, hmem, hcard⟩ := h
    by_cases hacc : resp.accepted = true
    · refine ⟨insert resp.src counted, ?_, ?_, ?_⟩
      · exact Finset.insert_subset (hresp resp hin hacc) hsub
      · intro i hi
        rw [hvoted, List.mem_insert_iff]
        exact (Finset.mem_insert.1 hi).imp_right (hmem i)
      · rw [Finset.card_insert_of_notMem fun hi => hnew (hmem _ hi), hvotes, if_pos hacc, hcard]
    · refine ⟨counted, hsub, fun i hi => ?_, by rw [hvotes, if_neg hacc, hcard]⟩
      rw [hvoted, List.mem_insert_iff]
      exact .inr (hmem i hi)

/-- An action that is made of small steps keeps the tally backed. -/
theorem Backed.walks {x : M Unit} {Q : Unit → Server → Prop} (hw : Walks (Micro ctx inp s₀) x s Q)
    (hself : s.id ∈ voters) (hreq : ∀ req now, inp ≠ .request req now)
    (hresp : ∀ resp, inp.Answers .requestVoteResponse resp → resp.accepted = true →
      resp.src ∈ voters)
    (h : Backed voters s) : (x s).state.id = s.id ∧ Backed voters (x s).state := by
  have hfold := hw.1.fold
    (R := fun s _ s' => s.id ∈ voters ∧ Backed voters s → s'.id = s.id ∧ Backed voters s')
    (fun _ hs => ⟨rfl, hs.2⟩) fun s₁ s₂ _ _ _ hm ih hs => ?_
  · exact hfold ⟨hself, h⟩
  · have hid := hm.id_eq
    have hnext := ih ⟨hid ▸ hs.1, hs.2.step hm.ballot hs.1 hreq hresp⟩
    exact ⟨hnext.1.trans hid, hnext.2⟩

theorem backed_stand (hrole : s.role ≠ .leader) (hself : s.id ∈ voters) :
    (s.election ctx []).id = s.id ∧ Backed voters (s.election ctx []) := by
  -- standing forgets the votes of earlier elections
  let s₁ : Server := { s with votesGranted := 0, votedServers := [] }
  have hw : Walks (Micro ctx .electionTimeout s₁) _ s₁ fun _ _ => True :=
    walks_requestVote rfl hrole
  have hresp (resp : RespMsg) (hin : Input.electionTimeout.Answers .requestVoteResponse resp) :
      resp.accepted = true → resp.src ∈ voters := by
    obtain ⟨rpc, now, hin, -⟩ := hin
    exact nomatch hin
  have h₁ : Backed voters s₁ := ⟨∅, by simp, by simp, rfl⟩
  have hend := Backed.walks hw hself (fun _ _ => nofun) hresp h₁
  exact hend

theorem backed_election (hrole : s.role ≠ .leader) (hself : s.id ∈ voters) (resps : List RespMsg)
    (hresps : ∀ resp ∈ resps, resp.type = .requestVoteResponse ∧
      (resp.accepted = true → resp.src ∈ voters)) : Backed voters (s.election ctx resps) := by
  have hstart : (s.election ctx []).id = s.id ∧ Backed voters (s.election ctx []) :=
    backed_stand hrole hself
  unfold Server.election at hstart ⊢
  generalize ((do modify becomeCandidate; requestVote ctx : M Unit) s).state = s₁ at hstart
  rw [List.foldl_nil] at hstart
  obtain ⟨hid, hb⟩ := hstart
  rw [← hid] at hself
  clear hid
  induction resps generalizing s₁ with
  | nil => exact hb
  | cons resp resps ih =>
    rw [List.forall_mem_cons] at hresps
    obtain ⟨⟨htype, hsrc⟩, hrest⟩ := hresps
    let rpc : Rpc := ⟨.peerResp, 0, 0, ⟨0, .requestVoteRequest, 0, 0, 0, 0, 0, []⟩, s₁⟩
    have hin : Input.Answers (.response rpc resp 0) .requestVoteResponse resp :=
      ⟨rpc, 0, rfl, rfl, htype⟩
    have hw : Walks (Micro ctx (.response rpc resp 0) s₁) _ s₁ fun _ _ => True :=
      walks_handleVotingResp hin (.refl s₁)
    have hresp (resp' : RespMsg)
        (hin' : (Input.response rpc resp 0).Answers .requestVoteResponse resp') :
        resp'.accepted = true → resp'.src ∈ voters := by
      obtain ⟨_, _, heq, -⟩ := hin'
      cases heq
      exact hsrc
    have hnext := Backed.walks hw hself (fun _ _ => nofun) hresp hb
    exact ih hrest _ (hnext.1.symm ▸ hself) hnext.2

end Backed

/-- Server 1 of three leads with two entries. -/
def leadsTwo : Server :=
  { Server.new {} 1 three.fresh with
    role := .leader
    logStore := [1, 2].foldl (fun st b => st.append ⟨1, .appLog, .bytes [b, 0]⟩) LogStore.empty }

end EnclaveRaft
