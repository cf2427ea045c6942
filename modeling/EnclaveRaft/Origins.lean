import EnclaveRaft.Votes

/-!
# Who creates entries and append requests

Append requests and new log entries are meant to come from leaders. Two paths do not look at the
role: `handle_ext_resp` and `handle_ext_resp_err` append a configuration and replicate it on
behalf of whoever receives the response or the failure, also of a server that has lost its
leadership since it sent the request. `Input.newConfig` says when they do. Along runs in which
that only happens to leaders, every append request was created by the leader of its term, and
what a server adds to its log on its own it adds as leader.
-/

namespace EnclaveRaft

open Act Server

variable {ctx : Context} {inp : Input} {s₀ s s' : Server} {o : List Effect}

/-! ## One handler -/

/-- The input is an append request or a pack of log entries. -/
def Input.Copies : Input → Prop
  | .request req _ => req.type = .appendEntriesRequest ∨ req.type = .syncLogRequest
  | _ => False

/-- An input that makes the server append a configuration finds it leading. -/
def LeaderConfigures (ctx : Context) (inp : Input) (s : Server) : Prop :=
  (inp.newConfig ctx s).isSome → s.role = .leader

instance (ctx : Context) (inp : Input) (s : Server) : Decidable (LeaderConfigures ctx inp s) :=
  inferInstanceAs (Decidable (_ → _))

/-- Nothing is added to the log, or the server leads before and after. -/
def LeaderAdds (s s' : Server) : Prop :=
  s'.logStore.logs ⊆ s.logStore.logs ∨ (s.role = .leader ∧ s'.role = .leader)

theorem LeaderAdds.of_eq (h : s'.logStore = s.logStore) : LeaderAdds s s' :=
  .inl (h ▸ List.Subset.refl _)

theorem LogStore.compact_subset (st : LogStore) (idx : Nat) :
    (st.compact idx).logs ⊆ st.logs := fun _ h => List.mem_of_mem_filter h

/-- What a small step adds to the log other than by copying, it adds as leader. -/
theorem Micro.leaderAdds (hm : Micro ctx inp s₀ s o s') (hcopy : ¬inp.Copies)
    (hlead : LeaderConfigures ctx inp s₀) : LeaderAdds s s' := by
  cases hm with
  | saveInitial hrole => exact .inr ⟨hrole, hrole⟩
  | client _ _ _ hrole => exact .inr ⟨hrole, hrole⟩
  | confAppend hc hk =>
    have hrole : s.body.role = s₀.body.role := congrArg Server.role hk
    have hs : s.role = .leader := hrole.trans (hlead (by simp [hc]))
    exact .inr ⟨hs, hs⟩
  | merge hin htype => exact (hcopy (by rw [hin]; exact .inl htype)).elim
  | pack hin htype => exact (hcopy (by rw [hin]; exact .inr htype)).elim
  | snapshot =>
    unfold onSnapshotCompleted
    refine .inl ?_
    dsimp only
    split
    · exact LogStore.compact_subset _ _
    · exact List.Subset.refl _
  | installCompact => exact .inl (LogStore.compact_subset _ _)
  | quiet hq => exact .of_eq (hq.field Server.logStore)
  | enterTerm => exact .of_eq ((keeps_enterTerm _ s).field Server.logStore)
  | stepDown => exact .of_eq ((keeps_becomeFollower s).field Server.logStore)
  | addConfigured =>
    obtain ⟨ps, j, n, hfold⟩ := foldl_addConfigured_frame ctx _ s
    exact .of_eq (by rw [hfold])
  | dropOnly =>
    obtain ⟨ps, -, hdrop⟩ := dropOnlyPeer_frame _ s
    exact .of_eq (by rw [hdrop])
  | _ => exact .of_eq rfl

/-- A small step takes the lead away only before the handler has written anything. -/
theorem Micro.keeps_lead (hm : Micro ctx inp s₀ s o s') (hrole : s.role = .leader) :
    s'.role = .leader ∨ s'.logStore = s₀.logStore := by
  cases hm with
  | enterTerm _ _ hk =>
    exact .inr (((keeps_enterTerm _ s).field Server.logStore).trans (hk.field Server.logStore))
  | stepDown hcand => cases hcand.symm.trans hrole
  | stand _ _ hne => exact (hne hrole).elim
  | standWin _ _ hne => exact (hne hrole).elim
  | join _ _ hk => exact .inr (hk ▸ rfl)
  | quiet hq => exact .inl ((hq.field Server.role).trans hrole)
  | addConfigured =>
    obtain ⟨ps, j, n, hfold⟩ := foldl_addConfigured_frame ctx _ s
    exact .inl (by rw [hfold]; exact hrole)
  | dropOnly =>
    obtain ⟨ps, -, hdrop⟩ := dropOnlyPeer_frame _ s
    exact .inl (by rw [hdrop]; exact hrole)
  | tallyWin => exact .inl rfl
  | _ => exact .inl hrole

/-- Entries enter the log only in small steps of a leader, and if any did the server leads when
the handler returns. -/
def OnlyLeaderAdds (ctx : Context) (inp : Input) (s : Server) : Prop :=
  Path (fun s₁ o s₂ => Micro ctx inp s s₁ o s₂ ∧ LeaderAdds s₁ s₂) s (inp.handle ctx s).out
      (inp.handle ctx s).state ∧
    ((inp.handle ctx s).state.logStore.logs ⊆ s.logStore.logs ∨
      (inp.handle ctx s).state.role = .leader)

theorem onlyLeaderAdds (hcopy : ¬inp.Copies) (hlead : LeaderConfigures ctx inp s) :
    OnlyLeaderAdds ctx inp s := by
  obtain ⟨hpath, -⟩ := walks_handle ctx inp s
  refine ⟨hpath.mono fun _ _ _ hm => ⟨hm, hm.leaderAdds hcopy hlead⟩, ?_⟩
  let I := fun s' : Server => s'.logStore.logs ⊆ s.logStore.logs ∨ s'.role = .leader
  have hstep : ∀ s₁ o s₂, Micro ctx inp s s₁ o s₂ → I s₁ → I s₂ := by
    intro s₁ o s₂ hm hI
    rcases hm.leaderAdds hcopy hlead with hsub | ⟨-, hrole⟩
    · rcases hI with hI | hrole
      · exact .inl (List.Subset.trans hsub hI)
      · rcases hm.keeps_lead hrole with hrole' | hlog
        · exact .inr hrole'
        · exact .inl (hlog ▸ List.Subset.refl _)
    · exact .inr hrole
  refine hpath.fold (R := fun s₁ _ s₂ => I s₁ → I s₂) (fun _ h => h) ?_ (.inl (List.Subset.refl _))
  exact fun _ _ _ _ _ hm h hI => h (hstep _ _ _ hm hI)

/-! ## Runs -/

/-- The append request was created by the leader of its term. -/
def FromOwnLeader (rpc : Rpc) : Prop :=
  rpc.req.type = .appendEntriesRequest → rpc.creator.role = .leader ∧
    rpc.creator.term = rpc.req.term ∧ rpc.creator.id = rpc.req.src

/-- The append requests that a small step sends are those of a leader. -/
theorem Micro.sends_append (hm : Micro ctx inp s₀ s o s') (hlead : LeaderConfigures ctx inp s₀)
    {rpc : Rpc} (hrpc : .send rpc ∈ o) :
    FromOwnLeader rpc ∨ ∃ rpc', inp = .resend rpc' ∧ rpc'.req = rpc.req := by
  cases hm with
  | sendVote =>
    cases List.mem_singleton.1 hrpc
    exact .inl nofun
  | sendAppend hrole hmsg =>
    cases List.mem_singleton.1 hrpc
    obtain ⟨p, t, es, -, -, -, -, -, rfl⟩ := hmsg
    have hs : s.role = .leader := by
      rcases hrole with hs | ⟨hnew, hs⟩
      · exact hs
      · exact hs.trans (hlead hnew)
    exact .inl fun _ => ⟨hs, rfl, rfl⟩
  | sendSnapshot _ hmsg =>
    cases List.mem_singleton.1 hrpc
    obtain ⟨p, sync, e, r, -, -, ht, -⟩ := hmsg
    exact .inl fun h => by cases ht.symm.trans h
  | sendExt _ hp =>
    cases List.mem_singleton.1 hrpc
    refine .inl fun h => ?_
    rcases hp with ⟨-, ht | ht⟩ | ⟨-, ht⟩ <;> cases ht.symm.trans h
  | resend hin =>
    cases List.mem_singleton.1 hrpc
    exact .inr ⟨_, hin, rfl⟩
  | note he => cases List.mem_singleton.1 hrpc; exact he.elim
  | merge => exact (writtenOut_inert _ hrpc).elim
  | client => cases List.mem_singleton.1 hrpc
  | process => cases List.mem_singleton.1 hrpc
  | retry => cases List.mem_singleton.1 hrpc
  | _ => cases hrpc

/-- Every append request comes from a leader, and none waits to be sent again. -/
structure Origins (c : Cluster) : Prop where
  rpcs : ∀ rpc ∈ c.rpcs, FromOwnLeader rpc
  retries : ∀ rpc ∈ c.retries, rpc.req.type ≠ .appendEntriesRequest

/-- The condition on the inputs of a run. -/
def Event.LeaderConfigures (ctx : Context) (c : Cluster) (e : Event) : Prop :=
  e.Allowed (fun c i inp => EnclaveRaft.LeaderConfigures ctx inp (c.servers i)) c

instance (ctx : Context) (c : Cluster) (e : Event) : Decidable (e.LeaderConfigures ctx c) :=
  inferInstanceAs (Decidable (e.Allowed _ c))

theorem Origins.step {c : Cluster} {e : Event} (h : Origins c) (he : e.LeaderConfigures ctx c) :
    Origins (c.step ctx e) := by
  refine Cluster.inv_step (I := Origins) ?_ ?_ h
  · intro c' i inp k o s' hin _ hl hI hm
    refine ⟨fun rpc hr => ?_, fun rpc hr => ?_⟩
    · rcases Cluster.mem_update_rpcs hr with hr | hr
      · exact hI.rpcs rpc hr
      · rcases hm.sends_append (he i inp k hin) hr with hfrom | ⟨rpc', rfl, hreq⟩
        · exact hfrom
        · exact fun htype => (hI.retries rpc' hl.1 (hreq ▸ htype)).elim
    · rcases Cluster.mem_update_retries hr with hr | hr
      · exact hI.retries rpc hr
      · rcases hm.retries hr with ht | ht | ht <;> simp [ht]
  · intro c' rpc now n resp _ _ _ hI _ _
    exact ⟨hI.rpcs, hI.retries⟩

/-- **Only leaders originate.** In every run in which responses and failures make only leaders
append a configuration, every append request was created by the leader of its term, and whatever
comes next, a server adds entries of its own to its log only while it leads. -/
theorem only_leaders_originate (ctx : Context) (b : Int → Boot) (es : List Event)
    (hes : (Cluster.start ctx b).Meets ctx (Event.LeaderConfigures ctx) es) :
    (∀ rpc ∈ ((Cluster.start ctx b).run ctx es).rpcs, FromOwnLeader rpc) ∧
      ∀ (e : Event) (i : Int) (inp : Input) (k : Option Nat),
        e.LeaderConfigures ctx ((Cluster.start ctx b).run ctx es) →
        e.input ((Cluster.start ctx b).run ctx es) = some (i, inp, k) → ¬inp.Copies →
        OnlyLeaderAdds ctx inp (((Cluster.start ctx b).run ctx es).servers i) := by
  have hstart : Origins (Cluster.start ctx b) := ⟨by simp [Cluster.start], by simp [Cluster.start]⟩
  have hend := Cluster.inv_run (fun c e hI hC => Origins.step hI hC) hstart hes
  exact ⟨hend.rpcs, fun e i inp k he hin hcopy => onlyLeaderAdds hcopy (he i inp k hin)⟩

theorem only_leaders_originate_elected :
    (((Cluster.start {} fun _ => three.fresh).run {} electOne).rpcs.map (·.req.type))[2]? =
        some .appendEntriesRequest ∧
      (∀ rpc ∈ ((Cluster.start {} fun _ => three.fresh).run {} electOne).rpcs,
        FromOwnLeader rpc) ∧
      OnlyLeaderAdds {} (.request (clientReq [[7, 0]]) 0)
        (((Cluster.start {} fun _ => three.fresh).run {} electOne).servers 1) := by
  have h := only_leaders_originate {} (fun _ => three.fresh) electOne (by decide +kernel)
  refine ⟨by decide +kernel, h.1, h.2 (.client 1 [[7, 0]] 0) 1 _ none (by decide +kernel) rfl ?_⟩
  simp [Input.Copies, clientReq, outsideReq]

/-- Server 1 is elected, commits the configuration and asks server 3 to leave; server 2 then
stands for election and its vote request ends the lead of server 1. The answer of server 3,
response number 3, is still on its way. -/
def lateLeave : List Event :=
  [.electionTimeout 1, .deliver 0 0, .respond 0 0, .deliver 2 0, .respond 1 0, .commitBg 1,
    .deliver 4 0, .respond 2 0, .removeServer 1 3, .deliver 5 0, .electionTimeout 2, .deliver 6 0]

/-- The leave response makes a follower append a configuration and send it as of a term that it
does not lead. -/
theorem leave_response_after_demotion :
    let c := (Cluster.start {} fun _ => three.fresh).run {} lateLeave
    let c' := c.step {} (.respond 3 0)
    (c.servers 1).role = .follower ∧ (c'.servers 1).role = .follower ∧
      (c.servers 1).logStore.nextSlot = 2 ∧ (c'.servers 1).logStore.nextSlot = 3 ∧
      c.rpcs.length = 8 ∧
      (c'.rpcs.map fun rpc => (rpc.req.type, rpc.req.term, rpc.creator.role, rpc.creator.id))[8]? =
        some (.appendEntriesRequest, 2, .follower, 1) := by
  decide +kernel

end EnclaveRaft
