import EnclaveRaft.Lib.Machine
import EnclaveRaft.Lib.Ranks
import EnclaveRaft.Stale

/-!
# The expiration of a leader

`handle_cli_req` turns a client away when a majority has not been heard from for two election
timeouts. The time since then is kept in a static variable, and is only computed again once it is too
large: after the first request that gets through, the check is over. Also, the time is cut to 32 bits.
A leader therefore has a quorum behind every request it accepts, if each request makes the check
anew, or comes before the time that the last check left has run out.
-/

namespace EnclaveRaft

open Act Server

variable {ctx : Context} {s s' : Server}

/-! ## What serving a client changes -/

/-- A peer without what sending requests changes. -/
def Peer.idle (p : Peer) : Peer :=
  { p with nextLogIdx := 0, busyFlag := false, pendingCommitFlag := false, snpSyncCtx := none }

/-- A server without what serving a client changes. -/
def Server.idle (s : Server) : Server :=
  { s with
    logStore := .empty
    quickCommitIdx := 0
    peers := s.peers.map Peer.idle
    srvToJoin := s.srvToJoin.map Peer.idle }

/-- Nothing differs but the log, the commit index and what the peers have been sent. -/
def Served (s s' : Server) : Prop := s'.idle = s.idle

theorem Served.refl (s : Server) : Served s s := rfl

theorem Served.trans {s'' : Server} (h : Served s s') (h' : Served s' s'') : Served s s'' :=
  Eq.trans h' h

theorem served_onPeer (s : Server) (uid : Nat) {f : Peer → Peer}
    (h : ∀ p : Peer, (f p).idle = p.idle) :
    Served s (s.onPeer uid f) := by
  have hp : Peer.idle ∘ (fun p : Peer => if p.uid = uid then f p else p) = Peer.idle := by
    funext p
    show Peer.idle (if p.uid = uid then f p else p) = p.idle
    split
    next => exact h p
    next => rfl
  simp only [Served, Server.idle, onPeer, List.map_map, Option.map_map, hp]

theorem served_aimed (s : Server) (uid : Nat) : Served s (aimed uid s) := by
  refine served_onPeer s uid fun p => ?_
  split <;> rfl

theorem served_requestAppendEntriesTo (uid : Nat) :
    Walks (fun s _ s' => Served s s') (requestAppendEntriesTo ctx uid) s fun _ _ => True := by
  refine walks_get_bind (walks_orThrow_bind fun p _ => walks_ite (fun _ => walks_pure trivial) ?_)
  intro _
  refine walks_modify_bind (served_onPeer s uid fun _ => rfl) ?_
  refine walks_bind (R := fun _ _ => True) ?_ fun req s₁ _ => ?_
  · exact walks_createAppendEntriesReq_of (fun s _ => .refl s)
      (fun s _ => served_onPeer s uid fun _ => rfl) (served_aimed _ uid)
  · exact walks_bind (R := fun _ _ => True) (walks_get_bind (walks_emit (.refl s₁) trivial))
      fun _ _ _ => walks_pure trivial

theorem served_requestAppendEntries :
    Walks (fun s _ s' => Served s s') (requestAppendEntries ctx) s fun _ _ => True := by
  have heach (ps : List Peer) (f : Peer → M Unit) (s : Server)
      (hf : ∀ p s, Walks (fun s _ s' => Served s s') (f p) s fun _ _ => True) :
      Walks (fun s _ s' => Served s s') (each f ps) s fun _ _ => True :=
    walks_each (I := fun _ => True) ps trivial (fun p _ s _ => hf p s) fun _ _ => trivial
  refine walks_get_bind (walks_ite (fun _ => walks_get_bind ?_) fun _ => heach _ _ _ fun p s => ?_)
  · refine walks_when (fun _ => walks_modify_bind rfl ?_) fun _ => trivial
    refine walks_when (fun _ => heach _ _ _ fun p s => ?_) fun _ => trivial
    refine walks_bind (served_requestAppendEntriesTo p.uid) fun sent s₁ _ => ?_
    exact walks_ite (fun _ => walks_pure trivial) fun _ =>
      walks_modify (served_onPeer s₁ p.uid fun _ => rfl) trivial
  · exact walks_bind (served_requestAppendEntriesTo p.uid) fun _ _ _ => walks_pure trivial

/-! ## A client request -/

/-- Two election timeouts. -/
def Context.expiry (ctx : Context) : Int := ctx.params.electionTimeoutUpperBound * 2

/-- The request makes the check. -/
def Server.Checks (ctx : Context) (s : Server) : Prop :=
  s.role = .leader ∧ s.peers ≠ [] ∧ ctx.expiry < s.timeElapsedSinceQuorumResp

instance (ctx : Context) (s : Server) : Decidable (s.Checks ctx) :=
  inferInstanceAs (Decidable (_ ∧ _ ∧ _))

/-- The server after the check. -/
def Server.checked (ctx : Context) (now : Int) (s : Server) : Server :=
  if s.Checks ctx then
    { s with timeElapsedSinceQuorumResp := elapsedSinceQuorumResp s now }
  else s

theorem leaderExpired_runs (ctx : Context) (now : Int) (s : Server) :
    Runs (leaderExpired ctx now) s
      (decide (s.Checks ctx ∧ ctx.expiry < elapsedSinceQuorumResp s now)) (s.checked ctx now) [] := by
  refine .get_bind ?_
  unfold Server.checked
  by_cases h : s.Checks ctx
  · rw [if_pos h]
    refine .of_pos h (.modify_bind ?_)
    have hiff : ctx.params.electionTimeoutUpperBound * 2 < elapsedSinceQuorumResp s now ↔
        s.Checks ctx ∧ ctx.expiry < elapsedSinceQuorumResp s now := (and_iff_right h).symm
    rw [decide_eq_decide.2 hiff]
    exact runs_pure
  · rw [if_neg h, decide_eq_false fun h' => h h'.1]
    exact .of_neg h runs_pure

/-- What the handler does after the check. -/
def answerClient (ctx : Context) (req : ReqMsg) (expired : Bool) : M RespMsg := do
  let s ← get
  let resp : RespMsg :=
    { term := s.term, type := .appendEntriesResponse, src := s.id, dst := s.leader }
  if expired then pure { resp with dst := nobody }
  else if s.role ≠ .leader then pure resp
  else do
    each (appendClientEntry ctx) req.logEntries
    requestAppendEntries ctx
    let s ← get
    pure (resp.accept s.nextSlot)

theorem handleCliReq_eq (ctx : Context) (req : ReqMsg) (now : Int) (s : Server) :
    handleCliReq ctx req now s = answerClient ctx req
      (decide (s.Checks ctx ∧ ctx.expiry < elapsedSinceQuorumResp s now)) (s.checked ctx now) :=
  bind_apply_congr (y := pure _) (leaderExpired_runs ctx now s) _

theorem served_answerClient (req : ReqMsg) (expired : Bool) :
    Walks (fun s _ s' => Served s s') (answerClient ctx req expired) s
      fun resp _ => resp.accepted = true → expired = false := by
  refine walks_get_bind (walks_ite (fun _ => walks_pure nofun) fun hexp => ?_)
  refine walks_ite (fun _ => walks_pure nofun) fun _ => ?_
  refine walks_bind (R := fun _ _ => True) ?_ fun _ s₁ _ => ?_
  · refine walks_each (I := fun _ => True) _ trivial (fun entry _ s₁ _ => ?_) fun _ _ => trivial
    refine walks_modify_bind rfl (walks_get_bind (walks_emit_bind (.refl _) ?_))
    exact walks_when (fun _ => walks_throw) fun _ => trivial
  · refine walks_bind served_requestAppendEntries fun _ s₂ _ => walks_get_bind (walks_pure ?_)
    exact fun _ => Bool.eq_false_of_not_eq_true hexp

/-- The rest of the handler serves the client. -/
theorem served_handleCliReq (ctx : Context) (req : ReqMsg) (now : Int) (s : Server) :
    Served (s.checked ctx now) (handleCliReq ctx req now s).state := by
  rw [handleCliReq_eq]
  exact (served_answerClient req _).1.fold (R := fun s _ s' => Served s s') Served.refl
    fun _ _ _ _ _ h₁ h₂ => h₁.trans h₂

/-- `handle_cli_req` accepts the request. -/
def Server.Accepts (ctx : Context) (req : ReqMsg) (now : Int) (s : Server) : Prop :=
  match (handleCliReq ctx req now s).result with
  | .ok resp => resp.accepted = true
  | .error _ => False

instance (ctx : Context) (req : ReqMsg) (now : Int) (s : Server) :
    Decidable (s.Accepts ctx req now) := by
  unfold Server.Accepts
  split <;> infer_instance

/-- Only a request that is not turned away is accepted. -/
theorem not_expired_of_accepts {req : ReqMsg} {now : Int} (h : s.Accepts ctx req now) :
    ¬(s.Checks ctx ∧ ctx.expiry < elapsedSinceQuorumResp s now) := by
  unfold Server.Accepts at h
  rw [handleCliReq_eq] at h
  split at h
  next resp hresp => exact of_decide_eq_false ((served_answerClient req _).2 resp hresp h)
  next => exact h.elim

/-! ## Times of responses -/

/-- Half of the peers, and so with the leader more than half of the servers, have been heard from
since `t`. -/
def Server.QuorumSince (s : Server) (t : Int) : Prop :=
  (s.peers.length + 1) / 2 ≤ s.peers.countP fun p => t ≤ p.lastResp

instance (s : Server) (t : Int) : Decidable (s.QuorumSince t) :=
  inferInstanceAs (Decidable (_ ≤ _))

/-- `peer_resp_times[peers_.size() / 2]`, the times in order. -/
def Server.quorumResp (s : Server) : Int :=
  ((s.peers.map Peer.lastResp).insertionSort (· ≤ ·)).getD (s.peers.length / 2) 0

theorem quorumSince_iff (hpeers : s.peers ≠ []) (t : Int) :
    s.QuorumSince t ↔ t ≤ s.quorumResp := by
  have hpos := List.length_pos_iff.2 hpeers
  have hlt : s.peers.length / 2 < (s.peers.map Peer.lastResp).length := by
    rw [List.length_map]
    omega
  rw [Server.quorumResp, Ranks.le_ascending_iff hlt 0, List.length_map, List.countP_map,
    Server.QuorumSince, show s.peers.length - s.peers.length / 2 = (s.peers.length + 1) / 2 by omega]
  rfl

theorem Server.QuorumSince.mono {t t' : Int} (h : s.QuorumSince t) (hle : t' ≤ t) : s.QuorumSince t' :=
  h.trans (List.countP_mono_left fun _ _ hp =>
    decide_eq_true (hle.trans (of_decide_eq_true hp)))

/-- What the check looks at. -/
def Server.gauge (s : Server) : SrvRole × List Int × Int :=
  (s.role, s.peers.map Peer.lastResp, s.timeElapsedSinceQuorumResp)

theorem gauge_eq_iff : s'.gauge = s.gauge ↔ s'.role = s.role ∧
    s'.peers.map Peer.lastResp = s.peers.map Peer.lastResp ∧
    s'.timeElapsedSinceQuorumResp = s.timeElapsedSinceQuorumResp := by
  simp [Server.gauge]

theorem Served.gauge_eq (h : Served s s') : s'.gauge = s.gauge := by
  have h' : s'.idle = s.idle := h
  have hrole : s'.idle.role = s.idle.role := by rw [h']
  have helapsed : s'.idle.timeElapsedSinceQuorumResp = s.idle.timeElapsedSinceQuorumResp := by
    rw [h']
  have hpeers : s'.idle.peers.map Peer.lastResp = s.idle.peers.map Peer.lastResp := by rw [h']
  refine gauge_eq_iff.2 ⟨hrole, ?_, helapsed⟩
  simpa [Server.idle, Function.comp_def, Peer.idle] using hpeers

theorem Server.QuorumSince.congr {t : Int} (h : s.QuorumSince t)
    (heq : s'.peers.map Peer.lastResp = s.peers.map Peer.lastResp) : s'.QuorumSince t := by
  have hlen : s'.peers.length = s.peers.length := by simpa using congrArg List.length heq
  have hcount := congrArg (List.countP (t ≤ ·)) heq
  rw [List.countP_map, List.countP_map] at hcount
  unfold Server.QuorumSince at h ⊢
  rw [hlen]
  exact h.trans_eq hcount.symm

/-- Hearing from a peer is no loss. -/
theorem Server.QuorumSince.heard {t now : Int} (h : s.QuorumSince t) (hle : t ≤ now) (src : Int) :
    (heardFrom src now s).QuorumSince t := by
  unfold Server.QuorumSince at h ⊢
  simp only [heardFrom, List.length_map, List.countP_map]
  refine h.trans (List.countP_mono_left fun p _ hp => decide_eq_true ?_)
  show t ≤ (if p.id = src then p.setLastResp now else p).lastResp
  split
  next => exact hle
  next => exact of_decide_eq_true hp

/-! ## Runs of a leader -/

/-- A leader, the clock, and the time at which the static variable was last computed. -/
structure Watch where
  server : Server
  clock : Int
  computed : Option Int := none

inductive WatchEvent
  /-- A response updates the time of its peer. -/
  | heard (src : Int) (now : Int)
  | request (req : ReqMsg) (now : Int)
  /-- Whatever else the leader does. -/
  | other (s : Server)

namespace Watch

/-- The clock does not go back. -/
def step (ctx : Context) (w : Watch) : WatchEvent → Option Watch
  | .heard src now =>
    if w.clock ≤ now then some ⟨heardFrom src now w.server, now, w.computed⟩ else none
  | .request req now =>
    if w.clock ≤ now then
      some ⟨(handleCliReq ctx req now w.server).state, now,
        if w.server.Checks ctx then some now else w.computed⟩
    else none
  | .other s => if s.gauge = w.server.gauge then some { w with server := s } else none

/-- A request makes the check, and the time fits in 32 bits; or it comes before the time that the
last check left has run out. -/
def InTime (ctx : Context) (w : Watch) : WatchEvent → Prop
  | .request _ now =>
    if w.server.Checks ctx then
      int32 (now - w.server.quorumResp) = now - w.server.quorumResp
    else ∃ t ∈ w.computed, now + max w.server.timeElapsedSinceQuorumResp 0 ≤ t + ctx.expiry
  | _ => True

instance (ctx : Context) (w : Watch) (e : WatchEvent) : Decidable (w.InTime ctx e) :=
  match e with
  | .heard _ _ => instDecidableTrue
  | .other _ => instDecidableTrue
  | .request _ now =>
    inferInstanceAs (Decidable (if w.server.Checks ctx then
      int32 (now - w.server.quorumResp) = now - w.server.quorumResp
    else ∃ t ∈ w.computed, now + max w.server.timeElapsedSinceQuorumResp 0 ≤ t + ctx.expiry))

/-- What holds along a run: the time computed last bounds the time since a quorum was heard from. -/
structure Sound (w : Watch) : Prop where
  leads : w.server.role = .leader
  peers : w.server.peers ≠ []
  since : ∀ t ∈ w.computed, t ≤ w.clock ∧
    w.server.QuorumSince (t - max w.server.timeElapsedSinceQuorumResp 0)

theorem Sound.congr {w w' : Watch} (h : w.Sound) (hgauge : w'.server.gauge = w.server.gauge)
    (hclock : w.clock ≤ w'.clock) (hcomputed : w'.computed = w.computed) : w'.Sound := by
  obtain ⟨hrole, hpeers, helapsed⟩ := gauge_eq_iff.1 hgauge
  refine ⟨hrole.trans h.leads, ?_, fun t ht => ?_⟩
  · intro hnil
    rw [hnil, List.map_nil] at hpeers
    exact h.peers (List.map_eq_nil_iff.1 hpeers.symm)
  · obtain ⟨hle, hsince⟩ := h.since t (hcomputed ▸ ht)
    rw [helapsed]
    exact ⟨hle.trans hclock, hsince.congr hpeers⟩

theorem Sound.step {w w' : Watch} {e : WatchEvent} (h : w.Sound) (hin : w.InTime ctx e)
    (hstep : w.step ctx e = some w') : w'.Sound := by
  cases e with
  | heard src now =>
    simp only [Watch.step, Option.ite_none_right_eq_some, Option.some.injEq] at hstep
    obtain ⟨hclock, rfl⟩ := hstep
    refine ⟨h.leads, fun hnil => h.peers (List.map_eq_nil_iff.1 hnil), fun t ht => ?_⟩
    obtain ⟨hle, hsince⟩ := h.since t ht
    refine ⟨hle.trans hclock, hsince.heard ?_ src⟩
    omega
  | request req now =>
    simp only [Watch.step, Option.ite_none_right_eq_some, Option.some.injEq] at hstep
    obtain ⟨hclock, rfl⟩ := hstep
    have hgauge := (served_handleCliReq ctx req now w.server).gauge_eq
    unfold Server.checked at hgauge
    by_cases hchecks : w.server.Checks ctx
    · rw [if_pos hchecks] at hgauge
      have hfits : int32 (now - w.server.quorumResp) = now - w.server.quorumResp := by
        simpa only [InTime, if_pos hchecks] using hin
      refine Sound.congr (w := ⟨{ w.server with
        timeElapsedSinceQuorumResp := elapsedSinceQuorumResp w.server now }, now, some now⟩)
        ⟨h.leads, h.peers, fun t ht => ?_⟩ hgauge le_rfl (if_pos hchecks)
      obtain rfl := Option.some.inj ht
      refine ⟨le_rfl, (quorumSince_iff h.peers _).2 ?_⟩
      have helapsed : elapsedSinceQuorumResp w.server now = now - w.server.quorumResp := hfits
      show now - max (elapsedSinceQuorumResp w.server now) 0 ≤ w.server.quorumResp
      omega
    · rw [if_neg hchecks] at hgauge
      exact h.congr hgauge hclock (if_neg hchecks)
  | other s =>
    simp only [Watch.step, Option.ite_none_right_eq_some, Option.some.injEq] at hstep
    obtain ⟨hgauge, rfl⟩ := hstep
    exact h.congr hgauge le_rfl rfl

/-- **Every accepted request has a quorum behind it.** In every run of a leader in which the requests
are in time, a request that `handle_cli_req` accepts comes when half of the peers have been heard
from within two election timeouts. -/
theorem accepts_with_quorum (ctx : Context) (s : Server) (clock : Int) (hrole : s.role = .leader)
    (hpeers : s.peers ≠ []) (es : List WatchEvent) (w : Watch)
    (hrun : Machine.run (step ctx) ⟨s, clock, none⟩ es = some w)
    (hes : Machine.Along (step ctx) (InTime ctx) ⟨s, clock, none⟩ es) (req : ReqMsg) (now : Int)
    (hlast : w.InTime ctx (.request req now)) (hacc : w.server.Accepts ctx req now) :
    (w.server.peers.length + 1) / 2 ≤
      w.server.peers.countP fun p => now - p.lastResp ≤ ctx.expiry := by
  have hs : w.Sound := hes.invariant (fun _ _ _ h hin hstep => h.step hin hstep)
    (I := Sound) ⟨hrole, hpeers, by simp⟩ hrun
  have hsince : w.server.QuorumSince (now - ctx.expiry) := by
    have hlate := not_expired_of_accepts hacc
    by_cases hchecks : w.server.Checks ctx
    · have hfits : int32 (now - w.server.quorumResp) = now - w.server.quorumResp := by
        simpa only [InTime, if_pos hchecks] using hlast
      have helapsed : elapsedSinceQuorumResp w.server now = now - w.server.quorumResp := hfits
      have hle := Int.not_lt.1 fun hlt => hlate ⟨hchecks, hlt⟩
      refine (quorumSince_iff hs.peers _).2 ?_
      omega
    · have hleft : ∃ t ∈ w.computed,
          now + max w.server.timeElapsedSinceQuorumResp 0 ≤ t + ctx.expiry := by
        simpa only [InTime, if_neg hchecks] using hlast
      obtain ⟨t, ht, hle⟩ := hleft
      refine (hs.since t ht).2.mono ?_
      omega
  refine hsince.trans (List.countP_mono_left fun p _ hp => decide_eq_true ?_)
  have hle := of_decide_eq_true hp
  omega

/-- Server 1 of three, as a leader that has heard from nobody. -/
def lonely : Server := { Server.new {} 1 three.fresh with role := .leader }

def entryReq : ReqMsg :=
  ⟨0, .clientRequest, 0, 1, 0, 0, 0, [⟨0, .appLog, .bytes [7, 0]⟩]⟩

/-- The leader hears from server 2 and accepts a request at once, and another one in time. -/
theorem accepts_with_quorum_twice :
    ∃ w, Machine.run (step {}) ⟨lonely, 0, none⟩ [.heard 2 1000, .request entryReq 1000] = some w ∧
      w.server.Accepts {} entryReq 1500 ∧
      (w.server.peers.length + 1) / 2 ≤
        w.server.peers.countP fun p => 1500 - p.lastResp ≤ Context.expiry {} := by
  have hrun : (Machine.run (step {}) ⟨lonely, 0, none⟩ [.heard 2 1000, .request entryReq 1000]).map
      (fun w => decide (w.InTime {} (.request entryReq 1500) ∧ w.server.Accepts {} entryReq 1500)) =
        some true := by decide +kernel
  have hes : Machine.Along (step {}) (InTime {}) ⟨lonely, 0, none⟩
      [.heard 2 1000, .request entryReq 1000] := by decide +kernel
  obtain ⟨w, hw, h⟩ := Option.map_eq_some_iff.1 hrun
  obtain ⟨hlast, hacc⟩ := of_decide_eq_true h
  exact ⟨w, hw, hacc, accepts_with_quorum {} lonely 0 rfl (by decide) _ w hw hes entryReq 1500
    hlast hacc⟩

/-- After one request that gets through, the leader accepts requests a quarter of an hour after it has
last heard from anybody. A leader that has never heard from anybody accepts a request at a time whose
lower 32 bits are negative. -/
theorem accepts_without_quorum :
    (∃ w, Machine.run (step {}) ⟨lonely, 0, none⟩ [.heard 2 1000, .request entryReq 1000] = some w ∧
      w.server.Accepts {} entryReq 1000000 ∧
      (w.server.peers.countP fun p => 1000000 - p.lastResp ≤ Context.expiry {}) = 0) ∧
    lonely.Accepts {} entryReq 3000000000 ∧
      (lonely.peers.countP fun p => 3000000000 - p.lastResp ≤ Context.expiry {}) = 0 := by
  have hrun : (Machine.run (step {}) ⟨lonely, 0, none⟩ [.heard 2 1000, .request entryReq 1000]).map
      (fun w => decide (w.server.Accepts {} entryReq 1000000 ∧
        (w.server.peers.countP fun p => 1000000 - p.lastResp ≤ Context.expiry {}) = 0)) =
        some true := by decide +kernel
  obtain ⟨w, hw, h⟩ := Option.map_eq_some_iff.1 hrun
  exact ⟨⟨w, hw, of_decide_eq_true h⟩, by decide +kernel⟩

end Watch

end EnclaveRaft
