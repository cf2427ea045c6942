import EnclaveRaft.Lib.Machine
import EnclaveRaft.Static
import EnclaveRaft.Turns

/-!
# Election timeouts of a leader

`handle_election_timeout` ends with an error if the server leads, which it says should never happen.
A callback of the election timer looks at `cancelled_` when it starts and then waits for `lock_`.
Between the two, another handler may hold the lock and make the server a leader: it cancels the timer,
too late for the callback that has looked already.

Here the two moments are separate events of one server. The error is out of reach as long as no
election is won while a callback waits for the lock.
-/

namespace EnclaveRaft

open Act Server

/-! ## Callbacks of the election timer -/

/-- A server and the callbacks of its election timer: those that have not looked at `cancelled_` yet,
and those that have found it unset and wait for the lock. -/
structure TimedServer where
  server : Server
  waiting : Nat := 0
  entered : Nat := 0

namespace TimedServer

inductive Event
  /-- The timer expires, and the scheduler starts a callback. -/
  | expire
  /-- A callback looks at `cancelled_`. -/
  | check
  /-- A callback gets the lock. -/
  | timeout
  /-- Another handler runs. -/
  | handle (inp : Input)

def step (ctx : Context) (s : TimedServer) : Event → Option TimedServer
  | .expire => if s.server.electionTask.isSome then some { s with waiting := s.waiting + 1 } else none
  | .check =>
    match s.server.electionTask with
    | none => none
    | some task =>
      if 0 < s.waiting then
        some { s with
          waiting := s.waiting - 1
          entered := if task.cancelled then s.entered else s.entered + 1 }
      else none
  | .timeout =>
    if 0 < s.entered then
      some { s with server := (handleElectionTimeout ctx s.server).state, entered := s.entered - 1 }
    else none
  | .handle .electionTimeout => none
  | .handle inp => some { s with server := (inp.handle ctx s.server).state }

def start (s : Server) : TimedServer := { server := s }

end TimedServer

/-- A timeout in this state takes the branch that stops the application. -/
def LeaderBranch (s : Server) : Prop := Turn.Stands s ∧ s.role = .leader

/-- The input decides an election for the server. -/
def Input.Elects (s : Server) : Input → Prop
  | response rpc resp _ =>
    rpc.handler = .peerResp ∧ resp.type = .requestVoteResponse ∧ resp.Elects s
  | _ => False

instance (s : Server) : (inp : Input) → Decidable (inp.Elects s)
  | .response rpc resp _ => inferInstanceAs (Decidable (rpc.handler = .peerResp ∧
      resp.type = .requestVoteResponse ∧ resp.Elects s))
  | .electionTimeout | .hbTimeout _ | .request _ _ | .failure _ | .resend _ | .commitBg =>
    instDecidableFalse

/-- The condition under which a leader sees no election timeout: no election is won while a callback
waits for the lock, neither by the vote of a peer nor, without peers, by another callback. -/
def TimedServer.Unhurried (s : TimedServer) : Event → Prop
  | .handle inp => 0 < s.entered → ¬inp.Elects s.server
  | .timeout => 1 < s.entered → Turn.Stands s.server → s.server.peers ≠ []
  | _ => True

instance (s : TimedServer) : (e : TimedServer.Event) → Decidable (s.Unhurried e)
  | .handle inp => inferInstanceAs (Decidable (0 < s.entered → ¬inp.Elects s.server))
  | .timeout => inferInstanceAs (Decidable (1 < s.entered → Turn.Stands s.server →
      s.server.peers ≠ []))
  | .expire | .check => instDecidableTrue

/-! ## Roles and the timer -/

/-- A server that leads after a step has led before it, with the same timer. -/
def Calmly (s s' : Server) : Prop :=
  s'.role = .leader → s.role = .leader ∧ s'.electionTask = s.electionTask

theorem Calmly.of_eq {s s' : Server} (hrole : s'.role = s.role)
    (htimer : s'.electionTask = s.electionTask) : Calmly s s' :=
  fun h => ⟨hrole.symm.trans h, htimer⟩

/-- The steps of a handler: an election is won only if `wins`. -/
inductive TimerStep (wins : Prop) : Server → List Effect → Server → Prop
  | calm {s s' : Server} {o : List Effect} (h : Calmly s s') : TimerStep wins s o s'
  | lead {s : Server} (h : wins) : TimerStep wins s [] (takeLead s)

theorem admits_timerStep (ctx : Context) (wins : Prop) : Admits ctx (TimerStep wins) where
  plain h _ := .calm (.of_eq h.role h.timer)
  follow hrole _ := .calm fun h => (hrole h).elim
  addConfigured s srv := by
    obtain ⟨ps, j, n, h⟩ := addConfigured_frame ctx s srv
    rw [h]
    exact .calm (.of_eq rfl rfl)
  drop s q := .calm (.of_eq rfl rfl)
  invite s srv := .calm (.of_eq rfl rfl)
  sync target req hp := .calm (.of_eq rfl rfl)

theorem replicates_timerStep (ctx : Context) (wins : Prop) :
    Replicates ctx (TimerStep wins) (fun _ => True) fun _ => True where
  call s uid _ := Turn.within_requestAppendEntriesTo ((admits_timerStep ctx wins).touches uid)
    (fun _ => .calm (.of_eq rfl rfl)) (fun _ _ _ => .calm (.of_eq rfl rfl)) s
  keep _ _ _ := trivial
  grow _ _ _ := trivial
  ready _ := trivial

/-- The timer of a leader is cancelled. -/
def TimerOff (s : Server) : Prop := s.role = .leader → ∀ task ∈ s.electionTask, task.cancelled

section

variable {wins : Prop} {s s' : Server} {o : List Effect}

theorem timerOff_path (h : Path (TimerStep wins) s o s') (hs : TimerOff s) : TimerOff s' := by
  induction h with
  | nil => exact hs
  | cons hstep _ ih =>
    refine ih ?_
    cases hstep with
    | calm hcalm =>
      intro hr task htask
      obtain ⟨hr', htimer⟩ := hcalm hr
      exact hs hr' task (htimer ▸ htask)
    | lead hwin =>
      intro _ task htask
      obtain ⟨old, -, rfl⟩ := Option.mem_map.1 htask
      rfl

/-- Without an election there is no new leader. -/
theorem role_path (h : Path (TimerStep wins) s o s') (hwins : ¬wins) (hs : s.role ≠ .leader) :
    s'.role ≠ .leader := by
  induction h with
  | nil => exact hs
  | cons hstep _ ih =>
    refine ih ?_
    cases hstep with
    | calm hcalm => exact fun hr => hs (hcalm hr).1
    | lead hwin => exact (hwins hwin).elim

end

/-- Running an action and dropping its result. -/
theorem walks_discard {m : Server → List Effect → Server → Prop} {α : Type} {x : M Unit} {a : α}
    {s : Server} (h : Walks m x s fun _ _ => True) :
    Walks m (x >>= fun _ => pure a) s fun _ _ => True :=
  walks_bind h fun _ _ _ => walks_pure trivial

theorem elects_heardFrom {s : Server} {rpc : Rpc} {resp : RespMsg} {now : Int}
    (h : resp.Elects (heardFrom resp.src now (handleRpcResult rpc true s))) : resp.Elects s := by
  obtain ⟨hterm, hopen, hnew, hmaj⟩ := h
  refine ⟨hterm, hopen, hnew, ?_⟩
  simpa [heardFrom, handleRpcResult, onPeer, countVote] using hmaj

theorem walks_handle_timerStep (ctx : Context) (inp : Input) (s : Server)
    (hne : inp ≠ .electionTimeout) :
    Walks (TimerStep (inp.Elects s)) (inp.handle ctx) s fun _ _ => True := by
  have hm := admits_timerStep ctx (inp.Elects s)
  have hI := replicates_timerStep ctx (inp.Elects s)
  cases inp with
  | electionTimeout => exact (hne rfl).elim
  | hbTimeout uid => exact walks_discard (Turn.walks_handleHbTimeout hm hI uid fun _ => trivial)
  | request req now =>
    refine walks_bind (Turn.walks_processReq hm hI req now fun _ => ?_) fun _ _ _ => walks_pure trivial
    exact ⟨fun _ => trivial, fun _ _ _ _ _ => trivial⟩
  | response rpc resp now =>
    refine walks_discard (walks_modify_bind (.calm (.of_eq rfl rfl)) ?_)
    cases hh : rpc.handler with
    | extResp => exact Turn.walks_handleExtResp hm hI resp trivial
    | peerResp =>
      refine Turn.walks_handlePeerResp hm hI resp now ⟨fun htype helect => ?_, ?_, ?_⟩
      · exact ⟨.lead ⟨hh, htype, elects_heardFrom helect⟩, trivial⟩
      · exact fun _ _ _ _ => trivial
      · exact fun _ _ _ _ => trivial
  | failure rpc =>
    refine walks_discard (walks_modify_bind (.calm (.of_eq rfl rfl)) ?_)
    cases rpc.handler with
    | extResp => exact Turn.walks_handleExtRespErr hm hI rpc.req trivial
    | peerResp => exact walks_pure trivial
  | resend rpc => exact walks_discard (walks_get_bind (walks_emit (.calm (.of_eq rfl rfl)) trivial))
  | commitBg => exact walks_discard (Turn.within_commitInBg hm s)

/-- A timeout makes a server a leader only if it has no peers. -/
theorem walks_handleElectionTimeout_timerStep (ctx : Context) {s : Server} (hrole : s.role ≠ .leader) :
    Walks (TimerStep (Turn.Stands s ∧ s.peers = [])) (handleElectionTimeout ctx) s
      fun _ _ => True := by
  have hm := admits_timerStep ctx (Turn.Stands s ∧ s.peers = [])
  refine Turn.walks_handleElectionTimeout hm (replicates_timerStep ctx _) ⟨?_, ?_⟩
  · exact fun s' hr => Turn.follow_restartElectionTimer hm (hr ▸ hrole)
  · exact fun hstands _ hpeers => ⟨.lead ⟨hstands, hpeers⟩, trivial⟩

/-! ## Runs -/

namespace TimedServer

/-- The timer of a leader is cancelled, and none of its callbacks waits for the lock. -/
structure Orderly (s : TimedServer) : Prop where
  off : TimerOff s.server
  entered : 0 < s.entered → s.server.role ≠ .leader

theorem orderly_step {ctx : Context} {s s' : TimedServer} {e : Event} (h : s.Orderly)
    (hcond : s.Unhurried e) (hstep : step ctx s e = some s') : s'.Orderly := by
  cases e with
  | expire =>
    simp only [step] at hstep
    split at hstep
    · cases hstep
      exact ⟨h.off, h.entered⟩
    · cases hstep
  | check =>
    simp only [step] at hstep
    split at hstep
    next => cases hstep
    next task htask =>
      split at hstep
      · cases hstep
        refine ⟨h.off, fun hpos hr => ?_⟩
        have hoff : task.cancelled = true := h.off hr task htask
        rw [if_pos hoff] at hpos
        exact h.entered hpos hr
      · cases hstep
  | timeout =>
    simp only [step] at hstep
    split at hstep
    next hpos =>
      cases hstep
      have hrole := h.entered hpos
      have hwalk := (walks_handleElectionTimeout_timerStep ctx hrole).1
      refine ⟨timerOff_path hwalk h.off, fun hmore => ?_⟩
      refine role_path hwalk (fun hwin => ?_) hrole
      exact hcond (by dsimp only at hmore; omega) hwin.1 hwin.2
    next => cases hstep
  | handle inp =>
    have hne : inp ≠ .electionTimeout := by
      rintro rfl
      cases hstep
    have heq : s' = { s with server := (inp.handle ctx s.server).state } := by
      cases inp <;> first | exact (hne rfl).elim | exact (Option.some.inj hstep).symm
    subst heq
    have hwalk := (walks_handle_timerStep ctx inp s.server hne).1
    refine ⟨timerOff_path hwalk h.off, fun hpos => ?_⟩
    exact role_path hwalk (hcond hpos) (h.entered hpos)

theorem orderly_start (ctx : Context) (id : Int) (b : Boot) : (start (.new ctx id b)).Orderly := by
  have hrole : (Server.new ctx id b).role = .follower := by
    obtain ⟨ps, n, h⟩ := new_frame ctx id b
    exact h.field Server.role
  refine ⟨fun hr => ?_, fun hpos => ?_⟩
  · cases hrole.symm.trans hr
  · cases hpos

/-- **A leader sees no election timeout.** In every run of a server from its construction in which
no election is won while a callback of the election timer waits for the lock, no callback that waits
for the lock would take the branch that stops the application. -/
theorem leader_sees_no_timeout (ctx : Context) (id : Int) (b : Boot) (es : List Event)
    (s : TimedServer) (hcond : Machine.Along (step ctx) Unhurried (start (.new ctx id b)) es)
    (hrun : Machine.run (step ctx) (start (.new ctx id b)) es = some s) :
    0 < s.entered → ¬LeaderBranch s.server := by
  have h := Machine.Along.invariant (I := Orderly) (fun _ _ _ => orderly_step)
    (orderly_start ctx id b) hcond hrun
  exact fun hpos hbranch => h.entered hpos hbranch.2

section Examples

/-- The first of three servers. -/
def firstOfThree : TimedServer :=
  start (.new {} 1 { config := { servers := [srvAt 1, srvAt 2, srvAt 3] } })

/-- The vote of the second server for the first one in term 1. -/
def secondVotes : Event :=
  .handle (.response
    { handler := .peerResp
      uid := 0
      target := 2
      req := ⟨1, .requestVoteRequest, 1, 2, 0, 0, 0, []⟩
      creator := firstOfThree.server }
    ⟨1, .requestVoteResponse, 2, 1, 1, true⟩ 0)

/-- A callback waits for the lock after another one has made the server a candidate. -/
theorem leader_sees_no_timeout_candidate :
    ∃ s, Machine.run (step {}) firstOfThree [.expire, .check, .timeout, .expire, .check] = some s ∧
      s.entered = 1 ∧ s.server.role = .candidate ∧ (0 < s.entered → ¬LeaderBranch s.server) := by
  have hrun : (Machine.run (step {}) firstOfThree [.expire, .check, .timeout, .expire,
      .check]).map (fun s => (s.entered, s.server.role)) = some (1, .candidate) := by
    decide +kernel
  obtain ⟨s, hs, hstate⟩ := Option.map_eq_some_iff.1 hrun
  obtain ⟨hentered, hrole⟩ := Prod.mk.inj hstate
  refine ⟨s, hs, hentered, hrole, ?_⟩
  exact leader_sees_no_timeout {} 1 _ _ s (by decide +kernel) hs

/-- The vote that decides the election is handled while a callback waits for the lock. -/
theorem leader_times_out :
    ∃ s, Machine.run (step {}) firstOfThree
        [.expire, .check, .timeout, .expire, .check, secondVotes] = some s ∧
      0 < s.entered ∧ LeaderBranch s.server := by
  have hrun : (Machine.run (step {}) firstOfThree [.expire, .check, .timeout, .expire, .check,
      secondVotes]).map (fun s => (s.entered, s.server.stepsToDown, s.server.catchingUp,
        s.server.role)) = some (1, 0, false, .leader) := by
    decide +kernel
  obtain ⟨s, hs, hstate⟩ := Option.map_eq_some_iff.1 hrun
  simp only [Prod.mk.injEq] at hstate
  obtain ⟨hentered, hdown, hcatch, hrole⟩ := hstate
  exact ⟨s, hs, by omega, ⟨by omega, hcatch⟩, hrole⟩

end Examples

end TimedServer

end EnclaveRaft
