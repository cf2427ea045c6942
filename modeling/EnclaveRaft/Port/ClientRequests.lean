import EnclaveRaft.LeaderExpiry
import EnclaveRaft.System.KeyStore
import EnclaveRaft.Wire.Buffer

/-!
# Requests of clients

`handle_client_request` of the listener port: a client asks to add a server, to remove one or to
append entries, with a JSON document. A document that cannot be parsed is logged, and the request goes
on with the defaults of the accessors.

Behind it are the key store, which adds a server after an exchange of reports, and the raft server,
whose `send_msg_to_leader` handles the request itself, forwards it, or turns it down.
-/

namespace EnclaveRaft.Port

open Act EnclaveRaft.System Server

/-- The raft server with its clients for forwarding (`rpc_clients_`, by server), and the key store. -/
structure Edge where
  server : Server
  rpcClients : List Int := []
  keys : KeyStore := {}

inductive EdgeEffect
  | raft (e : Effect)
  | keyExchange (call : KeyCall)
  /-- A request is forwarded to the leader. -/
  | forward (leader : Int) (req : ReqMsg)

inductive EdgeFault
  | raft (e : RaftException)
  | base64
  | outOfRange
  /-- The wait for the leader's answer does not end with one. -/
  | noAnswer

abbrev EdgeM := Act Edge EdgeEffect EdgeFault

inductive ClientType
  | addSrv
  | removeSrv
  | appendEntries
  deriving DecidableEq

/-- The type and the body of a response. -/
structure ClientResp where
  type : ClientType
  success : Bool
  deriving DecidableEq

section Model

variable (ctx : Context) (now : Int) (answer : Option Bool) (parse : Bytes → Option Json)
  (decode : Bytes → Option Bytes)

/-! ## The raft server -/

def onServer {α : Type} (x : M α) : EdgeM α := fun e =>
  ⟨(x e.server).result.mapError .raft, { e with server := (x e.server).state },
    (x e.server).out.map .raft⟩

/-- The result is there at once unless the request is forwarded. -/
def sendMsgToLeader (req : ReqMsg) : EdgeM (Option Bool) := do
  let e ← get
  if e.server.leader = nobody then pure (some false)
  else if e.server.leader = e.server.id then do
    let resp ← onServer (processReq ctx req now)
    pure (some resp.accepted)
  else if e.server.leader ∈ e.rpcClients then do
    emit (.forward e.server.leader req)
    pure none
  else match e.server.config.getServer e.server.leader with
    | none => pure (some false)
    | some _ => do
      modify fun e => { e with rpcClients := e.server.leader :: e.rpcClients }
      emit (.forward e.server.leader req)
      pure none

/-- `async_result::get`: the answer of the leader, if the request was forwarded. -/
def await : Option Bool → EdgeM Bool
  | some result => pure result
  | none =>
    match answer with
    | some result => pure result
    | none => throw .noAnswer

def addSrv (serverId : Int32) (endpoint : Bytes) : EdgeM (Option Bool) :=
  sendMsgToLeader ctx now (addSrvReq ⟨serverId.toInt, endpoint⟩)

def removeSrv (srvId : Int32) : EdgeM (Option Bool) :=
  sendMsgToLeader ctx now (removeSrvReq srvId.toInt)

def appendEntries (logs : List Bytes) : EdgeM (Option Bool) :=
  if logs = [] then pure (some false) else sendMsgToLeader ctx now (clientReq logs)

/-! ## The key store -/

def performCall : KeyCall → EdgeM Unit
  | .addSrv serverId endpoint => do
    let _ ← addSrv ctx now serverId endpoint
    pure ()
  | call => emit (.keyExchange call)

/-- `build_key_xchg_req`, whose only calls come last. -/
def startExchange (serverId : Int32) (endpoint : Bytes) : EdgeM Unit := fun e =>
  let o := buildKeyXchgReq (Int32.ofInt e.server.id) serverId endpoint e.keys
  each (performCall ctx now) o.out { e with keys := o.state }

/-! ## The handler -/

/-- The id that a request to add a server names. -/
def addId (body : Json) : Int32 := (body.field "server_id").intValue

/-- The id that a request to remove a server names goes through `uint16_t`. -/
def removeId (body : Json) : Int32 :=
  Int32.ofNat (body.field "server_id").intValue.toUInt32.toUInt16.toNat

/-- A decoded payload and eight zero bytes. -/
def clientLog (item : Json) : Except EdgeFault Bytes :=
  match decode item.stringValue with
  | none => .error .base64
  | some log =>
    if log.length + 8 < 2 ^ 31 then .ok (log ++ List.replicate 8 0) else .error .outOfRange

def clientLogs (body : Json) : Except EdgeFault (List Bytes) :=
  body.arrayItems.mapM (clientLog decode)

def liftExcept {α : Type} : Except EdgeFault α → EdgeM α
  | .ok a => pure a
  | .error f => throw f

def handleClientRequest (type : ClientType) (payload : Bytes) : EdgeM ClientResp :=
  let body := Json.ofParse (parse payload)
  match type with
  | .addSrv => do
    startExchange ctx now (addId body) (body.field "endpoint").stringValue
    pure ⟨.addSrv, true⟩
  | .removeSrv => do
    let pending ← removeSrv ctx now (removeId body)
    let result ← await answer pending
    pure ⟨.removeSrv, result⟩
  | .appendEntries => do
    let logs ← liftExcept (clientLogs decode body)
    let pending ← appendEntries ctx now logs
    let result ← await answer pending
    pure ⟨.appendEntries, result⟩

end Model

/-! ## Where a request goes -/

namespace Edge

/-- There is no leader to send a request to. -/
def LeaderUnknown (e : Edge) : Prop :=
  e.server.leader = nobody ∨ (e.server.leader ≠ e.server.id ∧ e.server.leader ∉ e.rpcClients ∧
    e.server.config.getServer e.server.leader = none)

def LeaderSelf (e : Edge) : Prop := e.server.leader ≠ nobody ∧ e.server.leader = e.server.id

def LeaderOther (e : Edge) : Prop :=
  e.server.leader ≠ nobody ∧ e.server.leader ≠ e.server.id ∧
    (e.server.leader ∈ e.rpcClients ∨ e.server.config.getServer e.server.leader ≠ none)

theorem leader_cases (e : Edge) : e.LeaderUnknown ∨ e.LeaderSelf ∨ e.LeaderOther := by
  by_cases hnone : e.server.leader = nobody
  · exact .inl (.inl hnone)
  by_cases hself : e.server.leader = e.server.id
  · exact .inr (.inl ⟨hnone, hself⟩)
  by_cases hclient : e.server.leader ∈ e.rpcClients
  · exact .inr (.inr ⟨hnone, hself, .inl hclient⟩)
  by_cases hconfig : e.server.config.getServer e.server.leader = none
  · exact .inl (.inr ⟨hself, hclient, hconfig⟩)
  · exact .inr (.inr ⟨hnone, hself, .inr hconfig⟩)

end Edge

section Leader

variable (ctx : Context) (now : Int) (req : ReqMsg) {e : Edge}

theorem sendMsgToLeader_unknown (h : e.LeaderUnknown) :
    sendMsgToLeader ctx now req e = ⟨.ok (some false), e, []⟩ := by
  unfold sendMsgToLeader
  rw [get_bind_apply]
  by_cases hnone : e.server.leader = nobody
  · rw [if_pos hnone]
    rfl
  · obtain ⟨hself, hclient, hconfig⟩ := h.resolve_left hnone
    rw [if_neg hnone, if_neg hself, if_neg hclient, hconfig]
    rfl

theorem sendMsgToLeader_self (h : e.LeaderSelf) :
    sendMsgToLeader ctx now req e =
      (onServer (processReq ctx req now) >>= fun resp => pure (some resp.accepted)) e := by
  unfold sendMsgToLeader
  rw [get_bind_apply, if_neg h.1, if_pos h.2]

theorem onServer_eq_ok {α : Type} {x : M α} {a : α} (h : (onServer x e).result = .ok a) :
    (x e.server).result = .ok a := by
  rw [onServer] at h
  cases hr : (x e.server).result with
  | ok b =>
    rw [hr] at h
    cases h
    rfl
  | error ex =>
    rw [hr] at h
    cases h

/-- What the leader answers to its own request. -/
theorem sendMsgToLeader_served (h : e.LeaderSelf) {pending : Option Bool}
    (hok : (sendMsgToLeader ctx now req e).result = .ok pending) :
    ∃ resp, (processReq ctx req now e.server).result = .ok resp ∧
      pending = some resp.accepted := by
  rw [sendMsgToLeader_self ctx now req h] at hok
  obtain ⟨resp, hresp, hpending⟩ := result_bind_eq_ok hok
  cases hpending
  exact ⟨resp, onServer_eq_ok hresp, rfl⟩

theorem sendMsgToLeader_silent (h : e.LeaderSelf) {resp : RespMsg} {s' : Server}
    (hrun : processReq ctx req now e.server = ⟨.ok resp, s', []⟩) :
    sendMsgToLeader ctx now req e = ⟨.ok (some resp.accepted), { e with server := s' }, []⟩ := by
  have hon : onServer (processReq ctx req now) e = ⟨.ok resp, { e with server := s' }, []⟩ := by
    rw [onServer, hrun]
    rfl
  rw [sendMsgToLeader_self ctx now req h, Runs.bind_eq hon]
  rfl

theorem sendMsgToLeader_forward (h : e.LeaderOther) :
    ∃ e', sendMsgToLeader ctx now req e = ⟨.ok none, e', [.forward e.server.leader req]⟩ := by
  unfold sendMsgToLeader
  rw [get_bind_apply, if_neg h.1, if_neg h.2.1]
  by_cases hclient : e.server.leader ∈ e.rpcClients
  · rw [if_pos hclient]
    exact ⟨e, rfl⟩
  · obtain ⟨srv, hsrv⟩ := Option.ne_none_iff_exists'.1 (h.2.2.resolve_left hclient)
    rw [if_neg hclient, hsrv]
    exact ⟨_, rfl⟩

end Leader

/-! ## Which server is removed -/

/-- The buffer of the entry that `remove_srv` makes. -/
def encodeId (srvId : Int32) : Except Wire.Fault Wire.Buffer := Wire.build 4 (Wire.putInt srvId)

/-- What `handle_rm_srv_req` reads from it. -/
def decodeId (buf : Wire.Buffer) : Except Wire.Fault Int32 := (Wire.getInt buf).map Prod.fst

theorem decodeId_encodeId (srvId : Int32) : encodeId srvId >>= decodeId = .ok srvId := by
  have hbuild : encodeId srvId = _ :=
    Wire.build_eq (Wire.emits_put (leBytes 4 srvId.toUInt32.toNat)) (length_leBytes 4 _)
      (by simp)
  rw [hbuild]
  show (Wire.getInt _).map Prod.fst = _
  rw [Wire.parses_getInt srvId _ [] (by simp [Block.rest])]
  rfl

section Removal

variable (ctx : Context) (now : Int)

/-- `handle_rm_srv_req` turns the request down. -/
def RemoveRefused (s : Server) (srvId : Int) : Prop :=
  s.role ≠ .leader ∨ s.configChanging = true ∨ srvId = s.id ∨ s.findPeer srvId = none

theorem processReq_remove_refused {s : Server} {srvId : Int} (h : RemoveRefused s srvId) :
    ∃ resp, processReq ctx (removeSrvReq srvId) now s = ⟨.ok resp, s, []⟩ ∧
      resp.accepted = false := by
  have hrun : processReq ctx (removeSrvReq srvId) now s = handleRmSrvReq (removeSrvReq srvId) s := rfl
  rw [hrun, handleRmSrvReq]
  simp only [get_bind_apply, removeSrvReq, outsideReq]
  by_cases hgo : s.role ≠ .leader ∨ s.configChanging ∨ srvId = s.id
  · rw [if_pos hgo]
    exact ⟨_, rfl, rfl⟩
  · have hpeer : s.findPeer srvId = none := by
      simp only [not_or] at hgo
      rcases h with h | h | h | h
      · exact absurd h hgo.1
      · exact absurd h hgo.2.1
      · exact absurd h hgo.2.2
      · exact h
    rw [if_neg hgo, hpeer]
    exact ⟨_, rfl, rfl⟩

/-- Otherwise the leader asks the server to leave. -/
theorem processReq_remove {s : Server} {srvId : Int} (h : ¬RemoveRefused s srvId) :
    ∃ resp rpc, processReq ctx (removeSrvReq srvId) now s = ⟨.ok resp, s, [.send rpc]⟩ ∧
      resp.accepted = true ∧ rpc.req.dst = srvId := by
  have hrun : processReq ctx (removeSrvReq srvId) now s = handleRmSrvReq (removeSrvReq srvId) s := rfl
  obtain ⟨hrole, hchanging, hid, hpeer⟩ : s.role = .leader ∧ ¬s.configChanging = true ∧
      srvId ≠ s.id ∧ s.findPeer srvId ≠ none := by
    simpa only [RemoveRefused, not_or, ne_eq, not_not] using h
  obtain ⟨p, hp⟩ := Option.ne_none_iff_exists'.1 hpeer
  have hgo : ¬(s.role ≠ .leader ∨ s.configChanging ∨ srvId = s.id) := by
    simp [hrole, hchanging, hid]
  rw [hrun, handleRmSrvReq]
  simp only [get_bind_apply, removeSrvReq, outsideReq, if_neg hgo, hp]
  exact ⟨_, _, rfl, rfl, rfl⟩

theorem removeSrv_send {srvId : Int32} {e : Edge} {rpc : Rpc}
    (h : .raft (.send rpc) ∈ (removeSrv ctx now srvId e).out) : rpc.req.dst = srvId.toInt := by
  rcases e.leader_cases with hnone | hself | hother
  · rw [removeSrv, sendMsgToLeader_unknown _ _ _ hnone] at h
    cases h
  · rw [removeSrv, sendMsgToLeader_self _ _ _ hself] at h
    rcases mem_out_bind h with h | ⟨a, -, h⟩
    · obtain ⟨eff, heff, heq⟩ := List.mem_map.1 h
      cases heq
      by_cases hrefused : RemoveRefused e.server srvId.toInt
      · obtain ⟨resp, hrun, -⟩ := processReq_remove_refused ctx now hrefused
        rw [hrun] at heff
        cases heff
      · obtain ⟨resp, rpc', hrun, -, hdst⟩ := processReq_remove ctx now hrefused
        rw [hrun] at heff
        cases List.mem_singleton.1 heff
        exact hdst
    · cases h
  · obtain ⟨e', hrun⟩ := sendMsgToLeader_forward ctx now (removeSrvReq srvId.toInt) hother
    rw [removeSrv, hrun] at h
    cases List.mem_singleton.1 h

/-- `uint16_t` keeps the lowest 16 bits. -/
theorem toInt_removeId (body : Json) : (removeId body).toInt = (addId body).toInt % 2 ^ 16 := by
  unfold removeId addId
  generalize (body.field "server_id").intValue = x
  have hword := x.toUInt32.toNat_lt
  have hx : x.toInt = (x.toUInt32.toNat : Int).bmod (2 ^ 32) :=
    BitVec.toInt_eq_toNat_bmod x.toUInt32.toBitVec
  rw [Int32.toInt_ofNat_of_lt (by have := x.toUInt32.toUInt16.toNat_lt; omega),
    UInt32.toNat_toUInt16, hx, Int.bmod_def]
  split <;> push_cast <;> omega

end Removal

/-- **The server that is removed.** For a request that names server `z`, the id that `remove_srv`
encodes is the one the leader decodes and an add request names, and every leave request that is sent
goes to `z`, exactly if `z` fits into 16 bits without a sign. -/
theorem remove_names_same_server (ctx : Context) (now : Int) (answer : Option Bool)
    (parse : Bytes → Option Json) (decode : Bytes → Option Bytes) (payload : Bytes) (body : Json)
    (z : Int) (hparse : parse payload = some body) (hmin : -2 ^ 31 ≤ z) (hmax : z < 2 ^ 31)
    (hz : (body.field "server_id").IsNumber z) :
    ((∃ id, encodeId (removeId body) >>= decodeId = .ok id ∧ id.toInt = z ∧ id = addId body) ∧
      ∀ e rpc, .raft (.send rpc) ∈
          (handleClientRequest ctx now answer parse decode .removeSrv payload e).out →
        rpc.req.dst = z) ↔ 0 ≤ z ∧ z < 2 ^ 16 := by
  have hadd : (addId body).toInt = z := Json.intValue_of_isNumber hmin hmax hz
  have hremove : (removeId body).toInt = z % 2 ^ 16 := by rw [toInt_removeId, hadd]
  have hfit : z % 2 ^ 16 = z ↔ 0 ≤ z ∧ z < 2 ^ 16 := by omega
  rw [decodeId_encodeId]
  constructor
  · rintro ⟨⟨id, hid, hid', -⟩, -⟩
    cases hid
    rw [← hfit, ← hremove, hid']
  · intro hrange
    have heq : (removeId body).toInt = z := by rw [hremove, hfit.2 hrange]
    refine ⟨⟨removeId body, rfl, heq, Int32.toInt_inj.1 (heq.trans hadd.symm)⟩, fun e rpc h => ?_⟩
    -- neither the wait for the answer nor the response sends anything
    rcases mem_out_bind h with h | ⟨pending, -, h⟩
    · rw [hparse] at h
      exact (removeSrv_send ctx now h).trans heq
    · rcases mem_out_bind h with h | ⟨result, -, h⟩
      · unfold await at h
        split at h
        · cases h
        · split at h <;> cases h
      · cases h

/-- Server 1, the leader of servers 1, 2 and 3. -/
def leaderOfThree : Edge where
  server :=
    { Server.new {} 1 { config := { servers := [srvAt 1, srvAt 2, srvAt 3] } } with
      role := .leader
      leader := 1 }

/-- A parser for which every text names one server. -/
def namesServer (id : Int32) (_ : Bytes) : Option Json := some (.object [("server_id", .int id)])

theorem remove_names_same_server_two :
    ∃ rpc, .raft (.send rpc) ∈ (handleClientRequest {} 0 none (namesServer 2) (fun _ => none)
      .removeSrv [] leaderOfThree).out ∧ rpc.req.dst = 2 := by
  have h := ((remove_names_same_server {} 0 none (namesServer 2) (fun _ => none) [] _ 2 rfl
    (by decide) (by decide) (by exact rfl)).2 (by decide)).2 leaderOfThree
  exact ⟨_, List.mem_singleton.2 rfl, h _ (List.mem_singleton.2 rfl)⟩

/-- A request to remove server 65538 removes server 2. -/
theorem remove_names_other_server :
    ∃ rpc, .raft (.send rpc) ∈ (handleClientRequest {} 0 none (namesServer 65538) (fun _ => none)
      .removeSrv [] leaderOfThree).out ∧ rpc.req.type = .leaveClusterRequest ∧ rpc.req.dst = 2 := by
  exact ⟨_, List.mem_singleton.2 rfl, rfl, rfl⟩

/-! ## Requests of the wrong shape -/

/-- The documents that a request of a type is to carry. -/
def WellShaped : ClientType → Option Json → Prop
  | .addSrv, some body => (∃ z, (body.field "server_id").IsNumber z) ∧
      ∃ endpoint, endpoint ≠ [] ∧ body.field "endpoint" = .string endpoint
  | .removeSrv, some body => ∃ z, (body.field "server_id").IsNumber z
  | .appendEntries, some body => body.IsArray ∧ ∀ item ∈ body.arrayItems, item.IsString
  | _, none => False

/-- The members of a raft server: the time of the last check is a variable of `handle_cli_req`. -/
def members (s : Server) : Server := { s with timeElapsedSinceQuorumResp := 0 }

def EdgeEffect.IsRequest : EdgeEffect → Prop
  | .raft (.send _) => True
  | .raft (.retry _) => True
  | .raft _ => False
  | .keyExchange _ => True
  | .forward _ _ => True

/-- A request is answered with a failure and leaves everything as it was. -/
structure NoEffect (e : Edge) (o : Outcome Edge EdgeEffect EdgeFault ClientResp) : Prop where
  failure : ∃ type, o.result = .ok ⟨type, false⟩
  keys : o.state.keys = e.keys
  server : members o.state.server = members e.server
  clients : o.state.rpcClients = e.rpcClients
  requests : ∀ eff ∈ o.out, ¬eff.IsRequest

/-- `handle_cli_req` turns a client away. -/
def AppendRefused (ctx : Context) (now : Int) (s : Server) : Prop :=
  s.role ≠ .leader ∨ (s.Checks ctx ∧ ctx.expiry < elapsedSinceQuorumResp s now)

/-- The condition under which a request of the wrong shape has no effect. -/
def Harmless (ctx : Context) (now : Int) (decode : Bytes → Option Bytes) (e : Edge) (body : Json) :
    ClientType → Prop
  | .addSrv => False
  | .removeSrv => e.LeaderUnknown ∨ (e.LeaderSelf ∧ RemoveRefused e.server (removeId body).toInt)
  | .appendEntries => ¬body.IsArray ∨ ((∃ logs, clientLogs decode body = .ok logs) ∧
      (e.LeaderUnknown ∨ (e.LeaderSelf ∧ AppendRefused ctx now e.server)))

section Shapes

variable (ctx : Context) (now : Int) (answer : Option Bool) {e : Edge}

theorem processReq_client_refused {s : Server} (logs : List Bytes) (h : AppendRefused ctx now s) :
    ∃ resp s', processReq ctx (clientReq logs) now s = ⟨.ok resp, s', []⟩ ∧ resp.accepted = false ∧
      members s' = members s := by
  have hrun : processReq ctx (clientReq logs) now s = handleCliReq ctx (clientReq logs) now s := rfl
  have hsame : members (s.checked ctx now) = members s := by
    unfold Server.checked
    split <;> rfl
  rw [hrun, handleCliReq_eq]
  by_cases hexpired : s.Checks ctx ∧ ctx.expiry < elapsedSinceQuorumResp s now
  · rw [decide_eq_true hexpired]
    exact ⟨_, _, rfl, rfl, hsame⟩
  · have hrole : s.role ≠ .leader := h.resolve_right hexpired
    have hchecked : s.checked ctx now = s := if_neg fun hchecks => hrole hchecks.1
    rw [decide_eq_false hexpired, hchecked, answerClient, get_bind_apply, if_neg Bool.false_ne_true,
      if_pos hrole]
    exact ⟨_, _, rfl, rfl, rfl⟩

/-- A client that is not turned away is served, if the server gets to the end. -/
theorem processReq_client {s : Server} {logs : List Bytes} {resp : RespMsg}
    (h : ¬AppendRefused ctx now s)
    (hresp : (processReq ctx (clientReq logs) now s).result = .ok resp) : resp.accepted = true := by
  obtain ⟨hrole, hexpired⟩ := not_or.1 h
  have hrun : processReq ctx (clientReq logs) now s = handleCliReq ctx (clientReq logs) now s := rfl
  have hrole' : ¬(s.checked ctx now).role ≠ .leader := by
    unfold Server.checked
    split <;> exact hrole
  rw [hrun, handleCliReq_eq, decide_eq_false hexpired, answerClient, get_bind_apply,
    if_neg Bool.false_ne_true, if_neg hrole'] at hresp
  obtain ⟨_, -, hresp⟩ := result_bind_eq_ok hresp
  obtain ⟨_, -, hresp⟩ := result_bind_eq_ok hresp
  cases hresp
  rfl

/-- What comes of a request that is sent to the leader. -/
theorem noEffect_send_iff {req : ReqMsg} {refused : Prop} (type : ClientType)
    (hrefused : refused → ∃ resp s', processReq ctx req now e.server = ⟨.ok resp, s', []⟩ ∧
      resp.accepted = false ∧ members s' = members e.server)
    (hserved : ¬refused → ∀ resp, (processReq ctx req now e.server).result = .ok resp →
      resp.accepted = true) :
    NoEffect e ((do
        let pending ← sendMsgToLeader ctx now req
        let result ← await answer pending
        pure ⟨type, result⟩ : EdgeM ClientResp) e) ↔
      e.LeaderUnknown ∨ (e.LeaderSelf ∧ refused) := by
  rcases e.leader_cases with hunknown | hself | hother
  · have hrun := sendMsgToLeader_unknown ctx now req hunknown
    rw [Runs.bind_eq hrun]
    refine ⟨fun _ => .inl hunknown, fun _ => ⟨⟨type, rfl⟩, rfl, rfl, rfl, ?_⟩⟩
    intro eff heff
    cases heff
  · have hknown : ¬e.LeaderUnknown := fun h => h.elim hself.1 fun h => h.1 hself.2
    by_cases href : refused
    · obtain ⟨resp, s', hprocess, hresp, hmembers⟩ := hrefused href
      have hrun := sendMsgToLeader_silent ctx now req hself hprocess
      rw [hresp] at hrun
      rw [Runs.bind_eq hrun]
      refine ⟨fun _ => .inr ⟨hself, href⟩, fun _ => ⟨⟨type, rfl⟩, rfl, hmembers, rfl, ?_⟩⟩
      intro eff heff
      cases heff
    · refine ⟨fun h => ?_, fun h => absurd (h.resolve_left hknown).2 href⟩
      -- the answer is that of a request that was accepted
      obtain ⟨type', hfail⟩ := h.failure
      obtain ⟨pending, hpending, hfail⟩ := result_bind_eq_ok hfail
      obtain ⟨resp, hok, rfl⟩ := sendMsgToLeader_served ctx now req hself hpending
      rw [hserved href resp hok] at hfail
      cases hfail
  · obtain ⟨e', hrun⟩ := sendMsgToLeader_forward ctx now req hother
    refine ⟨fun h => ?_, fun h => ?_⟩
    · have hforward : .forward e.server.leader req ∈ (sendMsgToLeader ctx now req e).out := by
        rw [hrun]
        exact List.mem_singleton.2 rfl
      exact absurd trivial (h.requests _ (mem_out_bind_left hforward _))
    · rcases h with h | h
      · rcases h with h | h
        · exact absurd h hother.1
        · exact absurd h.2.2 (hother.2.2.resolve_left h.2.1)
      · exact absurd h.1.2 hother.2.1

theorem clientLogs_ne_nil {decode : Bytes → Option Bytes} {body : Json} {logs : List Bytes}
    (hitems : body.arrayItems ≠ []) (h : clientLogs decode body = .ok logs) : logs ≠ [] := by
  unfold clientLogs at h
  cases hbody : body.arrayItems with
  | nil => exact absurd hbody hitems
  | cons item items =>
    rw [hbody, List.mapM_cons] at h
    cases hlog : clientLog decode item with
    | error f =>
      rw [hlog] at h
      cases h
    | ok log =>
      cases hrest : items.mapM (clientLog decode) with
      | error f =>
        rw [hlog, hrest] at h
        cases h
      | ok rest =>
        rw [hlog, hrest] at h
        cases h
        exact List.cons_ne_nil _ _

/-- Entries that could be read are sent to the leader. -/
theorem append_eq_send (type : ClientType) {logs : List Bytes} (h : logs ≠ []) :
    (do
      let logs ← liftExcept (.ok logs)
      let pending ← appendEntries ctx now logs
      let result ← await answer pending
      pure ⟨type, result⟩ : EdgeM ClientResp) e =
    (do
      let pending ← sendMsgToLeader ctx now (clientReq logs)
      let result ← await answer pending
      pure ⟨type, result⟩ : EdgeM ClientResp) e := by
  have hsend : appendEntries ctx now logs = sendMsgToLeader ctx now (clientReq logs) := if_neg h
  rw [← hsend]
  rfl

theorem noEffect_append_iff (decode : Bytes → Option Bytes) {body : Json}
    (hbody : body.IsArray → body.arrayItems ≠ []) :
    NoEffect e ((do
        let logs ← liftExcept (clientLogs decode body)
        let pending ← appendEntries ctx now logs
        let result ← await answer pending
        pure ⟨.appendEntries, result⟩ : EdgeM ClientResp) e) ↔
      Harmless ctx now decode e body .appendEntries := by
  by_cases harray : body.IsArray
  · cases hlogs : clientLogs decode body with
    | error f =>
      constructor
      · intro h
        obtain ⟨type, hfail⟩ := h.failure
        cases hfail
      · intro h
        rcases h with h | ⟨⟨logs, hok⟩, -⟩
        · exact absurd harray h
        · rw [hlogs] at hok
          cases hok
    | ok logs =>
      have hne := clientLogs_ne_nil (hbody harray) hlogs
      rw [append_eq_send ctx now answer .appendEntries hne,
        noEffect_send_iff ctx now answer .appendEntries
        (processReq_client_refused ctx now logs) (fun h _ => processReq_client ctx now h)]
      constructor
      · intro h
        exact .inr ⟨⟨logs, hlogs⟩, h⟩
      · intro h
        exact (h.resolve_left (not_not.2 harray)).2
  · have hitems : body.arrayItems = [] := by
      cases body with
      | array items => exact absurd trivial harray
      | _ => rfl
    have hlogs : clientLogs decode body = .ok [] := by
      rw [clientLogs, hitems]
      rfl
    rw [hlogs]
    refine ⟨fun _ => .inl harray, fun _ => ⟨⟨.appendEntries, rfl⟩, rfl, rfl, rfl, ?_⟩⟩
    intro eff heff
    cases heff

end Shapes

/-- **Requests of the wrong shape.** A request that does not carry a document of the shape for its
type is answered with a failure and has no effect exactly if it is harmless: requests to add a server
never are. -/
theorem malformed_without_effect (ctx : Context) (now : Int) (answer : Option Bool)
    (parse : Bytes → Option Json) (decode : Bytes → Option Bytes) (e : Edge) (type : ClientType)
    (payload : Bytes) (hshape : ¬WellShaped type (parse payload)) :
    NoEffect e (handleClientRequest ctx now answer parse decode type payload e) ↔
      Harmless ctx now decode e (Json.ofParse (parse payload)) type := by
  cases type with
  | addSrv =>
    refine ⟨fun h => ?_, False.elim⟩
    obtain ⟨type, hfail⟩ := h.failure
    obtain ⟨_, -, hfail⟩ := result_bind_eq_ok hfail
    cases hfail
  | removeSrv =>
    refine noEffect_send_iff ctx now answer .removeSrv (fun h => ?_) fun h resp hresp => ?_
    · obtain ⟨resp, hrun, hresp⟩ := processReq_remove_refused ctx now h
      exact ⟨resp, _, hrun, hresp, rfl⟩
    · obtain ⟨resp', rpc, hrun, haccepted, -⟩ := processReq_remove ctx now h
      rw [hrun] at hresp
      cases hresp
      exact haccepted
  | appendEntries =>
    refine noEffect_append_iff ctx now answer decode fun harray hnil => hshape ?_
    cases hparse : parse payload with
    | none =>
      rw [hparse] at harray
      exact harray.elim
    | some body =>
      rw [hparse] at harray hnil
      refine ⟨harray, fun item hitem => ?_⟩
      rw [show body.arrayItems = [] from hnil] at hitem
      cases hitem

/-- A text that is no document, for entries to append. -/
theorem malformed_without_effect_append :
    NoEffect leaderOfThree (handleClientRequest {} 0 none (fun _ => none) (fun _ => none)
      .appendEntries [] leaderOfThree) :=
  (malformed_without_effect {} 0 none (fun _ => none) (fun _ => none) leaderOfThree .appendEntries []
    id).2 (.inl id)

/-- Server 1, the leader of servers 0 and 1. -/
def leaderOfTwo : Edge where
  server :=
    { Server.new {} 1 { config := { servers := [srvAt 0, srvAt 1] } } with
      role := .leader
      leader := 1 }

/-- A text that is no document leaves a pending exchange with server 0 when it asks to add a server, and
removes server 0 when it asks to remove one; both succeed. -/
theorem malformed_with_effect :
    (¬WellShaped .addSrv none ∧ ∃ o, handleClientRequest {} 0 none (fun _ => none) (fun _ => none)
        .addSrv [] leaderOfTwo = o ∧ o.result = .ok ⟨.addSrv, true⟩ ∧
      o.state.keys.tempConnections 0 = some (none, []) ∧ o.out = []) ∧
    ¬WellShaped .removeSrv none ∧ ∃ o rpc, handleClientRequest {} 0 none (fun _ => none)
        (fun _ => none) .removeSrv [] leaderOfTwo = o ∧ o.result = .ok ⟨.removeSrv, true⟩ ∧
      o.out = [.raft (.send rpc)] ∧ rpc.req.type = .leaveClusterRequest ∧ rpc.req.dst = 0 :=
  ⟨⟨id, _, rfl, rfl, rfl, rfl⟩, id, _, _, rfl, rfl, rfl, rfl, rfl⟩

end EnclaveRaft.Port
