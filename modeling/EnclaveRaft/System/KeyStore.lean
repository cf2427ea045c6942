import EnclaveRaft.Common.Json
import EnclaveRaft.Lib.Act
import EnclaveRaft.Lib.Machine
import Mathlib.Logic.Function.Basic

/-!
# The key store and the exchange of reports

Servers exchange attestation reports before one is added to the cluster. `er_key_store` keeps the
public keys of the servers whose reports were valid (`store_`), and for each exchange that was started
the client it was sent through and the endpoint of the server (`temp_connections_`).

The events of an exchange are client requests to add a server, key-exchange requests of other servers,
responses and failures of requests. Which request a response belongs to plays no part in the code: the
server it is about is the one its payload names. An event is *regular* when a response names a server
with a pending entry, nothing that comes back leaves a pending entry without a request, the endpoint
of a server to exchange reports with is one that the host makes a client for, and the reports of
requests are valid.
-/

namespace EnclaveRaft.System

open Act Function

/-! ## Clients -/

def isAlnum (c : UInt8) : Bool :=
  (48 ≤ c && c ≤ 57) || (65 ≤ c && c ≤ 90) || (97 ≤ c && c ≤ 122)

/-- The parts of a host name between its dots. -/
def labels : Bytes → List Bytes
  | [] => [[]]
  | c :: cs =>
    if c = 46 then [] :: labels cs
    else match labels cs with
      | [] => [[c]]
      | l :: ls => (c :: l) :: ls

/-- `([a-zA-Z0-9\-]+\.)*([a-zA-Z0-9]+)`. -/
def isHost (host : Bytes) : Bool :=
  let ls := labels host
  ls.all (!List.isEmpty ·) && ls.dropLast.all (List.all · fun c => isAlnum c || c = 45) &&
    ls.getLast?.all (List.all · isAlnum)

/-- `tcp://host:port`. -/
def isTcp (endpoint : Bytes) : Bool :=
  let rest := endpoint.drop 6
  let port := (rest.dropWhile (· ≠ 58)).drop 1
  endpoint.take 6 = [116, 99, 112, 58, 47, 47] && isHost (rest.takeWhile (· ≠ 58)) &&
    !port.isEmpty && port.all fun c => 48 ≤ c && c ≤ 57

/-- `c_str()` ends at the first zero byte. -/
def cStr (s : Bytes) : Bytes := s.takeWhile (· ≠ 0)

/-- `ocall_rpc_client_create`: a client, known by its endpoint, or number 0. -/
def rpcClientCreate (endpoint : Bytes) : Option Bytes :=
  if isTcp (cStr endpoint) then some (cStr endpoint) else none

/-! ## The key store -/

/-- The members of `er_key_store`. -/
structure KeyStore where
  selfReport : Bytes := []
  store : Int32 → Option Bytes := fun _ => none
  tempConnections : Int32 → Option (Option Bytes × Bytes) := fun _ => none

/-- Calls to the raft server and to the client of a server. -/
inductive KeyCall
  | addSrv (serverId : Int32) (endpoint : Bytes)
  | sendXchgRequest (serverId : Int32) (client : Bytes) (myId : Int32) (myReport : Bytes)
  deriving DecidableEq

inductive KeyFault
  /-- The end of `temp_connections_` is dereferenced. -/
  | endIterator
  /-- Bytes are inserted through a null pointer. -/
  | nullBuffer
  deriving DecidableEq

abbrev KeyM := Act KeyStore KeyCall KeyFault

/-- The two types of requests and responses that `er_message_type` has for the key store, and the
others. -/
inductive SystemType
  | keyExchange
  | keySetup
  | other
  deriving DecidableEq

/-- The body of a key-exchange response. -/
structure XchgResp where
  serverId : Int32
  report : Bytes
  deriving DecidableEq

section Model

variable (parse : Bytes → Option Json) (validate : Bytes → Option Bytes) (myId : Int32)

def connect (serverId : Int32) (client : Option Bytes) (endpoint : Bytes) (ks : KeyStore) : KeyStore :=
  { ks with tempConnections := update ks.tempConnections serverId (some (client, endpoint)) }

/-- A server whose key is known is added; otherwise a request is sent, unless one was. Through client 0
nothing goes out: the host does not have it. -/
def buildKeyXchgReq (serverId : Int32) (endpoint : Bytes) : KeyM Unit := do
  let ks ← get
  match ks.store serverId with
  | some _ => emit (.addSrv serverId endpoint)
  | none =>
    match ks.tempConnections serverId with
    | none => do
      modify (connect serverId (rpcClientCreate endpoint) endpoint)
      match rpcClientCreate endpoint with
      | some client => emit (.sendXchgRequest serverId client myId ks.selfReport)
      | none => pure ()
    | some (client, _) => modify (connect serverId client endpoint)

/-- A valid report gives the public key in its quote. -/
def receiveReport (serverId : Int32) (report : Bytes) : KeyM Bool :=
  match validate (cStr report) with
  | some pk => do
    modify fun ks => { ks with store := update ks.store serverId (some pk) }
    pure true
  | none => pure false

/-- The report is received before the pending entry is looked for. -/
def handleKeyXchgResp (payload except : Bytes) : KeyM Unit :=
  if except ≠ [] then pure ()
  else match parse payload with
    | none => pure ()
    | some rsp => do
      let serverId := (rsp.field "server_id").intValue
      let result ← receiveReport validate serverId (rsp.field "report").stringValue
      let ks ← get
      match ks.tempConnections serverId with
      | none => throw .endIterator
      | some (_, endpoint) => do
        modify fun ks => { ks with tempConnections := update ks.tempConnections serverId none }
        when result (emit (.addSrv serverId endpoint))

/-- `ecall_rpc_response` and `handle_system_resp`. An exception is only logged. -/
def rpcResponse : Option (SystemType × Bytes) → KeyM Unit
  | some (.keyExchange, payload) => handleKeyXchgResp parse validate payload []
  | _ => pure ()

/-- The response is built in a buffer that is there only if the report is valid. -/
def handleSystemRequest (type : SystemType) (payload : Bytes) : KeyM (Option XchgResp) :=
  match type with
  | .keyExchange => do
    let body := Json.ofParse (parse payload)
    let peerId := (body.field "server_id").intValue
    let result ← receiveReport validate peerId (body.field "report").stringValue
    if result then do
      let ks ← get
      pure (some ⟨myId, ks.selfReport⟩)
    else throw .nullBuffer
  | _ => pure none

end Model

/-! ## Exchanges -/

/-- What happens to a key store. What comes back carries the number of the request it is for; without
a message the request has failed. -/
inductive Exchange.Event
  | addServer (serverId : Int32) (endpoint : Bytes)
  | request (payload : Bytes)
  | comesBack (k : Nat) (msg : Option (SystemType × Bytes))

/-- The key store with what it has done: the servers its requests went to, the requests for which
something has come back, the servers it has added, the answers to the requests of others, and whether
memory was accessed that is not there. -/
structure Exchange where
  keys : KeyStore := {}
  sent : List Int32 := []
  settled : List Nat := []
  added : List (Int32 × Bytes) := []
  answers : List (Option XchgResp) := []
  faulted : Bool := false

def KeyCall.target : KeyCall → Option Int32
  | .sendXchgRequest serverId _ _ _ => some serverId
  | .addSrv _ _ => none

def KeyCall.addition : KeyCall → Option (Int32 × Bytes)
  | .addSrv serverId endpoint => some (serverId, endpoint)
  | .sendXchgRequest _ _ _ _ => none

namespace Exchange

/-- What a call of the key store leaves. -/
def absorb {α : Type} (s : Exchange) (o : Outcome KeyStore KeyCall KeyFault α) : Exchange :=
  { s with
    keys := o.state
    sent := s.sent ++ o.out.filterMap KeyCall.target
    added := s.added ++ o.out.filterMap KeyCall.addition
    faulted := o.result matches .error _ }

/-- The answer to a request, if the call returns. -/
def answer (o : Outcome KeyStore KeyCall KeyFault (Option XchgResp)) : List (Option XchgResp) :=
  match o.result with
  | .ok resp => [resp]
  | .error _ => []

/-- Something has come back for request `k`, if it was sent. -/
def settle (s : Exchange) (k : Nat) : List Nat :=
  if k < s.sent.length then k :: s.settled else s.settled

/-- Request `k` went to server `i` and nothing has come back for it. -/
def Outstanding (s : Exchange) (k : Nat) (i : Int32) : Prop := s.sent[k]? = some i ∧ k ∉ s.settled

section Runs

variable (parse : Bytes → Option Json) (validate : Bytes → Option Bytes) (myId : Int32)

/-- Nothing happens after a fault. -/
def step (s : Exchange) (e : Event) : Option Exchange :=
  if s.faulted then none
  else match e with
    | .addServer serverId endpoint => some (s.absorb (buildKeyXchgReq myId serverId endpoint s.keys))
    | .request payload =>
      let o := handleSystemRequest parse validate myId .keyExchange payload s.keys
      some { s.absorb o with answers := s.answers ++ answer o }
    | .comesBack k msg =>
      some { s.absorb (rpcResponse parse validate msg s.keys) with settled := s.settle k }

/-- The server that a response is about. -/
def named : Option (SystemType × Bytes) → Option Int32
  | some (.keyExchange, payload) =>
    (parse payload).map fun rsp => (rsp.field "server_id").intValue
  | _ => none

/-- The report of a request. -/
def reportOf (payload : Bytes) : Bytes :=
  cStr ((Json.ofParse (parse payload)).field "report").stringValue

/-- What a step from `s` to `s'` should do. -/
structure Sound (s : Exchange) (e : Event) (s' : Exchange) : Prop where
  /-- A response about a server with no pending entry changes nothing. -/
  stray : ∀ k msg i, e = .comesBack k msg → named parse msg = some i →
    s.keys.tempConnections i = none →
      s'.keys.store = s.keys.store ∧ s'.keys.tempConnections = s.keys.tempConnections ∧
        s'.added = s.added ∧ s'.faulted = false
  /-- An entry is pending only while a request to its server is outstanding. -/
  pending : ∀ i, (s'.keys.tempConnections i).isSome → ∃ k, s'.Outstanding k i
  /-- A request without a valid report gets no response and leaves no key. -/
  refused : ∀ payload, e = .request payload → validate (reportOf parse payload) = none →
    s'.answers = s.answers ++ [none] ∧ s'.keys.store = s.keys.store ∧ s'.faulted = false

/-- Once something has come back for request `k`, the server it went to has no pending entry, or is the
one that is named, or has another request outstanding. -/
def Settles (s : Exchange) (k : Nat) (name : Option Int32) : Prop :=
  ∀ i, s.Outstanding k i → s.keys.tempConnections i = none ∨ name = some i ∨
    ∃ j, j ≠ k ∧ s.Outstanding j i

/-- The condition on an event and the state before it. -/
def Regular (s : Exchange) : Event → Prop
  | .addServer i endpoint => s.keys.store i = none → s.keys.tempConnections i = none →
      isTcp (cStr endpoint) ∨ ∃ k, s.Outstanding k i
  | .request payload => (validate (reportOf parse payload)).isSome
  | .comesBack k msg =>
    (∀ i, named parse msg = some i → (s.keys.tempConnections i).isSome) ∧
      s.Settles k (named parse msg)

end Runs

/-! ## What the calls leave -/

section Calls

variable {parse : Bytes → Option Json} (validate : Bytes → Option Bytes) (ks : KeyStore)

theorem receiveReport_apply (i : Int32) (report : Bytes) :
    ∃ store, receiveReport validate i report ks =
      ⟨.ok (validate (cStr report)).isSome, { ks with store := store }, []⟩ := by
  unfold receiveReport
  cases validate (cStr report) with
  | some pk => exact ⟨_, rfl⟩
  | none => exact ⟨_, rfl⟩

theorem named_eq_some {msg : Option (SystemType × Bytes)} {i : Int32} (h : named parse msg = some i) :
    ∃ payload rsp, msg = some (.keyExchange, payload) ∧ parse payload = some rsp ∧
      (rsp.field "server_id").intValue = i := by
  match msg, h with
  | some (.keyExchange, payload), h =>
    obtain ⟨rsp, hrsp, hi⟩ := Option.map_eq_some_iff.1 h
    exact ⟨payload, rsp, rfl, hrsp, hi⟩

theorem rpcResponse_of_named_none {msg : Option (SystemType × Bytes)} (h : named parse msg = none) :
    rpcResponse parse validate msg ks = ⟨.ok (), ks, []⟩ := by
  match msg, h with
  | some (.keyExchange, payload), h =>
    have hparse : parse payload = none := Option.map_eq_none_iff.1 h
    simp only [rpcResponse, handleKeyXchgResp, hparse]
    rfl
  | some (.keySetup, _), _ => rfl
  | some (.other, _), _ => rfl
  | none, _ => rfl

/-- The part of `handle_key_xchg_resp` that looks for the pending entry. -/
theorem rpcResponse_of_named {msg : Option (SystemType × Bytes)} {i : Int32}
    (h : named parse msg = some i) :
    ∃ store valid, rpcResponse parse validate msg ks =
      (match ks.tempConnections i with
        | none => throw .endIterator
        | some (_, endpoint) => do
          modify fun ks => { ks with tempConnections := update ks.tempConnections i none }
          when (valid = true) (emit (.addSrv i endpoint)) : KeyM Unit)
        { ks with store := store } := by
  obtain ⟨payload, rsp, rfl, hparse, rfl⟩ := named_eq_some h
  obtain ⟨store, hreceive⟩ := receiveReport_apply validate ks
    (rsp.field "server_id").intValue (rsp.field "report").stringValue
  refine ⟨store, (validate (cStr (rsp.field "report").stringValue)).isSome, ?_⟩
  simp only [rpcResponse, handleKeyXchgResp, hparse, ne_eq, not_true_eq_false, if_false]
  rw [Runs.bind_eq hreceive]
  rfl

/-- A response about a server without an entry comes to nothing, after its report was received. -/
theorem rpcResponse_of_no_entry {msg : Option (SystemType × Bytes)} {i : Int32}
    (h : named parse msg = some i) (hentry : ks.tempConnections i = none) :
    (rpcResponse parse validate msg ks).result = .error .endIterator := by
  obtain ⟨store, valid, heq⟩ := rpcResponse_of_named validate ks h
  rw [heq, hentry]
  rfl

theorem rpcResponse_of_entry {msg : Option (SystemType × Bytes)} {i : Int32}
    (h : named parse msg = some i) (hentry : (ks.tempConnections i).isSome) :
    ∃ ks' o, rpcResponse parse validate msg ks = ⟨.ok (), ks', o⟩ ∧
      ks'.tempConnections = update ks.tempConnections i none ∧ o.filterMap KeyCall.target = [] := by
  obtain ⟨⟨client, endpoint⟩, hentry⟩ := Option.isSome_iff_exists.1 hentry
  obtain ⟨store, valid, heq⟩ := rpcResponse_of_named validate ks h
  rw [hentry] at heq
  cases valid with
  | true => exact ⟨_, [.addSrv i endpoint], heq, rfl, rfl⟩
  | false => exact ⟨_, [], heq, rfl, rfl⟩

/-- A pending entry after `build_key_xchg_req` was there before, or its request has been sent, or there
is no client for it. -/
theorem buildKeyXchgReq_apply (myId i : Int32) (endpoint : Bytes) :
    ∃ ks' o, buildKeyXchgReq myId i endpoint ks = ⟨.ok (), ks', o⟩ ∧
      (∀ j, (ks'.tempConnections j).isSome → (ks.tempConnections j).isSome ∨
        j ∈ o.filterMap KeyCall.target ∨ (j = i ∧ ks.store i = none ∧ ks.tempConnections i = none ∧
          ¬isTcp (cStr endpoint))) ∧
      (ks.store i = none → ks.tempConnections i = none → ¬isTcp (cStr endpoint) →
        (ks'.tempConnections i).isSome ∧ o = []) := by
  cases hstore : ks.store i with
  | some pk =>
    have hrun : Runs (buildKeyXchgReq myId i endpoint) ks () ks [.addSrv i endpoint] := by
      refine .get_bind ?_
      rw [hstore]
      exact runs_emit
    exact ⟨_, _, hrun, fun j hj => .inl hj, nofun⟩
  | none =>
    cases htemp : ks.tempConnections i with
    | some entry =>
      have hrun : Runs (buildKeyXchgReq myId i endpoint) ks () (connect i entry.1 endpoint ks) [] := by
        refine .get_bind ?_
        rw [hstore, htemp]
        exact runs_modify
      refine ⟨_, _, hrun, fun j hj => .inl ?_, nofun⟩
      by_cases hji : j = i
      · rw [hji, htemp]
        rfl
      · simpa [connect, hji] using hj
    | none =>
      by_cases htcp : isTcp (cStr endpoint)
      · have hclient : rpcClientCreate endpoint = some (cStr endpoint) := if_pos htcp
        have hrun : Runs (buildKeyXchgReq myId i endpoint) ks ()
            (connect i (some (cStr endpoint)) endpoint ks)
            [.sendXchgRequest i (cStr endpoint) myId ks.selfReport] := by
          refine .get_bind ?_
          rw [hstore, htemp, hclient]
          exact .modify_bind runs_emit
        refine ⟨_, _, hrun, fun j hj => ?_, fun _ _ hno => (hno htcp).elim⟩
        by_cases hji : j = i
        · exact .inr (.inl (by simp [hji, KeyCall.target]))
        · exact .inl (by simpa [connect, hji] using hj)
      · have hclient : rpcClientCreate endpoint = none := if_neg htcp
        have hrun : Runs (buildKeyXchgReq myId i endpoint) ks () (connect i none endpoint ks) [] := by
          refine .get_bind ?_
          rw [hstore, htemp, hclient]
          exact .modify_bind runs_pure
        refine ⟨_, _, hrun, fun j hj => ?_, fun _ _ _ => ⟨by simp [connect], rfl⟩⟩
        by_cases hji : j = i
        · exact .inr (.inr ⟨hji, rfl, rfl, htcp⟩)
        · exact .inl (by simpa [connect, hji] using hj)

/-- A request is answered exactly if its report is valid. -/
theorem handleSystemRequest_apply (parse : Bytes → Option Json) (myId : Int32) (payload : Bytes) :
    ∃ store, handleSystemRequest parse validate myId .keyExchange payload ks =
      ⟨if (validate (reportOf parse payload)).isSome then .ok (some ⟨myId, ks.selfReport⟩)
        else .error .nullBuffer, { ks with store := store }, []⟩ := by
  obtain ⟨store, hreceive⟩ := receiveReport_apply validate ks
    ((Json.ofParse (parse payload)).field "server_id").intValue
    ((Json.ofParse (parse payload)).field "report").stringValue
  refine ⟨store, ?_⟩
  simp only [handleSystemRequest]
  rw [Runs.bind_eq hreceive]
  unfold reportOf
  cases (validate (cStr ((Json.ofParse (parse payload)).field "report").stringValue)).isSome <;> rfl

end Calls

/-! ## Steps and runs -/

section Steps

variable {parse : Bytes → Option Json} {validate : Bytes → Option Bytes} {myId : Int32}
  {s s' : Exchange} {e : Event}

/-- What holds between the events of a regular run. -/
structure Tracked (s : Exchange) : Prop where
  known : ∀ k ∈ s.settled, k < s.sent.length
  pending : ∀ i, (s.keys.tempConnections i).isSome → ∃ k, s.Outstanding k i
  running : s.faulted = false

theorem Outstanding.append {k : Nat} {i : Int32} (h : s.Outstanding k i) {is : List Int32}
    (hsent : s'.sent = s.sent ++ is) (hsettled : k ∈ s'.settled → k ∈ s.settled) :
    s'.Outstanding k i := by
  refine ⟨?_, fun hk => h.2 (hsettled hk)⟩
  rw [hsent, List.getElem?_append_left (List.getElem?_eq_some_iff.1 h.1).1, h.1]

/-- A request that has just been sent is outstanding. -/
theorem Tracked.outstanding_new (h : s.Tracked) {i : Int32} {is : List Int32} (hi : i ∈ is)
    (hsent : s'.sent = s.sent ++ is) (hsettled : s'.settled = s.settled) :
    ∃ k, s'.Outstanding k i := by
  obtain ⟨n, hn⟩ := List.mem_iff_getElem?.1 hi
  refine ⟨s.sent.length + n, ?_, fun hk => ?_⟩
  · rw [hsent, List.getElem?_append_right (Nat.le_add_right _ _), Nat.add_sub_cancel_left, hn]
  · rw [hsettled] at hk
    have := h.known _ hk
    omega

theorem sound_addServer (h : s.Tracked) {i : Int32} {endpoint : Bytes}
    (hstep : step parse validate myId s (.addServer i endpoint) = some s') :
    (Sound parse validate s (.addServer i endpoint) s' ↔
        Regular parse validate s (.addServer i endpoint)) ∧
      (Regular parse validate s (.addServer i endpoint) → s'.Tracked) := by
  obtain ⟨ks', o, hrun, hpending, hstuck⟩ := buildKeyXchgReq_apply s.keys myId i endpoint
  simp only [step, h.running, Bool.false_eq_true, if_false, hrun, Option.some.injEq] at hstep
  subst hstep
  have hold (hreg : Regular parse validate s (.addServer i endpoint)) :
      ∀ j, (ks'.tempConnections j).isSome →
        ∃ k, (s.absorb ⟨.ok (), ks', o⟩).Outstanding k j := by
    intro j hj
    rcases hpending j hj with hj | hj | ⟨rfl, hstore, htemp, hno⟩
    · obtain ⟨k, hk⟩ := h.pending j hj
      exact ⟨k, hk.append rfl id⟩
    · exact h.outstanding_new hj rfl rfl
    · obtain ⟨k, hk⟩ := (hreg hstore htemp).resolve_left hno
      exact ⟨k, hk.append rfl id⟩
  refine ⟨⟨fun hsound hstore htemp => ?_, fun hreg => ⟨nofun, hold hreg, nofun⟩⟩,
    fun hreg => ⟨fun k hk => ?_, hold hreg, rfl⟩⟩
  · -- without a client nothing has been sent, so the request is an earlier one
    by_cases htcp : isTcp (cStr endpoint)
    · exact .inl htcp
    · obtain ⟨hentry, rfl⟩ := hstuck hstore htemp htcp
      obtain ⟨k, hk, hnot⟩ := hsound.pending i hentry
      exact .inr ⟨k, by simpa [absorb] using hk, hnot⟩
  · have := h.known k hk
    simp only [absorb, List.length_append]
    omega

theorem sound_request (h : s.Tracked) {payload : Bytes}
    (hstep : step parse validate myId s (.request payload) = some s') :
    (Sound parse validate s (.request payload) s' ↔ (validate (reportOf parse payload)).isSome) ∧
      ((validate (reportOf parse payload)).isSome → s'.Tracked) := by
  obtain ⟨store, hrun⟩ := handleSystemRequest_apply validate s.keys parse myId payload
  simp only [step, h.running, Bool.false_eq_true, if_false, hrun, Option.some.injEq] at hstep
  cases hvalid : validate (reportOf parse payload) with
  | none =>
    rw [hvalid] at hstep
    subst hstep
    refine ⟨⟨fun hsound => ?_, nofun⟩, nofun⟩
    -- the insertion through the null pointer
    have hfault := (hsound.refused payload rfl hvalid).2.2
    cases hfault
  | some pk =>
    rw [hvalid] at hstep
    subst hstep
    have hold (s₁ : Exchange) (hsent : s₁.sent = s.sent ++ []) (hsettled : s₁.settled = s.settled)
        (htemp : s₁.keys.tempConnections = s.keys.tempConnections) :
        ∀ j, (s₁.keys.tempConnections j).isSome → ∃ k, s₁.Outstanding k j := by
      intro j hj
      rw [htemp] at hj
      obtain ⟨k, hk⟩ := h.pending j hj
      exact ⟨k, hk.append hsent fun hk => hsettled ▸ hk⟩
    refine ⟨⟨fun _ => rfl, fun _ => ⟨nofun, hold _ rfl rfl rfl, ?_⟩⟩, fun _ =>
      ⟨fun k hk => ?_, hold _ rfl rfl rfl, rfl⟩⟩
    · intro payload' heq hnone
      cases heq
      rw [hvalid] at hnone
      cases hnone
    · have := h.known k hk
      simp only [absorb, List.length_append]
      omega

/-- The entries that are left and the requests for them, after something has come back for request
`k` that names `name`. -/
theorem pending_settled (h : s.Tracked) {k : Nat} {name : Option Int32}
    (htemp : ∀ j, (s'.keys.tempConnections j).isSome ↔
      (s.keys.tempConnections j).isSome ∧ name ≠ some j)
    (hsent : s'.sent = s.sent) (hsettled : s'.settled = s.settle k) :
    (∀ j, (s'.keys.tempConnections j).isSome → ∃ n, s'.Outstanding n j) ↔ s.Settles k name := by
  have hmem (n : Nat) : n ∈ s'.settled ↔ (n = k ∧ k < s.sent.length) ∨ n ∈ s.settled := by
    rw [hsettled, settle]
    split <;> simp [*]
  constructor
  · intro hall i hk
    by_cases htemp' : s.keys.tempConnections i = none
    · exact .inl htemp'
    by_cases hname : name = some i
    · exact .inr (.inl hname)
    obtain ⟨n, hn, hnot⟩ := hall i ((htemp i).2 ⟨Option.isSome_iff_ne_none.2 htemp', hname⟩)
    rw [hmem] at hnot
    have hlt := (List.getElem?_eq_some_iff.1 hk.1).1
    exact .inr (.inr ⟨n, fun heq => hnot (.inl ⟨heq, hlt⟩),
      ⟨hsent ▸ hn, fun hn => hnot (.inr hn)⟩⟩)
  · intro hsettles j hj
    obtain ⟨hj, hname⟩ := (htemp j).1 hj
    have hkeep {n : Nat} (hn : s.Outstanding n j) (hne : n ≠ k) : s'.Outstanding n j := by
      refine ⟨by rw [hsent]; exact hn.1, fun hmem' => ?_⟩
      rcases (hmem n).1 hmem' with ⟨heq, -⟩ | hold
      · exact hne heq
      · exact hn.2 hold
    obtain ⟨n, hn⟩ := h.pending j hj
    by_cases hnk : n = k
    · subst hnk
      rcases hsettles j hn with hnone | heq | ⟨m, hm, hout⟩
      · rw [hnone] at hj
        cases hj
      · exact absurd heq hname
      · exact ⟨m, hkeep hout hm⟩
    · exact ⟨n, hkeep hn hnk⟩

/-- What comes back and finds its entry. -/
theorem sound_of_entry (h : s.Tracked) {k : Nat} {msg : Option (SystemType × Bytes)}
    (hentry : ∀ i, named parse msg = some i → (s.keys.tempConnections i).isSome)
    (htemp : ∀ j, (s'.keys.tempConnections j).isSome ↔
      (s.keys.tempConnections j).isSome ∧ named parse msg ≠ some j)
    (hsent : s'.sent = s.sent) (hsettled : s'.settled = s.settle k) (hrunning : s'.faulted = false) :
    (Sound parse validate s (.comesBack k msg) s' ↔ Regular parse validate s (.comesBack k msg)) ∧
      (Regular parse validate s (.comesBack k msg) → s'.Tracked) := by
  have hpending := pending_settled h htemp hsent hsettled
  refine ⟨⟨fun hsound => ⟨hentry, hpending.1 hsound.pending⟩, fun hreg =>
    ⟨fun k' msg' i heq hname hnone => ?_, hpending.2 hreg.2, nofun⟩⟩, fun hreg =>
    ⟨fun n hn => ?_, hpending.2 hreg.2, hrunning⟩⟩
  · cases heq
    have hsome := hentry i hname
    rw [hnone] at hsome
    cases hsome
  · rw [hsettled, settle] at hn
    rw [hsent]
    split at hn
    next hlt =>
      rcases List.mem_cons.1 hn with rfl | hn
      · exact hlt
      · exact h.known n hn
    next => exact h.known n hn

theorem sound_comesBack (h : s.Tracked) {k : Nat} {msg : Option (SystemType × Bytes)}
    (hstep : step parse validate myId s (.comesBack k msg) = some s') :
    (Sound parse validate s (.comesBack k msg) s' ↔ Regular parse validate s (.comesBack k msg)) ∧
      (Regular parse validate s (.comesBack k msg) → s'.Tracked) := by
  simp only [step, h.running, Bool.false_eq_true, if_false, Option.some.injEq] at hstep
  subst hstep
  cases hname : named parse msg with
  | none =>
    have hrun := rpcResponse_of_named_none validate s.keys hname
    rw [hrun]
    exact sound_of_entry h (by simp [hname]) (by simp [hname, absorb]) (by simp [absorb]) rfl rfl
  | some i =>
    cases hentry : s.keys.tempConnections i with
    | none =>
      have hfault : (rpcResponse parse validate msg s.keys).result = .error .endIterator :=
        rpcResponse_of_no_entry validate s.keys hname hentry
      refine ⟨⟨fun hsound => ?_, fun hreg => ?_⟩, fun hreg => ?_⟩
      · have hrunning := (hsound.stray k msg i rfl hname hentry).2.2.2
        simp only [absorb, hfault] at hrunning
        cases hrunning
      all_goals
        have hsome := hreg.1 i hname
        rw [hentry] at hsome
        cases hsome
    | some entry =>
      obtain ⟨ks', o, hrun, htemp, hout⟩ :=
        rpcResponse_of_entry validate s.keys hname (by rw [hentry]; rfl)
      rw [hrun]
      refine sound_of_entry h (fun j hj => ?_) (fun j => ?_) (by simp [absorb, hout]) rfl rfl
      · rw [hname] at hj
        cases hj
        rw [hentry]
        rfl
      · simp only [absorb, htemp, hname, ne_eq, Option.some.injEq]
        by_cases hij : i = j
        · simp [hij]
        · simp [hij, Ne.symm hij]

theorem sound_step (h : s.Tracked) (hstep : step parse validate myId s e = some s') :
    (Sound parse validate s e s' ↔ Regular parse validate s e) ∧
      (Regular parse validate s e → s'.Tracked) := by
  cases e with
  | addServer i endpoint => exact sound_addServer h hstep
  | request payload => exact sound_request h hstep
  | comesBack k msg => exact sound_comesBack h hstep

theorem step_isSome (h : s.Tracked) (e : Event) : (step parse validate myId s e).isSome := by
  unfold step
  rw [h.running]
  cases e <;> rfl

theorem along_sound_iff (h : s.Tracked) (es : List Event) :
    Machine.Along (step parse validate myId)
        (fun s e => ∀ s', step parse validate myId s e = some s' → Sound parse validate s e s') s es ↔
      Machine.Along (step parse validate myId) (Regular parse validate) s es := by
  induction es generalizing s with
  | nil => exact Iff.rfl
  | cons e es ih =>
    have hsome : (step parse validate myId s e).isSome := step_isSome h e
    obtain ⟨t, ht⟩ := Option.isSome_iff_exists.1 hsome
    obtain ⟨hiff, htracked⟩ := sound_step h ht
    constructor
    · intro ⟨hsound, hrest⟩
      have hreg := hiff.1 (hsound t ht)
      refine ⟨hreg, fun s' hs' => ?_⟩
      cases hs'.symm.trans ht
      exact (ih (htracked hreg)).1 (hrest t ht)
    · intro ⟨hreg, hrest⟩
      refine ⟨fun s' hs' => ?_, fun s' hs' => ?_⟩
      all_goals cases hs'.symm.trans ht
      · exact hiff.2 hreg
      · exact (ih (htracked hreg)).2 (hrest t ht)

end Steps

/-- **The exchange of reports.** From a key store without pending entries, for every validator: the
steps of a run all do what they should exactly if all its events are regular. -/
theorem key_exchange_sound (parse : Bytes → Option Json) (validate : Bytes → Option Bytes)
    (myId : Int32) (selfReport : Bytes) (store : Int32 → Option Bytes) (es : List Event) :
    Machine.Along (step parse validate myId)
        (fun s e => ∀ s', step parse validate myId s e = some s' → Sound parse validate s e s')
        { keys := { selfReport, store } } es ↔
      Machine.Along (step parse validate myId) (Regular parse validate)
        { keys := { selfReport, store } } es :=
  along_sound_iff ⟨by simp, by simp, rfl⟩ es

/-- A parser and a validator that know one text each: a response of server 3, and its report. -/
def parseThree (payload : Bytes) : Option Json :=
  if payload = [1] then some (.object [("server_id", .int 3), ("report", .string [9])]) else none

def validateNine (report : Bytes) : Option Bytes := if report = [9] then some [7] else none

/-- `tcp://h:2`. -/
def endpointTwo : Bytes := [116, 99, 112, 58, 47, 47, 104, 58, 50]

/-- Server 3 answers a request that went to server 2: its key is stored, and the entry it does not
have is read. A request to server 2 fails: its entry stays, and no second request is sent. Server 2 is
added with an endpoint that no client is made for: its entry stays, and no request is sent. A request
comes without a report: bytes are inserted through a null pointer. -/
theorem key_exchange_unsound :
    (∃ s s', Machine.run (step parseThree validateNine 1) {} [.addServer 2 endpointTwo] = some s ∧
      step parseThree validateNine 1 s (.comesBack 0 (some (.keyExchange, [1]))) = some s' ∧
      (s.keys.tempConnections 3 = none ∧ s.keys.store 3 = none ∧ s'.keys.store 3 = some [7]) ∧
      ¬Sound parseThree validateNine s (.comesBack 0 (some (.keyExchange, [1]))) s') ∧
    (∃ s s' s'', Machine.run (step parseThree validateNine 1) {} [.addServer 2 endpointTwo] = some s ∧
      step parseThree validateNine 1 s (.comesBack 0 none) = some s' ∧
      step parseThree validateNine 1 s' (.addServer 2 endpointTwo) = some s'' ∧
      (s''.sent = [2] ∧ s''.settled = [0]) ∧
      ¬Sound parseThree validateNine s (.comesBack 0 none) s') ∧
    (∃ s s', step parseThree validateNine 1 {} (.addServer 2 [50]) = some s ∧
      step parseThree validateNine 1 s (.addServer 2 endpointTwo) = some s' ∧
      ((s'.keys.tempConnections 2).isSome ∧ s'.sent = []) ∧
      ¬Sound parseThree validateNine {} (.addServer 2 [50]) s) ∧
    ∃ s, step parseThree validateNine 1 {} (.request []) = some s ∧ s.faulted = true ∧
      ¬Sound parseThree validateNine {} (.request []) s := by
  refine ⟨⟨_, _, rfl, rfl, by decide +kernel, fun h => ?_⟩,
    ⟨_, _, _, rfl, rfl, rfl, by decide +kernel, fun h => ?_⟩,
    ⟨_, _, rfl, rfl, by decide +kernel, fun h => ?_⟩, ⟨_, rfl, rfl, fun h => ?_⟩⟩
  · have hstray := h.stray 0 _ 3 rfl (by decide +kernel) (by decide +kernel)
    have hkey := congrFun hstray.1 3
    revert hkey
    decide +kernel
  · obtain ⟨k, hk, hnot⟩ := h.pending 2 (by decide +kernel)
    have hlt := (List.getElem?_eq_some_iff.1 hk).1
    have hzero : k = 0 := Nat.lt_one_iff.1 hlt
    subst hzero
    revert hnot
    decide +kernel
  · obtain ⟨k, hk, -⟩ := h.pending 2 (by decide +kernel)
    exact nomatch (List.getElem?_eq_some_iff.1 hk).1
  · have hrefused := (h.refused [] rfl (by decide +kernel)).2.2
    cases hrefused

end Exchange

end EnclaveRaft.System
