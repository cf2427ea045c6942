import EnclaveRaft.Handlers

/-!
# Clusters of servers

Servers and the messages between them. Every request and every response that was ever sent
stays in the cluster's state, and an event names the one it delivers: a message may be
delivered late, out of order, several times or never. A handler runs to its end in one event,
as it does under `lock_`. One round of the background thread is one event too. The thread takes
`lock_` only to apply a configuration, so runs in which a handler works in the middle of a round
are left out.

`step` and `run` are executable. Events that name a message that was never sent do nothing.
-/

namespace EnclaveRaft

open Act

structure Cluster where
  servers : Int → Server
  /-- Every request sent so far, oldest first. -/
  rpcs : List Rpc := []
  /-- Every response so far, with the number of the request it answers. -/
  resps : List (Nat × RespMsg) := []
  /-- Requests that wait to be sent again. -/
  retries : List Rpc := []
  /-- The entries the background threads have processed: server, index, entry. -/
  processed : List (Int × Nat × LogEntry) := []

namespace Effect

def sent : Effect → Option Rpc
  | send rpc => some rpc
  | _ => none

def retried : Effect → Option Rpc
  | retry rpc => some rpc
  | _ => none

def processed : Effect → Option (Nat × LogEntry)
  | process idx entry => some (idx, entry)
  | _ => none

end Effect

namespace Cluster

/-- Server `i` moves to `s` with effects `out`. -/
def update (c : Cluster) (i : Int) (s : Server) (out : List Effect) : Cluster :=
  { c with
    servers := fun j => if j = i then s else c.servers j
    rpcs := c.rpcs ++ out.filterMap Effect.sent
    retries := c.retries ++ out.filterMap Effect.retried
    processed := c.processed ++ (out.filterMap Effect.processed).map fun p => (i, p) }

/-- The response to request `k` goes on record. -/
def answer (c : Cluster) (k : Nat) (resp : RespMsg) : Cluster :=
  { c with resps := c.resps ++ [(k, resp)] }

end Cluster

/-! ## Requests from outside -/

/-- A request as `append_entries`, `add_srv` and `remove_srv` build it. -/
def outsideReq (type : MsgType) (entries : List LogEntry) : ReqMsg where
  term := 0
  type := type
  src := 0
  dst := 0
  lastLogTerm := 0
  lastLogIdx := 0
  commitIdx := 0
  logEntries := entries

def clientReq (logs : List Bytes) : ReqMsg :=
  outsideReq .clientRequest (logs.map fun b => ⟨0, .appLog, .bytes b⟩)

def addSrvReq (srv : SrvConfig) : ReqMsg :=
  outsideReq .addServerRequest [⟨0, .clusterServer, .server srv⟩]

def removeSrvReq (srvId : Int) : ReqMsg :=
  outsideReq .removeServerRequest [⟨0, .clusterServer, .int srvId⟩]

/-! ## Events -/

inductive Event
  | electionTimeout (i : Int)
  | hbTimeout (i : Int) (uid : Nat)
  | client (i : Int) (logs : List Bytes) (now : Int)
  | addServer (i : Int) (srv : SrvConfig)
  | removeServer (i : Int) (srvId : Int)
  /-- Request number `k` reaches its destination. -/
  | deliver (k : Nat) (now : Int)
  /-- Response number `k` reaches the server that sent the request. -/
  | respond (k : Nat) (now : Int)
  /-- Request number `k` fails at its sender. -/
  | fail (k : Nat)
  /-- A request that waits is sent again. -/
  | resend (k : Nat)
  | commitBg (i : Int)
  deriving DecidableEq

/-- The input a server gets in an event, and the handler that takes it. -/
inductive Input
  | electionTimeout
  | hbTimeout (uid : Nat)
  | request (req : ReqMsg) (now : Int)
  | response (rpc : Rpc) (resp : RespMsg) (now : Int)
  | failure (rpc : Rpc)
  | resend (rpc : Rpc)
  | commitBg

def Input.handle (ctx : Context) : Input → M (Option RespMsg)
  | electionTimeout => do handleElectionTimeout ctx; pure none
  | hbTimeout uid => do handleHbTimeout ctx uid; pure none
  | request req now => do let resp ← processReq ctx req now; pure (some resp)
  | response rpc resp now => do onResponse ctx rpc resp now; pure none
  | failure rpc => do onFailure ctx rpc; pure none
  | resend rpc => do sendReq rpc.uid rpc.target rpc.req rpc.handler; pure none
  | commitBg => do commitInBg ctx; pure none

/-- Who gets which input in an event, and the request it may answer. -/
def Event.input (c : Cluster) : Event → Option (Int × Input × Option Nat)
  | electionTimeout i => some (i, .electionTimeout, none)
  | hbTimeout i uid => some (i, .hbTimeout uid, none)
  | client i logs now => some (i, .request (clientReq logs) now, none)
  | addServer i srv => some (i, .request (addSrvReq srv) 0, none)
  | removeServer i srvId => some (i, .request (removeSrvReq srvId) 0, none)
  | deliver k now => (c.rpcs[k]?).map fun rpc => (rpc.target, .request rpc.req now, some k)
  | respond k now => do
    let (n, resp) ← c.resps[k]?
    let rpc ← c.rpcs[n]?
    pure (rpc.req.src, .response rpc resp now, none)
  | fail k => (c.rpcs[k]?).map fun rpc => (rpc.req.src, .failure rpc, none)
  | resend k => (c.retries[k]?).map fun rpc => (rpc.req.src, .resend rpc, none)
  | commitBg i => some (i, .commitBg, none)

namespace Cluster

/-- Server `i` takes an input; a response answers request `k`. -/
def take (ctx : Context) (c : Cluster) (i : Int) (inp : Input) (k : Option Nat) : Cluster :=
  let r := inp.handle ctx (c.servers i)
  let c' := c.update i r.state r.out
  match r.result, k with
  | .ok (some resp), some k => c'.answer k resp
  | _, _ => c'

def step (ctx : Context) (c : Cluster) (e : Event) : Cluster :=
  match e.input c with
  | some (i, inp, k) => c.take ctx i inp k
  | none => c

def run (ctx : Context) (c : Cluster) (es : List Event) : Cluster := es.foldl (step ctx) c

/-- Every server just constructed, no message sent yet. -/
def start (ctx : Context) (b : Int → Server.Boot) : Cluster where
  servers i := .new ctx i (b i)

end Cluster

end EnclaveRaft
