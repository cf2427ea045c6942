import EnclaveRaft.Host.Session
import Mathlib.Data.List.Nodup
import Mathlib.Logic.Function.Basic

/-!
# Clients of the host

`asio_rpc_client` keeps one socket to a server and uses it for any number of requests. A request
goes through a chain of operations: the host name is resolved and the socket connected if it is not
open, the size of the message is written at once and the message in pieces, the size of the response
is read, in a loop as long as the read ends with `eof`, and then the response. There is no queue: each
request starts its chain when it is sent, whatever the others are doing.

Requests are numbered in the order they are sent. A `Connection` remembers what went over the socket
between two calls of `connect`, in both directions.
-/

namespace EnclaveRaft.Host

/-- What went over a connection: the requests whose sizes were written, with their messages, all
bytes that were written and all that the server has sent, and the responses that were reported. -/
structure Connection where
  requests : List (Nat × Bytes) := []
  output : Bytes := []
  received : Bytes := []
  answers : List (Nat × Bytes) := []
  deriving DecidableEq

/-- Whole frames, one after the other. -/
def frames (messages : List (Nat × Bytes)) : Bytes := messages.flatMap fun m => frame m.2

/-- Only frames were written, in the order of the requests, and the responses that were reported are
the frames that the server has sent, in the order of the requests: the first one to the first request
and so on. -/
structure Connection.Paired (c : Connection) : Prop where
  output : c.output <+: frames c.requests
  order : c.answers.map Prod.fst <+: c.requests.map Prod.fst
  received : frames c.answers <+: c.received

namespace Client

/-- The operation that a request waits for. One on a socket that was closed is aborted: it can only
fail. -/
inductive Op
  | resolve
  | connect
  | write (rest : Bytes)
  | header
  | read (size : Nat) (got : Bytes)
  | aborted
  deriving DecidableEq

def Op.abort : Op → Op
  | .resolve => .resolve
  | _ => .aborted

/-- A call of `send`, the completion of an operation, or a move of the server. `sizeOk` tells whether
the size of the message could be written. -/
inductive Event
  | send (message : Bytes) (sizeOk : Bool)
  | resolved (uid : Nat) (ok : Bool)
  | connected (uid : Nat) (ok sizeOk : Bool)
  | wrote (uid n : Nat)
  | headerRead (uid : Nat)
  | readSome (uid n : Nat)
  | failed (uid : Nat)
  | serverSends (bytes : Bytes)
  | serverCloses
  | serverResets
  deriving DecidableEq

end Client

/-- `reports` are the calls of `ecall_rpc_response`: a response, or none for an exception. -/
structure Client where
  sent : Nat := 0
  reqMap : Nat → Bytes := fun _ => []
  ops : Nat → Option Client.Op := fun _ => none
  isOpen : Bool := false
  connected : Bool := false
  closedByServer : Bool := false
  reset : Bool := false
  input : Bytes := []
  conn : Connection := {}
  past : List Connection := []
  reports : List (Nat × Option Bytes) := []
  crashed : Bool := false

namespace Client

open Function (update)

def setOp (s : Client) (uid : Nat) (op : Op) : Client := { s with ops := update s.ops uid (some op) }

/-- Tell the enclave. -/
def report (s : Client) (uid : Nat) (resp : Option Bytes) : Client :=
  { s with ops := update s.ops uid none, reports := s.reports ++ [(uid, resp)] }

/-- The socket is closed. -/
def close (s : Client) : Client :=
  { s with
    isOpen := false
    connected := false
    ops := fun v => (s.ops v).map Op.abort }

def handleError (s : Client) (uid : Nat) : Client :=
  let s' := s.report uid none
  if s'.isOpen then s'.close else s'

/-- `send_message`: the size is written on the spot. -/
def sendMessage (s : Client) (uid : Nat) (sizeOk : Bool) : Client :=
  let message := s.reqMap uid
  if s.connected ∧ sizeOk then
    { s.setOp uid (.write message) with
      conn := { s.conn with
        requests := s.conn.requests ++ [(uid, message)]
        output := s.conn.output ++ leBytes 4 message.length } }
  else s.handleError uid

/-- `send` copies the message, whose size is an `int32`, which throws if it is negative. -/
def send (s : Client) (message : Bytes) (sizeOk : Bool) : Client :=
  let s' := { s with sent := s.sent + 1, reqMap := update s.reqMap s.sent message }
  if 2 ^ 31 ≤ message.length then { s' with crashed := true }
  else if s'.isOpen then s'.sendMessage s.sent sizeOk
  else s'.setOp s.sent .resolve

/-- `connect` closes the socket if it is open, and opens a new one. -/
def connect (s : Client) (uid : Nat) : Client :=
  { s.close.setOp uid .connect with
    isOpen := true
    closedByServer := false
    reset := false
    input := []
    conn := {}
    past := s.conn :: s.past }

/-- `recv_message` after its loop: a block for the response is allocated, which throws if the size
is negative. -/
def recvMessage (s : Client) (uid : Nat) : Client :=
  let dataSize := leNat (s.input.take 4)
  let s' := { s with input := s.input.drop 4 }
  if dataSize < 2 ^ 31 then s'.setOp uid (.read dataSize []) else { s' with crashed := true }

/-- `response_read` asks the socket for its end points before it reports, which throws if the server
has reset the connection in the meantime. -/
def responseRead (s : Client) (uid : Nat) (resp : Bytes) : Client :=
  if s.reset then { s with crashed := true }
  else
    { s.report uid (some resp) with
      conn := { s.conn with answers := s.conn.answers ++ [(uid, resp)] } }

def step (s : Client) : Event → Option Client
  | .send message sizeOk => some (s.send message sizeOk)
  | .resolved uid ok =>
    match s.ops uid with
    | some .resolve => some (if ok then s.connect uid else s.handleError uid)
    | _ => none
  | .connected uid ok sizeOk =>
    match s.ops uid with
    | some .connect =>
      if ok ∧ s.isOpen then some ({ s with connected := true }.sendMessage uid sizeOk)
      else some (s.handleError uid)
    | _ => none
  | .wrote uid n =>
    match s.ops uid with
    | some (.write rest) =>
      if s.connected ∧ n ≤ rest.length ∧ (rest ≠ [] → 1 ≤ n) then
        let s' := { s with conn := { s.conn with output := s.conn.output ++ rest.take n } }
        some (s'.setOp uid (if rest.drop n = [] then .header else .write (rest.drop n)))
      else none
    | _ => none
  | .headerRead uid =>
    match s.ops uid with
    | some .header =>
      if s.connected ∧ 4 ≤ s.input.length then some (s.recvMessage uid) else none
    | _ => none
  | .readSome uid n =>
    match s.ops uid with
    | some (.read size got) =>
      if s.connected ∧ n ≤ s.input.length ∧ got.length + n ≤ size ∧ (got.length < size → 1 ≤ n) then
        let got' := got ++ s.input.take n
        let s' := { s with input := s.input.drop n }
        some (if got'.length = size then s'.responseRead uid got' else s'.setOp uid (.read size got'))
      else none
    | _ => none
  | .failed uid =>
    match s.ops uid with
    | some (.write _) => some (s.handleError uid)
    -- a read on a connection that the server has closed ends with `eof`, and the loop goes on
    | some .header =>
      if s.connected ∧ s.closedByServer ∧ ¬s.reset then none else some (s.handleError uid)
    | some (.read _ _) => some (s.handleError uid)
    | some .aborted => some (s.handleError uid)
    | _ => none
  | .serverSends bytes =>
    if s.connected ∧ ¬s.closedByServer ∧ ¬s.reset then
      some { s with
        input := s.input ++ bytes
        conn := { s.conn with received := s.conn.received ++ bytes } }
    else none
  | .serverCloses => if s.connected then some { s with closedByServer := true } else none
  | .serverResets => if s.connected then some { s with reset := true } else none

/-! ## What the enclave may rely on -/

/-- No exception has left the client. Every connection carries whole frames and pairs requests and
replies, with no frame left open once nothing is being written. Every request that was sent was
reported once or waits for an operation, and none waits in the loop that reads `eof`. Every response
that was reported is the one that a connection pairs with the request. -/
structure Paired (s : Client) : Prop where
  crashed : s.crashed = false
  conns : ∀ c ∈ s.conn :: s.past, c.Paired
  whole : s.connected → (∀ uid rest, s.ops uid ≠ some (.write rest)) →
    s.conn.output = frames s.conn.requests
  once : (s.reports.map Prod.fst).Nodup
  reported : ∀ uid, uid ∈ s.reports.map Prod.fst ↔ uid < s.sent ∧ s.ops uid = none
  loops : ∀ uid, s.ops uid = some .header → ¬(s.connected ∧ s.closedByServer)
  responses : ∀ uid resp, (uid, some resp) ∈ s.reports →
    ∃ c ∈ s.conn :: s.past, (uid, resp) ∈ c.answers

/-- More of the message is left than the next `n` bytes. -/
def Op.goesOn (n : Nat) : Op → Bool
  | .write rest => n < rest.length
  | _ => true

/-- More of the response is left than the next `n` bytes. -/
def Op.readsOn (n : Nat) : Op → Bool
  | .read size got => got.length + n < size
  | _ => true

/-- The condition under which it holds: a message whose size fits an `int32` is sent when no other
request is under way; the last piece of a message is not written over a connection that the server
has closed, nor the last piece of a response read over one that it has reset; and the server does not
close a connection on which the size of a response is awaited, and announces no negative size. -/
def Serial (s : Client) : Event → Prop
  | .send message _ => (∀ uid < s.sent, s.ops uid = none) ∧ message.length < 2 ^ 31
  | .wrote uid n => (s.ops uid).all (Op.goesOn n) ∨ ¬s.closedByServer
  | .readSome uid n => (s.ops uid).all (Op.readsOn n) ∨ ¬s.reset
  | .serverCloses => ∀ uid < s.sent, s.ops uid ≠ some .header
  | .headerRead _ => leNat (s.input.take 4) < 2 ^ 31
  | _ => True

instance decidableSerial (s : Client) : (e : Event) → Decidable (Serial s e)
  | .send message _ => inferInstanceAs (Decidable ((∀ uid < s.sent, s.ops uid = none) ∧
      message.length < 2 ^ 31))
  | .wrote uid n => inferInstanceAs (Decidable ((s.ops uid).all (Op.goesOn n) = true ∨
      ¬s.closedByServer = true))
  | .readSome uid n => inferInstanceAs (Decidable ((s.ops uid).all (Op.readsOn n) = true ∨
      ¬s.reset = true))
  | .serverCloses => inferInstanceAs (Decidable (∀ uid < s.sent, s.ops uid ≠ some .header))
  | .headerRead _ => inferInstanceAs (Decidable (leNat (s.input.take 4) < 2 ^ 31))
  | .resolved _ _ => isTrue trivial
  | .connected _ _ _ => isTrue trivial
  | .failed _ => isTrue trivial
  | .serverSends _ => isTrue trivial
  | .serverResets => isTrue trivial

/-! ## The invariant -/

/-- One request at most is under way. -/
def only : Option (Nat × Op) → Nat → Option Op
  | none => fun _ => none
  | some (uid, op) => update (fun _ => none) uid (some op)

/-- The requests before the last one were answered, with what the server has sent up to `rest`. -/
structure Answered (c : Connection) (before : List (Nat × Bytes)) (rest : Bytes) : Prop where
  order : c.answers.map Prod.fst = before.map Prod.fst
  received : c.received = frames c.answers ++ rest

/-- How far the request under way has come. -/
def Stage (s : Client) : Option (Nat × Op) → Prop
  | none => s.connected = s.isOpen ∧ (s.connected →
      s.conn.output = frames s.conn.requests ∧ Answered s.conn s.conn.requests s.input)
  | some (_, .resolve) => s.isOpen = false ∧ s.connected = false
  | some (_, .connect) => s.isOpen = true ∧ s.connected = false ∧ s.input = [] ∧ s.conn = {}
  | some (uid, .write rest) => s.isOpen = true ∧ s.connected = true ∧
      ∃ before m, s.conn.requests = before ++ [(uid, m)] ∧ Answered s.conn before s.input ∧
        s.conn.output ++ rest = frames s.conn.requests
  | some (uid, .header) => s.isOpen = true ∧ s.connected = true ∧ s.closedByServer = false ∧
      ∃ before m, s.conn.requests = before ++ [(uid, m)] ∧ Answered s.conn before s.input ∧
        s.conn.output = frames s.conn.requests
  | some (uid, .read size got) => s.isOpen = true ∧ s.connected = true ∧ size < 2 ^ 31 ∧
      ∃ before m, s.conn.requests = before ++ [(uid, m)] ∧
        Answered s.conn before (leBytes 4 size ++ (got ++ s.input)) ∧
        s.conn.output = frames s.conn.requests
  | some (_, .aborted) => False

/-- All requests but `cur` were reported. -/
structure Booked (s : Client) (cur : Option Nat) : Prop where
  crashed : s.crashed = false
  conns : ∀ c ∈ s.conn :: s.past, c.Paired
  once : (s.reports.map Prod.fst).Nodup
  reported : ∀ uid, uid ∈ s.reports.map Prod.fst ↔ uid < s.sent ∧ cur ≠ some uid
  known : ∀ uid, cur = some uid → uid < s.sent
  responses : ∀ uid resp, (uid, some resp) ∈ s.reports →
    ∃ c ∈ s.conn :: s.past, (uid, resp) ∈ c.answers

structure Serving (s : Client) (cur : Option (Nat × Op)) : Prop where
  booked : s.Booked (cur.map Prod.fst)
  ops : s.ops = only cur
  stage : s.Stage cur

section

variable {s s' : Client} {uid : Nat} {op : Op} {resp : Option Bytes}

/-- No other request is under way. -/
def Alone (s : Client) (uid : Nat) : Prop := ∀ v, v ≠ uid → s.ops v = none

theorem Alone.update_some (h : s.Alone uid) :
    update s.ops uid (some op) = only (some (uid, op)) := by
  funext v
  by_cases hv : v = uid
  · simp [only, hv]
  · simp [only, hv, h v hv]

theorem Alone.update_none (h : s.Alone uid) : update s.ops uid none = only none := by
  funext v
  by_cases hv : v = uid
  · simp [only, hv]
  · simp [only, hv, h v hv]

theorem Serving.alone (h : Serving s (some (uid, op))) : s.Alone uid := by
  intro v hv
  rw [h.ops, only, Function.update_of_ne hv]

/-- The request under way is the one whose operation completes. -/
theorem Serving.cur_eq {cur : Option (Nat × Op)} (h : Serving s cur) (hop : s.ops uid = some op) :
    cur = some (uid, op) := by
  rw [h.ops] at hop
  rcases cur with - | ⟨v, op₀⟩
  · cases hop
  · by_cases hv : uid = v
    · subst hv
      rw [only, Function.update_self] at hop
      cases hop
      rfl
    · rw [only, Function.update_of_ne hv] at hop
      cases hop

/-- A socket that is not open is not connected. -/
theorem Stage.closed {cur : Option (Nat × Op)} (h : s.Stage cur) :
    s.isOpen = false → s.connected = false := by
  intro hopen
  rcases cur with - | ⟨uid, - | - | rest | - | ⟨size, got⟩ | -⟩
  · exact h.1.trans hopen
  · exact h.2
  · exact h.2.1
  · simp [h.1] at hopen
  · simp [h.1] at hopen
  · simp [h.1] at hopen
  · exact h.elim

/-- All responses that were paired are still paired. -/
def Extends (s s' : Client) : Prop :=
  ∀ c ∈ s.conn :: s.past, ∃ c' ∈ s'.conn :: s'.past, c.answers ⊆ c'.answers

theorem Extends.of_conn (hans : s.conn.answers ⊆ s'.conn.answers) (hpast : s'.past = s.past) :
    Extends s s' := by
  intro c hc
  rcases List.mem_cons.1 hc with rfl | hc
  · exact ⟨s'.conn, List.mem_cons_self, hans⟩
  · exact ⟨c, List.mem_cons_of_mem _ (hpast ▸ hc), fun _ => id⟩

theorem Booked.conns_of_conn {cur : Option Nat} (h : Booked s cur)
    (hpast : s'.past = s.past) (hconn : s'.conn.Paired) : ∀ c ∈ s'.conn :: s'.past, c.Paired := by
  intro c hc
  rcases List.mem_cons.1 hc with rfl | hc
  · exact hconn
  · exact h.conns c (List.mem_cons_of_mem _ (hpast ▸ hc))

/-- The request under way goes on to its next operation. -/
theorem Booked.move (h : Booked s (some uid)) (hsent : s'.sent = s.sent)
    (hreports : s'.reports = s.reports) (hcrashed : s'.crashed = false)
    (hconns : ∀ c ∈ s'.conn :: s'.past, c.Paired) (hext : Extends s s') : Booked s' (some uid) where
  crashed := hcrashed
  conns := hconns
  once := hreports ▸ h.once
  reported v := by rw [hreports, h.reported, hsent]
  known v heq := hsent ▸ h.known v heq
  responses v r hmem := by
    rw [hreports] at hmem
    obtain ⟨c, hc, hans⟩ := h.responses v r hmem
    obtain ⟨c', hc', hsub⟩ := hext c hc
    exact ⟨c', hc', hsub hans⟩

/-- The request under way is reported. -/
theorem Booked.finish (h : Booked s (some uid)) (hsent : s'.sent = s.sent)
    (hreports : s'.reports = s.reports ++ [(uid, resp)]) (hcrashed : s'.crashed = false)
    (hconns : ∀ c ∈ s'.conn :: s'.past, c.Paired) (hext : Extends s s')
    (hresp : ∀ r, resp = some r → (uid, r) ∈ s'.conn.answers) : Booked s' none where
  crashed := hcrashed
  conns := hconns
  once := by
    have hnew : uid ∉ s.reports.map Prod.fst := by simp [h.reported]
    rw [hreports, List.map_append]
    refine List.nodup_append.2 ⟨h.once, List.nodup_singleton uid, ?_⟩
    intro a ha b hb hab
    rw [List.map_singleton, List.mem_singleton] at hb
    rw [hab, hb] at ha
    exact hnew ha
  reported v := by
    have hlt := h.known uid rfl
    rw [hreports, List.map_append, List.mem_append, h.reported, hsent, List.map_singleton,
      List.mem_singleton]
    by_cases hv : v = uid
    · simp [hv, hlt]
    · simp [hv, Ne.symm hv]
  known v heq := by cases heq
  responses v r hmem := by
    rw [hreports] at hmem
    rcases List.mem_append.1 hmem with hmem | hmem
    · obtain ⟨c, hc, hans⟩ := h.responses v r hmem
      obtain ⟨c', hc', hsub⟩ := hext c hc
      exact ⟨c', hc', hsub hans⟩
    · rw [List.mem_singleton] at hmem
      cases hmem
      exact ⟨s'.conn, List.mem_cons_self, hresp r rfl⟩

theorem serving_handleError (h : Booked s (some uid)) (halone : s.Alone uid)
    (hclosed : s.isOpen = false → s.connected = false) : Serving (s.handleError uid) none := by
  have hops := halone.update_none
  unfold handleError
  dsimp only
  split
  next hopen =>
    have hext : Extends s (s.report uid none).close := Extends.of_conn (fun _ => id) rfl
    refine ⟨h.finish rfl rfl h.crashed h.conns hext (by simp), ?_, rfl, by simp [close]⟩
    show (fun v => (update s.ops uid none v).map Op.abort) = _
    rw [hops]
    rfl
  next hopen =>
    have hext : Extends s (s.report uid none) := Extends.of_conn (fun _ => id) rfl
    have hopen' : s.isOpen = false := by simpa [report] using hopen
    have hconn := hclosed hopen'
    exact ⟨h.finish rfl rfl h.crashed h.conns hext (by simp), hops, hconn.trans hopen'.symm,
      by simp [report, hconn]⟩

/-! ## One lemma for each completion -/

theorem Answered.paired {c : Connection} {before new : List (Nat × Bytes)} {rest unwritten : Bytes}
    (h : Answered c before rest) (hreq : c.requests = before ++ new)
    (hout : c.output ++ unwritten = frames c.requests) : c.Paired where
  output := ⟨unwritten, hout⟩
  order := by
    rw [h.order, hreq, List.map_append]
    exact List.prefix_append ..
  received := by
    rw [h.received]
    exact List.prefix_append ..

theorem frames_concat (l : List (Nat × Bytes)) (v : Nat) (m : Bytes) :
    frames (l ++ [(v, m)]) = frames l ++ frame m := by
  simp [frames]

/-- The size is written after whole frames, when all requests before were answered. -/
theorem serving_sendMessage {sizeOk : Bool} (h : Booked s (some uid)) (halone : s.Alone uid)
    (hopen : s.isOpen = true) (hconn : s.connected →
      s.conn.output = frames s.conn.requests ∧ Answered s.conn s.conn.requests s.input) :
    ∃ cur, Serving (s.sendMessage uid sizeOk) cur := by
  unfold sendMessage
  dsimp only
  split
  next hok =>
    obtain ⟨hout, hans⟩ := hconn hok.1
    have hans' : Answered
        { s.conn with
          requests := s.conn.requests ++ [(uid, s.reqMap uid)]
          output := s.conn.output ++ leBytes 4 (s.reqMap uid).length } s.conn.requests s.input :=
      ⟨hans.order, hans.received⟩
    have hout' : s.conn.output ++ leBytes 4 (s.reqMap uid).length ++ s.reqMap uid =
        frames (s.conn.requests ++ [(uid, s.reqMap uid)]) := by
      rw [frames_concat, hout, List.append_assoc, frame]
    refine ⟨some (uid, .write (s.reqMap uid)), ?_, halone.update_some, ?_⟩
    · exact h.move rfl rfl h.crashed (h.conns_of_conn rfl (hans'.paired rfl hout'))
        (Extends.of_conn (fun _ => id) rfl)
    · exact ⟨hopen, hok.1, _, _, rfl, hans', hout'⟩
  next => exact ⟨none, serving_handleError h halone fun hno => by simp [hopen] at hno⟩

theorem serving_connect (h : Serving s (some (uid, .resolve))) :
    Serving (s.connect uid) (some (uid, .connect)) := by
  have halone : s.close.Alone uid := by
    intro v hv
    simp [close, h.alone v hv]
  refine ⟨h.booked.move rfl rfl h.booked.crashed ?_ ?_, halone.update_some, rfl, rfl, rfl, rfl⟩
  · intro c hc
    rcases List.mem_cons.1 hc with rfl | hc
    · exact ⟨List.nil_prefix, List.nil_prefix, List.nil_prefix⟩
    · exact h.booked.conns c hc
  · intro c hc
    exact ⟨c, List.mem_cons_of_mem _ hc, fun _ => id⟩

theorem serving_wrote {rest : Bytes} {n : Nat} (h : Serving s (some (uid, .write rest)))
    (hlast : rest.drop n = [] → s.closedByServer = false) :
    Serving (setOp { s with conn := { s.conn with output := s.conn.output ++ rest.take n } } uid
      (if rest.drop n = [] then .header else .write (rest.drop n)))
      (some (uid, if rest.drop n = [] then .header else .write (rest.drop n))) := by
  obtain ⟨hopen, hconn, before, m, hreq, hans, hout⟩ := h.stage
  have hans' : Answered { s.conn with output := s.conn.output ++ rest.take n } before s.input :=
    ⟨hans.order, hans.received⟩
  have hout' : s.conn.output ++ rest.take n ++ rest.drop n = frames s.conn.requests := by
    rw [List.append_assoc, List.take_append_drop, hout]
  refine ⟨?_, h.alone.update_some, ?_⟩
  · exact h.booked.move rfl rfl h.booked.crashed
      (h.booked.conns_of_conn rfl (hans'.paired hreq hout')) (Extends.of_conn (fun _ => id) rfl)
  · split
    next hdone =>
      rw [hdone, List.append_nil] at hout'
      exact ⟨hopen, hconn, hlast hdone, before, m, hreq, hans', hout'⟩
    next => exact ⟨hopen, hconn, before, m, hreq, hans', hout'⟩

/-- Bytes are only taken from the input. -/
theorem booked_input {cur : Option Nat} {input : Bytes} (h : Booked s cur) :
    Booked { s with input } cur :=
  ⟨h.crashed, h.conns, h.once, h.reported, h.known, h.responses⟩

theorem booked_setOp {cur : Option Nat} (h : Booked s cur) : Booked (s.setOp uid op) cur :=
  ⟨h.crashed, h.conns, h.once, h.reported, h.known, h.responses⟩

theorem serving_recvMessage (h : Serving s (some (uid, .header))) (hlen : 4 ≤ s.input.length)
    (hsize : leNat (s.input.take 4) < 2 ^ 31) : ∃ cur, Serving (s.recvMessage uid) cur := by
  obtain ⟨hopen, hconn, -, before, m, hreq, hans, hout⟩ := h.stage
  have hback : leBytes 4 (leNat (s.input.take 4)) = s.input.take 4 := by
    have hback := leBytes_leNat (s.input.take 4)
    rwa [List.length_take, Nat.min_eq_left hlen] at hback
  have hans' : Answered s.conn before
      (leBytes 4 (leNat (s.input.take 4)) ++ ([] ++ s.input.drop 4)) := by
    rw [List.nil_append, hback, List.take_append_drop]
    exact hans
  unfold recvMessage
  dsimp only
  rw [if_pos hsize]
  exact ⟨some (uid, .read (leNat (s.input.take 4)) []), booked_setOp (booked_input h.booked),
    h.alone.update_some, hopen, hconn, hsize, before, m, hreq, hans', hout⟩

theorem serving_readSome {size n : Nat} {got : Bytes}
    (h : Serving s (some (uid, .read size got))) :
    Serving (setOp { s with input := s.input.drop n } uid (.read size (got ++ s.input.take n)))
      (some (uid, .read size (got ++ s.input.take n))) := by
  obtain ⟨hopen, hconn, hsize, before, m, hreq, hans, hout⟩ := h.stage
  have hans' : Answered s.conn before
      (leBytes 4 size ++ (got ++ s.input.take n ++ s.input.drop n)) := by
    rw [List.append_assoc got, List.take_append_drop]
    exact hans
  exact ⟨booked_setOp (booked_input h.booked), h.alone.update_some, hopen, hconn, hsize, before, m,
    hreq, hans', hout⟩

theorem serving_responseRead {resp : Bytes} (h : Booked s (some uid)) (halone : s.Alone uid)
    (hstage : s.Stage (some (uid, .read resp.length resp))) (hreset : s.reset = false) :
    Serving (s.responseRead uid resp) none := by
  rw [responseRead, if_neg (by simp [hreset])]
  obtain ⟨hopen, hconn, hsize, before, m, hreq, hans, hout⟩ := hstage
  have hans' : Answered { s.conn with answers := s.conn.answers ++ [(uid, resp)] }
      s.conn.requests s.input := by
    refine ⟨?_, ?_⟩
    · simp [hans.order, hreq]
    · rw [frames_concat, frame, hans.received]
      simp
  have hpaired : Connection.Paired { s.conn with answers := s.conn.answers ++ [(uid, resp)] } :=
    hans'.paired (List.append_nil _).symm (by rw [List.append_nil, hout])
  refine ⟨?_, halone.update_none, hconn.trans hopen.symm, fun _ => ⟨hout, hans'⟩⟩
  refine h.finish rfl rfl h.crashed (h.conns_of_conn rfl hpaired) ?_ ?_
  · exact Extends.of_conn (List.subset_append_left ..) rfl
  · intro r hr
    cases hr
    exact List.mem_append_right _ List.mem_cons_self

theorem Answered.sends {c : Connection} {before : List (Nat × Bytes)} {rest : Bytes}
    (h : Answered c before rest) (bytes : Bytes) :
    Answered { c with received := c.received ++ bytes } before (rest ++ bytes) :=
  ⟨h.order, by rw [h.received, List.append_assoc]⟩

theorem serving_serverSends {cur : Option (Nat × Op)} {bytes : Bytes} (h : Serving s cur)
    (hconn : s.connected = true) :
    Serving { s with
      input := s.input ++ bytes
      conn := { s.conn with received := s.conn.received ++ bytes } } cur where
  booked := by
    have hpaired := h.booked.conns s.conn List.mem_cons_self
    refine ⟨h.booked.crashed, ?_, h.booked.once, h.booked.reported, h.booked.known, ?_⟩
    · exact h.booked.conns_of_conn rfl ⟨hpaired.output, hpaired.order, hpaired.received.trans
        (List.prefix_append ..)⟩
    · intro v r hmem
      obtain ⟨c, hc, hans⟩ := h.booked.responses v r hmem
      rcases List.mem_cons.1 hc with rfl | hc
      · exact ⟨_, List.mem_cons_self, hans⟩
      · exact ⟨c, List.mem_cons_of_mem _ hc, hans⟩
  ops := h.ops
  stage := by
    have hstage := h.stage
    rcases cur with - | ⟨uid, - | - | rest | - | ⟨size, got⟩ | -⟩
    · obtain ⟨hopen, hans⟩ := hstage
      exact ⟨hopen, fun hc => ⟨(hans hc).1, (hans hc).2.sends bytes⟩⟩
    · simp [hstage.2] at hconn
    · simp [hstage.2.1] at hconn
    · obtain ⟨hopen, hc, before, m, hreq, hans, hout⟩ := hstage
      exact ⟨hopen, hc, before, m, hreq, hans.sends bytes, hout⟩
    · obtain ⟨hopen, hc, hclosed, before, m, hreq, hans, hout⟩ := hstage
      exact ⟨hopen, hc, hclosed, before, m, hreq, hans.sends bytes, hout⟩
    · obtain ⟨hopen, hc, hsize, before, m, hreq, hans, hout⟩ := hstage
      have hans' := hans.sends bytes
      rw [List.append_assoc, List.append_assoc] at hans'
      exact ⟨hopen, hc, hsize, before, m, hreq, hans', hout⟩
    · exact hstage

theorem serving_serverCloses {cur : Option (Nat × Op)} (h : Serving s cur)
    (hheader : ∀ uid < s.sent, s.ops uid ≠ some .header) :
    Serving { s with closedByServer := true } cur where
  booked := ⟨h.booked.crashed, h.booked.conns, h.booked.once, h.booked.reported, h.booked.known,
    h.booked.responses⟩
  ops := h.ops
  stage := by
    have hstage := h.stage
    rcases cur with - | ⟨uid, - | - | rest | - | ⟨size, got⟩ | -⟩
    case some.header =>
      refine absurd ?_ (hheader uid (h.booked.known uid rfl))
      rw [h.ops, only, Function.update_self]
    all_goals exact hstage

theorem serving_send {message : Bytes} {sizeOk : Bool} (h : Serving s none)
    (hlen : message.length < 2 ^ 31) : ∃ cur, Serving (s.send message sizeOk) cur := by
  obtain ⟨hopen, hans⟩ := h.stage
  have hnew : Booked { s with sent := s.sent + 1, reqMap := update s.reqMap s.sent message }
      (some s.sent) := by
    refine ⟨h.booked.crashed, h.booked.conns, h.booked.once, ?_, ?_, h.booked.responses⟩
    · intro v
      simp only [h.booked.reported]
      grind
    · intro v hv
      cases hv
      exact Nat.lt_succ_self _
  have halone : Alone { s with sent := s.sent + 1, reqMap := update s.reqMap s.sent message }
      s.sent := fun v _ => by simp [h.ops, only]
  unfold send
  dsimp only
  rw [if_neg (by omega)]
  split
  next hisOpen => exact serving_sendMessage hnew halone hisOpen hans
  next hisOpen =>
    have hisOpen' : s.isOpen = false := by simpa using hisOpen
    exact ⟨some (s.sent, .resolve), booked_setOp hnew, halone.update_some, hisOpen',
      hopen.trans hisOpen'⟩

theorem serving_step {e : Event} (h : ∃ cur, Serving s cur) (hserial : Serial s e)
    (hstep : step s e = some s') : ∃ cur, Serving s' cur := by
  obtain ⟨cur, h⟩ := h
  cases e <;> simp only [step] at hstep
  case send message sizeOk =>
    cases hstep
    rcases cur with - | ⟨uid, op⟩
    · exact serving_send h hserial.2
    · have hnone := hserial.1 uid (h.booked.known uid rfl)
      rw [h.ops, only, Function.update_self] at hnone
      cases hnone
  case resolved uid ok =>
    split at hstep
    next hop =>
      cases hstep
      obtain rfl := h.cur_eq hop
      split
      · exact ⟨_, serving_connect h⟩
      · exact ⟨_, serving_handleError h.booked h.alone h.stage.closed⟩
    next => cases hstep
  case connected uid ok sizeOk =>
    split at hstep
    next hop =>
      obtain rfl := h.cur_eq hop
      obtain ⟨hopen, hconn, hinput, hnew⟩ := h.stage
      split at hstep
      · cases hstep
        refine serving_sendMessage ?_ h.alone hopen fun _ => ?_
        · exact ⟨h.booked.crashed, h.booked.conns, h.booked.once, h.booked.reported,
            h.booked.known, h.booked.responses⟩
        · rw [hnew, hinput]
          exact ⟨rfl, rfl, rfl⟩
      · cases hstep
        exact ⟨_, serving_handleError h.booked h.alone h.stage.closed⟩
    next => cases hstep
  case wrote uid n =>
    split at hstep
    next rest hop =>
      obtain rfl := h.cur_eq hop
      split at hstep
      · cases hstep
        refine ⟨_, serving_wrote h fun hdone => ?_⟩
        have hlen := List.drop_eq_nil_iff.1 hdone
        simpa [Serial, hop, Op.goesOn, Nat.not_lt.2 hlen] using hserial
      · cases hstep
    next => cases hstep
  case headerRead uid =>
    split at hstep
    next hop =>
      obtain rfl := h.cur_eq hop
      split at hstep
      next hlen =>
        cases hstep
        exact serving_recvMessage h hlen.2 hserial
      next => cases hstep
    next => cases hstep
  case readSome uid n =>
    split at hstep
    next size got hop =>
      obtain rfl := h.cur_eq hop
      split at hstep
      next hn =>
        cases hstep
        have hread := serving_readSome (n := n) h
        split
        next hlen =>
          refine ⟨none, serving_responseRead (booked_input h.booked) h.alone ?_ ?_⟩
          · rw [hlen]
            exact hread.stage
          · rw [List.length_append, List.length_take, Nat.min_eq_left hn.2.1] at hlen
            simpa [Serial, hop, Op.readsOn, Nat.not_lt.2 hlen.ge] using hserial
        next => exact ⟨_, hread⟩
      next => cases hstep
    next => cases hstep
  case failed uid =>
    have hfail (op : Op) (hop : s.ops uid = some op) : ∃ cur, Serving (s.handleError uid) cur := by
      obtain rfl := h.cur_eq hop
      exact ⟨none, serving_handleError h.booked h.alone h.stage.closed⟩
    split at hstep
    next rest hop =>
      cases hstep
      exact hfail _ hop
    next hop =>
      split at hstep
      · cases hstep
      · cases hstep
        exact hfail _ hop
    next size got hop =>
      cases hstep
      exact hfail _ hop
    next hop =>
      cases hstep
      exact hfail _ hop
    next => cases hstep
  case serverSends bytes =>
    split at hstep
    next hconn =>
      cases hstep
      exact ⟨cur, serving_serverSends h hconn.1⟩
    next => cases hstep
  case serverCloses =>
    split at hstep
    next =>
      cases hstep
      exact ⟨cur, serving_serverCloses h hserial⟩
    next => cases hstep
  case serverResets =>
    split at hstep
    next =>
      cases hstep
      exact ⟨cur, ⟨h.booked.crashed, h.booked.conns, h.booked.once, h.booked.reported,
        h.booked.known, h.booked.responses⟩, h.ops, h.stage⟩
    next => cases hstep

theorem serving_start : Serving {} none where
  booked := by
    refine ⟨rfl, ?_, List.nodup_nil, ?_, ?_, ?_⟩
    · intro c hc
      cases List.mem_singleton.1 hc
      exact ⟨List.nil_prefix, List.nil_prefix, List.nil_prefix⟩
    · simp
    · simp
    · simp
  ops := rfl
  stage := ⟨rfl, by simp⟩

theorem Serving.paired {cur : Option (Nat × Op)} (h : Serving s cur) : s.Paired where
  crashed := h.booked.crashed
  conns := h.booked.conns
  whole hconn hidle := by
    have hstage := h.stage
    rcases cur with - | ⟨uid, - | - | rest | - | ⟨size, got⟩ | -⟩
    · exact (hstage.2 hconn).1
    · simp [hstage.2] at hconn
    · simp [hstage.2.1] at hconn
    · refine absurd ?_ (hidle uid rest)
      rw [h.ops, only, Function.update_self]
    · obtain ⟨-, -, -, _, _, -, -, hout⟩ := hstage
      exact hout
    · obtain ⟨-, -, -, _, _, -, -, hout⟩ := hstage
      exact hout
    · exact hstage.elim
  once := h.booked.once
  reported uid := by
    rw [h.booked.reported, h.ops]
    rcases cur with - | ⟨v, op⟩
    · simp [only]
    · by_cases hv : uid = v
      · simp [only, hv]
      · simp [only, hv, Ne.symm hv]
  loops uid hop := by
    obtain rfl := h.cur_eq hop
    simp [h.stage.2.2.1]
  responses := h.booked.responses

/-- **Requests and replies are paired.** In every run in which a message is sent only when no other
request is under way, in which the server closes no connection whose request was written and whose
response has not begun, announces no negative size, and resets no connection between the last byte of
a response and its report, the client writes whole frames, reports each request once, and reports
with a response the reply to the request. -/
theorem client_pairs_replies (es : List Event) (s : Client)
    (hserial : Machine.Along step Serial {} es) (hrun : Machine.run step {} es = some s) :
    s.Paired := by
  have hstart : ∃ cur, Serving {} cur := ⟨none, serving_start⟩
  obtain ⟨cur, h⟩ := Machine.Along.invariant (I := fun s => ∃ cur, Serving s cur)
    (fun _ _ _ => serving_step) hstart hserial hrun
  exact h.paired

end

/-- Two requests go over one connection, the first message in two pieces; the server closes it
while the second response is read. -/
def twoRequests : List Event :=
  [.send [1, 2] true, .resolved 0 true, .connected 0 true true, .wrote 0 1, .wrote 0 1,
    .serverSends [1, 0, 0, 0, 9], .headerRead 0, .readSome 0 1, .send [3] true, .wrote 1 1,
    .serverSends [2, 0, 0, 0, 8], .headerRead 1, .readSome 1 1, .serverCloses, .failed 1]

theorem client_pairs_replies_two :
    ∃ s, Machine.run step {} twoRequests = some s ∧ s.Paired ∧
      s.conn.output = frame [1, 2] ++ frame [3] ∧ s.reports = [(0, some [9]), (1, none)] := by
  have hrun : (Machine.run step {} twoRequests).map (fun s => (s.conn.output, s.reports)) =
      some (frame [1, 2] ++ frame [3], [(0, some [9]), (1, none)]) := by decide +kernel
  obtain ⟨s, hs, hout⟩ := Option.map_eq_some_iff.1 hrun
  exact ⟨s, hs, client_pairs_replies _ s (by decide +kernel) hs, Prod.mk.inj hout⟩

/-- A request is sent while the message of another one is written: its size lands between two pieces
of the message. -/
def overlapping : List Event :=
  [.send [7] true, .resolved 0 true, .connected 0 true true, .wrote 0 1,
    .serverSends [0, 0, 0, 0], .headerRead 0, .readSome 0 0, .send [1, 2] true, .wrote 1 1,
    .send [3] true, .wrote 2 1, .wrote 1 1]

theorem client_mixes_frames :
    ∃ s, Machine.run step {} overlapping = some s ∧
      s.conn.requests = [(0, [7]), (1, [1, 2]), (2, [3])] ∧
      s.conn.output = frame [7] ++ (leBytes 4 2 ++ [1]) ++ frame [3] ++ [2] ∧ ¬s.Paired := by
  have hrun : (Machine.run step {} overlapping).map (fun s => (s.conn.requests, s.conn.output)) =
      some ([(0, [7]), (1, [1, 2]), (2, [3])],
        frame [7] ++ (leBytes 4 2 ++ [1]) ++ frame [3] ++ [2]) := by decide +kernel
  obtain ⟨s, hs, hconn⟩ := Option.map_eq_some_iff.1 hrun
  obtain ⟨hrequests, houtput⟩ := Prod.mk.inj hconn
  refine ⟨s, hs, hrequests, houtput, fun h => ?_⟩
  have hframes := (h.conns s.conn List.mem_cons_self).output
  rw [hrequests, houtput] at hframes
  exact absurd hframes (by decide)

end Client

end EnclaveRaft.Host
