import EnclaveRaft.Lib.Block
import EnclaveRaft.Lib.Machine
import EnclaveRaft.Types

/-!
# Sessions of the host

`asio_rpc_session` serves one connection. It reads frames (the size of a payload in four bytes, and
the payload) into a buffer that it shares with the frames to come, calls the handler on each payload
and writes the response as a frame before it looks at the next one. asio completes a read with as
many bytes as have arrived, at least as many as asked for, and a write in pieces.
-/

namespace EnclaveRaft.Host

/-- A payload with its size in front of it. -/
def frame (payload : Bytes) : Bytes := leBytes 4 payload.length ++ payload

def requestHeaderSize : Nat := 4

/-- What the handler returns has a size of 32 bits: `message_handler` takes it from an `int32`. -/
abbrev Response := { r : Bytes // r.length < 2 ^ 32 }

namespace Session

/-- What the session waits for. -/
inductive Phase
  | header
  | payload
  | written
  | stopped
  deriving DecidableEq

end Session

/-- A session, with the bytes that have arrived at its socket and were not read (`pending`), those it
has written, the payloads its handler was called on and what it returned. -/
structure Session where
  phase : Session.Phase
  payloadSize : Nat
  request : Bytes
  response : Bytes
  pending : Bytes
  output : Bytes
  calls : List Bytes
  answers : List Response
  deriving DecidableEq

namespace Session

/-- A completion: a read of `n` bytes, the next `n` bytes of a write, or the end of the stream. -/
inductive Event
  | arrive (n : Nat)
  | sent (n : Nat)
  | eof
  deriving DecidableEq

/-- `start`: read the first header of what the client will send. -/
def start (input : Bytes) : Session := ⟨.header, 0, [], [], input, [], [], []⟩

/-- The handler may answer each time as it likes. -/
abbrev Handler := Nat → Bytes → Option Response

variable (handler : Handler)

def writeResponse (s : Session) (resp : Response) : Session :=
  { s with
    payloadSize := resp.1.length
    response := s.response ++ frame resp.1
    phase := .written }

def handleRequest (s : Session) : Session :=
  let req := s.request.take s.payloadSize
  let s' := { s with request := s.request.drop s.payloadSize, calls := s.calls ++ [req] }
  match handler s.calls.length req with
  | some resp => { s' with answers := s.answers ++ [resp] }.writeResponse resp
  | none => { s' with phase := .stopped }

def handleRequestHeader (s : Session) : Session :=
  let s' := { s with
    payloadSize := leNat (s.request.take requestHeaderSize)
    request := s.request.drop requestHeaderSize }
  if s'.request.length < s'.payloadSize then { s' with phase := .payload }
  else s'.handleRequest handler

/-- The bytes of a completed read. -/
def read (s : Session) (n : Nat) : Session :=
  { s with request := s.request ++ s.pending.take n, pending := s.pending.drop n }

/-- The callback of `write_response`. -/
def handleWritten (s : Session) : Session :=
  let s' := { s with payloadSize := 0, response := [] }
  if requestHeaderSize ≤ s'.request.length then s'.handleRequestHeader handler
  else { s' with phase := .header }

def step (s : Session) : Event → Option Session
  | .arrive n =>
    match s.phase with
    | .header =>
      if requestHeaderSize - s.request.length ≤ n ∧ n ≤ s.pending.length then
        some ((s.read n).handleRequestHeader handler)
      else none
    | .payload =>
      if 1 ≤ n ∧ n ≤ s.pending.length then
        let s' := s.read n
        if s'.request.length < s'.payloadSize then some s' else some (s'.handleRequest handler)
      else none
    | _ => none
  | .sent n =>
    match s.phase with
    | .written =>
      if 1 ≤ n ∧ n ≤ s.response.length then
        let s' := { s with response := s.response.drop n, output := s.output ++ s.response.take n }
        if s'.response = [] then some (s'.handleWritten handler) else some s'
      else none
    | _ => none
  | .eof =>
    match s.phase with
    | .header =>
      if s.request.length + s.pending.length < requestHeaderSize then
        some { s.read s.pending.length with phase := .stopped }
      else none
    | .payload => if s.pending = [] then some { s with phase := .stopped } else none
    | _ => none

/-! ## The invariant -/

variable {handler : Handler} {payloads : List Bytes}

/-- Payloads that a frame can hold. -/
def Sized (payloads : List Bytes) : Prop := ∀ p ∈ payloads, 1 ≤ p.length ∧ p.length < 2 ^ 32

/-- The handler has a response to each. -/
def Answers (handler : Handler) (payloads : List Bytes) : Prop :=
  ∀ k p, payloads[k]? = some p → (handler k p).isSome

/-- What is left of the stream in each phase. -/
def Unread (s : Session) (todo : List Bytes) : Prop :=
  match s.phase with
  | .header => s.request ++ s.pending = todo.flatMap frame ∧ s.request.length < 4 ∧ s.response = []
  | .payload => ∃ p todo', todo = p :: todo' ∧ s.payloadSize = p.length ∧
      s.request ++ s.pending = p ++ todo'.flatMap frame ∧ s.request.length < p.length ∧
      s.response = []
  | .written => s.request ++ s.pending = todo.flatMap frame ∧ s.response ≠ []
  | .stopped => todo = [] ∧ s.response = []

/-- The responses are what the handler has returned for the payloads. -/
structure Answered (handler : Handler) (calls : List Bytes) (answers : List Response) : Prop where
  length : answers.length = calls.length
  get : ∀ k, answers[k]? = calls[k]?.bind (handler k)

theorem Answered.snoc {calls : List Bytes} {answers : List Response} {p : Bytes} {resp : Response}
    (h : Answered handler calls answers) (hresp : handler calls.length p = some resp) :
    Answered handler (calls ++ [p]) (answers ++ [resp]) := by
  refine ⟨by simp [h.length], fun k => ?_⟩
  rcases Nat.lt_trichotomy k calls.length with hk | rfl | hk
  · rw [List.getElem?_append_left hk, List.getElem?_append_left (h.length ▸ hk), h.get]
  · rw [List.getElem?_concat_length, ← h.length, List.getElem?_concat_length, h.length]
    exact hresp.symm
  · have hlen := h.length
    rw [List.getElem?_eq_none (by simp; omega), List.getElem?_eq_none (by simp; omega)]
    rfl

/-- The payloads of the frames that were taken off the stream were passed to the handler, and what
it returned was written or is about to be. -/
structure Serves (handler : Handler) (payloads : List Bytes) (s : Session) : Prop where
  unread : ∃ todo, payloads = s.calls ++ todo ∧ s.Unread todo
  answers : Answered handler s.calls s.answers
  output : s.output ++ s.response = s.answers.flatMap fun r => frame r.1

theorem frame_ne_nil (p : Bytes) : frame p ≠ [] := by
  intro h
  have hlen := congrArg List.length h
  simp [frame] at hlen

/-- All that was answered is written. -/
structure Settled (handler : Handler) (s : Session) : Prop where
  answers : Answered handler s.calls s.answers
  output : s.output = s.answers.flatMap fun r => frame r.1
  response : s.response = []

/-- A prefix that lies in the buffer is taken from it. -/
theorem take_drop_of_append {request pending p post : Bytes} (hrest : request ++ pending = p ++ post)
    (hlen : p.length ≤ request.length) :
    request.take p.length = p ∧ request.drop p.length ++ pending = post := by
  have htake := congrArg (List.take p.length) hrest
  have hdrop := congrArg (List.drop p.length) hrest
  rw [List.take_append_of_le_length hlen, List.take_left] at htake
  rw [List.drop_append_of_le_length hlen, List.drop_left] at hdrop
  exact ⟨htake, hdrop⟩

theorem serves_handleRequest {s : Session} {p : Bytes} {todo : List Bytes}
    (hanswers : Answers handler payloads) (hs : s.Settled handler)
    (hpayloads : payloads = s.calls ++ p :: todo) (hsize : s.payloadSize = p.length)
    (hlen : p.length ≤ s.request.length)
    (hrest : s.request ++ s.pending = p ++ todo.flatMap frame) :
    Serves handler payloads (s.handleRequest handler) := by
  obtain ⟨htake, hdrop⟩ := take_drop_of_append hrest hlen
  have hget : payloads[s.calls.length]? = some p := by simp [hpayloads]
  obtain ⟨resp, hresp⟩ := Option.isSome_iff_exists.1 (hanswers _ _ hget)
  unfold handleRequest
  simp only [hsize, htake, hresp]
  refine ⟨⟨todo, by simp [writeResponse, hpayloads], ?_⟩, hs.answers.snoc hresp, ?_⟩
  · refine ⟨hdrop, ?_⟩
    show s.response ++ frame resp.1 ≠ []
    rw [hs.response]
    exact frame_ne_nil _
  · show s.output ++ (s.response ++ frame resp.1) = _
    rw [hs.response, hs.output]
    simp [writeResponse]

theorem serves_handleRequestHeader {s : Session} {todo : List Bytes}
    (hanswers : Answers handler payloads) (hsized : Sized payloads) (hs : s.Settled handler)
    (hpayloads : payloads = s.calls ++ todo) (hlen : 4 ≤ s.request.length)
    (hrest : s.request ++ s.pending = todo.flatMap frame) :
    Serves handler payloads (s.handleRequestHeader handler) := by
  cases todo with
  | nil =>
    have hnil : s.request = [] := (List.append_eq_nil_iff.1 hrest).1
    rw [hnil] at hlen
    exact absurd hlen (by decide)
  | cons p todo =>
    have hp := hsized p (by simp [hpayloads])
    rw [List.flatMap_cons, frame, List.append_assoc] at hrest
    obtain ⟨htake, hdrop⟩ := take_drop_of_append hrest (by rw [length_leBytes]; exact hlen)
    rw [length_leBytes] at htake hdrop
    have hsize : leNat (s.request.take 4) = p.length := by
      rw [htake, leNat_leBytes hp.2]
    unfold handleRequestHeader
    simp only [requestHeaderSize, hsize]
    by_cases hroom : (s.request.drop 4).length < p.length
    · rw [if_pos hroom]
      exact ⟨⟨_, hpayloads, p, todo, rfl, rfl, hdrop, hroom, hs.response⟩, hs.answers,
        by rw [hs.response, List.append_nil, hs.output]⟩
    · rw [if_neg hroom]
      exact serves_handleRequest hanswers ⟨hs.answers, hs.output, hs.response⟩ hpayloads rfl
        (Nat.le_of_not_lt hroom) hdrop

theorem Serves.settled {s : Session} (hs : Serves handler payloads s) (hresp : s.response = []) :
    s.Settled handler :=
  ⟨hs.answers, by rw [← hs.output, hresp, List.append_nil], hresp⟩

theorem Settled.read {s : Session} (hs : s.Settled handler) (n : Nat) :
    (s.read n).Settled handler :=
  ⟨hs.answers, hs.output, hs.response⟩

theorem read_append (s : Session) (n : Nat) :
    (s.read n).request ++ (s.read n).pending = s.request ++ s.pending := by
  show (s.request ++ s.pending.take n) ++ s.pending.drop n = _
  rw [List.append_assoc, List.take_append_drop]

theorem length_read {s : Session} {n : Nat} (h : n ≤ s.pending.length) :
    (s.read n).request.length = s.request.length + n := by
  show (s.request ++ s.pending.take n).length = _
  rw [List.length_append, List.length_take_of_le h]

theorem serves_arrive {s s' : Session} {n : Nat} (hanswers : Answers handler payloads)
    (hsized : Sized payloads) (hs : Serves handler payloads s)
    (hstep : step handler s (.arrive n) = some s') : Serves handler payloads s' := by
  obtain ⟨todo, hpayloads, hunread⟩ := hs.unread
  unfold step at hstep
  unfold Unread at hunread
  cases hphase : s.phase with
  | header =>
    simp only [hphase, Option.ite_none_right_eq_some] at hstep hunread
    obtain ⟨hrest, hshort, hresp⟩ := hunread
    obtain ⟨⟨hge, hle⟩, hs'⟩ := hstep
    cases hs'
    refine serves_handleRequestHeader hanswers hsized ((hs.settled hresp).read n) hpayloads ?_ ?_
    · rw [length_read hle]
      rw [requestHeaderSize] at hge
      omega
    · rw [read_append, hrest]
  | payload =>
    simp only [hphase, Option.ite_none_right_eq_some] at hstep hunread
    obtain ⟨p, todo', rfl, hsize, hrest, hshort, hresp⟩ := hunread
    obtain ⟨⟨hge, hle⟩, hs'⟩ := hstep
    have hread := (hs.settled hresp).read n
    rw [← read_append s n] at hrest
    by_cases hroom : (s.read n).request.length < (s.read n).payloadSize
    · rw [if_pos hroom] at hs'
      cases hs'
      refine ⟨⟨_, hpayloads, ?_⟩, hs.answers, hs.output⟩
      rw [Unread, show (s.read n).phase = .payload from hphase]
      exact ⟨p, todo', rfl, hsize, hrest, hsize ▸ hroom, hresp⟩
    · rw [if_neg hroom] at hs'
      cases hs'
      exact serves_handleRequest hanswers hread hpayloads hsize (hsize ▸ Nat.le_of_not_lt hroom) hrest
  | written => simp [hphase] at hstep
  | stopped => simp [hphase] at hstep

theorem serves_sent {s s' : Session} {n : Nat} (hanswers : Answers handler payloads)
    (hsized : Sized payloads) (hs : Serves handler payloads s)
    (hstep : step handler s (.sent n) = some s') : Serves handler payloads s' := by
  obtain ⟨todo, hpayloads, hunread⟩ := hs.unread
  have hout := hs.output
  unfold step at hstep
  unfold Unread at hunread
  cases hphase : s.phase with
  | written =>
    simp only [hphase, Option.ite_none_right_eq_some] at hstep hunread
    obtain ⟨hrest, hne⟩ := hunread
    obtain ⟨⟨hge, hle⟩, hs'⟩ := hstep
    rw [← List.take_append_drop n s.response, ← List.append_assoc] at hout
    by_cases hdone : s.response.drop n = []
    · rw [if_pos hdone] at hs'
      cases hs'
      rw [hdone, List.append_nil] at hout
      unfold handleWritten
      by_cases hlen : requestHeaderSize ≤ s.request.length
      · rw [if_pos hlen]
        exact serves_handleRequestHeader hanswers hsized ⟨hs.answers, hout, rfl⟩ hpayloads hlen hrest
      · rw [if_neg hlen]
        exact ⟨⟨todo, hpayloads, hrest, Nat.lt_of_not_le hlen, rfl⟩, hs.answers,
          by rw [← hout]; exact List.append_nil _⟩
    · rw [if_neg hdone] at hs'
      cases hs'
      refine ⟨⟨todo, hpayloads, ?_⟩, hs.answers, hout⟩
      rw [Unread]
      exact ⟨hrest, hdone⟩
  | header => simp [hphase] at hstep
  | payload => simp [hphase] at hstep
  | stopped => simp [hphase] at hstep

/-- The stream ends between two frames. -/
theorem serves_eof {s s' : Session} (hs : Serves handler payloads s)
    (hstep : step handler s .eof = some s') : Serves handler payloads s' := by
  obtain ⟨todo, hpayloads, hunread⟩ := hs.unread
  unfold step at hstep
  unfold Unread at hunread
  cases hphase : s.phase with
  | header =>
    simp only [hphase, Option.ite_none_right_eq_some] at hstep hunread
    obtain ⟨hrest, hshort, hresp⟩ := hunread
    obtain ⟨hlen, hs'⟩ := hstep
    cases hs'
    refine ⟨⟨todo, hpayloads, ?_, hresp⟩, hs.answers, hs.output⟩
    cases todo with
    | nil => rfl
    | cons p todo' =>
      have hframe := congrArg List.length hrest
      simp only [List.flatMap_cons, frame, List.length_append, length_leBytes] at hframe
      rw [requestHeaderSize] at hlen
      omega
  | payload =>
    simp only [hphase, Option.ite_none_right_eq_some] at hstep hunread
    obtain ⟨p, todo', rfl, hsize, hrest, hshort, hresp⟩ := hunread
    obtain ⟨hnil, hs'⟩ := hstep
    have hlen := congrArg List.length hrest
    rw [hnil, List.append_nil, List.length_append] at hlen
    omega
  | written => simp [hphase] at hstep
  | stopped => simp [hphase] at hstep

theorem serves_step {s s' : Session} {e : Event} (hanswers : Answers handler payloads)
    (hsized : Sized payloads) (hs : Serves handler payloads s) (hstep : step handler s e = some s') :
    Serves handler payloads s' := by
  cases e with
  | arrive n => exact serves_arrive hanswers hsized hs hstep
  | sent n => exact serves_sent hanswers hsized hs hstep
  | eof => exact serves_eof hs hstep

theorem serves_start (handler : Handler) (payloads : List Bytes) :
    Serves handler payloads (start (payloads.flatMap frame)) :=
  ⟨⟨payloads, rfl, rfl, Nat.zero_lt_succ 3, rfl⟩, ⟨rfl, fun _ => rfl⟩, rfl⟩

/-! ## Progress -/

theorem isSome_arrive_header {s : Session} {n : Nat} (hphase : s.phase = .header)
    (hn : requestHeaderSize - s.request.length ≤ n ∧ n ≤ s.pending.length) :
    (step handler s (.arrive n)).isSome := by
  simp only [step, hphase]
  rw [if_pos hn]
  rfl

theorem isSome_arrive_payload {s : Session} {n : Nat} (hphase : s.phase = .payload)
    (hn : 1 ≤ n ∧ n ≤ s.pending.length) : (step handler s (.arrive n)).isSome := by
  simp only [step, hphase]
  rw [if_pos hn]
  split <;> rfl

theorem isSome_sent {s : Session} {n : Nat} (hphase : s.phase = .written)
    (hn : 1 ≤ n ∧ n ≤ s.response.length) : (step handler s (.sent n)).isSome := by
  simp only [step, hphase]
  rw [if_pos hn]
  split <;> rfl

/-- Where nothing can arrive and nothing be sent, all is done. -/
theorem Serves.done {s : Session} (hs : Serves handler payloads s)
    (hquiet : ∀ n, step handler s (.arrive n) = none ∧ step handler s (.sent n) = none) :
    s.calls = payloads ∧ s.response = [] := by
  obtain ⟨todo, hpayloads, hunread⟩ := hs.unread
  unfold Unread at hunread
  cases hphase : s.phase with
  | header =>
    simp only [hphase] at hunread
    obtain ⟨hrest, hshort, hresp⟩ := hunread
    cases todo with
    | nil => exact ⟨by rw [hpayloads, List.append_nil], hresp⟩
    | cons p todo' =>
      have hframe := congrArg List.length hrest
      simp only [List.flatMap_cons, frame, List.length_append, length_leBytes] at hframe
      have hn : requestHeaderSize - s.request.length ≤ s.pending.length := by
        rw [requestHeaderSize]
        omega
      have hsome := @isSome_arrive_header handler s _ hphase ⟨hn, Nat.le_refl _⟩
      rw [(hquiet _).1] at hsome
      cases hsome
  | payload =>
    simp only [hphase] at hunread
    obtain ⟨p, todo', rfl, hsize, hrest, hshort, hresp⟩ := hunread
    have hlen := congrArg List.length hrest
    rw [List.length_append, List.length_append] at hlen
    have hn : 1 ≤ s.pending.length := by omega
    have hsome := @isSome_arrive_payload handler s _ hphase ⟨hn, Nat.le_refl _⟩
    rw [(hquiet _).1] at hsome
    cases hsome
  | written =>
    simp only [hphase] at hunread
    have hn : 1 ≤ s.response.length := List.length_pos_iff.2 hunread.2
    have hsome := @isSome_sent handler s _ hphase ⟨hn, Nat.le_refl _⟩
    rw [(hquiet _).2] at hsome
    cases hsome
  | stopped =>
    simp only [hphase] at hunread
    exact ⟨by rw [hpayloads, hunread.1, List.append_nil], hunread.2⟩

@[simp] theorem pending_handleRequest (s : Session) :
    (s.handleRequest handler).pending = s.pending ∧ (s.handleRequest handler).output = s.output := by
  unfold handleRequest
  dsimp only
  split <;> exact ⟨rfl, rfl⟩

@[simp] theorem pending_handleRequestHeader (s : Session) :
    (s.handleRequestHeader handler).pending = s.pending ∧
      (s.handleRequestHeader handler).output = s.output := by
  unfold handleRequestHeader
  dsimp only
  split
  · exact ⟨rfl, rfl⟩
  · exact pending_handleRequest _

@[simp] theorem pending_handleWritten (s : Session) :
    (s.handleWritten handler).pending = s.pending ∧ (s.handleWritten handler).output = s.output := by
  unfold handleWritten
  dsimp only
  split
  · exact pending_handleRequestHeader _
  · exact ⟨rfl, rfl⟩

/-- What is left to do: bytes to read, and an end. -/
def todo (s : Session) : Nat := s.pending.length + if s.phase = .stopped then 0 else 1

theorem todo_le (s : Session) : s.todo ≤ s.pending.length + 1 := by
  unfold todo
  split <;> omega

theorem todo_of_ne {s : Session} (h : s.phase ≠ .stopped) : s.todo = s.pending.length + 1 := by
  rw [todo, if_neg h]

theorem counts_arrive {s s' : Session} {n : Nat} (hs : Serves handler payloads s)
    (hstep : step handler s (.arrive n) = some s') :
    s.phase ≠ .stopped ∧ s'.pending.length + 1 ≤ s.pending.length ∧ s'.output = s.output := by
  obtain ⟨todo, -, hunread⟩ := hs.unread
  unfold step at hstep
  unfold Unread at hunread
  cases hphase : s.phase with
  | header =>
    simp only [hphase, Option.ite_none_right_eq_some] at hstep hunread
    obtain ⟨⟨hge, hle⟩, hs'⟩ := hstep
    cases hs'
    obtain ⟨hpending, houtput⟩ := @pending_handleRequestHeader handler (s.read n)
    refine ⟨by simp, ?_, houtput⟩
    have hshort := hunread.2.1
    rw [requestHeaderSize] at hge
    rw [hpending]
    show (s.pending.drop n).length + 1 ≤ _
    rw [List.length_drop]
    omega
  | payload =>
    simp only [hphase, Option.ite_none_right_eq_some] at hstep
    obtain ⟨⟨hge, hle⟩, hs'⟩ := hstep
    have hdrop : (s.read n).pending.length + 1 ≤ s.pending.length := by
      show (s.pending.drop n).length + 1 ≤ _
      rw [List.length_drop]
      omega
    refine ⟨by simp, ?_⟩
    split at hs'
    next =>
      cases hs'
      exact ⟨hdrop, rfl⟩
    next =>
      cases hs'
      obtain ⟨hpending, houtput⟩ := @pending_handleRequest handler (s.read n)
      rw [hpending]
      exact ⟨hdrop, houtput⟩
  | written => simp [hphase] at hstep
  | stopped => simp [hphase] at hstep

theorem counts_sent {s s' : Session} {n : Nat} (hstep : step handler s (.sent n) = some s') :
    s.phase ≠ .stopped ∧ s'.pending = s.pending ∧ s.output.length + 1 ≤ s'.output.length := by
  unfold step at hstep
  cases hphase : s.phase with
  | written =>
    simp only [hphase, Option.ite_none_right_eq_some] at hstep
    obtain ⟨⟨hge, hle⟩, hs'⟩ := hstep
    have hlen : s.output.length + 1 ≤ (s.output ++ s.response.take n).length := by
      rw [List.length_append, List.length_take_of_le hle]
      omega
    refine ⟨by simp, ?_⟩
    split at hs'
    next =>
      cases hs'
      refine ⟨(pending_handleWritten _).1, ?_⟩
      rw [(pending_handleWritten _).2]
      exact hlen
    next =>
      cases hs'
      exact ⟨rfl, hlen⟩
  | header => simp [hphase] at hstep
  | payload => simp [hphase] at hstep
  | stopped => simp [hphase] at hstep

theorem counts_eof {s s' : Session} (hstep : step handler s .eof = some s') :
    s.phase ≠ .stopped ∧ s'.phase = .stopped ∧ s'.pending.length ≤ s.pending.length ∧
      s'.output = s.output := by
  unfold step at hstep
  cases hphase : s.phase with
  | header =>
    simp only [hphase, Option.ite_none_right_eq_some] at hstep
    obtain ⟨-, hs'⟩ := hstep
    cases hs'
    refine ⟨by simp, rfl, ?_, rfl⟩
    show (s.pending.drop _).length ≤ _
    rw [List.length_drop]
    omega
  | payload =>
    simp only [hphase, Option.ite_none_right_eq_some] at hstep
    obtain ⟨-, hs'⟩ := hstep
    cases hs'
    exact ⟨by simp, rfl, Nat.le_refl _, rfl⟩
  | written => simp [hphase] at hstep
  | stopped => simp [hphase] at hstep

/-- A step takes bytes from the stream, adds bytes to the output, or ends the session. -/
theorem step_counts {s s' : Session} {e : Event} (hs : Serves handler payloads s)
    (hstep : step handler s e = some s') :
    1 + s'.todo + s.output.length ≤ s.todo + s'.output.length := by
  have hle := s'.todo_le
  cases e with
  | arrive n =>
    obtain ⟨hphase, hpending, houtput⟩ := counts_arrive hs hstep
    rw [todo_of_ne hphase, houtput]
    omega
  | sent n =>
    obtain ⟨hphase, hpending, houtput⟩ := counts_sent hstep
    rw [todo_of_ne hphase, ← hpending]
    omega
  | eof =>
    obtain ⟨hphase, hstopped, hpending, houtput⟩ := counts_eof hstep
    rw [todo_of_ne hphase, houtput, todo, if_pos hstopped]
    omega

/-- **A session serves its frames, however they are cut.** Let a client send any payloads as frames,
let them arrive in any pieces and the responses be sent in any pieces, and let the handler have a
response to each. Then after any events:

* the handler was called on the first payloads in order, and what was written, together with what is
  left to write, is one frame for each of its responses in the same order;
* if nothing can arrive or be sent any more, then the handler was called on all of them and all of
  its responses are written;
* there were no more events than bytes read and written, and the end of the stream. -/
theorem session_serves_frames (handler : Handler) (payloads : List Bytes) (hsized : Sized payloads)
    (hanswers : Answers handler payloads) (es : List Event) (s : Session)
    (hrun : Machine.run (step handler) (start (payloads.flatMap frame)) es = some s) :
    (s.calls <+: payloads ∧ Answered handler s.calls s.answers ∧
      s.output ++ s.response = s.answers.flatMap fun r => frame r.1) ∧
    ((∀ n, step handler s (.arrive n) = none ∧ step handler s (.sent n) = none) →
      s.calls = payloads ∧ s.output = s.answers.flatMap fun r => frame r.1) ∧
    es.length ≤ (payloads.flatMap frame).length + s.output.length + 1 := by
  have hserves : Serves handler payloads s :=
    Machine.run_invariant (fun _ _ _ hs hstep => serves_step hanswers hsized hs hstep)
      (serves_start handler payloads) hrun
  refine ⟨⟨?_, hserves.answers, hserves.output⟩, fun hquiet => ?_, ?_⟩
  · obtain ⟨todo, hpayloads, -⟩ := hserves.unread
    exact ⟨todo, hpayloads.symm⟩
  · obtain ⟨hcalls, hresp⟩ := hserves.done hquiet
    exact ⟨hcalls, (hserves.settled hresp).output⟩
  · have hcount := Machine.length_le_of_run (I := Serves handler payloads) (A := todo)
      (B := fun s => s.output.length) (fun _ _ _ hs hstep =>
        ⟨serves_step hanswers hsized hs hstep, step_counts hs hstep⟩)
      (serves_start handler payloads) hrun
    have hstart := (start (payloads.flatMap frame)).todo_le
    simp only [start, List.length_nil] at hcount hstart
    omega

/-- Two frames, the second one cut inside of its header, and a handler that answers with the first
byte. -/
theorem session_serves_two_frames :
    let handler : Handler := fun _ p => some ⟨p.take 1, by
      rw [List.length_take]
      exact Nat.lt_of_le_of_lt (Nat.min_le_left _ _) (by decide)⟩
    ∃ s, Machine.run (step handler) (start ([[1, 2], [3]].flatMap frame))
        [.arrive 8, .sent 2, .sent 3, .arrive 3, .sent 5] = some s ∧
      s.calls = [[1, 2], [3]] ∧ s.output = s.answers.flatMap fun r => frame r.1 := by
  intro handler
  have hsized : Sized [[1, 2], [3]] := by
    simp [Sized]
  have hanswers : Answers handler [[1, 2], [3]] := fun _ _ _ => rfl
  have hrun : Machine.run (step handler) (start ([[1, 2], [3]].flatMap frame))
      [.arrive 8, .sent 2, .sent 3, .arrive 3, .sent 5] = some ⟨.header, 0, [], [], [],
        [1, 0, 0, 0, 1, 1, 0, 0, 0, 3], [[1, 2], [3]], [⟨[1], by decide⟩, ⟨[3], by decide⟩]⟩ := by
    decide +kernel
  refine ⟨_, hrun, (session_serves_frames handler [[1, 2], [3]] hsized hanswers _ _ hrun).2.1 ?_⟩
  intro n
  refine ⟨if_neg ?_, rfl⟩
  rintro ⟨hge, hle⟩
  exact absurd (Nat.le_trans hge hle) (by decide)

end Session

end EnclaveRaft.Host
