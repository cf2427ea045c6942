import EnclaveRaft.Host.Client

/-!
# Streams between a client and a session

Facts about either end that the other end relies on. A stream of frames can be cut in one way only.
A session does the same with what has arrived, whatever is still to come. A client adds to a
connection, and opens a new one when a host name is resolved.
-/

namespace EnclaveRaft.Host

/-! ## Streams of frames -/

theorem frame_append_inj {a b x y : Bytes} (ha : a.length < 2 ^ 32) (hb : b.length < 2 ^ 32)
    (h : frame a ++ x = frame b ++ y) : a = b ∧ x = y := by
  unfold frame at h
  rw [List.append_assoc, List.append_assoc] at h
  obtain ⟨hsize, hrest⟩ := List.append_inj h (by simp)
  have hlen : a.length = b.length := by
    rw [← leNat_leBytes (k := 4) ha, hsize, leNat_leBytes (k := 4) hb]
  exact List.append_inj hrest hlen

/-- Frames that begin a stream of frames are the first ones of it. -/
theorem flatMap_frame_prefix {as bs : List Bytes} {x : Bytes} (has : ∀ a ∈ as, a.length < 2 ^ 32)
    (hbs : ∀ b ∈ bs, b.length < 2 ^ 32) (h : as.flatMap frame ++ x <+: bs.flatMap frame) :
    ∃ cs, bs = as ++ cs ∧ x <+: cs.flatMap frame := by
  induction as generalizing bs with
  | nil => exact ⟨bs, rfl, h⟩
  | cons a as ih =>
    obtain ⟨y, hy⟩ := h
    rw [List.flatMap_cons, List.append_assoc, List.append_assoc] at hy
    cases bs with
    | nil => exact absurd (List.append_eq_nil_iff.1 hy).1 (Session.frame_ne_nil a)
    | cons b bs =>
      rw [List.flatMap_cons] at hy
      have ha := has a List.mem_cons_self
      have hb := hbs b List.mem_cons_self
      obtain ⟨rfl, hrest⟩ := frame_append_inj ha hb hy
      obtain ⟨cs, rfl, hx⟩ := ih (fun a ha => has a (List.mem_cons_of_mem _ ha))
        (fun b hb => hbs b (List.mem_cons_of_mem _ hb)) ⟨y, by rw [List.append_assoc, hrest]⟩
      exact ⟨cs, rfl, hx⟩

theorem frames_eq (messages : List (Nat × Bytes)) :
    frames messages = (messages.map Prod.snd).flatMap frame := by
  unfold frames
  rw [List.flatMap_map]

/-! ## Sessions with more to come -/

namespace Session

/-- The handler answers every message in `P`. -/
def Total (P : Bytes → Prop) (handler : Handler) : Prop := ∀ k p, P p → (handler k p).isSome

/-- The sizes of its answers fit an `int32`. -/
def Small (handler : Handler) : Prop := ∀ k p r, handler k p = some r → r.1.length < 2 ^ 31

/-- More bytes arrive at the socket. -/
def extend (s : Session) (bytes : Bytes) : Session := { s with pending := s.pending ++ bytes }

variable {handler : Handler} {s s' : Session} {payloads : List Bytes}

theorem extend_extend (s : Session) (x y : Bytes) : (s.extend x).extend y = s.extend (x ++ y) := by
  simp [extend]

theorem handleRequest_extend (s : Session) (x : Bytes) :
    (s.extend x).handleRequest handler = (s.handleRequest handler).extend x := by
  unfold handleRequest
  dsimp only [extend]
  split <;> rfl

theorem handleRequestHeader_extend (s : Session) (x : Bytes) :
    (s.extend x).handleRequestHeader handler = (s.handleRequestHeader handler).extend x := by
  unfold handleRequestHeader
  by_cases hroom : (s.request.drop requestHeaderSize).length <
    leNat (s.request.take requestHeaderSize)
  · rw [if_pos hroom]
    exact if_pos hroom
  · rw [if_neg hroom, ← handleRequest_extend]
    exact if_neg hroom

theorem handleWritten_extend (s : Session) (x : Bytes) :
    (s.extend x).handleWritten handler = (s.handleWritten handler).extend x := by
  unfold handleWritten
  by_cases hlen : requestHeaderSize ≤ s.request.length
  · rw [if_pos hlen, ← handleRequestHeader_extend]
    exact if_pos hlen
  · rw [if_neg hlen]
    exact if_neg hlen

theorem read_extend {n : Nat} (h : n ≤ s.pending.length) (x : Bytes) :
    (s.extend x).read n = (s.read n).extend x := by
  simp [read, extend, List.take_append_of_le_length h, List.drop_append_of_le_length h]

/-- What has not arrived yet does not change what the session does with what has. -/
theorem step_extend {e : Event} (he : e ≠ .eof) (hstep : step handler s e = some s') (x : Bytes) :
    step handler (s.extend x) e = some (s'.extend x) := by
  unfold step at hstep
  cases e with
  | eof => exact absurd rfl he
  | arrive n =>
    cases hphase : s.phase with
    | header =>
      simp only [hphase, Option.ite_none_right_eq_some] at hstep
      obtain ⟨⟨hge, hle⟩, hs'⟩ := hstep
      cases hs'
      have hle' : n ≤ (s.extend x).pending.length := by
        simp only [extend, List.length_append]
        omega
      simp only [step, show (s.extend x).phase = .header from hphase]
      rw [if_pos ⟨hge, hle'⟩, read_extend hle, handleRequestHeader_extend]
    | payload =>
      simp only [hphase, Option.ite_none_right_eq_some] at hstep
      obtain ⟨⟨hge, hle⟩, hs'⟩ := hstep
      have hle' : n ≤ (s.extend x).pending.length := by
        simp only [extend, List.length_append]
        omega
      simp only [step, show (s.extend x).phase = .payload from hphase]
      rw [if_pos ⟨hge, hle'⟩, read_extend hle]
      split at hs'
      next hroom =>
        cases hs'
        exact if_pos hroom
      next hroom =>
        cases hs'
        rw [handleRequest_extend]
        exact if_neg hroom
    | written => simp [hphase] at hstep
    | stopped => simp [hphase] at hstep
  | sent n =>
    cases hphase : s.phase with
    | written =>
      simp only [hphase, Option.ite_none_right_eq_some] at hstep
      obtain ⟨hn, hs'⟩ := hstep
      simp only [step, show (s.extend x).phase = .written from hphase]
      refine (if_pos hn).trans ?_
      split at hs'
      next hdone =>
        cases hs'
        rw [← handleWritten_extend]
        exact if_pos hdone
      next hdone =>
        cases hs'
        exact if_neg hdone
    | header => simp [hphase] at hstep
    | payload => simp [hphase] at hstep
    | stopped => simp [hphase] at hstep

/-- A handler that has no answer is the only reason to stop in the middle of a stream. -/
def Unanswered (s s' : Session) : Prop :=
  s'.calls.length = s.calls.length + 1 ∧ s'.answers = s.answers

theorem unanswered_handleRequest (h : (s.handleRequest handler).phase = .stopped) :
    Unanswered s (s.handleRequest handler) := by
  unfold handleRequest at h ⊢
  dsimp only at h ⊢
  split at h
  · cases h
  · exact ⟨by simp, rfl⟩

theorem unanswered_handleRequestHeader (h : (s.handleRequestHeader handler).phase = .stopped) :
    Unanswered s (s.handleRequestHeader handler) := by
  unfold handleRequestHeader at h ⊢
  dsimp only at h ⊢
  split at h
  · cases h
  next hroom =>
    rw [if_neg hroom]
    exact unanswered_handleRequest h

theorem unanswered_step {e : Event} (he : e ≠ .eof) (hstep : step handler s e = some s')
    (h : s'.phase = .stopped) : Unanswered s s' := by
  unfold step at hstep
  cases e with
  | eof => exact absurd rfl he
  | arrive n =>
    cases hphase : s.phase with
    | header =>
      simp only [hphase, Option.ite_none_right_eq_some] at hstep
      obtain ⟨-, hs'⟩ := hstep
      cases hs'
      exact unanswered_handleRequestHeader h
    | payload =>
      simp only [hphase, Option.ite_none_right_eq_some] at hstep
      obtain ⟨-, hs'⟩ := hstep
      split at hs'
      · cases hs'
        cases hphase.symm.trans h
      · cases hs'
        exact unanswered_handleRequest h
    | written => simp [hphase] at hstep
    | stopped => simp [hphase] at hstep
  | sent n =>
    cases hphase : s.phase with
    | written =>
      simp only [hphase, Option.ite_none_right_eq_some] at hstep
      obtain ⟨-, hs'⟩ := hstep
      split at hs'
      · cases hs'
        unfold handleWritten at h ⊢
        dsimp only at h ⊢
        split at h
        next hlen =>
          rw [if_pos hlen]
          exact unanswered_handleRequestHeader h
        · cases h
      · cases hs'
        cases h
    | header => simp [hphase] at hstep
    | payload => simp [hphase] at hstep
    | stopped => simp [hphase] at hstep

theorem Serves.running_step {e : Event} (h : Serves handler payloads s)
    (h' : Serves handler payloads s') (he : e ≠ .eof) (hstep : step handler s e = some s') :
    s'.phase ≠ .stopped := by
  intro hstopped
  obtain ⟨hcalls, hanswers⟩ := unanswered_step he hstep hstopped
  have hlen := h.answers.length
  have hlen' := h'.answers.length
  rw [hanswers, hcalls] at hlen'
  omega

/-- One more frame is to come. -/
theorem Serves.concat {rest : Bytes} (h : Serves handler payloads (s.extend rest))
    (hrunning : s.phase ≠ .stopped) (p : Bytes) :
    Serves handler (payloads ++ [p]) (s.extend (rest ++ frame p)) := by
  obtain ⟨todo, hpayloads, hunread⟩ := h.unread
  refine ⟨⟨todo ++ [p], ?_, ?_⟩, h.answers, h.output⟩
  · rw [hpayloads, List.append_assoc]
    rfl
  · unfold Unread at hunread ⊢
    simp only [extend] at hunread ⊢
    cases hphase : s.phase with
    | header =>
      simp only [hphase] at hunread ⊢
      refine ⟨?_, hunread.2⟩
      simp [← hunread.1]
    | payload =>
      simp only [hphase] at hunread ⊢
      obtain ⟨q, todo', rfl, hsize, hrest, hshort⟩ := hunread
      refine ⟨q, todo' ++ [p], rfl, hsize, ?_, hshort⟩
      rw [List.flatMap_append, ← List.append_assoc q, ← hrest]
      simp
    | written =>
      simp only [hphase] at hunread ⊢
      refine ⟨?_, hunread.2⟩
      simp [← hunread.1]
    | stopped => exact absurd hphase hrunning

end Session

/-! ## What the client does to its connections -/

namespace Client

open Function (update)

/-- Not a move of the server. -/
def Event.own : Event → Bool
  | .serverSends _ | .serverCloses | .serverResets => false
  | _ => true

/-- A new connection is opened. -/
def Event.opens : Event → Bool
  | .resolved _ true => true
  | _ => false

variable {s s' : Client} {e : Event} {uid : Nat}

/-- What an event that opens no connection does to the one there is. -/
inductive Move (s s' : Client) : Prop
  | keeps (hrequests : s'.conn.requests = s.conn.requests)
      (hanswers : s'.conn.answers = s.conn.answers)
  | answer (uid : Nat) (resp : Bytes) (hrequests : s'.conn.requests = s.conn.requests)
      (hanswers : s'.conn.answers = s.conn.answers ++ [(uid, resp)]) (hresp : resp.length < 2 ^ 31)
      (hopen : s'.isOpen = true)
  | request (uid : Nat)
      (hrequests : s'.conn.requests = s.conn.requests ++ [(uid, s'.reqMap uid)])
      (hanswers : s'.conn.answers = s.conn.answers) (huid : uid < s'.sent)
      (hopen : s'.isOpen = true)

/-- The connection stays the same one, and more bytes may be written to it. -/
structure SameConn (s s' : Client) : Prop where
  past : s'.past = s.past
  received : s'.conn.received = s.conn.received
  output : s.conn.output <+: s'.conn.output
  isOpen : s'.isOpen = true → s.isOpen = true
  move : Move s s'

theorem SameConn.of_conn (hpast : s'.past = s.past) (hconn : s'.conn = s.conn)
    (hopen : s'.isOpen = true → s.isOpen = true) : SameConn s s' :=
  ⟨hpast, by rw [hconn], hconn ▸ List.prefix_rfl, hopen, .keeps (by rw [hconn]) (by rw [hconn])⟩

theorem sameConn_handleError (s : Client) (uid : Nat) : SameConn s (s.handleError uid) := by
  unfold handleError
  dsimp only
  split
  · exact .of_conn rfl rfl fun h => by cases h
  · exact .of_conn rfl rfl id

theorem sameConn_sendMessage (sizeOk : Bool) (huid : uid < s.sent) (hopen : s.isOpen = true) :
    SameConn s (s.sendMessage uid sizeOk) := by
  unfold sendMessage
  dsimp only
  split
  · exact ⟨rfl, rfl, List.prefix_append .., id, .request uid rfl rfl huid hopen⟩
  · exact sameConn_handleError s uid

theorem sameConn_send {message : Bytes} {sizeOk : Bool} :
    SameConn s (s.send message sizeOk) := by
  unfold send
  dsimp only
  split
  · exact .of_conn rfl rfl id
  · split
    next hopen =>
      have hsame := sameConn_sendMessage sizeOk
        (s := { s with sent := s.sent + 1, reqMap := update s.reqMap s.sent message })
        (Nat.lt_succ_self s.sent) hopen
      refine ⟨hsame.past, hsame.received, hsame.output, hsame.isOpen, ?_⟩
      cases hsame.move with
      | keeps hrequests hanswers => exact .keeps hrequests hanswers
      | answer uid resp hrequests hanswers hresp hopen =>
        exact .answer uid resp hrequests hanswers hresp hopen
      | request uid hrequests hanswers huid hopen =>
        exact .request uid hrequests hanswers huid hopen
    next => exact .of_conn rfl rfl id

theorem sameConn_step {cur : Option (Nat × Op)} (h : Serving s cur) (hown : e.own = true)
    (hopens : e.opens = false) (hstep : step s e = some s') : SameConn s s' := by
  cases e <;> simp only [step] at hstep
  case send message sizeOk =>
    cases hstep
    exact sameConn_send
  case resolved uid ok =>
    split at hstep
    next =>
      cases ok with
      | true => cases hopens
      | false =>
        cases hstep
        exact sameConn_handleError s uid
    next => cases hstep
  case connected uid ok sizeOk =>
    split at hstep
    next hop =>
      obtain rfl := h.cur_eq hop
      split at hstep
      next hok =>
        cases hstep
        have hsame := sameConn_sendMessage sizeOk (s := { s with connected := true })
          (h.booked.known uid rfl) hok.2
        refine ⟨hsame.past, hsame.received, hsame.output, hsame.isOpen, ?_⟩
        cases hsame.move with
        | keeps hrequests hanswers => exact .keeps hrequests hanswers
        | answer uid resp hrequests hanswers hresp hopen =>
          exact .answer uid resp hrequests hanswers hresp hopen
        | request uid hrequests hanswers huid hopen =>
          exact .request uid hrequests hanswers huid hopen
      next =>
        cases hstep
        exact sameConn_handleError s uid
    next => cases hstep
  case wrote uid n =>
    split at hstep
    next =>
      split at hstep
      · cases hstep
        exact ⟨rfl, rfl, List.prefix_append .., id, .keeps rfl rfl⟩
      · cases hstep
    next => cases hstep
  case headerRead uid =>
    split at hstep
    next =>
      split at hstep
      · cases hstep
        unfold recvMessage
        dsimp only
        split
        · exact .of_conn rfl rfl id
        · exact .of_conn rfl rfl id
      · cases hstep
    next => cases hstep
  case readSome uid n =>
    split at hstep
    next size got hop =>
      obtain rfl := h.cur_eq hop
      split at hstep
      · cases hstep
        split
        next hlen =>
          have hresp := hlen ▸ h.stage.2.2.1
          unfold responseRead
          split
          · exact .of_conn rfl rfl id
          · exact ⟨rfl, rfl, List.prefix_rfl, id, .answer uid _ rfl rfl hresp h.stage.1⟩
        next => exact .of_conn rfl rfl id
      · cases hstep
    next => cases hstep
  case failed uid =>
    have hfail : SameConn s (s.handleError uid) := sameConn_handleError s uid
    split at hstep
    · cases hstep
      exact hfail
    · split at hstep
      · cases hstep
      · cases hstep
        exact hfail
    · cases hstep
      exact hfail
    · cases hstep
      exact hfail
    · cases hstep
  case serverSends => cases hown
  case serverCloses => cases hown
  case serverResets => cases hown

/-- The messages that were sent stay known. -/
def SameMessages (s s' : Client) : Prop := s'.sent = s.sent ∧ s'.reqMap = s.reqMap

theorem sameMessages_handleError (s : Client) (uid : Nat) : SameMessages s (s.handleError uid) := by
  unfold handleError
  dsimp only
  split
  · exact ⟨rfl, rfl⟩
  · exact ⟨rfl, rfl⟩

theorem sameMessages_sendMessage (s : Client) (uid : Nat) (sizeOk : Bool) :
    SameMessages s (s.sendMessage uid sizeOk) := by
  unfold sendMessage
  dsimp only
  split
  · exact ⟨rfl, rfl⟩
  · exact sameMessages_handleError s uid

theorem messages_send (s : Client) (message : Bytes) (sizeOk : Bool) :
    (s.send message sizeOk).sent = s.sent + 1 ∧
      (s.send message sizeOk).reqMap = update s.reqMap s.sent message := by
  unfold send
  dsimp only
  split
  · exact ⟨rfl, rfl⟩
  · split
    · exact sameMessages_sendMessage
        { s with sent := s.sent + 1, reqMap := update s.reqMap s.sent message } s.sent sizeOk
    · exact ⟨rfl, rfl⟩

theorem sameMessages_step (hsend : ∀ message sizeOk, e ≠ .send message sizeOk)
    (hstep : step s e = some s') : SameMessages s s' := by
  have hfail (uid : Nat) := sameMessages_handleError s uid
  cases e <;> simp only [step] at hstep
  case send message sizeOk => exact absurd rfl (hsend message sizeOk)
  case resolved uid ok =>
    split at hstep
    next =>
      cases hstep
      split
      · exact ⟨rfl, rfl⟩
      · exact hfail uid
    next => cases hstep
  case connected uid ok sizeOk =>
    split at hstep
    next =>
      split at hstep
      · cases hstep
        exact sameMessages_sendMessage { s with connected := true } uid sizeOk
      · cases hstep
        exact hfail uid
    next => cases hstep
  case wrote uid n =>
    split at hstep
    next =>
      split at hstep
      · cases hstep
        exact ⟨rfl, rfl⟩
      · cases hstep
    next => cases hstep
  case headerRead uid =>
    split at hstep
    next =>
      split at hstep
      · cases hstep
        unfold recvMessage
        dsimp only
        split
        · exact ⟨rfl, rfl⟩
        · exact ⟨rfl, rfl⟩
      · cases hstep
    next => cases hstep
  case readSome uid n =>
    split at hstep
    next =>
      split at hstep
      · cases hstep
        split
        · unfold responseRead
          split
          · exact ⟨rfl, rfl⟩
          · exact ⟨rfl, rfl⟩
        · exact ⟨rfl, rfl⟩
      · cases hstep
    next => cases hstep
  case failed uid =>
    split at hstep
    · cases hstep
      exact hfail uid
    · split at hstep
      · cases hstep
      · cases hstep
        exact hfail uid
    · cases hstep
      exact hfail uid
    · cases hstep
      exact hfail uid
    · cases hstep
  case serverSends bytes =>
    split at hstep
    · cases hstep
      exact ⟨rfl, rfl⟩
    · cases hstep
  case serverCloses =>
    split at hstep
    · cases hstep
      exact ⟨rfl, rfl⟩
    · cases hstep
  case serverResets =>
    split at hstep
    · cases hstep
      exact ⟨rfl, rfl⟩
    · cases hstep

end Client

end EnclaveRaft.Host
