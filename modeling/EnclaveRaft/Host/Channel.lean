import EnclaveRaft.Host.Streams

/-!
# A client and the sessions at the other end

An `asio_rpc_client` and the `asio_rpc_session`s that serve its connections, one after the other,
with the network between them. What is written on one side arrives at the other in the same order
and in pieces of any size.

Put together, the two ends are a remote call: what the client reports for a request is what the
handler of a session has returned for the message of this request.
-/

namespace EnclaveRaft.Host

/-! ## The two ends -/

/-- A client, the session that serves its latest connection, and how many bytes of what either side
has written on it have arrived at the other. -/
structure Channel where
  client : Client := {}
  session : Session := Session.start []
  delivered : Nat := 0
  returned : Nat := 0

namespace Channel

inductive Event
  /-- The client sends a message, or one of its operations completes. -/
  | client (e : Client.Event)
  /-- Bytes of the client arrive. -/
  | deliver (n : Nat)
  | session (e : Session.Event)
  /-- Bytes of the session arrive. -/
  | back (n : Nat)
  /-- The session closes the connection. -/
  | close
  /-- The connection is reset. -/
  | reset
  deriving DecidableEq

/-- The connections of the client, from the first to the latest. -/
def conns (ch : Channel) : List Connection := ch.client.past.reverse ++ [ch.client.conn]

variable (handlers : Nat → Session.Handler)

/-- The handlers of the sessions may answer each time as they like; the session of connection `k`
has handler `k`. The stream of a session ends when the client has closed the socket. -/
def step (ch : Channel) : Event → Option Channel
  | .client e =>
    if e.own then
      (ch.client.step e).map fun c => if e.opens then { client := c } else { ch with client := c }
    else none
  | .deliver n =>
    if n ≤ ch.client.conn.output.length - ch.delivered then
      some { ch with
        session := ch.session.extend ((ch.client.conn.output.drop ch.delivered).take n)
        delivered := ch.delivered + n }
    else none
  | .session e =>
    if e = .eof ∧ ch.client.isOpen then none
    else (ch.session.step (handlers ch.client.past.length) e).map fun s => { ch with session := s }
  | .back n =>
    if n ≤ ch.session.output.length - ch.returned then
      (ch.client.step (.serverSends ((ch.session.output.drop ch.returned).take n))).map fun c =>
        { ch with client := c, returned := ch.returned + n }
    else none
  | .close => (ch.client.step .serverCloses).map fun c => { ch with client := c }
  | .reset => (ch.client.step .serverResets).map fun c => { ch with client := c }

/-- Messages in `P` are sent one at a time, no session closes the connection of a request that was
written and whose response has not begun, and none is reset between the last byte of a response and
its report. -/
def Serial (P : Bytes → Prop) (ch : Channel) : Event → Prop
  | .client (.send message _) => (∀ uid < ch.client.sent, ch.client.ops uid = none) ∧ P message
  | .client (.wrote uid n) =>
    (ch.client.ops uid).all (Client.Op.goesOn n) ∨ ¬ch.client.closedByServer
  | .client (.readSome uid n) => (ch.client.ops uid).all (Client.Op.readsOn n) ∨ ¬ch.client.reset
  | .close => ∀ uid < ch.client.sent, ch.client.ops uid ≠ some .header
  | _ => True

theorem Serial.mono {P Q : Bytes → Prop} (hPQ : ∀ m, P m → Q m) {ch : Channel} {e : Event}
    (h : Serial P ch e) : Serial Q ch e := by
  unfold Serial at h ⊢
  split at h
  · exact ⟨h.1, hPQ _ h.2⟩
  · exact h
  · exact h
  · exact h
  · trivial

instance decidableSerial (P : Bytes → Prop) [DecidablePred P] (ch : Channel) :
    (e : Event) → Decidable (Serial P ch e)
  | .client (.send message _) =>
    inferInstanceAs (Decidable ((∀ uid < ch.client.sent, ch.client.ops uid = none) ∧ P message))
  | .client (.wrote uid n) => inferInstanceAs (Decidable
      ((ch.client.ops uid).all (Client.Op.goesOn n) = true ∨ ¬ch.client.closedByServer = true))
  | .client (.readSome uid n) => inferInstanceAs (Decidable
      ((ch.client.ops uid).all (Client.Op.readsOn n) = true ∨ ¬ch.client.reset = true))
  | .close => inferInstanceAs (Decidable (∀ uid < ch.client.sent, ch.client.ops uid ≠ some .header))
  | .client (.resolved _ _) => isTrue trivial
  | .client (.connected _ _ _) => isTrue trivial
  | .client (.headerRead _) => isTrue trivial
  | .client (.failed _) => isTrue trivial
  | .client (.serverSends _) => isTrue trivial
  | .client .serverCloses => isTrue trivial
  | .client .serverResets => isTrue trivial
  | .deliver _ => isTrue trivial
  | .session _ => isTrue trivial
  | .back _ => isTrue trivial
  | .reset => isTrue trivial

/-! ## The invariant -/

/-- The responses on a connection are what the handler has returned for the requests. -/
def Correct (handler : Session.Handler) (c : Connection) : Prop :=
  ∀ (j uid : Nat) (resp : Bytes), c.answers[j]? = some (uid, resp) →
    ∃ m r, c.requests[j]? = some (uid, m) ∧ handler j m = some r ∧ r.1 = resp

/-- A connection that is open: the session works on what the client writes, and the client receives
what the session writes. -/
structure Live (handler : Session.Handler) (ch : Channel) : Prop where
  delivered : ch.delivered ≤ ch.client.conn.output.length
  returned : ch.returned ≤ ch.session.output.length
  received : ch.client.conn.received = ch.session.output.take ch.returned
  running : ch.session.phase ≠ .stopped
  serves : Session.Serves handler (ch.client.conn.requests.map Prod.snd)
    (ch.session.extend ((frames ch.client.conn.requests).drop ch.delivered))

structure Sound (P : Bytes → Prop) (handlers : Nat → Session.Handler) (ch : Channel) : Prop where
  serving : ∃ cur, Client.Serving ch.client cur
  sent : ∀ uid < ch.client.sent, P (ch.client.reqMap uid)
  known : ∀ c ∈ ch.conns, ∀ x ∈ c.requests, x.1 < ch.client.sent ∧ x.2 = ch.client.reqMap x.1
  small : ∀ a ∈ ch.client.conn.answers, a.2.length < 2 ^ 31
  correct : ∀ i c, ch.conns[i]? = some c → Correct (handlers i) c
  live : ch.client.isOpen = true → Live (handlers ch.client.past.length) ch

variable {P : Bytes → Prop} {handlers} {handler : Session.Handler} {ch ch' : Channel}

/-- What has come back are the first answers of the session. -/
theorem Live.answers_prefix {x : Bytes} (h : Live handler ch)
    (hanswers : ∀ a ∈ ch.client.conn.answers, a.2.length < 2 ^ 31)
    (hreceived : frames ch.client.conn.answers ++ x <+: ch.client.conn.received) :
    ∃ cs, ch.session.answers.map Subtype.val = ch.client.conn.answers.map Prod.snd ++ cs ∧
      x <+: cs.flatMap frame := by
  have houtput : ch.session.output <+: (ch.session.answers.map Subtype.val).flatMap frame := by
    rw [List.flatMap_map]
    exact ⟨_, h.serves.output⟩
  rw [h.received, frames_eq] at hreceived
  refine flatMap_frame_prefix ?_ ?_ ((hreceived.trans (List.take_prefix ..)).trans houtput)
  · intro a ha
    obtain ⟨x, hx, rfl⟩ := List.mem_map.1 ha
    have hlt := hanswers x hx
    omega
  · intro b hb
    obtain ⟨r, -, rfl⟩ := List.mem_map.1 hb
    exact r.2

theorem Live.correct (h : Live handler ch) (hpaired : ch.client.conn.Paired)
    (hanswers : ∀ a ∈ ch.client.conn.answers, a.2.length < 2 ^ 31) :
    Correct handler ch.client.conn := by
  obtain ⟨cs, hsplit, -⟩ := h.answers_prefix (x := []) hanswers
    (by rw [List.append_nil]; exact hpaired.received)
  intro j uid resp hj
  -- the response is the answer of the session to its call number `j`
  have hsession : (ch.session.answers.map Subtype.val)[j]? = some resp := by
    rw [hsplit, List.getElem?_append_left]
    · rw [List.getElem?_map, hj]
      rfl
    · rw [List.length_map]
      exact (List.getElem?_eq_some_iff.1 hj).1
  rw [List.getElem?_map] at hsession
  obtain ⟨r, hr, rfl⟩ := Option.map_eq_some_iff.1 hsession
  have hget : ch.session.answers[j]? = ch.session.calls[j]?.bind (handler j) :=
    h.serves.answers.get j
  rw [hr] at hget
  obtain ⟨m, hm, hanswer⟩ := Option.bind_eq_some_iff.1 hget.symm
  -- which is on the message of request number `j`
  obtain ⟨todo, hpayloads, -⟩ := h.serves.unread
  have hmessage : (ch.client.conn.requests.map Prod.snd)[j]? = some m := by
    rw [hpayloads]
    show (ch.session.calls ++ todo)[j]? = some m
    rw [List.getElem?_append_left (List.getElem?_eq_some_iff.1 hm).1]
    exact hm
  have huid : (ch.client.conn.requests.map Prod.fst)[j]? = some uid := by
    obtain ⟨more, hmore⟩ := hpaired.order
    have hfst : (ch.client.conn.answers.map Prod.fst)[j]? = some uid := by
      rw [List.getElem?_map, hj]
      rfl
    rw [← hmore, List.getElem?_append_left (List.getElem?_eq_some_iff.1 hfst).1]
    exact hfst
  rw [List.getElem?_map] at hmessage huid
  obtain ⟨x, hx, rfl⟩ := Option.map_eq_some_iff.1 hmessage
  rw [hx] at huid
  cases huid
  exact ⟨x.2, r, hx, hanswer, rfl⟩

theorem Correct.congr {c c' : Connection} (h : Correct handler c)
    (hrequests : c'.requests = c.requests) (hanswers : c'.answers = c.answers) :
    Correct handler c' := by
  intro j uid resp hj
  rw [hrequests]
  exact h j uid resp (hanswers ▸ hj)

/-! ## The events of the client -/

theorem correct_of_conn (h : ∀ i c, ch.conns[i]? = some c → Correct (handlers i) c)
    (hpast : ch'.client.past = ch.client.past)
    (hconn : Correct (handlers ch.client.past.length) ch'.client.conn) (i : Nat) (c : Connection)
    (hc : ch'.conns[i]? = some c) : Correct (handlers i) c := by
  unfold conns at hc h
  rw [hpast] at hc
  rcases Nat.lt_trichotomy i ch.client.past.length with hi | rfl | hi
  · rw [List.getElem?_append_left (by simpa using hi)] at hc
    exact h i c (by rw [List.getElem?_append_left (by simpa using hi)]; exact hc)
  · rw [List.getElem?_append_right (by simp)] at hc
    simp only [List.length_reverse, Nat.sub_self, List.getElem?_cons_zero] at hc
    cases hc
    exact hconn
  · rw [List.getElem?_eq_none (by simp; omega)] at hc
    cases hc

/-- Messages are only added. -/
structure Grows (c c' : Client) : Prop where
  sent : c.sent ≤ c'.sent
  reqMap : ∀ uid < c.sent, c'.reqMap uid = c.reqMap uid

theorem grows_of_sameMessages {c c' : Client} (h : Client.SameMessages c c') : Grows c c' :=
  ⟨h.1.ge, fun uid _ => by rw [h.2]⟩

theorem Sound.grows {e : Client.Event} {c : Client} (h : Sound P handlers ch)
    (hserial : Serial P ch (.client e)) (hstep : ch.client.step e = some c) :
    Grows ch.client c ∧ ∀ uid < c.sent, P (c.reqMap uid) := by
  by_cases hsend : ∃ message sizeOk, e = .send message sizeOk
  · obtain ⟨message, sizeOk, rfl⟩ := hsend
    cases hstep
    obtain ⟨hsent, hreqMap⟩ := ch.client.messages_send message sizeOk
    refine ⟨⟨by omega, fun uid huid => ?_⟩, fun uid huid => ?_⟩
    · rw [hreqMap, Function.update_of_ne (by omega)]
    · rw [hreqMap]
      by_cases hnew : uid = ch.client.sent
      · rw [hnew, Function.update_self]
        exact hserial.2
      · rw [Function.update_of_ne hnew]
        exact h.sent uid (by omega)
  · have hsame := Client.sameMessages_step (fun m k he => hsend ⟨m, k, he⟩) hstep
    refine ⟨grows_of_sameMessages hsame, ?_⟩
    rw [hsame.1, hsame.2]
    exact h.sent

theorem Sound.known_of_grows {c : Client} (h : Sound P handlers ch) (hgrows : Grows ch.client c) :
    ∀ c' ∈ ch.conns, ∀ x ∈ c'.requests, x.1 < c.sent ∧ x.2 = c.reqMap x.1 := by
  intro c' hc' x hx
  obtain ⟨huid, hmessage⟩ := h.known c' hc' x hx
  exact ⟨huid.trans_le hgrows.sent, by rw [hmessage, hgrows.reqMap _ huid]⟩

/-- The size that the client reads next is that of a response. -/
theorem Sound.size_lt {uid : Nat} (h : Sound P handlers ch)
    (hsmall : ∀ k, Session.Small (handlers k)) (hop : ch.client.ops uid = some .header)
    (hlen : 4 ≤ ch.client.input.length) : leNat (ch.client.input.take 4) < 2 ^ 31 := by
  obtain ⟨cur, hserving⟩ := h.serving
  obtain rfl := hserving.cur_eq hop
  obtain ⟨hopen, -, -, before, m, -, hans, -⟩ := hserving.stage
  have hlive := h.live hopen
  obtain ⟨cs, hsplit, hinput⟩ := hlive.answers_prefix (x := ch.client.input) h.small
    (hans.received ▸ List.prefix_rfl)
  cases cs with
  | nil =>
    have hnil := List.prefix_nil.1 hinput
    rw [hnil] at hlen
    cases hlen
  | cons r cs =>
    -- `r` is an answer of the handler
    have hmem : r ∈ ch.session.answers.map Subtype.val := by
      rw [hsplit]
      exact List.mem_append_right _ List.mem_cons_self
    obtain ⟨a, ha, rfl⟩ := List.mem_map.1 hmem
    obtain ⟨j, hj⟩ := List.mem_iff_getElem?.1 ha
    have hget : ch.session.answers[j]? =
        ch.session.calls[j]?.bind (handlers ch.client.past.length j) :=
      hlive.serves.answers.get j
    rw [hj] at hget
    obtain ⟨p, -, hp⟩ := Option.bind_eq_some_iff.1 hget.symm
    have hlt := hsmall _ _ _ _ hp
    have htake : ch.client.input.take 4 = leBytes 4 a.1.length := by
      obtain ⟨y, hy⟩ := hinput
      rw [List.flatMap_cons, frame, List.append_assoc] at hy
      have htake := congrArg (List.take 4) hy
      rw [List.take_append_of_le_length hlen, List.take_left' (length_leBytes _ _)] at htake
      exact htake
    rw [htake, leNat_leBytes a.2]
    exact hlt

/-- Messages that fit a frame. -/
def Fits (P : Bytes → Prop) : Prop := ∀ m, P m → 1 ≤ m.length ∧ m.length < 2 ^ 31

theorem Sound.serial {e : Client.Event} {c : Client} (h : Sound P handlers ch) (hfits : Fits P)
    (hsmall : ∀ k, Session.Small (handlers k)) (hown : e.own = true)
    (hserial : Serial P ch (.client e)) (hstep : ch.client.step e = some c) :
    Client.Serial ch.client e := by
  cases e with
  | send message sizeOk => exact ⟨hserial.1, (hfits message hserial.2).2⟩
  | wrote uid n => exact hserial
  | readSome uid n => exact hserial
  | headerRead uid =>
    simp only [Client.step] at hstep
    split at hstep
    next hop =>
      split at hstep
      next hlen => exact h.size_lt hsmall hop hlen.2
      next => cases hstep
    next => cases hstep
  | serverCloses => cases hown
  | serverResets => cases hown
  | resolved => trivial
  | connected => trivial
  | failed => trivial
  | serverSends => trivial

/-- The other end closes or resets the connection. -/
theorem Live.same_conn {c : Client} (h : Live handler ch) (hconn : c.conn = ch.client.conn) :
    Live handler { ch with client := c } :=
  ⟨hconn ▸ h.delivered, h.returned, hconn ▸ h.received, h.running, hconn ▸ h.serves⟩

/-- What an event of the client does to a connection that stays open. -/
theorem Live.client {c : Client} (h : Live handler ch) (hsame : Client.SameConn ch.client c)
    (hpaired : ch.client.conn.Paired) : Live handler { ch with client := c } := by
  have hle : ch.delivered ≤ (frames ch.client.conn.requests).length :=
    h.delivered.trans hpaired.output.length_le
  refine ⟨h.delivered.trans hsame.output.length_le, h.returned, hsame.received.trans h.received,
    h.running, ?_⟩
  show Session.Serves handler (c.conn.requests.map Prod.snd)
    (ch.session.extend ((frames c.conn.requests).drop ch.delivered))
  cases hsame.move with
  | keeps hrequests => rw [hrequests]; exact h.serves
  | answer _ _ hrequests => rw [hrequests]; exact h.serves
  | request uid hrequests =>
    rw [hrequests, List.map_append, Client.frames_concat, List.drop_append_of_le_length hle]
    exact h.serves.concat h.running _

theorem Sound.client {e : Client.Event} {c : Client} (h : Sound P handlers ch) (hfits : Fits P)
    (hsmall : ∀ k, Session.Small (handlers k)) (hown : e.own = true) (hopens : e.opens = false)
    (hserial : Serial P ch (.client e)) (hstep : ch.client.step e = some c) :
    Sound P handlers { ch with client := c } := by
  obtain ⟨cur, hserving⟩ := h.serving
  have hclient := h.serial hfits hsmall hown hserial hstep
  have hserving' := Client.serving_step ⟨cur, hserving⟩ hclient hstep
  have hsame := Client.sameConn_step hserving hown hopens hstep
  obtain ⟨hgrows, hsent⟩ := h.grows hserial hstep
  have hsmall' : ∀ a ∈ c.conn.answers, a.2.length < 2 ^ 31 := by
    cases hsame.move with
    | keeps _ hanswers => rw [hanswers]; exact h.small
    | answer uid resp _ hanswers hresp =>
      rw [hanswers]
      intro a ha
      rcases List.mem_append.1 ha with ha | ha
      · exact h.small a ha
      · cases List.mem_singleton.1 ha
        exact hresp
    | request _ _ hanswers => rw [hanswers]; exact h.small
  have hlive : c.isOpen = true → Live (handlers ch.client.past.length) { ch with client := c } :=
    fun hopen => (h.live (hsame.isOpen hopen)).client hsame
      (hserving.booked.conns _ List.mem_cons_self)
  refine ⟨hserving', hsent, ?_, hsmall', ?_, fun hopen => ?_⟩
  · intro c' hc' x hx
    rcases List.mem_append.1 hc' with hc' | hc'
    · exact h.known_of_grows hgrows c' (List.mem_append_left _ (hsame.past ▸ hc')) x hx
    · cases List.mem_singleton.1 hc'
      have hold : ∀ x ∈ ch.client.conn.requests, x.1 < c.sent ∧ x.2 = c.reqMap x.1 :=
        h.known_of_grows hgrows _ (List.mem_append_right _ List.mem_cons_self)
      cases hsame.move with
      | keeps hrequests => exact hold x (hrequests ▸ hx)
      | answer _ _ hrequests => exact hold x (hrequests ▸ hx)
      | request uid hrequests _ huid =>
        rcases List.mem_append.1 (hrequests ▸ hx) with hx | hx
        · exact hold x hx
        · cases List.mem_singleton.1 hx
          exact ⟨huid, rfl⟩
  · refine correct_of_conn h.correct hsame.past ?_
    by_cases hopen : c.isOpen = true
    · obtain ⟨cur', hserving'⟩ := hserving'
      exact (hlive hopen).correct (hserving'.booked.conns _ List.mem_cons_self) hsmall'
    · have hcorrect : Correct (handlers ch.client.past.length) ch.client.conn :=
        h.correct _ _ (by simp [conns])
      cases hsame.move with
      | keeps hrequests hanswers => exact hcorrect.congr hrequests hanswers
      | answer _ _ _ _ _ hopen' => exact absurd hopen' hopen
      | request _ _ _ _ hopen' => exact absurd hopen' hopen
  · show Live (handlers c.past.length) _
    rw [hsame.past]
    exact hlive hopen

theorem Sound.opens {e : Client.Event} {c : Client} (h : Sound P handlers ch)
    (hopens : e.opens = true) (hserial : Serial P ch (.client e))
    (hstep : ch.client.step e = some c) : Sound P handlers { client := c } := by
  obtain ⟨hgrows, hsent⟩ := h.grows hserial hstep
  obtain ⟨uid, rfl⟩ : ∃ uid, e = .resolved uid true := by
    unfold Client.Event.opens at hopens
    split at hopens
    · exact ⟨_, rfl⟩
    · cases hopens
  have hserving := Client.serving_step h.serving (e := .resolved uid true) trivial hstep
  obtain rfl : ch.client.connect uid = c := by
    simp only [Client.step] at hstep
    split at hstep
    · cases hstep
      rfl
    · cases hstep
  have hconns : conns { client := ch.client.connect uid } = ch.conns ++ [⟨[], [], [], []⟩] := by
    simp [conns, Client.connect]
  refine ⟨hserving, hsent, ?_, (fun a ha => by cases ha), ?_, fun _ => ?_⟩
  · intro c hc x hx
    rcases List.mem_append.1 (hconns ▸ hc) with hc | hc
    · exact h.known_of_grows hgrows c hc x hx
    · cases List.mem_singleton.1 hc
      cases hx
  · intro i c hc
    rw [hconns] at hc
    by_cases hi : i < ch.conns.length
    · rw [List.getElem?_append_left hi] at hc
      exact h.correct i c hc
    · rw [List.getElem?_append_right (Nat.le_of_not_lt hi)] at hc
      have hmem := List.mem_of_getElem? hc
      cases List.mem_singleton.1 hmem
      intro j uid resp hj
      cases hj
  · exact ⟨Nat.le_refl _, Nat.le_refl _, rfl, by simp [Session.start], Session.serves_start _ []⟩

/-! ## The network and the session -/

theorem Live.deliver {n : Nat} (h : Live handler ch) (hpaired : ch.client.conn.Paired)
    (hn : n ≤ ch.client.conn.output.length - ch.delivered) :
    Live handler { ch with
      session := ch.session.extend ((ch.client.conn.output.drop ch.delivered).take n)
      delivered := ch.delivered + n } := by
  have hle := h.delivered
  refine ⟨?_, h.returned, h.received, h.running, ?_⟩
  · show ch.delivered + n ≤ ch.client.conn.output.length
    omega
  · obtain ⟨rest, hrest⟩ := hpaired.output
    have hdrop : (frames ch.client.conn.requests).drop ch.delivered =
        (ch.client.conn.output.drop ch.delivered).take n ++
          (frames ch.client.conn.requests).drop (ch.delivered + n) := by
      rw [← List.drop_drop, ← hrest, List.drop_append_of_le_length hle,
        List.drop_append_of_le_length (by rw [List.length_drop]; exact hn), ← List.append_assoc,
        List.take_append_drop]
    have hserves := h.serves
    rw [hdrop, ← Session.extend_extend] at hserves
    exact hserves

theorem output_prefix {s s' : Session} {e : Session.Event}
    (hstep : Session.step handler s e = some s') : s.output <+: s'.output := by
  have heof := hstep
  unfold Session.step at hstep
  cases e with
  | arrive n =>
    cases hphase : s.phase with
    | header =>
      simp only [hphase, Option.ite_none_right_eq_some] at hstep
      obtain ⟨-, hs'⟩ := hstep
      cases hs'
      rw [(Session.pending_handleRequestHeader _).2]
      exact List.prefix_rfl
    | payload =>
      simp only [hphase, Option.ite_none_right_eq_some] at hstep
      obtain ⟨-, hs'⟩ := hstep
      split at hs'
      · cases hs'
        exact List.prefix_rfl
      · cases hs'
        rw [(Session.pending_handleRequest _).2]
        exact List.prefix_rfl
    | written => simp [hphase] at hstep
    | stopped => simp [hphase] at hstep
  | sent n =>
    cases hphase : s.phase with
    | written =>
      simp only [hphase, Option.ite_none_right_eq_some] at hstep
      obtain ⟨-, hs'⟩ := hstep
      split at hs'
      · cases hs'
        rw [(Session.pending_handleWritten _).2]
        exact List.prefix_append ..
      · cases hs'
        exact List.prefix_append ..
    | header => simp [hphase] at hstep
    | payload => simp [hphase] at hstep
    | stopped => simp [hphase] at hstep
  | eof =>
    have houtput := (Session.counts_eof heof).2.2.2
    exact houtput ▸ List.prefix_rfl

theorem Live.session {s : Session} {e : Session.Event} (h : Live handler ch)
    (hanswers : Session.Answers handler (ch.client.conn.requests.map Prod.snd))
    (hsized : Session.Sized (ch.client.conn.requests.map Prod.snd)) (he : e ≠ .eof)
    (hstep : ch.session.step handler e = some s) : Live handler { ch with session := s } := by
  obtain ⟨more, hmore⟩ := output_prefix hstep
  have hextend := Session.step_extend he hstep
    ((frames ch.client.conn.requests).drop ch.delivered)
  have hserves := Session.serves_step hanswers hsized h.serves hextend
  have hrunning := h.serves.running_step hserves he hextend
  refine ⟨h.delivered, ?_, ?_, hrunning, hserves⟩
  · show ch.returned ≤ s.output.length
    rw [← hmore, List.length_append]
    exact Nat.le_add_right_of_le h.returned
  · show ch.client.conn.received = s.output.take ch.returned
    rw [h.received, ← hmore, List.take_append_of_le_length h.returned]

theorem Sound.forall_requests (h : Sound P handlers ch) :
    ∀ p ∈ ch.client.conn.requests.map Prod.snd, P p := by
  intro p hp
  obtain ⟨x, hx, rfl⟩ := List.mem_map.1 hp
  obtain ⟨huid, hmessage⟩ := h.known _ (List.mem_append_right _ List.mem_cons_self) x hx
  rw [hmessage]
  exact h.sent x.1 huid

theorem Live.back {n : Nat} (h : Live handler ch) (hn : n ≤ ch.session.output.length - ch.returned)
    {c : Client} (hconn : c.conn = { ch.client.conn with
      received := ch.client.conn.received ++ (ch.session.output.drop ch.returned).take n }) :
    Live handler { ch with client := c, returned := ch.returned + n } := by
  have hle := h.returned
  refine ⟨?_, ?_, ?_, h.running, ?_⟩
  · show ch.delivered ≤ c.conn.output.length
    rw [hconn]
    exact h.delivered
  · show ch.returned + n ≤ ch.session.output.length
    omega
  · show c.conn.received = ch.session.output.take (ch.returned + n)
    rw [hconn, List.take_add, ← h.received]
  · show Session.Serves handler (c.conn.requests.map Prod.snd)
      (ch.session.extend ((frames c.conn.requests).drop ch.delivered))
    rw [hconn]
    exact h.serves

/-- The client changes nothing that the enclave or the session can see. -/
theorem Sound.of_client {c : Client} (h : Sound P handlers ch) (hclient : ch'.client = c)
    (hserving : ∃ cur, Client.Serving c cur) (hmessages : Client.SameMessages ch.client c)
    (hpast : c.past = ch.client.past) (hrequests : c.conn.requests = ch.client.conn.requests)
    (hanswers : c.conn.answers = ch.client.conn.answers)
    (hlive : c.isOpen = true → Live (handlers ch.client.past.length) ch') :
    Sound P handlers ch' := by
  subst hclient
  refine ⟨hserving, ?_, ?_, hanswers ▸ h.small, ?_, fun hopen => hpast ▸ hlive hopen⟩
  · rw [hmessages.1, hmessages.2]
    exact h.sent
  · intro c' hc' x hx
    rw [hmessages.1, hmessages.2]
    rcases List.mem_append.1 hc' with hc' | hc'
    · exact h.known c' (List.mem_append_left _ (hpast ▸ hc')) x hx
    · cases List.mem_singleton.1 hc'
      exact h.known _ (List.mem_append_right _ List.mem_cons_self) x (hrequests ▸ hx)
  · refine correct_of_conn h.correct hpast ?_
    exact (h.correct ch.client.past.length _ (by simp [conns])).congr hrequests hanswers

theorem Sound.step {e : Event} (h : Sound P handlers ch) (hfits : Fits P)
    (htotal : ∀ k, Session.Total P (handlers k)) (hsmall : ∀ k, Session.Small (handlers k))
    (hserial : Serial P ch e) (hstep : step handlers ch e = some ch') : Sound P handlers ch' := by
  obtain ⟨cur, hserving⟩ := h.serving
  have hpaired := hserving.booked.conns _ List.mem_cons_self
  cases e <;> simp only [Channel.step] at hstep
  case client e =>
    obtain ⟨hown, hstep⟩ := Option.ite_none_right_eq_some.1 hstep
    obtain ⟨c, hc, hch'⟩ := Option.map_eq_some_iff.1 hstep
    cases hopens : e.opens with
    | true =>
      rw [hopens] at hch'
      cases hch'
      exact h.opens hopens hserial hc
    | false =>
      rw [hopens] at hch'
      cases hch'
      exact h.client hfits hsmall hown hopens hserial hc
  case deliver n =>
    obtain ⟨hn, hch'⟩ := Option.ite_none_right_eq_some.1 hstep
    cases hch'
    exact h.of_client rfl h.serving ⟨rfl, rfl⟩ rfl rfl rfl fun hopen =>
      (h.live hopen).deliver hpaired hn
  case session e =>
    obtain ⟨hno, hstep⟩ := Option.ite_none_left_eq_some.1 hstep
    obtain ⟨s, hs, hch'⟩ := Option.map_eq_some_iff.1 hstep
    cases hch'
    have hsized : Session.Sized (ch.client.conn.requests.map Prod.snd) := fun p hp => by
      have hfit := hfits p (h.forall_requests p hp)
      omega
    exact h.of_client rfl h.serving ⟨rfl, rfl⟩ rfl rfl rfl fun hopen =>
      (h.live hopen).session
        (fun j p hp => htotal _ j p (h.forall_requests p (List.mem_of_getElem? hp))) hsized
        (fun he => hno ⟨he, hopen⟩) hs
  case back n =>
    obtain ⟨hn, hstep⟩ := Option.ite_none_right_eq_some.1 hstep
    obtain ⟨c, hc, hch'⟩ := Option.map_eq_some_iff.1 hstep
    cases hch'
    have hserving' := Client.serving_step h.serving (e := .serverSends _) trivial hc
    obtain ⟨-, hsome⟩ := Option.ite_none_right_eq_some.1 hc
    cases hsome
    exact h.of_client rfl hserving' ⟨rfl, rfl⟩ rfl rfl rfl fun hopen => (h.live hopen).back hn rfl
  case close =>
    obtain ⟨c, hc, hch'⟩ := Option.map_eq_some_iff.1 hstep
    cases hch'
    have hserving' := Client.serving_step h.serving (e := .serverCloses) hserial hc
    obtain ⟨-, hsome⟩ := Option.ite_none_right_eq_some.1 hc
    cases hsome
    exact h.of_client rfl hserving' ⟨rfl, rfl⟩ rfl rfl rfl fun hopen => (h.live hopen).same_conn rfl
  case reset =>
    obtain ⟨c, hc, hch'⟩ := Option.map_eq_some_iff.1 hstep
    cases hch'
    have hserving' := Client.serving_step h.serving (e := .serverResets) trivial hc
    obtain ⟨-, hsome⟩ := Option.ite_none_right_eq_some.1 hc
    cases hsome
    exact h.of_client rfl hserving' ⟨rfl, rfl⟩ rfl rfl rfl fun hopen => (h.live hopen).same_conn rfl

theorem sound_start : Sound P handlers {} where
  serving := ⟨none, Client.serving_start⟩
  sent uid h := absurd h (Nat.not_lt_zero uid)
  known c hc x hx := by
    cases List.mem_singleton.1 hc
    cases hx
  small a ha := by cases ha
  correct i c hc := by
    cases List.mem_singleton.1 (List.mem_of_getElem? hc)
    intro j uid resp hj
    cases hj
  live h := by cases h

/-- **A remote call.** However the bytes are cut on their way, and whatever connections fail: when
the client reports a response for a request, there is a connection on which the message of this
request was number `j`, and the response is what the session of that connection has answered to its
message number `j`. -/
theorem calls_are_answered (P : Bytes → Prop) (hfits : Fits P) (handlers : Nat → Session.Handler)
    (htotal : ∀ k, Session.Total P (handlers k)) (hsmall : ∀ k, Session.Small (handlers k))
    (es : List Event) (ch : Channel) (hserial : Machine.Along (step handlers) (Serial P) {} es)
    (hrun : Machine.run (step handlers) {} es = some ch) (uid : Nat) (resp : Bytes)
    (hreport : (uid, some resp) ∈ ch.client.reports) :
    ∃ k c j r, ch.conns[k]? = some c ∧ c.requests[j]? = some (uid, ch.client.reqMap uid) ∧
      handlers k j (ch.client.reqMap uid) = some r ∧ r.1 = resp := by
  have h : Sound P handlers ch :=
    Machine.Along.invariant (fun _ _ _ h hserial hstep => h.step hfits htotal hsmall hserial hstep)
      sound_start hserial hrun
  obtain ⟨cur, hserving⟩ := h.serving
  obtain ⟨c, hc, hanswer⟩ := hserving.booked.responses uid resp hreport
  have hmem : c ∈ ch.conns := by
    rcases List.mem_cons.1 hc with rfl | hc
    · exact List.mem_append_right _ List.mem_cons_self
    · exact List.mem_append_left _ (List.mem_reverse.2 hc)
  obtain ⟨k, hk⟩ := List.mem_iff_getElem?.1 hmem
  obtain ⟨j, hj⟩ := List.mem_iff_getElem?.1 hanswer
  obtain ⟨m, r, hm, hr, hresp⟩ := h.correct k c hk j uid resp hj
  obtain rfl : m = ch.client.reqMap uid := (h.known c hmem (uid, m) (List.mem_of_getElem? hm)).2
  exact ⟨k, c, j, r, hk, hm, hr, hresp⟩

end Channel

end EnclaveRaft.Host
