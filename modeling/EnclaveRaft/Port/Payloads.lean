import EnclaveRaft.Port.ClientRequests
import EnclaveRaft.Provenance
import EnclaveRaft.Wire.LogPack

/-!
# Client payloads and the state machine

A client's payload ends up in the hands of `echo_state_machine`, which takes it for a C string: every
call starts with `get_str`, and `pre_commit` and `commit` make a `std::string` of what it returns.
`handle_client_request` appends eight zero bytes, so that there is an end to the string, but `get_str`
returns a null pointer for an empty string too. A payload that is empty, or that starts with a zero
byte, cannot be applied: the first of them stops the request that brings it.

On its way a payload is copied into logs, into messages and into log packs. `Copied` lists the ways,
and `Copied.eq` says that none of them changes anything.
-/

namespace EnclaveRaft.Port

open Wire

/-! ## The state machine -/

namespace EchoStateMachine

/-- `string msg = data.get_str()`. -/
def getMsg : BufM Bytes := do
  match ← getStr with
  | some msg => return msg
  | none => throw .nullString

/-- `pre_commit`: what it prints. -/
def preCommit (logIdx : Nat) : BufM (Nat × Bytes) := do
  let msg ← getMsg
  return (logIdx, msg.take 64)

def commit (logIdx : Nat) : BufM (Nat × Bytes) := do
  let msg ← getMsg
  return (logIdx, msg.take 64)

/-- `rollback` prints what `get_str` returns, a null pointer or not. -/
def rollback (logIdx : Nat) : BufM (Nat × Option Bytes) := do
  let msg ← getStr
  return (logIdx, msg)

end EchoStateMachine

/-! ## Copies -/

/-- A buffer that has just been filled. -/
def filled (bs : Bytes) (h : bs.length < 2 ^ 31) : Buffer := ⟨bs, 0, h, Nat.zero_le _⟩

/-- `buffer::copy`. -/
def copy (buf : Buffer) : Except Fault Buffer := build (buf.size - buf.pos) (putBuffer buf)

/-- The ways of a buffer through logs, messages and log packs. -/
inductive Copied (buf : Buffer) : Buffer → Prop
  | self : Copied buf buf
  /-- Every access to a log makes a copy. -/
  | clone {b b' : Buffer} (h : Copied buf b) (hb : copy b = .ok b') : Copied buf b'
  /-- The value of an entry of a message, which may hold other entries behind it. -/
  | message {b m l l' : Buffer} {e e' : Wire.LogEntry} {post : Bytes} (h : Copied buf b)
      (he : e.buf = b.data) (hm : e.serialize = .ok m) (hl : l.rest = m.data ++ post)
      (hget : getEntry l = .ok (e', l')) (hlen : e'.buf.length < 2 ^ 31) :
      Copied buf (filled e'.buf hlen)
  /-- The value of an entry of a log pack. -/
  | pack {b m l l' : Buffer} {e e' : Wire.LogEntry} {post : Bytes} (h : Copied buf b)
      (he : e.buf = b.data) (hm : e.pack = .ok m)
      (hl : l.rest = leBytes 4 (Int32.ofNat m.size).toUInt32.toNat ++ m.data ++ post)
      (hget : getRecord l = .ok (e', l')) (hlen : e'.buf.length < 2 ^ 31) :
      Copied buf (filled e'.buf hlen)

theorem copy_eq {b : Buffer} (h : b.pos = 0) : copy b = .ok b := by
  have hrest : b.rest = b.data := by rw [Block.rest, h, List.drop_zero]
  have hbuild : copy b = .ok ⟨b.rest, 0, hrest ▸ b.size_lt, Nat.zero_le _⟩ := by
    refine build_eq (emits_put b.rest) ?_ (hrest ▸ b.size_lt)
    rw [Block.length_rest, Buffer.size_eq]
  rw [hbuild]
  exact congrArg _ (Block.ext hrest h.symm)

/-- A block that could be built is not too large. -/
theorem lt_of_build {n : Nat} {p : BufM Unit} {b : Buffer} (h : build n p = .ok b) : n < 2 ^ 31 := by
  by_contra hge
  rw [build_eq_error (by omega)] at h
  cases h

/-- What a message brings is what was put into it. -/
theorem getEntry_of_serialize {e e' : Wire.LogEntry} {m l l' : Buffer} {post : Bytes}
    (hm : e.serialize = .ok m) (hl : l.rest = m.data ++ post) (hget : getEntry l = .ok (e', l')) :
    e' = e := by
  have hlt := lt_of_build hm
  rw [e.serialize_eq (by rw [e.length_encoding]; omega)] at hm
  cases hm
  rw [parses_getEntry (by omega) l post hl] at hget
  cases hget
  rfl

/-- What a log pack brings is what was put into it. -/
theorem getRecord_of_pack {e e' : Wire.LogEntry} {m l l' : Buffer} {post : Bytes}
    (hm : e.pack = .ok m)
    (hl : l.rest = leBytes 4 (Int32.ofNat m.size).toUInt32.toNat ++ m.data ++ post)
    (hget : getRecord l = .ok (e', l')) : e' = e := by
  have hlt := lt_of_build hm
  have hlen : e.packed.length < 2 ^ 31 := by rw [e.length_packed]; omega
  rw [e.pack_eq hlen] at hm
  cases hm
  rw [Buffer.size_eq] at hl
  rw [parses_getRecord e hlen l post hl] at hget
  cases hget
  rfl

/-- Copies of a buffer that has just been filled are the buffer again. -/
theorem Copied.eq {buf b : Buffer} (h : Copied buf b) (hpos : buf.pos = 0) : b = buf := by
  induction h with
  | self => rfl
  | clone _ hb ih =>
    rw [ih, copy_eq hpos] at hb
    exact (Except.ok.inj hb).symm
  | message _ he hm hl hget hlen ih =>
    cases getEntry_of_serialize hm hl hget
    exact Block.ext (he.trans (congrArg Block.data ih)) hpos.symm
  | pack _ he hm hl hget hlen ih =>
    cases getRecord_of_pack hm hl hget
    exact Block.ext (he.trans (congrArg Block.data ih)) hpos.symm

/-! ## Payloads that can be applied -/

/-- `get_str` finds a string in every copy of a client's payload. -/
def Reads (log : Bytes) : Prop :=
  ∀ (h : log.length < 2 ^ 31) (b : Buffer), Copied (filled log h) b →
    ∃ s b', getStr b = .ok (some s, b')

/-- The string that an item of the array stands for begins with a byte other than zero. -/
def Printable (decode : Bytes → Option Bytes) (item : Json) : Prop :=
  ∃ c rest, decode item.stringValue = some (c :: rest) ∧ c ≠ 0

/-- A call that begins by making a string succeeds where there is one to read. -/
theorem getMsg_bind_iff {f : Bytes → Nat × Bytes} {b : Buffer} :
    (∃ r, (do let msg ← EchoStateMachine.getMsg; return f msg : BufM (Nat × Bytes)) b = .ok r) ↔
      ∃ s b', getStr b = .ok (some s, b') := by
  unfold EchoStateMachine.getMsg
  simp only [bind, StateT.bind, Except.bind]
  rcases getStr b with e | ⟨_ | s, b'⟩
  · simp
  · constructor
    · rintro ⟨r, h⟩
      cases h
    · simp
  · constructor
    · exact fun _ => ⟨s, b', rfl⟩
    · exact fun _ => ⟨_, rfl⟩

theorem getStr_filled_iff {log : Bytes} (hlen : log.length < 2 ^ 31) :
    (∃ s b', getStr (filled log hlen) = .ok (some s, b')) ↔ (Payload.bytes log).holdsString := by
  have hrest : (filled log hlen).rest = log := rfl
  have hsize : (filled log hlen).size = log.length := Buffer.size_eq _
  unfold getStr Payload.holdsString
  dsimp only
  rw [hrest, hsize, show (filled log hlen).pos = 0 from rfl, Nat.zero_add]
  split
  next h =>
    simp only [Bool.and_eq_true, decide_eq_true_eq]
    constructor
    · rintro ⟨s, b', hget⟩
      cases hget
    · rintro ⟨hpos, hlt⟩
      omega
  next h =>
    simp only [Bool.and_eq_true, decide_eq_true_eq]
    exact ⟨fun _ => by omega, fun _ => ⟨_, _, rfl⟩⟩

/-- **The state machine of the servers.** It takes the entries that `echo_state_machine` takes. -/
theorem echoStateMachine_takes_iff {log : Bytes} (hlen : log.length < 2 ^ 31) (idx : Nat) :
    (echoStateMachine.preCommit (.bytes log) ↔
        ∃ r, EchoStateMachine.preCommit idx (filled log hlen) = .ok r) ∧
      (echoStateMachine.commit (.bytes log) ↔
        ∃ r, EchoStateMachine.commit idx (filled log hlen) = .ok r) := by
  have hmsg : echoStateMachine.preCommit (.bytes log) ↔ ∃ r, (do
      let msg ← EchoStateMachine.getMsg; return (idx, msg.take 64) : BufM (Nat × Bytes))
        (filled log hlen) = .ok r := by
    rw [getMsg_bind_iff, getStr_filled_iff]
    rfl
  exact ⟨hmsg, hmsg⟩

theorem reads_iff_holdsString {log : Bytes} (hlen : log.length < 2 ^ 31) :
    Reads log ↔ (Payload.bytes log).holdsString := by
  rw [← getStr_filled_iff hlen]
  constructor
  · exact fun h => h hlen _ .self
  · intro h hlen' b hb
    rw [hb.eq rfl]
    exact h

theorem reads_iff {log : Bytes} (hlen : log.length < 2 ^ 31) (h0 : 0 ∈ log) :
    Reads log ↔ ∃ c post, log = c :: post ∧ c ≠ 0 := by
  rw [reads_iff_holdsString hlen, ← getStr_filled_iff hlen]
  exact getStr_iff (b := filled log hlen) h0

/-- What an accepted item contributes. -/
theorem clientLog_ok {decode : Bytes → Option Bytes} {item : Json} {log : Bytes}
    (h : clientLog decode item = .ok log) : log.length < 2 ^ 31 ∧ 0 ∈ log ∧
      ((∃ c post, log = c :: post ∧ c ≠ 0) ↔ Printable decode item) := by
  unfold clientLog at h
  cases hdec : decode item.stringValue with
  | none =>
    rw [hdec] at h
    cases h
  | some bs =>
    rw [hdec] at h
    dsimp only at h
    split at h
    next hlt =>
      cases h
      refine ⟨by simpa using hlt, by simp, ?_⟩
      rw [Printable, hdec]
      cases bs with
      | nil => simp [List.replicate]
      | cons c rest => simp
    next => cases h

/-- The payloads are those of the items. -/
theorem clientLogs_ok {decode : Bytes → Option Bytes} {body : Json} {logs : List Bytes}
    (h : clientLogs decode body = .ok logs) :
    (∀ item ∈ body.arrayItems, ∃ log ∈ logs, clientLog decode item = .ok log) ∧
      ∀ log ∈ logs, ∃ item ∈ body.arrayItems, clientLog decode item = .ok log := by
  unfold clientLogs at h
  generalize body.arrayItems = items at h ⊢
  induction items generalizing logs with
  | nil =>
    cases h
    simp
  | cons item items ih =>
    rw [List.mapM_cons] at h
    cases hitem : clientLog decode item with
    | error e =>
      rw [hitem] at h
      cases h
    | ok log =>
      rw [hitem] at h
      cases hrest : items.mapM (clientLog decode) with
      | error e =>
        rw [hrest] at h
        cases h
      | ok rest =>
        rw [hrest] at h
        cases h
        obtain ⟨hitems, hlogs⟩ := ih hrest
        constructor
        · intro i hi
          rcases List.mem_cons.1 hi with rfl | hi
          · exact ⟨log, List.mem_cons_self, hitem⟩
          · obtain ⟨l, hl, hok⟩ := hitems i hi
            exact ⟨l, List.mem_cons_of_mem _ hl, hok⟩
        · intro l hl
          rcases List.mem_cons.1 hl with rfl | hl
          · exact ⟨item, List.mem_cons_self, hitem⟩
          · obtain ⟨i, hi, hok⟩ := hlogs l hl
            exact ⟨i, List.mem_cons_of_mem _ hi, hok⟩

/-! ## Runs -/

/-- A call is given a client's payload, with a string in every copy of it, or the store's
placeholder, where no client's payload looks like it. -/
def Applies (given : List Bytes) (buf : Payload) : Prop :=
  (∃ log ∈ given, buf = .bytes log ∧ Reads log) ∨
    (buf = LogStore.placeholder.buf ∧ ∀ log ∈ given, buf ≠ .bytes log)

/-- The state machine's calls find a string in the payloads that clients have given. -/
def Succeeds (given : List Bytes) : Effect → Prop
  | .preCommit _ buf | .commit _ buf | .rollback _ buf => Applies given buf
  | _ => True

/-- What a client's event brings comes from one of the arrays. -/
def Fed (decode : Bytes → Option Bytes) (A : Set Json) : Event → Prop
  | .client _ logs _ => ∃ body ∈ A, clientLogs decode body = .ok logs
  | _ => True

/-- What the clients of the run have given. -/
def given (es : List Event) : List Bytes := es.flatMap Event.payloads

theorem succeeds_of_hands {l : List Bytes} {x : Effect}
    (hl : ∀ log ∈ l, log.length < 2 ^ 31 ∧ 0 ∈ log ∧ ∃ c post, log = c :: post ∧ c ≠ 0)
    (hx : x.Hands fun buf => buf = LogStore.placeholder.buf ∨ ∃ log ∈ l, buf = .bytes log) :
    Succeeds l x := by
  have happlies : ∀ {buf : Payload},
      (buf = LogStore.placeholder.buf ∨ ∃ log ∈ l, buf = .bytes log) → Applies l buf := by
    intro buf hbuf
    by_cases hlog : ∃ log ∈ l, buf = .bytes log
    · obtain ⟨log, hmem, rfl⟩ := hlog
      obtain ⟨hlen, h0, hfirst⟩ := hl log hmem
      exact .inl ⟨log, hmem, rfl, (reads_iff hlen h0).2 hfirst⟩
    · exact .inr ⟨hbuf.resolve_right hlog, fun log hmem h => hlog ⟨log, hmem, h⟩⟩
  cases x with
  | preCommit idx buf | commit idx buf | rollback idx buf => exact happlies hx
  | _ => trivial

/-- The entries of a client's request are given to the leader's state machine one after the other, up
to the first that it does not take. -/
theorem refused_mem_each (ctx : Context) {entries : List LogEntry} (s : Server)
    (h : ∃ entry ∈ entries, ¬ctx.stateMachine.preCommit entry.buf) :
    ∃ entry ∈ entries, ¬ctx.stateMachine.preCommit entry.buf ∧
      ∃ idx, .preCommit idx entry.buf ∈ (Act.each (appendClientEntry ctx) entries s).out := by
  induction entries generalizing s with
  | nil =>
    obtain ⟨entry, hentry, -⟩ := h
    exact (List.not_mem_nil hentry).elim
  | cons e entries ih =>
    by_cases htake : ctx.stateMachine.preCommit e.buf
    · obtain ⟨entry, hentry, hrefused⟩ := h
      have hrest : ∃ entry ∈ entries, ¬ctx.stateMachine.preCommit entry.buf := by
        refine ⟨entry, (List.mem_cons.1 hentry).resolve_left ?_, hrefused⟩
        rintro rfl
        exact hrefused htake
      have hone : Act.Runs (appendClientEntry ctx e) s () _ _ :=
        .modify_bind (.get_bind (Act.runs_emit.bind (.of_neg (not_not.2 htake) Act.runs_pure)))
      obtain ⟨entry', hmem', hrefused', idx, hout⟩ := ih _ hrest
      refine ⟨entry', List.mem_cons_of_mem _ hmem', hrefused', idx, ?_⟩
      show _ ∈ ((appendClientEntry ctx e >>= fun _ => Act.each (appendClientEntry ctx) entries) s).out
      rw [hone.bind_eq]
      exact List.mem_append_right _ hout
    · let s₁ : Server := { s with logStore := s.logStore.append { e with term := s.term } }
      have hrun : appendClientEntry ctx e s = preCommit ctx (usub s₁.nextSlot 1) e.buf s₁ := rfl
      have hout : .preCommit (usub s₁.nextSlot 1) e.buf ∈ (appendClientEntry ctx e s).out := by
        rw [hrun, preCommit]
        exact Act.mem_out_bind_left (List.mem_singleton_self _) _
      exact ⟨e, List.mem_cons_self, htake, _, Act.mem_out_bind_left hout _⟩

theorem refused_mem_client (ctx : Context) {s : Server} (hrole : s.role = .leader)
    (hpeers : s.peers = []) {logs : List Bytes} (now : Int)
    (h : ∃ log ∈ logs, ¬ctx.stateMachine.preCommit (.bytes log)) :
    ∃ log ∈ logs, ¬ctx.stateMachine.preCommit (.bytes log) ∧ ∃ idx,
      .preCommit idx (.bytes log) ∈ ((Input.request (clientReq logs) now).handle ctx s).out := by
  have hnot : ¬s.Checks ctx := fun h => h.2.1 hpeers
  have hreq : processReq ctx (clientReq logs) now s =
      answerClient ctx (clientReq logs) false s := by
    refine (handleCliReq_eq ctx (clientReq logs) now s).trans ?_
    rw [Server.checked, if_neg hnot, decide_eq_false fun h => hnot h.1]
  obtain ⟨log, hlog, hrefused⟩ := h
  have hmem : ∃ entry ∈ (clientReq logs).logEntries, ¬ctx.stateMachine.preCommit entry.buf :=
    ⟨_, List.mem_map_of_mem hlog, hrefused⟩
  obtain ⟨entry, hentry, hrefused', idx, hmem⟩ := refused_mem_each ctx s hmem
  obtain ⟨log', hlog', rfl⟩ := List.mem_map.1 hentry
  refine ⟨log', hlog', hrefused', idx, Act.mem_out_bind_left ?_ _⟩
  rw [hreq, answerClient, Act.get_bind_apply, if_neg (by simp), if_neg (by simp [hrole])]
  exact Act.mem_out_bind_left hmem _

/-- A payload that a run has been given is one of an accepted array. -/
theorem mem_given {decode : Bytes → Option Bytes} {A : Set Json} {es : List Event}
    (hfed : ∀ e ∈ es, Fed decode A e) {log : Bytes} (hlog : log ∈ given es) :
    ∃ body ∈ A, ∃ logs, clientLogs decode body = .ok logs ∧
      ∃ item ∈ body.arrayItems, clientLog decode item = .ok log := by
  obtain ⟨e, he, hlog⟩ := List.mem_flatMap.1 hlog
  have hone := hfed e he
  cases e with
  | client i logs now =>
    obtain ⟨body, hbody, hlogs⟩ := hone
    exact ⟨body, hbody, logs, hlogs, (clientLogs_ok hlogs).2 log hlog⟩
  | _ => cases hlog

/-- A server on its own, elected. -/
def lonely : Cluster := (Cluster.start {} alone).run {} [.electionTimeout 1]

/-- **Applying payloads.** Given arrays of base64 strings, every call of the state machine on a
client's payload, on any server and in any run from empty logs, finds a string if and only if the
strings that are accepted all begin with a byte other than zero. -/
theorem payloads_applied (decode : Bytes → Option Bytes) (A : Set Json) :
    (∀ (ctx : Context) (b : Int → Server.Boot) (es : List Event) (e : Event),
      (∀ i, (b i).logStore = .empty) → (∀ e' ∈ es ++ [e], Fed decode A e') →
      ∀ x ∈ ((Cluster.start ctx b).run ctx es).effects ctx e, Succeeds (given (es ++ [e])) x) ↔
    ∀ body ∈ A, ∀ logs, clientLogs decode body = .ok logs →
      ∀ item ∈ body.arrayItems, Printable decode item := by
  constructor
  · intro h body hbody logs hlogs item hitem
    obtain ⟨log, hlog, hok⟩ := (clientLogs_ok hlogs).1 item hitem
    obtain ⟨hlen, h0, hfirst⟩ := clientLog_ok hok
    rw [← hfirst, ← reads_iff hlen h0, reads_iff_holdsString hlen]
    by_contra hrefused
    -- the only server of a cluster is elected and gets the array
    obtain ⟨log', hlog', hrefused', idx, hmem⟩ := refused_mem_client {} (s := lonely.servers 1)
      (by decide +kernel) (by decide +kernel) 0 ⟨log, hlog, hrefused⟩
    have hcall := h {} alone [.electionTimeout 1] (.client 1 logs 0) (fun _ => rfl) ?_ _ hmem
    · rcases hcall with ⟨log'', -, heq, hreads⟩ | ⟨-, hnone⟩
      · cases heq
        obtain ⟨item', -, hok'⟩ := (clientLogs_ok hlogs).2 log' hlog'
        exact hrefused' ((reads_iff_holdsString (clientLog_ok hok').1).1 hreads)
      · exact hnone log' (by simpa [given, Event.payloads] using hlog') rfl
    · intro e' he'
      simp only [List.cons_append, List.nil_append, List.mem_cons, List.not_mem_nil,
        or_false] at he'
      rcases he' with rfl | rfl
      · trivial
      · exact ⟨body, hbody, hlogs⟩
  · intro h ctx b es e hb hfed x hx
    refine succeeds_of_hands ?_ (hands_run ctx hb (.inl rfl) ?_ x hx)
    · intro log hlog
      obtain ⟨body, hbody, logs, hlogs, item, hitem, hok⟩ := mem_given hfed hlog
      obtain ⟨hlen, h0, hfirst⟩ := clientLog_ok hok
      exact ⟨hlen, h0, hfirst.2 (h body hbody logs hlogs item hitem)⟩
    · intro e' he' log hlog
      exact .inr ⟨log, List.mem_flatMap.2 ⟨e', he', hlog⟩, rfl⟩

/-- A client sends the empty string. The server appends it and gives it to its state machine, which
makes a string of a null pointer; the client's request ends with the exception. -/
theorem payloads_not_applied :
    let logs := [List.replicate 8 0]
    clientLogs some (.array [.string []]) = .ok logs ∧
      (lonely.effects {} (.client 1 logs 0)).any (fun x => x matches .preCommit 2 _) ∧
      EchoStateMachine.preCommit 2 (filled (List.replicate 8 0) (by decide)) = .error .nullString ∧
      ((Input.request (clientReq logs) 0).handle {} (lonely.servers 1)).result.isOk = false := by
  refine ⟨rfl, by decide +kernel, rfl, by decide +kernel⟩

end EnclaveRaft.Port
