import EnclaveRaft.Host.Channel
import EnclaveRaft.Wire.Message

/-!
# Requests of raft servers from enclave to enclave

A request leaves the enclave of one server as the encrypted bytes of `RpcClientPort::send`, goes
through the client of its host and a session of the other host, and is decoded and answered in the
enclave of the other server; the response takes the same way back to `ecall_rpc_response`.

The modules of the two hosts treat the messages as bytes, and those of the ports as values. Put
together they are a remote call on requests and responses, which is what the protocol relies on.
-/

namespace EnclaveRaft.Port

open Host Wire

variable (C : Cipher)

/-- `ecall_handle_rpc_request` as the handler of the sessions: call `j` on connection `k` hands the
request to the server, which answers with `serve k j`. A message that is not a request gets no
response. -/
def raftHandler (iv : Nat → Nat → Iv) (serve : Nat → Nat → Wire.ReqMsg → Wire.RespMsg) (k : Nat) :
    Session.Handler := fun j message =>
  match handleRpcRequest C message with
  | .raft (.request req) =>
    match respond C (iv k j) (serve k j req) with
    | .ok resp => if h : resp.length < 2 ^ 32 then some ⟨resp, h⟩ else none
    | .error _ => none
  | _ => none

/-- The request fits a frame, with the type of the message and the vector. -/
def HasRoom (req : Wire.ReqMsg) : Prop := req.encoding.length + 18 < 2 ^ 31

instance decidableHasRoom (req : Wire.ReqMsg) : Decidable (HasRoom req) :=
  inferInstanceAs (Decidable (_ < _))

/-- Messages of raft servers. -/
def RaftMessage (m : Bytes) : Prop := ∃ iv req, HasRoom req ∧ send C iv req = .ok m

variable {C} {iv : Iv} {req : Wire.ReqMsg} {resp : Wire.RespMsg} {m : Bytes}

theorem send_eq (h : HasRoom req) :
    send C iv req = .ok (raftMessageBytes ++ (iv.1 ++ C.encrypt iv.1 req.encoding)) := by
  have hlen : req.encoding.length < 2 ^ 31 := by
    unfold HasRoom at h
    omega
  simp only [send, serializeReq_eq req hlen, bind, Except.bind, raftEncrypt, if_pos hlen]
  rfl

/-- The other side gets the request. -/
theorem handleRpcRequest_of_send (h : HasRoom req) (hm : send C iv req = .ok m) :
    handleRpcRequest C m = .raft (.request req) := by
  have hlen : req.encoding.length < 2 ^ 31 := by
    unfold HasRoom at h
    omega
  rw [send_eq h] at hm
  cases hm
  rw [handleRpcRequest_raft, handleRaftMessage_encoding hlen (raftDecrypt_append iv hlen)]

theorem respond_eq (iv : Iv) (resp : Wire.RespMsg) : respond C iv resp =
    .ok (raftMessageBytes ++ (iv.1 ++ C.encrypt iv.1 resp.encoding)) := by
  simp only [respond, serializeResp_eq, bind, Except.bind, raftEncrypt, if_pos resp.encoding_lt]
  rfl

theorem length_respond (hm : respond C iv resp = .ok m) : m.length = 44 := by
  rw [respond_eq] at hm
  cases hm
  simp [raftMessageBytes, iv.2, C.length_encrypt, resp.length_encoding, Wire.blockSize,
    rpcRespHeaderSize]

/-- The callback gets the response. -/
theorem rpcResponse_of_respond (hm : respond C iv resp = .ok m) :
    rpcResponse C m = .ok (some resp) := by
  rw [respond_eq] at hm
  cases hm
  rw [rpcResponse_raft, handleRaftResponse_encoding (raftDecrypt_append iv resp.encoding_lt)]
  rfl

theorem fits_raftMessage : Channel.Fits (RaftMessage C) := by
  rintro m ⟨iv, req, hroom, hm⟩
  rw [send_eq hroom] at hm
  cases hm
  have hlen : (raftMessageBytes ++ (iv.1 ++ C.encrypt iv.1 req.encoding)).length =
      req.encoding.length + 18 := by
    simp only [raftMessageBytes, List.length_append, length_leBytes, iv.2, C.length_encrypt,
      Wire.blockSize]
    omega
  rw [hlen]
  exact ⟨by omega, hroom⟩

section Handler

variable {ivs : Nat → Nat → Iv} {serve : Nat → Nat → Wire.ReqMsg → Wire.RespMsg} {k j : Nat}

/-- What the handler returns for a message that was sent as a request. -/
theorem raftHandler_of_send (hroom : HasRoom req) (hm : send C iv req = .ok m) :
    ∃ r : Response, raftHandler C ivs serve k j m = some r ∧ r.1.length < 2 ^ 31 ∧
      rpcResponse C r.1 = .ok (some (serve k j req)) := by
  obtain ⟨bytes, hbytes⟩ : ∃ bytes, respond C (ivs k j) (serve k j req) = .ok bytes :=
    ⟨_, respond_eq _ _⟩
  have hlen := length_respond hbytes
  refine ⟨⟨bytes, by omega⟩, ?_, by simp only; omega, rpcResponse_of_respond hbytes⟩
  unfold raftHandler
  rw [handleRpcRequest_of_send hroom hm]
  simp only [hbytes]
  exact dif_pos (by omega)

theorem total_raftHandler : Session.Total (RaftMessage C) (raftHandler C ivs serve k) := by
  rintro j m ⟨iv, req, hroom, hm⟩
  obtain ⟨r, hr, -⟩ := raftHandler_of_send (k := k) (j := j) (C := C) hroom hm
  rw [hr]
  rfl

theorem small_raftHandler : Session.Small (raftHandler C ivs serve k) := by
  intro j m r hr
  unfold raftHandler at hr
  split at hr
  · split at hr
    next bytes hbytes =>
      obtain ⟨h, hr⟩ := Option.dite_none_right_eq_some.1 hr
      cases hr
      have hlen := length_respond hbytes
      simp only
      omega
    next => cases hr
  · cases hr

end Handler

/-- **Requests and responses from enclave to enclave.** In every run of a client and its connections
in which the requests of the raft server are sent one at a time, no session closes a connection while
the size of a response is awaited, and none is reset between the last byte of a response and its
report, however the bytes are cut and whatever else fails: when a response reaches the enclave for
request `uid`, there is a connection `k` on which the message of `uid` was number `j`, and the
response decodes to what the other server has answered to call `j` on connection `k`. -/
theorem raft_calls_are_answered (C : Cipher) (ivs : Nat → Nat → Iv)
    (serve : Nat → Nat → Wire.ReqMsg → Wire.RespMsg) (es : List Channel.Event) (ch : Channel)
    (hserial : Machine.Along (Channel.step (raftHandler C ivs serve))
      (Channel.Serial (RaftMessage C)) {} es)
    (hrun : Machine.run (Channel.step (raftHandler C ivs serve)) {} es = some ch)
    (uid : Nat) (bytes : Bytes) (hreport : (uid, some bytes) ∈ ch.client.reports)
    (iv : Iv) (req : Wire.ReqMsg) (hroom : HasRoom req)
    (hsent : send C iv req = .ok (ch.client.reqMap uid)) :
    ∃ k c j, ch.conns[k]? = some c ∧ c.requests[j]? = some (uid, ch.client.reqMap uid) ∧
      rpcResponse C bytes = .ok (some (serve k j req)) := by
  obtain ⟨k, c, j, r, hk, hj, hr, rfl⟩ := Channel.calls_are_answered (RaftMessage C) fits_raftMessage
    (raftHandler C ivs serve) (fun _ => total_raftHandler) (fun _ => small_raftHandler) es ch
    hserial hrun uid bytes hreport
  obtain ⟨r', hr', -, hresp⟩ := raftHandler_of_send hroom hsent
  rw [hr'] at hr
  cases hr
  exact ⟨k, c, j, hk, hj, hresp⟩

/-- A request for a vote, and its bytes without encryption. -/
def voteRequest : Wire.ReqMsg := ⟨1, 1, 2, 5, 4, 8, 7, []⟩

def zeroIv : Iv := ⟨List.replicate 16 0, rfl⟩

def voteMessage : Bytes := raftMessageBytes ++ (zeroIv.1 ++ voteRequest.encoding)

/-- The first request on a connection gets the vote. -/
def grantOnce (_ j : Nat) (req : Wire.ReqMsg) : Wire.RespMsg :=
  ⟨2, req.dst, req.src, req.term, 0, j == 0⟩

/-- The request is made twice over one connection. It arrives in two pieces and the response in
one. -/
def askTwice : List Channel.Event :=
  [.client (.send voteMessage true), .client (.resolved 0 true), .client (.connected 0 true true),
    .client (.wrote 0 63), .deliver 40, .session (.arrive 40), .deliver 27, .session (.arrive 27),
    .session (.sent 48), .back 48, .client (.headerRead 0), .client (.readSome 0 44),
    .client (.send voteMessage true), .client (.wrote 1 63), .deliver 67, .session (.arrive 67),
    .session (.sent 48), .back 48, .client (.headerRead 1), .client (.readSome 1 44), .reset]

theorem raft_calls_are_answered_twice : ∃ (ch : Channel) (bytes : Bytes),
    Machine.run (Channel.step (raftHandler .plain (fun _ _ => zeroIv) grantOnce)) {} askTwice =
      some ch ∧ (1, some bytes) ∈ ch.client.reports ∧
      ∃ k c j, ch.conns[k]? = some c ∧ c.requests[j]? = some (1, ch.client.reqMap 1) ∧
        rpcResponse .plain bytes = .ok (some (grantOnce k j voteRequest)) := by
  have heval : (Machine.run (Channel.step (raftHandler .plain (fun _ _ => zeroIv) grantOnce)) {}
      askTwice).map (fun ch => (ch.client.reports.map fun r => (r.1, r.2.isSome),
        ch.client.reqMap 1)) = some ([(0, true), (1, true)], voteMessage) := by
    decide +kernel
  obtain ⟨ch, hch, heq⟩ := Option.map_eq_some_iff.1 heval
  obtain ⟨hreports, hmessage⟩ := Prod.mk.inj heq
  obtain ⟨bytes, hmem⟩ : ∃ bytes, (1, some bytes) ∈ ch.client.reports := by
    obtain ⟨r, hr, hr'⟩ := List.mem_map.1
      (hreports ▸ List.mem_cons_of_mem _ List.mem_cons_self : (1, true) ∈
        ch.client.reports.map fun r => (r.1, r.2.isSome))
    obtain ⟨uid, resp⟩ := r
    obtain ⟨rfl, hsome⟩ := Prod.mk.inj hr'
    obtain ⟨bytes, rfl⟩ := Option.isSome_iff_exists.1 hsome
    exact ⟨bytes, hr⟩
  have hroom : HasRoom voteRequest := by decide +kernel
  have hsend : send .plain zeroIv voteRequest = .ok voteMessage := send_eq hroom
  have hserial : Machine.Along (Channel.step (raftHandler .plain (fun _ _ => zeroIv) grantOnce))
      (Channel.Serial (· = voteMessage)) {} askTwice := by
    decide +kernel
  refine ⟨ch, bytes, hch, hmem, raft_calls_are_answered .plain _ grantOnce askTwice ch
    (hserial.mono ?_) hch 1 bytes hmem zeroIv voteRequest hroom (hmessage ▸ hsend)⟩
  intro s e he
  exact Channel.Serial.mono (fun m hm => ⟨zeroIv, voteRequest, hroom, hm ▸ hsend⟩) he

end EnclaveRaft.Port
