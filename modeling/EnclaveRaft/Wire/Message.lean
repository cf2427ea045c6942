import EnclaveRaft.Wire.Buffer

/-!
# Messages on the wire

Requests and responses as `msg_serializer` writes and reads them, encrypted by `crypto` and framed by
the two ports. A request is a header of 45 bytes and its log data. The last field of the header is the
size of the log data, and every entry in the log data has the size of its value in front of it. What
is sent is the type of the message, the initialisation vector and the encrypted request.

None of the three sizes is compared with what has arrived. `handleRaftMessage` makes the reads
outside of the message visible.
-/

namespace EnclaveRaft.Wire

/-- An entry as the serializer sees it: its value is a block of bytes. -/
structure LogEntry where
  term : UInt64
  valType : UInt8
  buf : Bytes
  deriving DecidableEq

structure ReqMsg where
  type : UInt8
  src : Int32
  dst : Int32
  term : UInt64
  lastLogTerm : UInt64
  lastLogIdx : UInt64
  commitIdx : UInt64
  logEntries : List LogEntry
  deriving DecidableEq

structure RespMsg where
  type : UInt8
  src : Int32
  dst : Int32
  term : UInt64
  nextIdx : UInt64
  accepted : Bool
  deriving DecidableEq

/-! ## The serializer -/

def rpcReqHeaderSize : Nat := 3 * 4 + 8 * 4 + 1

def rpcRespHeaderSize : Nat := 4 * 2 + 8 * 2 + 2

/-- An `int32` as the argument of `alloc`: negative ones are huge. -/
def sizeT (n : Int32) : Nat := n.toInt64.toUInt64.toNat

def LogEntry.serialize (e : LogEntry) : Except Fault Buffer :=
  build (8 + 1 + 4 + e.buf.length) do
    putUlong e.term
    putByte e.valType
    putInt (Int32.ofNat e.buf.length)
    put e.buf

def serializeReq (req : ReqMsg) : Except Fault Buffer := do
  let logEntryBufs ← req.logEntries.mapM LogEntry.serialize
  let logDataSize := (logEntryBufs.map fun b => Int32.ofNat b.size).foldl (· + ·) 0
  build (sizeT (Int32.ofNat rpcReqHeaderSize + logDataSize)) do
    putByte req.type
    putInt req.src
    putInt req.dst
    putUlong req.term
    putUlong req.lastLogTerm
    putUlong req.lastLogIdx
    putUlong req.commitIdx
    putInt logDataSize
    logEntryBufs.forM putBuffer

def getEntry : BufM LogEntry := do
  let logTerm ← getUlong
  let valType ← getByte
  let valSize ← getInt
  let buf ← alloc (sizeT valSize)
  let val ← getBuffer buf.size
  return ⟨logTerm, valType, val⟩

/-- What stands in front of the value of an entry. -/
def entryHead (term : UInt64) (valType : UInt8) (valSize : Int32) : Bytes :=
  leBytes 8 term.toNat ++ ([valType] ++ leBytes 4 valSize.toUInt32.toNat)

@[simp] theorem length_entryHead (term : UInt64) (valType : UInt8) (valSize : Int32) :
    (entryHead term valType valSize).length = 13 := by
  simp [entryHead]

/-- Any 13 bytes are the head of an entry. -/
theorem exists_entryHead {bs : Bytes} (h : 13 ≤ bs.length) :
    ∃ term valType valSize post, bs = entryHead term valType valSize ++ post := by
  obtain ⟨term, bs₁, rfl⟩ := exists_ulong (show 8 ≤ bs.length by omega)
  rw [List.length_append, length_leBytes] at h
  obtain ⟨valType, bs₂, rfl⟩ := exists_byte (show 1 ≤ bs₁.length by omega)
  rw [List.length_append, List.length_singleton] at h
  obtain ⟨valSize, post, rfl⟩ := exists_int (show 4 ≤ bs₂.length by omega)
  refine ⟨term, valType, valSize, post, ?_⟩
  rw [entryHead, List.append_assoc, List.append_assoc]

/-- The bytes of an entry. -/
def LogEntry.encoding (e : LogEntry) : Bytes :=
  entryHead e.term e.valType (Int32.ofNat e.buf.length) ++ e.buf

theorem LogEntry.length_encoding (e : LogEntry) : e.encoding.length = 13 + e.buf.length := by
  simp [encoding]

theorem sizeT_ofNat {n : Nat} (h : n < 2 ^ 31) : sizeT (Int32.ofNat n) = n := by
  have hint : (Int32.ofNat n).toInt = n := Int32.toInt_ofNat_of_lt h
  have h64 : (Int32.ofNat n).toInt64 = Int64.ofNat n := by
    apply Int64.toInt.inj
    rw [Int32.toInt_toInt64, hint, Int64.toInt_ofNat_of_lt (by omega)]
  rw [sizeT, h64]
  exact UInt64.toNat_ofNat_of_lt (Nat.lt_trans h (by decide))

theorem sizeT_of_neg {n : Int32} (h : n < 0) : 2 ^ 31 ≤ sizeT n := by
  have hneg : n.toInt < 0 := Int32.lt_iff_toInt_lt.1 h
  have hcast : n.toInt64.toBitVec.toInt = n.toInt := Int32.toInt_toInt64 n
  have hle := n.le_toInt
  rw [BitVec.toInt_eq_toNat_cond] at hcast
  show 2 ^ 31 ≤ n.toInt64.toBitVec.toNat
  split at hcast <;> omega

theorem exists_ofNat {n : Int32} (h : ¬n < 0) : ∃ k < 2 ^ 31, n = Int32.ofNat k := by
  have hnonneg : 0 ≤ n.toInt := by
    rw [Int32.lt_iff_toInt_lt] at h
    exact Int.not_lt.1 h
  have hlt := n.toInt_lt
  refine ⟨n.toInt.toNat, by omega, ?_⟩
  apply Int32.toInt.inj
  rw [Int32.toInt_ofNat_of_lt (by omega)]
  omega

theorem getEntry_head {b : Buffer} {term : UInt64} {valType : UInt8} {valSize : Int32}
    {post : Bytes} (hrest : b.rest = entryHead term valType valSize ++ post) :
    getEntry b = (do
      let buf ← alloc (sizeT valSize)
      let val ← getBuffer buf.size
      return ⟨term, valType, val⟩ : BufM LogEntry) (b.skip 13) := by
  rw [entryHead, List.append_assoc, List.append_assoc] at hrest
  have hrest₁ := Block.rest_skip hrest
  have hrest₂ := Block.rest_skip hrest₁
  unfold getEntry
  rw [(parses_getUlong term).bind_apply hrest, (parses_getByte valType).bind_apply hrest₁,
    (parses_getInt valSize).bind_apply hrest₂, Block.skip_skip, Block.skip_skip, length_leBytes,
    length_leBytes]
  rfl

theorem getEntry_short {b : Buffer} (h : b.rest.length < 13) : getEntry b = .error .overflow := by
  refine ((takes_get 8).map _).bind_short (fun _ c hc => ?_) (show _ < 8 + 5 from h)
  refine ((takes_get 1).map _).bind_short (fun _ c hc => ?_) (show _ < 1 + 4 from hc)
  refine ((takes_get 4).map _).bind_short (fun _ c hc => ?_) (show _ < 4 + 0 from hc)
  exact absurd hc (Nat.not_lt_zero _)

theorem parses_getEntry {e : LogEntry} (h : e.buf.length < 2 ^ 31) :
    Parses getEntry e.encoding e := by
  intro b post hrest
  rw [LogEntry.encoding, List.append_assoc] at hrest
  have hval := Block.rest_skip hrest
  rw [length_entryHead] at hval
  rw [getEntry_head hrest, sizeT_ofNat h, alloc, dif_pos h]
  show (getBuffer (Buffer.size _) (b.skip 13) >>= fun x => _) = _
  rw [Buffer.size_eq, List.length_replicate, parses_getBuffer e.buf _ post hval,
    Block.skip_skip, ← e.length_encoding]
  rfl

theorem getEntry_negative {b : Buffer} {term : UInt64} {valType : UInt8} {valSize : Int32}
    {post : Bytes} (hrest : b.rest = entryHead term valType valSize ++ post) (hneg : valSize < 0) :
    getEntry b = .error .outOfRange := by
  rw [getEntry_head hrest, alloc, dif_neg (Nat.not_lt.2 (sizeT_of_neg hneg))]
  rfl

/-- The value reaches behind the end. -/
theorem getEntry_beyond {b : Buffer} {term : UInt64} {valType : UInt8} {n : Nat} {post : Bytes}
    (hrest : b.rest = entryHead term valType (Int32.ofNat n) ++ post) (hn : n < 2 ^ 31)
    (hroom : post.length < n) : getEntry b = .error .outOfBounds := by
  have hshort : (b.skip 13).rest.length < n := by
    rw [← length_entryHead term valType (Int32.ofNat n), Block.rest_skip hrest]
    exact hroom
  rw [getEntry_head hrest, sizeT_ofNat hn, alloc, dif_pos hn]
  show (getBuffer (Buffer.size _) (b.skip 13) >>= fun x => _) = _
  rw [Buffer.size_eq, List.length_replicate, getBuffer_short hshort]
  rfl

/-- **Reading an entry.** There is no head, its size is negative, the value reaches behind the end,
or there is an entry. -/
theorem getEntry_cases (b : Buffer) :
    (b.rest.length < 13 ∧ getEntry b = .error .overflow) ∨
    (∃ term valType valSize post, b.rest = entryHead term valType valSize ++ post ∧ valSize < 0 ∧
      getEntry b = .error .outOfRange) ∨
    (∃ term valType n post, b.rest = entryHead term valType (Int32.ofNat n) ++ post ∧
      n < 2 ^ 31 ∧ post.length < n ∧ getEntry b = .error .outOfBounds) ∨
    ∃ e post, b.rest = LogEntry.encoding e ++ post ∧ e.buf.length < 2 ^ 31 ∧
      getEntry b = .ok (e, b.skip e.encoding.length) := by
  by_cases hlen : b.rest.length < 13
  · exact .inl ⟨hlen, getEntry_short hlen⟩
  obtain ⟨term, valType, valSize, post, hrest⟩ := exists_entryHead (Nat.le_of_not_lt hlen)
  by_cases hneg : valSize < 0
  · exact .inr (.inl ⟨term, valType, valSize, post, hrest, hneg, getEntry_negative hrest hneg⟩)
  obtain ⟨n, hn, rfl⟩ := exists_ofNat hneg
  by_cases hroom : post.length < n
  · exact .inr (.inr (.inl ⟨term, valType, n, post, hrest, hn, hroom,
      getEntry_beyond hrest hn hroom⟩))
  · let e : LogEntry := ⟨term, valType, post.take n⟩
    have hbuf : e.buf.length = n := List.length_take_of_le (Nat.le_of_not_lt hroom)
    have hrest' : b.rest = e.encoding ++ post.drop n := by
      rw [LogEntry.encoding, hbuf, List.append_assoc, List.take_append_drop, hrest]
    have hlt : e.buf.length < 2 ^ 31 := hbuf ▸ hn
    exact .inr (.inr (.inr ⟨e, post.drop n, hrest', hlt, parses_getEntry hlt b _ hrest'⟩))

/-- An entry takes at least the 13 bytes in front of its value. -/
theorem rest_getEntry_lt {b b' : Buffer} {e : LogEntry} (h : getEntry b = .ok (e, b')) :
    b'.rest.length < b.rest.length := by
  rcases getEntry_cases b with ⟨_, he⟩ | ⟨_, _, _, _, _, _, he⟩ | ⟨_, _, _, _, _, _, _, he⟩ |
    ⟨e', post, hrest, _, he⟩
  · cases h.symm.trans he
  · cases h.symm.trans he
  · cases h.symm.trans he
  · cases h.symm.trans he
    rw [Block.rest_skip hrest, hrest, List.length_append, LogEntry.length_encoding]
    omega

/-- The entries up to the end of the block. -/
def getEntries (b : Buffer) : Except Fault (List LogEntry) :=
  if b.pos < b.size then
    match _h : getEntry b with
    | .error e => .error e
    | .ok (e, b') => do
      let es ← getEntries b'
      return e :: es
  else .ok []
termination_by b.rest.length
decreasing_by exact rest_getEntry_lt _h

/-- The header up to the size of the log data. -/
def getHeader : BufM (ReqMsg × Int32) := do
  let type ← getByte
  let src ← getInt
  let dst ← getInt
  let term ← getUlong
  let lastTerm ← getUlong
  let lastIdx ← getUlong
  let commitIdx ← getUlong
  let logDataSize ← getInt
  return (⟨type, src, dst, term, lastTerm, lastIdx, commitIdx, []⟩, logDataSize)

def deserializeReq (header logData : Buffer) : Except Fault ReqMsg := do
  let ((req, logDataSize), _) ← getHeader (header.seek 0)
  if 0 < logDataSize then
    let entries ← getEntries (logData.seek 0)
    return { req with logEntries := entries }
  else return req

def serializeResp (resp : RespMsg) : Except Fault Buffer :=
  build rpcRespHeaderSize do
    putByte resp.type
    putInt resp.src
    putInt resp.dst
    putUlong resp.term
    putUlong resp.nextIdx
    putByte (if resp.accepted then 1 else 0)

def getResp : BufM RespMsg := do
  let type ← getByte
  let src ← getInt
  let dst ← getInt
  let term ← getUlong
  let nextIdx ← getUlong
  let accepted ← getByte
  return ⟨type, src, dst, term, nextIdx, accepted == 1⟩

def deserializeResp (respBuf : Buffer) : Except Fault RespMsg := do
  let (resp, _) ← getResp (respBuf.seek 0)
  return resp

/-! ## Encryption -/

/-- AES in counter mode under the shared key: it keeps the length of a text, and what was encrypted
with some vector is decrypted with the same one. -/
structure Cipher where
  encrypt : Bytes → Bytes → Bytes
  decrypt : Bytes → Bytes → Bytes
  length_encrypt : ∀ iv text, (encrypt iv text).length = text.length
  length_decrypt : ∀ iv text, (decrypt iv text).length = text.length
  decrypt_encrypt : ∀ iv text, decrypt iv (encrypt iv text) = text

def blockSize : Nat := 16

/-- The vector is drawn at random for each message. -/
abbrev Iv := { iv : Bytes // iv.length = blockSize }

variable (C : Cipher)

/-- The length of a text is passed as an `int`. -/
def raftEncrypt (iv : Iv) (data : Bytes) : Except Fault Bytes :=
  if data.length < 2 ^ 31 then .ok (iv.1 ++ C.encrypt iv.1 data) else .error .cipherFailed

/-- The vector is taken from the message, however long it is. -/
def raftDecrypt (data : Bytes) : Except Fault Bytes :=
  if data.length < blockSize then .error .outOfBounds
  else if 2 ^ 31 ≤ data.length - blockSize then .error .cipherFailed
  else .ok (C.decrypt (data.take blockSize) (data.drop blockSize))

/-! ## The ports -/

/-- The kinds of messages, as they stand in the first two bytes. -/
def raftMessage : Nat := 255

def raftMessageBytes : Bytes := leBytes 2 raftMessage

/-- `RpcClientPort::send` and `raw_send`: the bytes that are handed to the host. -/
def send (iv : Iv) (req : ReqMsg) : Except Fault Bytes := do
  let reqBuffer ← serializeReq req
  let message ← raftEncrypt C iv reqBuffer.data
  return raftMessageBytes ++ message

/-- `memcpy_s` of `n` bytes of a message from `off` on into a new block of this size. -/
def copyFrom (message : Bytes) (off n : Nat) : Except Fault Buffer :=
  build n do
    if message.length < off + n then throw .outOfBounds
    put ((message.drop off).take n)

/-- What stands before the `try` block in `handle_raft_message`: the header and the log data. -/
def splitMessage (data : Bytes) : Except Fault (Buffer × Buffer) := do
  let message ← raftDecrypt C data
  let header ← copyFrom message 0 rpcReqHeaderSize
  let (dataSize, _) ← getInt (header.seek (rpcReqHeaderSize - 4))
  let logData ← copyFrom message rpcReqHeaderSize (sizeT dataSize)
  return (header, logData)

/-- What becomes of a message: it is read outside of its bytes, an exception leaves the ecall, one is
caught and no response given, or a request is handed to the server. -/
inductive Decoded
  | outOfBounds
  | escapes (e : Fault)
  | rejected (e : Fault)
  | request (req : ReqMsg)
  deriving DecidableEq

/-- What becomes of the `try` block. -/
def Decoded.ofTry : Except Fault ReqMsg → Decoded
  | .error .outOfBounds => .outOfBounds
  | .error e => .rejected e
  | .ok req => .request req

def handleRaftMessage (data : Bytes) : Decoded :=
  match splitMessage C data with
  | .error .outOfBounds => .outOfBounds
  | .error e => .escapes e
  | .ok (header, logData) => .ofTry (deserializeReq header logData)

/-- The dispatch of `ecall_handle_rpc_request`. The requests of clients and of the key exchange are
texts. -/
inductive RpcRequest
  | client (type : Nat) (payload : Bytes)
  | system (type : Nat) (payload : Bytes)
  | raft (decoded : Decoded)
  | unexpected (type : Nat)
  deriving DecidableEq

def handleRpcRequest (message : Bytes) : RpcRequest :=
  let type := leNat (message.take 2)
  let payload := message.drop 2
  if type = 1 ∨ type = 3 ∨ type = 5 then .client type payload
  else if type = 7 ∨ type = 9 then .system type payload
  else if type = raftMessage then .raft (handleRaftMessage C payload)
  else .unexpected type

/-- The end of `handle_raft_message` on the side of the server: the response of the handler. -/
def respond (iv : Iv) (resp : RespMsg) : Except Fault Bytes := do
  let respBuf ← serializeResp resp
  let message ← raftEncrypt C iv respBuf.data
  return raftMessageBytes ++ message

/-- `handle_raft_message` on the side of the client. A message of more bytes than the block makes
`memcpy_s` clear it, and one of less leaves the end as it is. -/
def handleRaftResponse (data : Bytes) : Except Fault RespMsg := do
  let message ← raftDecrypt C data
  let respBuf ← build rpcRespHeaderSize
    (put (if message.length ≤ rpcRespHeaderSize then message
      else List.replicate rpcRespHeaderSize 0))
  deserializeResp respBuf

/-- The dispatch of `ecall_rpc_response`, as far as it concerns the responses of servers. -/
def rpcResponse (message : Bytes) : Except Fault (Option RespMsg) :=
  if leNat (message.take 2) = raftMessage then some <$> handleRaftResponse C (message.drop 2)
  else .ok none

/-! ## What is written is read -/

variable {C}

theorem pos_lt_size_iff (b : Buffer) : b.pos < b.size ↔ b.rest ≠ [] := by
  have hlen : b.rest.length = b.data.length - b.pos := Block.length_rest
  rw [Buffer.size_eq, ← List.length_pos_iff, hlen]
  omega

theorem getEntries_nil {b : Buffer} (h : b.rest = []) : getEntries b = .ok [] := by
  rw [getEntries, if_neg (by rw [pos_lt_size_iff]; exact not_not_intro h)]

theorem getEntries_of_error {b : Buffer} {e : Fault} (hne : b.rest ≠ [])
    (h : getEntry b = .error e) : getEntries b = .error e := by
  rw [getEntries, if_pos ((pos_lt_size_iff b).2 hne)]
  split
  next e' h' =>
    rw [h] at h'
    cases h'
    rfl
  next h' =>
    rw [h] at h'
    cases h'

theorem getEntries_of_ok {b b' : Buffer} {e : LogEntry} (h : getEntry b = .ok (e, b')) :
    getEntries b = (getEntries b').map (e :: ·) := by
  have hne : b.rest ≠ [] := by
    intro hnil
    have hlt := rest_getEntry_lt h
    rw [hnil] at hlt
    exact Nat.not_lt_zero _ hlt
  rw [getEntries, if_pos ((pos_lt_size_iff b).2 hne)]
  split
  next h' =>
    rw [h] at h'
    cases h'
  next h' =>
    rw [h] at h'
    cases h'
    cases getEntries b' <;> rfl

theorem getEntries_encoding {es : List LogEntry} (hes : ∀ e ∈ es, e.buf.length < 2 ^ 31) {b : Buffer}
    (hrest : b.rest = es.flatMap LogEntry.encoding) : getEntries b = .ok es := by
  induction es generalizing b with
  | nil => exact getEntries_nil hrest
  | cons e es ih =>
    rw [List.flatMap_cons] at hrest
    rw [getEntries_of_ok (parses_getEntry (hes e (by simp)) b _ hrest),
      ih (fun e' he' => hes e' (by simp [he'])) (Block.rest_skip hrest)]
    rfl

/-- **Reading the entries.** The log data is empty, starts with something that is no entry, or with
an entry. -/
theorem getEntries_cases (b : Buffer) :
    (b.rest = [] ∧ getEntries b = .ok []) ∨
    (b.rest.length < 13 ∧ getEntries b = .error .overflow) ∨
    (∃ term valType valSize post, b.rest = entryHead term valType valSize ++ post ∧ valSize < 0 ∧
      getEntries b = .error .outOfRange) ∨
    (∃ term valType n post, b.rest = entryHead term valType (Int32.ofNat n) ++ post ∧
      n < 2 ^ 31 ∧ post.length < n ∧ getEntries b = .error .outOfBounds) ∨
    ∃ e b', b.rest = LogEntry.encoding e ++ b'.rest ∧ e.buf.length < 2 ^ 31 ∧
      getEntries b = (getEntries b').map (e :: ·) := by
  by_cases hnil : b.rest = []
  · exact .inl ⟨hnil, getEntries_nil hnil⟩
  refine .inr ?_
  rcases getEntry_cases b with ⟨hlen, he⟩ | ⟨term, valType, valSize, post, hrest, hneg, he⟩ |
    ⟨term, valType, n, post, hrest, hn, hroom, he⟩ | ⟨e, post, hrest, hlt, he⟩
  · exact .inl ⟨hlen, getEntries_of_error hnil he⟩
  · exact .inr (.inl ⟨term, valType, valSize, post, hrest, hneg, getEntries_of_error hnil he⟩)
  · exact .inr (.inr (.inl ⟨term, valType, n, post, hrest, hn, hroom,
      getEntries_of_error hnil he⟩))
  · refine .inr (.inr (.inr ⟨e, b.skip e.encoding.length, ?_, hlt, getEntries_of_ok he⟩))
    rw [Block.rest_skip hrest, hrest]

theorem getEntries_ok {b : Buffer} {es : List LogEntry} (h : getEntries b = .ok es) :
    b.rest = es.flatMap LogEntry.encoding ∧ ∀ e ∈ es, e.buf.length < 2 ^ 31 := by
  induction hlen : b.rest.length using Nat.strong_induction_on generalizing b es with
  | _ len ih =>
    rcases getEntries_cases b with ⟨hrest, he⟩ | ⟨_, he⟩ | ⟨_, _, _, _, _, _, he⟩ |
      ⟨_, _, _, _, _, _, _, he⟩ | ⟨e, b', hrest, hlt, he⟩
    · cases h.symm.trans he
      exact ⟨hrest, by simp⟩
    · cases h.symm.trans he
    · cases h.symm.trans he
    · cases h.symm.trans he
    · rw [h] at he
      cases hes : getEntries b' with
      | error _ => simp [hes, Except.map] at he
      | ok es' =>
        rw [hes] at he
        cases he
        have hlt' : b'.rest.length < len := by
          rw [← hlen, hrest, List.length_append, e.length_encoding]
          omega
        obtain ⟨hrest', hbufs⟩ := ih _ hlt' hes rfl
        refine ⟨by rw [hrest, hrest', List.flatMap_cons], ?_⟩
        simpa using ⟨hlt, hbufs⟩

/-- Log data that can be read inside of its bytes: whole entries, and then less than the head of one
or a head with a negative size. -/
inductive EntriesFit : Bytes → Prop
  | short {log : Bytes} (h : log.length < 13) : EntriesFit log
  | negative {log post : Bytes} {term : UInt64} {valType : UInt8} {valSize : Int32}
      (hlog : log = entryHead term valType valSize ++ post) (h : valSize < 0) : EntriesFit log
  | entry {log post : Bytes} {e : LogEntry} (hlog : log = e.encoding ++ post)
      (h : e.buf.length < 2 ^ 31) (hpost : EntriesFit post) : EntriesFit log

theorem EntriesFit.getEntries_ne {log : Bytes} (h : EntriesFit log) {b : Buffer}
    (hrest : b.rest = log) : getEntries b ≠ .error .outOfBounds := by
  induction h generalizing b with
  | short h =>
    subst hrest
    by_cases hnil : b.rest = []
    · rw [getEntries_nil hnil]
      simp
    · rw [getEntries_of_error hnil (getEntry_short h)]
      simp
  | negative hlog h =>
    subst hrest
    have hnil : b.rest ≠ [] := by
      rw [hlog]
      simp [entryHead]
    rw [getEntries_of_error hnil (getEntry_negative hlog h)]
    simp
  | entry hlog h _ ih =>
    subst hrest
    rw [getEntries_of_ok (parses_getEntry h b _ hlog)]
    have hpost := ih (Block.rest_skip hlog)
    revert hpost
    cases getEntries (b.skip _) <;> simp [Except.map]

theorem entriesFit_iff (b : Buffer) : EntriesFit b.rest ↔ getEntries b ≠ .error .outOfBounds := by
  refine ⟨fun h => h.getEntries_ne rfl, fun h => ?_⟩
  induction hlen : b.rest.length using Nat.strong_induction_on generalizing b with
  | _ len ih =>
    rcases getEntries_cases b with ⟨hrest, -⟩ | ⟨hshort, -⟩ | ⟨_, _, _, _, hrest, hneg, -⟩ |
      ⟨_, _, _, _, _, _, _, he⟩ | ⟨e, b', hrest, hlt, he⟩
    · exact .short (by simp [hrest])
    · exact .short hshort
    · exact .negative hrest hneg
    · exact absurd he h
    · have hlt' : b'.rest.length < len := by
        rw [← hlen, hrest, List.length_append, e.length_encoding]
        omega
      refine .entry hrest hlt (ih _ hlt' b' (fun hbad => h ?_) rfl)
      rw [he, hbad]
      rfl

/-- The header up to the size of the log data, and all of it. -/
def ReqMsg.fields (req : ReqMsg) : Bytes :=
  [req.type] ++ (leBytes 4 req.src.toUInt32.toNat ++ (leBytes 4 req.dst.toUInt32.toNat ++
    (leBytes 8 req.term.toNat ++ (leBytes 8 req.lastLogTerm.toNat ++
      (leBytes 8 req.lastLogIdx.toNat ++ leBytes 8 req.commitIdx.toNat)))))

def ReqMsg.header (req : ReqMsg) (logDataSize : Int32) : Bytes :=
  req.fields ++ leBytes 4 logDataSize.toUInt32.toNat

/-- The size of the entries of a request in bytes. -/
def ReqMsg.logDataSize (req : ReqMsg) : Nat := (req.logEntries.map fun e => 13 + e.buf.length).sum

def ReqMsg.encoding (req : ReqMsg) : Bytes :=
  req.header (Int32.ofNat req.logDataSize) ++ req.logEntries.flatMap LogEntry.encoding

/-- The bytes of a response. -/
def RespMsg.encoding (resp : RespMsg) : Bytes :=
  [resp.type] ++ (leBytes 4 resp.src.toUInt32.toNat ++ (leBytes 4 resp.dst.toUInt32.toNat ++
    (leBytes 8 resp.term.toNat ++ (leBytes 8 resp.nextIdx.toNat ++
      [if resp.accepted then 1 else 0]))))

@[simp] theorem ReqMsg.length_fields (req : ReqMsg) : req.fields.length = 41 := by
  simp [fields]

@[simp] theorem ReqMsg.length_header (req : ReqMsg) (n : Int32) : (req.header n).length = 45 := by
  simp [header]

theorem RespMsg.length_encoding (resp : RespMsg) : resp.encoding.length = rpcRespHeaderSize := by
  simp [encoding, rpcRespHeaderSize]

theorem ReqMsg.length_log (req : ReqMsg) :
    (req.logEntries.flatMap LogEntry.encoding).length = req.logDataSize := by
  simp [List.length_flatMap, LogEntry.length_encoding, logDataSize]

theorem ReqMsg.length_encoding (req : ReqMsg) : req.encoding.length = 45 + req.logDataSize := by
  rw [encoding, List.length_append, length_header, length_log]

/-- Any 45 bytes are the header of a request. -/
theorem exists_header {bs : Bytes} (h : 45 ≤ bs.length) :
    ∃ (req : ReqMsg) (n : Int32) (post : Bytes), req.logEntries = [] ∧ bs = req.header n ++ post := by
  obtain ⟨type, bs₁, rfl⟩ := exists_byte (show 1 ≤ bs.length by omega)
  rw [List.length_append, List.length_singleton] at h
  obtain ⟨src, bs₂, rfl⟩ := exists_int (show 4 ≤ bs₁.length by omega)
  rw [List.length_append, length_leBytes] at h
  obtain ⟨dst, bs₃, rfl⟩ := exists_int (show 4 ≤ bs₂.length by omega)
  rw [List.length_append, length_leBytes] at h
  obtain ⟨term, bs₄, rfl⟩ := exists_ulong (show 8 ≤ bs₃.length by omega)
  rw [List.length_append, length_leBytes] at h
  obtain ⟨lastTerm, bs₅, rfl⟩ := exists_ulong (show 8 ≤ bs₄.length by omega)
  rw [List.length_append, length_leBytes] at h
  obtain ⟨lastIdx, bs₆, rfl⟩ := exists_ulong (show 8 ≤ bs₅.length by omega)
  rw [List.length_append, length_leBytes] at h
  obtain ⟨commitIdx, bs₇, rfl⟩ := exists_ulong (show 8 ≤ bs₆.length by omega)
  rw [List.length_append, length_leBytes] at h
  obtain ⟨n, post, rfl⟩ := exists_int (show 4 ≤ bs₇.length by omega)
  refine ⟨⟨type, src, dst, term, lastTerm, lastIdx, commitIdx, []⟩, n, post, rfl, ?_⟩
  simp [ReqMsg.header, ReqMsg.fields]

theorem parses_getHeader {req : ReqMsg} (hreq : req.logEntries = []) (n : Int32) :
    Parses getHeader (req.header n) (req, n) := by
  simp only [ReqMsg.header, ReqMsg.fields, List.append_assoc]
  refine (parses_getByte _).bind ((parses_getInt _).bind ((parses_getInt _).bind
    ((parses_getUlong _).bind ((parses_getUlong _).bind ((parses_getUlong _).bind
      ((parses_getUlong _).bind ((parses_getInt _).bind_pure ?_)))))))
  rw [← hreq]

theorem LogEntry.serialize_eq (e : LogEntry) (h : e.encoding.length < 2 ^ 31) :
    e.serialize = .ok ⟨e.encoding, 0, h, Nat.zero_le _⟩ := by
  have hlen := e.length_encoding
  refine build_eq ?_ hlen h
  simp only [encoding, entryHead, List.append_assoc]
  exact (emits_put _).bind ((emits_put _).bind ((emits_put _).bind (emits_put _)))

theorem ReqMsg.length_le_of_mem (req : ReqMsg) {e : LogEntry} (he : e ∈ req.logEntries) :
    e.encoding.length ≤ req.logDataSize := by
  rw [← req.length_log]
  exact (List.sublist_flatten_of_mem (List.mem_map_of_mem he)).length_le

theorem foldl_ofNat (l : List Nat) (n : Nat) :
    (l.map Int32.ofNat).foldl (· + ·) (Int32.ofNat n) = Int32.ofNat (n + l.sum) := by
  induction l generalizing n with
  | nil => rfl
  | cons k l ih =>
    rw [List.map_cons, List.foldl_cons, ← Int32.ofNat_add, ih, List.sum_cons, Nat.add_assoc]

theorem sizeT_req {n : Nat} (h : 45 + n < 2 ^ 31) :
    sizeT (Int32.ofNat rpcReqHeaderSize + Int32.ofNat n) = 45 + n := by
  have hheader : rpcReqHeaderSize = 45 := rfl
  rw [hheader, ← Int32.ofNat_add, sizeT_ofNat h]

theorem ReqMsg.mapM_logEntries (req : ReqMsg) (h : req.logDataSize < 2 ^ 31) :
    ∃ bufs : List Buffer, req.logEntries.mapM LogEntry.serialize = .ok bufs ∧
      bufs.map Block.rest = req.logEntries.map LogEntry.encoding ∧
      (bufs.map fun b => Int32.ofNat b.size).foldl (· + ·) 0 = Int32.ofNat req.logDataSize := by
  obtain ⟨bufs, hbufs, hrest, hsize⟩ := mapM_serialize LogEntry.serialize_eq req.logEntries
    fun e he => (req.length_le_of_mem he).trans_lt h
  refine ⟨bufs, hbufs, hrest, ?_⟩
  have hmap : (bufs.map fun b => Int32.ofNat b.size) = (bufs.map Buffer.size).map Int32.ofNat := by
    rw [List.map_map]
    rfl
  have hfold := foldl_ofNat (req.logEntries.map fun e => e.encoding.length) 0
  simp only [LogEntry.length_encoding, Nat.zero_add] at hfold
  rw [hmap, hsize]
  simp only [LogEntry.length_encoding]
  exact hfold

theorem serializeReq_eq (req : ReqMsg) (h : req.encoding.length < 2 ^ 31) :
    serializeReq req = .ok ⟨req.encoding, 0, h, Nat.zero_le _⟩ := by
  have hlen := req.length_encoding
  obtain ⟨bufs, hbufs, hrest, hsum⟩ := req.mapM_logEntries (by omega)
  unfold serializeReq
  rw [hbufs]
  show build _ _ = _
  rw [hsum]
  refine build_eq ?_ (hlen.trans (sizeT_req (hlen ▸ h)).symm) h
  simp only [ReqMsg.encoding, ReqMsg.header, ReqMsg.fields, List.append_assoc]
  exact (emits_put _).bind ((emits_put _).bind ((emits_put _).bind ((emits_put _).bind
    ((emits_put _).bind ((emits_put _).bind ((emits_put _).bind ((emits_put _).bind
      (emits_putBuffers hrest))))))))

/-- With the header the size of the block does not fit an `int32`. -/
theorem serializeReq_eq_error (req : ReqMsg) (hge : 2 ^ 31 ≤ 45 + req.logDataSize)
    (hlt : req.logDataSize < 2 ^ 31) : serializeReq req = .error .outOfRange := by
  obtain ⟨bufs, hbufs, -, hsum⟩ := req.mapM_logEntries hlt
  have hneg : Int32.ofNat rpcReqHeaderSize + Int32.ofNat req.logDataSize < 0 := by
    have hheader : rpcReqHeaderSize = 45 := rfl
    rw [hheader, ← Int32.ofNat_add, Int32.lt_iff_toInt_lt, Int32.toInt_ofNat', Int.bmod]
    have hsize : Int32.size = 2 ^ 32 := rfl
    show _ < (0 : Int)
    rw [hsize]
    split <;> omega
  unfold serializeReq
  rw [hbufs]
  show build _ _ = _
  rw [hsum]
  exact build_eq_error (sizeT_of_neg hneg)

/-! ## What arrives -/

theorem copyFrom_eq {message : Bytes} {off n : Nat} (h : off + n ≤ message.length)
    (hn : n < 2 ^ 31) :
    ∃ b : Buffer, copyFrom message off n = .ok b ∧ b.data = (message.drop off).take n ∧ b.pos = 0 := by
  have hlen : ((message.drop off).take n).length = n := by
    rw [List.length_take, List.length_drop]
    omega
  refine ⟨_, build_eq ?_ hlen (hlen.symm ▸ hn), rfl, rfl⟩
  rw [if_neg (by omega)]
  exact emits_put _

theorem copyFrom_outOfBounds {message : Bytes} {off n : Nat} (h : message.length < off + n)
    (hn : n < 2 ^ 31) : copyFrom message off n = .error .outOfBounds := by
  unfold copyFrom build alloc
  rw [dif_pos hn, if_pos h]
  rfl

theorem copyFrom_outOfRange {message : Bytes} {off n : Nat} (hn : 2 ^ 31 ≤ n) :
    copyFrom message off n = .error .outOfRange := by
  exact build_eq_error hn

/-- The decrypted text, where there is one. -/
def plaintext (C : Cipher) (data : Bytes) : Bytes :=
  C.decrypt (data.take blockSize) (data.drop blockSize)

theorem raftDecrypt_eq {data : Bytes} (hge : blockSize ≤ data.length)
    (hlt : data.length < blockSize + 2 ^ 31) : raftDecrypt C data = .ok (plaintext C data) := by
  rw [raftDecrypt, if_neg (by omega), if_neg (by omega)]
  rfl

/-- A header is followed by as many bytes as it says. -/
theorem splitMessage_eq {data : Bytes} {req : ReqMsg} {n : Int32} {post : Bytes}
    (hdec : raftDecrypt C data = .ok (req.header n ++ post)) :
    ∃ header : Buffer, header.data = req.header n ∧ splitMessage C data =
      (fun logData => (header, logData)) <$> copyFrom (req.header n ++ post) 45 (sizeT n) := by
  obtain ⟨header, hcopy, hdata, -⟩ : ∃ b : Buffer, copyFrom (req.header n ++ post) 0 45 = .ok b ∧
      b.data = ((req.header n ++ post).drop 0).take 45 ∧ b.pos = 0 :=
    copyFrom_eq (by simp) (by decide)
  rw [List.drop_zero, List.take_left' (req.length_header n)] at hdata
  have hrest : (header.seek 41).rest = leBytes 4 n.toUInt32.toNat ++ [] := by
    show header.data.drop (min 41 header.data.length) = _
    rw [hdata, req.length_header, ReqMsg.header, List.append_nil]
    exact List.drop_left' req.length_fields
  refine ⟨header, hdata, ?_⟩
  have hsize : rpcReqHeaderSize = 45 := rfl
  have hint : getInt (header.seek (45 - 4)) = .ok (n, _) := parses_getInt n _ [] hrest
  simp only [splitMessage, hsize, hdec, bind, Except.bind, hcopy, hint]
  generalize copyFrom _ 45 (sizeT n) = r
  cases r <;> rfl

theorem deserializeReq_eq {header logData : Buffer} {req : ReqMsg} {k : Nat}
    (hreq : req.logEntries = []) (hheader : header.data = req.header (Int32.ofNat k))
    (hlog : logData.data.length = k) :
    deserializeReq header logData =
      (getEntries (logData.seek 0)).map fun es => { req with logEntries := es } := by
  have hk : k < 2 ^ 31 := hlog ▸ logData.size_lt
  have hrest : (header.seek 0).rest = req.header (Int32.ofNat k) ++ [] := by
    rw [List.append_nil, ← hheader]
    exact congrArg header.data.drop (Nat.zero_min _)
  unfold deserializeReq
  rw [parses_getHeader hreq _ _ [] hrest]
  simp only [bind, Except.bind]
  by_cases hpos : 0 < k
  · have hpos' : 0 < Int32.ofNat k := by
      rw [Int32.lt_iff_toInt_lt, Int32.toInt_ofNat_of_lt hk]
      exact Int.natCast_pos.2 hpos
    rw [if_pos hpos']
    cases getEntries (logData.seek 0) <;> rfl
  · obtain rfl : k = 0 := by omega
    have hnil : (logData.seek 0).rest = [] := by
      show logData.data.drop _ = []
      rw [List.length_eq_zero_iff.1 hlog, List.drop_nil]
    rw [getEntries_nil hnil]
    show Except.ok req = .ok { req with logEntries := [] }
    rw [← hreq]

theorem handleRaftMessage_of_neg {data : Bytes} {req : ReqMsg} {n : Int32} {post : Bytes}
    (hdec : raftDecrypt C data = .ok (req.header n ++ post)) (hneg : n < 0) :
    handleRaftMessage C data = .escapes .outOfRange := by
  obtain ⟨header, -, hsplit⟩ := splitMessage_eq hdec
  rw [copyFrom_outOfRange (sizeT_of_neg hneg)] at hsplit
  rw [handleRaftMessage, hsplit]
  rfl

theorem handleRaftMessage_of_lt {data : Bytes} {req : ReqMsg} {k : Nat} {post : Bytes}
    (hdec : raftDecrypt C data = .ok (req.header (Int32.ofNat k) ++ post)) (hk : k < 2 ^ 31)
    (hpost : post.length < k) : handleRaftMessage C data = .outOfBounds := by
  obtain ⟨header, -, hsplit⟩ := splitMessage_eq hdec
  have hlen : (req.header (Int32.ofNat k) ++ post).length < 45 + k := by simp [hpost]
  rw [sizeT_ofNat hk, copyFrom_outOfBounds hlen hk] at hsplit
  rw [handleRaftMessage, hsplit]
  rfl

theorem handleRaftMessage_of_le {data : Bytes} {req : ReqMsg} {k : Nat} {post : Bytes}
    (hreq : req.logEntries = [])
    (hdec : raftDecrypt C data = .ok (req.header (Int32.ofNat k) ++ post)) (hk : k < 2 ^ 31)
    (hpost : k ≤ post.length) : ∃ b : Buffer, b.rest = post.take k ∧ handleRaftMessage C data =
      .ofTry ((getEntries b).map fun es => { req with logEntries := es }) := by
  obtain ⟨header, hheader, hsplit⟩ := splitMessage_eq hdec
  obtain ⟨logData, hcopy, hdata, -⟩ : ∃ b : Buffer,
      copyFrom (req.header (Int32.ofNat k) ++ post) 45 k = .ok b ∧
      b.data = ((req.header (Int32.ofNat k) ++ post).drop 45).take k ∧ b.pos = 0 :=
    copyFrom_eq (by simp [hpost]) hk
  rw [List.drop_left' (req.length_header _)] at hdata
  rw [sizeT_ofNat hk, hcopy] at hsplit
  have hlen : logData.data.length = k := by rw [hdata, List.length_take_of_le hpost]
  refine ⟨logData.seek 0, ?_, ?_⟩
  · rw [← hdata]
    exact congrArg logData.data.drop (Nat.zero_min _)
  · rw [handleRaftMessage, hsplit, ← deserializeReq_eq hreq hheader hlen]
    rfl

/-! ## Round trips -/

theorem raftDecrypt_append (iv : Iv) {text : Bytes} (h : text.length < 2 ^ 31) :
    raftDecrypt C (iv.1 ++ C.encrypt iv.1 text) = .ok text := by
  have hlen := C.length_encrypt iv.1 text
  have hiv := iv.2
  rw [raftDecrypt_eq (by simp [hiv]) (by simp [hiv, hlen]; exact h), plaintext,
    List.take_left' hiv, List.drop_left' hiv, C.decrypt_encrypt]

theorem handleRpcRequest_raft (data : Bytes) :
    handleRpcRequest C (raftMessageBytes ++ data) = .raft (handleRaftMessage C data) := rfl

theorem rpcResponse_raft (data : Bytes) :
    rpcResponse C (raftMessageBytes ++ data) = some <$> handleRaftResponse C data := rfl

theorem handleRaftMessage_encoding {data : Bytes} {req : ReqMsg}
    (hlen : req.encoding.length < 2 ^ 31) (hdec : raftDecrypt C data = .ok req.encoding) :
    handleRaftMessage C data = .request req := by
  have hsize := req.length_encoding
  have hbufs : ∀ e ∈ req.logEntries, e.buf.length < 2 ^ 31 := by
    intro e he
    have hle := req.length_le_of_mem he
    rw [e.length_encoding] at hle
    omega
  obtain ⟨b, hrest, heq⟩ : ∃ b : Buffer,
      b.rest = (req.logEntries.flatMap LogEntry.encoding).take req.logDataSize ∧
      handleRaftMessage C data = .ofTry ((getEntries b).map fun es =>
        { { req with logEntries := [] } with logEntries := es }) :=
    @handleRaftMessage_of_le C data { req with logEntries := [] } _ _ rfl hdec (by omega)
      (Nat.le_of_eq req.length_log.symm)
  rw [List.take_of_length_le (Nat.le_of_eq req.length_log)] at hrest
  rw [heq, getEntries_encoding hbufs hrest]
  rfl

theorem RespMsg.encoding_lt (resp : RespMsg) : resp.encoding.length < 2 ^ 31 := by
  rw [resp.length_encoding]
  decide

theorem serializeResp_eq (resp : RespMsg) :
    serializeResp resp = .ok ⟨resp.encoding, 0, resp.encoding_lt, Nat.zero_le _⟩ :=
  build_eq ((emits_put _).bind ((emits_put _).bind ((emits_put _).bind ((emits_put _).bind
    ((emits_put _).bind (emits_put _)))))) resp.length_encoding resp.encoding_lt

theorem parses_getResp (resp : RespMsg) : Parses getResp resp.encoding resp := by
  refine (parses_getByte _).bind ((parses_getInt _).bind ((parses_getInt _).bind
    ((parses_getUlong _).bind ((parses_getUlong _).bind ((parses_getByte _).bind_pure ?_)))))
  have haccepted : ((if resp.accepted then 1 else 0 : UInt8) == 1) = resp.accepted := by
    cases resp.accepted <;> rfl
  rw [haccepted]

theorem handleRaftResponse_encoding {data : Bytes} {resp : RespMsg}
    (hdec : raftDecrypt C data = .ok resp.encoding) : handleRaftResponse C data = .ok resp := by
  have hlen := resp.length_encoding
  let b : Buffer := ⟨resp.encoding, 0, resp.encoding_lt, Nat.zero_le _⟩
  have hbuild : build rpcRespHeaderSize (put resp.encoding) = .ok b :=
    build_eq (emits_put _) hlen resp.encoding_lt
  have hrest : (b.seek 0).rest = resp.encoding ++ [] := by simp [b, Block.rest, Block.seek]
  simp only [handleRaftResponse, hdec, bind, Except.bind, if_pos (Nat.le_of_eq hlen), hbuild,
    deserializeResp, parses_getResp resp _ [] hrest]
  rfl

/-- **Messages arrive as they were sent.** Under any cipher that keeps lengths and whose decryption
inverts its encryption, with any initialisation vector: every request whose log data leaves room for
the header in a buffer comes out of the port of the server as it went into the port of the client,
and every response the other way. -/
theorem messages_round_trip (C : Cipher) :
    (∀ (iv : Iv) (req : ReqMsg), req.logDataSize < 2 ^ 31 - rpcReqHeaderSize →
      ∃ message, send C iv req = .ok message ∧
        handleRpcRequest C message = .raft (.request req)) ∧
    ∀ (iv : Iv) (resp : RespMsg), ∃ message, respond C iv resp = .ok message ∧
      rpcResponse C message = .ok (some resp) := by
  refine ⟨fun iv req hsize => ?_, fun iv resp => ?_⟩
  · have hlen : req.encoding.length < 2 ^ 31 := by
      rw [req.length_encoding]
      rw [rpcReqHeaderSize] at hsize
      omega
    refine ⟨raftMessageBytes ++ (iv.1 ++ C.encrypt iv.1 req.encoding), ?_, ?_⟩
    · simp only [send, serializeReq_eq req hlen, bind, Except.bind, raftEncrypt, if_pos hlen]
      rfl
    · rw [handleRpcRequest_raft, handleRaftMessage_encoding hlen (raftDecrypt_append iv hlen)]
  · refine ⟨raftMessageBytes ++ (iv.1 ++ C.encrypt iv.1 resp.encoding), ?_, ?_⟩
    · simp only [respond, serializeResp_eq, bind, Except.bind, raftEncrypt, if_pos resp.encoding_lt]
      rfl
    · rw [rpcResponse_raft, handleRaftResponse_encoding (raftDecrypt_append iv resp.encoding_lt)]
      rfl

/-- No encryption at all keeps lengths and is its own inverse. -/
def Cipher.plain : Cipher := ⟨fun _ text => text, fun _ text => text, by simp, by simp, by simp⟩

theorem messages_round_trip_plain :
    ∃ message, send .plain ⟨List.replicate 16 7, rfl⟩ ⟨3, 1, 2, 5, 4, 8, 7, [⟨5, 1, [9]⟩, ⟨5, 1, []⟩]⟩ =
      .ok message ∧ handleRpcRequest .plain message =
        .raft (.request ⟨3, 1, 2, 5, 4, 8, 7, [⟨5, 1, [9]⟩, ⟨5, 1, []⟩]⟩) :=
  (messages_round_trip .plain).1 _ _ (by decide)

theorem send_error {iv : Iv} {req : ReqMsg} (hge : 2 ^ 31 ≤ 45 + req.logDataSize)
    (hlt : req.logDataSize < 2 ^ 31) : send C iv req = .error .outOfRange := by
  unfold send
  rw [serializeReq_eq_error req hge hlt]
  rfl

/-- A request with one entry whose log data is less than `2 ^ 31` bytes but leaves no room for the
header is not sent. -/
theorem messages_without_room :
    let req : ReqMsg := ⟨3, 1, 2, 5, 4, 8, 7, [⟨5, 1, List.replicate (2 ^ 31 - 45 - 13) 0⟩]⟩
    req.logDataSize < 2 ^ 31 ∧
      send .plain ⟨List.replicate 16 7, rfl⟩ req = .error .outOfRange := by
  intro req
  have hsize : req.logDataSize = 2 ^ 31 - 45 := by
    simp only [req, ReqMsg.logDataSize, List.map_cons, List.map_nil, List.sum_cons, List.sum_nil,
      List.length_replicate]
    omega
  rw [hsize]
  exact ⟨by decide, send_error (by rw [hsize]; decide) (by rw [hsize]; decide)⟩

/-! ## Malformed messages -/

/-- The size of the log data that a decrypted message announces. -/
def announcedSize (plain : Bytes) : Int32 := (leNat ((plain.drop 41).take 4)).toUInt32.toInt32

/-- The bytes of the log data, if there are as many. -/
def announcedLog (plain : Bytes) : Bytes := (plain.drop 45).take (announcedSize plain).toInt.toNat

/-- The message is not answered, or it is understood as a request that is written in the same
bytes. -/
def Decoded.Clean (plain : Bytes) : Decoded → Prop
  | .rejected _ => True
  | .request req =>
    ∃ b, serializeReq req = .ok b ∧ b.data = plain.take 45 ++ announcedLog plain
  | _ => False

def Clean (C : Cipher) (message : Bytes) : Prop :=
  match handleRpcRequest C message with
  | .raft decoded => decoded.Clean (plaintext C (message.drop 2))
  | _ => False

/-- The message holds the vector and a header, it announces no more log data than it holds, and no
entry of the log data announces a longer value than there is. -/
structure WellSized (C : Cipher) (data : Bytes) : Prop where
  header : 16 + 45 ≤ data.length
  int : data.length < 16 + 2 ^ 31
  nonneg : 0 ≤ announcedSize (plaintext C data)
  log : 45 + (announcedSize (plaintext C data)).toInt.toNat ≤ (plaintext C data).length
  entries : EntriesFit (announcedLog (plaintext C data))

theorem announcedSize_header (req : ReqMsg) (n : Int32) (post : Bytes) :
    announcedSize (req.header n ++ post) = n := by
  have hdrop : (req.header n ++ post).drop 41 = leBytes 4 n.toUInt32.toNat ++ post := by
    rw [ReqMsg.header, List.append_assoc]
    exact List.drop_left' req.length_fields
  rw [announcedSize, hdrop, List.take_left' (length_leBytes _ _),
    leNat_leBytes n.toUInt32.toNat_lt]
  simp

theorem announcedLog_header (req : ReqMsg) {k : Nat} (hk : k < 2 ^ 31) (post : Bytes) :
    announcedLog (req.header (Int32.ofNat k) ++ post) = post.take k := by
  rw [announcedLog, announcedSize_header, List.drop_left' (req.length_header _),
    Int32.toInt_ofNat_of_lt hk, Int.toNat_natCast]

theorem handleRaftMessage_short {data : Bytes} {plain : Bytes} (hdec : raftDecrypt C data = .ok plain)
    (hlen : plain.length < 45) : handleRaftMessage C data = .outOfBounds := by
  have hsplit : splitMessage C data = .error .outOfBounds := by
    have hsize : rpcReqHeaderSize = 45 := rfl
    have hcopy : copyFrom plain 0 45 = .error .outOfBounds :=
      copyFrom_outOfBounds (by omega) (by decide)
    simp only [splitMessage, hsize, hdec, bind, Except.bind, hcopy]
  rw [handleRaftMessage, hsplit]

/-- Entries that were read are written in the bytes they were read from. -/
theorem clean_ofTry_iff {req : ReqMsg} {k : Nat} {post : Bytes} (hk : 45 + k < 2 ^ 31)
    (hpost : k ≤ post.length) {b : Buffer} (hrest : b.rest = post.take k) :
    (Decoded.ofTry ((getEntries b).map fun es => { req with logEntries := es })).Clean
      (req.header (Int32.ofNat k) ++ post) ↔ getEntries b ≠ .error .outOfBounds := by
  cases hes : getEntries b with
  | error e => cases e <;> simp [Except.map, Decoded.ofTry, Decoded.Clean]
  | ok es =>
    refine iff_of_true ?_ (by simp)
    obtain ⟨hlog, -⟩ := getEntries_ok hes
    let req' : ReqMsg := { req with logEntries := es }
    have hsize : req'.logDataSize = k := by
      rw [← req'.length_log]
      show (es.flatMap LogEntry.encoding).length = k
      rw [← hlog, hrest, List.length_take_of_le hpost]
    have hlt : req'.encoding.length < 2 ^ 31 := by
      rw [req'.length_encoding, hsize]
      exact hk
    refine ⟨_, serializeReq_eq req' hlt, ?_⟩
    show req'.encoding = _
    rw [ReqMsg.encoding, hsize, List.take_left' (req.length_header _),
      announcedLog_header req (by omega) post, ← hrest, hlog]
    rfl

/-- A message with a header is handled according to the size that the header announces. -/
theorem clean_iff_of_plaintext {data : Bytes} {req : ReqMsg} {n : Int32} {post : Bytes}
    (hge : 16 ≤ data.length) (hint : data.length < 16 + 2 ^ 31) (hreq : req.logEntries = [])
    (hplain : plaintext C data = req.header n ++ post) :
    (handleRaftMessage C data).Clean (plaintext C data) ↔ WellSized C data := by
  have hdec : raftDecrypt C data = .ok (req.header n ++ post) := by
    rw [← hplain]
    exact raftDecrypt_eq hge hint
  have hlen : (plaintext C data).length = data.length - 16 := by
    rw [plaintext, C.length_decrypt, List.length_drop, blockSize]
  have hpost : (plaintext C data).length = 45 + post.length := by
    rw [hplain, List.length_append, req.length_header]
  have hsize : announcedSize (plaintext C data) = n := by rw [hplain, announcedSize_header]
  by_cases hneg : n < 0
  · rw [handleRaftMessage_of_neg hdec hneg]
    refine iff_of_false id fun h => ?_
    have hnonneg := h.nonneg
    rw [hsize] at hnonneg
    exact absurd hneg (Int32.not_lt.2 hnonneg)
  obtain ⟨k, hk, rfl⟩ := exists_ofNat hneg
  have htoNat : (announcedSize (plaintext C data)).toInt.toNat = k := by
    rw [hsize, Int32.toInt_ofNat_of_lt hk, Int.toNat_natCast]
  by_cases hlog : post.length < k
  · rw [handleRaftMessage_of_lt hdec hk hlog]
    refine iff_of_false id fun h => ?_
    have hle := h.log
    rw [htoNat] at hle
    omega
  have hle : k ≤ post.length := Nat.le_of_not_lt hlog
  obtain ⟨b, hrest, hdecoded⟩ := handleRaftMessage_of_le hreq hdec hk hle
  have hannounced : announcedLog (plaintext C data) = b.rest := by
    rw [hplain, announcedLog_header req hk, hrest]
  rw [hdecoded, hplain, clean_ofTry_iff (by omega) hle hrest, ← entriesFit_iff, ← hannounced]
  refine ⟨fun h => ⟨by omega, hint, ?_, by omega, h⟩, fun h => h.entries⟩
  rw [hsize]
  exact Int32.not_lt.1 hneg

/-- **Malformed messages.** For any bytes after the type of a raft message: the message is rejected,
or understood as the request that its bytes are, exactly if its three kinds of sizes fit. -/
theorem messages_rejected_cleanly (C : Cipher) (data : Bytes) :
    Clean C (raftMessageBytes ++ data) ↔ WellSized C data := by
  show (handleRaftMessage C data).Clean (plaintext C data) ↔ _
  by_cases hge : data.length < blockSize
  · have hdec : raftDecrypt C data = .error .outOfBounds := if_pos hge
    rw [handleRaftMessage, splitMessage, hdec]
    refine iff_of_false id fun h => ?_
    have hheader := h.header
    rw [blockSize] at hge
    omega
  by_cases hint : 2 ^ 31 ≤ data.length - blockSize
  · have hdec : raftDecrypt C data = .error .cipherFailed := by
      rw [raftDecrypt, if_neg hge, if_pos hint]
    rw [handleRaftMessage, splitMessage, hdec]
    refine iff_of_false id fun h => ?_
    have hlt := h.int
    rw [blockSize] at hint
    omega
  rw [blockSize] at hge hint
  by_cases hshort : (plaintext C data).length < 45
  · have hdec := raftDecrypt_eq (C := C) (Nat.le_of_not_lt hge) (by rw [blockSize]; omega)
    rw [handleRaftMessage_short hdec hshort]
    refine iff_of_false id fun h => ?_
    have hheader := h.header
    rw [plaintext, C.length_decrypt, List.length_drop, blockSize] at hshort
    omega
  · obtain ⟨req, n, post, hreq, hplain⟩ := exists_header (Nat.le_of_not_lt hshort)
    exact clean_iff_of_plaintext (by omega) (by omega) hreq hplain

/-- A header, and the header of a request with one entry, that announce more than there is; and a
header that announces a negative size, which is an exception outside of the `try` block. -/
theorem messages_not_rejected :
    handleRpcRequest .plain (raftMessageBytes ++ (List.replicate 16 0 ++
      (⟨3, 1, 2, 5, 4, 8, 7, []⟩ : ReqMsg).header 1)) = .raft .outOfBounds ∧
    handleRpcRequest .plain (raftMessageBytes ++ (List.replicate 16 0 ++
      (⟨3, 1, 2, 5, 4, 8, 7, []⟩ : ReqMsg).header 13 ++ entryHead 5 1 70000)) = .raft .outOfBounds ∧
    handleRpcRequest .plain (raftMessageBytes ++ (List.replicate 16 0 ++
      (⟨3, 1, 2, 5, 4, 8, 7, []⟩ : ReqMsg).header (-1))) = .raft (.escapes .outOfRange) ∧
    ¬Clean .plain (raftMessageBytes ++ (List.replicate 16 0 ++
      (⟨3, 1, 2, 5, 4, 8, 7, []⟩ : ReqMsg).header 1)) := by
  have hout : handleRpcRequest .plain (raftMessageBytes ++ (List.replicate 16 0 ++
      (⟨3, 1, 2, 5, 4, 8, 7, []⟩ : ReqMsg).header 1)) = .raft .outOfBounds := by decide +kernel
  refine ⟨hout, ?_, by decide +kernel, ?_⟩
  · let req : ReqMsg := ⟨3, 1, 2, 5, 4, 8, 7, []⟩
    have hdec : raftDecrypt .plain (List.replicate 16 0 ++ req.header 13 ++ entryHead 5 1 70000) =
        .ok (req.header (Int32.ofNat 13) ++ entryHead 5 1 70000) := by
      decide +kernel
    obtain ⟨b, hrest, hmessage⟩ := handleRaftMessage_of_le rfl hdec (by decide) (by simp)
    rw [List.take_of_length_le (by simp)] at hrest
    have hhead : b.rest = entryHead 5 1 (Int32.ofNat 70000) ++ [] := by
      rw [hrest]
      rfl
    have hentry := getEntry_beyond hhead (by decide) (by decide)
    rw [handleRpcRequest_raft, hmessage, getEntries_of_error (by rw [hrest]; decide) hentry]
    rfl
  · rw [Clean, hout]
    exact id

end EnclaveRaft.Wire
