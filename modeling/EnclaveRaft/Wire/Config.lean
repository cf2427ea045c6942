import EnclaveRaft.Wire.Buffer

/-!
# Configurations and snapshots as bytes

The encoders of `srv_config`, `cluster_config`, `snapshot` and `snapshot_sync_req`, each embedded in
the next one. An encoder first asks the parts for their bytes, to know the size of the block.

The decoders take back what the encoders wrote, with one exception: the endpoint of a server is a
string that ends with a zero, and an empty one is read as a null pointer.
-/

namespace EnclaveRaft

open Wire

/-! ## Servers -/

namespace SrvConfig

def serialize (c : SrvConfig) : Except Fault Buffer :=
  build (4 + c.endpoint.length + 1) do
    putInt (Int32.ofInt c.id)
    putStr c.endpoint

def deserialize : BufM SrvConfig := do
  let id ← getInt
  match ← getStr with
  | some endpoint => pure ⟨id.toInt, endpoint⟩
  | none => throw .nullString

/-- The values that the fields of the source can have, with an endpoint that is a C string. -/
structure Typed (c : SrvConfig) : Prop where
  id_ge : -2 ^ 31 ≤ c.id
  id_lt : c.id < 2 ^ 31
  endpoint : 0 ∉ c.endpoint

instance (c : SrvConfig) : Decidable c.Typed :=
  decidable_of_iff (-2 ^ 31 ≤ c.id ∧ c.id < 2 ^ 31 ∧ 0 ∉ c.endpoint)
    ⟨fun h => ⟨h.1, h.2.1, h.2.2⟩, fun h => ⟨h.id_ge, h.id_lt, h.endpoint⟩⟩

/-- The bytes of a server. -/
def encoding (c : SrvConfig) : Bytes :=
  leBytes 4 (Int32.ofInt c.id).toUInt32.toNat ++ (c.endpoint ++ [0])

theorem length_encoding (c : SrvConfig) : c.encoding.length = 4 + c.endpoint.length + 1 := by
  simp [encoding]
  omega

theorem serialize_eq (c : SrvConfig) (h : c.encoding.length < 2 ^ 31) :
    c.serialize = .ok ⟨c.encoding, 0, h, Nat.zero_le _⟩ :=
  build_eq ((emits_put _).bind (emits_put _)) c.length_encoding h

theorem serialize_eq_error (c : SrvConfig) (h : 2 ^ 31 ≤ c.encoding.length) :
    c.serialize = .error .outOfRange :=
  build_eq_error (c.length_encoding ▸ h)

theorem parses_deserialize {c : SrvConfig} (hc : c.Typed) (hne : c.endpoint ≠ []) :
    Parses deserialize c.encoding c := by
  have hid : (Int32.ofInt c.id).toInt = c.id :=
    Int32.toInt_ofInt_of_le hc.id_ge hc.id_lt
  refine (parses_getInt _).bind ?_
  rw [← List.append_nil (c.endpoint ++ [0])]
  refine (parses_getStr hne hc.endpoint).bind ?_
  show Parses (pure ⟨(Int32.ofInt c.id).toInt, c.endpoint⟩) [] c
  rw [hid]
  exact parses_pure c

/-- The string of an empty endpoint is made from a null pointer. -/
theorem fails_deserialize {c : SrvConfig} (hempty : c.endpoint = []) :
    Fails deserialize c.encoding := by
  refine (parses_getInt _).bind_fails ?_
  intro b post hrest
  rw [hempty] at hrest
  refine ⟨.nullString, ?_⟩
  show (getStr b >>= fun x => (match x.1 with
    | some endpoint => pure ⟨_, endpoint⟩
    | none => throw .nullString : BufM SrvConfig) x.2) = _
  rw [getStr_empty hrest]
  rfl

end SrvConfig

/-! ## Configurations -/

namespace ClusterConfig

def serialize (c : ClusterConfig) : Except Fault Buffer := do
  let bufs ← c.servers.mapM SrvConfig.serialize
  build (2 * 8 + 4 + (bufs.map Buffer.size).sum) do
    putUlong c.logIdx.toUInt64
    putUlong c.prevLogIdx.toUInt64
    putInt (Int32.ofNat c.servers.length)
    bufs.forM putBuffer

/-- `cnt` servers in a row. -/
def getServers : Nat → BufM (List SrvConfig)
  | 0 => pure []
  | cnt + 1 => do
    let srv ← SrvConfig.deserialize
    return srv :: (← getServers cnt)

def deserialize : BufM ClusterConfig := do
  let logIdx ← getUlong
  let prevLogIdx ← getUlong
  let cnt ← getInt
  let servers ← getServers cnt.toInt.toNat
  return ⟨logIdx.toNat, prevLogIdx.toNat, servers⟩

structure Typed (c : ClusterConfig) : Prop where
  logIdx : c.logIdx < 2 ^ 64
  prevLogIdx : c.prevLogIdx < 2 ^ 64
  servers : ∀ s ∈ c.servers, s.Typed

instance (c : ClusterConfig) : Decidable c.Typed :=
  decidable_of_iff (c.logIdx < 2 ^ 64 ∧ c.prevLogIdx < 2 ^ 64 ∧ ∀ s ∈ c.servers, s.Typed)
    ⟨fun h => ⟨h.1, h.2.1, h.2.2⟩, fun h => ⟨h.logIdx, h.prevLogIdx, h.servers⟩⟩

/-- No server has an empty endpoint. -/
def HasEndpoints (c : ClusterConfig) : Prop := ∀ s ∈ c.servers, s.endpoint ≠ []

instance (c : ClusterConfig) : Decidable c.HasEndpoints :=
  inferInstanceAs (Decidable (∀ s ∈ c.servers, s.endpoint ≠ []))

def encoding (c : ClusterConfig) : Bytes :=
  leBytes 8 c.logIdx.toUInt64.toNat ++ (leBytes 8 c.prevLogIdx.toUInt64.toNat ++
    (leBytes 4 (Int32.ofNat c.servers.length).toUInt32.toNat ++
      c.servers.flatMap SrvConfig.encoding))

theorem length_encoding (c : ClusterConfig) : c.encoding.length =
    2 * 8 + 4 + (c.servers.map fun s => s.encoding.length).sum := by
  simp [encoding, List.length_flatMap]
  omega

/-- The size of a configuration in bytes. -/
def encodedSize (c : ClusterConfig) : Nat :=
  20 + (c.servers.map fun s => 5 + s.endpoint.length).sum

theorem length_encoding_eq (c : ClusterConfig) : c.encoding.length = c.encodedSize := by
  rw [length_encoding, encodedSize]
  congr 3
  funext s
  rw [s.length_encoding]
  omega

theorem length_le_of_mem {c : ClusterConfig} {s : SrvConfig} (hs : s ∈ c.servers) :
    s.encoding.length ≤ c.encoding.length := by
  have hpart : s.encoding.length ≤ (c.servers.flatMap SrvConfig.encoding).length :=
    (List.sublist_flatten_of_mem (List.mem_map_of_mem hs)).length_le
  simp only [encoding, List.length_append]
  omega

theorem servers_length_le (c : ClusterConfig) : c.servers.length ≤ c.encoding.length := by
  have hservers : ∀ l : List SrvConfig, l.length ≤ (l.flatMap SrvConfig.encoding).length := by
    intro l
    induction l with
    | nil => exact Nat.zero_le _
    | cons s l ih =>
      rw [List.flatMap_cons, List.length_append, s.length_encoding, List.length_cons]
      omega
  have := hservers c.servers
  simp only [encoding, List.length_append]
  omega

theorem mapM_serialize_error {l : List SrvConfig} (h : ∃ s ∈ l, 2 ^ 31 ≤ s.encoding.length) :
    l.mapM SrvConfig.serialize = .error .outOfRange := by
  induction l with
  | nil => simp at h
  | cons s l ih =>
    rw [List.mapM_cons]
    by_cases hs : s.encoding.length < 2 ^ 31
    · have hl : ∃ s ∈ l, 2 ^ 31 ≤ s.encoding.length := by
        obtain ⟨s', hs', hle⟩ := h
        rcases List.mem_cons.1 hs' with rfl | hs'
        · omega
        · exact ⟨s', hs', hle⟩
      rw [s.serialize_eq hs, ih hl]
      rfl
    · rw [s.serialize_eq_error (by omega)]
      rfl

theorem serialize_eq (c : ClusterConfig) (h : c.encoding.length < 2 ^ 31) :
    c.serialize = .ok ⟨c.encoding, 0, h, Nat.zero_le _⟩ := by
  obtain ⟨bufs, hbufs, hrest, hsize⟩ := mapM_serialize SrvConfig.serialize_eq c.servers fun s hs =>
    (length_le_of_mem hs).trans_lt h
  unfold serialize
  rw [hbufs]
  refine build_eq ?_ ?_ h
  · exact (emits_put _).bind ((emits_put _).bind ((emits_put _).bind (emits_putBuffers hrest)))
  · rw [hsize]
    exact c.length_encoding

theorem serialize_eq_error (c : ClusterConfig) (h : 2 ^ 31 ≤ c.encoding.length) :
    c.serialize = .error .outOfRange := by
  unfold serialize
  by_cases hfit : ∀ s ∈ c.servers, s.encoding.length < 2 ^ 31
  · obtain ⟨bufs, hbufs, -, hsize⟩ := mapM_serialize SrvConfig.serialize_eq c.servers hfit
    rw [hbufs]
    refine build_eq_error ?_
    rw [hsize, ← c.length_encoding]
    exact h
  · rw [mapM_serialize_error (by simpa using hfit)]
    rfl

/-- The servers are read back if all have endpoints. -/
theorem parses_getServers {l : List SrvConfig} (hl : ∀ s ∈ l, s.Typed)
    (hne : ∀ s ∈ l, s.endpoint ≠ []) :
    Parses (getServers l.length) (l.flatMap SrvConfig.encoding) l := by
  induction l with
  | nil => exact parses_pure []
  | cons s l ih =>
    rw [List.flatMap_cons]
    refine (SrvConfig.parses_deserialize (hl s (by simp)) (hne s (by simp))).bind ?_
    exact (ih (fun s' hs' => hl s' (by simp [hs'])) fun s' hs' => hne s' (by simp [hs'])).bind_pure
      rfl

/-- The first server without an endpoint stops it. -/
theorem fails_getServers {l : List SrvConfig} (hl : ∀ s ∈ l, s.Typed)
    (hempty : ∃ s ∈ l, s.endpoint = []) :
    Fails (getServers l.length) (l.flatMap SrvConfig.encoding) := by
  induction l with
  | nil => simp at hempty
  | cons s l ih =>
    rw [List.flatMap_cons]
    by_cases hs : s.endpoint = []
    · exact (SrvConfig.fails_deserialize hs).bind
    · have hl' : ∃ s ∈ l, s.endpoint = [] := by
        obtain ⟨s', hs', he⟩ := hempty
        rcases List.mem_cons.1 hs' with rfl | hs'
        · exact (hs he).elim
        · exact ⟨s', hs', he⟩
      refine (SrvConfig.parses_deserialize (hl s (by simp)) hs).bind_fails ?_
      rw [← List.append_nil (l.flatMap SrvConfig.encoding)]
      exact (ih (fun s' hs' => hl s' (by simp [hs'])) hl').bind

theorem toNat_cnt {c : ClusterConfig} (h : c.encoding.length < 2 ^ 31) :
    (Int32.ofNat c.servers.length).toInt.toNat = c.servers.length := by
  have := c.servers_length_le
  rw [Int32.toInt_ofNat_of_lt (by omega)]
  rfl

/-- The servers come back as they are, the indices as what fits an `ulong`. -/
theorem parses_wrapped {c : ClusterConfig} (hs : ∀ s ∈ c.servers, s.Typed) (hne : c.HasEndpoints)
    (h : c.encoding.length < 2 ^ 31) : Parses deserialize c.encoding
      ⟨c.logIdx.toUInt64.toNat, c.prevLogIdx.toUInt64.toNat, c.servers⟩ := by
  refine (parses_getUlong _).bind ((parses_getUlong _).bind ((parses_getInt _).bind ?_))
  rw [toNat_cnt h]
  exact (parses_getServers hs hne).bind_pure rfl

theorem parses_deserialize {c : ClusterConfig} (hc : c.Typed) (hne : c.HasEndpoints)
    (h : c.encoding.length < 2 ^ 31) : Parses deserialize c.encoding c := by
  have hparse := parses_wrapped hc.servers hne h
  rwa [toNat_toUInt64 hc.logIdx, toNat_toUInt64 hc.prevLogIdx] at hparse

theorem fails_deserialize {c : ClusterConfig} (hs : ∀ s ∈ c.servers, s.Typed)
    (hempty : ¬c.HasEndpoints) (h : c.encoding.length < 2 ^ 31) :
    Fails deserialize c.encoding := by
  refine (parses_getUlong _).bind_fails ((parses_getUlong _).bind_fails
    ((parses_getInt _).bind_fails ?_))
  rw [toNat_cnt h, ← List.append_nil (c.servers.flatMap SrvConfig.encoding)]
  exact (fails_getServers hs (by simpa [HasEndpoints] using hempty)).bind

/-- What is read back from the bytes of a configuration, if anything is. -/
def copied (c : ClusterConfig) : Option ClusterConfig := do
  let b ← c.serialize.toOption
  let (c', _) ← (deserialize b).toOption
  return c'

/-- The servers can be written and read back. -/
structure Storable (c : ClusterConfig) : Prop where
  typed : ∀ s ∈ c.servers, s.Typed
  hasEndpoints : c.HasEndpoints
  fits : c.encodedSize < 2 ^ 31

theorem Storable.copied_eq {c : ClusterConfig} (h : c.Storable) :
    c.copied = some ⟨c.logIdx.toUInt64.toNat, c.prevLogIdx.toUInt64.toNat, c.servers⟩ := by
  have hfits := h.fits
  rw [← c.length_encoding_eq] at hfits
  have hrest : (⟨c.encoding, 0, hfits, Nat.zero_le _⟩ : Buffer).rest = c.encoding ++ [] := by
    simp [Block.rest]
  rw [copied, c.serialize_eq hfits]
  show ((deserialize _).toOption >>= fun x => some x.1) = _
  rw [parses_wrapped h.typed h.hasEndpoints hfits _ [] hrest]
  rfl

/-- Servers that are read back can be written and read back. -/
theorem storable_of_copied {c c' : ClusterConfig} (hs : ∀ s ∈ c.servers, s.Typed)
    (h : c.copied = some c') : c.Storable := by
  have hfits : c.encoding.length < 2 ^ 31 := by
    by_contra hlarge
    rw [copied, c.serialize_eq_error (by omega)] at h
    cases h
  refine ⟨hs, ?_, c.length_encoding_eq ▸ hfits⟩
  by_contra hempty
  have hrest : (⟨c.encoding, 0, hfits, Nat.zero_le _⟩ : Buffer).rest = c.encoding ++ [] := by
    simp [Block.rest]
  obtain ⟨e, he⟩ := fails_deserialize hs hempty hfits _ [] hrest
  have hnone : c.copied = ((deserialize ⟨c.encoding, 0, hfits, Nat.zero_le _⟩).toOption >>=
      fun x => some x.1) := by
    rw [copied, c.serialize_eq hfits]
    rfl
  rw [hnone, he] at h
  cases h

theorem servers_of_copied {c c' : ClusterConfig} (hs : ∀ s ∈ c.servers, s.Typed)
    (h : c.copied = some c') : c'.servers = c.servers := by
  rw [(storable_of_copied hs h).copied_eq] at h
  cases h
  rfl

end ClusterConfig

/-! ## Snapshots -/

namespace Snapshot

def serialize (s : Snapshot) : Except Fault Buffer := do
  let conf ← s.lastConfig.serialize
  build (conf.size + 8 * 3) do
    putUlong s.lastLogIdx.toUInt64
    putUlong s.lastLogTerm.toUInt64
    putUlong s.size.toUInt64
    putBuffer conf

def deserialize : BufM Snapshot := do
  let lastLogIdx ← getUlong
  let lastLogTerm ← getUlong
  let size ← getUlong
  let conf ← ClusterConfig.deserialize
  return ⟨lastLogIdx.toNat, lastLogTerm.toNat, conf, size.toNat⟩

structure Typed (s : Snapshot) : Prop where
  lastLogIdx : s.lastLogIdx < 2 ^ 64
  lastLogTerm : s.lastLogTerm < 2 ^ 64
  size : s.size < 2 ^ 64
  lastConfig : s.lastConfig.Typed

def encoding (s : Snapshot) : Bytes :=
  leBytes 8 s.lastLogIdx.toUInt64.toNat ++ (leBytes 8 s.lastLogTerm.toUInt64.toNat ++
    (leBytes 8 s.size.toUInt64.toNat ++ s.lastConfig.encoding))

theorem length_encoding (s : Snapshot) : s.encoding.length = s.lastConfig.encoding.length + 8 * 3 := by
  simp [encoding]
  omega

theorem serialize_eq (s : Snapshot) (h : s.encoding.length < 2 ^ 31) :
    s.serialize = .ok ⟨s.encoding, 0, h, Nat.zero_le _⟩ := by
  have hlen := s.length_encoding
  unfold serialize
  rw [s.lastConfig.serialize_eq (by omega)]
  refine build_eq ?_ ?_ h
  · exact (emits_put _).bind ((emits_put _).bind ((emits_put _).bind (emits_put _)))
  · rw [Buffer.size_eq]
    exact hlen

theorem serialize_eq_error (s : Snapshot) (h : 2 ^ 31 ≤ s.encoding.length) :
    s.serialize = .error .outOfRange := by
  unfold serialize
  by_cases hconf : s.lastConfig.encoding.length < 2 ^ 31
  · rw [s.lastConfig.serialize_eq hconf]
    refine build_eq_error ?_
    rw [Buffer.size_eq, ← s.length_encoding]
    exact h
  · rw [s.lastConfig.serialize_eq_error (by omega)]
    rfl

theorem parses_deserialize {s : Snapshot} (hs : s.Typed) (hne : s.lastConfig.HasEndpoints)
    (h : s.encoding.length < 2 ^ 31) : Parses deserialize s.encoding s := by
  have hlen := s.length_encoding
  refine (parses_getUlong _).bind ((parses_getUlong _).bind ((parses_getUlong _).bind ?_))
  have hfields : (⟨s.lastLogIdx.toUInt64.toNat, s.lastLogTerm.toUInt64.toNat, s.lastConfig,
      s.size.toUInt64.toNat⟩ : Snapshot) = s := by
    rw [toNat_toUInt64 hs.lastLogIdx, toNat_toUInt64 hs.lastLogTerm, toNat_toUInt64 hs.size]
  exact (ClusterConfig.parses_deserialize hs.lastConfig hne (by omega)).bind_pure hfields

theorem fails_deserialize {s : Snapshot} (hs : s.Typed) (hempty : ¬s.lastConfig.HasEndpoints)
    (h : s.encoding.length < 2 ^ 31) : Fails deserialize s.encoding := by
  have hlen := s.length_encoding
  refine (parses_getUlong _).bind_fails ((parses_getUlong _).bind_fails
    ((parses_getUlong _).bind_fails ?_))
  rw [← List.append_nil s.lastConfig.encoding]
  exact (ClusterConfig.fails_deserialize hs.lastConfig.servers hempty (by omega)).bind

end Snapshot

/-! ## Blocks of snapshots -/

namespace SnapshotSyncReq

def serialize (r : SnapshotSyncReq) : Except Fault Buffer := do
  let snp ← r.snapshot.serialize
  build (snp.size + 8 + 1 + r.data.length) do
    putBuffer snp
    putUlong r.offset.toUInt64
    putByte (if r.done then 1 else 0)
    put r.data

/-- The data is what is left in the buffer. The position stays in front of it. -/
def getData : BufM Bytes := do
  let b : Buffer ← getThe Buffer
  if b.pos < b.size then
    let _ ← alloc (b.size - b.pos)
    return b.rest
  else return []

def deserialize : BufM SnapshotSyncReq := do
  let snp ← Snapshot.deserialize
  let offset ← getUlong
  let done ← getByte
  let data ← getData
  return ⟨snp, offset.toNat, data, done == 1⟩

structure Typed (r : SnapshotSyncReq) : Prop where
  snapshot : r.snapshot.Typed
  offset : r.offset < 2 ^ 64

/-- What stands in front of the data. -/
def header (r : SnapshotSyncReq) : Bytes :=
  r.snapshot.encoding ++ (leBytes 8 r.offset.toUInt64.toNat ++ [if r.done then 1 else 0])

def encoding (r : SnapshotSyncReq) : Bytes := r.header ++ r.data

theorem length_encoding (r : SnapshotSyncReq) :
    r.encoding.length = r.snapshot.encoding.length + 8 + 1 + r.data.length := by
  simp [encoding, header]
  omega

theorem serialize_eq (r : SnapshotSyncReq) (h : r.encoding.length < 2 ^ 31) :
    r.serialize = .ok ⟨r.encoding, 0, h, Nat.zero_le _⟩ := by
  have hlen := r.length_encoding
  unfold serialize
  rw [r.snapshot.serialize_eq (by omega)]
  refine build_eq ?_ ?_ h
  · rw [encoding, header, List.append_assoc, List.append_assoc]
    exact (emits_put _).bind ((emits_put _).bind ((emits_put _).bind (emits_put _)))
  · rw [Buffer.size_eq]
    exact hlen

theorem serialize_eq_error (r : SnapshotSyncReq) (h : 2 ^ 31 ≤ r.encoding.length) :
    r.serialize = .error .outOfRange := by
  unfold serialize
  by_cases hsnp : r.snapshot.encoding.length < 2 ^ 31
  · rw [r.snapshot.serialize_eq hsnp]
    refine build_eq_error ?_
    rw [Buffer.size_eq, ← r.length_encoding]
    exact h
  · rw [r.snapshot.serialize_eq_error (by omega)]
    rfl

theorem getData_eq (b : Buffer) : getData b = .ok (b.rest, b) := by
  show (if b.pos < b.size then (do let _ ← alloc (b.size - b.pos); return b.rest : BufM Bytes)
    else return []) b = _
  rw [Buffer.size_eq]
  split
  next =>
    have hsize := b.size_lt
    have halloc : b.data.length - b.pos < 2 ^ 31 := by omega
    show ((liftM (alloc (b.data.length - b.pos)) : BufM Buffer) >>= fun _ => pure b.rest) b = _
    rw [alloc, dif_pos halloc]
    rfl
  next hge =>
    have hnil : b.rest = [] := List.drop_eq_nil_iff.2 (by omega)
    rw [hnil]
    rfl

theorem deserialize_eq {r : SnapshotSyncReq} (hr : r.Typed)
    (hne : r.snapshot.lastConfig.HasEndpoints) {b : Buffer} (hrest : b.rest = r.encoding) :
    deserialize b = .ok (r, b.skip r.header.length) := by
  have hlt : r.snapshot.encoding.length < 2 ^ 31 := by
    have hlen := congrArg List.length hrest
    have hsize := b.size_lt
    rw [Block.length_rest, r.length_encoding] at hlen
    omega
  rw [encoding, header, List.append_assoc, List.append_assoc] at hrest
  have hrest₁ := Block.rest_skip hrest
  have hrest₂ := Block.rest_skip hrest₁
  have hrest₃ := Block.rest_skip hrest₂
  unfold deserialize
  rw [(Snapshot.parses_deserialize hr.snapshot hne hlt).bind_apply hrest,
    (parses_getUlong _).bind_apply hrest₁, (parses_getByte _).bind_apply hrest₂]
  show (getData _ >>= fun x => (pure _ : BufM SnapshotSyncReq) x.2) = _
  rw [getData_eq, hrest₃, Block.skip_skip, Block.skip_skip, header, List.length_append,
    List.length_append]
  have hdone : ((if r.done then 1 else 0 : UInt8) == 1) = r.done := by cases r.done <;> rfl
  rw [hdone, toNat_toUInt64 hr.offset]
  rfl

theorem fails_deserialize {r : SnapshotSyncReq} (hr : r.Typed)
    (hempty : ¬r.snapshot.lastConfig.HasEndpoints) (h : r.encoding.length < 2 ^ 31) :
    Fails deserialize r.encoding := by
  have hlen := r.length_encoding
  rw [encoding, header, List.append_assoc]
  exact (Snapshot.fails_deserialize hr.snapshot hempty (by omega)).bind

end SnapshotSyncReq

/-! ## Round trips -/

/-- What the encoder writes, the decoder reads back, wherever it stands in a buffer and whatever
comes after it, and ends behind it. -/
def RoundTrips {α : Type} (serialize : Except Fault Buffer) (deserialize : BufM α) (a : α) : Prop :=
  ∃ b, serialize = .ok b ∧ b.pos = 0 ∧ Parses deserialize b.data a

/-- The same at the end of a buffer, where the decoder takes all that is left as the data. -/
def SnapshotSyncReq.RoundTrips (r : SnapshotSyncReq) : Prop :=
  ∃ b, r.serialize = .ok b ∧ b.pos = 0 ∧ ∀ c : Buffer, c.rest = b.data →
    deserialize c = .ok (r, c.skip b.data.length)

/-- The block is read back, with the position left in front of the data. -/
def SnapshotSyncReq.ReadsBack (r : SnapshotSyncReq) : Prop :=
  ∃ b, r.serialize = .ok b ∧ b.pos = 0 ∧ ∀ c : Buffer, c.rest = b.data →
    deserialize c = .ok (r, c.skip (b.data.length - r.data.length))

theorem roundTrips_iff {α : Type} {serialize : Except Fault Buffer} {deserialize : BufM α} {a : α}
    {bs : Bytes} {P : Prop} (hok : ∀ h : bs.length < 2 ^ 31,
      serialize = .ok ⟨bs, 0, h, Nat.zero_le _⟩)
    (herror : 2 ^ 31 ≤ bs.length → serialize = .error .outOfRange)
    (hparses : P → bs.length < 2 ^ 31 → Parses deserialize bs a)
    (hfails : ¬P → bs.length < 2 ^ 31 → Fails deserialize bs) :
    RoundTrips serialize deserialize a ↔ P ∧ bs.length < 2 ^ 31 := by
  constructor
  · rintro ⟨b, hser, -, hb⟩
    have hlt : bs.length < 2 ^ 31 := by
      by_contra hge
      rw [herror (by omega)] at hser
      cases hser
    rw [hok hlt] at hser
    cases hser
    refine ⟨?_, hlt⟩
    by_contra hP
    let c : Buffer := ⟨bs, 0, hlt, Nat.zero_le _⟩
    have hrest : c.rest = bs ++ [] := by simp [c, Block.rest]
    obtain ⟨e, he⟩ := hfails hP hlt c [] hrest
    rw [hb c [] hrest] at he
    cases he
  · rintro ⟨hP, hlt⟩
    exact ⟨_, hok hlt, rfl, hparses hP hlt⟩

namespace SnapshotSyncReq

theorem length_encoding_eq (r : SnapshotSyncReq) :
    r.encoding.length = r.snapshot.lastConfig.encodedSize + 33 + r.data.length := by
  rw [r.length_encoding, r.snapshot.length_encoding, r.snapshot.lastConfig.length_encoding_eq]

theorem serialize_isOk (r : SnapshotSyncReq) : r.serialize.isOk ↔
    r.snapshot.lastConfig.encodedSize + 33 + r.data.length < 2 ^ 31 := by
  rw [← r.length_encoding_eq]
  by_cases hlt : r.encoding.length < 2 ^ 31
  · rw [r.serialize_eq hlt]
    exact iff_of_true rfl hlt
  · rw [r.serialize_eq_error (by omega)]
    exact iff_of_false (by simp [Except.isOk, Except.toBool]) hlt

/-- Where the decoder stops on what the encoder wrote. -/
theorem stops_at {r : SnapshotSyncReq} (hr : r.Typed) {n : Nat} :
    (∃ b, r.serialize = .ok b ∧ b.pos = 0 ∧ ∀ c : Buffer, c.rest = b.data →
      deserialize c = .ok (r, c.skip (b.data.length - n))) ↔
    r.snapshot.lastConfig.HasEndpoints ∧ r.encoding.length < 2 ^ 31 ∧
      r.encoding.length - n = r.header.length := by
  constructor
  · rintro ⟨b, hser, -, hb⟩
    have hlt : r.encoding.length < 2 ^ 31 := by
      by_contra hge
      rw [r.serialize_eq_error (by omega)] at hser
      cases hser
    rw [r.serialize_eq hlt] at hser
    cases hser
    let c : Buffer := ⟨r.encoding, 0, hlt, Nat.zero_le _⟩
    have hrest : c.rest = r.encoding := rfl
    have hread := hb c hrest
    have hne : r.snapshot.lastConfig.HasEndpoints := by
      by_contra hempty
      obtain ⟨e, he⟩ := fails_deserialize hr hempty hlt c [] (by rw [hrest, List.append_nil])
      rw [hread] at he
      cases he
    rw [deserialize_eq hr hne hrest] at hread
    have hpos : (c.skip r.header.length).pos = (c.skip (r.encoding.length - n)).pos :=
      congrArg Block.pos (Prod.mk.inj (Except.ok.inj hread)).2
    rw [Block.pos_skip (by simp [hrest, encoding]), Block.pos_skip (by simp [hrest])] at hpos
    exact ⟨hne, hlt, by omega⟩
  · rintro ⟨hne, hlt, hstop⟩
    refine ⟨_, r.serialize_eq hlt, rfl, fun c hrest => ?_⟩
    rw [deserialize_eq hr hne hrest, ← hstop]

theorem roundTrips_iff {r : SnapshotSyncReq} (hr : r.Typed) :
    r.RoundTrips ↔ r.snapshot.lastConfig.HasEndpoints ∧ r.data = [] ∧
      r.snapshot.lastConfig.encodedSize + 33 < 2 ^ 31 := by
  have hlen := r.length_encoding_eq
  have hsplit : r.encoding.length = r.header.length + r.data.length := List.length_append
  refine (stops_at hr (n := 0)).trans (and_congr_right fun _ => ?_)
  rw [← List.length_eq_zero_iff]
  omega

theorem readsBack_iff {r : SnapshotSyncReq} (hr : r.Typed) :
    r.ReadsBack ↔ r.snapshot.lastConfig.HasEndpoints ∧
      r.snapshot.lastConfig.encodedSize + 33 + r.data.length < 2 ^ 31 := by
  have hsplit : r.encoding.length = r.header.length + r.data.length := List.length_append
  refine (stops_at hr).trans (and_congr_right fun _ => ?_)
  rw [← r.length_encoding_eq]
  omega

end SnapshotSyncReq

/-- **Configurations and snapshots round trip.** For all values of the source's types, with
endpoints that hold no zero: a configuration and a snapshot are read back from their bytes, also
inside of the next larger one, exactly if no endpoint is empty and the bytes fit a buffer. A block of a
snapshot is read back under the same condition, but the decoder ends behind its bytes only if it has no
data. -/
theorem config_round_trip (c : ClusterConfig) (s : Snapshot) (r : SnapshotSyncReq) (hc : c.Typed)
    (hs : s.Typed) (hr : r.Typed) :
    (RoundTrips c.serialize ClusterConfig.deserialize c ↔
      c.HasEndpoints ∧ c.encodedSize < 2 ^ 31) ∧
    (RoundTrips s.serialize Snapshot.deserialize s ↔
      s.lastConfig.HasEndpoints ∧ s.lastConfig.encodedSize + 24 < 2 ^ 31) ∧
    (r.RoundTrips ↔ r.snapshot.lastConfig.HasEndpoints ∧ r.data = [] ∧
      r.snapshot.lastConfig.encodedSize + 33 < 2 ^ 31) ∧
    (r.ReadsBack ↔ r.snapshot.lastConfig.HasEndpoints ∧
      r.snapshot.lastConfig.encodedSize + 33 + r.data.length < 2 ^ 31) := by
  refine ⟨?_, ?_, SnapshotSyncReq.roundTrips_iff hr, SnapshotSyncReq.readsBack_iff hr⟩
  · rw [← c.length_encoding_eq]
    exact roundTrips_iff c.serialize_eq c.serialize_eq_error
      (ClusterConfig.parses_deserialize hc) (ClusterConfig.fails_deserialize hc.servers)
  · rw [← s.lastConfig.length_encoding_eq, ← s.length_encoding]
    exact roundTrips_iff s.serialize_eq s.serialize_eq_error
      (Snapshot.parses_deserialize hs) (Snapshot.fails_deserialize hs)

/-- A configuration of two servers. -/
def twoServers : ClusterConfig := ⟨3, 0, [⟨1, [58, 57]⟩, ⟨-2, [58]⟩]⟩

/-- It makes the trip, and so do a block of a snapshot over it without data, and the value of one with
data. -/
theorem config_round_trip_two_servers :
    RoundTrips twoServers.serialize ClusterConfig.deserialize twoServers ∧
      SnapshotSyncReq.RoundTrips ⟨⟨7, 2, twoServers, 0⟩, 0, [], true⟩ ∧
      SnapshotSyncReq.ReadsBack ⟨⟨7, 2, twoServers, 0⟩, 0, [5, 0, 6], true⟩ := by
  have hc : twoServers.Typed := by decide
  have hne : twoServers.HasEndpoints := by decide
  have hs : Snapshot.Typed ⟨7, 2, twoServers, 0⟩ := ⟨by decide, by decide, by decide, hc⟩
  have h (data : Bytes) := config_round_trip twoServers _ ⟨⟨7, 2, twoServers, 0⟩, 0, data, true⟩ hc hs
    ⟨hs, Nat.pow_pos (by decide)⟩
  exact ⟨(h []).1.2 ⟨hne, by decide⟩, (h []).2.2.1.2 ⟨hne, rfl, by decide⟩,
    (h _).2.2.2.2 ⟨hne, by decide⟩⟩

/-- A configuration with an empty endpoint is written and cannot be read: `get_str` gives a null
pointer for an empty string. Of the 61 bytes of a block with one byte of data 60 are consumed. -/
theorem config_empty_endpoint :
    (∃ b, ClusterConfig.serialize ⟨1, 0, [⟨1, []⟩]⟩ = .ok b ∧
      ClusterConfig.deserialize b = .error .nullString) ∧
    ¬RoundTrips (ClusterConfig.serialize ⟨1, 0, [⟨1, []⟩]⟩) ClusterConfig.deserialize
      ⟨1, 0, [⟨1, []⟩]⟩ ∧
    let r : SnapshotSyncReq := ⟨⟨7, 2, ⟨1, 0, [⟨1, [58, 57]⟩]⟩, 0⟩, 0, [5], true⟩
    ∃ b b', r.serialize = .ok b ∧ SnapshotSyncReq.deserialize b = .ok (r, b') ∧ b.size = 61 ∧
      b'.pos = 60 := by
  have hread : ∃ b, ClusterConfig.serialize ⟨1, 0, [⟨1, []⟩]⟩ = .ok b ∧
      ClusterConfig.deserialize b = .error .nullString := ⟨_, rfl, rfl⟩
  refine ⟨hread, ?_, ?_⟩
  · rintro ⟨b, hser, hpos, hb⟩
    obtain ⟨b₀, hser₀, herror⟩ := hread
    rw [hser] at hser₀
    cases hser₀
    have hrest : b.rest = b.data ++ [] := by rw [Block.rest, hpos, List.drop_zero, List.append_nil]
    rw [hb b [] hrest] at herror
    cases herror
  · intro r
    have hr : r.Typed := by
      refine ⟨⟨by decide, by decide, by decide, by decide, by decide, ?_⟩, by decide⟩
      exact List.forall_mem_singleton.2 ⟨by decide, by decide, by decide⟩
    have hne : r.snapshot.lastConfig.HasEndpoints := List.forall_mem_singleton.2 (by decide)
    have hlen : r.encoding.length = 61 := by decide +kernel
    have hhead : r.header.length = 60 := by decide +kernel
    let b : Buffer := ⟨r.encoding, 0, by rw [hlen]; decide, Nat.zero_le _⟩
    have hrest : b.rest = r.encoding := rfl
    refine ⟨b, _, r.serialize_eq _, SnapshotSyncReq.deserialize_eq hr hne hrest, ?_, ?_⟩
    · rw [Buffer.size_eq]
      exact hlen
    · rw [Block.pos_skip (by rw [hrest]; omega), hhead]

end EnclaveRaft
