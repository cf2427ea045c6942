import EnclaveRaft.Lib.OrderedMap
import EnclaveRaft.Wire.Message

/-!
# Log packs

`in_memory_log_store::pack` and `apply_pack` at the level of bytes. A pack is a count and, for each
entry, its size and `log_entry::serialize`: term, type and value. The value has no size of its own.

`apply_pack` stores the entries one by one while it reads them. What it reads is a partition of the
pack (`applyEntries_cases`): the records of some entries, which are in the store by then, and a rest on
which the next read fails, if the count asks for one.
-/

namespace EnclaveRaft.Wire

open OrderedMap (indexed splice)

/-! ## Entries in a pack -/

/-- `log_entry::serialize`. -/
def LogEntry.pack (e : LogEntry) : Except Fault Buffer :=
  build (8 + 1 + e.buf.length) do
    putUlong e.term
    putByte e.valType
    put e.buf

/-- `buffer::copy` of what is behind the position. -/
def copyRest : BufM Bytes := fun (b : Buffer) => .ok (b.rest, b)

/-- `log_entry::deserialize`: what is left is the value. -/
def unpackEntry : BufM LogEntry := do
  let term ← getUlong
  let valType ← getByte
  let data ← copyRest
  return ⟨term, valType, data⟩

/-- What `apply_pack` does to read an entry. -/
def getRecord : BufM LogEntry := do
  let size ← getInt
  let local' ← alloc (sizeT size)
  let data ← getBuffer local'.size
  let (e, _) ← unpackEntry ((local'.put data).seek 0)
  return e

/-- The bytes of an entry in a pack. -/
def LogEntry.packed (e : LogEntry) : Bytes := leBytes 8 e.term.toNat ++ ([e.valType] ++ e.buf)

/-- An entry with its size in front. -/
def LogEntry.record (e : LogEntry) : Bytes :=
  leBytes 4 (Int32.ofNat e.packed.length).toUInt32.toNat ++ e.packed

theorem LogEntry.length_packed (e : LogEntry) : e.packed.length = 9 + e.buf.length := by
  simp [packed]
  omega

theorem LogEntry.length_record (e : LogEntry) : e.record.length = 4 + e.packed.length := by
  simp [record]

theorem LogEntry.pack_eq (e : LogEntry) (h : e.packed.length < 2 ^ 31) :
    e.pack = .ok ⟨e.packed, 0, h, Nat.zero_le _⟩ := by
  refine build_eq ?_ (e.length_packed.trans (by omega)) h
  exact (emits_put _).bind ((emits_put [e.valType]).bind (emits_put e.buf))

/-- A buffer that is read to its end. -/
theorem unpackEntry_packed (e : LogEntry) {b : Buffer} (h : b.rest = e.packed) :
    ∃ b', unpackEntry b = .ok (e, b') := by
  have hrest : b.rest = leBytes 8 e.term.toNat ++ ([e.valType] ++ e.buf) := h
  have hrest₁ := Block.rest_skip hrest
  have hrest₂ := Block.rest_skip hrest₁
  unfold unpackEntry
  rw [(parses_getUlong e.term).bind_apply hrest, (parses_getByte e.valType).bind_apply hrest₁]
  generalize Block.skip (b.skip _) _ = c at hrest₂ ⊢
  have hcopy : (do let data ← copyRest; return ⟨e.term, e.valType, data⟩ : BufM LogEntry) c =
      .ok (⟨e.term, e.valType, c.rest⟩, c) := rfl
  exact ⟨c, by rw [hcopy, hrest₂]⟩

theorem unpackEntry_short {b : Buffer} (h : b.rest.length < 9) :
    unpackEntry b = .error .overflow := by
  refine ((takes_get 8).map _).bind_short (fun _ c hc => ?_) (show _ < 8 + 1 from h)
  refine ((takes_get 1).map _).bind_short (fun _ c hc => ?_) (show _ < 1 + 0 from hc)
  exact absurd hc (Nat.not_lt_zero _)

/-- Any 9 bytes or more are an entry. -/
theorem exists_packed {bs : Bytes} (h : 9 ≤ bs.length) : ∃ e : LogEntry, bs = e.packed := by
  obtain ⟨term, bs₁, rfl⟩ := exists_ulong (show 8 ≤ bs.length by omega)
  rw [List.length_append, length_leBytes] at h
  obtain ⟨valType, bs₂, rfl⟩ := exists_byte (show 1 ≤ bs₁.length by omega)
  exact ⟨⟨term, valType, bs₂⟩, rfl⟩

/-- Behind the size, there is room for it or not. -/
theorem getRecord_size {b : Buffer} {size : Int32} {post : Bytes}
    (hrest : b.rest = leBytes 4 size.toUInt32.toNat ++ post) :
    getRecord b = (do
      let local' ← alloc (sizeT size)
      let data ← getBuffer local'.size
      let (e, _) ← unpackEntry ((local'.put data).seek 0)
      return e : BufM LogEntry) (b.skip 4) := by
  unfold getRecord
  rw [(parses_getInt size).bind_apply hrest, length_leBytes]

theorem alloc_eq {n : Nat} (h : n < 2 ^ 31) :
    ∃ c : Buffer, alloc n = .ok c ∧ c.data.length = n ∧ c.pos = 0 := by
  rw [alloc, dif_pos h]
  exact ⟨_, rfl, List.length_replicate, rfl⟩

theorem getRecord_fits {b : Buffer} {n : Nat} {data post : Bytes} (hn : n < 2 ^ 31)
    (hlen : data.length = n)
    (hrest : b.rest = leBytes 4 (Int32.ofNat n).toUInt32.toNat ++ (data ++ post)) :
    ∃ c : Buffer, c.rest = data ∧ getRecord b =
      (unpackEntry c).map fun x => (x.1, b.skip (4 + n)) := by
  have hrest₁ := Block.rest_skip hrest
  rw [length_leBytes] at hrest₁
  obtain ⟨c, halloc, hsize, hpos⟩ := alloc_eq hn
  have hread := parses_getBuffer data (b.skip 4) post hrest₁
  have hput := Block.data_put_of_length hpos (hlen.trans hsize.symm)
  refine ⟨(c.put data).seek 0, ?_, ?_⟩
  · show (c.put data).data.drop (min 0 _) = data
    rw [hput, Nat.zero_min, List.drop_zero]
  · rw [getRecord_size hrest, sizeT_ofNat hn, halloc]
    show (getBuffer c.size (b.skip 4) >>= fun x => _) = _
    rw [Buffer.size_eq, hsize, ← hlen, hread, Block.skip_skip]
    show (liftM (unpackEntry ((c.put data).seek 0)) >>= fun x => pure x.1 : BufM LogEntry) _ = _
    cases unpackEntry ((c.put data).seek 0) <;> rfl

theorem parses_getRecord (e : LogEntry) (h : e.packed.length < 2 ^ 31) :
    Parses getRecord e.record e := by
  intro b post hrest
  rw [LogEntry.record, List.append_assoc] at hrest
  obtain ⟨c, hc, hrun⟩ := getRecord_fits h rfl hrest
  obtain ⟨c', hunpack⟩ := unpackEntry_packed e hc
  rw [hrun, hunpack, e.length_record]
  rfl

/-- A rest on which reading an entry fails without reading behind the end. -/
def Refused (bs : Bytes) : Prop :=
  bs.length < 4 ∨
    ∃ (size : Int32) (post : Bytes), bs = leBytes 4 size.toUInt32.toNat ++ post ∧
      (size < 0 ∨ ∃ n, size = Int32.ofNat n ∧ n ≤ post.length ∧ n < 9)

theorem leBytes_int_inj {x y : Int32} {post post' : Bytes}
    (h : leBytes 4 x.toUInt32.toNat ++ post = leBytes 4 y.toUInt32.toNat ++ post') :
    x = y ∧ post = post' := by
  obtain ⟨hhead, hpost⟩ := List.append_inj h (by simp)
  have hnat := congrArg leNat hhead
  rw [leNat_leBytes x.toUInt32.toNat_lt, leNat_leBytes y.toUInt32.toNat_lt] at hnat
  have hsame := congrArg UInt32.toInt32 (UInt32.toNat_inj.1 hnat)
  exact ⟨by simpa using hsame, hpost⟩

theorem ofNat_inj_of_lt {m n : Nat} (hm : m < 2 ^ 31) (hn : n < 2 ^ 31)
    (h : Int32.ofNat m = Int32.ofNat n) : m = n := by
  have hint := congrArg Int32.toInt h
  rw [Int32.toInt_ofNat_of_lt hm, Int32.toInt_ofNat_of_lt hn] at hint
  omega

theorem getRecord_outOfBounds {b : Buffer} {n : Nat} {post : Bytes} (hn : n < 2 ^ 31)
    (hrest : b.rest = leBytes 4 (Int32.ofNat n).toUInt32.toNat ++ post) (hlen : post.length < n) :
    getRecord b = .error .outOfBounds := by
  have hrest₁ := Block.rest_skip hrest
  rw [length_leBytes] at hrest₁
  obtain ⟨c, halloc, hsize, -⟩ := alloc_eq hn
  have hshort : (b.skip 4).rest.length < n := by rwa [hrest₁]
  rw [getRecord_size hrest, sizeT_ofNat hn, halloc]
  show (getBuffer c.size (b.skip 4) >>= fun x => _) = _
  rw [Buffer.size_eq, hsize, getBuffer_short hshort]
  rfl

/-- Behind a size that is not negative, at least 9 bytes are asked for. -/
theorem not_refused {n : Nat} {post : Bytes} (hn : n < 2 ^ 31)
    (h : 9 ≤ n ∨ post.length < n) :
    ¬Refused (leBytes 4 (Int32.ofNat n).toUInt32.toNat ++ post) := by
  rintro (hshort | ⟨size, post', heq, hsize⟩)
  · rw [List.length_append, length_leBytes] at hshort
    omega
  · obtain ⟨rfl, rfl⟩ := leBytes_int_inj heq
    rcases hsize with hneg | ⟨m, hm, hle, hlt⟩
    · have := Int32.lt_iff_toInt_lt.1 hneg
      rw [Int32.toInt_ofNat_of_lt hn] at this
      simp at this
      omega
    · have := ofNat_inj_of_lt hn (by omega) hm
      omega

theorem not_refused_record {e : LogEntry} (he : e.packed.length < 2 ^ 31) (post : Bytes) :
    ¬Refused (e.record ++ post) := by
  rw [LogEntry.record, List.append_assoc]
  exact not_refused he (.inl (by rw [e.length_packed]; omega))

/-- **Reading a record.** The rest is refused, or the size reaches behind the end, or there is an
entry. -/
theorem getRecord_cases (b : Buffer) :
    (Refused b.rest ∧ ∃ f, getRecord b = .error f ∧ f ≠ .outOfBounds) ∨
    (¬Refused b.rest ∧ getRecord b = .error .outOfBounds) ∨
    ∃ e post, b.rest = LogEntry.record e ++ post ∧ e.packed.length < 2 ^ 31 ∧
      getRecord b = .ok (e, b.skip e.record.length) := by
  by_cases hlen : b.rest.length < 4
  · refine .inl ⟨.inl hlen, .overflow, ?_, nofun⟩
    refine ((takes_get 4).map _).bind_short (fun _ c hc => ?_) (show _ < 4 + 0 from hlen)
    exact absurd hc (Nat.not_lt_zero _)
  obtain ⟨size, post, hrest⟩ := exists_int (Nat.le_of_not_lt hlen)
  by_cases hneg : size < 0
  · refine .inl ⟨.inr ⟨size, post, hrest, .inl hneg⟩, .outOfRange, ?_, nofun⟩
    rw [getRecord_size hrest, alloc, dif_neg (Nat.not_lt.2 (sizeT_of_neg hneg))]
    rfl
  obtain ⟨n, hn, rfl⟩ := exists_ofNat hneg
  by_cases hroom : post.length < n
  · refine .inr (.inl ⟨?_, getRecord_outOfBounds hn hrest hroom⟩)
    rw [hrest]
    exact not_refused hn (.inr hroom)
  have htake : (post.take n).length = n := List.length_take_of_le (Nat.le_of_not_lt hroom)
  have hsplit : b.rest =
      leBytes 4 (Int32.ofNat n).toUInt32.toNat ++ (post.take n ++ post.drop n) := by
    rw [List.take_append_drop, hrest]
  by_cases hsmall : n < 9
  · obtain ⟨c, hc, hrun⟩ := getRecord_fits hn htake hsplit
    refine .inl ⟨.inr ⟨_, post, hrest, .inr ⟨n, rfl, Nat.le_of_not_lt hroom, hsmall⟩⟩, .overflow,
      ?_, nofun⟩
    rw [hrun, unpackEntry_short (by rw [hc, htake]; exact hsmall)]
    rfl
  · obtain ⟨e, he⟩ := exists_packed (show 9 ≤ (post.take n).length by omega)
    have hpacked : e.packed.length = n := by rw [← he, htake]
    have hrest' : b.rest = e.record ++ post.drop n := by
      rw [LogEntry.record, hpacked, ← he, List.append_assoc, hsplit]
    have hlt : e.packed.length < 2 ^ 31 := hpacked.symm ▸ hn
    exact .inr (.inr ⟨e, post.drop n, hrest', hlt, parses_getRecord e hlt b _ hrest'⟩)

/-! ## The store -/

/-- `in_memory_log_store`: the map as a list sorted by key. -/
structure Store where
  startIdx : Nat
  logs : List (Nat × LogEntry)
  deriving DecidableEq

namespace Store

def nextSlot (st : Store) : Nat := (st.startIdx + st.logs.length - 1) % 2 ^ 64

/-- How often a loop from `index` to `index + cnt` is run, in `ulong` arithmetic. -/
def rounds (index : Nat) (cnt : Int32) : Nat := ulong (index + cnt.toInt) - index

/-- The size that `pack` allocates, a `size_t`. -/
def packSize (cnt : Int32) (totalSize : Nat) : Nat :=
  ulong (4 + cnt.toInt * 4 + totalSize)

/-- The entries of `[index, index + cnt)` in one buffer, whose position is left at the end. An entry
that is missing is a null pointer. -/
def pack (st : Store) (index : Nat) (cnt : Int32) : Except Fault Buffer := do
  let bufs ← (List.range' index (rounds index cnt)).mapM fun ii =>
    match st.logs.lookup ii with
    | some e => e.pack
    | none => .error .outOfBounds
  let out ← alloc (packSize cnt (bufs.map Buffer.size).sum)
  let (_, out) ← (do
    putInt cnt
    bufs.forM fun b => do
      putInt (Int32.ofNat b.size)
      putBuffer b : BufM Unit) out
  return out

/-- The loop of `apply_pack`. What has been stored stays when a read fails. -/
def applyEntries : Nat → Nat → Store → Buffer → Store × Except Fault Buffer
  | 0, _, st, b => (st, .ok b)
  | n + 1, ii, st, b =>
    match getRecord b with
    | .error f => (st, .error f)
    | .ok (e, b) => applyEntries n (ii + 1) { st with logs := OrderedMap.put ii e st.logs } b

/-- `logs_.upper_bound(0)`. -/
def firstIndex (logs : List (Nat × LogEntry)) : Nat :=
  ((logs.find? fun p => 0 < p.1).map Prod.fst).getD 1

def applyPack (st : Store) (index : Nat) (pack : Buffer) : Store × Except Fault Unit :=
  match getInt (pack.seek 0) with
  | .error f => (st, .error f)
  | .ok (numLogs, b) =>
    match applyEntries (rounds index numLogs) index st b with
    | (st, .error f) => (st, .error f)
    | (st, .ok _) => ({ st with startIdx := firstIndex st.logs }, .ok ())

end Store

/-- The entries of a store between compactions: consecutive ones, from an index above 0 on, behind
the entry under key 0. The next index is an `ulong`. -/
structure LogList where
  start : Nat
  entries : List LogEntry
  dummy : LogEntry
  pos : 1 ≤ start
  next_lt : start + entries.length < 2 ^ 64

namespace LogList

def next (a : LogList) : Nat := a.start + a.entries.length

def store (a : LogList) : Store := ⟨a.start, (0, a.dummy) :: indexed a.start a.entries⟩

end LogList

/-! ## Storing what is read -/

/-- The bytes of some entries. -/
def records (es : List LogEntry) : Bytes := es.flatMap LogEntry.record

/-- The bytes of a pack. -/
def packBytes (es : List LogEntry) : Bytes :=
  leBytes 4 (Int32.ofNat es.length).toUInt32.toNat ++ records es

/-- Entries that the size in front of them can say. -/
def Sized (es : List LogEntry) : Prop := ∀ e ∈ es, e.packed.length < 2 ^ 31

namespace Store

/-- The store after entries have been stored from `ii` on. -/
def write (st : Store) (ii : Nat) (es : List LogEntry) : Store :=
  { st with logs := (es.zipIdx ii).foldl (fun m e => OrderedMap.put e.2 e.1 m) st.logs }

/-- The entries are under the indices from `i` on. -/
def Stored (st : Store) (i : Nat) (es : List LogEntry) : Prop :=
  ∀ k < es.length, st.logs.lookup (i + k) = es[k]?

theorem applyEntries_records {es : List LogEntry} (hes : Sized es) (n ii : Nat) (st : Store)
    {b : Buffer} {post : Bytes} (hrest : b.rest = records es ++ post) :
    applyEntries (es.length + n) ii st b =
      applyEntries n (ii + es.length) (st.write ii es) (b.skip (records es).length) := by
  induction es generalizing ii st b with
  | nil =>
    rw [List.length_nil, Nat.zero_add]
    simp [records, write]
  | cons e es ih =>
    have hrest' : b.rest = e.record ++ (records es ++ post) := by
      rw [hrest, records, List.flatMap_cons, List.append_assoc]
      rfl
    have hread := parses_getRecord e (hes e List.mem_cons_self) b _ hrest'
    have hnext := ih (fun e' he' => hes e' (List.mem_cons_of_mem _ he')) (ii + 1)
      { st with logs := OrderedMap.put ii e st.logs } (Block.rest_skip hrest')
    rw [List.length_cons, Nat.add_right_comm, applyEntries, hread]
    dsimp only
    rw [hnext, Block.skip_skip, Nat.add_assoc, Nat.add_comm 1]
    simp [records, write]

/-- **Applying entries.** The pack is the records of the entries that have been stored, and a rest:
all that were asked for have been read, or the next one cannot be read from the rest. -/
theorem applyEntries_cases (n ii : Nat) (st : Store) (b : Buffer) :
    ∃ es post, b.rest = records es ++ post ∧ Sized es ∧
      ((es.length = n ∧ ∃ b', applyEntries n ii st b = (st.write ii es, .ok b')) ∨
        (es.length < n ∧ ∃ f, applyEntries n ii st b = (st.write ii es, .error f) ∧
          (f ≠ .outOfBounds ↔ Refused post))) := by
  induction n generalizing ii st b with
  | zero => exact ⟨[], b.rest, rfl, nofun, .inl ⟨rfl, b, rfl⟩⟩
  | succ n ih =>
    rcases getRecord_cases b with ⟨href, f, hread, hf⟩ | ⟨hgood, hread⟩ | ⟨e, post, hrest, he, hread⟩
    · refine ⟨[], b.rest, rfl, nofun, .inr ⟨Nat.succ_pos n, f, ?_, fun _ => href, fun _ => hf⟩⟩
      rw [applyEntries, hread]
      rfl
    · refine ⟨[], b.rest, rfl, nofun, .inr ⟨Nat.succ_pos n, _, ?_, fun h => absurd rfl h,
        fun h => absurd h hgood⟩⟩
      rw [applyEntries, hread]
      rfl
    · obtain ⟨es, post', hrest', hes, hcases⟩ :=
        ih (ii + 1) { st with logs := OrderedMap.put ii e st.logs } (b.skip e.record.length)
      rw [Block.rest_skip hrest] at hrest'
      refine ⟨e :: es, post', ?_, ?_, ?_⟩
      · rw [hrest, hrest', records, records, List.flatMap_cons, List.append_assoc]
      · intro e' he'
        rcases List.mem_cons.1 he' with rfl | he'
        · exact he
        · exact hes e' he'
      · have hstep : applyEntries (n + 1) ii st b = applyEntries n (ii + 1)
            { st with logs := OrderedMap.put ii e st.logs } (b.skip e.record.length) := by
          rw [applyEntries, hread]
        rw [hstep, List.length_cons, Nat.add_right_cancel_iff, Nat.add_lt_add_iff_right]
        exact hcases

end Store

namespace LogList

open Store

variable {a : LogList} {i : Nat} {es : List LogEntry}

theorem lookup_cons_indexed {d : LogEntry} {s j : Nat} {l : List LogEntry} (hj : 1 ≤ j) (hs : s ≤ j) :
    ((0, d) :: indexed s l).lookup j = l[j - s]? := by
  rw [List.lookup_cons, show (j == 0) = false by simp; omega]
  conv_lhs => rw [show j = s + (j - s) by omega]
  exact OrderedMap.lookup_indexed

theorem store_write (hlo : a.start ≤ i) (hhi : i ≤ a.next) (es : List LogEntry) :
    a.store.write i es =
      ⟨a.start, (0, a.dummy) :: indexed a.start (splice a.entries (i - a.start) es)⟩ := by
  have hpos := a.pos
  rw [next] at hhi
  have hput := OrderedMap.foldl_put_indexed (k := a.start) (l := a.entries)
    (show i - a.start ≤ a.entries.length by omega) es
  rw [Nat.add_sub_cancel' hlo] at hput
  simp only [Store.write, store]
  rw [OrderedMap.foldl_put_cons (x := (0, a.dummy)) _ (by simp; omega), hput]

theorem stored_write (hlo : a.start ≤ i) (hhi : i ≤ a.next) (es : List LogEntry) :
    (a.store.write i es).Stored i es := by
  have hpos := a.pos
  have hnext := hhi
  rw [next] at hnext
  intro k hk
  rw [store_write hlo hhi]
  dsimp only
  rw [lookup_cons_indexed (by omega) (by omega), OrderedMap.getElem?_splice (by omega),
    if_pos (by omega)]
  congr 1
  omega

/-- Storing what is there changes nothing. -/
theorem write_eq_self_iff (hlo : a.start ≤ i) (hhi : i ≤ a.next) :
    a.store.write i es = a.store ↔ a.store.Stored i es := by
  have hpos := a.pos
  have hnext := hhi
  rw [next] at hnext
  constructor
  · intro h
    rw [← h]
    exact stored_write hlo hhi es
  · intro h
    rw [store_write hlo hhi, store]
    congr 3
    refine List.ext_getElem? fun j => ?_
    rw [OrderedMap.getElem?_splice (by omega)]
    split
    next hj =>
      have hk := h (j - (i - a.start)) (by omega)
      rw [store, lookup_cons_indexed (by omega) (by omega)] at hk
      rw [← hk]
      congr 1
      omega
    next => rfl

theorem firstIndex_indexed (d : LogEntry) (l : List LogEntry) (hs : 1 ≤ a.start) :
    firstIndex ((0, d) :: indexed a.start l) = if l = [] then 1 else a.start := by
  cases l with
  | nil => rfl
  | cons e l =>
    rw [if_neg (List.cons_ne_nil _ _), firstIndex, List.find?_cons_of_neg (by simp), indexed,
      List.find?_cons_of_pos (by simp; omega)]
    rfl

theorem rounds_eq {c : Nat} (hc : c < 2 ^ 31) (h : i + c < 2 ^ 64) :
    rounds i (Int32.ofNat c) = c := by
  rw [rounds, Int32.toInt_ofNat_of_lt hc, ulong]
  omega

/-- An index that would be too large makes the bound of the loop wrap to a small one. -/
theorem rounds_wrap {c : Nat} (hc : c < 2 ^ 31) (hi : i < 2 ^ 64) (h : 2 ^ 64 ≤ i + c) :
    rounds i (Int32.ofNat c) = 0 := by
  rw [rounds, Int32.toInt_ofNat_of_lt hc, ulong]
  omega

/-! ## Packs that are applied -/

/-- What `apply_pack` does with a buffer that begins with a count. -/
theorem applyPack_count (st : Store) {b : Buffer} {n : Int32} {post : Bytes}
    (hdata : b.data = leBytes 4 n.toUInt32.toNat ++ post) :
    ∃ c : Buffer, c.rest = post ∧ st.applyPack i b =
      match applyEntries (rounds i n) i st c with
      | (st, .error f) => (st, .error f)
      | (st, .ok _) => ({ st with startIdx := firstIndex st.logs }, .ok ()) := by
  have hrest : (b.seek 0).rest = leBytes 4 n.toUInt32.toNat ++ post := by
    show b.data.drop (min 0 _) = _
    rw [Nat.zero_min, List.drop_zero, hdata]
  refine ⟨_, Block.rest_skip hrest, ?_⟩
  rw [applyPack, parses_getInt n _ post hrest]

theorem applyPack_short {st : Store} {b : Buffer} (h : b.data.length < 4) :
    st.applyPack i b = (st, .error .overflow) := by
  have hrest : (b.seek 0).rest.length < 4 := by
    show (b.data.drop (min 0 _)).length < 4
    rw [Nat.zero_min, List.drop_zero]
    exact h
  have hread : getInt (b.seek 0) = .error .overflow := ((takes_get 4).map _).short _ hrest
  rw [applyPack, hread]

/-- A pack whose entries all fit in front of the end of the index range. -/
theorem applyPack_packBytes {b : Buffer} (hlo : a.start ≤ i) (hhi : i ≤ a.next) (hes : Sized es)
    (hlen : es.length < 2 ^ 31) (hdata : b.data = packBytes es) (hfit : i + es.length < 2 ^ 64) :
    a.store.applyPack i b =
      (⟨if splice a.entries (i - a.start) es = [] then 1 else a.start,
        (0, a.dummy) :: indexed a.start (splice a.entries (i - a.start) es)⟩, .ok ()) := by
  obtain ⟨c, hc, hrun⟩ := applyPack_count (i := i) a.store hdata
  have happly := applyEntries_records hes 0 i a.store (hc.trans (List.append_nil _).symm)
  rw [hrun, rounds_eq hlen hfit, ← Nat.add_zero es.length, happly]
  show (({ a.store.write i es with startIdx := _ } : Store), _) = _
  rw [store_write hlo hhi, firstIndex_indexed _ _ a.pos]

/-- What a buffer should come to: it is a pack whose entries are all stored, or it is refused and
nothing has changed. -/
def PackKept (a : LogList) (i : Nat) (b : Buffer) : Prop :=
  (∃ es, Sized es ∧ es.length < 2 ^ 31 ∧ b.data = packBytes es ∧
    (a.store.applyPack i b).2 = .ok () ∧ (a.store.applyPack i b).1.Stored i es ∧
    (a.store.applyPack i b).1.startIdx = a.start) ∨
  ∃ f, (a.store.applyPack i b).2 = .error f ∧ f ≠ .outOfBounds ∧
    (a.store.applyPack i b).1 = a.store

/-- The buffers of which this is true: packs, except for one without entries on an emptied store that
does not start at 1; buffers without a count; and those that break off in a way that is noticed, behind
entries that are in the store already. -/
def PackSafe (a : LogList) (i : Nat) (data : Bytes) : Prop :=
  (∃ es, Sized es ∧ es.length < 2 ^ 31 ∧ data = packBytes es ∧ i + es.length < 2 ^ 64 ∧
    (es ≠ [] ∨ a.entries ≠ [] ∨ a.start = 1)) ∨
  (∃ (n : Int32) (es : List LogEntry) (bad : Bytes),
    data = leBytes 4 n.toUInt32.toNat ++ (records es ++ bad) ∧ Sized es ∧ es.length < rounds i n ∧
      a.store.Stored i es ∧ Refused bad) ∨
  data.length < 4

theorem splice_eq_nil_iff {l es : List LogEntry} {n : Nat} (hn : n ≤ l.length) :
    splice l n es = [] ↔ l = [] ∧ es = [] := by
  rw [← List.length_eq_zero_iff, OrderedMap.length_splice hn, ← List.length_eq_zero_iff,
    ← List.length_eq_zero_iff]
  omega

/-- There is nothing at an index from the next one on. -/
theorem lookup_next_le {j : Nat} (h : a.next ≤ j) : a.store.logs.lookup j = none := by
  have hpos := a.pos
  rw [next] at h
  rw [store, lookup_cons_indexed (by omega) (by omega), List.getElem?_eq_none (by omega)]

theorem packSafe_of_stored {b : Buffer} (hlo : a.start ≤ i) (hhi : i ≤ a.next) (hes : Sized es)
    (hlen : es.length < 2 ^ 31) (hdata : b.data = packBytes es)
    (hstored : (a.store.applyPack i b).1.Stored i es)
    (hstart : (a.store.applyPack i b).1.startIdx = a.start) : PackSafe a i b.data := by
  have hnext := a.next_lt
  have hnext' : i ≤ a.start + a.entries.length := hhi
  have hn : i - a.start ≤ a.entries.length := by omega
  refine .inl ⟨es, hes, hlen, hdata, ?_⟩
  by_cases hfit : i + es.length < 2 ^ 64
  · refine ⟨hfit, ?_⟩
    rw [applyPack_packBytes hlo hhi hes hlen hdata hfit] at hstart
    by_cases hnil : splice a.entries (i - a.start) es = []
    · exact .inr (.inr ((if_pos hnil).symm.trans hstart).symm)
    · rw [splice_eq_nil_iff hn] at hnil
      by_cases hes' : es = []
      · exact .inr (.inl fun hentries => hnil ⟨hentries, hes'⟩)
      · exact .inl hes'
  · -- the bound of the loop has wrapped, and nothing was stored
    exfalso
    obtain ⟨c, -, hrun⟩ := applyPack_count (i := i) a.store hdata
    rw [hrun, rounds_wrap hlen (by omega) (by omega)] at hstored
    have hlast := hstored (es.length - 1) (by omega)
    rw [List.getElem?_eq_getElem (by omega)] at hlast
    have hnone : a.store.logs.lookup (i + (es.length - 1)) = none :=
      lookup_next_le (by rw [next]; omega)
    cases hnone.symm.trans hlast

theorem packSafe_of_refused {b : Buffer} (hlo : a.start ≤ i) (hhi : i ≤ a.next) {f : Fault}
    (hfail : (a.store.applyPack i b).2 = .error f) (hf : f ≠ .outOfBounds)
    (hsame : (a.store.applyPack i b).1 = a.store) : PackSafe a i b.data := by
  by_cases hlen : b.data.length < 4
  · exact .inr (.inr hlen)
  obtain ⟨n, post, hdata⟩ := exists_int (Nat.le_of_not_lt hlen)
  obtain ⟨c, hc, hrun⟩ := applyPack_count (i := i) a.store hdata
  obtain ⟨es, bad, hrest, hes, hcases⟩ := applyEntries_cases (rounds i n) i a.store c
  rcases hcases with ⟨-, c', happly⟩ | ⟨hlt, f', happly, hiff⟩
  · rw [hrun, happly] at hfail
    cases hfail
  · rw [hrun, happly] at hfail hsame
    cases hfail
    rw [hc] at hrest
    exact .inr (.inl ⟨n, es, bad, by rw [hdata, hrest], hes, hlt, (write_eq_self_iff hlo hhi).1 hsame,
      hiff.1 hf⟩)

theorem packKept_of_pack {b : Buffer} (hlo : a.start ≤ i) (hhi : i ≤ a.next) (hes : Sized es)
    (hlen : es.length < 2 ^ 31) (hdata : b.data = packBytes es) (hfit : i + es.length < 2 ^ 64)
    (hne : es ≠ [] ∨ a.entries ≠ [] ∨ a.start = 1) : PackKept a i b := by
  have hnext : i ≤ a.start + a.entries.length := hhi
  have hrun := applyPack_packBytes hlo hhi hes hlen hdata hfit
  have hstored := stored_write hlo hhi es
  rw [store_write hlo hhi] at hstored
  refine .inl ⟨es, hes, hlen, hdata, by rw [hrun], by rw [hrun]; exact hstored, ?_⟩
  rw [hrun]
  show (if _ then 1 else a.start) = a.start
  split
  next hnil =>
    obtain ⟨hentries, hes'⟩ := (splice_eq_nil_iff (by omega)).1 hnil
    rcases hne with h | h | h
    · exact absurd hes' h
    · exact absurd hentries h
    · exact h.symm
  next => rfl

theorem packKept_of_broken {b : Buffer} {n : Int32} {bad : Bytes} (hlo : a.start ≤ i)
    (hhi : i ≤ a.next) (hdata : b.data = leBytes 4 n.toUInt32.toNat ++ (records es ++ bad))
    (hes : Sized es) (hlt : es.length < rounds i n) (hstored : a.store.Stored i es)
    (hbad : Refused bad) : PackKept a i b := by
  obtain ⟨c, hc, hrun⟩ := applyPack_count (i := i) a.store hdata
  obtain ⟨m, hm⟩ : ∃ m, rounds i n = es.length + (m + 1) := ⟨rounds i n - es.length - 1, by omega⟩
  have happly := applyEntries_records hes (m + 1) i a.store hc
  have hrest := Block.rest_skip hc
  rw [hm, happly, (write_eq_self_iff hlo hhi).2 hstored, applyEntries] at hrun
  rcases getRecord_cases (c.skip (records es).length) with
    ⟨-, f, hread, hf⟩ | ⟨hgood, -⟩ | ⟨e, post, hentry, he, -⟩
  · rw [hread] at hrun
    exact .inr ⟨f, by rw [hrun], hf, by rw [hrun]⟩
  · rw [hrest] at hgood
    exact absurd hbad hgood
  · rw [hrest] at hentry
    rw [hentry] at hbad
    exact absurd hbad (not_refused_record he post)

/-- **Bad packs.** Applied at an index of the store or behind its last one, a buffer is a pack whose
entries are all stored, with the start in place, or it is refused and has changed nothing, exactly if it
is safe. -/
theorem bad_pack_changes_nothing (a : LogList) (i : Nat) (b : Buffer) (hlo : a.start ≤ i)
    (hhi : i ≤ a.next) : PackKept a i b ↔ PackSafe a i b.data := by
  constructor
  · rintro (⟨es, hes, hlen, hdata, -, hstored, hstart⟩ | ⟨f, hfail, hf, hsame⟩)
    · exact packSafe_of_stored hlo hhi hes hlen hdata hstored hstart
    · exact packSafe_of_refused hlo hhi hfail hf hsame
  · rintro (⟨es, hes, hlen, hdata, hfit, hne⟩ | ⟨n, es, bad, hdata, hes, hlt, hstored, hbad⟩ | hshort)
    · exact packKept_of_pack hlo hhi hes hlen hdata hfit hne
    · exact packKept_of_broken hlo hhi hdata hes hlt hstored hbad
    · exact .inr ⟨.overflow, by rw [applyPack_short hshort], nofun, by rw [applyPack_short hshort]⟩

/-- A store without entries, before index `s`. -/
def emptyAt (s : Nat) (h : 1 ≤ s ∧ s < 2 ^ 64) : LogList :=
  ⟨s, [], ⟨0, 1, List.replicate 8 0⟩, h.1, h.2⟩

/-- A new store and one that has been emptied. -/
def newStore : LogList := emptyAt 1 (by decide)

def emptiedStore : LogList := emptyAt 5 (by decide)

/-- A pack without entries. -/
def noEntries : Buffer := ⟨[0, 0, 0, 0], 0, by decide, Nat.zero_le _⟩

/-- A pack of two entries that breaks off behind the first one. -/
def brokenPack : Buffer :=
  ⟨[2, 0, 0, 0, 9, 0, 0, 0, 3, 0, 0, 0, 0, 0, 0, 0, 1], 0, by decide, Nat.zero_le _⟩

/-- A pack of one entry. -/
def wholePack : Buffer :=
  ⟨[1, 0, 0, 0, 9, 0, 0, 0, 3, 0, 0, 0, 0, 0, 0, 0, 1], 0, by decide, Nat.zero_le _⟩

/-- A store with the entries of indices 4 to 7, that of these packs among them. -/
def storeFromFour : LogList :=
  ⟨4, [⟨2, 1, [7, 0]⟩, ⟨3, 1, []⟩, ⟨3, 1, [8, 0]⟩, ⟨3, 1, [9, 0]⟩], ⟨0, 1, List.replicate 8 0⟩,
    by decide, by decide⟩

/-- A pack without entries goes to a new store, and one with an entry over another entry. The broken
pack is refused at the index where its first entry is stored already. -/
theorem bad_pack_changes_nothing_stored : PackKept newStore 1 noEntries ∧
    PackKept storeFromFour 4 wholePack ∧ PackKept storeFromFour 5 brokenPack := by
  refine ⟨(bad_pack_changes_nothing newStore 1 noEntries (Nat.le_refl _) (Nat.le_refl _)).2
      (.inl ⟨[], nofun, by decide, rfl, by decide, .inr (.inr rfl)⟩),
    (bad_pack_changes_nothing storeFromFour 4 wholePack (by decide) (by decide)).2
      (.inl ⟨[⟨3, 1, []⟩], ?_, by decide, rfl, by decide, .inl (by simp)⟩),
    (bad_pack_changes_nothing storeFromFour 5 brokenPack (by decide) (by decide)).2
      (.inr (.inl ⟨2, [⟨3, 1, []⟩], [], rfl, ?_, by decide, ?_, .inl (by decide)⟩))⟩
  · intro e he
    cases List.mem_singleton.1 he
    decide
  · intro e he
    cases List.mem_singleton.1 he
    decide
  · intro k hk
    obtain rfl : k = 0 := by simpa using hk
    rfl

/-- A pack without entries moves the start of an emptied store from 5 to 1. A pack of two entries that
breaks off behind the first one leaves it in the store. -/
theorem bad_pack_changes_store :
    (emptiedStore.store.applyPack 5 noEntries = (⟨1, emptiedStore.store.logs⟩, .ok ()) ∧
      ¬PackKept emptiedStore 5 noEntries) ∧
    newStore.store.applyPack 1 brokenPack =
        (⟨1, [(0, newStore.dummy), (1, ⟨3, 1, []⟩)]⟩, .error .overflow) ∧
      ¬PackKept newStore 1 brokenPack := by
  have hempty : emptiedStore.store.applyPack 5 noEntries =
      (⟨1, emptiedStore.store.logs⟩, .ok ()) := rfl
  have hbroken : newStore.store.applyPack 1 brokenPack =
      (⟨1, [(0, newStore.dummy), (1, ⟨3, 1, []⟩)]⟩, .error .overflow) := rfl
  refine ⟨⟨hempty, ?_⟩, hbroken, ?_⟩
  · rintro (⟨_, _, _, _, _, _, hstart⟩ | ⟨f, hfail, _⟩)
    · rw [hempty] at hstart
      cases hstart
    · rw [hempty] at hfail
      cases hfail
  · rintro (⟨_, _, _, _, hok, _⟩ | ⟨f, _, _, hsame⟩)
    · rw [hbroken] at hok
      cases hok
    · rw [hbroken] at hsame
      cases congrArg (fun st => st.logs.length) hsame

/-! ## Packs of a store -/

/-- The entries of `[i, i + c)`. -/
def slice (a : LogList) (i c : Nat) : List LogEntry := (a.entries.drop (i - a.start)).take c

theorem length_slice {c : Nat} (hlo : a.start ≤ i) (hhi : i + c ≤ a.next) :
    (a.slice i c).length = c := by
  rw [next] at hhi
  rw [slice, List.length_take, List.length_drop]
  omega

theorem getElem?_slice {c k : Nat} (hlo : a.start ≤ i) (hk : k < c) :
    (a.slice i c)[k]? = a.store.logs.lookup (i + k) := by
  have hpos := a.pos
  rw [slice, List.getElem?_take_of_lt hk, List.getElem?_drop, store,
    lookup_cons_indexed (by omega) (by omega)]
  congr 1
  omega

/-- The loop of `pack` finds the entries of the range. -/
theorem map_lookup {c : Nat} (hlo : a.start ≤ i) (hhi : i + c ≤ a.next) :
    (List.range' i c).map (fun ii => a.store.logs.lookup ii) = (a.slice i c).map some := by
  refine List.ext_getElem? fun k => ?_
  rw [List.getElem?_map, List.getElem?_map]
  by_cases hk : k < c
  · have hget := getElem?_slice hlo hk
    have hlt : k < (a.slice i c).length := by rw [length_slice hlo hhi]; exact hk
    rw [List.getElem?_eq_getElem hlt] at hget ⊢
    rw [List.getElem?_range' hk, Option.map_some, Option.map_some, Nat.one_mul, ← hget]
  · rw [List.getElem?_eq_none (by simpa using hk), List.getElem?_eq_none]
    · rfl
    · rw [length_slice hlo hhi]
      omega

/-- Each buffer behind its size. -/
theorem flatMap_records {bufs : List Buffer} {es : List LogEntry}
    (hrest : bufs.map Block.rest = es.map LogEntry.packed)
    (hsize : bufs.map Buffer.size = es.map fun e => e.packed.length) :
    bufs.flatMap (fun b => leBytes 4 (Int32.ofNat b.size).toUInt32.toNat ++ b.rest) = records es := by
  have hpairs : bufs.map (fun b => (b.size, b.rest)) =
      es.map fun e => (e.packed.length, e.packed) := by
    rw [← List.zip_map', ← List.zip_map', hrest, hsize]
  have h := congrArg
    (List.flatMap fun p : Nat × Bytes => leBytes 4 (Int32.ofNat p.1).toUInt32.toNat ++ p.2) hpairs
  rw [List.flatMap_map, List.flatMap_map] at h
  exact h

theorem length_packBytes (es : List LogEntry) :
    (packBytes es).length = 4 + es.length * 4 + (es.map fun e => e.packed.length).sum := by
  have hrecords : (records es).length = es.length * 4 + (es.map fun e => e.packed.length).sum := by
    rw [records, List.length_flatMap]
    induction es with
    | nil => rfl
    | cons e es ih =>
      simp only [List.map_cons, List.sum_cons, List.length_cons, ih, e.length_record]
      omega
  rw [packBytes, List.length_append, length_leBytes, hrecords, Nat.add_assoc]

theorem sized_of_length {es : List LogEntry} (h : (packBytes es).length < 2 ^ 31) : Sized es := by
  intro e he
  have hle : e.record.length ≤ (records es).length := by
    rw [records, List.flatMap_def]
    exact (List.sublist_flatten_of_mem (List.mem_map_of_mem he)).length_le
  rw [packBytes, List.length_append] at h
  rw [e.length_record] at hle
  omega

theorem mapM_pack {c : Nat} (hlo : a.start ≤ i) (hhi : i + c ≤ a.next) :
    ((List.range' i c).mapM fun ii =>
      match a.store.logs.lookup ii with
      | some e => e.pack
      | none => .error .outOfBounds) = (a.slice i c).mapM LogEntry.pack := by
  have hmap := congrArg (List.mapM fun e? : Option LogEntry =>
    match e? with
    | some e => e.pack
    | none => .error .outOfBounds) (map_lookup hlo hhi)
  rw [List.mapM_map, List.mapM_map] at hmap
  exact hmap

theorem emits_records (bufs : List Buffer) :
    Emits (bufs.forM fun b => do putInt (Int32.ofNat b.size); putBuffer b)
      (bufs.flatMap fun b => leBytes 4 (Int32.ofNat b.size).toUInt32.toNat ++ b.rest) :=
  emits_forM bufs fun b _ => (emits_put _).bind (emits_put b.rest)

theorem pack_store {c : Nat} (hlo : a.start ≤ i) (hhi : i + c ≤ a.next)
    (hsize : (packBytes (a.slice i c)).length < 2 ^ 31) :
    ∃ out, a.store.pack i (Int32.ofNat c) = .ok out ∧ out.data = packBytes (a.slice i c) := by
  have hnext := a.next_lt
  have hlen := length_slice hlo hhi
  have hbytes := length_packBytes (a.slice i c)
  have hc : c < 2 ^ 31 := by omega
  have hrounds : rounds i (Int32.ofNat c) = c := rounds_eq hc (by rw [next] at hhi; omega)
  obtain ⟨bufs, hbufs, hrest, hsizes⟩ := mapM_serialize LogEntry.pack_eq (a.slice i c)
    (sized_of_length hsize)
  have halloc : packSize (Int32.ofNat c) (bufs.map Buffer.size).sum =
      (packBytes (a.slice i c)).length := by
    rw [packSize, Int32.toInt_ofNat_of_lt hc, hsizes, hbytes, hlen, ulong]
    omega
  obtain ⟨out, hout, houtLen, houtPos⟩ := alloc_eq hsize
  have hemits : Emits (do
      putInt (Int32.ofNat c)
      bufs.forM fun b => do
        putInt (Int32.ofNat b.size)
        putBuffer b : BufM Unit) (packBytes (a.slice i c)) := by
    have hbufs' := emits_records bufs
    rw [flatMap_records hrest hsizes] at hbufs'
    rw [packBytes, hlen]
    exact (emits_put _).bind hbufs'
  have hrun := hemits out (by rw [Block.length_rest, houtLen, houtPos]; omega)
  refine ⟨out.put (packBytes (a.slice i c)), ?_,
    Block.data_put_of_length houtPos houtLen.symm⟩
  rw [Store.pack, hrounds, mapM_pack hlo hhi, hbufs]
  show (alloc (packSize (Int32.ofNat c) (bufs.map Buffer.size).sum) >>= fun out => _) = _
  rw [halloc, hout]
  show (((do
      putInt (Int32.ofNat c)
      bufs.forM fun b => do
        putInt (Int32.ofNat b.size)
        putBuffer b : BufM Unit) out) >>= fun x : Unit × Buffer => pure x.2) = _
  rw [hrun]
  rfl

/-- **Packs transfer entries.** The pack of a range of one store, applied to another at an index of it
or behind its last one, makes the entries of the range those of the sender and leaves the others. -/
theorem pack_transfers_entries (src dst : LogList) (i c : Nat) (hc : 1 ≤ c)
    (hsrc : src.start ≤ i ∧ i + c ≤ src.next)
    (hsize : 4 + ((src.slice i c).map fun e => 4 + (9 + e.buf.length)).sum < 2 ^ 31)
    (hdst : dst.start ≤ i ∧ i ≤ dst.next) :
    ∃ out st, src.store.pack i (Int32.ofNat c) = .ok out ∧
      dst.store.applyPack i out = (st, .ok ()) ∧
      (∀ j, i ≤ j → j < i + c → ∃ e, src.store.logs.lookup j = some e ∧
        st.logs.lookup j = some e) ∧
      (∀ j, ¬(i ≤ j ∧ j < i + c) → st.logs.lookup j = dst.store.logs.lookup j) ∧
      st.nextSlot = max dst.store.nextSlot (i + c) := by
  have hpos := dst.pos
  have hnext := src.next_lt
  have hdstNext := dst.next_lt
  have hlo : src.start ≤ i := hsrc.1
  have hhi : i + c ≤ src.start + src.entries.length := hsrc.2
  have hdst' : i ≤ dst.start + dst.entries.length := hdst.2
  have hlen := length_slice hsrc.1 hsrc.2
  have hbytes : (packBytes (src.slice i c)).length < 2 ^ 31 := by
    rw [packBytes, List.length_append, length_leBytes, records, List.length_flatMap]
    simpa only [LogEntry.length_record, LogEntry.length_packed] using hsize
  have hc' : c < 2 ^ 31 := by
    have := length_packBytes (src.slice i c)
    omega
  obtain ⟨out, hpack, hdata⟩ := pack_store hsrc.1 hsrc.2 hbytes
  have happly := applyPack_packBytes hdst.1 hdst.2 (sized_of_length hbytes) (by omega) hdata (by omega)
  have hne : splice dst.entries (i - dst.start) (src.slice i c) ≠ [] := by
    rw [ne_eq, splice_eq_nil_iff (by omega), ← List.length_eq_zero_iff, ← List.length_eq_zero_iff]
    omega
  rw [if_neg hne] at happly
  refine ⟨out, _, hpack, happly, fun j hij hj => ?_, fun j hj => ?_, ?_⟩
  · have hget := getElem?_slice (a := src) (k := j - i) hsrc.1 (show j - i < c by omega)
    rw [Nat.add_sub_cancel' hij, List.getElem?_eq_getElem (by omega)] at hget
    refine ⟨_, hget.symm, ?_⟩
    dsimp only
    rw [lookup_cons_indexed (by omega) (by omega), OrderedMap.getElem?_splice (by omega),
      if_pos (by omega), show j - dst.start - (i - dst.start) = j - i by omega,
      List.getElem?_eq_getElem (by omega)]
  · dsimp only
    by_cases hzero : j = 0
    · subst hzero
      rfl
    by_cases hbelow : j < dst.start
    · rw [store, List.lookup_cons, List.lookup_cons, OrderedMap.lookup_indexed_of_lt hbelow,
        OrderedMap.lookup_indexed_of_lt hbelow]
    · rw [store, lookup_cons_indexed (by omega) (by omega), lookup_cons_indexed (by omega) (by omega),
        OrderedMap.getElem?_splice (by omega), if_neg (by omega)]
  · simp only [nextSlot, store, List.length_cons, OrderedMap.length_indexed,
      OrderedMap.length_splice (show i - dst.start ≤ dst.entries.length by omega), hlen]
    omega

/-- A store with the entries of indices 3 to 6. -/
def storeFromThree : LogList :=
  ⟨3, [⟨6, 1, [1, 0]⟩, ⟨7, 1, [2, 0]⟩, ⟨7, 1, []⟩, ⟨8, 1, [3, 0]⟩], ⟨0, 1, List.replicate 8 0⟩,
    by decide, by decide⟩

/-- Two entries go into a store that has entries before and behind them. -/
theorem pack_transfers_entries_two :
    ∃ out st, storeFromThree.store.pack 5 (Int32.ofNat 2) = .ok out ∧
      storeFromFour.store.applyPack 5 out = (st, .ok ()) ∧
      st.logs.lookup 4 = some ⟨2, 1, [7, 0]⟩ ∧ st.logs.lookup 5 = some ⟨7, 1, []⟩ ∧
      st.logs.lookup 6 = some ⟨8, 1, [3, 0]⟩ ∧ st.logs.lookup 7 = some ⟨3, 1, [9, 0]⟩ := by
  obtain ⟨out, st, hpack, happly, hsame, hother, -⟩ := pack_transfers_entries storeFromThree
    storeFromFour 5 2 (by decide) (by decide) (by decide) (by decide)
  obtain ⟨e, he, hfive⟩ := hsame 5 (by decide) (by decide)
  cases he
  obtain ⟨e, he, hsix⟩ := hsame 6 (by decide) (by decide)
  cases he
  exact ⟨out, st, hpack, happly, hother 4 (by decide), hfive, hsix, hother 7 (by decide)⟩

end LogList

end EnclaveRaft.Wire
