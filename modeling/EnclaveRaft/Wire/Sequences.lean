import EnclaveRaft.Lib.Machine
import EnclaveRaft.Wire.Layout

/-!
# Sequences of operations on a buffer

Decoders rest on two properties of a buffer: whatever is done to it, its layout stays and its
position stays in it, and what was written in some order is read in this order.

The first one has an exception. `get` of a whole buffer moves the position by the room in the other
buffer, which may lie behind the end. In the small layout it may even reach the bit that tells the
layouts apart. `Op.Lands` leaves that out and nothing else: the position that `get` moves to, cut to
the width of the field, has to lie in the block (`representation_kept_iff`).

The second one needs no condition (`put_get_round_trip`).
-/

namespace EnclaveRaft.Wire.Raw

variable {n : Nat} {m : Ram}

/-! ## Operations -/

/-- What can be done to a buffer. Another buffer is given by its memory. -/
inductive Op
  | putByte (x : UInt8)
  | putInt (x : Int32)
  | putUlong (x : UInt64)
  | putStr (s : Bytes)
  | putBuffer (src : Ram)
  | putSelf
  | getByte
  | getInt
  | getUlong
  | getStr
  | getBuffer (dst : Ram)
  | getSelf
  | seek (p : Nat)
  | copy (fresh : Ram)

/-- The program keeps the representation of a buffer of `n` bytes, and changes nothing if it throws.
-/
def Keeps {α : Type} (n : Nat) (m : Ram) (x : RawM α) : Prop :=
  Sound n (x m).state ∧ ∀ e, (x m).result = .error e → (x m).state = m

/-- Leave the result of an operation aside. -/
def discard {α : Type} (x : RawM α) : RawM Unit := fun m =>
  ⟨(x m).result.map fun _ => (), (x m).state, (x m).out⟩

namespace Op

def run : Op → RawM Unit
  | putByte x => Raw.putByte x
  | putInt x => Raw.putInt x
  | putUlong x => Raw.putUlong x
  | putStr s => Raw.putStr s
  | putBuffer src => Raw.putBuffer src
  | putSelf => do
    let m ← Act.get
    Raw.putBuffer m
  | getByte => discard Raw.getByte
  | getInt => discard Raw.getInt
  | getUlong => discard Raw.getUlong
  | getStr => discard Raw.getStr
  | getBuffer dst => discard (Raw.getBuffer dst)
  | getSelf => do
    let m ← Act.get
    discard (Raw.getBuffer m)
  | seek p => Raw.seek p
  | copy fresh => discard (Raw.copy fresh)

/-- The caller goes on after an exception. -/
def step (m : Ram) (op : Op) : Option Ram := some (op.run m).state

def Keeps (n : Nat) (m : Ram) (op : Op) : Prop := Raw.Keeps n m op.run

/-- A position as it fits into its field. -/
def cut (m : Ram) (p : Nat) : Nat := if isBigBlock m then p % 2 ^ 32 else p % 2 ^ 16

/-- `get` of a whole buffer does not move the position out of the block. -/
def Lands (m : Ram) : Op → Prop
  | getBuffer dst => cut m (pos m + avail dst) ≤ size m
  | _ => True

instance (m : Ram) : (op : Op) → Decidable (op.Lands m)
  | getBuffer dst => inferInstanceAs (Decidable (cut m (pos m + avail dst) ≤ size m))
  | putByte _ | putInt _ | putUlong _ | putStr _ | putBuffer _ | putSelf | getByte | getInt
  | getUlong | getStr | getSelf | seek _ | copy _ => instDecidableTrue

end Op

/-! ## The representation -/

/-- Moving the position keeps the representation exactly if the position stays in the block. -/
theorem sound_setBlockPos_iff (h : Sound n m) (hn : n < 2 ^ 31) (p : Nat) :
    Sound n (setBlockPos p m) ↔ Op.cut m p ≤ n := by
  have hcut : setBlockPos (Op.cut m p) m = setBlockPos p m := by
    unfold setBlockPos Op.cut
    split
    · exact Ram.storeNat_mod m 4 4 p
    · exact Ram.storeNat_mod m 2 2 p
  constructor
  · intro h'
    have hpos := h'.pos
    have htag := h'.tag.trans h.tag.symm
    rw [pos, htag] at hpos
    unfold setBlockPos at hpos
    unfold Op.cut
    split at hpos
    next hbig =>
      rw [Ram.load_storeNat] at hpos
      rwa [if_pos hbig]
    next hbig =>
      rw [Ram.load_storeNat] at hpos
      rwa [if_neg hbig]
  · intro hle
    obtain ⟨b, hb, hlen⟩ := h.shows hn
    rw [← hcut, ← hlen]
    exact (hb.setBlockPos (hlen ▸ hle)).sound

/-- An operation on blocks that does not change their size. -/
def Sized {α : Type} (y : BufM α) : Prop :=
  ∀ b a b', y b = .ok (a, b') → b'.data.length = b.data.length

theorem sized_put (bs : Bytes) : Sized (Wire.put bs) := by
  intro b a b' h
  unfold Wire.put at h
  split at h
  · cases h
  · cases h
    exact Block.length_put

theorem sized_get {α : Type} (n : Nat) (f : Bytes → α) :
    Sized (Wire.get n >>= fun bs => pure (f bs)) := by
  intro b a b' h
  rcases Nat.lt_or_ge b.rest.length n with hlt | hle
  · have hthrow := ((takes_get n).map f).short b hlt
    cases hthrow.symm.trans h
  · obtain ⟨a', hok⟩ := ((takes_get n).map f).full b hle
    cases hok.symm.trans h
    rfl

theorem sized_getStr : Sized Wire.getStr := by
  intro b a b' h
  unfold Wire.getStr at h
  dsimp only at h
  split at h <;> cases h <;> rfl

theorem sized_seek (p : Nat) : Sized (Wire.seek p) := by
  intro b a b' h
  cases h
  rfl

/-- An operation that does what one on blocks says keeps the representation. -/
theorem Refines.keeps {α : Type} {x : RawM α} {y : BufM α} (hx : Refines x y) (hy : Sized y)
    (h : Sound n m) (hn : n < 2 ^ 31) : Keeps n m x := by
  obtain ⟨b, hb, hlen⟩ := h.shows hn
  cases hyb : y b with
  | error e =>
    rw [Keeps, hx.throws hb hyb]
    exact ⟨h, fun _ _ => rfl⟩
  | ok z =>
    obtain ⟨m', hrun, hb'⟩ := hx.follows hb hyb
    rw [Keeps, show x m = _ from hrun]
    refine ⟨?_, fun e he => by cases he⟩
    rw [← hlen, ← hy b z.1 z.2 hyb]
    exact hb'.sound

theorem keeps_discard {α : Type} {x : RawM α} : Keeps n m (discard x) ↔ Keeps n m x := by
  refine and_congr_right fun _ => ?_
  have hresult : (discard x m).result = (x m).result.map fun _ => () := rfl
  rw [hresult]
  cases (x m).result with
  | error e' => exact ⟨fun h _ _ => h e' rfl, fun h _ _ => h e' rfl⟩
  | ok a => exact ⟨fun _ e he => (by cases he), fun _ e he => (by cases he)⟩

/-- A buffer that is given to itself. -/
theorem keeps_get_bind {α : Type} {f : Ram → RawM α} :
    Keeps n m (Act.get >>= f) ↔ Keeps n m (f m) := by
  rw [Keeps, Act.get_bind_apply, Keeps]

/-- Any buffer may be the source: if it is broken, there is no room for what it claims to hold. -/
theorem refines_putBuffer_raw (src : Ram) :
    Refines (putBuffer src) (Wire.put (src.bytes (data src) (avail src))) :=
  refines_putWith (src.length_bytes ..) fun _ _ => rfl

theorem keeps_getBuffer_iff (h : Sound n m) (hn : n < 2 ^ 31) (dst : Ram) :
    Keeps n m (getBuffer dst) ↔ Op.cut m (pos m + avail dst) ≤ n := by
  have hstate : (getBuffer dst m).state = setBlockPos (pos m + avail dst) m :=
    mvFwBlock_eq (avail dst) m
  rw [Keeps, hstate, sound_setBlockPos_iff h hn]
  exact and_iff_left fun e he => by cases he

/-- The room in front of the end is never too much. -/
theorem cut_pos_add_avail (h : Sound n m) : Op.cut m (pos m + avail m) ≤ n := by
  have hpos := h.pos
  have hsum : pos m + avail m = n := by
    rw [avail, h.size, usub_of_le hpos]
    omega
  rw [hsum]
  unfold Op.cut
  split
  · exact Nat.mod_le _ _
  · exact Nat.mod_le _ _

/-- **An operation** keeps the representation exactly if it does not move the position out of the
block. -/
theorem Op.keeps_iff_lands (h : Sound n m) (hn : n < 2 ^ 31) (op : Op) :
    op.Keeps n m ↔ op.Lands m := by
  cases op with
  | putByte x => exact iff_of_true ((refines_putByte x).keeps (sized_put _) h hn) trivial
  | putInt x => exact iff_of_true ((refines_putInt x).keeps (sized_put _) h hn) trivial
  | putUlong x => exact iff_of_true ((refines_putUlong x).keeps (sized_put _) h hn) trivial
  | putStr s => exact iff_of_true ((refines_putStr s).keeps (sized_put _) h hn) trivial
  | putBuffer src =>
    exact iff_of_true ((refines_putBuffer_raw src).keeps (sized_put _) h hn) trivial
  | putSelf =>
    have hself : Raw.Keeps n m (Raw.putBuffer m) := (refines_putBuffer_raw m).keeps (sized_put _) h hn
    exact iff_of_true (keeps_get_bind.2 hself) trivial
  | getByte =>
    exact iff_of_true (keeps_discard.2 (refines_getByte.keeps (sized_get _ _) h hn)) trivial
  | getInt =>
    exact iff_of_true (keeps_discard.2 (refines_getInt.keeps (sized_get _ _) h hn)) trivial
  | getUlong =>
    exact iff_of_true (keeps_discard.2 (refines_getUlong.keeps (sized_get _ _) h hn)) trivial
  | getStr => exact iff_of_true (keeps_discard.2 (refines_getStr.keeps sized_getStr h hn)) trivial
  | getBuffer dst =>
    show Raw.Keeps n m (discard _) ↔ cut m (pos m + avail dst) ≤ size m
    rw [keeps_discard, keeps_getBuffer_iff h hn, h.size]
  | getSelf =>
    have hself : Raw.Keeps n m (discard (Raw.getBuffer m)) :=
      keeps_discard.2 ((keeps_getBuffer_iff h hn m).2 (cut_pos_add_avail h))
    exact iff_of_true (keeps_get_bind.2 hself) trivial
  | seek p => exact iff_of_true ((refines_seek p).keeps (sized_seek p) h hn) trivial
  | copy fresh =>
    obtain ⟨b, hb, hlen⟩ := h.shows hn
    obtain ⟨other, c, hrun, -⟩ := hb.copy fresh
    refine iff_of_true (keeps_discard.2 ?_) trivial
    rw [Raw.Keeps, show Raw.copy fresh m = _ from hrun]
    exact ⟨h, fun e he => by cases he⟩

/-- **The representation of a buffer.** After `alloc`, and after any sequence of operations whose
exceptions are caught, size, tag and position are in order and no operation that threw has changed
anything, exactly if each `get` of a whole buffer stays in the block. -/
theorem representation_kept_iff {fresh : Ram} (halloc : alloc n fresh = .ok m) (ops : List Op) :
    Sound n m ∧
      (Machine.Along Op.step (Op.Keeps n) m ops ↔ Machine.Along Op.step Op.Lands m ops) := by
  obtain ⟨hn, hsound, -⟩ := alloc_sound halloc
  refine ⟨hsound, Machine.along_congr (I := Sound n) ?_ ?_ hsound⟩
  · exact fun _ op h => op.keeps_iff_lands h hn
  · intro m op m' _ hkeeps hstep
    cases hstep
    exact hkeeps.1

/-- A number is written into four bytes, one more does not fit, and it is read back as a whole. -/
theorem representation_kept_four :
    Machine.Along Op.step (Op.Keeps 4) (initSBlock 4 fun _ => 0)
      [.putInt (-2), .putByte 1, .seek 9, .putSelf, .seek 0, .getBuffer (initSBlock 4 fun _ => 0),
        .getByte, .getSelf, .copy fun _ => 0] :=
  (representation_kept_iff (show alloc 4 (fun _ => 0) = .ok _ from rfl) _).2.2 (by decide)

/-- Eight bytes out of a buffer of four leave the position behind the end. 0x8000 bytes out of it
make a big buffer of it. -/
theorem getBuffer_leaves_block :
    ∃ m dst big : Ram, alloc 4 (fun _ => 0) = .ok m ∧ alloc 8 (fun _ => 0) = .ok dst ∧
      alloc 0x8000 (fun _ => 0) = .ok big ∧
      ((Op.getBuffer dst).run m).result = .ok () ∧ size m = 4 ∧
      pos ((Op.getBuffer dst).run m).state = 8 ∧
      ((Op.getBuffer big).run m).result = .ok () ∧ isBigBlock m = false ∧
      isBigBlock ((Op.getBuffer big).run m).state = true :=
  ⟨_, _, _, rfl, rfl, rfl, rfl, by decide, by decide, rfl, by decide, by decide⟩

/-! ## Values -/

/-- Another buffer, with its representation in order. -/
structure Image where
  mem : Ram
  size : Nat
  size_lt : size < 2 ^ 31
  sound : Sound size mem

/-- The bytes behind the position. -/
def Image.bytes (i : Image) : Bytes := i.mem.bytes (data i.mem) (avail i.mem)

theorem Image.shows (i : Image) : ∃ c, Shows i.mem c ∧ c.rest = i.bytes := by
  obtain ⟨c, hc, -⟩ := i.sound.shows i.size_lt
  refine ⟨c, hc, ?_⟩
  rw [Image.bytes, hc.avail, hc.rest]

/-- What can be written and read. A buffer is written from `src` and read into `dst`, where there is
as much room. -/
inductive Value
  | byte (x : UInt8)
  | int (x : Int32)
  | ulong (x : UInt64)
  | str (s : Bytes) (hne : s ≠ []) (hzero : 0 ∉ s)
  | buffer (src dst : Image) (hroom : avail dst.mem = avail src.mem)

/-- What a read returns. -/
inductive Datum
  | byte (x : UInt8)
  | int (x : Int32)
  | ulong (x : UInt64)
  | str (s : Option Bytes)
  | buffer (bs : Bytes)
  deriving DecidableEq

namespace Value

def put : Value → RawM Unit
  | byte x => Raw.putByte x
  | int x => Raw.putInt x
  | ulong x => Raw.putUlong x
  | str s _ _ => Raw.putStr s
  | buffer src _ _ => Raw.putBuffer src.mem

def get : Value → RawM Datum
  | byte _ => do return .byte (← Raw.getByte)
  | int _ => do return .int (← Raw.getInt)
  | ulong _ => do return .ulong (← Raw.getUlong)
  | str _ _ _ => do return .str (← Raw.getStr)
  | buffer _ dst _ => do return .buffer (← Raw.getBytes dst.mem)

/-- The value as a read has to return it. -/
def datum : Value → Datum
  | byte x => .byte x
  | int x => .int x
  | ulong x => .ulong x
  | str s _ _ => .str (some s)
  | buffer src _ _ => .buffer src.bytes

/-- The size of the encoding. -/
def size : Value → Nat
  | byte _ => 1
  | int _ => 4
  | ulong _ => 8
  | str s _ _ => s.length + 1
  | buffer src _ _ => avail src.mem

def encoding : Value → Bytes
  | byte x => [x]
  | int x => leBytes 4 x.toUInt32.toNat
  | ulong x => leBytes 8 x.toNat
  | str s _ _ => s ++ [0]
  | buffer src _ _ => src.bytes

theorem length_encoding (v : Value) : v.encoding.length = v.size := by
  cases v with
  | byte x => rfl
  | int x => exact length_leBytes 4 _
  | ulong x => exact length_leBytes 8 _
  | str s hne hzero => exact List.length_append
  | buffer src dst hroom => exact src.mem.length_bytes ..

end Value

def putAll : List Value → RawM Unit
  | [] => pure ()
  | v :: vs => do
    v.put
    putAll vs

def getAll : List Value → RawM (List Datum)
  | [] => pure []
  | v :: vs => do
    let d ← v.get
    let ds ← getAll vs
    pure (d :: ds)

/-- Write, rewind and read. -/
def roundTrip (vs : List Value) : RawM (List Datum) := do
  putAll vs
  seek 0
  getAll vs

/-- `x` writes the bytes `bs` where there is room. -/
def Writes (x : RawM Unit) (bs : Bytes) : Prop := ∃ y : BufM Unit, Follows x y ∧ Emits y bs

/-- `x` reads the bytes `bs` and returns `a`. -/
def Reads {α : Type} (x : RawM α) (bs : Bytes) (a : α) : Prop :=
  ∃ y : BufM α, Follows x y ∧ Parses y bs a

theorem Writes.bind {x x' : RawM Unit} {bs bs' : Bytes} (hx : Writes x bs) (hx' : Writes x' bs') :
    Writes (x >>= fun _ => x') (bs ++ bs') := by
  obtain ⟨y, hfollows, hemits⟩ := hx
  obtain ⟨y', hfollows', hemits'⟩ := hx'
  exact ⟨y >>= fun _ => y', hfollows.bind fun _ => hfollows', hemits.bind hemits'⟩

theorem reads_pure {α : Type} (a : α) : Reads (pure a) [] a :=
  ⟨pure a, follows_pure a, parses_pure a⟩

theorem Reads.map {α β : Type} {x : RawM α} {bs : Bytes} {a : α} (hx : Reads x bs a) (f : α → β) :
    Reads (x >>= fun a => pure (f a)) bs (f a) := by
  obtain ⟨y, hfollows, hparses⟩ := hx
  exact ⟨_, hfollows.bind fun a => follows_pure (f a), hparses.bind_pure rfl⟩

/-- Two reads, one after the other. -/
theorem Reads.bind_map {α β γ : Type} {x : RawM α} {x' : RawM β} {bs bs' : Bytes} {a : α} {c : β}
    (hx : Reads x bs a) (hx' : Reads x' bs' c) (f : α → β → γ) :
    Reads (x >>= fun a => x' >>= fun c => pure (f a c)) (bs ++ bs') (f a c) := by
  obtain ⟨y, hfollows, hparses⟩ := hx
  obtain ⟨z, hfollows', hparses'⟩ := hx'
  refine ⟨y >>= fun a => z >>= fun c => pure (f a c), ?_, hparses.bind (hparses'.bind_pure rfl)⟩
  exact hfollows.bind fun a => hfollows'.bind fun c => follows_pure (f a c)

namespace Value

theorem put_writes (v : Value) : Writes v.put v.encoding := by
  cases v with
  | byte x => exact ⟨_, (refines_putByte x).follows, emits_put [x]⟩
  | int x => exact ⟨_, (refines_putInt x).follows, emits_put _⟩
  | ulong x => exact ⟨_, (refines_putUlong x).follows, emits_put _⟩
  | str s hne hzero => exact ⟨_, (refines_putStr s).follows, emits_put _⟩
  | buffer src dst hroom => exact ⟨_, (refines_putBuffer_raw src.mem).follows, emits_put src.bytes⟩

theorem get_reads (v : Value) : Reads v.get v.encoding v.datum := by
  cases v with
  | byte x => exact Reads.map ⟨_, refines_getByte.follows, parses_getByte x⟩ Datum.byte
  | int x => exact Reads.map ⟨_, refines_getInt.follows, parses_getInt x⟩ Datum.int
  | ulong x => exact Reads.map ⟨_, refines_getUlong.follows, parses_getUlong x⟩ Datum.ulong
  | str s hne hzero =>
    exact Reads.map ⟨_, refines_getStr.follows, parses_getStr hne hzero⟩ Datum.str
  | buffer src dst hroom =>
    obtain ⟨c, hc, -⟩ := dst.shows
    have hlen : src.bytes.length = c.rest.length := by
      rw [Image.bytes, Ram.length_bytes, ← hroom, hc.avail]
    have hparse := parses_getBuffer src.bytes
    rw [hlen] at hparse
    exact Reads.map ⟨_, follows_getBytes hc, hparse⟩ Datum.buffer

end Value

/-! ## What is written is read -/

theorem putAll_writes (vs : List Value) : Writes (putAll vs) (vs.flatMap Value.encoding) := by
  induction vs with
  | nil => exact ⟨pure (), follows_pure (), emits_pure⟩
  | cons v vs ih =>
    rw [List.flatMap_cons]
    exact v.put_writes.bind ih

theorem getAll_reads (vs : List Value) :
    Reads (getAll vs) (vs.flatMap Value.encoding) (vs.map Value.datum) := by
  induction vs with
  | nil => exact reads_pure []
  | cons v vs ih =>
    rw [List.flatMap_cons]
    exact v.get_reads.bind_map ih List.cons

theorem length_encodings (vs : List Value) :
    (vs.flatMap Value.encoding).length = (vs.map Value.size).sum := by
  rw [List.length_flatMap]
  exact congrArg List.sum (List.map_congr_left fun v _ => v.length_encoding)

/-- **Round trip.** Values of any kinds in any order, written into a new buffer with room for them
and read after going back to the start, come back as they were, and the position is behind the last
one. -/
theorem put_get_round_trip {fresh : Ram} (halloc : alloc n fresh = .ok m) (vs : List Value)
    (hfit : (vs.map Value.size).sum ≤ n) :
    ∃ m', Act.Runs (roundTrip vs) m (vs.map Value.datum) m' [] ∧
      pos m' = (vs.map Value.size).sum := by
  obtain ⟨hn, hsound, hpos⟩ := alloc_sound halloc
  obtain ⟨b, hb, hlen⟩ := hsound.shows hn
  have hzero : b.pos = 0 := hb.pos.symm.trans hpos
  have hsize := length_encodings vs
  have hroom : (vs.flatMap Value.encoding).length ≤ b.rest.length := by
    rw [Block.length_rest, hzero, hlen, hsize]
    exact hfit
  -- written
  obtain ⟨y, hfollows, hemits⟩ := putAll_writes vs
  obtain ⟨m₁, hput, h₁⟩ := hfollows hb (hemits b hroom)
  -- rewound
  obtain ⟨m₂, hseek, h₂⟩ := (refines_seek 0).follows h₁ rfl
  have hrest : ((b.put (vs.flatMap Value.encoding)).seek 0).rest =
      vs.flatMap Value.encoding ++ b.data.drop (vs.flatMap Value.encoding).length := by
    show (b.put _).data.drop (min 0 _) = _
    rw [Nat.zero_min, List.drop_zero, Block.data_put hroom, hzero, List.take_zero, Nat.zero_add]
    rfl
  -- read
  obtain ⟨z, hfollows', hparses⟩ := getAll_reads vs
  obtain ⟨m₃, hget, h₃⟩ := hfollows' h₂ (hparses _ _ hrest)
  refine ⟨m₃, hput.bind (hseek.bind hget), ?_⟩
  rw [h₃.pos, Block.pos_skip (by rw [hrest, List.length_append]; omega), ← hsize]
  show min 0 _ + _ = _
  rw [Nat.zero_min, Nat.zero_add]

/-- One value of each kind; the buffer goes from three bytes at the start of one into the last three
of another. -/
theorem put_get_nineteen :
    ∃ m', Act.Runs
      (roundTrip [.byte 7, .int (-2), .ulong 0x8000000000000000,
        .str [104, 105] (by decide) (by decide),
        .buffer ⟨initSBlock 3 fun _ => 5, 3, by decide, by decide⟩
          ⟨setBlockPos 1 (initSBlock 4 fun _ => 0), 4, by decide, by decide⟩ (by decide)])
      (initSBlock 20 fun _ => 0)
      [.byte 7, .int (-2), .ulong 0x8000000000000000, .str (some [104, 105]), .buffer [5, 5, 5]]
      m' [] ∧ pos m' = 19 :=
  put_get_round_trip (show alloc 20 (fun _ => 0) = .ok _ from rfl) [.byte 7, .int (-2),
    .ulong 0x8000000000000000, .str [104, 105] _ _, .buffer ⟨_, 3, _, _⟩ ⟨_, 4, _, _⟩ _] (by decide)

end EnclaveRaft.Wire.Raw
