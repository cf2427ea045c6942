import EnclaveRaft.Lib.Block
import EnclaveRaft.Types

/-!
# Buffers

`cornerstone::buffer` is a block of bytes with a position. Blocks of less than 0x8000 bytes keep size
and position in two 16-bit fields, larger ones in two 32-bit fields, and the top bit of the first
word tells which. All arithmetic on positions is modulo the width of the field. `isBigBlock_iff` and
`mvFw_eq` say that none of it shows as long as the position stays inside the block, which a `Block`
carries with it.

Reads and writes check that there is room, except for `get` of a whole buffer.
-/

namespace EnclaveRaft.Wire

/-- What can go wrong: exceptions of the standard library and of the cipher, a string made from a null
pointer, and reads outside of the memory that was given. -/
inductive Fault
  | overflow
  | outOfRange
  | nullString
  | cipherFailed
  | outOfBounds
  deriving DecidableEq

abbrev Buffer := Block (2 ^ 31)

abbrev BufM := Scan (2 ^ 31) Fault

namespace Buffer

/-! ## Blocks in memory -/

/-- The first word of a block: the 16-bit size and position of a small one, the size of a big one
with the top bit set. -/
def word (b : Buffer) : Nat :=
  if b.data.length < 0x8000 then b.data.length + 2 ^ 16 * b.pos else 2 ^ 31 + b.data.length

def isBigBlock (b : Buffer) : Bool := b.word.testBit 31

def size (b : Buffer) : Nat := if b.isBigBlock then b.word ^^^ 2 ^ 31 else b.word % 2 ^ 16

/-- The position after a move forward. -/
def mvFw (b : Buffer) (d : Nat) : Nat :=
  if b.isBigBlock then (b.pos + d) % 2 ^ 32 else (b.pos + d % 2 ^ 16) % 2 ^ 16

theorem isBigBlock_iff (b : Buffer) : b.isBigBlock = decide (0x8000 ≤ b.data.length) := by
  have hsize := b.size_lt
  have hpos := b.pos_le
  unfold isBigBlock word
  split
  next hlt =>
    rw [Nat.testBit_lt_two_pow (by omega), decide_eq_false (by omega)]
  next hge =>
    rw [Nat.testBit_two_pow_add_eq, Nat.testBit_lt_two_pow hsize, decide_eq_true (by omega)]
    rfl

/-- A bit above a number goes away when it is flipped. -/
theorem two_pow_add_xor {k n : Nat} (h : n < 2 ^ k) : (2 ^ k + n) ^^^ 2 ^ k = n := by
  have hor := Nat.two_pow_add_eq_or_of_lt h 1
  rw [Nat.mul_one] at hor
  refine Nat.eq_of_testBit_eq fun i => ?_
  rw [hor, Nat.testBit_xor, Nat.testBit_or, Nat.testBit_two_pow]
  by_cases hi : k = i
  · subst hi
    rw [decide_eq_true rfl, Nat.testBit_lt_two_pow h]
    rfl
  · rw [decide_eq_false hi, Bool.false_or, Bool.xor_false]

theorem size_eq (b : Buffer) : b.size = b.data.length := by
  have hsize := b.size_lt
  unfold size
  rw [isBigBlock_iff, word]
  by_cases hbig : b.data.length < 0x8000
  · rw [if_pos hbig, if_neg (by simpa using hbig)]
    omega
  · rw [if_neg hbig, if_pos (by simpa using hbig), two_pow_add_xor hsize]

/-- Inside of the block the field is wide enough. -/
theorem mvFw_eq {b : Buffer} {d : Nat} (h : d ≤ b.rest.length) : b.mvFw d = b.pos + d := by
  have hsize := b.size_lt
  have hpos := b.pos_le
  rw [Block.length_rest] at h
  unfold mvFw
  rw [isBigBlock_iff]
  by_cases hbig : 0x8000 ≤ b.data.length
  · rw [if_pos (by simpa using hbig)]
    omega
  · rw [if_neg (by simpa using hbig)]
    omega

end Buffer

/-! ## Operations -/

/-- `buffer::alloc`. -/
def alloc (n : Nat) : Except Fault Buffer :=
  if h : n < 2 ^ 31 then .ok ⟨List.replicate n 0, 0, by simpa using h, Nat.zero_le _⟩
  else .error .outOfRange

/-- `buffer::pos(size_t)`. -/
def seek (p : Nat) : BufM Unit := fun (b : Buffer) => .ok ((), b.seek p)

/-- The writing operations: the bytes are written if there is room for them. -/
def put (bs : Bytes) : BufM Unit := fun (b : Buffer) =>
  if b.size - b.pos < bs.length then .error .overflow
  else .ok ((), (b.put bs).seek (b.mvFw bs.length))

def putByte (x : UInt8) : BufM Unit := put [x]

def putInt (x : Int32) : BufM Unit := put (leBytes 4 x.toUInt32.toNat)

def putUlong (x : UInt64) : BufM Unit := put (leBytes 8 x.toNat)

def putStr (s : Bytes) : BufM Unit := put (s ++ [0])

def putBuffer (src : Buffer) : BufM Unit := put src.rest

/-- The reading operations: `n` bytes are read if there are as many. -/
def get (n : Nat) : BufM Bytes := fun (b : Buffer) =>
  if b.size - b.pos < n then .error .overflow else .ok (b.rest.take n, b.seek (b.mvFw n))

def getByte : BufM UInt8 := do return (leNat (← get 1)).toUInt8

def getInt : BufM Int32 := do return (leNat (← get 4)).toUInt32.toInt32

def getUlong : BufM UInt64 := do return (leNat (← get 8)).toUInt64

/-- `buffer::get_str`: nothing for a string without end, and for an empty one. -/
def getStr : BufM (Option Bytes) := fun (b : Buffer) =>
  let s := b.rest.takeWhile (· ≠ 0)
  if b.size ≤ b.pos + s.length ∨ s.length = 0 then .ok (none, b)
  else .ok (some s, b.seek (b.mvFw (s.length + 1)))

/-- `buffer::get` into a buffer of `n` bytes, which does not look at how many there are. -/
def getBuffer (n : Nat) : BufM Bytes := fun (b : Buffer) =>
  if b.size - b.pos < n then .error .outOfBounds else .ok (b.rest.take n, b.seek (b.mvFw n))

/-! ## What they read and write -/

theorem emits_put (bs : Bytes) : Emits (put bs) bs := by
  intro b hlen
  have hmove : (b.put bs).seek (Buffer.mvFw b bs.length) = b.put bs := by
    refine Block.ext rfl ?_
    rw [Buffer.mvFw_eq hlen]
    show min (b.pos + bs.length) _ = _
    rw [← Block.pos_put hlen]
    exact Nat.min_eq_left (b.put bs).pos_le
  rw [Block.length_rest] at hlen
  rw [put, if_neg (by rw [Buffer.size_eq]; omega), hmove]

theorem put_short {b : Buffer} {bs : Bytes} (h : b.rest.length < bs.length) :
    put bs b = .error .overflow := by
  rw [Block.length_rest] at h
  rw [put, Buffer.size_eq, if_pos h]

theorem parses_get (bs : Bytes) : Parses (get bs.length) bs bs := by
  intro b post hrest
  have hlen : bs.length ≤ b.rest.length := by simp [hrest]
  have hroom := hlen
  rw [Block.length_rest] at hroom
  rw [get, if_neg (by rw [Buffer.size_eq]; omega), hrest, List.take_left, Buffer.mvFw_eq hlen]
  rfl

theorem toNat_toUInt64 {n : Nat} (h : n < 2 ^ 64) : n.toUInt64.toNat = n :=
  UInt64.toNat_ofNat_of_lt h

theorem parses_getByte (x : UInt8) : Parses getByte [x] x := by
  have hx : (leNat [x]).toUInt8 = x := by simp [leNat]
  exact (parses_get [x]).bind_pure hx

theorem parses_getInt (x : Int32) : Parses getInt (leBytes 4 x.toUInt32.toNat) x := by
  have hx : (leNat (leBytes 4 x.toUInt32.toNat)).toUInt32.toInt32 = x := by
    rw [leNat_leBytes x.toUInt32.toNat_lt]
    simp
  have h := parses_get (leBytes 4 x.toUInt32.toNat)
  rw [length_leBytes] at h
  exact h.bind_pure hx

theorem parses_getUlong (x : UInt64) : Parses getUlong (leBytes 8 x.toNat) x := by
  have hx : (leNat (leBytes 8 x.toNat)).toUInt64 = x := by
    rw [leNat_leBytes x.toNat_lt]
    simp
  have h := parses_get (leBytes 8 x.toNat)
  rw [length_leBytes] at h
  exact h.bind_pure hx

/-- Any 4 bytes are an `int32`, any 8 bytes an `ulong`. -/
theorem exists_int {bs : Bytes} (h : 4 ≤ bs.length) :
    ∃ (x : Int32) (post : Bytes), bs = leBytes 4 x.toUInt32.toNat ++ post := by
  have hlen : (bs.take 4).length = 4 := List.length_take_of_le h
  have hlt := leNat_lt (bs.take 4)
  rw [hlen] at hlt
  refine ⟨(leNat (bs.take 4)).toUInt32.toInt32, bs.drop 4, ?_⟩
  have hx : (leNat (bs.take 4)).toUInt32.toInt32.toUInt32.toNat = leNat (bs.take 4) :=
    (congrArg UInt32.toNat (UInt32.toUInt32_toInt32 _)).trans (UInt32.toNat_ofNat_of_lt hlt)
  have hback := leBytes_leNat (bs.take 4)
  rw [hlen] at hback
  rw [hx, hback, List.take_append_drop]

theorem exists_ulong {bs : Bytes} (h : 8 ≤ bs.length) :
    ∃ (x : UInt64) (post : Bytes), bs = leBytes 8 x.toNat ++ post := by
  have hlen : (bs.take 8).length = 8 := List.length_take_of_le h
  have hlt := leNat_lt (bs.take 8)
  rw [hlen] at hlt
  have hback := leBytes_leNat (bs.take 8)
  rw [hlen] at hback
  refine ⟨(leNat (bs.take 8)).toUInt64, bs.drop 8, ?_⟩
  rw [toNat_toUInt64 hlt, hback, List.take_append_drop]

theorem exists_byte {bs : Bytes} (h : 1 ≤ bs.length) : ∃ (x : UInt8) (post : Bytes),
    bs = [x] ++ post :=
  List.exists_cons_of_length_pos h

theorem takes_get (n : Nat) : Takes (get n) n .overflow := by
  refine ⟨fun b hlen => ?_, fun b hlen => ?_⟩
  · rw [Block.length_rest] at hlen
    rw [get, Buffer.size_eq, if_pos hlen]
  · have hparse := parses_get (b.rest.take n) b (b.rest.drop n) (List.take_append_drop ..).symm
    rw [List.length_take_of_le hlen] at hparse
    exact ⟨_, hparse⟩

theorem getBuffer_short {b : Buffer} {n : Nat} (h : b.rest.length < n) :
    getBuffer n b = .error .outOfBounds := by
  rw [Block.length_rest] at h
  rw [getBuffer, Buffer.size_eq, if_pos h]

/-- A string that is not empty and holds no zero. -/
theorem parses_getStr {s : Bytes} (hne : s ≠ []) (hzero : 0 ∉ s) :
    Parses getStr (s ++ [0]) (some s) := by
  intro b post hrest
  rw [List.append_assoc] at hrest
  have htake : b.rest.takeWhile (· ≠ 0) = s := by
    have hall : ∀ x ∈ s, decide (x ≠ 0) = true := by
      intro x hx
      exact decide_eq_true fun h => hzero (h ▸ hx)
    rw [hrest, List.takeWhile_append_of_pos hall]
    simp
  have hlen := congrArg List.length hrest
  simp only [List.length_append, List.length_cons, List.length_nil] at hlen
  have hroom := hlen
  rw [Block.length_rest] at hroom
  have hpos := List.length_pos_iff.2 hne
  unfold getStr
  simp only [htake, Buffer.size_eq]
  rw [if_neg (by omega), Buffer.mvFw_eq (by omega), List.length_append]
  rfl

/-- An empty string is read as none at all. -/
theorem getStr_empty {b : Buffer} {post : Bytes} (hrest : b.rest = 0 :: post) :
    getStr b = .ok (none, b) := by
  unfold getStr
  simp [hrest]

/-- Where there is a zero, a string is read unless the zero comes first. -/
theorem getStr_iff {b : Buffer} (h : 0 ∈ b.rest) :
    (∃ s b', getStr b = .ok (some s, b')) ↔ ∃ c post, b.rest = c :: post ∧ c ≠ 0 := by
  constructor
  · rintro ⟨s, b', hget⟩
    cases hrest : b.rest with
    | nil => simp [hrest] at h
    | cons c post =>
      refine ⟨c, post, rfl, ?_⟩
      rintro rfl
      rw [getStr_empty hrest] at hget
      cases hget
  · rintro ⟨c, post, hrest, hc⟩
    obtain ⟨s, t, hsplit, hzero⟩ := List.eq_append_cons_of_mem h
    have hne : s ≠ [] := by
      rintro rfl
      rw [hrest] at hsplit
      exact hc (List.cons.inj hsplit).1
    refine ⟨s, _, parses_getStr hne hzero b t ?_⟩
    rw [hsplit, List.append_assoc]
    rfl

theorem parses_getBuffer (bs : Bytes) : Parses (getBuffer bs.length) bs bs := by
  intro b post hrest
  have hlen : bs.length ≤ b.rest.length := by simp [hrest]
  have hroom := hlen
  rw [Block.length_rest] at hroom
  rw [getBuffer, if_neg (by rw [Buffer.size_eq]; omega), hrest, List.take_left,
    Buffer.mvFw_eq hlen]
  rfl

/-- A block that is allocated, written in full and rewound. -/
def build (n : Nat) (p : BufM Unit) : Except Fault Buffer := do
  let b ← alloc n
  let (_, b) ← p b
  pure (b.seek 0)

theorem build_eq {n : Nat} {p : BufM Unit} {bs : Bytes} (hp : Emits p bs) (hn : bs.length = n)
    (hlt : bs.length < 2 ^ 31) : build n p = .ok ⟨bs, 0, hlt, Nat.zero_le _⟩ := by
  unfold build alloc
  rw [dif_pos (hn ▸ hlt)]
  show (p _ >>= fun x => pure (x.2.seek 0)) = _
  rw [hp _ (by simp [Block.rest, hn])]
  refine congrArg Except.ok (Block.ext ?_ (Nat.zero_min _))
  exact Block.data_put_of_length rfl (by simp [hn])

theorem build_eq_error {n : Nat} {p : BufM Unit} (h : 2 ^ 31 ≤ n) :
    build n p = .error .outOfRange := by
  unfold build alloc
  rw [dif_neg (by omega)]
  rfl

/-- The parts of an encoding, each in a block of its own. -/
theorem mapM_serialize {α : Type} {serialize : α → Except Fault Buffer} {encoding : α → Bytes}
    (hserialize : ∀ a (h : (encoding a).length < 2 ^ 31),
      serialize a = .ok ⟨encoding a, 0, h, Nat.zero_le _⟩)
    (l : List α) (h : ∀ a ∈ l, (encoding a).length < 2 ^ 31) :
    ∃ bufs : List Buffer, l.mapM serialize = .ok bufs ∧
      bufs.map Block.rest = l.map encoding ∧
      bufs.map Buffer.size = l.map fun a => (encoding a).length := by
  induction l with
  | nil => exact ⟨[], rfl, rfl, rfl⟩
  | cons a l ih =>
    obtain ⟨bufs, hbufs, hrest, hsize⟩ := ih fun a' ha' => h a' (by simp [ha'])
    refine ⟨⟨encoding a, 0, h a (by simp), Nat.zero_le _⟩ :: bufs, ?_, ?_, ?_⟩
    · rw [List.mapM_cons, hserialize a (h a (by simp)), hbufs]
      rfl
    · rw [List.map_cons, List.map_cons, hrest]
      rfl
    · rw [List.map_cons, List.map_cons, hsize, Buffer.size_eq]

theorem emits_putBuffers {α : Type} {encoding : α → Bytes} {bufs : List Buffer} {l : List α}
    (hrest : bufs.map Block.rest = l.map encoding) :
    Emits (bufs.forM putBuffer) (l.flatMap encoding) := by
  rw [List.flatMap_def, ← hrest, ← List.flatMap_def]
  exact emits_forM bufs fun b _ => emits_put b.rest

end EnclaveRaft.Wire
