import EnclaveRaft.Lib.Act
import EnclaveRaft.Lib.Ram
import EnclaveRaft.Wire.Buffer

/-!
# Buffers in memory

`buffer.cxx` down to the bytes. A `buffer` is nothing but an address: two fields of 16 bits and the
bytes of the block, or two fields of 32 bits and the bytes of the block. The first field is the
size, the second one the position, and which layout it is says the top bit of the first 32 bits. In
the small layout that is the top bit of the position.

The state of the operations is the memory from this address on. What lies behind the block is part
of it: `get` of a whole buffer and `data` do not look where the block ends. Another buffer is another
piece of memory, and a buffer may be given to itself. Uninitialised memory is an argument of
`alloc`.
-/

namespace EnclaveRaft.Wire.Raw

/-! ## The two layouts -/

/-- The first 32 bits. -/
def word (m : Ram) : Nat := m.load 0 4

def isBigBlock (m : Ram) : Bool := (word m).testBit 31

def initSBlock (n : Nat) (m : Ram) : Ram := (m.storeNat 0 2 n).storeNat 2 2 0

def initBBlock (n : Nat) (m : Ram) : Ram :=
  let m := (m.storeNat 0 4 n).storeNat 4 4 0
  m.storeNat 0 4 (word m ||| 2 ^ 31)

def size (m : Ram) : Nat := if isBigBlock m then word m ^^^ 2 ^ 31 else m.load 0 2

def pos (m : Ram) : Nat := if isBigBlock m then m.load 4 4 else m.load 2 2

/-- Where the byte at the position is. -/
def data (m : Ram) : Nat := if isBigBlock m then 8 + m.load 4 4 else 4 + m.load 2 2

/-- The fields are as wide as the layout says, and the sum is cut to them. -/
def mvFwBlock (d : Nat) (m : Ram) : Ram :=
  if isBigBlock m then m.storeNat 4 4 (m.load 4 4 + d)
  else m.storeNat 2 2 (m.load 2 2 + d % 2 ^ 16)

def setBlockPos (p : Nat) (m : Ram) : Ram :=
  if isBigBlock m then m.storeNat 4 4 p else m.storeNat 2 2 p

/-- `size() - pos()`, on `size_t`. -/
def avail (m : Ram) : Nat := usub (size m) (pos m)

/-! ## Operations -/

abbrev RawM := Act Ram Empty Fault

/-- `buffer::alloc`, on memory that holds `fresh`. -/
def alloc (n : Nat) (fresh : Ram) : Except Fault Ram :=
  if 2 ^ 31 ≤ n then .error .outOfRange
  else if 0x8000 ≤ n then .ok (initBBlock n fresh)
  else .ok (initSBlock n fresh)

/-- `buffer::pos(size_t)`. -/
def seek (p : Nat) : RawM Unit :=
  Act.modify fun m => setBlockPos (if size m < p then size m else p) m

/-- The operations that write `n` bytes: they check that there is room, write at the position and
move it. -/
def putWith (n : Nat) (write : Ram → Nat → Ram) : RawM Unit := do
  let m ← Act.get
  if avail m < n then Act.throw .overflow
  else do
    Act.modify fun m => write m (data m)
    Act.modify (mvFwBlock n)

def putByte (x : UInt8) : RawM Unit := putWith 1 fun m d => m.store d [x]

/-- The shift of a negative number brings in ones from above. -/
def putInt (x : Int32) : RawM Unit :=
  putWith 4 fun m d => m.fill d (fun i => ⟨(x.toBitVec.sshiftRight (i * 8)).setWidth 8⟩) 4

def putUlong (x : UInt64) : RawM Unit :=
  putWith 8 fun m d => m.fill d (fun i => ⟨(x.toBitVec >>> (i * 8)).setWidth 8⟩) 8

def putStr (s : Bytes) : RawM Unit :=
  putWith (s.length + 1) fun m d =>
    (m.fill d (fun i => s.getD i 0) s.length).store (d + s.length) [0]

/-- `buffer::put` of another buffer, with `memcpy`. -/
def putBuffer (src : Ram) : RawM Unit :=
  putWith (avail src) fun m d => m.store d (src.bytes (data src) (avail src))

/-- The operations that read `n` bytes: they check that there are as many, and move the position. -/
def getWith {α : Type} (n : Nat) (read : Ram → Nat → α) : RawM α := do
  let m ← Act.get
  if avail m < n then Act.throw .overflow
  else do
    Act.modify (mvFwBlock n)
    pure (read m (data m))

def getByte : RawM UInt8 := getWith 1 fun m d => m d

def getInt : RawM Int32 := getWith 4 fun m d => Int32.ofBitVec (m.gather 32 d 4)

def getUlong : RawM UInt64 := getWith 8 fun m d => ⟨m.gather 64 d 8⟩

/-- How many of the next bytes, of which there are `k`, come before a zero. -/
def strLen (m : Ram) (d : Nat) : Nat → Nat
  | 0 => 0
  | k + 1 => if m d = 0 then 0 else strLen m (d + 1) k + 1

/-- `buffer::get_str`: no string is a null pointer. -/
def getStr : RawM (Option Bytes) := do
  let m ← Act.get
  let i := strLen m (data m) (size m - pos m)
  if size m ≤ pos m + i ∨ i = 0 then pure none
  else do
    Act.modify (mvFwBlock (i + 1))
    pure (some (m.bytes (data m) i))

/-- `buffer::get` into another buffer, which fills what is behind its position. Nothing is checked.
-/
def getBuffer (dst : Ram) : RawM Ram := do
  let m ← Act.get
  Act.modify (mvFwBlock (avail dst))
  pure (dst.store (data dst) (m.bytes (data m) (avail dst)))

/-- Run a program on another buffer. -/
def onOther (other : Ram) (x : RawM Unit) : RawM Ram := fun m =>
  ⟨(x other).result.map fun _ => (x other).state, m, []⟩

/-- `buffer::copy`: a new buffer with what is behind the position. -/
def copy (fresh : Ram) : RawM Ram := do
  let m ← Act.get
  match alloc (avail m) fresh with
  | .error e => Act.throw e
  | .ok other => onOther other do
    putBuffer m
    seek 0

end EnclaveRaft.Wire.Raw
