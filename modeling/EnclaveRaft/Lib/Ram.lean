import EnclaveRaft.Lib.Block
import Mathlib.Data.List.GetD
import Mathlib.Tactic.Ring

/-!
# Bytes in memory

Memory from some address on, as a program sees it that does not check where it reads and writes.

* `bytes` reads a string of bytes and `store` writes one; a read sees a write at the same place, and
  nothing of one elsewhere.
* `load` and `storeNat` read and write numbers, the lowest byte first. Two fields side by side are
  one number (`load_add`).
* `fill` writes byte by byte, in a loop, and `gather` puts a number together by shifted additions.
-/

/-! ## Numbers -/

theorem leNat_append (bs bs' : List UInt8) :
    leNat (bs ++ bs') = leNat bs + 256 ^ bs.length * leNat bs' := by
  induction bs with
  | nil => simp [leNat]
  | cons b bs ih =>
    rw [List.cons_append, leNat, leNat, ih, List.length_cons, Nat.pow_succ]
    ring

theorem leNat_leBytes_mod (k n : Nat) : leNat (leBytes k n) = n % 256 ^ k := by
  induction k generalizing n with
  | zero => simp [leBytes, leNat, Nat.mod_one]
  | succ k ih =>
    have hbyte : (UInt8.ofNat n).toNat = n % 256 := UInt8.toNat_ofNat'
    rw [leBytes, leNat, ih, hbyte, Nat.pow_succ', Nat.mod_mul]

/-- The bytes one by one. -/
theorem leBytes_eq_map (k n : Nat) :
    leBytes k n = (List.range k).map fun i => UInt8.ofNat (n / 256 ^ i) := by
  induction k generalizing n with
  | zero => rfl
  | succ k ih =>
    rw [leBytes, ih, List.range_succ_eq_map, List.map_cons, List.map_map, Nat.pow_zero, Nat.div_one]
    refine congrArg _ (List.map_congr_left fun i _ => ?_)
    rw [Function.comp_apply, Nat.div_div_eq_div_mul, Nat.pow_succ, Nat.mul_comm]

/-! ## Memory -/

/-- The byte at each address. -/
abbrev Ram := Nat → UInt8

namespace Ram

variable {m : Ram} {a b k : Nat} {bs : List UInt8}

/-- The `k` bytes from `a` on. -/
def bytes (m : Ram) (a k : Nat) : List UInt8 := (List.range' a k).map m

/-- Write bytes from `a` on. -/
def store (m : Ram) (a : Nat) (bs : List UInt8) : Ram := fun i =>
  if a ≤ i then bs.getD (i - a) (m i) else m i

/-- The number in the `k` bytes from `a` on. -/
def load (m : Ram) (a k : Nat) : Nat := leNat (m.bytes a k)

/-- Write a number into the `k` bytes from `a` on, as far as it fits. -/
def storeNat (m : Ram) (a k n : Nat) : Ram := m.store a (leBytes k n)

@[simp] theorem length_bytes (m : Ram) (a k : Nat) : (m.bytes a k).length = k := by simp [bytes]

theorem getElem?_bytes {i : Nat} (h : i < k) : (m.bytes a k)[i]? = some (m (a + i)) := by
  simp [bytes, h]

theorem bytes_add (m : Ram) (a j k : Nat) :
    m.bytes a (j + k) = m.bytes a j ++ m.bytes (a + j) k := by
  rw [bytes, ← List.range'_append, List.map_append, Nat.one_mul]
  rfl

theorem take_bytes {j : Nat} (h : j ≤ k) : (m.bytes a k).take j = m.bytes a j := by
  obtain ⟨i, rfl⟩ := Nat.exists_eq_add_of_le h
  rw [bytes_add, List.take_left' (length_bytes ..)]

theorem drop_bytes {j : Nat} (h : j ≤ k) : (m.bytes a k).drop j = m.bytes (a + j) (k - j) := by
  obtain ⟨i, rfl⟩ := Nat.exists_eq_add_of_le h
  rw [bytes_add, List.drop_left' (length_bytes ..), Nat.add_sub_cancel_left]

theorem load_add (m : Ram) (a j k : Nat) :
    m.load a (j + k) = m.load a j + 256 ^ j * m.load (a + j) k := by
  rw [load, bytes_add, leNat_append, length_bytes]
  rfl

theorem load_lt (m : Ram) (a k : Nat) : m.load a k < 256 ^ k := by
  have := leNat_lt (m.bytes a k)
  rwa [length_bytes] at this

/-! ## Reads after writes -/

theorem store_below {i : Nat} (h : i < a) : m.store a bs i = m i := if_neg (Nat.not_le.2 h)

theorem store_above {i : Nat} (h : a + bs.length ≤ i) : m.store a bs i = m i := by
  rw [store, if_pos (by omega), List.getD_eq_default _ _ (by omega)]

theorem store_at {i : Nat} (h : i < bs.length) : m.store a bs (a + i) = bs.get ⟨i, h⟩ := by
  rw [store, if_pos (Nat.le_add_right a i), Nat.add_sub_cancel_left, List.getD_eq_getElem _ _ h]
  rfl

theorem bytes_congr {m' : Ram} (h : ∀ i, a ≤ i → i < a + k → m' i = m i) :
    m'.bytes a k = m.bytes a k := by
  refine List.map_congr_left fun i hi => ?_
  rw [List.mem_range'_1] at hi
  exact h i hi.1 hi.2

/-- What was written is read. -/
theorem bytes_store (m : Ram) (a : Nat) (bs : List UInt8) :
    (m.store a bs).bytes a bs.length = bs := by
  refine List.ext_getElem? fun i => ?_
  rcases Nat.lt_or_ge i bs.length with hi | hi
  · rw [getElem?_bytes hi, store_at hi, List.getElem?_eq_getElem hi]
    rfl
  · rw [List.getElem?_eq_none (by rwa [length_bytes]), List.getElem?_eq_none hi]

/-- A write elsewhere is not seen. -/
theorem bytes_store_of_disjoint (h : b + k ≤ a ∨ a + bs.length ≤ b) :
    (m.store a bs).bytes b k = m.bytes b k := by
  refine bytes_congr fun i hlo hhi => ?_
  rcases h with h | h
  · exact store_below (by omega)
  · exact store_above (by omega)

/-- Two writes side by side are one. -/
theorem store_store (m : Ram) (a : Nat) (bs bs' : List UInt8) :
    (m.store a bs).store (a + bs.length) bs' = m.store a (bs ++ bs') := by
  funext i
  rcases Nat.lt_or_ge i a with hlow | hlow
  · rw [store_below (by omega), store_below hlow, store_below hlow]
  obtain ⟨j, rfl⟩ := Nat.exists_eq_add_of_le hlow
  rcases Nat.lt_or_ge j bs.length with hj | hj
  · rw [store_below (by omega), store_at hj, store_at (by simp; omega)]
    simp [hj]
  obtain ⟨k, rfl⟩ := Nat.exists_eq_add_of_le hj
  rcases Nat.lt_or_ge k bs'.length with hk | hk
  · rw [← Nat.add_assoc, store_at hk, Nat.add_assoc, store_at (by simp; omega)]
    simp
  · rw [store_above (by omega), store_above (by omega), store_above (by simp; omega)]

theorem load_storeNat (m : Ram) (a k n : Nat) : (m.storeNat a k n).load a k = n % 256 ^ k := by
  have hread := bytes_store m a (leBytes k n)
  rw [length_leBytes] at hread
  rw [load, storeNat, hread, leNat_leBytes_mod]

theorem bytes_storeNat_of_disjoint {j n : Nat} (h : b + k ≤ a ∨ a + j ≤ b) :
    (m.storeNat a j n).bytes b k = m.bytes b k :=
  bytes_store_of_disjoint (by rwa [length_leBytes])

theorem load_storeNat_of_disjoint {j n : Nat} (h : b + k ≤ a ∨ a + j ≤ b) :
    (m.storeNat a j n).load b k = m.load b k :=
  congrArg leNat (bytes_storeNat_of_disjoint h)

/-- A number is cut to the width of the field. -/
theorem storeNat_mod (m : Ram) (a k n : Nat) : m.storeNat a k (n % 256 ^ k) = m.storeNat a k n := by
  have hsame : leBytes k (n % 256 ^ k) = leBytes k n := by
    have hback := leBytes_leNat (leBytes k n)
    rwa [leNat_leBytes_mod, length_leBytes] at hback
  rw [storeNat, hsame]
  rfl

/-! ## Loops -/

/-- Write `f 0`, `f 1`, … to the `k` bytes from `a` on. -/
def fill (m : Ram) (a : Nat) (f : Nat → UInt8) : Nat → Ram
  | 0 => m
  | k + 1 => (m.fill a f k).store (a + k) [f k]

/-- Add up the `k` bytes from `a` on, each shifted to its place. -/
def gather (w : Nat) (m : Ram) (a : Nat) : Nat → BitVec w
  | 0 => 0
  | k + 1 => m.gather w a k + ((m (a + k)).toBitVec.setWidth w <<< (k * 8))

theorem fill_eq_store (m : Ram) (a : Nat) (f : Nat → UInt8) (k : Nat) :
    m.fill a f k = m.store a ((List.range k).map f) := by
  induction k with
  | zero =>
    funext i
    simp [fill, store]
  | succ k ih =>
    have hlen : ((List.range k).map f).length = k := by simp
    have hstore := m.store_store a ((List.range k).map f) [f k]
    rw [hlen] at hstore
    rw [fill, ih, hstore, List.range_succ, List.map_append]
    rfl

theorem gather_eq (w : Nat) (m : Ram) (a k : Nat) :
    m.gather w a k = BitVec.ofNat w (m.load a k) := by
  induction k with
  | zero => rfl
  | succ k ih =>
    have hshift : (m (a + k)).toBitVec.setWidth w <<< (k * 8) =
        BitVec.ofNat w (256 ^ k * (m (a + k)).toNat) := by
      apply BitVec.eq_of_toNat_eq
      rw [BitVec.toNat_shiftLeft, BitVec.toNat_setWidth, BitVec.toNat_ofNat, Nat.shiftLeft_eq,
        Nat.mod_mul_mod, Nat.mul_comm k 8, Nat.pow_mul, Nat.mul_comm]
      rfl
    have hone : m.load (a + k) 1 = (m (a + k)).toNat := by simp [load, bytes, leNat]
    rw [gather, ih, hshift, load_add, hone, BitVec.ofNat_add]

end Ram
