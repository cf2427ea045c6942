import Mathlib.Algebra.Order.Group.Int
import Mathlib.Algebra.Order.Group.Nat
import Mathlib.Data.List.Basic
import Mathlib.Data.List.Infix

/-!
# C strings

Memory of which only a part may be read, and the functions of the C library that look for text in
it and read numbers from it.

* `Memory` gives the byte at an address, `none` where a program may not read, and `Memory.window`
  is what is left of one between two addresses. A program that returns on a window has read
  nothing outside it.
* `strtol` and `strtoul` read a number: blanks, a sign, digits, and the nearest value of the type
  when the number does not fit.
* `strstr` finds the first occurrence of a text.
-/

/-! ## Memory -/

/-- The bytes a program may read. -/
abbrev Memory := Nat → Option UInt8

namespace Memory

def ofBytes (bs : List UInt8) : Memory := fun p => bs[p]?

/-- What can be read from `lo` up to and including `hi`. -/
def window (m : Memory) (lo hi : Nat) : Memory := fun p => if lo ≤ p ∧ p ≤ hi then m p else none

/-- The bytes `bs` stand at address `p`. -/
def Holds (m : Memory) (p : Nat) (bs : List UInt8) : Prop := ∀ i < bs.length, m (p + i) = bs[i]?

variable {m : Memory} {p : Nat} {b : UInt8} {bs bs' : List UInt8}

theorem Holds.head (h : m.Holds p (b :: bs)) : m p = some b := by
  simpa using h 0 (by simp)

theorem Holds.tail (h : m.Holds p (b :: bs)) : m.Holds (p + 1) bs := by
  intro i hi
  have := h (i + 1) (by simpa using hi)
  rwa [Nat.add_assoc, Nat.add_comm 1 i]

theorem holds_ofBytes (pre bs post : List UInt8) :
    (ofBytes (pre ++ bs ++ post)).Holds pre.length bs := by
  intro i hi
  simp [ofBytes, List.getElem?_append, hi]

theorem Holds.window {lo hi : Nat} (h : m.Holds p bs) (hlo : lo ≤ p)
    (hhi : p + bs.length ≤ hi + 1) :
    (m.window lo hi).Holds p bs := by
  intro i hi
  simp only [Memory.window]
  rw [if_pos ⟨by omega, by omega⟩, h i hi]

end Memory

/-! ## Numbers -/

/-- `isspace` in the C locale. -/
def isSpace (c : UInt8) : Bool := c = 32 ∨ (9 ≤ c ∧ c ≤ 13)

/-- The value of a digit or letter. -/
def digitVal (c : UInt8) : Option Nat :=
  if 48 ≤ c ∧ c ≤ 57 then some (c.toNat - 48)
  else if 97 ≤ c ∧ c ≤ 122 then some (c.toNat - 97 + 10)
  else if 65 ≤ c ∧ c ≤ 90 then some (c.toNat - 65 + 10)
  else none

/-- A digit of a base. -/
def baseDigit (base : Nat) (c : UInt8) : Option Nat := (digitVal c).filter (· < base)

/-- The number the leading digits write, after `n`. -/
def readDigits (base : Nat) : List UInt8 → Nat → Nat
  | [], n => n
  | c :: cs, n =>
    match baseDigit base c with
    | some d => readDigits base cs (n * base + d)
    | none => n

/-- The optional `0x` before the digits of a number in base 16. -/
def skipHexMark (base : Nat) : List UInt8 → List UInt8
  | 48 :: 120 :: cs => if base = 16 then cs else 48 :: 120 :: cs
  | 48 :: 88 :: cs => if base = 16 then cs else 48 :: 88 :: cs
  | cs => cs

/-- Sign and magnitude of the number at the start of a text. -/
def readNumber (base : Nat) (s : List UInt8) : Bool × Nat :=
  match s.dropWhile isSpace with
  | 45 :: cs => (true, readDigits base (skipHexMark base cs) 0)
  | 43 :: cs => (false, readDigits base (skipHexMark base cs) 0)
  | cs => (false, readDigits base (skipHexMark base cs) 0)

/-- `strtol`: a number out of range gives the nearest `long`. -/
def strtol (base : Nat) (s : List UInt8) : Int :=
  let (neg, n) := readNumber base s
  max (-2 ^ 63) (min (2 ^ 63 - 1) (if neg then -n else n))

/-- `strtoul`: a number out of range gives the largest `unsigned long`, a negative one wraps. -/
def strtoul (base : Nat) (s : List UInt8) : Nat :=
  let (neg, n) := readNumber base s
  if 2 ^ 64 ≤ n then 2 ^ 64 - 1 else if neg then (2 ^ 64 - n) % 2 ^ 64 else n

/-! ## Search -/

/-- `strstr`: how far into `s` the first occurrence of `pat` begins. -/
def strstr (s pat : List UInt8) : Option Nat :=
  if pat.isPrefixOf s then some 0
  else match s with
    | [] => none
    | _ :: s => (strstr s pat).map (· + 1)

/-- What is found ends inside of the text. -/
theorem strstr_le {s pat : List UInt8} {i : Nat} (h : strstr s pat = some i) :
    i + pat.length ≤ s.length := by
  induction s generalizing i with
  | nil =>
    unfold strstr at h
    split at h
    next hp =>
      cases h
      simpa using (List.isPrefixOf_iff_prefix.1 hp).length_le
    next => cases h
  | cons c s ih =>
    unfold strstr at h
    split at h
    next hp =>
      cases h
      simpa using (List.isPrefixOf_iff_prefix.1 hp).length_le
    next =>
      obtain ⟨j, hj, rfl⟩ := Option.map_eq_some_iff.1 h
      have := ih hj
      simp only [List.length_cons]
      omega
