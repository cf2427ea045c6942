import EnclaveRaft.Lib.CString

/-!
# Percent decoding

`url_decode` of `common/url_decode.cxx`, on a memory that may be read only in part.

`PercentEncodes s e` says that `e` writes each byte of `s` either as itself or as `%` and two
hexadecimal digits. One string has many encodings; the decoder inverts them all and stops at the
end pointer, which it reads once.
-/

namespace EnclaveRaft.Common

open Memory

/-! ## The decoder -/

/-- `(char) strtol(buffer, nullptr, 16)` for the buffer of the two bytes after a percent sign. -/
def percentByte (hi lo : UInt8) : UInt8 := UInt8.ofInt (strtol 16 [hi, lo])

/-- The loop of `url_decode` from `ptr` on. The byte at the cursor is read before the cursor is
compared with the end; `none` is a read outside the memory. -/
def urlDecode (m : Memory) (ptr stop : Nat) : Option (List UInt8) := do
  let c ← m ptr
  if c = 0 ∨ stop ≤ ptr then return []
  else if c = 37 then
    let hi ← m (ptr + 1)
    let lo ← m (ptr + 2)
    let rest ← urlDecode m (ptr + 3) stop
    return percentByte hi lo :: rest
  else
    let rest ← urlDecode m (ptr + 1) stop
    return c :: rest
termination_by stop - ptr

/-! ## Encodings -/

/-- The hexadecimal digit for a number below 16, in either case. -/
def hexDigit (upper : Bool) (n : Nat) : UInt8 :=
  UInt8.ofNat (if n < 10 then 48 + n else if upper then 55 + n else 87 + n)

/-- The encodings of a byte string. -/
inductive PercentEncodes : List UInt8 → List UInt8 → Prop
  | nil : PercentEncodes [] []
  /-- A byte that stands for itself. -/
  | raw {c : UInt8} {s e : List UInt8} (hpercent : c ≠ 37) (hnul : c ≠ 0)
      (h : PercentEncodes s e) : PercentEncodes (c :: s) (c :: e)
  /-- A byte written as two digits. -/
  | escaped {c : UInt8} {s e : List UInt8} (u v : Bool) (h : PercentEncodes s e) :
      PercentEncodes (c :: s)
        (37 :: hexDigit u (c.toNat / 16) :: hexDigit v (c.toNat % 16) :: e)

/-- Two digits give back the number they write. -/
theorem strtol_hexDigit (u v : Bool) (a b : Fin 16) :
    strtol 16 [hexDigit u a, hexDigit v b] = 16 * a + b := by
  revert u v a b
  decide +kernel

theorem percentByte_hexDigit (u v : Bool) (c : UInt8) :
    percentByte (hexDigit u (c.toNat / 16)) (hexDigit v (c.toNat % 16)) = c := by
  have hc := c.toNat_lt
  have h := strtol_hexDigit u v ⟨c.toNat / 16, by omega⟩ ⟨c.toNat % 16, by omega⟩
  have hval : (16 * (c.toNat / 16 : Nat) + (c.toNat % 16 : Nat) : Int) = c.toNat := by omega
  unfold percentByte
  rw [h, hval]
  apply UInt8.toNat_inj.1
  simp [UInt8.ofInt]
  omega

/-! ## Decoding an encoding -/

variable {m : Memory} {ptr stop : Nat} {s e : List UInt8}

theorem urlDecode_stop {c : UInt8} (hread : m ptr = some c) (hstop : stop ≤ ptr) :
    urlDecode m ptr stop = some [] := by
  rw [urlDecode]
  simp [hread, hstop]

theorem urlDecode_raw {c : UInt8} (hread : m ptr = some c) (hnul : c ≠ 0) (hpercent : c ≠ 37)
    (hlt : ptr < stop) :
    urlDecode m ptr stop = (urlDecode m (ptr + 1) stop).map (c :: ·) := by
  rw [urlDecode]
  cases urlDecode m (ptr + 1) stop <;> simp [hread, hnul, hpercent, Nat.not_le.2 hlt]

theorem urlDecode_escaped {hi lo : UInt8} (hread : m ptr = some 37)
    (hhi : m (ptr + 1) = some hi) (hlo : m (ptr + 2) = some lo) (hlt : ptr < stop) :
    urlDecode m ptr stop = (urlDecode m (ptr + 3) stop).map (percentByte hi lo :: ·) := by
  rw [urlDecode]
  cases urlDecode m (ptr + 3) stop <;> simp [hread, hhi, hlo, Nat.not_le.2 hlt]

/-- The cursor meets the end exactly, as each encoded byte moves it by what encodes that byte. -/
theorem urlDecode_encodes (h : PercentEncodes s e) (he : m.Holds ptr e)
    (hend : (m (ptr + e.length)).isSome) : urlDecode m ptr (ptr + e.length) = some s := by
  induction h generalizing ptr with
  | nil =>
    obtain ⟨c, hc⟩ := Option.isSome_iff_exists.1 hend
    exact urlDecode_stop hc (Nat.le_refl _)
  | @raw c s e hpercent hnul _ ih =>
    have hshift : ptr + (c :: e).length = ptr + 1 + e.length := by simp; omega
    rw [hshift] at hend ⊢
    rw [urlDecode_raw he.head hnul hpercent (by omega), ih he.tail hend]
    rfl
  | @escaped c s e u v _ ih =>
    have hshift : ∀ a b : UInt8, ptr + (37 :: a :: b :: e).length = ptr + 3 + e.length := by
      intro a b
      simp
      omega
    rw [hshift] at hend ⊢
    rw [urlDecode_escaped he.head he.tail.head he.tail.tail.head (by omega),
      ih he.tail.tail.tail hend, percentByte_hexDigit]
    rfl

/-- The decoder reads up to two bytes behind the end pointer, and no further. -/
theorem urlDecode_isSome (hread : ∀ i ≤ stop + 2, (m i).isSome) (hptr : ptr ≤ stop + 2) :
    ∃ out, urlDecode m ptr stop = some out := by
  induction h : stop + 2 - ptr using Nat.strong_induction_on generalizing ptr with
  | _ n ih =>
    obtain ⟨c, hc⟩ := Option.isSome_iff_exists.1 (hread ptr hptr)
    by_cases hstop : stop ≤ ptr
    · exact ⟨[], urlDecode_stop hc hstop⟩
    by_cases hnul : c = 0
    · refine ⟨[], ?_⟩
      rw [urlDecode]
      simp [hc, hnul]
    by_cases hpercent : c = 37
    · obtain ⟨hi, hhi⟩ := Option.isSome_iff_exists.1 (hread (ptr + 1) (by omega))
      obtain ⟨lo, hlo⟩ := Option.isSome_iff_exists.1 (hread (ptr + 2) (by omega))
      obtain ⟨out, hout⟩ := ih (stop + 2 - (ptr + 3)) (by omega) (by omega) rfl
      refine ⟨percentByte hi lo :: out, ?_⟩
      rw [urlDecode_escaped (hpercent ▸ hc) hhi hlo (by omega), hout]
      rfl
    · obtain ⟨out, hout⟩ := ih (stop + 2 - (ptr + 1)) (by omega) (by omega) rfl
      refine ⟨c :: out, ?_⟩
      rw [urlDecode_raw hc hnul hpercent (by omega), hout]
      rfl

/-- **Percent decoding.** Called with the bounds of any encoding of a string, inside a longer
buffer, `url_decode` returns the string; it does so also when nothing but the encoding and the one
byte at the end pointer can be read. -/
theorem url_decode_inverts (h : PercentEncodes s e) (pre post : List UInt8) (b : UInt8) :
    urlDecode (ofBytes (pre ++ e ++ b :: post)) pre.length (pre.length + e.length) = some s ∧
      urlDecode ((ofBytes (pre ++ e ++ b :: post)).window pre.length (pre.length + e.length))
        pre.length (pre.length + e.length) = some s := by
  have hend : ofBytes (pre ++ e ++ b :: post) (pre.length + e.length) = some b := by
    simp [ofBytes]
  constructor
  · exact urlDecode_encodes h (holds_ofBytes pre e _) (by rw [hend]; rfl)
  · apply urlDecode_encodes h
    · exact (holds_ofBytes pre e _).window (Nat.le_refl _) (Nat.le_succ _)
    · rw [window, if_pos ⟨Nat.le_add_right _ _, Nat.le_refl _⟩, hend]
      rfl

/-- The bytes `a%`, a newline and NUL, the first as itself and the others as digits of both
cases. -/
theorem url_decode_inverts_mixed :
    urlDecode (ofBytes ([34] ++ [97, 37, 50, 53, 37, 48, 65, 37, 48, 48] ++ 13 :: [10])) 1 11 =
      some [97, 37, 10, 0] :=
  (url_decode_inverts (.raw (by decide) (by decide) (.escaped (c := 37) false false
    (.escaped (c := 10) false true (.escaped (c := 0) false false .nil)))) [34] [10] 13).1

end EnclaveRaft.Common
