import Mathlib.Data.Option.Basic

/-!
# Cutting a range into pieces

A loop goes through a range and takes the next piece at the offset where the last one ended, until it
is at the end. The pieces tile the range if the loop always takes something and never too much. They
do not if it can be kept from the end.
-/

namespace Tiling

/-- A piece of a range, and whether it was marked as the last one. -/
structure Piece where
  offset : Nat
  length : Nat
  last : Bool
  deriving DecidableEq

/-- The pieces follow each other from `lo` to `hi`, none is empty, and only the last one is marked. -/
def Tiles (hi : Nat) : Nat → List Piece → Prop
  | lo, [] => lo = hi
  | lo, p :: ps =>
    p.offset = lo ∧ 0 < p.length ∧ (p.last = true ↔ ps = []) ∧ Tiles hi (lo + p.length) ps

/-- The pieces that the loop takes, of `n` rounds at most. `len` says how much it takes at an offset,
if it can go on. -/
def cut (len : Nat → Option Nat) (hi : Nat) : Nat → Nat → Option (List Piece)
  | 0, _ => none
  | n + 1, lo =>
    (len lo).bind fun k =>
      if hi ≤ lo + k then some [⟨lo, k, true⟩]
      else (cut len hi n (lo + k)).map (⟨lo, k, false⟩ :: ·)

variable {len : Nat → Option Nat} {hi : Nat}

/-- A loop that always takes something and never too much tiles the range. -/
theorem exists_tiles (hlen : ∀ lo < hi, ∃ k, len lo = some k ∧ 0 < k ∧ lo + k ≤ hi) (n : Nat)
    {lo : Nat} (hlt : lo < hi) (hn : hi - lo ≤ n) :
    ∃ ps, cut len hi n lo = some ps ∧ ps ≠ [] ∧ Tiles hi lo ps := by
  induction n generalizing lo with
  | zero => omega
  | succ n ih =>
    obtain ⟨k, hk, hpos, hle⟩ := hlen lo hlt
    by_cases hend : hi ≤ lo + k
    · refine ⟨[⟨lo, k, true⟩], ?_, List.cons_ne_nil _ _, rfl, hpos, by simp, Nat.le_antisymm hle hend⟩
      rw [cut, hk, Option.bind_some, if_pos hend]
    · obtain ⟨ps, hcut, hne, htiles⟩ := ih (show lo + k < hi by omega) (by omega)
      refine ⟨⟨lo, k, false⟩ :: ps, ?_, List.cons_ne_nil _ _, rfl, hpos, by simpa using hne, htiles⟩
      rw [cut, hk, Option.bind_some, if_neg hend, hcut, Option.map_some]

/-- A loop that stays in `I`, before the end, while it takes something does not tile the range. -/
theorem not_tiles {I : Nat → Prop}
    (hI : ∀ lo k, I lo → len lo = some k → 0 < k → lo + k < hi ∧ I (lo + k)) {n lo : Nat}
    {ps : List Piece} (hlo : I lo) (hcut : cut len hi n lo = some ps) : ¬Tiles hi lo ps := by
  induction n generalizing lo ps with
  | zero => exact nomatch hcut
  | succ n ih =>
    obtain ⟨k, hk, hcut⟩ := Option.bind_eq_some_iff.1 hcut
    split at hcut
    next hend =>
      obtain rfl := Option.some.inj hcut
      rintro ⟨-, hpos, -⟩
      have hlt := (hI lo k hlo hk hpos).1
      omega
    next =>
      obtain ⟨rest, hrest, rfl⟩ := Option.map_eq_some_iff.1 hcut
      rintro ⟨-, hpos, -, htiles⟩
      exact ih (hI lo k hlo hk hpos).2 hrest htiles

end Tiling
