import Mathlib.Data.List.GetD
import Mathlib.Data.List.Sort
import Mathlib.Order.Bounds.Basic

/-!
# Elements by rank

The element at a position of a sorted list is told by counting: in descending order, the bounds `x`
with more than `k` elements above them are those up to the element at position `k`. A list is sorted
to read off such an element, and what is known of it is about the list as it was.
-/

namespace Ranks

variable {α : Type*} [LinearOrder α] {l : List α} {k : Nat} {x : α}

theorem lt_countP (h : l.Pairwise (· ≥ ·)) (hk : k < l.length) (hx : x ≤ l[k]) :
    k < l.countP (x ≤ ·) := by
  have hall : (l.take (k + 1)).countP (x ≤ ·) = (l.take (k + 1)).length := by
    refine List.countP_eq_length.2 fun y hy => ?_
    obtain ⟨i, hi, rfl⟩ := List.mem_take_iff_getElem.1 hy
    have hik : i ≤ k := by omega
    rcases Nat.eq_or_lt_of_le hik with rfl | hlt
    · exact decide_eq_true hx
    · exact decide_eq_true (hx.trans (List.pairwise_iff_getElem.1 h i k _ hk hlt))
  have hle := (List.take_sublist (k + 1) l).countP_le (p := (x ≤ ·))
  rw [hall, List.length_take, Nat.min_eq_left hk] at hle
  exact hle

theorem countP_le (h : l.Pairwise (· ≥ ·)) (hk : k < l.length) (hx : l[k] < x) :
    l.countP (x ≤ ·) ≤ k := by
  have hnone : (l.drop k).countP (x ≤ ·) = 0 := by
    refine List.countP_eq_zero.2 fun y hy => ?_
    obtain ⟨i, hi, rfl⟩ := List.mem_drop_iff_getElem.1 hy
    have hle : l[k + i] ≤ l[k] := by
      rcases Nat.eq_zero_or_pos i with rfl | hpos
      · exact le_rfl
      · exact List.pairwise_iff_getElem.1 h k (k + i) hk _ (by omega)
    simpa using hle.trans_lt hx
  have hsplit := congrArg (List.countP (x ≤ ·)) (List.take_append_drop k l)
  rw [List.countP_append, hnone] at hsplit
  have hlen := List.countP_le_length (p := (x ≤ ·)) (l := l.take k)
  rw [List.length_take] at hlen
  omega

/-- The bounds below the element at position `k` of a descending list. -/
theorem lt_countP_iff (h : l.Pairwise (· ≥ ·)) (hk : k < l.length) :
    k < l.countP (x ≤ ·) ↔ x ≤ l[k] :=
  ⟨fun hc => le_of_not_gt fun hx => Nat.not_lt.2 (countP_le h hk hx) hc, lt_countP h hk⟩

/-- **Position `k` in descending order.** -/
theorem le_descending_iff (hk : k < l.length) (d : α) :
    x ≤ (l.insertionSort (· ≥ ·)).getD k d ↔ k < l.countP (x ≤ ·) := by
  have hk' : k < (l.insertionSort (· ≥ ·)).length := by rwa [List.length_insertionSort]
  rw [← (List.perm_insertionSort (· ≥ ·) l).countP_eq, List.getD_eq_getElem _ d hk',
    lt_countP_iff (List.pairwise_insertionSort (· ≥ ·) l) hk']

/-- **Position `k` in ascending order.** -/
theorem le_ascending_iff (hk : k < l.length) (d : α) :
    x ≤ (l.insertionSort (· ≤ ·)).getD k d ↔ l.length - k ≤ l.countP (x ≤ ·) := by
  have hlen : (l.insertionSort (· ≤ ·)).length = l.length := List.length_insertionSort _ _
  have hdesc : (l.insertionSort (· ≤ ·)).reverse.Pairwise (· ≥ ·) :=
    List.pairwise_reverse.2 (List.pairwise_insertionSort (· ≤ ·) l)
  have hk' : l.length - 1 - k < (l.insertionSort (· ≤ ·)).reverse.length := by
    rw [List.length_reverse, hlen]
    omega
  have hget : (l.insertionSort (· ≤ ·)).getD k d =
      (l.insertionSort (· ≤ ·)).reverse[l.length - 1 - k] := by
    rw [List.getElem_reverse, List.getD_eq_getElem _ d (by omega)]
    congr 1
    omega
  rw [hget, ← lt_countP_iff hdesc hk', List.countP_reverse,
    (List.perm_insertionSort (· ≤ ·) l).countP_eq]
  omega

theorem isGreatest_descending (hk : k < l.length) (d : α) :
    IsGreatest {x | k < l.countP (x ≤ ·)} ((l.insertionSort (· ≥ ·)).getD k d) :=
  ⟨(le_descending_iff hk d).1 le_rfl, fun _ hx => (le_descending_iff hk d).2 hx⟩

end Ranks
