import Mathlib.Data.List.Basic
import Mathlib.Data.List.Infix

/-!
# Ordered maps with consecutive keys

An ordered map is a list sorted by key. A map whose keys are consecutive numbers is a list with an
offset (`indexed`): writing into it, cutting it off at the end and dropping its beginning are the
operations on that list.
-/

namespace OrderedMap

/-- `map[k] = v`. -/
def put {β : Type} (k : Nat) (v : β) : List (Nat × β) → List (Nat × β)
  | [] => [(k, v)]
  | (k', v') :: m =>
    if k < k' then (k, v) :: (k', v') :: m
    else if k = k' then (k, v) :: m
    else (k', v') :: put k v m

theorem mem_put {β : Type} {k : Nat} {v : β} {m : List (Nat × β)} {x : Nat × β}
    (h : x ∈ put k v m) : x = (k, v) ∨ x ∈ m := by
  induction m with
  | nil => exact .inl (List.mem_singleton.1 h)
  | cons y m ih =>
    unfold put at h
    split at h
    · exact (List.mem_cons.1 h).imp_right id
    · split at h
      · exact (List.mem_cons.1 h).imp_right fun h => List.mem_cons_of_mem _ h
      · rcases List.mem_cons.1 h with rfl | h
        · exact .inr List.mem_cons_self
        · exact (ih h).imp_right fun h => List.mem_cons_of_mem _ h

/-- The keys of a map. -/
def keys {β : Type} (m : List (Nat × β)) : List Nat := m.map Prod.fst

theorem mem_keys_put {β : Type} {k k' : Nat} {v : β} {m : List (Nat × β)} :
    k' ∈ keys (put k v m) ↔ k' = k ∨ k' ∈ keys m := by
  induction m with
  | nil => simp [put, keys]
  | cons y m ih =>
    simp only [keys] at ih
    unfold put
    split
    · simp [keys]
    · split
      next h => simp [keys, ← h]
      next => simp only [keys, List.map_cons, List.mem_cons, ih, or_left_comm]

theorem sorted_put {β : Type} {m : List (Nat × β)} (k : Nat) (v : β)
    (h : (keys m).Pairwise (· < ·)) : (keys (put k v m)).Pairwise (· < ·) := by
  induction m with
  | nil => simp [put, keys]
  | cons y m ih =>
    obtain ⟨hy, hm⟩ := List.pairwise_cons.1 h
    unfold put
    split
    next hlt =>
      refine List.pairwise_cons.2 ⟨fun k' hk' => ?_, h⟩
      rcases List.mem_cons.1 hk' with rfl | hk'
      · exact hlt
      · exact hlt.trans (hy k' hk')
    next hge =>
      split
      next heq =>
        subst heq
        exact List.pairwise_cons.2 ⟨hy, hm⟩
      next hne =>
        refine List.pairwise_cons.2 ⟨fun k' hk' => ?_, ih hm⟩
        rcases mem_keys_put.1 hk' with rfl | hk'
        · exact lt_of_le_of_ne (not_lt.1 hge) (Ne.symm hne)
        · exact hy k' hk'

theorem mem_keys_foldl_put {β γ : Type} {f : γ × Nat → β} {es : List (γ × Nat)}
    {m : List (Nat × β)} {k : Nat} :
    k ∈ keys (es.foldl (fun m e => put e.2 (f e) m) m) ↔ k ∈ keys m ∨ ∃ e ∈ es, e.2 = k := by
  induction es generalizing m with
  | nil => simp
  | cons e es ih =>
    simp only [List.foldl_cons, ih, mem_keys_put, List.exists_mem_cons_iff, or_assoc, or_left_comm,
      eq_comm]

theorem sorted_foldl_put {β γ : Type} {f : γ × Nat → β} (es : List (γ × Nat))
    {m : List (Nat × β)} (h : (keys m).Pairwise (· < ·)) :
    (keys (es.foldl (fun m e => put e.2 (f e) m) m)).Pairwise (· < ·) := by
  induction es generalizing m with
  | nil => exact h
  | cons e es ih => exact ih (sorted_put _ _ h)

/-- In a map that is in order, the first key of a kind is the least one. -/
theorem find?_key_le {β : Type} {m : List (Nat × β)} {P : Nat → Bool} {k : Nat}
    (h : (keys m).Pairwise (· < ·)) (hk : k ∈ keys m) (hP : P k = true) :
    ∃ x, m.find? (fun p => P p.1) = some x ∧ x.1 ≤ k := by
  induction m with
  | nil => cases hk
  | cons y m ih =>
    obtain ⟨hy, hm⟩ := List.pairwise_cons.1 h
    have hle : y.1 ≤ k := by
      rcases List.mem_cons.1 hk with rfl | hk
      · exact le_rfl
      · exact (hy k hk).le
    by_cases hPy : P y.1 = true
    · exact ⟨y, List.find?_cons_of_pos hPy, hle⟩
    · rw [List.find?_cons_of_neg (p := fun p : Nat × β => P p.1) hPy]
      apply ih hm
      rcases List.mem_cons.1 hk with rfl | hk
      · exact (hPy hP).elim
      · exact hk

theorem length_le_put {β : Type} (k : Nat) (v : β) (m : List (Nat × β)) :
    m.length ≤ (put k v m).length := by
  induction m with
  | nil => simp
  | cons x m ih =>
    unfold put
    repeat' split
    all_goals simp only [List.length_cons]; omega

/-! ## Consecutive keys -/

/-- The entries of `l` under the keys from `k` on. -/
def indexed {β : Type} : Nat → List β → List (Nat × β)
  | _, [] => []
  | k, e :: l => (k, e) :: indexed (k + 1) l

section Indexed

variable {β : Type} {k i : Nat} {l : List β} {e : β}

theorem length_indexed : (indexed k l).length = l.length := by
  induction l generalizing k with
  | nil => rfl
  | cons e l ih => simp [indexed, ih]

theorem map_snd_indexed : (indexed k l).map Prod.snd = l := by
  induction l generalizing k with
  | nil => rfl
  | cons e l ih => simp [indexed, ih]

theorem indexed_append (l' : List β) :
    indexed k (l ++ l') = indexed k l ++ indexed (k + l.length) l' := by
  induction l generalizing k with
  | nil => rfl
  | cons e l ih => simp [indexed, ih, Nat.add_assoc, Nat.add_comm 1]

theorem le_of_mem_indexed {x : Nat × β} (h : x ∈ indexed k l) : k ≤ x.1 := by
  induction l generalizing k with
  | nil => cases h
  | cons e l ih =>
    rcases List.mem_cons.1 h with rfl | h
    · exact le_rfl
    · exact (Nat.le_succ k).trans (ih h)

theorem lt_of_mem_indexed {x : Nat × β} (h : x ∈ indexed k l) : x.1 < k + l.length := by
  induction l generalizing k with
  | nil => cases h
  | cons e l ih =>
    rw [List.length_cons]
    rcases List.mem_cons.1 h with rfl | h
    · omega
    · have := ih h
      omega

theorem lookup_indexed : (indexed k l).lookup (k + i) = l[i]? := by
  induction l generalizing k i with
  | nil => rfl
  | cons e l ih =>
    cases i with
    | zero => simp [indexed]
    | succ i =>
      rw [indexed, List.lookup_cons, show (k + (i + 1) == k) = false by simp,
        List.getElem?_cons_succ, show k + (i + 1) = k + 1 + i by omega]
      exact ih

theorem lookup_indexed_of_lt (h : i < k) : (indexed k l).lookup i = none := by
  rw [List.lookup_eq_none_iff]
  intro x hx
  have := le_of_mem_indexed hx
  simp
  omega

/-- A key above all others goes to the end. -/
theorem mem_indexed {x : Nat × β} : x ∈ indexed k l ↔ k ≤ x.1 ∧ l[x.1 - k]? = some x.2 := by
  induction l generalizing k with
  | nil => simp [indexed]
  | cons e l ih =>
    rw [indexed, List.mem_cons, ih]
    constructor
    · rintro (rfl | ⟨hle, hget⟩)
      · simp
      · refine ⟨by omega, ?_⟩
        rw [show x.1 - k = x.1 - (k + 1) + 1 by omega, List.getElem?_cons_succ]
        exact hget
    · rintro ⟨hle, hget⟩
      by_cases heq : x.1 = k
      · rw [heq, Nat.sub_self, List.getElem?_cons_zero, Option.some_inj] at hget
        exact .inl (Prod.ext heq hget.symm)
      · rw [show x.1 - k = x.1 - (k + 1) + 1 by omega, List.getElem?_cons_succ] at hget
        exact .inr ⟨by omega, hget⟩

/-- A filter on the keys leaves the values under the keys it keeps. -/
theorem lookup_filter_key {m : List (Nat × β)} {P : Nat → Bool} {i : Nat} (h : P i = true) :
    (m.filter fun x => P x.1).lookup i = m.lookup i := by
  induction m with
  | nil => rfl
  | cons x m ih =>
    by_cases hi : i = x.1
    · rw [List.filter_cons, if_pos (hi ▸ h), List.lookup_cons, List.lookup_cons]
      simp [hi]
    · have hne : (i == x.1) = false := by simpa using hi
      rw [List.lookup_cons, hne, List.filter_cons]
      split
      next => rw [List.lookup_cons, hne, ih]
      next => exact ih

theorem indexed_split {n : Nat} (hn : n ≤ l.length) :
    indexed k l = indexed k (l.take n) ++ indexed (k + n) (l.drop n) := by
  conv_lhs => rw [← List.take_append_drop n l, indexed_append, List.length_take, Nat.min_eq_left hn]

theorem filter_indexed_lt {n : Nat} (hn : n ≤ l.length) :
    (indexed k l).filter (fun x => x.1 < k + n) = indexed k (l.take n) := by
  rw [indexed_split hn, List.filter_append, List.filter_eq_self.2, List.filter_eq_nil_iff.2,
    List.append_nil]
  · intro x hx
    simpa using le_of_mem_indexed hx
  · intro x hx
    have := lt_of_mem_indexed hx
    rw [List.length_take, Nat.min_eq_left hn] at this
    simpa using this

theorem filter_indexed_ge (n : Nat) :
    (indexed k l).filter (fun x => ¬(k ≤ x.1 ∧ x.1 < k + n)) = indexed (k + n) (l.drop n) := by
  have hgone : ∀ l' : List β, l'.length ≤ n →
      (indexed k l').filter (fun x => ¬(k ≤ x.1 ∧ x.1 < k + n)) = [] := by
    intro l' hlen
    refine List.filter_eq_nil_iff.2 fun x hx => ?_
    have := le_of_mem_indexed hx
    have := lt_of_mem_indexed hx
    simp
    omega
  by_cases hn : n ≤ l.length
  · rw [indexed_split hn, List.filter_append, hgone _ (List.length_take_le _ _), List.nil_append,
      List.filter_eq_self.2]
    intro x hx
    have := le_of_mem_indexed hx
    simp
    omega
  · rw [hgone l (by omega), List.drop_eq_nil_of_le (by omega)]
    rfl

theorem keys_indexed : (indexed k l).map Prod.fst = List.range' k l.length := by
  induction l generalizing k with
  | nil => rfl
  | cons e l ih => simp [indexed, ih, List.range'_succ]

/-- Writing over an entry, or behind the last one. -/
theorem put_indexed {n : Nat} (hn : n ≤ l.length) :
    put (k + n) e (indexed k l) = indexed k (l.take n ++ e :: l.drop (n + 1)) := by
  induction l generalizing k n with
  | nil =>
    rw [List.length_nil, Nat.le_zero] at hn
    subst hn
    rfl
  | cons a l ih =>
    cases n with
    | zero => simp [indexed, put]
    | succ n =>
      have hput := ih (k := k + 1) (Nat.le_of_succ_le_succ hn)
      rw [Nat.add_assoc, Nat.add_comm 1] at hput
      simp [indexed, put, hput]

theorem put_indexed_end : put (k + l.length) e (indexed k l) = indexed k (l ++ [e]) := by
  rw [put_indexed le_rfl, List.take_length, List.drop_eq_nil_of_le (Nat.le_succ _)]

/-- The entries of `es` in place of those from `n` on. -/
def splice (l : List β) (n : Nat) (es : List β) : List β :=
  l.take n ++ es ++ l.drop (n + es.length)

theorem getElem?_splice {n i : Nat} {es : List β} (hn : n ≤ l.length) :
    (splice l n es)[i]? = if n ≤ i ∧ i < n + es.length then es[i - n]? else l[i]? := by
  have htake : (l.take n).length = n := by rw [List.length_take, Nat.min_eq_left hn]
  unfold splice
  rw [List.append_assoc]
  by_cases hlt : i < n
  · rw [List.getElem?_append_left (htake.symm ▸ hlt), List.getElem?_take_of_lt hlt,
      if_neg fun h => Nat.not_le.2 hlt h.1]
  · rw [List.getElem?_append_right (htake.symm ▸ Nat.le_of_not_lt hlt), htake]
    by_cases hes : i - n < es.length
    · rw [List.getElem?_append_left hes, if_pos (by omega)]
    · rw [List.getElem?_append_right (Nat.le_of_not_lt hes), List.getElem?_drop, if_neg (by omega)]
      congr 1
      omega

theorem length_splice {n : Nat} {es : List β} (hn : n ≤ l.length) :
    (splice l n es).length = max l.length (n + es.length) := by
  simp [splice]
  omega

/-- Entries of a longer list in place of those of one that it begins with. -/
theorem splice_isPrefix {l' : List β} {n : Nat} {es : List β} (hl : l <+: l') (hn : n ≤ l.length)
    (hes : es <+: l'.drop n) : splice l n es <+: l' := by
  have htake : ∀ m, m ≤ l.length → l.take m = l'.take m := by
    intro m hm
    obtain ⟨r, rfl⟩ := hl
    exact (List.take_append_of_le_length hm).symm
  have hpiece : l.take n ++ es = l'.take (n + es.length) := by
    rw [htake n hn, List.take_add, ← List.prefix_iff_eq_take.1 hes]
  rw [splice, hpiece]
  by_cases hlen : n + es.length ≤ l.length
  · rw [← htake _ hlen, List.take_append_drop]
    exact hl
  · rw [List.drop_eq_nil_of_le (Nat.le_of_not_le hlen), List.append_nil]
    exact List.take_prefix _ _

theorem drop_splice {n k : Nat} {es : List β} (hk : k ≤ n) (hn : n ≤ l.length) :
    (splice l n es).drop k = splice (l.drop k) (n - k) es := by
  refine List.ext_getElem? fun i => ?_
  have hn' : n - k ≤ (l.drop k).length := by
    rw [List.length_drop]
    omega
  rw [List.getElem?_drop, getElem?_splice hn, getElem?_splice hn', List.getElem?_drop]
  by_cases hi : n - k ≤ i ∧ i < n - k + es.length
  · rw [if_pos hi, if_pos (by omega)]
    congr 1
    omega
  · rw [if_neg hi, if_neg (by omega)]

theorem splice_cons {n : Nat} (hn : n ≤ l.length) (es : List β) :
    splice (l.take n ++ e :: l.drop (n + 1)) (n + 1) es = splice l n (e :: es) := by
  have hlen : (l.take n).length = n := by rw [List.length_take, Nat.min_eq_left hn]
  have htake : (l.take n ++ e :: l.drop (n + 1)).take (n + 1) = l.take n ++ [e] := by
    rw [List.take_append, hlen, Nat.add_sub_cancel_left, List.take_of_length_le (by omega)]
    rfl
  have hdrop : (l.take n ++ e :: l.drop (n + 1)).drop (n + 1 + es.length) =
      l.drop (n + (es.length + 1)) := by
    rw [List.drop_append, hlen, List.drop_eq_nil_of_le (by omega), List.nil_append,
      show n + 1 + es.length - n = es.length + 1 by omega, List.drop_succ_cons, List.drop_drop]
    congr 1
    omega
  simp [splice, htake, hdrop]

/-- Writing entries one by one. -/
theorem foldl_put_indexed {n : Nat} (hn : n ≤ l.length) (es : List β) :
    (es.zipIdx (k + n)).foldl (fun m e => put e.2 e.1 m) (indexed k l) =
      indexed k (splice l n es) := by
  induction es generalizing l n with
  | nil => simp [splice]
  | cons e es ih =>
    have hlen : n + 1 ≤ (l.take n ++ e :: l.drop (n + 1)).length := by
      simp
      omega
    rw [List.zipIdx_cons, List.foldl_cons, put_indexed hn, Nat.add_assoc, ih hlen, splice_cons hn]

/-- A key below all others stays in front. -/
theorem put_cons_of_lt {m : List (Nat × β)} {x : Nat × β} (h : x.1 < k) :
    put k e (x :: m) = x :: put k e m := by
  obtain ⟨k', v⟩ := x
  simp only [put]
  rw [if_neg (by omega), if_neg (by omega)]

theorem foldl_put_cons {x : Nat × β} (m : List (Nat × β)) {n : Nat} (h : x.1 < n) (es : List β) :
    (es.zipIdx n).foldl (fun m e => put e.2 e.1 m) (x :: m) =
      x :: (es.zipIdx n).foldl (fun m e => put e.2 e.1 m) m := by
  induction es generalizing m n with
  | nil => rfl
  | cons e es ih =>
    rw [List.zipIdx_cons, List.foldl_cons, List.foldl_cons, put_cons_of_lt h,
      ih _ (Nat.lt_succ_of_lt h)]

end Indexed

end OrderedMap
