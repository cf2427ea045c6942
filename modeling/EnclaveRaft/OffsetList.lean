import EnclaveRaft.LogStore

/-!
# The log store as an offset list

What `in_memory_log_store` is for: a list of entries that starts at some index. A store
`Represents` such a list when its map is the placeholder followed by the entries under consecutive
keys, and every operation of the store does to its list what it should.

A store `Holds` a log when its list is what compaction has left of the log.
-/

namespace EnclaveRaft

open OrderedMap

/-- Entries at consecutive indices. -/
structure OffsetList where
  start : Nat
  entries : List LogEntry

namespace OffsetList

/-- The list of a new store. -/
def new : OffsetList := ⟨1, []⟩

def next (a : OffsetList) : Nat := a.start + a.entries.length

def get? (a : OffsetList) (i : Nat) : Option LogEntry :=
  if a.start ≤ i then a.entries[i - a.start]? else none

/-- The entry at an index, with a dummy of term zero outside the range. -/
def entryAt (a : OffsetList) (i : Nat) : LogEntry := (a.get? i).getD LogStore.placeholder

def lastEntry (a : OffsetList) : LogEntry := a.entries.getLast?.getD LogStore.placeholder

/-- The entries of `[i, j)`. -/
def slice (a : OffsetList) (i j : Nat) : List LogEntry :=
  (a.entries.drop (i - a.start)).take (j - i)

def append (a : OffsetList) (e : LogEntry) : OffsetList := { a with entries := a.entries ++ [e] }

/-- The entry at `i` becomes the last one. -/
def writeAt (a : OffsetList) (i : Nat) (e : LogEntry) : OffsetList :=
  { a with entries := a.entries.take (i - a.start) ++ [e] }

/-- New entries from `i` on, in place of the old ones. -/
def overwrite (a : OffsetList) (i : Nat) (es : List LogEntry) : OffsetList :=
  { a with entries := splice a.entries (i - a.start) es }

/-- The entries up to `k` are dropped. -/
def compact (a : OffsetList) (k : Nat) : OffsetList :=
  ⟨k + 1, a.entries.drop (k + 1 - a.start)⟩

section

variable {a : OffsetList} {i j : Nat}

theorem get?_eq_none_of_next_le (h : a.next ≤ i) : a.get? i = none := by
  rw [next] at h
  unfold get?
  split
  · exact List.getElem?_eq_none (by omega)
  · rfl

/-- There is an entry exactly under the indices of the list. -/
theorem get?_isSome : (a.get? i).isSome ↔ a.start ≤ i ∧ i < a.next := by
  rw [next, get?]
  split
  · simp only [isSome_getElem?]
    omega
  · simp
    omega

theorem get?_append {e : LogEntry} :
    (a.append e).get? i = if i < a.next then a.get? i else if i = a.next then some e else none := by
  unfold get? append next
  dsimp only
  by_cases hle : a.start ≤ i
  · rw [if_pos hle, if_pos hle]
    by_cases hlt : i < a.start + a.entries.length
    · rw [if_pos hlt, List.getElem?_append_left (by omega)]
    · rw [if_neg hlt, List.getElem?_append_right (by omega)]
      by_cases heq : i = a.start + a.entries.length
      · rw [if_pos heq, heq]
        simp
      · rw [if_neg heq, List.getElem?_eq_none (by simp; omega)]
  · rw [if_neg hle, if_neg hle, if_pos (by omega)]

theorem get?_compact (hj : a.start ≤ j + 1) :
    (a.compact j).get? i = if j < i then a.get? i else none := by
  unfold get? compact
  dsimp only
  by_cases hlt : j < i
  · rw [if_pos hlt, if_pos (by omega), if_pos (by omega), List.getElem?_drop]
    congr 1
    omega
  · rw [if_neg hlt, if_neg (by omega)]

theorem get?_overwrite (hj : a.start ≤ j) (hle : j ≤ a.next) (es : List LogEntry) :
    (a.overwrite j es).get? i =
      if j ≤ i ∧ i < j + es.length then es[i - j]? else a.get? i := by
  rw [next] at hle
  unfold get? overwrite
  dsimp only
  by_cases hs : a.start ≤ i
  · rw [if_pos hs, if_pos hs, getElem?_splice (by omega), show i - a.start - (j - a.start) = i - j by
      omega]
    refine if_congr ?_ rfl rfl
    omega
  · rw [if_neg hs, if_neg hs, if_neg (by omega)]

theorem next_append {e : LogEntry} : (a.append e).next = a.next + 1 := by
  simp [append, next, Nat.add_assoc]

theorem next_le_overwrite (hj : a.start ≤ j) (hle : j ≤ a.next) (es : List LogEntry) :
    a.next ≤ (a.overwrite j es).next := by
  rw [next] at hle ⊢
  rw [next, overwrite, OrderedMap.length_splice (by omega)]
  exact Nat.add_le_add_left (le_max_left _ _) _

theorem next_compact (hstart : a.start ≤ j + 1) (hj : j < a.next) :
    (a.compact j).next = a.next := by
  rw [next] at hj
  simp only [compact, next, List.length_drop]
  omega

end

end OffsetList

namespace LogStore

/-- An entry of a pack. -/
def unpack (e : Nat × LogValType × Payload) : LogEntry := ⟨e.1, e.2.1, e.2.2⟩

/-- The store is that of the list `a`. -/
structure Represents (st : LogStore) (a : OffsetList) : Prop where
  pos : 1 ≤ a.start
  start : st.startIdx = a.start
  logs : st.logs = (0, placeholder) :: indexed a.start a.entries

namespace Represents

variable {st : LogStore} {a : OffsetList} {i j : Nat} {e : LogEntry}

theorem new : Represents .empty .new := ⟨le_rfl, rfl, rfl⟩

/-! ## Queries -/

theorem nextSlot (h : Represents st a) : st.nextSlot = a.next := by
  rw [LogStore.nextSlot, h.start, h.logs, List.length_cons, length_indexed]
  rfl

theorem lookup_zero (h : Represents st a) : st.logs.lookup 0 = some placeholder := by
  rw [h.logs]
  rfl

theorem lookup (h : Represents st a) (hi : 1 ≤ i) : st.logs.lookup i = a.get? i := by
  rw [h.logs, List.lookup_cons, show (i == 0) = false by simp; omega]
  dsimp only [OffsetList.get?]
  split
  next hle =>
    conv_lhs => rw [show i = a.start + (i - a.start) by omega]
    exact lookup_indexed
  next hlt => exact lookup_indexed_of_lt (Nat.lt_of_not_le hlt)

theorem entryAt (h : Represents st a) (i : Nat) : st.entryAt i = a.entryAt i := by
  rw [LogStore.entryAt, h.lookup_zero, Option.getD_some]
  have hpos := h.pos
  rcases Nat.eq_zero_or_pos i with rfl | hi
  · rw [h.lookup_zero, OffsetList.entryAt, OffsetList.get?, if_neg (by omega)]
    rfl
  · rw [h.lookup hi]
    rfl

/-- The keys are 0 and the indices of the list. -/
theorem mem_keys (h : Represents st a) :
    i ∈ st.logs.map Prod.fst ↔ i = 0 ∨ (a.start ≤ i ∧ i < a.next) := by
  rw [h.logs, List.map_cons, keys_indexed, List.mem_cons, List.mem_range'_1]
  rfl

theorem lastEntry (h : Represents st a) : st.entryAt (a.next - 1) = a.lastEntry := by
  have hpos := h.pos
  rw [h.entryAt, OffsetList.entryAt, OffsetList.lastEntry, OffsetList.get?]
  rcases List.eq_nil_or_concat a.entries with hnil | ⟨l, e, heq⟩
  · rw [OffsetList.next, hnil, List.length_nil, if_neg (by omega)]
    rfl
  · have hlast : a.next - 1 - a.start = l.length := by
      rw [OffsetList.next, heq, List.length_concat]
      omega
    rw [if_pos (by rw [OffsetList.next, heq, List.length_concat]; omega), hlast, heq,
      List.concat_eq_append]
    simp

theorem logEntries (h : Represents st a) (hi : a.start ≤ i) (hij : i ≤ j) (hj : j ≤ a.next) :
    st.logEntries i j = some (a.slice i j) := by
  rw [LogStore.logEntries, if_neg (Nat.not_lt.2 hij), Option.some_inj]
  refine List.ext_getElem? fun n => ?_
  rw [OffsetList.next] at hj
  rw [OffsetList.slice]
  by_cases hn : n < j - i
  · have hlen : i - a.start + n < a.entries.length := by omega
    rw [List.getElem?_map, List.getElem?_range' hn, List.getElem?_take_of_lt hn,
      List.getElem?_drop, Option.map_some, h.entryAt, OffsetList.entryAt, OffsetList.get?,
      if_pos (by omega), show i + 1 * n - a.start = i - a.start + n by omega,
      List.getElem?_eq_getElem hlen, Option.getD_some]
  · rw [List.getElem?_eq_none (by simpa using hn), List.getElem?_eq_none]
    rw [List.length_take]
    omega

/-! ## Changes -/

theorem append (h : Represents st a) (e : LogEntry) : Represents (st.append e) (a.append e) := by
  refine ⟨h.pos, h.start, ?_⟩
  show put st.nextSlot e st.logs = _
  rw [h.nextSlot, h.logs, OffsetList.next, put_cons_of_lt (Nat.add_pos_left h.pos _),
    put_indexed_end]
  rfl

theorem writeAt (h : Represents st a) (hi : a.start ≤ i) (hlt : i ≤ a.next) (e : LogEntry) :
    Represents (st.writeAt i e) (a.writeAt i e) := by
  have hpos := h.pos
  rw [OffsetList.next] at hlt
  have hn : i - a.start ≤ a.entries.length := by omega
  have hkey : i = a.start + (i - a.start) := by omega
  refine ⟨h.pos, h.start, ?_⟩
  show put i e (st.logs.filter fun p => p.1 < i) = _
  rw [h.logs, List.filter_cons_of_pos (by simp; omega)]
  conv_lhs => rw [hkey]
  rw [filter_indexed_lt hn, put_cons_of_lt (by omega)]
  have hput := put_indexed_end (k := a.start) (l := a.entries.take (i - a.start)) (e := e)
  rw [List.length_take, Nat.min_eq_left hn] at hput
  rw [hput]
  rfl

/-- Compaction drops entries; if it goes past the end, the list is empty. -/
theorem compact (h : Represents st a) (hi : a.start ≤ i + 1) :
    Represents (st.compact i) (a.compact i) := by
  have hpos := h.pos
  refine ⟨Nat.le_add_left _ _, rfl, ?_⟩
  have hfilter := filter_indexed_ge (k := a.start) (l := a.entries) (i + 1 - a.start)
  rw [Nat.add_sub_cancel' hi] at hfilter
  show st.logs.filter _ = (0, placeholder) :: indexed (i + 1) (a.entries.drop (i + 1 - a.start))
  rw [h.start, h.logs, List.filter_cons_of_pos (by simp; omega), ← hfilter]
  simp only [Nat.lt_succ_iff]

/-- A pack replaces the entries under its indices, and leaves those behind it. -/
theorem applyPack (h : Represents st a) (hi : a.start ≤ i) (hle : i ≤ a.next)
    {p : List (Nat × LogValType × Payload)} (hp : p ≠ []) :
    Represents (st.applyPack i p) (a.overwrite i (p.map unpack)) := by
  have hpos := h.pos
  rw [OffsetList.next] at hle
  have hn : i - a.start ≤ a.entries.length := by omega
  have hlogs : (p.zipIdx i).foldl (fun m e => put e.2 (unpack e.1) m) st.logs =
      (0, placeholder) :: indexed a.start (splice a.entries (i - a.start) (p.map unpack)) := by
    have hfold := foldl_put_indexed (k := a.start) hn (p.map unpack)
    rw [Nat.add_sub_cancel' hi, List.zipIdx_map, List.foldl_map] at hfold
    have hcons := foldl_put_cons (x := (0, placeholder)) (indexed a.start a.entries)
      (n := i) (by show 0 < i; omega) (p.map unpack)
    rw [List.zipIdx_map, List.foldl_map, List.foldl_map] at hcons
    rw [h.logs]
    exact hcons.trans (congrArg _ hfold)
  have hfirst : ∀ l : List LogEntry, l ≠ [] →
      (((0, placeholder) :: indexed a.start l).find? fun x => 0 < x.1).map Prod.fst =
        some a.start := by
    intro l hl
    obtain ⟨e, l, rfl⟩ := List.exists_cons_of_ne_nil hl
    simp [indexed, Nat.lt_of_succ_le hpos]
  have hstart : (st.applyPack i p).startIdx =
      ((((p.zipIdx i).foldl (fun m e => put e.2 (unpack e.1) m) st.logs).find?
        fun x => 0 < x.1).map Prod.fst).getD 1 := rfl
  refine ⟨hpos, ?_, hlogs⟩
  rw [hstart, hlogs, hfirst _ (by simp [splice, hp])]
  rfl

end Represents

/-! ## Compacted logs -/

/-- The store is that of the log `l`, compacted below `startIdx`. -/
structure Holds (st : LogStore) (l : List LogEntry) : Prop where
  start : 1 ≤ st.startIdx
  le : st.startIdx ≤ l.length + 1
  logs : st.logs = (0, placeholder) :: indexed st.startIdx (l.drop (st.startIdx - 1))

/-- What compaction has left of the log `l`. -/
def rest (s : Nat) (l : List LogEntry) : OffsetList := ⟨s, l.drop (s - 1)⟩

namespace Holds

variable {st : LogStore} {l : List LogEntry} {e : LogEntry} {i : Nat}

theorem represents (h : Holds st l) : Represents st (rest st.startIdx l) := ⟨h.start, rfl, h.logs⟩

theorem of_represents {a : OffsetList} (h : Represents st a) (hle : a.start ≤ l.length + 1)
    (ha : a.entries = l.drop (a.start - 1)) : Holds st l := by
  refine ⟨?_, ?_, ?_⟩
  · rw [h.start]
    exact h.pos
  · rw [h.start]
    exact hle
  · rw [h.start, h.logs, ha]

theorem next_rest (h : Holds st l) : (rest st.startIdx l).next = l.length + 1 := by
  have := h.start
  have := h.le
  simp only [rest, OffsetList.next, List.length_drop]
  omega

theorem empty : Holds .empty [] := ⟨le_rfl, le_rfl, rfl⟩

theorem nextSlot (h : Holds st l) : st.nextSlot = l.length + 1 :=
  h.represents.nextSlot.trans h.next_rest

/-- What the map has under an index of the log. -/
theorem lookup (h : Holds st l) (hi : 1 ≤ i) :
    st.logs.lookup i = if st.startIdx ≤ i then l[i - 1]? else none := by
  have hs := h.start
  rw [h.represents.lookup hi, OffsetList.get?, rest]
  split
  next hle =>
    change st.startIdx ≤ i at hle
    rw [List.getElem?_drop]
    congr 1
    show st.startIdx - 1 + (i - st.startIdx) = i - 1
    omega
  next => rfl

theorem entryAt (h : Holds st l) (hi : st.startIdx ≤ i) (he : l[i - 1]? = some e) :
    st.entryAt i = e := by
  rw [LogStore.entryAt, h.lookup (h.start.trans hi), if_pos hi, he, Option.getD_some]

/-- The log has `e` at `i`, and it has not been compacted. -/
theorem at_iff (h : Holds st l) :
    st.At i e ↔ st.startIdx ≤ i ∧ l[i - 1]? = some e := by
  have hs := h.start
  constructor
  · rintro ⟨hi, he⟩
    rw [h.lookup hi] at he
    split at he
    next hle => exact ⟨hle, he⟩
    next => cases he
  · rintro ⟨hle, he⟩
    refine ⟨hs.trans hle, ?_⟩
    rw [h.lookup (hs.trans hle), if_pos hle, he]

theorem append (h : Holds st l) (e : LogEntry) : Holds (st.append e) (l ++ [e]) := by
  have hle := h.le
  refine of_represents (h.represents.append e) ?_ ?_
  · rw [List.length_append]
    exact hle.trans (Nat.le_succ _)
  · show l.drop (st.startIdx - 1) ++ [e] = (l ++ [e]).drop (st.startIdx - 1)
    rw [List.drop_append_of_le_length (by omega)]

theorem writeAt (h : Holds st l) (hi : st.startIdx ≤ i + 1) (hle : i ≤ l.length) (e : LogEntry) :
    Holds (st.writeAt (i + 1) e) (l.take i ++ [e]) := by
  have hs := h.start
  have hlen : (l.take i).length = i := by rw [List.length_take, Nat.min_eq_left hle]
  refine of_represents (h.represents.writeAt hi (h.next_rest ▸ Nat.succ_le_succ hle) e) ?_ ?_
  · rw [List.length_append, hlen]
    exact hi.trans (Nat.le_succ _)
  · show (l.drop (st.startIdx - 1)).take (i + 1 - st.startIdx) ++ [e] =
      (l.take i ++ [e]).drop (st.startIdx - 1)
    rw [List.drop_append_of_le_length (by omega), List.drop_take]
    congr 2
    omega

theorem compact (h : Holds st l) (hi : st.startIdx ≤ i + 1) (hle : i ≤ l.length) :
    Holds (st.compact i) l := by
  have hs := h.start
  refine of_represents (h.represents.compact hi) (Nat.succ_le_succ hle) ?_
  show (l.drop (st.startIdx - 1)).drop (i + 1 - st.startIdx) = l.drop (i + 1 - 1)
  rw [List.drop_drop]
  congr 1
  omega

theorem logEntries (h : Holds st l) {a b : Nat} (ha : st.startIdx ≤ a) (hb : b ≤ l.length + 1)
    {es : List LogEntry} (hes : st.logEntries a b = some es) :
    a ≤ b ∧ es = (l.drop (a - 1)).take (b - a) := by
  have hs := h.start
  have hab : a ≤ b := by
    unfold LogStore.logEntries at hes
    split at hes
    · cases hes
    next hab => exact Nat.le_of_not_lt hab
  rw [h.represents.logEntries ha hab (h.next_rest ▸ hb)] at hes
  cases hes
  refine ⟨hab, ?_⟩
  show ((l.drop (st.startIdx - 1)).drop (a - st.startIdx)).take (b - a) = _
  rw [List.drop_drop]
  congr 2
  omega

/-- A pack is a piece of the log. -/
theorem pack_isPrefix (h : Holds st l) (hi : 1 ≤ i) {c : Int}
    {p : List (Nat × LogValType × Payload)} (hp : st.pack i c = some p) :
    p.map unpack <+: l.drop (i - 1) := by
  unfold LogStore.pack at hp
  split at hp
  · cases hp
  generalize c.toNat = n at hp
  induction n generalizing i p with
  | zero =>
    cases hp
    exact List.nil_prefix
  | succ n ih =>
    rw [List.range'_succ, List.mapM_cons] at hp
    obtain ⟨x, hx, hp⟩ := Option.bind_eq_some_iff.1 hp
    obtain ⟨xs, hxs, hp⟩ := Option.bind_eq_some_iff.1 hp
    cases hp
    obtain ⟨e, he, rfl⟩ := Option.map_eq_some_iff.1 hx
    have hget : l[i - 1]? = some e := by
      rw [h.lookup hi] at he
      split at he
      · exact he
      · cases he
    obtain ⟨hlt, hget⟩ := List.getElem?_eq_some_iff.1 hget
    rw [List.drop_eq_getElem_cons hlt, hget, Nat.sub_add_cancel hi]
    exact List.cons_prefix_cons.2 ⟨rfl, ih (Nat.le_succ_of_le hi) hxs⟩

/-- A pack that fits replaces the entries under its indices. -/
theorem applyPack (h : Holds st l) (hi : st.startIdx ≤ i) (hle : i ≤ st.nextSlot)
    {p : List (Nat × LogValType × Payload)} (hp : p ≠ []) :
    Holds (st.applyPack i p) (splice l (i - 1) (p.map unpack)) := by
  have hs := h.start
  have hslot := h.nextSlot
  have hn : i - 1 ≤ l.length := by omega
  refine of_represents (h.represents.applyPack hi (h.next_rest.symm ▸ hslot ▸ hle) hp) ?_ ?_
  · show st.startIdx ≤ _
    rw [length_splice hn]
    exact h.le.trans (Nat.succ_le_succ (Nat.le_max_left _ _))
  · show splice (l.drop (st.startIdx - 1)) (i - st.startIdx) _ = _
    rw [show (OffsetList.overwrite _ _ _).start = st.startIdx from rfl,
      drop_splice (by omega) hn]
    congr 1
    omega

end Holds

end LogStore

end EnclaveRaft
