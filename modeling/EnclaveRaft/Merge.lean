import EnclaveRaft.OffsetList
import EnclaveRaft.Steps

/-!
# What an append request writes

On a store of consecutive entries, `writeEntries` keeps the entries below the first index where the
request says something new, and puts the request's entries in place of all that follows. Of the
entries that go, it reverts the first one only.
-/

namespace EnclaveRaft

open LogStore

/-- The entries `es` in place of those from `idx` on, if there are any. -/
def OffsetList.merge (a : OffsetList) (idx : Nat) : List LogEntry → OffsetList
  | [] => a
  | e :: es => { a with entries := a.entries.take (idx - a.start) ++ (e :: es) }

theorem OffsetList.merge_nil (a : OffsetList) (idx : Nat) : a.merge idx [] = a := rfl

theorem OffsetList.get?_merge {a : OffsetList} {idx i : Nat} (hstart : a.start ≤ idx)
    (hle : idx ≤ a.next) {es : List LogEntry} (hes : es ≠ []) :
    (a.merge idx es).get? i = if i < idx then a.get? i else es[i - idx]? := by
  rw [next] at hle
  obtain ⟨e, es, rfl⟩ := List.exists_cons_of_ne_nil hes
  have htake : (a.entries.take (idx - a.start)).length = idx - a.start := by
    rw [List.length_take, Nat.min_eq_left (by omega)]
  unfold get? merge
  dsimp only
  by_cases hs : a.start ≤ i
  · rw [if_pos hs, if_pos hs]
    by_cases hlt : i < idx
    · rw [if_pos hlt, List.getElem?_append_left (by omega), List.getElem?_take_of_lt (by omega)]
    · rw [if_neg hlt, List.getElem?_append_right (by omega), htake]
      congr 1
      omega
  · rw [if_neg hs, if_neg hs, if_pos (by omega)]

theorem OffsetList.next_merge {a : OffsetList} {idx : Nat} (hstart : a.start ≤ idx)
    (hle : idx ≤ a.next) {es : List LogEntry} (hes : es ≠ []) :
    (a.merge idx es).next = idx + es.length := by
  obtain ⟨e, es, rfl⟩ := List.exists_cons_of_ne_nil hes
  rw [next] at hle
  simp only [merge, next, List.length_append, List.length_take]
  omega

/-- The calls for entries that are written from `idx` on. -/
def notesFrom : Nat → List LogEntry → List Effect
  | _, [] => []
  | idx, e :: es => noteOut idx e ++ notesFrom (idx + 1) es

theorem skipMatching_bounds {st : LogStore} {idx : Nat} (h : idx ≤ st.nextSlot)
    (es : List LogEntry) :
    idx ≤ (skipMatching st idx es).1 ∧ (skipMatching st idx es).1 ≤ st.nextSlot := by
  induction es generalizing idx with
  | nil => exact ⟨le_rfl, h⟩
  | cons e es ih =>
    unfold skipMatching
    split
    next hlt =>
      have hle : idx + 1 ≤ st.nextSlot := hlt.1
      exact ⟨(Nat.le_succ idx).trans (ih hle).1, (ih hle).2⟩
    next => exact ⟨le_rfl, h⟩

theorem overwritten_of_le {st : LogStore} {idx : Nat} (h : st.nextSlot ≤ idx)
    (es : List LogEntry) : overwritten st idx es = (st, es) := by
  cases es with
  | nil => rfl
  | cons e es => exact if_neg h.not_gt

theorem overwrittenOut_of_le {st : LogStore} {idx : Nat} (h : st.nextSlot ≤ idx)
    (es : List LogEntry) : overwrittenOut st idx es = [] := by
  cases es with
  | nil => rfl
  | cons e es => exact if_neg h.not_gt

theorem overwrittenFlag_of_le {st : LogStore} {idx : Nat} (h : st.nextSlot ≤ idx)
    (es : List LogEntry) (b : Bool) : overwrittenFlag st idx es b = b := by
  cases es with
  | nil => rfl
  | cons e es => exact if_neg h.not_gt

theorem overwritten_startIdx (st : LogStore) (idx : Nat) (es : List LogEntry) :
    (overwritten st idx es).1.startIdx = st.startIdx := by
  induction es generalizing st idx with
  | nil => rfl
  | cons e es ih =>
    unfold overwritten
    split
    · exact ih _ _
    · rfl

theorem written_startIdx (st : LogStore) (idx : Nat) (es : List LogEntry) :
    (written st idx es).startIdx = st.startIdx := by
  have hfold : ∀ (es : List LogEntry) (st : LogStore),
      (es.foldl LogStore.append st).startIdx = st.startIdx := by
    intro es
    induction es with
    | nil => intro st; rfl
    | cons e es ih => intro st; exact ih _
  exact (hfold _ _).trans (overwritten_startIdx _ _ _)

namespace LogStore.Represents

variable {st : LogStore} {a : OffsetList} {k : Nat}

theorem foldl_append (h : Represents st a) (es : List LogEntry) :
    Represents (es.foldl LogStore.append st) { a with entries := a.entries ++ es } := by
  induction es generalizing st a with
  | nil => simpa using h
  | cons e es ih => simpa [OffsetList.append] using ih (h.append e)

theorem appendedOut (h : Represents st a) (es : List LogEntry) :
    appendedOut st es = notesFrom a.next es := by
  induction es generalizing st a with
  | nil => rfl
  | cons e es ih =>
    rw [EnclaveRaft.appendedOut, ih (h.append e), OffsetList.next_append, h.nextSlot]
    rfl

theorem next_writeAt {i : Nat} (hi : a.start ≤ i) (hlt : i ≤ a.next) (e : LogEntry) :
    (a.writeAt i e).next = i + 1 := by
  rw [OffsetList.next] at hlt
  simp only [OffsetList.writeAt, OffsetList.next, List.length_append, List.length_take,
    List.length_singleton]
  omega

/-- **Append requests.** What is written, called and flagged when a request goes on from an index
of the log. -/
theorem written (h : Represents st a) (hstart : a.start ≤ k + 1) (hk : k < a.next)
    (es : List LogEntry) (b : Bool) :
    let idx := (skipMatching st (k + 1) es).1
    let new := (skipMatching st (k + 1) es).2
    Represents (written st k es) (a.merge idx new) ∧
      writtenOut st k es = (if new ≠ [] ∧ idx < a.next then revertOut idx (a.entryAt idx) else []) ++
        notesFrom idx new ∧
      writtenFlag st k es b = new.foldl noteFlag
        (if new ≠ [] ∧ idx < a.next then revertFlag b (a.entryAt idx) else b) := by
  intro idx new
  have hbounds : k + 1 ≤ idx ∧ idx ≤ a.next := by
    rw [← h.nextSlot] at hk ⊢
    exact skipMatching_bounds hk es
  have hidx : a.start ≤ idx := hstart.trans hbounds.1
  rw [EnclaveRaft.written, EnclaveRaft.writtenOut, EnclaveRaft.writtenFlag]
  change Represents ((overwritten st idx new).2.foldl LogStore.append (overwritten st idx new).1) _ ∧
    overwrittenOut st idx new ++ EnclaveRaft.appendedOut (overwritten st idx new).1
      (overwritten st idx new).2 = _ ∧
    (overwritten st idx new).2.foldl noteFlag (overwrittenFlag st idx new b) = _
  cases hnew : new with
  | nil => exact ⟨h, rfl, rfl⟩
  | cons e rest =>
    by_cases hlt : idx < a.next
    · -- the first entry that differs cuts the store off behind it
      have hcut := h.writeAt hidx hbounds.2 e
      have hnext := next_writeAt hidx hbounds.2 e
      have hend : (st.writeAt idx e).nextSlot ≤ idx + 1 := by rw [hcut.nextSlot, hnext]
      have hold : idx < st.nextSlot := h.nextSlot ▸ hlt
      rw [overwritten, if_pos hold, overwritten_of_le hend, overwrittenOut, if_pos hold,
        overwrittenOut_of_le hend, overwrittenFlag, if_pos hold, overwrittenFlag_of_le hend,
        if_pos ⟨by simp, hlt⟩, if_pos ⟨by simp, hlt⟩, h.entryAt, hcut.appendedOut, hnext]
      refine ⟨?_, ?_, rfl⟩
      · simpa [OffsetList.merge, OffsetList.writeAt] using hcut.foldl_append rest
      · simp [notesFrom]
    · have hend : st.nextSlot ≤ idx := by rw [h.nextSlot]; omega
      have heq : idx = a.next := by omega
      have hfull : a.entries.take (idx - a.start) = a.entries := by
        refine List.take_of_length_le ?_
        rw [heq, OffsetList.next]
        omega
      rw [overwritten_of_le hend, overwrittenOut_of_le hend, overwrittenFlag_of_le hend,
        if_neg fun h => hlt h.2, if_neg fun h => hlt h.2, h.appendedOut, ← heq]
      refine ⟨?_, rfl, rfl⟩
      rw [OffsetList.merge, hfull]
      exact h.foldl_append (e :: rest)

end LogStore.Represents

/-! ## Entries of a kind -/

/-- The store has an entry of type `q` under an index that satisfies `P`. -/
def LogStore.Has (st : LogStore) (P : Nat → Prop) (q : LogValType) : Prop :=
  ∃ p ∈ st.logs, P p.1 ∧ p.2.valType = q

instance (st : LogStore) (P : Nat → Prop) [DecidablePred P] (q : LogValType) :
    Decidable (st.Has P q) :=
  inferInstanceAs (Decidable (∃ p ∈ st.logs, P p.1 ∧ p.2.valType = q))

namespace LogStore.Represents

variable {st : LogStore} {a : OffsetList} {P : Nat → Prop} {q : LogValType} {idx k : Nat}

theorem has (h : Represents st a) (h0 : ¬P 0) :
    st.Has P q ↔ ∃ i e, a.get? i = some e ∧ P i ∧ e.valType = q := by
  have hget : ∀ i e, a.get? i = some e ↔ a.start ≤ i ∧ a.entries[i - a.start]? = some e := by
    intro i e
    unfold OffsetList.get?
    split <;> simp [*]
  unfold LogStore.Has
  rw [h.logs]
  constructor
  · rintro ⟨p, hp, hP, hq⟩
    rcases List.mem_cons.1 hp with rfl | hp
    · exact (h0 hP).elim
    · exact ⟨p.1, p.2, (hget _ _).2 (OrderedMap.mem_indexed.1 hp), hP, hq⟩
  · rintro ⟨i, e, he, hP, hq⟩
    exact ⟨(i, e), List.mem_cons_of_mem _ (OrderedMap.mem_indexed.2 ((hget i e).1 he)), hP, hq⟩

/-- Entries below an index, at it and above it. -/
theorem has_split (h : Represents st a) (h0 : ¬P 0) (hstart : a.start ≤ idx) (hlt : idx < a.next) :
    st.Has P q ↔ st.Has (fun i => i < idx ∧ P i) q ∨ (P idx ∧ (st.entryAt idx).valType = q) ∨
      st.Has (fun i => idx < i ∧ P i) q := by
  obtain ⟨e, he⟩ := Option.isSome_iff_exists.1 (OffsetList.get?_isSome.2 ⟨hstart, hlt⟩)
  have hentry : st.entryAt idx = e := by rw [h.entryAt, OffsetList.entryAt, he, Option.getD_some]
  rw [h.has h0, h.has (fun h => h0 h.2), h.has (fun h => h0 h.2), hentry]
  constructor
  · rintro ⟨i, e', he', hP, hq⟩
    rcases Nat.lt_trichotomy i idx with hi | rfl | hi
    · exact .inl ⟨i, e', he', ⟨hi, hP⟩, hq⟩
    · cases he.symm.trans he'
      exact .inr (.inl ⟨hP, hq⟩)
    · exact .inr (.inr ⟨i, e', he', ⟨hi, hP⟩, hq⟩)
  · rintro (⟨i, e', he', ⟨-, hP⟩, hq⟩ | ⟨hP, hq⟩ | ⟨i, e', he', ⟨-, hP⟩, hq⟩)
    · exact ⟨i, e', he', hP, hq⟩
    · exact ⟨idx, e, he, hP, hq⟩
    · exact ⟨i, e', he', hP, hq⟩

/-- Only what holds of the indices of the list matters. -/
theorem has_congr {Q : Nat → Prop} (h : Represents st a) (h0 : ¬P 0) (h0' : ¬Q 0)
    (hPQ : ∀ i, a.start ≤ i → i < a.next → (P i ↔ Q i)) : st.Has P q ↔ st.Has Q q := by
  rw [h.has h0, h.has h0']
  refine exists_congr fun i => exists_congr fun e => and_congr_right fun he => ?_
  have hi := OffsetList.get?_isSome.1 (Option.isSome_iff_exists.2 ⟨e, he⟩)
  rw [hPQ i hi.1 hi.2]

theorem has_append (h : Represents st a) (h0 : ¬P 0) (e : LogEntry) :
    (st.append e).Has P q ↔ st.Has P q ∨ (P st.nextSlot ∧ e.valType = q) := by
  rw [(h.append e).has h0, h.has h0, h.nextSlot]
  simp only [OffsetList.get?_append]
  constructor
  · rintro ⟨i, e', he', hP, hq⟩
    split at he'
    · exact .inl ⟨i, e', he', hP, hq⟩
    · split at he'
      next heq => cases he'; exact .inr ⟨heq ▸ hP, hq⟩
      next => cases he'
  · rintro (⟨i, e', he', hP, hq⟩ | ⟨hP, hq⟩)
    · have hlt : i < a.next := (OffsetList.get?_isSome.1 (Option.isSome_iff_exists.2 ⟨e', he'⟩)).2
      exact ⟨i, e', by rw [if_pos hlt]; exact he', hP, hq⟩
    · exact ⟨a.next, e, by simp, hP, hq⟩

theorem has_compact (h : Represents st a) (h0 : ¬P 0) (hk : a.start ≤ k + 1) :
    (st.compact k).Has P q ↔ st.Has (fun i => k < i ∧ P i) q := by
  rw [(h.compact hk).has h0, h.has (by simp)]
  simp only [OffsetList.get?_compact hk]
  constructor
  · rintro ⟨i, e, he, hP, hq⟩
    split at he
    next hlt => exact ⟨i, e, he, ⟨hlt, hP⟩, hq⟩
    next => cases he
  · rintro ⟨i, e, he, ⟨hlt, hP⟩, hq⟩
    exact ⟨i, e, by rw [if_pos hlt]; exact he, hP, hq⟩

/-- The entries of a request that are written take the place of all that follows. -/
theorem has_merge {st' : LogStore} (h : Represents st a) {new : List LogEntry}
    (h' : Represents st' (a.merge idx new)) (h0 : ¬P 0) (hstart : a.start ≤ idx)
    (hle : idx ≤ a.next) (hnew : new ≠ []) :
    st'.Has P q ↔ st.Has (fun i => i < idx ∧ P i) q ∨
      ∃ n e, new[n]? = some e ∧ P (idx + n) ∧ e.valType = q := by
  rw [h'.has h0, h.has (fun h => h0 h.2)]
  simp only [OffsetList.get?_merge hstart hle hnew]
  constructor
  · rintro ⟨i, e, he, hP, hq⟩
    split at he
    next hlt => exact .inl ⟨i, e, he, ⟨hlt, hP⟩, hq⟩
    next hge => exact .inr ⟨i - idx, e, he, by rwa [Nat.add_sub_cancel' (by omega)], hq⟩
  · rintro (⟨i, e, he, ⟨hlt, hP⟩, hq⟩ | ⟨n, e, he, hP, hq⟩)
    · exact ⟨i, e, by rw [if_pos hlt]; exact he, hP, hq⟩
    · refine ⟨idx + n, e, ?_, hP, hq⟩
      rw [if_neg (by omega), Nat.add_sub_cancel_left]
      exact he

theorem has_applyPack (h : Represents st a) (h0 : ¬P 0) (hstart : a.start ≤ idx)
    (hle : idx ≤ a.next) {es : List (Nat × LogValType × Payload)} (hes : es ≠ []) :
    (st.applyPack idx es).Has P q ↔
      st.Has (fun i => ¬(idx ≤ i ∧ i < idx + es.length) ∧ P i) q ∨
        ∃ n e, es[n]? = some e ∧ P (idx + n) ∧ e.2.1 = q := by
  rw [(h.applyPack hstart hle hes).has h0, h.has (fun h => h0 h.2)]
  simp only [OffsetList.get?_overwrite hstart hle, List.length_map, List.getElem?_map]
  constructor
  · rintro ⟨i, e, he, hP, hq⟩
    split at he
    next hin =>
      obtain ⟨x, hx, rfl⟩ := Option.map_eq_some_iff.1 he
      exact .inr ⟨i - idx, x, hx, by rwa [Nat.add_sub_cancel' hin.1], hq⟩
    next hout => exact .inl ⟨i, e, he, ⟨hout, hP⟩, hq⟩
  · rintro (⟨i, e, he, ⟨hout, hP⟩, hq⟩ | ⟨n, e, he, hP, hq⟩)
    · exact ⟨i, e, by rw [if_neg hout]; exact he, hP, hq⟩
    · have hlt := (List.getElem?_eq_some_iff.1 he).1
      refine ⟨idx + n, unpack e, ?_, hP, hq⟩
      rw [if_pos (by omega), Nat.add_sub_cancel_left, he]
      rfl

end LogStore.Represents

end EnclaveRaft
