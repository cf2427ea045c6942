import EnclaveRaft.OffsetList

/-!
# Sequences of calls to the log store

`in_memory_log_store` computes indices on `ulong`, so `next_slot` wraps around when the index after
the last entry is `2 ^ 64`. Compaction alone can bring the start of the list there in one call. As
long as no call does so, every sequence of calls on a new store does what it does on offset lists.
-/

namespace EnclaveRaft

namespace LogStore

/-! ## The operations on `ulong` -/

/-- `next_slot()`. -/
def nextSlot64 (st : LogStore) : Nat := (st.startIdx + st.logs.length - 1) % 2 ^ 64

/-- `last_entry()`. -/
def lastEntry64 (st : LogStore) : LogEntry := st.entryAt (usub st.nextSlot64 1)

/-- `append`. -/
def append64 (st : LogStore) (entry : LogEntry) : LogStore :=
  { st with logs := OrderedMap.put st.nextSlot64 entry st.logs }

/-- `apply_pack`: the loop does not run at all when its bound wraps around. -/
def applyPack64 (st : LogStore) (index : Nat) (entries : List (Nat × LogValType × Payload)) :
    LogStore :=
  st.applyPack index (if index < (index + entries.length) % 2 ^ 64 then entries else [])

/-- `compact`. -/
def compact64 (st : LogStore) (lastLogIndex : Nat) : LogStore :=
  { st.compact lastLogIndex with startIdx := usucc lastLogIndex }

theorem nextSlot64_eq {st : LogStore} {a : OffsetList} (h : Represents st a)
    (hroom : a.next < 2 ^ 64) : st.nextSlot64 = a.next := by
  rw [← h.nextSlot] at hroom ⊢
  exact Nat.mod_eq_of_lt hroom

end LogStore

/-! ## Calls -/

/-- A call that changes the store. -/
inductive StoreCall
  | append (entry : LogEntry)
  | writeAt (index : Nat) (entry : LogEntry)
  | applyPack (index : Nat) (entries : List (Nat × LogValType × Payload))
  | compact (lastLogIndex : Nat)

namespace StoreCall

open LogStore

/-- What the call does to the store. -/
def run (st : LogStore) : StoreCall → LogStore
  | append e => st.append64 e
  | writeAt i e => st.writeAt i e
  | applyPack i es => st.applyPack64 i es
  | compact k => st.compact64 k

/-- What the call means. -/
def spec (a : OffsetList) : StoreCall → OffsetList
  | append e => a.append e
  | writeAt i e => a.writeAt i e
  | applyPack i es => a.overwrite i (es.map unpack)
  | compact k => a.compact k

/-- The arguments are in range. -/
def InRange (st : LogStore) : StoreCall → Prop
  | append _ => True
  | writeAt i _ => st.startIdx ≤ i ∧ i < st.nextSlot64
  | applyPack i es => st.startIdx ≤ i ∧ i ≤ st.nextSlot64 ∧ es ≠ []
  | compact k => st.startIdx - 1 ≤ k ∧ k < 2 ^ 64 - 1

/-- The index after the last entry stays below `2 ^ 64`. -/
def HasRoom (st : LogStore) : StoreCall → Prop
  | append _ => st.nextSlot64 + 1 < 2 ^ 64
  | applyPack i es => i + es.length < 2 ^ 64
  | _ => True

instance (st : LogStore) : (c : StoreCall) → Decidable (c.InRange st)
  | append _ => inferInstanceAs (Decidable True)
  | writeAt i _ => inferInstanceAs (Decidable (st.startIdx ≤ i ∧ i < st.nextSlot64))
  | applyPack i es => inferInstanceAs (Decidable (st.startIdx ≤ i ∧ i ≤ st.nextSlot64 ∧ es ≠ []))
  | compact k => inferInstanceAs (Decidable (st.startIdx - 1 ≤ k ∧ k < 2 ^ 64 - 1))

instance (st : LogStore) : (c : StoreCall) → Decidable (c.HasRoom st)
  | append _ => inferInstanceAs (Decidable (st.nextSlot64 + 1 < 2 ^ 64))
  | applyPack i es => inferInstanceAs (Decidable (i + es.length < 2 ^ 64))
  | writeAt _ _ | compact _ => inferInstanceAs (Decidable True)

/-- All calls of a sequence meet a condition when it is their turn. -/
def Each (C : LogStore → StoreCall → Prop) : LogStore → List StoreCall → Prop
  | _, [] => True
  | st, c :: cs => C st c ∧ Each C (c.run st) cs

instance instDecidableEach (C : LogStore → StoreCall → Prop) [∀ st c, Decidable (C st c)] :
    (st : LogStore) → (cs : List StoreCall) → Decidable (Each C st cs)
  | _, [] => inferInstanceAs (Decidable True)
  | st, c :: cs =>
    have := instDecidableEach C (c.run st) cs
    inferInstanceAs (Decidable (C st c ∧ Each C (c.run st) cs))

/-- **One call.** -/
theorem run_represents {st : LogStore} {a : OffsetList} {c : StoreCall} (h : Represents st a)
    (hroom : a.next < 2 ^ 64) (hrange : c.InRange st) (hc : c.HasRoom st) :
    Represents (c.run st) (c.spec a) ∧ (c.spec a).next < 2 ^ 64 := by
  have hnext := nextSlot64_eq h hroom
  have hpos := h.pos
  have hstart := h.start
  cases c with
  | append e =>
    change st.nextSlot64 + 1 < 2 ^ 64 at hc
    have heq : st.append64 e = st.append e := by
      rw [append64, LogStore.append, hnext, h.nextSlot]
    refine ⟨?_, ?_⟩
    · show Represents (st.append64 e) (a.append e)
      rw [heq]
      exact h.append e
    · simp only [spec, OffsetList.append, OffsetList.next, List.length_append,
        List.length_singleton] at hnext ⊢
      omega
  | writeAt i e =>
    obtain ⟨hi, hlt⟩ := hrange
    rw [hnext] at hlt
    refine ⟨h.writeAt (hstart ▸ hi) hlt.le e, ?_⟩
    simp only [spec, OffsetList.writeAt, OffsetList.next, List.length_append, List.length_take,
      List.length_singleton] at hlt hroom ⊢
    omega
  | applyPack i es =>
    obtain ⟨hi, hle, hne⟩ := hrange
    change i + es.length < 2 ^ 64 at hc
    rw [hnext] at hle
    have hlen := List.length_pos_of_ne_nil hne
    have heq : st.applyPack64 i es = st.applyPack i es := by
      rw [applyPack64, Nat.mod_eq_of_lt hc, if_pos (by omega)]
    have hi : a.start ≤ i := hstart ▸ hi
    refine ⟨?_, ?_⟩
    · show Represents (st.applyPack64 i es) _
      rw [heq]
      exact h.applyPack hi hle hne
    · rw [OffsetList.next] at hle hroom
      simp only [spec, OffsetList.overwrite, OffsetList.next]
      rw [OrderedMap.length_splice (by omega), List.length_map]
      omega
  | compact k =>
    obtain ⟨hi, hk⟩ := hrange
    have heq : st.compact64 k = st.compact k := by
      unfold compact64 usucc
      rw [Nat.mod_eq_of_lt (by omega)]
      rfl
    refine ⟨?_, ?_⟩
    · show Represents (st.compact64 k) _
      rw [heq]
      exact h.compact (by omega)
    · simp only [spec, OffsetList.compact, OffsetList.next, List.length_drop] at hroom ⊢
      omega

/-- **Sequences of calls.** -/
theorem foldl_represents {cs : List StoreCall} {st : LogStore} {a : OffsetList}
    (h : Represents st a) (hroom : a.next < 2 ^ 64)
    (hcs : Each (fun st c => c.InRange st ∧ c.HasRoom st) st cs) :
    Represents (cs.foldl run st) (cs.foldl spec a) ∧ (cs.foldl spec a).next < 2 ^ 64 := by
  induction cs generalizing st a with
  | nil => exact ⟨h, hroom⟩
  | cons c cs ih =>
    obtain ⟨⟨hrange, hc⟩, hcs⟩ := hcs
    obtain ⟨h', hroom'⟩ := run_represents h hroom hrange hc
    exact ih h' hroom' hcs

end StoreCall

/-- **The log store is an offset list.** After any sequence of calls on a new store whose arguments
are in range and which never bring the index after the last entry to `2 ^ 64`, the keys of the map
are 0 and the indices from `start_index()` up to `next_slot()`, and every query answers as the
offset list does. -/
theorem store_refines_list (cs : List StoreCall)
    (hcs : StoreCall.Each (fun st c => c.InRange st ∧ c.HasRoom st) .empty cs) :
    let st := cs.foldl StoreCall.run .empty
    let a := cs.foldl StoreCall.spec .new
    (∀ k, k ∈ st.logs.map Prod.fst ↔ k = 0 ∨ (st.startIdx ≤ k ∧ k < st.nextSlot64)) ∧
      st.nextSlot64 = a.next ∧ st.startIdx = a.start ∧ st.lastEntry64 = a.lastEntry ∧
      (∀ i, st.entryAt i = a.entryAt i ∧ st.termAt i = (a.entryAt i).term) ∧
      ∀ i j, a.start ≤ i → i ≤ j → j ≤ a.next → st.logEntries i j = some (a.slice i j) := by
  intro st a
  obtain ⟨h, hroom⟩ : st.Represents a ∧ a.next < 2 ^ 64 :=
    StoreCall.foldl_represents .new (by decide) hcs
  have hnext := LogStore.nextSlot64_eq h hroom
  refine ⟨fun k => ?_, hnext, h.start, ?_, fun i => ⟨h.entryAt i, ?_⟩,
    fun i j hi hij hj => h.logEntries hi hij hj⟩
  · rw [h.mem_keys, hnext, h.start]
  · have hpos : 1 ≤ a.next := h.pos.trans (Nat.le_add_right _ _)
    rw [LogStore.lastEntry64, hnext, usub_of_le hpos, h.lastEntry]
  · rw [LogStore.termAt, h.entryAt]

/-- Three entries, a pack over the last two and one more, a truncation and a compaction. -/
def someCalls (e : LogEntry) : List StoreCall :=
  [.append e, .append e, .append e, .applyPack 2 (List.replicate 3 (e.term, e.valType, e.buf)),
    .writeAt 3 e, .compact 1]

theorem store_refines_list_someCalls :
    ((someCalls LogStore.placeholder).foldl StoreCall.run .empty).nextSlot64 =
      ((someCalls LogStore.placeholder).foldl StoreCall.spec .new).next :=
  (store_refines_list (someCalls LogStore.placeholder) (by decide +kernel)).2.1

/-- A compaction to the last index but one leaves no room for an entry: `next_slot()` wraps
around. -/
theorem next_slot_wraps :
    let cs := [.compact (2 ^ 64 - 2), .append LogStore.placeholder]
    StoreCall.Each (fun st c => c.InRange st) .empty cs ∧
      (cs.foldl StoreCall.run .empty).nextSlot64 = 0 ∧
      (cs.foldl StoreCall.spec .new).next = 2 ^ 64 :=
  by decide +kernel

end EnclaveRaft
