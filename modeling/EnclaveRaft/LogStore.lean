import EnclaveRaft.Lib.OrderedMap
import EnclaveRaft.Types

/-!
# The in-memory log store

`in_memory_log_store` keeps an ordered map from index to entry, with a placeholder entry of term
zero under key 0, and computes the next free index from the size of the map. The map is a list
sorted by key here.
-/

namespace EnclaveRaft

open OrderedMap

structure LogStore where
  startIdx : Nat
  logs : List (Nat × LogEntry)

namespace LogStore

/-- The entry under key 0. -/
def placeholder : LogEntry := ⟨0, .appLog, .bytes (List.replicate 8 0)⟩

def empty : LogStore := ⟨1, [(0, placeholder)]⟩

def nextSlot (st : LogStore) : Nat := st.startIdx + st.logs.length - 1

/-- The entry at an index, or the placeholder when there is none. -/
def entryAt (st : LogStore) (index : Nat) : LogEntry :=
  (st.logs.lookup index).getD ((st.logs.lookup 0).getD placeholder)

def termAt (st : LogStore) (index : Nat) : Nat := (st.entryAt index).term

def lastEntry (st : LogStore) : LogEntry := st.entryAt (usub st.nextSlot 1)

def append (st : LogStore) (entry : LogEntry) : LogStore :=
  { st with logs := put st.nextSlot entry st.logs }

/-- Write an entry, dropping every entry from its index on. -/
def writeAt (st : LogStore) (index : Nat) (entry : LogEntry) : LogStore :=
  { st with logs := put index entry (st.logs.filter fun p => p.1 < index) }

/-- The entries of `[start, stop)`. Reserving a negative range throws. -/
def logEntries (st : LogStore) (start stop : Nat) : Option (List LogEntry) :=
  if stop < start then none else some ((List.range' start (stop - start)).map st.entryAt)

/-- The entries of `[index, index + cnt)`. An entry that is missing is a null pointer. -/
def pack (st : LogStore) (index : Nat) (cnt : Int) :
    Option (List (Nat × LogValType × Payload)) :=
  if cnt < 0 then none
  else (List.range' index cnt.toNat).mapM fun i =>
    (st.logs.lookup i).map fun e => (e.term, e.valType, e.buf)

/-- Store the entries of a pack from `index` on, and take the first key above 0 as the start. -/
def applyPack (st : LogStore) (index : Nat) (entries : List (Nat × LogValType × Payload)) :
    LogStore :=
  let logs := (entries.zipIdx index).foldl (fun m e => put e.2 ⟨e.1.1, e.1.2.1, e.1.2.2⟩ m) st.logs
  { startIdx := ((logs.find? fun p => 0 < p.1).map Prod.fst).getD 1, logs := logs }

/-- Drop the entries up to `lastLogIndex`. -/
def compact (st : LogStore) (lastLogIndex : Nat) : LogStore where
  startIdx := lastLogIndex + 1
  logs := st.logs.filter fun p => ¬(st.startIdx ≤ p.1 ∧ p.1 ≤ lastLogIndex)

/-- The log has the entry `e` at an index. -/
def At (st : LogStore) (index : Nat) (e : LogEntry) : Prop :=
  1 ≤ index ∧ st.logs.lookup index = some e

theorem at_entryAt {st : LogStore} {index : Nat} (h : 1 ≤ index ∧ (st.logs.lookup index).isSome) :
    st.At index (st.entryAt index) := by
  obtain ⟨e, he⟩ := Option.isSome_iff_exists.1 h.2
  refine ⟨h.1, ?_⟩
  rw [entryAt, he, Option.getD_some]

/-! ## What every entry satisfies -/

/-- Every entry of the store satisfies `P`. -/
def All (P : LogEntry → Prop) (st : LogStore) : Prop := ∀ p ∈ st.logs, P p.2

namespace All

variable {P : LogEntry → Prop} {st : LogStore}

theorem append (h : st.All P) {e : LogEntry} (he : P e) : (st.append e).All P := by
  intro p hp
  rcases mem_put hp with rfl | hp
  · exact he
  · exact h p hp

theorem writeAt (h : st.All P) (idx : Nat) {e : LogEntry} (he : P e) :
    (st.writeAt idx e).All P := by
  intro p hp
  rcases mem_put hp with rfl | hp
  · exact he
  · exact h p (List.mem_of_mem_filter hp)

theorem compact (h : st.All P) (idx : Nat) : (st.compact idx).All P :=
  fun p hp => h p (List.mem_of_mem_filter hp)

theorem lookup (h : st.All P) {k : Nat} {e : LogEntry} (hl : st.logs.lookup k = some e) : P e := by
  unfold All at h
  generalize st.logs = l at h hl
  induction l with
  | nil => cases hl
  | cons q l ih =>
    rw [List.lookup_cons] at hl
    split at hl
    · cases hl; exact h q List.mem_cons_self
    · exact ih (fun p hp => h p (List.mem_cons_of_mem _ hp)) hl

theorem entryAt (h : st.All P) (h0 : P placeholder) (idx : Nat) : P (st.entryAt idx) := by
  unfold LogStore.entryAt
  cases hl : st.logs.lookup idx with
  | some e => exact h.lookup hl
  | none =>
    cases hl0 : st.logs.lookup 0 with
    | some e => exact h.lookup hl0
    | none => exact h0

theorem logEntries (h : st.All P) (h0 : P placeholder) {start stop : Nat} {es : List LogEntry}
    (hes : st.logEntries start stop = some es) : ∀ e ∈ es, P e := by
  unfold LogStore.logEntries at hes
  split at hes
  · cases hes
  · cases hes
    intro e he
    obtain ⟨i, -, rfl⟩ := List.mem_map.1 he
    exact h.entryAt h0 i

end All

end LogStore

end EnclaveRaft
