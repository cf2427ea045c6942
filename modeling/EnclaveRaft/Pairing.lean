import EnclaveRaft.Intact

/-!
# Pre-commits, commits and rollbacks

The state machine is told three things about an entry of the application: that it has been written to
the log (`pre_commit`), that it is committed (`commit`), or that it goes away before that
(`rollback`). For one index the calls should alternate: first a pre-commit, then a commit or a
rollback of the same entry, then perhaps the pre-commit of another one.

An append request rolls back the first entry that it overwrites, but the log store drops all that
follow. Log packs and snapshots tell the state machine nothing. `Input.KeepsPairs` leaves out the
inputs where this matters.
-/

namespace EnclaveRaft

open Act Server LogStore

/-! ## The calls for one index -/

/-- The effect is a call of the state machine about the entry at `i`. -/
def Effect.Concerns (i : Nat) : Effect → Prop
  | preCommit j _ | rollback j _ | commit j _ => j = i
  | _ => False

/-- One more effect, given what is pre-committed at `i` and neither committed nor rolled back. -/
inductive Call (i : Nat) : Option Payload → Effect → Option Payload → Prop
  | preCommit (b : Payload) : Call i none (.preCommit i b) (some b)
  | rollback (b : Payload) : Call i (some b) (.rollback i b) none
  | commit (b : Payload) : Call i (some b) (.commit i b) none
  | other {p : Option Payload} {e : Effect} (h : ¬e.Concerns i) : Call i p e p

/-- The calls for index `i` alternate. -/
abbrev Pairs (i : Nat) : Option Payload → List Effect → Option Payload → Prop := Reads (Call i)

/-- What a log entry has for the state machine. -/
def LogEntry.app? (e : LogEntry) : Option Payload := if e.valType = .appLog then some e.buf else none

section Pairs

variable {i idx : Nat} {p q : Option Payload} {e : LogEntry} {o : List Effect} {b : Payload}

/-- What is pending has been pre-committed. -/
theorem Pairs.pending (h : Pairs i p o (some b)) : p = some b ∨ .preCommit i b ∈ o := by
  induction o generalizing p with
  | nil =>
    cases h
    exact .inl rfl
  | cons e o ih =>
    cases h with
    | cons hcall hrest =>
      rcases ih hrest with hq | hmem
      · subst hq
        cases hcall with
        | preCommit => exact .inr (List.mem_cons_self ..)
        | other => exact .inl rfl
      · exact .inr (List.mem_cons_of_mem _ hmem)

theorem Pairs.of_calls (h : Pairs i p (calls o) q) : Pairs i p o q := by
  refine h.of_filter fun p e he => .other fun hi => ?_
  cases e <;> first | exact hi | cases he

/-- A call that is made for application entries only. -/
theorem pairs_app {x : Effect} (hcall : idx = i → e.valType = .appLog → Call i p x q)
    (hsame : idx = i → e.valType ≠ .appLog → p = q) (hother : idx ≠ i → ¬x.Concerns i) :
    Pairs i p (if e.valType = .appLog then [x] else []) (if idx = i then q else p) := by
  by_cases hi : idx = i
  · rw [if_pos hi]
    split
    next happ => exact .single (hcall hi happ)
    next happ =>
      rw [hsame hi happ]
      exact .nil _
  · rw [if_neg hi]
    split
    · exact .single (.other (hother hi))
    · exact .nil _

theorem app?_of_app (h : e.valType = .appLog) : e.app? = some e.buf := if_pos h

theorem app?_of_ne (h : e.valType ≠ .appLog) : e.app? = none := if_neg h

theorem pairs_noteOut (h : idx = i → p = none) :
    Pairs i p (noteOut idx e) (if idx = i then e.app? else p) := by
  apply pairs_app
  · intro hi happ
    rw [h hi, hi, app?_of_app happ]
    exact .preCommit _
  · intro hi happ
    rw [h hi, app?_of_ne happ]
  · exact id

/-- Writing entries from `idx` on, where nothing is pending. -/
theorem pairs_notesFrom {new : List LogEntry} (h : idx ≤ i → p = none) :
    Pairs i p (notesFrom idx new)
      (if idx ≤ i then new[i - idx]?.bind LogEntry.app? else p) := by
  induction new generalizing idx p with
  | nil =>
    have hp : (if idx ≤ i then none else p) = p := by
      split
      next hi => exact (h hi).symm
      next => rfl
    simp only [List.getElem?_nil, Option.bind_none, hp]
    exact .nil _
  | cons e new ih =>
    refine (pairs_noteOut fun hi => h hi.le).append ?_
    rcases Nat.lt_trichotomy idx i with hlt | rfl | hgt
    · have hnext : i - idx = i - (idx + 1) + 1 := by omega
      have hrest : Pairs i p (notesFrom (idx + 1) new) _ := ih fun _ => h hlt.le
      rw [if_pos (show idx + 1 ≤ i from hlt)] at hrest
      rw [if_neg (by omega), if_pos hlt.le, hnext, List.getElem?_cons_succ]
      exact hrest
    · have hrest : Pairs idx e.app? (notesFrom (idx + 1) new) _ := ih fun hle => by omega
      rw [if_neg (by omega)] at hrest
      rw [if_pos rfl, if_pos le_rfl, Nat.sub_self]
      exact hrest
    · have hrest : Pairs i p (notesFrom (idx + 1) new) _ := ih fun hle => by omega
      rw [if_neg (by omega)] at hrest
      rw [if_neg (by omega), if_neg (by omega)]
      exact hrest

theorem pairs_revertOut (h : idx = i → p = e.app?) :
    Pairs i p (revertOut idx e) (if idx = i then none else p) := by
  apply pairs_app
  · intro hi happ
    rw [h hi, hi, app?_of_app happ]
    exact .rollback _
  · intro hi happ
    rw [h hi, app?_of_ne happ]
  · exact id

theorem pairs_appliedOut (h : idx = i → p = e.app?) :
    Pairs i p (appliedOut idx e) (if idx = i then none else p) := by
  apply pairs_app
  · intro hi happ
    rw [h hi, hi, app?_of_app happ]
    exact .commit _
  · intro hi happ
    rw [h hi, app?_of_ne happ]
  · exact id

end Pairs

/-! ## The log -/

/-- What should be pending at an index: what the log has there for the state machine, if it has not
been applied. -/
def Ledger.uncommitted (l : Ledger) (i : Nat) : Option Payload :=
  if l.smCommitIndex < i then (l.logStore.logs.lookup i).bind LogEntry.app? else none

/-- The calls account for what happens to the log: at each index they alternate and end with what is
pending, and an entry that has not been applied stays in the log, is committed or is rolled back. -/
structure Ledger.Accounts (l : Ledger) (o : List Effect) (l' : Ledger) : Prop where
  pairs : ∀ i, Pairs i (l.uncommitted i) o (l'.uncommitted i)
  kept : ∀ i e, l.smCommitIndex < i → l.logStore.logs.lookup i = some e → e.valType = .appLog →
    (l'.smCommitIndex < i ∧ l'.logStore.logs.lookup i = some e) ∨
      .commit i e.buf ∈ o ∨ .rollback i e.buf ∈ o

namespace Ledger.Accounts

variable {l l' l'' : Ledger} {o o' : List Effect} {a : OffsetList}

theorem trans (h : l.Accounts o l') (h' : l'.Accounts o' l'') : l.Accounts (o ++ o') l'' := by
  refine ⟨fun i => (h.pairs i).append (h'.pairs i), fun i e hi he happ => ?_⟩
  rcases h.kept i e hi he happ with ⟨hi', he'⟩ | hout | hout
  · rcases h'.kept i e hi' he' happ with hkept | hout | hout
    · exact .inl hkept
    · exact .inr (.inl (List.mem_append_right _ hout))
    · exact .inr (.inr (List.mem_append_right _ hout))
  · exact .inr (.inl (List.mem_append_left _ hout))
  · exact .inr (.inr (List.mem_append_left _ hout))

theorem of_calls (h : l.Accounts (calls o) l') : l.Accounts o l' := by
  refine ⟨fun i => (h.pairs i).of_calls, fun i e hi he happ => ?_⟩
  refine (h.kept i e hi he happ).imp_right (Or.imp ?_ ?_)
  · exact (mem_calls rfl).1
  · exact (mem_calls rfl).1

/-- Nothing happens to what the log has for the state machine. -/
theorem unchanged (hpairs : ∀ i, l'.uncommitted i = l.uncommitted i)
    (hkept : ∀ i e, l.smCommitIndex < i → l.logStore.logs.lookup i = some e → e.valType = .appLog →
      l'.smCommitIndex < i ∧ l'.logStore.logs.lookup i = some e)
    (ho : ∀ e ∈ o, ∀ i, ¬e.Concerns i) : l.Accounts o l' := by
  refine ⟨fun i => ?_, fun i e hi he happ => .inl (hkept i e hi he happ)⟩
  rw [hpairs i]
  exact .idle fun e he => .other (ho e he i)

theorem same (hstore : l'.logStore = l.logStore) (hsm : l'.smCommitIndex = l.smCommitIndex)
    (ho : ∀ e ∈ o, ∀ i, ¬e.Concerns i) : l.Accounts o l' := by
  refine unchanged (fun i => ?_) (fun i e hi he _ => ?_) ho
  · rw [uncommitted, uncommitted, hstore, hsm]
  · rw [hstore, hsm]
    exact ⟨hi, he⟩

theorem process (h : l.Accounts o l') (n : Nat) (e : LogEntry) :
    l.Accounts (.process n e :: o) l' := by
  refine ⟨fun i => .cons (.other id) (h.pairs i), fun i e hi he happ => ?_⟩
  exact (h.kept i e hi he happ).imp_right (Or.imp (.tail _) (.tail _))

theorem append (hc : l.Covered) (ha : Represents l.logStore a) {e : LogEntry}
    (hstore : l'.logStore = l.logStore.append e) (hsm : l'.smCommitIndex = l.smCommitIndex) :
    l.Accounts (noteOut l.logStore.nextSlot e) l' := by
  have hbelow : l.smCommitIndex < a.next := ha.nextSlot ▸ hc
  have hlookup : ∀ i, l.smCommitIndex < i → l'.logStore.logs.lookup i =
      if i < a.next then l.logStore.logs.lookup i else if i = a.next then some e else none := by
    intro i hi
    rw [hstore, (ha.append e).lookup (Nat.one_le_of_lt hi), ha.lookup (Nat.one_le_of_lt hi),
      OffsetList.get?_append]
  refine ⟨fun i => ?_, fun i e' hi he' _ => .inl ⟨hsm ▸ hi, ?_⟩⟩
  · rw [uncommitted, uncommitted, hsm, ha.nextSlot]
    by_cases hi : l.smCommitIndex < i
    · have hnone : a.next ≤ i → l.logStore.logs.lookup i = none := by
        intro hle
        rw [ha.lookup (Nat.one_le_of_lt hi)]
        exact OffsetList.get?_eq_none_of_next_le hle
      rw [if_pos hi, if_pos hi, hlookup i hi]
      have hnote : Pairs i ((l.logStore.logs.lookup i).bind LogEntry.app?) (noteOut a.next e) _ :=
        pairs_noteOut fun h => by rw [hnone h.le]; rfl
      rcases Nat.lt_trichotomy i a.next with hlt | rfl | hgt
      · rw [if_pos hlt]
        rwa [if_neg (by omega)] at hnote
      · rw [if_neg (Nat.lt_irrefl _), if_pos rfl]
        rwa [if_pos rfl] at hnote
      · rw [if_neg (by omega), if_neg (by omega), hnone hgt.le]
        rwa [if_neg (by omega), hnone hgt.le] at hnote
    · rw [if_neg hi, if_neg hi]
      have hnote : Pairs i none (noteOut a.next e) _ := pairs_noteOut fun _ => rfl
      rwa [if_neg (by omega)] at hnote
  · rw [hlookup i hi, if_pos ?_]
    · exact he'
    · by_contra hle
      rw [ha.lookup (Nat.one_le_of_lt hi), OffsetList.get?_eq_none_of_next_le (by omega)] at he'
      cases he'

theorem lookup_entryAt (ha : Represents l.logStore a) {idx : Nat} (hpos : 0 < idx)
    (hidx : a.start ≤ idx) (hlt : idx < a.next) :
    l.logStore.logs.lookup idx = some (a.entryAt idx) := by
  obtain ⟨e, he⟩ := Option.isSome_iff_exists.1 (OffsetList.get?_isSome.2 ⟨hidx, hlt⟩)
  rw [ha.lookup hpos, OffsetList.entryAt, he, Option.getD_some]

/-- Rolling back the first entry that is overwritten leaves nothing pending from there on, if there
is nothing for the state machine behind it. -/
theorem pairs_overwritten (ha : Represents l.logStore a) {idx : Nat} (hsm : l.smCommitIndex < idx)
    (hidx : a.start ≤ idx)
    (hbehind : ∀ i e, idx < i → l.logStore.logs.lookup i = some e → e.valType ≠ .appLog) (i : Nat) :
    Pairs i (l.uncommitted i) (if idx < a.next then revertOut idx (a.entryAt idx) else [])
      (if idx ≤ i then none else l.uncommitted i) := by
  have hpos := Nat.one_le_of_lt hsm
  have hnone : idx < i ∨ (idx = i ∧ a.next ≤ idx) → l.uncommitted i = none := by
    intro hi
    rw [uncommitted, if_pos (by omega)]
    cases he : l.logStore.logs.lookup i with
    | none => rfl
    | some e =>
      rcases hi with hi | ⟨rfl, hle⟩
      · exact if_neg (hbehind i e hi he)
      · rw [ha.lookup hpos, OffsetList.get?_eq_none_of_next_le hle] at he
        cases he
  split
  next hlt =>
    have hold : idx = i → l.uncommitted i = (a.entryAt idx).app? := by
      rintro rfl
      rw [uncommitted, if_pos hsm, lookup_entryAt ha hpos hidx hlt]
      rfl
    have hpairs := pairs_revertOut hold
    rcases Nat.lt_trichotomy idx i with hi | rfl | hi
    · rw [if_pos hi.le, hnone (.inl hi)]
      rwa [if_neg (by omega), hnone (.inl hi)] at hpairs
    · rw [if_pos le_rfl]
      rwa [if_pos rfl] at hpairs
    · rwa [if_neg (by omega)] at hpairs ⊢
  next hge =>
    split
    next hi =>
      rw [hnone (hi.lt_or_eq.imp_right fun h => ⟨h, Nat.le_of_not_lt hge⟩)]
      exact .nil _
    next => exact .nil _

/-- An append request that drops nothing for the state machine behind the first entry it
overwrites. -/
theorem merge (ha : Represents l.logStore a) {k : Nat} {es : List LogEntry}
    (hstart : l.logStore.startIdx ≤ k + 1) (hk : k < l.logStore.nextSlot)
    (happlied : (skipMatching l.logStore (k + 1) es).2 ≠ [] →
      l.smCommitIndex < (skipMatching l.logStore (k + 1) es).1)
    (hdrop : (skipMatching l.logStore (k + 1) es).2 ≠ [] →
      ¬l.logStore.Has (fun i => (skipMatching l.logStore (k + 1) es).1 < i) .appLog)
    (hstore : l'.logStore = written l.logStore k es) (hsm : l'.smCommitIndex = l.smCommitIndex) :
    l.Accounts (writtenOut l.logStore k es) l' := by
  rw [ha.start] at hstart
  rw [ha.nextSlot] at hk
  obtain ⟨hrep, hout, -⟩ := ha.written hstart hk es false
  have hbounds : k + 1 ≤ (skipMatching l.logStore (k + 1) es).1 ∧
      (skipMatching l.logStore (k + 1) es).1 ≤ a.next := by
    rw [← ha.nextSlot] at hk ⊢
    exact skipMatching_bounds hk es
  rw [hout]
  generalize (skipMatching l.logStore (k + 1) es).1 = idx at happlied hdrop hrep hbounds
  generalize (skipMatching l.logStore (k + 1) es).2 = new at happlied hdrop hrep
  rw [← hstore] at hrep
  have hidx : a.start ≤ idx := hstart.trans hbounds.1
  by_cases hnew : new = []
  · subst hnew
    have hlookup : ∀ i, l.smCommitIndex < i →
        l'.logStore.logs.lookup i = l.logStore.logs.lookup i := by
      intro i hi
      rw [hrep.lookup (Nat.one_le_of_lt hi), ha.lookup (Nat.one_le_of_lt hi)]
      rfl
    refine unchanged (fun i => ?_) (fun i e hi he _ => ⟨hsm ▸ hi, hlookup i hi ▸ he⟩)
      (by simp [notesFrom])
    rw [uncommitted, uncommitted, hsm]
    split
    next hi => rw [hlookup i hi]
    next => rfl
  have hsmidx := happlied hnew
  have hlookup : ∀ i, l.smCommitIndex < i → l'.logStore.logs.lookup i =
      if i < idx then l.logStore.logs.lookup i else new[i - idx]? := by
    intro i hi
    rw [hrep.lookup (Nat.one_le_of_lt hi), ha.lookup (Nat.one_le_of_lt hi),
      OffsetList.get?_merge hidx hbounds.2 hnew]
  have hbehind : ∀ i e, idx < i → l.logStore.logs.lookup i = some e → e.valType ≠ .appLog := by
    intro i e hi he happ
    rw [ha.lookup (Nat.one_le_of_lt hi)] at he
    exact hdrop hnew ((ha.has (Nat.not_lt_zero _)).2 ⟨i, e, he, hi, happ⟩)
  simp only [ne_eq, hnew, not_false_eq_true, true_and]
  refine ⟨fun i => ?_, fun i e hi he happ => ?_⟩
  · have hrevert := pairs_overwritten ha hsmidx hidx hbehind i
    have hnotes : Pairs i (if idx ≤ i then none else l.uncommitted i) (notesFrom idx new) _ :=
      pairs_notesFrom fun hi => if_pos hi
    have hend : l'.uncommitted i = if idx ≤ i then new[i - idx]?.bind LogEntry.app?
        else if idx ≤ i then none else l.uncommitted i := by
      rw [uncommitted, uncommitted, hsm]
      by_cases hi : l.smCommitIndex < i
      · rw [if_pos hi, if_pos hi, hlookup i hi]
        by_cases hlt : i < idx
        · rw [if_pos hlt, if_neg (by omega), if_neg (by omega)]
        · rw [if_neg hlt, if_pos (by omega)]
      · rw [if_neg hi, if_neg hi, if_neg (by omega), if_neg (by omega)]
    rw [hend]
    exact hrevert.append hnotes
  · rcases Nat.lt_trichotomy i idx with hlt | rfl | hgt
    · refine .inl ⟨hsm ▸ hi, ?_⟩
      rw [hlookup i hi, if_pos hlt]
      exact he
    · have hlt : i < a.next := by
        by_contra hle
        rw [ha.lookup (Nat.one_le_of_lt hi), OffsetList.get?_eq_none_of_next_le (by omega)] at he
        cases he
      have hfirst := lookup_entryAt ha (Nat.one_le_of_lt hi) hidx hlt
      have hentry : a.entryAt i = e := Option.some.inj (hfirst.symm.trans he)
      refine .inr (.inr (List.mem_append_left _ ?_))
      rw [if_pos hlt, hentry, revertOut, if_pos happ]
      exact List.mem_singleton_self _
    · exact (hbehind i e hgt he happ).elim

/-- A log pack that brings nothing for the state machine and overwrites nothing. -/
theorem pack (ha : Represents l.logStore a) {idx : Nat} {es : List (Nat × LogValType × Payload)}
    (hes : es ≠ []) (hstart : l.logStore.startIdx ≤ idx) (hle : idx ≤ l.logStore.nextSlot)
    (hnew : ∀ e ∈ es, e.2.1 ≠ .appLog)
    (hold : ¬l.logStore.Has (fun i => (idx ≤ i ∧ i < idx + es.length) ∧ l.smCommitIndex < i) .appLog)
    (hstore : l'.logStore = l.logStore.applyPack idx es)
    (hsm : l'.smCommitIndex = l.smCommitIndex) : l.Accounts [] l' := by
  rw [ha.start] at hstart
  rw [ha.nextSlot] at hle
  have hrep := ha.applyPack hstart hle hes
  rw [← hstore] at hrep
  have hlookup : ∀ i, l.smCommitIndex < i → l'.logStore.logs.lookup i =
      if idx ≤ i ∧ i < idx + es.length then (es.map unpack)[i - idx]?
      else l.logStore.logs.lookup i := by
    intro i hi
    rw [hrep.lookup (Nat.one_le_of_lt hi), ha.lookup (Nat.one_le_of_lt hi),
      OffsetList.get?_overwrite hstart hle, List.length_map]
  have hno : ∀ i e, l.smCommitIndex < i → (idx ≤ i ∧ i < idx + es.length) →
      l.logStore.logs.lookup i = some e → e.valType ≠ .appLog := by
    intro i e hi hin he happ
    rw [ha.lookup (Nat.one_le_of_lt hi)] at he
    exact hold ((ha.has (by simp)).2 ⟨i, e, he, ⟨hin, hi⟩, happ⟩)
  refine unchanged (fun i => ?_) (fun i e hi he happ => ⟨hsm ▸ hi, ?_⟩) (by simp)
  · rw [uncommitted, uncommitted, hsm]
    split
    next hi =>
      rw [hlookup i hi]
      split
      next hin =>
        have hbrought : (es.map unpack)[i - idx]?.bind LogEntry.app? = none := by
          rw [List.getElem?_map]
          cases he : es[i - idx]? with
          | none => rfl
          | some e => exact if_neg (hnew e (List.mem_of_getElem? he))
        rw [hbrought]
        cases he : l.logStore.logs.lookup i with
        | none => rfl
        | some e => exact (if_neg (hno i e hi hin he)).symm
      next => rfl
    next => rfl
  · rw [hlookup i hi, if_neg fun hin => hno i e hi hin he happ]
    exact he

/-- The background thread applies an entry. -/
theorem applied (ha : Represents l.logStore a)
    (hbegins : l.logStore.startIdx ≤ l.smCommitIndex + 1)
    (hlog : l.smCommitIndex < usub l.logStore.nextSlot 1) :
    l.Accounts (appliedOut (l.smCommitIndex + 1) (l.logStore.entryAt (l.smCommitIndex + 1)))
      l.applied := by
  have hpos := ha.pos
  rw [ha.nextSlot, usub_of_le (by rw [OffsetList.next]; omega)] at hlog
  rw [ha.start] at hbegins
  have hnext : l.logStore.logs.lookup (l.smCommitIndex + 1) =
      some (l.logStore.entryAt (l.smCommitIndex + 1)) := by
    rw [ha.entryAt]
    exact lookup_entryAt ha (Nat.succ_pos _) hbegins (by omega)
  have hlater : ∀ i, l.applied.uncommitted i =
      if l.smCommitIndex + 1 = i then none else l.uncommitted i := by
    intro i
    show (if l.smCommitIndex + 1 < i then _ else none) = _
    rw [uncommitted]
    by_cases hi : l.smCommitIndex + 1 = i
    · rw [if_pos hi, if_neg (by omega)]
    · rw [if_neg hi]
      by_cases hlt : l.smCommitIndex + 1 < i
      · rw [if_pos hlt, if_pos (by omega)]
        rfl
      · rw [if_neg hlt, if_neg (by omega)]
  refine ⟨fun i => ?_, fun i e hi he happ => ?_⟩
  · rw [hlater i]
    refine pairs_appliedOut ?_
    rintro rfl
    rw [uncommitted, if_pos (Nat.lt_succ_self _), hnext]
    rfl
  · by_cases hlt : l.smCommitIndex + 1 < i
    · exact .inl ⟨hlt, he⟩
    · have heq : i = l.smCommitIndex + 1 := by omega
      subst heq
      rw [Option.some.inj (hnext.symm.trans he), appliedOut, if_pos happ]
      exact .inr (.inl (List.mem_singleton_self _))

/-- Entries are dropped that have been applied, or are not for the state machine. -/
theorem compact (ha : Represents l.logStore a) {k : Nat} (hk : l.logStore.startIdx ≤ k + 1)
    (hdrop : ¬l.logStore.Has (fun i => l.smCommitIndex < i ∧ i ≤ k) .appLog)
    (hstore : l'.logStore = l.logStore.compact k)
    (hsm : l'.smCommitIndex = l.smCommitIndex ∨ l'.smCommitIndex = k ∧ l.smCommitIndex < k)
    (ho : ∀ e ∈ o, ∀ i, ¬e.Concerns i) : l.Accounts o l' := by
  rw [ha.start] at hk
  have hlookup : ∀ i, l.smCommitIndex < i → l'.logStore.logs.lookup i =
      if k < i then l.logStore.logs.lookup i else none := by
    intro i hi
    rw [hstore, (ha.compact hk).lookup (Nat.one_le_of_lt hi), ha.lookup (Nat.one_le_of_lt hi),
      OffsetList.get?_compact hk]
  have hno : ∀ i e, l.smCommitIndex < i → i ≤ k → l.logStore.logs.lookup i = some e →
      e.valType ≠ .appLog := by
    intro i e hi hle he happ
    rw [ha.lookup (Nat.one_le_of_lt hi)] at he
    exact hdrop ((ha.has (by simp)).2 ⟨i, e, he, ⟨hi, hle⟩, happ⟩)
  refine unchanged (fun i => ?_) (fun i e hi he happ => ?_) ho
  · by_cases hi : l.smCommitIndex < i
    · by_cases hlt : k < i
      · rw [uncommitted, uncommitted, if_pos (by omega), if_pos hi, hlookup i hi, if_pos hlt]
      · have hnone : (l.logStore.logs.lookup i).bind LogEntry.app? = none := by
          cases he : l.logStore.logs.lookup i with
          | none => rfl
          | some e => exact if_neg (hno i e hi (by omega) he)
        rw [uncommitted, uncommitted, if_pos hi, hlookup i hi, if_neg hlt, hnone]
        split <;> rfl
    · rw [uncommitted, uncommitted, if_neg (by omega), if_neg hi]
  · have hlt : k < i := Nat.lt_of_not_le fun hle => hno i e hi hle he happ
    refine ⟨by omega, ?_⟩
    rw [hlookup i hi, if_pos hlt]
    exact he

end Ledger.Accounts

/-! ## Inputs -/

/-- The state machine is told what the input does to the entries that are for it. -/
def Input.KeepsPairs (s : Server) : Input → Prop
  | request req _ =>
    match req.type with
    | .clientRequest => ∀ e ∈ req.logEntries, e.valType = .appLog
    | .appendEntriesRequest => req.Appends s →
      (skipMatching s.logStore (req.lastLogIdx + 1) req.logEntries).2 ≠ [] →
        ¬s.logStore.Has
          (fun i => (skipMatching s.logStore (req.lastLogIdx + 1) req.logEntries).1 < i) .appLog
    | .syncLogRequest => s.catchingUp → ∀ es ∈ req.pack?, (∀ e ∈ es, e.2.1 ≠ .appLog) ∧
      ¬s.logStore.Has (fun i => (usucc req.lastLogIdx ≤ i ∧ i < usucc req.lastLogIdx + es.length) ∧
        s.smCommitIndex < i) .appLog
    | .joinClusterRequest =>
      ¬s.catchingUp → req.logEntries.map LogEntry.valType = [.conf] →
        ¬s.logStore.Has (fun i => 0 < i ∧ i ≤ s.smCommitIndex) .appLog
    | .installSnapshotRequest => ∀ sync ∈ req.sync?, req.Completes s sync →
      ¬s.logStore.Has (fun i => s.smCommitIndex < i ∧ i ≤ sync.snapshot.lastLogIdx) .appLog
    | _ => True
  | _ => True

instance (s : Server) : (inp : Input) → Decidable (inp.KeepsPairs s)
  | .request req _ => by
    unfold Input.KeepsPairs
    dsimp only
    generalize req.type = t
    revert t
    rintro (_ | _)
    all_goals infer_instance
  | .electionTimeout | .hbTimeout _ | .response _ _ _ | .failure _ | .resend _ | .commitBg =>
    inferInstanceAs (Decidable True)

section Steps

variable {ctx : Context} {inp : Input} {s₀ s s' : Server} {o : List Effect} {R : Nat}

theorem LedgerStep.accounts (h : LedgerStep ctx inp s₀ s o s') (hs : s.ledger.Intact R)
    (hc : s.ledger.Covered) (hspares : inp.SparesLog ctx s₀) (happlied : inp.KeepsApplied s₀)
    (hkeeps : inp.KeepsPairs s₀) (hbg : inp ≠ .commitBg) (hinst : ∀ snp, ¬inp.Installs snp) :
    s.ledger.Accounts o s'.ledger := by
  obtain ⟨a, (ha : Represents s.logStore a)⟩ := hs.store
  have happend : ∀ (e : LogEntry) (s' : Server), s'.logStore = s.logStore.append e →
      s'.smCommitIndex = s.smCommitIndex →
        s.ledger.Accounts (noteOut s.logStore.nextSlot e) s'.ledger :=
    fun _ _ hstore hsm => .append hc ha hstore hsm
  cases h with
  | same hs' _ hnotes =>
    rw [hs']
    refine .same rfl rfl fun e he i hi => ?_
    have := hnotes e he
    cases e <;> first | exact hi | exact this | exact hbg this
  | saveInitial _ _ hs' ho =>
    subst hs' ho
    exact happend _ (saveInitialConfig s) rfl rfl
  | @confAppend c _ _ hs' ho =>
    subst hs' ho
    exact happend _ (appendConfig c s) rfl rfl
  | @client req now e hin htype he _ hs' _ hout =>
    subst hin hs' hout
    have happ : ∀ e ∈ req.logEntries, e.valType = .appLog := by
      simpa only [Input.KeepsPairs, htype] using hkeeps
    have haccounts := happend { e with term := s.term }
      { s with logStore := s.logStore.append { e with term := s.term } } rfl rfl
    rw [(ha.append _).nextSlot, OffsetList.next_append, ← ha.nextSlot,
      usub_of_le (Nat.le_add_left _ _)]
    rwa [noteOut, if_pos (happ e he)] at haccounts
  | commitMajority _ _ _ _ _ _ _ hs' ho | commitAlone _ _ _ hs' ho | packCommit _ _ _ hs' ho
  | commitFollower _ _ _ _ _ _ _ _ _ hs' ho | abandon _ _ _ _ hs' ho =>
    subst hs' ho
    exact .same rfl rfl (by simp)
  | @merge req now es hin htype hk _ _ hokay hes hterm hs' _ hout =>
    subst hin hs' hout
    have happends : req.Appends s₀ := ⟨htype, hterm, hokay.keeps hk⟩
    have hover := happlied happends
    rw [← hk.field Server.logStore, ← hk.field Server.smCommitIndex] at hover
    simp only [Input.KeepsPairs, htype] at hkeeps
    rw [← hk.field Server.logStore] at hkeeps
    rcases hs.merge_fits htype hk hokay hterm hspares with hnil | ⟨hle, hlt⟩
    · rw [hes, hnil]
      exact .same rfl rfl
        (by simp [StateMachine.reached, writtenOut, skipMatching, overwrittenOut, overwritten,
          appendedOut])
    · have hskip : skipMatching s.ledger.logStore (req.lastLogIdx + 1) es = (_, _) :=
        hes ▸ skipMatching_reached _ _
      refine .merge ha hle hlt ?_ ?_ rfl rfl
      · rw [hskip]
        exact fun hne => hover (mt tried_eq_nil.2 hne)
      · rw [hskip]
        exact fun hne => hkeeps happends (mt tried_eq_nil.2 hne)
  | @pack req now es hin htype hk hcatch hentry hs' ho =>
    subst hin hs' hk ho
    have hpack := ReqMsg.pack?_eq_some hentry
    have hfit := hspares.pack_fits htype hcatch hpack
    simp only [Input.KeepsPairs, htype] at hkeeps
    obtain ⟨hnew, hold⟩ := hkeeps hcatch es hpack
    exact .pack ha hfit.1 hfit.2.1 hfit.2.2 hnew hold rfl rfl
  | @join req now hin htype hk hcatch hentry hs' ho =>
    subst hin hs' hk ho
    obtain ⟨e, he, hconf⟩ := hentry
    simp only [Input.KeepsPairs, htype] at hkeeps
    have hused := hkeeps (by simp [hcatch]) (by simp [he, hconf])
    have hno : ∀ i, 0 < i → ¬s.smCommitIndex < i →
        (s.logStore.logs.lookup i).bind LogEntry.app? = none := by
      intro i hpos hi
      cases he : s.logStore.logs.lookup i with
      | none => rfl
      | some e =>
        rw [ha.lookup hpos] at he
        exact if_neg fun happ => hused ((ha.has (by simp)).2 ⟨i, e, he, ⟨hpos, by omega⟩, happ⟩)
    refine .unchanged (fun i => ?_) (fun i e hi he _ => ⟨Nat.zero_lt_of_lt hi, he⟩) (by simp)
    show (if 0 < i then (s.logStore.logs.lookup i).bind LogEntry.app? else none) =
      if s.smCommitIndex < i then (s.logStore.logs.lookup i).bind LogEntry.app? else none
    by_cases hi : s.smCommitIndex < i
    · rw [if_pos hi, if_pos (Nat.zero_lt_of_lt hi)]
    · rw [if_neg hi]
      split
      next hpos => exact hno i hpos hi
      next => rfl
  | process hin | confApplied hin | snapshot hin => exact (hbg hin).elim
  | installCompact hin | installApply hin | installDone hin => exact (hinst _ hin).elim

/-- **One input.** -/
theorem Server.take_accounts (h : s.ledger.Intact ctx.backlog) (hc : s.ledger.Covered)
    (hspares : inp.SparesLog ctx s) (happlied : inp.KeepsApplied s) (hkeeps : inp.KeepsPairs s) :
    s.ledger.Accounts (inp.handle ctx s).out (s.take ctx inp).ledger := by
  obtain ⟨a, (ha : Represents s.logStore a)⟩ := h.store
  have hbegins : s.logStore.startIdx ≤ s.smCommitIndex + 1 := h.startIdx_le
  rcases inp.kinds with rfl | ⟨req, now, rfl, htype⟩ | ⟨hbg, hinst⟩
  · refine .of_calls ?_
    have hround := take_bg ctx s
    generalize (s.take ctx .commitBg).ledger = l, calls (Input.commitBg.handle ctx s).out = o
      at hround ⊢
    cases hround with
    | idle => exact .same rfl rfl (by simp)
    | plain _ hlog =>
      have haccounts : s.ledger.Accounts _ s.ledger.applied := .applied ha hbegins hlog
      exact haccounts.process _ _
    | @snapshot conf _ hlog hdist hdue =>
      have haccounts : s.ledger.Accounts _ s.ledger.applied := .applied ha hbegins hlog
      refine (haccounts.trans ?_).process _ _
      have hforward := h.snapshot_forward hdist hdue
      unfold snapshotOut
      by_cases hres : ulong ctx.params.reservedLogItems < s.smCommitIndex + 1
      · rw [if_pos hres]
        refine .compact ha (hforward hres) ?_ (if_pos hres) (.inl rfl) (by simp [Effect.Concerns])
        rintro ⟨p, -, ⟨hlt, hle⟩, -⟩
        exact Nat.lt_irrefl _ (hlt.trans_le (hle.trans (Nat.sub_le _ _)))
      · rw [if_neg hres]
        exact .same (if_neg hres) rfl (by simp)
  · rcases take_install htype now with ⟨hl, hcalls⟩ | ⟨sync, hsync, hround⟩
    · refine .of_calls ?_
      rw [hl, hcalls]
      exact .same rfl rfl (by simp)
    · obtain ⟨-, happly, hsave⟩ := hspares.install_fits htype hsync
      have hlt := hsync.2.2.2
      simp only [Input.KeepsPairs, htype] at hkeeps
      refine .of_calls ?_
      generalize (s.take ctx (.request req now)).ledger = l,
        calls ((Input.request req now).handle ctx s).out = o at hround ⊢
      cases hround with
      | failed hno => cases hno.symm.trans happly
      | unsaved hno => exact (hno hsave).elim
      | done =>
        exact .compact ha (hbegins.trans (by omega)) (hkeeps sync hsync.1 hsync) rfl (.inr ⟨rfl, hlt⟩)
          (by simp [Effect.Concerns])
  · refine ((take_path ctx s inp).fold (R := fun (s₁ : Server) (o : List Effect) (s₂ : Server) =>
        s₁.ledger.Intact ctx.backlog → s₁.ledger.Covered → s₁.ledger.Accounts o s₂.ledger)
      (fun _ _ _ => .same rfl rfl (by simp)) ?_) h hc
    intro s₁ s₂ s₃ _ _ hm ih h₁ hc₁
    have hstep := hm.ledgerStep
    exact (hstep.accounts h₁ hc₁ hspares happlied hkeeps hbg hinst).trans
      (ih (hstep.intact h₁ hspares hbg hinst).1 (hstep.covered h₁ hc₁ hspares happlied hbg hinst))

end Steps

/-! ## Runs -/

/-- The server has a log in order, and has told the state machine about it. -/
structure Told (ctx : Context) (past : List Effect) (s : Server) : Prop where
  intact : s.ledger.Intact ctx.backlog
  covered : s.ledger.Covered
  pairs : ∀ i, Pairs i none past (s.ledger.uncommitted i)

theorem told_new (ctx : Context) (id : Int) {b : Boot} (hb : BlankBoot b) :
    Told ctx [] (Server.new ctx id b) := by
  refine ⟨intact_new ctx id hb _, ?_, fun i => ?_⟩
  · rw [new_ledger]
    show b.lastCommitIndex < b.logStore.nextSlot
    rw [hb.commit, hb.store]
    decide
  · have hnone : (Server.new ctx id b).ledger.uncommitted i = none := by
      rw [new_ledger]
      show (if b.lastCommitIndex < i then (b.logStore.logs.lookup i).bind _ else none) = none
      rw [hb.commit, hb.store]
      split
      next hi =>
        rw [Represents.new.lookup hi, OffsetList.get?_eq_none_of_next_le hi]
        rfl
      next => rfl
    rw [hnone]
    exact .nil _

theorem told_run (ctx : Context) (id : Int) {b : Boot} (hb : BlankBoot b) {inps : List Input}
    (hinps : (Server.new ctx id b).Meets ctx
      (fun s inp => inp.SparesLog ctx s ∧ inp.KeepsApplied s ∧ inp.KeepsPairs s) inps) :
    Told ctx ((Server.new ctx id b).trace ctx inps) ((Server.new ctx id b).run ctx inps) := by
  refine inv_trace (I := fun past s => Told ctx past s) ?_ (told_new ctx id hb) (hinps.past [])
  intro past s inp h hin
  refine ⟨(take_intact h.intact hin.1).1, take_covered h.intact h.covered hin.1 hin.2.1, fun i => ?_⟩
  exact (h.pairs i).append
    ((take_accounts h.intact h.covered hin.1 hin.2.1 hin.2.2).pairs i)

/-- The index of a call of `pre_commit`. -/
def Effect.preCommitted : Effect → Option Nat
  | preCommit idx _ => some idx
  | _ => none

/-- The index of a call of `rollback`. -/
def Effect.rolledBack : Effect → Option Nat
  | rollback idx _ => some idx
  | _ => none

end EnclaveRaft
