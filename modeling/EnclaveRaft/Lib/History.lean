import Mathlib.Data.List.Infix
import Mathlib.Logic.Function.Basic
import Mathlib.Logic.Relation
import EnclaveRaft.Lib.Quorum

/-!
# Histories of replicated logs

A replicated log without its network. Nodes move through numbered terms; in each term at most
one node leads, elected by a majority of votes, and only the leader of a term creates entries of
that term. The other nodes copy prefixes of the leader's log, giving up what they have beyond
the first difference, and acknowledge what they hold. A `History` remembers every vote, the log
each candidate stood with, the log of each leader, and what was acknowledged in each term.

`Base` holds in every history, whatever voters check, and gives log matching: two logs on record
whose entries at one place are of the same term agree up to there (`Base.matching`).
-/

/-- Nodes `N`, entries `E`. -/
structure History (N E : Type) where
  term : N → Nat
  log : N → List E
  /-- Who voted for whom in which term. -/
  vote : N → Nat → Option N
  /-- The log a node had when it stood for election in a term. -/
  stood : Nat → N → Option (List E)
  /-- The leader of a term, and its log: as it is, or as it was when the term ended for it. -/
  lead : Nat → Option (N × List E)
  /-- How much of the leader's log a node has acknowledged in a term. -/
  acked : N → Nat → Nat

namespace History

variable {N E : Type} {termOf : E → Nat} {H H' : History N E}

/-! ## Prefixes -/

/-- Prefixes of one list that are as long as each other are equal. -/
theorem eq_of_isPrefix {p q l : List E} (hp : p <+: l) (hq : q <+: l) (h : p.length = q.length) :
    p = q :=
  (List.prefix_of_prefix_length_le hp hq h.le).eq_of_length h

/-- What two logs share is not lost when one of them takes over more of the other. -/
theorem prefix_take_of_not {p l L : List E} {k : Nat} (hp : p <+: L) (hl : p <+: l)
    (hk : ¬L.take k <+: l) : p <+: L.take k := by
  rcases Nat.le_total p.length (L.take k).length with h | h
  · exact List.prefix_of_prefix_length_le hp (List.take_prefix k L) h
  · exact (hk ((List.prefix_of_prefix_length_le (List.take_prefix k L) hp h).trans hl)).elim

/-- A log that takes over entries from the place `k` on: entries of the same term are there already,
and with the first one that is not, the rest of the log is given up. -/
def merged (termOf : E → Nat) (l : List E) : Nat → List E → List E
  | _, [] => l
  | k, e :: es =>
    if l[k]?.map termOf = some (termOf e) then merged termOf l (k + 1) es else l.take k ++ e :: es

theorem merged_below {l es : List E} {k j : Nat} (hk : k ≤ l.length) (hj : j < k) :
    (merged termOf l k es)[j]? = l[j]? := by
  induction es generalizing k with
  | nil => rfl
  | cons e es ih =>
    unfold merged
    split
    next hterm =>
      obtain ⟨a, ha, -⟩ := Option.map_eq_some_iff.1 hterm
      exact ih (List.getElem?_eq_some_iff.1 ha).1 (Nat.lt_succ_of_lt hj)
    next =>
      rw [List.getElem?_append_left (by rw [List.length_take]; omega),
        List.getElem?_take_of_lt hj]

/-- The entries that are taken over are there afterwards, up to their terms. -/
theorem merged_term {l es : List E} {k j : Nat} (hk : k ≤ l.length) (hj : j < es.length) :
    (merged termOf l k es)[k + j]?.map termOf = es[j]?.map termOf := by
  induction es generalizing k j with
  | nil => cases hj
  | cons e es ih =>
    unfold merged
    split
    next hterm =>
      obtain ⟨a, ha, -⟩ := Option.map_eq_some_iff.1 hterm
      have hlt := (List.getElem?_eq_some_iff.1 ha).1
      cases j with
      | zero =>
        rw [List.getElem?_cons_zero, Option.map_some, ← hterm]
        exact congrArg _ (merged_below hlt (Nat.lt_succ_self k))
      | succ j =>
        rw [List.getElem?_cons_succ, ← ih hlt (Nat.lt_of_succ_lt_succ hj),
          show k + (j + 1) = k + 1 + j by omega]
    next =>
      rw [List.getElem?_append_right (by rw [List.length_take]; omega), List.length_take,
        Nat.min_eq_left hk, Nat.add_sub_cancel_left]

/-- Taking over a piece of `L` that follows on what the logs share makes the log one that shares
this piece as well, without giving up anything that agrees. -/
theorem merged_eq {l L es : List E} {k : Nat} (hes : es <+: L.drop k) (htake : L.take k <+: l)
    (hmatch : ∀ j a b, l[j]? = some a → L[j]? = some b → termOf a = termOf b →
      L.take (j + 1) <+: l) :
    (L.take (k + es.length) <+: l → merged termOf l k es = l) ∧
      (¬L.take (k + es.length) <+: l → merged termOf l k es = L.take (k + es.length)) := by
  induction es generalizing k with
  | nil => exact ⟨fun _ => rfl, fun h => (h htake).elim⟩
  | cons e es ih =>
    have hget : L[k]? = some e := by
      obtain ⟨r, hr⟩ := hes
      rw [← Nat.add_zero k, ← List.getElem?_drop, ← hr]
      rfl
    have hdrop : es <+: L.drop (k + 1) := by
      obtain ⟨r, hr⟩ := hes
      exact ⟨r, by rw [← List.drop_drop, ← hr]; rfl⟩
    rw [List.length_cons, Nat.add_comm es.length, ← Nat.add_assoc]
    unfold merged
    split
    next hterm =>
      obtain ⟨a, ha, hae⟩ := Option.map_eq_some_iff.1 hterm
      exact ih hdrop (hmatch k a e ha hget hae)
    next hterm =>
      have hk : k < L.length := (List.getElem?_eq_some_iff.1 hget).1
      refine ⟨fun hp => (hterm ?_).elim, fun _ => ?_⟩
      · -- a log that has the piece has its first entry
        obtain ⟨r, hr⟩ := hp
        rw [← hr, List.getElem?_append_left (by rw [List.length_take]; omega),
          List.getElem?_take_of_lt (by omega), hget]
        rfl
      · have hl : l.take k = L.take k := by
          obtain ⟨r, hr⟩ := htake
          rw [← hr, List.take_append_of_le_length (by rw [List.length_take]; omega),
            List.take_take, Nat.min_self]
        rw [hl, Nat.add_assoc, List.take_add, Nat.add_comm 1, ← List.length_cons (a := e)]
        exact congrArg _ (List.prefix_iff_eq_take.1 hes)

/-- A log that is part of `L` stays so when it takes over a piece of `L`. -/
theorem merged_isPrefix {l L es : List E} {k : Nat} (hl : l <+: L) (hk : k ≤ l.length)
    (hes : es <+: L.drop k) : merged termOf l k es <+: L := by
  have htake : ∀ n, n ≤ l.length → L.take n <+: l := fun n hn =>
    List.prefix_of_prefix_length_le (List.take_prefix n L) hl
      ((List.length_take_le n L).trans hn)
  have hmatch : ∀ j a b, l[j]? = some a → L[j]? = some b → termOf a = termOf b →
      L.take (j + 1) <+: l := fun j _ _ ha _ _ => htake (j + 1) (List.getElem?_eq_some_iff.1 ha).1
  by_cases hhas : L.take (k + es.length) <+: l
  · rw [(merged_eq hes (htake k hk) hmatch).1 hhas]
    exact hl
  · rw [(merged_eq hes (htake k hk) hmatch).2 hhas]
    exact List.take_prefix _ _

/-- The term of the last entry. -/
def lastTerm (termOf : E → Nat) (l : List E) : Nat := (l.getLast?.map termOf).getD 0

@[simp] theorem lastTerm_concat (p : List E) (e : E) : lastTerm termOf (p ++ [e]) = termOf e := by
  simp [lastTerm]

/-- A node with the log `l` is not behind one with `l'`. -/
def UpToDate (termOf : E → Nat) (l l' : List E) : Prop :=
  lastTerm termOf l' < lastTerm termOf l ∨
    (lastTerm termOf l' = lastTerm termOf l ∧ l'.length ≤ l.length)

/-- The entries stand in the order of their terms. -/
def Ordered (termOf : E → Nat) (l : List E) : Prop := l.Pairwise fun a b => termOf a ≤ termOf b

theorem Ordered.of_isPrefix {l l' : List E} (h : Ordered termOf l') (hp : l <+: l') :
    Ordered termOf l :=
  List.Pairwise.sublist hp.sublist h

theorem Ordered.le_last {p : List E} {e a : E} (h : Ordered termOf (p ++ [e]))
    (ha : a ∈ p ++ [e]) : termOf a ≤ termOf e := by
  rcases List.mem_append.1 ha with ha | ha
  · exact (List.pairwise_append.1 h).2.2 a ha e (List.mem_singleton_self e)
  · rw [List.mem_singleton.1 ha]

theorem Ordered.concat {p : List E} {e : E} (h : Ordered termOf p)
    (hle : ∀ a ∈ p, termOf a ≤ termOf e) : Ordered termOf (p ++ [e]) := by
  refine List.pairwise_append.2 ⟨h, List.pairwise_singleton _ _, fun a ha b hb => ?_⟩
  rw [List.mem_singleton.1 hb]
  exact hle a ha

/-! ## Steps -/

section Updates

variable [DecidableEq N]

def setTerm (H : History N E) (n : N) (t : Nat) : History N E :=
  { H with term := Function.update H.term n t }

def setLog (H : History N E) (n : N) (l : List E) : History N E :=
  { H with log := Function.update H.log n l }

def setVote (H : History N E) (n : N) (t : Nat) (c : N) : History N E :=
  { H with vote := Function.update H.vote n (Function.update (H.vote n) t (some c)) }

def setStood (H : History N E) (t : Nat) (n : N) (l : List E) : History N E :=
  { H with stood := Function.update H.stood t (Function.update (H.stood t) n (some l)) }

def setLead (H : History N E) (t : Nat) (n : N) (L : List E) : History N E :=
  { H with lead := Function.update H.lead t (some (n, L)) }

def setAcked (H : History N E) (n : N) (t k : Nat) : History N E :=
  { H with acked := Function.update H.acked n (Function.update (H.acked n) t k) }

section Fields

variable (H : History N E) (n m : N) (t t' k : Nat)

@[simp] theorem term_setTerm :
    (H.setTerm n t).term m = if m = n then t else H.term m :=
  Function.update_apply ..

@[simp] theorem log_setLog (l : List E) :
    (H.setLog n l).log m = if m = n then l else H.log m :=
  Function.update_apply ..

@[simp] theorem vote_setVote (c : N) :
    (H.setVote n t c).vote m t' = if m = n ∧ t' = t then some c else H.vote m t' := by
  by_cases hm : m = n
  · subst hm
    by_cases ht : t' = t <;> simp [setVote, ht]
  · simp [setVote, hm]

@[simp] theorem stood_setStood (l : List E) :
    (H.setStood t n l).stood t' m = if t' = t ∧ m = n then some l else H.stood t' m := by
  by_cases ht : t' = t
  · subst ht
    by_cases hm : m = n <;> simp [setStood, hm]
  · simp [setStood, ht]

omit [DecidableEq N] in
@[simp] theorem lead_setLead (L : List E) :
    (H.setLead t n L).lead t' = if t' = t then some (n, L) else H.lead t' :=
  Function.update_apply ..

@[simp] theorem acked_setAcked :
    (H.setAcked n t k).acked m t' = if m = n ∧ t' = t then k else H.acked m t' := by
  by_cases hm : m = n
  · subst hm
    by_cases ht : t' = t <;> simp [setAcked, ht]
  · simp [setAcked, hm]

end Fields

/-- The steps of a node. `U` is what it checks before it votes. -/
inductive Step (nodes : List N) (termOf : E → Nat) (U : List E → List E → Prop) (n : N)
    (H : History N E) : History N E → Prop
  | advance {t : Nat} (ht : H.term n < t) : Step nodes termOf U n H (H.setTerm n t)
  | stand {t : Nat} (ht : H.term n < t) :
      Step nodes termOf U n H (((H.setTerm n t).setVote n t n).setStood t n (H.log n))
  | grant {c : N} {l : List E} (hfree : H.vote n (H.term n) = none)
      (hstood : H.stood (H.term n) c = some l) (hU : U l (H.log n)) :
      Step nodes termOf U n H (H.setVote n (H.term n) c)
  | elect {l : List E} (hnone : H.lead (H.term n) = none)
      (hstood : H.stood (H.term n) n = some l)
      (hmaj : Majority nodes fun v => H.vote v (H.term n) = some n) :
      Step nodes termOf U n H (H.setLead (H.term n) n (H.log n))
  | append {e : E} (hlead : H.lead (H.term n) = some (n, H.log n)) (he : termOf e = H.term n) :
      Step nodes termOf U n H
        ((H.setLog n (H.log n ++ [e])).setLead (H.term n) n (H.log n ++ [e]))
  | accept {m : N} {L : List E} {k : Nat} (hlead : H.lead (H.term n) = some (m, L))
      (hdiff : ¬L.take k <+: H.log n) : Step nodes termOf U n H (H.setLog n (L.take k))
  | ack {m : N} {L : List E} {k : Nat} (hlead : H.lead (H.term n) = some (m, L))
      (hk : k ≤ L.length) (hhas : L.take k <+: H.log n) :
      Step nodes termOf U n H (H.setAcked n (H.term n) (max (H.acked n (H.term n)) k))

end Updates

/-! ## Log matching -/

/-- Every prefix of `l` is one of the log of the leader that created its last entry. -/
def Made (termOf : E → Nat) (H : History N E) (l : List E) : Prop :=
  ∀ p e, p ++ [e] <+: l → ∃ n L, H.lead (termOf e) = some (n, L) ∧ p ++ [e] <+: L

/-- A log that the history remembers. -/
def OnRecord (H : History N E) (l : List E) : Prop :=
  (∃ n, H.log n = l) ∨ (∃ t n, H.lead t = some (n, l)) ∨ ∃ t n, H.stood t n = some l

theorem Made.of_isPrefix {l l' : List E} (h : Made termOf H l') (hp : l <+: l') :
    Made termOf H l := fun p e hpe => h p e (hpe.trans hp)

/-- Two logs whose entries at one place are of the same term agree up to there. -/
theorem Made.matching {l l' p p' : List E} {e e' : E} (h : Made termOf H l) (h' : Made termOf H l')
    (hp : p ++ [e] <+: l) (hp' : p' ++ [e'] <+: l') (hlen : p.length = p'.length)
    (hterm : termOf e = termOf e') : p ++ [e] = p' ++ [e'] := by
  obtain ⟨n, L, hL, hpL⟩ := h p e hp
  obtain ⟨n', L', hL', hpL'⟩ := h' p' e' hp'
  rw [hterm, hL'] at hL
  cases hL
  exact eq_of_isPrefix hpL hpL' (by simp [hlen])

/-- Leaders stay and their logs grow. -/
def LeadLe (H H' : History N E) : Prop :=
  ∀ t n L, H.lead t = some (n, L) → ∃ L', H'.lead t = some (n, L') ∧ L <+: L'

theorem LeadLe.refl (H : History N E) : LeadLe H H := fun _ _ L hL => ⟨L, hL, List.prefix_refl L⟩

theorem LeadLe.trans {H'' : History N E} (h : LeadLe H H') (h' : LeadLe H' H'') :
    LeadLe H H'' := fun t n L hL => by
  obtain ⟨L', hL', hp⟩ := h t n L hL
  obtain ⟨L'', hL'', hp'⟩ := h' t n L' hL'
  exact ⟨L'', hL'', hp.trans hp'⟩

theorem Made.mono {l : List E} (h : Made termOf H l) (hle : LeadLe H H') : Made termOf H' l :=
  fun p e hpe => by
    obtain ⟨n, L, hL, hp⟩ := h p e hpe
    obtain ⟨L', hL', hLL'⟩ := hle _ _ _ hL
    exact ⟨n, L', hL', hp.trans hLL'⟩

/-- What holds in every history. -/
structure Base (nodes : List N) (termOf : E → Nat) (H : History N E) : Prop where
  made : ∀ l, H.OnRecord l → Made termOf H l
  ordered : ∀ l, H.OnRecord l → Ordered termOf l
  logTerm : ∀ n, ∀ e ∈ H.log n, termOf e ≤ H.term n
  leadTerm : ∀ t n L, H.lead t = some (n, L) → ∀ e ∈ L, termOf e ≤ t
  stoodTerm : ∀ t n l, H.stood t n = some l → ∀ e ∈ l, termOf e < t
  /-- A leader has the log on record as long as its term lasts. -/
  leadNow : ∀ t n L, H.lead t = some (n, L) → t ≤ H.term n ∧ (H.term n = t → H.log n = L)
  /-- A candidate's log does not change as long as nobody leads its term. -/
  stoodNow : ∀ t n l, H.stood t n = some l →
    t ≤ H.term n ∧ (H.term n = t → H.lead t = none → H.log n = l)
  /-- Votes are for somebody who stands, or from before the beginning. -/
  voted : ∀ n t c, H.vote n t = some c →
    t ≤ H.term n ∧ ((∃ l, H.stood t c = some l) ∨ ∀ s < t, H.acked n s = 0)
  elected : ∀ t n L, H.lead t = some (n, L) →
    Majority nodes (fun v => H.vote v t = some n) ∧ ∃ l, H.stood t n = some l ∧ l <+: L
  /-- What was acknowledged in the current term is still there. -/
  held : ∀ n t, 0 < H.acked n t → t ≤ H.term n ∧ ∃ m L, H.lead t = some (m, L) ∧
    H.acked n t ≤ L.length ∧ (H.term n = t → L.take (H.acked n t) <+: H.log n)

namespace Base

variable {nodes : List N} {n m c : N} {t k : Nat} {l L : List E} {e : E}

/-- Two logs whose entries at one place are of the same term agree up to there. -/
theorem matching (h : Base nodes termOf H) {l' p p' : List E} {e' : E} (hl : H.OnRecord l)
    (hl' : H.OnRecord l') (hp : p ++ [e] <+: l) (hp' : p' ++ [e'] <+: l')
    (hlen : p.length = p'.length) (hterm : termOf e = termOf e') : p ++ [e] = p' ++ [e'] :=
  (h.made l hl).matching (h.made l' hl') hp hp' hlen hterm

theorem matching_getElem? (h : Base nodes termOf H) {l' : List E} {a b : E} (hl : H.OnRecord l)
    (hl' : H.OnRecord l') (ha : l[k]? = some a) (hb : l'[k]? = some b)
    (hterm : termOf a = termOf b) : l.take (k + 1) = l'.take (k + 1) := by
  have hsplit : ∀ {x : List E} {c : E}, x[k]? = some c → x.take (k + 1) = x.take k ++ [c] :=
    fun hc => by rw [List.take_add_one, hc]; rfl
  have hp := hsplit ha ▸ List.take_prefix (k + 1) l
  have hp' := hsplit hb ▸ List.take_prefix (k + 1) l'
  have hlt := (List.getElem?_eq_some_iff.1 ha).1
  have hlt' := (List.getElem?_eq_some_iff.1 hb).1
  rw [hsplit ha, hsplit hb]
  exact h.matching hl hl' hp hp' (by rw [List.length_take, List.length_take]; omega) hterm

/-- The lead of a term is the one that is noted now, or an earlier one of another term. -/
theorem lead_setLead_cases {t' : Nat} {L' : List E}
    (h : (H.setLead t n L).lead t' = some (m, L')) :
    (t' = t ∧ m = n ∧ L' = L) ∨ (t' ≠ t ∧ H.lead t' = some (m, L')) := by
  rw [lead_setLead] at h
  split at h
  next heq =>
    cases h
    exact .inl ⟨heq, rfl, rfl⟩
  next hne => exact .inr ⟨hne, h⟩

theorem leadLe_setLead (hL : ∀ m L', H.lead t = some (m, L') → m = n ∧ L' <+: L) :
    LeadLe H (H.setLead t n L) := by
  intro t' m L' hL'
  rw [lead_setLead]
  split
  next heq =>
    subst heq
    obtain ⟨rfl, hp⟩ := hL m L' hL'
    exact ⟨L, rfl, hp⟩
  next => exact ⟨L', hL', List.prefix_refl L'⟩

/-- A candidate that most nodes voted for takes the lead of its term. -/
theorem elect (h : Base nodes termOf H) (hnone : H.lead (H.term n) = none)
    (hs : H.stood (H.term n) n = some l)
    (hmaj : Majority nodes fun v => H.vote v (H.term n) = some n) :
    Base nodes termOf (H.setLead (H.term n) n (H.log n)) := by
  have hle : LeadLe H (H.setLead (H.term n) n (H.log n)) :=
    leadLe_setLead fun m L' hL' => by cases hnone.symm.trans hL'
  have hrec : ∀ l', (H.setLead (H.term n) n (H.log n)).OnRecord l' → H.OnRecord l' := by
    rintro l' (hn | ⟨t', m, hL⟩ | hn)
    · exact .inl hn
    · rcases lead_setLead_cases hL with ⟨-, -, rfl⟩ | ⟨-, hL⟩
      · exact .inl ⟨n, rfl⟩
      · exact .inr (.inl ⟨t', m, hL⟩)
    · exact .inr (.inr hn)
  have hlog : H.log n = l := (h.stoodNow _ n l hs).2 rfl hnone
  refine ⟨fun l' hl' => (h.made l' (hrec l' hl')).mono hle, fun l' hl' => h.ordered l' (hrec l' hl'),
    h.logTerm, fun t' m L' hL => ?_, h.stoodTerm, fun t' m L' hL => ?_, fun t' m l' hs => ?_,
    h.voted, fun t' m L' hL => ?_, fun m t' hpos => ?_⟩
  · rcases lead_setLead_cases hL with ⟨rfl, rfl, rfl⟩ | ⟨-, hL⟩
    · exact h.logTerm m
    · exact h.leadTerm t' m L' hL
  · rcases lead_setLead_cases hL with ⟨rfl, rfl, rfl⟩ | ⟨-, hL⟩
    · exact ⟨le_rfl, fun _ => rfl⟩
    · exact h.leadNow t' m L' hL
  · refine ⟨(h.stoodNow t' m l' hs).1, fun heq hn => (h.stoodNow t' m l' hs).2 heq ?_⟩
    rw [lead_setLead] at hn
    split at hn
    · cases hn
    · exact hn
  · rcases lead_setLead_cases hL with ⟨rfl, rfl, rfl⟩ | ⟨-, hL⟩
    · exact ⟨hmaj, l, hs, hlog ▸ List.prefix_refl _⟩
    · exact h.elected t' m L' hL
  · obtain ⟨hle', m', L, hL, hk, hhas⟩ := h.held m t' hpos
    refine ⟨hle', m', L, ?_, hk, hhas⟩
    rw [lead_setLead, if_neg, hL]
    rintro rfl
    cases hnone.symm.trans hL

variable [DecidableEq N]

theorem setTerm (h : Base nodes termOf H) (ht : H.term n < t) :
    Base nodes termOf (H.setTerm n t) := by
  have hle : ∀ m, H.term m ≤ (H.setTerm n t).term m := fun m => by
    rw [term_setTerm]
    split
    next hm => exact hm ▸ ht.le
    next => exact le_rfl
  have hsame : ∀ m t', t' ≤ H.term m → (H.setTerm n t).term m = t' → H.term m = t' := by
    intro m t' hle' heq
    exact le_antisymm (heq ▸ hle m) hle'
  refine ⟨h.made, h.ordered, fun m e he => (h.logTerm m e he).trans (hle m), h.leadTerm,
    h.stoodTerm, fun t' m L hL => ?_, fun t' m l hl => ?_, fun m t' c hv => ?_, h.elected,
    fun m t' hpos => ?_⟩
  · obtain ⟨hle', hlog⟩ := h.leadNow t' m L hL
    exact ⟨hle'.trans (hle m), fun heq => hlog (hsame m t' hle' heq)⟩
  · obtain ⟨hle', hlog⟩ := h.stoodNow t' m l hl
    exact ⟨hle'.trans (hle m), fun heq => hlog (hsame m t' hle' heq)⟩
  · obtain ⟨hle', hst⟩ := h.voted m t' c hv
    exact ⟨hle'.trans (hle m), hst⟩
  · obtain ⟨hle', m', L, hL, hk, hhas⟩ := h.held m t' hpos
    exact ⟨hle'.trans (hle m), m', L, hL, hk, fun heq => hhas (hsame m t' hle' heq)⟩

omit [DecidableEq N] in
theorem vote_none (h : Base nodes termOf H) (ht : H.term n < t) : H.vote n t = none := by
  cases hv : H.vote n t with
  | none => rfl
  | some c => exact ((h.voted n t c hv).1.not_gt ht).elim

omit [DecidableEq N] in
theorem stood_none (h : Base nodes termOf H) (ht : H.term n < t) : H.stood t n = none := by
  cases hs : H.stood t n with
  | none => rfl
  | some l => exact ((h.stoodNow t n l hs).1.not_gt ht).elim

/-- A vote for somebody who stands. -/
theorem setVote (h : Base nodes termOf H) (hfree : H.vote n (H.term n) = none)
    (hstood : H.stood (H.term n) c = some l) : Base nodes termOf (H.setVote n (H.term n) c) := by
  refine ⟨h.made, h.ordered, h.logTerm, h.leadTerm, h.stoodTerm, h.leadNow, h.stoodNow,
    fun m t' c' hv => ?_, fun t' m L hL => ⟨?_, (h.elected t' m L hL).2⟩, h.held⟩
  · rw [vote_setVote] at hv
    split at hv
    next heq =>
      cases hv
      obtain ⟨rfl, rfl⟩ := heq
      exact ⟨le_rfl, .inl ⟨l, hstood⟩⟩
    next => exact h.voted m t' c' hv
  · refine (h.elected t' m L hL).1.mono fun v _ hv => ?_
    rw [vote_setVote, if_neg, hv]
    rintro ⟨rfl, rfl⟩
    cases hfree.symm.trans hv

/-- Standing for election in the term one is in. -/
theorem setStood (h : Base nodes termOf H) (hlog : ∀ e ∈ H.log n, termOf e < H.term n)
    (hnew : H.stood (H.term n) n = none) :
    Base nodes termOf (H.setStood (H.term n) n (H.log n)) := by
  have hold : ∀ t' m l', (H.setStood (H.term n) n (H.log n)).stood t' m = some l' →
      (t' = H.term n ∧ m = n ∧ l' = H.log n) ∨ H.stood t' m = some l' := by
    intro t' m l' hs
    rw [stood_setStood] at hs
    split at hs
    next heq => cases hs; exact .inl ⟨heq.1, heq.2, rfl⟩
    next => exact .inr hs
  have hkeep : ∀ t' m l', H.stood t' m = some l' →
      (H.setStood (H.term n) n (H.log n)).stood t' m = some l' := by
    intro t' m l' hs
    rw [stood_setStood, if_neg, hs]
    rintro ⟨rfl, rfl⟩
    cases hnew.symm.trans hs
  have hrec : ∀ l', (H.setStood (H.term n) n (H.log n)).OnRecord l' → H.OnRecord l' := by
    rintro l' (hn | hn | ⟨t', m, hs⟩)
    · exact .inl hn
    · exact .inr (.inl hn)
    · rcases hold t' m l' hs with ⟨-, -, rfl⟩ | hs
      · exact .inl ⟨n, rfl⟩
      · exact .inr (.inr ⟨t', m, hs⟩)
  refine ⟨fun l' hl' => h.made l' (hrec l' hl'), fun l' hl' => h.ordered l' (hrec l' hl'),
    h.logTerm, h.leadTerm, fun t' m l' hs => ?_, h.leadNow, fun t' m l' hs => ?_,
    fun m t' c' hv => ?_, fun t' m L hL => ?_, h.held⟩
  · rcases hold t' m l' hs with ⟨rfl, rfl, rfl⟩ | hs
    · exact hlog
    · exact h.stoodTerm t' m l' hs
  · rcases hold t' m l' hs with ⟨rfl, rfl, rfl⟩ | hs
    · exact ⟨le_rfl, fun _ _ => rfl⟩
    · exact h.stoodNow t' m l' hs
  · obtain ⟨hle, hst⟩ := h.voted m t' c' hv
    exact ⟨hle, hst.imp_left fun ⟨l', hs⟩ => ⟨l', hkeep t' c' l' hs⟩⟩
  · obtain ⟨hmaj, l', hs, hp⟩ := h.elected t' m L hL
    exact ⟨hmaj, l', hkeep t' m l' hs, hp⟩

section Append

variable (H) (n) (e)

/-- The history in which the leader `n` of its term has added `e` to its log. -/
abbrev appended : History N E :=
  (H.setLog n (H.log n ++ [e])).setLead (H.term n) n (H.log n ++ [e])

variable {H n e}

theorem log_appended (m : N) :
    (appended H n e).log m = if m = n then H.log n ++ [e] else H.log m := log_setLog H n m _

theorem leadLe_appended (hlead : H.lead (H.term n) = some (n, H.log n)) :
    LeadLe H (appended H n e) := by
  refine leadLe_setLead (H := H.setLog n _) fun m L' hL' => ?_
  cases hlead.symm.trans hL'
  exact ⟨rfl, List.prefix_append _ _⟩

theorem onRecord_appended (hl : (appended H n e).OnRecord l) :
    l = H.log n ++ [e] ∨ H.OnRecord l := by
  rcases hl with ⟨m, hm⟩ | ⟨t, m, hL⟩ | hs
  · rw [log_appended] at hm
    split at hm
    · exact .inl hm.symm
    · exact .inr (.inl ⟨m, hm⟩)
  · rcases lead_setLead_cases hL with ⟨-, -, rfl⟩ | ⟨-, hL⟩
    · exact .inl rfl
    · exact .inr (.inr (.inl ⟨t, m, hL⟩))
  · exact .inr (.inr (.inr hs))

/-- The new entry was made by the leader of its term, behind the entries before it. -/
theorem made_appended (h : Base nodes termOf H) (hlead : H.lead (H.term n) = some (n, H.log n))
    (he : termOf e = H.term n) : Made termOf (appended H n e) (H.log n ++ [e]) := by
  intro p e' hp
  rcases List.prefix_concat_iff.1 hp with heq | hp
  · obtain ⟨-, heq⟩ := List.append_inj' heq rfl
    cases heq
    exact ⟨n, _, by rw [lead_setLead, if_pos he], hp⟩
  · exact (h.made _ (.inl ⟨n, rfl⟩)).mono (leadLe_appended hlead) p e' hp

/-- The leader of a term adds an entry to its log. -/
theorem append (h : Base nodes termOf H) (hlead : H.lead (H.term n) = some (n, H.log n))
    (he : termOf e = H.term n) :
    Base nodes termOf ((H.setLog n (H.log n ++ [e])).setLead (H.term n) n (H.log n ++ [e])) := by
  have hle := leadLe_appended (e := e) hlead
  have hnlog := h.logTerm n
  have hconcat : ∀ a ∈ H.log n ++ [e], termOf a ≤ H.term n := by
    intro a ha
    rcases List.mem_append.1 ha with ha | ha
    · exact hnlog a ha
    · rw [List.mem_singleton.1 ha, he]
  refine ⟨fun l' hl' => ?_, fun l' hl' => ?_, fun m a ha => ?_, fun t' m L' hL => ?_, h.stoodTerm,
    fun t' m L' hL => ?_, fun t' m l' hs => ?_, h.voted, fun t' m L' hL => ?_, fun m t' hpos => ?_⟩
  · rcases onRecord_appended hl' with rfl | hl'
    · exact h.made_appended hlead he
    · exact (h.made l' hl').mono hle
  · rcases onRecord_appended hl' with rfl | hl'
    · exact (h.ordered _ (.inl ⟨n, rfl⟩)).concat fun a ha => he ▸ hnlog a ha
    · exact h.ordered l' hl'
  · rw [log_appended] at ha
    split at ha
    next hm => exact hm ▸ hconcat a ha
    next => exact h.logTerm m a ha
  · rcases lead_setLead_cases hL with ⟨rfl, rfl, rfl⟩ | ⟨-, hL⟩
    · exact hconcat
    · exact h.leadTerm t' m L' hL
  · rw [log_appended]
    rcases lead_setLead_cases hL with ⟨rfl, rfl, rfl⟩ | ⟨hne, hL⟩
    · exact ⟨le_rfl, fun _ => if_pos rfl⟩
    · obtain ⟨hle', hl'⟩ := h.leadNow t' m L' hL
      refine ⟨hle', fun heq => ?_⟩
      rw [if_neg, hl' heq]
      rintro rfl
      exact hne heq.symm
  · rw [log_appended, lead_setLead]
    obtain ⟨hle', hl'⟩ := h.stoodNow t' m l' hs
    refine ⟨hle', fun heq hn => ?_⟩
    split at hn
    · cases hn
    next hne =>
      rw [if_neg, hl' heq hn]
      rintro rfl
      exact hne heq.symm
  · rcases lead_setLead_cases hL with ⟨rfl, rfl, rfl⟩ | ⟨-, hL⟩
    · obtain ⟨hmaj, l', hs, hp⟩ := h.elected _ m _ hlead
      exact ⟨hmaj, l', hs, hp.trans (List.prefix_append _ _)⟩
    · exact h.elected t' m L' hL
  · obtain ⟨hle', m', L', hL', hk, hhas⟩ := h.held m t' hpos
    obtain ⟨L'', hL'', hp⟩ := hle t' m' L' hL'
    refine ⟨hle', m', L'', hL'', hk.trans hp.length_le, fun heq => ?_⟩
    -- what was acknowledged is a part of what the leader had before
    have htake : L''.take (H.acked m t') = L'.take (H.acked m t') := by
      obtain ⟨r, rfl⟩ := hp
      exact List.take_append_of_le_length hk
    have hsame : ((H.setLog n (H.log n ++ [e])).setLead (H.term n) n (H.log n ++ [e])).acked m t' =
        H.acked m t' := rfl
    rw [hsame, htake, log_appended]
    split
    next hm => exact hm ▸ (hhas heq).trans (List.prefix_append _ _)
    next => exact hhas heq

end Append

/-- A node takes over the leader's log from the first difference on. -/
theorem accept (h : Base nodes termOf H) (hlead : H.lead (H.term n) = some (m, L))
    (hdiff : ¬L.take k <+: H.log n) : Base nodes termOf (H.setLog n (L.take k)) := by
  have hrec : ∀ l', (H.setLog n (L.take k)).OnRecord l' → ∃ l'', H.OnRecord l'' ∧ l' <+: l'' := by
    rintro l' (⟨m', hm'⟩ | hn | hn)
    · rw [log_setLog] at hm'
      split at hm'
      · exact ⟨L, .inr (.inl ⟨_, m, hlead⟩), hm' ▸ List.take_prefix k L⟩
      · exact ⟨l', .inl ⟨m', hm'⟩, List.prefix_refl l'⟩
    · exact ⟨l', .inr (.inl hn), List.prefix_refl l'⟩
    · exact ⟨l', .inr (.inr hn), List.prefix_refl l'⟩
  refine ⟨fun l' hl' => ?_, fun l' hl' => ?_, fun m' a ha => ?_, h.leadTerm, h.stoodTerm,
    fun t' m' L' hL => ?_, fun t' m' l' hs => ?_, h.voted, h.elected, fun m' t' hpos => ?_⟩
  · obtain ⟨l'', hl'', hp⟩ := hrec l' hl'
    exact (h.made l'' hl'').of_isPrefix hp
  · obtain ⟨l'', hl'', hp⟩ := hrec l' hl'
    exact (h.ordered l'' hl'').of_isPrefix hp
  · rw [log_setLog] at ha
    split at ha
    next hm' => exact hm' ▸ h.leadTerm _ m L hlead a (List.mem_of_mem_take ha)
    next => exact h.logTerm m' a ha
  · obtain ⟨hle', hl'⟩ := h.leadNow t' m' L' hL
    refine ⟨hle', fun heq => ?_⟩
    rw [log_setLog, if_neg, hl' heq]
    -- the leader itself has nothing to take over
    rintro rfl
    change H.term m' = t' at heq
    subst heq
    cases hlead.symm.trans hL
    exact hdiff (hl' rfl ▸ List.take_prefix k L)
  · obtain ⟨hle', hl'⟩ := h.stoodNow t' m' l' hs
    refine ⟨hle', fun heq hn => ?_⟩
    rw [log_setLog, if_neg, hl' heq hn]
    rintro rfl
    change H.term m' = t' at heq
    subst heq
    cases hlead.symm.trans hn
  · obtain ⟨hle', m'', L', hL', hk, hhas⟩ := h.held m' t' hpos
    refine ⟨hle', m'', L', hL', hk, fun heq => ?_⟩
    rw [log_setLog]
    split
    next hm' =>
      subst hm'
      change H.term m' = t' at heq
      subst heq
      cases hlead.symm.trans hL'
      exact prefix_take_of_not (List.take_prefix _ _) (hhas rfl) hdiff
    next => exact hhas heq

/-- A node acknowledges what it has of the leader's log. -/
theorem ack (h : Base nodes termOf H) (hlead : H.lead (H.term n) = some (m, L))
    (hk : k ≤ L.length) (hhas : L.take k <+: H.log n) :
    Base nodes termOf (H.setAcked n (H.term n) (max (H.acked n (H.term n)) k)) := by
  refine ⟨h.made, h.ordered, h.logTerm, h.leadTerm, h.stoodTerm, h.leadNow, h.stoodNow,
    fun m' t' c hv => ?_, h.elected, fun m' t' hpos => ?_⟩
  · obtain ⟨hle, hst⟩ := h.voted m' t' c hv
    refine ⟨hle, hst.imp_right fun hzero s hs => ?_⟩
    rw [acked_setAcked, if_neg, hzero s hs]
    rintro ⟨rfl, rfl⟩
    exact hs.not_ge hle
  rw [acked_setAcked] at hpos ⊢
  by_cases heq : m' = n ∧ t' = H.term n
  · rw [if_pos heq] at hpos ⊢
    obtain ⟨rfl, rfl⟩ := heq
    refine ⟨le_rfl, m, L, hlead, ?_, fun _ => ?_⟩
    · refine max_le ?_ hk
      by_cases h0 : 0 < H.acked m' (H.term m')
      · obtain ⟨-, m'', L', hL', hk', -⟩ := h.held m' _ h0
        cases hlead.symm.trans hL'
        exact hk'
      · omega
    · by_cases hle : k ≤ H.acked m' (H.term m')
      · rw [Nat.max_eq_left hle]
        by_cases h0 : 0 < H.acked m' (H.term m')
        · obtain ⟨-, m'', L', hL', -, hhas'⟩ := h.held m' _ h0
          cases hlead.symm.trans hL'
          exact hhas' rfl
        · rw [Nat.eq_zero_of_not_pos h0, List.take_zero]
          exact List.nil_prefix
      · rw [Nat.max_eq_right (Nat.le_of_not_le hle)]
        exact hhas
  · rw [if_neg heq] at hpos ⊢
    exact h.held m' t' hpos

theorem step {U : List E → List E → Prop} (h : Base nodes termOf H)
    (hs : Step nodes termOf U n H H') : Base nodes termOf H' := by
  cases hs with
  | advance ht => exact h.setTerm ht
  | @stand t ht =>
    have hterm : (H.setTerm n t).term n = t := by simp
    have hlog : ∀ e ∈ (H.setTerm n t).log n, termOf e < (H.setTerm n t).term n := by
      intro e he
      rw [hterm]
      exact (h.logTerm n e he).trans_lt ht
    have hstand := (h.setTerm ht).setStood hlog (by rw [hterm]; exact h.stood_none ht)
    rw [hterm] at hstand
    have hvote := hstand.setVote (n := n) (c := n) (l := H.log n)
    rw [show ((H.setTerm n t).setStood t n ((H.setTerm n t).log n)).term n = t from hterm] at hvote
    refine hvote (h.vote_none ht) ?_
    rw [stood_setStood, if_pos ⟨rfl, rfl⟩]
    rfl
  | grant hfree hstood => exact h.setVote hfree hstood
  | elect hnone hstood hmaj => exact h.elect hnone hstood hmaj
  | append hlead he => exact h.append hlead he
  | accept hlead hdiff => exact h.accept hlead hdiff
  | ack hlead hk hhas => exact h.ack hlead hk hhas

end Base

/-! ## What a step does to the leaders -/

variable [DecidableEq N] {nodes : List N} {U : List E → List E → Prop} {a : N}

theorem Step.leadLe (hs : Step nodes termOf U a H H') : LeadLe H H' := by
  cases hs with
  | advance => exact LeadLe.refl _
  | stand => exact LeadLe.refl _
  | grant => exact LeadLe.refl _
  | elect hnone => exact Base.leadLe_setLead fun m L' hL' => by cases hnone.symm.trans hL'
  | append hlead =>
    refine Base.leadLe_setLead (H := H.setLog _ _) fun m L' hL' => ?_
    cases hlead.symm.trans hL'
    exact ⟨rfl, List.prefix_append _ _⟩
  | accept => exact LeadLe.refl _
  | ack => exact LeadLe.refl _

theorem Step.term_le (hs : Step nodes termOf U a H H') (n : N) : H.term n ≤ H'.term n := by
  cases hs with
  | advance ht =>
    rw [term_setTerm]
    split
    next hn => exact hn ▸ ht.le
    next => exact le_rfl
  | @stand t ht =>
    change H.term n ≤ (H.setTerm a t).term n
    rw [term_setTerm]
    split
    next hn => exact hn ▸ ht.le
    next => exact le_rfl
  | _ => exact le_rfl

theorem Step.acked_le (hs : Step nodes termOf U a H H') (n : N) (t : Nat) :
    H.acked n t ≤ H'.acked n t := by
  cases hs with
  | ack =>
    rw [acked_setAcked]
    split
    next heq => rw [heq.1, heq.2]; exact Nat.le_max_left _ _
    next => exact le_rfl
  | _ => exact le_rfl

/-- A leader's log grows by entries of its term only. -/
theorem Step.lead_back {t : Nat} {m : N} {L : List E} (hs : Step nodes termOf U a H H')
    (hL : H'.lead t = some (m, L)) : H.lead t = none ∨ H.lead t = some (m, L) ∨
      ∃ L₀ e, H.lead t = some (m, L₀) ∧ termOf e = t ∧ L = L₀ ++ [e] := by
  cases hs with
  | elect hnone =>
    rw [lead_setLead] at hL
    split at hL
    next ht => exact .inl (ht ▸ hnone)
    next => exact .inr (.inl hL)
  | append hlead he =>
    rw [lead_setLead] at hL
    split at hL
    next ht =>
      subst ht
      cases hL
      exact .inr (.inr ⟨_, _, hlead, he, rfl⟩)
    next => exact .inr (.inl hL)
  | _ => exact .inr (.inl hL)

/-- Only an election gives a term its leader. -/
theorem Step.elected {t : Nat} {m : N} {L : List E} (hs : Step nodes termOf U a H H')
    (hnone : H.lead t = none) (hL : H'.lead t = some (m, L)) :
    t = H.term m ∧ L = H.log m ∧ (Majority nodes fun v => H.vote v t = some m) ∧
      ∃ l, H.stood t m = some l := by
  cases hs with
  | elect _ hstood hmaj =>
    rw [lead_setLead] at hL
    split at hL
    next heq =>
      cases hL
      exact ⟨heq, rfl, heq ▸ hmaj, _, heq ▸ hstood⟩
    next => cases hnone.symm.trans hL
  | append hlead =>
    rw [lead_setLead] at hL
    split at hL
    next heq => cases hnone.symm.trans (heq ▸ hlead)
    next => cases hnone.symm.trans hL
  | _ => cases hnone.symm.trans hL

/-- A log grows, or a prefix of the current leader's log takes its place. -/
theorem Step.log_back (hs : Step nodes termOf U a H H') (n : N) : H.log n <+: H'.log n ∨
    ∃ m L k, H.lead (H.term n) = some (m, L) ∧ H'.log n = L.take k ∧ ¬L.take k <+: H.log n := by
  cases hs with
  | @append e =>
    change H.log n <+: (H.setLog a (H.log a ++ [e])).log n ∨ _
    rw [log_setLog]
    split
    next heq => exact .inl (heq ▸ List.prefix_append _ _)
    next => exact .inl (List.prefix_refl _)
  | @accept m L k hlead hdiff =>
    by_cases heq : n = a
    · subst heq
      exact .inr ⟨m, L, k, hlead, by rw [log_setLog, if_pos rfl], hdiff⟩
    · rw [log_setLog, if_neg heq]
      exact .inl (List.prefix_refl _)
  | _ => exact .inl (List.prefix_refl _)

/-! ## Several steps of one node -/

/-- The steps of a node add to the record and leave the other nodes alone. -/
structure By (n : N) (H H' : History N E) : Prop where
  term : ∀ m, m ≠ n → H'.term m = H.term m
  log : ∀ m, m ≠ n → H'.log m = H.log m
  lead : LeadLe H H'
  led : ∀ t m L, m ≠ n → H'.lead t = some (m, L) → H.lead t = some (m, L)
  stood : ∀ t m l, H.stood t m = some l → H'.stood t m = some l
  acked : ∀ m t, H.acked m t ≤ H'.acked m t

namespace By

variable {n : N} {H'' : History N E}

omit [DecidableEq N]

theorem refl (n : N) (H : History N E) : By n H H :=
  ⟨fun _ _ => rfl, fun _ _ => rfl, .refl H, fun _ _ _ _ h => h, fun _ _ _ h => h,
    fun _ _ => le_rfl⟩

theorem trans (h : By n H H') (h' : By n H' H'') : By n H H'' where
  term m hm := (h'.term m hm).trans (h.term m hm)
  log m hm := (h'.log m hm).trans (h.log m hm)
  lead := h.lead.trans h'.lead
  led t m L hm hL := h.led t m L hm (h'.led t m L hm hL)
  stood t m l hl := h'.stood t m l (h.stood t m l hl)
  acked m t := (h.acked m t).trans (h'.acked m t)

end By

theorem Base.by_step (h : Base nodes termOf H) (hs : Step nodes termOf U a H H') : By a H H' := by
  refine ⟨fun m hm => ?_, fun m hm => ?_, hs.leadLe, fun t m L hm hL => ?_, fun t m l hl => ?_,
    fun m t => hs.acked_le m t⟩
  · cases hs with
    | @advance t => exact (term_setTerm H a m t).trans (if_neg hm)
    | @stand t => exact (term_setTerm H a m t).trans (if_neg hm)
    | _ => rfl
  · cases hs with
    | append => exact (log_setLog H a m _).trans (if_neg hm)
    | accept => exact (log_setLog H a m _).trans (if_neg hm)
    | _ => rfl
  · cases hs with
    | elect | append =>
      rw [lead_setLead] at hL
      split at hL
      · cases hL
        exact (hm rfl).elim
      · exact hL
    | _ => exact hL
  · cases hs with
    | @stand t' ht =>
      rw [stood_setStood, if_neg]
      · exact hl
      · rintro ⟨rfl, rfl⟩
        cases (h.stood_none ht).symm.trans hl
    | _ => exact hl

/-- Steps of one node. -/
abbrev Steps (nodes : List N) (termOf : E → Nat) (U : List E → List E → Prop) (n : N) :
    History N E → History N E → Prop :=
  Relation.ReflTransGen (Step nodes termOf U n)

theorem Base.steps (h : Base nodes termOf H) (hs : Steps nodes termOf U a H H') :
    Base nodes termOf H' ∧ By a H H' := by
  induction hs with
  | refl => exact ⟨h, .refl a H⟩
  | tail _ hs ih => exact ⟨ih.1.step hs, ih.2.trans (ih.1.by_step hs)⟩

/-- Steps of any nodes. -/
abbrev Evolves (nodes : List N) (termOf : E → Nat) (U : List E → List E → Prop) :
    History N E → History N E → Prop :=
  Relation.ReflTransGen fun H H' => ∃ n, Step nodes termOf U n H H'

theorem Steps.evolves (hs : Steps nodes termOf U a H H') : Evolves nodes termOf U H H' := by
  induction hs with
  | refl => exact .refl
  | tail _ hs ih => exact ih.tail ⟨a, hs⟩

theorem Evolves.leadLe (h : Evolves nodes termOf U H H') : LeadLe H H' := by
  induction h with
  | refl => exact .refl H
  | tail _ hs ih => exact ih.trans hs.choose_spec.leadLe

theorem Evolves.term_le (h : Evolves nodes termOf U H H') (n : N) : H.term n ≤ H'.term n := by
  induction h with
  | refl => exact le_rfl
  | tail _ hs ih => exact ih.trans (hs.choose_spec.term_le n)

end History
