import EnclaveRaft.Intact

/-!
# Votes and compaction

A server compares the last entry that a candidate reports with its own before it votes. For its own
it asks the log store, which answers with the placeholder, an entry of term 0, when compaction or a
snapshot from the leader has left no entry in it. The candidate's side looks at the snapshot
instead. So a server without entries behind its snapshot votes for any candidate that has some.
-/

namespace EnclaveRaft

open Act Server LogStore

/-- The term and the index of the last entry of a server: the last one in the log store or, if
entries have been dropped and none is left, the last one that the snapshot covers. -/
def Server.lastEntry (s : Server) : Nat × Nat :=
  match s.logStore.logs.getLast? with
  | some (i + 1, e) => (e.term, i + 1)
  | _ =>
    if s.logStore.startIdx = 1 then (0, 0)
    else (s.smLastSnapshot.map fun snp => (snp.lastLogTerm, snp.lastLogIdx)).getD (0, 0)

/-- A candidate's log goes as far as an entry. -/
def ReqMsg.Reaches (req : ReqMsg) (last : Nat × Nat) : Prop :=
  last.1 < req.lastLogTerm ∨ (last.1 = req.lastLogTerm ∧ last.2 ≤ req.lastLogIdx)

instance (req : ReqMsg) (last : Nat × Nat) : Decidable (req.Reaches last) :=
  inferInstanceAs (Decidable (last.1 < req.lastLogTerm ∨
    (last.1 = req.lastLogTerm ∧ last.2 ≤ req.lastLogIdx)))

/-- The store answers for the last entry: it has one, or never had, or the snapshot is one of
term 0 as the placeholder is. -/
def Server.AnswersLast (s : Server) : Prop :=
  s.logStore.startIdx < s.nextSlot ∨ s.logStore.startIdx = 1 ∨
    ∀ snp, s.smLastSnapshot = some snp → snp.lastLogTerm = 0 ∧ snp.lastLogIdx < s.nextSlot

section

variable {ctx : Context} {s : Server} {a : OffsetList} {req : ReqMsg} {now : Int} {resp : RespMsg}

/-- The two answers agree if the store has an entry. -/
theorem lastEntry_eq (ha : Represents s.logStore a) (h : s.logStore.startIdx < s.nextSlot) :
    s.lastEntry = (s.logStore.lastEntry.term, usub s.nextSlot 1) := by
  have hpos := ha.pos
  have hnext : s.nextSlot = a.next := ha.nextSlot
  rw [ha.start, hnext, OffsetList.next] at h
  obtain ⟨es, e, hes⟩ : ∃ es e, a.entries = es ++ [e] :=
    (List.eq_nil_or_concat' a.entries).resolve_left fun hnil => by simp [hnil] at h
  have hlast : usub s.nextSlot 1 = a.start + es.length := by
    rw [hnext, OffsetList.next, hes, List.length_append, List.length_singleton, usub_of_le (by omega)]
    omega
  have hentry : s.logStore.lastEntry = e := by
    rw [LogStore.lastEntry]
    change s.logStore.entryAt (usub s.nextSlot 1) = e
    rw [hlast, ha.entryAt, OffsetList.entryAt, OffsetList.get?, if_pos (Nat.le_add_right _ _), hes]
    simp
  have hlogs : s.logStore.logs.getLast? = some (a.start + es.length, e) := by
    rw [ha.logs, hes, OrderedMap.indexed_append, ← List.cons_append]
    exact List.getLast?_concat ..
  obtain ⟨i, hi⟩ : ∃ i, a.start + es.length = i + 1 := ⟨a.start + es.length - 1, by omega⟩
  rw [hi] at hlast hlogs
  rw [Server.lastEntry, hlogs, hentry, hlast]

/-- Without entries the store answers with the placeholder, and the snapshot is what counts. -/
theorem lastEntry_empty (ha : Represents s.logStore a) (h : ¬s.logStore.startIdx < s.nextSlot) :
    s.logStore.lastEntry.term = 0 ∧ s.lastEntry =
      if s.logStore.startIdx = 1 then (0, 0)
      else (s.smLastSnapshot.map fun snp => (snp.lastLogTerm, snp.lastLogIdx)).getD (0, 0) := by
  have hpos := ha.pos
  have hnext : s.nextSlot = a.next := ha.nextSlot
  rw [ha.start, hnext, OffsetList.next] at h
  have hes : a.entries = [] := List.length_eq_zero_iff.1 (by omega)
  refine ⟨?_, ?_⟩
  · rw [LogStore.lastEntry, ha.entryAt, OffsetList.entryAt, OffsetList.get?, hes]
    simp [placeholder]
  · rw [Server.lastEntry, ha.logs, hes]
    rfl

/-- A vote is only given to a candidate whose log goes as far as what the store answers. -/
theorem accepted_voteLogOkay (htype : req.type = .requestVoteRequest)
    (hresp : (processReq ctx req now s).result = .ok resp) (hacc : resp.accepted) :
    ∃ s₁, Keeps s s₁ ∧ grantsVote s₁ req := by
  have hwalk : Walks (Micro ctx (.request req now) s) (processReq ctx req now) s
      fun resp _ => resp.accepted → ∃ s₁, Keeps s s₁ ∧ grantsVote s₁ req := by
    refine walks_bind (walks_bringTerm rfl) fun _ s₁ h => ?_
    rw [htype]
    refine walks_get_bind (walks_ite (fun hg => ?_) fun _ => walks_pure nofun)
    exact walks_modify_bind (.grant rfl htype hg h.1) (walks_pure fun _ => ⟨s₁, h.1, hg⟩)
  exact hwalk.2 resp hresp hacc

/-- The server votes for a candidate of its own term that it has voted for already, if the log
goes as far as what the store answers. -/
theorem processReq_grants (hterm : req.term = s.term) (htype : req.type = .requestVoteRequest)
    (hsrc : req.src = s.votedFor) (hlog : voteLogOkay s req) :
    ∃ resp, (processReq ctx req now s).result = .ok resp ∧ resp.accepted := by
  let s₁ := if 0 < s.stepsToDown then { s with stepsToDown := 2 } else s
  have hgrants : grantsVote s₁ req := by
    have hs₁ : grantsVote s₁ req = grantsVote s req := by
      show grantsVote (if _ then _ else _) req = _
      split <;> rfl
    rw [hs₁, grantsVote, hlog, hterm, hsrc]
    simp
  have hterm₁ : Runs (updateTerm req.term) s false s [] :=
    Runs.get_bind (by rw [if_neg (by omega)]; exact runs_pure)
  have hbring : Runs (when (req.type.bringsTerm) do
      let _ ← updateTerm req.term
      modify fun s => if 0 < s.stepsToDown then { s with stepsToDown := 2 } else s) s () s₁ [] := by
    rw [when_pos (by simp [MsgType.bringsTerm, htype])]
    exact hterm₁.bind runs_modify
  have hvote : Runs (handleVoteReq req) s₁ _ _ [] :=
    Runs.get_bind (by rw [if_pos hgrants]; exact Runs.modify_bind runs_pure)
  have hrun : Runs (processReq ctx req now) s _ _ [] :=
    hbring.bind (by rw [htype]; exact hvote)
  exact ⟨_, congrArg Outcome.result hrun, rfl⟩

end

/-- Server 3 stands for term 2, with a log that ends at `lastLogIdx` in term 1. -/
def standReq (lastLogIdx : Nat) : ReqMsg where
  term := 2
  type := .requestVoteRequest
  src := 3
  dst := 2
  lastLogTerm := 1
  lastLogIdx := lastLogIdx
  commitIdx := 0

/-- Does the server give a candidate its vote? -/
def Server.votesFor (ctx : Context) (s : Server) (req : ReqMsg) : Bool :=
  match (processReq ctx req 0 s).result with
  | .ok resp => resp.accepted
  | .error _ => false

theorem Server.votesFor_eq_true {ctx : Context} {s : Server} {req : ReqMsg}
    (h : s.votesFor ctx req = true) :
    ∃ resp, (processReq ctx req 0 s).result = .ok resp ∧ resp.accepted := by
  unfold votesFor at h
  split at h
  next resp hresp => exact ⟨resp, hresp, h⟩
  next => cases h

/-- What server 2 is given: two entries, which it applies. -/
def twoApplied : List Input :=
  [.request (entriesReq 1 0 2 [confEntry 3 1, ⟨1, .appLog, .bytes [7, 0]⟩]) 0, .commitBg, .commitBg]

end EnclaveRaft
