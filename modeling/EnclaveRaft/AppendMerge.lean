import EnclaveRaft.Merge
import EnclaveRaft.Walks

/-!
# The merge of an append request

`handle_append_entries` goes over the entries of a request in three loops: it skips those that are in
the log, overwrites those that differ and appends those that are missing. On a log that has not been
compacted the three together are one operation on lists, `raftMerge`: the log is cut before the first
entry of the request that says something new, and goes on with the request. An entry that the state
machine does not take stops the loops, with the entries up to it in the log and no reply.
-/

namespace EnclaveRaft

open Act Server LogStore

/-! ## The specification -/

/-- Entry `j` of a request that goes on after index `k` is in the log, with its term. -/
def Present (l : List LogEntry) (k : Nat) (es : List LogEntry) (j : Nat) : Prop :=
  ∃ e ∈ l[k + j]?, ∃ e' ∈ es[j]?, e.term = e'.term

instance (l : List LogEntry) (k : Nat) (es : List LogEntry) (j : Nat) :
    Decidable (Present l k es j) :=
  inferInstanceAs (Decidable (∃ e ∈ l[k + j]?, ∃ e' ∈ es[j]?, e.term = e'.term))

/-- The first entry of a request that is missing in the log or differs in term. -/
def firstNew (l : List LogEntry) (k : Nat) (es : List LogEntry) : Option Nat :=
  (List.range es.length).find? fun j => ¬Present l k es j

/-- The log after a request that goes on after index `k`. -/
def raftMerge (l : List LogEntry) (k : Nat) (es : List LogEntry) : List LogEntry :=
  match firstNew l k es with
  | none => l
  | some j => l.take (k + j) ++ es.drop j

/-- The entries of a request that are not in the log yet. -/
def newEntries (l : List LogEntry) (k : Nat) (es : List LogEntry) : List LogEntry :=
  match firstNew l k es with
  | none => []
  | some j => es.drop j

/-- The log holds the entry that a request starts after. -/
def HoldsPrevious (l : List LogEntry) (req : ReqMsg) : Prop :=
  req.lastLogIdx = 0 ∨ ∃ e ∈ l[req.lastLogIdx - 1]?, e.term = req.lastLogTerm

instance (l : List LogEntry) (req : ReqMsg) : Decidable (HoldsPrevious l req) :=
  inferInstanceAs (Decidable (_ ∨ _))

section Spec

variable {l : List LogEntry} {k : Nat} {e : LogEntry} {es : List LogEntry}

theorem present_zero : Present l k (e :: es) 0 ↔ ∃ old ∈ l[k]?, old.term = e.term := by
  simp [Present]

theorem present_succ (j : Nat) : Present l k (e :: es) (j + 1) ↔ Present l (k + 1) es j := by
  simp [Present, Nat.add_assoc, Nat.add_comm 1 j]

theorem firstNew_cons_pos (h : Present l k (e :: es) 0) :
    firstNew l k (e :: es) = (firstNew l (k + 1) es).map (· + 1) := by
  unfold firstNew
  rw [List.length_cons, List.range_succ_eq_map, List.find?_cons_of_neg (by simpa using h),
    List.find?_map]
  refine congrArg _ (congrArg (fun P => List.find? P _) (funext fun j => ?_))
  simp only [Function.comp, present_succ]

theorem firstNew_cons_neg (h : ¬Present l k (e :: es) 0) : firstNew l k (e :: es) = some 0 := by
  unfold firstNew
  rw [List.length_cons, List.range_succ_eq_map, List.find?_cons_of_pos (by simpa using h)]

end Spec

/-! ## The loops -/

section Loops

variable {st : LogStore} {l : List LogEntry}

theorem present_iff_skips (h : Represents st ⟨1, l⟩) {k : Nat} {e : LogEntry} {es : List LogEntry} :
    k + 1 < st.nextSlot ∧ st.termAt (k + 1) = e.term ↔ Present l k (e :: es) 0 := by
  have hnext : st.nextSlot = 1 + l.length := h.nextSlot
  have hget : OffsetList.get? ⟨1, l⟩ (k + 1) = l[k]? := by simp [OffsetList.get?]
  rw [present_zero, hnext, termAt, h.entryAt, OffsetList.entryAt, hget]
  cases hl : l[k]? with
  | none =>
    have hlen := List.getElem?_eq_none_iff.1 hl
    simp only [Option.mem_def, reduceCtorEq, false_and, exists_false, iff_false]
    omega
  | some old =>
    have hlen := (List.getElem?_eq_some_iff.1 hl).1
    simp only [Option.mem_def, Option.some.injEq, Option.getD_some, exists_eq_left']
    exact and_iff_right (by omega)

/-- The first loop stops at the first entry that says something new. -/
theorem skipMatching_eq (h : Represents st ⟨1, l⟩) (k : Nat) (es : List LogEntry) :
    skipMatching st (k + 1) es = match firstNew l k es with
      | none => (k + 1 + es.length, [])
      | some j => (k + 1 + j, es.drop j) := by
  induction es generalizing k with
  | nil => rfl
  | cons e es ih =>
    unfold skipMatching
    by_cases hp : Present l k (e :: es) 0
    · rw [if_pos ((present_iff_skips h).2 hp), ih, firstNew_cons_pos hp]
      cases firstNew l (k + 1) es with
      | none =>
        refine Prod.ext ?_ rfl
        show k + 1 + 1 + es.length = k + 1 + (es.length + 1)
        omega
      | some j =>
        refine Prod.ext ?_ rfl
        show k + 1 + 1 + j = k + 1 + (j + 1)
        omega
    · rw [if_neg fun hs => hp ((present_iff_skips h).1 hs), firstNew_cons_neg hp]
      rfl

theorem skipMatching_snd (h : Represents st ⟨1, l⟩) (k : Nat) (es : List LogEntry) :
    (skipMatching st (k + 1) es).2 = newEntries l k es := by
  rw [skipMatching_eq h, newEntries]
  cases firstNew l k es <;> rfl

/-- **The three loops are the merge.** -/
theorem represents_written (h : Represents st ⟨1, l⟩) {k : Nat} (hk : k ≤ l.length)
    (es : List LogEntry) : Represents (written st k es) ⟨1, raftMerge l k es⟩ := by
  have hnext : OffsetList.next ⟨1, l⟩ = 1 + l.length := rfl
  have hw := (h.written (k := k) (Nat.le_add_left 1 k) (by omega) es false).1
  rw [skipMatching_eq h] at hw
  have hfirst (j : Nat) (hj : firstNew l k es = some j) : j < es.length :=
    List.mem_range.1 (List.mem_of_find?_eq_some hj)
  unfold raftMerge
  cases hn : firstNew l k es with
  | none =>
    rw [hn] at hw
    exact hw
  | some j =>
    rw [hn] at hw
    obtain ⟨e, rest, hdrop⟩ : ∃ e rest, es.drop j = e :: rest :=
      List.exists_cons_of_ne_nil fun hnil => by
        have hlen := List.drop_eq_nil_iff.1 hnil
        have hlt := hfirst j hn
        omega
    simp only [hdrop, OffsetList.merge] at hw ⊢
    rwa [show k + 1 + j - 1 = k + j by omega] at hw

end Loops

/-! ## The handler -/

section Handler

variable {ctx : Context} {s : Server} {req : ReqMsg} {l : List LogEntry}

/-- The previous entry is looked up in the log. -/
theorem logOkay_runs (req : ReqMsg) (h : Represents s.logStore ⟨1, l⟩) :
    Runs (logOkay req) s (decide (HoldsPrevious l req)) s [] := by
  have hnext : s.nextSlot = 1 + l.length := h.nextSlot
  have hstart : s.logStore.startIdx = 1 := h.start
  refine .get_bind ?_
  by_cases h0 : req.lastLogIdx = 0
  · rw [decide_eq_true (show HoldsPrevious l req from .inl h0)]
    exact .of_pos h0 runs_pure
  refine .of_neg h0 ?_
  have hholds : HoldsPrevious l req ↔ ∃ e ∈ l[req.lastLogIdx - 1]?, e.term = req.lastLogTerm :=
    or_iff_right h0
  by_cases hlt : req.lastLogIdx < s.nextSlot
  · refine .of_pos hlt ?_
    have hterm : Runs (termForLog req.lastLogIdx) s (s.logStore.termAt req.lastLogIdx) s [] :=
      .get_bind (.of_neg h0 (.of_pos (by omega) runs_pure))
    have hget : OffsetList.get? ⟨1, l⟩ req.lastLogIdx = l[req.lastLogIdx - 1]? :=
      if_pos (Nat.one_le_iff_ne_zero.2 h0)
    have hat : HoldsPrevious l req ↔ req.lastLogTerm = s.logStore.termAt req.lastLogIdx := by
      rw [hholds, termAt, h.entryAt, OffsetList.entryAt, hget,
        List.getElem?_eq_getElem (show req.lastLogIdx - 1 < l.length by omega)]
      simp [eq_comm]
    rw [decide_eq_decide.2 hat]
    exact hterm.bind runs_pure
  · have hnone : l[req.lastLogIdx - 1]? = none := List.getElem?_eq_none_iff.2 (by omega)
    rw [decide_eq_false (by rw [hholds, hnone]; simp)]
    exact .of_neg hlt runs_pure

theorem commit_runs_follower (k : Nat) (hr : s.role ≠ .leader) :
    Runs (commit ctx k) s () { s with quickCommitIdx := max s.quickCommitIdx k } [] := by
  refine .get_bind ?_
  by_cases hlt : s.quickCommitIdx < k
  · rw [when_pos hlt, max_eq_right hlt.le]
    refine .modify_bind ?_
    rw [when_neg hr]
    exact runs_pure
  · rw [when_neg hlt, max_eq_left (Nat.le_of_not_lt hlt)]
    exact runs_pure

/-- The part of the handler that takes the entries in. -/
theorem acceptEntries_runs (req : ReqMsg) (resp : RespMsg) (hr : s.role ≠ .leader)
    (htake : ∀ e ∈ (skipMatching s.logStore (req.lastLogIdx + 1) req.logEntries).2,
      ctx.stateMachine.takes e) :
    ∃ s' out, Runs (do
        writeEntries ctx req
        modify fun s => { s with leader := req.src }
        commit ctx req.commitIdx
        pure resp) s resp s' out ∧
      s'.logStore = written s.logStore req.lastLogIdx req.logEntries := by
  let s₁ : Server :=
    { withLog s (written s.logStore req.lastLogIdx req.logEntries)
        (writtenFlag s.logStore req.lastLogIdx req.logEntries s.configChanging) with
      leader := req.src }
  have hcommit : Runs (commit ctx req.commitIdx) s₁ () _ [] := commit_runs_follower _ hr
  exact ⟨_, _, (writeEntries_runs htake).bind (.modify_bind (hcommit.bind runs_pure)), rfl⟩

/-- An entry that is refused stops it. -/
theorem writeEntries_error {req : ReqMsg}
    (h : ¬∀ e ∈ (skipMatching s.logStore (req.lastLogIdx + 1) req.logEntries).2,
      ctx.stateMachine.takes e) :
    ∃ s' out, writeEntries ctx req s = ⟨.error .stateMachineFailed, s', out⟩ := by
  have hall : (skipMatching s.logStore (req.lastLogIdx + 1) req.logEntries).2.all
      ctx.stateMachine.takes = false := by
    rw [Bool.eq_false_iff]
    exact fun hall => h (List.all_eq_true.1 hall)
  rw [writeEntries_eq, hall]
  exact ⟨_, _, rfl⟩

theorem HoldsPrevious.le (h : HoldsPrevious l req) : req.lastLogIdx ≤ l.length := by
  rcases h with h0 | ⟨e, he, _⟩
  · omega
  · have hlt := (List.getElem?_eq_some_iff.1 he).1
    omega

theorem hearLeader_runs (x : RaftException) (hrole : s.role = .follower) :
    Runs (hearLeader x) s () s.restartElectionTimer [] := by
  refine .get_bind ?_
  rw [hrole]
  exact runs_modify

/-- The handler does what the protocol asks for: if the log holds the entry that the request starts
after, the log becomes the merge, and the reply names the index behind the request's entries.
Otherwise the log stays, and the reply names the end of the log. -/
def Merges (ctx : Context) (s : Server) (req : ReqMsg) (l : List LogEntry) : Prop :=
  let r := handleAppendEntries ctx req s
  if HoldsPrevious l req then
    (∃ resp, r.result = .ok resp ∧ resp.accepted = true ∧
      resp.nextIdx = req.lastLogIdx + req.logEntries.length + 1) ∧
    Represents r.state.logStore ⟨1, raftMerge l req.lastLogIdx req.logEntries⟩
  else
    (∃ resp, r.result = .ok resp ∧ resp.accepted = false ∧ resp.nextIdx = s.nextSlot) ∧
      r.state.logStore = s.logStore

/-- **`handle_append_entries` computes the merge.** A follower with any log that has not been
compacted gets an append request of its term. It does what the protocol asks for exactly if the state
machine takes the entries that are new, where the request goes on from the log. -/
theorem append_merges (ctx : Context) (s : Server) (req : ReqMsg) (l : List LogEntry)
    (hlog : Represents s.logStore ⟨1, l⟩) (hrole : s.role = .follower) (hterm : req.term = s.term) :
    Merges ctx s req l ↔ (HoldsPrevious l req →
      ∀ e ∈ newEntries l req.lastLogIdx req.logEntries, ctx.stateMachine.takes e) := by
  have hq : Quiet s s.restartElectionTimer := quiet_restartElectionTimer s
  have hstore : s.restartElectionTimer.logStore = s.logStore := hq.field Server.logStore
  have hrole' : s.restartElectionTimer.role ≠ .leader := by
    rw [hq.field Server.role, hrole]
    nofun
  have hterm' : ¬req.term < s.restartElectionTimer.term := by
    rw [show s.restartElectionTimer.term = s.term from hq.field Server.term, hterm]
    exact Nat.lt_irrefl _
  have hlog' : Represents s.restartElectionTimer.logStore ⟨1, l⟩ := hstore ▸ hlog
  have hheard := hearLeader_runs (.anotherLeader req.src) hrole
  have hokay := logOkay_runs req hlog'
  let resp : RespMsg :=
    { term := s.restartElectionTimer.term
      type := .appendEntriesResponse
      src := s.restartElectionTimer.id
      dst := req.src
      nextIdx := s.restartElectionTimer.nextSlot }
  unfold Merges
  by_cases hold : HoldsPrevious l req
  · rw [decide_eq_true hold] at hokay
    have hgo : ¬(req.term < s.restartElectionTimer.term ∨ ¬true = true) := by
      rintro (h | h)
      · exact hterm' h
      · exact h rfl
    rw [← skipMatching_snd hlog']
    rw [if_pos hold]
    have hhandle : handleAppendEntries ctx req s = (do
        writeEntries ctx req
        modify fun s => { s with leader := req.src }
        commit ctx req.commitIdx
        pure (resp.accept (req.lastLogIdx + req.logEntries.length + 1)) : M RespMsg)
          s.restartElectionTimer := by
      show (when (req.term = s.term) _ >>= _) s = _
      rw [when_pos hterm, hheard.bind_eq]
      show (⟨_, _, _⟩ : Outcome ..) = _
      rw [get_bind_apply, hokay.bind_eq, if_neg hgo]
      rfl
    constructor
    · -- without a reply there is nothing that the handler could have done right
      rintro ⟨⟨resp', hresp, -⟩, -⟩ -
      by_contra hrefused
      obtain ⟨s', out, herror⟩ := writeEntries_error hrefused
      rw [hhandle, bind_of_error herror] at hresp
      cases hresp
    · intro htake
      obtain ⟨s', out, hrun, hs'⟩ := acceptEntries_runs req
        (resp.accept (req.lastLogIdx + req.logEntries.length + 1)) hrole' (htake hold)
      rw [hhandle, show _ = _ from hrun]
      refine ⟨⟨_, rfl, rfl, rfl⟩, ?_⟩
      rw [show s'.logStore = _ from hs']
      exact represents_written hlog' hold.le req.logEntries
  · rw [decide_eq_false hold] at hokay
    have hrun : Runs (handleAppendEntries ctx req) s resp s.restartElectionTimer [] := by
      refine .get_bind ?_
      rw [when_pos hterm]
      exact hheard.bind (.get_bind (hokay.bind (.of_pos (.inr nofun) runs_pure)))
    rw [if_neg hold, show handleAppendEntries ctx req s = _ from hrun]
    exact iff_of_true ⟨⟨_, rfl, rfl, congrArg LogStore.nextSlot hstore⟩, hstore⟩ fun h => (hold h).elim

/-- A string of one character, with its end. -/
def letter (t : Nat) (v : UInt8) : LogEntry := ⟨t, .appLog, .bytes [v, 0]⟩

/-- Two entries of term 1, and a request that repeats the first and goes on in term 2. -/
theorem append_merges_conflict :
    let s : Server := { load 1 { config := {} } with
      logStore := (LogStore.empty.append (letter 1 65)).append (letter 1 66)
      state := { term := 2 } }
    let es := [letter 1 65, letter 2 67, letter 2 68]
    let req : ReqMsg := ⟨2, .appendEntriesRequest, 2, 1, 0, 0, 0, es⟩
    Represents (handleAppendEntries {} req s).state.logStore ⟨1, es⟩ := by
  intro s es req
  have hmerge : raftMerge [letter 1 65, letter 1 66] 0 es = es := by rfl
  have hnew : newEntries [letter 1 65, letter 1 66] 0 es = [letter 2 67, letter 2 68] := by rfl
  have h := (append_merges {} s req [letter 1 65, letter 1 66] ⟨le_rfl, rfl, rfl⟩ rfl rfl).2
    fun _ => by rw [hnew]; decide
  rw [Merges, if_pos (.inl rfl)] at h
  exact hmerge ▸ h.2

/-- The entry that a client's empty string becomes stops the follower: it is in the log, the entry
behind it is not, and there is no reply. -/
theorem append_stops :
    let s : Server := load 1 { config := {}, state := some ⟨1, nobody⟩ }
    let req : ReqMsg := ⟨1, .appendEntriesRequest, 2, 1, 0, 0, 0,
      [⟨1, .appLog, .bytes (List.replicate 8 0)⟩, letter 1 65]⟩
    (handleAppendEntries {} req s).result = .error .stateMachineFailed ∧
      (handleAppendEntries {} req s).state.nextSlot = 2 ∧ ¬Merges {} s req [] := by
  intro s req
  have hresult : (handleAppendEntries {} req s).result = .error .stateMachineFailed := by rfl
  refine ⟨hresult, rfl, fun h => ?_⟩
  rw [Merges, if_pos (.inl rfl)] at h
  obtain ⟨⟨resp, hresp, -⟩, -⟩ := h
  rw [hresult] at hresp
  cases hresp

end Handler

end EnclaveRaft
