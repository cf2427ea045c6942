import EnclaveRaft.Intact

/-!
# Entries are applied in order

On an intact log the background thread applies one entry after the other, each of them as the log
has it. What it has applied is only forgotten when the server accepts an invitation to join another
cluster: the commit index starts again from zero while the log and the state machine stay as they
are. That is harmless as long as the state machine has not been given anything.
-/

namespace EnclaveRaft

open Act Server LogStore

/-- The index of a call of `commit` of the state machine. -/
def Effect.committed : Effect → Option Nat
  | commit idx _ => some idx
  | _ => none

/-- The indices at which the state machine has been given entries, in order. -/
def committedAt (o : List Effect) : List Nat := o.filterMap Effect.committed

theorem committedAt_append (o o' : List Effect) :
    committedAt (o ++ o') = committedAt o ++ committedAt o' :=
  List.filterMap_append

theorem committedAt_calls (o : List Effect) : committedAt (calls o) = committedAt o := by
  unfold committedAt calls
  rw [List.filterMap_filter]
  congr 1
  funext e
  cases e <;> rfl

theorem mem_committedAt {o : List Effect} {i : Nat} : i ∈ committedAt o ↔ ∃ b, .commit i b ∈ o := by
  constructor
  · intro h
    obtain ⟨e, he, hi⟩ := List.mem_filterMap.1 h
    cases e <;> cases hi
    exact ⟨_, he⟩
  · intro ⟨b, h⟩
    exact List.mem_filterMap.2 ⟨_, h, rfl⟩

/-- The server takes up an invitation to join a cluster. -/
def Input.Joins (s : Server) : Input → Prop
  | request req _ => req.type = .joinClusterRequest ∧ ¬s.catchingUp ∧
    req.logEntries.map LogEntry.valType = [.conf]
  | _ => False

instance (s : Server) : (inp : Input) → Decidable (inp.Joins s)
  | .request _ _ => inferInstanceAs (Decidable (_ ∧ ¬_ ∧ _))
  | .electionTimeout | .hbTimeout _ | .response _ _ _ | .failure _ | .resend _ | .commitBg =>
    inferInstanceAs (Decidable False)

/-- An invitation is only taken up by a server whose state machine has not been given anything. -/
def Input.JoinsUnused (past : List Effect) (s : Server) (inp : Input) : Prop :=
  inp.Joins s → committedAt past = []

instance (past : List Effect) (s : Server) (inp : Input) : Decidable (inp.JoinsUnused past s) :=
  inferInstanceAs (Decidable (inp.Joins s → committedAt past = []))

section Steps

variable {ctx : Context} {inp : Input} {s₀ s s' : Server} {o : List Effect}

theorem committedAt_appliedOut (idx : Nat) (e : LogEntry) :
    committedAt (appliedOut idx e) = if e.valType = .appLog then [idx] else [] := by
  unfold appliedOut
  split <;> rfl

theorem committedAt_snapshotOut (ctx : Context) (st : LogStore) (idx : Nat) :
    committedAt (snapshotOut ctx st idx) = [] := by
  unfold snapshotOut
  split <;> rfl

/-- A round gives the state machine the next entry if it is for it, and goes on to that entry. -/
theorem BgRound.commits {l : Ledger} (h : BgRound ctx s l o) :
    (o = [] ∧ l = s.ledger) ∨ (l.smCommitIndex = s.smCommitIndex + 1 ∧ committedAt o =
      if (s.logStore.entryAt (s.smCommitIndex + 1)).valType = .appLog then [s.smCommitIndex + 1]
      else []) := by
  cases h with
  | idle => exact .inl ⟨rfl, rfl⟩
  | plain => exact .inr ⟨rfl, committedAt_appliedOut _ _⟩
  | snapshot =>
    refine .inr ⟨rfl, ?_⟩
    show committedAt (appliedOut _ _ ++ snapshotOut _ _ _) = _
    rw [committedAt_append, committedAt_snapshotOut, committedAt_appliedOut, List.append_nil]

/-- What a round gives the state machine is the entry that comes next. -/
theorem BgRound.given {l : Ledger} (h : BgRound ctx s l o) {i : Nat} {buf : Payload}
    (hi : .commit i buf ∈ o) :
    s.smCommitIndex < usub s.nextSlot 1 ∧ i = s.smCommitIndex + 1 ∧
      (s.logStore.entryAt i).valType = .appLog ∧ (s.logStore.entryAt i).buf = buf := by
  have happlied : ∀ {idx e}, .commit i buf ∈ appliedOut idx e →
      i = idx ∧ e.valType = .appLog ∧ e.buf = buf := by
    intro idx e hmem
    unfold appliedOut at hmem
    split at hmem
    next htype =>
      cases List.mem_singleton.1 hmem
      exact ⟨rfl, htype, rfl⟩
    next => cases hmem
  cases h with
  | idle => cases hi
  | plain _ hlog =>
    simp only [List.mem_cons, reduceCtorEq, false_or] at hi
    obtain ⟨rfl, h⟩ := happlied hi
    exact ⟨hlog, rfl, h⟩
  | snapshot _ hlog =>
    simp only [List.mem_cons, reduceCtorEq, false_or, List.mem_append] at hi
    rcases hi with hi | hi
    · obtain ⟨rfl, h⟩ := happlied hi
      exact ⟨hlog, rfl, h⟩
    · unfold snapshotOut at hi
      split at hi <;> simp at hi

/-- An installed snapshot gives the state machine no entry and goes forward. -/
theorem InstallRound.commits {snp : Snapshot} {l : Ledger} (h : InstallRound ctx snp s l o)
    (hlt : s.smCommitIndex < snp.lastLogIdx) :
    committedAt o = [] ∧ s.smCommitIndex ≤ l.smCommitIndex := by
  cases h with
  | failed | unsaved => exact ⟨rfl, le_rfl⟩
  | done => exact ⟨rfl, hlt.le⟩

/-- Only an invitation sets the commit index back. -/
theorem LedgerStep.smCommitIndex_le (h : LedgerStep ctx inp s₀ s o s') (hbg : inp ≠ .commitBg)
    (hinst : ∀ snp, ¬inp.Installs snp) :
    s.smCommitIndex ≤ s'.smCommitIndex ∨ inp.Joins s₀ := by
  cases h with
  | same hs' => exact .inl (congrArg Ledger.smCommitIndex hs').ge
  | saveInitial _ _ hs' | client _ _ _ _ hs' | confAppend _ _ hs' | merge _ _ _ _ _ _ _ _ hs'
  | pack _ _ _ _ _ hs' | commitMajority _ _ _ _ _ _ _ hs' | commitAlone _ _ _ hs'
  | packCommit _ _ _ hs' | commitFollower _ _ _ _ _ _ _ _ _ hs' | abandon _ _ _ _ hs' =>
    subst hs'
    exact .inl le_rfl
  | join hin htype hk hcatch hentry =>
    subst hin hk
    obtain ⟨e, he, hconf⟩ := hentry
    exact .inr ⟨htype, by simp [hcatch], by simp [he, hconf]⟩
  | process hin | confApplied hin | snapshot hin => exact (hbg hin).elim
  | installCompact hin | installApply hin | installDone hin => exact (hinst _ hin).elim

/-- **One input.** Either the state machine is given nothing, or it is given the next entry. -/
theorem Server.take_commits (ctx : Context) (inp : Input) (s : Server) :
    (committedAt (inp.handle ctx s).out = [] ∧
        (s.smCommitIndex ≤ (s.take ctx inp).smCommitIndex ∨ inp.Joins s)) ∨
      (committedAt (inp.handle ctx s).out = [s.smCommitIndex + 1] ∧
        (s.take ctx inp).smCommitIndex = s.smCommitIndex + 1) := by
  rw [← committedAt_calls]
  rcases inp.kinds with rfl | ⟨req, now, rfl, htype⟩ | ⟨hbg, hinst⟩
  · rcases (take_bg ctx s).commits with ⟨ho, hl⟩ | ⟨hsm, ho⟩
    · rw [ho]
      exact .inl ⟨rfl, .inl (congrArg Ledger.smCommitIndex hl).ge⟩
    · rw [ho]
      split
      · exact .inr ⟨rfl, hsm⟩
      · exact .inl ⟨rfl, .inl ((Nat.le_succ _).trans hsm.ge)⟩
  · rcases take_install htype now with ⟨hl, ho⟩ | ⟨sync, hsync, hround⟩
    · rw [ho]
      exact .inl ⟨rfl, .inl (congrArg Ledger.smCommitIndex hl).ge⟩
    · have hcommits := hround.commits hsync.2.2.2
      exact .inl ⟨hcommits.1, .inl hcommits.2⟩
  · refine .inl ⟨?_, ?_⟩
    · rw [committedAt_calls, List.eq_nil_iff_forall_not_mem]
      intro i hi
      obtain ⟨b, hb⟩ := mem_committedAt.1 hi
      exact take_call_writes hbg hinst _ hb rfl
    · refine (take_path ctx s inp).fold (R := fun (s₁ : Server) (_ : List Effect) (s₂ : Server) =>
        s₁.smCommitIndex ≤ s₂.smCommitIndex ∨ inp.Joins s) (fun _ => .inl le_rfl) ?_
      intro s₁ s₂ s₃ _ _ hm ih
      rcases hm.ledgerStep.smCommitIndex_le hbg hinst with hle | hj
      · exact ih.imp_left hle.trans
      · exact .inr hj

end Steps

/-! ## Runs -/

/-- The state machine has been given entries in order, up to the commit index. -/
def GivenInOrder (past : List Effect) (s : Server) : Prop :=
  (committedAt past).Pairwise (· < ·) ∧ ∀ i ∈ committedAt past, i ≤ s.smCommitIndex

theorem GivenInOrder.take {ctx : Context} {past : List Effect} {s : Server} {inp : Input}
    (h : GivenInOrder past s) (hin : inp.JoinsUnused past s) :
    GivenInOrder (past ++ (inp.handle ctx s).out) (s.take ctx inp) := by
  unfold GivenInOrder
  rw [committedAt_append]
  rcases take_commits ctx inp s with ⟨ho, hle | hj⟩ | ⟨ho, hsm⟩
  · rw [ho, List.append_nil]
    exact ⟨h.1, fun i hi => (h.2 i hi).trans hle⟩
  · rw [ho, hin hj]
    exact ⟨.nil, nofun⟩
  · rw [ho, hsm]
    refine ⟨List.pairwise_append.2 ⟨h.1, List.pairwise_singleton _ _, fun i hi j hj => ?_⟩,
      fun i hi => ?_⟩
    · rw [List.mem_singleton.1 hj]
      exact Nat.lt_succ_of_le (h.2 i hi)
    · rcases List.mem_append.1 hi with hi | hi
      · exact (h.2 i hi).trans (Nat.le_succ _)
      · exact (List.mem_singleton.1 hi).le

/-- What the state machine is given is what an intact log has at the index. -/
theorem Ledger.Intact.given {ctx : Context} {R : Nat} {s : Server} {inp : Input}
    (h : s.ledger.Intact R) {i : Nat} {buf : Payload}
    (hi : .commit i buf ∈ (inp.handle ctx s).out) :
    ∃ e, s.logStore.At i e ∧ e.valType = .appLog ∧ e.buf = buf := by
  rw [← mem_calls rfl] at hi
  rcases inp.kinds with rfl | ⟨req, now, rfl, htype⟩ | ⟨hbg, hinst⟩
  · obtain ⟨hlog, rfl, htype, hbuf⟩ := (take_bg ctx s).given hi
    obtain ⟨a, (ha : Represents s.logStore a)⟩ := h.store
    refine ⟨_, at_entryAt ⟨Nat.le_add_left _ _, ?_⟩, htype, hbuf⟩
    have hle : s.logStore.startIdx ≤ s.smCommitIndex + 1 := h.startIdx_le
    have hpos := ha.pos
    have hnext := ha.nextSlot
    rw [Server.nextSlot, usub_of_le (by rw [hnext, OffsetList.next]; omega), hnext,
      OffsetList.next] at hlog
    rw [ha.start] at hle
    rw [ha.lookup (Nat.le_add_left _ _), OffsetList.get?, if_pos hle, List.getElem?_eq_getElem]
    · rfl
    · omega
  · have hnil : committedAt (calls ((Input.request req now).handle ctx s).out) = [] := by
      rcases take_install htype now with ⟨-, ho⟩ | ⟨sync, hsync, hround⟩
      · rw [ho]
        rfl
      · exact (hround.commits hsync.2.2.2).1
    have := mem_committedAt.2 ⟨buf, hi⟩
    rw [hnil] at this
    cases this
  · exact (take_call_writes hbg hinst _ ((mem_calls rfl).1 hi) rfl).elim

/-- The leader of a cluster, server 1, invites server 4. -/
def inviteReq : ReqMsg where
  term := 1
  type := .joinClusterRequest
  src := 1
  dst := 4
  lastLogTerm := 0
  lastLogIdx := 20
  commitIdx := 20
  logEntries := [⟨1, .conf, .config { (bootOf [1]).config with logIdx := 1 }⟩]

/-- It sends entries of its log. -/
def packReq (lastLogIdx : Nat) (logs : List Bytes) : ReqMsg where
  term := 1
  type := .syncLogRequest
  src := 1
  dst := 4
  lastLogTerm := 0
  lastLogIdx := lastLogIdx
  commitIdx := 20
  logEntries := [⟨1, .logPack, .pack (logs.map fun b => (1, .appLog, .bytes b))⟩]

end EnclaveRaft
