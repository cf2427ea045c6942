import EnclaveRaft.Merge
import EnclaveRaft.OneServer

/-!
# Logs without gaps

The log store of a server is intact as long as it holds consecutive entries and begins no later
than the entry to apply next, and no later than behind the last snapshot. Compaction then only
moves forward.

Four things break it: an append request that starts at the beginning of a log which has been
compacted, a log pack that does not fit the log, an invitation that makes a server with a compacted
log apply it again from the start, and a snapshot that is installed on a server whose own snapshots
keep more entries in the log than were added since. `Input.SparesLog` leaves them out.
-/

namespace EnclaveRaft

open Act Server LogStore

/-- The entries a request's log pack holds. -/
def ReqMsg.pack? (req : ReqMsg) : Option (List (Nat × LogValType × Payload)) :=
  match req.logEntries with
  | [⟨_, .logPack, .pack es⟩] => some es
  | _ => none

theorem ReqMsg.pack?_eq_some {req : ReqMsg} {es : List (Nat × LogValType × Payload)}
    (h : ∃ t, req.logEntries = [⟨t, .logPack, .pack es⟩]) : req.pack? = some es := by
  obtain ⟨t, hes⟩ := h
  rw [pack?, hes]

/-- A snapshot does not keep more entries in the log than there are at least since the last one. -/
def Context.ReserveFits (ctx : Context) : Prop :=
  ctx.params.snapshotDistance = 0 ∨
    ulong ctx.params.reservedLogItems ≤ ulong ctx.params.snapshotDistance + 1

instance (ctx : Context) : Decidable ctx.ReserveFits := by
  unfold Context.ReserveFits; infer_instance

/-- The input does not put the log out of step. -/
def Input.SparesLog (ctx : Context) (s : Server) : Input → Prop
  | request req _ =>
    match req.type with
    | .appendEntriesRequest =>
      s.term ≤ req.term → req.lastLogIdx = 0 → req.logEntries ≠ [] → s.logStore.startIdx = 1
    | .syncLogRequest => s.catchingUp → ∀ es ∈ req.pack?, es ≠ [] ∧
      s.logStore.startIdx ≤ usucc req.lastLogIdx ∧ usucc req.lastLogIdx ≤ s.nextSlot
    | .joinClusterRequest =>
      ¬s.catchingUp → req.logEntries.map LogEntry.valType = [.conf] → s.logStore.startIdx = 1
    | .installSnapshotRequest => ∀ sync ∈ req.sync?, req.Completes s sync →
      ctx.ReserveFits ∧ ctx.stateMachine.applySnapshot sync.snapshot ∧
        s.CanSave sync.snapshot.lastConfig
    | _ => True
  | _ => True

instance (ctx : Context) (s : Server) : (inp : Input) → Decidable (inp.SparesLog ctx s)
  | .request req _ => by
    unfold Input.SparesLog
    dsimp only
    split <;> infer_instance
  | .electionTimeout | .hbTimeout _ | .response _ _ _ | .failure _ | .resend _ | .commitBg =>
    inferInstanceAs (Decidable True)

/-- The log store holds consecutive entries, from an index that is not beyond what is applied next.
Unless nothing has been compacted, `R` entries that have been applied are kept. -/
structure Ledger.Intact (R : Nat) (l : Ledger) : Prop where
  store : ∃ a, Represents l.logStore a
  begins : l.logStore.startIdx = 1 ∨ l.logStore.startIdx + R ≤ l.smCommitIndex + 1
  snapshot : ∀ snp, l.smLastSnapshot = some snp → l.logStore.startIdx ≤ snp.lastLogIdx + 1

/-- The entries that local snapshots are known to keep. -/
def Context.backlog (ctx : Context) : Nat :=
  if ctx.ReserveFits then 0 else ulong ctx.params.reservedLogItems

namespace Ledger.Intact

variable {ctx : Context} {R : Nat} {l l' : Ledger}

theorem startIdx_le (h : l.Intact R) : l.logStore.startIdx ≤ l.smCommitIndex + 1 := by
  have := h.begins
  omega

/-- Only the store changes, and not at its beginning. -/
theorem withStore (h : l.Intact R) (hstore : ∃ a, Represents l'.logStore a)
    (hstart : l'.logStore.startIdx = l.logStore.startIdx)
    (hsm : l'.smCommitIndex = l.smCommitIndex) (hsnp : l'.smLastSnapshot = l.smLastSnapshot) :
    l'.Intact R := by
  refine ⟨hstore, ?_, ?_⟩
  · rw [hstart, hsm]
    exact h.begins
  · rw [hstart, hsnp]
    exact h.snapshot

theorem applied (h : l.Intact R) : l.applied.Intact R := by
  refine ⟨h.store, h.begins.imp_right fun hle => ?_, h.snapshot⟩
  exact hle.trans (Nat.le_succ _)

/-- A local snapshot compacts forward, if it is due, and keeps the entries behind it. -/
theorem snapshot_forward (h : l.Intact ctx.backlog) (hdist : ctx.params.snapshotDistance ≠ 0)
    (hdue : ulong ctx.params.snapshotDistance ≤ usub (l.smCommitIndex + 1) l.logStore.startIdx)
    (hres : ulong ctx.params.reservedLogItems < l.smCommitIndex + 1) :
    l.logStore.startIdx ≤ l.smCommitIndex + 1 - ulong ctx.params.reservedLogItems + 1 := by
  have hle := h.startIdx_le
  rw [usub_of_le hle] at hdue
  by_cases hfits : ctx.ReserveFits
  · have := hfits.resolve_left hdist
    omega
  · have hbegins := h.begins
    rw [Context.backlog, if_neg hfits] at hbegins
    omega

/-- The background thread keeps the log intact, and moves its beginning forward only. -/
theorem bgRound {s : Server} {o : List Effect} (h : s.ledger.Intact ctx.backlog)
    (hround : BgRound ctx s l' o) :
    l'.Intact ctx.backlog ∧ s.logStore.startIdx ≤ l'.logStore.startIdx ∧
      l'.logStore.nextSlot = s.logStore.nextSlot ∧
      ∀ start k, .compact start k ∈ o → start - 1 ≤ k := by
  have happlied : ∀ {idx e start k}, .compact start k ∉ appliedOut idx e := by
    intro idx e start k
    unfold appliedOut
    split <;> simp
  cases hround with
  | idle => exact ⟨h, le_rfl, rfl, nofun⟩
  | plain => exact ⟨h.applied, le_rfl, rfl, by simp [happlied]⟩
  | @snapshot conf _ hlog hdist hdue =>
    have hforward := h.snapshot_forward hdist hdue
    obtain ⟨a, (ha : Represents s.logStore a)⟩ := h.store
    have hstart := ha.start
    have hnext := ha.nextSlot
    have hpos := ha.pos
    by_cases hres : ulong ctx.params.reservedLogItems < s.smCommitIndex + 1
    · have hle : s.logStore.startIdx ≤
          s.smCommitIndex + 1 - ulong ctx.params.reservedLogItems + 1 := hforward hres
      have hst : (s.ledger.applied.snapshot ctx conf).logStore =
          s.logStore.compact (s.smCommitIndex + 1 - ulong ctx.params.reservedLogItems) :=
        if_pos hres
      have hcompact := ha.compact (hstart ▸ hle)
      rw [Server.nextSlot, usub_of_le (by rw [hnext, OffsetList.next]; omega)] at hlog
      refine ⟨⟨⟨_, hst ▸ hcompact⟩, .inr ?_, fun snp hsnp => ?_⟩, ?_, ?_, fun start k hk => ?_⟩
      · rw [hst]
        show s.smCommitIndex + 1 - ulong ctx.params.reservedLogItems + 1 + ctx.backlog ≤
          s.smCommitIndex + 1 + 1
        unfold Context.backlog
        split <;> omega
      · cases hsnp
        rw [hst]
        show s.smCommitIndex + 1 - ulong ctx.params.reservedLogItems + 1 ≤ s.smCommitIndex + 1 + 1
        omega
      · rw [hst]
        exact hle
      · rw [hst, hcompact.nextSlot, hnext]
        exact OffsetList.next_compact (hstart ▸ hle) (by omega)
      · simp only [List.mem_cons, reduceCtorEq, false_or, List.mem_append, happlied, snapshotOut,
          if_pos hres, List.not_mem_nil, or_false, Effect.compact.injEq] at hk
        omega
    · have hst : (s.ledger.applied.snapshot ctx conf).logStore = s.logStore := if_neg hres
      have hidx : s.logStore.startIdx ≤ s.smCommitIndex + 1 := h.startIdx_le
      refine ⟨⟨⟨a, hst ▸ ha⟩, ?_, fun snp hsnp => ?_⟩, ?_, ?_, fun start k hk => ?_⟩
      · rw [hst]
        exact h.applied.begins
      · cases hsnp
        rw [hst]
        exact hidx.trans (Nat.le_succ _)
      · rw [hst]
      · rw [hst]
      · rw [snapshotOut, if_neg hres] at hk
        simp [happlied] at hk

/-- What an installed snapshot does. -/
theorem installRound {s : Server} {o : List Effect} {snp : Snapshot}
    (h : s.ledger.Intact ctx.backlog) (hfits : ctx.ReserveFits)
    (hlt : s.smCommitIndex < snp.lastLogIdx) (happly : ctx.stateMachine.applySnapshot snp)
    (hsave : s.CanSave snp.lastConfig) (hround : InstallRound ctx snp s l' o) :
    l'.Intact ctx.backlog ∧ s.logStore.startIdx ≤ l'.logStore.startIdx ∧
      ∀ start k, .compact start k ∈ o → start - 1 ≤ k := by
  have hle : s.logStore.startIdx ≤ s.smCommitIndex + 1 := h.startIdx_le
  cases hround with
  | failed hno => cases hno.symm.trans happly
  | unsaved hno => exact (hno hsave).elim
  | done =>
    obtain ⟨a, (ha : Represents s.logStore a)⟩ := h.store
    have hstart := ha.start
    have hcompact : Represents (s.logStore.compact snp.lastLogIdx) _ := ha.compact (by omega)
    refine ⟨⟨⟨_, hcompact⟩, .inr ?_, fun snp' hsnp' => ?_⟩, ?_, fun start k hk => ?_⟩
    · rw [Context.backlog, if_pos hfits]
      exact le_rfl
    · cases hsnp'
      exact le_rfl
    · show s.logStore.startIdx ≤ snp.lastLogIdx + 1
      omega
    · cases List.mem_singleton.1 hk
      omega

end Ledger.Intact

section Steps

variable {ctx : Context} {inp : Input} {s₀ s s' : Server} {o : List Effect} {R : Nat}

/-- An append request that is taken goes on from an index of the log, or brings nothing. -/
theorem Ledger.Intact.okay (h : s.ledger.Intact R) {req : ReqMsg} (hokay : ReqOkay s req)
    (h0 : req.lastLogIdx = 0 → req.logEntries ≠ [] → s.logStore.startIdx = 1) :
    req.logEntries = [] ∨
      (s.logStore.startIdx ≤ req.lastLogIdx + 1 ∧ req.lastLogIdx < s.logStore.nextSlot) := by
  obtain ⟨a, (ha : Represents s.logStore a)⟩ := h.store
  have hstart := ha.start
  have hnext := ha.nextSlot
  have hpos := ha.pos
  by_cases hes : req.logEntries = []
  · exact .inl hes
  refine .inr ?_
  rcases hokay with hzero | ⟨hlt, hterm⟩
  · have := h0 hzero hes
    rw [hnext, OffsetList.next]
    omega
  · refine ⟨?_, hlt⟩
    rcases hterm with ⟨hzero, -⟩ | ⟨-, hle, -⟩ | ⟨-, -, snp, hsnp, hidx, -⟩
    · have := h0 hzero hes
      omega
    · exact hle.trans (Nat.le_succ _)
    · have : s.logStore.startIdx ≤ snp.lastLogIdx + 1 := h.snapshot snp hsnp
      omega

/-- Such a request in a run that spares the log. -/
theorem Ledger.Intact.merge_fits (h : s.ledger.Intact R) {req : ReqMsg} {now : Int}
    (htype : req.type = .appendEntriesRequest) (hk : Keeps s₀ s) (hokay : ReqOkay s req)
    (hle : s₀.term ≤ req.term) (hspares : (Input.request req now).SparesLog ctx s₀) :
    req.logEntries = [] ∨
      (s.logStore.startIdx ≤ req.lastLogIdx + 1 ∧ req.lastLogIdx < s.logStore.nextSlot) := by
  have hstart : s.logStore.startIdx = s₀.logStore.startIdx :=
    congrArg (fun l : Ledger => l.logStore.startIdx) hk.ledger
  have h0 : req.lastLogIdx = 0 → req.logEntries ≠ [] → s₀.logStore.startIdx = 1 := by
    simpa [Input.SparesLog, htype, hle] using hspares
  exact h.okay hokay (hstart ▸ h0)

theorem Input.SparesLog.pack_fits {req : ReqMsg} {now : Int} {es : List (Nat × LogValType × Payload)}
    (hspares : (Input.request req now).SparesLog ctx s) (htype : req.type = .syncLogRequest)
    (hcatch : s.catchingUp = true) (hpack : req.pack? = some es) :
    es ≠ [] ∧ s.logStore.startIdx ≤ usucc req.lastLogIdx ∧
      usucc req.lastLogIdx ≤ s.logStore.nextSlot := by
  simpa [Input.SparesLog, htype, hcatch, hpack, Server.nextSlot] using hspares

theorem Input.SparesLog.install_fits {req : ReqMsg} {now : Int} {sync : SnapshotSyncReq}
    (hspares : (Input.request req now).SparesLog ctx s)
    (htype : req.type = .installSnapshotRequest) (hsync : req.Completes s sync) :
    ctx.ReserveFits ∧ ctx.stateMachine.applySnapshot sync.snapshot ∧
      s.CanSave sync.snapshot.lastConfig := by
  simp only [Input.SparesLog, htype] at hspares
  exact hspares sync hsync.1 hsync

theorem LedgerStep.intact (h : LedgerStep ctx inp s₀ s o s') (hs : s.ledger.Intact R)
    (hspares : inp.SparesLog ctx s₀) (hbg : inp ≠ .commitBg)
    (hinst : ∀ snp, ¬inp.Installs snp) :
    s'.ledger.Intact R ∧ s.logStore.startIdx ≤ s'.logStore.startIdx := by
  obtain ⟨a, (ha : Represents s.logStore a)⟩ := hs.store
  cases h with
  | same hs' => rw [hs']; exact ⟨hs, (congrArg (fun l : Ledger => l.logStore.startIdx) hs').ge⟩
  | saveInitial _ _ hs' | client _ _ _ _ hs' | confAppend _ _ hs' =>
    subst hs'
    exact ⟨hs.withStore ⟨_, ha.append _⟩ rfl rfl rfl, le_rfl⟩
  | commitMajority _ _ _ _ _ _ _ hs' | commitAlone _ _ _ hs' | packCommit _ _ _ hs'
  | commitFollower _ _ _ _ _ _ _ _ _ hs' | abandon _ _ _ _ hs' =>
    subst hs'
    exact ⟨hs.withStore hs.store rfl rfl rfl, le_rfl⟩
  | @merge req now es hin htype hk _ _ hokay hes hterm hs' =>
    subst hin hs'
    refine ⟨hs.withStore ?_ (written_startIdx _ _ _) rfl rfl, (written_startIdx _ _ _).ge⟩
    rcases hs.merge_fits htype hk hokay hterm hspares with hnil | ⟨hle, hlt⟩
    · rw [hes, hnil]
      exact ⟨a, ha⟩
    · exact ⟨_, (ha.written (ha.start ▸ hle) (ha.nextSlot ▸ hlt) es false).1⟩
  | @pack req now es hin htype hk hcatch hentry hs' =>
    subst hin hs' hk
    have hfit := hspares.pack_fits htype hcatch (ReqMsg.pack?_eq_some hentry)
    have hrep := ha.applyPack (ha.start ▸ hfit.2.1) (ha.nextSlot ▸ hfit.2.2) hfit.1
    have hstart : (s.logStore.applyPack (usucc req.lastLogIdx) es).startIdx = s.logStore.startIdx :=
      hrep.start.trans ha.start.symm
    exact ⟨hs.withStore ⟨_, hrep⟩ hstart rfl rfl, hstart.ge⟩
  | @join req now hin htype hk hcatch hentry hs' =>
    subst hin hs' hk
    obtain ⟨e, he, hconf⟩ := hentry
    have h1 : s.logStore.startIdx = 1 := by
      simpa [Input.SparesLog, htype, hcatch, he, hconf] using hspares
    exact ⟨⟨hs.store, .inl h1, hs.snapshot⟩, le_rfl⟩
  | process hin | confApplied hin | snapshot hin => exact (hbg hin).elim
  | installCompact hin | installApply hin | installDone hin => exact (hinst _ hin).elim

/-- **One input.** -/
theorem Server.take_intact (h : s.ledger.Intact ctx.backlog) (hspares : inp.SparesLog ctx s) :
    (s.take ctx inp).ledger.Intact ctx.backlog ∧
      s.logStore.startIdx ≤ (s.take ctx inp).logStore.startIdx ∧
      ∀ start k, .compact start k ∈ (inp.handle ctx s).out → start - 1 ≤ k := by
  rcases inp.kinds with rfl | ⟨req, now, rfl, htype⟩ | ⟨hbg, hinst⟩
  · obtain ⟨hintact, hstart, -, hcompact⟩ := h.bgRound (take_bg ctx s)
    exact ⟨hintact, hstart, fun start k hk => hcompact start k ((mem_calls rfl).2 hk)⟩
  · rcases take_install htype now with ⟨hl, ho⟩ | ⟨sync, hsync, hround⟩
    · refine ⟨hl.symm ▸ h, (congrArg (fun l : Ledger => l.logStore.startIdx) hl).ge, ?_⟩
      intro start k hk
      rw [← mem_calls rfl, ho] at hk
      cases hk
    · obtain ⟨hfits, happly, hsave⟩ := hspares.install_fits htype hsync
      obtain ⟨hintact, hstart, hcompact⟩ := h.installRound hfits hsync.2.2.2 happly hsave hround
      exact ⟨hintact, hstart, fun start k hk => hcompact start k ((mem_calls rfl).2 hk)⟩
  · have hfold := (take_path ctx s inp).fold (R := fun (s₁ : Server) o (s₂ : Server) =>
        s₁.ledger.Intact ctx.backlog → s₂.ledger.Intact ctx.backlog ∧
          s₁.logStore.startIdx ≤ s₂.logStore.startIdx)
      (fun _ h => ⟨h, le_rfl⟩) ?_
    · obtain ⟨hintact, hstart⟩ := hfold h
      exact ⟨hintact, hstart, fun start k hk => (take_call_writes hbg hinst _ hk rfl).elim⟩
    · intro s₁ s₂ s₃ o o' hm ih h₁
      obtain ⟨h₂, hle⟩ := hm.ledgerStep.intact h₁ hspares hbg hinst
      obtain ⟨h₃, hle'⟩ := ih h₂
      exact ⟨h₃, hle.trans hle'⟩

end Steps

/-! ## What has been applied -/

/-- The request gets past the checks of `handle_append_entries`. -/
def ReqMsg.Appends (req : ReqMsg) (s : Server) : Prop :=
  req.type = .appendEntriesRequest ∧ s.term ≤ req.term ∧ ReqOkay s req

instance (req : ReqMsg) (s : Server) : Decidable (req.Appends s) :=
  inferInstanceAs (Decidable (_ ∧ _ ∧ _))

/-- An append request does not overwrite what has been applied. -/
def Input.KeepsApplied (s : Server) : Input → Prop
  | request req _ => req.Appends s →
    (skipMatching s.logStore (req.lastLogIdx + 1) req.logEntries).2 ≠ [] →
      s.smCommitIndex < (skipMatching s.logStore (req.lastLogIdx + 1) req.logEntries).1
  | _ => True

instance (s : Server) : (inp : Input) → Decidable (inp.KeepsApplied s)
  | .request req _ => inferInstanceAs (Decidable (req.Appends s →
    (skipMatching s.logStore (req.lastLogIdx + 1) req.logEntries).2 ≠ [] →
      s.smCommitIndex < (skipMatching s.logStore (req.lastLogIdx + 1) req.logEntries).1))
  | .electionTimeout | .hbTimeout _ | .response _ _ _ | .failure _ | .resend _ | .commitBg =>
    inferInstanceAs (Decidable True)

/-- What has been applied lies below the end of the log. -/
def Ledger.Covered (l : Ledger) : Prop := l.smCommitIndex < l.logStore.nextSlot

section Covered

variable {ctx : Context} {inp : Input} {s₀ s s' : Server} {o : List Effect} {R : Nat}

theorem LedgerStep.covered (h : LedgerStep ctx inp s₀ s o s') (hs : s.ledger.Intact R)
    (hc : s.ledger.Covered) (hspares : inp.SparesLog ctx s₀) (hkeeps : inp.KeepsApplied s₀)
    (hbg : inp ≠ .commitBg) (hinst : ∀ snp, ¬inp.Installs snp) : s'.ledger.Covered := by
  obtain ⟨a, (ha : Represents s.logStore a)⟩ := hs.store
  have hnext := ha.nextSlot
  have hstart := ha.start
  have hpos := ha.pos
  change s.smCommitIndex < s.logStore.nextSlot at hc
  cases h with
  | same hs' => rw [hs']; exact hc
  | saveInitial _ _ hs' | client _ _ _ _ hs' | confAppend _ _ hs' =>
    subst hs'
    show s.smCommitIndex < (s.logStore.append _).nextSlot
    rw [(ha.append _).nextSlot, OffsetList.next_append, ← hnext]
    exact hc.trans (Nat.lt_succ_self _)
  | commitMajority _ _ _ _ _ _ _ hs' | commitAlone _ _ _ hs' | packCommit _ _ _ hs'
  | commitFollower _ _ _ _ _ _ _ _ _ hs' | abandon _ _ _ _ hs' =>
    subst hs'
    exact hc
  | @merge req now es hin htype hk _ _ hokay hes hterm hs' =>
    subst hin hs'
    show s.smCommitIndex < (written s.logStore req.lastLogIdx es).nextSlot
    rcases hs.merge_fits htype hk hokay hterm hspares with hnil | ⟨hle, hlt⟩
    · rw [hes, hnil]
      exact hc
    have hover := hkeeps ⟨htype, hterm, hokay.keeps hk⟩
    rw [← hk.field Server.logStore, ← hk.field Server.smCommitIndex] at hover
    rw [(ha.written (hstart ▸ hle) (hnext ▸ hlt) es false).1.nextSlot, hes, skipMatching_reached]
    have hbounds := skipMatching_bounds hlt req.logEntries
    generalize (skipMatching s.logStore (req.lastLogIdx + 1) req.logEntries).2 = new at hover ⊢
    generalize (skipMatching s.logStore (req.lastLogIdx + 1) req.logEntries).1 = idx at *
    by_cases hnew : new = []
    · rw [hnew, StateMachine.tried, OffsetList.merge_nil, ← hnext]
      exact hc
    · rw [OffsetList.next_merge (by omega) (by omega) (mt tried_eq_nil.1 hnew)]
      exact (hover hnew).trans_le (Nat.le_add_right _ _)
  | @pack req now es hin htype hk hcatch hentry hs' =>
    subst hin hs' hk
    have hfit := hspares.pack_fits htype hcatch (ReqMsg.pack?_eq_some hentry)
    have hrep := ha.applyPack (hstart ▸ hfit.2.1) (hnext ▸ hfit.2.2) hfit.1
    show s.smCommitIndex < (s.logStore.applyPack _ es).nextSlot
    rw [hrep.nextSlot]
    exact hc.trans_le (hnext ▸ OffsetList.next_le_overwrite (hstart ▸ hfit.2.1) (hnext ▸ hfit.2.2) _)
  | @join req now hin htype hk hcatch _ hs' =>
    subst hin hs' hk
    show 0 < s.logStore.nextSlot
    rw [hnext, OffsetList.next]
    omega
  | process hin | confApplied hin | snapshot hin => exact (hbg hin).elim
  | installCompact hin | installApply hin | installDone hin => exact (hinst _ hin).elim

/-- The log never ends before what has been applied. -/
theorem Server.take_covered (h : s.ledger.Intact ctx.backlog) (hc : s.ledger.Covered)
    (hspares : inp.SparesLog ctx s) (hkeeps : inp.KeepsApplied s) :
    (s.take ctx inp).ledger.Covered := by
  rcases inp.kinds with rfl | ⟨req, now, rfl, htype⟩ | ⟨hbg, hinst⟩
  · have hround := take_bg ctx s
    have hnext : (s.take ctx .commitBg).ledger.logStore.nextSlot = s.logStore.nextSlot :=
      (h.bgRound hround).2.2.1
    rw [Ledger.Covered, hnext]
    generalize (s.take ctx .commitBg).ledger = l, calls (Input.commitBg.handle ctx s).out = o
      at hround ⊢
    cases hround with
    | idle => exact hc
    | plain _ hlog | snapshot _ hlog =>
      have hone : 1 ≤ s.logStore.nextSlot := Nat.one_le_of_lt hc
      rw [Server.nextSlot, usub_of_le hone] at hlog
      exact Nat.add_lt_of_lt_sub hlog
  · rcases take_install htype now with ⟨hl, -⟩ | ⟨sync, hsync, hround⟩
    · rw [hl]
      exact hc
    · obtain ⟨-, happly, hsave⟩ := hspares.install_fits htype hsync
      have hlt := hsync.2.2.2
      generalize (s.take ctx (.request req now)).ledger = l,
        calls ((Input.request req now).handle ctx s).out = o at hround ⊢
      cases hround with
      | failed hno => cases hno.symm.trans happly
      | unsaved hno => exact (hno hsave).elim
      | done =>
        obtain ⟨a, (ha : Represents s.logStore a)⟩ := h.store
        have hbegins : s.logStore.startIdx ≤ s.smCommitIndex + 1 := h.startIdx_le
        rw [ha.start] at hbegins
        show sync.snapshot.lastLogIdx < (s.logStore.compact sync.snapshot.lastLogIdx).nextSlot
        rw [(ha.compact (by omega)).nextSlot]
        exact Nat.lt_of_lt_of_le (Nat.lt_succ_self _) (Nat.le_add_right _ _)
  · refine ((take_path ctx s inp).fold (R := fun (s₁ : Server) (_ : List Effect) (s₂ : Server) =>
        s₁.ledger.Intact ctx.backlog → s₁.ledger.Covered → s₂.ledger.Covered)
      (fun _ _ h => h) ?_) h hc
    intro s₁ s₂ s₃ _ _ hm ih h₁ hc₁
    have hstep := hm.ledgerStep
    exact ih (hstep.intact h₁ hspares hbg hinst).1 (hstep.covered h₁ hc₁ hspares hkeeps hbg hinst)

end Covered

/-! ## Runs -/

/-- A server that starts with nothing. -/
structure BlankBoot (b : Boot) : Prop where
  store : b.logStore = .empty
  commit : b.lastCommitIndex = 0
  snapshot : b.snapshot = none

theorem addPeers_ledger (ctx : Context) (srvs : List SrvConfig) (s : Server) :
    (s.addPeers ctx srvs).ledger = s.ledger := by
  induction srvs generalizing s with
  | nil => rfl
  | cons srv srvs ih =>
    rw [addPeers, ih]
    split
    · rfl
    · unfold addPeer
      split <;> rfl

theorem new_ledger (ctx : Context) (id : Int) (b : Boot) :
    (Server.new ctx id b).ledger = (load id b).ledger :=
  (quiet_restartElectionTimer _).ledger.trans (addPeers_ledger ctx _ _)

theorem intact_new (ctx : Context) (id : Int) {b : Boot} (hb : BlankBoot b) (R : Nat) :
    (Server.new ctx id b).ledger.Intact R := by
  rw [new_ledger]
  refine ⟨⟨.new, ?_⟩, .inl ?_, fun snp hsnp => ?_⟩
  · show Represents b.logStore _
    rw [hb.store]
    exact .new
  · exact congrArg LogStore.startIdx hb.store
  · cases hb.snapshot.symm.trans hsnp

/-- **Logs stay intact.** -/
theorem intact_run (ctx : Context) (id : Int) {b : Boot} (hb : BlankBoot b) {inps : List Input}
    (hinps : (Server.new ctx id b).Meets ctx (fun s inp => inp.SparesLog ctx s) inps) :
    ((Server.new ctx id b).run ctx inps).ledger.Intact ctx.backlog :=
  Server.inv_run (I := fun s => s.ledger.Intact ctx.backlog)
    (fun _ _ h hspares => (take_intact h hspares).1) (intact_new ctx id hb _) hinps

/-- The boot of a server with the given members and nothing else. -/
def bootOf (ids : List Int) : Boot := { config := { servers := ids.map srvAt } }

theorem blankBoot_bootOf (ids : List Int) : BlankBoot (bootOf ids) := ⟨rfl, rfl, rfl⟩

/-- Entries of the leader of a term, behind an entry of term 1. -/
def entriesReq (term lastLogIdx commitIdx : Nat) (es : List LogEntry) : ReqMsg where
  term := term
  type := .appendEntriesRequest
  src := 1
  dst := 2
  lastLogTerm := if lastLogIdx = 0 then 0 else 1
  lastLogIdx := lastLogIdx
  commitIdx := commitIdx
  logEntries := es

/-- The configuration of servers 1 to `n`, as an entry of term 1. -/
def confEntry (n logIdx : Nat) : LogEntry :=
  ⟨1, .conf, .config { (bootOf ((List.range n).map fun i => (i : Int) + 1)).config with
    logIdx := logIdx }⟩

/-- The arguments of a call of `compact`, with the start of the log. -/
def Effect.compacted : Effect → Option (Nat × Nat)
  | compact start k => some (start, k)
  | _ => none

/-- A snapshot that ends at index 10, in one block. -/
def installTen : ReqMsg where
  term := 1
  type := .installSnapshotRequest
  src := 1
  dst := 2
  lastLogTerm := 1
  lastLogIdx := 10
  commitIdx := 10
  logEntries := [⟨1, .snpSyncReq, .snapshotSync
    { snapshot := ⟨10, 1, { (bootOf [1, 2, 3]).config with logIdx := 1 }, 1⟩
      offset := 0
      data := [0]
      done := true }⟩]

/-- The two entries behind it. -/
def appendTwo : ReqMsg where
  term := 1
  type := .appendEntriesRequest
  src := 1
  dst := 2
  lastLogTerm := 1
  lastLogIdx := 10
  commitIdx := 12
  logEntries := [⟨1, .appLog, .bytes [7, 0]⟩, ⟨1, .appLog, .bytes [8, 0]⟩]

end EnclaveRaft
