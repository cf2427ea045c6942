import EnclaveRaft.CursorRange
import EnclaveRaft.Intact

/-!
# Snapshots move forward

A server takes a snapshot of what it has applied when that lies far enough behind the beginning of
its log and behind its last snapshot. Both distances are differences of unsigned numbers, so they
are huge when the index to snapshot lies *before* the beginning of the log or before the last
snapshot. The tests are right as long as it does not: as long as the log and the last snapshot do not
run ahead of what has been applied (`Ledger.Forward`).

An invitation to a cluster makes a server apply its log again from index 1 and leaves log and
snapshot where they are. `Input.KeepsPace` leaves out the invitations of servers with a snapshot or a
compacted log, log packs that begin beyond what is applied next, and snapshots from the leader that
fail after the log has been compacted for them: the state machine refuses them, or their
configuration cannot be saved.
-/

namespace EnclaveRaft

open Act Server LogStore OrderedMap

variable {ctx : Context}

/-! ## The snapshot of a round -/

namespace Server

/-- The snapshot `snapshot_and_compact` creates. -/
def newSnapshot? (ctx : Context) (s : Server) (committedIdx : Nat) : Option Snapshot :=
  if snapshotDue ctx s committedIdx then
    match snapshotConfig s committedIdx with
    | .ok conf =>
      some (⟨committedIdx, s.logStore.termAt committedIdx, conf, 0⟩ : Snapshot) |>.filter
        ctx.stateMachine.createSnapshot
    | .error _ => none
  else none

/-- The server in the middle of a round, when the next entry has been applied. -/
def nextApplied? (ctx : Context) (s : Server) : Option Server :=
  let idx := s.smCommitIndex + 1
  if s.smCommitIndex < s.quickCommitIdx ∧ s.smCommitIndex < usub s.nextSlot 1 then
    let r := applyEntry ctx idx (s.logStore.entryAt idx) { s with smCommitIndex := idx }
    match r.result with
    | .ok () => some r.state
    | .error _ => none
  else none

/-- The snapshot a round of the background thread creates. -/
def bgSnapshot? (ctx : Context) (s : Server) : Option Snapshot :=
  (s.nextApplied? ctx).bind fun s' => s'.newSnapshot? ctx (s.smCommitIndex + 1)

theorem lastLogIdx_newSnapshot? {s : Server} {idx : Nat} {snp : Snapshot}
    (h : s.newSnapshot? ctx idx = some snp) : snp.lastLogIdx = idx := by
  unfold newSnapshot? at h
  split at h
  · split at h
    · cases (Option.filter_eq_some_iff.1 h).1
      rfl
    · cases h
  · cases h

theorem lastLogIdx_bgSnapshot? {s : Server} {snp : Snapshot} (h : s.bgSnapshot? ctx = some snp) :
    snp.lastLogIdx = s.smCommitIndex + 1 := by
  obtain ⟨s', -, hsnp⟩ := Option.bind_eq_some_iff.1 h
  exact lastLogIdx_newSnapshot? hsnp

theorem lastSnapshot_snapshotAndCompact (s : Server) (idx : Nat) :
    (snapshotAndCompact ctx idx s).state.lastSnapshot =
      (s.newSnapshot? ctx idx).or s.lastSnapshot := by
  rw [snapshotAndCompact, get_bind_apply, newSnapshot?]
  split
  · cases hconf : snapshotConfig s idx with
    | error e => cases e <;> rfl
    | ok conf =>
      by_cases hcreate : ctx.stateMachine.createSnapshot
          ⟨idx, s.logStore.termAt idx, conf, 0⟩ = true
      · simp only [hcreate, if_true, Option.filter_some, Option.some_or]
        unfold Act.when
        split <;> rfl
      · simp only [hcreate, Option.filter_some]
        rfl
  · rfl

/-- A round of the background thread leaves the snapshot it creates, or the last one. -/
theorem lastSnapshot_take_bg (s : Server) :
    (s.take ctx .commitBg).lastSnapshot = (s.bgSnapshot? ctx).or s.lastSnapshot := by
  have hstate : s.take ctx .commitBg = (commitInBg ctx s).state :=
    bind_pure_state (commitInBg ctx) _ s
  rw [hstate, commitInBg, get_bind_apply, bgSnapshot?, nextApplied?]
  by_cases hnext : s.smCommitIndex < s.quickCommitIdx ∧ s.smCommitIndex < usub s.nextSlot 1
  · rw [when_pos hnext, if_pos hnext, modify_bind_apply, emit_bind_state]
    have hsame := (does_applyEntry (s.smCommitIndex + 1)
      (s.logStore.entryAt (s.smCommitIndex + 1))
      : Does (applyEntry ctx _ _) { s with smCommitIndex := s.smCommitIndex + 1 } _).1
    rw [bind_state]
    generalize applyEntry ctx _ _ { s with smCommitIndex := s.smCommitIndex + 1 } = r at hsame ⊢
    have hlast : r.state.lastSnapshot = s.lastSnapshot := congrArg Ledger.lastSnapshot hsame
    dsimp only
    cases r.result with
    | ok a =>
      dsimp only
      rw [lastSnapshot_snapshotAndCompact, hlast]
      rfl
    | error e => exact hlast
  · rw [when_neg hnext, if_neg hnext]
    rfl

end Server

/-! ## Log and snapshot keep behind what is applied -/

/-- The input does not put the log or the last snapshot ahead of what has been applied. -/
def Input.KeepsPace (ctx : Context) (s : Server) : Input → Prop
  | request req _ =>
    match req.type with
    | .joinClusterRequest => req.logEntries.map LogEntry.valType = [.conf] → ¬s.catchingUp →
      s.lastSnapshot = none ∧ s.logStore.startIdx = 1
    | .syncLogRequest => s.catchingUp → ∀ es ∈ req.pack?,
      (∃ k ∈ keys s.logStore.logs, 0 < k ∧ k ≤ s.smCommitIndex + 1) ∨
        (es ≠ [] ∧ 0 < usucc req.lastLogIdx ∧ usucc req.lastLogIdx ≤ s.smCommitIndex + 1)
    | .installSnapshotRequest => ∀ sync ∈ req.sync?, req.Completes s sync →
      ctx.stateMachine.applySnapshot sync.snapshot ∧ s.CanSave sync.snapshot.lastConfig
    | _ => True
  | _ => True

instance (ctx : Context) (s : Server) : (inp : Input) → Decidable (inp.KeepsPace ctx s)
  | .request req _ => by
    unfold Input.KeepsPace
    dsimp only
    generalize req.type = t
    revert t
    rintro (_ | _)
    all_goals infer_instance
  | .electionTimeout | .hbTimeout _ | .response _ _ _ | .failure _ | .resend _ | .commitBg =>
    inferInstanceAs (Decidable True)

/-- Neither the log nor the last snapshot runs ahead of what has been applied. -/
structure Ledger.Forward (l : Ledger) : Prop where
  keyed : l.logStore.Keyed
  begins : l.logStore.startIdx ≤ l.smCommitIndex + 1
  snapshot : ∀ snp ∈ l.lastSnapshot, snp.lastLogIdx ≤ l.smCommitIndex

/-- The last snapshot is not replaced by an earlier one. -/
def Ledger.NotBehind (l l' : Ledger) : Prop :=
  ∀ last ∈ l.lastSnapshot, ∃ last' ∈ l'.lastSnapshot, last.lastLogIdx ≤ last'.lastLogIdx

theorem Ledger.NotBehind.of_eq {l l' : Ledger} (h : l'.lastSnapshot = l.lastSnapshot) :
    l.NotBehind l' :=
  fun last hlast => ⟨last, h ▸ hlast, le_rfl⟩

namespace Ledger.Forward

variable {s : Server} {l l' : Ledger} {o : List Effect}

/-- Only the store changes, and not at its beginning. -/
theorem withStore (h : l.Forward) (hkeyed : l'.logStore.Keyed)
    (hstart : l'.logStore.startIdx = l.logStore.startIdx)
    (hsm : l'.smCommitIndex = l.smCommitIndex) (hsnp : l'.lastSnapshot = l.lastSnapshot) :
    l'.Forward where
  keyed := hkeyed
  begins := by rw [hstart, hsm]; exact h.begins
  snapshot := by rw [hsm, hsnp]; exact h.snapshot

theorem applied (h : l.Forward) : l.applied.Forward where
  keyed := h.keyed
  begins := h.begins.trans (Nat.le_succ _)
  snapshot := fun snp hsnp => (h.snapshot snp hsnp).trans (Nat.le_succ _)

theorem snapshotTaken (h : l.Forward) (conf : ClusterConfig) : (l.snapshot ctx conf).Forward := by
  have hend : ∀ snp ∈ (l.snapshot ctx conf).lastSnapshot, snp.lastLogIdx ≤ l.smCommitIndex := by
    intro snp hsnp
    cases hsnp
    exact le_rfl
  by_cases hres : ulong ctx.params.reservedLogItems < l.smCommitIndex
  · have hst : (l.snapshot ctx conf).logStore =
        l.logStore.compact (l.smCommitIndex - ulong ctx.params.reservedLogItems) := if_pos hres
    refine ⟨hst ▸ h.keyed.compact _, ?_, hend⟩
    rw [hst]
    exact Nat.succ_le_succ (Nat.sub_le _ _)
  · have hst : (l.snapshot ctx conf).logStore = l.logStore := if_neg hres
    exact ⟨hst ▸ h.keyed, hst ▸ h.begins, hend⟩

theorem installed (h : l.Forward) (snp : Snapshot) (conf : ClusterConfig) :
    (l.install snp conf).Forward where
  keyed := h.keyed.compact _
  begins := le_rfl
  snapshot := by
    intro snp' hsnp
    cases hsnp
    exact le_rfl

theorem bgRound (h : s.ledger.Forward) (hround : BgRound ctx s l' o) : l'.Forward := by
  cases hround with
  | idle => exact h
  | plain => exact h.applied
  | snapshot => exact h.applied.snapshotTaken _

/-- A snapshot of more than has been applied lies behind the last one. -/
theorem newer (h : l.Forward) {last snp : Snapshot} (hlast : last ∈ l.lastSnapshot)
    (hsnp : l.smCommitIndex < snp.lastLogIdx) : last.lastLogIdx < snp.lastLogIdx :=
  (h.snapshot last hlast).trans_lt hsnp

theorem installRound {snp : Snapshot} (h : s.ledger.Forward)
    (hlt : s.smCommitIndex < snp.lastLogIdx) (happly : ctx.stateMachine.applySnapshot snp = true)
    (hsave : s.CanSave snp.lastConfig) (hround : InstallRound ctx snp s l' o) :
    l'.Forward ∧ s.ledger.NotBehind l' := by
  cases hround with
  | failed hno => cases hno.symm.trans happly
  | unsaved hno => exact (hno hsave).elim
  | done => exact ⟨h.installed snp _, fun last hlast => ⟨_, rfl, (h.newer hlast hlt).le⟩⟩

end Ledger.Forward

section Steps

variable {inp : Input} {s₀ s s' : Server} {o : List Effect}

theorem Input.KeepsPace.pack {req : ReqMsg} {now : Int} {es : List (Nat × LogValType × Payload)}
    (hpace : (Input.request req now).KeepsPace ctx s) (htype : req.type = .syncLogRequest)
    (hcatch : s.catchingUp = true) (hpack : req.pack? = some es) :
    ∃ k, 0 < k ∧ k ≤ s.smCommitIndex + 1 ∧
      (k ∈ keys s.logStore.logs ∨ (es ≠ [] ∧ usucc req.lastLogIdx = k)) := by
  have hcase : (∃ k ∈ keys s.logStore.logs, 0 < k ∧ k ≤ s.smCommitIndex + 1) ∨
      (es ≠ [] ∧ 0 < usucc req.lastLogIdx ∧ usucc req.lastLogIdx ≤ s.smCommitIndex + 1) := by
    simpa [Input.KeepsPace, htype, hcatch, hpack] using hpace
  rcases hcase with ⟨k, hk, hpos, hle⟩ | ⟨hes, hpos, hle⟩
  · exact ⟨k, hpos, hle, .inl hk⟩
  · exact ⟨_, hpos, hle, .inr ⟨hes, rfl⟩⟩

/-- What a small step does outside the background thread and the installation of snapshots. -/
theorem LedgerStep.forward (h : LedgerStep ctx inp s₀ s o s') (hs : s.ledger.Forward)
    (hpace : inp.KeepsPace ctx s₀) (hbg : inp ≠ .commitBg) (hinst : ∀ snp, ¬inp.Installs snp) :
    s'.ledger.Forward ∧ s'.lastSnapshot = s.lastSnapshot := by
  have hkeyed : s.logStore.Keyed := hs.keyed
  cases h with
  | same hs' => rw [hs']; exact ⟨hs, congrArg Ledger.lastSnapshot hs'⟩
  | saveInitial _ _ hs' | client _ _ _ _ hs' | confAppend _ _ hs' =>
    subst hs'
    exact ⟨hs.withStore (hkeyed.append _) rfl rfl rfl, rfl⟩
  | commitMajority _ _ _ _ _ _ _ hs' | commitAlone _ _ _ hs' | packCommit _ _ _ hs'
  | commitFollower _ _ _ _ _ _ _ _ _ hs' | abandon _ _ _ _ hs' =>
    subst hs'
    exact ⟨hs.withStore hkeyed rfl rfl rfl, rfl⟩
  | merge _ _ _ _ _ _ _ _ hs' =>
    subst hs'
    exact ⟨hs.withStore (hkeyed.written _ _) (written_startIdx _ _ _) rfl rfl, rfl⟩
  | pack hin htype hk hcatch hentry hs' =>
    subst hin hs' hk
    obtain ⟨k, hpos, hle, hmem⟩ := hpace.pack htype hcatch (ReqMsg.pack?_eq_some hentry)
    refine ⟨⟨hkeyed.applyPack _ _, ?_, hs.snapshot⟩, rfl⟩
    exact (hkeyed.startIdx_applyPack_le hpos hmem).trans hle
  | join hin htype hk hcatch hentry hs' =>
    subst hin hs' hk
    obtain ⟨e, hes, hval⟩ := hentry
    obtain ⟨hnone, hstart⟩ : s.lastSnapshot = none ∧ s.logStore.startIdx = 1 := by
      simpa [Input.KeepsPace, htype, hcatch, hes, hval] using hpace
    refine ⟨⟨hkeyed, hstart.le, ?_⟩, rfl⟩
    intro snp hsnp
    cases hnone.symm.trans hsnp
  | process hin | confApplied hin | snapshot hin => exact (hbg hin).elim
  | installCompact hin | installApply hin | installDone hin => exact (hinst _ hin).elim

/-- **One input.** -/
theorem Server.take_forward (h : s.ledger.Forward) (hpace : inp.KeepsPace ctx s) :
    (s.take ctx inp).ledger.Forward ∧ s.ledger.NotBehind (s.take ctx inp).ledger := by
  rcases inp.kinds with rfl | ⟨req, now, rfl, htype⟩ | ⟨hbg, hinst⟩
  · refine ⟨h.bgRound (take_bg ctx s), fun last hlast => ?_⟩
    show ∃ last' ∈ (s.take ctx .commitBg).lastSnapshot, _
    rw [lastSnapshot_take_bg]
    cases hsnp : s.bgSnapshot? ctx with
    | none => exact ⟨last, hlast, le_rfl⟩
    | some snp =>
      have hidx := lastLogIdx_bgSnapshot? hsnp
      exact ⟨snp, rfl, (h.newer hlast (hidx ▸ Nat.lt_succ_self _)).le⟩
  · rcases take_install htype now with ⟨hl, -⟩ | ⟨sync, hsync, hround⟩
    · exact ⟨hl.symm ▸ h, .of_eq (congrArg Ledger.lastSnapshot hl)⟩
    · have hinstall : ∀ sync ∈ req.sync?, req.Completes s sync →
          ctx.stateMachine.applySnapshot sync.snapshot = true ∧
            s.CanSave sync.snapshot.lastConfig := by
        simpa only [Input.KeepsPace, htype] using hpace
      obtain ⟨happly, hsave⟩ := hinstall sync hsync.1 hsync
      exact h.installRound hsync.2.2.2 happly hsave hround
  · have hfold := (take_path ctx s inp).fold (R := fun (s₁ : Server) _ (s₂ : Server) =>
        s₁.ledger.Forward → s₂.ledger.Forward ∧ s₂.lastSnapshot = s₁.lastSnapshot)
      (fun _ h => ⟨h, rfl⟩) ?_
    · exact (hfold h).imp_right .of_eq
    · intro s₁ s₂ s₃ o o' hm ih h₁
      obtain ⟨h₂, heq⟩ := hm.ledgerStep.forward h₁ hpace hbg hinst
      obtain ⟨h₃, heq'⟩ := ih h₂
      exact ⟨h₃, heq'.trans heq⟩

end Steps

/-! ## Runs -/

/-- What a server loads has a log and a snapshot that are not ahead of the state machine. -/
structure Server.Boot.Forward (b : Boot) : Prop where
  keyed : b.logStore.Keyed
  begins : b.logStore.startIdx ≤ b.lastCommitIndex + 1
  snapshot : ∀ snp ∈ b.snapshot, snp.lastLogIdx ≤ b.lastCommitIndex

theorem Server.Boot.Forward.new {b : Boot} (hb : b.Forward) (ctx : Context) (id : Int) :
    (Server.new ctx id b).ledger.Forward := by
  rw [new_ledger]
  exact ⟨hb.keyed, hb.begins, hb.snapshot⟩

theorem BlankBoot.forward {b : Boot} (hb : BlankBoot b) : b.Forward where
  keyed := hb.store ▸ .empty
  begins := by rw [hb.store]; exact Nat.le_add_left _ _
  snapshot := by rw [hb.snapshot]; exact nofun

/-- Server 1 invites server 2, with the configuration it has of itself. -/
def inviteTwo : ReqMsg where
  term := 1
  type := .joinClusterRequest
  src := 1
  dst := 2
  lastLogTerm := 0
  lastLogIdx := 1
  commitIdx := 1
  logEntries := [confEntry 1 1]

/-- A log pack with an entry behind those of server 2. -/
def packBehind (lastLogIdx : Nat) : ReqMsg where
  term := 1
  type := .syncLogRequest
  src := 1
  dst := 2
  lastLogTerm := 0
  lastLogIdx := lastLogIdx
  commitIdx := 0
  logEntries := [⟨1, .logPack, .pack [(1, .appLog, .bytes [5, 0])]⟩]

/-- Server 2 joins, takes a snapshot of the entry it is sent, and gets a snapshot at 10 and two more
entries from the leader. -/
def joinedInputs : List Input :=
  [.electionTimeout, .request inviteTwo 0, .request (packBehind 1) 0, .commitBg, .commitBg,
    .request installTen 0, .request appendTwo 0, .commitBg]

/-- A snapshot of every entry. -/
def everyEntry : Context := { params := { snapshotDistance := 1, reservedLogItems := 0 } }

def joinedTwo : Server := (Server.new everyEntry 2 (bootOf [2])).run everyEntry joinedInputs

end EnclaveRaft
