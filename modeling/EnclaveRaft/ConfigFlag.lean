import EnclaveRaft.Intact

/-!
# The flag for a configuration under way

`config_changing_` is meant to say that the log has a configuration that is not applied yet. It is
kept by hand in each place where such an entry comes or goes, and several of these places look at one
entry only: the overwriting of entries looks at the first one that goes, the background thread at the
one it applies. Log packs, snapshots and invitations to join do not look at all.

`Input.KeepsFlag` says when that is enough. On an intact log in which nothing is overwritten that has
been applied the flag is then exact.
-/

namespace EnclaveRaft

open Act Server LogStore

/-! ## When the flag is kept up -/

/-- An append request overwrites entries in a way that the flag follows: if it brings no
configuration itself, no configuration goes but the first entry that is overwritten, and this only
if it is the only one under way. -/
def Ledger.OverwritesKnown (l : Ledger) (idx : Nat) (new : List LogEntry) : Prop :=
  (∀ e ∈ new, e.valType ≠ .conf) → idx < l.logStore.nextSlot →
    if (l.logStore.entryAt idx).valType = .conf then
      ¬l.logStore.Has (fun i => i < idx ∧ l.smCommitIndex < i) .conf
    else l.logStore.Has (fun i => idx < i) .conf →
      l.logStore.Has (fun i => i < idx ∧ l.smCommitIndex < i) .conf

instance (l : Ledger) (idx : Nat) (new : List LogEntry) : Decidable (l.OverwritesKnown idx new) := by
  unfold Ledger.OverwritesKnown; infer_instance

/-- The flag follows what the input does to the configurations in the log. -/
def Input.KeepsFlag (ctx : Context) (s : Server) : Input → Prop
  | request req _ =>
    match req.type with
    | .clientRequest => ∀ e ∈ req.logEntries, e.valType ≠ .conf
    | .appendEntriesRequest => req.Appends s →
      (skipMatching s.logStore (req.lastLogIdx + 1) req.logEntries).2 ≠ [] →
        s.ledger.OverwritesKnown (skipMatching s.logStore (req.lastLogIdx + 1) req.logEntries).1
          (ctx.stateMachine.tried
            (skipMatching s.logStore (req.lastLogIdx + 1) req.logEntries).2)
    | .syncLogRequest => s.catchingUp → ∀ es ∈ req.pack?, (∀ e ∈ es, e.2.1 ≠ .conf) ∧
      ¬s.logStore.Has (fun i => (usucc req.lastLogIdx ≤ i ∧ i < usucc req.lastLogIdx + es.length) ∧
        s.smCommitIndex < i) .conf
    | .joinClusterRequest =>
      ¬s.catchingUp → req.logEntries.map LogEntry.valType = [.conf] → ¬s.configChanging →
        ¬s.logStore.Has (fun i => 0 < i) .conf
    | .installSnapshotRequest => ∀ sync ∈ req.sync?, req.Completes s sync → s.configChanging →
      s.logStore.Has (fun i => sync.snapshot.lastLogIdx < i) .conf
    | _ => True
  | failure rpc => rpc.GivesUp ctx s → ¬s.configChanging
  | commitBg => s.smCommitIndex < s.quickCommitIdx → s.smCommitIndex < usub s.nextSlot 1 →
    (s.logStore.entryAt (s.smCommitIndex + 1)).valType = .conf →
      (s.logStore.entryAt (s.smCommitIndex + 1)).storedConfig?.isSome ∧
        ¬s.logStore.Has (fun i => s.smCommitIndex + 1 < i) .conf
  | _ => True

instance (ctx : Context) (s : Server) (rpc : Rpc) : Decidable (rpc.GivesUp ctx s) := by
  unfold Rpc.GivesUp; infer_instance

instance (ctx : Context) (s : Server) : (inp : Input) → Decidable (inp.KeepsFlag ctx s)
  | .request req _ => by
    unfold Input.KeepsFlag
    dsimp only
    generalize req.type = t
    revert t
    rintro (_ | _)
    all_goals infer_instance
  | .failure rpc => inferInstanceAs (Decidable (rpc.GivesUp ctx s → ¬s.configChanging))
  | .commitBg => by
    unfold Input.KeepsFlag
    infer_instance
  | .electionTimeout | .hbTimeout _ | .response _ _ _ | .resend _ => inferInstanceAs (Decidable True)

/-- The flag is set exactly if a configuration in the log has not been applied yet. -/
def Ledger.Flagged (l : Ledger) : Prop :=
  l.configChanging = true ↔ l.logStore.Has (fun i => l.smCommitIndex < i) .conf

theorem foldl_noteFlag (b : Bool) (es : List LogEntry) :
    es.foldl noteFlag b = true ↔ b = true ∨ ∃ e ∈ es, e.valType = .conf := by
  induction es generalizing b with
  | nil => simp
  | cons e es ih =>
    rw [List.foldl_cons, ih]
    simp [noteFlag, or_assoc]

namespace Ledger.Flagged

variable {ctx : Context} {R : Nat} {l l' : Ledger} {a : OffsetList}

/-- The log, the commit index and the flag are all that matters. -/
theorem congr (h : l.Flagged) (hstore : l'.logStore = l.logStore)
    (hsm : l'.smCommitIndex = l.smCommitIndex) (hflag : l'.configChanging = l.configChanging) :
    l'.Flagged := by
  rw [Flagged, hstore, hsm, hflag]
  exact h

theorem append (h : l.Flagged) (hc : l.Covered) (ha : Represents l.logStore a) {e : LogEntry}
    (hstore : l'.logStore = l.logStore.append e) (hsm : l'.smCommitIndex = l.smCommitIndex)
    (hflag : l'.configChanging = noteFlag l.configChanging e) : l'.Flagged := by
  have hbelow : l.smCommitIndex < l.logStore.nextSlot := hc
  rw [Flagged] at h ⊢
  rw [hstore, hsm, hflag, ha.has_append (Nat.not_lt_zero _), ← h, noteFlag]
  simp [hbelow]

/-- An append request that overwrites no more than the flag can follow. -/
theorem merge (h : l.Flagged) (ha : Represents l.logStore a) {k : Nat} {es : List LogEntry}
    (hstart : l.logStore.startIdx ≤ k + 1) (hk : k < l.logStore.nextSlot)
    (happlied : (skipMatching l.logStore (k + 1) es).2 ≠ [] →
      l.smCommitIndex < (skipMatching l.logStore (k + 1) es).1)
    (hover : (skipMatching l.logStore (k + 1) es).2 ≠ [] →
      l.OverwritesKnown (skipMatching l.logStore (k + 1) es).1 (skipMatching l.logStore (k + 1) es).2)
    (hstore : l'.logStore = written l.logStore k es) (hsm : l'.smCommitIndex = l.smCommitIndex)
    (hflag : l'.configChanging = writtenFlag l.logStore k es l.configChanging) : l'.Flagged := by
  rw [ha.start] at hstart
  rw [ha.nextSlot] at hk
  obtain ⟨hrep, -, hwritten⟩ := ha.written hstart hk es l.configChanging
  have hbounds : k + 1 ≤ (skipMatching l.logStore (k + 1) es).1 ∧
      (skipMatching l.logStore (k + 1) es).1 ≤ a.next := by
    rw [← ha.nextSlot] at hk ⊢
    exact skipMatching_bounds hk es
  rw [hwritten] at hflag
  generalize (skipMatching l.logStore (k + 1) es).1 = idx at happlied hover hrep hflag hbounds
  generalize (skipMatching l.logStore (k + 1) es).2 = new at happlied hover hrep hflag
  rw [← hstore] at hrep
  by_cases hnew : new = []
  · subst hnew
    rw [Flagged, hflag, hsm, hrep.has (Nat.not_lt_zero _)]
    exact h.trans (ha.has (Nat.not_lt_zero _))
  have hsmidx := happlied hnew
  have hknown := hover hnew
  have hidx : a.start ≤ idx := hstart.trans hbounds.1
  have hbrought : (∃ n e, new[n]? = some e ∧ l.smCommitIndex < idx + n ∧ e.valType = .conf) ↔
      ∃ e ∈ new, e.valType = .conf := by
    constructor
    · rintro ⟨n, e, he, -, hconf⟩
      exact ⟨e, List.mem_of_getElem? he, hconf⟩
    · rintro ⟨e, he, hconf⟩
      obtain ⟨n, hn⟩ := List.mem_iff_getElem?.1 he
      exact ⟨n, e, hn, by omega, hconf⟩
  rw [Flagged, hflag, hsm, foldl_noteFlag, ha.has_merge hrep (Nat.not_lt_zero _) hidx hbounds.2 hnew,
    hbrought]
  by_cases hconf : ∃ e ∈ new, e.valType = .conf
  · exact iff_of_true (.inr hconf) (.inr hconf)
  rw [or_iff_left hconf, or_iff_left hconf]
  by_cases hlt : idx < a.next
  · have hknown := hknown (by simpa using hconf) (ha.nextSlot ▸ hlt)
    have hsplit := h.trans (ha.has_split (Nat.not_lt_zero _) hidx hlt)
    have habove : l.logStore.Has (fun i => idx < i ∧ l.smCommitIndex < i) .conf ↔
        l.logStore.Has (fun i => idx < i) .conf :=
      ha.has_congr (by simp) (by simp) fun i _ _ => ⟨And.left, fun hi => ⟨hi, by omega⟩⟩
    rw [if_pos ⟨hnew, hlt⟩, revertFlag, ← ha.entryAt, Bool.and_eq_true, hsplit, habove]
    split at hknown
    next hold => simp [hold, hknown]
    next hold =>
      simp only [hold, and_false, false_or, ne_eq, not_false_eq_true, decide_true, and_true]
      exact or_iff_left_of_imp hknown
  · rw [if_neg fun h => hlt h.2]
    refine h.trans ?_
    exact ha.has_congr (by simp) (by simp) fun i _ hi => ⟨fun h => ⟨by omega, h⟩, And.right⟩

/-- A log pack that brings no configuration and overwrites none. -/
theorem pack (h : l.Flagged) (ha : Represents l.logStore a) {idx : Nat}
    {es : List (Nat × LogValType × Payload)} (hes : es ≠ []) (hstart : l.logStore.startIdx ≤ idx)
    (hle : idx ≤ l.logStore.nextSlot) (hnew : ∀ e ∈ es, e.2.1 ≠ .conf)
    (hold : ¬l.logStore.Has (fun i => (idx ≤ i ∧ i < idx + es.length) ∧ l.smCommitIndex < i) .conf)
    (hstore : l'.logStore = l.logStore.applyPack idx es) (hsm : l'.smCommitIndex = l.smCommitIndex)
    (hflag : l'.configChanging = l.configChanging) : l'.Flagged := by
  rw [ha.start] at hstart
  rw [ha.nextSlot] at hle
  rw [Flagged, hflag, hstore, hsm, ha.has_applyPack (Nat.not_lt_zero _) hstart hle hes]
  refine h.trans ?_
  rw [ha.has (by simp)] at hold ⊢
  rw [ha.has (by simp)]
  constructor
  · rintro ⟨i, e, he, hi, hconf⟩
    exact .inl ⟨i, e, he, ⟨fun hin => hold ⟨i, e, he, ⟨hin, hi⟩, hconf⟩, hi⟩, hconf⟩
  · rintro (⟨i, e, he, ⟨-, hi⟩, hconf⟩ | ⟨n, e, he, -, hconf⟩)
    · exact ⟨i, e, he, hi, hconf⟩
    · exact (hnew e (List.mem_of_getElem? he) hconf).elim

/-- The background thread applies an entry. -/
theorem applied (h : l.Flagged) (ha : Represents l.logStore a)
    (hbegins : l.logStore.startIdx ≤ l.smCommitIndex + 1)
    (hlog : l.smCommitIndex < usub l.logStore.nextSlot 1)
    (hconf : (l.logStore.entryAt (l.smCommitIndex + 1)).valType = .conf →
      (l.logStore.entryAt (l.smCommitIndex + 1)).storedConfig?.isSome ∧
        ¬l.logStore.Has (fun i => l.smCommitIndex + 1 < i) .conf) : l.applied.Flagged := by
  have hpos := ha.pos
  rw [ha.nextSlot, usub_of_le (by rw [OffsetList.next]; omega)] at hlog
  rw [ha.start] at hbegins
  have hlt : l.smCommitIndex + 1 < a.next := by omega
  show (l.configChanging && _) = true ↔ l.logStore.Has (fun i => l.smCommitIndex + 1 < i) .conf
  have hsplit := h.trans (ha.has_split (Nat.not_lt_zero _) hbegins hlt)
  have hbelow : ¬l.logStore.Has (fun i => i < l.smCommitIndex + 1 ∧ l.smCommitIndex < i) .conf := by
    rintro ⟨p, -, hp, -⟩
    omega
  have habove : l.logStore.Has (fun i => l.smCommitIndex + 1 < i ∧ l.smCommitIndex < i) .conf ↔
      l.logStore.Has (fun i => l.smCommitIndex + 1 < i) .conf :=
    ha.has_congr (by simp) (by simp) fun i _ _ => ⟨And.left, fun hi => ⟨hi, by omega⟩⟩
  rw [or_iff_right hbelow, habove] at hsplit
  by_cases htype : (l.logStore.entryAt (l.smCommitIndex + 1)).valType = .conf
  · obtain ⟨hsome, hnone⟩ := hconf htype
    simp [hnone, Option.isSome_iff_ne_none.1 hsome]
  · have hconfig : (l.logStore.entryAt (l.smCommitIndex + 1)).storedConfig? = none := by
      unfold LogEntry.storedConfig? LogEntry.config?
      split
      next h _ => exact (htype h).elim
      next => rfl
    rw [hconfig, Option.isNone_none, Bool.and_true, hsplit]
    simp [htype]

/-- Compaction of entries that have been applied. -/
theorem compact (h : l.Flagged) (ha : Represents l.logStore a) {k : Nat}
    (hk : l.logStore.startIdx ≤ k + 1) (hsmk : k ≤ l.smCommitIndex)
    (hstore : l'.logStore = l.logStore.compact k) (hsm : l'.smCommitIndex = l.smCommitIndex)
    (hflag : l'.configChanging = l.configChanging) : l'.Flagged := by
  rw [ha.start] at hk
  rw [Flagged, hflag, hstore, hsm, ha.has_compact (Nat.not_lt_zero _) hk]
  refine h.trans ?_
  exact ha.has_congr (by simp) (by simp) fun i _ _ => ⟨fun hi => ⟨by omega, hi⟩, And.right⟩

/-- A snapshot takes the place of entries, none of which is the last configuration under way. -/
theorem install (h : l.Flagged) (ha : Represents l.logStore a) {snp : Snapshot}
    (hbegins : l.logStore.startIdx ≤ l.smCommitIndex + 1) (hlt : l.smCommitIndex < snp.lastLogIdx)
    (hconf : l.configChanging → l.logStore.Has (fun i => snp.lastLogIdx < i) .conf)
    (conf : ClusterConfig) : (l.install snp conf).Flagged := by
  rw [ha.start] at hbegins
  have hk : a.start ≤ snp.lastLogIdx + 1 := by omega
  show l.configChanging = true ↔
    (l.logStore.compact snp.lastLogIdx).Has (fun i => snp.lastLogIdx < i) .conf
  rw [ha.has_compact (Nat.not_lt_zero _) hk]
  simp only [and_self]
  refine ⟨hconf, fun hhas => h.2 ?_⟩
  rw [ha.has (by simp)] at hhas ⊢
  obtain ⟨i, e, he, hi, hq⟩ := hhas
  exact ⟨i, e, he, by omega, hq⟩

end Ledger.Flagged

/-! ## Inputs -/

section Steps

variable {ctx : Context} {inp : Input} {s₀ s s' : Server} {o : List Effect} {R : Nat}

theorem LedgerStep.flagged (h : LedgerStep ctx inp s₀ s o s') (hs : s.ledger.Intact R)
    (hc : s.ledger.Covered) (hf : s.ledger.Flagged) (hspares : inp.SparesLog ctx s₀)
    (happlied : inp.KeepsApplied s₀) (hkeeps : inp.KeepsFlag ctx s₀)
    (hbg : inp ≠ .commitBg) (hinst : ∀ snp, ¬inp.Installs snp) : s'.ledger.Flagged := by
  obtain ⟨a, (ha : Represents s.logStore a)⟩ := hs.store
  cases h with
  | same hs' => rw [hs']; exact hf
  | saveInitial _ _ hs' | confAppend _ _ hs' =>
    subst hs'
    exact hf.append hc ha rfl rfl (by simp [noteFlag]; rfl)
  | @client req now e hin htype he _ hs' =>
    subst hin hs'
    have hconf : ∀ e ∈ req.logEntries, e.valType ≠ .conf := by
      simpa only [Input.KeepsFlag, htype] using hkeeps
    refine hf.append hc ha rfl rfl ?_
    simp [noteFlag, hconf _ he]
    rfl
  | commitMajority _ _ _ _ _ _ _ hs' | commitAlone _ _ _ hs' | packCommit _ _ _ hs'
  | commitFollower _ _ _ _ _ _ _ _ _ hs' =>
    subst hs'
    exact hf.congr rfl rfl rfl
  | abandon hin _ hk hgive hs' =>
    subst hin hs'
    have hoff : s.configChanging = false := by
      rw [hk.field Server.configChanging]
      simpa using hkeeps hgive
    exact hf.congr rfl rfl hoff.symm
  | @merge req now es hin htype hk _ _ hokay hes hterm hs' =>
    subst hin hs'
    have hl : s.ledger = s₀.ledger := hk.ledger
    have hlog : s.logStore = s₀.logStore := congrArg Ledger.logStore hl
    have happends : req.Appends s₀ := ⟨htype, hterm, hokay.keeps hk⟩
    have hover := happlied happends
    rw [← hk.field Server.logStore, ← hk.field Server.smCommitIndex] at hover
    simp only [Input.KeepsFlag, htype, ← hl, ← hlog] at hkeeps
    rcases hs.merge_fits htype hk hokay hterm hspares with hnil | ⟨hle, hlt⟩
    · rw [hes, hnil]
      exact hf.congr rfl rfl rfl
    · have hskip : skipMatching s.ledger.logStore (req.lastLogIdx + 1) es = (_, _) :=
        hes ▸ skipMatching_reached _ _
      refine hf.merge ha hle hlt ?_ ?_ rfl rfl rfl
      · rw [hskip]
        exact fun hne => hover (mt tried_eq_nil.2 hne)
      · rw [hskip]
        exact fun hne => hkeeps happends (mt tried_eq_nil.2 hne)
  | @pack req now es hin htype hk hcatch hentry hs' =>
    subst hin hs' hk
    have hpack := ReqMsg.pack?_eq_some hentry
    have hfit := hspares.pack_fits htype hcatch hpack
    simp only [Input.KeepsFlag, htype] at hkeeps
    obtain ⟨hnew, hold⟩ := hkeeps hcatch es hpack
    exact hf.pack ha hfit.1 hfit.2.1 hfit.2.2 hnew hold rfl rfl rfl
  | @join req now hin htype hk hcatch hentry hs' =>
    subst hin hs' hk
    obtain ⟨e, he, hconf⟩ := hentry
    simp only [Input.KeepsFlag, htype] at hkeeps
    show s.configChanging = true ↔ s.logStore.Has (fun i => 0 < i) .conf
    constructor
    · intro hflag
      obtain ⟨p, hp, hi, hq⟩ := hf.1 hflag
      exact ⟨p, hp, Nat.zero_lt_of_lt hi, hq⟩
    · intro hhas
      by_contra hflag
      exact hkeeps (by simp [hcatch]) (by simp [he, hconf]) hflag hhas
  | process hin | confApplied hin | snapshot hin => exact (hbg hin).elim
  | installCompact hin | installApply hin | installDone hin => exact (hinst _ hin).elim

/-- **One input.** -/
theorem Server.take_flagged (h : s.ledger.Intact ctx.backlog) (hc : s.ledger.Covered)
    (hf : s.ledger.Flagged) (hspares : inp.SparesLog ctx s) (happlied : inp.KeepsApplied s)
    (hkeeps : inp.KeepsFlag ctx s) : (s.take ctx inp).ledger.Flagged := by
  obtain ⟨a, (ha : Represents s.logStore a)⟩ := h.store
  have hbegins : s.logStore.startIdx ≤ s.smCommitIndex + 1 := h.startIdx_le
  rcases inp.kinds with rfl | ⟨req, now, rfl, htype⟩ | ⟨hbg, hinst⟩
  · have hround := take_bg ctx s
    generalize (s.take ctx .commitBg).ledger = l, calls (Input.commitBg.handle ctx s).out = o
      at hround ⊢
    cases hround with
    | idle => exact hf
    | plain hquick hlog => exact hf.applied ha hbegins hlog (hkeeps hquick hlog)
    | @snapshot conf hquick hlog hdist hdue =>
      have hf' := hf.applied ha hbegins hlog (hkeeps hquick hlog)
      have hforward := h.snapshot_forward hdist hdue
      by_cases hres : ulong ctx.params.reservedLogItems < s.smCommitIndex + 1
      · exact hf'.compact ha (hforward hres) (Nat.sub_le _ _) (if_pos hres) rfl rfl
      · exact hf'.congr (if_neg hres) rfl rfl
  · rcases take_install htype now with ⟨hl, -⟩ | ⟨sync, hsync, hround⟩
    · rw [hl]
      exact hf
    · obtain ⟨-, happly, hsave⟩ := hspares.install_fits htype hsync
      simp only [Input.KeepsFlag, htype] at hkeeps
      generalize (s.take ctx (.request req now)).ledger = l,
        calls ((Input.request req now).handle ctx s).out = o at hround ⊢
      cases hround with
      | failed hno => cases hno.symm.trans happly
      | unsaved hno => exact (hno hsave).elim
      | done => exact hf.install ha hbegins hsync.2.2.2 (hkeeps sync hsync.1 hsync) _
  · refine ((take_path ctx s inp).fold (R := fun (s₁ : Server) (_ : List Effect) (s₂ : Server) =>
        s₁.ledger.Intact ctx.backlog → s₁.ledger.Covered → s₁.ledger.Flagged → s₂.ledger.Flagged)
      (fun _ _ _ h => h) ?_) h hc hf
    intro s₁ s₂ s₃ _ _ hm ih h₁ hc₁ hf₁
    have hstep := hm.ledgerStep
    exact ih (hstep.intact h₁ hspares hbg hinst).1
      (hstep.covered h₁ hc₁ hspares happlied hbg hinst)
      (hstep.flagged h₁ hc₁ hf₁ hspares happlied hkeeps hbg hinst)

end Steps

/-! ## Runs -/

/-- The constructor looks at every entry behind the last one that was applied. -/
theorem flagged_load (id : Int) {b : Boot} {R : Nat} (hb : (load id b).ledger.Intact R) :
    (load id b).ledger.Flagged := by
  obtain ⟨a, (ha : Represents b.logStore a)⟩ := hb.store
  show hasConfFrom b.logStore (max (b.lastCommitIndex + 1) b.logStore.startIdx) = true ↔
    b.logStore.Has (fun i => b.lastCommitIndex < i) .conf
  rw [ha.has (Nat.not_lt_zero _), hasConfFrom, List.any_eq_true, ha.nextSlot, ha.start]
  simp only [List.mem_range'_1, decide_eq_true_eq, ha.entryAt, OffsetList.entryAt]
  constructor
  · rintro ⟨i, hi, hq⟩
    obtain ⟨e, he⟩ := Option.isSome_iff_exists.1
      (OffsetList.get?_isSome.2 (⟨by omega, by omega⟩ : a.start ≤ i ∧ i < a.next))
    rw [he, Option.getD_some] at hq
    exact ⟨i, e, he, by omega, hq⟩
  · rintro ⟨i, e, he, hi, hq⟩
    have hin := OffsetList.get?_isSome.1 (Option.isSome_iff_exists.2 ⟨e, he⟩)
    refine ⟨i, by omega, ?_⟩
    rw [he, Option.getD_some]
    exact hq

end EnclaveRaft
