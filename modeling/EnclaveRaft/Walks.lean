import EnclaveRaft.Steps

/-!
# The handlers as sequences of small steps

For each procedure and handler, the small steps it takes and what is known at its end.
`walks_handle` collects them for every input. Nothing later unfolds a handler to prove an
invariant.
-/

namespace EnclaveRaft

open Act Server

variable {ctx : Context} {inp : Input} {s₀ s : Server}

/-! ## Basic actions -/

theorem walks_exitWith {α : Type} {code : Int} {e : RaftException} {Q : α → Server → Prop} :
    Walks (Micro ctx inp s₀) (exitWith code e) s Q :=
  walks_emit_bind (.note trivial trivial) walks_throw

theorem walks_orThrow_bind {m : Server → List Effect → Server → Prop} {α β : Type}
    {e : RaftException} {o : Option α} {f : α → M β} {Q : β → Server → Prop}
    (h : ∀ a, o = some a → Walks m (f a) s Q) : Walks m (orThrow e o >>= f) s Q := by
  cases o with
  | none => exact walks_bind (R := fun _ _ => False) walks_throw fun _ _ h => h.elim
  | some a => exact h a rfl

theorem orThrow_runs {α : Type} {e : RaftException} {o : Option α} {a : α} (h : o = some a) :
    Runs (orThrow e o) s a s [] := by
  rw [h]
  exact runs_pure

section Saving

variable {m : Server → List Effect → Server → Prop} {c : ClusterConfig}

theorem walks_saveConfig {Q : Server → Prop}
    (h : ∀ saved, c.copied = some saved → m s [] (s.keepConfig saved) ∧ Q (s.keepConfig saved)) :
    Walks m (saveConfig c) s fun _ => Q := by
  unfold saveConfig
  split
  next saved hsaved => exact walks_modify (h saved hsaved).1 (h saved hsaved).2
  next => exact walks_throw

theorem within_saveConfig (h : ∀ saved, c.copied = some saved → ∀ s, m s [] (s.keepConfig saved)) :
    Within m (saveConfig c) :=
  fun s => (walks_saveConfig (Q := fun _ => True) fun saved hsaved => ⟨h saved hsaved s, trivial⟩)

theorem within_orExit {e : RaftException} {x : M Unit} (hx : Within m x)
    (hexit : ∀ s, m s [.systemExit (-1)] s) : Within m (orExit e x) :=
  fun s => walks_catching (hx s) fun _ s' => within_emit_bind hexit (within_throw e) s'

end Saving

theorem walks_sendReq {uid : Nat} {target : Int} {req : ReqMsg} {handler : RespHandler}
    (h : Micro ctx inp s₀ s [.send ⟨handler, uid, target, req, s⟩] s) :
    Walks (Micro ctx inp s₀) (sendReq uid target req handler) s fun _ s' => s' = s :=
  walks_get_bind (walks_emit h rfl)

theorem walks_termForLog {idx : Nat} :
    Walks (Micro ctx inp s₀) (termForLog idx) s fun t s' => s' = s ∧ TermForLog s idx t := by
  refine walks_get_bind (walks_ite (fun h0 => walks_pure ⟨rfl, .inl ⟨h0, rfl⟩⟩) fun h0 => ?_)
  refine walks_ite (fun hs => walks_pure ⟨rfl, .inr (.inl ⟨h0, hs, rfl⟩)⟩) fun hs => ?_
  cases hsnp : s.smLastSnapshot with
  | none => exact walks_exitWith
  | some snp =>
    refine walks_ite (fun hi => walks_pure ⟨rfl, .inr (.inr ?_)⟩) fun _ => walks_exitWith
    exact ⟨h0, Nat.lt_of_not_le hs, snp, hsnp, hi, rfl⟩

/-! ## Replication -/

theorem object_onPeer (s : Server) (uid : Nat) (f : Peer → Peer) (hf : ∀ p, (f p).uid = p.uid) :
    (s.onPeer uid f).object uid = (s.object uid).map f := by
  have h : ∀ l : List Peer,
      ((l.map fun p => if p.uid = uid then f p else p).find? fun p => p.uid = uid) =
        (l.find? fun p => p.uid = uid).map f := by
    intro l
    induction l with
    | nil => rfl
    | cons p l ih =>
      by_cases hp : p.uid = uid
      · simp [hp, hf]
      · simp [hp, ih]
  have hj : (s.srvToJoin.map fun p => if p.uid = uid then f p else p).toList =
      s.srvToJoin.toList.map fun p => if p.uid = uid then f p else p := by
    cases s.srvToJoin <;> rfl
  unfold object
  show ((s.peers.map _ ++ (s.srvToJoin.map _).toList).find? _) = _
  rw [hj, ← List.map_append, h]

theorem onPeer_self (s : Server) (uid : Nat) : (s.onPeer uid fun p => p) = s := by
  unfold onPeer
  simp only [ite_self, List.map_id', Option.map_id']

/-- The role and the term stay while requests are created and sent. -/
def SameRole (s s' : Server) : Prop := s'.role = s.role ∧ s'.state = s.state

theorem SameRole.refl (s : Server) : SameRole s s := ⟨rfl, rfl⟩

theorem SameRole.trans {s s' s'' : Server} (h : SameRole s s') (h' : SameRole s' s'') :
    SameRole s s'' :=
  ⟨h'.1.trans h.1, h'.2.trans h.2⟩

theorem isExt_of_newConfig (h : (inp.newConfig ctx s).isSome) : inp.IsExt := by
  cases inp with
  | response rpc resp now =>
    by_contra hne
    simp [Input.newConfig, show rpc.handler ≠ .extResp from hne] at h
  | failure rpc =>
    by_contra hne
    simp [Input.newConfig, show rpc.handler ≠ .extResp from hne] at h
  | _ => cases h

theorem SameRole.leads {s' : Server} (h : SameRole s s') (hl : inp.Leads ctx s₀ s) :
    inp.Leads ctx s₀ s' :=
  hl.imp h.1.trans (And.imp_right h.1.trans)

theorem walks_startSnapshotSync {uid lastLogIdx : Nat} {p : Peer} :
    Walks (Micro ctx inp s₀) (startSnapshotSync uid lastLogIdx p) s fun _ s' =>
      ∃ snp, s' = s.onPeer uid (·.setSnapshotInSync (some snp)) := by
  refine walks_get_bind ?_
  cases hsnp : s.lastSnapshot with
  | none => exact walks_throw
  | some snp =>
    refine walks_ite (fun _ => walks_exitWith) fun _ => ?_
    refine walks_ite (fun _ => walks_exitWith) fun hsize => ?_
    exact walks_modify (.startSync hsnp (by omega)) ⟨snp, rfl⟩

theorem walks_snapshotBlock {uid : Nat} {p p' : Peer} {sync : SnapshotSyncCtx}
    {commitIdx : Nat} (hp : s.object uid = some p') (hid : p'.id = p.id)
    (hsync : p'.snpSyncCtx = some sync) :
    Walks (Micro ctx inp s₀) (snapshotBlock ctx p sync s.term commitIdx) s fun req s' =>
      s' = s ∧ SnapshotMsg s uid req := by
  refine walks_get_bind (walks_ite (fun _ => walks_throw) fun _ => ?_)
  refine walks_ite (fun _ => walks_exitWith) fun _ => walks_ite (fun _ => walks_throw) fun _ => ?_
  refine walks_pure ⟨rfl, ?_⟩
  exact ⟨p', sync, _, _, hp, hsync, rfl, rfl, rfl, hid.symm, rfl, rfl, rfl⟩

theorem walks_createSyncSnapshotReq {uid lastLogIdx commitIdx : Nat} :
    Walks (Micro ctx inp s₀) (createSyncSnapshotReq ctx uid lastLogIdx s.term commitIdx) s
      fun req s' => SameRole s s' ∧ SnapshotMsg s' uid req ∧
        ∀ p, s.object uid = some p → req.dst = p.id := by
  refine walks_get_bind (walks_orThrow_bind fun p hp => ?_)
  have hwhen : Walks (Micro ctx inp s₀)
      (when (needsLatestSnapshot s p) (startSnapshotSync uid lastLogIdx p)) s fun _ s' =>
        SameRole s s' ∧ ∃ p', s'.object uid = some p' ∧ p'.id = p.id := by
    refine walks_when (fun _ => walks_startSnapshotSync.weaken ?_)
      fun _ => ⟨.refl _, p, hp, rfl⟩
    rintro _ _ ⟨snp, rfl⟩
    refine ⟨⟨rfl, rfl⟩, p.setSnapshotInSync (some snp), ?_, rfl⟩
    rw [object_onPeer s uid (·.setSnapshotInSync (some snp)) fun _ => rfl, hp]; rfl
  refine walks_bind hwhen fun _ s' hs' => walks_get_bind (walks_orThrow_bind fun sync hsync => ?_)
  obtain ⟨hrole, p', hp', hid⟩ := hs'
  rw [hp'] at hsync
  have hterm : s.term = s'.term := congrArg SrvState.term hrole.2.symm
  rw [hterm]
  refine (walks_snapshotBlock hp' hid hsync).weaken ?_
  rintro req _ ⟨rfl, hmsg⟩
  refine ⟨hrole, hmsg, fun q hq => ?_⟩
  obtain ⟨p'', _, _, _, hp'', -, -, -, -, hdst, -⟩ := hmsg
  cases hp'.symm.trans hp''
  cases hp.symm.trans hq
  exact hdst.trans hid

theorem walks_createAppendEntriesReq {uid : Nat} :
    Walks (Micro ctx inp s₀) (createAppendEntriesReq ctx uid) s fun req s' =>
      SameRole s s' ∧ (AppendMsg ctx s' uid req ∨ SnapshotMsg s' uid req) ∧
        ∀ p, s.object uid = some p → req.dst = p.id := by
  have hid : ∀ p, s.object uid = some p → ∃ p', (s.onPeer uid fun p =>
      if p.nextLogIdx = 0 then p.setNextLogIdx s.nextSlot else p).object uid = some p' ∧
        p'.id = p.id := fun p hp => by
    rw [object_onPeer s uid _ fun p => by split <;> rfl, hp]
    refine ⟨_, rfl, ?_⟩
    dsimp only
    split <;> rfl
  refine walks_modify_bind .aim (walks_get_bind ?_)
  generalize hs' : (s.onPeer uid _ : Server) = s' at hid ⊢
  have hrole : SameRole s s' := by subst hs'; exact ⟨rfl, rfl⟩
  refine walks_orThrow_bind fun p hp => ?_
  refine walks_ite (fun _ => walks_exitWith) fun hlt => ?_
  refine walks_ite (fun _ => walks_createSyncSnapshotReq.weaken fun req s₃ h => ?_) fun hsnp => ?_
  · refine ⟨hrole.trans h.1, .inr h.2.1, fun q hq => ?_⟩
    obtain ⟨p', hp', hpid⟩ := hid q hq
    exact (h.2.2 p' hp').trans hpid
  refine walks_bind walks_termForLog fun t s₃ h => ?_
  obtain ⟨rfl, ht⟩ := h
  refine walks_orThrow_bind fun es hes => walks_pure ?_
  refine ⟨hrole, .inl ⟨p, t, es, hp, Nat.lt_of_not_le hlt, hsnp, ht, hes, rfl⟩, fun q hq => ?_⟩
  obtain ⟨p', hp', hpid⟩ := hid q hq
  cases hp.symm.trans hp'
  exact hpid

theorem walks_requestAppendEntriesTo {uid : Nat} (hr : inp.Leads ctx s₀ s) :
    Walks (Micro ctx inp s₀) (requestAppendEntriesTo ctx uid) s fun _ s' => SameRole s s' := by
  refine walks_get_bind (walks_orThrow_bind fun p hp => ?_)
  refine walks_ite (fun _ => walks_pure (.refl _)) fun _ => ?_
  refine walks_modify_bind (.quiet (quiet_onPeer _ _ fun _ => rfl)) ?_
  have hbusy : (s.onPeer uid Peer.makeBusy).object uid = some p.makeBusy := by
    rw [object_onPeer s uid Peer.makeBusy fun _ => rfl, hp]; rfl
  refine walks_bind walks_createAppendEntriesReq fun req s'' h => ?_
  have hr' : inp.Leads ctx s₀ s'' := h.1.leads hr
  have hdst : p.id = req.dst := (h.2.2 _ hbusy).symm
  rw [hdst]
  have hsend : Micro ctx inp s₀ s'' [.send ⟨.peerResp, uid, req.dst, req, s''⟩] s'' := by
    rcases h.2.1 with hmsg | hmsg
    · exact .sendAppend hr' hmsg
    · exact .sendSnapshot (hr'.imp (fun h => ⟨h, rfl, rfl⟩) fun h => isExt_of_newConfig h.1) hmsg
  refine walks_bind (walks_sendReq hsend) fun _ s₃ hs₃ => walks_pure ?_
  subst hs₃
  exact h.1

theorem walks_notifyCommit {p : Peer} (hr : inp.Leads ctx s₀ s) :
    Walks (Micro ctx inp s₀) (notifyCommit ctx p) s fun _ s' => SameRole s s' := by
  refine walks_bind (walks_requestAppendEntriesTo hr) fun sent s' hs' => ?_
  refine walks_ite (fun _ => walks_pure hs') fun _ => ?_
  exact walks_modify (.quiet (quiet_onPeer _ _ fun _ => rfl)) hs'

/-- A loop over peers whose rounds keep the role keeps it. -/
theorem walks_each_peer {f : Peer → M Unit} (ps : List Peer) (hr : inp.Leads ctx s₀ s)
    (hf : ∀ p s', inp.Leads ctx s₀ s' →
      Walks (Micro ctx inp s₀) (f p) s' fun _ s'' => SameRole s' s'') :
    Walks (Micro ctx inp s₀) (each f ps) s fun _ s' => SameRole s s' := by
  refine walks_each (I := fun s' => SameRole s s') ps (.refl s) (fun p _ s' hs' => ?_)
    fun s' hs' => hs'
  exact (hf p s' (hs'.leads hr)).weaken fun _ _ h => hs'.trans h

theorem walks_commit {k : Nat}
    (hm : s.quickCommitIdx < k → Micro ctx inp s₀ s [] { s with quickCommitIdx := k }) :
    Walks (Micro ctx inp s₀) (commit ctx k) s fun _ s' => SameRole s s' := by
  refine walks_get_bind (walks_when (fun hlt => ?_) fun _ => .refl s)
  refine walks_modify_bind (hm hlt) (walks_when (fun hl => ?_) fun _ => .refl s)
  exact walks_each_peer s.peers (.inl hl) fun p s' hr => walks_notifyCommit hr

theorem walks_requestAppendEntries (hr : inp.Leads ctx s₀ s) :
    Walks (Micro ctx inp s₀) (requestAppendEntries ctx) s fun _ s' => SameRole s s' := by
  refine walks_get_bind (walks_ite (fun hp => walks_commit fun hlt => ?_) fun _ => ?_)
  · exact .commitAlone hr hp hlt
  · exact walks_each_peer s.peers hr fun p s' hr' =>
      walks_bind (walks_requestAppendEntriesTo hr') fun _ _ h => walks_pure h

/-! ## Roles and terms -/

/-- What follows the role change in `becomeLeader`. -/
theorem walks_becomeLeader_rest (hr : s.role = .leader) :
    Walks (Micro ctx inp s₀) (do
      let s ← get
      when (s.config.logIdx = 0) (modify saveInitialConfig)
      requestAppendEntries ctx : M Unit) s fun _ s' => SameRole s s' := by
  refine walks_get_bind (walks_bind (R := fun _ s' => SameRole s s') ?_ fun _ s' hs' => ?_)
  · exact walks_when (fun h0 => walks_modify (.saveInitial hr h0) ⟨rfl, rfl⟩) fun _ => .refl s
  exact (walks_requestAppendEntries (.inl (hs'.1.trans hr))).weaken fun _ _ h => hs'.trans h

theorem quiet_restartElectionTimer (s : Server) : Quiet s s.restartElectionTimer := by
  unfold restartElectionTimer
  split <;> rfl

theorem keeps_becomeFollower (s : Server) : Keeps s (becomeFollower s) := by
  refine Keeps.trans ?_ (quiet_restartElectionTimer _).keeps
  simp [Keeps, Server.data, Server.core, Function.comp_def, Peer.core, Peer.enableHb]

theorem keeps_enterTerm (t : Nat) (s : Server) : Keeps s (enterTerm t s) :=
  Keeps.trans (by rfl) (keeps_becomeFollower _)

theorem becomeFollower_role (s : Server) : (becomeFollower s).role = .follower :=
  (quiet_restartElectionTimer _).field Server.role

theorem becomeFollower_state (s : Server) : (becomeFollower s).state = s.state :=
  (quiet_restartElectionTimer _).field Server.state

theorem enterTerm_state (t : Nat) (s : Server) : (enterTerm t s).state = ⟨t, nobody⟩ :=
  becomeFollower_state _

theorem walks_updateTerm {t : Nat} (hin : inp.Brings t) (hk : Quiet s₀ s) :
    Walks (Micro ctx inp s₀) (updateTerm t) s fun updated s' =>
      Keeps s s' ∧ s'.term = max s.term t ∧ (updated = false → s' = s) := by
  refine walks_get_bind (walks_ite (fun hlt => ?_) fun hge => walks_pure ?_)
  · refine walks_modify_bind (.enterTerm hlt hin hk) (walks_pure ⟨keeps_enterTerm t s, ?_, nofun⟩)
    exact (congrArg SrvState.term (enterTerm_state t s)).trans (max_eq_right hlt.le).symm
  · exact ⟨.refl s, (max_eq_left (Nat.le_of_not_lt hge)).symm, fun _ => rfl⟩

theorem walks_hearLeader {e : RaftException} (hin : inp.FromLeader s.term) :
    Walks (Micro ctx inp s₀) (hearLeader e) s fun _ s' =>
      Keeps s s' ∧ s'.state = s.state ∧ s'.role = .follower := by
  refine walks_get_bind ?_
  cases hr : s.role with
  | candidate =>
    refine walks_modify (.stepDown hr hin) ⟨keeps_becomeFollower s, ?_, becomeFollower_role s⟩
    exact becomeFollower_state s
  | leader => exact walks_exitWith
  | follower =>
    have hq := quiet_restartElectionTimer s
    exact walks_modify (.quiet hq) ⟨hq.keeps, hq.field Server.state, (hq.field Server.role).trans hr⟩

/-! ## Append requests -/

/-- What the log is left with, and a flag. -/
def withLog (s : Server) (st : LogStore) (b : Bool) : Server :=
  { s with logStore := st, configChanging := b }

/-- How a loop over entries ends that stops at one that the state machine does not take. -/
def verdict (ok : Bool) : Except RaftException Unit :=
  if ok then .ok () else .error .stateMachineFailed

theorem preCommit_eq (s : Server) (idx : Nat) (buf : Payload) :
    preCommit ctx idx buf s =
      ⟨verdict (ctx.stateMachine.preCommit buf), s, [.preCommit idx buf]⟩ := by
  unfold preCommit verdict
  rw [runs_emit.bind_eq]
  cases ctx.stateMachine.preCommit buf <;> rfl

theorem noteEntry_eq (ctx : Context) (s : Server) (idx : Nat) (e : LogEntry) :
    noteEntry ctx idx e s = ⟨verdict (ctx.stateMachine.takes e),
      withLog s s.logStore (noteFlag s.configChanging e), noteOut idx e⟩ := by
  have hor : ∀ b : Bool, (b || true) = true := Bool.or_true
  unfold noteEntry noteFlag noteOut StateMachine.takes
  cases e.valType with
  | conf => simp only [decide_true, hor]; rfl
  | appLog => simp [preCommit_eq, withLog]
  | _ => simp only [reduceCtorEq, decide_false, Bool.or_false]; rfl

theorem revertEntry_runs (s : Server) (idx : Nat) (e : LogEntry) :
    Runs (revertEntry idx e) s () (withLog s s.logStore (revertFlag s.configChanging e))
      (revertOut idx e) := by
  unfold revertEntry revertFlag revertOut
  cases e.valType with
  | conf => simp only [ne_eq, not_true_eq_false, decide_false, Bool.and_false]; exact runs_modify
  | appLog =>
    simp only [ne_eq, reduceCtorEq, not_false_eq_true, decide_true, Bool.and_true]
    exact runs_emit
  | _ =>
    simp only [ne_eq, reduceCtorEq, not_false_eq_true, decide_true, Bool.and_true]
    exact runs_pure

theorem appendNewEntry_eq (ctx : Context) (s : Server) (e : LogEntry) :
    appendNewEntry ctx e s = ⟨verdict (ctx.stateMachine.takes e),
      withLog s (s.logStore.append e) (noteFlag s.configChanging e), noteOut s.nextSlot e⟩ := by
  unfold appendNewEntry
  rw [get_bind_apply, modify_bind_apply, noteEntry_eq]
  rfl

theorem appendNewEntries_eq (es : List LogEntry) (s : Server) :
    each (appendNewEntry ctx) es s = ⟨verdict (es.all ctx.stateMachine.takes),
      withLog s ((ctx.stateMachine.tried es).foldl LogStore.append s.logStore)
        ((ctx.stateMachine.tried es).foldl noteFlag s.configChanging),
      appendedOut s.logStore (ctx.stateMachine.tried es)⟩ := by
  induction es generalizing s with
  | nil => rfl
  | cons e es ih =>
    have hstep := appendNewEntry_eq ctx s e
    unfold each StateMachine.tried
    cases htake : ctx.stateMachine.takes e with
    | true =>
      rw [htake] at hstep
      rw [Runs.bind_eq hstep, ih, List.all_cons, htake]
      rfl
    | false =>
      rw [htake] at hstep
      rw [bind_of_error hstep, List.all_cons, htake, if_neg (by simp), appendedOut, appendedOut,
        List.append_nil]
      rfl

/-- One round of the loop that overwrites. -/
theorem overwriteEntry_eq (ctx : Context) (s : Server) (idx : Nat) (e : LogEntry) :
    (do
      revertEntry idx (s.logStore.entryAt idx)
      modify fun s => { s with logStore := s.logStore.writeAt idx e }
      noteEntry ctx idx e : M Unit) s =
    ⟨verdict (ctx.stateMachine.takes e),
      withLog s (s.logStore.writeAt idx e)
        (noteFlag (revertFlag s.configChanging (s.logStore.entryAt idx)) e),
      revertOut idx (s.logStore.entryAt idx) ++ noteOut idx e⟩ := by
  have hnote := noteEntry_eq ctx
    (withLog s (s.logStore.writeAt idx e) (revertFlag s.configChanging (s.logStore.entryAt idx)))
    idx e
  rw [(revertEntry_runs s idx (s.logStore.entryAt idx)).bind_eq]
  exact congrArg (fun r : Outcome Server Effect RaftException Unit =>
    (⟨r.result, r.state, revertOut idx (s.logStore.entryAt idx) ++ r.out⟩ : Outcome ..)) hnote

/-- Both loops together. -/
theorem overwriteEntries_append_eq (es : List LogEntry) (s : Server) (idx : Nat) :
    (overwriteEntries ctx idx es >>= each (appendNewEntry ctx)) s =
      let w := overwritten s.logStore idx (ctx.stateMachine.tried es)
      ⟨verdict (es.all ctx.stateMachine.takes),
        withLog s (w.2.foldl LogStore.append w.1) (w.2.foldl noteFlag
          (overwrittenFlag s.logStore idx (ctx.stateMachine.tried es) s.configChanging)),
        overwrittenOut s.logStore idx (ctx.stateMachine.tried es) ++ appendedOut w.1 w.2⟩ := by
  induction es generalizing s idx with
  | nil => rfl
  | cons e es ih =>
    unfold overwriteEntries
    rw [bind_assoc_apply, get_bind_apply]
    by_cases hlt : idx < s.logStore.nextSlot
    · have hround := overwriteEntry_eq ctx s idx e
      have hassoc : ((do
          revertEntry idx (s.logStore.entryAt idx)
          modify fun s => { s with logStore := s.logStore.writeAt idx e }
          noteEntry ctx idx e
          overwriteEntries ctx (idx + 1) es : M (List LogEntry)) >>=
            each (appendNewEntry ctx)) s =
          ((do
            revertEntry idx (s.logStore.entryAt idx)
            modify fun s => { s with logStore := s.logStore.writeAt idx e }
            noteEntry ctx idx e : M Unit) >>= fun _ =>
              overwriteEntries ctx (idx + 1) es >>= each (appendNewEntry ctx)) s := by
        rw [bind_assoc_apply, bind_assoc_apply]
        refine bind_congr_apply fun _ s' => ?_
        exact bind_assoc_apply (noteEntry ctx idx e) _ _ _
      rw [if_pos (show idx < s.nextSlot from hlt), hassoc]
      unfold StateMachine.tried overwritten overwrittenFlag overwrittenOut
      simp only [if_pos hlt]
      cases htake : ctx.stateMachine.takes e with
      | true =>
        rw [htake] at hround
        rw [Runs.bind_eq hround, ih, List.all_cons, htake]
        simp only [if_true, List.append_assoc]
        rfl
      | false =>
        rw [htake] at hround
        rw [bind_of_error hround, List.all_cons, htake]
        simp [overwritten, overwrittenFlag, overwrittenOut, appendedOut, verdict]
    · rw [if_neg (show ¬idx < s.nextSlot from hlt), pure_bind_apply, appendNewEntries_eq]
      unfold StateMachine.tried overwritten overwrittenFlag overwrittenOut
      simp only [if_neg hlt]
      rfl

theorem writeEntries_eq (s : Server) (req : ReqMsg) :
    writeEntries ctx req s =
      let es := ctx.stateMachine.reached s.logStore (req.lastLogIdx + 1) req.logEntries
      ⟨verdict ((skipMatching s.logStore (req.lastLogIdx + 1) req.logEntries).2.all
          ctx.stateMachine.takes),
        withLog s (written s.logStore req.lastLogIdx es)
          (writtenFlag s.logStore req.lastLogIdx es s.configChanging),
        writtenOut s.logStore req.lastLogIdx es⟩ := by
  unfold writeEntries written writtenFlag writtenOut
  rw [get_bind_apply]
  simp only [skipMatching_reached]
  exact overwriteEntries_append_eq _ s _

/-- If no entry is refused, all are written. -/
theorem writeEntries_runs {s : Server} {req : ReqMsg}
    (h : ∀ e ∈ (skipMatching s.logStore (req.lastLogIdx + 1) req.logEntries).2,
      ctx.stateMachine.takes e) :
    Runs (writeEntries ctx req) s ()
      (withLog s (written s.logStore req.lastLogIdx req.logEntries)
        (writtenFlag s.logStore req.lastLogIdx req.logEntries s.configChanging))
      (writtenOut s.logStore req.lastLogIdx req.logEntries) := by
  have hall : (skipMatching s.logStore (req.lastLogIdx + 1) req.logEntries).2.all
      ctx.stateMachine.takes = true := List.all_eq_true.2 h
  rw [Runs, writeEntries_eq, reached_of_all h, hall]
  rfl

/-- `writeEntries` is one small step, and if it returns, all entries have been written. -/
theorem walks_writeEntries {m : Server → List Effect → Server → Prop} {req : ReqMsg}
    (hm : ∀ es, es = ctx.stateMachine.reached s.logStore (req.lastLogIdx + 1) req.logEntries →
      m s (writtenOut s.logStore req.lastLogIdx es)
        (withLog s (written s.logStore req.lastLogIdx es)
          (writtenFlag s.logStore req.lastLogIdx es s.configChanging))) :
    Walks m (writeEntries ctx req) s fun _ s' => s' =
      withLog s (written s.logStore req.lastLogIdx req.logEntries)
        (writtenFlag s.logStore req.lastLogIdx req.logEntries s.configChanging) := by
  unfold Walks
  rw [writeEntries_eq]
  refine ⟨.single (hm _ rfl), fun _ hok => ?_⟩
  cases hall : (skipMatching s.logStore (req.lastLogIdx + 1) req.logEntries).2.all
      ctx.stateMachine.takes with
  | true => rw [reached_of_all (List.all_eq_true.1 hall)]
  | false =>
    rw [hall] at hok
    cases hok

theorem walks_logOkay {req : ReqMsg} :
    Walks (Micro ctx inp s₀) (logOkay req) s fun okay s' =>
      s' = s ∧ (okay = true → ReqOkay s req) := by
  refine walks_get_bind (walks_ite (fun h0 => walks_pure ⟨rfl, fun _ => .inl h0⟩) fun _ => ?_)
  refine walks_ite (fun hlt => ?_) fun _ => walks_pure ⟨rfl, nofun⟩
  refine walks_bind walks_termForLog fun t s' h => walks_pure ⟨h.1, fun heq => .inr ⟨hlt, ?_⟩⟩
  rw [of_decide_eq_true heq]
  exact h.2

/-- A server that does not lead only raises its commit index. -/
theorem walks_commit_follower {k : Nat} (hr : s.role ≠ .leader)
    (hm : s.quickCommitIdx < k → Micro ctx inp s₀ s [] { s with quickCommitIdx := k }) :
    Walks (Micro ctx inp s₀) (commit ctx k) s fun _ s' =>
      s' = { s with quickCommitIdx := max s.quickCommitIdx k } := by
  refine walks_get_bind (walks_when (fun hlt => ?_) fun hge => ?_)
  · refine walks_modify_bind (hm hlt) (walks_when (fun hl => (hr hl).elim) fun _ => ?_)
    rw [max_eq_right hlt.le]
  · rw [max_eq_left (Nat.le_of_not_lt hge)]

/-- What is known of the response to an append request. -/
structure AppendReply (s₀ : Server) (req : ReqMsg) (resp : RespMsg) (s : Server) : Prop where
  type : resp.type = .appendEntriesResponse
  src : resp.src = s.id
  term : resp.term = s.term
  accepted : resp.accepted = true → req.term = s.term ∧ s.role = .follower ∧
    resp.nextIdx = req.lastLogIdx + req.logEntries.length + 1 ∧ ReqOkay s₀ req ∧
    s.logStore = written s₀.logStore req.lastLogIdx req.logEntries ∧
    s.smLastSnapshot = s₀.smLastSnapshot ∧
    s.quickCommitIdx = max s₀.quickCommitIdx req.commitIdx

theorem walks_handleAppendEntries {req : ReqMsg} {now : Int} (hin : inp = .request req now)
    (htype : req.type = .appendEntriesRequest) (hk : Keeps s₀ s)
    (hmax : s.term = max s₀.term req.term) :
    Walks (Micro ctx inp s₀) (handleAppendEntries ctx req) s (AppendReply s₀ req) := by
  refine walks_get_bind (walks_bind (R := fun _ s' => Keeps s₀ s' ∧ s'.state = s.state ∧
    (req.term = s.term → s'.role = .follower)) ?_ ?_)
  · refine walks_when (fun heq => ?_) fun hne => ⟨hk, rfl, fun h => (hne h).elim⟩
    have hfrom : inp.FromLeader s.term := ⟨req, now, hin, .inl htype, heq⟩
    exact (walks_hearLeader hfrom).weaken fun _ s' h => ⟨hk.trans h.1, h.2.1, fun _ => h.2.2⟩
  rintro _ s₁ ⟨hk₁, hstate, hfollow⟩
  refine walks_get_bind (walks_bind walks_logOkay fun okay s₂ h => ?_)
  obtain ⟨rfl, hokay⟩ := h
  have hterm : s₂.term = s.term := congrArg SrvState.term hstate
  refine walks_ite (fun _ => walks_pure ⟨rfl, rfl, rfl, nofun⟩) fun hacc => ?_
  rw [not_or, not_not] at hacc
  have heq : req.term = s₂.term := by omega
  have hrole : s₂.role = .follower := hfollow (heq.trans hterm)
  have hlog : s₂.logStore = s₀.logStore := hk₁.field Server.logStore
  have hquick : s₂.quickCommitIdx = s₀.quickCommitIdx := hk₁.field Server.quickCommitIdx
  refine walks_bind (walks_writeEntries fun es hes => ?_) ?_
  · exact .merge hin htype hk₁ hrole heq (hokay hacc.2) hes (by omega)
  rintro _ _ rfl
  refine walks_modify_bind (.quiet rfl) ?_
  refine walks_bind (walks_commit_follower (by simp [withLog, hrole]) fun hlt => ?_) ?_
  · exact .commitFollower hin htype hrole heq hquick (hlog ▸ rfl)
      (hk₁.field Server.smLastSnapshot) ((hokay hacc.2).keeps hk₁) hlt
  rintro _ _ rfl
  exact walks_pure ⟨rfl, rfl, rfl, fun _ =>
    ⟨heq, hrole, rfl, (hokay hacc.2).keeps hk₁, hlog ▸ rfl, hk₁.field Server.smLastSnapshot,
      hquick ▸ rfl⟩⟩

/-! ## Votes and client requests -/

/-- What is known of the response to a vote request. -/
structure VoteReply (req : ReqMsg) (resp : RespMsg) (s : Server) : Prop where
  type : resp.type = .requestVoteResponse
  src : resp.src = s.id
  term : resp.term = s.term
  accepted : resp.accepted = true → req.term = s.term ∧ s.votedFor = req.src

theorem walks_handleVoteReq {req : ReqMsg} {now : Int} (hin : inp = .request req now)
    (htype : req.type = .requestVoteRequest) (hk : Keeps s₀ s) :
    Walks (Micro ctx inp s₀) (handleVoteReq req) s (VoteReply req) := by
  refine walks_get_bind (walks_ite (fun hg => ?_) fun _ => walks_pure ⟨rfl, rfl, rfl, nofun⟩)
  refine walks_modify_bind (.grant hin htype hg hk) (walks_pure ⟨rfl, rfl, rfl, fun _ => ⟨?_, rfl⟩⟩)
  simp only [grantsVote, Bool.and_eq_true, decide_eq_true_eq] at hg
  exact hg.1.1

theorem walks_leaderExpired {now : Int} :
    Walks (Micro ctx inp s₀) (leaderExpired ctx now) s fun _ s' => SameRole s s' := by
  refine walks_get_bind (walks_ite (fun _ => ?_) fun _ => walks_pure (.refl s))
  exact walks_modify_bind (.quiet rfl) (walks_pure ⟨rfl, rfl⟩)

theorem appendClientEntry_eq (s : Server) (e : LogEntry) :
    appendClientEntry ctx e s = ⟨verdict (ctx.stateMachine.preCommit e.buf),
      { s with logStore := s.logStore.append { e with term := s.term } },
      [.preCommit (usub (s.logStore.append { e with term := s.term }).nextSlot 1) e.buf]⟩ := by
  unfold appendClientEntry
  rw [modify_bind_apply, get_bind_apply, preCommit_eq]
  rfl

theorem walks_appendClientEntry {m : Server → List Effect → Server → Prop} {e : LogEntry}
    {Q : Server → Prop}
    (hm : m s [.preCommit (usub (s.logStore.append { e with term := s.term }).nextSlot 1) e.buf]
      { s with logStore := s.logStore.append { e with term := s.term } })
    (hQ : Q { s with logStore := s.logStore.append { e with term := s.term } }) :
    Walks m (appendClientEntry ctx e) s fun _ => Q := by
  unfold Walks
  rw [appendClientEntry_eq]
  exact ⟨.single hm, fun _ _ => hQ⟩

theorem walks_handleCliReq {req : ReqMsg} {now : Int} (hin : inp = .request req now)
    (htype : req.type = .clientRequest) :
    Walks (Micro ctx inp s₀) (handleCliReq ctx req now) s fun resp _ =>
      resp.type = .appendEntriesResponse := by
  refine walks_bind walks_leaderExpired fun expired s₁ _ => walks_get_bind ?_
  refine walks_ite (fun _ => walks_pure rfl) fun _ => ?_
  refine walks_ite (fun _ => walks_pure rfl) fun hl => ?_
  rw [ne_eq, not_not] at hl
  refine walks_bind (R := fun _ s' => s'.role = .leader) ?_ fun _ s' hs' => ?_
  · refine walks_each (I := fun s' => s'.role = .leader) req.logEntries hl (fun e he s' hs' => ?_)
      fun _ h => h
    exact walks_appendClientEntry (.client hin htype he hs') hs'
  · refine walks_bind (walks_requestAppendEntries (.inl hs')) fun _ _ _ => ?_
    exact walks_get_bind (walks_pure rfl)

/-! ## Snapshots -/

/-- Adopting the servers of a configuration changes the peers and the server to join only. -/
theorem addConfigured_frame (ctx : Context) (s : Server) (srv : SrvConfig) :
    ∃ ps j n, addConfigured ctx s srv = { s with peers := ps, srvToJoin := j, nextUid := n } := by
  unfold addConfigured enableHbForPeer onPeer addPeer
  dsimp only
  split <;> split <;> (try split) <;> (try split) <;> exact ⟨_, _, _, rfl⟩

theorem foldl_addConfigured_frame (ctx : Context) (srvs : List SrvConfig) (s : Server) :
    ∃ ps j n, srvs.foldl (addConfigured ctx) s =
      { s with peers := ps, srvToJoin := j, nextUid := n } := by
  induction srvs generalizing s with
  | nil => exact ⟨_, _, _, rfl⟩
  | cons srv srvs ih =>
    obtain ⟨ps, j, n, h⟩ := addConfigured_frame ctx s srv
    obtain ⟨ps', j', n', h'⟩ := ih { s with peers := ps, srvToJoin := j, nextUid := n }
    exact ⟨ps', j', n', by rw [List.foldl_cons, h, h']⟩

theorem quiet_keepConfig (c : ClusterConfig) (s : Server) : Quiet s (s.keepConfig c) := rfl

theorem quiet_saveConfig {c : ClusterConfig} :
    Walks (Micro ctx inp s₀) (saveConfig c) s fun _ s' => Quiet s s' :=
  walks_saveConfig fun saved _ => ⟨.quiet (quiet_keepConfig saved s), quiet_keepConfig saved s⟩

theorem walks_orExit {e : RaftException} {x : M Unit} {Q : Unit → Server → Prop}
    (h : Walks (Micro ctx inp s₀) x s Q) : Walks (Micro ctx inp s₀) (orExit e x) s Q :=
  walks_catching h fun _ _ => walks_exitWith

theorem walks_reconfigure {c : ClusterConfig} (hin : inp.Offers s₀ c) :
    Walks (Micro ctx inp s₀) (reconfigure ctx c) s fun _ s' =>
      s'.smCommitIndex = s.smCommitIndex ∧ s'.logStore = s.logStore := by
  refine walks_get_bind (walks_modify_bind (.addConfigured hin ?_ ?_) ?_)
  · exact fun srv h => (List.mem_filter.1 h).1
  · intro srv h
    simpa using (List.mem_filter.1 h).2
  obtain ⟨ps, j, n, hfold⟩ := foldl_addConfigured_frame ctx (c.servers.filter fun srv =>
    (s.findPeer srv.id).isNone ∧ srv.id ≠ s.id) s
  rw [hfold]
  refine walks_modify_bind (.dropUnconfigured hin) (walks_get_bind (walks_ite (fun _ => ?_) ?_))
  · refine walks_bind quiet_saveConfig fun _ s' h => ?_
    exact walks_emit (.note trivial trivial) ⟨h.field Server.smCommitIndex, h.field Server.logStore⟩
  · exact fun _ => walks_modify (.setConfig hin) ⟨rfl, rfl⟩

theorem walks_handleSnapshotSyncReq {sync : SnapshotSyncReq} (hin : inp.Installs sync.snapshot) :
    Walks (Micro ctx inp s₀) (handleSnapshotSyncReq ctx sync) s fun _ _ => True := by
  refine walks_emit_bind (.note trivial trivial) ?_
  refine walks_when (fun _ => walks_get_bind ?_) fun _ => trivial
  refine walks_bind (R := fun _ s₁ => s₁.role = .follower) ?_ fun _ s₁ hrole => ?_
  · refine walks_when (fun _ => ?_) fun hrole => not_not.1 hrole
    exact walks_emit_bind (.note trivial trivial) walks_exitWith
  refine walks_emit_bind (.note trivial (.inr ⟨_, hin⟩)) ?_
  refine walks_modify_bind (.installCompact hin hrole) (walks_modify_bind (.quiet rfl) ?_)
  refine walks_bind (R := fun _ _ => True) ?_ fun _ s₂ _ => ?_
  · exact walks_when (fun _ => walks_emit_bind (.note trivial trivial) walks_exitWith) fun _ => trivial
  refine walks_modify_bind (.installApply hin) ?_
  have hoffers : inp.Offers s₀ sync.snapshot.lastConfig := .inr (.inl ⟨_, hin, rfl⟩)
  refine walks_bind (R := fun _ _ => True) (walks_orExit ?_) fun _ s₃ _ => ?_
  · refine walks_bind (walks_reconfigure hoffers) fun _ s₃ _ => walks_get_bind ?_
    exact quiet_saveConfig.weaken fun _ _ _ => trivial
  refine walks_modify_bind (.installDone hin) (walks_modify (.quiet ?_) trivial)
  exact quiet_restartElectionTimer _

theorem walks_handleInstallSnapshotReq {req : ReqMsg} {now : Int} (hin : inp = .request req now)
    (htype : req.type = .installSnapshotRequest) :
    Walks (Micro ctx inp s₀) (handleInstallSnapshotReq ctx req) s fun resp _ =>
      resp.type = .installSnapshotResponse := by
  refine walks_get_bind (walks_bind (R := fun _ _ => True) ?_ fun _ s₁ _ => walks_get_bind ?_)
  · refine walks_when (fun h => ?_) fun _ => trivial
    exact (walks_hearLeader ⟨req, now, hin, .inr htype, h.1⟩).weaken fun _ _ _ => trivial
  refine walks_ite (fun _ => walks_pure rfl) fun _ => ?_
  split
  next e hes =>
    refine walks_ite (fun _ => walks_pure rfl) fun _ => ?_
    split
    next sync hbuf =>
      refine walks_ite (fun _ => walks_throw) fun _ => ?_
      refine walks_ite (fun _ => walks_pure rfl) fun _ => ?_
      refine walks_bind (walks_handleSnapshotSyncReq ?_) fun _ _ _ => walks_pure rfl
      exact ⟨req, now, e, sync, hin, htype, hes, hbuf, rfl⟩
    next => exact walks_throw
  next => exact walks_pure rfl

/-! ## Membership requests -/

/-- The type of the responses to a type of requests. -/
def MsgType.reply : MsgType → Option MsgType
  | requestVoteRequest => requestVoteResponse
  | appendEntriesRequest => appendEntriesResponse
  | clientRequest => appendEntriesResponse
  | addServerRequest => addServerResponse
  | removeServerRequest => removeServerResponse
  | syncLogRequest => syncLogResponse
  | joinClusterRequest => joinClusterResponse
  | leaveClusterRequest => leaveClusterResponse
  | installSnapshotRequest => installSnapshotResponse
  | _ => none

section Admin

variable {req : ReqMsg} {now : Int}

/-- Membership requests are none of the protocol's own. -/
theorem isAdmin_request {t : MsgType} (ht : req.type = t)
    (h : t = .addServerRequest ∨ t = .removeServerRequest ∨ t = .syncLogRequest ∨
      t = .joinClusterRequest ∨ t = .leaveClusterRequest) :
    (Input.request req now).IsAdmin := by
  subst ht
  rcases h with h | h | h | h | h <;> simp [Input.IsAdmin, h]

theorem walks_inviteSrvToJoinCluster (hin : inp.IsAdmin) :
    Walks (Micro ctx inp s₀) inviteSrvToJoinCluster s fun _ _ => True := by
  refine walks_get_bind (walks_orThrow_bind fun p hp => ?_)
  refine (walks_sendReq (.sendExt hin (.inl ⟨hp, .inl rfl⟩) rfl)).weaken fun _ _ _ => trivial

theorem walks_handleAddSrvReq (hin : inp = .request req now)
    (htype : req.type = .addServerRequest) (hk : s = s₀) :
    Walks (Micro ctx inp s₀) (handleAddSrvReq ctx req) s fun resp _ =>
      resp.type = .addServerResponse := by
  have hadmin : inp.IsAdmin := hin ▸ isAdmin_request htype (by simp)
  refine walks_get_bind ?_
  dsimp only
  split
  next entry _ =>
    refine walks_ite (fun _ => walks_pure rfl) fun hrole => ?_
    rw [not_or, not_not, not_not] at hrole
    split
    next srv _ =>
      refine walks_ite (fun _ => walks_throw) fun _ => ?_
      refine walks_ite (fun _ => walks_pure rfl) fun hfree => ?_
      simp only [not_or, Bool.not_eq_true, Option.isSome_eq_false_iff] at hfree
      refine walks_modify_bind (.invite hin htype hk hrole.2 hfree.1 hfree.2.1 hfree.2.2) ?_
      exact walks_bind (walks_inviteSrvToJoinCluster hadmin) fun _ _ _ => walks_pure rfl
    next => exact walks_throw
  next => exact walks_pure rfl

theorem walks_handleRmSrvReq (hin : inp.IsAdmin) :
    Walks (Micro ctx inp s₀) (handleRmSrvReq req) s fun resp _ =>
      resp.type = .removeServerResponse := by
  refine walks_get_bind ?_
  dsimp only
  split
  next srvId _ =>
    refine walks_ite (fun _ => walks_pure rfl) fun _ => ?_
    split
    next => exact walks_pure rfl
    next p hp =>
      obtain rfl : p.id = srvId := by simpa using List.find?_some hp
      exact walks_bind (walks_sendReq (.sendExt hin (.inr ⟨hp, rfl⟩) rfl)) fun _ _ _ =>
        walks_pure rfl
  next => exact walks_pure rfl

theorem walks_handleLeaveClusterReq (hin : inp = .request req now)
    (htype : req.type = .leaveClusterRequest) :
    Walks (Micro ctx inp s₀) (handleLeaveClusterReq req) s fun resp _ =>
      resp.type = .leaveClusterResponse := by
  refine walks_get_bind (walks_ite (fun _ => walks_pure rfl) fun _ => ?_)
  exact walks_modify_bind (.leaving hin htype) (walks_pure rfl)

theorem walks_handleLogSyncReq (hin : inp = .request req now)
    (htype : req.type = .syncLogRequest) (hk : s = s₀) :
    Walks (Micro ctx inp s₀) (handleLogSyncReq ctx req) s fun resp _ =>
      resp.type = .syncLogResponse := by
  refine walks_get_bind ?_
  dsimp only
  split
  next entry hes =>
    refine walks_ite (fun _ => walks_pure rfl) fun h => ?_
    rw [not_or, not_not, not_not] at h
    obtain ⟨t, vt, buf⟩ := entry
    obtain ⟨rfl, hcatch⟩ : vt = .logPack ∧ _ := h
    dsimp only
    split
    next es =>
      refine walks_modify_bind (.pack hin htype hk hcatch ⟨t, hes⟩) (walks_get_bind ?_)
      exact walks_bind (walks_commit (.packCommit hin htype)) fun _ _ _ => walks_pure rfl
    next => exact walks_throw
  next => exact walks_pure rfl

theorem walks_handleJoinClusterReq (hin : inp = .request req now)
    (htype : req.type = .joinClusterRequest) (hk : s = s₀) :
    Walks (Micro ctx inp s₀) (handleJoinClusterReq ctx req) s fun resp _ =>
      resp.type = .joinClusterResponse := by
  have hadmin : inp.IsAdmin := hin ▸ isAdmin_request htype (by simp)
  refine walks_get_bind ?_
  dsimp only
  split
  next entry hes =>
    refine walks_ite (fun _ => walks_pure rfl) fun h => ?_
    rw [not_or, not_not, Bool.not_eq_true] at h
    refine walks_modify_bind (.join hin htype hk h.2 ⟨entry, hes, h.1⟩) ?_
    split
    next c _ =>
      refine walks_ite (fun _ => walks_throw) fun _ => ?_
      refine walks_bind (walks_reconfigure (.inr (.inr hadmin))) fun _ _ _ => ?_
      exact walks_pure rfl
    next => exact walks_throw
  next => exact walks_pure rfl

theorem walks_handleExtendedMsg (hin : inp = .request req now) (hk : s = s₀)
    (htype : req.type ≠ .installSnapshotRequest) :
    Walks (Micro ctx inp s₀) (handleExtendedMsg ctx req) s fun resp _ =>
      req.type.reply = some resp.type := by
  unfold handleExtendedMsg
  split
  next h => exact (walks_handleAddSrvReq hin h hk).weaken fun _ _ ht => by rw [h, ht]; rfl
  next h =>
    refine (walks_handleRmSrvReq (hin ▸ isAdmin_request h (by simp))).weaken fun _ _ ht => ?_
    rw [h, ht]
    rfl
  next h => exact (walks_handleLogSyncReq hin h hk).weaken fun _ _ ht => by rw [h, ht]; rfl
  next h => exact (walks_handleJoinClusterReq hin h hk).weaken fun _ _ ht => by rw [h, ht]; rfl
  next h => exact (walks_handleLeaveClusterReq hin h).weaken fun _ _ ht => by rw [h, ht]; rfl
  next h => exact (htype h).elim
  next => exact walks_exitWith

end Admin

/-! ## Requests -/

/-- What is known of the response to a request. -/
structure Replied (s₀ : Server) (req : ReqMsg) (resp : RespMsg) (s : Server) : Prop where
  append : req.type = .appendEntriesRequest → AppendReply s₀ req resp s
  vote : req.type = .requestVoteRequest → VoteReply req resp s
  type : req.type.reply = some resp.type

/-- The term of a request of the protocol is adopted first. -/
theorem walks_bringTerm {req : ReqMsg} {now : Int} (hin : inp = .request req now) :
    Walks (Micro ctx inp s) (when (req.type.bringsTerm) do
      let _ ← updateTerm req.term
      modify fun s => if 0 < s.stepsToDown then { s with stepsToDown := 2 } else s) s
      fun _ s' => Keeps s s' ∧ (req.type.bringsTerm → s'.term = max s.term req.term) ∧
        (¬req.type.bringsTerm → s' = s) := by
  refine walks_when (fun hb => ?_) fun hb => ⟨.refl s, fun h => (hb h).elim, fun _ => rfl⟩
  refine walks_bind (walks_updateTerm (.inl ⟨req, now, hin, hb, rfl⟩) (.refl s)) ?_
  rintro _ s₁ ⟨hk, hle, -⟩
  have hif : Keeps s₁ (if 0 < s₁.stepsToDown then { s₁ with stepsToDown := 2 } else s₁) ∧
      (if 0 < s₁.stepsToDown then { s₁ with stepsToDown := 2 } else s₁).term = s₁.term := by
    split <;> exact ⟨rfl, rfl⟩
  refine walks_modify ?_ ⟨hk.trans hif.1, fun _ => hif.2.trans hle, fun h => (h hb).elim⟩
  split
  next h => exact .countdown h
  next => exact .quiet (.refl s₁)

theorem walks_processReq {req : ReqMsg} {now : Int} (hin : inp = .request req now) :
    Walks (Micro ctx inp s) (processReq ctx req now) s (Replied s req) := by
  refine walks_bind (walks_bringTerm hin) fun _ s₁ h => ?_
  obtain ⟨hk, hle, hsame⟩ := h
  split
  next htype =>
    have hb : req.type.bringsTerm := by simp [MsgType.bringsTerm, htype]
    exact (walks_handleAppendEntries hin htype hk (hle hb)).weaken fun _ _ h =>
      ⟨fun _ => h, by simp [htype], by rw [htype, h.type]; rfl⟩
  next htype =>
    exact (walks_handleVoteReq hin htype hk).weaken fun _ _ h =>
      ⟨by simp [htype], fun _ => h, by rw [htype, h.type]; rfl⟩
  next htype =>
    exact (walks_handleCliReq hin htype).weaken fun _ _ h =>
      ⟨by simp [htype], by simp [htype], by rw [htype, h]; rfl⟩
  next hae hvote hcli =>
    by_cases hinst : req.type = .installSnapshotRequest
    · simp only [hinst, handleExtendedMsg]
      exact (walks_handleInstallSnapshotReq hin hinst).weaken fun _ _ h =>
        ⟨fun h' => (hae h').elim, fun h' => (hvote h').elim, by rw [hinst, h]; rfl⟩
    · have hnot : ¬req.type.bringsTerm := by
        simpa [MsgType.bringsTerm, hinst] using ⟨hae, hvote⟩
      exact (walks_handleExtendedMsg hin (hsame hnot) hinst).weaken fun _ _ h =>
        ⟨fun h' => (hae h').elim, fun h' => (hvote h').elim, h⟩

/-! ## Responses from peers -/

/-- `becomeLeader` as one update and what follows it. -/
theorem walks_elected {g : Server → Server} (hm : Micro ctx inp s₀ s [] (takeLead (g s))) :
    Walks (Micro ctx inp s₀) (modify g >>= fun _ => becomeLeader ctx) s fun _ _ => True := by
  refine walks_modify_modify (walks_modify_bind hm ?_)
  exact (walks_becomeLeader_rest rfl).weaken fun _ _ _ => trivial

theorem walks_handleVotingResp {resp : RespMsg} (hin : inp.Answers .requestVoteResponse resp)
    (hk : Quiet s₀ s) :
    Walks (Micro ctx inp s₀) (handleVotingResp ctx resp) s fun _ _ => True := by
  refine walks_get_bind (walks_ite (fun _ => walks_pure trivial) fun h => ?_)
  rw [not_or, not_or, not_not, Bool.not_eq_true] at h
  obtain ⟨hterm, hopen, hnew⟩ := h
  by_cases hmaj : (s.peers.length + 1) / 2 < (countVote resp s).votesGranted
  · refine walks_congr (y := modify (fun s => { countVote resp s with electionCompleted := true })
      >>= fun _ => becomeLeader ctx) ?_ (walks_elected (.tallyWin hin hk hterm hopen hnew hmaj))
    show when ((s.peers.length + 1) / 2 < (countVote resp s).votesGranted) _ (countVote resp s) = _
    rw [when_pos hmaj]
    rfl
  · refine walks_modify_bind (.tally hin hk hterm hopen hnew) (walks_get_bind ?_)
    exact walks_when (fun h => (hmaj h).elim) fun _ => trivial

theorem walks_clearPendingCommit {uid : Nat} :
    Walks (Micro ctx inp s₀) (clearPendingCommit uid) s fun _ s' => Quiet s s' := by
  have hq : Quiet s (s.onPeer uid Peer.clearPendingCommit) := quiet_onPeer s uid fun _ => rfl
  exact walks_get_bind (walks_modify_bind (.quiet hq) (walks_pure hq))

theorem walks_catchUp {uid : Nat} {need : Bool} :
    Walks (Micro ctx inp s₀) (catchUp ctx uid need) s fun _ _ => True := by
  refine walks_get_bind (walks_when (fun h => ?_) fun _ => trivial)
  exact walks_bind (walks_requestAppendEntriesTo (.inl h.1)) fun _ _ _ => walks_pure trivial

theorem walks_handleAppendEntriesResp {resp : RespMsg}
    (hin : inp.Answers .appendEntriesResponse resp) (hk : Quiet s₀ s)
    (hterm : resp.term ≤ s.term) :
    Walks (Micro ctx inp s₀) (handleAppendEntriesResp ctx resp) s fun _ _ => True := by
  refine walks_get_bind ?_
  split
  next => exact walks_pure trivial
  next p hp =>
    refine walks_ite (fun hacc => ?_) fun hacc => ?_
    · refine walks_modify_bind (.ack hin hk hterm hacc hp) (walks_get_bind ?_)
      refine walks_bind (walks_commit fun hlt => ?_) fun _ s₁ _ => ?_
      · exact .commitMajority hin hk hterm hacc hp rfl hlt
      exact walks_bind walks_clearPendingCommit fun _ _ _ => walks_get_bind walks_catchUp
    · exact walks_modify_bind (.nack hin hk hterm (Bool.not_eq_true _ ▸ hacc) hp) walks_catchUp

theorem noteBlock_cases (sync : SnapshotSyncCtx) (nextIdx : Nat) :
    noteBlock sync nextIdx = recordSnapshot sync.snapshot ∨
      noteBlock sync nextIdx = setOffset sync nextIdx := by
  by_cases hall : sync.snapshot.size ≤ nextIdx
  · exact .inl (funext fun _ => if_pos hall)
  · exact .inr (funext fun _ => if_neg hall)

theorem walks_handleInstallSnapshotResp {resp : RespMsg}
    (hin : inp.Answers .installSnapshotResponse resp) (hk : Quiet s₀ s) :
    Walks (Micro ctx inp s₀) (handleInstallSnapshotResp ctx resp) s fun _ _ => True := by
  refine walks_get_bind ?_
  split
  next => exact walks_pure trivial
  next p hp =>
    refine walks_ite (fun _ => ?_) fun _ => walks_catchUp
    split
    next => exact walks_pure trivial
    next sync hsync =>
      refine walks_modify_bind (.snapshotAck hin hp hsync (noteBlock_cases _ _) hk) ?_
      refine walks_ite (fun _ => ?_) fun _ => walks_catchUp
      exact walks_bind walks_clearPendingCommit fun _ _ _ => walks_get_bind walks_catchUp

theorem quiet_heardFrom (src now : Int) (s : Server) : Quiet s (heardFrom src now s) := by
  have h : ∀ p : Peer, (if p.id = src then p.setLastResp now else p).core = p.core := fun p => by
    split <;> rfl
  simp [Quiet, Server.core, heardFrom, Function.comp_def, h]

theorem quiet_handleRpcResult (rpc : Rpc) (ok : Bool) (s : Server) :
    Quiet s (handleRpcResult rpc ok s) :=
  quiet_onPeer s rpc.uid fun p => by
    dsimp only
    split <;> split <;> rfl

theorem walks_handlePeerResp {rpc : Rpc} {resp : RespMsg} {now : Int}
    (hin : inp = .response rpc resp now) (hh : rpc.handler = .peerResp) (hk : Quiet s₀ s) :
    Walks (Micro ctx inp s₀) (handlePeerResp ctx resp now) s fun _ _ => True := by
  have hq := quiet_heardFrom resp.src now s
  refine walks_modify_bind (.quiet hq) ?_
  refine walks_bind (walks_updateTerm (.inr ⟨rpc, resp, now, hin, hh, rfl⟩) (hk.trans hq)) ?_
  rintro updated s₁ ⟨-, hmax, hsame⟩
  refine walks_ite (fun _ => walks_pure trivial) fun hno => ?_
  obtain rfl := hsame (Bool.not_eq_true _ ▸ hno)
  split
  next h => exact walks_handleVotingResp ⟨rpc, now, hin, hh, h⟩ (hk.trans hq)
  next h =>
    refine walks_handleAppendEntriesResp ⟨rpc, now, hin, hh, h⟩ (hk.trans hq) ?_
    exact (le_max_right _ _).trans hmax.ge
  next h => exact walks_handleInstallSnapshotResp ⟨rpc, now, hin, hh, h⟩ (hk.trans hq)
  next => exact walks_exitWith

/-! ## Responses to membership requests -/

theorem isAdmin_of_isExt (h : inp.IsExt) : inp.IsAdmin := by
  cases inp with
  | request req now => exact h.elim
  | _ => exact h

theorem walks_appendConfig {f : Server → Server} {c : ClusterConfig}
    (hc : inp.newConfig ctx s₀ = some c) (hk : s.body = s₀.body) (hf : f s = appendConfig c s) :
    Walks (Micro ctx inp s₀) (modify f >>= fun _ => requestAppendEntries ctx) s
      fun _ _ => True := by
  refine walks_modify_bind (hf ▸ .confAppend hc hk) ?_
  rw [hf]
  have hrole : s.body.role = s₀.body.role := congrArg Server.role hk
  have hlead : inp.Leads ctx s₀ (appendConfig c s) := .inr ⟨by simp [hc], hrole⟩
  exact (walks_requestAppendEntries hlead).weaken fun _ _ _ => trivial

theorem walks_rmSrvFromCluster {srvId : Int}
    (hc : inp.newConfig ctx s₀ = some (configWithout s srvId)) (hk : s.body = s₀.body) :
    Walks (Micro ctx inp s₀) (rmSrvFromCluster ctx srvId) s fun _ _ => True :=
  walks_appendConfig hc hk rfl

theorem walks_syncLogToNewSrv {startIdx : Nat} (hext : inp.IsExt) (hk : s.body = s₀.body)
    (hc : ∀ c, Input.joinedConfig ctx s startIdx = some c → inp.newConfig ctx s₀ = some c) :
    Walks (Micro ctx inp s₀) (syncLogToNewSrv ctx startIdx) s fun _ _ => True := by
  refine walks_get_bind (walks_orThrow_bind fun p hp => walks_ite (fun hgap => ?_) fun _ => ?_)
  · refine walks_orThrow_bind fun srv hsrv => walks_appendConfig (hc _ ?_) hk rfl
    simp [Input.joinedConfig, hgap, hsrv]
  refine walks_ite (fun _ => ?_) fun _ => walks_emit_bind (.note trivial trivial)
    (walks_orThrow_bind fun pack _ => ?_)
  · refine walks_bind walks_createSyncSnapshotReq fun req s₁ h => ?_
    exact (walks_sendReq (.sendSnapshot (.inr hext) h.2.1)).weaken fun _ _ _ => trivial
  · refine (walks_sendReq (.sendExt (isAdmin_of_isExt hext) (.inl ⟨hp, .inr rfl⟩) rfl)).weaken
      fun _ _ _ => trivial

theorem walks_handleExtResp {rpc : Rpc} {resp : RespMsg} {now : Int}
    (hin : inp = .response rpc resp now) (hh : rpc.handler = .extResp)
    (hs : s = handleRpcResult rpc true s₀) :
    Walks (Micro ctx inp s₀) (handleExtResp ctx resp) s fun _ _ => True := by
  have hext : inp.IsExt := hin ▸ hh
  have hk : s.body = s₀.body := hs ▸ (quiet_handleRpcResult rpc true s₀).body
  have hnew : inp.newConfig ctx s₀ = Input.extConfig ctx s resp := by
    rw [hin, hs, Input.newConfig, if_pos hh]
  refine walks_get_bind ?_
  split
  next htype =>
    refine walks_when (fun hsome => ?_) fun _ => trivial
    obtain ⟨p, hp⟩ := Option.isSome_iff_exists.1 hsome
    refine walks_modify_bind (.joinProgress hext fun _ => ⟨rfl, rfl⟩)
      (walks_syncLogToNewSrv hext hk fun c hc => ?_)
    rw [hnew, Input.extConfig, htype, hp]
    exact hc
  next htype =>
    refine walks_when (fun h => walks_syncLogToNewSrv hext hk fun c hc => ?_) fun _ => trivial
    obtain ⟨p, hp⟩ := Option.isSome_iff_exists.1 h.1
    simp only [hnew, Input.extConfig, htype, hp, h.2, if_true, hc]
  next htype =>
    refine walks_when (fun hacc => walks_rmSrvFromCluster ?_ hk) fun _ => trivial
    simp only [hnew, Input.extConfig, htype, hacc, if_true]
  next htype =>
    split
    next => exact walks_pure trivial
    next p hp =>
      refine walks_ite (fun _ => walks_pure trivial) fun hacc => ?_
      split
      next => exact walks_exitWith
      next sync hsync =>
        refine walks_modify_bind (.joinProgress hext fun p => ?_) (walks_get_bind ?_)
        · rcases noteBlock_cases sync resp.nextIdx with hnote | hnote
          all_goals exact hnote ▸ ⟨rfl, rfl⟩
        refine walks_orThrow_bind fun p' hp' => walks_syncLogToNewSrv hext hk fun c hc => ?_
        have hp'' : p' = _ := Option.some.inj (hp'.symm.trans (congrArg (Option.map _) hp))
        subst hp''
        simp only [hnew, Input.extConfig, htype, hp, not_not.1 hacc, if_true, hsync,
          Option.bind_some]
        exact hc
  next => exact walks_exitWith

theorem dropOnlyPeer_frame (id : Int) (s : Server) :
    ∃ ps, ps.Sublist s.peers ∧ dropOnlyPeer id s = { s with peers := ps } := by
  unfold dropOnlyPeer
  split
  · exact ⟨_, List.filter_sublist, rfl⟩
  · exact ⟨_, List.Sublist.refl _, rfl⟩

theorem walks_handleExtRespErr {rpc : Rpc} (hin : inp = .failure rpc)
    (hh : rpc.handler = .extResp) (hs : s = handleRpcResult rpc false s₀) :
    Walks (Micro ctx inp s₀) (handleExtRespErr ctx rpc.req) s fun _ _ => True := by
  have hext : inp.IsExt := hin ▸ hh
  have hk : s.body = s₀.body := hs ▸ (quiet_handleRpcResult rpc false s₀).body
  refine walks_get_bind ?_
  split
  next => exact walks_pure trivial
  next p hp =>
    refine walks_ite (fun hmax => walks_ite (fun hleave => ?_) fun hleave => ?_) fun _ => ?_
    · obtain ⟨ps, -, hdrop⟩ := dropOnlyPeer_frame p.id s
      refine walks_modify_bind (.dropOnly hext) ?_
      have hfind : s.findPeer rpc.req.dst = some p := by simpa [retryPeer, hleave] using hp
      have hk' : ({ s with peers := ps } : Server).body = s₀.body := hk
      rw [hdrop]
      refine walks_rmSrvFromCluster ?_ hk'
      show inp.newConfig ctx s₀ = some (configWithout s p.id)
      rw [hin, Input.newConfig, if_pos hh, ← hs, Input.failConfig, if_pos hleave, hfind,
        Option.bind_some, if_pos hmax]
    · refine walks_modify (.abandon hin hext ?_ ⟨hh, hleave, p, hs ▸ hp, hmax⟩) trivial
      exact hs ▸ quiet_handleRpcResult rpc false s₀
    · have hq : Quiet s (s.onPeer p.uid Peer.slowDownHb) := quiet_onPeer _ _ fun _ => rfl
      exact walks_modify_bind (.quiet hq) (walks_emit (.retry hin hext hq hp) trivial)

/-! ## Timeouts -/

theorem walks_sendVotes (hin : inp = .electionTimeout) (hrole : s.role = .candidate)
    (hself : s.votedFor = s.id) :
    Walks (Micro ctx inp s₀) (each sendVoteReq s.peers) s fun _ _ => True := by
  refine walks_each (I := fun s' => s' = s) _ rfl (fun p hp s' hs' => ?_) fun _ _ => trivial
  subst hs'
  refine walks_get_bind (walks_bind walks_termForLog fun t s₂ h => ?_)
  obtain ⟨rfl, ht⟩ := h
  exact walks_sendReq (.sendVote hin hrole hself hp ht)

theorem walks_requestVote (hin : inp = .electionTimeout) (hrole : s.role ≠ .leader) :
    Walks (Micro ctx inp s) (modify becomeCandidate >>= fun _ => requestVote ctx) s
      fun _ _ => True := by
  let s₁ := voteForSelf (becomeCandidate s)
  refine walks_modify_modify ?_
  by_cases hmaj : (s.peers.length + 1) / 2 < s₁.votesGranted
  · have hpeers : s.peers = [] := by
      have : s₁.votesGranted = 1 := rfl
      exact List.eq_nil_of_length_eq_zero (by omega)
    refine walks_congr (y := modify (fun s =>
      { voteForSelf (becomeCandidate s) with electionCompleted := true }) >>=
        fun _ => becomeLeader ctx) ?_ (walks_elected (.standWin hin (.refl s) hrole hpeers))
    show (if (s.peers.length + 1) / 2 < s₁.votesGranted then _ else _ : M Unit) s₁ = _
    rw [if_pos hmaj]
    rfl
  · refine walks_modify_bind (.stand hin (.refl s) hrole) (walks_get_bind ?_)
    exact walks_ite (fun h => (hmaj h).elim) fun _ => walks_sendVotes hin rfl rfl

theorem walks_handleElectionTimeout (hin : inp = .electionTimeout) :
    Walks (Micro ctx inp s) (handleElectionTimeout ctx) s fun _ _ => True := by
  refine walks_get_bind (walks_ite (fun hdown => ?_) fun _ => ?_)
  · refine walks_modify_bind (.countdown hdown) (walks_ite (fun _ => ?_) fun _ => ?_)
    · refine walks_bind (R := fun _ _ => True) (walks_when (fun _ => ?_) fun _ => trivial)
        fun _ _ _ => walks_exitWith
      refine walks_modify_bind (.leaveConfig hin hdown) (walks_get_bind ?_)
      exact quiet_saveConfig.weaken fun _ _ _ => trivial
    · exact walks_modify (.quiet (quiet_restartElectionTimer _)) trivial
  refine walks_ite (fun _ => walks_modify (.quiet (quiet_restartElectionTimer _)) trivial) ?_
  refine fun _ => walks_ite (fun _ => walks_exitWith) fun hrole => ?_
  have hrest : ∀ s' : Server, Quiet s' (if s'.role = .leader then s' else s'.restartElectionTimer) :=
    fun s' => by
      split
      · rfl
      · exact quiet_restartElectionTimer s'
  have hassoc : (do modify becomeCandidate; requestVote ctx
                    modify fun s => if s.role = .leader then s else s.restartElectionTimer : M Unit) =
      (modify becomeCandidate >>= fun _ => requestVote ctx) >>= fun _ =>
        modify fun s => if s.role = .leader then s else s.restartElectionTimer := rfl
  rw [hassoc]
  exact walks_bind (walks_requestVote hin hrole) fun _ s' _ =>
    walks_modify (.quiet (hrest s')) trivial

theorem walks_handleHbTimeout {uid : Nat} :
    Walks (Micro ctx inp s₀) (handleHbTimeout ctx uid) s fun _ _ => True := by
  refine walks_get_bind (walks_when (fun hl => ?_) fun _ => trivial)
  refine walks_bind (walks_requestAppendEntriesTo (.inl hl)) fun _ s' _ => ?_
  refine walks_modify (.quiet (quiet_onPeer _ _ fun p => ?_)) trivial
  split <;> rfl

/-! ## The background thread -/

theorem walks_applyConfig {c : ClusterConfig} (hin : inp = .commitBg)
    (hc : (s₀.logStore.entryAt (s₀.smCommitIndex + 1)).buf = .config c) :
    Walks (Micro ctx inp s₀) (applyConfig ctx c) s fun _ s' =>
      s'.smCommitIndex = s.smCommitIndex ∧ s'.logStore = s.logStore := by
  refine walks_bind (walks_orExit quiet_saveConfig) fun _ s' hq => ?_
  have hs' : s'.smCommitIndex = s.smCommitIndex ∧ s'.logStore = s.logStore :=
    ⟨hq.field Server.smCommitIndex, hq.field Server.logStore⟩
  refine walks_modify_bind (.confApplied hin) (walks_get_bind ?_)
  refine walks_bind (R := fun _ s'' => s''.smCommitIndex = s.smCommitIndex ∧
    s''.logStore = s.logStore) ?_ fun _ s₁ h₁ => ?_
  · refine walks_when (fun _ => ?_) fun _ => hs'
    exact (walks_reconfigure (.inl ⟨hin, hc⟩)).weaken fun _ _ h =>
      ⟨h.1.trans hs'.1, h.2.trans hs'.2⟩
  · refine walks_modify ?_ ?_
    · split
      · exact .caughtUp hin
      · exact .quiet (.refl _)
    · split <;> exact h₁

theorem walks_applyEntry {idx : Nat} {e : LogEntry} (hin : inp = .commitBg)
    (he : e = s₀.logStore.entryAt (s₀.smCommitIndex + 1)) :
    Walks (Micro ctx inp s₀) (applyEntry ctx idx e) s fun _ s' =>
      s'.smCommitIndex = s.smCommitIndex ∧ s'.logStore = s.logStore := by
  unfold applyEntry
  split
  next =>
    refine walks_emit_bind (.note trivial hin) ?_
    exact walks_when (fun _ => walks_exitWith) fun _ => ⟨rfl, rfl⟩
  next =>
    split
    next c hc => exact walks_applyConfig hin (he ▸ hc)
    next => exact walks_exitWith
  next => exact walks_pure ⟨rfl, rfl⟩

theorem walks_snapshotAndCompact (hin : inp = .commitBg) (hlog : s.logStore = s₀.logStore)
    (hidx : s.smCommitIndex = s₀.smCommitIndex + 1)
    (hle : s.smCommitIndex ≤ usub s.nextSlot 1) :
    Walks (Micro ctx inp s₀) (snapshotAndCompact ctx s.smCommitIndex) s fun _ _ => True := by
  refine walks_get_bind (walks_ite (fun hdue => ?_) fun _ => walks_pure trivial)
  have hdist : ctx.params.snapshotDistance ≠ 0 := by
    simp only [snapshotDue, Bool.and_eq_true, decide_eq_true_eq] at hdue
    exact hdue.1.1.1
  split
  next => exact walks_emit (.note trivial trivial) trivial
  next => exact walks_emit (.note trivial trivial) trivial
  next => exact walks_throw
  next => exact walks_pure trivial
  next conf hconf =>
    refine walks_ite (fun _ => ?_) fun _ => walks_pure trivial
    refine walks_bind (R := fun _ s' => s' = s)
      (walks_when (fun _ => walks_emit (.note trivial (.inl hin)) rfl) fun _ => rfl) ?_
    rintro _ _ rfl
    exact walks_modify (.snapshot hin hdist hlog hidx hle hconf rfl) trivial

theorem walks_commitInBg (hin : inp = .commitBg) :
    Walks (Micro ctx inp s) (commitInBg ctx) s fun _ _ => True := by
  refine walks_get_bind (walks_when (fun h => ?_) fun _ => trivial)
  refine walks_modify_emit_bind (.process hin (.refl s) h.1 h.2) ?_
  refine walks_bind (walks_applyEntry hin rfl) fun _ s₁ h₁ => ?_
  have hidx : s₁.smCommitIndex = s.smCommitIndex + 1 := h₁.1
  have hlog : s₁.logStore = s.logStore := h₁.2
  rw [← hidx]
  refine walks_snapshotAndCompact hin hlog hidx ?_
  rw [hidx, nextSlot, hlog]
  exact h.2

/-! ## The server's identity -/

theorem Micro.id_eq {s' : Server} {o : List Effect} (hm : Micro ctx inp s₀ s o s') :
    s'.id = s.id := by
  cases hm with
  | quiet hq => exact hq.field Server.id
  | enterTerm => exact (keeps_enterTerm _ s).field Server.id
  | stepDown => exact (keeps_becomeFollower s).field Server.id
  | addConfigured =>
    obtain ⟨ps, j, n, hfold⟩ := foldl_addConfigured_frame ctx _ s
    rw [hfold]
  | dropOnly =>
    obtain ⟨ps, -, hdrop⟩ := dropOnlyPeer_frame _ s
    rw [hdrop]
  | _ => rfl

/-! ## Every input -/

/-- The response to a request, when the input is one. -/
def Answered (s₀ : Server) (inp : Input) (resp : Option RespMsg) (s : Server) : Prop :=
  ∀ req now r, inp = .request req now → resp = some r → Replied s₀ req r s

theorem walks_unanswered {α : Type} {x : M α} (hx : Walks (Micro ctx inp s) x s fun _ _ => True) :
    Walks (Micro ctx inp s) (x >>= fun _ => pure none) s (Answered s inp) :=
  walks_bind hx fun _ _ _ => walks_pure fun _ _ _ _ h => by cases h

theorem walks_onResponse {rpc : Rpc} {resp : RespMsg} {now : Int}
    (hin : inp = .response rpc resp now) :
    Walks (Micro ctx inp s) (onResponse ctx rpc resp now) s fun _ _ => True := by
  have hq := quiet_handleRpcResult rpc true s
  refine walks_modify_bind (.quiet hq) ?_
  split
  next hh => exact walks_handlePeerResp hin hh hq
  next hh => exact walks_handleExtResp hin hh rfl

theorem walks_onFailure {rpc : Rpc} (hin : inp = .failure rpc) :
    Walks (Micro ctx inp s) (onFailure ctx rpc) s fun _ _ => True := by
  have hq := quiet_handleRpcResult rpc false s
  refine walks_modify_bind (.quiet hq) ?_
  split
  next => exact walks_pure trivial
  next hh => exact walks_handleExtRespErr hin hh rfl

/-- **Handlers take small steps.** Whatever the input, the handler is a sequence of small steps
from the state it starts in, and its response is what `Replied` says. -/
theorem walks_handle (ctx : Context) (inp : Input) (s : Server) :
    Walks (Micro ctx inp s) (inp.handle ctx) s (Answered s inp) := by
  cases hinp : inp with
  | electionTimeout => exact walks_unanswered (walks_handleElectionTimeout rfl)
  | hbTimeout uid => exact walks_unanswered walks_handleHbTimeout
  | request req now =>
    refine walks_bind (walks_processReq rfl) fun resp s' h => walks_pure ?_
    intro req' now' r hreq hresp
    cases hreq
    cases hresp
    exact h
  | response rpc resp now => exact walks_unanswered (walks_onResponse rfl)
  | failure rpc => exact walks_unanswered (walks_onFailure rfl)
  | resend rpc =>
    exact walks_unanswered ((walks_sendReq (.resend rfl)).weaken fun _ _ _ => trivial)
  | commitBg => exact walks_unanswered (walks_commitInBg rfl)

end EnclaveRaft
