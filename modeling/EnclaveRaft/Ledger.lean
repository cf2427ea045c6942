import EnclaveRaft.Reach

/-!
# The log and the commit indices

Most small steps leave alone what a server keeps of the log: the store, the two commit indices, the
snapshots and the flag that a configuration is under way. `LedgerStep` lists the steps that do not.
-/

namespace EnclaveRaft

open Act Server

/-- What a server keeps of the log. -/
structure Ledger where
  logStore : LogStore
  quickCommitIdx : Nat
  smCommitIndex : Nat
  lastSnapshot : Option Snapshot
  smLastSnapshot : Option Snapshot
  configChanging : Bool

def Server.ledger (s : Server) : Ledger where
  logStore := s.logStore
  quickCommitIdx := s.quickCommitIdx
  smCommitIndex := s.smCommitIndex
  lastSnapshot := s.lastSnapshot
  smLastSnapshot := s.smLastSnapshot
  configChanging := s.configChanging

variable {ctx : Context} {inp : Input} {s₀ s s' : Server} {o : List Effect}

/-- No entry is processed. -/
def Idle (o : List Effect) : Prop := ∀ n e, .process n e ∉ o

/-- What a small step does to the ledger. -/
inductive LedgerStep (ctx : Context) (inp : Input) (s₀ s : Server) (o : List Effect)
    (s' : Server) : Prop
  | same (hs' : s'.ledger = s.ledger) (ho : Idle o) (hnotes : ∀ e ∈ o, inp.Notes e)
  -- entries
  | saveInitial (hrole : s.role = .leader) (h0 : s.config.logIdx = 0)
      (hs' : s' = saveInitialConfig s) (ho : o = [])
  | client {req : ReqMsg} {now : Int} {e : LogEntry} (hin : inp = .request req now)
      (htype : req.type = .clientRequest) (he : e ∈ req.logEntries) (hrole : s.role = .leader)
      (hs' : s' = { s with logStore := s.logStore.append { e with term := s.term } }) (ho : Idle o)
      (hout : o =
        [.preCommit (usub (s.logStore.append { e with term := s.term }).nextSlot 1) e.buf])
  | confAppend {c : ClusterConfig} (hc : inp.newConfig ctx s₀ = some c) (hk : s.body = s₀.body)
      (hs' : s' = appendConfig c s) (ho : o = [])
  | merge {req : ReqMsg} {now : Int} {es : List LogEntry} (hin : inp = .request req now)
      (htype : req.type = .appendEntriesRequest) (hk : Keeps s₀ s) (hrole : s.role = .follower)
      (hterm : req.term = s.term) (hokay : ReqOkay s req)
      (hes : es = ctx.stateMachine.reached s.logStore (req.lastLogIdx + 1) req.logEntries)
      (hle : s₀.term ≤ req.term)
      (hs' : s' = { s with
        logStore := written s.logStore req.lastLogIdx es
        configChanging := writtenFlag s.logStore req.lastLogIdx es s.configChanging })
      (ho : Idle o) (hout : o = writtenOut s.logStore req.lastLogIdx es)
  | pack {req : ReqMsg} {now : Int} {es : List (Nat × LogValType × Payload)}
      (hin : inp = .request req now) (htype : req.type = .syncLogRequest) (hk : s = s₀)
      (hcatch : s.catchingUp = true)
      (hentry : ∃ t, req.logEntries = [⟨t, .logPack, .pack es⟩])
      (hs' : s' = { s with logStore := s.logStore.applyPack (usucc req.lastLogIdx) es })
      (ho : o = [])
  -- commit indices
  | commitMajority {s₁ : Server} {resp : RespMsg} {p : Peer}
      (hin : inp.Answers .appendEntriesResponse resp) (hk : Quiet s₀ s₁)
      (hterm : resp.term ≤ s.term) (hacc : resp.accepted) (hp : s₁.findPeer resp.src = some p)
      (hs : s = s₁.onPeer p.uid (recordMatch resp.nextIdx)) (hlt : s.quickCommitIdx < majorityIdx s)
      (hs' : s' = { s with quickCommitIdx := majorityIdx s }) (ho : o = [])
  | commitAlone (hrole : inp.Leads ctx s₀ s) (hpeers : s.peers = [])
      (hlt : s.quickCommitIdx < usub s.nextSlot 1)
      (hs' : s' = { s with quickCommitIdx := usub s.nextSlot 1 }) (ho : o = [])
  | commitFollower {req : ReqMsg} {now : Int}
      (hin : inp = .request req now) (htype : req.type = .appendEntriesRequest)
      (hrole : s.role = .follower) (hterm : req.term = s.term)
      (hquick : s.quickCommitIdx = s₀.quickCommitIdx)
      (hlog : s.logStore = written s₀.logStore req.lastLogIdx req.logEntries)
      (hsnp : s.smLastSnapshot = s₀.smLastSnapshot) (hokay : ReqOkay s₀ req)
      (hlt : s.quickCommitIdx < req.commitIdx)
      (hs' : s' = { s with quickCommitIdx := req.commitIdx }) (ho : o = [])
  | packCommit {req : ReqMsg} {now : Int} (hin : inp = .request req now)
      (htype : req.type = .syncLogRequest) (hlt : s.quickCommitIdx < usub s.nextSlot 1)
      (hs' : s' = { s with quickCommitIdx := usub s.nextSlot 1 }) (ho : o = [])
  -- the background thread
  | process (hin : inp = .commitBg) (hk : Quiet s₀ s) (hquick : s.smCommitIndex < s.quickCommitIdx)
      (hlog : s.smCommitIndex < usub s.nextSlot 1)
      (hs' : s' = { s with smCommitIndex := s.smCommitIndex + 1 })
      (ho : o = [.process (s.smCommitIndex + 1) (s.logStore.entryAt (s.smCommitIndex + 1))])
  | confApplied (hin : inp = .commitBg) (hs' : s' = { s with configChanging := false })
      (ho : o = [])
  | snapshot {snp : Snapshot} {conf : ClusterConfig} (hin : inp = .commitBg)
      (hdist : ctx.params.snapshotDistance ≠ 0) (hlog : s.logStore = s₀.logStore)
      (hidx : s.smCommitIndex = s₀.smCommitIndex + 1) (hle : s.smCommitIndex ≤ usub s.nextSlot 1)
      (hconf : snapshotConfig s s.smCommitIndex = .ok conf)
      (hsnp : snp = ⟨s.smCommitIndex, s.logStore.termAt s.smCommitIndex, conf, 0⟩)
      (hs' : s' = onSnapshotCompleted ctx snp { s with smLastSnapshot := some snp }) (ho : o = [])
  -- snapshots from the leader
  | installCompact {snp : Snapshot} (hin : inp.Installs snp)
      (hs' : s' = { s with logStore := s.logStore.compact snp.lastLogIdx }) (ho : o = [])
  | installApply {snp : Snapshot} (hin : inp.Installs snp)
      (hs' : s' = { s with smLastSnapshot := some snp }) (ho : o = [])
  | installDone {snp : Snapshot} (hin : inp.Installs snp)
      (hs' : s' = { s.saveState with
        smCommitIndex := snp.lastLogIdx
        quickCommitIdx := snp.lastLogIdx
        lastSnapshot := some { snp with lastConfig := s.config } }) (ho : o = [])
  -- membership
  | abandon {rpc : Rpc} (hin : inp = .failure rpc) (hext : inp.IsExt) (hk : Quiet s₀ s)
      (hgive : rpc.GivesUp ctx s₀)
      (hs' : s' = { s with configChanging := false, srvToJoin := none }) (ho : o = [])
  | join {req : ReqMsg} {now : Int} (hin : inp = .request req now)
      (htype : req.type = .joinClusterRequest) (hk : s = s₀) (hcatch : s.catchingUp = false)
      (hentry : ∃ e, req.logEntries = [e] ∧ e.valType = .conf) (hs' : s' = startCatchingUp req s)
      (ho : o = [])

theorem Quiet.ledger (h : Quiet s s') : s'.ledger = s.ledger := h.field Server.ledger

theorem Keeps.ledger (h : Keeps s s') : s'.ledger = s.ledger := h.field Server.ledger

theorem idle_nil : Idle [] := fun _ _ => List.not_mem_nil

theorem notes_nil : ∀ e ∈ [], inp.Notes e := fun _ h => absurd h List.not_mem_nil

theorem Micro.ledgerStep (hm : Micro ctx inp s₀ s o s') : LedgerStep ctx inp s₀ s o s' := by
  cases hm with
  | quiet h => exact .same h.ledger idle_nil notes_nil
  | note h hin =>
    refine .same rfl (fun n e he => ?_) fun e he => ?_
    · cases List.mem_singleton.1 he
      exact h.elim
    · cases List.mem_singleton.1 he
      exact hin
  | enterTerm => exact .same (keeps_enterTerm _ s).ledger idle_nil notes_nil
  | stepDown => exact .same (keeps_becomeFollower s).ledger idle_nil notes_nil
  | saveInitial hrole h0 => exact .saveInitial hrole h0 rfl rfl
  | client hin htype he hrole => exact .client hin htype he hrole rfl (by simp [Idle]) rfl
  | confAppend hc hk => exact .confAppend hc hk rfl rfl
  | merge hin htype hk hrole hterm hokay hes hle =>
    exact .merge hin htype hk hrole hterm hokay hes hle rfl
      (fun n e he => (writtenOut_inert _ he).elim) rfl
  | pack hin htype hk hcatch hentry => exact .pack hin htype hk hcatch hentry rfl rfl
  | commitMajority hin hk hterm hacc hp hs hlt =>
    exact .commitMajority hin hk hterm hacc hp hs hlt rfl rfl
  | commitAlone hrole hpeers hlt => exact .commitAlone hrole hpeers hlt rfl rfl
  | commitFollower hin htype hrole hterm hquick hlog hsnp hokay hlt =>
    exact .commitFollower hin htype hrole hterm hquick hlog hsnp hokay hlt rfl rfl
  | packCommit hin htype hlt => exact .packCommit hin htype hlt rfl rfl
  | process hin hk hquick hlog => exact .process hin hk hquick hlog rfl rfl
  | confApplied hin => exact .confApplied hin rfl rfl
  | snapshot hin hdist hlog hidx hle hconf hsnp =>
    exact .snapshot hin hdist hlog hidx hle hconf hsnp rfl rfl
  | installCompact hin => exact .installCompact hin rfl rfl
  | installApply hin => exact .installApply hin rfl rfl
  | installDone hin => exact .installDone hin rfl rfl
  | abandon hin hext hk hgive => exact .abandon hin hext hk hgive rfl rfl
  | join hin htype hk hcatch hentry => exact .join hin htype hk hcatch hentry rfl rfl
  | addConfigured =>
    obtain ⟨ps, j, n, hfold⟩ := foldl_addConfigured_frame ctx _ s
    exact .same (by rw [hfold]; rfl) idle_nil notes_nil
  | dropOnly =>
    obtain ⟨ps, -, hdrop⟩ := dropOnlyPeer_frame _ s
    exact .same (by rw [hdrop]; rfl) idle_nil notes_nil
  | _ => exact .same rfl (by simp [Idle]) (by simp [Input.Notes])

end EnclaveRaft
