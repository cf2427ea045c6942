import EnclaveRaft.Ledger

/-!
# Runs of one server

A server takes inputs one after another. Nothing is assumed of them: a request may say anything,
and a response may come from anyone. Each server of a cluster goes through such a run
(`Cluster.run_server`), so what holds in all of them holds in every cluster, whoever its members
are.

What an input does to the ledger is said here for inputs as a whole where its small steps do not
tell enough: a round of the background thread (`BgRound`) and a request to install a snapshot
(`InstallRound`).
-/

namespace EnclaveRaft

open Act Server LogStore

/-! ## Inputs in a row -/

namespace Server

/-- The server after an input. -/
def take (ctx : Context) (s : Server) (inp : Input) : Server := (inp.handle ctx s).state

def run (ctx : Context) (s : Server) (inps : List Input) : Server := inps.foldl (take ctx) s

/-- Every input of the run is taken in a state where `C` allows it. -/
def Meets (ctx : Context) (C : Server → Input → Prop) (s : Server) : List Input → Prop
  | [] => True
  | inp :: inps => C s inp ∧ (s.take ctx inp).Meets ctx C inps

variable {ctx : Context} {s : Server} {C : Server → Input → Prop}

instance decidableMeets (ctx : Context) (C : Server → Input → Prop)
    [∀ s inp, Decidable (C s inp)] :
    (s : Server) → (inps : List Input) → Decidable (s.Meets ctx C inps)
  | _, [] => instDecidableTrue
  | s, inp :: inps =>
    let _ := decidableMeets ctx C (s.take ctx inp) inps
    inferInstanceAs (Decidable (C s inp ∧ (s.take ctx inp).Meets ctx C inps))

/-- What every input keeps holds at the end of a run. -/
theorem inv_run {I : Server → Prop} (hstep : ∀ s inp, I s → C s inp → I (s.take ctx inp))
    {inps : List Input} (hI : I s) (hC : s.Meets ctx C inps) : I (s.run ctx inps) := by
  induction inps generalizing s with
  | nil => exact hI
  | cons inp inps ih => exact ih (hstep s inp hI hC.1) hC.2

theorem meets_append {inps inps' : List Input} :
    s.Meets ctx C (inps ++ inps') ↔ s.Meets ctx C inps ∧ (s.run ctx inps).Meets ctx C inps' := by
  induction inps generalizing s with
  | nil => simp [Meets, run]
  | cons inp inps ih => simp [Meets, ih, run, and_assoc]

/-- What the server does in a run besides changing its state, in order. -/
def trace (ctx : Context) (s : Server) : List Input → List Effect
  | [] => []
  | inp :: inps => (inp.handle ctx s).out ++ (s.take ctx inp).trace ctx inps

theorem trace_append (ctx : Context) (s : Server) (inps inps' : List Input) :
    s.trace ctx (inps ++ inps') = s.trace ctx inps ++ (s.run ctx inps).trace ctx inps' := by
  induction inps generalizing s with
  | nil => rfl
  | cons inp inps ih =>
    rw [List.cons_append, trace, ih, trace, List.append_assoc]
    rfl

/-- Every input of the run is taken at a time when `C` allows it, given what the server has done
by then. -/
def MeetsPast (ctx : Context) (C : List Effect → Server → Input → Prop) (past : List Effect)
    (s : Server) : List Input → Prop
  | [] => True
  | inp :: inps => C past s inp ∧
      (s.take ctx inp).MeetsPast ctx C (past ++ (inp.handle ctx s).out) inps

instance decidableMeetsPast (ctx : Context) (C : List Effect → Server → Input → Prop)
    [∀ past s inp, Decidable (C past s inp)] : (past : List Effect) → (s : Server) →
    (inps : List Input) → Decidable (s.MeetsPast ctx C past inps)
  | _, _, [] => instDecidableTrue
  | past, s, inp :: inps =>
    let _ := decidableMeetsPast ctx C (past ++ (inp.handle ctx s).out) (s.take ctx inp) inps
    inferInstanceAs (Decidable (C past s inp ∧
      (s.take ctx inp).MeetsPast ctx C (past ++ (inp.handle ctx s).out) inps))

/-- What every input keeps, of the state and of what has been done, holds at the end of a run. -/
theorem inv_trace {I : List Effect → Server → Prop} {C : List Effect → Server → Input → Prop}
    (hstep : ∀ past s inp, I past s → C past s inp →
      I (past ++ (inp.handle ctx s).out) (s.take ctx inp)) {past : List Effect}
    {inps : List Input} (hI : I past s) (hC : s.MeetsPast ctx C past inps) :
    I (past ++ s.trace ctx inps) (s.run ctx inps) := by
  induction inps generalizing past s with
  | nil => simpa [trace, run] using hI
  | cons inp inps ih =>
    rw [trace, ← List.append_assoc]
    exact ih (hstep past s inp hI hC.1) hC.2

theorem meetsPast_append {C : List Effect → Server → Input → Prop} {past : List Effect}
    {inps inps' : List Input} : s.MeetsPast ctx C past (inps ++ inps') ↔
      s.MeetsPast ctx C past inps ∧
        (s.run ctx inps).MeetsPast ctx C (past ++ s.trace ctx inps) inps' := by
  induction inps generalizing past s with
  | nil => simp [MeetsPast, run, trace]
  | cons inp inps ih => simp [MeetsPast, ih, run, trace, and_assoc]

/-- A condition on the state is one on the state and the past. -/
theorem Meets.past {inps : List Input} (h : s.Meets ctx C inps) (past : List Effect) :
    s.MeetsPast ctx (fun _ => C) past inps := by
  induction inps generalizing s past with
  | nil => trivial
  | cons inp inps ih => exact ⟨h.1, ih h.2 _⟩

/-- Handlers are sequences of small steps. -/
theorem take_path (ctx : Context) (s : Server) (inp : Input) :
    Path (Micro ctx inp s) s (inp.handle ctx s).out (s.take ctx inp) :=
  (walks_handle ctx inp s).1

end Server

/-- **Servers of clusters.** What a server goes through in a run of a cluster is a run of its
own. -/
theorem Cluster.run_server {ctx : Context} {c : Cluster} {i : Int} {C : Server → Input → Prop}
    {es : List Event} (hes : c.Meets ctx (fun c e => e.Allowed (fun c j inp =>
      j = i → C (c.servers j) inp) c) es) :
    ∃ inps, (c.servers i).Meets ctx C inps ∧
      (c.run ctx es).servers i = (c.servers i).run ctx inps := by
  induction es generalizing c with
  | nil => exact ⟨[], trivial, rfl⟩
  | cons e es ih =>
    obtain ⟨inps, hmeets, hrun⟩ := ih hes.2
    change ((c.step ctx e).run ctx es).servers i = _ at hrun
    have hstep : (c.step ctx e).servers i = c.servers i ∨ ∃ inp, C (c.servers i) inp ∧
        (c.step ctx e).servers i = (c.servers i).take ctx inp := by
      unfold step
      cases hin : e.input c with
      | none => exact .inl rfl
      | some p =>
        obtain ⟨j, inp, k⟩ := p
        by_cases hij : i = j
        · subst hij
          exact .inr ⟨inp, hes.1 i inp k hin rfl, take_servers ctx c i inp k⟩
        · exact .inl (take_servers_ne ctx c inp k hij)
    rcases hstep with heq | ⟨inp, hC, heq⟩
    · rw [heq] at hmeets hrun
      exact ⟨inps, hmeets, hrun⟩
    · rw [heq] at hmeets hrun
      exact ⟨inp :: inps, ⟨hC, hmeets⟩, hrun⟩

/-! ## Calls -/

/-- Calls to the state machine and to `compact`, and entries that are taken out of the log. -/
def Effect.isCall : Effect → Bool
  | .preCommit _ _ | .rollback _ _ | .commit _ _ | .compact _ _ | .process _ _ => true
  | _ => false

def calls (o : List Effect) : List Effect := o.filter Effect.isCall

theorem calls_append (o o' : List Effect) : calls (o ++ o') = calls o ++ calls o' :=
  List.filter_append _ _

theorem mem_calls {o : List Effect} {e : Effect} (he : e.isCall) : e ∈ calls o ↔ e ∈ o := by
  simp [calls, he]

/-- What `x` makes of the ledger, and the calls on the way. -/
def Does {α : Type} (x : M α) (s : Server) (P : Ledger → List Effect → Prop) : Prop :=
  P (x s).state.ledger (calls (x s).out)

/-- The ledger stays as it is. -/
def Still {α : Type} (x : M α) (s : Server) : Prop := Does x s fun l o => l = s.ledger ∧ o = []

section Does

variable {α β : Type} {x : M α} {f : α → M β} {s : Server} {P : Ledger → List Effect → Prop}

theorem Does.mono {Q : Ledger → List Effect → Prop} (h : Does x s P) (hQ : ∀ l o, P l o → Q l o) :
    Does x s Q :=
  hQ _ _ h

theorem does_get_bind {f : Server → M β} (h : Does (f s) s P) : Does (get >>= f) s P := h

theorem does_pure_bind {a : α} (h : Does (f a) s P) : Does (pure a >>= f) s P := h

theorem does_modify_bind {g : Server → Server} {f : Unit → M β} (h : Does (f ()) (g s) P) :
    Does (modify g >>= f) s P := h

theorem Does.of_bind_pure {g : α → β} (h : Does x s P) : Does (x >>= fun a => pure (g a)) s P := by
  unfold Does
  rw [bind_pure_state, bind_pure_out]
  exact h

theorem does_emit_bind {e : Effect} {f : Unit → M β}
    (h : Does (f ()) s fun l o => P l (calls [e] ++ o)) : Does (emit e >>= f) s P := by
  show P (f () s).state.ledger (calls ([e] ++ (f () s).out))
  rw [calls_append]
  exact h

theorem does_bind (hx : Does x s fun l o => (∀ e, (x s).result = .error e → P l o) ∧
      ∀ a s', (x s).result = .ok a → s'.ledger = l → Does (f a) s' fun l' o' => P l' (o ++ o')) :
    Does (x >>= f) s P := by
  unfold Does at hx ⊢
  show P (Act.bind x f s).state.ledger (calls (Act.bind x f s).out)
  unfold Act.bind
  cases hxs : x s with
  | mk result s' o =>
    rw [hxs] at hx
    cases result with
    | ok a =>
      show P (f a s').state.ledger (calls (o ++ (f a s').out))
      rw [calls_append]
      exact hx.2 a s' rfl rfl
    | error e => exact hx.1 e rfl

/-- What comes after a part that leaves the ledger alone. -/
theorem Still.bind (hx : Still x s) (hP : ∀ e, (x s).result = .error e → P s.ledger [])
    (hf : ∀ a s', s'.ledger = s.ledger → Does (f a) s' P) : Does (x >>= f) s P := by
  refine does_bind ?_
  obtain ⟨hl, ho⟩ := hx
  unfold Does
  rw [hl, ho]
  exact ⟨hP, fun a s' _ hs' => hf a s' hs'⟩

theorem Still.when {x : M Unit} {c : Prop} [Decidable c] (h : c → Still x s) :
    Still (Act.when c x) s := by
  unfold Act.when
  split
  next hc => exact h hc
  next => exact ⟨rfl, rfl⟩

theorem does_ite {c : Prop} [Decidable c] {y : M α} (hx : c → Does x s P) (hy : ¬c → Does y s P) :
    Does (if c then x else y) s P := by
  split
  · exact hx ‹_›
  · exact hy ‹_›

end Does

theorem still_saveConfig (c : ClusterConfig) (s : Server) : Still (saveConfig c) s := by
  unfold saveConfig
  split <;> exact ⟨rfl, rfl⟩

theorem saveConfig_result {c : ClusterConfig} (h : c.copied.isSome) (s : Server) :
    (saveConfig c s).result = .ok () := by
  obtain ⟨saved, hsaved⟩ := Option.isSome_iff_exists.1 h
  rw [saveConfig, hsaved]
  rfl

theorem orExit_result {e : RaftException} {x : M Unit} {s : Server} (h : (x s).result = .ok ()) :
    (orExit e x s).result = .ok () := by
  unfold orExit catching
  cases hx : x s with
  | mk result s' o =>
    rw [hx] at h
    cases h
    rfl

theorem Still.orExit {e : RaftException} {x : M Unit} {s : Server} (h : Still x s) :
    Still (orExit e x) s := by
  unfold Still Does EnclaveRaft.orExit catching at *
  cases hx : x s with
  | mk result s' o =>
    rw [hx] at h
    cases result with
    | ok a => exact h
    | error e' =>
      refine ⟨h.1, ?_⟩
      show calls (o ++ [.systemExit (-1)]) = []
      rw [calls_append, h.2]
      rfl

theorem still_reconfigure (ctx : Context) (c : ClusterConfig) (s : Server) :
    Still (reconfigure ctx c) s := by
  obtain ⟨ps, j, n, hfold⟩ := foldl_addConfigured_frame ctx (c.servers.filter fun srv =>
    (s.findPeer srv.id).isNone ∧ srv.id ≠ s.id) s
  have hdrop : (dropUnconfigured c ((c.servers.filter fun srv =>
      (s.findPeer srv.id).isNone ∧ srv.id ≠ s.id).foldl (addConfigured ctx) s)).ledger =
      s.ledger := by
    rw [hfold]
    rfl
  refine does_get_bind (does_modify_bind (does_modify_bind (does_get_bind (does_ite ?_ ?_))))
  · refine fun _ => Still.bind (still_saveConfig c _) (fun _ _ => ⟨hdrop, rfl⟩) fun _ s' hs' => ?_
    exact ⟨hs'.trans hdrop, rfl⟩
  · exact fun _ => ⟨hdrop, rfl⟩

theorem still_adoptConfig (ctx : Context) (c : ClusterConfig) (s : Server) :
    Still (do reconfigure ctx c; let s ← get; saveConfig s.config : M Unit) s := by
  refine Still.bind (still_reconfigure ctx c s) (fun _ _ => ⟨rfl, rfl⟩) fun _ s₂ hs₂ => ?_
  refine does_get_bind ((still_saveConfig s₂.config s₂).mono fun l o h => ?_)
  exact ⟨h.1.trans hs₂, h.2⟩

/-- The configuration of a snapshot can be saved, and if it leaves the server out, the one that stays
in use can be. -/
def Server.CanSave (s : Server) (c : ClusterConfig) : Prop :=
  c.copied.isSome ∧ (c.getServer s.id = none → s.catchingUp = false → s.config.copied.isSome)

instance (s : Server) (c : ClusterConfig) : Decidable (s.CanSave c) :=
  inferInstanceAs (Decidable (_ ∧ (_ → _ → _)))

theorem Server.CanSave.congr {c : ClusterConfig} {s s' : Server} (h : s.CanSave c)
    (hid : s'.id = s.id) (hcatch : s'.catchingUp = s.catchingUp) (hconfig : s'.config = s.config) :
    s'.CanSave c := by
  rw [CanSave, hid, hcatch, hconfig]
  exact h

/-- Then `handle_snapshot_sync_req` adopts and saves it. -/
theorem Server.CanSave.result {c : ClusterConfig} {s : Server} (h : s.CanSave c) (ctx : Context) :
    ((do reconfigure ctx c; let s ← get; saveConfig s.config : M Unit) s).result = .ok () := by
  obtain ⟨ps, j, n, hfold⟩ := foldl_addConfigured_frame ctx (c.servers.filter fun srv =>
    (s.findPeer srv.id).isNone ∧ srv.id ≠ s.id) s
  obtain ⟨saved, hsaved⟩ := Option.isSome_iff_exists.1 h.1
  let s₁ : Server := dropUnconfigured c { s with peers := ps, srvToJoin := j, nextUid := n }
  by_cases hout : (c.getServer s.id).isNone ∧ ¬s.catchingUp
  · have hrun : Runs (reconfigure ctx c) s () (s₁.keepConfig saved) [.systemExit 0] := by
      refine .get_bind (.modify_bind (.modify_bind (.get_bind ?_)))
      rw [hfold]
      refine .of_pos hout ?_
      rw [saveConfig, hsaved]
      exact .modify_bind runs_emit
    rw [hrun.bind_eq]
    exact saveConfig_result (h.2 (Option.isNone_iff_eq_none.1 hout.1) (by simpa using hout.2)) _
  · have hrun : Runs (reconfigure ctx c) s () { s₁ with config := c, configShared := false } [] := by
      refine .get_bind (.modify_bind (.modify_bind (.get_bind ?_)))
      rw [hfold]
      exact .of_neg hout runs_modify
    rw [hrun.bind_eq]
    exact saveConfig_result h.1 _

/-! ## The background thread -/

/-- The configuration that an entry of the log holds. -/
def LogEntry.config? (e : LogEntry) : Option ClusterConfig :=
  match e.valType, e.buf with
  | .conf, .config c => some c
  | _, _ => none

theorem LogEntry.config?_eq_some {e : LogEntry} {c : ClusterConfig} :
    e.config? = some c ↔ e.valType = .conf ∧ e.buf = .config c := by
  obtain ⟨t, v, b⟩ := e
  cases v <;> cases b <;> simp [config?]

/-- What the state manager keeps of it. -/
def LogEntry.storedConfig? (e : LogEntry) : Option ClusterConfig :=
  e.config?.bind ClusterConfig.copied

/-- The call for an entry that is applied. -/
def appliedOut (idx : Nat) (e : LogEntry) : List Effect :=
  if e.valType = .appLog then [.commit idx e.buf] else []

namespace Ledger

/-- The next entry has been applied. -/
def applied (l : Ledger) : Ledger :=
  { l with
    smCommitIndex := l.smCommitIndex + 1
    configChanging := l.configChanging &&
      (l.logStore.entryAt (l.smCommitIndex + 1)).storedConfig?.isNone }

/-- A snapshot has been taken of what has been applied. -/
def snapshot (ctx : Context) (conf : ClusterConfig) (l : Ledger) : Ledger :=
  let snp : Snapshot := ⟨l.smCommitIndex, l.logStore.termAt l.smCommitIndex, conf, 0⟩
  let reserved := ulong ctx.params.reservedLogItems
  { l with
    lastSnapshot := some snp
    smLastSnapshot := some snp
    logStore := if reserved < l.smCommitIndex then l.logStore.compact (l.smCommitIndex - reserved)
      else l.logStore }

/-- A snapshot has been installed. -/
def install (snp : Snapshot) (conf : ClusterConfig) (l : Ledger) : Ledger :=
  { l with
    logStore := l.logStore.compact snp.lastLogIdx
    quickCommitIdx := snp.lastLogIdx
    smCommitIndex := snp.lastLogIdx
    lastSnapshot := some { snp with lastConfig := conf }
    smLastSnapshot := some snp }

end Ledger

variable {ctx : Context} {s : Server}

/-- What `applyEntry` makes of the flag. -/
theorem does_applyEntry (idx : Nat) (e : LogEntry) : Does (applyEntry ctx idx e) s fun l o =>
    l = { s.ledger with configChanging := s.configChanging && e.storedConfig?.isNone } ∧
      o = appliedOut idx e := by
  have hsame : e.storedConfig? = none → s.ledger =
      { s.ledger with configChanging := s.configChanging && e.storedConfig?.isNone } := by
    intro h
    rw [h]
    simp [Server.ledger]
  unfold applyEntry appliedOut
  cases hv : e.valType with
  | appLog =>
    refine does_emit_bind ?_
    have hledger := hsame (by simp [LogEntry.storedConfig?, LogEntry.config?, hv])
    unfold Act.when
    exact does_ite (fun _ => ⟨hledger, rfl⟩) fun _ => ⟨hledger, rfl⟩
  | conf =>
    cases hb : e.buf with
    | config c =>
      have hstored : e.storedConfig? = c.copied := by
        simp [LogEntry.storedConfig?, LogEntry.config?, hv, hb]
      show Does (applyConfig ctx c) s _
      unfold applyConfig saveConfig
      cases hcopy : c.copied with
      | none => exact ⟨hsame (hstored.trans hcopy), rfl⟩
      | some saved =>
        have hoff : ({ s.keepConfig saved with configChanging := false } : Server).ledger =
            { s.ledger with configChanging := s.configChanging && e.storedConfig?.isNone } := by
          rw [hstored, hcopy]
          simp [Server.ledger, keepConfig]
        have hsave : orExit .badBuffer (modify (keepConfig saved)) = modify (keepConfig saved) := rfl
        dsimp only
        rw [hsave]
        refine does_modify_bind (does_modify_bind (does_get_bind ?_))
        refine Still.bind (Still.when fun _ => still_reconfigure ctx c _)
          (fun _ _ => ⟨hoff, rfl⟩) fun _ s' hs' => ?_
        have hif : (if s'.catchingUp ∧ (c.getServer s'.id).isSome then
            { s' with catchingUp := false } else s').ledger = s'.ledger := by split <;> rfl
        exact ⟨hif.trans (hs'.trans hoff), rfl⟩
    | _ =>
      exact ⟨hsame (by simp [LogEntry.storedConfig?, LogEntry.config?, hv, hb]), rfl⟩
  | _ => exact ⟨hsame (by simp [LogEntry.storedConfig?, LogEntry.config?, hv]), rfl⟩

/-- The calls of a snapshot that is taken at `idx`. -/
def snapshotOut (ctx : Context) (st : LogStore) (idx : Nat) : List Effect :=
  if ulong ctx.params.reservedLogItems < idx then
    [.compact st.startIdx (idx - ulong ctx.params.reservedLogItems)]
  else []

/-- A snapshot is taken when it is due, or the ledger stays as it is. -/
theorem does_snapshotAndCompact : Does (snapshotAndCompact ctx s.smCommitIndex) s fun l o =>
    (l = s.ledger ∧ o = []) ∨
      ∃ conf, ctx.params.snapshotDistance ≠ 0 ∧
        ulong ctx.params.snapshotDistance ≤ usub s.smCommitIndex s.logStore.startIdx ∧
        l = s.ledger.snapshot ctx conf ∧ o = snapshotOut ctx s.logStore s.smCommitIndex := by
  refine does_get_bind (does_ite (fun hdue => ?_) fun _ => .inl ⟨rfl, rfl⟩)
  simp only [snapshotDue, Bool.and_eq_true, decide_eq_true_eq] at hdue
  cases hconf : snapshotConfig s s.smCommitIndex with
  | error e => cases e <;> exact .inl ⟨rfl, rfl⟩
  | ok conf =>
    refine does_ite (fun _ => ?_) fun _ => .inl ⟨rfl, rfl⟩
    dsimp only
    by_cases hres : ulong ctx.params.reservedLogItems < s.smCommitIndex
    · rw [when_pos hres, snapshotOut, if_pos hres]
      exact does_emit_bind (.inr ⟨conf, hdue.1.1.1, hdue.1.1.2, rfl, rfl⟩)
    · rw [when_neg hres, snapshotOut, if_neg hres]
      exact .inr ⟨conf, hdue.1.1.1, hdue.1.1.2, rfl, rfl⟩

/-- What a round of the background thread does. -/
inductive BgRound (ctx : Context) (s : Server) : Ledger → List Effect → Prop
  | idle : BgRound ctx s s.ledger []
  | plain (hquick : s.smCommitIndex < s.quickCommitIdx) (hlog : s.smCommitIndex < usub s.nextSlot 1) :
      BgRound ctx s s.ledger.applied
        (.process (s.smCommitIndex + 1) (s.logStore.entryAt (s.smCommitIndex + 1)) ::
          appliedOut (s.smCommitIndex + 1) (s.logStore.entryAt (s.smCommitIndex + 1)))
  | snapshot {conf : ClusterConfig} (hquick : s.smCommitIndex < s.quickCommitIdx)
      (hlog : s.smCommitIndex < usub s.nextSlot 1) (hdist : ctx.params.snapshotDistance ≠ 0)
      (hdue : ulong ctx.params.snapshotDistance ≤ usub (s.smCommitIndex + 1) s.logStore.startIdx) :
      BgRound ctx s (s.ledger.applied.snapshot ctx conf)
        (.process (s.smCommitIndex + 1) (s.logStore.entryAt (s.smCommitIndex + 1)) ::
          (appliedOut (s.smCommitIndex + 1) (s.logStore.entryAt (s.smCommitIndex + 1)) ++
            snapshotOut ctx s.logStore (s.smCommitIndex + 1)))

theorem does_commitInBg : Does (commitInBg ctx) s (BgRound ctx s) := by
  refine does_get_bind ?_
  unfold Act.when
  refine does_ite (fun h => ?_) fun _ => .idle
  refine does_modify_bind (does_emit_bind (does_bind ?_))
  refine (does_applyEntry _ _).mono ?_
  rintro l o ⟨rfl, rfl⟩
  refine ⟨fun _ _ => .plain h.1 h.2, fun _ s' _ hs' => ?_⟩
  have hidx : s'.smCommitIndex = s.smCommitIndex + 1 := congrArg Ledger.smCommitIndex hs'
  have hstore : s'.logStore = s.logStore := congrArg Ledger.logStore hs'
  have hsnp : Does (snapshotAndCompact ctx s'.smCommitIndex) s' _ := does_snapshotAndCompact
  rw [hidx, hs', hstore] at hsnp
  refine hsnp.mono ?_
  rintro l o (⟨rfl, rfl⟩ | ⟨conf, hdist, hdue, rfl, rfl⟩)
  · rw [List.append_nil]
    exact .plain h.1 h.2
  · exact .snapshot h.1 h.2 hdist hdue

/-! ## Snapshots from the leader -/

/-- The block of a snapshot that a request carries. -/
def ReqMsg.sync? (req : ReqMsg) : Option SnapshotSyncReq :=
  match req.logEntries with
  | [⟨_, .snpSyncReq, .snapshotSync sync⟩] => some sync
  | _ => none

/-- The request brings the last block of a snapshot that the server installs. -/
def ReqMsg.Completes (req : ReqMsg) (s : Server) (sync : SnapshotSyncReq) : Prop :=
  req.sync? = some sync ∧ sync.done ∧ (s.catchingUp ∨ s.term ≤ req.term) ∧
    s.smCommitIndex < sync.snapshot.lastLogIdx

instance (req : ReqMsg) (s : Server) (sync : SnapshotSyncReq) : Decidable (req.Completes s sync) :=
  inferInstanceAs (Decidable (_ ∧ _))

/-- What the last block of a snapshot does. -/
inductive InstallRound (ctx : Context) (snp : Snapshot) (s : Server) : Ledger → List Effect → Prop
  | failed (happly : ctx.stateMachine.applySnapshot snp = false) :
      InstallRound ctx snp s { s.ledger with logStore := s.logStore.compact snp.lastLogIdx }
        [.compact s.logStore.startIdx snp.lastLogIdx]
  | unsaved (hsave : ¬s.CanSave snp.lastConfig) :
      InstallRound ctx snp s
        { s.ledger with
          logStore := s.logStore.compact snp.lastLogIdx
          smLastSnapshot := some snp }
        [.compact s.logStore.startIdx snp.lastLogIdx]
  | done {conf : ClusterConfig} :
      InstallRound ctx snp s (s.ledger.install snp conf)
        [.compact s.logStore.startIdx snp.lastLogIdx]

theorem InstallRound.congr {snp : Snapshot} {s' : Server} {l : Ledger} {o : List Effect}
    (h : InstallRound ctx snp s' l o) (hk : Keeps s s') : InstallRound ctx snp s l o := by
  have hs := hk.ledger
  have hstore : s'.logStore = s.logStore := congrArg Ledger.logStore hs
  cases h with
  | failed happly => rw [hs, hstore]; exact .failed happly
  | unsaved hsave =>
    rw [hs, hstore]
    refine .unsaved ?_
    exact fun hcan => hsave (hcan.congr (hk.field Server.id) (hk.field Server.catchingUp)
      (hk.field Server.config))
  | done => rw [hs, hstore]; exact .done

theorem does_handleSnapshotSyncReq (sync : SnapshotSyncReq) :
    Does (handleSnapshotSyncReq ctx sync) s fun l o => (l = s.ledger ∧ o = []) ∨
      (sync.done = true ∧ InstallRound ctx sync.snapshot s l o) := by
  refine does_emit_bind ?_
  unfold Act.when
  refine does_ite (fun hdone => does_get_bind ?_) fun _ => .inl ⟨rfl, rfl⟩
  by_cases hrole : s.role = .follower
  swap
  · rw [if_pos hrole]
    exact does_bind ⟨fun _ _ => .inl ⟨rfl, rfl⟩, fun _ _ ha _ => by cases ha⟩
  rw [if_neg (not_not.2 hrole)]
  refine does_pure_bind (does_emit_bind (does_modify_bind (does_modify_bind ?_)))
  refine Does.mono ?_ fun l o hround => .inr ⟨hdone, hround⟩
  by_cases happly : ctx.stateMachine.applySnapshot sync.snapshot
  · rw [if_neg (by simp [happly])]
    refine does_pure_bind (does_modify_bind ?_)
    refine Still.bind (Still.orExit ?_) (fun e he => ?_) fun _ s₂ hs₂ => ?_
    · exact still_adoptConfig ctx _ _
    · refine InstallRound.unsaved fun hsave => ?_
      rw [orExit_result (CanSave.result (by exact hsave.congr rfl rfl rfl) ctx)] at he
      cases he
    · have hround : InstallRound ctx sync.snapshot s ({ s₂.ledger with
          quickCommitIdx := sync.snapshot.lastLogIdx
          smCommitIndex := sync.snapshot.lastLogIdx
          lastSnapshot := some { sync.snapshot with lastConfig := s₂.config } })
          [.compact s.logStore.startIdx sync.snapshot.lastLogIdx] := by
        rw [hs₂]
        exact .done
      refine does_modify_bind ?_
      show InstallRound ctx sync.snapshot s (restartElectionTimer _).ledger
        [.compact s.logStore.startIdx sync.snapshot.lastLogIdx]
      rw [(quiet_restartElectionTimer _).ledger]
      exact hround
  · rw [if_pos happly]
    refine does_bind ⟨fun _ _ => ?_, fun _ _ ha _ => by cases ha⟩
    exact InstallRound.failed (by simpa using happly)

/-- Nothing but the election differs, and the term is not lower. -/
structure Rises (s s' : Server) : Prop where
  keeps : Keeps s s'
  term_le : s.term ≤ s'.term

/-- What a part that keeps everything but the election leaves is what comes after it. -/
theorem Rises.does_bind {α β : Type} {x : M α} {f : α → M β} {P : Ledger → List Effect → Prop}
    (hcalls : calls (x s).out = []) (hk : Rises s (x s).state)
    (hP : ∀ e, (x s).result = .error e → P s.ledger [])
    (hf : ∀ a s', Rises s s' → Does (f a) s' P) : Does (x >>= f) s P := by
  unfold Does
  show P (Act.bind x f s).state.ledger (calls (Act.bind x f s).out)
  unfold Act.bind
  cases hxs : x s with
  | mk result s' o =>
    rw [hxs] at hcalls hk hP
    cases result with
    | ok a =>
      show P (f a s').state.ledger (calls (o ++ (f a s').out))
      rw [calls_append, hcalls]
      exact hf a s' hk
    | error e =>
      show P s'.ledger (calls o)
      rw [hcalls, hk.keeps.ledger]
      exact hP e rfl

theorem rises_hearLeader {e : RaftException} :
    Rises s (hearLeader e s).state ∧ calls (hearLeader e s).out = [] := by
  unfold hearLeader
  rw [get_bind_apply]
  cases s.role with
  | candidate =>
    have hterm : (becomeFollower s).term = s.term :=
      congrArg SrvState.term (becomeFollower_state s)
    exact ⟨⟨keeps_becomeFollower s, hterm.ge⟩, rfl⟩
  | leader => exact ⟨⟨.refl s, le_rfl⟩, rfl⟩
  | follower =>
    have hq := quiet_restartElectionTimer s
    exact ⟨⟨hq.keeps, (congrArg SrvState.term (hq.field Server.state)).ge⟩, rfl⟩

/-- The request does nothing to the ledger, or installs a snapshot. -/
def InstallDone (ctx : Context) (req : ReqMsg) (s : Server) (l : Ledger) (o : List Effect) : Prop :=
  (l = s.ledger ∧ o = []) ∨
    ∃ sync, req.Completes s sync ∧ InstallRound ctx sync.snapshot s l o

theorem InstallDone.congr {req : ReqMsg} {s' : Server} {l : Ledger} {o : List Effect}
    (h : InstallDone ctx req s' l o) (hr : Rises s s') : InstallDone ctx req s l o := by
  rcases h with ⟨hl, ho⟩ | ⟨sync, ⟨hsync, hdone, hheard, hlt⟩, hround⟩
  · exact .inl ⟨hl.trans hr.keeps.ledger, ho⟩
  · rw [hr.keeps.field Server.catchingUp] at hheard
    rw [hr.keeps.field Server.smCommitIndex] at hlt
    exact .inr ⟨sync, ⟨hsync, hdone, hheard.imp_right hr.term_le.trans, hlt⟩,
      hround.congr hr.keeps⟩

theorem does_handleInstallSnapshotReq (req : ReqMsg) :
    Does (handleInstallSnapshotReq ctx req) s (InstallDone ctx req s) := by
  have hheard : ∀ (c : Prop) [Decidable c] (e : RaftException),
      calls (Act.when c (hearLeader e) s).out = [] ∧
        Rises s (Act.when c (hearLeader e) s).state := by
    intro c _ e
    unfold Act.when
    split
    · exact rises_hearLeader.symm
    · exact ⟨rfl, .refl s, le_rfl⟩
  refine does_get_bind (Rises.does_bind (hheard _ _).1 (hheard _ _).2
    (fun _ _ => .inl ⟨rfl, rfl⟩) fun _ s₁ hr => does_get_bind
      (Does.mono ?_ fun _ _ h => InstallDone.congr h hr))
  refine does_ite (fun _ => .inl ⟨rfl, rfl⟩) fun hterm => ?_
  split
  next entry hes =>
    refine does_ite (fun _ => .inl ⟨rfl, rfl⟩) fun htype => ?_
    obtain ⟨t, vt, buf⟩ := entry
    obtain rfl : vt = .snpSyncReq := not_not.1 htype
    dsimp only
    split
    next sync =>
      refine does_ite (fun _ => .inl ⟨rfl, rfl⟩) fun _ => ?_
      refine does_ite (fun _ => .inl ⟨rfl, rfl⟩) fun hlt => ?_
      refine does_bind ((does_handleSnapshotSyncReq sync).mono fun l o h => ?_)
      have hdone : InstallDone ctx req s₁ l o := by
        refine h.imp_right fun ⟨hdone, hround⟩ => ⟨sync, ⟨?_, hdone, ?_, Nat.lt_of_not_le hlt⟩, hround⟩
        · rw [ReqMsg.sync?, hes]
        · simpa [or_iff_not_imp_left] using hterm
      refine ⟨fun _ _ => hdone, fun _ s' _ hs' => ?_⟩
      show InstallDone ctx req s₁ s'.ledger (o ++ [])
      rw [hs', List.append_nil]
      exact hdone
    next => exact .inl ⟨rfl, rfl⟩
  next => exact .inl ⟨rfl, rfl⟩

/-- Only the last block of a snapshot beyond what has been applied does anything to the ledger. -/
theorem does_processReq_install {req : ReqMsg} (htype : req.type = .installSnapshotRequest)
    (now : Int) : Does (processReq ctx req now) s (InstallDone ctx req s) := by
  have hterm : calls (Act.when (req.type.bringsTerm) (do
      let _ ← updateTerm req.term
      modify fun s => if 0 < s.stepsToDown then { s with stepsToDown := 2 } else s) s).out = [] ∧
      Rises s (Act.when (req.type.bringsTerm) (do
        let _ ← updateTerm req.term
        modify fun s => if 0 < s.stepsToDown then { s with stepsToDown := 2 } else s) s).state := by
    have hdown : ∀ s' : Server,
        Rises s' (if 0 < s'.stepsToDown then { s' with stepsToDown := 2 } else s') := by
      intro s'
      split <;> exact ⟨rfl, le_rfl⟩
    rw [when_pos (by simp [MsgType.bringsTerm, htype])]
    by_cases hlt : s.term < req.term
    · have hrun : Runs (updateTerm req.term) s true (enterTerm req.term s) [] :=
        .get_bind (.of_pos hlt (.modify_bind runs_pure))
      have hnew : (enterTerm req.term s).term = req.term :=
        congrArg SrvState.term (enterTerm_state _ s)
      rw [hrun.bind_eq]
      have hdown := hdown (enterTerm req.term s)
      exact ⟨rfl, (keeps_enterTerm _ s).trans hdown.keeps, (hlt.le.trans hnew.ge).trans hdown.term_le⟩
    · have hrun : Runs (updateTerm req.term) s false s [] := .get_bind (.of_neg hlt runs_pure)
      rw [hrun.bind_eq]
      exact ⟨rfl, hdown s⟩
  refine Rises.does_bind hterm.1 hterm.2 (fun _ _ => .inl ⟨rfl, rfl⟩) fun _ s₁ hr => ?_
  simp only [htype, handleExtendedMsg]
  exact (does_handleInstallSnapshotReq req).mono fun l o h => h.congr hr

/-! ## Kinds of inputs -/

theorem Server.take_bg (ctx : Context) (s : Server) :
    BgRound ctx s (s.take ctx .commitBg).ledger (calls (Input.commitBg.handle ctx s).out) :=
  (does_commitInBg.of_bind_pure : Does (Input.commitBg.handle ctx) s _)

theorem Server.take_install {req : ReqMsg} (htype : req.type = .installSnapshotRequest)
    (now : Int) :
    InstallDone ctx req s (s.take ctx (.request req now)).ledger
      (calls ((Input.request req now).handle ctx s).out) :=
  ((does_processReq_install htype now).of_bind_pure : Does ((Input.request req now).handle ctx) s _)

/-- Inputs other than these two take small steps that say enough. -/
theorem Input.kinds (inp : Input) : inp = .commitBg ∨
    (∃ req now, inp = .request req now ∧ req.type = .installSnapshotRequest) ∨
    (inp ≠ .commitBg ∧ ∀ snp, ¬inp.Installs snp) := by
  by_cases hbg : inp = .commitBg
  · exact .inl hbg
  by_cases hinst : ∃ req now, inp = .request req now ∧ req.type = .installSnapshotRequest
  · exact .inr (.inl hinst)
  · exact .inr (.inr ⟨hbg, fun snp ⟨req, now, _, _, hin, htype, _⟩ => hinst ⟨req, now, hin, htype⟩⟩)

section Others

variable {inp : Input} {s₀ s' : Server} {o : List Effect}

theorem Micro.call_writes (hm : Micro ctx inp s₀ s o s') (hbg : inp ≠ .commitBg)
    (hinst : ∀ snp, ¬inp.Installs snp) : ∀ e ∈ o, e.isCall → e.Writes := by
  intro e he hcall
  cases hm with
  | note _ hin =>
    cases List.mem_singleton.1 he
    cases e with
    | commit => exact (hbg hin).elim
    | compact => exact hin.elim (fun h => (hbg h).elim) fun ⟨snp, h⟩ => (hinst snp h).elim
    | preCommit | rollback => trivial
    | process => contradiction
    | _ => cases hcall
  | merge => exact writtenOut_writes e he
  | client => cases List.mem_singleton.1 he; trivial
  | process hin => exact (hbg hin).elim
  | _ => first | cases he; done | (cases List.mem_singleton.1 he; cases hcall)

/-- Inputs other than rounds of the background thread and snapshots only call for entries that are
written. -/
theorem Server.take_call_writes (hbg : inp ≠ .commitBg) (hinst : ∀ snp, ¬inp.Installs snp) :
    ∀ e ∈ (inp.handle ctx s).out, e.isCall → e.Writes := by
  refine (take_path ctx s inp).fold
    (R := fun (_ : Server) (o : List Effect) (_ : Server) => ∀ e ∈ o, e.isCall → e.Writes)
    (fun _ e he => absurd he List.not_mem_nil) ?_
  intro s₁ s₂ s₃ o o' hm ih e he
  rcases List.mem_append.1 he with he | he
  · exact hm.call_writes hbg hinst e he
  · exact ih e he

end Others

end EnclaveRaft
