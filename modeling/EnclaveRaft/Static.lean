import EnclaveRaft.Reach

/-!
# Static membership

A cluster whose servers all start with one configuration and get no membership requests keeps
it: every configuration in a log, a message or a snapshot names the same servers, and each
server's peers are the others, in the configuration's order.
-/

namespace EnclaveRaft

open Act Server

/-- The servers of a static cluster. -/
structure Members where
  servers : List SrvConfig
  nodup : (servers.map SrvConfig.id).Nodup
  nobody_notMem : nobody ∉ servers.map SrvConfig.id

namespace Members

def ids (m : Members) : List Int := m.servers.map SrvConfig.id

/-- The servers other than `i`. -/
def others (m : Members) (i : Int) : List SrvConfig := m.servers.filter fun srv => srv.id ≠ i

theorem others_ids (m : Members) (i : Int) : (m.others i).map SrvConfig.id = m.ids.erase i := by
  unfold ids
  rw [m.nodup.erase_eq_filter, List.filter_map]
  congr 1
  refine List.filter_congr fun srv _ => ?_
  by_cases h : srv.id = i <;> simp [h]

end Members

/-! ## Frames of the peers -/

theorem Quiet.mem_peers {s s' : Server} (h : Quiet s s') {p' : Peer} (hp : p' ∈ s'.peers) :
    ∃ p ∈ s.peers, p.core = p'.core := by
  have hmem : p'.core ∈ s.peers.map Peer.core := h.peers ▸ List.mem_map_of_mem hp
  exact List.mem_map.1 hmem

theorem Quiet.findPeer_core {s s' : Server} (h : Quiet s s') {id : Int} {p : Peer}
    (hp : s'.findPeer id = some p) : ∃ q, s.findPeer id = some q ∧ q.core = p.core := by
  have hfind : ∀ s : Server, (s.peers.map Peer.core).find? (fun q => q.id = id) =
      (s.findPeer id).map Peer.core := fun s => List.find?_map
  have heq := hfind s'
  rw [h.peers, hfind, hp, Option.map_some, Option.map_eq_some_iff] at heq
  exact heq

theorem peers_config_onPeer (s : Server) (uid : Nat) {f : Peer → Peer}
    (hf : ∀ p, (f p).config = p.config) :
    (s.onPeer uid f).peers.map Peer.config = s.peers.map Peer.config := by
  simp only [onPeer, List.map_map]
  refine List.map_congr_left fun p _ => ?_
  simp only [Function.comp]
  split <;> simp [hf]

/-! ## Static payloads -/

section

variable (m : Members)

/-- A snapshot of the static cluster. -/
def StaticSnapshot (snp : Snapshot) : Prop := snp.lastConfig.servers = m.servers

/-- A buffer names no other servers. -/
def StaticPayload : Payload → Prop
  | .config c => c.servers = m.servers
  | .snapshotSync r => StaticSnapshot m r.snapshot
  | _ => True

def StaticEntry (e : LogEntry) : Prop := StaticPayload m e.buf

/-- A server of the static cluster. -/
structure StaticServer (s : Server) : Prop where
  id : s.id ∈ m.ids
  config : s.config.servers = m.servers
  peers : s.peers.map Peer.config = m.others s.id
  sync : ∀ p ∈ s.peers, ∀ x, p.snpSyncCtx = some x → StaticSnapshot m x.snapshot
  join : s.srvToJoin = none
  down : s.stepsToDown = 0
  store : s.logStore.All (StaticEntry m)
  snapshot : ∀ snp, s.lastSnapshot = some snp → StaticSnapshot m snp
  smSnapshot : ∀ snp, s.smLastSnapshot = some snp → StaticSnapshot m snp

/-- A message of the static cluster. -/
structure StaticRpc (rpc : Rpc) : Prop where
  handler : rpc.handler = .peerResp
  src : rpc.req.src ∈ m.ids
  dst : rpc.target ∈ m.ids
  type : rpc.req.type = .appendEntriesRequest ∨ rpc.req.type = .requestVoteRequest ∨
    rpc.req.type = .installSnapshotRequest
  entries : ∀ e ∈ rpc.req.logEntries, StaticEntry m e

/-- An input of the static cluster. -/
def StaticInput : Input → Prop
  | .request req _ => (req.type = .appendEntriesRequest ∨ req.type = .requestVoteRequest ∨
      req.type = .installSnapshotRequest ∨ req.type = .clientRequest) ∧
      ∀ e ∈ req.logEntries, StaticEntry m e
  | .response rpc _ _ => rpc.handler = .peerResp
  | .failure rpc => rpc.handler = .peerResp
  | .resend _ => False
  | _ => True

end

variable {m : Members} {ctx : Context} {inp : Input} {s₀ s s' : Server} {o : List Effect}

theorem staticEntry_placeholder : StaticEntry m LogStore.placeholder := trivial

theorem StaticInput.not_isExt (h : StaticInput m inp) : ¬inp.IsExt := by
  cases inp with
  | response rpc resp now => intro hext; cases hext.symm.trans h
  | failure rpc => intro hext; cases hext.symm.trans h
  | _ => exact id

theorem StaticInput.not_isAdmin (h : StaticInput m inp) : ¬inp.IsAdmin := by
  cases inp with
  | request req now =>
    rintro ⟨h1, h2, h3, h4⟩
    rcases h.1 with h | h | h | h <;> contradiction
  | response rpc resp now => exact h.not_isExt
  | failure rpc => exact h.not_isExt
  | resend rpc => exact h.elim
  | _ => exact id

/-! ## Written entries -/

theorem skipMatching_subset (st : LogStore) (idx : Nat) (es : List LogEntry) :
    (skipMatching st idx es).2 ⊆ es := by
  induction es generalizing idx with
  | nil => simp [skipMatching]
  | cons e es ih =>
    unfold skipMatching
    split
    · exact fun x hx => List.mem_cons_of_mem e (ih (idx + 1) hx)
    · exact List.Subset.refl _

theorem overwritten_all {P : LogEntry → Prop} {es : List LogEntry} (hes : ∀ e ∈ es, P e)
    {st : LogStore} (h : st.All P) (idx : Nat) :
    (overwritten st idx es).1.All P ∧ ∀ e ∈ (overwritten st idx es).2, P e := by
  induction es generalizing st idx with
  | nil => exact ⟨h, nofun⟩
  | cons e es ih =>
    rw [List.forall_mem_cons] at hes
    unfold overwritten
    split
    · exact ih hes.2 (h.writeAt idx hes.1) (idx + 1)
    · exact ⟨h, List.forall_mem_cons.2 hes⟩

theorem foldl_append_all {P : LogEntry → Prop} {es : List LogEntry} (hes : ∀ e ∈ es, P e)
    {st : LogStore} (h : st.All P) : (es.foldl LogStore.append st).All P := by
  induction es generalizing st with
  | nil => exact h
  | cons e es ih =>
    rw [List.forall_mem_cons] at hes
    exact ih hes.2 (h.append hes.1)

theorem written_all {P : LogEntry → Prop} {es : List LogEntry} (hes : ∀ e ∈ es, P e)
    {st : LogStore} (h : st.All P) (lastLogIdx : Nat) : (written st lastLogIdx es).All P := by
  have hrest := fun e he => hes e (skipMatching_subset st (lastLogIdx + 1) es he)
  have hover := overwritten_all hrest h (skipMatching st (lastLogIdx + 1) es).1
  exact foldl_append_all hover.2 hover.1

/-! ## Small steps keep the cluster static -/

namespace StaticServer

theorem peer_mem (h : StaticServer m s) {p : Peer} (hp : p ∈ s.peers) :
    p.id ∈ m.ids ∧ p.id ≠ s.id := by
  have hc : p.config ∈ m.others s.id := h.peers ▸ List.mem_map_of_mem hp
  obtain ⟨hmem, hne⟩ := List.mem_filter.1 hc
  exact ⟨List.mem_map_of_mem hmem, of_decide_eq_true hne⟩

theorem object_mem (h : StaticServer m s) {uid : Nat} {p : Peer} (hp : s.object uid = some p) :
    p ∈ s.peers := by
  have := List.mem_of_find?_eq_some hp
  rwa [h.join, Option.toList_none, List.append_nil] at this

theorem peers_ids (h : StaticServer m s) : s.peers.map Peer.id = m.ids.erase s.id := by
  rw [← m.others_ids, ← h.peers, List.map_map]
  rfl

/-- A static server counts itself and its peers. -/
theorem length_peers (h : StaticServer m s) : s.peers.length + 1 = m.ids.length := by
  have hlen := congrArg List.length h.peers_ids
  rw [List.length_map, List.length_erase_of_mem h.id] at hlen
  have := List.length_pos_of_mem h.id
  omega

/-- Every other server is a peer. -/
theorem findPeer_isSome (h : StaticServer m s) {srv : SrvConfig} (hsrv : srv ∈ m.servers)
    (hne : srv.id ≠ s.id) : (s.findPeer srv.id).isSome := by
  have hmem : srv ∈ s.peers.map Peer.config := by
    rw [h.peers]
    exact List.mem_filter.2 ⟨hsrv, by simpa using hne⟩
  obtain ⟨p, hp, rfl⟩ := List.mem_map.1 hmem
  rw [Server.findPeer, List.find?_isSome]
  exact ⟨p, hp, by simp [Peer.id]⟩

/-- The parts of a server that staticity looks at. -/
theorem congr (h : StaticServer m s) (hid : s'.id = s.id) (hconf : s'.config = s.config)
    (hpeers : s'.peers.map Peer.config = s.peers.map Peer.config)
    (hsync : ∀ p ∈ s'.peers, ∀ x, p.snpSyncCtx = some x → StaticSnapshot m x.snapshot)
    (hjoin : s'.srvToJoin = none) (hdown : s'.stepsToDown = s.stepsToDown)
    (hstore : s'.logStore.All (StaticEntry m)) (hsnp : s'.lastSnapshot = s.lastSnapshot)
    (hsm : s'.smLastSnapshot = s.smLastSnapshot) : StaticServer m s' where
  id := hid ▸ h.id
  config := hconf ▸ h.config
  peers := by rw [hpeers, hid]; exact h.peers
  sync := hsync
  join := hjoin
  down := hdown.trans h.down
  store := hstore
  snapshot := hsnp ▸ h.snapshot
  smSnapshot := hsm ▸ h.smSnapshot

theorem keeps (h : StaticServer m s) (hk : Keeps s s') (hjoin : s'.srvToJoin = none)
    (hdown : s'.stepsToDown = s.stepsToDown) : StaticServer m s' := by
  refine h.congr (hk.field Server.id) (hk.field Server.config) ?_ (fun p' hp' x hx => ?_) hjoin
    hdown (hk.field Server.logStore ▸ h.store) (hk.field Server.lastSnapshot)
    (hk.field Server.smLastSnapshot)
  · have := congrArg (List.map Peer.config) hk.peers
    rw [List.map_map, List.map_map] at this
    exact this
  · have hmem : p'.core ∈ s.peers.map Peer.core := hk.peers ▸ List.mem_map_of_mem hp'
    obtain ⟨p, hp, hcore⟩ := List.mem_map.1 hmem
    exact h.sync p hp x ((Peer.field_eq hcore Peer.snpSyncCtx).trans hx)

theorem quiet (h : StaticServer m s) (hq : Quiet s s') : StaticServer m s' := by
  refine h.keeps hq.keeps ?_ (hq.field Server.stepsToDown)
  have hjoin : s'.srvToJoin.map Peer.core = s.srvToJoin.map Peer.core :=
    congrArg Server.srvToJoin hq
  rwa [h.join, Option.map_none, Option.map_eq_none_iff] at hjoin

/-- An update of a peer that leaves who it is. -/
theorem onPeer (h : StaticServer m s) (uid : Nat) {f : Peer → Peer}
    (hf : ∀ p, (f p).config = p.config)
    (hsync : ∀ p ∈ s.peers, ∀ x, (f p).snpSyncCtx = some x → StaticSnapshot m x.snapshot) :
    StaticServer m (s.onPeer uid f) := by
  refine h.congr rfl rfl (peers_config_onPeer s uid hf) (fun p' hp' x hx => ?_) ?_ rfl h.store
    rfl rfl
  · obtain ⟨p, hp, rfl⟩ := List.mem_map.1 hp'
    split at hx
    · exact hsync p hp x hx
    · exact h.sync p hp x hx
  · simp [Server.onPeer, h.join]

theorem withStore (h : StaticServer m s) {st : LogStore} (hst : st.All (StaticEntry m)) :
    StaticServer m { s with logStore := st } :=
  h.congr rfl rfl rfl h.sync h.join rfl hst rfl rfl

theorem entryAt (h : StaticServer m s) (idx : Nat) : StaticEntry m (s.logStore.entryAt idx) :=
  h.store.entryAt staticEntry_placeholder idx

/-- A configuration that a static input offers is the static one. -/
theorem offers (h₀ : StaticServer m s₀) (hin : StaticInput m inp) {c : ClusterConfig}
    (hc : inp.Offers s₀ c) : c.servers = m.servers := by
  rcases hc with ⟨-, hbuf⟩ | ⟨snp, ⟨req, now, e, r, rfl, -, hes, hbuf, rfl⟩, rfl⟩ | hadmin
  · have := h₀.entryAt (s₀.smCommitIndex + 1)
    rwa [StaticEntry, hbuf] at this
  · have := hin.2 e (by simp [hes])
    rwa [StaticEntry, hbuf] at this
  · exact (hin.not_isAdmin hadmin).elim

end StaticServer

theorem snapshotConfig_static (h : StaticServer m s) {idx : Nat} {conf : ClusterConfig}
    (hconf : snapshotConfig s idx = .ok conf) : conf.servers = m.servers := by
  have hfind : ∀ fuel c, c.servers = m.servers →
      ∀ c', findConfig s.logStore idx fuel c = .ok c' → c'.servers = m.servers := by
    intro fuel
    induction fuel with
    | zero => intro c _ c' hc'; cases hc'
    | succ fuel ih =>
      intro c hc c' hc'
      unfold findConfig at hc'
      split at hc'
      · split at hc'
        next c₁ hbuf =>
          have := h.entryAt c.prevLogIdx
          rw [StaticEntry, hbuf] at this
          split at hc'
          · exact ih c₁ this c' hc'
          · cases hc'
        next => cases hc'
      · cases hc'; exact hc
  unfold snapshotConfig at hconf
  cases hc : findConfig s.logStore idx (s.nextSlot + 1) s.config with
  | error e => rw [hc] at hconf; cases hconf
  | ok c =>
    have hstatic := hfind _ _ h.config c hc
    simp only [hc, bind, Except.bind, pure, Except.pure] at hconf
    split at hconf
    · split at hconf
      next => cases hconf
      next snp hsnp => cases hconf; exact h.snapshot snp hsnp
    · split at hconf
      · cases hconf
      · cases hconf; exact hstatic

/-- The initial configuration entry names the static servers. -/
theorem StaticServer.saveInitialConfig (h : StaticServer m s) :
    StaticServer m (saveInitialConfig s) where
  id := h.id
  config := h.config
  peers := h.peers
  sync := h.sync
  join := h.join
  down := h.down
  store := h.store.append h.config
  snapshot := h.snapshot
  smSnapshot := h.smSnapshot

theorem StaticServer.takeLead (h : StaticServer m s) : StaticServer m (takeLead s) := by
  refine h.congr rfl rfl ?_ (fun p' hp' x hx => ?_) rfl rfl h.store rfl rfl
  · simp [EnclaveRaft.takeLead, resetPeer, Function.comp_def, Peer.setNextLogIdx,
      Peer.setSnapshotInSync, Peer.setFree, Peer.enableHb, Peer.resumeHbSpeed]
  · obtain ⟨p, -, rfl⟩ := List.mem_map.1 hp'
    cases hx

theorem StaticServer.becomeFollower (h : StaticServer m s) :
    StaticServer m (becomeFollower s) := by
  refine h.keeps (keeps_becomeFollower s) ?_ ((quiet_restartElectionTimer _).field stepsToDown)
  unfold EnclaveRaft.becomeFollower restartElectionTimer
  split <;> rfl

/-- Nothing that staticity looks at changes. -/
theorem StaticServer.same (h : StaticServer m s) (hid : s'.id = s.id)
    (hconf : s'.config = s.config) (hpeers : s'.peers = s.peers)
    (hjoin : s'.srvToJoin = s.srvToJoin) (hdown : s'.stepsToDown = s.stepsToDown)
    (hstore : s'.logStore = s.logStore) (hsnp : s'.lastSnapshot = s.lastSnapshot)
    (hsm : s'.smLastSnapshot = s.smLastSnapshot) : StaticServer m s' :=
  h.congr hid hconf (by rw [hpeers]) (by rw [hpeers]; exact h.sync) (hjoin.trans h.join) hdown
    (hstore ▸ h.store) hsnp hsm

theorem StaticServer.onSnapshotCompleted (h : StaticServer m s) {snp : Snapshot}
    (hsnp : StaticSnapshot m snp) :
    StaticServer m (onSnapshotCompleted ctx snp { s with smLastSnapshot := some snp }) where
  id := h.id
  config := h.config
  peers := h.peers
  sync := h.sync
  join := h.join
  down := h.down
  store := by
    unfold EnclaveRaft.onSnapshotCompleted
    dsimp only
    split
    · exact h.store.compact _
    · exact h.store
  snapshot := fun _ hx => by cases hx; exact hsnp
  smSnapshot := fun _ hx => by cases hx; exact hsnp

/-- The static configuration drops nobody. -/
theorem StaticServer.dropUnconfigured_eq (h : StaticServer m s) {c : ClusterConfig}
    (hc : c.servers = m.servers) : dropUnconfigured c s = s := by
  have hall : (s.peers.filter fun p => (c.getServer p.id).isSome) = s.peers := by
    refine List.filter_eq_self.2 fun p hp => ?_
    rw [ClusterConfig.getServer_isSome, ClusterConfig.ids, hc]
    exact (h.peer_mem hp).1
  unfold EnclaveRaft.dropUnconfigured
  rw [hall]

/-- The static configuration adds nobody. -/
theorem StaticServer.added_eq_nil (h : StaticServer m s) {c : ClusterConfig}
    {added : List SrvConfig} (hc : c.servers = m.servers) (hadded : ∀ srv ∈ added, srv ∈ c.servers)
    (hnew : ∀ srv ∈ added, (s.findPeer srv.id).isNone ∧ srv.id ≠ s.id) : added = [] := by
  refine List.eq_nil_iff_forall_not_mem.2 fun srv hsrv => ?_
  have hsome := h.findPeer_isSome (hc ▸ hadded srv hsrv) (hnew srv hsrv).2
  rw [Option.isNone_iff_eq_none.1 (hnew srv hsrv).1] at hsome
  cases hsome

/-- **A static server stays static.** -/
theorem StaticServer.micro (h : StaticServer m s) (h₀ : StaticServer m s₀)
    (hin : StaticInput m inp) (hm : Micro ctx inp s₀ s o s') : StaticServer m s' := by
  have hext := hin.not_isExt
  cases hm with
  | quiet hq => exact h.quiet hq
  | note => exact h
  | enterTerm =>
    exact StaticServer.becomeFollower (h.same rfl rfl rfl rfl rfl rfl rfl rfl)
  | stepDown => exact h.becomeFollower
  | stand => exact h.same rfl rfl rfl rfl rfl rfl rfl rfl
  | standWin => exact StaticServer.takeLead (h.same rfl rfl rfl rfl rfl rfl rfl rfl)
  | grant => exact h.same rfl rfl rfl rfl rfl rfl rfl rfl
  | tally => exact h.same rfl rfl rfl rfl rfl rfl rfl rfl
  | tallyWin => exact StaticServer.takeLead (h.same rfl rfl rfl rfl rfl rfl rfl rfl)
  | sendVote => exact h
  | saveInitial => exact h.saveInitialConfig
  | client hreq _ he =>
    subst hreq
    have hentry := hin.2 _ he
    exact h.withStore (h.store.append hentry)
  | aim =>
    refine h.onPeer _ (fun p => ?_) fun p hp x hx => h.sync p hp x ?_
    · split <;> rfl
    · split at hx <;> exact hx
  | sendAppend => exact h
  | startSync hsnp =>
    refine h.onPeer _ (fun _ => rfl) fun p _ x hx => ?_
    cases hx
    exact h.snapshot _ hsnp
  | sendSnapshot => exact h
  | ack => exact h.onPeer _ (fun _ => rfl) h.sync
  | nack =>
    refine h.onPeer _ (fun p => ?_) fun p hp x hx => h.sync p hp x ?_
    · unfold moveBack; split <;> rfl
    · unfold moveBack at hx; split at hx <;> exact hx
  | snapshotAck _ hp hsync hf =>
    rcases hf with rfl | rfl
    · refine h.onPeer _ (fun _ => rfl) fun p _ x hx => ?_
      cases hx
    · refine h.onPeer _ (fun _ => rfl) fun p _ x hx => ?_
      cases hx
      exact (h.sync _ (List.mem_of_find?_eq_some hp) _ hsync : StaticSnapshot m _)
  | merge hreq _ _ _ _ _ hes =>
    subst hreq hes
    refine h.congr rfl rfl rfl h.sync h.join rfl (written_all (fun e he => ?_) h.store _) rfl rfl
    exact hin.2 e (mem_of_reached he)
  | commitMajority => exact h.same rfl rfl rfl rfl rfl rfl rfl rfl
  | commitAlone => exact h.same rfl rfl rfl rfl rfl rfl rfl rfl
  | commitFollower => exact h.same rfl rfl rfl rfl rfl rfl rfl rfl
  | process => exact h.same rfl rfl rfl rfl rfl rfl rfl rfl
  | confApplied => exact h.same rfl rfl rfl rfl rfl rfl rfl rfl
  | caughtUp => exact h.same rfl rfl rfl rfl rfl rfl rfl rfl
  | snapshot _ _ _ _ _ hconf hsnp =>
    exact h.onSnapshotCompleted (hsnp ▸ snapshotConfig_static h hconf)
  | addConfigured hc hadded hnew =>
    rw [h.added_eq_nil (h₀.offers hin hc) hadded hnew]
    exact h
  | dropUnconfigured hc =>
    rw [h.dropUnconfigured_eq (h₀.offers hin hc)]
    exact h
  | setConfig hc =>
    exact ⟨h.id, h₀.offers hin hc, h.peers, h.sync, h.join, h.down, h.store, h.snapshot,
      h.smSnapshot⟩
  | installCompact => exact h.withStore (h.store.compact _)
  | installApply hsnp =>
    refine ⟨h.id, h.config, h.peers, h.sync, h.join, h.down, h.store, h.snapshot, ?_⟩
    rintro _ ⟨⟩
    exact h₀.offers hin (.inr (.inl ⟨_, hsnp, rfl⟩))
  | installDone hsnp =>
    refine ⟨h.id, h.config, h.peers, h.sync, h.join, h.down, h.store, ?_, h.smSnapshot⟩
    rintro _ ⟨⟩
    exact h.config
  | countdown hdown => exact (hdown.ne' h.down).elim
  | leaveConfig _ hdown => exact (hdown.ne' h₀.down).elim
  | joinProgress hin' => exact (hext hin').elim
  | dropOnly hin' => exact (hext hin').elim
  | abandon _ hin' => exact (hext hin').elim
  | invite hreq htype | leaving hreq htype | join hreq htype | pack hreq htype
  | packCommit hreq htype => subst hreq; simp [StaticInput, htype] at hin
  | confAppend hc => exact (hext (isExt_of_newConfig (by rw [hc]; rfl))).elim
  | sendExt => exact h
  | retry => exact h
  | resend => exact h

/-- What a static server sends is static. -/
theorem StaticServer.sends (h : StaticServer m s) (hin : StaticInput m inp)
    (hm : Micro ctx inp s₀ s o s') {rpc : Rpc} (hrpc : .send rpc ∈ o) : StaticRpc m rpc := by
  cases hm with
  | sendVote _ _ _ hp _ =>
    cases List.mem_singleton.1 hrpc
    exact ⟨rfl, h.id, (h.peer_mem hp).1, .inr (.inl rfl), nofun⟩
  | sendAppend _ hmsg =>
    cases List.mem_singleton.1 hrpc
    obtain ⟨p, t, es, hp, -, -, -, hes, rfl⟩ := hmsg
    refine ⟨rfl, h.id, (h.peer_mem (h.object_mem hp)).1, .inl rfl, ?_⟩
    unfold entriesAfter at hes
    split at hes
    · cases hes; exact nofun
    · exact h.store.logEntries staticEntry_placeholder hes
  | sendSnapshot hrole hmsg =>
    cases List.mem_singleton.1 hrpc
    obtain ⟨p, sync, e, r, hp, hsync, htype, -, hsrc, hdst, hes, hbuf, hsnp⟩ := hmsg
    have hmem := h.object_mem hp
    obtain ⟨-, rfl, rfl⟩ := hrole.resolve_right hin.not_isExt
    refine ⟨rfl, hsrc ▸ h.id, ?_, .inr (.inr htype), ?_⟩
    · exact hdst ▸ (h.peer_mem hmem).1
    · rw [hes]
      intro e' he'
      cases List.mem_singleton.1 he'
      rw [StaticEntry, hbuf]
      exact (congrArg (StaticSnapshot m) hsnp).mpr (h.sync p hmem sync hsync)
  | note he => cases List.mem_singleton.1 hrpc; exact he.elim
  | merge => exact (writtenOut_inert _ hrpc).elim
  | sendExt hin' => exact (hin.not_isAdmin hin').elim
  | resend hin' => subst hin'; exact hin.elim
  | client => cases List.mem_singleton.1 hrpc
  | process => cases List.mem_singleton.1 hrpc
  | retry => cases List.mem_singleton.1 hrpc
  | _ => cases hrpc

/-- A static server schedules no retries. -/
theorem StaticInput.no_retry (hin : StaticInput m inp) (hm : Micro ctx inp s₀ s o s') :
    o.filterMap Effect.retried = [] := by
  refine List.filterMap_eq_nil_iff.2 fun e he => ?_
  cases hm with
  | note hinert =>
    cases List.mem_singleton.1 he
    cases e <;> first | rfl | exact hinert.elim
  | merge =>
    have := writtenOut_inert e he
    cases e <;> first | rfl | exact this.elim
  | retry _ hext => exact (hin.not_isExt hext).elim
  | _ => first | cases he; done | (cases List.mem_singleton.1 he; rfl)

/-! ## Static clusters -/

/-- Every server and every message is static. -/
structure StaticCluster (m : Members) (c : Cluster) : Prop where
  id : ∀ i ∈ m.ids, (c.servers i).id = i
  server : ∀ i ∈ m.ids, StaticServer m (c.servers i)
  rpc : ∀ rpc ∈ c.rpcs, StaticRpc m rpc
  retries : c.retries = []
  numbered : c.Numbered

/-- Events of a static cluster: they concern its servers and are no membership requests. -/
def Event.Static (m : Members) : Event → Prop
  | electionTimeout i => i ∈ m.ids
  | hbTimeout i _ => i ∈ m.ids
  | client i _ _ => i ∈ m.ids
  | commitBg i => i ∈ m.ids
  | addServer _ _ => False
  | removeServer _ _ => False
  | _ => True

instance Event.decidableStatic (m : Members) : (e : Event) → Decidable (e.Static m)
  | electionTimeout i => inferInstanceAs (Decidable (i ∈ m.ids))
  | hbTimeout i _ => inferInstanceAs (Decidable (i ∈ m.ids))
  | client i _ _ => inferInstanceAs (Decidable (i ∈ m.ids))
  | commitBg i => inferInstanceAs (Decidable (i ∈ m.ids))
  | addServer _ _ => instDecidableFalse
  | removeServer _ _ => instDecidableFalse
  | deliver _ _ => instDecidableTrue
  | respond _ _ => instDecidableTrue
  | fail _ => instDecidableTrue
  | resend _ => instDecidableTrue

namespace StaticCluster

variable {c : Cluster} {i : Int}

theorem update (h : StaticCluster m c) (hi : i ∈ m.ids) (h₀ : StaticServer m s₀)
    (hin : StaticInput m inp) (hm : Micro ctx inp s₀ (c.servers i) o s') :
    StaticCluster m (c.update i s' o) where
  id j hj := by
    by_cases hji : j = i
    · subst hji
      simpa using hm.id_eq.trans (h.id j hj)
    · simpa [Cluster.update, hji] using h.id j hj
  server j hj := by
    by_cases hji : j = i
    · subst hji
      simpa using (h.server j hj).micro h₀ hin hm
    · simpa [Cluster.update, hji] using h.server j hj
  rpc r hr := by
    rcases List.mem_append.1 hr with hr | hr
    · exact h.rpc r hr
    · obtain ⟨e, he, hsent⟩ := List.mem_filterMap.1 hr
      cases e <;> cases hsent
      exact (h.server i hi).sends hin hm he
  retries := by simp [Cluster.update, h.retries, hin.no_retry hm]
  numbered := h.numbered.update i s' o

theorem answer (h : StaticCluster m c) {k : Nat} {rpc : Rpc} (hk : c.rpcs[k]? = some rpc)
    (resp : RespMsg) : StaticCluster m (c.answer k resp) :=
  ⟨h.id, h.server, h.rpc, h.retries, h.numbered.answer hk resp⟩

/-- The inputs of a static cluster are static. -/
theorem input (h : StaticCluster m c) {e : Event} (he : e.Static m) {k : Option Nat}
    (hin : e.input c = some (i, inp, k)) : i ∈ m.ids ∧ StaticInput m inp := by
  have hrpc : ∀ {n : Nat} {rpc : Rpc}, c.rpcs[n]? = some rpc → StaticRpc m rpc :=
    fun hn => h.rpc _ (List.mem_of_getElem? hn)
  cases e with
  | electionTimeout j => cases hin; exact ⟨he, trivial⟩
  | hbTimeout j uid => cases hin; exact ⟨he, trivial⟩
  | client j logs now =>
    cases hin
    refine ⟨he, .inr (.inr (.inr rfl)), fun e he => ?_⟩
    obtain ⟨b, -, rfl⟩ := List.mem_map.1 he
    trivial
  | addServer j srv => exact he.elim
  | removeServer j id => exact he.elim
  | deliver n now =>
    obtain ⟨rpc, hn, heq⟩ := Option.map_eq_some_iff.1 hin
    cases heq
    refine ⟨(hrpc hn).dst, ?_, (hrpc hn).entries⟩
    rcases (hrpc hn).type with h | h | h <;> simp [h]
  | respond n now =>
    simp only [Event.input, Option.bind_eq_bind, Option.bind_eq_some_iff] at hin
    obtain ⟨⟨l, resp⟩, -, rpc, hn, heq⟩ := hin
    cases heq
    exact ⟨(hrpc hn).src, (hrpc hn).handler⟩
  | fail n =>
    obtain ⟨rpc, hn, heq⟩ := Option.map_eq_some_iff.1 hin
    cases heq
    exact ⟨(hrpc hn).src, (hrpc hn).handler⟩
  | resend n =>
    obtain ⟨rpc, hn, -⟩ := Option.map_eq_some_iff.1 hin
    simp [h.retries] at hn
  | commitBg j => cases hin; exact ⟨he, trivial⟩

end StaticCluster

/-- In an event that began in `c₀`, server `i` of the static cluster handles `inp`. -/
structure Turn (m : Members) (c₀ c : Cluster) (i : Int) (inp : Input) : Prop where
  start : StaticCluster m c₀
  static : StaticCluster m c
  grows : c₀.Grows c
  mem : i ∈ m.ids
  input : StaticInput m inp
  sent : c₀.Legit i inp

theorem Turn.legit {c₀ c : Cluster} {i : Int} (h : Turn m c₀ c i inp) : c.Legit i inp :=
  h.sent.mono h.grows

/-- **Invariants of static clusters.** What the small steps and the responses of static servers
keep in an event that begins in `c`, the event keeps. `K` is what it may assume of its input. -/
theorem static_step {c : Cluster} {e : Event} {J : Cluster → Prop}
    {K : Cluster → Int → Input → Prop} (he : e.Static m) (hK : e.Allowed K c)
    (hc : StaticCluster m c) (hJ : J c)
    (hmicro : ∀ c' i inp o s', Turn m c c' i inp → K c i inp → J c' →
      Micro ctx inp (c.servers i) (c'.servers i) o s' → J (c'.update i s' o))
    (hresp : ∀ c' rpc now k resp, Turn m c c' rpc.target (.request rpc.req now) →
      K c rpc.target (.request rpc.req now) → J c' → c'.rpcs[k]? = some rpc →
      Replied (c.servers rpc.target) rpc.req resp (c'.servers rpc.target) →
      J (c'.answer k resp)) :
    StaticCluster m (c.step ctx e) ∧ J (c.step ctx e) := by
  refine Cluster.inv_step (I := fun c => StaticCluster m c ∧ J c) ?_ ?_ ⟨hc, hJ⟩
  · rintro c' i inp k o s' hin hg - ⟨hs, hJ⟩ hm
    obtain ⟨hi, hinput⟩ := hc.input he hin
    have ht : Turn m c c' i inp := ⟨hc, hs, hg, hi, hinput, (Cluster.legit_of_input hin).1⟩
    exact ⟨hs.update hi (hc.server i hi) hinput hm,
      hmicro c' i inp o s' ht (hK i inp k hin) hJ hm⟩
  · rintro c' rpc now n resp hin hg - ⟨hs, hJ⟩ hrpc hrep
    obtain ⟨hi, hinput⟩ := hc.input he hin
    have ht : Turn m c c' rpc.target (.request rpc.req now) :=
      ⟨hc, hs, hg, hi, hinput, (Cluster.legit_of_input hin).1⟩
    exact ⟨hs.answer hrpc resp, hresp c' rpc now n resp ht (hK _ _ _ hin) hJ hrpc hrep⟩

/-- In an event only the server that gets its input changes. -/
theorem static_step_alone {c : Cluster} {e : Event} {J : Cluster → Prop}
    {K : Cluster → Int → Input → Prop} (he : e.Static m) (hK : e.Allowed K c)
    (hc : StaticCluster m c) (hJ : J c)
    (hmicro : ∀ c' i inp o s', Turn m c c' i inp → K c i inp →
      (∀ j, j ≠ i → c'.servers j = c.servers j) → J c' →
      Micro ctx inp (c.servers i) (c'.servers i) o s' → J (c'.update i s' o))
    (hresp : ∀ c' rpc now k resp, Turn m c c' rpc.target (.request rpc.req now) →
      K c rpc.target (.request rpc.req now) → J c' → c'.rpcs[k]? = some rpc →
      Replied (c.servers rpc.target) rpc.req resp (c'.servers rpc.target) →
      J (c'.answer k resp)) :
    StaticCluster m (c.step ctx e) ∧ J (c.step ctx e) := by
  cases hin : e.input c with
  | none =>
    have hsame : c.step ctx e = c := by
      unfold Cluster.step
      rw [hin]
    rw [hsame]
    exact ⟨hc, hJ⟩
  | some x =>
    obtain ⟨i₀, inp₀, k₀⟩ := x
    have hstep : StaticCluster m (c.step ctx e) ∧
        (J (c.step ctx e) ∧ ∀ j, j ≠ i₀ → (c.step ctx e).servers j = c.servers j) := by
      refine static_step (J := fun c' => J c' ∧ ∀ j, j ≠ i₀ → c'.servers j = c.servers j)
        (K := fun c i inp => K c i inp ∧ i = i₀) he ?_ hc ⟨hJ, fun _ _ => rfl⟩ ?_ ?_
      · intro i inp k h
        cases hin.symm.trans h
        exact ⟨hK _ _ _ h, rfl⟩
      · rintro c' i inp o s' ht ⟨hKi, rfl⟩ ⟨hJ', hsame⟩ hm
        refine ⟨hmicro c' i inp o s' ht hKi hsame hJ' hm, fun j hj => ?_⟩
        exact (if_neg hj).trans (hsame j hj)
      · rintro c' rpc now k resp ht ⟨hKi, hi⟩ ⟨hJ', hsame⟩ hk hrep
        exact ⟨hresp c' rpc now k resp ht hKi hJ' hk hrep, hsame⟩
    exact ⟨hstep.1, hstep.2.1⟩

/-! ## The start -/

/-- What a static server starts from. -/
structure StaticBoot (m : Members) (b : Boot) : Prop where
  config : b.config.servers = m.servers
  store : b.logStore.All (StaticEntry m)
  snapshot : ∀ snp, b.snapshot = some snp → StaticSnapshot m snp

theorem addPeers_frame (ctx : Context) (srvs : List SrvConfig) (s : Server) :
    ∃ ps n, s.addPeers ctx srvs = { s with peers := ps, nextUid := n } := by
  induction srvs generalizing s with
  | nil => exact ⟨_, _, rfl⟩
  | cons srv srvs ih =>
    unfold addPeers addPeer
    dsimp only
    split
    · exact ih s
    · split
      · exact ih { s with nextUid := s.nextUid + 1 }
      · exact ih { s with peers := s.peers ++ [_], nextUid := s.nextUid + 1 }

/-- A new server, up to its timer and its peers. -/
theorem new_frame (ctx : Context) (i : Int) (b : Boot) :
    ∃ ps n, Quiet { load i b with peers := ps, nextUid := n } (Server.new ctx i b) := by
  obtain ⟨ps, n, h⟩ := addPeers_frame ctx b.config.servers (load i b)
  refine ⟨ps, n, ?_⟩
  unfold Server.new
  rw [h]
  exact quiet_restartElectionTimer _

/-- The constructor creates a new peer object for every other server. -/
theorem addPeers_eq (ctx : Context) (srvs : List SrvConfig) (s : Server)
    (hnd : (srvs.map SrvConfig.id).Nodup)
    (hnew : ∀ srv ∈ srvs, ∀ p ∈ s.peers, p.id ≠ srv.id) :
    ∃ ps n, s.addPeers ctx srvs = { s with peers := s.peers ++ ps, nextUid := n } ∧
      ps.map Peer.config = srvs.filter (fun srv => srv.id ≠ s.id) ∧
      (∀ p ∈ ps, p = Peer.new ctx p.uid p.config ∧ s.nextUid ≤ p.uid) ∧
      (ps.map Peer.uid).Nodup := by
  induction srvs generalizing s with
  | nil => exact ⟨[], s.nextUid, by simp [addPeers], rfl, by simp, List.nodup_nil⟩
  | cons srv srvs ih =>
    rw [List.map_cons, List.nodup_cons] at hnd
    unfold addPeers
    by_cases hself : srv.id = s.id
    · obtain ⟨ps, n, h⟩ := ih s hnd.2 fun srv' h' => hnew srv' (List.mem_cons_of_mem _ h')
      rw [if_pos hself, List.filter_cons_of_neg (by simp [hself])]
      exact ⟨ps, n, h⟩
    · let p := Peer.new ctx s.nextUid srv
      have hpid : p.id = srv.id := rfl
      have hadd : s.addPeer p = { s with peers := s.peers ++ [p] } := by
        refine if_neg ?_
        rw [Option.not_isSome_iff_eq_none, findPeer, List.find?_eq_none]
        exact fun q hq => by simpa [hpid] using hnew srv List.mem_cons_self q hq
      obtain ⟨ps, n, heq, hconf, hps, huid⟩ := ih
        { s with peers := s.peers ++ [p], nextUid := s.nextUid + 1 } hnd.2 fun srv' h' q hq => by
          rcases List.mem_append.1 hq with hq | hq
          · exact hnew srv' (List.mem_cons_of_mem _ h') q hq
          · rw [List.mem_singleton.1 hq]
            exact fun h => hnd.1 (hpid ▸ h ▸ List.mem_map_of_mem h')
      rw [if_neg hself, hadd, heq, List.filter_cons_of_pos (by simpa using hself)]
      have hlater : ∀ q ∈ ps, s.nextUid + 1 ≤ q.uid := fun q hq => (hps q hq).2
      refine ⟨p :: ps, n, by simp, by simp [hconf, p, Peer.new], ?_, ?_⟩
      · rw [List.forall_mem_cons]
        exact ⟨⟨rfl, le_rfl⟩, fun q hq => ⟨(hps q hq).1, (Nat.le_succ _).trans (hlater q hq)⟩⟩
      · rw [List.map_cons, List.nodup_cons]
        refine ⟨fun hmem => ?_, huid⟩
        obtain ⟨q, hq, hquid⟩ := List.mem_map.1 hmem
        have huid : q.uid = s.nextUid := hquid
        have := hlater q hq
        omega

/-- A static server at its start. -/
theorem StaticBoot.new (ctx : Context) {b : Boot} (h : StaticBoot m b) (i : Int) :
    ∃ ps n, Quiet { load i b with peers := ps, nextUid := n } (Server.new ctx i b) ∧
      ps.map Peer.config = m.others i ∧ (∀ p ∈ ps, p = Peer.new ctx p.uid p.config) ∧
      (ps.map Peer.uid).Nodup := by
  obtain ⟨ps, n, heq, hconf, hps, huid⟩ := addPeers_eq ctx b.config.servers (load i b)
    (h.config ▸ m.nodup) (fun _ _ p hp => by cases hp)
  refine ⟨ps, n, ?_, ?_, fun p hp => (hps p hp).1, huid⟩
  · unfold Server.new
    rw [heq, show (load i b).peers ++ ps = ps from List.nil_append ps]
    exact quiet_restartElectionTimer _
  · rw [hconf, h.config]
    rfl

theorem StaticBoot.server {b : Boot} (h : StaticBoot m b) {i : Int} (hi : i ∈ m.ids) :
    StaticServer m (Server.new ctx i b) := by
  obtain ⟨ps, n, hq, hconf, hps, -⟩ := h.new ctx i
  have hload : StaticServer m { load i b with peers := ps, nextUid := n } :=
    { id := hi
      config := h.config
      peers := hconf
      sync := fun p hp x hx => by rw [hps p hp] at hx; cases hx
      join := rfl
      down := rfl
      store := h.store
      snapshot := h.snapshot
      smSnapshot := h.snapshot }
  exact hload.quiet hq

theorem staticCluster_start {b : Int → Boot} (hb : ∀ i ∈ m.ids, StaticBoot m (b i)) :
    StaticCluster m (Cluster.start ctx b) where
  id i hi := by
    obtain ⟨ps, n, hq, -⟩ := (hb i hi).new ctx i
    exact hq.field Server.id
  server i hi := (hb i hi).server hi
  rpc _ hr := (List.not_mem_nil hr).elim
  retries := rfl
  numbered _ hr := (List.not_mem_nil hr).elim

end EnclaveRaft
