import EnclaveRaft.Intact
import EnclaveRaft.Membership
import EnclaveRaft.Static

/-!
# Where payloads come from

Entries of the application enter the cluster through clients' requests. From there on they are
stored, sent in append requests and in log packs, and stored again. What holds for the payload of
every client request, and for the placeholder at index 0 that stands for missing entries, therefore
holds for every payload that the state machine is given, on any server and in any run.

The small steps say where entries of append requests come from, but not what is in a log pack.
`packs_handle` adds that: a pack holds entries of the log of the server that sends it.
-/

namespace EnclaveRaft

open Act Server LogStore

variable {P : Payload → Prop} {ctx : Context} {inp : Input} {s₀ s s' : Server} {o : List Effect}

/-- An entry of the application has a payload with `P`. -/
def LogEntry.Fine (P : Payload → Prop) (e : LogEntry) : Prop := e.valType = .appLog → P e.buf

/-- What the request can add to a log is fine. -/
def ReqMsg.Carries (P : Payload → Prop) (req : ReqMsg) : Prop :=
  match req.type with
  | .appendEntriesRequest => ∀ e ∈ req.logEntries, e.Fine P
  -- the leader gives every entry of a client to the state machine, whatever its type
  | .clientRequest => ∀ e ∈ req.logEntries, P e.buf
  | .syncLogRequest => ∀ es ∈ req.pack?, ∀ x ∈ es, x.2.1 = .appLog → P x.2.2
  | _ => True

/-- The input is not a request, or one that carries nothing but fine entries. -/
def Input.Carries (P : Payload → Prop) : Input → Prop
  | .request req _ => req.Carries P
  | _ => True

/-- A payload that the state machine is given has `P`. -/
def Effect.Hands (P : Payload → Prop) : Effect → Prop
  | .preCommit _ buf | .rollback _ buf | .commit _ buf => P buf
  | _ => True

theorem ReqMsg.Carries.entries {req : ReqMsg} (h : req.Carries P)
    (htype : req.type = .appendEntriesRequest) : ∀ e ∈ req.logEntries, e.Fine P := by
  simpa only [ReqMsg.Carries, htype] using h

theorem ReqMsg.Carries.client {req : ReqMsg} (h : req.Carries P)
    (htype : req.type = .clientRequest) : ∀ e ∈ req.logEntries, P e.buf := by
  simpa only [ReqMsg.Carries, htype] using h

theorem ReqMsg.Carries.packed {req : ReqMsg} (h : req.Carries P)
    (htype : req.type = .syncLogRequest) {es : List (Nat × LogValType × Payload)}
    (hes : req.pack? = some es) : ∀ x ∈ es, x.2.1 = .appLog → P x.2.2 := by
  simp only [ReqMsg.Carries, htype] at h
  exact h es hes

/-! ## Logs -/

theorem LogStore.All.applyPack {st : LogStore} (h : st.All (LogEntry.Fine P)) (idx : Nat)
    {es : List (Nat × LogValType × Payload)} (hes : ∀ x ∈ es, x.2.1 = .appLog → P x.2.2) :
    (st.applyPack idx es).All (LogEntry.Fine P) := by
  have hfold : ∀ (l : List ((Nat × LogValType × Payload) × Nat)) (m : List (Nat × LogEntry)),
      (∀ x ∈ l, x.1.2.1 = .appLog → P x.1.2.2) → (∀ p ∈ m, p.2.Fine P) →
      ∀ p ∈ l.foldl (fun m e => OrderedMap.put e.2 ⟨e.1.1, e.1.2.1, e.1.2.2⟩ m) m, p.2.Fine P := by
    intro l
    induction l with
    | nil => exact fun _ _ hm => hm
    | cons x l ih =>
      intro m hl hm
      rw [List.forall_mem_cons] at hl
      refine ih _ hl.2 fun p hp => ?_
      rcases OrderedMap.mem_put hp with rfl | hp
      · exact hl.1
      · exact hm p hp
  exact hfold _ _ (fun x hx => hes x.1 (List.fst_mem_of_mem_zipIdx hx)) h

/-- Everything in the result comes from an element of the list. -/
theorem mem_of_mapM {α β : Type} {f : α → Option β} {l : List α} {ys : List β}
    (h : l.mapM f = some ys) : ∀ y ∈ ys, ∃ x ∈ l, f x = some y := by
  induction l generalizing ys with
  | nil =>
    cases h
    simp
  | cons a l ih =>
    simp only [List.mapM_cons, Option.bind_eq_bind, Option.bind_eq_some_iff] at h
    obtain ⟨b, hb, bs, hbs, hys⟩ := h
    cases hys
    intro y hy
    rcases List.mem_cons.1 hy with rfl | hy
    · exact ⟨a, List.mem_cons_self, hb⟩
    · obtain ⟨x, hx, hy⟩ := ih hbs y hy
      exact ⟨x, List.mem_cons_of_mem a hx, hy⟩

theorem LogStore.All.pack {st : LogStore} (h : st.All (LogEntry.Fine P)) {i : Nat} {c : Int}
    {es : List (Nat × LogValType × Payload)} (hes : st.pack i c = some es) :
    ∀ x ∈ es, x.2.1 = .appLog → P x.2.2 := by
  unfold LogStore.pack at hes
  split at hes
  · cases hes
  · intro x hx
    obtain ⟨j, -, hj⟩ := mem_of_mapM hes x hx
    obtain ⟨e, he, rfl⟩ := Option.map_eq_some_iff.1 hj
    exact h.lookup he

/-- A call that is made for application entries only, with the entry's payload. -/
theorem hands_app {e : LogEntry} {x : Effect} (he : e.Fine P) (hx : P e.buf → x.Hands P) :
    ∀ y ∈ (if e.valType = .appLog then [x] else []), y.Hands P := by
  split
  next happ => simpa using hx (he happ)
  next => simp

theorem hands_noteOut {idx : Nat} {e : LogEntry} (he : e.Fine P) :
    ∀ x ∈ noteOut idx e, x.Hands P := hands_app he id

theorem hands_revertOut {idx : Nat} {e : LogEntry} (he : e.Fine P) :
    ∀ x ∈ revertOut idx e, x.Hands P := hands_app he id

theorem hands_appliedOut {idx : Nat} {e : LogEntry} (he : e.Fine P) :
    ∀ x ∈ appliedOut idx e, x.Hands P := hands_app he id

theorem hands_overwrittenOut (h0 : P placeholder.buf) {es : List LogEntry}
    (hes : ∀ e ∈ es, e.Fine P) {st : LogStore} (h : st.All (LogEntry.Fine P)) (idx : Nat) :
    ∀ x ∈ overwrittenOut st idx es, x.Hands P := by
  induction es generalizing st idx with
  | nil => simp [overwrittenOut]
  | cons e es ih =>
    rw [List.forall_mem_cons] at hes
    intro x hx
    unfold overwrittenOut at hx
    split at hx
    · simp only [List.mem_append] at hx
      rcases hx with hx | hx | hx
      · exact hands_revertOut (h.entryAt (fun _ => h0) idx) x hx
      · exact hands_noteOut hes.1 x hx
      · exact ih hes.2 (h.writeAt idx hes.1) (idx + 1) x hx
    · cases hx

theorem hands_appendedOut {es : List LogEntry} (hes : ∀ e ∈ es, e.Fine P) (st : LogStore) :
    ∀ x ∈ appendedOut st es, x.Hands P := by
  induction es generalizing st with
  | nil => simp [appendedOut]
  | cons e es ih =>
    rw [List.forall_mem_cons] at hes
    intro x hx
    rcases List.mem_append.1 hx with hx | hx
    · exact hands_noteOut hes.1 x hx
    · exact ih hes.2 _ x hx

/-- An append request hands over its own entries, and those that it replaces. -/
theorem hands_writtenOut (h0 : P placeholder.buf) {es : List LogEntry}
    (hes : ∀ e ∈ es, e.Fine P) {st : LogStore} (h : st.All (LogEntry.Fine P)) (k : Nat) :
    ∀ x ∈ writtenOut st k es, x.Hands P := by
  have hrest := fun e he => hes e (skipMatching_subset st (k + 1) es he)
  intro x hx
  rcases List.mem_append.1 hx with hx | hx
  · exact hands_overwrittenOut h0 hrest h _ x hx
  · exact hands_appendedOut (overwritten_all hrest h _).2 _ x hx

theorem entriesAfter_fine (h0 : P placeholder.buf) (h : s.logStore.All (LogEntry.Fine P))
    {k : Nat} {es : List LogEntry} (hes : entriesAfter ctx s k = some es) :
    ∀ e ∈ es, e.Fine P := by
  unfold entriesAfter at hes
  split at hes
  · cases hes
    simp
  · exact h.logEntries (fun _ => h0) hes

/-! ## Small steps -/

/-- **Logs.** A small step on a fine log leaves a fine log. -/
theorem Micro.fine (hm : Micro ctx inp s₀ s o s') (hin : inp.Carries P)
    (h : s.logStore.All (LogEntry.Fine P)) : s'.logStore.All (LogEntry.Fine P) := by
  cases hm with
  | saveInitial => exact h.append nofun
  | confAppend => exact h.append nofun
  | client hreq htype he =>
    subst hreq
    have hbuf := ReqMsg.Carries.client hin htype _ he
    exact h.append fun _ => hbuf
  | merge hreq htype _ _ _ _ hes =>
    subst hreq hes
    exact written_all (fun e he => ReqMsg.Carries.entries hin htype e (mem_of_reached he)) h _
  | pack hreq htype _ _ hentry =>
    subst hreq
    exact h.applyPack _ (ReqMsg.Carries.packed hin htype (ReqMsg.pack?_eq_some hentry))
  | snapshot =>
    unfold onSnapshotCompleted
    dsimp only
    split
    · exact h.compact _
    · exact h
  | installCompact => exact h.compact _
  | quiet hq => exact hq.field Server.logStore ▸ h
  | enterTerm => exact (keeps_enterTerm _ s).field Server.logStore ▸ h
  | stepDown => exact (keeps_becomeFollower s).field Server.logStore ▸ h
  | addConfigured =>
    obtain ⟨ps, j, n, hfold⟩ := foldl_addConfigured_frame ctx _ s
    rw [hfold]
    exact h
  | dropOnly =>
    obtain ⟨ps, -, hdrop⟩ := dropOnlyPeer_frame _ s
    rw [hdrop]
    exact h
  | _ => exact h

/-- The calls of a small step, other than those of the background thread. -/
theorem Micro.hands (h0 : P placeholder.buf) (hm : Micro ctx inp s₀ s o s') (hin : inp.Carries P)
    (h : s.logStore.All (LogEntry.Fine P)) (hbg : inp ≠ .commitBg) : ∀ e ∈ o, e.Hands P := by
  intro e he
  cases hm with
  | note _ hnotes =>
    cases List.mem_singleton.1 he
    cases e with
    | preCommit | rollback => exact hnotes.elim
    | commit => exact (hbg hnotes).elim
    | _ => trivial
  | client hreq htype hmem =>
    subst hreq
    cases List.mem_singleton.1 he
    exact ReqMsg.Carries.client hin htype _ hmem
  | merge hreq htype _ _ _ _ hes =>
    subst hreq hes
    exact hands_writtenOut h0
      (fun e he => ReqMsg.Carries.entries hin htype e (mem_of_reached he)) h _ e he
  | _ => first | cases he; done | (cases List.mem_singleton.1 he; trivial)

/-- A request that a small step sends carries fine entries, or is a log pack, or was sent before. -/
theorem Micro.sends_fine (h0 : P placeholder.buf) (hm : Micro ctx inp s₀ s o s')
    (h : s.logStore.All (LogEntry.Fine P)) {rpc : Rpc} (hrpc : .send rpc ∈ o) :
    rpc.creator.logStore.All (LogEntry.Fine P) ∧ (rpc.req.Carries P ∨
      (inp.IsAdmin ∧ rpc.req.type = .syncLogRequest) ∨
      ∃ rpc', inp = .resend rpc' ∧ rpc'.req = rpc.req) := by
  cases hm with
  | sendVote =>
    cases List.mem_singleton.1 hrpc
    exact ⟨h, .inl trivial⟩
  | sendAppend _ hmsg =>
    cases List.mem_singleton.1 hrpc
    obtain ⟨p, t, es, -, -, -, -, hes, rfl⟩ := hmsg
    exact ⟨h, .inl (entriesAfter_fine h0 h hes)⟩
  | sendSnapshot _ hmsg =>
    cases List.mem_singleton.1 hrpc
    obtain ⟨p, sync, e, r, -, -, ht, -⟩ := hmsg
    exact ⟨h, .inl (by simp [ReqMsg.Carries, ht])⟩
  | sendExt hin hp =>
    cases List.mem_singleton.1 hrpc
    rcases hp with ⟨-, ht | ht⟩ | ⟨-, ht⟩
    · exact ⟨h, .inl (by simp [ReqMsg.Carries, ht])⟩
    · exact ⟨h, .inr (.inl ⟨hin, ht⟩)⟩
    · exact ⟨h, .inl (by simp [ReqMsg.Carries, ht])⟩
  | resend hin =>
    cases List.mem_singleton.1 hrpc
    exact ⟨h, .inr (.inr ⟨_, hin, rfl⟩)⟩
  | note he => cases List.mem_singleton.1 hrpc; exact he.elim
  | merge => exact (writtenOut_inert _ hrpc).elim
  | client => cases List.mem_singleton.1 hrpc
  | process => cases List.mem_singleton.1 hrpc
  | retry => cases List.mem_singleton.1 hrpc
  | _ => cases hrpc

/-- A request that is to be sent again is the one that has failed. -/
theorem Micro.retries_failed (hm : Micro ctx inp s₀ s o s') {rpc : Rpc} (hrpc : .retry rpc ∈ o) :
    ∃ rpc', inp = .failure rpc' ∧ rpc'.req = rpc.req := by
  cases hm with
  | retry hin =>
    cases List.mem_singleton.1 hrpc
    exact ⟨_, hin, rfl⟩
  | note he => cases List.mem_singleton.1 hrpc; exact he.elim
  | merge => exact (writtenOut_inert _ hrpc).elim
  | _ => first | cases hrpc; done | cases List.mem_singleton.1 hrpc

/-! ## Log packs -/

/-- The request's log pack, if it is one, is a part of the log of the server that sends it, and the
request says where it begins. -/
def Rpc.Packs (rpc : Rpc) : Prop :=
  rpc.req.type = .syncLogRequest → rpc.req.src = rpc.creator.id ∧
    ∃ i c es, rpc.creator.logStore.pack i c = some es ∧ rpc.req.pack? = some es ∧
      rpc.req.lastLogIdx = usub i 1

/-- Log packs that are sent are parts of the log. -/
def SendsPacks (_ : Server) (o : List Effect) (_ : Server) : Prop :=
  ∀ rpc, .send rpc ∈ o → rpc.Packs

namespace SendsPacks

/-- The only log packs are those of `sync_log_to_new_srv`. -/
theorem syncs : Serves.Syncs SendsPacks where
  calm _ ho rpc hrpc := (ho _ hrpc).elim
  peer htype rpc hrpc := by
    cases List.mem_singleton.1 hrpc
    exact fun h => (htype h).elim
  block htype rpc hrpc := by
    cases List.mem_singleton.1 hrpc
    exact fun h => by cases htype.symm.trans h
  packCall rpc hrpc := nomatch List.mem_singleton.1 hrpc
  pack htype hpack hreq hlast hsrc rpc hrpc := by
    cases List.mem_singleton.1 hrpc
    exact fun _ => ⟨hsrc, _, _, _, hpack, by simp [ReqMsg.pack?, hreq], hlast⟩

theorem silent (s s' : Server) : SendsPacks s [] s' := fun _ h => by cases h

theorem other {s s' : Server} {rpc : Rpc} (htype : rpc.req.type ≠ .syncLogRequest) :
    SendsPacks s [.send rpc] s' := fun rpc' hrpc h => by
  cases List.mem_singleton.1 hrpc
  exact (htype h).elim

theorem handle (hin : inp.IsAdmin) (s : Server) :
    SendsPacks s (inp.handle ctx s).out (inp.handle ctx s).state := by
  have h := syncs.toServes
  have hwalks : Walks SendsPacks (inp.handle ctx) s fun _ _ => True := by
    cases inp with
    | request req now =>
      refine walks_admin hin (h.handleExtendedMsg hin.2.2.2 ?_ ?_ fun _ _ _ => silent _ _)
      · exact fun _ _ _ _ htype => other (by simp [htype])
      · exact fun _ _ _ _ htype => other (by simp [htype])
    | response rpc resp now =>
      exact walks_ext_response h hin (Serves.handleExtResp syncs fun _ _ _ => silent _ _)
    | failure rpc =>
      refine walks_ext_failure h hin (h.handleExtRespErr (fun _ _ _ => silent _ _) ?_)
      intro _ p _ rpc' hrpc
      cases List.mem_singleton.1 hrpc
    | _ => exact hin.elim
  refine hwalks.1.fold (fun s => silent s s) ?_
  intro s₁ s₂ s₃ o o' h h' rpc hrpc
  exact (List.mem_append.1 hrpc).elim (h rpc) (h' rpc)

end SendsPacks

/-! ## Handlers -/

/-- What the background thread hands over is an entry of the log, or the placeholder. -/
theorem hands_commitBg (h0 : P placeholder.buf) (h : s.logStore.All (LogEntry.Fine P)) :
    ∀ e ∈ calls (Input.commitBg.handle ctx s).out, e.Hands P := by
  have happlied : ∀ e ∈ appliedOut (s.smCommitIndex + 1)
      (s.logStore.entryAt (s.smCommitIndex + 1)), e.Hands P :=
    hands_appliedOut (h.entryAt (fun _ => h0) _)
  have hsnapshot : ∀ e ∈ snapshotOut ctx s.logStore (s.smCommitIndex + 1), e.Hands P := by
    unfold snapshotOut
    split <;> simp [Effect.Hands]
  have hround := Server.take_bg ctx s
  generalize (s.take ctx .commitBg).ledger = l, calls _ = o at hround
  cases hround with
  | idle => simp
  | plain => exact List.forall_mem_cons.2 ⟨trivial, happlied⟩
  | snapshot =>
    exact List.forall_mem_cons.2 ⟨trivial, List.forall_mem_append.2 ⟨happlied, hsnapshot⟩⟩

/-- **One handler.** On fine input a server with a fine log keeps its log fine, sends only requests
that carry fine entries, and gives only fine payloads to the state machine. -/
theorem fine_handle (ctx : Context) (h0 : P placeholder.buf) (hin : inp.Carries P)
    (h : s.logStore.All (LogEntry.Fine P)) :
    (inp.handle ctx s).state.logStore.All (LogEntry.Fine P) ∧
      (∀ rpc, .send rpc ∈ (inp.handle ctx s).out →
        rpc.req.Carries P ∨ ∃ rpc', inp = .resend rpc' ∧ rpc'.req = rpc.req) ∧
      (∀ rpc, .retry rpc ∈ (inp.handle ctx s).out →
        ∃ rpc', inp = .failure rpc' ∧ rpc'.req = rpc.req) ∧
      ∀ e ∈ (inp.handle ctx s).out, e.Hands P := by
  obtain ⟨hpath, hend⟩ := (Server.take_path ctx s inp).inv (fun _ _ _ hm h => hm.fine hin h) h
  refine ⟨hend, fun rpc hrpc => ?_, fun rpc hrpc => ?_, ?_⟩
  · have hsend := Path.forall_out (Q := fun e => ∀ rpc, e = .send rpc →
      rpc.creator.logStore.All (LogEntry.Fine P) ∧ (rpc.req.Carries P ∨
        (inp.IsAdmin ∧ rpc.req.type = .syncLogRequest) ∨
        ∃ rpc', inp = .resend rpc' ∧ rpc'.req = rpc.req)) ?_ hpath _ hrpc rpc rfl
    · obtain ⟨hcreator, hcarries | ⟨hadmin, htype⟩ | hagain⟩ := hsend
      · exact .inl hcarries
      · obtain ⟨-, i, c, es, hes, hpack, -⟩ := SendsPacks.handle hadmin s rpc hrpc htype
        left
        simp only [ReqMsg.Carries, htype, hpack, Option.mem_def, Option.some.injEq, forall_eq']
        exact hcreator.pack hes
      · exact .inr hagain
    · rintro s₁ o s₂ ⟨hm, hs₁⟩ e he rpc rfl
      exact hm.sends_fine h0 hs₁ he
  · refine Path.forall_out (Q := fun e => ∀ rpc, e = .retry rpc →
      ∃ rpc', inp = .failure rpc' ∧ rpc'.req = rpc.req) ?_ hpath _ hrpc rpc rfl
    rintro s₁ o s₂ ⟨hm, -⟩ e he rpc rfl
    exact hm.retries_failed he
  · by_cases hbg : inp = .commitBg
    · subst hbg
      intro e he
      by_cases hcall : e.isCall
      · exact hands_commitBg h0 h e ((mem_calls hcall).2 he)
      · cases e <;> trivial
    · exact hpath.forall_out fun _ _ _ ⟨hm, hs₁⟩ => hm.hands h0 hin hs₁ hbg

/-! ## Runs -/

/-- What the server that takes the event's input does besides changing its state. -/
def Cluster.effects (ctx : Context) (c : Cluster) (e : Event) : List Effect :=
  match e.input c with
  | some (i, inp, _) => (inp.handle ctx (c.servers i)).out
  | none => []

/-- The payloads that the event brings into the cluster. -/
def Event.payloads : Event → List Bytes
  | client _ logs _ => logs
  | _ => []

/-- Every log and every request on record is fine. -/
structure FineCluster (P : Payload → Prop) (c : Cluster) : Prop where
  logs : ∀ i, (c.servers i).logStore.All (LogEntry.Fine P)
  rpcs : ∀ rpc ∈ c.rpcs, rpc.req.Carries P
  retries : ∀ rpc ∈ c.retries, rpc.req.Carries P

namespace FineCluster

variable {c : Cluster} {e : Event}

theorem carries (h : FineCluster P c) (he : ∀ log ∈ e.payloads, P (.bytes log)) {i : Int}
    {k : Option Nat} (hin : e.input c = some (i, inp, k)) : inp.Carries P := by
  cases e with
  | client j logs now =>
    cases hin
    intro entry hentry
    obtain ⟨log, hlog, rfl⟩ := List.mem_map.1 hentry
    exact he log hlog
  | addServer j srv => cases hin; trivial
  | removeServer j id => cases hin; trivial
  | deliver n now =>
    obtain ⟨rpc, hrpc, heq⟩ := Option.map_eq_some_iff.1 hin
    cases heq
    exact h.rpcs rpc (List.mem_of_getElem? hrpc)
  | respond n now =>
    simp only [Event.input, Option.bind_eq_bind, Option.bind_eq_some_iff] at hin
    obtain ⟨_, -, _, -, heq⟩ := hin
    cases heq
    trivial
  | fail n | resend n =>
    obtain ⟨rpc, -, heq⟩ := Option.map_eq_some_iff.1 hin
    cases heq
    trivial
  | _ => cases hin; trivial

theorem update (h : FineCluster P c) {i : Int} {s : Server}
    (hs : s.logStore.All (LogEntry.Fine P)) (hsend : ∀ rpc, .send rpc ∈ o → rpc.req.Carries P)
    (hretry : ∀ rpc, .retry rpc ∈ o → rpc.req.Carries P) : FineCluster P (c.update i s o) where
  logs j := by
    show (if j = i then s else c.servers j).logStore.All _
    split
    · exact hs
    · exact h.logs j
  rpcs rpc hr := (Cluster.mem_update_rpcs hr).elim (h.rpcs rpc) (hsend rpc)
  retries rpc hr := (Cluster.mem_update_retries hr).elim (h.retries rpc) (hretry rpc)

/-- **One event.** An event that brings in only fine payloads keeps the cluster fine, and the state
machine is given only fine payloads. -/
theorem step (h0 : P placeholder.buf) (h : FineCluster P c)
    (he : ∀ log ∈ e.payloads, P (.bytes log)) :
    FineCluster P (c.step ctx e) ∧ ∀ x ∈ c.effects ctx e, x.Hands P := by
  unfold Cluster.step Cluster.effects
  cases hin : e.input c with
  | none => exact ⟨h, by simp⟩
  | some q =>
    obtain ⟨i, inp, k⟩ := q
    obtain ⟨hlog, hsend, hretry, hhands⟩ := fine_handle ctx h0 (h.carries he hin) (h.logs i)
    have hlegit := (Cluster.legit_of_input hin).1
    have hupdate : FineCluster P (c.update i (inp.handle ctx (c.servers i)).state
        (inp.handle ctx (c.servers i)).out) := by
      refine h.update hlog (fun rpc hrpc => ?_) fun rpc hrpc => ?_
      · rcases hsend rpc hrpc with hcarries | ⟨rpc', rfl, hreq⟩
        · exact hcarries
        · exact hreq ▸ h.retries rpc' hlegit.1
      · obtain ⟨rpc', rfl, hreq⟩ := hretry rpc hrpc
        exact hreq ▸ h.rpcs rpc' hlegit.1
    refine ⟨?_, hhands⟩
    unfold Cluster.take
    dsimp only
    split
    · exact ⟨hupdate.logs, hupdate.rpcs, hupdate.retries⟩
    · exact hupdate

theorem start (h0 : P placeholder.buf) {b : Int → Boot} (hb : ∀ i, (b i).logStore = .empty) :
    FineCluster P (Cluster.start ctx b) where
  logs i := by
    have hlog : ((Cluster.start ctx b).servers i).logStore = (b i).logStore :=
      congrArg Ledger.logStore (new_ledger ctx i (b i))
    rw [hlog, hb i]
    intro p hp
    cases List.mem_singleton.1 hp
    exact fun _ => h0
  rpcs := by simp [Cluster.start]
  retries := by simp [Cluster.start]

theorem run (h0 : P placeholder.buf) (h : FineCluster P c) {es : List Event}
    (hes : ∀ e ∈ es, ∀ log ∈ e.payloads, P (.bytes log)) : FineCluster P (c.run ctx es) := by
  refine Cluster.inv_run (C := fun _ e => ∀ log ∈ e.payloads, P (.bytes log)) ?_ h
    (Cluster.meets_of_forall hes)
  exact fun c e hc he => (hc.step h0 he).1

end FineCluster

/-- **Provenance.** Whatever holds for the payloads of all clients and for the placeholder holds for
every payload that any server gives to its state machine, in any run from empty logs. -/
theorem hands_run (ctx : Context) {b : Int → Boot} (hb : ∀ i, (b i).logStore = .empty)
    (h0 : P placeholder.buf) {es : List Event} {e : Event}
    (hes : ∀ e' ∈ es ++ [e], ∀ log ∈ e'.payloads, P (.bytes log)) :
    ∀ x ∈ ((Cluster.start ctx b).run ctx es).effects ctx e, x.Hands P := by
  have hrun : FineCluster P ((Cluster.start ctx b).run ctx es) :=
    (FineCluster.start h0 hb).run h0 fun e' he' => hes e' (List.mem_append_left _ he')
  exact (hrun.step h0 (hes e (by simp))).2

end EnclaveRaft
