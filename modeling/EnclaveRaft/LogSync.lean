import EnclaveRaft.Membership
import EnclaveRaft.OffsetList

/-!
# Bringing the log to a new server

A leader brings a server up to date before it adds it to the cluster: with each response it packs the
next part of its log. Where the part starts comes from the response, and a response that rejects says
0. This module says for which responses every call of `pack` takes a range of the log.
-/

namespace EnclaveRaft

open Act Server LogStore

variable {ctx : Context} {s : Server} {resp : RespMsg}

/-! ## Packs -/

namespace LogStore

variable {st : LogStore} {a : OffsetList} {i : Nat} {c : Int}

/-- The indices of a range that the map does not have. `operator[]` inserts a null pointer for each of
them. -/
def inserted (st : LogStore) (i : Nat) (c : Int) : List Nat :=
  (List.range' i c.toNat).filter fun j => (st.logs.lookup j).isNone

theorem Represents.lookup_isSome (h : Represents st a) {j : Nat} (hj : a.start ≤ j)
    (hlt : j < a.next) : (st.logs.lookup j).isSome := by
  rw [h.lookup (h.pos.trans hj), OffsetList.get?, if_pos hj, Option.isSome_iff_ne_none, ne_eq,
    List.getElem?_eq_none_iff]
  unfold OffsetList.next at hlt
  omega

theorem Represents.inserted_eq_nil (h : Represents st a) (hi : a.start ≤ i) (hc : i + c ≤ a.next) :
    st.inserted i c = [] := by
  refine List.filter_eq_nil_iff.2 fun j hj => ?_
  obtain ⟨hle, hlt⟩ := List.mem_range'_1.1 hj
  have hsome := h.lookup_isSome (hi.trans hle) (by omega)
  simpa [Option.isNone_iff_eq_none, Option.isSome_iff_ne_none] using hsome

/-- The content of a pack, if the entries of its range are there. -/
def packed (st : LogStore) (i : Nat) (c : Int) : List (Nat × LogValType × Payload) :=
  (List.range' i c.toNat).map fun j =>
    ((st.entryAt j).term, (st.entryAt j).valType, (st.entryAt j).buf)

theorem pack_eq (hc : 0 ≤ c) (h : st.inserted i c = []) : st.pack i c = some (st.packed i c) := by
  rw [LogStore.pack, if_neg (Int.not_lt.2 hc), packed]
  have hall := List.filter_eq_nil_iff.1 h
  generalize List.range' i c.toNat = js at hall
  induction js with
  | nil => rfl
  | cons j js ih =>
    rw [List.forall_mem_cons] at hall
    obtain ⟨e, he⟩ : ∃ e, st.logs.lookup j = some e :=
      Option.ne_none_iff_exists'.1 fun hn => hall.1 (by rw [hn]; rfl)
    have hentry : st.entryAt j = e := by rw [LogStore.entryAt, he, Option.getD_some]
    simp [List.mapM_cons, he, hentry, ih hall.2]

end LogStore

/-! ## The call -/

/-- The index from which a response lets the leader go on to bring its log to the new server. -/
def syncStart (resp : RespMsg) (s : Server) : Option Nat :=
  match resp.type with
  | .syncLogResponse => if s.srvToJoin.isSome then some resp.nextIdx else none
  | .joinClusterResponse =>
    if s.srvToJoin.isSome ∧ resp.accepted = true then some resp.nextIdx else none
  | .installSnapshotResponse =>
    s.srvToJoin.bind fun p =>
      if resp.accepted = true then
        p.snpSyncCtx.map fun sync =>
          if sync.snapshot.size ≤ resp.nextIdx then sync.snapshot.lastLogIdx + 1 else p.nextLogIdx
      else none
  | _ => none

/-- The handler is `sync_log_to_new_srv`, after it has updated what it knows of the new server. -/
theorem handleExtResp_eq {i : Nat} (h : syncStart resp s = some i) :
    ∃ p, handleExtResp ctx resp s = syncLogToNewSrv ctx i { s with srvToJoin := some p } := by
  have hjoin {p : Peer} (hp : s.srvToJoin = some p) (f : Peer → Peer) :
      onJoin f s = { s with srvToJoin := some (f p) } := by rw [onJoin, hp, Option.map_some]
  unfold syncStart at h
  unfold handleExtResp
  rw [get_bind_apply]
  split at h
  next htype =>
    obtain ⟨hsome, hi⟩ := Option.ite_none_right_eq_some.1 h
    obtain ⟨p, hp⟩ := Option.isSome_iff_exists.1 hsome
    obtain rfl := Option.some.inj hi
    simp only [htype]
    rw [when_pos hsome, modify_bind_apply, hjoin hp]
    exact ⟨_, rfl⟩
  next htype =>
    obtain ⟨hsome, hi⟩ := Option.ite_none_right_eq_some.1 h
    obtain ⟨p, hp⟩ := Option.isSome_iff_exists.1 hsome.1
    obtain rfl := Option.some.inj hi
    simp only [htype]
    rw [when_pos hsome]
    exact ⟨p, by rw [← hp]⟩
  next htype =>
    obtain ⟨p, hp, h⟩ := Option.bind_eq_some_iff.1 h
    obtain ⟨hacc, h⟩ := Option.ite_none_right_eq_some.1 h
    obtain ⟨sync, hsync, hi⟩ := Option.map_eq_some_iff.1 h
    simp only [htype, hp, hacc, hsync, not_true_eq_false, if_false]
    rw [modify_bind_apply, hjoin hp, get_bind_apply]
    refine ⟨noteBlock sync resp.nextIdx p, ?_⟩
    rw [← hi]
    unfold noteBlock
    split <;> rfl
  next => cases h

/-- Nothing is packed. -/
def Packless (_ : Server) (o : List Effect) (_ : Server) : Prop := ∀ i c, .pack i c ∉ o

theorem packless_nil (s s' : Server) : Packless s [] s' := fun _ _ => List.not_mem_nil

theorem packless_send (s : Server) (rpc : Rpc) : Packless s [.send rpc] s :=
  fun _ _ h => nomatch List.mem_singleton.1 h

theorem serves_packless : Serves Packless where
  calm _ ho _ _ h := ho _ h
  peer _ := packless_send _ _

theorem packless_out {α : Type} {x : M α} (h : Walks Packless x s fun _ _ => True) (i : Nat)
    (c : Int) : .pack i c ∉ (x s).out := by
  refine h.1.fold (R := Packless) (fun s => packless_nil s s) (fun _ _ _ _ _ h h' i c hmem => ?_) i c
  exact (List.mem_append.1 hmem).elim (h i c) (h' i c)

/-- What `sync_log_to_new_srv` packs, and that it does. -/
theorem pack_mem_syncLogToNewSrv {p : Peer} (hp : s.srvToJoin = some p) (i j : Nat) (c : Int) :
    .pack j c ∈ (syncLogToNewSrv ctx i s).out ↔
      j = i ∧ c = min (syncGap s i) ctx.params.logSyncBatchSize ∧
        ctx.params.logSyncStopGap ≤ syncGap s i ∧ (i = 0 ∨ s.logStore.startIdx ≤ i) := by
  rw [syncLogToNewSrv, get_bind_apply, (orThrow_runs hp).bind_eq]
  show _ ∈ [] ++ _ ↔ _
  rw [List.nil_append]
  by_cases hgap : syncGap s i < ctx.params.logSyncStopGap
  · rw [if_pos hgap]
    refine iff_of_false (packless_out ?_ j c) fun h => (Int.not_lt.2 h.2.2.1) hgap
    refine walks_orThrow_bind fun srv _ => walks_modify_bind (packless_nil _ _) ?_
    exact serves_packless.requestAppendEntries _
  by_cases hsnp : 0 < i ∧ i < s.logStore.startIdx
  · rw [if_neg hgap, if_pos hsnp]
    refine iff_of_false (packless_out ?_ j c) fun h => by omega
    refine walks_bind (serves_packless.createSyncSnapshotReq _ _ _ _ _) fun req s₁ _ => ?_
    exact walks_get_bind (walks_emit (packless_send _ _) trivial)
  · rw [if_neg hgap, if_neg hsnp, emit_bind_out, List.mem_cons]
    constructor
    · rintro (heq | hmem)
      · cases heq
        exact ⟨rfl, rfl, Int.not_lt.1 hgap, by omega⟩
      · refine (packless_out ?_ j c hmem).elim
        exact walks_orThrow_bind fun es _ => walks_get_bind (walks_emit (packless_send _ _) trivial)
    · rintro ⟨rfl, rfl, -⟩
      exact .inl rfl

/-- Other responses do not make the leader pack. -/
theorem packless_handleExtResp (h : syncStart resp s = none) :
    Walks Packless (handleExtResp ctx resp) s fun _ _ => True := by
  have hexit (code : Int) (e : RaftException) :
      Walks Packless (exitWith code e : M Unit) s fun _ _ => True := serves_packless.exits code e s
  unfold syncStart at h
  refine walks_get_bind ?_
  split
  next htype =>
    simp only [htype, ite_eq_right_iff, reduceCtorEq, imp_false] at h
    exact walks_when (fun hsome => (h hsome).elim) fun _ => trivial
  next htype =>
    simp only [htype, ite_eq_right_iff, reduceCtorEq, imp_false] at h
    exact walks_when (fun hsome => (h hsome).elim) fun _ => trivial
  next =>
    refine walks_when (fun _ => ?_) fun _ => trivial
    exact serves_packless.rmSrvFromCluster (packless_nil _ _)
  next htype =>
    cases hp : s.srvToJoin with
    | none => exact walks_pure trivial
    | some p =>
      refine walks_ite (fun _ => walks_pure trivial) fun hacc => ?_
      cases hsync : p.snpSyncCtx with
      | none => exact hexit _ _
      | some sync => simp [htype, hp, not_not.1 hacc, hsync] at h
  next => exact hexit _ _

/-- **The calls of `pack`.** -/
theorem pack_mem_handleExtResp {i : Nat} {c : Int} :
    .pack i c ∈ (handleExtResp ctx resp s).out ↔
      syncStart resp s = some i ∧ c = min (syncGap s i) ctx.params.logSyncBatchSize ∧
        ctx.params.logSyncStopGap ≤ syncGap s i ∧ (i = 0 ∨ s.logStore.startIdx ≤ i) := by
  cases hsync : syncStart resp s with
  | none => exact iff_of_false (packless_out (packless_handleExtResp hsync) i c) fun h => nomatch h.1
  | some k =>
    obtain ⟨p, heq⟩ : ∃ p, handleExtResp ctx resp s =
        syncLogToNewSrv ctx k { s with srvToJoin := some p } := handleExtResp_eq hsync
    rw [heq, pack_mem_syncLogToNewSrv rfl, Option.some.injEq]
    constructor
    · rintro ⟨rfl, h⟩
      exact ⟨rfl, h⟩
    · rintro ⟨rfl, h⟩
      exact ⟨rfl, h⟩

/-- The call `pack(i, c)` takes a range of the log, leaves the store as it is, and the request that
carries the pack names the index before it. -/
structure PacksRange (ctx : Context) (resp : RespMsg) (s : Server) (i : Nat) (c : Int) : Prop where
  count : 1 ≤ c
  start : s.logStore.startIdx ≤ i
  stop : i + c ≤ s.nextSlot
  inserts : s.logStore.inserted i c = []
  store : (handleExtResp ctx resp s).state.logStore = s.logStore
  sends : ∃ rpc, (handleExtResp ctx resp s).out = [.pack i c, .send rpc] ∧
    rpc.req.type = .syncLogRequest ∧ (rpc.req.lastLogIdx : Int) = i - 1 ∧
    rpc.req.logEntries = [⟨s.term, .logPack, .pack (s.logStore.packed i c)⟩]

/-- An index to go on from that is 0 or in the log, and so far behind the commit index (by the 32 bits
that are looked at) that the new server is not added yet, is neither 0 nor beyond the commit index, and
the batches are not empty. -/
def SyncsInside (ctx : Context) (resp : RespMsg) (s : Server) : Prop :=
  ∀ i ∈ syncStart resp s, i = 0 ∨ s.logStore.startIdx ≤ i →
    ctx.params.logSyncStopGap ≤ int32 (usub s.quickCommitIdx i) →
    0 < i ∧ i < s.quickCommitIdx ∧ 0 < ctx.params.logSyncBatchSize

instance (ctx : Context) (resp : RespMsg) (s : Server) : Decidable (SyncsInside ctx resp s) :=
  inferInstanceAs (Decidable (∀ i ∈ syncStart resp s, _ → _ → _))

/-- The distance is what it says, if it is a value of `int32`. -/
theorem syncGap_eq {k : Nat} (hlo : -2 ^ 31 ≤ (s.quickCommitIdx : Int) - k)
    (hhi : (s.quickCommitIdx : Int) - k < 2 ^ 31) : syncGap s k = s.quickCommitIdx - k := by
  unfold syncGap int32 usub
  rw [Int.bmod_def]
  split <;> split <;> omega

/-- The request that carries a pack. -/
def logPackReq (s : Server) (p : Peer) (i : Nat) (c : Int) : ReqMsg where
  term := s.term
  type := .syncLogRequest
  src := s.id
  dst := p.id
  lastLogTerm := 0
  lastLogIdx := usub i 1
  commitIdx := s.quickCommitIdx
  logEntries := [⟨s.term, .logPack, .pack (s.logStore.packed i c)⟩]

theorem syncLogToNewSrv_packs {p : Peer} {i : Nat} {c : Int} (hp : s.srvToJoin = some p)
    (hgap : ctx.params.logSyncStopGap ≤ syncGap s i) (hstart : s.logStore.startIdx ≤ i)
    (hc : c = min (syncGap s i) ctx.params.logSyncBatchSize) (hpos : 0 ≤ c)
    (hins : s.logStore.inserted i c = []) :
    Runs (syncLogToNewSrv ctx i) s () s
      [.pack i c, .send ⟨.extResp, p.uid, p.id, logPackReq s p i c, s⟩] := by
  subst hc
  have hpack := pack_eq hpos hins
  refine .get_bind ((orThrow_runs hp).bind ?_)
  refine .of_neg (Int.not_lt.2 hgap) (.of_neg (by omega) ?_)
  exact runs_emit.bind ((orThrow_runs hpack).bind (.get_bind runs_emit))

theorem packsRange {i : Nat} {a : OffsetList} (hlog : Represents s.logStore a)
    (hsync : syncStart resp s = some i) (hgap : ctx.params.logSyncStopGap ≤ syncGap s i)
    (hstart : s.logStore.startIdx ≤ i) (hpos : 1 ≤ min (syncGap s i) ctx.params.logSyncBatchSize)
    (hstop : i + min (syncGap s i) ctx.params.logSyncBatchSize ≤ s.nextSlot) :
    PacksRange ctx resp s i (min (syncGap s i) ctx.params.logSyncBatchSize) := by
  have hins : s.logStore.inserted i (min (syncGap s i) ctx.params.logSyncBatchSize) = [] :=
    hlog.inserted_eq_nil (hlog.start ▸ hstart) (by rw [← hlog.nextSlot]; exact hstop)
  have hi : 1 ≤ i := by
    have h := hlog.pos
    rw [← hlog.start] at h
    omega
  obtain ⟨p, heq⟩ : ∃ p, handleExtResp ctx resp s =
      syncLogToNewSrv ctx i { s with srvToJoin := some p } := handleExtResp_eq hsync
  have hnonneg : 0 ≤ min (syncGap s i) ctx.params.logSyncBatchSize := by omega
  have hrun : Runs (handleExtResp ctx resp) s _ _ _ := heq.trans (syncLogToNewSrv_packs
    (s := { s with srvToJoin := some p }) rfl hgap hstart rfl hnonneg hins)
  refine ⟨hpos, hstart, hstop, hins, ?_, _, congrArg Outcome.out hrun, rfl, ?_, rfl⟩
  · rw [show handleExtResp ctx resp s = _ from hrun]
  · show ((usub i 1 : Nat) : Int) = i - 1
    rw [usub, if_pos hi]
    omega

/-- A leader with twelve committed entries that brings server 4 up to date. -/
def bringsUp : Server :=
  { load 1 { config := {} } with
    role := .leader
    state := { term := 1 }
    logStore := (List.replicate 12 ⟨1, .appLog, .bytes [7, 0]⟩).foldl LogStore.append .empty
    quickCommitIdx := 12
    srvToJoin := some (Peer.new {} 0 (srvAt 4)) }

theorem bringsUp_represents :
    Represents bringsUp.logStore ⟨1, List.replicate 12 ⟨1, .appLog, .bytes [7, 0]⟩⟩ :=
  ⟨le_rfl, rfl, rfl⟩

/-- Server 4 has accepted the invitation, with an empty log. -/
def acceptsInvitation : RespMsg := ⟨1, .joinClusterResponse, 4, 1, 1, true⟩

/-- What a leader packs, and the index the request names. -/
def Effect.packs : Effect → Option (Int × Int)
  | .pack i c => some (i, c)
  | .send rpc => some (rpc.req.lastLogIdx, 0)
  | _ => none

end EnclaveRaft
