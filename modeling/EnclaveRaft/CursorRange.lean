import EnclaveRaft.Stale

/-!
# Cursors within the log

A leader keeps for each peer the index of the next entry to send, `next_log_idx`. It starts at the
end of the leader's log, a rejection moves it back, an acceptance sets it to what the peer says. If
it came to lie beyond the log, `create_append_entries_req` would give up.

It stays within the log as long as what the peer says does. That is not a matter of course: a reply
to a request of an earlier leadership, when the log was longer, is taken like any other.
-/

namespace EnclaveRaft

open Act Server OrderedMap

/-! ## Stores -/

namespace LogStore

/-- What the operations of the store keep: the map is in order and has the placeholder, and the first
index is above it. -/
structure Keyed (st : LogStore) : Prop where
  sorted : (keys st.logs).Pairwise (· < ·)
  zero : 0 ∈ keys st.logs
  start : 1 ≤ st.startIdx

instance (st : LogStore) : Decidable st.Keyed :=
  decidable_of_iff (_ ∧ _ ∧ _) ⟨fun h => ⟨h.1, h.2.1, h.2.2⟩, fun h => ⟨h.sorted, h.zero, h.start⟩⟩

namespace Keyed

variable {st : LogStore}

theorem empty : Keyed .empty := by decide

theorem of_eq {st' : LogStore} (h : st.Keyed) (heq : st' = st) : st'.Keyed := heq ▸ h

theorem append (h : st.Keyed) (e : LogEntry) : (st.append e).Keyed where
  sorted := sorted_put _ e h.sorted
  zero := mem_keys_put.2 (.inr h.zero)
  start := h.start

theorem filter (h : st.Keyed) (p : Nat × LogEntry → Bool) :
    (keys (st.logs.filter p)).Pairwise (· < ·) :=
  h.sorted.sublist (List.filter_sublist.map _)

theorem zero_filter (h : st.Keyed) {p : Nat × LogEntry → Bool} (hp : ∀ e, p (0, e) = true) :
    0 ∈ keys (st.logs.filter p) := by
  obtain ⟨⟨k, e⟩, hx, hk⟩ := List.mem_map.1 h.zero
  dsimp only at hk
  subst hk
  exact List.mem_map.2 ⟨(0, e), List.mem_filter.2 ⟨hx, hp e⟩, rfl⟩

theorem writeAt (h : st.Keyed) (idx : Nat) (e : LogEntry) : (st.writeAt idx e).Keyed where
  sorted := sorted_put _ e (h.filter _)
  zero := by
    refine mem_keys_put.2 ?_
    by_cases h0 : idx = 0
    · exact .inl h0.symm
    · exact .inr (h.zero_filter fun _ => by simp; omega)
  start := h.start

theorem compact (h : st.Keyed) (k : Nat) : (st.compact k).Keyed where
  sorted := h.filter _
  zero := by
    refine h.zero_filter fun _ => ?_
    have hstart := h.start
    simp only [decide_eq_true_eq]
    omega
  start := Nat.le_add_left 1 k

theorem applyPack (h : st.Keyed) (idx : Nat) (es : List (Nat × LogValType × Payload)) :
    (st.applyPack idx es).Keyed where
  sorted := sorted_foldl_put _ h.sorted
  zero := mem_keys_foldl_put.2 (.inl h.zero)
  start := by
    show 1 ≤ ((List.find? _ _).map Prod.fst).getD 1
    cases hfind : List.find? _ _ with
    | none => exact le_rfl
    | some x =>
      have hx := List.find?_some hfind
      exact of_decide_eq_true (p := 0 < x.1) hx

/-- A pack leaves the log to begin no later than any of its entries. -/
theorem startIdx_applyPack_le (h : st.Keyed) {idx k : Nat}
    {es : List (Nat × LogValType × Payload)} (hpos : 0 < k)
    (hk : k ∈ keys st.logs ∨ (es ≠ [] ∧ idx = k)) : (st.applyPack idx es).startIdx ≤ k := by
  have hmem : k ∈ keys (st.applyPack idx es).logs := by
    refine mem_keys_foldl_put.2 (hk.imp_right fun ⟨hne, hidx⟩ => ?_)
    obtain ⟨e, es, rfl⟩ := List.exists_cons_of_ne_nil hne
    exact ⟨(e, idx), by simp, hidx⟩
  obtain ⟨x, hfind, hle⟩ := find?_key_le (P := fun i => 0 < i) (h.applyPack idx es).sorted hmem
    (decide_eq_true hpos)
  show ((List.find? _ (st.applyPack idx es).logs).map Prod.fst).getD 1 ≤ k
  rw [hfind]
  exact hle

theorem overwritten (es : List LogEntry) (h : st.Keyed) (idx : Nat) :
    (EnclaveRaft.overwritten st idx es).1.Keyed := by
  induction es generalizing st idx with
  | nil => exact h
  | cons e es ih =>
    unfold EnclaveRaft.overwritten
    split
    · exact ih (h.writeAt idx e) (idx + 1)
    · exact h

theorem foldl_append (es : List LogEntry) (h : st.Keyed) : (es.foldl LogStore.append st).Keyed := by
  induction es generalizing st with
  | nil => exact h
  | cons e es ih => exact ih (h.append e)

theorem written (h : st.Keyed) (k : Nat) (es : List LogEntry) :
    (EnclaveRaft.written st k es).Keyed :=
  (h.overwritten _ _).foldl_append _

theorem one_le_nextSlot (h : st.Keyed) : 1 ≤ st.nextSlot := by
  have hlen : 0 < st.logs.length := by
    obtain ⟨x, hx, -⟩ := List.mem_map.1 h.zero
    exact List.length_pos_of_mem hx
  have hstart := h.start
  unfold nextSlot
  omega

theorem nextSlot_append (st : LogStore) (e : LogEntry) : st.nextSlot ≤ (st.append e).nextSlot :=
  Nat.sub_le_sub_right (Nat.add_le_add_left (length_le_put _ e st.logs) _) 1

/-- Compaction does not move the end of the log back, unless it moves its beginning back. -/
theorem nextSlot_compact (h : st.Keyed) {k : Nat} (hk : st.startIdx ≤ k + 1) :
    st.nextSlot ≤ (st.compact k).nextSlot := by
  -- At most one entry is dropped for each index.
  let gone : Nat × LogEntry → Bool := fun p => st.startIdx ≤ p.1 ∧ p.1 ≤ k
  have hgone : (st.logs.filter gone).length ≤ k + 1 - st.startIdx := by
    have hnodup : (keys (st.logs.filter gone)).Nodup := (h.filter gone).imp fun hlt => hlt.ne
    have hsub : keys (st.logs.filter gone) ⊆ List.range' st.startIdx (k + 1 - st.startIdx) := by
      intro i hi
      obtain ⟨x, hx, rfl⟩ := List.mem_map.1 hi
      have hrange := (List.mem_filter.1 hx).2
      simp only [gone, decide_eq_true_eq] at hrange
      rw [List.mem_range'_1]
      omega
    have hle := (hnodup.subperm hsub).length_le
    rwa [keys, List.length_map, List.length_range'] at hle
  have hsplit := List.length_eq_length_filter_add (l := st.logs) gone
  have hkept : (st.compact k).logs.length = (st.logs.filter fun p => !gone p).length := by
    unfold LogStore.compact
    simp only [gone, decide_not]
  unfold nextSlot
  rw [hkept]
  show _ ≤ k + 1 + _ - 1
  omega

end Keyed

end LogStore

/-! ## The condition -/

/-- What a reply to a request of the protocol may do to the cursor of the peer `p`. -/
def RespMsg.InRange (resp : RespMsg) (s : Server) (p : Peer) : Prop :=
  (resp.type = .appendEntriesResponse → resp.term ≤ s.term → resp.accepted = true →
    resp.nextIdx ≤ s.nextSlot) ∧
  (resp.type = .installSnapshotResponse → ∀ sync ∈ p.snpSyncCtx,
    sync.snapshot.lastLogIdx < s.nextSlot)

/-- The condition for the cursors to stay within the log: what a leader is told about a peer lies
within its log, and a leader that takes a snapshot does not move the beginning of its log back. -/
def Input.InRange (ctx : Context) (s : Server) : Input → Prop
  | response _ resp _ => s.role = .leader → ∀ p ∈ s.findPeer resp.src, resp.InRange s p
  | commitBg => s.role = .leader → ctx.params.snapshotDistance ≠ 0 →
      ulong ctx.params.reservedLogItems ≤ s.smCommitIndex →
        s.logStore.startIdx ≤ s.smCommitIndex + 1 - ulong ctx.params.reservedLogItems + 1
  | _ => True

instance (resp : RespMsg) (s : Server) (p : Peer) : Decidable (resp.InRange s p) :=
  inferInstanceAs (Decidable (_ ∧ _))

instance (ctx : Context) (s : Server) : (inp : Input) → Decidable (inp.InRange ctx s)
  | .response _ resp _ => inferInstanceAs (Decidable (s.role = .leader →
      ∀ p ∈ s.findPeer resp.src, resp.InRange s p))
  | .commitBg => inferInstanceAs (Decidable (_ → _ → _ → _))
  | .electionTimeout | .hbTimeout _ | .request _ _ | .failure _ | .resend _ => instDecidableTrue

/-! ## Small steps -/

/-- The cursors of a leader lie within its log and, if `P`, are above 0. -/
structure Ranged (P : Prop) (s : Server) : Prop where
  objects : PeerObjects s
  store : s.logStore.Keyed
  next : s.role = .leader → ∀ p ∈ s.peers, p.nextLogIdx ≤ s.nextSlot ∧ (P → 0 < p.nextLogIdx)

/-- The input is a rejection of an append request. -/
def Input.Rejects (inp : Input) : Prop :=
  ∃ resp, inp.Answers .appendEntriesResponse resp ∧ resp.accepted = false

/-- Background rounds do not change the role. -/
theorem Micro.role_commitBg {ctx : Context} {inp : Input} {s₀ s s' : Server} {o : List Effect}
    (hm : Micro ctx inp s₀ s o s') (hin : inp = .commitBg) : s'.role = s.role := by
  subst hin
  cases hm with
  | quiet hq => exact hq.field Server.role
  | enterTerm _ hin => rcases hin with ⟨_, _, h, _⟩ | ⟨_, _, _, h, _⟩ <;> cases h
  | stepDown _ hin => obtain ⟨_, _, h, _⟩ := hin; cases h
  | stand hin | standWin hin => cases hin
  | tallyWin hin => obtain ⟨_, _, h, _⟩ := hin; cases h
  | addConfigured =>
    rename_i added _ _ _
    obtain ⟨ps, j, n, h⟩ := foldl_addConfigured_frame ctx added s
    rw [h]
  | leaveConfig hin => cases hin
  | dropOnly hin => cases hin
  | join hin => cases hin
  | _ => rfl

section

variable {P : Prop} {m : Members} {ctx : Context} {inp : Input} {s₀ s s' : Server} {o : List Effect}

theorem Ranged.of_follower (ho : PeerObjects s') (hs : s'.logStore.Keyed)
    (hrole : s'.role ≠ .leader) : Ranged P s' :=
  ⟨ho, hs, fun h => (hrole h).elim⟩

/-- A step that keeps role and peers, and does not cut the log. -/
theorem Ranged.keep (h : Ranged P s) (ho : PeerObjects s') (hs : s'.logStore.Keyed)
    (hrole : s'.role = s.role) (hpeers : s'.peers = s.peers) (hslot : s.nextSlot ≤ s'.nextSlot) :
    Ranged P s' where
  objects := ho
  store := hs
  next hl p hp := by
    obtain ⟨hle, hpos⟩ := h.next (hrole ▸ hl) p (hpeers ▸ hp)
    exact ⟨hle.trans hslot, hpos⟩

theorem Ranged.same (h : Ranged P s) (ho : PeerObjects s') (hlog : s'.logStore = s.logStore)
    (hrole : s'.role = s.role) (hpeers : s'.peers = s.peers) : Ranged P s' :=
  h.keep ho (hlog ▸ h.store) hrole hpeers (congrArg LogStore.nextSlot hlog).ge

theorem Ranged.takeLead (hs : s.logStore.Keyed) (ho : PeerObjects (takeLead s)) :
    Ranged P (takeLead s) where
  objects := ho
  store := hs
  next _ p hp := by
    obtain ⟨q, -, rfl⟩ := List.mem_map.1 hp
    exact ⟨le_rfl, fun _ => hs.one_le_nextSlot⟩

theorem Ranged.quiet (h : Ranged P s) (hq : Quiet s s') : Ranged P s' where
  objects := h.objects.quiet hq
  store := (hq.field Server.logStore : s'.logStore = s.logStore) ▸ h.store
  next hl p hp := by
    obtain ⟨q, hq', hcore⟩ := hq.mem_peers hp
    have hnext : q.nextLogIdx = p.nextLogIdx := Peer.field_eq hcore Peer.nextLogIdx
    have hslot : s'.nextSlot = s.nextSlot := hq.field Server.nextSlot
    rw [← hnext, hslot]
    exact h.next ((hq.field Server.role).symm.trans hl) q hq'

/-- A change of the object `uid`. -/
theorem Ranged.onPeer (h : Ranged P s) {uid : Nat} {f : Peer → Peer}
    (ho : PeerObjects (s.onPeer uid f))
    (hf : s.role = .leader → ∀ p ∈ s.peers, p.uid = uid →
      p.nextLogIdx ≤ s.nextSlot ∧ (P → 0 < p.nextLogIdx) →
        (f p).nextLogIdx ≤ s.nextSlot ∧ (P → 0 < (f p).nextLogIdx)) : Ranged P (s.onPeer uid f) where
  objects := ho
  store := h.store
  next hl q hq := by
    obtain ⟨p, hp, rfl⟩ := List.mem_map.1 hq
    have hold := h.next hl p hp
    show (if p.uid = uid then f p else p).nextLogIdx ≤ s.nextSlot ∧ _
    split
    next huid => exact hf hl p hp huid hold
    next => exact hold

theorem nextLogIdx_moveBack_le (nextIdx : Nat) {p : Peer} (hpos : 0 < p.nextLogIdx) :
    (moveBack nextIdx p).nextLogIdx ≤ p.nextLogIdx := by
  unfold moveBack
  split
  next h => exact h.2.le
  next =>
    show usub p.nextLogIdx 1 ≤ _
    rw [usub_of_le hpos]
    exact Nat.sub_le _ _

/-- What a small step may assume of the input and of the state the handler began in. -/
structure RangeTurn (P : Prop) (ctx : Context) (inp : Input) (s₀ : Server) : Prop where
  range : inp.InRange ctx s₀
  first : s₀.role = .leader → ∀ p ∈ s₀.peers, 0 < p.nextLogIdx
  index : ∀ resp, inp.Answers .appendEntriesResponse resp → resp.accepted = true → 0 < resp.nextIdx
  accepts : P → ¬inp.Rejects

theorem Ranged.micro (h : Ranged P s) (hs : StaticServer m s) (h₀ : StaticServer m s₀)
    (hin : StaticInput m inp) (ht : RangeTurn P ctx inp s₀)
    (hbg : inp = .commitBg → s.role = s₀.role) (hm : Micro ctx inp s₀ s o s') : Ranged P s' := by
  have ho := h.objects.micro hm
  have hext := hin.not_isExt
  cases hm with
  | quiet hq => exact h.quiet hq
  | enterTerm =>
    refine .of_follower ho (h.store.of_eq ((keeps_enterTerm _ s).field Server.logStore)) ?_
    unfold EnclaveRaft.enterTerm
    simp [becomeFollower_role]
  | stepDown =>
    refine .of_follower ho (h.store.of_eq ((keeps_becomeFollower s).field Server.logStore)) ?_
    simp [becomeFollower_role]
  | stand => exact .of_follower ho h.store (show SrvRole.candidate ≠ .leader by simp)
  | standWin => exact .takeLead h.store ho
  | tallyWin => exact .takeLead h.store ho
  | saveInitial | client =>
    exact h.keep ho (h.store.append _) rfl rfl (LogStore.Keyed.nextSlot_append _ _)
  | aim =>
    refine h.onPeer ho fun _ p _ _ hp => ?_
    split
    · exact ⟨le_rfl, fun _ => h.store.one_le_nextSlot⟩
    · exact hp
  | startSync => exact h.onPeer ho fun _ _ _ _ hp => hp
  | ack hans hk hterm hacc hp =>
    obtain ⟨q, hq, -⟩ := hk.findPeer_core hp
    refine h.onPeer ho fun hl _ _ _ _ => ⟨?_, fun _ => ht.index _ hans hacc⟩
    obtain ⟨rpc, now, rfl, -, htype⟩ := hans
    have hle := (ht.range ((hk.field Server.role).symm.trans hl) q hq).1 htype
      (hterm.trans (hk.field Server.term).le) hacc
    exact hle.trans (hk.field Server.nextSlot).ge
  | nack hans hk _ hacc hp =>
    obtain ⟨q, hq, hcore⟩ := hk.findPeer_core hp
    refine h.onPeer ho fun hl p' hp' huid hold => ⟨?_, fun hP => ?_⟩
    · obtain rfl := List.inj_on_of_nodup_map h.objects.nodup hp' (List.mem_of_find?_eq_some hp) huid
      have hpos := ht.first ((hk.field Server.role).symm.trans hl) q (List.mem_of_find?_eq_some hq)
      rw [show q.nextLogIdx = p'.nextLogIdx from Peer.field_eq hcore Peer.nextLogIdx] at hpos
      exact (nextLogIdx_moveBack_le _ hpos).trans hold.1
    · exact (ht.accepts hP ⟨_, hans, hacc⟩).elim
  | snapshotAck hans hp hsync hf hk =>
    rcases hf with rfl | rfl
    · obtain ⟨q, hq, hcore⟩ := hk.findPeer_core hp
      refine h.onPeer ho fun hl _ _ _ _ => ⟨?_, fun _ => Nat.succ_pos _⟩
      obtain ⟨rpc, now, rfl, -, htype⟩ := hans
      have hsync' := (Peer.field_eq hcore Peer.snpSyncCtx).trans hsync
      have hlt := (ht.range ((hk.field Server.role).symm.trans hl) q hq).2 htype _ hsync'
      exact Nat.succ_le_of_lt (hlt.trans_le (hk.field Server.nextSlot).ge)
    · exact h.onPeer ho fun _ _ _ _ hold => hold
  | merge _ _ _ hrole => exact .of_follower ho (h.store.written _ _) (by simp [hrole])
  | snapshot hbg' hdist hlog hidx _ _ hsnp =>
    subst hsnp hbg'
    by_cases hlt : ulong ctx.params.reservedLogItems < s.smCommitIndex
    · refine ⟨ho, ?_, fun hl p hp => ?_⟩
      · exact (h.store.compact _).of_eq (if_pos hlt)
      · have hrange := ht.range ((hbg rfl).symm.trans hl) hdist (by omega)
        have hslot := h.store.nextSlot_compact
          (k := s.smCommitIndex - ulong ctx.params.reservedLogItems) (by rw [hlog, hidx]; exact hrange)
        obtain ⟨hle, hpos⟩ := h.next hl p hp
        refine ⟨(hle.trans hslot).trans_eq ?_, hpos⟩
        exact congrArg LogStore.nextSlot (if_pos hlt).symm
    · exact h.same ho (if_neg hlt) rfl rfl
  | addConfigured hc hadded hnew =>
    rw [hs.added_eq_nil (h₀.offers hin hc) hadded hnew]
    exact h
  | dropUnconfigured hc =>
    rw [hs.dropUnconfigured_eq (h₀.offers hin hc)]
    exact h
  | installCompact _ hrole => exact .of_follower ho (h.store.compact _) (by simp [hrole])
  | leaveConfig _ hdown => exact (hdown.ne' h₀.down).elim
  | joinProgress hin' => exact (hext hin').elim
  | dropOnly hin' => exact (hext hin').elim
  | abandon _ hin' => exact (hext hin').elim
  | invite hreq htype | leaving hreq htype | join hreq htype | pack hreq htype
  | packCommit hreq htype => subst hreq; simp [StaticInput, htype] at hin
  | confAppend hc => exact (hext (isExt_of_newConfig (by rw [hc]; rfl))).elim
  | _ => exact h.same ho rfl rfl rfl

end

/-! ## Which object a request went through -/

/-- Whose peer object it is. -/
def Peer.tag (p : Peer) : Int × Nat := (p.id, p.uid)

section

variable {m : Members} {ctx : Context} {inp : Input} {s₀ s s' : Server} {o : List Effect}

theorem tags_onPeer (s : Server) (uid : Nat) {f : Peer → Peer} (hf : ∀ p, (f p).tag = p.tag) :
    (s.onPeer uid f).peers.map Peer.tag = s.peers.map Peer.tag := by
  show (s.peers.map _).map Peer.tag = _
  rw [List.map_map]
  refine List.map_congr_left fun p _ => ?_
  show (if p.uid = uid then f p else p).tag = p.tag
  split
  · exact hf p
  · rfl

theorem tags_takeLead (s : Server) : (takeLead s).peers.map Peer.tag = s.peers.map Peer.tag := by
  show (s.peers.map (resetPeer s)).map Peer.tag = _
  rw [List.map_map]
  refine List.map_congr_left fun p _ => ?_
  simp only [Function.comp_apply, Peer.tag, Peer.id, resetPeer, Peer.setNextLogIdx,
    Peer.setSnapshotInSync, Peer.setFree, Peer.enableHb, Peer.resumeHbSpeed]

theorem tags_of_core (h : s'.peers.map Peer.core = s.peers.map Peer.core) :
    s'.peers.map Peer.tag = s.peers.map Peer.tag := by
  have htags := congrArg (List.map Peer.tag) h
  rwa [List.map_map, List.map_map] at htags

/-- The peer objects of a static server stay. -/
theorem Micro.tags (hs : StaticServer m s) (h₀ : StaticServer m s₀) (hin : StaticInput m inp)
    (hm : Micro ctx inp s₀ s o s') : s'.peers.map Peer.tag = s.peers.map Peer.tag := by
  have hext := hin.not_isExt
  cases hm with
  | quiet hq => exact tags_of_core hq.peers
  | enterTerm => exact tags_of_core (keeps_enterTerm _ s).peers
  | stepDown => exact tags_of_core (keeps_becomeFollower s).peers
  | standWin | tallyWin => exact tags_takeLead _
  | aim =>
    refine tags_onPeer s _ fun p => ?_
    split <;> rfl
  | startSync => exact tags_onPeer s _ fun _ => rfl
  | ack => exact tags_onPeer s _ fun _ => rfl
  | nack =>
    refine tags_onPeer s _ fun p => ?_
    unfold moveBack
    split <;> rfl
  | snapshotAck _ _ _ hf =>
    rcases hf with rfl | rfl
    · exact tags_onPeer s _ fun _ => rfl
    · exact tags_onPeer s _ fun _ => rfl
  | addConfigured hc hadded hnew =>
    rw [hs.added_eq_nil (h₀.offers hin hc) hadded hnew]
    rfl
  | dropUnconfigured hc => rw [hs.dropUnconfigured_eq (h₀.offers hin hc)]
  | leaveConfig _ hdown => exact (hdown.ne' h₀.down).elim
  | dropOnly hin' => exact (hext hin').elim
  | _ => rfl

/-- A static server sends through the object of the server that it sends to. -/
theorem Micro.sends_tagged (hs : StaticServer m s) (hin : StaticInput m inp)
    (hm : Micro ctx inp s₀ s o s') {rpc : Rpc} (hrpc : .send rpc ∈ o) :
    rpc.req.src = s.id ∧ (rpc.target, rpc.uid) ∈ s.peers.map Peer.tag := by
  have hobj {uid : Nat} {p : Peer} (hp : s.object uid = some p) :
      (p.id, uid) ∈ s.peers.map Peer.tag := by
    have huid : p.uid = uid := by simpa using List.find?_some hp
    subst huid
    exact List.mem_map_of_mem (f := Peer.tag) (hs.object_mem hp)
  cases hm with
  | sendVote _ _ _ hp _ =>
    cases List.mem_singleton.1 hrpc
    exact ⟨rfl, List.mem_map_of_mem (f := Peer.tag) hp⟩
  | sendAppend _ hmsg =>
    cases List.mem_singleton.1 hrpc
    obtain ⟨p, t, es, hp, -, -, -, -, rfl⟩ := hmsg
    exact ⟨rfl, hobj hp⟩
  | sendSnapshot hrole hmsg =>
    cases List.mem_singleton.1 hrpc
    obtain ⟨p, sync, e, r, hp, -, -, -, hsrc, hdst, -⟩ := hmsg
    obtain ⟨-, rfl, rfl⟩ := hrole.resolve_right hin.not_isExt
    exact ⟨hsrc, hdst ▸ hobj hp⟩
  | note he => cases List.mem_singleton.1 hrpc; exact he.elim
  | merge => exact (writtenOut_inert _ hrpc).elim
  | sendExt hin' => exact (hin.not_isAdmin hin').elim
  | resend hin' => subst hin'; exact hin.elim
  | client => cases List.mem_singleton.1 hrpc
  | process => cases List.mem_singleton.1 hrpc
  | retry => cases List.mem_singleton.1 hrpc
  | _ => cases hrpc

end

/-- Requests went through the objects of their targets, and these answer them. -/
structure Placed (c : Cluster) : Prop where
  uid : ∀ rpc ∈ c.rpcs, (rpc.target, rpc.uid) ∈ (c.servers rpc.req.src).peers.map Peer.tag
  src : ∀ rpc resp, c.RespTo rpc resp → rpc.req.type = .appendEntriesRequest →
    resp.src = rpc.target

namespace Placed

variable {m : Members} {ctx : Context} {inp : Input} {c : Cluster} {i : Int} {s₀ s' : Server}
  {o : List Effect}

theorem micro (h : Placed c) (hr : Record c) (hc : StaticCluster m c) (hi : i ∈ m.ids)
    (h₀ : StaticServer m s₀) (hin : StaticInput m inp)
    (hm : Micro ctx inp s₀ (c.servers i) o s') : Placed (c.update i s' o) where
  uid rpc hrpc := by
    have htags (j : Int) : ((c.update i s' o).servers j).peers.map Peer.tag =
        (c.servers j).peers.map Peer.tag := by
      by_cases hji : j = i
      · subst hji
        simpa [Cluster.update] using hm.tags (hc.server j hi) h₀ hin
      · simp [Cluster.update, hji]
    rw [htags]
    rcases Cluster.mem_update_rpcs hrpc with hrpc | hrpc
    · exact h.uid rpc hrpc
    · obtain ⟨hsrc, hmem⟩ := hm.sends_tagged (hc.server i hi) hin hrpc
      rw [hsrc, hc.id i hi]
      exact hmem
  src rpc resp hto := h.src rpc resp (hto.of_update hr.numbered)

theorem answer {rpc : Rpc} {k : Nat} {resp : RespMsg} (h : Placed c) (hc : StaticCluster m c)
    (hk : c.rpcs[k]? = some rpc) (hrep : Replied s₀ rpc.req resp (c.servers rpc.target)) :
    Placed (c.answer k resp) where
  uid := h.uid
  src rpc' resp' hto htype := by
    rcases hto.of_answer with hto | ⟨hk', rfl⟩
    · exact h.src rpc' resp' hto htype
    · cases hk.symm.trans hk'
      exact (hrep.append htype).src.trans (hc.id _ (hc.rpc rpc (List.mem_of_getElem? hk)).dst)

/-- The reply to an append request frees the object that its sender is found under. -/
theorem uid_eq {rpc : Rpc} {resp : RespMsg} (h : Placed c) (hc : StaticCluster m c)
    (hto : c.RespTo rpc resp) (hreq : rpc.req.type = .appendEntriesRequest) {p : Peer}
    (hp : (c.servers rpc.req.src).findPeer resp.src = some p) : p.uid = rpc.uid := by
  have hrpc : rpc ∈ c.rpcs := by
    obtain ⟨k, hk, -⟩ := hto
    exact List.mem_of_getElem? hk
  have hid : p.id = rpc.target := by
    rw [← h.src rpc resp hto hreq]
    simpa using List.find?_some hp
  obtain ⟨q, hq, htag⟩ := List.mem_map.1 (h.uid rpc hrpc)
  obtain ⟨hqid, hquid⟩ := Prod.mk.inj htag
  -- The peers of a static server have different ids.
  have hnodup : ((c.servers rpc.req.src).peers.map Peer.id).Nodup := by
    rw [(hc.server _ (hc.rpc rpc hrpc).src).peers_ids]
    exact m.nodup.erase _
  obtain rfl := List.inj_on_of_nodup_map hnodup hq (List.mem_of_find?_eq_some hp)
    (hqid.trans hid.symm)
  exact hquid

end Placed

/-! ## Rejections -/

theorem landing_pos {slot nextIdx next : Nat} (hslot : 0 < slot) {idle : Prop} [Decidable idle]
    (hidle : idle) : 0 < landing idle slot nextIdx next := by
  unfold landing
  split
  next => exact hslot
  next h => exact Nat.pos_of_ne_zero fun h0 => h ⟨hidle, h0⟩

/-- A leader that handles a rejection from a free peer leaves no cursor at 0. -/
theorem positive_rejected (ctx : Context) {s : Server} (ho : PeerObjects s) (hslot : 0 < s.nextSlot)
    {rpc : Rpc} {resp : RespMsg} (now : Int) (hh : rpc.handler = .peerResp)
    (hreq : rpc.req.type = .appendEntriesRequest) (htype : resp.type = .appendEntriesResponse)
    (hacc : resp.accepted = false) (huid : ∀ p ∈ s.findPeer resp.src, p.uid = rpc.uid)
    (hpos : s.role = .leader → ∀ p ∈ s.peers, 0 < p.nextLogIdx)
    (hl : ((Input.response rpc resp now).handle ctx s).state.role = .leader) :
    ∀ p ∈ ((Input.response rpc resp now).handle ctx s).state.peers, 0 < p.nextLogIdx := by
  rw [appendResponse_state ctx s now hh htype] at hl ⊢
  have hpeers := peers_replied hreq resp.src now s
  have hquiet : Quiet s (heardFrom resp.src now (handleRpcResult rpc true s)) :=
    (quiet_handleRpcResult rpc true s).trans (quiet_heardFrom resp.src now _)
  generalize heardFrom resp.src now (handleRpcResult rpc true s) = s₂ at hl hpeers hquiet ⊢
  by_cases hlt : s₂.term < resp.term
  · rw [bind_apply_congr (updateTerm_of_lt hlt), pure_bind_apply] at hl
    have hrole : (enterTerm resp.term s₂).role = .follower := becomeFollower_role _
    cases hrole.symm.trans hl
  rw [bind_apply_congr (updateTerm_of_le (Nat.le_of_not_lt hlt)), pure_bind_apply] at hl ⊢
  simp only [Bool.false_eq_true, if_false] at hl ⊢
  have hpos₂ : s₂.role = .leader → ∀ p ∈ s₂.peers, 0 < p.nextLogIdx := by
    intro hl₂ p hp
    obtain ⟨q, hq, hcore⟩ := hquiet.mem_peers hp
    rw [← show q.nextLogIdx = p.nextLogIdx from Peer.field_eq hcore Peer.nextLogIdx]
    exact hpos ((hquiet.field Server.role).symm.trans hl₂) q hq
  have hfind := findPeer_map hpeers (fun q => congrArg Cursor.id (replied_cursor _ _ _ q)) resp.src
  cases hp : s.findPeer resp.src with
  | none =>
    have hstate : (handleAppendEntriesResp ctx resp s₂).state = s₂ := by
      unfold handleAppendEntriesResp
      rw [get_bind_apply, hfind, hp]
      rfl
    rw [hstate] at hl ⊢
    exact hpos₂ hl
  | some p =>
    rw [hp] at hfind
    by_cases hrole : s₂.role = .leader
    · have hfree : (replied rpc resp.src now p).busyFlag = false :=
        (replied_busy rpc resp.src now p).2 (.inr (huid p hp))
      intro p' hp'
      have hmem : p'.cursor ∈ (handleAppendEntriesResp ctx resp s₂).state.cursors :=
        List.mem_map_of_mem hp'
      rw [cursors_rejected (ho.quiet hquiet) hfind hacc] at hmem
      obtain ⟨c, hc, hon⟩ := List.mem_map.1 hmem
      show 0 < p'.cursor.next
      rw [← hon]
      unfold Cursor.on
      split
      · exact landing_pos ((hquiet.field Server.nextSlot : s₂.nextSlot = s.nextSlot) ▸ hslot)
          ⟨hrole, hfree⟩
      · obtain ⟨q, hq, rfl⟩ := List.mem_map.1 hc
        exact hpos₂ hrole q hq
    · -- Only a leader goes on with the peer.
      have hstate : (handleAppendEntriesResp ctx resp s₂).state.role = s₂.role := by
        rw [rejected_state hfind hacc]
        unfold catchUp
        rw [get_bind_apply, when_neg fun h => hrole h.1]
        rfl
      exact (hrole (hstate.symm.trans hl)).elim

/-! ## Runs -/

/-- What holds between events: the cursors of every leader lie within its log, above 0. -/
structure CursorInv (m : Members) (c : Cluster) : Prop where
  record : Record c
  placed : Placed c
  ranged : ∀ i ∈ m.ids, Ranged True (c.servers i)

section

variable {m : Members} {ctx : Context} {c : Cluster} {e : Event}

/-- The event hands a rejection to a server. -/
def Event.Rejects (e : Event) (c : Cluster) : Prop :=
  ∃ i inp k, e.input c = some (i, inp, k) ∧ inp.Rejects

theorem CursorInv.turn (h : CursorInv m c) {i : Int} {inp : Input} {k : Option Nat} (hi : i ∈ m.ids)
    (hin : e.input c = some (i, inp, k)) (hrange : inp.InRange ctx (c.servers i)) :
    RangeTurn (¬e.Rejects c) ctx inp (c.servers i) where
  range := hrange
  first hl p hp := ((h.ranged i hi).next hl p hp).2 trivial
  index resp hans hacc := by
    obtain ⟨rpc, now, rfl, -, htype⟩ := hans
    obtain ⟨hto, -⟩ := (Cluster.legit_of_input hin).1
    exact h.record.index rpc resp hto (h.record.append_of_reply hto htype) hacc
  accepts hno hrej := hno ⟨i, inp, k, hin, hrej⟩

theorem commitBg_input_iff {i : Int} {inp : Input} {k : Option Nat}
    (hin : e.input c = some (i, inp, k)) : inp = .commitBg ↔ e = .commitBg i := by
  cases e with
  | commitBg j => cases hin; simp
  | deliver n now =>
    obtain ⟨rpc, -, heq⟩ := Option.map_eq_some_iff.1 hin
    cases heq; simp
  | respond n now =>
    obtain ⟨⟨n', resp⟩, -, hin⟩ := Option.bind_eq_some_iff.1 hin
    obtain ⟨rpc, -, hin⟩ := Option.bind_eq_some_iff.1 hin
    cases hin; simp
  | fail n =>
    obtain ⟨rpc, -, heq⟩ := Option.map_eq_some_iff.1 hin
    cases heq; simp
  | resend n =>
    obtain ⟨rpc, -, heq⟩ := Option.map_eq_some_iff.1 hin
    cases heq; simp
  | _ => cases hin; simp

/-- What the small steps of an event keep. -/
theorem ranged_step (he : e.Static m)
    (hrange : e.Allowed (fun c i inp => inp.InRange ctx (c.servers i)) c) (hc : StaticCluster m c)
    (h : CursorInv m c) : StaticCluster m (c.step ctx e) ∧ Record (c.step ctx e) ∧
      Placed (c.step ctx e) ∧ ∀ i ∈ m.ids, Ranged (¬e.Rejects c) ((c.step ctx e).servers i) := by
  suffices hstep : StaticCluster m (c.step ctx e) ∧ Record (c.step ctx e) ∧ Placed (c.step ctx e) ∧
      (∀ i ∈ m.ids, Ranged (¬e.Rejects c) ((c.step ctx e).servers i)) ∧
      ∀ i, e = .commitBg i → ((c.step ctx e).servers i).role = (c.servers i).role from
    ⟨hstep.1, hstep.2.1, hstep.2.2.1, hstep.2.2.2.1⟩
  refine static_step (J := fun c' => Record c' ∧ Placed c' ∧
      (∀ i ∈ m.ids, Ranged (¬e.Rejects c) (c'.servers i)) ∧
      ∀ i, e = .commitBg i → (c'.servers i).role = (c.servers i).role)
    (K := fun c i inp => RangeTurn (¬e.Rejects c) ctx inp (c.servers i) ∧
      (inp = .commitBg ↔ e = .commitBg i)) he ?_ hc ?_ ?_ ?_
  · intro i inp k hin
    exact ⟨h.turn (hc.input he hin).1 hin (hrange i inp k hin), commitBg_input_iff hin⟩
  · refine ⟨h.record, h.placed, fun i hi => ?_, fun _ _ => rfl⟩
    obtain ⟨ho, hs, hnext⟩ := h.ranged i hi
    exact ⟨ho, hs, fun hl p hp => ⟨(hnext hl p hp).1, fun _ => (hnext hl p hp).2 trivial⟩⟩
  · rintro c' i inp o s' ht ⟨hturn, hbg⟩ ⟨hrec, hplaced, hranged, hrole⟩ hm
    refine ⟨hrec.micro ht.legit hm, hplaced.micro hrec ht.static ht.mem (ht.start.server i ht.mem)
      ht.input hm, fun j hj => ?_, fun j hj => ?_⟩
    · by_cases hji : j = i
      · subst hji
        have hs' := (hranged j hj).micro (ht.static.server j hj) (ht.start.server j hj) ht.input
          hturn (fun hin => hrole j (hbg.1 hin)) hm
        simpa [Cluster.update] using hs'
      · simpa [Cluster.update, hji] using hranged j hj
    · by_cases hji : j = i
      · subst hji
        simpa [Cluster.update] using (hm.role_commitBg (hbg.2 hj)).trans (hrole j hj)
      · simpa [Cluster.update, hji] using hrole j hj
  · rintro c' rpc now k resp ht - ⟨hrec, hplaced, hranged, hrole⟩ hk hrep
    exact ⟨hrec.answer hk hrep, hplaced.answer ht.static hk hrep, hranged, hrole⟩

theorem cursorInv_step (he : e.Static m)
    (hrange : e.Allowed (fun c i inp => inp.InRange ctx (c.servers i)) c) (hc : StaticCluster m c)
    (h : CursorInv m c) : StaticCluster m (c.step ctx e) ∧ CursorInv m (c.step ctx e) := by
  obtain ⟨hc', hrec, hplaced, hranged⟩ := ranged_step he hrange hc h
  refine ⟨hc', hrec, hplaced, fun i hi => ?_⟩
  obtain ⟨ho, hs, hnext⟩ := hranged i hi
  refine ⟨ho, hs, fun hl p hp => ⟨(hnext hl p hp).1, fun _ => ?_⟩⟩
  by_cases hrej : e.Rejects c
  · -- The small steps pass through 0; the handler does not end there.
    obtain ⟨j, inp, k, hin, resp, ⟨rpc, now, rfl, hh, htype⟩, hacc⟩ := hrej
    have hstep : c.step ctx e = c.take ctx j (.response rpc resp now) k := by
      unfold Cluster.step
      rw [hin]
    rw [hstep] at hl hp
    obtain ⟨hto, hsrc⟩ := (Cluster.legit_of_input hin).1
    have hreq := h.record.append_of_reply hto htype
    by_cases hij : i = j
    · subst hij
      obtain ⟨ho₀, hs₀, hnext₀⟩ := h.ranged i hi
      rw [Cluster.take_servers] at hl hp
      refine positive_rejected ctx ho₀ hs₀.one_le_nextSlot now hh hreq htype hacc (fun q hq => ?_)
        (fun hl q hq => (hnext₀ hl q hq).2 trivial) hl p hp
      exact h.placed.uid_eq hc hto hreq (hsrc ▸ hq)
    · rw [Cluster.take_servers_ne ctx c _ k hij] at hl hp
      exact ((h.ranged i hi).next hl p hp).2 trivial
  · exact (hnext hl p hp).2 hrej

theorem cursorInv_start (ctx : Context) {b : Int → Boot}
    (hstore : ∀ i ∈ m.ids, (b i).logStore.Keyed) : CursorInv m (Cluster.start ctx b) where
  record := .start ctx b
  placed := ⟨fun _ h => (List.not_mem_nil h).elim, by
    rintro rpc resp ⟨k, -, hr⟩
    exact (List.not_mem_nil hr).elim⟩
  ranged i hi := by
    obtain ⟨ps, n, hframe⟩ := new_frame ctx i (b i)
    refine .of_follower (.new ctx i (b i)) ((hstore i hi).of_eq (hframe.field Server.logStore)) ?_
    have hrole : (Server.new ctx i (b i)).role = .follower := hframe.field Server.role
    show (Server.new ctx i (b i)).role ≠ _
    simp [hrole]

end

/-! ## Creating a request -/

/-- The exception is another one than the complaint about a cursor beyond the log. -/
def RaftException.OtherThanTooLarge (e : RaftException) : Prop :=
  ∀ idx slot, e ≠ .lastLogIndexTooLarge idx slot

section

variable {ctx : Context} {s : Server}

theorem raises_exitWith {E : RaftException → Prop} {α : Type} (code : Int) {e : RaftException}
    (h : E e) : Raises E (exitWith code e : M α) :=
  (raises_emit _).bind fun _ => raises_throw h

theorem raises_orThrow {E : RaftException → Prop} {α : Type} {e : RaftException} (h : E e)
    (a : Option α) : Raises E (orThrow e a) := by
  cases a with
  | none => exact raises_throw h
  | some a => exact raises_pure a

theorem raises_termForLog (idx : Nat) :
    Raises RaftException.OtherThanTooLarge (termForLog idx) := by
  refine raises_get.bind fun s => raises_ite (raises_pure 0) (raises_ite (raises_pure _) ?_)
  split
  · exact raises_ite (raises_pure _) (raises_exitWith _ nofun)
  · exact raises_exitWith _ nofun

theorem raises_createSyncSnapshotReq (uid last term commitIdx : Nat) :
    Raises RaftException.OtherThanTooLarge (createSyncSnapshotReq ctx uid last term commitIdx) := by
  have hstart (p : Peer) :
      Raises RaftException.OtherThanTooLarge (startSnapshotSync uid last p) := by
    refine raises_get.bind fun s => ?_
    split
    · exact raises_throw nofun
    · refine raises_ite (raises_exitWith _ nofun) (raises_ite (raises_exitWith _ nofun) ?_)
      exact raises_modify _
  have hblock (p : Peer) (sync : SnapshotSyncCtx) :
      Raises RaftException.OtherThanTooLarge (snapshotBlock ctx p sync term commitIdx) := by
    refine raises_get.bind fun s => raises_ite (raises_throw nofun) ?_
    exact raises_ite (raises_exitWith _ nofun) (raises_ite (raises_throw nofun) (raises_pure _))
  refine raises_get.bind fun s => (raises_orThrow nofun _).bind fun p => ?_
  refine (raises_when (hstart p)).bind fun _ => raises_get.bind fun s => ?_
  exact (raises_orThrow nofun _).bind fun sync => hblock p sync

/-- With a cursor within the log, `create_append_entries_req` does not find it too large. -/
theorem createAppendEntriesReq_otherThanTooLarge {p : Peer} (hp : s.object p.uid = some p)
    (hpos : 0 < p.nextLogIdx) (hle : p.nextLogIdx ≤ s.nextSlot) {e : RaftException}
    (he : (createAppendEntriesReq ctx p.uid s).result = .error e) : e.OtherThanTooLarge := by
  have hobj : (aimed p.uid s).object p.uid = some p := by
    unfold aimed
    rw [object_onPeer s p.uid _ fun q => by split <;> rfl, hp, Option.map_some, if_neg hpos.ne']
  have hlast : usub p.nextLogIdx 1 < (aimed p.uid s).nextSlot := by
    rw [usub_of_le hpos]
    show p.nextLogIdx - 1 < s.nextSlot
    omega
  unfold createAppendEntriesReq at he
  rw [modify_bind_apply, get_bind_apply] at he
  change ((orThrow .crash ((aimed p.uid s).object p.uid) >>= _) (aimed p.uid s)).result = _ at he
  rw [hobj] at he
  change ((if (aimed p.uid s).nextSlot ≤ usub p.nextLogIdx 1 then _ else _ : M ReqMsg)
    (aimed p.uid s)).result = _ at he
  rw [if_neg (not_le.2 hlast)] at he
  refine raises_ite (raises_createSyncSnapshotReq _ _ _ _) ?_ _ e he
  exact (raises_termForLog _).bind fun t => (raises_orThrow nofun _).bind fun es => raises_pure _

end

/-- Server 1 is elected, and server 2 accepts its first entry. -/
def acceptOne : List Event := electOne ++ [.deliver 2 0, .respond 1 0]

/-- Server 1 is elected in term 1, and server 2 accepts three entries; the last reply is late. Server
3 is elected in term 2 and cuts the log of server 1, which is elected again in term 3. -/
def longReply : List Event :=
  [.electionTimeout 1, .deliver 0 0, .deliver 1 0, .respond 0 0, .respond 1 0, .deliver 4 0,
    .client 1 [[7, 0], [8, 0]] 0, .respond 2 0, .deliver 8 0,
    .electionTimeout 3, .deliver 11 0, .deliver 12 0, .respond 4 0, .respond 5 0, .deliver 13 0,
    .electionTimeout 1, .deliver 19 0, .deliver 20 0, .respond 7 0, .respond 8 0]

end EnclaveRaft
