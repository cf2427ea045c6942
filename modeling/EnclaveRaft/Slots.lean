import EnclaveRaft.ElectionTimer
import EnclaveRaft.Objects
import EnclaveRaft.SnapshotTransfer

/-!
# Replication slots

A peer takes one append or snapshot request at a time: `request_append_entries` does nothing while
the peer's `busy_flag_` is set, sets it before it creates a request, and the result of the call, a
response or a failure, clears it. The flag is meant to be set exactly while a request is outstanding.

It is not always. `become_leader` clears the flags of all peers, also of those with a request from an
earlier term outstanding, and an exception while the request is created leaves the flag set with
nothing sent. Without these two the flag says what it is meant to say, in every run.
-/

namespace EnclaveRaft

open Act Server

/-! ## Calls -/

/-- A server, the requests it has sent whose handlers have not been invoked, and those that wait to be
sent again. -/
structure Caller where
  server : Server
  sent : List Rpc := []
  retries : List Rpc := []

namespace Caller

/-- What happens to a server. The result of a call comes at most once. -/
inductive Event
  | electionTimeout
  | hbTimeout (uid : Nat)
  | request (req : ReqMsg) (now : Int)
  | respond (n : Nat) (resp : RespMsg) (now : Int)
  | fail (n : Nat)
  | resend (n : Nat)
  | commitBg

def take (ctx : Context) (s : Caller) (inp : Input) : Caller :=
  let r := inp.handle ctx s.server
  { server := r.state
    sent := s.sent ++ r.out.filterMap Effect.sent
    retries := s.retries ++ r.out.filterMap Effect.retried }

def step (ctx : Context) (s : Caller) : Event → Option Caller
  | .electionTimeout => some (s.take ctx .electionTimeout)
  | .hbTimeout uid => some (s.take ctx (.hbTimeout uid))
  | .request req now => some (s.take ctx (.request req now))
  | .respond n resp now => (s.sent[n]?).map fun rpc =>
      take ctx { s with sent := s.sent.eraseIdx n } (.response rpc resp now)
  | .fail n => (s.sent[n]?).map fun rpc =>
      take ctx { s with sent := s.sent.eraseIdx n } (.failure rpc)
  | .resend n => (s.retries[n]?).map fun rpc =>
      take ctx { s with retries := s.retries.eraseIdx n } (.resend rpc)
  | .commitBg => some (s.take ctx .commitBg)

/-- Append and snapshot requests outstanding through a peer object. -/
def outstanding (s : Caller) (uid : Nat) : Nat :=
  s.sent.countP fun rpc => rpc.req.type.takesSlot && rpc.uid = uid

/-- Every peer has at most one request outstanding, and is busy exactly if it has one. -/
def Disciplined (s : Caller) : Prop :=
  ∀ p ∈ s.server.peers, s.outstanding p.uid ≤ 1 ∧ (p.busyFlag ↔ s.outstanding p.uid = 1)

end Caller

/-! ## When a request can be created -/

/-- `term_for_log` knows the term at an index. -/
def TermKnown (s : Server) (idx : Nat) : Prop :=
  idx = 0 ∨ s.logStore.startIdx ≤ idx ∨ ∃ snp ∈ s.smLastSnapshot, idx = snp.lastLogIdx

/-- The state machine can read the next block of a transfer, and a buffer can hold it. -/
def BlockReady (ctx : Context) (sync : SnapshotSyncCtx) : Prop :=
  0 ≤ blockSize ctx sync ∧
    (blockSize ctx sync).toNat ≤ (ctx.stateMachine.readSnapshotData sync.snapshot sync.offset
      (blockSize ctx sync).toNat).length ∧
    sync.snapshot.lastConfig.encodedSize + 33 + (blockSize ctx sync).toNat < 2 ^ 31

/-- The index that the next request to a peer starts after. -/
def lastLogIdxFor (s : Server) (p : Peer) : Nat :=
  usub (if p.nextLogIdx = 0 then s.nextSlot else p.nextLogIdx) 1

/-- A request that starts after `last` needs a snapshot. -/
def Compacted (s : Server) (last : Nat) : Prop := 0 < last ∧ last < usub s.logStore.startIdx 1

/-- The checks of `create_append_entries_req`: the request to the peer can be created. -/
def CanRequest (ctx : Context) (s : Server) (p : Peer) : Prop :=
  lastLogIdxFor s p < s.nextSlot ∧
    (Compacted s (lastLogIdxFor s p) →
      ∃ sync ∈ nextSync s p (lastLogIdxFor s p), BlockReady ctx sync) ∧
    (¬Compacted s (lastLogIdxFor s p) →
      TermKnown s (lastLogIdxFor s p) ∧ (entriesAfter ctx s (lastLogIdxFor s p)).isSome)

/-- Requests to all peers can be created. -/
def Requestable (ctx : Context) (s : Server) : Prop := ∀ p ∈ s.peers, CanRequest ctx s p

section Decidable

variable (ctx : Context) (s : Server)

instance (idx : Nat) : Decidable (TermKnown s idx) := inferInstanceAs (Decidable (_ ∨ _ ∨ _))

instance (sync : SnapshotSyncCtx) : Decidable (BlockReady ctx sync) :=
  inferInstanceAs (Decidable (_ ∧ _ ∧ _))

instance (last : Nat) : Decidable (Compacted s last) := inferInstanceAs (Decidable (_ ∧ _))

instance (p : Peer) : Decidable (CanRequest ctx s p) := inferInstanceAs (Decidable (_ ∧ _ ∧ _))

instance : DecidablePred (Requestable ctx) :=
  fun s => inferInstanceAs (Decidable (∀ p ∈ s.peers, _))

end Decidable

section Runs

variable {ctx : Context} {s : Server} {uid : Nat} {p : Peer}

theorem termForLog_runs {idx : Nat} (h : TermKnown s idx) :
    ∃ t, Runs (termForLog idx) s t s [] := by
  by_cases h0 : idx = 0
  · exact ⟨0, .get_bind (.of_pos h0 runs_pure)⟩
  by_cases hstart : s.logStore.startIdx ≤ idx
  · exact ⟨_, .get_bind (.of_neg h0 (.of_pos hstart runs_pure))⟩
  rcases h with h | h | ⟨snp, hsnp, hidx⟩
  · exact (h0 h).elim
  · exact (hstart h).elim
  · refine ⟨snp.lastLogTerm, .get_bind (.of_neg h0 (.of_neg hstart ?_))⟩
    rw [Option.mem_def.1 hsnp]
    exact .of_pos hidx runs_pure

/-- What creating a request does to the peer object: nothing, or it starts the transfer of the last
snapshot. -/
def Prepares (ctx : Context) (s : Server) (g : Peer → Peer) : Prop :=
  (g = fun q => q) ∨ ∃ snp, s.lastSnapshot = some snp ∧ BlockReady ctx ⟨snp, 0⟩ ∧
    g = (·.setSnapshotInSync (some snp))

theorem BlockReady.fits {sync : SnapshotSyncCtx} (h : BlockReady ctx sync) :
    (cutBlock ctx sync).serialize.isOk := by
  have hlen : (cutBlock ctx sync).data.length ≤ (blockSize ctx sync).toNat := by
    rw [cutBlock, List.length_take]
    exact Nat.min_le_left _ _
  exact (SnapshotSyncReq.serialize_isOk _).2 ((Nat.add_le_add_left hlen _).trans_lt h.2.2)

theorem createSyncSnapshotReq_runs {last : Nat} (term commitIdx : Nat) {sync : SnapshotSyncCtx}
    (hp : s.object uid = some p) (hsync : nextSync s p last = some sync) (hb : BlockReady ctx sync) :
    ∃ req g, Runs (createSyncSnapshotReq ctx uid last term commitIdx) s req (s.onPeer uid g) [] ∧
      req.type = .installSnapshotRequest ∧ Prepares ctx s g := by
  have hrun : Runs (createSyncSnapshotReq ctx uid last term commitIdx) s _
      (s.onPeer uid (prepare s p sync)) [] :=
    (createSyncSnapshotReq_eq term commitIdx hp hsync).1.trans
      (snapshotBlock_ok term commitIdx hb.1 hb.2.1 hb.fits)
  refine ⟨_, prepare s p sync, hrun, rfl, ?_⟩
  unfold prepare
  unfold nextSync at hsync
  split at hsync
  next hneeds =>
    obtain ⟨snp, hlast, hsnp⟩ := Option.bind_eq_some_iff.1 hsync
    obtain ⟨-, hsnp⟩ := Option.ite_none_right_eq_some.1 hsnp
    cases hsnp
    exact .inr ⟨snp, hlast, hb, funext fun q => if_pos hneeds⟩
  next hneeds => exact .inl (funext fun q => if_neg hneeds)

/-- What `create_append_entries_req` does to the peer object at first. -/
def retarget (s : Server) (q : Peer) : Peer :=
  if q.nextLogIdx = 0 then q.setNextLogIdx s.nextSlot else q

theorem usub_retarget (s : Server) (q : Peer) :
    usub (retarget s q).nextLogIdx 1 = lastLogIdxFor s q := by
  unfold retarget lastLogIdxFor
  split <;> rfl

theorem slot_retarget (s : Server) (q : Peer) : (retarget s q).slot = q.slot := by
  unfold retarget
  split <;> rfl

theorem snpSyncCtx_retarget (s : Server) (q : Peer) : (retarget s q).snpSyncCtx = q.snpSyncCtx := by
  unfold retarget
  split <;> rfl

theorem createAppendEntriesReq_runs (hp : s.object uid = some p) (hr : CanRequest ctx s p) :
    ∃ req g, Runs (createAppendEntriesReq ctx uid) s req
        ((s.onPeer uid (retarget s)).onPeer uid g) [] ∧
      req.type.takesSlot = true ∧ Prepares ctx s g := by
  obtain ⟨hlt, hsnp, happ⟩ := hr
  have hp' : (s.onPeer uid (retarget s)).object uid = some (retarget s p) := by
    rw [object_onPeer s uid (retarget s) (fun q => congrArg Prod.fst (slot_retarget s q)), hp]
    rfl
  have hlast := usub_retarget s p
  by_cases hc : Compacted s (lastLogIdxFor s p)
  · obtain ⟨sync, hsync, hb⟩ := hsnp hc
    have hsync' : nextSync (s.onPeer uid (retarget s)) (retarget s p) (lastLogIdxFor s p) =
        some sync := by
      unfold nextSync needsLatestSnapshot
      rw [snpSyncCtx_retarget]
      exact hsync
    rw [← hlast] at hlt hc hsync'
    obtain ⟨req, g, hreq, htype, hg⟩ :=
      createSyncSnapshotReq_runs s.term s.quickCommitIdx hp' hsync' hb
    refine ⟨req, g, .modify_bind (.get_bind ?_), by simp [htype, MsgType.takesSlot], hg⟩
    exact Runs.bind (orThrow_runs hp') (.of_neg (not_le.2 hlt) (.of_pos hc hreq))
  · obtain ⟨hterm, hentries⟩ := happ hc
    rw [← hlast] at hlt hc hterm hentries
    obtain ⟨t, ht⟩ := termForLog_runs (s := s.onPeer uid (retarget s)) hterm
    obtain ⟨es, hes⟩ := Option.isSome_iff_exists.1 hentries
    refine ⟨appendReq (s.onPeer uid (retarget s)) (retarget s p) t es, fun q => q,
      .modify_bind (.get_bind ?_), rfl, .inl rfl⟩
    rw [onPeer_self]
    refine Runs.bind (orThrow_runs hp') (.of_neg (not_le.2 hlt) (.of_neg hc ?_))
    exact Runs.bind ht (Runs.bind (orThrow_runs hes) runs_pure)

theorem requestAppendEntriesTo_runs (hp : s.object uid = some p) (hfree : p.busyFlag = false)
    (hr : CanRequest ctx s p) :
    ∃ req g s', s' = ((s.onPeer uid Peer.makeBusy).onPeer uid (retarget s)).onPeer uid g ∧
      Runs (requestAppendEntriesTo ctx uid) s true s' [.send ⟨.peerResp, uid, p.id, req, s'⟩] ∧
      req.type.takesSlot = true ∧ Prepares ctx s g := by
  have hp' : (s.onPeer uid Peer.makeBusy).object uid = some p.makeBusy := by
    rw [object_onPeer s uid Peer.makeBusy (fun _ => rfl), hp]
    rfl
  obtain ⟨req, g, hreq, htype, hg⟩ := createAppendEntriesReq_runs
    (s := s.onPeer uid Peer.makeBusy) hp' hr
  refine ⟨req, g, _, rfl, .get_bind (Runs.bind (orThrow_runs hp) ?_), htype, hg⟩
  exact .of_neg (by simp [hfree]) (.modify_bind (Runs.bind hreq rfl))

end Runs

/-! ## Slots -/

/-- The effect is a request that makes the peer object `uid` busy. -/
def Effect.occupies (uid : Nat) : Effect → Bool
  | .send rpc => rpc.req.type.takesSlot && rpc.uid = uid
  | _ => false

/-- `c` counts the requests outstanding through each peer object: one if it is busy, else none, and
none through objects that do not exist yet. -/
structure SlotCount (s : Server) (c : Nat → Nat) : Prop where
  objects : PeerObjects s
  fresh : ∀ uid, s.nextUid ≤ uid → c uid = 0
  peers : ∀ p ∈ s.peers.map Peer.slot, c p.1 = p.2.toNat

/-- The steps of a handler: what it sends is counted, and only membership requests are tried again. -/
structure SlotStep (s : Server) (o : List Effect) (s' : Server) : Prop where
  retried : ∀ rpc, .retry rpc ∈ o → rpc.req.type.takesSlot = false
  counted : ∀ c, SlotCount s c → SlotCount s' fun uid => c uid + o.countP (Effect.occupies uid)

section

variable {ctx : Context} {s s' s'' : Server} {o o' : List Effect}

theorem SlotStep.refl (s : Server) : SlotStep s [] s := ⟨by simp, fun _ h => h⟩

theorem SlotStep.trans (h : SlotStep s o s') (h' : SlotStep s' o' s'') : SlotStep s (o ++ o') s'' where
  retried rpc hmem := (List.mem_append.1 hmem).elim (h.retried rpc) (h'.retried rpc)
  counted c hc := by
    simp only [List.countP_append, ← Nat.add_assoc]
    exact h'.counted _ (h.counted c hc)

theorem slotStep_path (h : Path SlotStep s o s') : SlotStep s o s' :=
  Path.fold SlotStep.refl (fun _ _ _ _ _ => SlotStep.trans) h

theorem countP_occupies_eq_zero (ho : ∀ e ∈ o, e.Slotless) (uid : Nat) :
    o.countP (Effect.occupies uid) = 0 := by
  refine List.countP_eq_zero.2 fun e he => ?_
  have hslotless := ho e he
  cases e with
  | send rpc => simp [Effect.occupies, show rpc.req.type.takesSlot = false from hslotless]
  | _ => simp [Effect.occupies]

/-- Nothing that makes a peer busy is sent. -/
theorem slotStep_of_slotless (ho : ∀ e ∈ o, e.Slotless)
    (h : ∀ c, SlotCount s c → SlotCount s' c) : SlotStep s o s' where
  retried rpc hmem := ho _ hmem
  counted c hc := by
    simp only [countP_occupies_eq_zero ho, Nat.add_zero]
    exact h c hc

theorem slotStep_of_nil (h : ∀ c, SlotCount s c → SlotCount s' c) : SlotStep s [] s' :=
  slotStep_of_slotless (by simp) h

theorem SlotCount.sameSlots {c : Nat → Nat} (hc : SlotCount s c) (h : SameSlots s s') :
    SlotCount s' c where
  objects := by
    have hslots := congrArg (List.map Prod.fst) h.peers
    rw [List.map_map, List.map_map] at hslots
    refine hc.objects.congr hslots ?_ h.nextUid
    rcases h.join with hj | hj
    · exact .inr hj
    · rw [hj]
      exact .inl rfl
  fresh uid hle := hc.fresh uid (h.nextUid ▸ hle)
  peers p hp := hc.peers p (h.peers ▸ hp)

theorem slots_addPeer (p : Peer) (s : Server) :
    (s.addPeer p).peers.map Peer.slot = s.peers.map Peer.slot ∨
      (s.addPeer p).peers.map Peer.slot = s.peers.map Peer.slot ++ [p.slot] := by
  unfold addPeer
  split
  · exact .inl rfl
  · exact .inr (by simp)

theorem slots_addConfigured (ctx : Context) (s : Server) (srv : SrvConfig) :
    (addConfigured ctx s srv).peers.map Peer.slot = s.peers.map Peer.slot ∨
      (addConfigured ctx s srv).peers.map Peer.slot =
        s.peers.map Peer.slot ++ [(s.nextUid, false)] := by
  have hadd := slots_addPeer ((Peer.new ctx s.nextUid srv).setNextLogIdx s.nextSlot) s
  have heq : (addConfigured ctx s srv).peers.map Peer.slot =
      (s.addPeer ((Peer.new ctx s.nextUid srv).setNextLogIdx s.nextSlot)).peers.map Peer.slot := by
    have hhb (s' : Server) (uid : Nat) :
        (s'.enableHbForPeer uid).peers.map Peer.slot = s'.peers.map Peer.slot := by
      have hplain : Plain s' (s'.enableHbForPeer uid) := plain_onPeer s' uid fun _ => rfl
      exact hplain.peers
    unfold addConfigured
    dsimp only
    split
    · split
      next j _ =>
        have hset (s' : Server) (uid : Nat) :
            (s'.onPeer uid (·.setNextLogIdx j.nextLogIdx)).peers.map Peer.slot =
              s'.peers.map Peer.slot :=
          (plain_onPeer s' uid (f := (·.setNextLogIdx j.nextLogIdx)) fun _ => rfl).peers
        split
        · exact (hset _ _).trans (hhb _ _)
        · exact hhb _ _
      next => exact hhb _ _
    · rfl
  rw [heq]
  exact hadd

theorem SlotCount.addConfigured {c : Nat → Nat} (hc : SlotCount s c) (srv : SrvConfig) :
    SlotCount (addConfigured ctx s srv) c where
  objects := hc.objects.addConfigured srv
  fresh uid hle := by
    rw [nextUid_addConfigured] at hle
    exact hc.fresh uid (by omega)
  peers p hp := by
    rcases slots_addConfigured ctx s srv with heq | heq
    · exact hc.peers p (heq ▸ hp)
    · rw [heq] at hp
      rcases List.mem_append.1 hp with hp | hp
      · exact hc.peers p hp
      · cases List.mem_singleton.1 hp
        exact hc.fresh s.nextUid le_rfl

theorem SlotCount.drop {c : Nat → Nat} (hc : SlotCount s c) (q : Peer → Bool) :
    SlotCount { s with peers := s.peers.filter q } c where
  objects := Distinct.shrink hc.objects (List.filter_sublist.map _) (.inr rfl) le_rfl
  fresh := hc.fresh
  peers p hp := hc.peers p (List.map_subset _ (List.filter_subset_self _) hp)

theorem SlotCount.invite {c : Nat → Nat} (hc : SlotCount s c) (srv : SrvConfig) :
    SlotCount { s with
      confToAdd := some srv
      srvToJoin := some (Peer.new ctx s.nextUid srv)
      nextUid := s.nextUid + 1 } c where
  objects := Distinct.rejoin hc.objects
  fresh uid hle := hc.fresh uid (Nat.le_of_succ_le hle)
  peers := hc.peers

/-- A request through an object that is not a peer's. -/
theorem SlotCount.aside {c : Nat → Nat} {uid : Nat} (hc : SlotCount s c) (hlt : uid < s.nextUid)
    (hnot : uid ∉ s.peers.map Peer.uid) {d : Nat → Nat} (hd : ∀ u, u ≠ uid → d u = 0) :
    SlotCount s fun u => c u + d u where
  objects := hc.objects
  fresh u hle := by
    rw [hc.fresh u hle, hd u (by omega)]
  peers p hp := by
    have hne : p.1 ≠ uid := by
      rintro rfl
      obtain ⟨q, hq, rfl⟩ := List.mem_map.1 hp
      exact hnot (List.mem_map_of_mem hq)
    rw [hd p.1 hne, Nat.add_zero]
    exact hc.peers p hp

theorem admits_slotStep (ctx : Context) : Admits ctx SlotStep where
  plain h ho := slotStep_of_slotless ho fun _ hc => hc.sameSlots h.toSameSlots
  follow _ h := slotStep_of_nil fun _ hc => hc.sameSlots h
  addConfigured s srv := slotStep_of_nil fun _ hc => hc.addConfigured srv
  drop s q := slotStep_of_nil fun _ hc => hc.drop q
  invite s srv := slotStep_of_nil fun _ hc => hc.invite srv
  sync target req hp := by
    refine ⟨by simp, fun c hc => ?_⟩
    obtain ⟨hlt, hnot⟩ := hc.objects.join _ hp
    refine hc.aside hlt hnot fun u hu => ?_
    simp [Effect.occupies, hu.symm]

end

/-! ## Requests through peer objects -/

section

variable {ctx : Context} {s s' s'' : Server} {o o' : List Effect} {p q : Peer} {uid : Nat}

theorem CanRequest.congr (h : CanRequest ctx s p) (hlog : s'.logStore = s.logStore)
    (hlast : s'.lastSnapshot = s.lastSnapshot) (hsm : s'.smLastSnapshot = s.smLastSnapshot)
    (haim : q.aim = p.aim) : CanRequest ctx s' q := by
  simp only [Peer.aim, Prod.mk.injEq] at haim
  obtain ⟨-, hnext, hsync⟩ := haim
  unfold CanRequest lastLogIdxFor Compacted nextSync needsLatestSnapshot TermKnown entriesAfter
    nextSlot at h ⊢
  rw [hlog, hlast, hsm, hnext, hsync]
  exact h

theorem Requestable.keep (h : Requestable ctx s) (haims : SameAims s s')
    (hlog : s'.logStore = s.logStore) : Requestable ctx s' := by
  intro q hq
  obtain ⟨p, hp, haim⟩ := List.mem_map.1 (haims.peers (List.mem_map_of_mem hq))
  exact (h p hp).congr hlog haims.lastSnapshot haims.smLastSnapshot haim.symm

/-- Aiming at the end of the log and starting a transfer leave a request possible. -/
theorem CanRequest.prepared {g : Peer → Peer} (h : CanRequest ctx s q) (hg : Prepares ctx s g) :
    CanRequest ctx s (g (retarget s q)) := by
  have hlast : lastLogIdxFor s (retarget s q) = lastLogIdxFor s q := by
    by_cases h0 : q.nextLogIdx = 0
    · simp only [retarget, lastLogIdxFor, h0, if_true, Peer.setNextLogIdx, ite_self]
    · simp only [retarget, if_neg h0]
  have haimed : CanRequest ctx s (retarget s q) := by
    unfold CanRequest nextSync needsLatestSnapshot
    rw [hlast, snpSyncCtx_retarget]
    exact h
  rcases hg with rfl | ⟨snp, hsnp, hb, rfl⟩
  · exact haimed
  · refine ⟨haimed.1, fun _ => ⟨⟨snp, 0⟩, ?_, hb⟩, haimed.2.2⟩
    simp [nextSync, needsLatestSnapshot, Peer.setSnapshotInSync, hsnp]

/-- A request through a peer object that is free is outstanding, and makes the object busy. -/
theorem slotStep_request {req : ReqMsg} {target : Int} {creator : Server} {f : Peer → Peer}
    (hp : p ∈ s.peers) (hfree : p.busyFlag = false) (htype : req.type.takesSlot = true)
    (hf : ∀ q, (f q).slot = (q.uid, true)) :
    SlotStep s [.send ⟨.peerResp, p.uid, target, req, creator⟩] (s.onPeer p.uid f) where
  retried := by simp
  counted c hc := by
    have hcount (u : Nat) : [Effect.send ⟨.peerResp, p.uid, target, req, creator⟩].countP
        (Effect.occupies u) = if p.uid = u then 1 else 0 := by
      by_cases hu : p.uid = u
      · simp [Effect.occupies, htype, hu]
      · simp [Effect.occupies, hu]
    refine ⟨hc.objects.onPeer p.uid fun q => congrArg Prod.fst (hf q), fun u hle => ?_, ?_⟩
    · have hlt : p.uid < s.nextUid := hc.objects.lt p.uid (List.mem_map_of_mem hp)
      have hne : p.uid ≠ u := by
        rintro rfl
        exact absurd hle (not_le.2 hlt)
      rw [hcount, if_neg hne]
      exact hc.fresh u hle
    · intro x hx
      obtain ⟨q', hq', rfl⟩ := List.mem_map.1 hx
      obtain ⟨q, hq, rfl⟩ := List.mem_map.1 hq'
      have hold := hc.peers q.slot (List.mem_map_of_mem hq)
      by_cases huid : q.uid = p.uid
      · obtain rfl := List.inj_on_of_nodup_map hc.objects.nodup hq hp huid
        simp only [if_true, hf, hcount]
        rw [show c q.uid = 0 by simpa [Peer.slot, hfree] using hold]
        rfl
      · simp only [if_neg huid, hcount, Peer.slot, if_neg (Ne.symm huid), Nat.add_zero]
        exact hold

/-- A step that leaves all but the object `uid`, which is the server to join, as it is. -/
def AsideStep (uid : Nat) (s : Server) (o : List Effect) (s' : Server) : Prop :=
  uid ∉ s.peers.map Peer.uid →
    (s'.peers = s.peers ∧ s'.srvToJoin.map Peer.uid = s.srvToJoin.map Peer.uid ∧
      s'.nextUid = s.nextUid ∧ s'.logStore = s.logStore ∧ s'.lastSnapshot = s.lastSnapshot ∧
      s'.smLastSnapshot = s.smLastSnapshot) ∧
    ∀ e ∈ o, e.Slotless ∨ ∃ rpc, e = .send rpc ∧ rpc.uid = uid

theorem asideStep_onPeer (s : Server) {f : Peer → Peer} (hf : ∀ p, (f p).uid = p.uid) :
    AsideStep uid s [] (s.onPeer uid f) := by
  intro hnot
  refine ⟨⟨?_, map_uid_onPeer uid hf s.srvToJoin, rfl, rfl, rfl, rfl⟩, by simp⟩
  show s.peers.map _ = s.peers
  refine (List.map_congr_left fun p hp => ?_).trans (List.map_id _)
  have hne : p.uid ≠ uid := by
    rintro rfl
    exact hnot (List.mem_map_of_mem hp)
  exact if_neg hne

theorem touches_asideStep (uid : Nat) : Touches (AsideStep uid) uid where
  note s e he _ := ⟨⟨rfl, rfl, rfl, rfl, rfl, rfl⟩, fun e' he' => by
    cases List.mem_singleton.1 he'
    exact .inl he⟩
  touch s f hf := asideStep_onPeer s fun p => congrArg Prod.fst (hf p)

theorem asideStep_path (h : Path (AsideStep uid) s o s') : AsideStep uid s o s' := by
  refine Path.fold (fun s _ => ⟨⟨rfl, rfl, rfl, rfl, rfl, rfl⟩, by simp⟩) ?_ h
  intro s s' s'' o o' h h' hnot
  obtain ⟨⟨hp, hj, hn, hl, hs, hm⟩, ho⟩ := h hnot
  obtain ⟨⟨hp', hj', hn', hl', hs', hm'⟩, ho'⟩ := h' (hp ▸ hnot)
  refine ⟨⟨hp'.trans hp, hj'.trans hj, hn'.trans hn, hl'.trans hl, hs'.trans hs, hm'.trans hm⟩, ?_⟩
  intro e he
  exact (List.mem_append.1 he).elim (ho e) (ho' e)

theorem AsideStep.slotStep (h : AsideStep uid s o s') (hnot : uid ∉ s.peers.map Peer.uid)
    (hjoin : s.srvToJoin.map Peer.uid = some uid) : SlotStep s o s' := by
  obtain ⟨⟨hp, hj, hn, -, -, -⟩, ho⟩ := h hnot
  refine ⟨fun rpc hmem => ?_, fun c hc => ?_⟩
  · rcases ho _ hmem with hslotless | ⟨rpc', heq, -⟩
    · exact hslotless
    · cases heq
  · have hsame : SameSlots s s' := ⟨by rw [hp], .inl hj, hn⟩
    refine (hc.aside (hc.objects.join uid hjoin).1 hnot fun u hu => ?_).sameSlots hsame
    refine List.countP_eq_zero.2 fun e he => ?_
    rcases ho e he with hslotless | ⟨rpc, rfl, huid⟩
    · have hzero := countP_occupies_eq_zero (o := [e]) (by simpa using hslotless) u
      simpa using hzero
    · simp [Effect.occupies, huid, hu.symm]

/-- The object that is found under an identity is a peer's, or no peer has the identity. -/
theorem object_cases (h : s.object uid = some p) : p.uid = uid ∧
    (p ∈ s.peers ∨ uid ∉ s.peers.map Peer.uid ∧ s.srvToJoin.map Peer.uid = some uid) := by
  have huid : p.uid = uid := by simpa using List.find?_some h
  refine ⟨huid, ?_⟩
  unfold object at h
  rw [List.find?_append] at h
  cases hfind : s.peers.find? fun q => q.uid = uid with
  | some q =>
    rw [hfind] at h
    cases h
    exact .inl (List.mem_of_find?_eq_some hfind)
  | none =>
    rw [hfind, Option.none_or] at h
    refine .inr ⟨?_, ?_⟩
    · intro hmem
      obtain ⟨q, hq, hquid⟩ := List.mem_map.1 hmem
      simpa [hquid] using List.find?_eq_none.1 hfind q hq
    · have hjoin := List.mem_of_find?_eq_some h
      rw [Option.mem_toList] at hjoin
      rw [Option.mem_def.1 hjoin, ← huid]
      rfl

theorem onPeer_onPeer (s : Server) (uid : Nat) {f g : Peer → Peer} (hf : ∀ p, (f p).uid = p.uid) :
    (s.onPeer uid f).onPeer uid g = s.onPeer uid fun p => g (f p) := by
  have hcomp (p : Peer) : (if (if p.uid = uid then f p else p).uid = uid
      then g (if p.uid = uid then f p else p) else if p.uid = uid then f p else p) =
        if p.uid = uid then g (f p) else p := by
    by_cases hp : p.uid = uid
    · simp [hp, hf]
    · simp [hp]
  unfold onPeer
  simp only [List.map_map, Option.map_map, Function.comp_def, hcomp]

theorem Prepares.slot {g : Peer → Peer} (hg : Prepares ctx s g) (q : Peer) : (g q).slot = q.slot := by
  rcases hg with rfl | ⟨snp, -, -, rfl⟩
  · rfl
  · rfl

theorem walks_call_slotStep (hs : Requestable ctx s) :
    Walks SlotStep (requestAppendEntriesTo ctx uid) s fun _ => Requestable ctx := by
  cases hobj : s.object uid with
  | none =>
    refine walks_get_bind ?_
    rw [hobj]
    exact walks_bind (R := fun _ _ => False) walks_throw fun _ _ h => h.elim
  | some p =>
    obtain ⟨rfl, hcases⟩ := object_cases hobj
    by_cases hbusy : p.busyFlag = true
    · refine walks_get_bind (walks_orThrow_bind fun p' hp' => ?_)
      cases hobj.symm.trans hp'
      exact walks_ite (fun _ => walks_pure hs) fun hfree => (hfree hbusy).elim
    rw [Bool.not_eq_true] at hbusy
    rcases hcases with hp | ⟨hnot, hjoin⟩
    · obtain ⟨req, g, s', hs', hrun, htype, hg⟩ := requestAppendEntriesTo_runs hobj hbusy (hs p hp)
      have hslot (q : Peer) : (g (retarget s q.makeBusy)).slot = (q.uid, true) :=
        (hg.slot _).trans (slot_retarget s q.makeBusy)
      have heq : s' = s.onPeer p.uid fun q => g (retarget s q.makeBusy) := by
        have haimed (q : Peer) : (retarget s q.makeBusy).uid = q.uid :=
          congrArg Prod.fst (slot_retarget s q.makeBusy)
        rw [hs', onPeer_onPeer (f := Peer.makeBusy) s p.uid fun _ => rfl,
          onPeer_onPeer (f := fun q => retarget s q.makeBusy) s p.uid haimed]
      refine hrun.walks (heq ▸ slotStep_request hp hbusy htype hslot) ?_
      rw [heq]
      intro q' hq'
      obtain ⟨q, hq, rfl⟩ := List.mem_map.1 hq'
      have hcan : CanRequest ctx s q.makeBusy := (hs q hq).congr rfl rfl rfl rfl
      split
      · exact (hcan.prepared hg).congr rfl rfl rfl rfl
      · exact (hs q hq).congr rfl rfl rfl rfl
    · have hwithin : Within (AsideStep p.uid) (requestAppendEntriesTo ctx p.uid) := by
        refine Turn.within_requestAppendEntriesTo (touches_asideStep p.uid) ?_ ?_
        · exact fun s => asideStep_onPeer s fun _ => rfl
        · intro s target req _
          refine ⟨⟨rfl, rfl, rfl, rfl, rfl, rfl⟩, fun e he => .inr ?_⟩
          exact ⟨_, List.mem_singleton.1 he, rfl⟩
      have haside := asideStep_path (hwithin s).1
      refine ⟨.single (haside.slotStep hnot hjoin), fun _ _ => ?_⟩
      obtain ⟨⟨hpeers, -, -, hlog, hlast, hsm⟩, -⟩ := haside hnot
      exact hs.keep ⟨by rw [hpeers]; exact fun _ h => h, hlast, hsm⟩ hlog

end

/-! ## While the log grows -/

/-- A request can be created for a peer that is aimed at the end of the log. -/
def EndServable (s : Server) : Prop :=
  1 ≤ s.logStore.startIdx ∧ s.logStore.startIdx ≤ s.nextSlot ∧ TermKnown s (s.nextSlot - 1)

/-- A request to the peer can be created now, and also when the log has grown. -/
def Servable (ctx : Context) (s : Server) (p : Peer) : Prop :=
  if p.nextLogIdx = 0 then EndServable s
  else
    p.nextLogIdx - 1 < s.nextSlot ∧
      (Compacted s (p.nextLogIdx - 1) →
        ∃ sync ∈ nextSync s p (p.nextLogIdx - 1), BlockReady ctx sync) ∧
      (¬Compacted s (p.nextLogIdx - 1) → TermKnown s (p.nextLogIdx - 1) ∧
        p.nextLogIdx ≤ ulong (p.nextLogIdx + ctx.params.maxAppendSize))

/-- Requests to all peers can be created, now and when the log has grown. -/
def AllServable (ctx : Context) (s : Server) : Prop := ∀ p ∈ s.peers, Servable ctx s p

instance (s : Server) : Decidable (EndServable s) := inferInstanceAs (Decidable (_ ∧ _ ∧ _))

instance (ctx : Context) (s : Server) (p : Peer) : Decidable (Servable ctx s p) :=
  inferInstanceAs (Decidable (if p.nextLogIdx = 0 then EndServable s else _ ∧ _ ∧ _))

instance (ctx : Context) : DecidablePred (AllServable ctx) :=
  fun s => inferInstanceAs (Decidable (∀ p ∈ s.peers, _))

section

variable {ctx : Context} {s s' : Server} {p q : Peer}

theorem EndServable.canRequest (h : EndServable s) (hp : p.nextLogIdx = 0) : CanRequest ctx s p := by
  obtain ⟨hone, hle, hterm⟩ := h
  have hlast : lastLogIdxFor s p = s.nextSlot - 1 := by
    rw [lastLogIdxFor, if_pos hp, usub_of_le (by omega)]
  unfold CanRequest Compacted
  rw [hlast, usub_of_le hone]
  refine ⟨by omega, fun hc => by omega, fun _ => ⟨hterm, ?_⟩⟩
  rw [entriesAfter, if_pos (by omega)]
  rfl

theorem Servable.canRequest (h : Servable ctx s p) : CanRequest ctx s p := by
  unfold Servable at h
  split at h
  next hp => exact h.canRequest hp
  next hp =>
    have hlast : lastLogIdxFor s p = p.nextLogIdx - 1 := by
      rw [lastLogIdxFor, if_neg hp, usub_of_le (by omega)]
    have hsucc : p.nextLogIdx - 1 + 1 = p.nextLogIdx := by omega
    unfold CanRequest
    rw [hlast]
    refine ⟨h.1, h.2.1, fun hc => ⟨(h.2.2 hc).1, ?_⟩⟩
    have hmax := (h.2.2 hc).2
    unfold entriesAfter
    rw [hsucc]
    split
    next => rfl
    next hmore =>
      unfold LogStore.logEntries
      rw [if_neg]
      · rfl
      · refine not_lt.2 (le_min (by omega) ?_)
        have hcast : ((p.nextLogIdx - 1 : ℕ) : ℤ) + 1 = p.nextLogIdx := by omega
        rw [hcast]
        exact hmax

/-- The log has grown: it starts where it did, and does not end earlier. -/
structure LogGrows (s s' : Server) : Prop where
  startIdx : s'.logStore.startIdx = s.logStore.startIdx
  nextSlot : s.nextSlot ≤ s'.nextSlot

theorem logGrows_of_append {es : List LogEntry}
    (h : s'.logStore = es.foldl LogStore.append s.logStore) : LogGrows s s' := by
  have hfold (st : LogStore) : (es.foldl LogStore.append st).startIdx = st.startIdx ∧
      st.nextSlot ≤ (es.foldl LogStore.append st).nextSlot := by
    clear h
    induction es generalizing st with
    | nil => exact ⟨rfl, le_rfl⟩
    | cons e es ih =>
      have hput := OrderedMap.length_le_put st.nextSlot e st.logs
      have hslot : st.nextSlot ≤ (st.append e).nextSlot := by
        unfold LogStore.nextSlot at *
        exact Nat.sub_le_sub_right (Nat.add_le_add_left hput _) 1
      exact ⟨(ih (st.append e)).1, hslot.trans (ih (st.append e)).2⟩
  have hlog := hfold s.logStore
  rw [← h] at hlog
  exact ⟨hlog.1, hlog.2⟩

theorem TermKnown.grow {idx : Nat} (h : TermKnown s idx) (hlog : LogGrows s s')
    (hsm : s'.smLastSnapshot = s.smLastSnapshot) : TermKnown s' idx := by
  unfold TermKnown at *
  rwa [hlog.startIdx, hsm]

theorem EndServable.grow (h : EndServable s) (hlog : LogGrows s s')
    (hsm : s'.smLastSnapshot = s.smLastSnapshot) : EndServable s' := by
  obtain ⟨hone, hle, hterm⟩ := h
  have hslot := hlog.nextSlot
  refine ⟨hlog.startIdx ▸ hone, hlog.startIdx ▸ hle.trans hslot, ?_⟩
  -- An entry that was appended is above the start.
  by_cases heq : s'.nextSlot = s.nextSlot
  · rw [heq]
    exact hterm.grow hlog hsm
  · exact .inr (.inl (by rw [hlog.startIdx]; omega))

theorem Servable.grow (h : Servable ctx s p) (hlog : LogGrows s s')
    (hlast : s'.lastSnapshot = s.lastSnapshot) (hsm : s'.smLastSnapshot = s.smLastSnapshot)
    (haim : q.aim = p.aim) : Servable ctx s' q := by
  simp only [Peer.aim, Prod.mk.injEq] at haim
  obtain ⟨-, hnext, hsync⟩ := haim
  unfold Servable at h ⊢
  rw [hnext]
  split at h
  next hp =>
    rw [if_pos hp]
    exact h.grow hlog hsm
  next hp =>
    obtain ⟨hlt, hsnp, happ⟩ := h
    rw [if_neg hp]
    refine ⟨hlt.trans_le hlog.nextSlot, fun hc => ?_, fun hc => ?_⟩
    · unfold Compacted at hc hsnp
      unfold nextSync needsLatestSnapshot at hsnp ⊢
      rw [hlog.startIdx] at hc
      rw [hlast, hsync]
      exact hsnp hc
    · unfold Compacted at hc happ
      rw [hlog.startIdx] at hc
      exact ⟨(happ hc).1.grow hlog hsm, (happ hc).2⟩

theorem replicates_slotStep (ctx : Context) :
    Replicates ctx SlotStep (AllServable ctx) (Requestable ctx) where
  call s uid hs := walks_call_slotStep hs
  keep hs h hlog := hs.keep h hlog
  grow hs h hlog := by
    obtain ⟨es, hes⟩ := hlog
    intro q hq
    obtain ⟨p, hp, haim⟩ := List.mem_map.1 (h.peers (List.mem_map_of_mem hq))
    exact (hs p hp).grow (logGrows_of_append hes) h.lastSnapshot h.smLastSnapshot haim.symm
  ready hs p hp := (hs p hp).canRequest

end

/-! ## Elections -/

section

variable {ctx : Context} {s s' : Server}

/-- A new leader finds no peer busy. -/
theorem slotStep_takeLead (hfree : ∀ p ∈ s.peers, p.busyFlag = false) :
    SlotStep s [] (takeLead s) := by
  refine slotStep_of_nil fun c hc => ⟨hc.objects.takeLead, hc.fresh, fun x hx => ?_⟩
  obtain ⟨p', hp', rfl⟩ := List.mem_map.1 hx
  obtain ⟨p, hp, rfl⟩ := List.mem_map.1 hp'
  have hold := hc.peers p.slot (List.mem_map_of_mem hp)
  have hslot : (resetPeer s p).slot = (p.uid, false) := by
    simp only [Peer.slot, resetPeer, Peer.setNextLogIdx, Peer.setSnapshotInSync, Peer.setFree,
      Peer.enableHb, Peer.resumeHbSpeed]
  rw [Peer.slot, hfree p hp] at hold
  rw [hslot]
  exact hold

/-- The requests of a new leader can be created: it aims all peers at the end of its log. -/
def LeadServable (ctx : Context) (s : Server) : Prop :=
  EndServable s ∧ s.nextSlot ≤ ulong (s.nextSlot + ctx.params.maxAppendSize)

instance : Decidable (LeadServable ctx s) := inferInstanceAs (Decidable (_ ∧ _))

theorem LeadServable.takeLead (h : LeadServable ctx s) : AllServable ctx (takeLead s) := by
  obtain ⟨⟨hone, hle, hterm⟩, hmax⟩ := h
  intro q hq
  obtain ⟨p, hp, rfl⟩ := List.mem_map.1 hq
  have hnext : (resetPeer s p).nextLogIdx = s.nextSlot := rfl
  unfold Servable
  rw [hnext, if_neg (by omega)]
  refine ⟨?_, fun hc => ?_, fun _ => ⟨hterm, hmax⟩⟩
  · show s.nextSlot - 1 < s.nextSlot
    omega
  · have hlt : s.nextSlot - 1 < usub s.logStore.startIdx 1 := hc.2
    rw [usub_of_le hone] at hlt
    omega

theorem LeadServable.congr (h : LeadServable ctx s) (hlog : s'.logStore = s.logStore)
    (hsm : s'.smLastSnapshot = s.smLastSnapshot) : LeadServable ctx s' := by
  unfold LeadServable EndServable TermKnown nextSlot at *
  rwa [hlog, hsm]

end

/-! ## Results of calls -/

section

variable {s : Server} {c d : Nat → Nat} {rpc : Rpc}

theorem slot_rpcResult (rpc : Rpc) (ok : Bool) (s : Server) :
    (handleRpcResult rpc ok s).peers.map Peer.slot = s.peers.map fun p =>
      if p.uid = rpc.uid ∧ rpc.req.type.takesSlot then (p.uid, false) else p.slot := by
  have hspeed (p : Peer) : (if ok then p.resumeHbSpeed else p.slowDownHb).slot = p.slot := by
    split <;> rfl
  show (s.peers.map _).map Peer.slot = _
  rw [List.map_map]
  refine List.map_congr_left fun p _ => ?_
  dsimp only [Function.comp]
  by_cases huid : p.uid = rpc.uid
  · rw [if_pos huid, hspeed]
    by_cases htype : rpc.req.type.takesSlot = true
    · rw [if_pos (by simpa [MsgType.takesSlot] using htype), if_pos ⟨huid, htype⟩]
      rfl
    · rw [if_neg (by simpa [MsgType.takesSlot] using htype), if_neg fun h => htype h.2]
  · rw [if_neg huid, if_neg fun h => huid h.1]

/-- The result of a request frees the peer, and the request is no longer outstanding. -/
theorem SlotCount.rpcResult (hc : SlotCount s c) (ok : Bool)
    (hd : ∀ u, c u = d u + if rpc.req.type.takesSlot && rpc.uid = u then 1 else 0) :
    SlotCount (handleRpcResult rpc ok s) d where
  objects := by
    refine hc.objects.onPeer rpc.uid fun p => ?_
    dsimp only
    split <;> split <;> rfl
  fresh u hle := by
    have hzero := hd u
    rw [hc.fresh u hle] at hzero
    omega
  peers x hx := by
    rw [slot_rpcResult] at hx
    obtain ⟨p, hp, rfl⟩ := List.mem_map.1 hx
    have hold : c p.uid = p.busyFlag.toNat := hc.peers p.slot (List.mem_map_of_mem hp)
    have hcount := hd p.uid
    have hflag : p.busyFlag.toNat ≤ 1 := p.busyFlag.toNat_le
    split
    next h =>
      rw [if_pos (by simp [h.1, h.2])] at hcount
      show d p.uid = 0
      omega
    next h =>
      rw [if_neg fun heq => h ?_] at hcount
      · show d p.uid = p.busyFlag.toNat
        omega
      · simp only [Bool.and_eq_true, decide_eq_true_eq] at heq
        exact ⟨heq.2.symm, heq.1⟩

end

/-! ## What a response finds -/

section

variable {ctx : Context} {s s' : Server}

theorem AllServable.rpcResult (h : AllServable ctx s) (rpc : Rpc) (ok : Bool) :
    AllServable ctx (handleRpcResult rpc ok s) := by
  refine (replicates_slotStep ctx).grow h (sameAims_onPeer s rpc.uid fun p => ?_) ⟨[], rfl⟩
  dsimp only
  split <;> split <;> rfl

/-- The result of a call and the time of the response change nothing that requests are made from. -/
theorem peers_heardFrom_rpcResult (rpc : Rpc) (src now : Int) (s : Server) : ∃ h : Peer → Peer,
    (heardFrom src now (handleRpcResult rpc true s)).peers = s.peers.map h ∧
      ∀ p, (h p).id = p.id ∧ (h p).aim = p.aim := by
  have hresult (p : Peer) : (if p.uid = rpc.uid then
      (if rpc.req.type = .appendEntriesRequest ∨ rpc.req.type = .installSnapshotRequest
        then p.setFree else p).resumeHbSpeed else p).id = p.id ∧
      (if p.uid = rpc.uid then
      (if rpc.req.type = .appendEntriesRequest ∨ rpc.req.type = .installSnapshotRequest
        then p.setFree else p).resumeHbSpeed else p).aim = p.aim := by
    split
    · split <;> exact ⟨rfl, rfl⟩
    · exact ⟨rfl, rfl⟩
  have htime (p : Peer) : (if p.id = src then p.setLastResp now else p).id = p.id ∧
      (if p.id = src then p.setLastResp now else p).aim = p.aim := by
    split <;> exact ⟨rfl, rfl⟩
  refine ⟨_, List.map_map, fun p => ?_⟩
  exact ⟨(htime _).1.trans (hresult p).1, (htime _).2.trans (hresult p).2⟩

/-- Moving the cursor of the peer that has responded, in two states with the same cursors. -/
theorem Requestable.moved {h : Peer → Peer} (hpeers : s'.peers = s.peers.map h)
    (hh : ∀ p, (h p).id = p.id ∧ (h p).aim = p.aim) (hlog : s'.logStore = s.logStore)
    (hlast : s'.lastSnapshot = s.lastSnapshot) (hsm : s'.smLastSnapshot = s.smLastSnapshot)
    {g : Peer → Peer → Peer} (hg : ∀ p q, (g (h p) (h q)).aim = (g p q).aim) {src : Int}
    (hs : ∀ p ∈ s.findPeer src, Requestable ctx (s.onPeer p.uid (g p))) :
    ∀ p ∈ s'.findPeer src, Requestable ctx (s'.onPeer p.uid (g p)) := by
  intro p' hp'
  have hfind : s'.findPeer src = (s.findPeer src).map h := by
    unfold findPeer
    rw [hpeers, List.find?_map]
    refine congrArg (Option.map h) (congrArg (fun P => s.peers.find? P) (funext fun p => ?_))
    simp only [Function.comp, (hh p).1]
  rw [hfind] at hp'
  obtain ⟨p, hp, rfl⟩ := Option.mem_map.1 hp'
  intro q' hq'
  obtain ⟨q₁, hq₁, rfl⟩ := List.mem_map.1 hq'
  rw [hpeers] at hq₁
  obtain ⟨q, hq, rfl⟩ := List.mem_map.1 hq₁
  have huid (p : Peer) : (h p).uid = p.uid := congrArg Prod.fst (hh p).2
  have hcan := hs p hp _ (List.mem_map_of_mem hq)
  refine hcan.congr hlog hlast hsm ?_
  rw [huid, huid]
  split
  · exact hg p q
  · exact (hh q).2

theorem aim_appendMove (resp : RespMsg) {p q : Peer} (h : q.aim = p.aim) :
    (resp.appendMove q).aim = (resp.appendMove p).aim := by
  simp only [Peer.aim, Prod.mk.injEq] at h
  obtain ⟨huid, hnext, hsync⟩ := h
  unfold RespMsg.appendMove moveBack
  split
  · simp [Peer.aim, recordMatch, Peer.setNextLogIdx, Peer.setMatchedIdx, huid, hsync]
  · dsimp only
    rw [hnext]
    split <;> simp [Peer.aim, Peer.setNextLogIdx, huid, hsync]

theorem aim_snapshotMove (resp : RespMsg) {p p' q q' : Peer} (hp : p'.aim = p.aim)
    (hq : q'.aim = q.aim) : (resp.snapshotMove p' q').aim = (resp.snapshotMove p q).aim := by
  have hsync : p'.snpSyncCtx = p.snpSyncCtx := congrArg (fun a => a.2.2) hp
  simp only [Peer.aim, Prod.mk.injEq] at hq
  obtain ⟨huid, hnext, hctx⟩ := hq
  unfold RespMsg.snapshotMove noteBlock
  rw [hsync]
  split
  · split
    · simp [Peer.aim, recordSnapshot, Peer.setNextLogIdx, Peer.setMatchedIdx,
        Peer.setSnapshotInSync, huid]
    · simp [Peer.aim, setOffset, huid, hnext]
  · simp [Peer.aim, huid, hnext, hctx]

end

/-! ## Runs -/

namespace Caller

/-- The condition on a response to a request of the protocol: an election is won only while no
request is outstanding through a peer, and the requests that follow can be created. -/
structure ResponseTended (ctx : Context) (s : Caller) (resp : RespMsg) : Prop where
  elect : resp.type = .requestVoteResponse → resp.Elects s.server →
    (∀ p ∈ s.server.peers, s.outstanding p.uid = 0) ∧ LeadServable ctx s.server
  append : resp.type = .appendEntriesResponse → s.server.role = .leader →
    ∀ p ∈ s.server.findPeer resp.src, Requestable ctx (s.server.onPeer p.uid resp.appendMove)
  snapshot : resp.type = .installSnapshotResponse → s.server.role = .leader →
    ∀ p ∈ s.server.findPeer resp.src,
      Requestable ctx (s.server.onPeer p.uid (resp.snapshotMove p))

/-- The condition for slots to be kept: no election is won over outstanding requests, and whenever the
leader is about to make requests to its peers, they can be created. -/
def Tended (ctx : Context) (s : Caller) : Event → Prop
  | .hbTimeout _ => s.server.role = .leader → Requestable ctx s.server
  | .request req _ => Turn.RequestReady (AllServable ctx) req s.server
  | .respond n resp _ => ∀ rpc ∈ s.sent[n]?, match rpc.handler with
    | .peerResp => s.ResponseTended ctx resp
    | .extResp => AllServable ctx s.server
  | .fail n => ∀ rpc ∈ s.sent[n]?, rpc.handler = .extResp → AllServable ctx s.server
  | .electionTimeout | .resend _ | .commitBg => True

instance (ctx : Context) (s : Caller) (resp : RespMsg) : Decidable (s.ResponseTended ctx resp) :=
  decidable_of_iff (_ ∧ _ ∧ _) ⟨fun h => ⟨h.1, h.2.1, h.2.2⟩, fun h => ⟨h.elect, h.append, h.snapshot⟩⟩

instance (ctx : Context) (s : Caller) : (e : Event) → Decidable (s.Tended ctx e)
  | .hbTimeout _ => inferInstanceAs (Decidable (s.server.role = .leader → Requestable ctx s.server))
  | .request req _ => inferInstanceAs (Decidable (Turn.RequestReady (AllServable ctx) req s.server))
  | .respond n resp _ =>
    have (rpc : Rpc) : Decidable (match rpc.handler with
        | .peerResp => s.ResponseTended ctx resp
        | .extResp => AllServable ctx s.server) := by
      cases rpc.handler <;> infer_instance
    inferInstanceAs (Decidable (∀ rpc ∈ s.sent[n]?, _))
  | .fail n => inferInstanceAs (Decidable (∀ rpc ∈ s.sent[n]?, rpc.handler = .extResp →
      AllServable ctx s.server))
  | .electionTimeout | .resend _ | .commitBg => instDecidableTrue

/-- The flags count what is outstanding, and no request that takes a slot waits to be sent again. -/
structure Tidy (s : Caller) : Prop where
  slots : SlotCount s.server s.outstanding
  retries : ∀ rpc ∈ s.retries, rpc.req.type.takesSlot = false

variable {ctx : Context} {s : Caller}

theorem countP_sent (o : List Effect) (uid : Nat) :
    (o.filterMap Effect.sent).countP (fun rpc => rpc.req.type.takesSlot && rpc.uid = uid) =
      o.countP (Effect.occupies uid) := by
  rw [List.countP_filterMap]
  refine List.countP_congr fun e _ => ?_
  cases e <;> simp [Effect.sent, Effect.occupies]

/-- What a handler sends is added to what is outstanding. -/
theorem Tidy.path (h : s.Tidy) {o : List Effect} {s' : Server} (hpath : Path SlotStep s.server o s') :
    Tidy ⟨s', s.sent ++ o.filterMap Effect.sent, s.retries ++ o.filterMap Effect.retried⟩ := by
  have hstep := slotStep_path hpath
  refine ⟨?_, fun rpc hrpc => ?_⟩
  · have hcount : (Caller.mk s' (s.sent ++ o.filterMap Effect.sent)
        (s.retries ++ o.filterMap Effect.retried)).outstanding =
          fun uid => s.outstanding uid + o.countP (Effect.occupies uid) := by
      funext uid
      rw [outstanding, outstanding, List.countP_append, countP_sent]
    rw [hcount]
    exact hstep.counted _ h.slots
  · rcases List.mem_append.1 hrpc with hrpc | hrpc
    · exact h.retries rpc hrpc
    · obtain ⟨e, he, hretried⟩ := List.mem_filterMap.1 hrpc
      cases e with
      | retry rpc' =>
        cases hretried
        exact hstep.retried rpc he
      | _ => cases hretried

theorem countP_eraseIdx {α : Type} (P : α → Bool) {l : List α} {n : Nat} {a : α}
    (h : l[n]? = some a) : l.countP P = (l.eraseIdx n).countP P + if P a then 1 else 0 := by
  induction l generalizing n with
  | nil => cases h
  | cons x l ih =>
    cases n with
    | zero =>
      cases h
      rw [List.countP_cons, List.eraseIdx_cons_zero]
    | succ n =>
      rw [List.countP_cons, List.eraseIdx_cons_succ, List.countP_cons, ih h]
      omega

/-- The result of a call: the peer is free before the handler is invoked. -/
theorem Tidy.rpcResult (h : s.Tidy) {n : Nat} {rpc : Rpc} (hn : s.sent[n]? = some rpc) (ok : Bool) :
    Tidy ⟨handleRpcResult rpc ok s.server, s.sent.eraseIdx n, s.retries⟩ where
  slots := h.slots.rpcResult ok fun _ => countP_eraseIdx _ hn
  retries := h.retries

theorem outstanding_eraseIdx_le (s : Caller) (s' : Server) (n uid : Nat) (retries : List Rpc) :
    (Caller.mk s' (s.sent.eraseIdx n) retries).outstanding uid ≤ s.outstanding uid :=
  (List.eraseIdx_sublist s.sent n).countP_le

/-- What the condition on a response gives its handler. -/
theorem ResponseTended.ready {resp : RespMsg} {n : Nat} {rpc : Rpc} (h : s.ResponseTended ctx resp)
    (hs : Tidy ⟨handleRpcResult rpc true s.server, s.sent.eraseIdx n, s.retries⟩) (now : Int) :
    Turn.ResponseReady SlotStep (AllServable ctx) (Requestable ctx) resp
      (heardFrom resp.src now (handleRpcResult rpc true s.server)) := by
  obtain ⟨f, hpeers, hf⟩ := peers_heardFrom_rpcResult rpc resp.src now s.server
  have hslots := hs.slots.sameSlots (plain_heardFrom _ resp.src now).toSameSlots
  refine ⟨fun htype helects => ?_, fun htype hrole => ?_, fun htype hrole => ?_⟩
  · obtain ⟨hnone, hserve⟩ := h.elect htype (elects_heardFrom helects)
    have hserve' : LeadServable ctx
        (resp.elected (heardFrom resp.src now (handleRpcResult rpc true s.server))) :=
      hserve.congr rfl rfl
    refine ⟨slotStep_takeLead fun p hp => ?_, hserve'.takeLead⟩
    have hcount : outstanding ⟨_, _, _⟩ p.uid = p.busyFlag.toNat :=
      hslots.peers p.slot (List.mem_map_of_mem hp)
    replace hp : p ∈ s.server.peers.map f := hpeers ▸ hp
    obtain ⟨q, hq, rfl⟩ := List.mem_map.1 hp
    have huid : (f q).uid = q.uid := congrArg Prod.fst (hf q).2
    have hle := outstanding_eraseIdx_le s (handleRpcResult rpc true s.server) n q.uid s.retries
    rw [hnone q hq, ← huid, hcount] at hle
    simpa using hle
  · exact Requestable.moved hpeers hf rfl rfl rfl (g := fun _ => resp.appendMove)
      (fun p q => aim_appendMove resp (hf q).2) (h.append htype hrole)
  · exact Requestable.moved hpeers hf rfl rfl rfl (g := resp.snapshotMove)
      (fun p q => aim_snapshotMove resp (hf p).2 (hf q).2) (h.snapshot htype hrole)

/-- The result of a call has been noted before the rest of the handler runs. -/
theorem tidy_take (h : s.Tidy) {inp : Input} {x y : M Unit} {s₀ : Server}
    (hinp : inp.handle ctx = do x; pure none) (hx : x s₀ = y s.server)
    (hwalk : Walks SlotStep y s.server fun _ _ => True) :
    (take ctx { s with server := s₀ } inp).Tidy := by
  have hrun : inp.handle ctx s₀ = (y >>= fun _ => pure none) s.server := by
    rw [hinp]
    exact bind_apply_congr hx _
  show Tidy ⟨_, _, _⟩
  dsimp only
  rw [hrun]
  exact h.path (walks_discard hwalk).1

theorem tidy_step {s' : Caller} {e : Event} (h : s.Tidy) (hcond : s.Tended ctx e)
    (hstep : step ctx s e = some s') : s'.Tidy := by
  have hm := admits_slotStep ctx
  have hI := replicates_slotStep ctx
  cases e with
  | electionTimeout =>
    cases hstep
    refine h.path (walks_discard (Turn.walks_handleElectionTimeout hm hI ⟨fun s' _ => ?_, ?_⟩)).1
    · exact slotStep_of_nil fun _ hc => hc.sameSlots (Turn.sameSlots_restartElectionTimer s')
    · intro _ _ hpeers
      refine ⟨slotStep_takeLead fun p hp => ?_, fun p hp => ?_⟩
      · rw [show (Turn.selfElected s.server).peers = [] from hpeers] at hp
        cases hp
      · rw [show (takeLead (Turn.selfElected s.server)).peers = [] from
          congrArg (List.map (resetPeer _)) hpeers] at hp
        cases hp
  | hbTimeout uid =>
    cases hstep
    exact h.path (walks_discard (Turn.walks_handleHbTimeout hm hI uid hcond)).1
  | request req now =>
    cases hstep
    have hwalk := Turn.walks_processReq hm hI req now hcond
    exact h.path (walks_bind hwalk fun _ _ _ => walks_pure (Q := fun _ _ => True) trivial).1
  | respond n resp now =>
    obtain ⟨rpc, hn, rfl⟩ := Option.map_eq_some_iff.1 hstep
    have hresult := h.rpcResult hn true
    have hready := hcond rpc hn
    cases hh : rpc.handler with
    | peerResp =>
      rw [hh] at hready
      refine tidy_take hresult rfl (y := handlePeerResp ctx resp now) ?_
        (Turn.walks_handlePeerResp hm hI resp now (hready.ready hresult now))
      rw [onResponse, modify_bind_apply, hh]
    | extResp =>
      rw [hh] at hready
      refine tidy_take hresult rfl (y := handleExtResp ctx resp) ?_
        (Turn.walks_handleExtResp hm hI resp (hready.rpcResult rpc true))
      rw [onResponse, modify_bind_apply, hh]
  | fail n =>
    obtain ⟨rpc, hn, rfl⟩ := Option.map_eq_some_iff.1 hstep
    have hresult := h.rpcResult hn false
    cases hh : rpc.handler with
    | peerResp =>
      refine tidy_take hresult rfl (y := pure ()) ?_ (walks_pure trivial)
      rw [onFailure, modify_bind_apply, hh]
    | extResp =>
      refine tidy_take hresult rfl (y := handleExtRespErr ctx rpc.req) ?_
        (Turn.walks_handleExtRespErr hm hI rpc.req ((hcond rpc hn hh).rpcResult rpc false))
      rw [onFailure, modify_bind_apply, hh]
  | resend n =>
    obtain ⟨rpc, hn, rfl⟩ := Option.map_eq_some_iff.1 hstep
    have hrpc := h.retries rpc (List.mem_of_getElem? hn)
    have hs : Tidy { s with retries := s.retries.eraseIdx n } :=
      ⟨h.slots, fun rpc' hmem => h.retries rpc' (List.mem_of_mem_eraseIdx hmem)⟩
    exact hs.path (walks_discard (Turn.within_sendReq hm.notes _ _ _ hrpc s.server)).1
  | commitBg =>
    cases hstep
    exact h.path (walks_discard (Turn.within_commitInBg hm s.server)).1

/-- A server that was just constructed. -/
def start (ctx : Context) (id : Int) (b : Boot) : Caller := { server := .new ctx id b }

theorem free_addPeers (ctx : Context) (srvs : List SrvConfig) {s : Server}
    (h : ∀ p ∈ s.peers, p.busyFlag = false) :
    ∀ p ∈ (s.addPeers ctx srvs).peers, p.busyFlag = false := by
  induction srvs generalizing s with
  | nil => exact h
  | cons srv srvs ih =>
    unfold addPeers
    dsimp only
    split
    · exact ih h
    · refine ih fun p hp => ?_
      unfold addPeer at hp
      split at hp
      · exact h p hp
      · rcases List.mem_append.1 hp with hp | hp
        · exact h p hp
        · cases List.mem_singleton.1 hp
          rfl

theorem tidy_start (ctx : Context) (id : Int) (b : Boot) : (start ctx id b).Tidy where
  slots := by
    refine ⟨.new ctx id b, fun _ _ => rfl, fun x hx => ?_⟩
    have hslots :=
      (Turn.sameSlots_restartElectionTimer ((load id b).addPeers ctx b.config.servers)).peers
    obtain ⟨p, hp, rfl⟩ := List.mem_map.1 (hslots ▸ hx)
    have hfree := free_addPeers ctx b.config.servers (s := load id b) (by simp [load]) p hp
    rw [Peer.slot, hfree]
    rfl
  retries := by simp [start]

theorem Tidy.disciplined (h : s.Tidy) : s.Disciplined := by
  intro p hp
  have hcount : s.outstanding p.uid = p.busyFlag.toNat := h.slots.peers p.slot (List.mem_map_of_mem hp)
  rw [hcount]
  cases p.busyFlag <;> simp

section Examples

/-- The first of three servers. -/
def firstOfThree : Caller := start {} 1 { config := { servers := [srvAt 1, srvAt 2, srvAt 3] } }

/-- The vote of the second server. -/
def secondVotes (term n : Nat) : Event := .respond n ⟨term, .requestVoteResponse, 2, 1, term, true⟩ 0

/-- The second server has accepted the request `n` of term 1. -/
def secondAccepts (nextIdx n : Nat) : Event :=
  .respond n ⟨1, .appendEntriesResponse, 2, 1, nextIdx, true⟩ 0

/-- The third server asks for a vote. -/
def thirdAsks (term : Nat) : Event := .request ⟨term, .requestVoteRequest, 3, 1, 0, 0, 0, []⟩ 0

/-- What can be seen of the peers: the flag, and the number of requests outstanding. -/
def slots (s : Caller) : List (Bool × Nat) :=
  s.server.peers.map fun p => (p.busyFlag, s.outstanding p.uid)

theorem not_disciplined_of_slots {s : Caller} {flag : Bool} {n : Nat} {rest : List (Bool × Nat)}
    (hslots : s.slots = (flag, n) :: rest) (h : ¬(n ≤ 1 ∧ (flag ↔ n = 1))) : ¬s.Disciplined := by
  intro hs
  obtain ⟨p, ps, hpeers, hp, -⟩ := List.map_eq_cons_iff.1 hslots
  obtain ⟨rfl, rfl⟩ := Prod.mk.inj hp
  exact h (hs p (hpeers ▸ List.mem_cons_self))

end Examples

end Caller

end EnclaveRaft
