import EnclaveRaft.Votes

/-!
# Peer objects and the responses on record

Facts about clusters of any kind that later arguments about single responses rest on. The peer
objects of a server, the one it is bringing up included, are different objects, and an accepted
response to an append request never names index 0.
-/

namespace EnclaveRaft

open Act Server

variable {ctx : Context} {inp : Input} {s₀ s s' : Server} {o : List Effect}

/-! ## Peer objects -/

/-- The objects `us` and `j` are different and were created before object number `n`. -/
structure Distinct (us : List Nat) (j : Option Nat) (n : Nat) : Prop where
  nodup : us.Nodup
  lt : ∀ u ∈ us, u < n
  join : ∀ u, j = some u → u < n ∧ u ∉ us

theorem Distinct.shrink {us us' : List Nat} {j j' : Option Nat} {n n' : Nat}
    (h : Distinct us j n) (hus : us'.Sublist us) (hj : j' = none ∨ j' = j) (hn : n ≤ n') :
    Distinct us' j' n' := by
  refine ⟨h.nodup.sublist hus, fun u hu => (h.lt u (hus.subset hu)).trans_le hn, fun u hu => ?_⟩
  rcases hj with rfl | rfl
  · cases hu
  · exact ⟨(h.join u hu).1.trans_le hn, fun hmem => (h.join u hu).2 (hus.subset hmem)⟩

/-- A new object next to the others. -/
theorem Distinct.snoc {us : List Nat} {j : Option Nat} {n : Nat} (h : Distinct us j n) :
    Distinct (us ++ [n]) j (n + 1) := by
  refine ⟨?_, fun u hu => ?_, fun u hu => ?_⟩
  · rw [List.nodup_append]
    refine ⟨h.nodup, List.nodup_singleton n, fun a ha b hb => ?_⟩
    rw [List.mem_singleton.1 hb]
    exact (h.lt a ha).ne
  · rcases List.mem_append.1 hu with hu | hu
    · exact (h.lt u hu).trans (Nat.lt_succ_self n)
    · rw [List.mem_singleton.1 hu]
      exact Nat.lt_succ_self n
  · obtain ⟨hlt, hmem⟩ := h.join u hu
    refine ⟨hlt.trans (Nat.lt_succ_self n), ?_⟩
    simp [hmem, hlt.ne]

/-- A new object for the server to join. -/
theorem Distinct.rejoin {us : List Nat} {j : Option Nat} {n : Nat} (h : Distinct us j n) :
    Distinct us (some n) (n + 1) := by
  refine ⟨h.nodup, fun u hu => (h.lt u hu).trans (Nat.lt_succ_self n), ?_⟩
  rintro _ ⟨⟩
  exact ⟨Nat.lt_succ_self n, fun hmem => (h.lt n hmem).ne rfl⟩

theorem nextUid_addConfigured (ctx : Context) (s : Server) (srv : SrvConfig) :
    (addConfigured ctx s srv).nextUid = s.nextUid + 1 := by
  unfold addConfigured
  dsimp only
  repeat' split
  all_goals rfl

/-- The peer objects of a server are different objects. -/
def PeerObjects (s : Server) : Prop :=
  Distinct (s.peers.map Peer.uid) (s.srvToJoin.map Peer.uid) s.nextUid

namespace PeerObjects

theorem congr (h : PeerObjects s) (hp : s'.peers.map Peer.uid = s.peers.map Peer.uid)
    (hj : s'.srvToJoin.map Peer.uid = none ∨ s'.srvToJoin.map Peer.uid = s.srvToJoin.map Peer.uid)
    (hn : s'.nextUid = s.nextUid) : PeerObjects s' :=
  Distinct.shrink h (hp ▸ List.Sublist.refl _) hj hn.ge

theorem noJoin (h : PeerObjects s) : PeerObjects { s with srvToJoin := none } :=
  h.congr rfl (.inl rfl) rfl

theorem quiet (h : PeerObjects s) (hq : Quiet s s') : PeerObjects s' :=
  h.congr (hq.field (fun s => s.peers.map Peer.uid) fun s => by simp [Server.core, Peer.core])
    (.inr (hq.field (fun s => s.srvToJoin.map Peer.uid) fun s => by
      simp [Server.core, Peer.core, Function.comp_def]))
    (hq.field Server.nextUid)

theorem onPeer (h : PeerObjects s) (uid : Nat) {f : Peer → Peer} (hf : ∀ p, (f p).uid = p.uid) :
    PeerObjects (s.onPeer uid f) := by
  have hg : ∀ p : Peer, (if p.uid = uid then f p else p).uid = p.uid := fun p => by
    split <;> simp [hf]
  refine h.congr ?_ (.inr ?_) rfl
  · simp [Server.onPeer, hg]
  · simp [Server.onPeer, hg, Function.comp_def]

theorem takeLead (h : PeerObjects s) : PeerObjects (takeLead s) := by
  refine h.congr ?_ (.inl rfl) rfl
  simp [EnclaveRaft.takeLead, stopElectionTimer, resetPeer, Peer.setNextLogIdx,
    Peer.setSnapshotInSync, Peer.setFree, Peer.enableHb, Peer.resumeHbSpeed]

theorem becomeFollower (h : PeerObjects s) : PeerObjects (becomeFollower s) := by
  have hfollow : PeerObjects
      { s with peers := s.peers.map (·.enableHb false), srvToJoin := none, role := .follower } :=
    h.congr (by simp [Peer.enableHb]) (.inl rfl) rfl
  exact hfollow.quiet (quiet_restartElectionTimer _)

theorem addPeer (h : PeerObjects s) {p : Peer} (hp : p.uid = s.nextUid) :
    PeerObjects { s.addPeer p with nextUid := s.nextUid + 1 } := by
  unfold Server.addPeer
  split
  · exact Distinct.shrink h (List.Sublist.refl _) (.inr rfl) (Nat.le_succ _)
  · have := Distinct.snoc h
    simpa [PeerObjects, hp] using this

theorem addConfigured (h : PeerObjects s) (srv : SrvConfig) :
    PeerObjects (addConfigured ctx s srv) := by
  have hadd := h.addPeer (p := (Peer.new ctx s.nextUid srv).setNextLogIdx s.nextSlot) rfl
  have hb := hadd.onPeer s.nextUid (f := fun p =>
    { (p.enableHb true).resumeHbSpeed with hbTask := {} }) fun _ => rfl
  unfold EnclaveRaft.addConfigured enableHbForPeer
  dsimp only
  split
  · split
    next j _ =>
      split
      · exact (hb.onPeer s.nextUid (f := (·.setNextLogIdx j.nextLogIdx)) fun _ => rfl).noJoin
      · exact hb
    · exact hb
  · exact hadd

theorem foldl_addConfigured (added : List SrvConfig) (h : PeerObjects s) :
    PeerObjects (added.foldl (EnclaveRaft.addConfigured ctx) s) := by
  induction added generalizing s with
  | nil => exact h
  | cons srv added ih => exact ih (h.addConfigured srv)

theorem micro (h : PeerObjects s) (hm : Micro ctx inp s₀ s o s') : PeerObjects s' := by
  cases hm with
  | quiet hq => exact h.quiet hq
  | enterTerm => exact becomeFollower (h.congr rfl (.inr rfl) rfl)
  | stepDown => exact h.becomeFollower
  | standWin => exact takeLead (h.congr rfl (.inr rfl) rfl)
  | tallyWin => exact takeLead (h.congr rfl (.inr rfl) rfl)
  | aim => exact h.onPeer _ fun p => by split <;> rfl
  | startSync => exact h.onPeer _ fun _ => rfl
  | ack => exact h.onPeer _ fun _ => rfl
  | nack => exact h.onPeer _ fun p => by unfold moveBack; split <;> rfl
  | snapshotAck _ _ _ hf => rcases hf with rfl | rfl <;> exact h.onPeer _ fun _ => rfl
  | addConfigured => exact h.foldl_addConfigured _
  | dropUnconfigured =>
    exact Distinct.shrink h (List.filter_sublist.map _) (.inr rfl) le_rfl
  | dropOnly =>
    obtain ⟨ps, hsub, hdrop⟩ := dropOnlyPeer_frame _ s
    rw [hdrop]
    exact Distinct.shrink h (hsub.map _) (.inr rfl) le_rfl
  | invite => exact Distinct.rejoin h
  | joinProgress _ hf =>
    refine h.congr rfl (.inr ?_) rfl
    simp [onJoin, Function.comp_def, hf]
  | abandon => exact h.congr rfl (.inl rfl) rfl
  | _ => exact h.congr rfl (.inr rfl) rfl

theorem addPeers (srvs : List SrvConfig) (h : PeerObjects s) :
    PeerObjects (s.addPeers ctx srvs) := by
  induction srvs generalizing s with
  | nil => exact h
  | cons srv srvs ih =>
    unfold Server.addPeers
    dsimp only
    split
    · exact ih h
    · exact ih (h.addPeer rfl)

theorem new (ctx : Context) (i : Int) (b : Boot) : PeerObjects (Server.new ctx i b) := by
  have hload : PeerObjects (load i b) := ⟨List.nodup_nil, by simp [load], by simp [load]⟩
  exact (hload.addPeers b.config.servers).quiet (quiet_restartElectionTimer _)

/-- A peer is the object that is found under its identity. -/
theorem object_eq (h : PeerObjects s) {p : Peer} (hp : p ∈ s.peers) : s.object p.uid = some p := by
  have hfind : s.peers.find? (fun q => q.uid = p.uid) = some p := by
    obtain ⟨q, hq⟩ : ∃ q, s.peers.find? (fun q => q.uid = p.uid) = some q :=
      Option.isSome_iff_exists.1 (List.find?_isSome.2 ⟨p, hp, by simp⟩)
    have huid : q.uid = p.uid := by simpa using List.find?_some hq
    rw [hq, List.inj_on_of_nodup_map h.nodup (List.mem_of_find?_eq_some hq) hp huid]
  unfold object
  rw [List.find?_append, hfind]
  rfl

end PeerObjects

/-! ## The record of messages -/

/-- Objects are different at every server, clients' requests are not sent between servers, and
an accepted append response names an index. -/
structure Record (c : Cluster) : Prop where
  numbered : c.Numbered
  objects : ∀ i, PeerObjects (c.servers i)
  request : ∀ rpc ∈ c.rpcs, rpc.req.type ≠ .clientRequest
  retries : ∀ rpc ∈ c.retries, rpc.req.type ≠ .clientRequest
  reply : ∀ rpc resp, c.RespTo rpc resp → rpc.req.type.reply = some resp.type
  index : ∀ rpc resp, c.RespTo rpc resp → rpc.req.type = .appendEntriesRequest →
    resp.accepted = true → 0 < resp.nextIdx

theorem Micro.sends_no_client (hm : Micro ctx inp s₀ s o s') {rpc : Rpc} (hrpc : .send rpc ∈ o) :
    rpc.req.type ≠ .clientRequest ∨ ∃ rpc', inp = .resend rpc' ∧ rpc'.req = rpc.req := by
  cases hm with
  | sendVote => cases List.mem_singleton.1 hrpc; exact .inl nofun
  | sendAppend _ hmsg =>
    cases List.mem_singleton.1 hrpc
    obtain ⟨p, t, es, -, -, -, -, -, rfl⟩ := hmsg
    exact .inl nofun
  | sendSnapshot _ hmsg =>
    cases List.mem_singleton.1 hrpc
    obtain ⟨p, sync, e, r, -, -, ht, -⟩ := hmsg
    exact .inl fun h => by cases ht.symm.trans h
  | sendExt _ hp =>
    cases List.mem_singleton.1 hrpc
    refine .inl fun h => ?_
    rcases hp with ⟨-, ht | ht⟩ | ⟨-, ht⟩ <;> cases ht.symm.trans h
  | resend hin =>
    cases List.mem_singleton.1 hrpc
    exact .inr ⟨_, hin, rfl⟩
  | note he => cases List.mem_singleton.1 hrpc; exact he.elim
  | merge => exact (writtenOut_inert _ hrpc).elim
  | client => cases List.mem_singleton.1 hrpc
  | process => cases List.mem_singleton.1 hrpc
  | retry => cases List.mem_singleton.1 hrpc
  | _ => cases hrpc

namespace Record

variable {c : Cluster} {i : Int}

theorem micro (h : Record c) (hl : c.Legit i inp) (hm : Micro ctx inp s₀ (c.servers i) o s') :
    Record (c.update i s' o) := by
  refine ⟨h.numbered.update i s' o, fun j => ?_, fun rpc hr => ?_, fun rpc hr => ?_,
    fun rpc resp hr => h.reply rpc resp (hr.of_update h.numbered),
    fun rpc resp hr => h.index rpc resp (hr.of_update h.numbered)⟩
  · by_cases hji : j = i
    · subst hji
      simpa using (h.objects j).micro hm
    · simpa [Cluster.update, hji] using h.objects j
  · rcases Cluster.mem_update_rpcs hr with hr | hr
    · exact h.request rpc hr
    · rcases hm.sends_no_client hr with hne | ⟨rpc', rfl, hreq⟩
      · exact hne
      · exact hreq ▸ h.retries rpc' hl.1
  · rcases Cluster.mem_update_retries hr with hr | hr
    · exact h.retries rpc hr
    · rcases hm.retries hr with ht | ht | ht <;> simp [ht]

theorem answer {rpc : Rpc} {k : Nat} {resp : RespMsg} (h : Record c) (hk : c.rpcs[k]? = some rpc)
    (hrep : Replied s₀ rpc.req resp s) : Record (c.answer k resp) := by
  refine ⟨h.numbered.answer hk resp, h.objects, h.request, h.retries, fun rpc' resp' hr => ?_,
    fun rpc' resp' hr htype hacc => ?_⟩
  · rcases hr.of_answer with hr | ⟨hk', rfl⟩
    · exact h.reply rpc' resp' hr
    · cases hk.symm.trans hk'
      exact hrep.type
  · rcases hr.of_answer with hr | ⟨hk', rfl⟩
    · exact h.index rpc' resp' hr htype hacc
    · cases hk.symm.trans hk'
      have hidx := ((hrep.append htype).accepted hacc).2.2.1
      omega

theorem start (ctx : Context) (b : Int → Boot) : Record (Cluster.start ctx b) := by
  refine ⟨by simp [Cluster.start, Cluster.Numbered], fun i => .new ctx i (b i),
    by simp [Cluster.start], by simp [Cluster.start], ?_, ?_⟩
  all_goals
    rintro rpc resp ⟨k, -, hr⟩
    exact (List.not_mem_nil hr).elim

theorem step {e : Event} (h : Record c) : Record (c.step ctx e) :=
  Cluster.inv_step (I := Record) (fun _ _ _ _ _ _ _ _ hl hI hm => hI.micro hl hm)
    (fun _ _ _ _ _ _ _ _ hI hk hrep => hI.answer hk hrep) h

theorem run (ctx : Context) (b : Int → Boot) (es : List Event) :
    Record ((Cluster.start ctx b).run ctx es) :=
  Cluster.inv_run (C := fun _ _ => True) (fun _ _ hI _ => hI.step) (start ctx b)
    (Cluster.meets_of_forall fun _ _ => trivial)

/-- An append response answers an append request. -/
theorem append_of_reply (h : Record c) {rpc : Rpc} {resp : RespMsg} (hr : c.RespTo rpc resp)
    (htype : resp.type = .appendEntriesResponse) : rpc.req.type = .appendEntriesRequest := by
  have hreply := h.reply rpc resp hr
  obtain ⟨k, hk, -⟩ := hr
  have hclient := h.request rpc (List.mem_of_getElem? hk)
  rw [htype] at hreply
  cases hreq : rpc.req.type with
  | appendEntriesRequest => rfl
  | clientRequest => exact (hclient hreq).elim
  | _ => rw [hreq] at hreply; cases hreply

end Record

end EnclaveRaft
