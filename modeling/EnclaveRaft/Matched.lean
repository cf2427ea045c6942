import EnclaveRaft.Matching
import EnclaveRaft.Objects
import EnclaveRaft.Turns

/-!
# What a leader knows of its peers

A leader keeps for each peer the index up to which the logs are known to agree, and commits what it
counts from these. They outlive the term in which they were learnt: `become_leader` does not reset
them, and a reply of an earlier term is counted like any other.

In a static cluster in which neither happens (`Event.CountsRight`), an index on record has been
acknowledged in the leader's term. The peer then has the leader's log up to there for as long as it
stays in this term (`matched_agree`).
-/

namespace EnclaveRaft

open Act Server LogStore

variable {m : Members} {ctx : Context} {inp : Input} {s₀ s s' : Server} {o : List Effect}

/-! ## Matched indices -/

/-- The matched index of each peer. -/
def Server.marks (s : Server) : List (Int × Nat) := s.peers.map fun p => (p.id, p.matchedIdx)

theorem marks_onPeer (s : Server) (uid : Nat) {f : Peer → Peer}
    (hf : ∀ p, ((f p).id, (f p).matchedIdx) = (p.id, p.matchedIdx)) :
    (s.onPeer uid f).marks = s.marks := by
  unfold Server.marks Server.onPeer
  rw [List.map_map]
  refine List.map_congr_left fun p _ => ?_
  rw [Function.comp_apply]
  split
  · exact hf p
  · rfl

theorem Keeps.marks (h : Keeps s s') : s'.marks = s.marks := by
  have hcore : ∀ s : Server, s.marks = (s.peers.map Peer.core).map fun p => (p.id, p.matchedIdx) :=
    fun s => by
      rw [List.map_map]
      rfl
  rw [hcore, h.peers, hcore]

/-- What a small step of a static server does to the matched indices. -/
inductive MatchStep (inp : Input) (s₀ s s' : Server) : Prop
  | same (hmarks : s'.marks = s.marks)
      (hrole : s'.role = .leader → s.role = .leader ∧ s'.term = s.term)
  | alone (hmarks : s'.marks = [])
  | elect {resp : RespMsg} (hin : inp.Answers .requestVoteResponse resp) (hk : Quiet s₀ s)
      (hwin : resp.Elects s) (hmarks : s'.marks = s.marks) (hterm : s'.term = s.term)
      (hlog : s'.logStore = s.logStore)
  | ack {resp : RespMsg} {p : Peer} (hin : inp.Answers .appendEntriesResponse resp)
      (hk : Quiet s₀ s) (hterm : resp.term ≤ s.term) (hacc : resp.accepted)
      (hp : s.findPeer resp.src = some p) (hs : s' = s.onPeer p.uid (recordMatch resp.nextIdx))

theorem marks_takeLead (s : Server) : (takeLead s).marks = s.marks := by
  unfold Server.marks takeLead
  rw [List.map_map]
  rfl

/-- Snapshots are never sent in a static cluster, so `hsync` holds there. -/
theorem Micro.matchStep (h : StaticServer m s) (h₀ : StaticServer m s₀) (hin : StaticInput m inp)
    (hsync : ∀ p ∈ s.peers, p.snpSyncCtx = none) (hm : Micro ctx inp s₀ s o s') :
    MatchStep inp s₀ s s' := by
  have hext := hin.not_isExt
  cases hm with
  | quiet hq =>
    refine .same hq.keeps.marks fun hl => ?_
    exact ⟨(hq.field Server.role).symm.trans hl, hq.field Server.term⟩
  | enterTerm =>
    refine .same ?_ fun hl => ?_
    · exact (keeps_becomeFollower _).marks
    · cases (becomeFollower_role _).symm.trans hl
  | stepDown =>
    refine .same (keeps_becomeFollower s).marks fun hl => ?_
    cases (becomeFollower_role _).symm.trans hl
  | stand => exact .same rfl fun hl => by cases hl
  | standWin _ _ _ hpeers =>
    refine .alone ?_
    rw [marks_takeLead]
    exact congrArg (List.map _) hpeers
  | tallyWin hans hk hterm hopen hnew hmaj =>
    exact .elect hans hk ⟨hterm, hopen, hnew, hmaj⟩ (marks_takeLead _) rfl rfl
  | aim =>
    refine .same (marks_onPeer _ _ fun p => ?_) fun hl => ⟨hl, rfl⟩
    split <;> rfl
  | startSync => exact .same (marks_onPeer _ _ fun _ => rfl) fun hl => ⟨hl, rfl⟩
  | ack hans hk hterm hacc hp => exact .ack hans hk hterm hacc hp rfl
  | nack =>
    refine .same (marks_onPeer _ _ fun p => ?_) fun hl => ⟨hl, rfl⟩
    unfold moveBack
    split <;> rfl
  | snapshotAck _ hp hsome =>
    cases (hsync _ (List.mem_of_find?_eq_some hp)).symm.trans hsome
  | addConfigured hc hadded hnew =>
    rw [h.added_eq_nil (h₀.offers hin hc) hadded hnew]
    exact .same rfl fun hl => ⟨hl, rfl⟩
  | dropUnconfigured hc =>
    rw [h.dropUnconfigured_eq (h₀.offers hin hc)]
    exact .same rfl fun hl => ⟨hl, rfl⟩
  | countdown hdown => exact (hdown.ne' h.down).elim
  | leaveConfig _ hdown => exact (hdown.ne' h₀.down).elim
  | joinProgress hin' => exact (hext hin').elim
  | dropOnly hin' => exact (hext hin').elim
  | abandon _ hin' => exact (hext hin').elim
  | invite hreq htype | leaving hreq htype | join hreq htype | pack hreq htype
  | packCommit hreq htype => subst hreq; simp [StaticInput, htype] at hin
  | confAppend hc => exact (hext (isExt_of_newConfig (by rw [hc]; rfl))).elim
  | _ => exact .same rfl fun hl => ⟨hl, rfl⟩

/-! ## The condition -/

namespace Cluster

/-- What server `i` has on record of its peers is right: either nothing, or the peer is in the same
term as the server and the logs have entries of one term there. -/
def LeftoverRight (c : Cluster) (i : Int) : Prop :=
  ∀ x ∈ (c.servers i).marks, x.2 = 0 ∨
    ((c.servers x.1).term = (c.servers i).term ∧
      (x.2 < (c.servers i).nextSlot ∧ (c.servers i).logStore.startIdx ≤ x.2) ∧
      (x.2 < (c.servers x.1).nextSlot ∧ (c.servers x.1).logStore.startIdx ≤ x.2) ∧
      (c.servers i).logStore.termAt x.2 = (c.servers x.1).logStore.termAt x.2)

/-- Server `i` can count the reply: a leader gets it in the term it is from, and when it decides an
election, what is on record from before is right. -/
def CountsReply (c : Cluster) (i : Int) (resp : RespMsg) : Prop :=
  (resp.type = .appendEntriesResponse → resp.accepted → (c.servers i).role = .leader →
    (c.servers i).term ≤ resp.term) ∧
  (resp.type = .requestVoteResponse → resp.Elects (c.servers i) → c.LeftoverRight i)

/-- The logs of servers `i` and `j` reach up to `k` and agree up to there, wherever neither of them
has been compacted. -/
def AgreeUpTo (c : Cluster) (i j : Int) (k : Nat) : Prop :=
  k < (c.servers i).nextSlot ∧ k < (c.servers j).nextSlot ∧ ∀ n, 1 ≤ n → n ≤ k →
    (c.servers i).logStore.startIdx ≤ n → (c.servers j).logStore.startIdx ≤ n →
    (c.servers i).logStore.logs.lookup n = (c.servers j).logStore.logs.lookup n

instance (c : Cluster) (i : Int) : Decidable (c.LeftoverRight i) :=
  inferInstanceAs (Decidable (∀ x ∈ _, _))

instance (c : Cluster) (i : Int) (resp : RespMsg) : Decidable (c.CountsReply i resp) :=
  inferInstanceAs (Decidable (_ ∧ _))

end Cluster

/-- The replies of the event can be counted, and no request for the whole log goes from or to a log
that has lost its beginning. -/
def Event.CountsRight (c : Cluster) : Event → Prop
  | .deliver n _ => ∀ rpc ∈ c.rpcs[n]?, rpc.req.type = .appendEntriesRequest →
      rpc.req.lastLogIdx = 0 →
      (c.servers rpc.target).logStore.startIdx = 1 ∧ rpc.creator.logStore.startIdx = 1
  | .respond n _ => ∀ r ∈ c.resps[n]?, ∀ rpc ∈ c.rpcs[r.1]?, c.CountsReply rpc.req.src r.2
  | _ => True

instance (c : Cluster) : (e : Event) → Decidable (e.CountsRight c)
  | .deliver _ _ => inferInstanceAs (Decidable (∀ rpc ∈ _, _))
  | .respond _ _ => inferInstanceAs (Decidable (∀ r ∈ _, _))
  | .electionTimeout _ | .hbTimeout _ _ | .client _ _ _ | .addServer _ _ | .removeServer _ _
  | .fail _ | .resend _ | .commitBg _ => instDecidableTrue

/-- If the input of server `i` is a reply, it can be counted. -/
def CountsInput (c : Cluster) (i : Int) : Input → Prop
  | .response _ resp _ => c.CountsReply i resp
  | _ => True

theorem Event.CountsRight.allowed {c : Cluster} {e : Event} (h : e.CountsRight c) (he : e.Static m) :
    e.Allowed (fun c i inp => Whole c i inp ∧ CountsInput c i inp) c := by
  intro i inp k hin
  cases e with
  | client => cases hin; exact ⟨nofun, trivial⟩
  | deliver n now =>
    obtain ⟨rpc, hn, heq⟩ := Option.map_eq_some_iff.1 hin
    cases heq
    refine ⟨fun htype h0 => ?_, trivial⟩
    obtain ⟨hmine, hcreator⟩ := h rpc hn htype h0
    exact ⟨hmine, rpc, List.mem_of_getElem? hn, rfl, rfl, hcreator⟩
  | respond n now =>
    simp only [Event.input, Option.bind_eq_bind, Option.bind_eq_some_iff] at hin
    obtain ⟨r, hr, rpc, hn, heq⟩ := hin
    cases heq
    exact ⟨trivial, h r hr rpc hn⟩
  | fail n | resend n =>
    obtain ⟨rpc, -, heq⟩ := Option.map_eq_some_iff.1 hin
    cases heq
    exact ⟨trivial, trivial⟩
  | addServer | removeServer => exact he.elim
  | electionTimeout | hbTimeout | commitBg => cases hin; exact ⟨trivial, trivial⟩

/-! ## The invariant -/

/-- What leaders have on record, their peers have acknowledged. -/
structure Marked (m : Members) (ctx : Context) (H : LogHistory) (c : Cluster) : Prop where
  follows : Follows m ctx H c
  record : Record c
  marks : ∀ i ∈ m.ids, (c.servers i).role = .leader → ∀ x ∈ (c.servers i).marks,
    x.2 ≤ H.acked x.1 (c.servers i).term

/-! ## Acknowledgements -/

namespace Follows

variable {H : LogHistory} {c : Cluster} {i j : Int} {k : Nat}

/-- Logs that have entries of one term at an index agree up to there. -/
theorem take_of_termAt (h : Follows m ctx H c) (hi : i ∈ m.ids) (hj : j ∈ m.ids)
    (hki : k < (c.servers i).nextSlot ∧ (c.servers i).logStore.startIdx ≤ k)
    (hkj : k < (c.servers j).nextSlot ∧ (c.servers j).logStore.startIdx ≤ k)
    (hterm : (c.servers i).logStore.termAt k = (c.servers j).logStore.termAt k) :
    k ≤ (H.log i).length ∧ (H.log i).take k <+: H.log j := by
  have hhi := (h.server i hi).stored.holds
  have hhj := (h.server j hj).stored.holds
  have hpos : 1 ≤ k := hhi.start.trans hki.2
  have hlen := hki.1
  have hlen' := hkj.1
  rw [Server.nextSlot, hhi.nextSlot] at hlen
  rw [Server.nextSlot, hhj.nextSlot] at hlen'
  have hget := List.getElem?_eq_getElem (show k - 1 < (H.log i).length by omega)
  have hget' := List.getElem?_eq_getElem (show k - 1 < (H.log j).length by omega)
  have htake := h.base.matching_getElem? (.inl ⟨i, rfl⟩) (.inl ⟨j, rfl⟩) hget hget' (by
    rw [← hhi.entryAt hki.2 hget, ← hhj.entryAt hkj.2 hget']
    exact hterm)
  rw [Nat.sub_add_cancel hpos] at htake
  refine ⟨by omega, ?_⟩
  rw [htake]
  exact List.take_prefix _ _

/-- Peers in the leader's term acknowledge what they share with it. -/
theorem ack_all (h : Follows m ctx H c) (hi : i ∈ m.ids) (hl : (c.servers i).role = .leader)
    (xs : List (Int × Nat)) (hxs : ∀ x ∈ xs, x.2 = 0 ∨ (x.1 ∈ m.ids ∧
      (c.servers x.1).term = (c.servers i).term ∧ x.2 ≤ (H.log i).length ∧
      (H.log i).take x.2 <+: H.log x.1)) :
    ∃ H', (∀ j t, H.acked j t ≤ H'.acked j t) ∧ H'.log = H.log ∧ Follows m ctx H' c ∧
      ∀ x ∈ xs, x.2 ≤ H'.acked x.1 (c.servers i).term := by
  induction xs with
  | nil => exact ⟨H, fun _ _ => le_rfl, rfl, h, fun x hx => (List.not_mem_nil hx).elim⟩
  | cons x xs ih =>
    rw [List.forall_mem_cons] at hxs
    obtain ⟨H₁, hle, hlog, hf, hacked⟩ := ih hxs.2
    rcases hxs.1 with hzero | ⟨hmem, hterm, hlen, hshared⟩
    · refine ⟨H₁, hle, hlog, hf, List.forall_mem_cons.2 ⟨?_, hacked⟩⟩
      rw [hzero]
      exact Nat.zero_le _
    · have hnode : H₁.term x.1 = (c.servers i).term := (hf.server x.1 hmem).term.trans hterm
      have hlead : H₁.lead (H₁.term x.1) = some (i, H₁.log i) := by
        rw [hnode]
        exact (hf.server i hi).leader hl
      rw [← hlog] at hlen hshared
      have hmono : ∀ j t, H₁.acked j t ≤ (H₁.setAcked x.1 (H₁.term x.1)
          (max (H₁.acked x.1 (H₁.term x.1)) x.2)).acked j t := by
        intro j t
        rw [History.acked_setAcked]
        split
        next heq =>
          obtain ⟨rfl, rfl⟩ := heq
          exact Nat.le_max_left _ _
        next => exact le_rfl
      refine ⟨_, fun j t => (hle j t).trans (hmono j t), hlog, hf.ack hlead hlen hshared,
        List.forall_mem_cons.2 ⟨?_, fun y hy => (hacked y hy).trans (hmono _ _)⟩⟩
      rw [History.acked_setAcked, if_pos ⟨rfl, hnode.symm⟩]
      exact Nat.le_max_right _ _

end Follows

namespace Marked

variable {H H' : LogHistory} {c c₀ : Cluster} {i : Int}

/-- The marks of the server that takes a small step are acknowledged after it. -/
theorem update (h : Marked m ctx H c) (hle : ∀ j t, H.acked j t ≤ H'.acked j t)
    (hf : Follows m ctx H' (c.update i s' o)) (hrecord : Record (c.update i s' o))
    (hmarks : s'.role = .leader → ∀ x ∈ s'.marks, x.2 ≤ H'.acked x.1 s'.term) :
    Marked m ctx H' (c.update i s' o) := by
  refine ⟨hf, hrecord, fun j hj hl x hx => ?_⟩
  by_cases hji : j = i
  · subst hji
    rw [Cluster.update_servers_self] at hl hx ⊢
    exact hmarks hl x hx
  · have hsame : (c.update i s' o).servers j = c.servers j := if_neg hji
    rw [hsame] at hl hx ⊢
    exact (h.marks j hj hl x hx).trans (hle _ _)

/-- What a reply of the current term says is acknowledged. -/
theorem ack {resp : RespMsg} {p : Peer} (h : Marked m ctx H c) (ht : Turn m c₀ c i inp)
    (hK : CountsInput c₀ i inp) (hin : inp.Answers .appendEntriesResponse resp)
    (hk : Quiet (c₀.servers i) (c.servers i)) (hterm : resp.term ≤ (c.servers i).term)
    (hacc : resp.accepted) (hp : (c.servers i).findPeer resp.src = some p)
    (hl : (c.servers i).role = .leader) {x : Int × Nat}
    (hx : x ∈ ((c.servers i).onPeer p.uid (recordMatch resp.nextIdx)).marks) :
    x.2 ≤ H.acked x.1 (c.servers i).term := by
  obtain ⟨rpc, now, rfl, -, htype⟩ := hin
  obtain ⟨hresp, -⟩ := ht.legit
  have hcurrent := hK.1 htype hacc ((hk.field Server.role).symm.trans hl)
  rw [← hk.field Server.term] at hcurrent
  obtain ⟨hsrc, hreq, hpos, hnext⟩ :=
    (h.follows.response rpc resp hresp).append (h.record.append_of_reply hresp htype) hacc
  obtain ⟨q', hq', rfl⟩ := List.mem_map.1 hx
  obtain ⟨q, hq, rfl⟩ := List.mem_map.1 hq'
  split
  next huid =>
    -- the object is the peer that has replied
    have hobj := (h.record.objects i).object_eq hq
    rw [huid, (h.record.objects i).object_eq (List.mem_of_find?_eq_some hp)] at hobj
    cases hobj
    have hid : p.id = resp.src := by simpa using List.find?_some hp
    show usub resp.nextIdx 1 ≤ H.acked p.id _
    rw [hid, hsrc, ← le_antisymm hterm hcurrent, hreq, usub_of_le hpos]
    omega
  next => exact h.marks i ht.mem hl _ (List.mem_map_of_mem hq)

/-- What is left from before an election is acknowledged again. -/
theorem elect {resp : RespMsg} (h : Marked m ctx H c) (ht : Turn m c₀ c i inp)
    (hK : CountsInput c₀ i inp) (hsame : ∀ j, j ≠ i → c.servers j = c₀.servers j)
    (hin : inp.Answers .requestVoteResponse resp) (hk : Quiet (c₀.servers i) (c.servers i))
    (hwin : resp.Elects (c.servers i)) (hmarks : s'.marks = (c.servers i).marks)
    (hterm : s'.term = (c.servers i).term) (hlog : s'.logStore = (c.servers i).logStore)
    (hle : ∀ j t, H.acked j t ≤ H'.acked j t) (hf : Follows m ctx H' (c.update i s' o))
    (hrecord : Record (c.update i s' o)) : ∃ H'', Marked m ctx H'' (c.update i s' o) := by
  by_cases hl : s'.role = .leader
  · obtain ⟨rpc, now, rfl, -, htype⟩ := hin
    have hleft := hK.2 htype (hk.elects hwin)
    have hnew : (c.update i s' o).servers i = s' := Cluster.update_servers_self ..
    have hstore : s'.logStore = (c₀.servers i).logStore := hlog.trans (hk.field Server.logStore)
    obtain ⟨H'', hle', -, hf', hacked⟩ := hf.ack_all ht.mem (hnew.symm ▸ hl) s'.marks fun x hx => by
      rw [hmarks, hk.keeps.marks] at hx
      obtain ⟨p, hp, hpx⟩ := List.mem_map.1 hx
      obtain ⟨hmem, hne⟩ := (ht.start.server i ht.mem).peer_mem hp
      have hid : p.id = x.1 := congrArg Prod.fst hpx
      rw [hid] at hmem hne
      rw [ht.start.id i ht.mem] at hne
      have hother : (c.update i s' o).servers x.1 = c₀.servers x.1 :=
        (if_neg hne).trans (hsame x.1 hne)
      refine (hleft x hx).imp_right fun ⟨hpeer, hmine, htheirs, hend⟩ => ⟨hmem, ?_, ?_⟩
      · rw [hother, hnew, hterm, hk.field Server.term]
        exact hpeer
      · refine hf.take_of_termAt ht.mem hmem ?_ ?_ ?_
        · rw [hnew, Server.nextSlot, hstore]
          exact hmine
        · rw [hother]
          exact htheirs
        · rw [hnew, hother, hstore]
          exact hend
    refine ⟨H'', h.update (fun j t => (hle j t).trans (hle' j t)) hf' hrecord fun _ x hx => ?_⟩
    have hx := hacked x hx
    rwa [hnew] at hx
  · exact ⟨H', h.update hle hf hrecord fun hl' => (hl hl').elim⟩

/-- **Small steps keep what leaders know.** -/
theorem micro (h : Marked m ctx H c) (h₀ : ∃ H₀, Follows m ctx H₀ c₀) (ht : Turn m c₀ c i inp)
    (hwhole : Whole c₀ i inp) (hK : CountsInput c₀ i inp)
    (hsame : ∀ j, j ≠ i → c.servers j = c₀.servers j)
    (hm : Micro ctx inp (c₀.servers i) (c.servers i) o s') :
    ∃ H', Marked m ctx H' (c.update i s' o) := by
  obtain ⟨H', hs, hf⟩ := h.follows.micro (U := fun _ _ => True) h₀ ht hwhole
    (fun _ _ _ _ _ _ _ _ _ => trivial) hm
  have hrecord := h.record.micro ht.legit hm
  have hle := (h.follows.base.steps hs).2.acked
  cases hm.matchStep (ht.static.server i ht.mem) (ht.start.server i ht.mem) ht.input
    (h.follows.server i ht.mem).stored.sync with
  | same hmarks hrole =>
    refine ⟨H', h.update hle hf hrecord fun hl x hx => ?_⟩
    obtain ⟨hl', hterm⟩ := hrole hl
    rw [hmarks] at hx
    rw [hterm]
    exact (h.marks i ht.mem hl' x hx).trans (hle _ _)
  | alone hmarks =>
    refine ⟨H', h.update hle hf hrecord fun _ x hx => ?_⟩
    rw [hmarks] at hx
    cases hx
  | elect hin hk hwin hmarks hterm hlog =>
    exact h.elect ht hK hsame hin hk hwin hmarks hterm hlog hle hf hrecord
  | ack hin hk hterm hacc hp hs' =>
    subst hs'
    refine ⟨H', h.update hle hf hrecord fun hl x hx => ?_⟩
    exact (h.ack ht hK hin hk hterm hacc hp hl hx).trans (hle _ _)

theorem answer {rpc : Rpc} {now : Int} {k : Nat} {resp : RespMsg} (h : Marked m ctx H c)
    (h₀ : ∃ H₀, Follows m ctx H₀ c₀) (ht : Turn m c₀ c rpc.target (.request rpc.req now))
    (hwhole : Whole c₀ rpc.target (.request rpc.req now)) (hk : c.rpcs[k]? = some rpc)
    (hrep : Replied (c₀.servers rpc.target) rpc.req resp (c.servers rpc.target)) :
    ∃ H', Marked m ctx H' (c.answer k resp) := by
  obtain ⟨H', hs, hf⟩ := h.follows.answer (U := fun _ _ => True) h₀ ht hwhole hk hrep
  refine ⟨H', hf, h.record.answer hk hrep, fun i hi hl x hx => ?_⟩
  exact (h.marks i hi hl x hx).trans ((h.follows.base.steps hs).2.acked _ _)

/-- A peer that is not in a later term than the leader has the leader's log as far as it is on
record. -/
theorem agree (h : Marked m ctx H c) (hc : StaticCluster m c) (hi : i ∈ m.ids)
    (hl : (c.servers i).role = .leader) {p : Peer} (hp : p ∈ (c.servers i).peers) :
    p.matchedIdx < (c.servers i).nextSlot ∧
      ((c.servers p.id).term ≤ (c.servers i).term → c.AgreeUpTo i p.id p.matchedIdx) := by
  obtain ⟨hj, -⟩ := (hc.server i hi).peer_mem hp
  have hmark := h.marks i hi hl (p.id, p.matchedIdx) (List.mem_map_of_mem hp)
  have hti := h.follows.server i hi
  have htj := h.follows.server p.id hj
  have hni : (c.servers i).nextSlot = (H.log i).length + 1 := hti.stored.holds.nextSlot
  have hnj : (c.servers p.id).nextSlot = (H.log p.id).length + 1 := htj.stored.holds.nextSlot
  dsimp only at hmark
  rcases Nat.eq_zero_or_pos p.matchedIdx with hzero | hpos
  · rw [hzero, hni]
    refine ⟨Nat.succ_pos _, fun _ => ⟨by omega, by omega, fun n h1 h0 => by omega⟩⟩
  · obtain ⟨hle, i', L, hL, hlen, hheld⟩ := h.follows.base.held p.id _ (hpos.trans_le hmark)
    cases hL.symm.trans (hti.leader hl)
    refine ⟨by omega, fun hterm => ?_⟩
    have hshared := hheld (le_antisymm (htj.term ▸ hterm) hle)
    have hlong := hshared.length_le
    rw [List.length_take] at hlong
    refine ⟨by omega, by omega, fun n h1 hn hsi hsj => ?_⟩
    obtain ⟨r, hr⟩ := hshared
    rw [hti.stored.holds.lookup h1, htj.stored.holds.lookup h1, if_pos hsi, if_pos hsj, ← hr,
      List.getElem?_append_left (by rw [List.length_take]; omega),
      List.getElem?_take_of_lt (by omega)]

end Marked

/-! ## Runs -/

theorem marked_start {b : Int → Boot} (hb : ∀ i ∈ m.ids, FreshBoot m (b i)) :
    Marked m ctx (startHistory ctx b) (Cluster.start ctx b) := by
  refine ⟨follows_start hb, .start ctx b, fun i hi hl => ?_⟩
  obtain ⟨ps, n, hq, -, -, -⟩ := (hb i hi).static.new ctx i
  cases (hq.field Server.role).symm.trans hl

theorem marked_run {c : Cluster} (hc : StaticCluster m c) (hH : ∃ H, Marked m ctx H c)
    {es : List Event} (hes : c.Meets ctx (fun c e => e.Static m ∧ e.CountsRight c) es) :
    StaticCluster m (c.run ctx es) ∧ ∃ H, Marked m ctx H (c.run ctx es) := by
  refine Cluster.inv_run (I := fun c => StaticCluster m c ∧ ∃ H, Marked m ctx H c) ?_ ⟨hc, hH⟩ hes
  rintro c e ⟨hc, H₀, hH₀⟩ ⟨hstatic, hright⟩
  refine static_step_alone (J := fun c => ∃ H, Marked m ctx H c) hstatic (hright.allowed hstatic)
    hc ⟨H₀, hH₀⟩ ?_ ?_
  · rintro c' i inp o s' ht ⟨hwhole, hK⟩ hsame ⟨H, hH⟩ hm
    exact hH.micro ⟨H₀, hH₀.follows⟩ ht hwhole hK hsame hm
  · rintro c' rpc now k resp ht ⟨hwhole, -⟩ ⟨H, hH⟩ hk hrep
    exact hH.answer ⟨H₀, hH₀.follows⟩ ht hwhole hk hrep

/-- Server 1 is elected, and server 2 accepts its first entry. -/
def matchOne : List Event := electOne ++ [.deliver 2 0, .respond 1 0]

theorem Server.exists_mark {s : Server} {id : Int} {k : Nat} (h : (id, k) ∈ s.marks) :
    ∃ p ∈ s.peers, p.id = id ∧ p.matchedIdx = k := by
  obtain ⟨p, hp, heq⟩ := List.mem_map.1 h
  cases heq
  exact ⟨p, hp, rfl, rfl⟩

/-- Server 1 is elected in term 1, and server 2 accepts its first entry. Server 3 is elected in term 2
and overwrites this entry at server 2. Servers 4 and 5, which have no entries, elect server 1 again
in term 3. -/
def leftover : List Event :=
  [.electionTimeout 1, .deliver 0 0, .deliver 1 0, .respond 0 0, .respond 1 0, .deliver 4 0,
    .respond 2 0, .electionTimeout 3, .deliver 10 0, .deliver 11 0, .respond 3 0, .respond 4 0,
    .deliver 13 0, .deliver 8 0, .electionTimeout 1, .deliver 18 0, .deliver 19 0, .respond 7 0,
    .respond 8 0]

theorem Cluster.AgreeUpTo.termAt {c : Cluster} {i j : Int} {k : Nat} (h : c.AgreeUpTo i j k)
    (hk : 1 ≤ k) (hi : (c.servers i).logStore.startIdx ≤ k)
    (hj : (c.servers j).logStore.startIdx ≤ k) :
    ((c.servers i).logStore.logs.lookup k).map LogEntry.term =
      ((c.servers j).logStore.logs.lookup k).map LogEntry.term :=
  congrArg (Option.map LogEntry.term) (h.2.2 k hk le_rfl hi hj)

end EnclaveRaft
