import EnclaveRaft.Ledger
import EnclaveRaft.Exposed

/-!
# Committed entries

A leader commits what most servers have, without looking at the term of the entry, and it counts
what replies of earlier terms have told it; a follower commits what its leader has committed, even
entries behind the request that nobody has compared. In a run in which neither matters (`CountsEndorsed`,
`TailKept`) whatever a server commits is chosen in the history that the run follows. So
committed entries are never overwritten, and no two servers process different entries at an index.
-/

namespace EnclaveRaft

open Act Server LogStore

variable {m : Members} {ctx : Context}

/-! ## Counting replies -/

section Quiet

variable {s s' : Server}

theorem Quiet.findPeer (h : Quiet s s') {id : Int} {p : Peer} (hp : s'.findPeer id = some p) :
    ∃ q, s.findPeer id = some q ∧ q.uid = p.uid := by
  obtain ⟨q, hq, hcore⟩ := h.findPeer_core hp
  exact ⟨q, hq, Peer.field_eq hcore Peer.uid⟩

theorem Quiet.majorityIdx_onPeer (h : Quiet s s') (uid n : Nat) :
    majorityIdx (s'.onPeer uid (recordMatch n)) = majorityIdx (s.onPeer uid (recordMatch n)) := by
  -- what is counted of a peer, its core determines
  have hmap : ∀ s : Server, (s.onPeer uid (recordMatch n)).peers.map Peer.matchedIdx =
      (s.peers.map Peer.core).map fun p => if p.uid = uid then usub n 1 else p.matchedIdx := by
    intro s
    simp only [Server.onPeer, List.map_map, List.map_inj_left, Function.comp_apply]
    intro p _
    show (if p.uid = uid then recordMatch n p else p).matchedIdx =
      if p.uid = uid then usub n 1 else p.matchedIdx
    split <;> rfl
  have hlen : ∀ s : Server, (s.onPeer uid (recordMatch n)).peers.length =
      (s.peers.map Peer.core).length := fun s => by simp [Server.onPeer]
  have hslot : (s'.onPeer uid (recordMatch n)).nextSlot =
      (s.onPeer uid (recordMatch n)).nextSlot := h.field Server.nextSlot
  unfold majorityIdx
  rw [hmap, hmap, hlen, hlen, h.peers, hslot]

end Quiet

/-! ## What commits have to meet -/

/-- Server `j` has accepted an append request of the term `t` that reaches `k`. -/
def Cluster.accepted (c : Cluster) (j : Int) (t k : Nat) : Bool :=
  c.resps.any fun r => r.2.accepted && decide (r.2.term = t) && decide (k < r.2.nextIdx) &&
    (c.rpcs[r.1]?).any fun rpc =>
      decide (rpc.target = j) && decide (rpc.req.type = .appendEntriesRequest)

/-- Server `i` leads and has an entry of its term at `k` or later that most servers, itself
included, have accepted in this term. -/
def Endorsed (m : Members) (c : Cluster) (i : Int) (k : Nat) : Prop :=
  (c.servers i).role = .leader ∧ ∃ n < (c.servers i).nextSlot, k ≤ n ∧
    (c.servers i).logStore.startIdx ≤ n ∧ (c.servers i).logStore.termAt n = (c.servers i).term ∧
    m.ids.length / 2 <
      (m.ids.filter fun j => decide (j = i) || c.accepted j (c.servers i).term n).length

instance (m : Members) (c : Cluster) (i : Int) (k : Nat) : Decidable (Endorsed m c i k) :=
  inferInstanceAs (Decidable (_ ∧ _))

/-- If the reply lets server `i` commit more, then what it commits is endorsed. -/
def CountsEndorsed (m : Members) (c : Cluster) (i : Int) (resp : RespMsg) : Prop :=
  resp.accepted = true → resp.term ≤ (c.servers i).term →
    ∀ p ∈ (c.servers i).findPeer resp.src,
      (c.servers i).quickCommitIdx <
        majorityIdx ((c.servers i).onPeer p.uid (recordMatch resp.nextIdx)) →
      Endorsed m c i (majorityIdx ((c.servers i).onPeer p.uid (recordMatch resp.nextIdx)))

instance (m : Members) (c : Cluster) (i : Int) (resp : RespMsg) :
    Decidable (CountsEndorsed m c i resp) :=
  inferInstanceAs (Decidable (_ → _))

/-- If the request lets the server commit more, then the tail that it leaves in place agrees with
the sender's log where the commit index ends. -/
def TailKept (s : Server) (rpc : Rpc) : Prop :=
  s.term ≤ rpc.req.term → ReqOkay s rpc.req → s.quickCommitIdx < rpc.req.commitIdx →
    TailVerified s rpc

instance (s : Server) (idx t : Nat) : Decidable (TermForLog s idx t) :=
  have : Decidable (∃ snp, s.smLastSnapshot = some snp ∧ idx = snp.lastLogIdx ∧
      t = snp.lastLogTerm) :=
    inferInstanceAs (Decidable (∃ snp ∈ s.smLastSnapshot, _))
  inferInstanceAs (Decidable (_ ∨ _))

instance (s : Server) (rpc : Rpc) : Decidable (TailVerified s rpc) :=
  inferInstanceAs (Decidable (_ → _))

instance (s : Server) (rpc : Rpc) : Decidable (TailKept s rpc) :=
  have : Decidable (ReqOkay s rpc.req) := inferInstanceAs (Decidable (_ ∨ _))
  inferInstanceAs (Decidable (_ → _))

/-- The condition on the inputs of server `i`. Besides commits it is about logs that have lost their
beginning: no request for the whole log goes from or to one, and no server votes that has nothing
left of its log. -/
def Commits (m : Members) (c : Cluster) (i : Int) : Input → Prop
  | .request req _ =>
    (req.type = .appendEntriesRequest → ∃ rpc ∈ c.rpcs, rpc.req = req ∧ rpc.target = i ∧
      (req.lastLogIdx = 0 → (c.servers i).logStore.startIdx = 1 ∧
        rpc.creator.logStore.startIdx = 1) ∧ TailKept (c.servers i) rpc) ∧
    (req.type = .requestVoteRequest → (c.servers i).logStore.startIdx = 1 ∨
      (c.servers i).logStore.startIdx < (c.servers i).nextSlot)
  | .response _ resp _ => resp.type = .appendEntriesResponse → CountsEndorsed m c i resp
  | _ => True

theorem Commits.whole {c : Cluster} {i : Int} {inp : Input} (h : Commits m c i inp) :
    Whole c i inp := by
  cases inp with
  | request req now =>
    intro htype h0
    obtain ⟨rpc, hrpc, hreq, htarget, hwhole, -⟩ := h.1 htype
    exact ⟨(hwhole h0).1, rpc, hrpc, hreq, htarget, (hwhole h0).2⟩
  | _ => trivial

/-! ## The invariant -/

/-- The commit indices of the cluster are safe in the history that it follows. -/
structure Sound (m : Members) (ctx : Context) (H : LogHistory) (c : Cluster) : Prop where
  follows : Follows m ctx H c
  strong : History.Strong m.ids LogEntry.term H
  safe : ∀ i ∈ m.ids, History.Safe m.ids LogEntry.term H i (c.servers i).quickCommitIdx
  request : ∀ rpc ∈ c.rpcs, rpc.req.type = .appendEntriesRequest →
    History.Backed m.ids LogEntry.term H rpc.req.term rpc.req.commitIdx []
  applied : ∀ i ∈ m.ids, (c.servers i).smCommitIndex ≤ (c.servers i).quickCommitIdx ∧
    (c.servers i).smCommitIndex ≤ (H.log i).length
  processed : ∀ p ∈ c.processed, p.1 ∈ m.ids ∧ 1 ≤ p.2.1 ∧
    p.2.1 ≤ (c.servers p.1).quickCommitIdx ∧ (H.log p.1)[p.2.1 - 1]? = some p.2.2

namespace Sound

variable {H H' : LogHistory} {c₀ c : Cluster} {i : Int} {inp : Input} {o : List Effect}
  {s' : Server}

/-- What has been processed stays in the log. -/
theorem processed_steps (h : Sound m ctx H c)
    (hs : LogSteps m (History.UpToDate LogEntry.term) i H H') {p : Int × Nat × LogEntry}
    (hp : p ∈ c.processed) : (H'.log p.1)[p.2.1 - 1]? = some p.2.2 := by
  obtain ⟨hmem, hpos, hle, hget⟩ := h.processed p hp
  obtain ⟨⟨r, hr⟩, -⟩ := (h.safe _ hmem).evolves h.strong hs.evolves
  have hlt := (List.getElem?_eq_some_iff.1 hget).1
  rw [← hr, List.getElem?_append_left (by rw [List.length_take]; omega),
    List.getElem?_take_of_lt (by omega), hget]

theorem applied_steps (h : Sound m ctx H c)
    (hs : LogSteps m (History.UpToDate LogEntry.term) i H H') {j : Int} (hj : j ∈ m.ids) :
    (c.servers j).smCommitIndex ≤ (c.servers j).quickCommitIdx ∧
      (c.servers j).smCommitIndex ≤ (H'.log j).length := by
  obtain ⟨hle, hlen⟩ := h.applied j hj
  obtain ⟨hp, -⟩ := (h.safe j hj).evolves h.strong hs.evolves
  refine ⟨hle, le_trans ?_ hp.length_le⟩
  rw [List.length_take]
  exact Nat.le_min.2 ⟨hle, hlen⟩

/-- The history goes on and the servers stay as they are. -/
theorem later (h : Sound m ctx H c) (hs : LogSteps m (History.UpToDate LogEntry.term) i H H')
    {c' : Cluster} (hf : Follows m ctx H' c') (hservers : c'.servers = c.servers)
    (hrpcs : c'.rpcs = c.rpcs) (hproc : c'.processed = c.processed) : Sound m ctx H' c' where
  follows := hf
  strong := h.strong.evolves hs.evolves
  safe j hj := by
    rw [hservers]
    exact ((h.safe j hj).evolves h.strong hs.evolves).2
  request rpc hr htype := (h.request rpc (hrpcs ▸ hr) htype).evolves hs.evolves
  applied j hj := by
    rw [hservers]
    exact h.applied_steps hs hj
  processed p hp := by
    rw [hproc] at hp
    rw [hservers]
    obtain ⟨hmem, hpos, hle, -⟩ := h.processed p hp
    exact ⟨hmem, hpos, hle, h.processed_steps hs hp⟩

theorem update (h : Sound m ctx H c) (hi : i ∈ m.ids)
    (hs : LogSteps m (History.UpToDate LogEntry.term) i H H')
    (hf : Follows m ctx H' (c.update i s' o))
    (hquick : (c.servers i).quickCommitIdx ≤ s'.quickCommitIdx)
    (hsafe : History.Safe m.ids LogEntry.term H' i s'.quickCommitIdx)
    (happ : s'.smCommitIndex ≤ s'.quickCommitIdx ∧ s'.smCommitIndex ≤ (H'.log i).length)
    (hsent : ∀ rpc, .send rpc ∈ o → rpc.req.type = .appendEntriesRequest →
      rpc.req.term = (c.servers i).term ∧ rpc.req.commitIdx = (c.servers i).quickCommitIdx)
    (hproc : ∀ n e, .process n e ∈ o → 1 ≤ n ∧ n ≤ s'.quickCommitIdx ∧
      (H'.log i)[n - 1]? = some e) : Sound m ctx H' (c.update i s' o) := by
  refine ⟨hf, h.strong.evolves hs.evolves, fun j hj => ?_, fun rpc hr htype => ?_, fun j hj => ?_,
    fun p hp => ?_⟩
  · by_cases hji : j = i
    · subst hji
      simpa using hsafe
    · simpa [Cluster.update, hji] using ((h.safe j hj).evolves h.strong hs.evolves).2
  · rcases Cluster.mem_update_rpcs hr with hr | hr
    · exact (h.request rpc hr htype).evolves hs.evolves
    · obtain ⟨hterm, hcommit⟩ := hsent rpc hr htype
      have hmine := h.safe i hi
      unfold History.Safe at hmine
      rw [(h.follows.server i hi).term, ← hterm, ← hcommit] at hmine
      exact hmine.nil.evolves hs.evolves
  · by_cases hji : j = i
    · subst hji
      simpa using happ
    · simpa [Cluster.update, hji] using h.applied_steps hs hj
  · rcases Cluster.mem_update_processed hp with hp | ⟨hpi, hnew⟩
    · obtain ⟨hmem, hpos, hle, -⟩ := h.processed p hp
      refine ⟨hmem, hpos, ?_, h.processed_steps hs hp⟩
      by_cases hji : p.1 = i
      · simp only [Cluster.update, hji, if_true]
        exact (hji ▸ hle).trans hquick
      · simpa [Cluster.update, hji] using hle
    · obtain ⟨hpos, hle, hget⟩ := hproc _ _ hnew
      rw [hpi]
      exact ⟨hi, hpos, by simpa using hle, hget⟩

/-- The server commits what is safe. -/
theorem raise (h : Sound m ctx H c) (hi : i ∈ m.ids)
    (hs : LogSteps m (History.UpToDate LogEntry.term) i H H')
    (hf : Follows m ctx H' (c.update i s' o))
    (hquick : (c.servers i).quickCommitIdx ≤ s'.quickCommitIdx)
    (hsafe : History.Safe m.ids LogEntry.term H i s'.quickCommitIdx)
    (happ : s'.smCommitIndex = (c.servers i).smCommitIndex)
    (hsent : ∀ rpc, .send rpc ∈ o → rpc.req.type = .appendEntriesRequest →
      rpc.req.term = (c.servers i).term ∧ rpc.req.commitIdx = (c.servers i).quickCommitIdx)
    (hproc : Idle o) : Sound m ctx H' (c.update i s' o) := by
  obtain ⟨hle, hlen⟩ := h.applied_steps hs hi
  refine h.update hi hs hf hquick (hsafe.evolves h.strong hs.evolves).2 ?_ hsent
    fun n e he => (hproc n e he).elim
  rw [happ]
  exact ⟨hle.trans hquick, hlen⟩

/-- The background thread processes a safe entry. -/
theorem process (h : Sound m ctx H c) (hi : i ∈ m.ids)
    (hs : LogSteps m (History.UpToDate LogEntry.term) i H H')
    (hf : Follows m ctx H' (c.update i
      { c.servers i with smCommitIndex := (c.servers i).smCommitIndex + 1 } o))
    (ho : o = [.process ((c.servers i).smCommitIndex + 1)
      ((c.servers i).logStore.entryAt ((c.servers i).smCommitIndex + 1))])
    (hquick : (c.servers i).smCommitIndex < (c.servers i).quickCommitIdx)
    (hlog : (c.servers i).smCommitIndex < usub (c.servers i).nextSlot 1) :
    Sound m ctx H' (c.update i
      { c.servers i with smCommitIndex := (c.servers i).smCommitIndex + 1 } o) := by
  subst ho
  obtain ⟨⟨r, hr⟩, hsafe⟩ := (h.safe i hi).evolves h.strong hs.evolves
  have hst := (h.follows.server i hi).stored
  rw [Server.nextSlot, hst.holds.nextSlot, usub_succ] at hlog
  have hget : (H.log i)[(c.servers i).smCommitIndex]? =
      some (H.log i)[(c.servers i).smCommitIndex] := List.getElem?_eq_getElem hlog
  have hstart : (c.servers i).logStore.startIdx ≤ (c.servers i).smCommitIndex + 1 := by
    rcases hst.compacted with h1 | ⟨-, h1⟩ <;> omega
  have hnew : (H'.log i)[(c.servers i).smCommitIndex]? =
      some ((c.servers i).logStore.entryAt ((c.servers i).smCommitIndex + 1)) := by
    rw [hst.holds.entryAt hstart hget, ← hr, List.getElem?_append_left
      (by rw [List.length_take]; omega), List.getElem?_take_of_lt hquick, hget]
  refine h.update hi hs hf le_rfl hsafe ⟨hquick, (List.getElem?_eq_some_iff.1 hnew).1⟩ (by simp)
    fun n e hn => ?_
  cases List.mem_singleton.1 hn
  exact ⟨Nat.le_add_left _ _, hquick, hnew⟩

/-! ## Commits of the leader -/

theorem ack {L : List LogEntry} {j : Int} {k : Nat} (h : Sound m ctx H c)
    (hL : H.lead (H.term i) = some (j, L)) (hk : k ≤ L.length) (hhas : L.take k <+: H.log i) :
    Sound m ctx (H.setAcked i (H.term i) (max (H.acked i (H.term i)) k)) c :=
  h.later (i := i) (.single (.ack hL hk hhas)) (h.follows.ack hL hk hhas) rfl rfl rfl

/-- What is on record as accepted is acknowledged. -/
theorem acked_of_accepted (h : Follows m ctx H c) (hg : c₀.Grows c) {j : Int} {t k : Nat}
    (hacc : c₀.accepted j t k = true) : k ≤ H.acked j t := by
  obtain ⟨⟨n, resp⟩, hr, hresp⟩ := List.any_eq_true.1 hacc
  simp only [Bool.and_eq_true, decide_eq_true_eq, Option.any_eq_true] at hresp
  obtain ⟨⟨⟨hok, rfl⟩, hk⟩, rpc, hrpc, rfl, htype⟩ := hresp
  obtain ⟨-, hterm, -, hle⟩ := (h.response rpc resp
    (Cluster.RespTo.mono ⟨n, hrpc, hr⟩ hg)).append htype hok
  rw [hterm]
  omega

/-- An endorsed index is safe, once the leader has acknowledged its own log. -/
theorem endorsed (h : Sound m ctx H c) (hi : i ∈ m.ids) (hg : c₀.Grows c)
    (hrole : (c.servers i).role = (c₀.servers i).role)
    (hterm : (c.servers i).term = (c₀.servers i).term)
    (hlog : (c.servers i).logStore = (c₀.servers i).logStore) {k : Nat}
    (hk : Endorsed m c₀ i k) :
    ∃ H', Sound m ctx H' c ∧ LogSteps m (History.UpToDate LogEntry.term) i H H' ∧
      History.Safe m.ids LogEntry.term H' i k := by
  obtain ⟨hlead, n, hn, hkn, hstart, hend, hmaj⟩ := hk
  have ht := h.follows.server i hi
  rw [← hterm] at hmaj hend
  rw [← hlog] at hstart hend
  rw [Server.nextSlot, ← hlog, ht.stored.holds.nextSlot] at hn
  have hL := ht.leader (hrole.trans hlead)
  have hpos : 1 ≤ n := ht.stored.holds.start.trans hstart
  have hlen : ((H.log i).take n).length = n := by
    rw [List.length_take]
    omega
  rw [← ht.term] at hL
  refine ⟨_, h.ack hL le_rfl (List.take_prefix _ _),
    .single (.ack hL le_rfl (List.take_prefix _ _)), ?_⟩
  have hends : History.EndsIn LogEntry.term (H.term i) ((H.log i).take n) := by
    refine ⟨(H.log i).take (n - 1), (H.log i)[n - 1], ?_, ?_⟩
    · rw [← List.take_succ_eq_append_getElem, Nat.sub_add_cancel hpos]
    · have := termAt_of_le ht.stored.holds hstart hpos (by omega)
      rw [List.getElem?_eq_getElem (by omega), hend] at this
      rw [ht.term]
      exact Option.some.inj this
  refine .inr ⟨H.term i, (H.log i).take n, ⟨_, m.nodup.filter _, fun j hj => ?_, hmaj⟩, le_rfl,
    hkn.trans hlen.ge, List.take_prefix_take_left hkn⟩
  obtain ⟨hmem, hj⟩ := List.mem_filter.1 hj
  refine ⟨hmem, hends, ⟨i, H.log i, hL, List.take_prefix _ _⟩, ?_⟩
  rw [hlen, History.acked_setAcked]
  rw [Bool.or_eq_true, decide_eq_true_eq] at hj
  by_cases hji : j = i
  · rw [if_pos ⟨hji, rfl⟩]
    omega
  · rw [if_neg fun h => hji h.1, ht.term]
    exact acked_of_accepted h.follows hg (hj.resolve_left hji)

/-! ## Commits of a follower -/

/-- What the log of a server has up to the commit index of a request that it has accepted is in
the leader's log. -/
theorem follower_isPrefix {rpc : Rpc} {L : List LogEntry} (h : Follows m ctx H c)
    (h₀ : Follows m ctx H' c₀) (hi : i ∈ m.ids) (hr₀ : rpc ∈ c₀.rpcs) (hr : rpc ∈ c.rpcs)
    (htype : rpc.req.type = .appendEntriesRequest)
    (hwhole : rpc.req.lastLogIdx = 0 → (c₀.servers i).logStore.startIdx = 1 ∧
      rpc.creator.logStore.startIdx = 1)
    (htail : TailVerified (c₀.servers i) rpc) (hokay : ReqOkay (c₀.servers i) rpc.req)
    (hlog : (c.servers i).logStore =
      written (c₀.servers i).logStore rpc.req.lastLogIdx rpc.req.logEntries)
    (hlt : (c₀.servers i).quickCommitIdx < rpc.req.commitIdx)
    (hL : H.lead rpc.req.term = some (rpc.req.src, L))
    (hhas : L.take (rpc.req.lastLogIdx + rpc.req.logEntries.length) <+: H.log i) :
    (H.log i).take rpc.req.commitIdx <+: L := by
  have hst := (h.server i hi).stored.holds
  obtain ⟨L₀, hfits⟩ := Follows.fits h₀.base (h₀.server i hi).stored
    ((h₀.request rpc hr₀).append htype) hokay (fun h0 => (hwhole h0).1) fun h0 => (hwhole h0).2
  have hfrom := (h.request rpc hr).append htype
  have hstart := hfrom.start fun h0 => (hwhole h0).2
  obtain ⟨S, L', hL', hS, hholds, hpiece⟩ := hfrom.led
  obtain ⟨hprev, hes, -⟩ := hpiece fun h0 => (hwhole h0).2
  cases hL.symm.trans hL'
  have hcover : rpc.req.lastLogIdx + rpc.req.logEntries.length ≤ L.length := by
    have hlen := hes.length_le
    have hlen' := hS.length_le
    rw [List.length_drop] at hlen
    omega
  have hback : ∀ n, n ≤ L.length → L.take n <+: H.log i → (H.log i).take n <+: L := by
    intro n hn hp
    have heq := List.prefix_iff_eq_take.1 hp
    rw [List.length_take, Nat.min_eq_left hn] at heq
    rw [← heq]
    exact List.take_prefix _ _
  have hagree := hback _ hcover hhas
  have hmin : ∀ n, (H.log i).take (min n (H.log i).length) = (H.log i).take n := fun n => by
    rw [← List.take_take, List.take_length]
  rcases Holds.written_cases (h₀.server i hi).stored.holds hfits.start hfits.le
    rpc.req.logEntries with ⟨hskip, hsame⟩ | hnext
  · rw [hsame] at hlog
    have hlast : usub (c₀.servers i).nextSlot 1 = (H.log i).length := by
      rw [Server.nextSlot, ← hlog, hst.nextSlot, usub_succ]
    have hidx : exposedIdx (c₀.servers i) rpc.req =
        min rpc.req.commitIdx (H.log i).length := by
      rw [exposedIdx, hlast, Nat.max_eq_right hlt.le]
    have hverified := htail hskip
    rw [hidx, Server.nextSlot, hholds.nextSlot, ← hlog] at hverified
    rw [← hmin]
    have htop := Nat.min_le_right rpc.req.commitIdx (H.log i).length
    generalize min rpc.req.commitIdx (H.log i).length = top at *
    by_cases hle : top ≤ rpc.req.lastLogIdx + rpc.req.logEntries.length
    · exact (List.take_prefix_take_left hle).trans hagree
    · -- both logs have an entry of the same term where the commit index ends
      obtain ⟨hlen, hterm⟩ := hverified (Nat.lt_of_not_le hle)
      have hmine := termAt_of_le hst (hlog ▸ hfits.start.trans (by omega)) (by omega) htop
      have hsent := termAt_of_le hholds (hstart.trans (by omega)) (by omega)
        (Nat.le_of_lt_succ hlen)
      obtain ⟨a, ha, hat⟩ := Option.map_eq_some_iff.1 hmine
      obtain ⟨b, hb, hbt⟩ := Option.map_eq_some_iff.1 hsent
      have hb' : L[top - 1]? = some b := by
        obtain ⟨r, rfl⟩ := hS
        rw [List.getElem?_append_left (List.getElem?_eq_some_iff.1 hb).1, hb]
      have hp := Follows.matches_log h.base hL _ a b ha hb' (hat.trans (hterm.symm.trans hbt.symm))
      rw [Nat.sub_add_cancel (by omega)] at hp
      exact hback top (le_trans (Nat.le_of_lt_succ hlen) hS.length_le) hp
  · rw [← hlog, hst.nextSlot, Nat.add_right_cancel_iff] at hnext
    rw [← hnext, List.take_length] at hagree
    exact (List.take_prefix _ _).trans hagree

/-! ## Small steps -/

/-- An append request tells the term and the commit index of its sender. -/
theorem append_sent (hin : StaticInput m inp) {s₀ s : Server} (hm : Micro ctx inp s₀ s o s')
    {rpc : Rpc} (hrpc : .send rpc ∈ o) (htype : rpc.req.type = .appendEntriesRequest) :
    rpc.req.term = s.term ∧ rpc.req.commitIdx = s.quickCommitIdx := by
  cases hm with
  | note he => cases List.mem_singleton.1 hrpc; exact he.elim
  | merge => exact (writtenOut_inert _ hrpc).elim
  | sendVote => cases List.mem_singleton.1 hrpc; cases htype
  | sendAppend _ hmsg =>
    cases List.mem_singleton.1 hrpc
    obtain ⟨p, t, es, -, -, -, -, -, rfl⟩ := hmsg
    exact ⟨rfl, rfl⟩
  | sendSnapshot _ hmsg =>
    cases List.mem_singleton.1 hrpc
    obtain ⟨p, sync, e, r, -, -, htype', -⟩ := hmsg
    cases htype.symm.trans htype'
  | sendExt hadmin => exact (hin.not_isAdmin hadmin).elim
  | resend hreq =>
    subst hreq
    exact hin.elim
  | _ => first | cases hrpc; done | cases List.mem_singleton.1 hrpc

/-- A follower commits what its leader has committed. -/
theorem commit_follower {req : ReqMsg} {now : Int} (h : Sound m ctx H c) (h₀ : Sound m ctx H' c₀)
    (hle : (c₀.servers i).term ≤ (c.servers i).term) (ht : Turn m c₀ c i (.request req now))
    (hK : Commits m c₀ i (.request req now)) (htype : req.type = .appendEntriesRequest)
    (hterm : req.term = (c.servers i).term)
    (hquick : (c.servers i).quickCommitIdx = (c₀.servers i).quickCommitIdx)
    (hlog : (c.servers i).logStore =
      written (c₀.servers i).logStore req.lastLogIdx req.logEntries)
    (hsnp : (c.servers i).smLastSnapshot = (c₀.servers i).smLastSnapshot)
    (hokay : ReqOkay (c₀.servers i) req) (hlt : (c.servers i).quickCommitIdx < req.commitIdx) :
    History.Safe m.ids LogEntry.term H i req.commitIdx := by
  obtain ⟨L, hL, -, hhas⟩ := h.follows.has_accepted ⟨_, h₀.follows⟩ ht hK.whole htype hokay hlog hsnp
  obtain ⟨rpc, hr₀, rfl, rfl, hwhole, htail⟩ := hK.1 htype
  have hr := ht.grows.rpcs.subset hr₀
  have hp := follower_isPrefix h.follows h₀.follows ht.mem hr₀ hr htype hwhole
    (htail (hterm ▸ hle) hokay (hquick ▸ hlt)) hokay hlog (hquick ▸ hlt) hL hhas
  have hback := (h.request rpc hr htype).congr h.strong le_rfl hL hp
  unfold History.Safe
  rwa [(h.follows.server _ ht.mem).term, ← hterm]

/-- A leader commits what is endorsed. -/
theorem commit_majority {s₁ : Server} {resp : RespMsg} {p : Peer} (h : Sound m ctx H c)
    (h₀ : Sound m ctx H' c₀) (ht : Turn m c₀ c i inp) (hK : Commits m c₀ i inp)
    (hU : ∀ {H : LogHistory}, Follows m ctx H c → ∀ req now l, inp = .request req now →
      req.type = .requestVoteRequest → grantsVote (c.servers i) req →
      Keeps (c₀.servers i) (c.servers i) → req.lastLogIdx = l.length →
      req.lastLogTerm = History.lastTerm LogEntry.term l →
      History.UpToDate LogEntry.term l (H.log i))
    (hin : inp.Answers .appendEntriesResponse resp) (hk : Quiet (c₀.servers i) s₁)
    (hterm : resp.term ≤ (c.servers i).term) (hacc : resp.accepted)
    (hp : s₁.findPeer resp.src = some p)
    (hs₁ : c.servers i = s₁.onPeer p.uid (recordMatch resp.nextIdx))
    (hlt : (c.servers i).quickCommitIdx < majorityIdx (c.servers i))
    (hm : Micro ctx inp (c₀.servers i) (c.servers i) []
      { c.servers i with quickCommitIdx := majorityIdx (c.servers i) }) :
    ∃ H', LogSteps m (History.UpToDate LogEntry.term) i H H' ∧
      Sound m ctx H' (c.update i
        { c.servers i with quickCommitIdx := majorityIdx (c.servers i) } []) := by
  obtain ⟨rpc, now, rfl, -, htype⟩ := hin
  obtain ⟨p₀, hp₀, huid⟩ := hk.findPeer hp
  have hidx : majorityIdx (c.servers i) =
      majorityIdx ((c₀.servers i).onPeer p₀.uid (recordMatch resp.nextIdx)) := by
    rw [hs₁, hk.majorityIdx_onPeer, huid]
  have hsame : ∀ {α : Type} (f : Server → α), (∀ s : Server, f s.core = f s) →
      (∀ (s : Server) uid g, f (s.onPeer uid g) = f s) → f (c.servers i) = f (c₀.servers i) :=
    fun f hf hpeer => by rw [hs₁, hpeer, hk.field f hf]
  have hend := hK htype hacc
    (hterm.trans_eq (hsame Server.term (fun _ => rfl) fun _ _ _ => rfl)) p₀ hp₀
    (by rwa [← hidx, ← hsame Server.quickCommitIdx (fun _ => rfl) fun _ _ _ => rfl])
  rw [← hidx] at hend
  obtain ⟨H₁, h₁, hs, hsafe⟩ := h.endorsed ht.mem ht.grows
    (hsame Server.role (fun _ => rfl) fun _ _ _ => rfl)
    (hsame Server.term (fun _ => rfl) fun _ _ _ => rfl)
    (hsame Server.logStore (fun _ => rfl) fun _ _ _ => rfl) hend
  obtain ⟨H₂, hs', hf⟩ := h₁.follows.micro ⟨_, h₀.follows⟩ ht hK.whole (hU h₁.follows) hm
  exact ⟨H₂, hs.trans hs', h₁.raise ht.mem hs' hf hlt.le hsafe rfl (by simp) idle_nil⟩

/-- **Small steps keep commits safe.** -/
theorem micro (hmany : 1 < m.ids.length) (h : Sound m ctx H c) {H₀ : LogHistory}
    (h₀ : Sound m ctx H₀ c₀)
    (hle : (c₀.servers i).term ≤ (c.servers i).term) (ht : Turn m c₀ c i inp)
    (hK : Commits m c₀ i inp) (hm : Micro ctx inp (c₀.servers i) (c.servers i) o s') :
    ∃ H', LogSteps m (History.UpToDate LogEntry.term) i H H' ∧
      Sound m ctx H' (c.update i s' o) := by
  have hU : ∀ {H : LogHistory}, Follows m ctx H c → ∀ req now l, inp = .request req now →
      req.type = .requestVoteRequest → grantsVote (c.servers i) req →
      Keeps (c₀.servers i) (c.servers i) → req.lastLogIdx = l.length →
      req.lastLogTerm = History.lastTerm LogEntry.term l →
      History.UpToDate LogEntry.term l (H.log i) := by
    rintro H hH req now l rfl htype hg hk hidx hterm
    refine Follows.upToDate (hH.server i ht.mem).stored ?_ hg hidx hterm
    rw [Server.nextSlot, hk.field Server.logStore]
    exact hK.2 htype
  have hsent := fun (rpc : Rpc) (hr : .send rpc ∈ o) hty => append_sent ht.input hm hr hty
  obtain ⟨H', hs, hf⟩ := h.follows.micro ⟨_, h₀.follows⟩ ht hK.whole (hU h.follows) hm
  have hstay : Idle o → s'.quickCommitIdx = (c.servers i).quickCommitIdx →
      s'.smCommitIndex = (c.servers i).smCommitIndex → ∃ H',
      LogSteps m (History.UpToDate LogEntry.term) i H H' ∧ Sound m ctx H' (c.update i s' o) :=
    fun ho hquick happ => ⟨H', hs, h.raise ht.mem hs hf hquick.ge (hquick ▸ h.safe i ht.mem) happ
      hsent ho⟩
  cases hm.ledgerStep with
  | same hs' ho =>
    exact hstay ho (congrArg Ledger.quickCommitIdx hs') (congrArg Ledger.smCommitIndex hs')
  | commitMajority hin hk hterm hacc hp hs₁ hlt hs' ho =>
    subst hs' ho
    exact h.commit_majority h₀ ht hK hU hin hk hterm hacc hp hs₁ hlt hm
  | commitAlone _ hpeers =>
    have := (ht.static.server i ht.mem).length_peers
    rw [hpeers, List.length_nil] at this
    omega
  | commitFollower hin htype hrole hterm hquick hlog hsnp hokay hlt hs' ho =>
    subst hin hs' ho
    exact ⟨H', hs, h.raise ht.mem hs hf hlt.le (h.commit_follower h₀ hle ht hK htype hterm hquick
      hlog hsnp hokay hlt) rfl hsent idle_nil⟩
  | process hin hk hquick hlog hs' ho =>
    subst hs' ho
    exact ⟨H', hs, h.process ht.mem hs hf (by simp) hquick hlog⟩
  | installCompact hin | installApply hin | installDone hin =>
    exact (h.follows.not_installs ht hin).elim
  | packCommit hin htype | join hin htype =>
    subst hin
    exact (ht.input.not_isAdmin (by simp [Input.IsAdmin, htype])).elim
  | saveInitial _ _ hs' ho | confAppend _ _ hs' ho | pack _ _ _ _ _ hs' ho
  | confApplied _ hs' ho | abandon _ _ _ _ hs' ho | snapshot _ _ _ _ _ _ _ hs' ho =>
    subst hs' ho
    exact hstay idle_nil rfl rfl
  | client _ _ _ _ hs' ho | merge _ _ _ _ _ _ _ _ hs' ho =>
    subst hs'
    exact hstay ho rfl rfl

theorem answer {rpc : Rpc} {now : Int} {k : Nat} {resp : RespMsg} (h : Sound m ctx H c)
    (h₀ : Sound m ctx H' c₀) (ht : Turn m c₀ c rpc.target (.request rpc.req now))
    (hK : Commits m c₀ rpc.target (.request rpc.req now)) (hk : c.rpcs[k]? = some rpc)
    (hrep : Replied (c₀.servers rpc.target) rpc.req resp (c.servers rpc.target)) :
    ∃ H', LogSteps m (History.UpToDate LogEntry.term) rpc.target H H' ∧
      Sound m ctx H' (c.answer k resp) := by
  obtain ⟨H', hs, hf⟩ := h.follows.answer ⟨_, h₀.follows⟩ ht hK.whole hk hrep
  exact ⟨H', hs, h.later hs hf rfl rfl rfl⟩

end Sound

/-! ## Runs -/

theorem fresh_indices {b : Int → Boot} (hb : ∀ i ∈ m.ids, FreshBoot m (b i)) {i : Int}
    (hi : i ∈ m.ids) : ((Cluster.start ctx b).servers i).quickCommitIdx = 0 ∧
      ((Cluster.start ctx b).servers i).smCommitIndex = 0 := by
  obtain ⟨ps, n, hq, -, -, -⟩ := (hb i hi).static.new ctx i
  exact ⟨(hq.field Server.quickCommitIdx).trans (hb i hi).commit,
    (hq.field Server.smCommitIndex).trans (hb i hi).commit⟩

theorem sound_start {b : Int → Boot} (hb : ∀ i ∈ m.ids, FreshBoot m (b i)) :
    Sound m ctx (startHistory ctx b) (Cluster.start ctx b) where
  follows := follows_start hb
  strong := strong_start m ctx b
  safe i hi := .inl (fresh_indices hb hi).1
  request rpc hr := (List.not_mem_nil hr).elim
  applied i hi := by
    rw [(fresh_indices hb hi).1, (fresh_indices hb hi).2]
    exact ⟨le_rfl, Nat.zero_le _⟩
  processed p hp := (List.not_mem_nil hp).elim

/-- **Commits are safe along runs.** In one event the history goes on from where it was. -/
theorem sound_step (hmany : 1 < m.ids.length) {c : Cluster} {H : LogHistory} {e : Event}
    (hc : StaticCluster m c) (hH : Sound m ctx H c) (he : e.Static m)
    (hK : e.Allowed (Commits m) c) :
    StaticCluster m (c.step ctx e) ∧ ∃ H', History.Evolves m.ids LogEntry.term
      (History.UpToDate LogEntry.term) H H' ∧ Sound m ctx H' (c.step ctx e) := by
  refine static_step (J := fun c => ∃ H', History.Evolves m.ids LogEntry.term
    (History.UpToDate LogEntry.term) H H' ∧ Sound m ctx H' c) (K := Commits m)
    he hK hc ⟨H, .refl, hH⟩ ?_ ?_
  · rintro c' i inp o s' ht hK ⟨H₁, hev, h₁⟩ hm
    have hle : (c.servers i).term ≤ (c'.servers i).term := by
      rw [← (hH.follows.server i ht.mem).term, ← (h₁.follows.server i ht.mem).term]
      exact hev.term_le i
    obtain ⟨H₂, hs, h₂⟩ := h₁.micro hmany hH hle ht hK hm
    exact ⟨H₂, hev.trans hs.evolves, h₂⟩
  · rintro c' rpc now k resp ht hK ⟨H₁, hev, h₁⟩ hk hrep
    obtain ⟨H₂, hs, h₂⟩ := h₁.answer hH ht hK hk hrep
    exact ⟨H₂, hev.trans hs.evolves, h₂⟩

theorem sound_run (hmany : 1 < m.ids.length) {c : Cluster} {H : LogHistory}
    (hc : StaticCluster m c) (hH : Sound m ctx H c) {C : Cluster → Event → Prop}
    (hC : ∀ c e H, StaticCluster m c → Sound m ctx H c → C c e →
      e.Static m ∧ e.Allowed (Commits m) c) {es : List Event} (hes : c.Meets ctx C es) :
    StaticCluster m (c.run ctx es) ∧ ∃ H', Sound m ctx H' (c.run ctx es) := by
  refine Cluster.inv_run (I := fun c => StaticCluster m c ∧ ∃ H', Sound m ctx H' c) ?_ ⟨hc, H, hH⟩ hes
  rintro c e ⟨hc, H, hH⟩ he
  obtain ⟨hstatic, hallowed⟩ := hC c e H hc hH he
  obtain ⟨hc', H', -, hH'⟩ := sound_step hmany hc hH hstatic hallowed
  exact ⟨hc', H', hH'⟩

/-! ## State machine safety -/

/-- The event's commits are safe: a reply is counted only for what is endorsed, and a request
exposes no tail that differs from the sender's log. -/
def Event.CommitsSafely (m : Members) (c : Cluster) : Event → Prop
  | .deliver n _ => ∀ rpc ∈ c.rpcs[n]?, rpc.req.type = .appendEntriesRequest →
      TailKept (c.servers rpc.target) rpc
  | .respond n _ => ∀ r ∈ c.resps[n]?, ∀ rpc ∈ c.rpcs[r.1]?, r.2.type = .appendEntriesResponse →
      CountsEndorsed m c rpc.req.src r.2
  | _ => True

instance (m : Members) (c : Cluster) : (e : Event) → Decidable (e.CommitsSafely m c)
  | .deliver _ _ => inferInstanceAs (Decidable (∀ rpc ∈ _, _))
  | .respond _ _ => inferInstanceAs (Decidable (∀ r ∈ _, _))
  | .electionTimeout _ | .hbTimeout _ _ | .client _ _ _ | .addServer _ _ | .removeServer _ _
  | .fail _ | .resend _ | .commitBg _ => instDecidableTrue

/-- The event spares logs that have lost their beginning: no request for the whole log goes from or
to one, and no server is asked for its vote that has nothing left of its log. -/
def Event.SparesCompacted (c : Cluster) : Event → Prop
  | .deliver n _ => ∀ rpc ∈ c.rpcs[n]?,
      (rpc.req.type = .appendEntriesRequest → rpc.req.lastLogIdx = 0 →
        (c.servers rpc.target).logStore.startIdx = 1 ∧ rpc.creator.logStore.startIdx = 1) ∧
      (rpc.req.type = .requestVoteRequest → (c.servers rpc.target).logStore.startIdx = 1 ∨
        (c.servers rpc.target).logStore.startIdx < (c.servers rpc.target).nextSlot)
  | _ => True

instance (c : Cluster) : (e : Event) → Decidable (e.SparesCompacted c)
  | .deliver _ _ => inferInstanceAs (Decidable (∀ rpc ∈ _, _))
  | .respond _ _ | .electionTimeout _ | .hbTimeout _ _ | .client _ _ _ | .addServer _ _
  | .removeServer _ _ | .fail _ | .resend _ | .commitBg _ => instDecidableTrue

theorem Event.CommitsSafely.allowed {c : Cluster} {e : Event} (hsafe : e.CommitsSafely m c)
    (hspares : e.SparesCompacted c) (he : e.Static m) : e.Allowed (Commits m) c := by
  intro i inp k hin
  cases e with
  | client => cases hin; exact ⟨nofun, nofun⟩
  | deliver n now =>
    obtain ⟨rpc, hn, heq⟩ := Option.map_eq_some_iff.1 hin
    cases heq
    exact ⟨fun htype => ⟨rpc, List.mem_of_getElem? hn, rfl, rfl, (hspares rpc hn).1 htype,
      hsafe rpc hn htype⟩, (hspares rpc hn).2⟩
  | respond n now =>
    simp only [Event.input, Option.bind_eq_bind, Option.bind_eq_some_iff] at hin
    obtain ⟨r, hr, rpc, hn, heq⟩ := hin
    cases heq
    exact fun htype => hsafe r hr rpc hn htype
  | fail n | resend n =>
    obtain ⟨rpc, -, heq⟩ := Option.map_eq_some_iff.1 hin
    cases heq
    trivial
  | addServer | removeServer => exact he.elim
  | electionTimeout | hbTimeout | commitBg => cases hin; trivial

/-- Without snapshots no log loses its beginning. -/
theorem Sound.sparesCompacted {c : Cluster} {H : LogHistory} (h : Sound m ctx H c)
    (hc : StaticCluster m c) (hoff : ctx.params.snapshotDistance = 0) (e : Event) :
    e.SparesCompacted c := by
  cases e with
  | deliver n now =>
    intro rpc hn
    have hrpc := List.mem_of_getElem? hn
    have hstart := (h.follows.server _ (hc.rpc rpc hrpc).dst).stored.whole hoff
    exact ⟨fun htype _ => ⟨hstart, ((h.follows.request rpc hrpc).append htype).whole hoff⟩,
      fun _ => .inl hstart⟩
  | _ => trivial

/-- Only members process entries. -/
theorem processed_mem {c : Cluster} (hc : StaticCluster m c) (hp : ∀ p ∈ c.processed, p.1 ∈ m.ids)
    {es : List Event} (hes : c.Meets ctx (fun _ e => e.Static m) es) :
    ∀ p ∈ (c.run ctx es).processed, p.1 ∈ m.ids := by
  refine (Cluster.inv_run (I := fun c => StaticCluster m c ∧ ∀ p ∈ c.processed, p.1 ∈ m.ids)
    ?_ ⟨hc, hp⟩ hes).2
  rintro c e ⟨hc, hp⟩ he
  refine static_step (J := fun c => ∀ p ∈ c.processed, p.1 ∈ m.ids) (K := fun _ _ _ => True)
    he (fun _ _ _ _ => trivial) hc hp (fun c' i inp o s' ht _ hJ _ p hp => ?_)
    fun _ _ _ _ _ _ _ hJ _ _ => hJ
  rcases Cluster.mem_update_processed hp with hp | ⟨hpi, -⟩
  · exact hJ p hp
  · rw [hpi]
    exact ht.mem

/-- Server 1 is elected, commits its first entry with server 2 and tells server 2; both process
it. -/
def processOne : List Event :=
  electOne ++ [.deliver 2 0, .respond 1 0, .commitBg 1, .deliver 4 0, .commitBg 2]

theorem Cluster.exists_processed {c : Cluster} {i : Int} {k : Nat}
    (h : (i, k) ∈ c.processed.map fun p => (p.1, p.2.1)) : ∃ e, (i, k, e) ∈ c.processed := by
  obtain ⟨⟨i', k', e⟩, hp, heq⟩ := List.mem_map.1 h
  cases heq
  exact ⟨e, hp⟩

/-- Server 1 leads term 1 and server 3 leads term 2, each with an entry of its own that nobody gets.
Server 1 leads term 3 and gets its old entry to server 2, which is enough to commit it. Server 3
leads term 4 and overwrites it. -/
def figureEight : List Event :=
  [.electionTimeout 1, .deliver 0 0, .deliver 1 0, .respond 0 0, .electionTimeout 3, .deliver 5 0,
    .respond 2 0, .deliver 4 0, .electionTimeout 1, .deliver 8 0, .respond 4 0, .deliver 10 0,
    .respond 5 0, .deliver 12 0, .respond 6 0, .commitBg 1, .deliver 9 0, .electionTimeout 3,
    .deliver 14 0, .respond 8 0, .deliver 17 0, .respond 9 0, .deliver 18 0, .respond 10 0,
    .commitBg 3]

end EnclaveRaft
