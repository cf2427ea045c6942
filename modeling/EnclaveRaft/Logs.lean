import EnclaveRaft.Lib.Completeness
import EnclaveRaft.Merge
import EnclaveRaft.Ballots

/-!
# The logs of a static cluster

A static cluster that starts with empty logs follows a history of replicated logs (`Follows`).
The history's logs are the servers' logs as they would be if nothing had been compacted; its
record of leaders, candidates and acknowledgements is what the messages under way are measured
against: an append request is a piece of the log of its term's leader, a vote request describes
the log its candidate stood with, and an accepting response stands for an acknowledgement.
Each small step of a handler is matched by steps of its server's node (`Follows.micro`).

One thing has to be asked for. An append request that starts at the very beginning of the log is
created without regard to compaction, and is taken without regard to it: it is only as good as
the stores of its sender and its receiver are whole (`Whole`). Without snapshots they are.
-/

namespace EnclaveRaft

open Act Server LogStore

variable {m : Members} {ctx : Context} {inp : Input} {s₀ s s' : Server} {o : List Effect}

/-! ## Stores -/

namespace Holds

variable {st : LogStore} {l : List LogEntry} {k : Nat}

theorem foldl_append (h : st.Holds l) (es : List LogEntry) :
    (es.foldl LogStore.append st).Holds (l ++ es) := by
  induction es generalizing st l with
  | nil => simpa using h
  | cons e es ih => simpa using ih (h.append e)

theorem termAt_iff (h : st.Holds l) (hstart : st.startIdx ≤ k + 1) {t : Nat} :
    (k + 1 < st.nextSlot ∧ st.termAt (k + 1) = t) ↔ l[k]?.map LogEntry.term = some t := by
  rw [h.nextSlot, Nat.add_lt_add_iff_right]
  constructor
  · rintro ⟨hlt, ht⟩
    rw [LogStore.termAt, h.entryAt hstart (List.getElem?_eq_getElem hlt)] at ht
    rw [List.getElem?_eq_getElem hlt, Option.map_some, ht]
  · intro ht
    obtain ⟨a, ha, rfl⟩ := Option.map_eq_some_iff.1 ht
    exact ⟨(List.getElem?_eq_some_iff.1 ha).1, congrArg LogEntry.term (h.entryAt hstart ha)⟩

/-- The last entry of a store that has it, or is that of an empty log. -/
theorem lastEntry_term (h : st.Holds l) (hstart : st.startIdx = 1 ∨ st.startIdx ≤ l.length) :
    st.lastEntry.term = History.lastTerm LogEntry.term l := by
  rw [LogStore.lastEntry, h.nextSlot, usub_succ, History.lastTerm, List.getLast?_eq_getElem?]
  cases hl : l[l.length - 1]? with
  | some e =>
    rw [h.entryAt _ hl]
    · rfl
    · have := (List.getElem?_eq_some_iff.1 hl).1
      omega
  | none =>
    have h0 : l = [] := by
      rw [List.getElem?_eq_none_iff] at hl
      exact List.eq_nil_of_length_eq_zero (by omega)
    subst h0
    rw [LogStore.entryAt, h.logs]
    rfl

/-- `writeEntries` takes the entries over. -/
theorem written (h : st.Holds l) (hstart : st.startIdx ≤ k + 1) (hk : k ≤ l.length)
    (es : List LogEntry) :
    (written st k es).Holds (History.merged LogEntry.term l k es) := by
  induction es generalizing k with
  | nil => exact h
  | cons e es ih =>
    unfold EnclaveRaft.written skipMatching History.merged
    by_cases hskip : l[k]?.map LogEntry.term = some e.term
    · rw [if_pos hskip, if_pos ((termAt_iff h hstart).2 hskip)]
      obtain ⟨a, ha, -⟩ := Option.map_eq_some_iff.1 hskip
      exact ih (hstart.trans (Nat.le_succ _)) (List.getElem?_eq_some_iff.1 ha).1
    · rw [if_neg hskip, if_neg (mt (termAt_iff h hstart).1 hskip)]
      by_cases hlt : k + 1 < st.nextSlot
      · -- the first entry that differs cuts the store off behind it
        have hcut := h.writeAt hstart hk e
        have hend : (st.writeAt (k + 1) e).nextSlot ≤ k + 1 + 1 := by
          rw [hcut.nextSlot, List.length_append, List.length_take, Nat.min_eq_left hk]
          exact le_rfl
        dsimp only
        rw [overwritten, if_pos hlt, overwritten_of_le hend]
        simpa using foldl_append hcut es
      · have hlen := h.nextSlot
        have hfull : l.take k = l := List.take_of_length_le (by omega)
        dsimp only
        rw [overwritten_of_le (Nat.le_of_not_lt hlt), hfull]
        exact foldl_append h (e :: es)

/-- Either nothing is written, or the log ends with what is. -/
theorem written_cases (h : st.Holds l) (hstart : st.startIdx ≤ k + 1) (hk : k ≤ l.length)
    (es : List LogEntry) :
    ((skipMatching st (k + 1) es).2 = [] ∧ EnclaveRaft.written st k es = st) ∨
      (EnclaveRaft.written st k es).nextSlot = k + es.length + 1 := by
  rw [(written h hstart hk es).nextSlot]
  induction es generalizing k with
  | nil => exact .inl ⟨rfl, rfl⟩
  | cons e es ih =>
    unfold EnclaveRaft.written skipMatching History.merged
    by_cases hskip : l[k]?.map LogEntry.term = some e.term
    · rw [if_pos hskip, if_pos ((termAt_iff h hstart).2 hskip), List.length_cons]
      obtain ⟨a, ha, -⟩ := Option.map_eq_some_iff.1 hskip
      have hnext := ih (hstart.trans (Nat.le_succ _)) (List.getElem?_eq_some_iff.1 ha).1
      exact hnext.imp_right fun h => by omega
    · rw [if_neg hskip, List.length_append, List.length_take, List.length_cons]
      exact .inr (by omega)

end Holds

/-! ## Servers -/

/-- The server's store is that of the log `l`, and its snapshots are local ones. -/
structure Stored (ctx : Context) (s : Server) (l : List LogEntry) : Prop where
  holds : s.logStore.Holds l
  compacted : s.logStore.startIdx = 1 ∨ (ctx.params.snapshotDistance ≠ 0 ∧
    s.logStore.startIdx + ulong ctx.params.reservedLogItems ≤ s.smCommitIndex + 1)
  /-- The snapshot knows the term of the entry below the start of the log. -/
  snapshot : ∀ snp, s.smLastSnapshot = some snp → s.logStore.startIdx ≤ snp.lastLogIdx + 1 ∧
    (s.logStore.startIdx = snp.lastLogIdx + 1 → snp.lastLogIdx ≠ 0 →
      l[snp.lastLogIdx - 1]?.map LogEntry.term = some snp.lastLogTerm)
  /-- The echo state machine's snapshots have no data, so none is ever sent. -/
  empty : ∀ snp, s.lastSnapshot = some snp → snp.size = 0
  sync : ∀ p ∈ s.peers, p.snpSyncCtx = none

namespace Stored

variable {l : List LogEntry}

/-- Without snapshots the store is whole. -/
theorem whole (h : Stored ctx s l) (hoff : ctx.params.snapshotDistance = 0) :
    s.logStore.startIdx = 1 := h.compacted.resolve_right fun h => h.1 hoff

/-- `termForLog` answers with the term of the entry. -/
theorem termForLog (h : Stored ctx s l) {idx t : Nat} (hidx : idx ≠ 0) (hle : idx ≤ l.length)
    (ht : TermForLog s idx t) :
    s.logStore.startIdx ≤ idx + 1 ∧ l[idx - 1]?.map LogEntry.term = some t := by
  rcases ht with ⟨h0, -⟩ | ⟨-, hstart, rfl⟩ | ⟨-, hstart, snp, hsnp, rfl, rfl⟩
  · exact (hidx h0).elim
  · have hget : l[idx - 1]? = some l[idx - 1] := List.getElem?_eq_getElem (by omega)
    refine ⟨hstart.trans (Nat.le_succ _), ?_⟩
    rw [hget, Option.map_some, LogStore.termAt, h.holds.entryAt hstart hget]
  · obtain ⟨hle', hterm⟩ := h.snapshot snp hsnp
    exact ⟨hle', hterm (le_antisymm hle' hstart) hidx⟩

/-- The parts of a server that its store is made of. -/
theorem congr (h : Stored ctx s l) (hlog : s'.logStore = s.logStore)
    (hidx : s.smCommitIndex ≤ s'.smCommitIndex) (hsm : s'.smLastSnapshot = s.smLastSnapshot)
    (hsnp : s'.lastSnapshot = s.lastSnapshot) (hsync : ∀ p ∈ s'.peers, p.snpSyncCtx = none) :
    Stored ctx s' l where
  holds := hlog ▸ h.holds
  compacted := by
    rw [hlog]
    exact h.compacted.imp_right fun ⟨hd, hle⟩ => ⟨hd, hle.trans (Nat.succ_le_succ hidx)⟩
  snapshot := by
    rw [hlog, hsm]
    exact h.snapshot
  empty := hsnp ▸ h.empty
  sync := hsync

theorem keeps (h : Stored ctx s l) (hk : Keeps s s') : Stored ctx s' l := by
  refine h.congr (hk.field Server.logStore) (hk.field Server.smCommitIndex).ge
    (hk.field Server.smLastSnapshot) (hk.field Server.lastSnapshot) fun p' hp' => ?_
  have hmem : p'.core ∈ s.peers.map Peer.core := hk.peers ▸ List.mem_map_of_mem hp'
  obtain ⟨p, hp, hcore⟩ := List.mem_map.1 hmem
  exact (Peer.field_eq hcore Peer.snpSyncCtx).symm.trans (h.sync p hp)

/-- Nothing that the store is made of changes. -/
theorem same (h : Stored ctx s l) (hlog : s'.logStore = s.logStore)
    (hidx : s'.smCommitIndex = s.smCommitIndex) (hsm : s'.smLastSnapshot = s.smLastSnapshot)
    (hsnp : s'.lastSnapshot = s.lastSnapshot) (hpeers : s'.peers = s.peers) : Stored ctx s' l :=
  h.congr hlog hidx.ge hsm hsnp (hpeers ▸ h.sync)

theorem onPeer (h : Stored ctx s l) (uid : Nat) {f : Peer → Peer}
    (hf : ∀ p ∈ s.peers, (f p).snpSyncCtx = none) : Stored ctx (s.onPeer uid f) l := by
  refine h.congr rfl le_rfl rfl rfl fun p' hp' => ?_
  obtain ⟨p, hp, rfl⟩ := List.mem_map.1 hp'
  split
  · exact hf p hp
  · exact h.sync p hp

theorem takeLead (h : Stored ctx s l) : Stored ctx (takeLead s) l := by
  refine h.congr rfl le_rfl rfl rfl fun p' hp' => ?_
  obtain ⟨p, -, rfl⟩ := List.mem_map.1 hp'
  rfl

/-- The store gets another log that is the same below its start. -/
theorem withLog (h : Stored ctx s l) {st : LogStore} {l' : List LogEntry} (hst : st.Holds l')
    (hstart : st.startIdx = s.logStore.startIdx)
    (hbelow : l'.take (st.startIdx - 1) = l.take (st.startIdx - 1)) :
    Stored ctx { s with logStore := st } l' where
  holds := hst
  compacted := by
    show st.startIdx = 1 ∨ _ ∧ st.startIdx + _ ≤ _
    rw [hstart]
    exact h.compacted
  snapshot snp hsnp := by
    obtain ⟨hle, hterm⟩ := h.snapshot snp hsnp
    refine ⟨hstart ▸ hle, fun heq hne => ?_⟩
    have heq : st.startIdx = snp.lastLogIdx + 1 := heq
    have hlt : snp.lastLogIdx - 1 < st.startIdx - 1 := by omega
    rw [← hterm (hstart ▸ heq) hne, ← List.getElem?_take_of_lt hlt, hbelow,
      List.getElem?_take_of_lt hlt]
  empty := h.empty
  sync := h.sync

end Stored

/-! ## Following a history -/

/-- The steps of one server's node. -/
abbrev LogSteps (m : Members) (U : List LogEntry → List LogEntry → Prop) (i : Int) :=
  History.Steps m.ids LogEntry.term U i

abbrev LogHistory := History Int LogEntry

/-- Server `i` follows the history. -/
structure Tracks (ctx : Context) (H : LogHistory) (i : Int) (s : Server) : Prop where
  term : H.term i = s.term
  stored : Stored ctx s (H.log i)
  leader : s.role = .leader → H.lead s.term = some (i, H.log i)
  elected : ∀ L, H.lead s.term = some (i, L) → s.electionCompleted = true
  candidate : s.role = .candidate → H.stood s.term i = some (H.log i)
  granted : 0 < s.votesGranted → ∃ l, H.stood s.term i = some l

/-- A vote request describes the log that its sender stood with. -/
def VoteFrom (H : LogHistory) (req : ReqMsg) : Prop :=
  ∃ l, H.stood req.term req.src = some l ∧ req.lastLogIdx = l.length ∧
    req.lastLogTerm = History.lastTerm LogEntry.term l

/-- An append request carries a piece of the log that its sender had, which is part of the log of
the leader of its term. A request for the whole log from a store that has lost its beginning is no
such piece. -/
structure AppendFrom (ctx : Context) (H : LogHistory) (rpc : Rpc) : Prop where
  led : ∃ l L, H.lead rpc.req.term = some (rpc.req.src, L) ∧ l <+: L ∧
    rpc.creator.logStore.Holds l ∧
    ((rpc.req.lastLogIdx = 0 → rpc.creator.logStore.startIdx = 1) →
      rpc.req.lastLogIdx ≤ l.length ∧ rpc.req.logEntries <+: l.drop rpc.req.lastLogIdx ∧
      (rpc.req.lastLogIdx ≠ 0 →
        l[rpc.req.lastLogIdx - 1]?.map LogEntry.term = some rpc.req.lastLogTerm))
  start : (rpc.req.lastLogIdx = 0 → rpc.creator.logStore.startIdx = 1) →
    rpc.creator.logStore.startIdx ≤ rpc.req.lastLogIdx + 1
  whole : ctx.params.snapshotDistance = 0 → rpc.creator.logStore.startIdx = 1
  commit : rpc.req.commitIdx = rpc.creator.quickCommitIdx

/-- A request follows the history. -/
structure Requests (ctx : Context) (H : LogHistory) (rpc : Rpc) : Prop where
  vote : rpc.req.type = .requestVoteRequest → VoteFrom H rpc.req
  append : rpc.req.type = .appendEntriesRequest → AppendFrom ctx H rpc
  install : rpc.req.type ≠ .installSnapshotRequest

/-- An accepting response is one of the request's term, and to an append request it stands for an
acknowledgement. -/
structure Responds (H : LogHistory) (rpc : Rpc) (resp : RespMsg) : Prop where
  type : rpc.req.type.reply = some resp.type
  vote : rpc.req.type = .requestVoteRequest → resp.accepted = true → resp.term = rpc.req.term
  append : rpc.req.type = .appendEntriesRequest → resp.accepted = true →
    resp.src = rpc.target ∧ resp.term = rpc.req.term ∧ 1 ≤ resp.nextIdx ∧
      resp.nextIdx ≤ H.acked rpc.target rpc.req.term + 1

/-- An append request for the whole log is only good among stores that are whole. -/
def Whole (c : Cluster) (i : Int) : Input → Prop
  | .request req _ => req.type = .appendEntriesRequest → req.lastLogIdx = 0 →
      (c.servers i).logStore.startIdx = 1 ∧ ∃ rpc ∈ c.rpcs, rpc.req = req ∧ rpc.target = i ∧
        rpc.creator.logStore.startIdx = 1
  | _ => True

/-- The cluster follows the history `H`. -/
structure Follows (m : Members) (ctx : Context) (H : LogHistory) (c : Cluster) : Prop where
  base : History.Base m.ids LogEntry.term H
  ballots : Ballots m H.vote c
  server : ∀ i ∈ m.ids, Tracks ctx H i (c.servers i)
  request : ∀ rpc ∈ c.rpcs, Requests ctx H rpc
  response : ∀ rpc resp, c.RespTo rpc resp → Responds H rpc resp

/-- A vote or append request that is delivered has been sent. -/
theorem Cluster.Legit.sent {c : Cluster} {i : Int} {req : ReqMsg} {now : Int}
    (h : c.Legit i (.request req now))
    (htype : req.type = .requestVoteRequest ∨ req.type = .appendEntriesRequest ∨
      req.type = .installSnapshotRequest) :
    ∃ rpc ∈ c.rpcs, rpc.req = req ∧ rpc.target = i := by
  rcases h with hsent | ⟨logs, rfl⟩ | ⟨srv, rfl⟩ | ⟨id, rfl⟩
  · exact hsent
  all_goals rcases htype with htype | htype | htype <;> cases htype

theorem Turn.request {c₀ c : Cluster} {i : Int} {req : ReqMsg} {now : Int}
    (h : Turn m c₀ c i (.request req now))
    (htype : req.type = .requestVoteRequest ∨ req.type = .appendEntriesRequest ∨
      req.type = .installSnapshotRequest) :
    ∃ rpc ∈ c₀.rpcs, rpc.req = req ∧ rpc.target = i :=
  Cluster.Legit.sent h.sent htype

theorem Whole.request {c₀ c : Cluster} {i : Int} {req : ReqMsg} {now : Int}
    (h : Whole c₀ i (.request req now)) (ht : Turn m c₀ c i (.request req now))
    (htype : req.type = .appendEntriesRequest) :
    ∃ rpc ∈ c₀.rpcs, rpc.req = req ∧ rpc.target = i ∧
      (req.lastLogIdx = 0 → (c₀.servers i).logStore.startIdx = 1) ∧
      (req.lastLogIdx = 0 → rpc.creator.logStore.startIdx = 1) := by
  by_cases h0 : req.lastLogIdx = 0
  · obtain ⟨hstart, rpc, hrpc, hreq, htarget, hcreator⟩ := h htype h0
    exact ⟨rpc, hrpc, hreq, htarget, fun _ => hstart, fun _ => hcreator⟩
  · obtain ⟨rpc, hrpc, hreq, htarget⟩ := ht.request (.inr (.inl htype))
    exact ⟨rpc, hrpc, hreq, htarget, fun h => (h0 h).elim, fun h => (h0 h).elim⟩

/-! ## Later histories -/

section Later

variable {H H' : LogHistory} {i j : Int} {rpc : Rpc} {resp : RespMsg}

theorem Requests.mono (h : Requests ctx H rpc) (hby : History.By i H H') :
    Requests ctx H' rpc where
  vote ht := by
    obtain ⟨l, hl, hrest⟩ := h.vote ht
    exact ⟨l, hby.stood _ _ _ hl, hrest⟩
  append ht := by
    obtain ⟨l, L, hL, hl, hrest⟩ := (h.append ht).led
    obtain ⟨L', hL', hLL'⟩ := hby.lead _ _ _ hL
    exact { h.append ht with led := ⟨l, L', hL', hl.trans hLL', hrest⟩ }
  install := h.install

theorem Responds.mono (h : Responds H rpc resp) (hby : History.By i H H') :
    Responds H' rpc resp := by
  refine ⟨h.type, h.vote, fun ht hacc => ?_⟩
  obtain ⟨hsrc, hterm, hpos, hle⟩ := h.append ht hacc
  exact ⟨hsrc, hterm, hpos, hle.trans (Nat.succ_le_succ (hby.acked _ _))⟩

/-- Other servers go on following. -/
theorem Tracks.mono (h : Tracks ctx H j s) (hby : History.By i H H')
    (hbase : History.Base m.ids LogEntry.term H') (hj : j ≠ i) : Tracks ctx H' j s where
  term := (hby.term j hj).trans h.term
  stored := by
    rw [hby.log j hj]
    exact h.stored
  leader hl := by
    obtain ⟨L', hL', -⟩ := hby.lead _ _ _ (h.leader hl)
    have hterm : H'.term j = s.term := (hby.term j hj).trans h.term
    rw [hL', (hbase.leadNow _ j L' hL').2 hterm]
  elected L hL := h.elected L (hby.led _ _ _ hj hL)
  candidate hs := by
    rw [hby.log j hj]
    exact hby.stood _ _ _ (h.candidate hs)
  granted hs := by
    obtain ⟨l, hl⟩ := h.granted hs
    exact ⟨l, hby.stood _ _ _ hl⟩

end Later

namespace Follows

variable {H H' : LogHistory} {c c₀ : Cluster} {i : Int} {U : List LogEntry → List LogEntry → Prop}

/-- A small step of server `i` is matched by steps of its node if the server follows them. -/
theorem update (h : Follows m ctx H c) (hi : i ∈ m.ids) (hnum : c.Numbered)
    (hs : LogSteps m U i H H') (hb : Ballots m H'.vote (c.update i s' o))
    (hserver : Tracks ctx H' i s')
    (hsent : ∀ rpc, .send rpc ∈ o → Requests ctx H' rpc) :
    Follows m ctx H' (c.update i s' o) := by
  obtain ⟨hbase, hby⟩ := h.base.steps hs
  refine ⟨hbase, hb, fun j hj => ?_, fun rpc hrpc => ?_, fun rpc resp hr => ?_⟩
  · by_cases hji : j = i
    · subst hji
      rwa [Cluster.update_servers_self]
    · rw [show (c.update i s' o).servers j = c.servers j from if_neg hji]
      exact (h.server j hj).mono hby hbase hji
  · rcases List.mem_append.1 hrpc with hrpc | hrpc
    · exact (h.request rpc hrpc).mono hby
    · obtain ⟨e, he, hsome⟩ := List.mem_filterMap.1 hrpc
      cases e <;> cases hsome
      exact hsent rpc he
  · exact (h.response rpc resp (hr.of_update hnum)).mono hby

/-! ## Steps that leave the history as it is -/

theorem ballots_same (h : Follows m ctx H c) (ht : Turn m c₀ c i inp)
    (hm : Micro ctx inp s₀ (c.servers i) o s') (hstate : s'.state = (c.servers i).state) :
    Ballots m H.vote (c.update i s' o) := by
  have hb := (h.ballots.micro ht hm).2
  rwa [(h.ballots.recorded i ht.mem).cast_same hstate] at hb

/-- The server does nothing that the history records. -/
theorem keep (h : Follows m ctx H c) (ht : Turn m c₀ c i inp)
    (hm : Micro ctx inp s₀ (c.servers i) o s') (hstate : s'.state = (c.servers i).state)
    (hstored : Stored ctx s' (H.log i))
    (hrole : s'.role = (c.servers i).role ∨ s'.role = .follower)
    (hdone : (c.servers i).electionCompleted = true → s'.electionCompleted = true)
    (hvotes : 0 < s'.votesGranted → ∃ l, H.stood s'.term i = some l)
    (hsent : ∀ rpc, .send rpc ∈ o → Requests ctx H rpc) : Follows m ctx H (c.update i s' o) := by
  have hold := h.server i ht.mem
  have hterm : s'.term = (c.servers i).term := congrArg SrvState.term hstate
  refine h.update (U := fun _ _ => True) ht.mem ht.static.numbered .refl
    (h.ballots_same ht hm hstate)
    ⟨?_, hstored, fun hl => ?_, fun L hL => ?_, fun hl => ?_, hvotes⟩ hsent
  · rw [hterm]
    exact hold.term
  · rw [hterm]
    rcases hrole with hrole | hrole
    · exact hold.leader (hrole ▸ hl)
    · cases hrole.symm.trans hl
  · rw [hterm] at hL
    exact hdone (hold.elected L hL)
  · rw [hterm]
    rcases hrole with hrole | hrole
    · exact hold.candidate (hrole ▸ hl)
    · cases hrole.symm.trans hl

/-! ## Terms and votes -/

theorem enterTerm {t : Nat} (h : Follows m ctx H c) (ht : Turn m c₀ c i inp)
    (hm : Micro ctx inp s₀ (c.servers i) [] (enterTerm t (c.servers i)))
    (hlt : (c.servers i).term < t) :
    LogSteps m U i H (H.setTerm i t) ∧
      Follows m ctx (H.setTerm i t) (c.update i (EnclaveRaft.enterTerm t (c.servers i)) []) := by
  have hold := h.server i ht.mem
  have hstate := enterTerm_state t (c.servers i)
  have hterm := term_of_state hstate
  have hlt' : H.term i < t := hold.term ▸ hlt
  have hs : LogSteps m U i H (H.setTerm i t) := .single (.advance hlt')
  have hb := (h.ballots.micro ht hm).2
  have hcast : Table.cast H.vote i (EnclaveRaft.enterTerm t (c.servers i)) = H.vote := by
    funext j t'
    exact if_neg fun hc => hc.2.2 (votedFor_of_state hstate)
  rw [hcast] at hb
  refine ⟨hs, h.update ht.mem ht.static.numbered hs hb ⟨?_, ?_, fun hl => ?_, fun L hL => ?_,
    fun hl => ?_, fun hv => ?_⟩ (by simp)⟩
  · rw [hterm, History.term_setTerm, if_pos rfl]
  · exact hold.stored.keeps (keeps_enterTerm t _)
  · cases (becomeFollower_role _).symm.trans hl
  · rw [hterm] at hL
    exact ((h.base.leadNow t i L hL).1.not_gt hlt').elim
  · cases (becomeFollower_role _).symm.trans hl
  · rw [show (EnclaveRaft.enterTerm t (c.servers i)).votesGranted = 0 from
      (becomeFollower_votes _).1] at hv
    cases hv

/-- The vote of server `i` goes to `j`. -/
theorem cast_vote {v : Int} (hv : s'.votedFor = v) (hne : v ≠ nobody) :
    Table.cast H.vote i s' = (H.setVote i s'.term v).vote := by
  funext j t
  rw [History.vote_setVote, Table.cast, hv]
  by_cases heq : j = i ∧ t = s'.term
  · rw [if_pos heq, if_pos ⟨heq.1, heq.2, hne⟩]
  · rw [if_neg heq, if_neg fun h => heq ⟨h.1, h.2.1⟩]

/-- The history after server `i` has stood for election in the next term. -/
def stood (H : LogHistory) (i : Int) : LogHistory :=
  ((H.setTerm i (H.term i + 1)).setVote i (H.term i + 1) i).setStood (H.term i + 1) i (H.log i)

theorem steps_stood (m : Members) (U : List LogEntry → List LogEntry → Prop) (H : LogHistory)
    (i : Int) : LogSteps m U i H (stood H i) := .single (.stand (Nat.lt_succ_self _))

theorem stood_self (H : LogHistory) (i : Int) :
    (stood H i).stood (H.term i + 1) i = some (H.log i) := by
  rw [stood, History.stood_setStood, if_pos ⟨rfl, rfl⟩]

theorem stood_term (H : LogHistory) (i : Int) : (stood H i).term i = H.term i + 1 := by
  show (H.setTerm i (H.term i + 1)).term i = _
  rw [History.term_setTerm, if_pos rfl]

/-- A server that stands is accounted for. -/
theorem ballots_stood (h : Follows m ctx H c) (ht : Turn m c₀ c i inp)
    (hm : Micro ctx inp s₀ (c.servers i) o s')
    (hstate : s'.state = ⟨(c.servers i).term + 1, (c.servers i).id⟩) :
    Ballots m (stood H i).vote (c.update i s' o) := by
  have hb := (h.ballots.micro ht hm).2
  have hvote : s'.votedFor = i := (votedFor_of_state hstate).trans (ht.static.id i ht.mem)
  rw [cast_vote hvote (Members.ne_nobody ht.mem), term_of_state hstate,
    ← (h.server i ht.mem).term] at hb
  exact hb

theorem stand (h : Follows m ctx H c) (ht : Turn m c₀ c i inp)
    (hm : Micro ctx inp s₀ (c.servers i) [] (voteForSelf (becomeCandidate (c.servers i)))) :
    Follows m ctx (stood H i) (c.update i (voteForSelf (becomeCandidate (c.servers i))) []) := by
  have hold := h.server i ht.mem
  have hterm : (voteForSelf (becomeCandidate (c.servers i))).term = H.term i + 1 := by
    rw [hold.term]
    rfl
  refine h.update ht.mem ht.static.numbered (steps_stood m (fun _ _ => True) H i)
    (h.ballots_stood ht hm rfl) ⟨?_, ?_, fun hl => ?_, fun L hL => ?_, fun _ => ?_,
    fun _ => ⟨H.log i, ?_⟩⟩ (by simp)
  · rw [stood_term, hterm]
  · exact hold.stored.same rfl rfl rfl rfl rfl
  · cases hl
  · rw [hterm] at hL
    exact ((Nat.lt_succ_self _).not_ge (h.base.leadNow _ i L hL).1).elim
  · rw [hterm]
    exact stood_self H i
  · rw [hterm]
    exact stood_self H i

/-- A server whose store still has the last entry votes for no log that is behind its own. -/
theorem upToDate (h : Stored ctx s (H.log i)) {req : ReqMsg} {l : List LogEntry}
    (hlast : s.logStore.startIdx = 1 ∨ s.logStore.startIdx < s.nextSlot)
    (hgrant : grantsVote s req) (hidx : req.lastLogIdx = l.length)
    (hterm : req.lastLogTerm = History.lastTerm LogEntry.term l) :
    History.UpToDate LogEntry.term l (H.log i) := by
  simp only [grantsVote, voteLogOkay, Bool.and_eq_true, Bool.or_eq_true, decide_eq_true_eq] at hgrant
  rw [Server.nextSlot, h.holds.nextSlot, Nat.lt_succ_iff] at hlast
  rw [Holds.lastEntry_term h.holds hlast, hterm, hidx, Server.nextSlot, h.holds.nextSlot,
    usub_succ] at hgrant
  exact hgrant.1.2.imp_right fun h => ⟨h.1.symm, h.2⟩

theorem grant {req : ReqMsg} {now : Int} (h : Follows m ctx H c)
    (ht : Turn m c₀ c i (.request req now)) (htype : req.type = .requestVoteRequest)
    (hgrant : grantsVote (c.servers i) req)
    (hU : ∀ l, req.lastLogIdx = l.length → req.lastLogTerm = History.lastTerm LogEntry.term l →
      U l (H.log i))
    (hm : Micro ctx (.request req now) s₀ (c.servers i) []
      ((c.servers i).setVotedFor req.src).saveState) :
    ∃ H', LogSteps m U i H H' ∧
      Follows m ctx H' (c.update i ((c.servers i).setVotedFor req.src).saveState []) := by
  have hold := h.server i ht.mem
  obtain ⟨rpc, hrpc, rfl, rfl⟩ := ht.request (.inl htype)
  have hmem := ht.grows.rpcs.subset hrpc
  have hsrc := Members.ne_nobody (ht.static.rpc rpc hmem).src
  have hstored : Stored ctx ((c.servers rpc.target).setVotedFor rpc.req.src).saveState
      (H.log rpc.target) := hold.stored.same rfl rfl rfl rfl rfl
  rcases grantsVote_votedFor hgrant with hvote | hvote
  · refine ⟨H, .refl, h.keep ht hm ?_ hstored (.inl rfl) id hold.granted (by simp)⟩
    rw [← hvote]
    rfl
  obtain ⟨l, hl, hidx, hlast⟩ := (h.request rpc hmem).vote htype
  have hterm : rpc.req.term = H.term rpc.target := by
    simp only [grantsVote, Bool.and_eq_true, decide_eq_true_eq] at hgrant
    rw [hold.term]
    exact hgrant.1.1
  have hfree : H.vote rpc.target (H.term rpc.target) = none := by
    rw [hold.term, (h.ballots.recorded _ ht.mem).current, voteOf, if_pos hvote]
  have hs : LogSteps m U rpc.target H (H.setVote rpc.target (H.term rpc.target) rpc.req.src) :=
    .single (.grant hfree (hterm ▸ hl) (hU l hidx hlast))
  have hb := (h.ballots.micro ht hm).2
  rw [cast_vote (v := rpc.req.src) rfl hsrc, show (((c.servers rpc.target).setVotedFor
    rpc.req.src).saveState).term = H.term rpc.target from hold.term.symm] at hb
  exact ⟨_, hs, h.update ht.mem ht.static.numbered hs hb
    ⟨hold.term, hstored, hold.leader, hold.elected, hold.candidate, hold.granted⟩ (by simp)⟩

/-- A server that most servers voted for leads its term in the history as well. -/
theorem elect (h : Follows m ctx H c) {H₁ : LogHistory} {l : List LogEntry} (hi : i ∈ m.ids)
    (hnum : c.Numbered) (hs : LogSteps m U i H H₁) (hterm : H₁.term i = s'.term)
    (hstood : H₁.stood s'.term i = some l) (hnew : ∀ L, H₁.lead s'.term ≠ some (i, L))
    (hb : Ballots m H₁.vote (c.update i s' [])) (hrole : s'.role = .leader)
    (hstored : Stored ctx s' (H₁.log i)) (hdone : s'.electionCompleted = true) :
    ∃ H', LogSteps m U i H H' ∧ Follows m ctx H' (c.update i s' []) := by
  obtain ⟨hbase, -⟩ := h.base.steps hs
  have hwon : Won m H₁.vote s'.term i := by
    have := hb.leader i hi
    rw [Cluster.update_servers_self] at this
    exact this hrole
  have hnone : H₁.lead (H₁.term i) = none := by
    cases hL : H₁.lead (H₁.term i) with
    | none => rfl
    | some x =>
      obtain ⟨j, L⟩ := x
      rw [hterm] at hL
      obtain rfl : j = i := Won.unique (hbase.elected _ j L hL).1 hwon
      exact (hnew L hL).elim
  have hs' : LogSteps m U i H (H₁.setLead (H₁.term i) i (H₁.log i)) :=
    hs.tail (.elect hnone (hterm ▸ hstood) (hterm ▸ hwon))
  refine ⟨_, hs', h.update hi hnum hs' hb ⟨hterm, hstored, fun _ => ?_, fun _ _ => hdone,
    fun hl => ?_, fun _ => ⟨l, hstood⟩⟩ (by simp)⟩
  · rw [History.lead_setLead, if_pos hterm.symm]
    rfl
  · cases hrole.symm.trans hl

theorem tallyWin {resp : RespMsg} (h : Follows m ctx H c) (ht : Turn m c₀ c i inp)
    (hopen : (c.servers i).electionCompleted = false)
    (hm : Micro ctx inp s₀ (c.servers i) []
      (takeLead { countVote resp (c.servers i) with electionCompleted := true }))
    (hstood : ∃ l, H.stood (c.servers i).term i = some l) :
    ∃ H', LogSteps m U i H H' ∧ Follows m ctx H'
      (c.update i (takeLead { countVote resp (c.servers i) with electionCompleted := true }) []) := by
  have hold := h.server i ht.mem
  obtain ⟨l, hl⟩ := hstood
  refine h.elect ht.mem ht.static.numbered .refl hold.term hl (fun L hL => ?_)
    (h.ballots_same ht hm rfl) rfl ?_ rfl
  · cases (hold.elected L hL).symm.trans hopen
  · exact Stored.takeLead (hold.stored.same rfl rfl rfl rfl rfl)

theorem standWin (h : Follows m ctx H c) (ht : Turn m c₀ c i inp)
    (hm : Micro ctx inp s₀ (c.servers i) []
      (takeLead { voteForSelf (becomeCandidate (c.servers i)) with electionCompleted := true })) :
    ∃ H', LogSteps m U i H H' ∧ Follows m ctx H' (c.update i
      (takeLead { voteForSelf (becomeCandidate (c.servers i)) with electionCompleted := true })
      []) := by
  have hold := h.server i ht.mem
  have hterm : (c.servers i).term + 1 = H.term i + 1 := by rw [hold.term]
  refine h.elect (l := H.log i) ht.mem ht.static.numbered (steps_stood m U H i) ?_ ?_
    (fun L hL => ?_) (h.ballots_stood ht hm rfl) rfl ?_ rfl
  · exact (stood_term H i).trans hterm.symm
  · exact (congrArg (fun t => (stood H i).stood t i) hterm).trans (stood_self H i)
  · have := (h.base.leadNow _ i L hL).1
    rw [hold.term] at this
    exact ((Nat.lt_succ_self _).not_ge this).elim
  · exact Stored.takeLead (hold.stored.same rfl rfl rfl rfl rfl)

/-! ## A leader's own entries -/

theorem append {e : LogEntry} (h : Follows m ctx H c) (ht : Turn m c₀ c i inp)
    (hm : Micro ctx inp s₀ (c.servers i) o s') (hinert : ∀ e ∈ o, e.Inert)
    (hrole : (c.servers i).role = .leader)
    (hstate : s'.state = (c.servers i).state) (hrole' : s'.role = (c.servers i).role)
    (hdone : s'.electionCompleted = (c.servers i).electionCompleted)
    (hvotes : s'.votesGranted = (c.servers i).votesGranted)
    (he : e.term = (c.servers i).term)
    (hstored : Stored ctx { c.servers i with logStore := (c.servers i).logStore.append e }
      (H.log i ++ [e]) → Stored ctx s' (H.log i ++ [e])) :
    ∃ H', LogSteps m U i H H' ∧ Follows m ctx H' (c.update i s' o) := by
  have hold := h.server i ht.mem
  have hterm : s'.term = (c.servers i).term := congrArg SrvState.term hstate
  have hlead := hold.leader hrole
  have hs : LogSteps m U i H
      ((H.setLog i (H.log i ++ [e])).setLead (H.term i) i (H.log i ++ [e])) :=
    .single (.append (hold.term ▸ hlead) (he.trans hold.term.symm))
  have hb := h.ballots_same ht hm hstate
  have hlog' : ((H.setLog i (H.log i ++ [e])).setLead (H.term i) i (H.log i ++ [e])).log i =
      H.log i ++ [e] := (History.log_setLog H i i _).trans (if_pos rfl)
  refine ⟨_, hs, h.update ht.mem ht.static.numbered hs hb ⟨hold.term.trans hterm.symm, ?_,
    fun _ => ?_, fun L hL => ?_, fun hl => ?_, fun hv => ?_⟩ fun rpc hr => (hinert _ hr).elim⟩
  · rw [hlog']
    have hle := hold.stored.holds.le
    refine hstored (hold.stored.withLog (hold.stored.holds.append e) rfl ?_)
    exact List.take_append_of_le_length (Nat.sub_le_of_le_add hle)
  · rw [hlog', History.lead_setLead, if_pos (hterm.trans hold.term.symm)]
  · rw [hdone]
    exact hold.elected _ hlead
  · cases (hrole'.trans hrole).symm.trans hl
  · rw [hterm]
    exact hold.granted (hvotes ▸ hv)

/-! ## Requests that are sent -/

theorem sendVote {p : Peer} {t : Nat} (h : Tracks ctx H i s) (hid : s.id = i)
    (hrole : s.role = .candidate) (ht : TermForLog s (usub s.nextSlot 1) t) :
    Requests ctx H ⟨.peerResp, p.uid, p.id, voteReq s p t, s⟩ := by
  refine ⟨fun _ => ⟨H.log i, ?_, ?_, ?_⟩, fun hty => (by cases hty), fun hty => (by cases hty)⟩
  · show H.stood s.term s.id = _
    rw [hid]
    exact h.candidate hrole
  · show usub s.nextSlot 1 = _
    rw [Server.nextSlot, h.stored.holds.nextSlot, usub_succ]
  · show t = _
    rw [Server.nextSlot, h.stored.holds.nextSlot, usub_succ] at ht
    rw [History.lastTerm, List.getLast?_eq_getElem?]
    by_cases h0 : (H.log i).length = 0
    · rw [h0] at ht
      rcases ht with ⟨-, rfl⟩ | ⟨hne, -⟩ | ⟨hne, -⟩
      · simp [List.length_eq_zero_iff.1 h0]
      · exact (hne rfl).elim
      · exact (hne rfl).elim
    · rw [(h.stored.termForLog h0 le_rfl ht).2]
      rfl

/-- The entries of an append request follow the one that it starts after. -/
theorem entriesAfter_isPrefix {l es : List LogEntry} {k : Nat} (h : s.logStore.Holds l)
    (hstart : s.logStore.startIdx ≤ k + 1) (hes : entriesAfter ctx s k = some es) :
    es <+: l.drop k := by
  unfold entriesAfter at hes
  split at hes
  · cases hes
    exact List.nil_prefix
  · obtain ⟨-, rfl⟩ := h.logEntries hstart
      ((Nat.min_le_left _ _).trans (h.nextSlot ▸ le_rfl)) hes
    exact List.take_prefix _ _

theorem sendAppend {uid : Nat} {req : ReqMsg} (h : Tracks ctx H i s) (hid : s.id = i)
    (hrole : s.role = .leader) (hmsg : AppendMsg ctx s uid req) :
    Requests ctx H ⟨.peerResp, uid, req.dst, req, s⟩ := by
  obtain ⟨p, t, es, -, hlt, hfar, hterm, hes, rfl⟩ := hmsg
  have hholds := h.stored.holds
  have hle : usub p.nextLogIdx 1 ≤ (H.log i).length := by
    rw [Server.nextSlot, hholds.nextSlot] at hlt
    exact Nat.le_of_lt_succ hlt
  have hstart : (usub p.nextLogIdx 1 = 0 → s.logStore.startIdx = 1) →
      s.logStore.startIdx ≤ usub p.nextLogIdx 1 + 1 := by
    intro hzero
    by_cases h0 : usub p.nextLogIdx 1 = 0
    · exact (hzero h0).le.trans (Nat.le_add_left _ _)
    · have := hholds.start
      rw [usub_of_le this] at hfar
      omega
  refine ⟨fun hty => (by cases hty), fun _ => ⟨⟨H.log i, H.log i, ?_, List.prefix_refl _, hholds,
    fun hzero => ⟨hle, entriesAfter_isPrefix hholds (hstart hzero) hes,
      fun hne => (h.stored.termForLog hne hle hterm).2⟩⟩, hstart, h.stored.whole, rfl⟩,
    fun hty => (by cases hty)⟩
  show H.lead s.term = some (s.id, H.log i)
  rw [hid]
  exact h.leader hrole

/-! ## Entries from the leader -/

/-- The request `rpc` carries a piece of the leader's log `L` that follows on what the server's log
`l` shares with it. -/
structure Fits (H : LogHistory) (s : Server) (l L : List LogEntry) (req : ReqMsg) : Prop where
  lead : H.lead req.term = some (req.src, L)
  start : s.logStore.startIdx ≤ req.lastLogIdx + 1
  le : req.lastLogIdx ≤ l.length
  long : req.lastLogIdx ≤ L.length
  shared : L.take req.lastLogIdx <+: l
  entries : req.logEntries <+: L.drop req.lastLogIdx

theorem Fits.take_eq {l L : List LogEntry} {req : ReqMsg} (h : Fits H s l L req) {n : Nat}
    (hn : n ≤ req.lastLogIdx) : L.take n = l.take n := by
  have htake := List.prefix_iff_eq_take.1 h.shared
  rw [List.length_take, Nat.min_eq_left h.long] at htake
  rw [← Nat.min_eq_left hn, ← List.take_take, htake, List.take_take]

/-- A request that passes the check fits. -/
theorem fits {rpc : Rpc} (hbase : History.Base m.ids LogEntry.term H) (h : Stored ctx s (H.log i))
    (hrpc : AppendFrom ctx H rpc) (hokay : ReqOkay s rpc.req)
    (hs : rpc.req.lastLogIdx = 0 → s.logStore.startIdx = 1)
    (hc : rpc.req.lastLogIdx = 0 → rpc.creator.logStore.startIdx = 1) :
    ∃ L, Fits H s (H.log i) L rpc.req := by
  obtain ⟨l, L, hL, hl, -, hpiece⟩ := hrpc.led
  obtain ⟨hle, hes, hterm⟩ := hpiece hc
  have hes' : rpc.req.logEntries <+: L.drop rpc.req.lastLogIdx := by
    obtain ⟨r, rfl⟩ := hl
    rw [List.drop_append_of_le_length hle]
    exact hes.trans (List.prefix_append _ _)
  have hlong : rpc.req.lastLogIdx ≤ L.length := hle.trans hl.length_le
  by_cases h0 : rpc.req.lastLogIdx = 0
  · refine ⟨L, hL, ?_, ?_, hlong, ?_, hes'⟩
    · rw [hs h0, h0]
    · rw [h0]
      exact Nat.zero_le _
    · rw [h0, List.take_zero]
      exact List.nil_prefix
  · obtain ⟨hlt, ht⟩ := hokay.resolve_left h0
    have hlt : rpc.req.lastLogIdx ≤ (H.log i).length := by
      rw [Server.nextSlot, h.holds.nextSlot] at hlt
      exact Nat.le_of_lt_succ hlt
    obtain ⟨hstart, hmine⟩ := h.termForLog h0 hlt ht
    refine ⟨L, hL, hstart, hlt, hlong, ?_, hes'⟩
    obtain ⟨a, ha, hta⟩ := Option.map_eq_some_iff.1 hmine
    obtain ⟨b, hb, htb⟩ := Option.map_eq_some_iff.1 (hterm h0)
    have hb' : L[rpc.req.lastLogIdx - 1]? = some b := by
      obtain ⟨r, rfl⟩ := hl
      rw [List.getElem?_append_left (List.getElem?_eq_some_iff.1 hb).1, hb]
    have htake := hbase.matching_getElem? (.inl ⟨i, rfl⟩) (.inr (.inl ⟨_, _, hL⟩)) ha hb'
      (hta.trans htb.symm)
    rw [Nat.sub_add_cancel (Nat.pos_of_ne_zero h0)] at htake
    rw [← htake]
    exact List.take_prefix _ _

/-- Logs on record match. -/
theorem matches_log {L : List LogEntry} {t : Nat} {j : Int}
    (hbase : History.Base m.ids LogEntry.term H) (hL : H.lead t = some (j, L)) (k : Nat)
    (a b : LogEntry) (ha : (H.log i)[k]? = some a) (hb : L[k]? = some b)
    (hterm : a.term = b.term) : L.take (k + 1) <+: H.log i := by
  rw [← hbase.matching_getElem? (.inl ⟨i, rfl⟩) (.inr (.inl ⟨t, j, hL⟩)) ha hb hterm]
  exact List.take_prefix _ _

theorem merge {req : ReqMsg} {now : Int} {es : List LogEntry} {b : Bool} (h : Follows m ctx H c)
    (ht : Turn m c₀ c i (.request req now)) (hwhole : Whole c₀ i (.request req now))
    (htype : req.type = .appendEntriesRequest) (hk : Keeps (c₀.servers i) (c.servers i))
    (hrole : (c.servers i).role = .follower) (hterm : req.term = (c.servers i).term)
    (hokay : ReqOkay (c.servers i) req) (hes : es <+: req.logEntries) (hinert : ∀ e ∈ o, e.Inert)
    (hm : Micro ctx (.request req now) (c₀.servers i) (c.servers i) o
      { c.servers i with
        logStore := written (c.servers i).logStore req.lastLogIdx es
        configChanging := b }) :
    ∃ H', LogSteps m U i H H' ∧ Follows m ctx H' (c.update i
      { c.servers i with
        logStore := written (c.servers i).logStore req.lastLogIdx es
        configChanging := b } o) := by
  have hold := h.server i ht.mem
  obtain ⟨rpc, hrpc, rfl, rfl, hmine, hsender⟩ := hwhole.request ht htype
  have hlog : (c.servers rpc.target).logStore = (c₀.servers rpc.target).logStore :=
    hk.field Server.logStore
  obtain ⟨L, hfits⟩ := fits h.base hold.stored
    ((h.request rpc (ht.grows.rpcs.subset hrpc)).append htype) hokay
    (fun h0 => hlog ▸ hmine h0) hsender
  have hsent : ∀ H' rpc', .send rpc' ∈ o → Requests ctx H' rpc' := fun _ _ hr =>
    (hinert _ hr).elim
  have hwritten := Holds.written hold.stored.holds hfits.start hfits.le es
  have hmerged := History.merged_eq (hes.trans hfits.entries) hfits.shared
    (matches_log h.base hfits.lead)
  have hsame : ∀ {l : List LogEntry}, Stored ctx
      { c.servers rpc.target with
        logStore := written (c.servers rpc.target).logStore rpc.req.lastLogIdx es } l →
      Stored ctx
        { c.servers rpc.target with
          logStore := written (c.servers rpc.target).logStore rpc.req.lastLogIdx es
          configChanging := b } l := fun h => h.same rfl rfl rfl rfl rfl
  by_cases hhas : L.take (rpc.req.lastLogIdx + es.length) <+: H.log rpc.target
  · -- everything is there already
    rw [hmerged.1 hhas] at hwritten
    exact ⟨H, .refl, h.keep ht hm rfl (hsame (hold.stored.withLog hwritten
      (written_startIdx _ _ _) rfl)) (.inl rfl) id hold.granted (hsent H)⟩
  · rw [hmerged.2 hhas] at hwritten
    have hs : LogSteps m U rpc.target H (H.setLog rpc.target
        (L.take (rpc.req.lastLogIdx + es.length))) :=
      .single (.accept (hold.term ▸ hterm ▸ hfits.lead) hhas)
    refine ⟨_, hs, h.update ht.mem ht.static.numbered hs (h.ballots_same ht hm rfl)
      ⟨hold.term, ?_, fun hl => ?_, hold.elected, fun hl => ?_, hold.granted⟩ (hsent _)⟩
    · rw [History.log_setLog, if_pos rfl]
      refine hsame (hold.stored.withLog hwritten (written_startIdx _ _ _) ?_)
      have hstart := hfits.start
      rw [written_startIdx, List.take_take, Nat.min_eq_left (by omega)]
      exact hfits.take_eq (Nat.sub_le_of_le_add hstart)
    · cases hrole.symm.trans hl
    · cases hrole.symm.trans hl

/-! ## Snapshots -/

theorem snapshot {l : List LogEntry} {snp : Snapshot} {conf : ClusterConfig} (h : Stored ctx s l)
    (h₀ : s₀.logStore.startIdx ≤ s₀.smCommitIndex + 1) (hdist : ctx.params.snapshotDistance ≠ 0)
    (hlog : s.logStore = s₀.logStore) (hidx : s.smCommitIndex = s₀.smCommitIndex + 1)
    (hle : s.smCommitIndex ≤ usub s.nextSlot 1)
    (hsnp : snp = ⟨s.smCommitIndex, s.logStore.termAt s.smCommitIndex, conf, 0⟩) :
    Stored ctx (onSnapshotCompleted ctx snp { s with smLastSnapshot := some snp }) l := by
  subst hsnp
  rw [Server.nextSlot, h.holds.nextSlot, usub_succ] at hle
  have hstart : s.logStore.startIdx ≤ s.smCommitIndex := by rw [hlog, hidx]; exact h₀
  have hget : l[s.smCommitIndex - 1]? = some l[s.smCommitIndex - 1] :=
    List.getElem?_eq_getElem (by omega)
  have hterm : s.logStore.termAt s.smCommitIndex = l[s.smCommitIndex - 1].term :=
    congrArg LogEntry.term (h.holds.entryAt hstart hget)
  unfold onSnapshotCompleted
  dsimp only
  split
  next hlt =>
    have hkeep : s.logStore.startIdx ≤ s.smCommitIndex - ulong ctx.params.reservedLogItems + 1 := by
      rcases h.compacted with h1 | ⟨-, h1⟩ <;> omega
    refine ⟨h.holds.compact hkeep (by omega), .inr ⟨hdist, ?_⟩, ?_, ?_, h.sync⟩
    · show s.smCommitIndex - ulong ctx.params.reservedLogItems + 1 + _ ≤ s.smCommitIndex + 1
      omega
    · rintro _ ⟨⟩
      refine ⟨Nat.succ_le_succ (Nat.sub_le _ _), fun _ _ => ?_⟩
      rw [hget, hterm]
      rfl
    · rintro _ ⟨⟩
      rfl
  next =>
    refine ⟨h.holds, h.compacted, ?_, ?_, h.sync⟩
    · rintro _ ⟨⟩
      refine ⟨hstart.trans (Nat.le_succ _), fun _ _ => ?_⟩
      rw [hget, hterm]
      rfl
    · rintro _ ⟨⟩
      rfl

/-! ## Every small step -/

theorem not_installs {snp : Snapshot} (h : Follows m ctx H c) (ht : Turn m c₀ c i inp) :
    ¬inp.Installs snp := by
  rintro ⟨req, now, e, sync, rfl, htype, -⟩
  obtain ⟨rpc, hrpc, rfl, -⟩ := ht.request (.inr (.inr htype))
  exact (h.request rpc (ht.grows.rpcs.subset hrpc)).install htype

/-- A server that counts an accepting vote has stood. -/
theorem stood_of_vote {resp : RespMsg} (h : Follows m ctx H c) (ht : Turn m c₀ c i inp)
    (hin : inp.Answers .requestVoteResponse resp) (hterm : resp.term = (c.servers i).term)
    (hacc : resp.accepted = true) : ∃ l, H.stood (c.servers i).term i = some l := by
  obtain ⟨rpc, now, rfl, -, htype⟩ := hin
  obtain ⟨hresp, rfl⟩ := ht.legit
  have hr := h.response rpc resp hresp
  obtain ⟨k, hk, -⟩ := hresp
  have hmem := List.mem_of_getElem? hk
  have hvote : rpc.req.type = .requestVoteRequest := by
    have hreply := hr.type
    rw [htype] at hreply
    rcases (ht.static.rpc rpc hmem).type with hty | hty | hty
    · rw [hty] at hreply
      cases hreply
    · exact hty
    · rw [hty] at hreply
      cases hreply
  obtain ⟨l, hl, -⟩ := (h.request rpc hmem).vote hvote
  exact ⟨l, by rw [← hterm, hr.vote hvote hacc]; exact hl⟩

theorem stood_of_tally {resp : RespMsg} (h : Follows m ctx H c) (ht : Turn m c₀ c i inp)
    (hin : inp.Answers .requestVoteResponse resp) (hterm : resp.term = (c.servers i).term)
    (hpos : 0 < (countVote resp (c.servers i)).votesGranted) :
    ∃ l, H.stood (c.servers i).term i = some l := by
  by_cases hacc : resp.accepted = true
  · exact h.stood_of_vote ht hin hterm hacc
  · refine (h.server i ht.mem).granted ?_
    have hvotes : (countVote resp (c.servers i)).votesGranted = (c.servers i).votesGranted :=
      if_neg hacc
    rwa [hvotes] at hpos

/-- Only fields that the history does not record change. -/
theorem same (h : Follows m ctx H c) (ht : Turn m c₀ c i inp)
    (hm : Micro ctx inp s₀ (c.servers i) o s') (hstored : Stored ctx s' (H.log i))
    (hstate : s'.state = (c.servers i).state) (hrole : s'.role = (c.servers i).role)
    (hdone : s'.electionCompleted = (c.servers i).electionCompleted)
    (hvotes : s'.votesGranted = (c.servers i).votesGranted)
    (hsent : ∀ rpc, .send rpc ∈ o → Requests ctx H rpc := by simp) :
    ∃ H', LogSteps m U i H H' ∧ Follows m ctx H' (c.update i s' o) := by
  refine ⟨H, .refl, h.keep ht hm hstate hstored (.inl hrole) (fun hd => hdone.trans hd)
    (fun hv => ?_) hsent⟩
  rw [show s'.term = (c.servers i).term from congrArg SrvState.term hstate]
  exact (h.server i ht.mem).granted (hvotes ▸ hv)

/-- **Small steps follow the history.** -/
theorem micro (h : Follows m ctx H c) (h₀ : ∃ H₀, Follows m ctx H₀ c₀) (ht : Turn m c₀ c i inp)
    (hwhole : Whole c₀ i inp)
    (hU : ∀ req now l, inp = .request req now → req.type = .requestVoteRequest →
      grantsVote (c.servers i) req → Keeps (c₀.servers i) (c.servers i) →
      req.lastLogIdx = l.length → req.lastLogTerm = History.lastTerm LogEntry.term l →
      U l (H.log i))
    (hm : Micro ctx inp (c₀.servers i) (c.servers i) o s') :
    ∃ H', LogSteps m U i H H' ∧ Follows m ctx H' (c.update i s' o) := by
  have hold := h.server i ht.mem
  have hid := ht.static.id i ht.mem
  have hserver := ht.static.server i ht.mem
  have hext := ht.input.not_isExt
  have hm' := hm
  have hpeer : ∀ uid {f : Peer → Peer}, (∀ p, (f p).snpSyncCtx = p.snpSyncCtx) →
      Stored ctx ((c.servers i).onPeer uid f) (H.log i) := fun uid f hf =>
    hold.stored.onPeer uid fun p hp => (hf p).trans (hold.stored.sync p hp)
  cases hm with
  | quiet hq =>
    exact h.same ht hm' (hold.stored.keeps hq.keeps) (hq.field Server.state)
      (hq.field Server.role) (hq.field Server.electionCompleted) (hq.field Server.votesGranted)
  | note hinert =>
    refine h.same ht hm' hold.stored rfl rfl rfl rfl fun rpc hr => ?_
    cases List.mem_singleton.1 hr
    exact hinert.elim
  | enterTerm hlt => exact ⟨_, h.enterTerm ht hm' hlt⟩
  | stepDown =>
    refine ⟨H, .refl, h.keep ht hm' (becomeFollower_state _) (hold.stored.keeps
      (keeps_becomeFollower _)) (.inr (becomeFollower_role _)) (fun hd => ?_) (fun hv => ?_)
      (by simp)⟩
    · exact ((quiet_restartElectionTimer _).field Server.electionCompleted).trans hd
    · rw [(becomeFollower_votes _).1] at hv
      rw [Server.term, becomeFollower_state]
      exact hold.granted hv
  | stand => exact ⟨_, steps_stood m U H i, h.stand ht hm'⟩
  | standWin => exact h.standWin ht hm'
  | grant hin htype hg hk =>
    subst hin
    exact h.grant ht htype hg (fun l => hU _ _ l rfl htype hg hk) hm'
  | tally hin _ hterm _ hnew =>
    refine ⟨H, .refl, h.keep ht hm' rfl (hold.stored.same rfl rfl rfl rfl rfl) (.inl rfl)
      (fun hd => ?_) (fun hv => h.stood_of_tally ht hin hterm hv) (by simp)⟩
    show (_ || _) = true
    rw [hd]
    rfl
  | tallyWin hin _ hterm hopen hnew hmaj =>
    exact h.tallyWin ht hopen hm' (h.stood_of_tally ht hin hterm (Nat.zero_lt_of_lt hmaj))
  | sendVote _ hrole _ _ hterm =>
    refine h.same ht hm' hold.stored rfl rfl rfl rfl fun rpc hr => ?_
    cases List.mem_singleton.1 hr
    exact sendVote hold hid hrole hterm
  | saveInitial hrole =>
    exact h.append (e := ⟨(c.servers i).term, .conf, _⟩) ht hm' (by simp) hrole rfl rfl rfl rfl rfl
      fun hst => hst.same rfl rfl rfl rfl rfl
  | client _ _ _ hrole => exact h.append ht hm' (by simp [Effect.Inert]) hrole rfl rfl rfl rfl rfl id
  | aim =>
    refine h.same ht hm' (hpeer _ fun p => ?_) rfl rfl rfl rfl
    split <;> rfl
  | sendAppend hrole hmsg =>
    refine h.same ht hm' hold.stored rfl rfl rfl rfl fun rpc hr => ?_
    cases List.mem_singleton.1 hr
    refine sendAppend hold hid (hrole.resolve_right fun hnew => ?_) hmsg
    exact hext (isExt_of_newConfig hnew.1)
  | startSync hsnp hsize =>
    rw [hold.stored.empty _ hsnp] at hsize
    cases hsize
  | sendSnapshot _ hmsg =>
    obtain ⟨p, sync, -, -, hp, hsync, -⟩ := hmsg
    cases (hold.stored.sync p (hserver.object_mem hp)).symm.trans hsync
  | ack => exact h.same ht hm' (hpeer _ fun _ => rfl) rfl rfl rfl rfl
  | nack =>
    refine h.same ht hm' (hpeer _ fun p => ?_) rfl rfl rfl rfl
    unfold moveBack
    split <;> rfl
  | snapshotAck _ hp hsync =>
    cases (hold.stored.sync _ (List.mem_of_find?_eq_some hp)).symm.trans hsync
  | merge hin htype hk hrole hterm hokay hes =>
    subst hin
    exact h.merge ht hwhole htype hk hrole hterm hokay (hes ▸ reached_isPrefix _ _) writtenOut_inert
      hm'
  | process =>
    refine h.same ht hm' ?_ rfl rfl rfl rfl
    exact hold.stored.congr rfl (Nat.le_succ _) rfl rfl hold.stored.sync
  | snapshot _ hdist hlog hidx hle hconf hsnp =>
    obtain ⟨H₀, hH₀⟩ := h₀
    refine h.same ht hm' (snapshot hold.stored ?_ hdist hlog hidx hle hsnp) rfl rfl rfl rfl
    rcases (hH₀.server i ht.mem).stored.compacted with h1 | ⟨-, h1⟩ <;> omega
  | addConfigured hc hadded hnew =>
    have hnil := hserver.added_eq_nil ((ht.start.server i ht.mem).offers ht.input hc) hadded hnew
    subst hnil
    exact h.same ht hm' hold.stored rfl rfl rfl rfl
  | dropUnconfigured hc =>
    have heq := hserver.dropUnconfigured_eq ((ht.start.server i ht.mem).offers ht.input hc)
    rw [heq] at hm' ⊢
    exact h.same ht hm' hold.stored rfl rfl rfl rfl
  | installCompact hin' | installApply hin' | installDone hin' => exact (h.not_installs ht hin').elim
  | countdown hdown => exact (hdown.ne' hserver.down).elim
  | leaveConfig _ hdown => exact (hdown.ne' (ht.start.server i ht.mem).down).elim
  | joinProgress hin' => exact (hext hin').elim
  | dropOnly hin' => exact (hext hin').elim
  | abandon _ hin' => exact (hext hin').elim
  | invite hreq htype | leaving hreq htype | join hreq htype | pack hreq htype
  | packCommit hreq htype =>
    subst hreq
    have hin := ht.input
    simp [StaticInput, htype] at hin
  | confAppend hc => exact (hext (isExt_of_newConfig (by rw [hc]; rfl))).elim
  | sendExt hin' => exact (ht.input.not_isAdmin hin').elim
  | retry _ hin' => exact (hext hin').elim
  | resend hin' => subst hin'; exact ht.input.elim
  | commitMajority | commitAlone | commitFollower | confApplied | caughtUp | setConfig =>
    exact h.same ht hm' (hold.stored.same rfl rfl rfl rfl rfl) rfl rfl rfl rfl

/-! ## Responses -/

/-- A server that has accepted an append request has the leader's log as far as the request
goes. -/
theorem has_accepted {req : ReqMsg} {now : Int} (h : Follows m ctx H c)
    (h₀ : ∃ H₀, Follows m ctx H₀ c₀) (ht : Turn m c₀ c i (.request req now))
    (hwhole : Whole c₀ i (.request req now)) (htype : req.type = .appendEntriesRequest)
    (hokay : ReqOkay (c₀.servers i) req)
    (hlog : (c.servers i).logStore =
      written (c₀.servers i).logStore req.lastLogIdx req.logEntries)
    (hsnp : (c.servers i).smLastSnapshot = (c₀.servers i).smLastSnapshot) :
    ∃ L, H.lead req.term = some (req.src, L) ∧
      req.lastLogIdx + req.logEntries.length ≤ L.length ∧
      L.take (req.lastLogIdx + req.logEntries.length) <+: H.log i := by
  have hstored := (h.server i ht.mem).stored
  obtain ⟨rpc, hrpc, rfl, rfl, hmine, hc⟩ := hwhole.request ht htype
  have hfrom := (h.request rpc (ht.grows.rpcs.subset hrpc)).append htype
  rcases Nat.eq_zero_or_pos rpc.req.logEntries.length with hlen | hlen
  · -- no entries: the check made before still holds
    have hnil := List.length_eq_zero_iff.1 hlen
    rw [hnil] at hlog
    have hlog : (c.servers rpc.target).logStore = (c₀.servers rpc.target).logStore := hlog
    have hokay' : ReqOkay (c.servers rpc.target) rpc.req := by
      unfold ReqOkay TermForLog Server.nextSlot
      rw [hlog, hsnp]
      exact hokay
    obtain ⟨L, hfits⟩ := fits h.base hstored hfrom hokay'
      (fun h0 => hlog ▸ hmine h0) hc
    rw [hlen, Nat.add_zero]
    exact ⟨L, hfits.lead, hfits.long, hfits.shared⟩
  · obtain ⟨H₀, hH₀⟩ := h₀
    obtain ⟨_, hfits₀⟩ := fits hH₀.base (hH₀.server _ ht.mem).stored
      ((hH₀.request rpc hrpc).append htype) hokay hmine hc
    have hwritten := Holds.written (hH₀.server _ ht.mem).stored.holds hfits₀.start hfits₀.le
      rpc.req.logEntries
    rw [← hlog] at hwritten
    obtain ⟨l, L, hL, hl, -, hpiece⟩ := hfrom.led
    obtain ⟨hle, ⟨r, hr⟩, -⟩ := hpiece hc
    -- the last entry of the request, in the leader's log and in the server's
    obtain ⟨n, hn⟩ : ∃ n, rpc.req.logEntries.length = n + 1 := ⟨_, (Nat.sub_add_cancel hlen).symm⟩
    have hlast : rpc.req.logEntries[n]? = some rpc.req.logEntries[n] :=
      List.getElem?_eq_getElem (by omega)
    have hleader : L[rpc.req.lastLogIdx + n]? = some rpc.req.logEntries[n] := by
      obtain ⟨r', rfl⟩ := hl
      rw [← List.getElem?_drop, List.drop_append_of_le_length hle, ← hr, List.append_assoc,
        List.getElem?_append_left (by omega), hlast]
    have hterm : (History.merged LogEntry.term (H₀.log rpc.target) rpc.req.lastLogIdx
        rpc.req.logEntries)[rpc.req.lastLogIdx + n]?.map LogEntry.term =
        some rpc.req.logEntries[n].term := by
      rw [History.merged_term hfits₀.le (by omega), hlast, Option.map_some]
    obtain ⟨a, ha, hat⟩ := Option.map_eq_some_iff.1 hterm
    have hlen' := hstored.holds.nextSlot.symm.trans hwritten.nextSlot
    have halt := (List.getElem?_eq_some_iff.1 ha).1
    have hmine : (H.log rpc.target)[rpc.req.lastLogIdx + n]? = some a := by
      have hget := List.getElem?_eq_getElem (l := H.log rpc.target)
        (i := rpc.req.lastLogIdx + n) (by omega)
      have hstart : (c.servers rpc.target).logStore.startIdx ≤ rpc.req.lastLogIdx + n + 1 := by
        rw [hlog, written_startIdx]
        exact hfits₀.start.trans (by omega)
      rw [hget, ← hstored.holds.entryAt hstart hget, hwritten.entryAt hstart ha]
    have hhas := matches_log h.base hL _ a _ hmine hleader hat
    have hlt := (List.getElem?_eq_some_iff.1 hleader).1
    exact ⟨L, hL, by omega, by rw [hn]; exact hhas⟩

theorem ack {L : List LogEntry} {j : Int} {k : Nat} (h : Follows m ctx H c)
    (hL : H.lead (H.term i) = some (j, L)) (hk : k ≤ L.length) (hhas : L.take k <+: H.log i) :
    Follows m ctx (H.setAcked i (H.term i) (max (H.acked i (H.term i)) k)) c := by
  have hs : LogSteps m (fun _ _ => True) i H (H.setAcked i (H.term i)
      (max (H.acked i (H.term i)) k)) := .single (.ack hL hk hhas)
  obtain ⟨hbase, hby⟩ := h.base.steps hs
  refine ⟨hbase, h.ballots, fun j hj => ?_, fun r hr => (h.request r hr).mono hby,
    fun r resp hr => (h.response r resp hr).mono hby⟩
  have hj := h.server j hj
  exact ⟨hj.term, hj.stored, hj.leader, hj.elected, hj.candidate, hj.granted⟩

theorem answer {rpc : Rpc} {now : Int} {k : Nat} {resp : RespMsg} (h : Follows m ctx H c)
    (h₀ : ∃ H₀, Follows m ctx H₀ c₀) (ht : Turn m c₀ c rpc.target (.request rpc.req now))
    (hwhole : Whole c₀ rpc.target (.request rpc.req now)) (hk : c.rpcs[k]? = some rpc)
    (hrep : Replied (c₀.servers rpc.target) rpc.req resp (c.servers rpc.target)) :
    ∃ H', LogSteps m U rpc.target H H' ∧ Follows m ctx H' (c.answer k resp) := by
  have hold := h.server rpc.target ht.mem
  have hb := h.ballots.answer ht hk hrep
  have hvote : rpc.req.type = .requestVoteRequest → resp.accepted = true →
      resp.term = rpc.req.term := fun htype hacc =>
    (hrep.vote htype).term.trans ((hrep.vote htype).accepted hacc).1.symm
  by_cases hacc : rpc.req.type = .appendEntriesRequest ∧ resp.accepted = true
  · obtain ⟨htype, hacc⟩ := hacc
    have happ := hrep.append htype
    obtain ⟨hterm, -, hnext, hokay, hlog, hsnp, -⟩ := happ.accepted hacc
    obtain ⟨L, hL, hle, hhas⟩ := h.has_accepted h₀ ht hwhole htype hokay hlog hsnp
    have hlead : H.lead (H.term rpc.target) = some (rpc.req.src, L) := hold.term ▸ hterm ▸ hL
    have h' := h.ack hlead hle hhas
    refine ⟨_, .single (.ack hlead hle hhas), h'.base, hb, h'.server, h'.request, ?_⟩
    intro rpc' resp' hr
    rcases hr.of_answer with hr | ⟨hk', rfl⟩
    · exact h'.response rpc' resp' hr
    · obtain rfl : rpc = rpc' := Option.some.inj (hk.symm.trans hk')
      refine ⟨hrep.type, hvote, fun _ _ => ⟨?_, happ.term.trans hterm.symm, ?_, ?_⟩⟩
      · exact happ.src.trans (ht.static.id _ ht.mem)
      · rw [hnext]
        exact Nat.le_add_left _ _
      · rw [hnext, hterm, ← hold.term, History.acked_setAcked, if_pos ⟨rfl, rfl⟩]
        exact Nat.succ_le_succ (Nat.le_max_right _ _)
  · refine ⟨H, .refl, h.base, hb, h.server, h.request, fun rpc' resp' hr => ?_⟩
    rcases hr.of_answer with hr | ⟨hk', rfl⟩
    · exact h.response rpc' resp' hr
    · obtain rfl : rpc = rpc' := Option.some.inj (hk.symm.trans hk')
      exact ⟨hrep.type, hvote, fun htype hacc' => (hacc ⟨htype, hacc'⟩).elim⟩

end Follows

end EnclaveRaft
