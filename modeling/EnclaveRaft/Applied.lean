import EnclaveRaft.Committed

/-!
# Applied entries

What the background thread of a server has applied is committed, so it is safe: no later append
request makes the server write over it, be it late or repeated, as long as commits are safe and
logs that have lost their beginning are spared.
-/

namespace EnclaveRaft

open Act Server LogStore

variable {m : Members} {ctx : Context}

/-- Append requests do not compact the log. -/
theorem LedgerStep.startIdx_eq {inp : Input} {s₀ s s' : Server} {o : List Effect} {req : ReqMsg}
    {now : Int} (h : LedgerStep ctx inp s₀ s o s') (hin : inp = .request req now)
    (htype : req.type = .appendEntriesRequest) : s'.logStore.startIdx = s.logStore.startIdx := by
  subst hin
  cases h with
  | same hs' => exact congrArg (fun l : Ledger => l.logStore.startIdx) hs'
  | saveInitial _ _ hs' | client _ _ _ _ hs' | confAppend _ _ hs' | commitMajority _ _ _ _ _ _ _ hs'
  | commitAlone _ _ _ hs' | commitFollower _ _ _ _ _ _ _ _ _ hs' | packCommit _ _ _ hs'
  | installApply _ hs' | installDone _ hs' =>
    subst hs'
    rfl
  | merge _ _ _ _ _ _ _ _ hs' =>
    subst hs'
    exact written_startIdx _ _ _
  | process hin | confApplied hin | snapshot hin | abandon hin => cases hin
  | installCompact hin =>
    obtain ⟨req', now', e, sync, heq, htype', -⟩ := hin
    cases heq
    cases htype.symm.trans htype'
  | pack hin htype' | join hin htype' =>
    cases hin
    cases htype.symm.trans htype'

theorem processReq_startIdx {s : Server} {req : ReqMsg} (htype : req.type = .appendEntriesRequest)
    (now : Int) : (processReq ctx req now s).state.logStore.startIdx = s.logStore.startIdx := by
  have hpath : Path (Micro ctx (.request req now) s) s (processReq ctx req now s).out
      (processReq ctx req now s).state := (walks_processReq rfl).1
  exact hpath.fold (R := fun (s : Server) _ s' => s'.logStore.startIdx = s.logStore.startIdx)
    (fun _ => rfl) fun _ _ _ _ _ hm h => h.trans (hm.ledgerStep.startIdx_eq rfl htype)

/-- A server that is alone sends nothing. -/
theorem rpcs_alone (hone : m.ids.length ≤ 1) {c : Cluster} (hc : StaticCluster m c)
    (hr : c.rpcs = []) {es : List Event} (hes : c.Meets ctx (fun _ e => e.Static m) es) :
    (c.run ctx es).rpcs = [] := by
  refine (Cluster.inv_run (I := fun c => StaticCluster m c ∧ c.rpcs = []) ?_ ⟨hc, hr⟩ hes).2
  rintro c e ⟨hc, hr⟩ he
  refine static_step (J := fun c => c.rpcs = []) (K := fun _ _ _ => True) he
    (fun _ _ _ _ => trivial) hc hr (fun c' i inp o s' ht _ hJ hm => ?_)
    fun _ _ _ _ _ _ _ hJ _ _ => hJ
  have hserver := ht.static.server i ht.mem
  have hpeers : (c'.servers i).peers = [] := by
    have := hserver.length_peers
    exact List.eq_nil_of_length_eq_zero (by omega)
  refine List.eq_nil_iff_forall_not_mem.2 fun rpc hrpc => ?_
  rcases Cluster.mem_update_rpcs hrpc with hrpc | hsend
  · rw [hJ] at hrpc
    cases hrpc
  have hobject : ∀ {uid p}, (c'.servers i).object uid ≠ some p := fun hp => by
    have := hserver.object_mem hp
    rw [hpeers] at this
    cases this
  cases hm with
  | note he => cases List.mem_singleton.1 hsend; exact he.elim
  | merge => exact (writtenOut_inert _ hsend).elim
  | sendVote _ _ _ hp =>
    rw [hpeers] at hp
    cases hp
  | sendAppend _ hmsg =>
    obtain ⟨p, t, es, hp, -⟩ := hmsg
    exact hobject hp
  | sendSnapshot _ hmsg =>
    obtain ⟨p, sync, e, r, hp, -⟩ := hmsg
    exact hobject hp
  | sendExt hadmin => exact (ht.input.not_isAdmin hadmin).elim
  | resend hreq =>
    subst hreq
    exact ht.input.elim
  | _ => first | cases hsend; done | cases List.mem_singleton.1 hsend

/-- The store of a log that keeps its first entries and its beginning keeps them as well. -/
theorem Holds.lookup_of_isPrefix {st st' : LogStore} {l l' : List LogEntry} {n q : Nat}
    (h : st.Holds l) (h' : st'.Holds l') (hstart : st'.startIdx = st.startIdx)
    (hp : l.take q <+: l') (hn : n ≤ q) (hlen : n ≤ l.length) :
    st'.logs.lookup n = st.logs.lookup n := by
  rcases Nat.eq_zero_or_pos n with rfl | hpos
  · rw [h.logs, h'.logs]
    rfl
  · obtain ⟨r, rfl⟩ := hp
    rw [h.lookup hpos, h'.lookup hpos, hstart,
      List.getElem?_append_left (by rw [List.length_take]; omega),
      List.getElem?_take_of_lt (by omega)]

/-- Snapshots are taken of every entry and keep the last one in the log. -/
def snapshotEach : Context := { params := { snapshotDistance := 1, reservedLogItems := 1 } }

/-- Server 1 is elected and commits two entries with server 2, which applies both of them and takes
a snapshot. -/
def applyTwo : List Event :=
  electOne ++ [.deliver 2 0, .respond 1 0, .client 1 [[7, 0]] 0, .deliver 4 0, .respond 2 0,
    .deliver 5 0, .respond 3 0, .deliver 6 0, .commitBg 2, .commitBg 2]

end EnclaveRaft

