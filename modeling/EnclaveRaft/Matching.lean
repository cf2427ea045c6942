import EnclaveRaft.Logs

/-!
# Log matching

A static cluster that starts with empty logs follows a history along every run, as long as append
requests for the whole log are exchanged among stores that are whole. Without snapshots all stores
are whole, and what the history knows about logs holds of the servers' stores: two logs with
entries of one term at an index agree up to there, and a leader only appends.
-/

namespace EnclaveRaft

open Act Server LogStore

variable {m : Members} {ctx : Context} {U : List LogEntry → List LogEntry → Prop}

/-! ## The start -/

/-- What a server with an empty log starts from. It may have voted before. -/
structure FreshBoot (m : Members) (b : Boot) : Prop where
  config : b.config.servers = m.servers
  store : b.logStore = .empty
  commit : b.lastCommitIndex = 0
  snapshot : b.snapshot = none

theorem FreshBoot.static {b : Boot} (h : FreshBoot m b) : StaticBoot m b where
  config := h.config
  store := by
    rw [h.store]
    intro p hp
    rw [List.mem_singleton.1 hp]
    trivial
  snapshot snp hsnp := by
    rw [h.snapshot] at hsnp
    cases hsnp

theorem Members.freshBoot (m : Members) : FreshBoot m m.fresh := ⟨rfl, rfl, rfl, rfl⟩

/-- The history of a cluster at its start. -/
def startHistory (ctx : Context) (b : Int → Boot) : LogHistory :=
  History.begin (fun i => (Server.new ctx i (b i)).term) (Ballots.startTable ctx b)

theorem startTable_le (ctx : Context) (b : Int → Boot) (i : Int) (t : Nat) (v : Int)
    (h : Ballots.startTable ctx b i t = some v) : t ≤ (Server.new ctx i (b i)).term := by
  unfold Ballots.startTable at h
  split at h
  next ht => exact ht.le
  next => cases h

theorem strong_start (m : Members) (ctx : Context) (b : Int → Boot) :
    History.Strong m.ids LogEntry.term (startHistory ctx b) :=
  .begin (startTable_le ctx b)

theorem follows_start {b : Int → Boot} (hb : ∀ i ∈ m.ids, FreshBoot m (b i)) :
    Follows m ctx (startHistory ctx b) (Cluster.start ctx b) := by
  refine ⟨.begin (startTable_le ctx b), Ballots.start ctx fun i hi => (hb i hi).static,
    fun i hi => ?_, fun rpc hr => (List.not_mem_nil hr).elim, fun rpc resp hr => ?_⟩
  · obtain ⟨ps, n, hq, -, hps, -⟩ := (hb i hi).static.new ctx i
    have hload : Stored ctx { load i (b i) with peers := ps, nextUid := n } [] :=
      { holds := by
          show (b i).logStore.Holds []
          rw [(hb i hi).store]
          exact .empty
        compacted := .inl (congrArg LogStore.startIdx (hb i hi).store)
        snapshot := fun snp hsnp => by cases (hb i hi).snapshot.symm.trans hsnp
        empty := fun snp hsnp => by cases (hb i hi).snapshot.symm.trans hsnp
        sync := fun p hp => by rw [hps p hp]; rfl }
    refine ⟨rfl, hload.keeps hq.keeps, fun hl => ?_, fun L hL => ?_, fun hl => ?_, fun hv => ?_⟩
    · cases (hq.field Server.role).symm.trans hl
    · cases hL
    · cases (hq.field Server.role).symm.trans hl
    · have hzero : (Server.new ctx i (b i)).votesGranted = 0 := hq.field Server.votesGranted
      exact (hv.ne' hzero).elim
  · obtain ⟨k, -, hr⟩ := hr
    exact (List.not_mem_nil hr).elim

/-! ## Runs -/

/-- The cluster follows a history that `H` evolves to. -/
def Evolved (m : Members) (ctx : Context) (U : List LogEntry → List LogEntry → Prop)
    (H : LogHistory) (c : Cluster) : Prop :=
  ∃ H', History.Evolves m.ids LogEntry.term U H H' ∧ Follows m ctx H' c

/-- **Runs follow histories.** -/
theorem follows_run {c : Cluster} {H : LogHistory} (hc : StaticCluster m c)
    (hH : Follows m ctx H c) {es : List Event}
    (hes : c.Meets ctx (fun c e => e.Static m ∧ e.Allowed Whole c) es) :
    StaticCluster m (c.run ctx es) ∧ Evolved m ctx (fun _ _ => True) H (c.run ctx es) := by
  refine Cluster.inv_run (I := fun c => StaticCluster m c ∧ Evolved m ctx (fun _ _ => True) H c)
    (fun c₀ e h he => ?_) ⟨hc, H, .refl, hH⟩ hes
  obtain ⟨hc₀, H₀, hev₀, hf₀⟩ := h
  refine static_step (J := Evolved m ctx (fun _ _ => True) H) (K := Whole) he.1 he.2 hc₀
    ⟨H₀, hev₀, hf₀⟩ ?_ ?_
  · rintro c i inp o s' ht hwhole ⟨H₁, hev, hf₁⟩ hm
    obtain ⟨H₂, hs, hf₂⟩ := hf₁.micro (U := fun _ _ => True) ⟨H₀, hf₀⟩ ht hwhole
      (fun _ _ _ _ _ _ _ _ _ => trivial) hm
    exact ⟨H₂, hev.trans hs.evolves, hf₂⟩
  · rintro c rpc now k resp ht hwhole ⟨H₁, hev, hf₁⟩ hk hrep
    obtain ⟨H₂, hs, hf₂⟩ := hf₁.answer ⟨H₀, hf₀⟩ ht hwhole hk hrep
    exact ⟨H₂, hev.trans hs.evolves, hf₂⟩

/-! ## Log matching -/

namespace Follows

variable {H H' : LogHistory} {c c' : Cluster} {i j : Int} {k n : Nat} {e e' : LogEntry}

/-- Without snapshots every event is allowed. -/
theorem whole (h : Follows m ctx H c) (hoff : ctx.params.snapshotDistance = 0)
    (hi : i ∈ m.ids) {inp : Input} (hin : c.Legit i inp) : Whole c i inp := by
  cases inp with
  | request req now =>
    intro htype _
    obtain ⟨rpc, hrpc, hreq, htarget⟩ := Cluster.Legit.sent hin (.inr (.inl htype))
    exact ⟨(h.server i hi).stored.whole hoff, rpc, hrpc, hreq, htarget,
      ((h.request rpc hrpc).append (hreq ▸ htype)).whole hoff⟩
  | _ => trivial

theorem matching (h : Follows m ctx H c) (hi : i ∈ m.ids) (hj : j ∈ m.ids)
    (he : (c.servers i).logStore.At k e) (he' : (c.servers j).logStore.At k e')
    (hterm : e.term = e'.term) (hn : n ≤ k)
    (hsi : (c.servers i).logStore.startIdx ≤ n) (hsj : (c.servers j).logStore.startIdx ≤ n) :
    (c.servers i).logStore.logs.lookup n = (c.servers j).logStore.logs.lookup n := by
  have hhi := (h.server i hi).stored.holds
  have hhj := (h.server j hj).stored.holds
  obtain ⟨hk, hke⟩ := hhi.at_iff.1 he
  obtain ⟨-, hke'⟩ := hhj.at_iff.1 he'
  have hpos := hhi.start
  have htake := h.base.matching_getElem? (.inl ⟨i, rfl⟩) (.inl ⟨j, rfl⟩) hke hke' hterm
  rw [hhi.lookup (hpos.trans hsi), hhj.lookup (hpos.trans hsi), if_pos hsi, if_pos hsj,
    ← List.getElem?_take_of_lt (show n - 1 < k - 1 + 1 by omega), htake,
    List.getElem?_take_of_lt (show n - 1 < k - 1 + 1 by omega)]

/-- A leader's log later in its term begins with what it was before. -/
theorem leader_isPrefix (h : Follows m ctx H c) (h' : Follows m ctx H' c')
    (hle : History.LeadLe H H') (hi : i ∈ m.ids) (hl : (c.servers i).role = .leader)
    (hl' : (c'.servers i).role = .leader) (hterm : (c.servers i).term = (c'.servers i).term) :
    H.log i <+: H'.log i := by
  obtain ⟨L, hL, hp⟩ := hle _ _ _ ((h.server i hi).leader hl)
  rw [hterm] at hL
  cases hL.symm.trans ((h'.server i hi).leader hl')
  exact hp

end Follows

/-- Runs without snapshots. -/
theorem follows_run_whole {c : Cluster} {H : LogHistory} (hoff : ctx.params.snapshotDistance = 0)
    (hc : StaticCluster m c) (hH : Follows m ctx H c) {es : List Event}
    (hes : ∀ e ∈ es, e.Static m) :
    StaticCluster m (c.run ctx es) ∧ Evolved m ctx (fun _ _ => True) H (c.run ctx es) := by
  induction es generalizing c H with
  | nil => exact ⟨hc, H, .refl, hH⟩
  | cons e es ih =>
    rw [List.forall_mem_cons] at hes
    have hallowed : e.Allowed Whole c := fun i inp k hin =>
      hH.whole hoff (hc.input hes.1 hin).1 (Cluster.legit_of_input hin).1
    have hone : c.Meets ctx (fun c e => e.Static m ∧ e.Allowed Whole c) [e] :=
      ⟨⟨hes.1, hallowed⟩, trivial⟩
    obtain ⟨hc', H', hev, hH'⟩ := follows_run hc hH hone
    obtain ⟨hc'', H'', hev', hH''⟩ := ih hc' hH' hes.2
    exact ⟨hc'', H'', hev.trans hev', hH''⟩

/-- Server 1 is elected and server 2 gets its first append request. -/
def appendOne : List Event := electOne ++ [.deliver 2 0]

end EnclaveRaft
