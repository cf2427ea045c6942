import EnclaveRaft.Lib.OneLog
import EnclaveRaft.Restarts

/-!
# The cluster as one log

A static cluster without snapshots, whose commits are safe, does what one log does. The log is a
chosen prefix that covers all that the servers take for committed; it is extended when a commit
index rises. A background thread that processes an entry takes the next entry of that log
(`Advances`), and a server starts again from an earlier place when it comes back, and only then: what
is seen of a run (`Cluster.story`) is what is seen of the log.

The log is not the longest committed part of a log: a server that comes back may be the only one
that knew about the last commits.
-/

namespace EnclaveRaft

open Act Server LogStore

variable {m : Members} {ctx : Context} {c : Cluster} {H : LogHistory}

/-! ## What is processed -/

/-- A small step of a static server processes nothing, or it processes the entry that comes next. -/
theorem LedgerStep.processes {inp : Input} {s₀ s s' : Server} {o : List Effect}
    (h : LedgerStep ctx inp s₀ s o s') (hinst : ∀ snp, ¬inp.Installs snp) (hadmin : ¬inp.IsAdmin) :
    (Idle o ∧ s'.smCommitIndex = s.smCommitIndex) ∨
      (Quiet s₀ s ∧ s.smCommitIndex < s.quickCommitIdx ∧ s.smCommitIndex < usub s.nextSlot 1 ∧
        s'.smCommitIndex = s.smCommitIndex + 1 ∧
        o = [.process (s.smCommitIndex + 1) (s.logStore.entryAt (s.smCommitIndex + 1))]) := by
  cases h with
  | same hs' ho => exact .inl ⟨ho, congrArg Ledger.smCommitIndex hs'⟩
  | process _ hk hquick hlog hs' ho =>
    subst hs'
    exact .inr ⟨hk, hquick, hlog, rfl, ho⟩
  | installCompact hin | installApply hin | installDone hin => exact (hinst _ hin).elim
  | packCommit hin htype | join hin htype =>
    subst hin
    exact (hadmin (by simp [Input.IsAdmin, htype])).elim
  | client _ _ _ _ hs' ho | merge _ _ _ _ _ _ _ _ hs' ho =>
    subst hs'
    exact .inl ⟨ho, rfl⟩
  | saveInitial _ _ hs' ho | confAppend _ _ hs' ho | pack _ _ _ _ _ hs' ho
  | commitMajority _ _ _ _ _ _ _ hs' ho | commitAlone _ _ _ hs' ho
  | commitFollower _ _ _ _ _ _ _ _ _ hs' ho | confApplied _ hs' ho | abandon _ _ _ _ hs' ho
  | snapshot _ _ _ _ _ _ _ hs' ho =>
    subst hs' ho
    exact .inl ⟨idle_nil, rfl⟩

theorem filterMap_processed_of_idle {o : List Effect} (h : Idle o) :
    o.filterMap Effect.processed = [] := by
  apply List.filterMap_eq_nil_iff.2
  intro e he
  cases e with
  | process n entry => exact (h n entry he).elim
  | _ => rfl

/-- From `c` to `c'` nothing is processed, or server `i` processes the next entry of those that it
takes for committed. -/
inductive Advances (m : Members) (c c' : Cluster) : Prop
  | stay (hproc : c'.processed = c.processed)
      (hsm : ∀ j ∈ m.ids, (c'.servers j).smCommitIndex = (c.servers j).smCommitIndex)
  | apply {i : Int} (hi : i ∈ m.ids)
      (hquick : (c.servers i).smCommitIndex < (c.servers i).quickCommitIdx)
      (hlog : (c.servers i).smCommitIndex < usub (c.servers i).nextSlot 1)
      (hproc : c'.processed = c.processed ++ [(i, (c.servers i).smCommitIndex + 1,
        (c.servers i).logStore.entryAt ((c.servers i).smCommitIndex + 1))])
      (hsm : ∀ j ∈ m.ids, (c'.servers j).smCommitIndex =
        if j = i then (c.servers i).smCommitIndex + 1 else (c.servers j).smCommitIndex)

namespace Advances

variable {c' : Cluster} {i : Int} {s' : Server} {o : List Effect}

/-- A small step that processes nothing. -/
theorem idle (h : Advances m c c') (ho : Idle o)
    (hsm : s'.smCommitIndex = (c'.servers i).smCommitIndex) : Advances m c (c'.update i s' o) := by
  have hproc : (c'.update i s' o).processed = c'.processed := by
    simp [Cluster.update, filterMap_processed_of_idle ho]
  have hsame (j : Int) :
      ((c'.update i s' o).servers j).smCommitIndex = (c'.servers j).smCommitIndex := by
    by_cases hji : j = i
    · rw [hji, Cluster.update_servers_self]
      exact hsm
    · rw [Cluster.update_servers_ne c' hji]
  cases h with
  | stay hp hs => exact .stay (hproc.trans hp) fun j hj => (hsame j).trans (hs j hj)
  | apply hi hquick hlog hp hs =>
    exact .apply hi hquick hlog (hproc.trans hp) fun j hj => (hsame j).trans (hs j hj)

/-- The round of a background thread. Nothing was processed before it in the event. -/
theorem process (h : Advances m c c') (hi : i ∈ m.ids)
    (hothers : ∀ j, j ≠ i → c'.servers j = c.servers j) (hk : Quiet (c.servers i) (c'.servers i))
    (hquick : (c'.servers i).smCommitIndex < (c'.servers i).quickCommitIdx)
    (hlog : (c'.servers i).smCommitIndex < usub (c'.servers i).nextSlot 1)
    (hsm : s'.smCommitIndex = (c'.servers i).smCommitIndex + 1)
    (ho : o = [.process ((c'.servers i).smCommitIndex + 1)
      ((c'.servers i).logStore.entryAt ((c'.servers i).smCommitIndex + 1))]) :
    Advances m c (c'.update i s' o) := by
  have hkeep : (c'.servers i).smCommitIndex = (c.servers i).smCommitIndex :=
    hk.field Server.smCommitIndex
  have hstore : (c'.servers i).logStore = (c.servers i).logStore := hk.field Server.logStore
  cases h with
  | stay hp hs =>
    rw [hkeep, show (c'.servers i).quickCommitIdx = _ from hk.field Server.quickCommitIdx] at hquick
    rw [hkeep, show (c'.servers i).nextSlot = _ from hk.field Server.nextSlot] at hlog
    rw [hkeep] at hsm
    rw [hkeep, hstore] at ho
    refine .apply hi hquick hlog ?_ fun j hj => ?_
    · simp [Cluster.update, ho, Effect.processed, hp]
    · by_cases hji : j = i
      · rw [if_pos hji, hji, Cluster.update_servers_self]
        exact hsm
      · rw [if_neg hji, Cluster.update_servers_ne c' hji, hothers j hji]
  | @apply i' hi' _ _ _ hs =>
    -- the server is as it was when the event began
    have hself := hs i' hi'
    rw [if_pos rfl] at hself
    by_cases hii : i' = i
    · subst hii
      omega
    · rw [hothers i' hii] at hself
      omega

end Advances

/-- In an event of a static cluster, at most one entry is processed. -/
theorem Follows.advances (h : Follows m ctx H c) (hc : StaticCluster m c) {e : Event}
    (he : e.Static m) : Advances m c (c.step ctx e) := by
  refine (static_step_alone (J := Advances m c) (K := fun _ _ _ => True) he
    (fun _ _ _ _ => trivial) hc (.stay rfl fun _ _ => rfl) ?_ ?_).2
  · intro c' i inp o s' ht _ hothers hJ hm
    have hinst (snp : Snapshot) : ¬inp.Installs snp :=
      h.not_installs ⟨ht.start, ht.start, .refl c, ht.mem, ht.input, ht.sent⟩
    rcases hm.ledgerStep.processes hinst ht.input.not_isAdmin with
      ⟨ho, hsm⟩ | ⟨hk, hquick, hlog, hsm, ho⟩
    · exact hJ.idle ho hsm
    · exact hJ.process ht.mem hothers hk hquick hlog hsm ho
  · intro c' rpc now k resp _ _ hJ _ _
    cases hJ with
    | stay hp hs => exact .stay hp hs
    | apply hi hquick hlog hp hs => exact .apply hi hquick hlog hp hs

theorem SoundAcross.advances (h : SoundAcross m ctx H c) {e : Event} (he : e.Static m) :
    Advances m c (c.step ctx e) := by
  have hstatic : StaticCluster m c.unprocessed :=
    ⟨h.restartable.static.id, h.restartable.static.server, h.restartable.static.rpc,
      h.restartable.static.retries, h.restartable.static.numbered⟩
  have hadv := h.sound.follows.advances hstatic he
  rw [Cluster.step_unprocessed ctx c e]
  cases hadv with
  | stay hproc hsm =>
    refine .stay ?_ hsm
    rw [hproc]
    exact List.append_nil _
  | apply hi hquick hlog hproc hsm =>
    refine .apply hi hquick hlog ?_ hsm
    rw [hproc]
    rfl

/-! ## Logs as lists -/

/-- The entries of a store, in order. -/
def LogStore.entries (st : LogStore) : List LogEntry := st.logs.tail.map Prod.snd

def Server.log (s : Server) : List LogEntry := s.logStore.entries

theorem Holds.entries_eq {st : LogStore} {l : List LogEntry} (h : st.Holds l)
    (hstart : st.startIdx = 1) : st.entries = l := by
  unfold LogStore.entries
  rw [h.logs, hstart]
  exact OrderedMap.map_snd_indexed

theorem SoundAcross.log_eq (h : SoundAcross m ctx H c) (hoff : ctx.params.snapshotDistance = 0)
    {i : Int} (hi : i ∈ m.ids) : (c.servers i).log = H.log i := by
  have hst := (h.sound.follows.server i hi).stored
  exact Holds.entries_eq hst.holds (hst.whole hoff)

/-! ## The refinement -/

/-- The servers have applied the log `a` so far, and what they take for committed is in it. -/
structure Cluster.KeepsTo (m : Members) (c : Cluster) (a : OneLog Int LogEntry) : Prop where
  applied : ∀ i ∈ m.ids, a.applied i = (c.servers i).smCommitIndex
  committed : ∀ i ∈ m.ids, (c.servers i).log.take (c.servers i).quickCommitIdx <+: a.log

/-- The servers keep to `a`, and its log is chosen in the history of the cluster. -/
structure Simulated (m : Members) (ctx : Context) (H : LogHistory) (c : Cluster)
    (a : OneLog Int LogEntry) : Prop where
  sound : SoundAcross m ctx H c
  common : History.Common m.ids LogEntry.term H a.log
  keeps : c.KeepsTo m a

/-- What is seen of a move: the entries that are processed, or that a server comes back with a state
machine that has applied `n` entries. -/
def Cluster.labels (ctx : Context) (c : Cluster) : Move → List (OneLog.Label Int LogEntry)
  | .event e => ((c.step ctx e).processed.drop c.processed.length).map fun (i, k, entry) =>
    .applied i k entry
  | .restart i n => [.rewound i n]

/-- What is seen of a run. -/
def Cluster.story (ctx : Context) (c : Cluster) : List Move → List (OneLog.Label Int LogEntry)
  | [] => []
  | a :: ms => c.labels ctx a ++ (c.move ctx a).story ctx ms

/-- What has been processed in a run is seen. -/
theorem Cluster.mem_story {ms : List Move} {i : Int} {k : Nat} {e : LogEntry}
    (h : (i, k, e) ∈ (c.moves ctx ms).processed) :
    (i, k, e) ∈ c.processed ∨ .applied i k e ∈ c.story ctx ms := by
  induction ms generalizing c with
  | nil => exact .inl h
  | cons a ms ih =>
    rcases ih h with h | h
    · cases a with
      | event ev =>
        have hsplit : (c.step ctx ev).processed =
            c.processed ++ (c.unprocessed.step ctx ev).processed := by
          rw [Cluster.step_unprocessed]
        rw [Cluster.move, hsplit] at h
        refine (List.mem_append.1 h).imp_right fun h => List.mem_append_left _ ?_
        rw [labels, hsplit, List.drop_left]
        exact List.mem_map.2 ⟨_, h, rfl⟩
      | restart j n => exact .inl (by simpa [Cluster.move, Cluster.update] using h)
    · exact .inr (List.mem_append_right _ h)

/-- What is seen on the way to `c` are steps of the log `a`. -/
def Simulates (m : Members) (ctx : Context) (o : List (OneLog.Label Int LogEntry)) (c : Cluster)
    (a : OneLog Int LogEntry) : Prop :=
  ∃ H a', a.Steps o a' ∧ Simulated m ctx H c a'

namespace Simulated

variable {a : OneLog Int LogEntry}

/-- The next entry of a server that has some left to process is the next entry of the log. -/
theorem next (h : Simulated m ctx H c a) (hoff : ctx.params.snapshotDistance = 0) {i : Int}
    (hi : i ∈ m.ids) (hquick : (c.servers i).smCommitIndex < (c.servers i).quickCommitIdx)
    (hlog : (c.servers i).smCommitIndex < usub (c.servers i).nextSlot 1) :
    a.log[a.applied i]? =
      some ((c.servers i).logStore.entryAt ((c.servers i).smCommitIndex + 1)) := by
  have hst := (h.sound.sound.follows.server i hi).stored
  have hlt : (c.servers i).smCommitIndex < (H.log i).length := by
    have hnext : (c.servers i).nextSlot = (H.log i).length + 1 := hst.holds.nextSlot
    rwa [hnext, usub_succ] at hlog
  have hget := List.getElem?_eq_getElem hlt
  have hentry : (c.servers i).logStore.entryAt ((c.servers i).smCommitIndex + 1) = _ :=
    hst.holds.entryAt ((hst.whole hoff).trans_le (Nat.le_add_left _ _)) hget
  obtain ⟨r, hr⟩ := h.keeps.committed i hi
  rw [h.sound.log_eq hoff hi] at hr
  rw [h.keeps.applied i hi, hentry, ← hr, List.getElem?_append_left
    (by rw [List.length_take]; omega), List.getElem?_take_of_lt hquick, hget]

/-- An event. -/
theorem event (h : Simulated m ctx H c a) (hmany : 1 < m.ids.length)
    (hoff : ctx.params.snapshotDistance = 0) {e : Event} (he : e.Static m)
    (hsafe : e.CommitsSafely m c) :
    Simulates m ctx (c.labels ctx (.event e)) (c.step ctx e) a := by
  show Simulates m ctx (((c.step ctx e).processed.drop c.processed.length).map _) _ a
  obtain ⟨H', hev, hH'⟩ := h.sound.event hmany hoff he hsafe
  -- the log becomes as long as the commit indices need it
  obtain ⟨l, hl, hle, hall⟩ :=
    History.exists_common hH'.sound.strong (h.common.evolves hev) hH'.sound.safe
  have hcommitted (i : Int) (hi : i ∈ m.ids) : ((c.step ctx e).servers i).log.take
      ((c.step ctx e).servers i).quickCommitIdx <+: l := by
    rw [hH'.log_eq hoff hi]
    exact hall i hi
  cases h.sound.advances he with
  | stay hproc hsm =>
    rw [hproc, List.drop_length]
    refine ⟨H', { a with log := l }, OneLog.Steps.refl.silent (.extend hle), hH', hl,
      ⟨fun i hi => ?_, hcommitted⟩⟩
    exact (h.keeps.applied i hi).trans (hsm i hi).symm
  | @apply i hi hquick hlog hproc hsm =>
    have hsteps := (OneLog.Steps.refl.tail (.apply (h.next hoff hi hquick hlog))).silent (.extend hle)
    rw [h.keeps.applied i hi] at hsteps
    rw [hproc, List.drop_left]
    refine ⟨H', _, hsteps, hH', hl, ⟨fun j hj => ?_, hcommitted⟩⟩
    show Function.update a.applied i ((c.servers i).smCommitIndex + 1) j = _
    rw [hsm j hj, Function.update_apply, h.keeps.applied j hj]

/-- A server stops and comes back. -/
theorem restart (h : Simulated m ctx H c a) (hoff : ctx.params.snapshotDistance = 0) {i : Int}
    (hi : i ∈ m.ids) {n : Nat} (hn : n ≤ (c.servers i).smCommitIndex) :
    Simulates m ctx [.rewound i n] (c.move ctx (.restart i n)) a := by
  have hH := h.sound.restart hoff hi hn
  obtain ⟨-, hquick, hsm⟩ := h.sound.restartable.reborn ctx hi n
  have happ := (h.sound.sound.applied i hi).1
  refine ⟨H, { a with applied := Function.update a.applied i n }, OneLog.Steps.refl.tail (.rewind ?_),
    hH, h.common, ⟨fun j hj => ?_, fun j hj => ?_⟩⟩
  · rw [h.keeps.applied i hi]
    exact hn
  · by_cases hji : j = i
    · rw [hji, hsm]
      exact Function.update_self ..
    · rw [Cluster.move, Cluster.update_servers_ne c hji]
      exact (Function.update_of_ne hji ..).trans (h.keeps.applied j hj)
  · -- it has the log it had, and takes less of it for committed
    have hle : ((c.move ctx (.restart i n)).servers j).quickCommitIdx ≤
        (c.servers j).quickCommitIdx := by
      by_cases hji : j = i
      · rw [hji, hquick]
        exact hn.trans happ
      · rw [Cluster.move, Cluster.update_servers_ne c hji]
    have hcommitted := h.keeps.committed j hj
    rw [h.sound.log_eq hoff hj] at hcommitted
    rw [hH.log_eq hoff hj]
    exact (List.take_isPrefix_take.2 (.inl hle)).trans hcommitted

/-- A run with restarts. -/
theorem moves (h : Simulated m ctx H c a) (hmany : 1 < m.ids.length)
    (hoff : ctx.params.snapshotDistance = 0) {ms : List Move}
    (hms : c.MeetsMoves ctx (fun c a => a.Static m ∧ a.CommitsSafely m c) ms) :
    Simulates m ctx (c.story ctx ms) (c.moves ctx ms) a := by
  induction ms generalizing c H a with
  | nil => exact ⟨H, a, .refl, h⟩
  | cons move ms ih =>
    obtain ⟨⟨hstatic, hsafe⟩, hms⟩ := hms
    have hnext : Simulates m ctx (c.labels ctx move) (c.move ctx move) a := by
      cases move with
      | event e => exact h.event hmany hoff hstatic hsafe
      | restart i n => exact h.restart hoff hstatic hsafe
    obtain ⟨H₁, a₁, hsteps₁, h₁⟩ := hnext
    obtain ⟨H₂, a₂, hsteps₂, h₂⟩ := ih h₁ hms
    exact ⟨H₂, a₂, hsteps₁.trans hsteps₂, h₂⟩

/-- The empty log is the one of a cluster that has just started. -/
theorem start {b : Int → Boot} (hm : ∀ srv ∈ m.servers, srv.Typed)
    (hb : ∀ i ∈ m.ids, FreshBoot m (b i)) :
    Simulated m ctx (startHistory ctx b) (Cluster.start ctx b) ⟨[], fun _ => 0⟩ := by
  refine ⟨.start hm hb, .inl rfl, ⟨fun i hi => (fresh_indices hb hi).2.symm, fun i hi => ?_⟩⟩
  simp [(fresh_indices hb hi).1]

end Simulated

/-- Whether a label is about an entry that is applied, and the node and the place. -/
def labelPlace : OneLog.Label Int LogEntry → Bool × Int × Nat
  | .applied n k _ => (true, n, k)
  | .rewound n k => (false, n, k)

end EnclaveRaft
