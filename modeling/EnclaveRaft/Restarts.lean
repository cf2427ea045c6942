import EnclaveRaft.Committed
import EnclaveRaft.Durable

/-!
# Restarts

A server that has stopped is constructed again over the same state manager, log store and state
machine. It goes by what they have and has forgotten everything else: its role, the votes it has
counted, what it knew of its peers, what it took for committed. Messages that were under way when it
stopped may still arrive, requests as well as responses to requests of its own.

Runs are extended by restarts at any point (`Move`). What is saved is up to date at every point of
any such run (`Cluster.Kept`), so a restart changes neither term nor vote nor log. Hence the
account of the votes, the history that the logs follow and the safety of commits survive it, and
what they say about runs holds of runs with restarts.
-/

namespace EnclaveRaft

open Act Server LogStore

variable {m : Members} {ctx : Context} {c : Cluster}

/-! ## Moves -/

/-- What a server finds when it is constructed again. The state machine has its own idea of how far
it has come. -/
def Server.reboot (s : Server) (lastCommitIndex : Nat) : Boot where
  config := s.savedConfig
  state := s.savedState
  logStore := s.logStore
  lastCommitIndex := lastCommitIndex
  snapshot := s.smLastSnapshot

/-- The server constructed again. -/
def Server.restarted (ctx : Context) (s : Server) (lastCommitIndex : Nat) : Server :=
  .new ctx s.id (s.reboot lastCommitIndex)

/-- An event, or a server stops and is constructed again. -/
inductive Move
  | event (e : Event)
  | restart (i : Int) (lastCommitIndex : Nat)
  deriving DecidableEq

namespace Cluster

def move (ctx : Context) (c : Cluster) : Move → Cluster
  | .event e => c.step ctx e
  | .restart i n => c.update i ((c.servers i).restarted ctx n) []

def moves (ctx : Context) (c : Cluster) (ms : List Move) : Cluster := ms.foldl (move ctx) c

/-- Every move is made in a state where `C` allows it. -/
def MeetsMoves (ctx : Context) (C : Cluster → Move → Prop) (c : Cluster) : List Move → Prop
  | [] => True
  | a :: ms => C c a ∧ (c.move ctx a).MeetsMoves ctx C ms

instance decidableMeetsMoves (ctx : Context) (C : Cluster → Move → Prop)
    [∀ c a, Decidable (C c a)] :
    (c : Cluster) → (ms : List Move) → Decidable (c.MeetsMoves ctx C ms)
  | _, [] => instDecidableTrue
  | c, a :: ms =>
    let _ := decidableMeetsMoves ctx C (c.move ctx a) ms
    inferInstanceAs (Decidable (C c a ∧ (c.move ctx a).MeetsMoves ctx C ms))

theorem inv_moves {I : Cluster → Prop} {C : Cluster → Move → Prop}
    (hstep : ∀ c a, I c → C c a → I (c.move ctx a)) {ms : List Move} (hI : I c)
    (hC : c.MeetsMoves ctx C ms) : I (c.moves ctx ms) := by
  induction ms generalizing c with
  | nil => exact hI
  | cons a ms ih => exact ih (hstep c a hI hC.1) hC.2

theorem moves_append (ctx : Context) (c : Cluster) (ms ms' : List Move) :
    c.moves ctx (ms ++ ms') = (c.moves ctx ms).moves ctx ms' := List.foldl_append

theorem meetsMoves_append {C : Cluster → Move → Prop} {ms ms' : List Move}
    (h : c.MeetsMoves ctx C (ms ++ ms')) :
    c.MeetsMoves ctx C ms ∧ (c.moves ctx ms).MeetsMoves ctx C ms' := by
  induction ms generalizing c with
  | nil => exact ⟨trivial, h⟩
  | cons a ms ih => exact ⟨⟨h.1, (ih h.2).1⟩, (ih h.2).2⟩

theorem meetsMoves_of_forall {P : Move → Prop} {ms : List Move} (h : ∀ a ∈ ms, P a) :
    c.MeetsMoves ctx (fun _ => P) ms := by
  induction ms generalizing c with
  | nil => trivial
  | cons a ms ih =>
    rw [List.forall_mem_cons] at h
    exact ⟨h.1, ih h.2⟩

/-- A restart sends nothing. -/
theorem rpcs_restart (ctx : Context) (c : Cluster) (i : Int) (n : Nat) :
    (c.move ctx (.restart i n)).rpcs = c.rpcs := List.append_nil _

theorem update_servers_ne (c : Cluster) {i j : Int} (h : j ≠ i) (s : Server) (o : List Effect) :
    (c.update i s o).servers j = c.servers j := if_neg h

end Cluster

/-! ## What is saved -/

theorem sameSaved_new (ctx : Context) (i : Int) (b : Boot) :
    SameSaved (load i b) (Server.new ctx i b) := by
  obtain ⟨ps, n, hpeers⟩ := addPeers_frame ctx b.config.servers (load i b)
  have htimer := Durable.sameSaved_restartElectionTimer { load i b with peers := ps, nextUid := n }
  unfold Server.new
  rw [hpeers]
  exact ⟨htimer.state, htimer.savedState, htimer.savedConfig, htimer.config⟩

theorem Server.new_saved (ctx : Context) (i : Int) (b : Boot) : (Server.new ctx i b).Saved := by
  have hload := sameSaved_new ctx i b
  unfold Server.Saved
  rw [hload.savedState, hload.state]
  rfl

/-- A server that comes back from what it has saved goes by the same state and the same log. -/
theorem Server.Saved.restarted {s : Server} (h : s.Saved) (ctx : Context) (n : Nat) :
    (s.restarted ctx n).state = s.state ∧ (s.restarted ctx n).logStore = s.logStore := by
  obtain ⟨ps, k, hq⟩ := new_frame ctx s.id (s.reboot n)
  exact ⟨(hq.field Server.state).trans h, hq.field Server.logStore⟩

/-- What is saved is up to date, and was when requests were sent. -/
structure Cluster.Kept (c : Cluster) : Prop where
  server : ∀ i, (c.servers i).Saved
  rpc : ∀ rpc ∈ c.rpcs, rpc.creator.Saved

namespace Cluster.Kept

theorem start (ctx : Context) (b : Int → Boot) : (Cluster.start ctx b).Kept :=
  ⟨fun i => new_saved ctx i (b i), fun _ h => (List.not_mem_nil h).elim⟩

theorem update (h : c.Kept) {i : Int} {C : List SrvConfig → Prop} {o : List Effect} {s' : Server}
    (hr : Records C (c.servers i) o s') : (c.update i s' o).Kept where
  server j := by
    by_cases hji : j = i
    · subst hji
      rw [update_servers_self]
      exact hr.saved (h.server j)
    · rw [update_servers_ne c hji]
      exact h.server j
  rpc rpc hrpc := (mem_update_rpcs hrpc).elim (h.rpc rpc) (hr.sent (h.server i) rpc)

theorem savesIn_true (s : Server) (inp : Input) : inp.SavesIn (fun _ => True) s := by
  cases inp with
  | request => exact ⟨trivial, fun _ _ => trivial⟩
  | electionTimeout => exact fun _ => trivial
  | commitBg => exact fun _ _ => trivial
  | _ => trivial

theorem step (h : c.Kept) (e : Event) : (c.step ctx e).Kept := by
  unfold Cluster.step
  split
  next i inp k _ =>
    have hend := h.update (Durable.records_handle ctx (fun _ _ _ _ => trivial)
      (savesIn_true (c.servers i) inp))
    unfold Cluster.take
    dsimp only
    split
    · exact ⟨hend.server, hend.rpc⟩
    · exact hend
  next => exact h

theorem move (h : c.Kept) (a : Move) : (c.move ctx a).Kept := by
  cases a with
  | event e => exact h.step e
  | restart i n =>
    refine ⟨fun j => ?_, fun rpc hrpc => ?_⟩
    · by_cases hji : j = i
      · subst hji
        rw [Cluster.move, update_servers_self]
        exact new_saved ctx _ _
      · rw [Cluster.move, update_servers_ne c hji]
        exact h.server j
    · exact h.rpc rpc (rpcs_restart ctx c i n ▸ hrpc)

theorem moves (h : c.Kept) (ms : List Move) : (c.moves ctx ms).Kept :=
  inv_moves (C := fun _ _ => True) (fun _ a h _ => h.move a) h
    (meetsMoves_of_forall fun _ _ => trivial)

end Cluster.Kept

/-- **Nothing is forgotten.** Servers start from anything, and any events and restarts have
happened. A server that stops now comes back with the term, the vote and the log that it has, and a
server that had stopped as soon as it had sent a request would have come back with those that it had
when it sent it. -/
theorem restart_forgets_nothing (ctx : Context) (b : Int → Boot) (ms : List Move) (n : Nat) :
    (∀ i, (((((Cluster.start ctx b).moves ctx ms).servers i).restarted ctx n).state =
        (((Cluster.start ctx b).moves ctx ms).servers i).state ∧
      ((((Cluster.start ctx b).moves ctx ms).servers i).restarted ctx n).logStore =
        (((Cluster.start ctx b).moves ctx ms).servers i).logStore)) ∧
    ∀ rpc ∈ ((Cluster.start ctx b).moves ctx ms).rpcs,
      (rpc.creator.restarted ctx n).state = rpc.creator.state := by
  have hkept : ((Cluster.start ctx b).moves ctx ms).Kept := (Cluster.Kept.start ctx b).moves ms
  exact ⟨fun i => (hkept.server i).restarted ctx n,
    fun rpc hrpc => ((hkept.rpc rpc hrpc).restarted ctx n).1⟩

/-! ## Static clusters -/

/-- Moves of a static cluster. -/
def Move.Static (m : Members) : Move → Prop
  | event e => e.Static m
  | restart i _ => i ∈ m.ids

instance Move.decidableStatic (m : Members) : (a : Move) → Decidable (a.Static m)
  | event e => inferInstanceAs (Decidable (e.Static m))
  | restart i _ => inferInstanceAs (Decidable (i ∈ m.ids))

/-- What a static server saves is the static configuration. -/
theorem StaticServer.savesIn {s : Server} {inp : Input} (h : StaticServer m s)
    (hin : StaticInput m inp) : inp.SavesIn (· = m.servers) s := by
  cases inp with
  | request req now =>
    refine ⟨h.config, ?_⟩
    rintro c ⟨e, he, hc | ⟨sync, hsync, rfl⟩⟩
    · have hentry := hin.2 e he
      rwa [StaticEntry, hc] at hentry
    · have hentry := hin.2 e he
      rwa [StaticEntry, hsync] at hentry
  | electionTimeout =>
    intro hdown
    exact (hdown.ne' h.down).elim
  | commitBg =>
    intro c hc
    have hentry := h.entryAt (s.smCommitIndex + 1)
    rwa [StaticEntry, hc] at hentry
  | _ => trivial

/-- A static cluster whose servers can be constructed again. -/
structure Restartable (m : Members) (c : Cluster) : Prop where
  typed : ∀ srv ∈ m.servers, srv.Typed
  static : StaticCluster m c
  kept : c.Kept
  config : ∀ i ∈ m.ids, (c.servers i).savedConfig.servers = m.servers

namespace Restartable

variable {i : Int} {n : Nat}

theorem start {b : Int → Boot} (hm : ∀ srv ∈ m.servers, srv.Typed)
    (hb : ∀ i ∈ m.ids, StaticBoot m (b i)) : Restartable m (Cluster.start ctx b) where
  typed := hm
  static := staticCluster_start hb
  kept := .start ctx b
  config i hi := by
    rw [show ((Cluster.start ctx b).servers i).savedConfig = (b i).config from
      (sameSaved_new ctx i (b i)).savedConfig]
    exact (hb i hi).config

theorem boot (h : Restartable m c) (hi : i ∈ m.ids) (n : Nat) :
    StaticBoot m ((c.servers i).reboot n) :=
  ⟨h.config i hi, (h.static.server i hi).store, (h.static.server i hi).smSnapshot⟩

/-- What is saved of the static configuration is the static configuration. -/
theorem copiesIn (h : Restartable m c) : CopiesIn (· = m.servers) := by
  intro c c' hc hcopy
  rw [ClusterConfig.servers_of_copied (hc.symm ▸ h.typed) hcopy, hc]

/-- Static events save static configurations. -/
theorem config_step (h : Restartable m c) {e : Event} (he : e.Static m) {j : Int} (hj : j ∈ m.ids) :
    ((c.step ctx e).servers j).savedConfig.servers = m.servers := by
  unfold Cluster.step
  split
  next i inp k hin =>
    obtain ⟨hi, hinput⟩ := h.static.input he hin
    by_cases hji : j = i
    · subst hji
      have hrec := Durable.records_handle ctx h.copiesIn ((h.static.server j hi).savesIn hinput)
      rw [Cluster.take_servers]
      exact (hrec.config ⟨(h.static.server j hi).config, h.config j hj⟩).2
    · rw [Cluster.take_servers_ne ctx c inp k hji]
      exact h.config j hj
  next => exact h.config j hj

theorem restart (h : Restartable m c) (hi : i ∈ m.ids) (n : Nat) :
    Restartable m (c.move ctx (.restart i n)) := by
  have hid := h.static.id i hi
  have hboot := h.boot hi n
  have hother : ∀ j, j ≠ i → (c.move ctx (.restart i n)).servers j = c.servers j :=
    fun j hj => if_neg hj
  have hself :
      (c.move ctx (.restart i n)).servers i = Server.new ctx i ((c.servers i).reboot n) := by
    rw [Cluster.move, Cluster.update_servers_self, Server.restarted, hid]
  refine ⟨h.typed, ⟨fun j hj => ?_, fun j hj => ?_, fun rpc hrpc => ?_, ?_, ?_⟩, h.kept.move _,
    fun j hj => ?_⟩
  · by_cases hji : j = i
    · subst hji
      rw [hself]
      obtain ⟨ps, k, hq, -⟩ := hboot.new ctx j
      exact hq.field Server.id
    · rw [hother j hji]
      exact h.static.id j hj
  · by_cases hji : j = i
    · subst hji
      rw [hself]
      exact hboot.server hj
    · rw [hother j hji]
      exact h.static.server j hj
  · exact h.static.rpc rpc (Cluster.rpcs_restart ctx c i n ▸ hrpc)
  · simp [Cluster.move, Cluster.update, h.static.retries]
  · exact h.static.numbered.update i _ []
  · by_cases hji : j = i
    · subst hji
      rw [hself, (sameSaved_new ctx j _).savedConfig]
      exact h.config j hj
    · rw [hother j hji]
      exact h.config j hj

/-- An event of a static cluster, for any account that events keep. -/
theorem event (h : Restartable m c) {e : Event} (he : e.Static m)
    (hstatic : StaticCluster m (c.step ctx e)) : Restartable m (c.step ctx e) :=
  ⟨h.typed, hstatic, h.kept.step e, fun _ hj => h.config_step he hj⟩

end Restartable

/-- What a restart leaves of a static server: the term, the vote and the log. -/
structure Reborn (ctx : Context) (s s' : Server) : Prop where
  id : s'.id = s.id
  state : s'.state = s.state
  logStore : s'.logStore = s.logStore
  smLastSnapshot : s'.smLastSnapshot = s.smLastSnapshot
  lastSnapshot : s'.lastSnapshot = s.smLastSnapshot
  role : s'.role = .follower
  votesGranted : s'.votesGranted = 0
  electionCompleted : s'.electionCompleted = true
  sync : ∀ p ∈ s'.peers, p.snpSyncCtx = none

theorem Restartable.reborn (ctx : Context) {i : Int} (h : Restartable m c) (hi : i ∈ m.ids)
    (n : Nat) :
    Reborn ctx (c.servers i) ((c.move ctx (.restart i n)).servers i) ∧
      ((c.move ctx (.restart i n)).servers i).quickCommitIdx = n ∧
      ((c.move ctx (.restart i n)).servers i).smCommitIndex = n := by
  have hself : (c.move ctx (.restart i n)).servers i =
      Server.new ctx (c.servers i).id ((c.servers i).reboot n) :=
    Cluster.update_servers_self c i _ []
  rw [hself]
  obtain ⟨ps, k, hq, -, hps, -⟩ := (h.boot hi n).new ctx (c.servers i).id
  refine ⟨⟨hq.field Server.id, (hq.field Server.state).trans (h.kept.server i),
    hq.field Server.logStore, hq.field Server.smLastSnapshot, hq.field Server.lastSnapshot,
    hq.field Server.role, hq.field Server.votesGranted, hq.field Server.electionCompleted,
    fun p hp => ?_⟩, hq.field Server.quickCommitIdx, hq.field Server.smCommitIndex⟩
  obtain ⟨q, hq', hcore⟩ := hq.mem_peers hp
  rw [← Peer.field_eq hcore Peer.snpSyncCtx, hps q hq']
  rfl

/-! ## Elections -/

/-- A server that is reborn leaves the account of the votes as it is. -/
theorem Ballots.restart {v : Table} {i : Int} (h : Ballots m v c) (hr : Restartable m c)
    (hi : i ∈ m.ids) (n : Nat) : Ballots m v (c.move ctx (.restart i n)) := by
  obtain ⟨hborn, -⟩ := hr.reborn ctx hi n
  have hother : ∀ j, j ≠ i → (c.move ctx (.restart i n)).servers j = c.servers j :=
    fun j hj => if_neg hj
  refine ⟨fun j hj => ?_, fun rpc resp hresp htype => ?_, fun j hj => ?_, fun j hj hl => ?_⟩
  · by_cases hji : j = i
    · subst hji
      have hterm := congrArg SrvState.term hborn.state
      have hvote := congrArg SrvState.votedFor hborn.state
      constructor
      · rw [Server.term, Server.votedFor, hterm, hvote]
        exact (h.recorded j hj).current
      · intro t ht
        rw [Server.term, hterm] at ht
        exact (h.recorded j hj).future t ht
    · rw [hother j hji]
      exact h.recorded j hj
  · exact h.reply rpc resp (hresp.of_update hr.static.numbered) htype
  · by_cases hji : j = i
    · subst hji
      exact ⟨[], List.nodup_nil, fun _ hx => (List.not_mem_nil hx).elim, hborn.votesGranted.symm⟩
    · rw [hother j hji]
      exact h.counted j hj
  · by_cases hji : j = i
    · subst hji
      cases hborn.role.symm.trans hl
    · rw [hother j hji] at hl ⊢
      exact h.leader j hj hl

/-- The account of the votes is kept along runs with restarts. -/
theorem ballots_moves {v : Table} (hc : Restartable m c) (hv : Ballots m v c) {ms : List Move}
    (hms : ∀ a ∈ ms, a.Static m) :
    Restartable m (c.moves ctx ms) ∧ ∃ v', v.Le v' ∧ Ballots m v' (c.moves ctx ms) := by
  refine Cluster.inv_moves (I := fun c => Restartable m c ∧ ∃ v', v.Le v' ∧ Ballots m v' c)
    (fun c a h ha => ?_) ⟨hc, v, .refl v, hv⟩ (Cluster.meetsMoves_of_forall hms)
  obtain ⟨hr, v', hle, hb⟩ := h
  cases a with
  | event e =>
    have he : ∀ e' ∈ [e], e'.Static m := List.forall_mem_singleton.2 ha
    obtain ⟨hstatic, v'', hle', hb'⟩ := ballots_run ctx hr.static hb he
    exact ⟨hr.event ha hstatic, v'', hle.trans hle', hb'⟩
  | restart i n => exact ⟨hr.restart ha n, v', hle, hb.restart hr ha n⟩

theorem three_typed : ∀ srv ∈ three.servers, srv.Typed := by decide

/-- Server 1 votes for itself, stops, comes back and stands again; it is elected with the vote of
server 2, which has stopped and come back since it gave it. -/
def electAcrossRestarts : List Move :=
  [.event (.electionTimeout 1), .restart 1 0, .event (.electionTimeout 1), .event (.deliver 2 0),
    .restart 2 0, .event (.respond 0 0)]

/-- Without snapshots a server never has one. -/
theorem Micro.smLastSnapshot_none {inp : Input} {s₀ s s' : Server} {o : List Effect}
    (hm : Micro ctx inp s₀ s o s') (hoff : ctx.params.snapshotDistance = 0)
    (hinst : ∀ snp, ¬inp.Installs snp) (h : s.smLastSnapshot = none) :
    s'.smLastSnapshot = none := by
  cases hm.ledgerStep with
  | same hs' => exact (congrArg Ledger.smLastSnapshot hs').trans h
  | snapshot _ hdist => exact (hdist hoff).elim
  | installCompact hin | installApply hin | installDone hin => exact (hinst _ hin).elim
  | saveInitial _ _ hs' | client _ _ _ _ hs' | confAppend _ _ hs' | merge _ _ _ _ _ _ _ _ hs'
  | pack _ _ _ _ _ hs' | commitMajority _ _ _ _ _ _ _ hs' | commitAlone _ _ _ hs'
  | commitFollower _ _ _ _ _ _ _ _ _ hs' | packCommit _ _ _ hs' | process _ _ _ _ hs'
  | confApplied _ hs' | abandon _ _ _ _ hs' =>
    rw [hs']
    exact h
  | join _ _ _ _ _ hs' =>
    rw [hs']
    exact h

/-- No server has a snapshot. -/
def Cluster.Bare (m : Members) (c : Cluster) : Prop :=
  ∀ i ∈ m.ids, (c.servers i).smLastSnapshot = none

namespace Follows

variable {H : LogHistory}

theorem bare_step (h : Follows m ctx H c) (hoff : ctx.params.snapshotDistance = 0)
    (hc : StaticCluster m c) (hbare : c.Bare m) {e : Event} (he : e.Static m) :
    (c.step ctx e).Bare m := by
  refine (static_step (J := Cluster.Bare m) (K := fun _ _ _ => True) he
    (fun _ _ _ _ => trivial) hc hbare (fun c' i inp o s' ht _ hJ hm j hj => ?_)
    fun _ _ _ _ _ _ _ hJ _ _ => hJ).2
  by_cases hji : j = i
  · subst hji
    rw [Cluster.update_servers_self]
    refine hm.smLastSnapshot_none hoff (fun snp => ?_) (hJ j hj)
    exact h.not_installs ⟨ht.start, ht.start, .refl c, ht.mem, ht.input, ht.sent⟩
  · rw [Cluster.update_servers_ne c' hji]
    exact hJ j hj

/-- A server that is reborn follows the history, which stays as it is. -/
theorem restart {i : Int} (h : Follows m ctx H c) (hoff : ctx.params.snapshotDistance = 0)
    (hr : Restartable m c) (hbare : c.Bare m) (hi : i ∈ m.ids) (n : Nat) :
    Follows m ctx H (c.move ctx (.restart i n)) := by
  obtain ⟨hborn, -⟩ := hr.reborn ctx hi n
  refine ⟨h.base, h.ballots.restart hr hi n, fun j hj => ?_, fun rpc hrpc => ?_,
    fun rpc resp hresp => h.response rpc resp (hresp.of_update hr.static.numbered)⟩
  · by_cases hji : j = i
    · subst hji
      have htrack := h.server j hj
      have hterm : ((c.move ctx (.restart j n)).servers j).term = (c.servers j).term :=
        congrArg SrvState.term hborn.state
      have hsnp := hborn.smLastSnapshot.trans (hbare j hj)
      refine ⟨htrack.term.trans hterm.symm, ?_, fun hl => ?_, fun _ _ => hborn.electionCompleted,
        fun hl => ?_, fun hv => (hv.ne' hborn.votesGranted).elim⟩
      · exact
          { holds := hborn.logStore ▸ htrack.stored.holds
            compacted := .inl (hborn.logStore ▸ htrack.stored.whole hoff)
            snapshot := fun snp hs => by cases hsnp.symm.trans hs
            empty := fun snp hs => by
              rw [hborn.lastSnapshot, hbare j hj] at hs
              cases hs
            sync := hborn.sync }
      · cases hborn.role.symm.trans hl
      · cases hborn.role.symm.trans hl
    · rw [Cluster.move, Cluster.update_servers_ne c hji]
      exact h.server j hj
  · exact h.request rpc (Cluster.rpcs_restart ctx c i n ▸ hrpc)

end Follows

/-- A static cluster without snapshots that follows a history and whose servers can come back. -/
structure Resumes (m : Members) (ctx : Context) (H : LogHistory) (c : Cluster) : Prop where
  restartable : Restartable m c
  follows : Follows m ctx H c
  bare : c.Bare m

theorem bare_start {b : Int → Boot} (hb : ∀ i ∈ m.ids, FreshBoot m (b i)) :
    (Cluster.start ctx b).Bare m := by
  intro i hi
  obtain ⟨ps, k, hq⟩ := new_frame ctx i (b i)
  exact (hq.field Server.smLastSnapshot).trans (hb i hi).snapshot

theorem Restartable.bare_restart {i : Int} (h : Restartable m c) (hbare : c.Bare m) (hi : i ∈ m.ids)
    (n : Nat) : (c.move ctx (.restart i n)).Bare m := by
  intro j hj
  by_cases hji : j = i
  · subst hji
    exact (h.reborn ctx hi n).1.smLastSnapshot.trans (hbare j hj)
  · rw [Cluster.move, Cluster.update_servers_ne c hji]
    exact hbare j hj

theorem resumes_start {b : Int → Boot} (hm : ∀ srv ∈ m.servers, srv.Typed)
    (hb : ∀ i ∈ m.ids, FreshBoot m (b i)) :
    Resumes m ctx (startHistory ctx b) (Cluster.start ctx b) :=
  ⟨.start hm fun i hi => (hb i hi).static, follows_start hb, bare_start hb⟩

/-- Runs with restarts follow histories. -/
theorem resumes_moves {H : LogHistory} (hoff : ctx.params.snapshotDistance = 0)
    (h : Resumes m ctx H c) {ms : List Move} (hms : ∀ a ∈ ms, a.Static m) :
    ∃ H', History.Evolves m.ids LogEntry.term (fun _ _ => True) H H' ∧
      Resumes m ctx H' (c.moves ctx ms) := by
  refine Cluster.inv_moves (I := fun c => ∃ H', History.Evolves m.ids LogEntry.term
    (fun _ _ => True) H H' ∧ Resumes m ctx H' c) (fun c a h ha => ?_) ⟨H, .refl, h⟩
    (Cluster.meetsMoves_of_forall hms)
  obtain ⟨H', hev, hr⟩ := h
  cases a with
  | event e =>
    have he : ∀ e' ∈ [e], e'.Static m := List.forall_mem_singleton.2 ha
    obtain ⟨hstatic, H'', hev', hf⟩ := follows_run_whole hoff hr.restartable.static hr.follows he
    exact ⟨H'', hev.trans hev', hr.restartable.event ha hstatic, hf,
      hr.follows.bare_step hoff hr.restartable.static hr.bare ha⟩
  | restart i n =>
    exact ⟨H', hev, hr.restartable.restart ha n,
      hr.follows.restart hoff hr.restartable hr.bare ha n,
      hr.restartable.bare_restart hr.bare ha n⟩

/-- Server 1 is elected as before, its first entry reaches server 2, and server 2 stops and comes
back. -/
def appendAcrossRestarts : List Move :=
  electAcrossRestarts ++ [.event (.deliver 4 0), .restart 2 0]

namespace Cluster

/-- The cluster, without the record of what has been processed. -/
def unprocessed (c : Cluster) : Cluster := { c with processed := [] }

/-- What happens does not depend on the record. -/
theorem step_unprocessed (ctx : Context) (c : Cluster) (e : Event) :
    c.step ctx e = { c.unprocessed.step ctx e with
      processed := c.processed ++ (c.unprocessed.step ctx e).processed } := by
  have hin : e.input c.unprocessed = e.input c := by cases e <;> rfl
  unfold step
  rw [hin]
  split
  next i inp k _ =>
    unfold take
    dsimp only [unprocessed]
    split <;> rfl
  next => simp [unprocessed]

end Cluster

/-- Commits are safe, and the state machine of a server that comes back is not ahead of what the
server had applied. -/
def Move.CommitsSafely (m : Members) (c : Cluster) : Move → Prop
  | event e => e.CommitsSafely m c
  | restart i n => n ≤ (c.servers i).smCommitIndex

instance (m : Members) (c : Cluster) : (a : Move) → Decidable (a.CommitsSafely m c)
  | .event e => inferInstanceAs (Decidable (e.CommitsSafely m c))
  | .restart i n => inferInstanceAs (Decidable (n ≤ (c.servers i).smCommitIndex))

/-- The commit indices are safe, and what has been processed is settled. A server that comes back
may process entries again. -/
structure SoundAcross (m : Members) (ctx : Context) (H : LogHistory) (c : Cluster) : Prop where
  restartable : Restartable m c
  sound : Sound m ctx H c.unprocessed
  bare : c.Bare m
  processed : ∀ p ∈ c.processed, History.Settled m.ids LogEntry.term H (p.2.1 - 1) p.2.2

namespace SoundAcross

variable {H : LogHistory}

theorem event (h : SoundAcross m ctx H c) (hmany : 1 < m.ids.length)
    (hoff : ctx.params.snapshotDistance = 0) {e : Event} (he : e.Static m)
    (hsafe : e.CommitsSafely m c) : ∃ H', History.Evolves m.ids LogEntry.term
      (History.UpToDate LogEntry.term) H H' ∧ SoundAcross m ctx H' (c.step ctx e) := by
  have hstatic : StaticCluster m c.unprocessed :=
    ⟨h.restartable.static.id, h.restartable.static.server, h.restartable.static.rpc,
      h.restartable.static.retries, h.restartable.static.numbered⟩
  have hsafe' : e.CommitsSafely m c.unprocessed := by cases e <;> exact hsafe
  obtain ⟨hc', H', hev, hs'⟩ := sound_step hmany hstatic h.sound he
    (hsafe'.allowed (h.sound.sparesCompacted hstatic hoff e) he)
  have hbare := h.sound.follows.bare_step hoff hstatic h.bare he
  have hstep := Cluster.step_unprocessed ctx c e
  refine ⟨H', hev, h.restartable.event he ?_, ?_, ?_, ?_⟩
  · rw [hstep]
    exact ⟨hc'.id, hc'.server, hc'.rpc, hc'.retries, hc'.numbered⟩
  · rw [hstep]
    exact ⟨⟨hs'.follows.base, ⟨hs'.follows.ballots.recorded, hs'.follows.ballots.reply,
      hs'.follows.ballots.counted, hs'.follows.ballots.leader⟩, hs'.follows.server,
      hs'.follows.request, hs'.follows.response⟩, hs'.strong, hs'.safe, hs'.request, hs'.applied,
      fun _ hp => (List.not_mem_nil hp).elim⟩
  · rw [hstep]
    exact hbare
  · intro p hp
    rw [hstep] at hp
    rcases List.mem_append.1 hp with hp | hp
    · exact (h.processed p hp).evolves hev
    · obtain ⟨hmem, hpos, hle, hget⟩ := hs'.processed p hp
      exact (hs'.safe p.1 hmem).settled (by omega) hget

theorem restart {i : Int} {n : Nat} (h : SoundAcross m ctx H c)
    (hoff : ctx.params.snapshotDistance = 0) (hi : i ∈ m.ids)
    (hn : n ≤ (c.servers i).smCommitIndex) : SoundAcross m ctx H (c.move ctx (.restart i n)) := by
  obtain ⟨hborn, hquick, hsm⟩ := h.restartable.reborn ctx hi n
  have hun : Restartable m c.unprocessed :=
    ⟨h.restartable.typed, ⟨h.restartable.static.id, h.restartable.static.server,
      h.restartable.static.rpc, h.restartable.static.retries, h.restartable.static.numbered⟩,
      ⟨h.restartable.kept.server, h.restartable.kept.rpc⟩, h.restartable.config⟩
  have hf := h.sound.follows.restart hoff hun h.bare hi n
  have happ := h.sound.applied i hi
  refine ⟨h.restartable.restart hi n, ⟨hf, h.sound.strong, fun j hj => ?_, fun rpc hrpc => ?_,
    fun j hj => ?_, fun _ hp => (List.not_mem_nil hp).elim⟩, h.restartable.bare_restart h.bare hi n,
    fun p hp => ?_⟩
  · by_cases hji : j = i
    · subst hji
      refine (h.sound.safe j hj).of_le ?_
      show ((c.move ctx (.restart j n)).servers j).quickCommitIdx ≤ _
      exact hquick.trans_le (hn.trans happ.1)
    · rw [Cluster.unprocessed, Cluster.move, Cluster.update_servers_ne c hji]
      exact h.sound.safe j hj
  · exact h.sound.request rpc (Cluster.rpcs_restart ctx c i n ▸ hrpc)
  · by_cases hji : j = i
    · subst hji
      exact ⟨(hsm.trans hquick.symm).le, hsm.trans_le (hn.trans happ.2)⟩
    · rw [Cluster.unprocessed, Cluster.move, Cluster.update_servers_ne c hji]
      exact h.sound.applied j hj
  · rcases Cluster.mem_update_processed hp with hp | ⟨-, hp⟩
    · exact h.processed p hp
    · exact (List.not_mem_nil hp).elim

theorem start {b : Int → Boot} (hm : ∀ srv ∈ m.servers, srv.Typed)
    (hb : ∀ i ∈ m.ids, FreshBoot m (b i)) :
    SoundAcross m ctx (startHistory ctx b) (Cluster.start ctx b) :=
  ⟨.start hm fun i hi => (hb i hi).static, sound_start hb, bare_start hb,
    fun _ hp => (List.not_mem_nil hp).elim⟩

/-- Runs with restarts are sound if their commits are safe. -/
theorem moves (h : SoundAcross m ctx H c) (hmany : 1 < m.ids.length)
    (hoff : ctx.params.snapshotDistance = 0) {ms : List Move}
    (hms : c.MeetsMoves ctx (fun c a => a.Static m ∧ a.CommitsSafely m c) ms) :
    ∃ H', History.Evolves m.ids LogEntry.term (History.UpToDate LogEntry.term) H H' ∧
      SoundAcross m ctx H' (c.moves ctx ms) := by
  refine Cluster.inv_moves (I := fun c => ∃ H', History.Evolves m.ids LogEntry.term
    (History.UpToDate LogEntry.term) H H' ∧ SoundAcross m ctx H' c)
    (C := fun c a => a.Static m ∧ a.CommitsSafely m c) (fun c a h ha => ?_) ⟨H, .refl, h⟩ hms
  obtain ⟨H₁, hev₁, h₁⟩ := h
  cases a with
  | event e =>
    obtain ⟨H₂, hev₂, h₂⟩ := h₁.event hmany hoff ha.1 ha.2
    exact ⟨H₂, hev₁.trans hev₂, h₂⟩
  | restart i n => exact ⟨H₁, hev₁, h₁.restart hoff ha.1 ha.2⟩

end SoundAcross

/-- Server 1 is elected, commits its first entry with server 2 and processes it. It stops and comes
back with a state machine that has lost everything, is elected again, commits an entry of its new
term with server 3 and processes the first entry again. -/
def processAcrossRestarts : List Move :=
  electOne.map .event ++ [.event (.deliver 2 0), .event (.respond 1 0), .event (.commitBg 1),
    .restart 1 0, .event (.electionTimeout 1), .event (.deliver 6 0), .event (.respond 2 0),
    .event (.client 1 [[7, 0]] 0), .event (.deliver 8 0), .event (.respond 3 0), .event (.deliver 9 0),
    .event (.respond 4 0), .event (.commitBg 1)]

/-- Server 1 is elected and commits its first entry with server 2. -/
def commitFirst : List Move :=
  electOne.map .event ++ [.event (.deliver 2 0), .event (.respond 1 0)]

/-- Server 1 stops and comes back, and server 2 is elected with the vote of server 3. -/
def electSecond : List Move :=
  [.restart 1 0, .event (.electionTimeout 2), .event (.deliver 6 0), .event (.respond 2 0)]

end EnclaveRaft
