import EnclaveRaft.Objects

/-!
# Adopting a configuration

What `reconfigure` leaves of a server. The servers to add are collected before anything changes,
with the repetitions of the configuration, and the peers to remove are looked up in the
configuration, so the three loops together make the peer map match it.

The number of a peer object stands for its address: a new object has one that no peer has.
-/

namespace EnclaveRaft

open Act Server

variable {s : Server}

/-! ## Adding one server -/

theorem map_update_of_lt {n : Nat} {ps : List Peer} (hps : ∀ p ∈ ps, p.uid < n)
    (f : Peer → Peer) :
    ps.map (fun p => if p.uid = n then f p else p) = ps := by
  rw [List.map_congr_left (g := fun p => p) fun p hp => if_neg (hps p hp).ne, List.map_id']

/-- What the loop does to a server it adds, heartbeat and index together. -/
theorem addConfigured_update (ctx : Context) (s : Server) (srv : SrvConfig) :
    ∃ f : Peer → Peer, (∀ p, (f p).uid = p.uid ∧ (f p).config = p.config) ∧
      (addConfigured ctx s srv).peers =
        (s.addPeer ((Peer.new ctx s.nextUid srv).setNextLogIdx s.nextSlot)).peers.map
          fun p => if p.uid = s.nextUid then f p else p := by
  have hcomp (ps : List Peer) (f g : Peer → Peer) (hf : ∀ p, (f p).uid = p.uid) :
      (ps.map fun p => if p.uid = s.nextUid then f p else p).map
          (fun p => if p.uid = s.nextUid then g p else p) =
        ps.map fun p => if p.uid = s.nextUid then g (f p) else p := by
    rw [List.map_map]
    apply List.map_congr_left
    intro p _
    by_cases hp : p.uid = s.nextUid <;> simp [hp, hf]
  have hbeat (p : Peer) :
      ({ (p.enableHb true).resumeHbSpeed with hbTask := {} } : Peer).uid = p.uid ∧
        ({ (p.enableHb true).resumeHbSpeed with hbTask := {} } : Peer).config = p.config :=
    ⟨rfl, rfl⟩
  unfold addConfigured
  dsimp only
  split
  · split
    next j _ =>
      split
      · exact ⟨fun p => ({ (p.enableHb true).resumeHbSpeed with hbTask := {} } : Peer).setNextLogIdx
          j.nextLogIdx, hbeat, hcomp _ _ (·.setNextLogIdx j.nextLogIdx) fun p => (hbeat p).1⟩
      · exact ⟨_, hbeat, rfl⟩
    next => exact ⟨_, hbeat, rfl⟩
  · exact ⟨fun p => p, fun _ => ⟨rfl, rfl⟩, by simp⟩

/-- The peers created so far, all before object number `n`, one for each id. -/
structure PeerMap (ps : List Peer) (n : Nat) : Prop where
  nodup : (ps.map Peer.id).Nodup
  created : ∀ p ∈ ps, p.uid < n

/-- A server is added unless its id is present. -/
theorem addConfigured_peers (ctx : Context) (h : PeerMap s.peers s.nextUid) (srv : SrvConfig) :
    PeerMap (addConfigured ctx s srv).peers (addConfigured ctx s srv).nextUid ∧
      ∃ qs, (addConfigured ctx s srv).peers = s.peers ++ qs ∧
        ∀ i, i ∈ (s.peers ++ qs).map Peer.id ↔ i ∈ s.peers.map Peer.id ∨ i = srv.id := by
  obtain ⟨f, hf, hpeers⟩ := addConfigured_update ctx s srv
  have hold : ∀ p ∈ s.peers, p.uid < s.nextUid + 1 := fun p hp =>
    (h.created p hp).trans (Nat.lt_succ_self _)
  by_cases hfind : (s.findPeer srv.id).isSome
  · have hsame : (addConfigured ctx s srv).peers = s.peers := by
      rw [hpeers, addPeer, if_pos (by exact hfind), map_update_of_lt h.created]
    rw [hsame, nextUid_addConfigured]
    refine ⟨⟨h.nodup, hold⟩, [], by simp, fun i => ?_⟩
    have hmem : srv.id ∈ s.peers.map Peer.id := by
      simpa [findPeer, List.find?_isSome] using hfind
    rw [List.append_nil]
    constructor
    · exact .inl
    · intro hi
      rcases hi with hi | hi
      · exact hi
      · rw [hi]
        exact hmem
  · have hnew : (addConfigured ctx s srv).peers =
        s.peers ++ [f ((Peer.new ctx s.nextUid srv).setNextLogIdx s.nextSlot)] := by
      rw [hpeers, addPeer, if_neg (by exact hfind), List.map_append, map_update_of_lt h.created]
      simp [Peer.new, Peer.setNextLogIdx]
    have hid : (f ((Peer.new ctx s.nextUid srv).setNextLogIdx s.nextSlot)).id = srv.id :=
      congrArg SrvConfig.id (hf _).2
    have habs : srv.id ∉ s.peers.map Peer.id := by
      simpa [findPeer, List.find?_isSome] using hfind
    rw [hnew, nextUid_addConfigured]
    refine ⟨⟨?_, fun p hp => ?_⟩, _, rfl, fun i => by simp [hid]⟩
    · rw [List.map_append, List.map_singleton, hid, List.nodup_append]
      refine ⟨h.nodup, List.nodup_singleton _, fun a ha b hb => ?_⟩
      rw [List.mem_singleton.1 hb]
      exact fun heq => habs (heq ▸ ha)
    · rcases List.mem_append.1 hp with hp | hp
      · exact hold p hp
      · rw [List.mem_singleton.1 hp, (hf _).1]
        exact Nat.lt_succ_self _

/-! ## The loops -/

/-- The loop that adds servers leaves the peers in place and brings in the ids of the list, each
once. -/
theorem foldl_addConfigured_peers (ctx : Context) (added : List SrvConfig)
    (h : PeerMap s.peers s.nextUid) :
    ∃ qs, (added.foldl (addConfigured ctx) s).peers = s.peers ++ qs ∧
      ((s.peers ++ qs).map Peer.id).Nodup ∧
      ∀ i, i ∈ (s.peers ++ qs).map Peer.id ↔
        i ∈ s.peers.map Peer.id ∨ i ∈ added.map SrvConfig.id := by
  induction added generalizing s with
  | nil => exact ⟨[], by simp, by simpa using h.nodup, by simp⟩
  | cons srv added ih =>
    obtain ⟨h₁, qs₁, heq₁, hids₁⟩ := addConfigured_peers ctx h srv
    obtain ⟨qs₂, heq₂, hnodup, hids₂⟩ := ih h₁
    rw [heq₁, List.append_assoc] at heq₂ hnodup hids₂
    refine ⟨qs₁ ++ qs₂, heq₂, hnodup, fun i => ?_⟩
    rw [hids₂, hids₁, List.map_cons, List.mem_cons, or_assoc]

/-- The servers that a configuration adds. -/
def addedBy (newConfig : ClusterConfig) (s : Server) : List SrvConfig :=
  newConfig.servers.filter fun srv => (s.findPeer srv.id).isNone ∧ srv.id ≠ s.id

theorem mem_addedBy {newConfig : ClusterConfig} {i : Int} :
    i ∈ (addedBy newConfig s).map SrvConfig.id ↔
      i ∈ newConfig.ids ∧ i ∉ s.peers.map Peer.id ∧ i ≠ s.id := by
  simp only [addedBy, ClusterConfig.ids, findPeer, List.mem_map, List.mem_filter]
  constructor
  · rintro ⟨srv, ⟨hsrv, hnew⟩, rfl⟩
    have hnew' : (s.peers.find? fun p => p.id = srv.id).isNone ∧ srv.id ≠ s.id := by
      simpa using hnew
    exact ⟨⟨srv, hsrv, rfl⟩, by simpa using hnew'.1, hnew'.2⟩
  · rintro ⟨⟨srv, hsrv, rfl⟩, hpeer, hid⟩
    exact ⟨srv, ⟨hsrv, by simpa [hid] using hpeer⟩, rfl⟩

/-- The server after the loops that add and remove peers. -/
def matched (ctx : Context) (newConfig : ClusterConfig) (s : Server) : Server :=
  dropUnconfigured newConfig ((addedBy newConfig s).foldl (addConfigured ctx) s)

theorem matched_frame (ctx : Context) (newConfig : ClusterConfig) (s : Server) :
    ∃ ps j n, matched ctx newConfig s = { s with peers := ps, srvToJoin := j, nextUid := n } := by
  obtain ⟨ps, j, n, hfold⟩ := foldl_addConfigured_frame ctx (addedBy newConfig s) s
  exact ⟨_, j, n, by rw [matched, hfold, dropUnconfigured]⟩

/-- The old peers that stay, and one new peer for each other server of the configuration. -/
theorem matched_peers (ctx : Context) (newConfig : ClusterConfig)
    (h : PeerMap s.peers s.nextUid) (hself : s.id ∉ s.peers.map Peer.id) :
    ((matched ctx newConfig s).peers.map Peer.id).Nodup ∧
      (∀ i, i ∈ (matched ctx newConfig s).peers.map Peer.id ↔ i ∈ newConfig.ids ∧ i ≠ s.id) ∧
      ∀ p ∈ s.peers, ∀ p' ∈ (matched ctx newConfig s).peers, p'.id = p.id → p' = p := by
  obtain ⟨qs, heq, hnodup, hids⟩ := foldl_addConfigured_peers ctx (addedBy newConfig s) h
  have hpeers : (matched ctx newConfig s).peers =
      (s.peers ++ qs).filter fun p => (newConfig.getServer p.id).isSome := by
    rw [matched, dropUnconfigured, heq]
  have hsub : (matched ctx newConfig s).peers.Sublist (s.peers ++ qs) := by
    rw [hpeers]
    exact List.filter_sublist
  refine ⟨hnodup.sublist (hsub.map _), fun i => ?_, fun p hp p' hp' hid => ?_⟩
  · have hmem : i ∈ (matched ctx newConfig s).peers.map Peer.id ↔
        i ∈ (s.peers ++ qs).map Peer.id ∧ i ∈ newConfig.ids := by
      rw [hpeers]
      simp only [List.mem_map, List.mem_filter, ClusterConfig.getServer_isSome]
      constructor
      · rintro ⟨p, ⟨hp, hc⟩, rfl⟩
        exact ⟨⟨p, hp, rfl⟩, hc⟩
      · rintro ⟨⟨p, hp, rfl⟩, hc⟩
        exact ⟨p, ⟨hp, hc⟩, rfl⟩
    rw [hmem, hids, mem_addedBy]
    -- the server itself is neither among its peers nor added
    constructor
    · rintro ⟨hi | ⟨_, _, hne⟩, hc⟩
      · exact ⟨hc, fun heq => hself (heq ▸ hi)⟩
      · exact ⟨hc, hne⟩
    · rintro ⟨hc, hne⟩
      by_cases hi : i ∈ s.peers.map Peer.id
      · exact ⟨.inl hi, hc⟩
      · exact ⟨.inr ⟨hc, hi, hne⟩, hc⟩
  · exact List.inj_on_of_nodup_map hnodup (hsub.subset hp') (List.mem_append_left _ hp) hid

theorem reconfigure_apply (ctx : Context) (newConfig : ClusterConfig) (s : Server) :
    reconfigure ctx newConfig s =
      (if s.id ∉ newConfig.ids ∧ s.catchingUp = false then
        (do saveConfig newConfig; emit (.systemExit 0) : M Unit)
      else modify fun s => { s with config := newConfig, configShared := false })
        (matched ctx newConfig s) := by
  obtain ⟨ps, j, n, hframe⟩ := matched_frame ctx newConfig s
  have hself : (newConfig.getServer (matched ctx newConfig s).id).isNone ∧
      ¬(matched ctx newConfig s).catchingUp ↔ s.id ∉ newConfig.ids ∧ s.catchingUp = false := by
    rw [hframe, ← ClusterConfig.getServer_isSome]
    simp
  have hloops : reconfigure ctx newConfig s =
      (if (newConfig.getServer (matched ctx newConfig s).id).isNone ∧
          ¬(matched ctx newConfig s).catchingUp then
        (do saveConfig newConfig; emit (.systemExit 0) : M Unit)
      else modify fun s => { s with config := newConfig, configShared := false })
        (matched ctx newConfig s) := rfl
  simp only [hloops, hself]

/-- The server has adopted the configuration: its peers are the servers of the configuration other
than itself, however often an id is repeated, and a peer that was there keeps its indices. The
configuration is the new one, unless the server is removed while it is not catching up: then the
old one stays and the new one has been saved. -/
def Reconfigured (ctx : Context) (newConfig : ClusterConfig) (s : Server) : Prop :=
  ∃ s' o, reconfigure ctx newConfig s = ⟨.ok (), s', o⟩ ∧
    (s'.peers.map Peer.id).Nodup ∧
    (∀ i, i ∈ s'.peers.map Peer.id ↔ i ∈ newConfig.ids ∧ i ≠ s.id) ∧
    (∀ p ∈ s.peers, ∀ p' ∈ s'.peers, p'.id = p.id →
      p'.nextLogIdx = p.nextLogIdx ∧ p'.matchedIdx = p.matchedIdx) ∧
    (s.id ∉ newConfig.ids ∧ s.catchingUp = false →
      s'.config = s.config ∧ s'.savedConfig = newConfig) ∧
    (¬(s.id ∉ newConfig.ids ∧ s.catchingUp = false) → s'.config = newConfig)

/-- What a removed server saves is the configuration it was given. -/
theorem ClusterConfig.copied_eq_self {c : ClusterConfig} (h : c.Storable) (hc : c.Typed) :
    c.copied = some c := by
  rw [h.copied_eq, UInt64.toNat_ofNat_of_lt' hc.logIdx, UInt64.toNat_ofNat_of_lt' hc.prevLogIdx]

/-- **Reconfiguration.** Whatever the role and the server list, `reconfigure` adopts the
configuration, unless it removes a server that is not catching up and the configuration cannot be
saved: a server of it has no endpoint, or it does not fit into a buffer. -/
theorem reconfigure_matches (ctx : Context) (newConfig : ClusterConfig) (s : Server)
    (hpeers : PeerMap s.peers s.nextUid) (hself : s.id ∉ s.peers.map Peer.id)
    (htyped : newConfig.Typed) :
    Reconfigured ctx newConfig s ↔ (s.id ∉ newConfig.ids ∧ s.catchingUp = false →
      newConfig.HasEndpoints ∧ newConfig.encodedSize < 2 ^ 31) := by
  obtain ⟨hnodup, hids, hkeep⟩ := matched_peers ctx newConfig hpeers hself
  have hkept : ∀ p ∈ s.peers, ∀ p' ∈ (matched ctx newConfig s).peers, p'.id = p.id →
      p'.nextLogIdx = p.nextLogIdx ∧ p'.matchedIdx = p.matchedIdx := by
    intro p hp p' hp' hid
    rw [hkeep p hp p' hp' hid]
    exact ⟨rfl, rfl⟩
  obtain ⟨ps, j, n, hframe⟩ := matched_frame ctx newConfig s
  have hrun := reconfigure_apply ctx newConfig s
  by_cases hremoved : s.id ∉ newConfig.ids ∧ s.catchingUp = false
  · rw [if_pos hremoved, saveConfig] at hrun
    constructor
    · rintro ⟨s', o, hok, -⟩ -
      rw [hok] at hrun
      cases hcopied : newConfig.copied with
      | none =>
        rw [hcopied] at hrun
        cases congrArg Outcome.result hrun
      | some saved =>
        have hstore := ClusterConfig.storable_of_copied htyped.servers hcopied
        exact ⟨hstore.hasEndpoints, hstore.fits⟩
    · intro h
      have hstore : newConfig.Storable := ⟨htyped.servers, (h hremoved).1, (h hremoved).2⟩
      rw [ClusterConfig.copied_eq_self hstore htyped] at hrun
      refine ⟨_, _, hrun, hnodup, hids, hkept, fun _ => ⟨?_, rfl⟩, fun hn => absurd hremoved hn⟩
      show (matched ctx newConfig s).config = s.config
      rw [hframe]
  · rw [if_neg hremoved] at hrun
    refine iff_of_true ?_ fun h => absurd h hremoved
    exact ⟨_, _, hrun, hnodup, hids, hkept, fun h => absurd h hremoved, fun _ => rfl⟩

/-- Server 1 among servers 2 and 3. -/
def amongThree : Server :=
  Server.new {} 1 { config := { servers := [srvAt 1, srvAt 2, srvAt 3] } }

/-- A configuration without server 1, in which server 4 stands twice. -/
def withoutOne : ClusterConfig :=
  { logIdx := 7, servers := [srvAt 3, srvAt 4, ⟨4, [1]⟩] }

theorem reconfigure_matches_removed : Reconfigured {} withoutOne amongThree :=
  (reconfigure_matches {} withoutOne amongThree ⟨by decide, by decide⟩ (by decide)
    (by decide)).2 fun _ => ⟨by decide, by decide⟩

/-- A removed server cannot save a configuration with an empty endpoint: it throws before it exits,
and what was saved before stays. -/
theorem reconfigure_unsaved :
    (reconfigure {} { logIdx := 7, servers := [⟨3, []⟩] } amongThree).result.isOk = false ∧
      (reconfigure {} { logIdx := 7, servers := [⟨3, []⟩] } amongThree).out = [] ∧
      (reconfigure {} { logIdx := 7, servers := [⟨3, []⟩] } amongThree).state.savedConfig =
        amongThree.savedConfig := by
  decide +kernel

end EnclaveRaft
