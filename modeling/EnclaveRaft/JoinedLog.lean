import EnclaveRaft.Removed
import EnclaveRaft.SnapshotOrder
import EnclaveRaft.Logs
import EnclaveRaft.Provenance

/-!
# The log of a server that has joined

A server that accepts an invitation keeps its log, and applies it again from the beginning. What the
leader then sends it goes behind that log: a log pack begins at the end of it, wherever that is. So
what the new server applies is the leader's log if its own was a part of it when it joined, which
says that it had none, or the same.

The leader's log only grows as long as it leads, and its requests carry pieces of it (`PieceOf`).
The new server's log stays a part of it as long as it gets entries from nowhere else
(`Event.BringsUp`).
-/

namespace EnclaveRaft

open Act Server LogStore OrderedMap

/-! ## The leader -/

/-- The input leaves the lead to the server. -/
def Input.LeavesLead (s : Server) : Input → Prop
  | request req _ => req.type ≠ .joinClusterRequest ∧ (req.type.bringsTerm → req.term ≤ s.term)
  | response rpc resp _ => rpc.handler = .peerResp → resp.term ≤ s.term
  | _ => True

instance (s : Server) : (inp : Input) → Decidable (inp.LeavesLead s)
  | .request _ _ => inferInstanceAs (Decidable (_ ∧ _))
  | .response _ _ _ => inferInstanceAs (Decidable (_ → _))
  | .electionTimeout | .hbTimeout _ | .failure _ | .resend _ | .commitBg => instDecidableTrue

/-- A leader with the log `l`, which is not being brought up itself. -/
structure LeadsWith (l : List LogEntry) (s : Server) : Prop where
  role : s.role = .leader
  settled : s.catchingUp = false
  holds : s.logStore.Holds l

section

variable {ctx : Context} {inp : Input} {s₀ s s' : Server} {o : List Effect} {l : List LogEntry}

theorem Input.LeavesLead.term_le (h : inp.LeavesLead s) {t : Nat} (hin : inp.Brings t) :
    t ≤ s.term := by
  rcases hin with ⟨req, now, rfl, hbrings, rfl⟩ | ⟨rpc, resp, now, rfl, hh, rfl⟩
  · exact h.2 hbrings
  · exact h hh

/-- What is not about the log. -/
theorem LeadsWith.same (h : LeadsWith l s) (hrole : s'.role = s.role)
    (hcatch : s'.catchingUp = s.catchingUp) (hlog : s'.logStore = s.logStore) : LeadsWith l s' :=
  ⟨hrole.trans h.role, hcatch.trans h.settled, hlog ▸ h.holds⟩

theorem LeadsWith.append (h : LeadsWith l s) (e : LogEntry) (hrole : s'.role = s.role)
    (hcatch : s'.catchingUp = s.catchingUp) (hlog : s'.logStore = s.logStore.append e) :
    LeadsWith (l ++ [e]) s' :=
  ⟨hrole.trans h.role, hcatch.trans h.settled, hlog ▸ h.holds.append e⟩

/-- A small step of a leader makes its log longer, if anything. -/
theorem LeadsWith.micro (h : LeadsWith l s) (hin : inp.LeavesLead s₀) (hbg : inp ≠ .commitBg)
    (hm : Micro ctx inp s₀ s o s') : ∃ l', l <+: l' ∧ LeadsWith l' s' := by
  have hrole := h.role
  cases hm with
  | quiet hq =>
    exact ⟨l, List.prefix_refl l, h.same (hq.field Server.role) (hq.field Server.catchingUp)
      (hq.field Server.logStore)⟩
  | enterTerm hlt hbrings hk =>
    have hle := hin.term_le hbrings
    rw [← show s.term = s₀.term from hk.field Server.term] at hle
    exact (hlt.not_ge hle).elim
  | stepDown hcand => cases hcand.symm.trans hrole
  | stand _ _ hne => exact (hne hrole).elim
  | standWin _ _ hne => exact (hne hrole).elim
  | tallyWin => exact ⟨l, List.prefix_refl l, rfl, h.settled, h.holds⟩
  | saveInitial | client | confAppend =>
    exact ⟨_, List.prefix_append _ _, h.append _ rfl rfl rfl⟩
  | merge _ _ _ hfollows => cases hfollows.symm.trans hrole
  | pack _ _ _ hcatch => cases hcatch.symm.trans h.settled
  | installCompact _ hfollows => cases hfollows.symm.trans hrole
  | snapshot hbg' => exact (hbg hbg').elim
  | caughtUp hbg' => exact (hbg hbg').elim
  | join hreq htype =>
    subst hreq
    exact (hin.1 htype).elim
  | addConfigured =>
    obtain ⟨ps, j, n, hfold⟩ := foldl_addConfigured_frame ctx _ s
    rw [hfold]
    exact ⟨l, List.prefix_refl l, h.same rfl rfl rfl⟩
  | dropOnly =>
    obtain ⟨ps, -, hdrop⟩ := dropOnlyPeer_frame _ s
    rw [hdrop]
    exact ⟨l, List.prefix_refl l, h.same rfl rfl rfl⟩
  | _ => exact ⟨l, List.prefix_refl l, h.same rfl rfl rfl⟩

/-! ## What a leader sends -/

/-- The request carries a piece of the log `l`. A request for the whole log that was created from a
compacted one is no such piece. -/
structure PieceOf (l : List LogEntry) (rpc : Rpc) : Prop where
  append : rpc.req.type = .appendEntriesRequest →
    (rpc.req.lastLogIdx = 0 → rpc.req.logEntries ≠ [] → rpc.creator.logStore.startIdx = 1) →
      rpc.req.logEntries <+: l.drop rpc.req.lastLogIdx
  pack : rpc.req.type = .syncLogRequest → ∀ p ∈ rpc.req.pack?,
    usucc rpc.req.lastLogIdx = rpc.req.lastLogIdx + 1 → p.map unpack <+: l.drop rpc.req.lastLogIdx

theorem isPrefix_drop_of_isPrefix {α : Type} {es l l' : List α} {n : Nat} (h : es <+: l.drop n)
    (hl : l <+: l') : es <+: l'.drop n := by
  obtain ⟨r, rfl⟩ := hl
  rw [List.drop_append]
  exact h.trans (List.prefix_append _ _)

theorem PieceOf.mono {l' : List LogEntry} {rpc : Rpc} (h : PieceOf l rpc) (hl : l <+: l') :
    PieceOf l' rpc where
  append htype hwhole := isPrefix_drop_of_isPrefix (h.append htype hwhole) hl
  pack htype p hp hidx := isPrefix_drop_of_isPrefix (h.pack htype p hp hidx) hl

/-- The creator of a request is the server in the state that it is sent in, and of the two requests
that carry entries one is created from its log, the other in a membership handler. -/
theorem Micro.sends_entries (hm : Micro ctx inp s₀ s o s') {rpc : Rpc} (hrpc : .send rpc ∈ o) :
    rpc.creator = s ∧ ((∃ rpc', inp = .resend rpc' ∧ rpc'.req = rpc.req) ∨
      ((rpc.req.type = .appendEntriesRequest → AppendMsg ctx s rpc.uid rpc.req) ∧
        (rpc.req.type = .syncLogRequest → inp.IsAdmin))) := by
  cases hm with
  | sendVote => cases List.mem_singleton.1 hrpc; exact ⟨rfl, .inr ⟨nofun, nofun⟩⟩
  | sendAppend _ hmsg =>
    cases List.mem_singleton.1 hrpc
    refine ⟨rfl, .inr ⟨fun _ => hmsg, fun htype => ?_⟩⟩
    obtain ⟨p, t, es, -, -, -, -, -, rfl⟩ := hmsg
    cases htype
  | sendSnapshot _ hmsg =>
    cases List.mem_singleton.1 hrpc
    obtain ⟨p, sync, e, r, -, -, ht, -⟩ := hmsg
    refine ⟨rfl, .inr ⟨fun htype => ?_, fun htype => ?_⟩⟩
    · cases ht.symm.trans htype
    · cases ht.symm.trans htype
  | sendExt hin hp =>
    cases List.mem_singleton.1 hrpc
    refine ⟨rfl, .inr ⟨fun htype => ?_, fun _ => hin⟩⟩
    rcases hp with ⟨-, ht | ht⟩ | ⟨-, ht⟩ <;> cases ht.symm.trans htype
  | resend hin =>
    cases List.mem_singleton.1 hrpc
    exact ⟨rfl, .inl ⟨_, hin, rfl⟩⟩
  | note he => cases List.mem_singleton.1 hrpc; exact he.elim
  | merge => exact (writtenOut_inert _ hrpc).elim
  | client => cases List.mem_singleton.1 hrpc
  | process => cases List.mem_singleton.1 hrpc
  | retry => cases List.mem_singleton.1 hrpc
  | _ => cases hrpc

/-- An append request that is created from a log carries a piece of it. -/
theorem appendMsg_piece {uid : Nat} {req : ReqMsg} (h : s.logStore.Holds l)
    (hmsg : AppendMsg ctx s uid req)
    (hwhole : req.lastLogIdx = 0 → req.logEntries ≠ [] → s.logStore.startIdx = 1) :
    req.logEntries <+: l.drop req.lastLogIdx := by
  obtain ⟨p, t, es, -, -, hfar, -, hes, rfl⟩ := hmsg
  change usub p.nextLogIdx 1 = 0 → es ≠ [] → s.logStore.startIdx = 1 at hwhole
  show es <+: l.drop (usub p.nextLogIdx 1)
  by_cases hnil : es = []
  · rw [hnil]
    exact List.nil_prefix
  refine Follows.entriesAfter_isPrefix h ?_ hes
  by_cases h0 : usub p.nextLogIdx 1 = 0
  · exact (hwhole h0 hnil).le.trans (Nat.le_add_left _ _)
  · rw [usub_of_le h.start] at hfar
    omega

/-- A log pack carries a piece of the log that it is taken from. -/
theorem packs_piece {rpc : Rpc} (h : rpc.creator.logStore.Holds l) (hpacks : rpc.Packs)
    (htype : rpc.req.type = .syncLogRequest) {p : List (Nat × LogValType × Payload)}
    (hp : p ∈ rpc.req.pack?) (hidx : usucc rpc.req.lastLogIdx = rpc.req.lastLogIdx + 1) :
    p.map unpack <+: l.drop rpc.req.lastLogIdx := by
  obtain ⟨-, i, c, es, hes, hpack, hlast⟩ := hpacks htype
  cases hpack.symm.trans hp
  rw [hlast] at hidx ⊢
  by_cases h0 : i = 0
  · subst h0
    exact absurd hidx (by decide)
  · have hpos := Nat.pos_of_ne_zero h0
    rw [usub_of_le hpos]
    exact h.pack_isPrefix hpos hes

/-! ## Background rounds -/

/-- A background round leaves the log, but for what it compacts. -/
theorem holds_bgRound {g : Ledger} (h : s.logStore.Holds l) (hint : s.ledger.Intact ctx.backlog)
    (hround : BgRound ctx s g o) : g.logStore.Holds l := by
  cases hround with
  | idle => exact h
  | plain => exact h
  | @snapshot conf _ hlog hdist hdue =>
    rw [Server.nextSlot, h.nextSlot, usub_succ] at hlog
    by_cases hres : ulong ctx.params.reservedLogItems < s.smCommitIndex + 1
    · have hst : (s.ledger.applied.snapshot ctx conf).logStore =
          s.logStore.compact (s.smCommitIndex + 1 - ulong ctx.params.reservedLogItems) :=
        if_pos hres
      rw [hst]
      exact h.compact (hint.snapshot_forward hdist hdue hres) (by omega)
    · have hst : (s.ledger.applied.snapshot ctx conf).logStore = s.logStore := if_neg hres
      rw [hst]
      exact h

/-- The server keeps its role, is not brought up if it was not, and sends nothing. -/
structure Rests (s : Server) (o : List Effect) (s' : Server) : Prop where
  mute : ∀ e ∈ o, e.Mute
  role : s'.role = s.role
  settled : s.catchingUp = false → s'.catchingUp = false

theorem rests_note (s : Server) {e : Effect} (he : e.Mute) : Rests s [e] s where
  mute x hx := by
    rw [List.mem_singleton.1 hx]
    exact he
  role := rfl
  settled := id

theorem rests_same (hrole : s'.role = s.role) (hcatch : s'.catchingUp = s.catchingUp) :
    Rests s [] s' :=
  ⟨fun _ h => absurd h List.not_mem_nil, hrole, fun h => hcatch.trans h⟩

theorem within_reconfigure (conf : ClusterConfig) : Within Rests (reconfigure ctx conf) := by
  refine within_get.bind fun s₁ => within_modify_bind (fun s => ?_) ?_
  · obtain ⟨ps, j, n, hfold⟩ := foldl_addConfigured_frame ctx
      (conf.servers.filter fun srv => (s₁.findPeer srv.id).isNone ∧ srv.id ≠ s₁.id) s
    rw [hfold]
    exact rests_same rfl rfl
  refine within_modify_bind (fun _ => rests_same rfl rfl) (within_get.bind fun s => ?_)
  refine within_ite ?_ (within_modify fun _ => rests_same rfl rfl)
  refine (within_saveConfig fun _ _ _ => rests_same rfl rfl).bind fun _ => ?_
  exact within_emit fun s => rests_note s trivial

theorem within_applyConfig (conf : ClusterConfig) : Within Rests (applyConfig ctx conf) := by
  refine (within_orExit (within_saveConfig fun _ _ _ => rests_same rfl rfl)
    fun s => rests_note s trivial).bind fun _ => ?_
  refine within_modify_bind (fun _ => rests_same rfl rfl) (within_get.bind fun s => ?_)
  refine (within_when (within_reconfigure conf)).bind fun _ => within_modify fun s => ?_
  split
  · exact ⟨fun _ h => absurd h List.not_mem_nil, rfl, fun _ => rfl⟩
  · exact rests_same rfl rfl

theorem within_snapshotAndCompact (idx : Nat) : Within Rests (snapshotAndCompact ctx idx) := by
  have hemit {e : Effect} (he : e.Mute) : Within Rests (emit e : M Unit) :=
    within_emit fun s => rests_note s he
  refine within_get.bind fun s => within_ite ?_ (within_pure _)
  split
  · exact hemit trivial
  · exact hemit trivial
  · exact within_throw _
  · exact within_pure _
  · refine within_ite ?_ (within_pure _)
    refine (within_when ?_).bind fun _ => within_modify fun _ => rests_same rfl rfl
    exact hemit trivial

theorem within_applyEntry (idx : Nat) (e : LogEntry) : Within Rests (applyEntry ctx idx e) := by
  unfold applyEntry
  split
  · refine within_emit_bind (fun s => rests_note s trivial) (within_when ?_)
    exact within_emit_bind (fun s => rests_note s trivial) (within_throw _)
  · split
    · exact within_applyConfig _
    · exact within_emit_bind (fun s => rests_note s trivial) (within_throw _)
  · exact within_pure _

theorem within_commitInBg : Within Rests (commitInBg ctx) := by
  refine within_get.bind fun s => within_when ?_
  refine within_modify_bind (fun _ => rests_same rfl rfl) ?_
  refine within_emit_bind (fun s => rests_note s trivial) ?_
  exact (within_applyEntry _ _).bind fun _ => within_snapshotAndCompact _

/-- A background round sends nothing, and leaves the role. -/
theorem take_rests (ctx : Context) (s : Server) :
    Rests s (Input.commitBg.handle ctx s).out (s.take ctx .commitBg) := by
  have hpath : Path Rests s (commitInBg ctx s).out _ := (within_commitInBg s).1
  rw [← bind_pure_out (commitInBg ctx) (fun _ => none) s,
    ← bind_pure_state (commitInBg ctx) (fun _ => none) s] at hpath
  refine hpath.fold (fun s => rests_same rfl rfl) fun s₁ s₂ s₃ o o' h h' => ?_
  refine ⟨fun e he => ?_, h'.role.trans h.role, h'.settled ∘ h.settled⟩
  exact (List.mem_append.1 he).elim (h.mute e) (h'.mute e)

/-! ## Handlers -/

theorem LeadsWith.bg (h : LeadsWith l s) (hint : s.ledger.Intact ctx.backlog) :
    LeadsWith l (s.take ctx .commitBg) := by
  have hrests := take_rests ctx s
  exact ⟨hrests.role.trans h.role, hrests.settled h.settled,
    holds_bgRound h.holds hint (take_bg ctx s)⟩

/-- Along the small steps of a leader its log grows, and every request was created from a part of
it. -/
theorem LeadsWith.path {s₁ s₂ : Server} (h : LeadsWith l s₁) (hin : inp.LeavesLead s)
    (hbg : inp ≠ .commitBg) (hp : Path (Micro ctx inp s) s₁ o s₂) :
    ∃ l', l <+: l' ∧ LeadsWith l' s₂ ∧ ∀ rpc, .send rpc ∈ o →
      ∃ lc, lc <+: l' ∧ rpc.creator.logStore.Holds lc ∧
        ((∃ rpc', inp = .resend rpc' ∧ rpc'.req = rpc.req) ∨
          ((rpc.req.type = .appendEntriesRequest → AppendMsg ctx rpc.creator rpc.uid rpc.req) ∧
            (rpc.req.type = .syncLogRequest → inp.IsAdmin))) := by
  induction hp generalizing l with
  | nil => exact ⟨l, List.prefix_refl l, h, fun _ hrpc => (List.not_mem_nil hrpc).elim⟩
  | cons hm _ ih =>
    obtain ⟨l₁, hl₁, h₁⟩ := h.micro hin hbg hm
    obtain ⟨l₂, hl₂, h₂, hsent⟩ := ih h₁
    refine ⟨l₂, hl₁.trans hl₂, h₂, fun rpc hrpc => ?_⟩
    rcases List.mem_append.1 hrpc with hrpc | hrpc
    · obtain ⟨hcreator, hkind⟩ := hm.sends_entries hrpc
      rw [hcreator]
      exact ⟨l, hl₁.trans hl₂, h.holds, hkind⟩
    · exact hsent rpc hrpc

/-- **One input of a leader.** Its log grows, and what it sends is a piece of it, unless it is sent
again. -/
theorem LeadsWith.handle (h : LeadsWith l s) (hint : s.ledger.Intact ctx.backlog)
    (hin : inp.LeavesLead s) :
    ∃ l', l <+: l' ∧ LeadsWith l' (s.take ctx inp) ∧
      ∀ rpc, .send rpc ∈ (inp.handle ctx s).out →
        (∃ rpc', inp = .resend rpc' ∧ rpc'.req = rpc.req) ∨ PieceOf l' rpc := by
  by_cases hbg : inp = .commitBg
  · subst hbg
    exact ⟨l, List.prefix_refl l, h.bg hint, fun rpc hrpc => ((take_rests ctx s).mute _ hrpc).elim⟩
  · obtain ⟨l', hl, hlead, hsent⟩ := h.path hin hbg (take_path ctx s inp)
    refine ⟨l', hl, hlead, fun rpc hrpc => ?_⟩
    obtain ⟨lc, hlc, hholds, hagain | ⟨happend, hsync⟩⟩ := hsent rpc hrpc
    · exact .inl hagain
    · refine .inr (PieceOf.mono ⟨fun htype hwhole => ?_, fun htype p hp hidx => ?_⟩ hlc)
      · exact appendMsg_piece hholds (happend htype) hwhole
      · exact packs_piece hholds (SendsPacks.handle (hsync htype) s rpc hrpc) htype hp hidx

/-! ## The new server -/

/-- The input makes the server leader. -/
def Input.MakesLeader (s : Server) : Input → Prop
  | electionTimeout => s.role ≠ .leader ∧ s.peers = []
  | inp => inp.Elects s

instance (s : Server) : (inp : Input) → Decidable (inp.MakesLeader s)
  | .electionTimeout => inferInstanceAs (Decidable (_ ≠ _ ∧ _ = []))
  | .response rpc resp now => inferInstanceAs (Decidable ((Input.response rpc resp now).Elects s))
  | .hbTimeout _ | .request _ _ | .failure _ | .resend _ | .commitBg => instDecidableFalse

/-- A server that does not lead, and whose log is a part of `l`. -/
structure FedFrom (R : Nat) (l : List LogEntry) (s : Server) : Prop where
  role : s.role ≠ .leader
  holds : ∃ l', l' <+: l ∧ s.logStore.Holds l'
  intact : s.ledger.Intact R

/-- The input does not make the server append entries of its own, and entries come from `L` only, by
append requests and log packs, with an index that does not overflow. -/
def Input.FeedsFrom (ctx : Context) (L : Int) (s : Server) (inp : Input) : Prop :=
  ¬inp.MakesLeader s ∧ inp.newConfig ctx s = none ∧
    match inp with
    | request req _ =>
      req.type ≠ .joinClusterRequest ∧ req.type ≠ .installSnapshotRequest ∧
        (req.type = .appendEntriesRequest → req.src = L) ∧
        (req.type = .syncLogRequest →
          req.src = L ∧ usucc req.lastLogIdx = req.lastLogIdx + 1)
    | _ => True

instance (ctx : Context) (L : Int) (s : Server) :
    (inp : Input) → Decidable (inp.FeedsFrom ctx L s)
  | .request _ _ => inferInstanceAs (Decidable (_ ∧ _ ∧ _ ∧ _ ∧ _ ∧ _))
  | .electionTimeout | .hbTimeout _ | .response _ _ _ | .failure _ | .resend _ | .commitBg =>
    inferInstanceAs (Decidable (_ ∧ _ ∧ True))

/-- The entries that the input carries are a piece of `l`. -/
def Input.CarriesFrom (l : List LogEntry) (inp : Input) : Prop :=
  ∀ req now, inp = request req now →
    (req.type = .appendEntriesRequest → req.logEntries <+: l.drop req.lastLogIdx) ∧
      (req.type = .syncLogRequest → ∀ p ∈ req.pack?, p.map unpack <+: l.drop req.lastLogIdx)

namespace FedFrom

variable {R : Nat} {L : Int}

theorem same (h : FedFrom R l s) (hrole : s'.role ≠ .leader) (hlog : s'.logStore = s.logStore)
    (hint : s'.ledger.Intact R) : FedFrom R l s' :=
  ⟨hrole, hlog ▸ h.holds, hint⟩

theorem mono {l' : List LogEntry} (h : FedFrom R l s) (hl : l <+: l') : FedFrom R l' s := by
  obtain ⟨l₁, hl₁, hholds⟩ := h.holds
  exact ⟨h.role, ⟨l₁, hl₁.trans hl, hholds⟩, h.intact⟩

/-- An append request brings entries of `l`. -/
theorem written (h : FedFrom R l s) {req : ReqMsg} {now : Int} {es : List LogEntry}
    (hk : Keeps s₀ s) (htype : req.type = .appendEntriesRequest) (hokay : ReqOkay s req)
    (hle : s₀.term ≤ req.term) (hspares : (Input.request req now).SparesLog ctx s₀)
    (hpre : es <+: req.logEntries) (hes : req.logEntries <+: l.drop req.lastLogIdx) :
    ∃ l', l' <+: l ∧ (written s.logStore req.lastLogIdx es).Holds l' := by
  obtain ⟨l₁, hl₁, hholds⟩ := h.holds
  rcases h.intact.merge_fits htype hk hokay hle hspares with hnil | ⟨hstart, hlt⟩
  · rw [hnil, List.prefix_nil] at hpre
    rw [hpre]
    exact ⟨l₁, hl₁, hholds⟩
  · have hle : req.lastLogIdx ≤ l₁.length := by
      rw [hholds.nextSlot] at hlt
      exact Nat.le_of_lt_succ hlt
    exact ⟨_, History.merged_isPrefix hl₁ hle (hpre.trans hes), Holds.written hholds hstart hle _⟩

/-- A log pack brings entries of `l`. -/
theorem packed (h : FedFrom R l s) {req : ReqMsg} {now : Int}
    {p : List (Nat × LogValType × Payload)} (htype : req.type = .syncLogRequest)
    (hcatch : s.catchingUp = true) (hpack : req.pack? = some p)
    (hspares : (Input.request req now).SparesLog ctx s)
    (hidx : usucc req.lastLogIdx = req.lastLogIdx + 1)
    (hes : p.map unpack <+: l.drop req.lastLogIdx) :
    ∃ l', l' <+: l ∧ (s.logStore.applyPack (usucc req.lastLogIdx) p).Holds l' := by
  obtain ⟨l₁, hl₁, hholds⟩ := h.holds
  obtain ⟨hne, hstart, hle⟩ := hspares.pack_fits htype hcatch hpack
  refine ⟨_, ?_, hholds.applyPack hstart hle hne⟩
  rw [hholds.nextSlot] at hle
  rw [hidx] at hle ⊢
  exact splice_isPrefix hl₁ (Nat.le_of_succ_le_succ hle) hes

/-- A small step of a server that is fed from `l`. -/
theorem micro (h : FedFrom R l s) (hin : inp.FeedsFrom ctx L s₀) (hspares : inp.SparesLog ctx s₀)
    (hpiece : inp.CarriesFrom l) (hbg : inp ≠ .commitBg) (hm : Micro ctx inp s₀ s o s') :
    FedFrom R l s' := by
  obtain ⟨hlead, hconf, hreq⟩ := hin
  have hinst : ∀ snp, ¬inp.Installs snp := by
    rintro snp ⟨req, now, e, r, rfl, htype, -⟩
    exact hreq.2.1 htype
  have hint := (hm.ledgerStep.intact h.intact hspares hbg hinst).1
  cases hm with
  | quiet hq =>
    exact h.same (hq.field Server.role ▸ h.role) (hq.field Server.logStore) hint
  | enterTerm =>
    refine h.same ?_ ((keeps_enterTerm _ s).field Server.logStore) hint
    rw [show (enterTerm _ s).role = .follower from becomeFollower_role _]
    exact nofun
  | stepDown =>
    refine h.same ?_ ((keeps_becomeFollower s).field Server.logStore) hint
    rw [becomeFollower_role]
    exact nofun
  | stand => exact h.same nofun rfl hint
  | standWin hin hk hrole hpeers =>
    subst hin
    refine (hlead ⟨hk.field Server.role ▸ hrole, ?_⟩).elim
    have hnil := hk.peers
    rw [hpeers] at hnil
    exact List.map_eq_nil_iff.1 hnil.symm
  | tallyWin hin hk hterm hopen hnew hmaj =>
    obtain ⟨rpc, now, rfl, hh, htype⟩ := hin
    exact (hlead ⟨hh, htype, hk.elects ⟨hterm, hopen, hnew, hmaj⟩⟩).elim
  | saveInitial hrole | client _ _ _ hrole => exact (h.role hrole).elim
  | @merge req now _ hin htype hk _ _ hokay hes hle =>
    subst hin hes
    exact ⟨h.role, h.written hk htype hokay hle hspares (reached_isPrefix _ _)
      ((hpiece req now rfl).1 htype), hint⟩
  | process hin | confApplied hin | caughtUp hin | snapshot hin => exact (hbg hin).elim
  | installCompact hin | installApply hin | installDone hin => exact (hinst _ hin).elim
  | join hin htype =>
    subst hin
    exact (hreq.1 htype).elim
  | @pack req now p hin htype hk hcatch hentry =>
    subst hin hk
    have hpack := ReqMsg.pack?_eq_some hentry
    exact ⟨h.role, h.packed htype hcatch hpack hspares (hreq.2.2.2 htype).2
      ((hpiece req now rfl).2 htype p hpack), hint⟩
  | confAppend hc => cases hconf.symm.trans hc
  | addConfigured =>
    obtain ⟨ps, j, n, hfold⟩ := foldl_addConfigured_frame ctx _ s
    rw [hfold] at hint ⊢
    exact h.same h.role rfl hint
  | dropOnly =>
    obtain ⟨ps, -, hdrop⟩ := dropOnlyPeer_frame _ s
    rw [hdrop] at hint ⊢
    exact h.same h.role rfl hint
  | _ => exact h.same h.role rfl hint

/-- **One input of a server that is fed.** -/
theorem take (h : FedFrom ctx.backlog l s) (hin : inp.FeedsFrom ctx L s)
    (hspares : inp.SparesLog ctx s) (hpiece : inp.CarriesFrom l) :
    FedFrom ctx.backlog l (s.take ctx inp) := by
  by_cases hbg : inp = .commitBg
  · subst hbg
    obtain ⟨l', hl', hholds⟩ := h.holds
    refine ⟨(take_rests ctx s).role ▸ h.role, ⟨l', hl', ?_⟩, (take_intact h.intact hspares).1⟩
    exact holds_bgRound hholds h.intact (take_bg ctx s)
  · exact (take_path ctx s inp).fold (R := fun s₁ _ s₂ => FedFrom ctx.backlog l s₁ →
      FedFrom ctx.backlog l s₂) (fun _ h => h)
      (fun _ _ _ _ _ hm ih h₁ => ih (h₁.micro hin hspares hpiece hbg hm)) h

end FedFrom

/-! ## Clusters -/

/-- What holds in every run: servers keep their ids, and append requests are not sent again. -/
structure Ordinary (c : Cluster) : Prop where
  id : ∀ i, (c.servers i).id = i
  retries : ∀ rpc ∈ c.retries, rpc.req.type ≠ .appendEntriesRequest

theorem ordinary_step {c : Cluster} (h : Ordinary c) (e : Event) : Ordinary (c.step ctx e) := by
  refine Cluster.inv_step ?_ ?_ h
  · intro c' i inp k o s' _ _ _ h' hm
    refine ⟨fun j => ?_, fun rpc hrpc => ?_⟩
    · by_cases hji : j = i
      · subst hji
        simpa using hm.id_eq.trans (h'.id j)
      · simpa [Cluster.update, hji] using h'.id j
    · rcases Cluster.mem_update_retries hrpc with hold | hnew
      · exact h'.retries rpc hold
      · intro htype
        rcases hm.retries hnew with ht | ht | ht <;> cases ht.symm.trans htype
  · exact fun c' rpc now n resp _ _ _ h' _ _ => ⟨h'.id, h'.retries⟩

theorem ordinary_run (b : Int → Boot) (es : List Event) :
    Ordinary ((Cluster.start ctx b).run ctx es) := by
  refine Cluster.inv_run (I := Ordinary) (C := fun _ _ => True)
    (fun c e h _ => ordinary_step h e) ?_ (Cluster.meets_of_forall fun _ _ => trivial)
  refine ⟨fun i => ?_, fun rpc hrpc => absurd hrpc List.not_mem_nil⟩
  obtain ⟨ps, n, hq⟩ := new_frame ctx i (b i)
  exact hq.field Server.id

/-- The server `L` leads with the log `l`, and the entries that it has sent are pieces of `l`. -/
structure Feeds (ctx : Context) (L : Int) (l : List LogEntry) (c : Cluster) : Prop where
  lead : LeadsWith l (c.servers L)
  intact : (c.servers L).ledger.Intact ctx.backlog
  sent : ∀ rpc ∈ c.rpcs, rpc.req.src = L → PieceOf l rpc
  retries : ∀ rpc ∈ c.retries, rpc.req.src = L → PieceOf l rpc

theorem PieceOf.again {rpc rpc' : Rpc} (h : PieceOf l rpc') (hreq : rpc'.req = rpc.req)
    (htype : rpc.req.type ≠ .appendEntriesRequest) : PieceOf l rpc :=
  ⟨fun ht => (htype ht).elim, hreq ▸ h.pack⟩

/-- The requests of a server that carry entries bear its id, unless they are sent again. -/
theorem handle_src {rpc : Rpc} (hrpc : .send rpc ∈ (inp.handle ctx s).out) :
    (∃ rpc', inp = .resend rpc' ∧ rpc'.req = rpc.req) ∨
      (rpc.req.type = .appendEntriesRequest ∨ rpc.req.type = .syncLogRequest →
        rpc.req.src = s.id) := by
  obtain ⟨hpath, -⟩ := (take_path ctx s inp).inv (I := fun s₁ => s₁.id = s.id)
    (fun _ _ _ hm h => hm.id_eq.trans h) rfl
  have hsent := hpath.forall_out (Q := fun e => ∀ rpc, e = .send rpc → rpc.creator.id = s.id ∧
    ((∃ rpc', inp = .resend rpc' ∧ rpc'.req = rpc.req) ∨
      ((rpc.req.type = .appendEntriesRequest → AppendMsg ctx rpc.creator rpc.uid rpc.req) ∧
        (rpc.req.type = .syncLogRequest → inp.IsAdmin)))) (by
    rintro s₁ o s₂ ⟨hm, hid⟩ e he rpc rfl
    obtain ⟨hcreator, hkind⟩ := hm.sends_entries he
    rw [hcreator]
    exact ⟨hid, hkind⟩) _ hrpc rpc rfl
  obtain ⟨hcreator, hagain | ⟨happend, hsync⟩⟩ := hsent
  · exact .inl hagain
  · right
    rintro (htype | htype)
    · obtain ⟨p, t, es, -, -, -, -, -, hreq⟩ := happend htype
      rw [hreq]
      exact hcreator
    · exact (SendsPacks.handle (hsync htype) s rpc hrpc htype).1.trans hcreator

/-- A request that is to be sent again is one that has failed. -/
theorem handle_retries {rpc : Rpc} (hrpc : .retry rpc ∈ (inp.handle ctx s).out) :
    rpc.req.type ≠ .appendEntriesRequest ∧ ∃ rpc', inp = .failure rpc' ∧ rpc'.req = rpc.req := by
  refine Path.forall_out (Q := fun e => ∀ rpc, e = .retry rpc →
    rpc.req.type ≠ .appendEntriesRequest ∧ ∃ rpc', inp = .failure rpc' ∧ rpc'.req = rpc.req) ?_
    (take_path ctx s inp) _ hrpc rpc rfl
  rintro s₁ o s₂ hm e he rpc rfl
  refine ⟨fun htype => ?_, hm.retries_failed he⟩
  rcases hm.retries he with ht | ht | ht <;> cases ht.symm.trans htype

/-- An invitation from `L` that the server accepts. -/
def Input.JoinsTo (L : Int) (s : Server) : Input → Prop
  | request req _ => req.type = .joinClusterRequest ∧ req.src = L ∧ s.catchingUp = false ∧
    req.logEntries.length = 1 ∧ ∀ e ∈ req.logEntries, e.valType = .conf
  | _ => False

instance (L : Int) (s : Server) : (inp : Input) → Decidable (inp.JoinsTo L s)
  | .request _ _ => inferInstanceAs (Decidable (_ ∧ _))
  | .electionTimeout | .hbTimeout _ | .response _ _ _ | .failure _ | .resend _ | .commitBg =>
    instDecidableFalse

/-- A server that joins gives up the lead, and keeps its log. -/
theorem take_joins {L : Int} (hjoin : inp.JoinsTo L s) :
    (s.take ctx inp).role = .follower ∧ (s.take ctx inp).logStore = s.logStore := by
  cases inp with
  | request req now =>
    obtain ⟨htype, -, hcatch, hlen, hval⟩ := hjoin
    obtain ⟨e, hes⟩ := List.length_eq_one_iff.1 hlen
    have hconf : e.valType = .conf := hval e (hes ▸ List.mem_singleton.2 rfl)
    obtain ⟨ps, j, n, conf, shared, saved, hframe⟩ := joined_frame ctx now htype hes hconf hcatch
    rw [Server.take, hframe]
    exact ⟨rfl, rfl⟩
  | _ => exact hjoin.elim

/-- **One event.** The leader's log grows, and what it has sent stays a piece of it. -/
theorem Feeds.step {L : Int} {c : Cluster} {e : Event} (h : Feeds ctx L l c) (hc : Ordinary c)
    (he : e.Allowed (fun c i inp => i = L →
      inp.LeavesLead (c.servers L) ∧ inp.SparesLog ctx (c.servers L)) c) :
    ∃ l', l <+: l' ∧ Feeds ctx L l' (c.step ctx e) := by
  unfold Cluster.step
  cases hin : e.input c with
  | none => exact ⟨l, List.prefix_refl l, h⟩
  | some q =>
    obtain ⟨i, inp, k⟩ := q
    have hlegit := (Cluster.legit_of_input hin).1
    suffices hupdate : ∃ l', l <+: l' ∧ Feeds ctx L l' (c.update i
        (inp.handle ctx (c.servers i)).state (inp.handle ctx (c.servers i)).out) by
      obtain ⟨l', hl, hfeeds⟩ := hupdate
      refine ⟨l', hl, ?_⟩
      dsimp only
      unfold Cluster.take
      dsimp only
      split
      · exact ⟨hfeeds.lead, hfeeds.intact, hfeeds.sent, hfeeds.retries⟩
      · exact hfeeds
    by_cases hi : i = L
    · subst hi
      obtain ⟨hleaves, hspares⟩ := he i inp k hin rfl
      obtain ⟨l', hl, hlead, hsent⟩ := h.lead.handle h.intact hleaves
      refine ⟨l', hl, ?_, ?_, fun rpc hrpc hsrc => ?_, fun rpc hrpc hsrc => ?_⟩
      · rw [Cluster.update_servers_self]
        exact hlead
      · rw [Cluster.update_servers_self]
        exact (take_intact h.intact hspares).1
      · rcases Cluster.mem_update_rpcs hrpc with hold | hnew
        · exact (h.sent rpc hold hsrc).mono hl
        · rcases hsent rpc hnew with ⟨rpc', rfl, hreq⟩ | hpiece
          · have hagain := h.retries rpc' hlegit.1 hlegit.2
            exact (hagain.again hreq (hreq ▸ hc.retries rpc' hlegit.1)).mono hl
          · exact hpiece
      · rcases Cluster.mem_update_retries hrpc with hold | hnew
        · exact (h.retries rpc hold hsrc).mono hl
        · obtain ⟨htype, rpc', rfl, hreq⟩ := handle_retries hnew
          exact ((h.sent rpc' hlegit.1 hlegit.2).again hreq htype).mono hl
    · have hsame (s' : Server) (o : List Effect) :
          (c.update i s' o).servers L = c.servers L := if_neg (Ne.symm hi)
      refine ⟨l, List.prefix_refl l, ?_, ?_, fun rpc hrpc hsrc => ?_, fun rpc hrpc hsrc => ?_⟩
      · rw [hsame]
        exact h.lead
      · rw [hsame]
        exact h.intact
      · rcases Cluster.mem_update_rpcs hrpc with hold | hnew
        · exact h.sent rpc hold hsrc
        · rcases handle_src hnew with ⟨rpc', rfl, hreq⟩ | hown
          · exact (hi (hlegit.2.symm.trans (hreq ▸ hsrc))).elim
          · have hother : ¬(rpc.req.type = .appendEntriesRequest ∨
                rpc.req.type = .syncLogRequest) := fun htype =>
              hi ((hc.id i).symm.trans ((hown htype).symm.trans hsrc))
            exact ⟨fun ht => (hother (.inl ht)).elim, fun ht => (hother (.inr ht)).elim⟩
      · rcases Cluster.mem_update_retries hrpc with hold | hnew
        · exact h.retries rpc hold hsrc
        · obtain ⟨-, rpc', rfl, hreq⟩ := handle_retries hnew
          exact (hi (hlegit.2.symm.trans (hreq ▸ hsrc))).elim

/-! ## Runs -/

/-- A request for the whole log was created from a log that had not been compacted. -/
def Rpc.Whole (rpc : Rpc) : Prop :=
  rpc.req.type = .appendEntriesRequest → rpc.req.lastLogIdx = 0 → rpc.req.logEntries ≠ [] →
    rpc.creator.logStore.startIdx = 1

instance (rpc : Rpc) : Decidable rpc.Whole := inferInstanceAs (Decidable (_ → _ → _ → _))

/-- A request for the whole log that reaches `N` is a whole one. -/
def Event.DeliversWhole (N : Int) (c : Cluster) : Event → Prop
  | deliver k _ => ∀ rpc ∈ c.rpcs[k]?, rpc.target = N → rpc.Whole
  | _ => True

instance (N : Int) (c : Cluster) : (e : Event) → Decidable (e.DeliversWhole N c)
  | .deliver k _ => inferInstanceAs (Decidable (∀ rpc ∈ c.rpcs[k]?, _ → _))
  | .electionTimeout _ | .hbTimeout _ _ | .client _ _ _ | .addServer _ _ | .removeServer _ _
  | .respond _ _ | .fail _ | .resend _ | .commitBg _ => instDecidableTrue

/-- The server `N` accepts an invitation from `L`. -/
def Event.JoinsTo (L N : Int) (c : Cluster) (e : Event) : Prop :=
  ∃ q ∈ e.input c, q.1 = N ∧ q.2.1.JoinsTo L (c.servers N)

instance (L N : Int) (c : Cluster) (e : Event) : Decidable (e.JoinsTo L N c) :=
  inferInstanceAs (Decidable (∃ q ∈ e.input c, _ ∧ _))

/-- The condition on the cluster when `N` joins: `L` leads with the log `l`, what it has sent are
pieces of `l`, and what `N` has in its log is a part of `l` and has not been compacted. -/
structure JoinsPart (ctx : Context) (L N : Int) (l : List LogEntry) (c : Cluster) : Prop where
  ne : L ≠ N
  feeds : Feeds ctx L l c
  part : ∃ l', l' <+: l ∧ (c.servers N).logStore.Holds l'
  whole : (c.servers N).logStore.startIdx = 1

/-- The condition on the events since then: `L` keeps the lead, and only `L` brings up `N`. -/
def Event.BringsUp (ctx : Context) (L N : Int) (c : Cluster) (e : Event) : Prop :=
  e.Allowed (fun c i inp =>
    (i = L → inp.LeavesLead (c.servers L) ∧ inp.SparesLog ctx (c.servers L)) ∧
      (i = N → inp.FeedsFrom ctx L (c.servers N) ∧ inp.SparesLog ctx (c.servers N))) c ∧
    e.DeliversWhole N c

instance (ctx : Context) (L N : Int) (c : Cluster) (e : Event) :
    Decidable (e.BringsUp ctx L N c) :=
  inferInstanceAs (Decidable (_ ∧ _))

/-- What `N` processes in the event is what the log of `L`, which goes on from `l`, has at that
index. -/
def Event.AppliesFrom (ctx : Context) (L N : Int) (l : List LogEntry) (c : Cluster) (e : Event) :
    Prop :=
  e = .commitBg N → ∀ i x, .process i x ∈ c.effects ctx e →
    ∃ l', l <+: l' ∧ (c.servers L).logStore.Holds l' ∧ l'[i - 1]? = some x

/-- What holds between events. -/
structure BroughtUp (ctx : Context) (L N : Int) (l : List LogEntry) (c : Cluster) : Prop where
  ordinary : Ordinary c
  feeds : Feeds ctx L l c
  fed : FedFrom ctx.backlog l (c.servers N)

section

variable {L N : Int} {c : Cluster} {e : Event}

/-- The requests that bring up a server carry pieces of the leader's log. -/
theorem Feeds.carries (h : Feeds ctx L l c) {k : Option Nat}
    (hin : e.input c = some (N, inp, k)) (hfeeds : inp.FeedsFrom ctx L (c.servers N))
    (hwhole : e.DeliversWhole N c) : inp.CarriesFrom l := by
  rintro req now rfl
  obtain ⟨-, -, -, -, happend, hsync⟩ := hfeeds
  cases e with
  | deliver n now' =>
    obtain ⟨rpc, hrpc, heq⟩ := Option.map_eq_some_iff.1 hin
    cases heq
    have hpiece := h.sent rpc (List.mem_of_getElem? hrpc)
    refine ⟨fun htype => ?_, fun htype p hp => ?_⟩
    · exact (hpiece (happend htype)).append htype (hwhole rpc hrpc rfl htype)
    · obtain ⟨hsrc, hidx⟩ := hsync htype
      exact (hpiece hsrc).pack htype p hp hidx
  | client | addServer | removeServer =>
    cases hin
    exact ⟨nofun, nofun⟩
  | respond n now' =>
    simp only [Event.input, Option.bind_eq_bind, Option.bind_eq_some_iff] at hin
    obtain ⟨_, -, _, -, heq⟩ := hin
    cases heq
  | fail n | resend n =>
    obtain ⟨rpc, -, heq⟩ := Option.map_eq_some_iff.1 hin
    cases heq
  | _ => cases hin

theorem step_servers_of_ne {i : Int} {k : Option Nat} (hin : e.input c = some (i, inp, k))
    (hne : N ≠ i) : (c.step ctx e).servers N = c.servers N := by
  unfold Cluster.step
  rw [hin]
  exact Cluster.take_servers_ne ctx c inp k hne

theorem step_servers {i : Int} {k : Option Nat} (hin : e.input c = some (i, inp, k)) :
    (c.step ctx e).servers i = (c.servers i).take ctx inp := by
  unfold Cluster.step
  rw [hin]
  exact Cluster.take_servers ctx c i inp k

/-- **One event.** -/
theorem BroughtUp.step (h : BroughtUp ctx L N l c) (he : e.BringsUp ctx L N c) :
    ∃ l', l <+: l' ∧ BroughtUp ctx L N l' (c.step ctx e) := by
  obtain ⟨l', hl, hfeeds⟩ := h.feeds.step h.ordinary fun i inp k hin => (he.1 i inp k hin).1
  refine ⟨l', hl, ordinary_step h.ordinary e, hfeeds, FedFrom.mono ?_ hl⟩
  cases hin : e.input c with
  | none =>
    unfold Cluster.step
    rw [hin]
    exact h.fed
  | some q =>
    obtain ⟨i, inp, k⟩ := q
    by_cases hi : N = i
    · subst hi
      obtain ⟨hfed, hspares⟩ := (he.1 N inp k hin).2 rfl
      rw [step_servers hin]
      exact h.fed.take hfed hspares (h.feeds.carries hin hfed he.2)
    · rw [step_servers_of_ne hin hi]
      exact h.fed

/-- The server that joins is fed from the leader's log from then on. -/
theorem JoinsPart.step (h : JoinsPart ctx L N l c) (hc : Ordinary c) (he : e.JoinsTo L N c) :
    ∃ l', l <+: l' ∧ BroughtUp ctx L N l' (c.step ctx e) := by
  obtain ⟨⟨i, inp, k⟩, hin : e.input c = some (i, inp, k), hi, hjoin⟩ := he
  obtain rfl : N = i := hi.symm
  obtain ⟨l', hl, hfeeds⟩ := h.feeds.step (e := e) hc (fun i inp' k' hin' hi => by
    cases hin.symm.trans hin'
    exact (h.ne hi.symm).elim)
  obtain ⟨l₁, hl₁, hholds⟩ := h.part
  refine ⟨l', hl, ordinary_step hc e, hfeeds, FedFrom.mono ?_ hl⟩
  rw [step_servers hin]
  obtain ⟨hrole, hlog⟩ := take_joins hjoin
  have hintact : ((c.servers N).take ctx inp).ledger.Intact ctx.backlog := by
    have hstart : ((c.servers N).take ctx inp).logStore.startIdx = 1 := hlog ▸ h.whole
    refine ⟨⟨_, hlog ▸ hholds.represents⟩, .inl hstart, fun snp _ => ?_⟩
    exact hstart.le.trans (Nat.le_add_left _ _)
  exact ⟨hrole ▸ nofun, ⟨l₁, hl₁, hlog ▸ hholds⟩, hintact⟩

/-- An entry that is processed is the next one of the log. -/
theorem Micro.processes (hm : Micro ctx inp s₀ s o s') {i : Nat} {x : LogEntry}
    (hx : .process i x ∈ o) : i = s₀.smCommitIndex + 1 ∧ x = s₀.logStore.entryAt i ∧
      s₀.smCommitIndex < usub s₀.nextSlot 1 := by
  cases hm with
  | process _ hk _ hlog =>
    have hidx : s.smCommitIndex = s₀.smCommitIndex := hk.field Server.smCommitIndex
    have hstore : s.logStore = s₀.logStore := hk.field Server.logStore
    cases List.mem_singleton.1 hx
    rw [Server.nextSlot, hidx, hstore] at hlog
    rw [hidx, hstore]
    exact ⟨rfl, rfl, hlog⟩
  | note he => cases List.mem_singleton.1 hx; exact he.elim
  | merge => exact (writtenOut_inert _ hx).elim
  | _ => first | cases hx; done | cases List.mem_singleton.1 hx

/-- What a server that is fed processes is in the leader's log. -/
theorem FedFrom.process {R i : Nat} {x : LogEntry} (h : FedFrom R l s)
    (hx : .process i x ∈ (inp.handle ctx s).out) : l[i - 1]? = some x := by
  obtain ⟨l', hl', hholds⟩ := h.holds
  obtain ⟨rfl, rfl, hlt⟩ := (take_path ctx s inp).forall_out (Q := fun e => ∀ i x,
    e = .process i x → i = s.smCommitIndex + 1 ∧ x = s.logStore.entryAt i ∧
      s.smCommitIndex < usub s.nextSlot 1) (by
    rintro s₁ o s₂ hm e he i x rfl
    exact hm.processes he) _ hx i x rfl
  rw [Server.nextSlot, hholds.nextSlot, usub_succ] at hlt
  have hget : l'[s.smCommitIndex]? = some l'[s.smCommitIndex] := List.getElem?_eq_getElem hlt
  have hstart : s.logStore.startIdx ≤ s.smCommitIndex + 1 := h.intact.startIdx_le
  rw [hholds.entryAt hstart hget]
  obtain ⟨r, rfl⟩ := hl'
  exact (List.getElem?_append_left hlt).trans hget

end

/-- **A server that has joined.** If what `N` has in its log when it joins is a part of the leader's
log, and `L` keeps the lead and brings it up, then everything that `N` applies afterwards is in the
leader's log, at the same index. -/
theorem joined_applies (ctx : Context) (b : Int → Boot) (before : List Event) {e : Event}
    {es : List Event} {L N : Int} {l : List LogEntry}
    (h : JoinsPart ctx L N l ((Cluster.start ctx b).run ctx before))
    (he : e.JoinsTo L N ((Cluster.start ctx b).run ctx before))
    (hes : (((Cluster.start ctx b).run ctx before).step ctx e).Meets ctx
      (Event.BringsUp ctx L N) es) :
    (((Cluster.start ctx b).run ctx before).step ctx e).Meets ctx
      (Event.AppliesFrom ctx L N l) es := by
  refine hes.of_inv (I := fun c => ∃ l', l <+: l' ∧ BroughtUp ctx L N l' c) ?_ ?_
    (h.step (ordinary_run b before) he)
  · rintro c e' ⟨l₁, hl₁, hc⟩ he'
    obtain ⟨l₂, hl₂, hc'⟩ := hc.step he'
    exact ⟨l₂, hl₁.trans hl₂, hc'⟩
  · rintro c e' ⟨l₁, hl₁, hc⟩ - rfl i x hx
    exact ⟨l₁, hl₁, hc.feeds.lead.holds, hc.fed.process hx⟩

/-- A leader with its whole log, before any entries have been sent. -/
theorem Feeds.of_unsent {L : Int} {c : Cluster} (hlead : LeadsWith l (c.servers L))
    (hstart : (c.servers L).logStore.startIdx = 1)
    (hsent : ∀ rpc ∈ c.rpcs ++ c.retries,
      rpc.req.type ≠ .appendEntriesRequest ∧ rpc.req.type ≠ .syncLogRequest) :
    Feeds ctx L l c := by
  have hpiece (rpc : Rpc) (hrpc : rpc ∈ c.rpcs ++ c.retries) : PieceOf l rpc :=
    ⟨fun ht => ((hsent rpc hrpc).1 ht).elim, fun ht => ((hsent rpc hrpc).2 ht).elim⟩
  refine ⟨hlead, ⟨⟨_, hlead.holds.represents⟩, .inl hstart, fun snp _ => ?_⟩, ?_, ?_⟩
  · exact hstart.le.trans (Nat.le_add_left _ _)
  · exact fun rpc hrpc _ => hpiece rpc (List.mem_append_left _ hrpc)
  · exact fun rpc hrpc _ => hpiece rpc (List.mem_append_right _ hrpc)

end

/-- A server is brought up until it has all but the last entry that the leader has committed. -/
def closeSync : Context := { params := { logSyncStopGap := 1 } }

/-- A leader of one server with a client's entry has invited a server that has never led. -/
def invitedFresh : List Event :=
  [.electionTimeout 1, .client 1 [[7, 0]] 0, .commitBg 1, .addServer 1 (srvAt 2)]

/-- The new server gets a log pack, then the rest by an append request, and applies them. -/
def broughtUp : List Event :=
  [.respond 0 0, .deliver 1 0, .respond 1 0, .commitBg 1, .commitBg 1, .hbTimeout 1 1,
    .deliver 2 0, .respond 2 0, .commitBg 2, .commitBg 2, .commitBg 2]

theorem joined_applies_fresh :
    (((Cluster.start closeSync alone).run closeSync invitedFresh).step closeSync
      (.deliver 0 0)).Meets closeSync (Event.AppliesFrom closeSync 1 2
        [⟨1, .conf, .config ⟨1, 0, [srvAt 1]⟩⟩, ⟨1, .appLog, .bytes [7, 0]⟩]) broughtUp ∧
      ((((Cluster.start closeSync alone).run closeSync invitedFresh).step closeSync
        (.deliver 0 0)).run closeSync broughtUp).processed.map (fun p => (p.1, p.2.1)) =
          [(1, 1), (1, 2), (1, 3), (2, 1), (2, 2), (2, 3)] := by
  have hlead : LeadsWith [⟨1, .conf, .config ⟨1, 0, [srvAt 1]⟩⟩, ⟨1, .appLog, .bytes [7, 0]⟩]
      (((Cluster.start closeSync alone).run closeSync invitedFresh).servers 1) := by
    refine ⟨by decide +kernel, by decide +kernel, by decide +kernel, by decide +kernel, rfl⟩
  have hsent : ∀ rpc ∈ ((Cluster.start closeSync alone).run closeSync invitedFresh).rpcs ++
      ((Cluster.start closeSync alone).run closeSync invitedFresh).retries,
      rpc.req.type ≠ .appendEntriesRequest ∧ rpc.req.type ≠ .syncLogRequest := by
    decide +kernel
  have hpart : JoinsPart closeSync 1 2
      [⟨1, .conf, .config ⟨1, 0, [srvAt 1]⟩⟩, ⟨1, .appLog, .bytes [7, 0]⟩]
      ((Cluster.start closeSync alone).run closeSync invitedFresh) := by
    refine ⟨by decide, .of_unsent hlead (by decide +kernel) hsent, ⟨[], List.nil_prefix, ?_⟩,
      by decide +kernel⟩
    exact ⟨by decide +kernel, by decide +kernel, rfl⟩
  refine ⟨joined_applies closeSync alone invitedFresh hpart ?_ ?_, ?_⟩
  · decide +kernel
  · decide +kernel
  · decide +kernel

/-- Two servers lead clusters of their own, in the same term, and one has invited the other. -/
def invitedLeader : List Event :=
  [.electionTimeout 1, .commitBg 1, .electionTimeout 2, .addServer 1 (srvAt 2)]

/-- The other server accepts the entry of the leader that follows its own, and applies its own. -/
def broughtUpOwn : List Event :=
  [.respond 0 0, .commitBg 1, .hbTimeout 1 1, .deliver 1 0, .respond 1 0, .deliver 2 0, .commitBg 2]

/-- A server that joins with a log of its own applies that log. Nothing else is missing of the
condition: the leader has its log, and it keeps the lead and brings up the other server. -/
theorem joined_applies_own :
    (Feeds {} 1 [⟨1, .conf, .config ⟨1, 0, [srvAt 1]⟩⟩]
        ((Cluster.start {} alone).run {} invitedLeader) ∧
      (((Cluster.start {} alone).run {} invitedLeader).servers 2).logStore.startIdx = 1 ∧
      (Event.deliver 0 0).JoinsTo 1 2 ((Cluster.start {} alone).run {} invitedLeader) ∧
      (((Cluster.start {} alone).run {} invitedLeader).step {} (.deliver 0 0)).Meets {}
        (Event.BringsUp {} 1 2) broughtUpOwn) ∧
    ((∀ p ∈ ((Cluster.start {} alone).run {} invitedLeader).processed, p.1 ≠ 2) ∧
      ∃ x, (2, 1, x) ∈ ((Cluster.start {} alone).run {}
          (invitedLeader ++ .deliver 0 0 :: broughtUpOwn)).processed ∧
        (((Cluster.start {} alone).run {}
          (invitedLeader ++ .deliver 0 0 :: broughtUpOwn)).servers 1).logStore.startIdx = 1 ∧
        (((Cluster.start {} alone).run {}
          (invitedLeader ++ .deliver 0 0 :: broughtUpOwn)).servers 1).logStore.entryAt 1 ≠ x) := by
  have hlead : LeadsWith [⟨1, .conf, .config ⟨1, 0, [srvAt 1]⟩⟩]
      (((Cluster.start {} alone).run {} invitedLeader).servers 1) :=
    ⟨by decide +kernel, by decide +kernel, by decide +kernel, by decide +kernel, rfl⟩
  have hsent : ∀ rpc ∈ ((Cluster.start {} alone).run {} invitedLeader).rpcs ++
      ((Cluster.start {} alone).run {} invitedLeader).retries,
      rpc.req.type ≠ .appendEntriesRequest ∧ rpc.req.type ≠ .syncLogRequest := by
    decide +kernel
  have hown : ((2 : Int), 1, some [(2 : Int)]) ∈ ((Cluster.start {} alone).run {}
      (invitedLeader ++ .deliver 0 0 :: broughtUpOwn)).processed.map
        fun p => (p.1, p.2.1, p.2.2.config?.map ClusterConfig.ids) := by
    decide +kernel
  have hleader : ((((Cluster.start {} alone).run {}
      (invitedLeader ++ .deliver 0 0 :: broughtUpOwn)).servers 1).logStore.entryAt 1).config?.map
        ClusterConfig.ids = some [1] := by
    decide +kernel
  refine ⟨⟨.of_unsent hlead (by decide +kernel) hsent, by decide +kernel, by decide +kernel,
    by decide +kernel⟩, by decide +kernel, ?_⟩
  obtain ⟨⟨i, k, x⟩, hp, heq⟩ := List.mem_map.1 hown
  obtain ⟨rfl, rfl, hx⟩ : i = 2 ∧ k = 1 ∧ x.config?.map ClusterConfig.ids = some [2] := by
    simpa using heq
  refine ⟨x, hp, by decide +kernel, ?_⟩
  rintro rfl
  cases hleader.symm.trans hx

end EnclaveRaft
