import EnclaveRaft.AppendMerge
import EnclaveRaft.CursorRange
import EnclaveRaft.Matching
import EnclaveRaft.Turns

/-!
# Terms of compacted entries

Compaction drops entries, and with them their terms. Of what is below the start of its log a server
only knows the term at the index of its last snapshot. Three callers ask for terms: a candidate for
that of its last entry, a leader for that of the entry before a peer's cursor, a receiver of an
append request for that of the entry which the request starts after. A leader whose cursor is
further below turns to snapshots; the echo state machine's have no data, which ends in an exception
as well.

A candidate always gets its answer. The others depend on the cursors and on the messages: compaction
looks at neither (`Input.AsksKnown`).
-/

namespace EnclaveRaft

open Act Server

/-! ## The condition -/

/-- The server can tell the term of the entry at `idx`. -/
def Server.KnowsTerm (s : Server) (idx : Nat) : Prop :=
  idx = 0 ∨ s.logStore.startIdx ≤ idx ∨ ∃ snp ∈ s.smLastSnapshot, snp.lastLogIdx = idx

/-- The server can tell the term of the entry before a cursor. A cursor at 0 is one that has yet to
be set. -/
def Server.KnowsCursor (s : Server) (next : Nat) : Prop := next ≠ 0 → s.KnowsTerm (next - 1)

instance (s : Server) (idx : Nat) : Decidable (s.KnowsTerm idx) :=
  inferInstanceAs (Decidable (_ ∨ _ ∨ _))

instance (s : Server) (next : Nat) : Decidable (s.KnowsCursor next) :=
  inferInstanceAs (Decidable (_ → _))

/-- The condition for no compacted entry to be asked for.
* An append request starts after an entry whose term the receiver knows or which it does not have; a
  request of its term or a later one starts at the very beginning only if nothing is compacted.
* A reply moves a leader's cursor behind an entry whose term the leader knows.
* A background round leaves a leader with the terms that its cursors need. -/
def Input.AsksKnown (ctx : Context) (s : Server) : Input → Prop
  | request req _ => req.type = .appendEntriesRequest →
      (req.lastLogIdx < s.nextSlot → s.KnowsTerm req.lastLogIdx) ∧
        (req.lastLogIdx = 0 → s.term ≤ req.term → s.logStore.startIdx = 1)
  | response _ resp _ => resp.type = .appendEntriesResponse → resp.term ≤ s.term →
      s.role = .leader → ∀ p ∈ s.findPeer resp.src,
        s.KnowsCursor (resp.appendMove p).nextLogIdx
  | commitBg => (commitInBg ctx s).state.role = .leader →
      ∀ p ∈ (commitInBg ctx s).state.peers, (commitInBg ctx s).state.KnowsCursor p.nextLogIdx
  | _ => True

instance (ctx : Context) (s : Server) : (inp : Input) → Decidable (inp.AsksKnown ctx s)
  | .request _ _ => inferInstanceAs (Decidable (_ → _ ∧ _))
  | .response _ resp _ => inferInstanceAs (Decidable (resp.type = .appendEntriesResponse →
      resp.term ≤ s.term → s.role = .leader → ∀ p ∈ s.findPeer resp.src,
        s.KnowsCursor (resp.appendMove p).nextLogIdx))
  | .commitBg => inferInstanceAs (Decidable (_ → ∀ p ∈ _, _))
  | .electionTimeout | .hbTimeout _ | .failure _ | .resend _ => instDecidableTrue

/-- The exceptions of those who ask for what is compacted. -/
def RaftException.AsksCompacted : RaftException → Prop
  | badLogIdx _ | noSnapshotForPeer _ | invalidSnapshot => True
  | _ => False

/-! ## Servers that can answer -/

/-- What a server needs to create its requests: it knows the term of its last entry and, if `P` and
it leads, of the entries before its cursors. -/
structure Ready (P : Prop) (s : Server) : Prop where
  join : s.srvToJoin = none
  holds : ∃ l, s.logStore.Holds l
  snapshot : ∀ snp ∈ s.smLastSnapshot, s.logStore.startIdx ≤ snp.lastLogIdx + 1
  last : s.KnowsTerm (s.nextSlot - 1)
  cursors : P → s.role = .leader → ∀ p ∈ s.peers, s.KnowsCursor p.nextLogIdx

section

variable {P : Prop} {s s' : Server} {idx : Nat}

theorem Server.KnowsTerm.congr (h : s.KnowsTerm idx)
    (hstart : s'.logStore.startIdx = s.logStore.startIdx)
    (hsnp : s'.smLastSnapshot = s.smLastSnapshot) : s'.KnowsTerm idx := by
  unfold Server.KnowsTerm
  rw [hstart, hsnp]
  exact h

/-- The last entry of a log is there, or it is the one that the snapshot was taken at. -/
theorem knowsTerm_last {l : List LogEntry} (h : s.logStore.Holds l)
    (hlast : s.logStore.startIdx ≤ l.length ∨ l = [] ∨
      ∃ snp ∈ s.smLastSnapshot, snp.lastLogIdx = l.length) : s.KnowsTerm (s.nextSlot - 1) := by
  have hslot : s.nextSlot - 1 = l.length := by rw [Server.nextSlot, h.nextSlot, Nat.add_sub_cancel]
  rw [hslot]
  rcases hlast with hstart | rfl | hsnp
  · exact .inr (.inl hstart)
  · exact .inl rfl
  · exact .inr (.inr hsnp)

namespace Ready

theorem slot (h : Ready P s) : 1 ≤ s.nextSlot := by
  obtain ⟨l, hl⟩ := h.holds
  rw [Server.nextSlot, hl.nextSlot]
  exact Nat.le_add_left _ _

theorem congr (h : Ready P s) (hjoin : s'.srvToJoin = none) (hlog : s'.logStore = s.logStore)
    (hsnp : s'.smLastSnapshot = s.smLastSnapshot)
    (hcur : P → s'.role = .leader → ∀ p ∈ s'.peers, s.KnowsCursor p.nextLogIdx) : Ready P s' where
  join := hjoin
  holds := hlog ▸ h.holds
  snapshot := by
    rw [hlog, hsnp]
    exact h.snapshot
  last := by
    rw [Server.nextSlot, hlog]
    exact h.last.congr (congrArg LogStore.startIdx hlog) hsnp
  cursors hP hl p hp hne := (hcur hP hl p hp hne).congr (congrArg LogStore.startIdx hlog) hsnp

/-- Nothing that matters changes. -/
theorem same (h : Ready P s) (hjoin : s'.srvToJoin = s.srvToJoin) (hlog : s'.logStore = s.logStore)
    (hsnp : s'.smLastSnapshot = s.smLastSnapshot) (hrole : s'.role = s.role)
    (hpeers : s'.peers = s.peers) : Ready P s' :=
  h.congr (hjoin.trans h.join) hlog hsnp fun hP hl p hp => h.cursors hP (hrole ▸ hl) p (hpeers ▸ hp)

theorem of_follower (h : Ready P s) (hjoin : s'.srvToJoin = none) (hlog : s'.logStore = s.logStore)
    (hsnp : s'.smLastSnapshot = s.smLastSnapshot) (hrole : s'.role ≠ .leader) : Ready P s' :=
  h.congr hjoin hlog hsnp fun _ hl => (hrole hl).elim

theorem quiet (h : Ready P s) (hq : Quiet s s') : Ready P s' := by
  refine h.congr ?_ (hq.field Server.logStore) (hq.field Server.smLastSnapshot) fun hP hl p hp => ?_
  · have hjoin : s'.srvToJoin.map Peer.uid = s.srvToJoin.map Peer.uid :=
      hq.field (fun s => s.srvToJoin.map Peer.uid) fun s => by
        simp [Server.core, Peer.core, Function.comp_def]
    rw [h.join] at hjoin
    exact Option.map_eq_none_iff.1 hjoin
  · obtain ⟨q, hq', hcore⟩ := hq.mem_peers hp
    rw [← show q.nextLogIdx = p.nextLogIdx from Peer.field_eq hcore Peer.nextLogIdx]
    exact h.cursors hP ((hq.field Server.role).symm.trans hl) q hq'

/-- A change of the object `uid`. -/
theorem onPeer (h : Ready P s) {uid : Nat} {f : Peer → Peer}
    (hf : P → s.role = .leader → ∀ p ∈ s.peers, p.uid = uid → s.KnowsCursor p.nextLogIdx →
      s.KnowsCursor (f p).nextLogIdx) : Ready P (s.onPeer uid f) := by
  refine h.congr ?_ rfl rfl fun hP hl q hq => ?_
  · show s.srvToJoin.map _ = none
    rw [h.join]
    rfl
  · obtain ⟨p, hp, rfl⟩ := List.mem_map.1 hq
    have hold := h.cursors hP hl p hp
    show s.KnowsCursor (if p.uid = uid then f p else p).nextLogIdx
    split
    next huid => exact hf hP hl p hp huid hold
    next => exact hold

theorem aimed (h : Ready P s) (uid : Nat) : Ready P (aimed uid s) := by
  refine h.onPeer fun _ _ p _ _ hp => ?_
  split
  · exact fun _ => h.last
  · exact hp

theorem becomeFollower (h : Ready P s) : Ready P (becomeFollower s) := by
  have hk := keeps_becomeFollower s
  refine h.of_follower ?_ (hk.field Server.logStore) (hk.field Server.smLastSnapshot) ?_
  · unfold EnclaveRaft.becomeFollower restartElectionTimer
    split <;> rfl
  · rw [becomeFollower_role]
    nofun

theorem enterTerm (h : Ready P s) (t : Nat) : Ready P (enterTerm t s) :=
  Ready.becomeFollower (h.same rfl rfl rfl rfl rfl)

theorem takeLead (h : Ready P s) : Ready P (takeLead s) := by
  refine h.congr rfl rfl rfl fun _ _ p hp => ?_
  obtain ⟨q, -, rfl⟩ := List.mem_map.1 hp
  exact fun _ => h.last

/-- An entry at the end of the log. -/
theorem append (h : Ready P s) (e : LogEntry) :
    Ready P { s with logStore := s.logStore.append e } := by
  obtain ⟨l, hl⟩ := h.holds
  refine ⟨h.join, ⟨_, hl.append e⟩, h.snapshot, ?_, fun hP hlead p hp hne => ?_⟩
  · refine knowsTerm_last (hl.append e) (.inl ?_)
    rw [List.length_append]
    exact hl.le
  · exact (h.cursors hP hlead p hp hne).congr rfl rfl

end Ready

end

/-! ## Small steps -/

/-- A static server that is ready, with what keeps it so. -/
structure Known (P : Prop) (ctx : Context) (s : Server) : Prop extends Ready P s where
  objects : PeerObjects s
  stored : ∃ l, Stored ctx s l

section

variable {P : Prop} {m : Members} {ctx : Context} {inp : Input} {s₀ s s' : Server} {o : List Effect}

/-- A request that the server takes in starts within its log. -/
theorem Input.AsksKnown.start_le {req : ReqMsg} {now : Int}
    (h : (Input.request req now).AsksKnown ctx s₀) (hinp : req.type = .appendEntriesRequest)
    (hk : Keeps s₀ s) (hterm : s₀.term ≤ req.term)
    (hsnp : ∀ snp ∈ s.smLastSnapshot, s.logStore.startIdx ≤ snp.lastLogIdx + 1)
    (hokay : ReqOkay s req) : s.logStore.startIdx ≤ req.lastLogIdx + 1 := by
  have hlog : s.logStore = s₀.logStore := hk.field Server.logStore
  rcases hokay with h0 | ⟨-, ⟨h0, -⟩ | ⟨-, hstart, -⟩ | ⟨-, -, snp, hmem, hidx, -⟩⟩
  · rw [hlog, (h hinp).2 h0 hterm]
    exact Nat.le_add_left _ _
  · rw [hlog, (h hinp).2 h0 hterm]
    exact Nat.le_add_left _ _
  · exact hstart.trans (Nat.le_succ _)
  · rw [hidx]
    exact hsnp snp hmem

/-- The cursor that a reply leads to is one that the leader knows the term for. -/
theorem Input.AsksKnown.moved {resp : RespMsg} {p : Peer} (h : inp.AsksKnown ctx s₀)
    (hans : inp.Answers .appendEntriesResponse resp) (hk : Quiet s₀ s) (hterm : resp.term ≤ s.term)
    (hl : s.role = .leader) (hp : s.findPeer resp.src = some p) :
    s.KnowsCursor (resp.appendMove p).nextLogIdx := by
  obtain ⟨rpc, now, rfl, -, htype⟩ := hans
  obtain ⟨q, hq, hcore⟩ := hk.findPeer_core hp
  have hknows := h htype (hterm.trans (hk.field Server.term).le)
    ((hk.field Server.role).symm.trans hl) q hq
  have hnext : (resp.appendMove q).nextLogIdx = (resp.appendMove p).nextLogIdx := by
    have hold : q.nextLogIdx = p.nextLogIdx := Peer.field_eq hcore Peer.nextLogIdx
    unfold RespMsg.appendMove
    split
    · rfl
    · unfold moveBack
      rw [hold]
      split <;> rfl
  rw [← hnext]
  exact fun hne => (hknows hne).congr (congrArg LogStore.startIdx (hk.field Server.logStore))
    (hk.field Server.smLastSnapshot)

/-- The entries of a request are taken in. -/
theorem Known.merge {k : Nat} {b : Bool} {es : List LogEntry} (h : Known P ctx s)
    (hrole : s.role = .follower) (hstart : s.logStore.startIdx ≤ k + 1) (hk : k < s.nextSlot)
    (ho : PeerObjects { s with logStore := written s.logStore k es, configChanging := b }) :
    Known P ctx { s with logStore := written s.logStore k es, configChanging := b } := by
  obtain ⟨l, hl⟩ := h.stored
  have hle : k ≤ l.length := by
    rw [Server.nextSlot, hl.holds.nextSlot] at hk
    exact Nat.le_of_lt_succ hk
  have hw := Holds.written hl.holds hstart hle es
  have hbelow : (History.merged LogEntry.term l k es).take
      ((written s.logStore k es).startIdx - 1) =
        l.take ((written s.logStore k es).startIdx - 1) := by
    rw [written_startIdx]
    refine List.ext_getElem? fun j => ?_
    rw [List.getElem?_take, List.getElem?_take]
    split
    next hj => exact History.merged_below hle (by omega)
    next => rfl
  refine ⟨⟨h.join, ⟨_, hw⟩, ?_, ?_, ?_⟩, ho, _, (hl.withLog hw (written_startIdx _ _ _)
    hbelow).same rfl rfl rfl rfl rfl⟩
  · show ∀ snp ∈ s.smLastSnapshot, (written s.logStore k es).startIdx ≤ _
    rw [written_startIdx]
    exact h.snapshot
  · cases es with
    | nil => exact h.last
    | cons e es =>
      -- Either nothing is written, or the last entry is a new one.
      rcases Holds.written_cases hl.holds hstart hle (e :: es) with ⟨-, hsame⟩ | hslot
      · rw [hsame]
        exact h.last
      · refine .inr (.inl ?_)
        show (written s.logStore k (e :: es)).startIdx ≤
          (written s.logStore k (e :: es)).nextSlot - 1
        rw [written_startIdx, hslot, List.length_cons]
        omega
  · exact fun _ hl => by cases hrole.symm.trans hl

/-- A background round without the cursors. -/
theorem Known.snapshotTaken {snp : Snapshot} {conf : ClusterConfig} (h : Known P ctx s) (hP : ¬P)
    (h₀ : ∃ l, Stored ctx s₀ l) (hdist : ctx.params.snapshotDistance ≠ 0)
    (hlog : s.logStore = s₀.logStore) (hidx : s.smCommitIndex = s₀.smCommitIndex + 1)
    (hle : s.smCommitIndex ≤ usub s.nextSlot 1)
    (hsnp : snp = ⟨s.smCommitIndex, s.logStore.termAt s.smCommitIndex, conf, 0⟩)
    (ho : PeerObjects (onSnapshotCompleted ctx snp { s with smLastSnapshot := some snp })) :
    Known P ctx (onSnapshotCompleted ctx snp { s with smLastSnapshot := some snp }) := by
  obtain ⟨l, hl⟩ := h.stored
  obtain ⟨l₀, hl₀⟩ := h₀
  have hstart : s₀.logStore.startIdx ≤ s₀.smCommitIndex + 1 := by
    rcases hl₀.compacted with h1 | ⟨-, h1⟩ <;> omega
  have hstored := Follows.snapshot hl hstart hdist hlog hidx hle hsnp
  rw [Server.nextSlot, hl.holds.nextSlot, usub_succ] at hle
  refine ⟨⟨h.join, ⟨l, hstored.holds⟩, fun snp hmem => (hstored.snapshot snp hmem).1, ?_,
    fun hP' => (hP hP').elim⟩, ho, l, hstored⟩
  subst hsnp
  refine knowsTerm_last hstored.holds ?_
  unfold onSnapshotCompleted
  dsimp only
  split
  next hlt =>
    -- Without reserved entries nothing may be left, and the snapshot was taken at the last one.
    by_cases hlast : s.smCommitIndex - ulong ctx.params.reservedLogItems + 1 ≤ l.length
    · exact .inl hlast
    · exact .inr (.inr ⟨_, rfl, by show s.smCommitIndex = _; omega⟩)
  next => exact .inl (by rw [hlog]; omega)

/-- **Small steps leave servers ready**, but for the cursors in a background round. -/
theorem Known.micro (h : Known P ctx s) (hs : StaticServer m s) (h₀ : StaticServer m s₀)
    (hstored₀ : ∃ l, Stored ctx s₀ l) (hin : StaticInput m inp) (hnew : ∀ snp, ¬inp.Installs snp)
    (hask : inp.AsksKnown ctx s₀) (hP : P → inp ≠ .commitBg) (hterm : s₀.term ≤ s.term)
    (hm : Micro ctx inp s₀ s o s') : Known P ctx s' := by
  have ho := h.objects.micro hm
  have hext := hin.not_isExt
  obtain ⟨l, hl⟩ := h.stored
  have hmoved : ∀ {uid : Nat} {f : Peer → Peer}, (∀ p, (f p).snpSyncCtx = p.snpSyncCtx) →
      ∃ l, Stored ctx (s.onPeer uid f) l := fun hf =>
    ⟨l, hl.onPeer _ fun p hp => (hf p).trans (hl.sync p hp)⟩
  -- Of the object that a reply is about there is one.
  have hunique : ∀ {p q : Peer} {src : Int}, s.findPeer src = some p → q ∈ s.peers →
      q.uid = p.uid → q = p := fun hp hq huid =>
    List.inj_on_of_nodup_map h.objects.nodup hq (List.mem_of_find?_eq_some hp) huid
  cases hm with
  | quiet hq => exact ⟨h.toReady.quiet hq, ho, l, hl.keeps hq.keeps⟩
  | enterTerm => exact ⟨h.toReady.enterTerm _, ho, l, hl.keeps (keeps_enterTerm _ s)⟩
  | stepDown => exact ⟨h.toReady.becomeFollower, ho, l, hl.keeps (keeps_becomeFollower s)⟩
  | stand => exact ⟨h.of_follower h.join rfl rfl nofun, ho, l, hl.same rfl rfl rfl rfl rfl⟩
  | standWin =>
    exact ⟨Ready.takeLead (h.of_follower h.join rfl rfl nofun), ho, l,
      Stored.takeLead (hl.same rfl rfl rfl rfl rfl)⟩
  | tallyWin =>
    exact ⟨Ready.takeLead (h.same rfl rfl rfl rfl rfl), ho, l,
      Stored.takeLead (hl.same rfl rfl rfl rfl rfl)⟩
  | saveInitial | client =>
    refine ⟨(h.append _).same rfl rfl rfl rfl rfl, ho, _, (hl.withLog (hl.holds.append _) rfl
      ?_).same rfl rfl rfl rfl rfl⟩
    exact List.take_append_of_le_length (Nat.sub_le_of_le_add hl.holds.le)
  | aim =>
    refine ⟨h.aimed _, ho, hmoved fun p => ?_⟩
    split <;> rfl
  | startSync hsnp hsize =>
    rw [hl.empty _ hsnp] at hsize
    cases hsize
  | sendSnapshot _ hmsg => exact h
  | ack hans hk hterm hacc hp =>
    refine ⟨h.toReady.onPeer fun _ hlead q hq huid _ => ?_, ho, hmoved fun _ => rfl⟩
    have hknows := hask.moved hans hk hterm hlead hp
    rwa [RespMsg.appendMove, if_pos hacc, ← hunique hp hq huid] at hknows
  | nack hans hk hterm hacc hp =>
    refine ⟨h.toReady.onPeer fun _ hlead q hq huid _ => ?_, ho, hmoved fun p => ?_⟩
    · have hknows := hask.moved hans hk hterm hlead hp
      rwa [RespMsg.appendMove, if_neg (by simp [hacc]), ← hunique hp hq huid] at hknows
    · unfold moveBack
      split <;> rfl
  | snapshotAck _ hp hsync =>
    cases (hl.sync _ (List.mem_of_find?_eq_some hp)).symm.trans hsync
  | merge hreq htype hk hrole hterm' hokay =>
    subst hreq
    refine h.merge hrole ?_ ?_ ho
    · exact hask.start_le htype hk (hterm.trans hterm'.ge) h.snapshot hokay
    · rcases hokay with h0 | ⟨hlt, -⟩
      · rw [h0]
        exact h.slot
      · exact hlt
  | snapshot hbg hdist hlog hidx hle _ hsnp =>
    exact h.snapshotTaken (fun hp => hP hp hbg) hstored₀ hdist hlog hidx hle hsnp ho
  | addConfigured hc hadded hnew =>
    rw [hs.added_eq_nil (h₀.offers hin hc) hadded hnew]
    exact h
  | dropUnconfigured hc =>
    rw [hs.dropUnconfigured_eq (h₀.offers hin hc)]
    exact h
  | installCompact hin' | installApply hin' | installDone hin' => exact (hnew _ hin').elim
  | process =>
    exact ⟨h.same rfl rfl rfl rfl rfl, ho, l, hl.congr rfl (Nat.le_succ _) rfl rfl hl.sync⟩
  | leaveConfig _ hdown => exact (hdown.ne' h₀.down).elim
  | joinProgress hin' => exact (hext hin').elim
  | dropOnly hin' => exact (hext hin').elim
  | abandon _ hin' => exact (hext hin').elim
  | invite hreq htype | leaving hreq htype | join hreq htype | pack hreq htype
  | packCommit hreq htype => subst hreq; simp [StaticInput, htype] at hin
  | confAppend hc => exact (hext (isExt_of_newConfig (by rw [hc]; rfl))).elim
  | _ => exact ⟨h.same rfl rfl rfl rfl rfl, ho, l, hl.same rfl rfl rfl rfl rfl⟩

end

/-! ## Exceptions of a server that can answer -/

/-- The exception has another reason than an entry that is compacted. -/
def RaftException.Unrelated (e : RaftException) : Prop := ¬e.AsksCompacted

/-- A leader that is ready. -/
def Leads (s : Server) : Prop := Ready True s ∧ s.role = .leader

section

variable {ctx : Context} {s s' : Server} {uid : Nat}

theorem ends_exitWith {α : Type} {code : Int} {e : RaftException} {E : RaftException → Prop}
    {Q : α → Server → Prop} (h : E e) : Ends E (exitWith code e) s Q :=
  ends_bind (ends_emit trivial) fun _ _ (_ : True) => ends_throw h

theorem ends_orThrow_bind {α β : Type} {e : RaftException} {E : RaftException → Prop} {a : Option α}
    {f : α → M β} {Q : β → Server → Prop} (h : E e) (hf : ∀ x, a = some x → Ends E (f x) s Q) :
    Ends E (orThrow e a >>= f) s Q := by
  cases a with
  | none => exact ends_bind (R := fun _ _ => False) (ends_throw h) fun _ _ hr => hr.elim
  | some x => exact hf x rfl

theorem ends_sendReq {E : RaftException → Prop} {target : Int} {req : ReqMsg} {h : RespHandler} :
    Ends E (sendReq uid target req h) s fun _ s' => s' = s :=
  ends_get_bind (ends_emit rfl)

theorem raises_saveConfig {E : RaftException → Prop} (hbuf : E .badBuffer) (c : ClusterConfig) :
    Raises E (saveConfig c) := by
  unfold saveConfig
  split
  · exact raises_modify _
  · exact raises_throw hbuf

theorem ends_termForLog {idx : Nat} (h : s.KnowsTerm idx) :
    Ends RaftException.Unrelated (termForLog idx) s fun _ s' => s' = s := by
  refine ends_get_bind (ends_ite (fun _ => ends_pure rfl) fun h0 => ?_)
  refine ends_ite (fun _ => ends_pure rfl) fun hlt => ?_
  obtain ⟨snp, hsnp, hidx⟩ := (h.resolve_left h0).resolve_left hlt
  rw [Option.mem_def.1 hsnp]
  exact ends_ite (fun _ => ends_pure rfl) fun hne => (hne hidx.symm).elim

/-- The cursor of a peer is set once a request to it is created. -/
theorem Ready.object_aimed {P : Prop} {p : Peer} (h : Ready P s)
    (hp : (EnclaveRaft.aimed uid s).object uid = some p) :
    p ∈ (EnclaveRaft.aimed uid s).peers ∧ p.nextLogIdx ≠ 0 := by
  constructor
  · have hmem := List.mem_of_find?_eq_some hp
    rw [(h.aimed uid).join] at hmem
    simpa using hmem
  · unfold EnclaveRaft.aimed at hp
    rw [object_onPeer s uid _ fun q => by split <;> rfl] at hp
    obtain ⟨q, -, rfl⟩ := Option.map_eq_some_iff.1 hp
    have hslot := h.slot
    split
    · exact Nat.ne_of_gt hslot
    · assumption

/-- A leader that is ready does not turn to snapshots, and gets the term it asks for. -/
theorem ends_createAppendEntriesReq (h : Leads s) :
    Ends RaftException.Unrelated (createAppendEntriesReq ctx uid) s fun _ s' => Leads s' := by
  have hready : Ready True (aimed uid s) := h.1.aimed uid
  have hleads : Leads (aimed uid s) := ⟨hready, h.2⟩
  refine ends_modify_bind (ends_get_bind (ends_orThrow_bind not_false fun p hp => ?_))
  change (aimed uid s).object uid = some p at hp
  obtain ⟨hmem, hne⟩ := h.1.object_aimed hp
  have hlast : (aimed uid s).KnowsTerm (usub p.nextLogIdx 1) := by
    rw [usub_of_le (Nat.pos_of_ne_zero hne)]
    exact hready.cursors trivial h.2 p hmem hne
  refine ends_ite (fun _ => ends_exitWith not_false) fun _ => ends_ite (fun hfar => ?_) fun _ => ?_
  · -- What is further below the start than the snapshot is not known.
    exfalso
    obtain ⟨hpos, hlt⟩ := hfar
    have hlt : usub p.nextLogIdx 1 < usub (aimed uid s).logStore.startIdx 1 := hlt
    obtain ⟨l, hl⟩ := hready.holds
    rw [usub_of_le hl.start] at hlt
    rcases hlast with h0 | hstart | ⟨snp, hsnp, hidx⟩
    · exact hpos.ne' h0
    · omega
    · have hle := hready.snapshot snp hsnp
      omega
  · refine ends_bind (ends_termForLog hlast) fun t s₁ h₁ => ?_
    subst h₁
    exact ends_orThrow_bind not_false fun es _ => ends_pure hleads

theorem Leads.quiet (h : Leads s) (hq : Quiet s s') : Leads s' :=
  ⟨h.1.quiet hq, (hq.field Server.role).trans h.2⟩

theorem ends_requestAppendEntriesTo (h : Leads s) :
    Ends RaftException.Unrelated (requestAppendEntriesTo ctx uid) s fun _ s' => Leads s' := by
  refine ends_get_bind (ends_orThrow_bind not_false fun p _ => ?_)
  refine ends_ite (fun _ => ends_pure h) fun _ => ends_modify_bind ?_
  have hbusy := h.quiet (quiet_onPeer s uid (f := Peer.makeBusy) fun _ => rfl)
  refine ends_bind (ends_createAppendEntriesReq hbusy) fun msg s₁ h₁ => ?_
  refine ends_bind ends_sendReq fun _ s₂ h₂ => ends_pure ?_
  rw [h₂]
  exact h₁

theorem ends_notifyCommit (p : Peer) (h : Leads s) :
    Ends RaftException.Unrelated (notifyCommit ctx p) s fun _ s' => Leads s' := by
  refine ends_bind (ends_requestAppendEntriesTo h) fun sent s₁ h₁ => ?_
  refine ends_ite (fun _ => ends_pure h₁) fun _ => ends_modify ?_
  exact h₁.quiet (quiet_onPeer s₁ p.uid (f := Peer.setPendingCommit) fun _ => rfl)

theorem ends_commit {k : Nat} (h : Ready True s) :
    Ends RaftException.Unrelated (commit ctx k) s fun _ s' =>
      Ready True s' ∧ s'.role = s.role := by
  refine ends_get_bind (ends_when (fun _ => ends_modify_bind ?_) fun _ => ⟨h, rfl⟩)
  have hraised : Ready True { s with quickCommitIdx := k } := h.same rfl rfl rfl rfl rfl
  refine ends_when (fun hrole => ?_) fun _ => ⟨hraised, rfl⟩
  refine (ends_each (I := Leads) s.peers ⟨hraised, hrole⟩ fun p s' => ends_notifyCommit p).weaken ?_
  exact fun _ s' hs' => ⟨hs'.1, hs'.2.trans hrole.symm⟩

theorem ends_requestAppendEntries (h : Leads s) :
    Ends RaftException.Unrelated (requestAppendEntries ctx) s fun _ s' => Leads s' := by
  refine ends_get_bind (ends_ite (fun _ => ?_) fun _ =>
    ends_each (I := Leads) _ h fun p s' hs' => ?_)
  · exact (ends_commit h.1).weaken fun _ _ h' => ⟨h'.1, h'.2.trans h.2⟩
  · exact ends_bind (ends_requestAppendEntriesTo hs') fun _ _ h₁ => ends_pure h₁

theorem ends_becomeLeader (h : Ready True s) :
    Ends RaftException.Unrelated (becomeLeader ctx) s fun _ s' => Leads s' := by
  have hlead : Leads (takeLead s) := ⟨h.takeLead, rfl⟩
  refine ends_modify_bind (ends_get_bind (ends_bind (R := fun _ => Leads) ?_ fun _ s₁ h₁ => ?_))
  · refine ends_when (fun _ => ends_modify ⟨?_, rfl⟩) fun _ => hlead
    exact (hlead.1.append _).same rfl rfl rfl rfl rfl
  · exact ends_requestAppendEntries h₁

/-! ## Timeouts -/

/-- A candidate knows the term of its last entry. -/
theorem ends_sendVoteReq (p : Peer) (h : Ready True s) :
    Ends RaftException.Unrelated (sendVoteReq p) s fun _ s' => Ready True s' := by
  refine ends_get_bind (ends_bind (R := fun _ s' => s' = s) (ends_termForLog ?_) fun t s₁ h₁ => ?_)
  · rw [usub_of_le h.slot]
    exact h.last
  · refine ends_sendReq.weaken fun _ s₂ h₂ => ?_
    rw [h₂, h₁]
    exact h

theorem ends_requestVote (h : Ready True s) :
    Ends RaftException.Unrelated (requestVote ctx) s fun _ s' => Ready True s' := by
  have hvoted : Ready True (voteForSelf s) := h.same rfl rfl rfl rfl rfl
  have hdone : Ready True { voteForSelf s with electionCompleted := true } :=
    hvoted.same rfl rfl rfl rfl rfl
  refine ends_modify_bind (ends_get_bind (ends_ite (fun _ => ends_modify_bind ?_) fun _ => ?_))
  · exact (ends_becomeLeader hdone).weaken fun _ _ h' => h'.1
  · exact ends_each (I := Ready True) _ hvoted fun p s' => ends_sendVoteReq p

theorem ends_handleElectionTimeout (h : Ready True s) :
    Ends RaftException.Unrelated (handleElectionTimeout ctx) s fun _ _ => True := by
  refine ends_get_bind (ends_ite (fun _ => ends_modify_bind ?_) fun _ => ?_)
  · refine ends_ite (fun _ => ?_) fun _ => ends_modify trivial
    refine ends_bind (R := fun _ _ => True) (ends_when (fun _ => ?_) fun _ => trivial)
      fun _ _ _ => ends_exitWith not_false
    exact ends_modify_bind (ends_get_bind (raises_saveConfig not_false _).ends)
  · refine ends_ite (fun _ => ends_modify trivial) fun _ => ?_
    refine ends_ite (fun _ => ends_exitWith not_false) fun _ => ends_modify_bind ?_
    have hstood : Ready True (becomeCandidate s) := h.of_follower h.join rfl rfl nofun
    exact ends_bind (ends_requestVote hstood) fun _ _ _ => ends_modify trivial

theorem ends_handleHbTimeout (h : Ready True s) :
    Ends RaftException.Unrelated (handleHbTimeout ctx uid) s fun _ _ => True :=
  ends_get_bind (ends_when (fun hrole => ends_bind (ends_requestAppendEntriesTo ⟨h, hrole⟩)
    fun _ _ _ => ends_modify trivial) fun _ => trivial)

/-! ## Responses -/

theorem ends_catchUp {b : Bool} (h : Ready True s) :
    Ends RaftException.Unrelated (catchUp ctx uid b) s fun _ _ => True :=
  ends_get_bind (ends_when (fun hrole => ends_bind (ends_requestAppendEntriesTo ⟨h, hrole.1⟩)
    fun _ _ _ => ends_pure trivial) fun _ => trivial)

theorem ends_handleAppendEntriesResp {resp : RespMsg} (h : Ready True s) (ho : PeerObjects s)
    (hmove : s.role = .leader → ∀ p ∈ s.findPeer resp.src,
      s.KnowsCursor (resp.appendMove p).nextLogIdx) :
    Ends RaftException.Unrelated (handleAppendEntriesResp ctx resp) s fun _ _ => True := by
  refine ends_get_bind ?_
  cases hp : s.findPeer resp.src with
  | none => exact ends_pure trivial
  | some p =>
    have hmoved : Ready True (s.onPeer p.uid resp.appendMove) := h.onPeer fun _ hl q hq huid _ => by
      obtain rfl := List.inj_on_of_nodup_map ho.nodup hq (List.mem_of_find?_eq_some hp) huid
      exact hmove hl q hp
    refine ends_ite (fun hacc => ends_modify_bind ?_) fun hrej => ends_modify_bind ?_
    · rw [RespMsg.appendMove, if_pos hacc] at hmoved
      refine ends_get_bind (ends_bind (ends_commit hmoved) fun _ s₁ h₁ => ?_)
      have hcleared := h₁.1.quiet
        (quiet_onPeer s₁ p.uid (f := Peer.clearPendingCommit) fun _ => rfl)
      exact ends_bind (R := fun _ => Ready True)
        (ends_get_bind (ends_modify_bind (ends_pure hcleared)))
        fun _ _ h₂ => ends_get_bind (ends_catchUp h₂)
    · rw [RespMsg.appendMove, if_neg hrej] at hmoved
      exact ends_catchUp hmoved

theorem ends_handleInstallSnapshotResp {resp : RespMsg} (h : Ready True s)
    (hsync : ∀ p ∈ s.peers, p.snpSyncCtx = none) :
    Ends RaftException.Unrelated (handleInstallSnapshotResp ctx resp) s fun _ _ => True := by
  refine ends_get_bind ?_
  cases hp : s.findPeer resp.src with
  | none => exact ends_pure trivial
  | some p =>
    refine ends_ite (fun _ => ?_) fun _ => ends_catchUp h
    rw [hsync p (List.mem_of_find?_eq_some hp)]
    exact ends_pure trivial

theorem ends_handleVotingResp {resp : RespMsg} (h : Ready True s) :
    Ends RaftException.Unrelated (handleVotingResp ctx resp) s fun _ _ => True := by
  have hdone : Ready True { countVote resp s with electionCompleted := true } :=
    h.same rfl rfl rfl rfl rfl
  refine ends_get_bind (ends_ite (fun _ => ends_pure trivial) fun _ => ends_modify_bind ?_)
  refine ends_get_bind (ends_when (fun _ => ends_modify_bind ?_) fun _ => trivial)
  exact (ends_becomeLeader hdone).weaken fun _ _ _ => trivial

theorem ends_updateTerm {t : Nat} {E : RaftException → Prop} :
    Ends E (updateTerm t) s fun updated s' =>
      (s' = enterTerm t s ∨ s' = s) ∧ t ≤ s'.term ∧ (updated = false → s' = s) := by
  refine ends_get_bind (ends_ite (fun _ => ends_modify_bind (ends_pure ⟨.inl rfl, ?_, nofun⟩))
    fun hge => ends_pure ⟨.inr rfl, Nat.le_of_not_lt hge, fun _ => rfl⟩)
  exact (congrArg SrvState.term (enterTerm_state t s)).ge

theorem ends_onResponse {rpc : Rpc} {resp : RespMsg} {now : Int} (h : Known True ctx s)
    (hh : rpc.handler = .peerResp) (hask : (Input.response rpc resp now).AsksKnown ctx s) :
    Ends RaftException.Unrelated (onResponse ctx rpc resp now) s fun _ _ => True := by
  refine ends_modify_bind ?_
  rw [hh]
  refine ends_modify_bind ?_
  have hquiet : Quiet s (heardFrom resp.src now (handleRpcResult rpc true s)) :=
    (quiet_handleRpcResult rpc true s).trans (quiet_heardFrom resp.src now _)
  generalize heardFrom resp.src now (handleRpcResult rpc true s) = s₁ at hquiet ⊢
  have hready := h.toReady.quiet hquiet
  refine ends_bind ends_updateTerm fun updated s₂ h₂ => ?_
  refine ends_ite (fun _ => ends_pure trivial) fun hsame => ?_
  obtain ⟨-, hterm, hsame'⟩ := h₂
  obtain rfl := hsame' (by simpa using hsame)
  cases htype : resp.type with
  | requestVoteResponse => exact ends_handleVotingResp hready
  | appendEntriesResponse =>
    refine ends_handleAppendEntriesResp hready (h.objects.quiet hquiet) fun hl p hp => ?_
    exact hask.moved ⟨rpc, now, rfl, hh, htype⟩ hquiet hterm hl hp
  | installSnapshotResponse =>
    obtain ⟨l, hl⟩ := h.stored
    exact ends_handleInstallSnapshotResp hready (hl.keeps hquiet.keeps).sync
  | _ => exact ends_exitWith not_false

/-! ## Requests -/

theorem ends_logOkay {req : ReqMsg}
    (hknows : req.lastLogIdx < s.nextSlot → s.KnowsTerm req.lastLogIdx) :
    Ends RaftException.Unrelated (logOkay req) s fun _ s' => s' = s := by
  refine ends_get_bind (ends_ite (fun _ => ends_pure rfl) fun _ => ?_)
  refine ends_ite (fun hlt => ?_) fun _ => ends_pure rfl
  exact ends_bind (ends_termForLog (hknows hlt)) fun _ _ h => ends_pure h

theorem ends_hearLeader {e : RaftException} {E : RaftException → Prop} (h : E e) :
    Ends E (hearLeader e) s fun _ s' => Keeps s s' ∧ s'.term = s.term ∧ s'.role = .follower := by
  refine ends_get_bind ?_
  cases hr : s.role with
  | candidate =>
    exact ends_modify ⟨keeps_becomeFollower s, congrArg SrvState.term (becomeFollower_state s),
      becomeFollower_role s⟩
  | leader => exact ends_exitWith h
  | follower =>
    have hq := quiet_restartElectionTimer s
    exact ends_modify ⟨hq.keeps, hq.field Server.term, (hq.field Server.role).trans hr⟩

theorem ends_handleAppendEntries {req : ReqMsg} (hterm : req.term ≤ s.term)
    (hknows : req.lastLogIdx < s.nextSlot → s.KnowsTerm req.lastLogIdx) :
    Ends RaftException.Unrelated (handleAppendEntries ctx req) s fun _ _ => True := by
  refine ends_get_bind (ends_bind (R := fun _ s' => Keeps s s' ∧ s'.term = s.term ∧
    (req.term = s.term → s'.role = .follower)) ?_ fun _ s₁ h₁ => ?_)
  · refine ends_when (fun _ => ?_) fun hne => ⟨.refl s, rfl, fun h => (hne h).elim⟩
    exact (ends_hearLeader not_false).weaken fun _ _ h => ⟨h.1, h.2.1, fun _ => h.2.2⟩
  · obtain ⟨hk, hsame, hrole⟩ := h₁
    have hknows₁ : req.lastLogIdx < s₁.nextSlot → s₁.KnowsTerm req.lastLogIdx := fun hlt =>
      (hknows (hlt.trans_eq (hk.field Server.nextSlot))).congr
        (congrArg LogStore.startIdx (hk.field Server.logStore)) (hk.field Server.smLastSnapshot)
    refine ends_get_bind (ends_bind (ends_logOkay hknows₁) fun okay s₂ h₂ => ?_)
    subst h₂
    refine ends_ite (fun _ => ends_pure trivial) fun hgo => ?_
    -- The request is of the server's term, so the server follows.
    have hfollows : s₂.role ≠ .leader := by
      rw [hrole (by omega)]
      nofun
    by_cases htake : ∀ e ∈ (skipMatching s₂.logStore (req.lastLogIdx + 1) req.logEntries).2,
      ctx.stateMachine.takes e
    · obtain ⟨s', out, hruns, -⟩ := acceptEntries_runs req _ hfollows htake
      exact hruns.ends trivial
    · obtain ⟨s', out, herror⟩ := writeEntries_error htake
      refine ends_bind (R := fun _ _ => False) ?_ fun _ _ hno => hno.elim
      rw [Ends, herror]
      exact ⟨fun e he => by cases he; exact not_false, nofun⟩

theorem ends_handleCliReq {req : ReqMsg} {now : Int} (h : Ready True s) :
    Ends RaftException.Unrelated (handleCliReq ctx req now) s fun _ _ => True := by
  refine ends_bind (R := fun _ => Ready True) ?_ fun expired s₁ h₁ => ?_
  · refine ends_get_bind (ends_ite (fun _ => ends_modify_bind (ends_pure ?_)) fun _ => ends_pure h)
    exact h.same rfl rfl rfl rfl rfl
  · refine ends_get_bind (ends_ite (fun _ => ends_pure trivial) fun _ => ?_)
    refine ends_ite (fun _ => ends_pure trivial) fun hl => ?_
    have hleads : Leads s₁ := ⟨h₁, not_not.1 hl⟩
    refine ends_bind (ends_each (I := Leads) _ hleads fun e s' hs' => ?_) fun _ s₂ h₂ => ?_
    · refine ends_modify_bind (ends_get_bind (ends_bind (R := fun _ => Leads) (ends_emit ?_) ?_))
      · exact ⟨hs'.1.append _, hs'.2⟩
      · exact fun _ s'' hs'' => ends_when (fun _ => ends_throw not_false) fun _ => hs''
    · exact ends_bind (ends_requestAppendEntries h₂) fun _ _ _ =>
        ends_get_bind (ends_pure trivial)

theorem raises_handleVoteReq {E : RaftException → Prop} (req : ReqMsg) :
    Raises E (handleVoteReq req) :=
  raises_get.bind fun _ => raises_ite ((raises_modify _).bind fun _ => raises_pure _)
    (raises_pure _)

theorem ends_processReq {req : ReqMsg} {now : Int} {m : Members} (h : Ready True s)
    (hin : StaticInput m (.request req now)) (hnew : req.type ≠ .installSnapshotRequest)
    (hask : (Input.request req now).AsksKnown ctx s) :
    Ends RaftException.Unrelated (processReq ctx req now) s fun _ _ => True := by
  refine ends_bind (R := fun _ s' => Ready True s' ∧ s'.logStore = s.logStore ∧
    s'.smLastSnapshot = s.smLastSnapshot ∧ (req.type.bringsTerm → req.term ≤ s'.term)) ?_
    fun _ s₁ h₁ => ?_
  · refine ends_when (fun _ => ?_) fun hno => ⟨h, rfl, rfl, fun hyes => (hno hyes).elim⟩
    refine ends_bind ends_updateTerm fun _ s₁ ⟨hs₁, hterm, _⟩ => ends_modify ?_
    have hentered : Ready True s₁ ∧ s₁.logStore = s.logStore ∧
        s₁.smLastSnapshot = s.smLastSnapshot := by
      rcases hs₁ with rfl | rfl
      · have hk := keeps_enterTerm req.term s
        exact ⟨h.enterTerm _, hk.field Server.logStore, hk.field Server.smLastSnapshot⟩
      · exact ⟨h, rfl, rfl⟩
    split
    · exact ⟨hentered.1.same rfl rfl rfl rfl rfl, hentered.2.1, hentered.2.2, fun _ => hterm⟩
    · exact ⟨hentered.1, hentered.2.1, hentered.2.2, fun _ => hterm⟩
  · obtain ⟨hready, hlog, hsnp, hterm⟩ := h₁
    rcases hin.1 with htype | htype | htype | htype
    · rw [htype]
      refine ends_handleAppendEntries (hterm (by rw [htype]; rfl)) fun hlt => ?_
      rw [Server.nextSlot, hlog] at hlt
      exact ((hask htype).1 hlt).congr (congrArg LogStore.startIdx hlog) hsnp
    · rw [htype]
      exact (raises_handleVoteReq req).ends
    · exact (hnew htype).elim
    · rw [htype]
      exact ends_handleCliReq hready

/-! ## Background rounds -/

section

variable {E : RaftException → Prop}

theorem raises_reconfigure (hbuf : E .badBuffer) (conf : ClusterConfig) :
    Raises E (reconfigure ctx conf) := by
  refine raises_get.bind fun s => (raises_modify _).bind fun _ => (raises_modify _).bind fun _ => ?_
  refine raises_get.bind fun s => raises_ite ?_ (raises_modify _)
  exact (raises_saveConfig hbuf conf).bind fun _ => raises_emit _

theorem raises_applyConfig (hbuf : E .badBuffer) (conf : ClusterConfig) :
    Raises E (applyConfig ctx conf) := by
  refine (raises_catching fun _ => raises_exitWith _ hbuf).bind fun _ => ?_
  refine (raises_modify _).bind fun _ => raises_get.bind fun s => ?_
  exact (raises_when (raises_reconfigure hbuf conf)).bind fun _ => raises_modify _

theorem raises_applyEntry (hbuf : E .badBuffer) (hfail : E .stateMachineFailed) (idx : Nat)
    (e : LogEntry) : Raises E (applyEntry ctx idx e) := by
  unfold applyEntry
  split
  · exact (raises_emit _).bind fun _ => raises_when (raises_exitWith _ hfail)
  · split
    · exact raises_applyConfig hbuf _
    · exact raises_exitWith _ hbuf
  · exact raises_pure _

theorem raises_snapshotAndCompact (hcrash : E .crash) (idx : Nat) :
    Raises E (snapshotAndCompact ctx idx) := by
  refine raises_get.bind fun s => raises_ite ?_ (raises_pure _)
  split
  · exact raises_emit _
  · exact raises_emit _
  · exact raises_throw hcrash
  · exact raises_pure _
  · refine raises_ite ?_ (raises_pure _)
    exact (raises_when (raises_emit _)).bind fun _ => raises_modify _

/-- A background round asks for no terms. -/
theorem raises_commitInBg (hbuf : E .badBuffer) (hfail : E .stateMachineFailed)
    (hcrash : E .crash) : Raises E (commitInBg ctx) := by
  refine raises_get.bind fun s => raises_when ?_
  refine (raises_modify _).bind fun _ => (raises_emit _).bind fun _ => ?_
  exact (raises_applyEntry hbuf hfail _ _).bind fun _ => raises_snapshotAndCompact hcrash _

end

end

/-! ## Every input -/

/-- An input to a static server that is ready asks for nothing compacted. -/
theorem Known.unrelated {m : Members} {ctx : Context} {s : Server} {inp : Input}
    (h : Known True ctx s) (hin : StaticInput m inp)
    (hnew : ∀ req now, inp = .request req now → req.type ≠ .installSnapshotRequest)
    (hask : inp.AsksKnown ctx s) {e : RaftException} (he : (inp.handle ctx s).result = .error e) :
    ¬e.AsksCompacted := by
  have hdiscard {α β : Type} {x : M α} {f : α → β}
      (hx : Ends RaftException.Unrelated x s fun _ _ => True) :
      Ends RaftException.Unrelated (x >>= fun a => pure (f a)) s fun _ _ => True :=
    ends_bind hx fun _ _ _ => ends_pure trivial
  suffices hends : Ends RaftException.Unrelated (inp.handle ctx) s fun _ _ => True from
    hends.1 e he
  cases inp with
  | electionTimeout => exact hdiscard (ends_handleElectionTimeout h.toReady)
  | hbTimeout uid => exact hdiscard (ends_handleHbTimeout h.toReady)
  | request req now => exact hdiscard (ends_processReq h.toReady hin (hnew req now rfl) hask)
  | response rpc resp now => exact hdiscard (ends_onResponse h hin hask)
  | failure rpc =>
    refine hdiscard (ends_modify_bind ?_)
    rw [show rpc.handler = .peerResp from hin]
    exact ends_pure trivial
  | resend rpc => exact hin.elim
  | commitBg => exact hdiscard (raises_commitInBg not_false not_false not_false).ends

/-! ## Runs -/

/-- What holds between events. -/
structure KnownInv (m : Members) (ctx : Context) (c : Cluster) : Prop where
  install : ∀ rpc ∈ c.rpcs, rpc.req.type ≠ .installSnapshotRequest
  server : ∀ i ∈ m.ids, Known True ctx (c.servers i)

section

variable {m : Members} {ctx : Context} {inp : Input} {s₀ s s' : Server} {o : List Effect}
  {c : Cluster} {e : Event}

/-- No snapshot is sent. -/
theorem Micro.sends_no_snapshot {l : List LogEntry} (hs : StaticServer m s) (hl : Stored ctx s l)
    (hin : StaticInput m inp) (hm : Micro ctx inp s₀ s o s') {rpc : Rpc} (hrpc : .send rpc ∈ o) :
    rpc.req.type ≠ .installSnapshotRequest := by
  cases hm with
  | sendVote => cases List.mem_singleton.1 hrpc; nofun
  | sendAppend _ hmsg =>
    cases List.mem_singleton.1 hrpc
    obtain ⟨p, t, es, -, -, -, -, -, rfl⟩ := hmsg
    nofun
  | sendSnapshot _ hmsg =>
    obtain ⟨p, sync, -, -, hp, hsync, -⟩ := hmsg
    cases (hl.sync p (hs.object_mem hp)).symm.trans hsync
  | note he => cases List.mem_singleton.1 hrpc; exact he.elim
  | merge => exact (writtenOut_inert _ hrpc).elim
  | sendExt hin' => exact (hin.not_isAdmin hin').elim
  | resend hin' => subst hin'; exact hin.elim
  | client => cases List.mem_singleton.1 hrpc
  | process => cases List.mem_singleton.1 hrpc
  | retry => cases List.mem_singleton.1 hrpc
  | _ => cases hrpc

/-- An event leaves the servers ready. -/
theorem knownInv_step (he : e.Static m)
    (hask : e.Allowed (fun c i inp => inp.AsksKnown ctx (c.servers i)) c) (hc : StaticCluster m c)
    (h : KnownInv m ctx c) : StaticCluster m (c.step ctx e) ∧ KnownInv m ctx (c.step ctx e) := by
  have hstep : StaticCluster m (c.step ctx e) ∧
      (∀ rpc ∈ (c.step ctx e).rpcs, rpc.req.type ≠ .installSnapshotRequest) ∧
      ∀ i ∈ m.ids, Known (e ≠ .commitBg i) ctx ((c.step ctx e).servers i) ∧
        (c.servers i).term ≤ ((c.step ctx e).servers i).term := by
    refine static_step (J := fun c' => (∀ rpc ∈ c'.rpcs, rpc.req.type ≠ .installSnapshotRequest) ∧
        ∀ i ∈ m.ids, Known (e ≠ .commitBg i) ctx (c'.servers i) ∧
          (c.servers i).term ≤ (c'.servers i).term)
      (K := fun c i inp => inp.AsksKnown ctx (c.servers i) ∧ (inp = .commitBg ↔ e = .commitBg i))
      he ?_ hc ?_ ?_ ?_
    · exact fun i inp k hin => ⟨hask i inp k hin, commitBg_input_iff hin⟩
    · refine ⟨h.install, fun i hi => ⟨?_, le_rfl⟩⟩
      have hi := h.server i hi
      exact { hi with cursors := fun _ => hi.cursors trivial }
    · rintro c' i inp o s' ht ⟨hasks, hbg⟩ ⟨hinstall, hserver⟩ hm
      obtain ⟨hknown, hterm⟩ := hserver i ht.mem
      obtain ⟨l, hl⟩ := hknown.stored
      have hjoins : ∀ req now, inp = .request req now → req.type ≠ .joinClusterRequest := by
        rintro req now rfl htype
        have hin := ht.input
        simp [StaticInput, htype] at hin
      have hnew : ∀ snp, ¬inp.Installs snp := by
        rintro snp ⟨req, now, e, sync, rfl, htype, -⟩
        obtain ⟨rpc, hrpc, rfl, -⟩ := ht.request (.inr (.inr htype))
        exact h.install rpc hrpc htype
      refine ⟨fun rpc hrpc => ?_, fun j hj => ?_⟩
      · rcases Cluster.mem_update_rpcs hrpc with hrpc | hrpc
        · exact hinstall rpc hrpc
        · exact hm.sends_no_snapshot (ht.static.server i ht.mem) hl ht.input hrpc
      · by_cases hji : j = i
        · subst hji
          have hs' := hknown.micro (ht.static.server j hj) (ht.start.server j hj)
            (h.server j hj).stored ht.input hnew hasks (fun hP hin => hP (hbg.1 hin)) hterm hm
          have hmono := (hm.ballot.voteMonotone hjoins).1
          simpa [Cluster.update] using ⟨hs', hterm.trans hmono⟩
        · simpa [Cluster.update, hji] using hserver j hj
    · rintro c' rpc now k resp - - hJ - -
      exact hJ
  obtain ⟨hc', hinstall, hserver⟩ := hstep
  refine ⟨hc', hinstall, fun i hi => ?_⟩
  have hknown := (hserver i hi).1
  refine { hknown with cursors := fun _ hl => ?_ }
  by_cases hbg : e = .commitBg i
  · -- What a background round leaves known is what the condition is about.
    subst hbg
    have hstate : (c.step ctx (.commitBg i)).servers i = (commitInBg ctx (c.servers i)).state :=
      (Cluster.take_servers ctx c i .commitBg none).trans (bind_pure_state _ _ _)
    rw [hstate] at hl ⊢
    exact hask i .commitBg none rfl hl
  · exact hknown.cursors hbg hl

theorem knownInv_start {b : Int → Boot} (hb : ∀ i ∈ m.ids, FreshBoot m (b i)) :
    KnownInv m ctx (Cluster.start ctx b) where
  install _ h := (List.not_mem_nil h).elim
  server i hi := by
    have hstart : StaticCluster m (Cluster.start ctx b) :=
      staticCluster_start fun i hi => (hb i hi).static
    have hfollows : Follows m ctx (startHistory ctx b) (Cluster.start ctx b) := follows_start hb
    have hstatic := hstart.server i hi
    have hstored := (hfollows.server i hi).stored
    obtain ⟨ps, n, hframe⟩ := new_frame ctx i (b i)
    have hrole : (Server.new ctx i (b i)).role = .follower := hframe.field Server.role
    refine ⟨⟨hstatic.join, ⟨_, hstored.holds⟩, fun snp hsnp => (hstored.snapshot snp hsnp).1,
      knowsTerm_last hstored.holds (.inr (.inl rfl)), fun _ hl => ?_⟩, .new ctx i (b i), _, hstored⟩
    cases hrole.symm.trans hl

end

/-- A snapshot as soon as there is an entry for one, of which `reserved` entries are kept. -/
def snapshotsKeeping (reserved : Int) : Context :=
  { params := { snapshotDistance := 1, reservedLogItems := reserved } }

/-- Server 1 is elected, both others accept its first entry and learn that it is committed. -/
def shareFirst : List Event :=
  electOne ++ [.deliver 2 0, .respond 1 0, .deliver 3 0, .respond 2 0, .deliver 4 0, .respond 3 0,
    .deliver 5 0, .respond 4 0]

/-- Both others accept a client's entry before server 1 compacts its whole log. -/
def compactShared : List Event :=
  shareFirst ++ [.client 1 [[7, 0]] 0, .deliver 6 0, .respond 5 0, .deliver 7 0, .respond 6 0,
    .commitBg 1, .commitBg 1, .deliver 8 0, .respond 7 0, .hbTimeout 1 0]

/-- Server 2 alone accepts two of a client's entries, and server 1 takes a snapshot. The request to
server 3 is lost. -/
def compactAhead : List Event :=
  shareFirst ++ [.client 1 [[7, 0], [8, 0]] 0, .deliver 6 0, .respond 5 0, .commitBg 1, .commitBg 1,
    .fail 7]

end EnclaveRaft
