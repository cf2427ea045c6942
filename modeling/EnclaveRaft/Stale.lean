import EnclaveRaft.Objects

/-!
# Late replies to append requests

`handle_peer_resp` announces that responses of a lower term are ignored, and passes them on all
the same: `handle_append_entries_resp` moves the cursors of the peer and the commit index
whatever the term of the response and the role of the server. This module says exactly when a
reply that comes too late leaves them alone.
-/

namespace EnclaveRaft

open Act Server

variable {ctx : Context} {s s' : Server}

/-! ## Cursors -/

/-- What a leader knows of a peer's log. -/
structure Cursor where
  uid : Nat
  id : Int
  next : Nat
  matched : Nat
  deriving DecidableEq

def Peer.cursor (p : Peer) : Cursor := ⟨p.uid, p.id, p.nextLogIdx, p.matchedIdx⟩

def Server.cursors (s : Server) : List Cursor := s.peers.map Peer.cursor

/-- Update the cursor of a peer object. -/
def Cursor.on (uid : Nat) (f : Cursor → Cursor) (c : Cursor) : Cursor :=
  if c.uid = uid then f c else c

theorem Cursor.on_eq_self {uid : Nat} {f : Cursor → Cursor} {c : Cursor} :
    Cursor.on uid f c = c ↔ (c.uid = uid → f c = c) := by
  unfold Cursor.on
  split
  next hu => exact ⟨fun h _ => h, fun h => h hu⟩
  next hu => exact ⟨fun _ h => (hu h).elim, fun _ => rfl⟩

/-- Moving the cursor of one object changes nothing exactly if it was there before. -/
theorem map_on_eq_self {l : List Cursor} {uid : Nat} {f : Cursor → Cursor} :
    l.map (Cursor.on uid f) = l ↔ ∀ c ∈ l, c.uid = uid → f c = c := by
  induction l with
  | nil => simp
  | cons c l ih => rw [List.map_cons, List.cons.injEq, ih, Cursor.on_eq_self, List.forall_mem_cons]

theorem cursors_onPeer (s : Server) (uid : Nat) {f : Peer → Peer} {g : Cursor → Cursor}
    (h : ∀ p : Peer, (f p).cursor = g p.cursor) :
    (s.onPeer uid f).cursors = s.cursors.map (Cursor.on uid g) := by
  have hp : ∀ p : Peer, (if p.uid = uid then f p else p).cursor = Cursor.on uid g p.cursor := by
    intro p
    unfold Cursor.on
    by_cases hu : p.uid = uid
    · rw [if_pos hu, if_pos (show p.cursor.uid = uid from hu), h]
    · rw [if_neg hu, if_neg (show ¬p.cursor.uid = uid from hu)]
  simp [Server.cursors, onPeer, hp]

theorem cursors_onPeer_same (s : Server) (uid : Nat) {f : Peer → Peer}
    (h : ∀ p : Peer, (f p).cursor = p.cursor) : (s.onPeer uid f).cursors = s.cursors := by
  rw [cursors_onPeer s uid (g := fun c => c) h, map_on_eq_self]
  exact fun _ _ _ => rfl

/-- The majority index is read off the log and the cursors. -/
theorem majorityIdx_congr (hlog : s'.nextSlot = s.nextSlot) (hc : s'.cursors = s.cursors) :
    majorityIdx s' = majorityIdx s := by
  have hm : s'.peers.map Peer.matchedIdx = s.peers.map Peer.matchedIdx := by
    have := congrArg (List.map Cursor.matched) hc
    simpa [Server.cursors, Function.comp_def, Peer.cursor] using this
  have hlen : s'.peers.length = s.peers.length := by simpa using congrArg List.length hm
  unfold majorityIdx
  rw [hlog, hm, hlen]

/-! ## Sending a request -/

/-- What `createAppendEntriesReq` does first: a peer without a position gets the end of the log. -/
def aimed (uid : Nat) (s : Server) : Server :=
  s.onPeer uid fun p => if p.nextLogIdx = 0 then p.setNextLogIdx s.nextSlot else p

section Generic

variable {R : Server → List Effect → Server → Prop} {uid : Nat}

theorem walks_exitWith_of (hsame : ∀ s o, R s o s) {α : Type} {code : Int} {e : RaftException}
    {Q : α → Server → Prop} : Walks R (exitWith code e) s Q :=
  walks_emit_bind (hsame s _) walks_throw

/-- To make a snapshot request takes noting the snapshot, at most. -/
theorem walks_createSyncSnapshotReq_of (hsame : ∀ s o, R s o s)
    (hsync : ∀ s snp, R s [] (s.onPeer uid (·.setSnapshotInSync (some snp))))
    {lastLogIdx term commitIdx : Nat} :
    Walks R (createSyncSnapshotReq ctx uid lastLogIdx term commitIdx) s fun _ _ => True := by
  refine walks_get_bind (walks_orThrow_bind fun p _ => walks_bind (R := fun _ _ => True) ?_ ?_)
  · refine walks_when (fun _ => walks_get_bind ?_) fun _ => trivial
    cases s.lastSnapshot with
    | none => exact walks_throw
    | some snp =>
      refine walks_ite (fun _ => walks_exitWith_of hsame) fun _ => ?_
      refine walks_ite (fun _ => walks_exitWith_of hsame) fun _ => ?_
      exact walks_modify (hsync _ _) trivial
  · intro _ s₁ _
    refine walks_get_bind (walks_orThrow_bind fun sync _ => walks_get_bind ?_)
    refine walks_ite (fun _ => walks_throw) fun _ => ?_
    refine walks_ite (fun _ => walks_exitWith_of hsame) fun _ => ?_
    exact walks_ite (fun _ => walks_throw) fun _ => walks_pure trivial

/-- To make an append request takes aiming and what a snapshot request takes, at most. -/
theorem walks_createAppendEntriesReq_of (hsame : ∀ s o, R s o s)
    (hsync : ∀ s snp, R s [] (s.onPeer uid (·.setSnapshotInSync (some snp))))
    (haim : R s [] (aimed uid s)) :
    Walks R (createAppendEntriesReq ctx uid) s fun _ _ => True := by
  refine walks_modify_bind haim (walks_get_bind (walks_orThrow_bind fun p _ => ?_))
  refine walks_ite (fun _ => walks_exitWith_of hsame) fun _ => ?_
  refine walks_ite (fun _ => walks_createSyncSnapshotReq_of hsame hsync) fun _ => ?_
  refine walks_bind (R := fun _ _ => True) ?_ fun t s₁ _ => ?_
  · refine walks_get_bind (walks_ite (fun _ => walks_pure trivial) fun _ => ?_)
    refine walks_ite (fun _ => walks_pure trivial) fun _ => ?_
    split
    next => exact walks_ite (fun _ => walks_pure trivial) fun _ => walks_exitWith_of hsame
    next => exact walks_exitWith_of hsame
  · exact walks_orThrow_bind fun es _ => walks_pure trivial

end Generic

/-- The commit index and the cursors stay. -/
def Steady (s s' : Server) : Prop :=
  s'.quickCommitIdx = s.quickCommitIdx ∧ s'.cursors = s.cursors

theorem Steady.refl (s : Server) : Steady s s := ⟨rfl, rfl⟩

theorem Steady.trans {s'' : Server} (h : Steady s s') (h' : Steady s' s'') : Steady s s'' :=
  ⟨h'.1.trans h.1, h'.2.trans h.2⟩

theorem steady_onPeer (s : Server) (uid : Nat) {f : Peer → Peer}
    (h : ∀ p : Peer, (f p).cursor = p.cursor) : Steady s (s.onPeer uid f) :=
  ⟨rfl, cursors_onPeer_same s uid h⟩

/-- An action that takes steady steps is steady. -/
theorem steady_of_walks {α : Type} {x : M α} {Q : α → Server → Prop}
    (h : Walks (fun s _ s' => Steady s s') x s Q) : Steady s (x s).state :=
  h.1.fold (R := fun s _ s' => Steady s s') Steady.refl fun _ _ _ _ _ h₁ h₂ => h₁.trans h₂

theorem aimed_aimed (uid : Nat) (s : Server) : aimed uid (aimed uid s) = aimed uid s := by
  have hp : ∀ p : Peer, (if p.uid = uid then
      (if p.nextLogIdx = 0 then p.setNextLogIdx s.nextSlot else p) else p) =
      (fun p : Peer => if p.uid = uid then
        (if p.nextLogIdx = 0 then p.setNextLogIdx s.nextSlot else p) else p)
      (if p.uid = uid then (if p.nextLogIdx = 0 then p.setNextLogIdx s.nextSlot else p) else p) := by
    intro p
    by_cases hu : p.uid = uid
    · by_cases hn : p.nextLogIdx = 0 <;> simp [hu, hn, Peer.setNextLogIdx]
    · simp [hu]
  simp only [aimed, onPeer, List.map_map, Option.map_map]
  congr 1
  · exact List.map_congr_left fun p _ => (hp p).symm
  · exact Option.map_congr fun p _ => (hp p).symm

theorem cursors_aimed (uid : Nat) (s : Server) :
    (aimed uid s).cursors = s.cursors.map (Cursor.on uid fun c =>
      { c with next := if c.next = 0 then s.nextSlot else c.next }) := by
  refine cursors_onPeer s uid fun p => ?_
  split <;> simp_all [Peer.cursor, Peer.setNextLogIdx, Peer.id]

theorem steady_createAppendEntriesReq {uid : Nat} (ha : aimed uid s = s) :
    Walks (fun s _ s' => Steady s s') (createAppendEntriesReq ctx uid) s fun _ _ => True :=
  walks_createAppendEntriesReq_of (fun s _ => .refl s)
    (fun s _ => steady_onPeer s uid fun _ => rfl) (ha.symm ▸ .refl s)

theorem createAppendEntriesReq_aimed (uid : Nat) (s : Server) :
    createAppendEntriesReq ctx uid s = createAppendEntriesReq ctx uid (aimed uid s) := by
  unfold createAppendEntriesReq
  rw [modify_bind_apply, modify_bind_apply]
  exact congrArg _ (aimed_aimed uid s).symm

/-- A request to an idle peer moves its cursor only from 0 to the end of the log. -/
theorem steady_requestAppendEntriesTo (ctx : Context) {uid : Nat} {p : Peer}
    (hp : s.object uid = some p) :
    Steady (if p.busyFlag then s else aimed uid s) (requestAppendEntriesTo ctx uid s).state := by
  unfold requestAppendEntriesTo
  rw [get_bind_apply, hp]
  show Steady _ ((if p.busyFlag = true then pure false else _ : M Bool) s).state
  split
  next => exact .refl s
  next =>
    rw [modify_bind_apply]
    generalize hs₁ : s.onPeer uid Peer.makeBusy = s₁
    have hbusy : Steady s s₁ := hs₁ ▸ steady_onPeer s uid fun _ => rfl
    have hslot : s₁.nextSlot = s.nextSlot := by rw [← hs₁]; rfl
    have haim : Steady (aimed uid s) (aimed uid s₁) :=
      ⟨hbusy.1, by rw [cursors_aimed, cursors_aimed, hbusy.2, hslot]⟩
    rw [bind_apply_congr (createAppendEntriesReq_aimed uid s₁)]
    refine haim.trans (steady_of_walks (Q := fun _ _ => True) ?_)
    refine walks_bind (steady_createAppendEntriesReq (aimed_aimed uid s₁)) fun req s₂ _ => ?_
    exact walks_bind (R := fun _ _ => True) (walks_get_bind (walks_emit (.refl s₂) trivial))
      fun _ _ _ => walks_pure trivial

/-- Going on with a peer: an idle leader aims at the end of the log if it has no position. -/
theorem steady_catchUp (ctx : Context) {uid : Nat} (need : Bool) {p : Peer}
    (hp : s.object uid = some p) :
    Steady (if s.role = .leader ∧ need = true ∧ p.busyFlag = false then aimed uid s else s)
      (catchUp ctx uid need s).state := by
  unfold catchUp
  rw [get_bind_apply]
  by_cases hc : s.role = .leader ∧ need = true
  · rw [when_pos hc]
    have hreq := steady_requestAppendEntriesTo ctx hp
    rw [← bind_pure_state _ fun _ => ()] at hreq
    cases hb : p.busyFlag <;> simpa [hb, hc] using hreq
  · rw [when_neg hc, if_neg fun h => hc ⟨h.1, h.2.1⟩]
    exact .refl s

/-! ## Raising the commit index -/

theorem quick_requestAppendEntriesTo (ctx : Context) (uid : Nat) (s : Server) :
    (requestAppendEntriesTo ctx uid s).state.quickCommitIdx = s.quickCommitIdx := by
  cases hp : s.object uid with
  | none =>
    unfold requestAppendEntriesTo
    rw [get_bind_apply, hp]
    rfl
  | some p =>
    have h := (steady_requestAppendEntriesTo ctx hp).1
    split at h <;> exact h

theorem quick_catchUp (ctx : Context) (uid : Nat) (need : Bool) (s : Server) :
    (catchUp ctx uid need s).state.quickCommitIdx = s.quickCommitIdx := by
  unfold catchUp
  rw [get_bind_apply]
  by_cases hc : s.role = .leader ∧ need = true
  · rw [when_pos hc, bind_pure_state _ fun _ => ()]
    exact quick_requestAppendEntriesTo ctx uid s
  · rw [when_neg hc]
    rfl

theorem commit_of_lt {k : Nat} (h : s.quickCommitIdx < k) :
    commit ctx k s = (when (s.role = .leader) (each (notifyCommit ctx) s.peers))
      { s with quickCommitIdx := k } := by
  unfold commit
  rw [get_bind_apply, when_pos h]
  rfl

theorem commit_of_le {k : Nat} (h : k ≤ s.quickCommitIdx) :
    commit ctx k s = (pure () : M Unit) s := by
  unfold commit
  rw [get_bind_apply, when_neg (Nat.not_lt.2 h)]

/-- Once the commit index is raised, the rest of the handler leaves it there. -/
theorem quick_commit_bind {k : Nat} (h : s.quickCommitIdx < k) {f : Unit → M Unit}
    (hf : ∀ s', Walks (fun s _ s' => s'.quickCommitIdx = s.quickCommitIdx) (f ()) s'
      fun _ _ => True) : ((commit ctx k >>= f) s).state.quickCommitIdx = k := by
  rw [bind_apply_congr (commit_of_lt h)]
  have hw : Walks (fun s _ s' => s'.quickCommitIdx = s.quickCommitIdx)
      ((when (s.role = .leader) (each (notifyCommit ctx) s.peers) : M Unit) >>= f)
      { s with quickCommitIdx := k } fun _ _ => True := by
    refine walks_bind (R := fun _ _ => True) (walks_when (fun _ => ?_) fun _ => trivial)
      fun _ s₁ _ => hf s₁
    refine walks_each (I := fun _ => True) s.peers trivial (fun p _ s₁ _ => ?_) fun _ _ => trivial
    refine walks_bind (walks_self (quick_requestAppendEntriesTo ctx p.uid s₁)) fun sent s₂ _ => ?_
    exact walks_ite (fun _ => walks_pure trivial) fun _ => walks_modify rfl trivial
  have hfold := hw.1.fold (R := fun (s : Server) _ s' => s'.quickCommitIdx = s.quickCommitIdx)
    (fun _ => rfl) fun _ _ _ _ _ h₁ h₂ => Eq.trans h₂ h₁
  exact hfold

/-! ## The handler -/

/-- The position that a rejecting peer is moved back to. -/
def backTo (nextIdx next : Nat) : Nat :=
  if 0 < nextIdx ∧ nextIdx < next then nextIdx else usub next 1

/-- The cursor of a peer that rejects. -/
def Cursor.back (nextIdx : Nat) (c : Cursor) : Cursor :=
  ⟨c.uid, c.id, backTo nextIdx c.next, c.matched⟩

theorem cursor_moveBack (nextIdx : Nat) (p : Peer) :
    (moveBack nextIdx p).cursor = p.cursor.back nextIdx := by
  unfold moveBack Cursor.back backTo Peer.cursor
  dsimp only
  split <;> rfl

/-- The cursor of a peer that accepts. -/
def Cursor.record (nextIdx : Nat) (c : Cursor) : Cursor :=
  ⟨c.uid, c.id, nextIdx, usub nextIdx 1⟩

/-- Where a rejection leaves the position: an idle leader aims one that comes to 0 at the end of
its log. -/
def landing (idle : Prop) [Decidable idle] (slot nextIdx next : Nat) : Nat :=
  if idle ∧ backTo nextIdx next = 0 then slot else backTo nextIdx next

theorem landing_eq_iff {idle : Prop} [Decidable idle] {slot nextIdx next : Nat} :
    landing idle slot nextIdx next = next ↔ idle ∧ next = 1 ∧ slot = 1 := by
  unfold landing backTo usub
  by_cases hidle : idle
  · simp only [hidle, true_and]
    split_ifs <;> omega
  · simp only [hidle, false_and, if_false, iff_false]
    split_ifs <;> omega

theorem map_on_map_on {l : List Cursor} {uid : Nat} {f g : Cursor → Cursor}
    (hf : ∀ c, (f c).uid = c.uid) :
    (l.map (Cursor.on uid f)).map (Cursor.on uid g) = l.map (Cursor.on uid fun c => g (f c)) := by
  rw [List.map_map]
  refine List.map_congr_left fun c _ => ?_
  unfold Cursor.on
  by_cases hu : c.uid = uid
  · simp [hu, hf]
  · simp [hu]

/-- An object's cursor stands for the cursors under its identity. -/
theorem forall_cursor_iff (h : PeerObjects s) {p : Peer} (hp : p ∈ s.peers) (P : Cursor → Prop) :
    (∀ c ∈ s.cursors, c.uid = p.uid → P c) ↔ P p.cursor := by
  constructor
  · exact fun hall => hall _ (List.mem_map_of_mem hp) rfl
  · intro hP c hc hu
    obtain ⟨q, hq, rfl⟩ := List.mem_map.1 hc
    have hqp : q = p := List.inj_on_of_nodup_map h.nodup hq hp hu
    rw [hqp]
    exact hP

/-- What a rejected reply does: the peer is moved back, and gets another request. -/
theorem rejected_state {resp : RespMsg} {p : Peer} (hp : s.findPeer resp.src = some p)
    (hacc : resp.accepted = false) : (handleAppendEntriesResp ctx resp s).state =
      (catchUp ctx p.uid true (s.onPeer p.uid (moveBack resp.nextIdx))).state := by
  unfold handleAppendEntriesResp
  rw [get_bind_apply, hp]
  simp only [hacc, Bool.false_eq_true, if_false]
  rfl

/-- Where a rejected reply leaves the cursors. -/
theorem cursors_rejected (ho : PeerObjects s) {resp : RespMsg} {p : Peer}
    (hp : s.findPeer resp.src = some p) (hacc : resp.accepted = false) :
    (handleAppendEntriesResp ctx resp s).state.cursors = s.cursors.map (Cursor.on p.uid fun c =>
      ⟨c.uid, c.id, landing (s.role = .leader ∧ p.busyFlag = false) s.nextSlot resp.nextIdx c.next,
        c.matched⟩) := by
  let s₃ := s.onPeer p.uid (moveBack resp.nextIdx)
  have hobj : s₃.object p.uid = some (moveBack resp.nextIdx p) := by
    rw [object_onPeer s p.uid _ fun q => by unfold moveBack; split <;> rfl,
      ho.object_eq (List.mem_of_find?_eq_some hp)]
    rfl
  have hbusy : (moveBack resp.nextIdx p).busyFlag = p.busyFlag := by
    unfold moveBack; split <;> rfl
  have h₃ : s₃.cursors = s.cursors.map (Cursor.on p.uid (Cursor.back resp.nextIdx)) :=
    cursors_onPeer s p.uid (cursor_moveBack resp.nextIdx)
  rw [rejected_state hp hacc, (steady_catchUp ctx true hobj).2, hbusy]
  by_cases hidle : s.role = .leader ∧ p.busyFlag = false
  · rw [if_pos (show s₃.role = .leader ∧ true = true ∧ p.busyFlag = false from
      ⟨hidle.1, rfl, hidle.2⟩), cursors_aimed, h₃,
      map_on_map_on (f := Cursor.back resp.nextIdx) fun _ => rfl]
    simp only [landing, hidle, true_and]
    rfl
  · rw [if_neg (show ¬(s₃.role = .leader ∧ true = true ∧ p.busyFlag = false) from
      fun h => hidle ⟨h.1, h.2.2⟩), h₃]
    simp only [landing, hidle, false_and, if_false]
    rfl

/-- **Rejections.** A rejected reply leaves the cursors and the commit index alone only when an
idle leader with an empty log has the peer at index 1. -/
theorem steady_rejected_iff (ho : PeerObjects s) {resp : RespMsg} {p : Peer}
    (hp : s.findPeer resp.src = some p) (hacc : resp.accepted = false) :
    Steady s (handleAppendEntriesResp ctx resp s).state ↔
      (s.role = .leader ∧ p.busyFlag = false) ∧ p.nextLogIdx = 1 ∧ s.nextSlot = 1 := by
  have hquick : (handleAppendEntriesResp ctx resp s).state.quickCommitIdx = s.quickCommitIdx := by
    rw [rejected_state hp hacc]
    exact quick_catchUp ctx p.uid true _
  rw [Steady, cursors_rejected ho hp hacc, map_on_eq_self,
    forall_cursor_iff ho (List.mem_of_find?_eq_some hp), and_iff_right hquick]
  simp only [Peer.cursor, Cursor.mk.injEq, true_and, and_true]
  exact landing_eq_iff

/-- What the handler of an accepted reply does after it has recorded the match. -/
def afterMatch (ctx : Context) (uid nextIdx : Nat) : M Unit := do
  let s ← get
  commit ctx (majorityIdx s)
  let pending ← clearPendingCommit uid
  let s ← get
  catchUp ctx uid (pending || nextIdx < s.nextSlot)

theorem handleAppendEntriesResp_accepted {resp : RespMsg} {p : Peer}
    (hp : s.findPeer resp.src = some p) (hacc : resp.accepted = true) :
    handleAppendEntriesResp ctx resp s =
      afterMatch ctx p.uid resp.nextIdx (s.onPeer p.uid (recordMatch resp.nextIdx)) := by
  unfold handleAppendEntriesResp
  rw [get_bind_apply, hp]
  simp only [hacc, if_true]
  rfl

/-- The majority decides on the commit index. -/
theorem quick_afterMatch (ctx : Context) (uid nextIdx : Nat) (s : Server) :
    (afterMatch ctx uid nextIdx s).state.quickCommitIdx = max s.quickCommitIdx (majorityIdx s) := by
  have hrest (s' : Server) : Walks (fun s _ s' => s'.quickCommitIdx = s.quickCommitIdx)
      (clearPendingCommit uid >>= fun pending => get >>= fun s =>
        catchUp ctx uid (pending || decide (nextIdx < s.nextSlot))) s' fun _ _ => True := by
    refine walks_bind (R := fun _ _ => True) ?_ fun pending s₁ _ => walks_get_bind ?_
    · exact walks_get_bind (walks_modify_bind rfl (walks_pure trivial))
    · exact walks_self (quick_catchUp ctx _ _ _)
  unfold afterMatch
  rw [get_bind_apply]
  by_cases hle : majorityIdx s ≤ s.quickCommitIdx
  · rw [bind_apply_congr (commit_of_le hle), pure_bind_apply, max_eq_left hle]
    exact (hrest s).1.fold (R := fun (s : Server) _ s' => s'.quickCommitIdx = s.quickCommitIdx)
      (fun _ => rfl) fun _ _ _ _ _ h₁ h₂ => Eq.trans h₂ h₁
  · rw [max_eq_right (Nat.le_of_not_le hle)]
    exact quick_commit_bind (Nat.lt_of_not_le hle) hrest

/-- **Acceptances.** An accepted reply leaves the cursors and the commit index alone exactly if
the cursor was there before and the majority is not beyond the commit index. -/
theorem steady_accepted_iff (ho : PeerObjects s) {resp : RespMsg} {p : Peer}
    (hp : s.findPeer resp.src = some p) (hacc : resp.accepted = true) (hidx : 0 < resp.nextIdx) :
    Steady s (handleAppendEntriesResp ctx resp s).state ↔
      p.nextLogIdx = resp.nextIdx ∧ p.matchedIdx = resp.nextIdx - 1 ∧
        majorityIdx s ≤ s.quickCommitIdx := by
  have hmem : p ∈ s.peers := List.mem_of_find?_eq_some hp
  generalize hs₃ : s.onPeer p.uid (recordMatch resp.nextIdx) = s₃
  have hcur : s₃.cursors = s.cursors.map (Cursor.on p.uid (Cursor.record resp.nextIdx)) := by
    rw [← hs₃]
    exact cursors_onPeer s p.uid fun _ => rfl
  have hsame : s₃.cursors = s.cursors ↔
      p.nextLogIdx = resp.nextIdx ∧ p.matchedIdx = resp.nextIdx - 1 := by
    rw [hcur, map_on_eq_self, forall_cursor_iff ho hmem]
    simp [Peer.cursor, Cursor.record, usub_of_le hidx, eq_comm]
  have hslot : s₃.nextSlot = s.nextSlot := by rw [← hs₃]; rfl
  have hquick : s₃.quickCommitIdx = s.quickCommitIdx := by rw [← hs₃]; rfl
  have hstate : handleAppendEntriesResp ctx resp s = afterMatch ctx p.uid resp.nextIdx s₃ := by
    rw [handleAppendEntriesResp_accepted hp hacc, hs₃]
  by_cases hle : majorityIdx s₃ ≤ s₃.quickCommitIdx
  · -- the commit index stays, so all that counts is where the cursor goes
    have hfinal : Steady s₃ (handleAppendEntriesResp ctx resp s).state := by
      rw [hstate, afterMatch, get_bind_apply, bind_apply_congr (commit_of_le hle), pure_bind_apply]
      generalize hs₄ : s₃.onPeer p.uid Peer.clearPendingCommit = s₄
      have h₄ : Steady s₃ s₄ := hs₄ ▸ steady_onPeer s₃ p.uid fun _ => rfl
      have hobj : s₄.object p.uid = some (recordMatch resp.nextIdx p).clearPendingCommit := by
        rw [← hs₄, object_onPeer s₃ p.uid Peer.clearPendingCommit fun _ => rfl, ← hs₃,
          object_onPeer s p.uid (recordMatch resp.nextIdx) fun _ => rfl, ho.object_eq hmem]
        rfl
      have haim : Steady s₄ (aimed p.uid s₄) := by
        refine ⟨rfl, ?_⟩
        rw [cursors_aimed, map_on_eq_self, h₄.2, hcur, List.forall_mem_map]
        intro c _ hu
        by_cases hc : c.uid = p.uid
        · simp [Cursor.on, hc, Cursor.record, hidx.ne']
        · simp [Cursor.on, hc] at hu
      refine h₄.trans ?_
      have hsteady := steady_catchUp ctx
        (((s₃.object p.uid).any Peer.pendingCommitFlag) || decide (resp.nextIdx < s₄.nextSlot)) hobj
      show Steady s₄ (catchUp ctx p.uid (((s₃.object p.uid).any Peer.pendingCommitFlag) ||
        decide (resp.nextIdx < (s₃.onPeer p.uid Peer.clearPendingCommit).nextSlot))
        (s₃.onPeer p.uid Peer.clearPendingCommit)).state
      rw [hs₄]
      split at hsteady
      next => exact haim.trans hsteady
      next => exact hsteady
    rw [Steady, hfinal.1, hfinal.2, and_iff_right hquick, hsame, ← and_assoc]
    refine ⟨fun h => ⟨h, ?_⟩, And.left⟩
    rw [← majorityIdx_congr hslot (hsame.2 h), ← hquick]
    exact hle
  · have hraise : (handleAppendEntriesResp ctx resp s).state.quickCommitIdx = majorityIdx s₃ := by
      rw [hstate, quick_afterMatch, max_eq_right (Nat.le_of_not_le hle)]
    constructor
    · intro h
      exact (hle (by rw [← hraise, h.1, hquick])).elim
    · rintro ⟨hnext, hmatched, hmaj⟩
      rw [majorityIdx_congr hslot (hsame.2 ⟨hnext, hmatched⟩), hquick] at hle
      exact (hle hmaj).elim

/-! ## Delivered replies -/

theorem updateTerm_of_lt {t : Nat} (h : s.term < t) :
    updateTerm t s = (pure true : M Bool) (enterTerm t s) := by
  unfold updateTerm
  rw [get_bind_apply, if_pos h]
  rfl

theorem updateTerm_of_le {t : Nat} (h : t ≤ s.term) : updateTerm t s = (pure false : M Bool) s := by
  unfold updateTerm
  rw [get_bind_apply, if_neg (Nat.not_lt.2 h)]

theorem steady_enterTerm (t : Nat) (s : Server) : Steady s (enterTerm t s) := by
  have hk := keeps_enterTerm t s
  refine ⟨hk.field Server.quickCommitIdx, ?_⟩
  have hpeers := congrArg (List.map Peer.cursor) hk.peers
  rw [List.map_map, List.map_map] at hpeers
  exact hpeers

theorem findPeer_map {k : Peer → Peer} (hs : s'.peers = s.peers.map k)
    (hk : ∀ q, (k q).id = q.id) (id : Int) : s'.findPeer id = (s.findPeer id).map k := by
  unfold findPeer
  rw [hs, List.find?_map]
  congr 2
  funext q
  simp [hk]

/-- What happens to a peer before the reply is looked at: the object the request was sent through
is free again, and the peer has been heard from. -/
def replied (rpc : Rpc) (src now : Int) (p : Peer) : Peer :=
  let p := if p.uid = rpc.uid then p.setFree.resumeHbSpeed else p
  if p.id = src then p.setLastResp now else p

theorem replied_cursor (rpc : Rpc) (src now : Int) (p : Peer) :
    (replied rpc src now p).cursor = p.cursor := by
  unfold replied
  dsimp only
  split <;> split <;> rfl

theorem replied_busy (rpc : Rpc) (src now : Int) (p : Peer) :
    (replied rpc src now p).busyFlag = false ↔ p.busyFlag = false ∨ p.uid = rpc.uid := by
  unfold replied
  by_cases hu : p.uid = rpc.uid
  · simp only [hu, if_true, or_true, iff_true]
    split <;> rfl
  · simp only [hu, if_false, or_false]
    split <;> rfl

/-- A reply to an append request that the cursors and the commit index do not move for: it brings
a later term, or comes from no peer, or acknowledges what is on record without making a majority,
or rejects a peer at index 1 of an idle leader with an empty log. -/
def Harmless (s : Server) (rpc : Rpc) (resp : RespMsg) : Prop :=
  s.term < resp.term ∨ ∀ p, s.findPeer resp.src = some p →
    (resp.accepted = true ∧ p.nextLogIdx = resp.nextIdx ∧ p.matchedIdx = resp.nextIdx - 1 ∧
      majorityIdx s ≤ s.quickCommitIdx) ∨
    (resp.accepted = false ∧ s.role = .leader ∧ (p.busyFlag = false ∨ p.uid = rpc.uid) ∧
      p.nextLogIdx = 1 ∧ s.nextSlot = 1)

theorem peers_replied {rpc : Rpc} (hreq : rpc.req.type = .appendEntriesRequest) (src now : Int)
    (s : Server) : (heardFrom src now (handleRpcResult rpc true s)).peers =
      s.peers.map (replied rpc src now) := by
  simp [heardFrom, handleRpcResult, onPeer, hreq, replied, Function.comp_def]

theorem appendResponse_state (ctx : Context) (s : Server) {rpc : Rpc} {resp : RespMsg} (now : Int)
    (hh : rpc.handler = .peerResp) (htype : resp.type = .appendEntriesResponse) :
    ((Input.response rpc resp now).handle ctx s).state =
      ((updateTerm resp.term >>= fun updated => if updated then pure () else
        handleAppendEntriesResp ctx resp : M Unit)
          (heardFrom resp.src now (handleRpcResult rpc true s))).state := by
  rw [Input.handle, bind_pure_state _ fun _ => none, onResponse, modify_bind_apply]
  simp only [hh, handlePeerResp, modify_bind_apply, htype]

theorem steady_response_iff (ctx : Context) (ho : PeerObjects s) {rpc : Rpc} {resp : RespMsg}
    (now : Int) (hh : rpc.handler = .peerResp) (hreq : rpc.req.type = .appendEntriesRequest)
    (htype : resp.type = .appendEntriesResponse)
    (hidx : resp.accepted = true → 0 < resp.nextIdx) :
    Steady s ((Input.response rpc resp now).handle ctx s).state ↔ Harmless s rpc resp := by
  generalize hs₂ : heardFrom resp.src now (handleRpcResult rpc true s) = s₂
  have hpeers : s₂.peers = s.peers.map (replied rpc resp.src now) :=
    hs₂ ▸ peers_replied hreq resp.src now s
  have hquiet : Quiet s s₂ :=
    hs₂ ▸ (quiet_handleRpcResult rpc true s).trans (quiet_heardFrom resp.src now _)
  have hterm : s₂.term = s.term := hquiet.field Server.term
  have hslot : s₂.nextSlot = s.nextSlot := hquiet.field Server.nextSlot
  have hrole : s₂.role = s.role := hquiet.field Server.role
  have hcur : s₂.cursors = s.cursors := by
    simp [Server.cursors, hpeers, Function.comp_def, replied_cursor]
  have hsteady : Steady s s₂ := ⟨hquiet.field Server.quickCommitIdx, hcur⟩
  have hstate := appendResponse_state ctx s now hh htype
  rw [hs₂] at hstate
  have hfrom : ∀ s', Steady s s' ↔ Steady s₂ s' := fun s' =>
    by rw [Steady, Steady, hsteady.1, hsteady.2]
  rw [hstate, hfrom]
  by_cases hlt : s.term < resp.term
  · rw [bind_apply_congr (updateTerm_of_lt (hterm ▸ hlt)), pure_bind_apply]
    exact iff_of_true (steady_enterTerm _ s₂) (.inl hlt)
  rw [bind_apply_congr (updateTerm_of_le (hterm ▸ Nat.le_of_not_lt hlt)), pure_bind_apply, Harmless,
    or_iff_right hlt]
  simp only [Bool.false_eq_true, if_false]
  have hfind := findPeer_map hpeers (fun q => congrArg Cursor.id (replied_cursor _ _ _ q)) resp.src
  cases hp : s.findPeer resp.src with
  | none =>
    rw [hp] at hfind
    refine iff_of_true ?_ (by simp)
    unfold handleAppendEntriesResp
    rw [get_bind_apply, hfind]
    exact .refl s₂
  | some p =>
    rw [hp] at hfind
    have hnext : (replied rpc resp.src now p).nextLogIdx = p.nextLogIdx :=
      congrArg Cursor.next (replied_cursor _ _ _ p)
    have hmatched : (replied rpc resp.src now p).matchedIdx = p.matchedIdx :=
      congrArg Cursor.matched (replied_cursor _ _ _ p)
    have ho₂ := ho.quiet hquiet
    cases hacc : resp.accepted with
    | false =>
      rw [steady_rejected_iff ho₂ hfind hacc, replied_busy, hnext, hslot, hrole]
      simp [and_assoc]
    | true =>
      rw [steady_accepted_iff ho₂ hfind hacc (hidx hacc), hnext, hmatched,
        majorityIdx_congr hslot hcur, hsteady.1]
      simp

/-- The reply reaches a server that does not lead, or that has gone on to a later term. -/
def Late (s : Server) (resp : RespMsg) : Prop := s.role ≠ .leader ∨ resp.term < s.term

/-- **Late replies.** In every reachable state and for every append response that is delivered,
late replies leave the commit index and the cursors of all peers alone exactly if they are
harmless. -/
theorem late_reply_steady_iff (ctx : Context) (b : Int → Boot) (es : List Event) (e : Event)
    (i : Int) (rpc : Rpc) (resp : RespMsg) (now : Int) (k : Option Nat)
    (hin : e.input ((Cluster.start ctx b).run ctx es) = some (i, .response rpc resp now, k))
    (hh : rpc.handler = .peerResp) (htype : resp.type = .appendEntriesResponse) :
    let s := ((Cluster.start ctx b).run ctx es).servers i
    (Late s resp → Steady s ((Input.response rpc resp now).handle ctx s).state) ↔
      (Late s resp → Harmless s rpc resp) := by
  have hrec := Record.run ctx b es
  obtain ⟨hr, -⟩ := (Cluster.legit_of_input hin).1
  have hreq := hrec.append_of_reply hr htype
  intro s
  rw [steady_response_iff ctx (hrec.objects i) now hh hreq htype (hrec.index rpc resp hr hreq)]

/-- Server 1 is elected and server 2 accepts its first entry; before the reply comes back, the
vote request of server 3 takes server 1 to term 2. -/
def lateAck : List Event :=
  [.electionTimeout 1, .deliver 0 0, .deliver 1 0, .respond 0 0, .deliver 2 0, .electionTimeout 3,
    .deliver 4 0]

/-- The reply of term 1 raises the commit index of a follower of term 2, and moves the cursor it
keeps for server 2. -/
theorem late_ack_commits :
    let c := (Cluster.start {} fun _ => three.fresh).run {} lateAck
    let c' := c.step {} (.respond 2 0)
    (c.servers 1).role = .follower ∧ (c.servers 1).term = 2 ∧
      (c.resps.map fun r => (r.2.type, r.2.term))[2]? = some (.appendEntriesResponse, 1) ∧
      (c.servers 1).quickCommitIdx = 0 ∧ (c'.servers 1).quickCommitIdx = 1 ∧
      (c.servers 1).cursors = [⟨0, 2, 1, 0⟩, ⟨1, 3, 1, 0⟩] ∧
      (c'.servers 1).cursors = [⟨0, 2, 2, 1⟩, ⟨1, 3, 1, 0⟩] := by
  decide +kernel

theorem late_reply_steady_iff_demoted :
    ∃ rpc resp, (Event.respond 2 0).input ((Cluster.start {} fun _ => three.fresh).run {} lateAck) =
        some (1, .response rpc resp 0, none) ∧
      rpc.handler = .peerResp ∧ resp.type = .appendEntriesResponse ∧
      (let s := ((Cluster.start {} fun _ => three.fresh).run {} lateAck).servers 1
       (Late s resp → Steady s ((Input.response rpc resp 0).handle {} s).state) ↔
        (Late s resp → Harmless s rpc resp)) := by
  generalize hc : (Cluster.start {} fun _ => three.fresh).run {} lateAck = c
  have hresp : (c.resps.map fun r => (r.1, r.2.type))[2]? = some (2, .appendEntriesResponse) := by
    subst hc; decide +kernel
  have hrpc : (c.rpcs.map fun r => (r.handler, r.req.src))[2]? = some (.peerResp, 1) := by
    subst hc; decide +kernel
  rw [List.getElem?_map, Option.map_eq_some_iff] at hresp hrpc
  obtain ⟨⟨n, resp⟩, hresp, hn⟩ := hresp
  obtain ⟨rpc, hrpc, hh⟩ := hrpc
  obtain ⟨rfl, htype⟩ : n = 2 ∧ resp.type = .appendEntriesResponse := by simpa using hn
  obtain ⟨hh, hsrc⟩ : rpc.handler = .peerResp ∧ rpc.req.src = 1 := by simpa using hh
  have hin : (Event.respond 2 0).input c = some (1, .response rpc resp 0, none) := by
    simp [Event.input, hresp, hrpc, hsrc]
  refine ⟨rpc, resp, hin, hh, htype, ?_⟩
  subst hc
  exact late_reply_steady_iff {} (fun _ => three.fresh) lateAck _ 1 rpc resp 0 none hin hh htype

end EnclaveRaft
