import EnclaveRaft.Lib.Tiling
import EnclaveRaft.Walks
import Mathlib.Algebra.Group.Nat.Defs

/-!
# Snapshots on their way

A leader sends a snapshot in blocks: `create_sync_snapshot_req` cuts the next one, and the response to
it moves the offset. The blocks tile a snapshot of less than 2 GiB, if each fits a buffer. The size
left is cut to 32 bits, so with a larger one the transfer fails or comes to a block without data, from
which it cannot go on.

The follower that has all of a snapshot drops its log up to the snapshot's index, and keeps what comes
behind, whether the log holds the snapshot's last entry or not.
-/

namespace EnclaveRaft

open Act Server OrderedMap

variable {ctx : Context} {s : Server} {p : Peer} {uid : Nat}

/-! ## Blocks -/

/-- The transfer that the next block for a peer is taken from, if there is a snapshot to send. -/
def nextSync (s : Server) (p : Peer) (lastLogIdx : Nat) : Option SnapshotSyncCtx :=
  if needsLatestSnapshot s p then
    s.lastSnapshot.bind fun snp =>
      if lastLogIdx ≤ snp.lastLogIdx ∧ 1 ≤ snp.size then some ⟨snp, 0⟩ else none
  else p.snpSyncCtx

/-- The size of the next block of a transfer. -/
def blockSize (ctx : Context) (sync : SnapshotSyncCtx) : Int :=
  min (getSnapshotSyncBlockSize ctx) (int32 (usub sync.snapshot.size sync.offset))

/-- What creating a request does to the peer object: nothing, or it starts the transfer of the last
snapshot. -/
def prepare (s : Server) (p : Peer) (sync : SnapshotSyncCtx) (q : Peer) : Peer :=
  if needsLatestSnapshot s p then q.setSnapshotInSync (some sync.snapshot) else q

/-- The peer object is prepared, and the block is cut. -/
theorem createSyncSnapshotReq_eq {last : Nat} (term commitIdx : Nat) {sync : SnapshotSyncCtx}
    (hp : s.object uid = some p) (hsync : nextSync s p last = some sync) :
    createSyncSnapshotReq ctx uid last term commitIdx s =
        snapshotBlock ctx p sync term commitIdx (s.onPeer uid (prepare s p sync)) ∧
      ((s.onPeer uid (prepare s p sync)).object uid).bind Peer.snpSyncCtx = some sync := by
  have hobj : (s.onPeer uid (prepare s p sync)).object uid = some (prepare s p sync p) := by
    rw [object_onPeer s uid _ fun q => by unfold prepare; split <;> rfl, hp, Option.map_some]
  have hctx : (prepare s p sync p).snpSyncCtx = some sync := by
    unfold prepare
    unfold nextSync at hsync
    split at hsync
    next hneeds =>
      obtain ⟨snp, -, hsnp⟩ := Option.bind_eq_some_iff.1 hsync
      obtain ⟨-, hsnp⟩ := Option.ite_none_right_eq_some.1 hsnp
      cases hsnp
      rw [if_pos hneeds]
      rfl
    next hneeds =>
      rw [if_neg hneeds]
      exact hsync
  have hnow : ((s.onPeer uid (prepare s p sync)).object uid).bind Peer.snpSyncCtx = some sync := by
    rw [hobj, Option.bind_some, hctx]
  refine ⟨?_, hnow⟩
  have hstart : Runs (when (needsLatestSnapshot s p) (startSnapshotSync uid last p)) s ()
      (s.onPeer uid (prepare s p sync)) [] := by
    unfold nextSync at hsync
    unfold prepare
    split at hsync
    next hneeds =>
      obtain ⟨snp, hlast, hsnp⟩ := Option.bind_eq_some_iff.1 hsync
      obtain ⟨hfits, hsnp⟩ := Option.ite_none_right_eq_some.1 hsnp
      cases hsnp
      simp only [when_pos hneeds, if_pos hneeds]
      refine .get_bind ?_
      rw [hlast]
      exact .of_neg (not_lt.2 hfits.1) (.of_neg (not_lt.2 hfits.2) runs_modify)
    next hneeds =>
      simp only [when_neg hneeds, if_neg hneeds, onPeer_self]
      exact runs_pure
  unfold createSyncSnapshotReq
  rw [get_bind_apply, bind_apply_congr (y := pure p) (orThrow_runs hp), pure_bind_apply,
    bind_apply_congr (y := pure ()) hstart, pure_bind_apply, get_bind_apply,
    bind_apply_congr (y := pure sync) (orThrow_runs hnow), pure_bind_apply]

/-- The block that a request carries. -/
def blockOf (req : ReqMsg) : Option SnapshotSyncReq :=
  match req.logEntries with
  | [e] =>
    match e.buf with
    | .snapshotSync block => some block
    | _ => none
  | _ => none

/-- The range of a block, and whether it is marked as done. -/
def SnapshotSyncReq.piece (block : SnapshotSyncReq) : Tiling.Piece :=
  ⟨block.offset, block.data.length, block.done⟩

/-- The state machine fills the buffers it is given. -/
def StateMachine.Fills (sm : StateMachine) : Prop :=
  ∀ snp offset n, n ≤ (sm.readSnapshotData snp offset n).length

/-- The next block of a transfer. -/
def cutBlock (ctx : Context) (sync : SnapshotSyncCtx) : SnapshotSyncReq where
  snapshot := sync.snapshot
  offset := sync.offset
  data := (ctx.stateMachine.readSnapshotData sync.snapshot sync.offset
    (blockSize ctx sync).toNat).take (blockSize ctx sync).toNat
  done := sync.snapshot.size ≤ sync.offset + (blockSize ctx sync).toNat

/-- The request that carries it. -/
def blockReq (ctx : Context) (s : Server) (p : Peer) (sync : SnapshotSyncCtx)
    (term commitIdx : Nat) : ReqMsg where
  term := term
  type := .installSnapshotRequest
  src := s.id
  dst := p.id
  lastLogTerm := sync.snapshot.lastLogTerm
  lastLogIdx := sync.snapshot.lastLogIdx
  commitIdx := commitIdx
  logEntries := [⟨term, .snpSyncReq, .snapshotSync (cutBlock ctx sync)⟩]

theorem snapshotBlock_ok {sync : SnapshotSyncCtx} (term commitIdx : Nat)
    (h : 0 ≤ blockSize ctx sync) (hread : (blockSize ctx sync).toNat ≤
      (ctx.stateMachine.readSnapshotData sync.snapshot sync.offset
        (blockSize ctx sync).toNat).length) (hfits : (cutBlock ctx sync).serialize.isOk) :
    Runs (snapshotBlock ctx p sync term commitIdx) s (blockReq ctx s p sync term commitIdx) s [] :=
  .get_bind (.of_neg (not_lt.2 h) (.of_neg (not_lt.2 hread) (.of_neg (not_not.2 hfits) runs_pure)))

theorem cutBlock_length (hfill : ctx.stateMachine.Fills) (sync : SnapshotSyncCtx) :
    (cutBlock ctx sync).data.length = (blockSize ctx sync).toNat := by
  rw [cutBlock, List.length_take, Nat.min_eq_left (hfill _ _ _)]

/-! ## Transfers -/

/-- The blocks of a transfer of `n` rounds at most: the leader creates the request for the next block,
the follower accepts it, and the leader notes the response as `handleInstallSnapshotResp` does. -/
def transfer (ctx : Context) (uid lastLogIdx term commitIdx : Nat) :
    Nat → Server → Option (List SnapshotSyncReq)
  | 0, _ => none
  | n + 1, s =>
    let r := createSyncSnapshotReq ctx uid lastLogIdx term commitIdx s
    match r.result with
    | .error _ => none
    | .ok req =>
      (blockOf req).bind fun block =>
        ((r.state.object uid).bind Peer.snpSyncCtx).bind fun sync =>
          let nextIdx := block.offset + block.data.length
          if sync.snapshot.size ≤ nextIdx then some [block]
          else (transfer ctx uid lastLogIdx term commitIdx n
            (r.state.onPeer uid (noteBlock sync nextIdx))).map (block :: ·)

/-- A transfer goes on with its snapshot. -/
theorem nextSync_next {s' : Server} {p' : Peer} {last o o' : Nat} {snp : Snapshot}
    (hsync : nextSync s p last = some ⟨snp, o⟩) (hlast : s'.lastSnapshot = s.lastSnapshot)
    (hctx : p'.snpSyncCtx = some ⟨snp, o'⟩) : nextSync s' p' last = some ⟨snp, o'⟩ := by
  have hneeds : needsLatestSnapshot s' p' = false := by
    unfold nextSync at hsync
    unfold needsLatestSnapshot
    rw [hctx, hlast]
    split at hsync
    next =>
      obtain ⟨snp', hs, hsnp⟩ := Option.bind_eq_some_iff.1 hsync
      obtain ⟨-, hsnp⟩ := Option.ite_none_right_eq_some.1 hsnp
      cases hsnp
      simp [hs]
    next hold =>
      unfold needsLatestSnapshot at hold
      rw [hsync] at hold
      cases hs : s.lastSnapshot with
      | none => rfl
      | some l => simpa [hs] using hold
  rw [nextSync, hneeds]
  exact hctx

/-- No block can be cut at an offset, or it cannot be serialized. -/
def NoBlock (ctx : Context) (snp : Snapshot) (offset : Nat) : Prop :=
  blockSize ctx ⟨snp, offset⟩ < 0 ∨ ¬(cutBlock ctx ⟨snp, offset⟩).serialize.isOk

instance (ctx : Context) (snp : Snapshot) (offset : Nat) : Decidable (NoBlock ctx snp offset) :=
  inferInstanceAs (Decidable (_ ∨ ¬_))

/-- How much of a snapshot the next block takes. -/
def blockLen (ctx : Context) (snp : Snapshot) (offset : Nat) : Option Nat :=
  if NoBlock ctx snp offset then none else some (blockSize ctx ⟨snp, offset⟩).toNat

theorem cutBlock_isOk (hfill : ctx.stateMachine.Fills) (sync : SnapshotSyncCtx) :
    (cutBlock ctx sync).serialize.isOk ↔
      sync.snapshot.lastConfig.encodedSize + 33 + (blockSize ctx sync).toNat < 2 ^ 31 := by
  rw [SnapshotSyncReq.serialize_isOk, cutBlock_length hfill]
  rfl

theorem snapshotBlock_error (hfill : ctx.stateMachine.Fills) {snp : Snapshot}
    {o term commitIdx : Nat} (h : NoBlock ctx snp o) :
    (snapshotBlock ctx p ⟨snp, o⟩ term commitIdx s).result = .error .badBuffer := by
  unfold snapshotBlock
  rw [get_bind_apply]
  by_cases hneg : blockSize ctx ⟨snp, o⟩ < 0
  · show ((if blockSize ctx ⟨snp, o⟩ < 0 then throw .badBuffer else _ : M ReqMsg) s).result = _
    rw [if_pos hneg]
    rfl
  · have hlarge := h.resolve_left hneg
    have hread := not_lt.2 (hfill snp o (blockSize ctx ⟨snp, o⟩).toNat)
    unfold blockSize at hneg hread
    simp only [if_neg hneg, if_neg hread]
    show ((if ¬(cutBlock ctx ⟨snp, o⟩).serialize.isOk then throw .badBuffer else _ : M ReqMsg)
      s).result = _
    rw [if_pos hlarge]
    rfl

/-- The transfer cuts the snapshot. -/
theorem transfer_pieces (hfill : ctx.stateMachine.Fills) {last n o : Nat} (term commitIdx : Nat)
    {snp : Snapshot} (hp : s.object uid = some p) (hsync : nextSync s p last = some ⟨snp, o⟩) :
    (transfer ctx uid last term commitIdx n s).map (List.map SnapshotSyncReq.piece) =
      Tiling.cut (blockLen ctx snp) snp.size n o := by
  induction n generalizing s p o with
  | zero => rfl
  | succ n ih =>
    obtain ⟨heq, hnow⟩ : createSyncSnapshotReq ctx uid last term commitIdx s =
        snapshotBlock ctx p ⟨snp, o⟩ term commitIdx (s.onPeer uid (prepare s p ⟨snp, o⟩)) ∧ _ :=
      createSyncSnapshotReq_eq term commitIdx hp hsync
    unfold transfer Tiling.cut
    rw [heq]
    by_cases hcut : NoBlock ctx snp o
    · have hnone : blockLen ctx snp o = none := if_pos hcut
      simp only [snapshotBlock_error hfill hcut, hnone, Option.map_none, Option.bind_none]
    · have hsome : blockLen ctx snp o = some (blockSize ctx ⟨snp, o⟩).toNat := if_neg hcut
      rw [NoBlock, not_or, not_not] at hcut
      have hrun : snapshotBlock ctx p ⟨snp, o⟩ term commitIdx
          (s.onPeer uid (prepare s p ⟨snp, o⟩)) = _ :=
        snapshotBlock_ok term commitIdx (Int.not_lt.1 hcut.1) (hfill _ _ _) hcut.2
      rw [hrun]
      have hlen := cutBlock_length hfill ⟨snp, o⟩
      have hoff : (cutBlock ctx ⟨snp, o⟩).offset = o := rfl
      have hdone : (cutBlock ctx ⟨snp, o⟩).done =
        decide (snp.size ≤ o + (blockSize ctx ⟨snp, o⟩).toNat) := rfl
      simp only [blockReq, blockOf, hnow, hsome, Option.bind_some, hlen, hoff]
      clear hsome hrun
      generalize cutBlock ctx ⟨snp, o⟩ = block at *
      generalize (blockSize ctx ⟨snp, o⟩).toNat = k at *
      have hpiece : block.piece = ⟨o, k, decide (snp.size ≤ o + k)⟩ := by
        rw [SnapshotSyncReq.piece, hlen, hoff, hdone]
      by_cases hend : snp.size ≤ o + k
      · rw [if_pos hend, if_pos hend, Option.map_some, List.map_singleton, hpiece,
          decide_eq_true hend]
      · rw [if_neg hend, if_neg hend, Option.map_map]
        obtain ⟨p', hp', -⟩ := Option.bind_eq_some_iff.1 hnow
        have hnote (q : Peer) : noteBlock ⟨snp, o⟩ (o + k) q = setOffset ⟨snp, o⟩ (o + k) q :=
          if_neg hend
        have hobj : ((s.onPeer uid (prepare s p ⟨snp, o⟩)).onPeer uid
            (noteBlock ⟨snp, o⟩ (o + k))).object uid = some (setOffset ⟨snp, o⟩ (o + k) p') := by
          rw [object_onPeer _ uid _ fun q => by rw [hnote]; rfl, hp', Option.map_some, hnote]
        rw [← ih hobj (nextSync_next hsync rfl rfl), Option.map_map]
        refine congrArg (fun f => Option.map f _) (funext fun blocks => ?_)
        show block.piece :: _ = _
        rw [hpiece, decide_eq_false hend]
        rfl

theorem getSnapshotSyncBlockSize_pos (h : 0 ≤ ctx.params.snapshotBlockSize) :
    0 < getSnapshotSyncBlockSize ctx := by
  unfold getSnapshotSyncBlockSize
  split <;> omega

theorem blockSize_of_lt {snp : Snapshot} {o : Nat} (ho : o < snp.size)
    (hleft : snp.size - o < 2 ^ 31) :
    blockSize ctx ⟨snp, o⟩ = min (getSnapshotSyncBlockSize ctx) (snp.size - o : Nat) := by
  refine congrArg (min _) ?_
  show int32 (usub snp.size o) = (snp.size - o : Nat)
  rw [usub, if_pos ho.le, int32, Int.bmod_def]
  split <;> omega

/-- The largest block of a snapshot fits a buffer. -/
def Context.BlocksFit (ctx : Context) (snp : Snapshot) : Prop :=
  snp.lastConfig.encodedSize + 33 + (min (getSnapshotSyncBlockSize ctx) snp.size).toNat < 2 ^ 31

/-- A block takes a part of what is left if that fits in 31 bits. -/
theorem blockLen_of_lt {snp : Snapshot} {o : Nat} (hfill : ctx.stateMachine.Fills)
    (hblock : 0 ≤ ctx.params.snapshotBlockSize) (ho : o < snp.size) (hleft : snp.size - o < 2 ^ 31)
    (hfits : ctx.BlocksFit snp) : ∃ k, blockLen ctx snp o = some k ∧ 0 < k ∧ o + k ≤ snp.size := by
  have hsize := getSnapshotSyncBlockSize_pos hblock
  have hcut : blockSize ctx ⟨snp, o⟩ = _ := blockSize_of_lt ho hleft
  unfold Context.BlocksFit at hfits
  refine ⟨_, if_neg ?_, by omega, by omega⟩
  rw [NoBlock, not_or, not_not, cutBlock_isOk hfill]
  exact ⟨by omega, by dsimp only; omega⟩

/-- Otherwise it takes at most what exceeds a multiple of 4 GiB. -/
theorem blockLen_of_le {snp : Snapshot} {o k : Nat} (hleft : 2 ^ 31 ≤ snp.size - o)
    (hlen : blockLen ctx snp o = some k) (hpos : 0 < k) : 2 ^ 31 ≤ snp.size - (o + k) := by
  obtain ⟨hnonneg, hk⟩ := Option.ite_none_left_eq_some.1 hlen
  have hle : blockSize ctx ⟨snp, o⟩ ≤ int32 (usub snp.size o) := min_le_right _ _
  have hk := Option.some.inj hk
  have hint : int32 (usub snp.size o) = Int.bmod (snp.size - o : Nat) (2 ^ 32) := by
    rw [usub, if_pos (by omega), int32]
  rw [hint, Int.bmod_def] at hle
  split at hle <;> omega

/-- Blocks of four bytes, from a state machine that has data for every buffer. -/
def fourBytes : Context where
  params := { snapshotBlockSize := 4 }
  stateMachine := { echoStateMachine with readSnapshotData := fun _ _ n => List.replicate n 0 }

/-- A leader with a snapshot up to index 5 of the given size. -/
def hasSnapshot (size : Nat) : Server :=
  { load 1 { config := {} } with
    role := .leader
    peers := [Peer.new fourBytes 0 (srvAt 2)]
    lastSnapshot := some ⟨5, 1, {}, size⟩ }

theorem store_of_walks {α : Type} {x : M α} {Q : α → Server → Prop}
    (h : Walks (fun s _ s' => s'.logStore = s.logStore) x s Q) :
    (x s).state.logStore = s.logStore :=
  h.1.fold (R := fun (s : Server) _ s' => s'.logStore = s.logStore) (fun _ => rfl)
    fun _ _ _ _ _ h₁ h₂ => Eq.trans h₂ h₁

theorem store_saveConfig {c : ClusterConfig} :
    Walks (fun s _ s' => s'.logStore = s.logStore) (saveConfig c) s fun _ _ => True :=
  walks_saveConfig fun _ _ => ⟨rfl, trivial⟩

theorem store_reconfigure (c : ClusterConfig) :
    Walks (fun s _ s' => s'.logStore = s.logStore) (reconfigure ctx c) s fun _ _ => True := by
  have hadd (added : List SrvConfig) : (added.foldl (addConfigured ctx) s).logStore = s.logStore := by
    obtain ⟨ps, j, n, hfold⟩ := foldl_addConfigured_frame ctx added s
    rw [hfold]
  refine walks_get_bind (walks_modify_bind (hadd _) (walks_modify_bind rfl (walks_get_bind ?_)))
  refine walks_ite (fun _ => walks_bind store_saveConfig fun _ _ _ => walks_emit rfl trivial)
    fun _ => ?_
  exact walks_modify rfl trivial

/-- Of the log, the handler only drops what the snapshot covers. -/
theorem handleSnapshotSyncReq_logStore {req : SnapshotSyncReq} (hrole : s.role = .follower)
    (hdone : req.done = true) : (handleSnapshotSyncReq ctx req s).state.logStore =
      s.logStore.compact req.snapshot.lastLogIdx := by
  have hrole' : ¬s.role ≠ .follower := not_not.2 hrole
  have hexit {s : Server} : Walks (fun s _ s' => s'.logStore = s.logStore)
      (do emit (.systemExit (-1)); exitWith (-1) .snapshotInstallFailed : M Unit) s
      fun _ _ => True :=
    walks_emit_bind rfl (walks_emit_bind rfl walks_throw)
  have htimer (s : Server) : s.restartElectionTimer.logStore = s.logStore :=
    (quiet_restartElectionTimer s).field Server.logStore
  unfold handleSnapshotSyncReq
  rw [emit_bind_state, when_pos hdone, get_bind_apply, when_neg hrole', pure_bind_apply,
    emit_bind_state, modify_bind_apply]
  refine (store_of_walks (Q := fun _ _ => True) ?_).trans rfl
  refine walks_modify_bind rfl (walks_bind (R := fun _ _ => True) ?_ fun _ s₁ _ => ?_)
  · exact walks_when (fun _ => hexit) fun _ => trivial
  · refine walks_modify_bind rfl (walks_bind (R := fun _ _ => True) ?_ fun _ s₂ _ => ?_)
    · refine walks_catching ?_ fun _ _ => walks_emit_bind rfl walks_throw
      exact walks_bind (store_reconfigure _) fun _ _ _ => walks_get_bind store_saveConfig
    · exact walks_modify_bind rfl (walks_modify (htimer _) trivial)

/-- What lies behind the snapshot stays. -/
theorem LogStore.lookup_compact (st : LogStore) {i j : Nat} (hlt : i < j) :
    (st.compact i).logs.lookup j = st.logs.lookup j :=
  lookup_filter_key (P := fun k => ¬(st.startIdx ≤ k ∧ k ≤ i)) (by simp; omega)

/-- The store has an entry behind index `i`. -/
def LogStore.ReachesBeyond (st : LogStore) (i : Nat) : Prop :=
  ∃ j, i < j ∧ (st.logs.lookup j).isSome

/-- The store has an entry of term `t` at index `i`. -/
def LogStore.HasAt (st : LogStore) (i t : Nat) : Prop := ∃ e ∈ st.logs.lookup i, e.term = t

/-- **Tails behind a snapshot.** A follower that has got all of a snapshot keeps entries behind it only
if it had the snapshot's last entry, exactly if its log did not reach beyond the snapshot or it had
this entry. -/
theorem installed_tail_iff (ctx : Context) (s : Server) (req : SnapshotSyncReq)
    (hrole : s.role = .follower) (hdone : req.done = true) :
    ((handleSnapshotSyncReq ctx req s).state.logStore.ReachesBeyond req.snapshot.lastLogIdx →
      s.logStore.HasAt req.snapshot.lastLogIdx req.snapshot.lastLogTerm) ↔
    ¬s.logStore.ReachesBeyond req.snapshot.lastLogIdx ∨
      s.logStore.HasAt req.snapshot.lastLogIdx req.snapshot.lastLogTerm := by
  have hsame : (handleSnapshotSyncReq ctx req s).state.logStore.ReachesBeyond
      req.snapshot.lastLogIdx ↔ s.logStore.ReachesBeyond req.snapshot.lastLogIdx := by
    rw [handleSnapshotSyncReq_logStore hrole hdone]
    refine exists_congr fun j => and_congr_right fun hlt => ?_
    rw [LogStore.lookup_compact _ hlt]
  rw [hsame, imp_iff_not_or]

/-- A follower with three entries of term 1. -/
def threeEntries : Server :=
  { load 2 { config := {} } with
    logStore := (List.replicate 3 ⟨1, .appLog, .bytes [7, 0]⟩).foldl LogStore.append .empty }

/-- It has the last entry of a snapshot of term 1. -/
theorem installed_tail_kept :
    (handleSnapshotSyncReq {} ⟨⟨2, 1, {}, 1⟩, 0, [0], true⟩ threeEntries).state.logStore.ReachesBeyond
        2 ∧ threeEntries.logStore.HasAt 2 1 := by
  have hreach : (handleSnapshotSyncReq {} ⟨⟨2, 1, {}, 1⟩, 0, [0], true⟩
      threeEntries).state.logStore.ReachesBeyond 2 := ⟨3, by decide, by decide +kernel⟩
  refine ⟨hreach, (installed_tail_iff {} threeEntries _ rfl rfl).2 (.inr ?_) hreach⟩
  exact ⟨⟨1, .appLog, .bytes [7, 0]⟩, rfl, rfl⟩

/-- It does not have the last entry of a snapshot of term 5, and keeps its third entry all the same. -/
theorem installed_tail_conflicts :
    (handleSnapshotSyncReq {} ⟨⟨2, 5, {}, 1⟩, 0, [0], true⟩ threeEntries).state.logStore.ReachesBeyond
        2 ∧ ¬threeEntries.logStore.HasAt 2 5 := by
  refine ⟨⟨3, by decide, by decide +kernel⟩, ?_⟩
  rintro ⟨e, he, hterm⟩
  obtain rfl : (⟨1, .appLog, .bytes [7, 0]⟩ : LogEntry) = e := Option.some.inj he
  exact absurd hterm (by decide)

end EnclaveRaft
