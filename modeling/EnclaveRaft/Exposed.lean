import EnclaveRaft.Matching

/-!
# What a follower exposes to its background thread

`handle_append_entries` takes over the leader's commit index as it is, without bounding it by the
last entry that the request has verified. Entries behind the request's last one are left in place
when all of the request's entries are there already, so an old tail may come under the commit
index. The exposed entries are those of the sender exactly if the tail happens to agree with the
sender's log where the commit index ends (`exposes_sent_iff`).
-/

namespace EnclaveRaft

open Act Server LogStore

variable {m : Members} {ctx : Context} {s : Server}

/-- The server answers the request with an acceptance. -/
def accepts (ctx : Context) (s : Server) (req : ReqMsg) (now : Int) : Bool :=
  match (processReq ctx req now s).result with
  | .ok resp => resp.accepted
  | .error _ => false

/-- Every entry up to the commit index is the one that the sender of the request had. -/
def ExposesSent (s : Server) (rpc : Rpc) : Prop :=
  ∀ n, 1 ≤ n → n ≤ min s.quickCommitIdx (usub s.nextSlot 1) →
    s.logStore.logs.lookup n = rpc.creator.logStore.logs.lookup n

/-- The last index that the server exposes if it keeps its log. -/
def exposedIdx (s : Server) (req : ReqMsg) : Nat :=
  min (max s.quickCommitIdx req.commitIdx) (usub s.nextSlot 1)

/-- If the request changes nothing and more is exposed than it covers, then the sender has an entry
of the same term where this ends. -/
def TailVerified (s : Server) (rpc : Rpc) : Prop :=
  (skipMatching s.logStore (rpc.req.lastLogIdx + 1) rpc.req.logEntries).2 = [] →
    rpc.req.lastLogIdx + rpc.req.logEntries.length < exposedIdx s rpc.req →
    exposedIdx s rpc.req < rpc.creator.nextSlot ∧
      rpc.creator.logStore.termAt (exposedIdx s rpc.req) = s.logStore.termAt (exposedIdx s rpc.req)

/-! ## Requests that change nothing -/

/-- All entries are skipped exactly if the log has the piece of the leader's log already. -/
theorem skipMatching_eq_nil_iff {st : LogStore} {l L es : List LogEntry} {k : Nat}
    (h : st.Holds l) (hstart : st.startIdx ≤ k + 1) (hes : es <+: L.drop k)
    (hshared : L.take k <+: l)
    (hmatch : ∀ j a b, l[j]? = some a → L[j]? = some b → a.term = b.term →
      L.take (j + 1) <+: l) :
    (skipMatching st (k + 1) es).2 = [] ↔ L.take (k + es.length) <+: l := by
  induction es generalizing k with
  | nil => exact ⟨fun _ => hshared, fun _ => rfl⟩
  | cons e es ih =>
    have hget : L[k]? = some e := by
      obtain ⟨r, hr⟩ := hes
      rw [← Nat.add_zero k, ← List.getElem?_drop, ← hr]
      rfl
    have hdrop : es <+: L.drop (k + 1) := by
      obtain ⟨r, hr⟩ := hes
      exact ⟨r, by rw [← List.drop_drop, ← hr]; rfl⟩
    have hk : k < L.length := (List.getElem?_eq_some_iff.1 hget).1
    rw [List.length_cons, Nat.add_comm es.length, ← Nat.add_assoc]
    unfold skipMatching
    split
    next hterm =>
      obtain ⟨a, ha, hae⟩ := Option.map_eq_some_iff.1 ((Holds.termAt_iff h hstart).1 hterm)
      exact ih (hstart.trans (Nat.le_succ _)) hdrop (hmatch k a e ha hget hae)
    next hterm =>
      refine ⟨fun hnil => (by cases hnil), fun hp => (hterm ?_).elim⟩
      obtain ⟨r, hr⟩ := hp
      refine (Holds.termAt_iff h hstart).2 ?_
      rw [← hr, List.getElem?_append_left (by rw [List.length_take]; omega),
        List.getElem?_take_of_lt (by omega), hget]
      rfl

/-- What an accepting server does to its store and its commit index. -/
theorem append_of_accepts {req : ReqMsg} {now : Int} (htype : req.type = .appendEntriesRequest)
    (hacc : accepts ctx s req now = true) : ReqOkay s req ∧
      (processReq ctx req now s).state.logStore =
        written s.logStore req.lastLogIdx req.logEntries ∧
      (processReq ctx req now s).state.quickCommitIdx = max s.quickCommitIdx req.commitIdx := by
  unfold accepts at hacc
  split at hacc
  next resp hres =>
    have hwalks : Walks (Micro ctx (.request req now) s) (processReq ctx req now) s
      (Replied s req) := walks_processReq rfl
    have hrep := hwalks.2 resp hres
    obtain ⟨-, -, -, hokay, hlog, -, hquick⟩ := (hrep.append htype).accepted hacc
    exact ⟨hokay, hlog, hquick⟩
  next => cases hacc

/-! ## The exposed entries -/

theorem termAt_of_le {st : LogStore} {l : List LogEntry} {n : Nat} (h : st.Holds l)
    (hstart : st.startIdx ≤ n) (hpos : 1 ≤ n) (hn : n ≤ l.length) :
    l[n - 1]?.map LogEntry.term = some (st.termAt n) := by
  have hget : l[n - 1]? = some l[n - 1] := List.getElem?_eq_getElem (by omega)
  rw [LogStore.termAt, h.entryAt hstart hget, hget, Option.map_some]

/-- Two logs that match agree up to an index behind what they are known to share, exactly if they
have entries of the same term there. -/
theorem agree_upTo_iff {l S : List LogEntry} {n top : Nat} (hshared : S.take n <+: l)
    (hn : n ≤ S.length) (htop : top ≤ l.length)
    (hmatch : ∀ j a b, l[j]? = some a → S[j]? = some b → a.term = b.term →
      S.take (j + 1) <+: l) :
    (∀ j, j < top → l[j]? = S[j]?) ↔ (n < top → top ≤ S.length ∧
      S[top - 1]?.map LogEntry.term = l[top - 1]?.map LogEntry.term) := by
  have hagree : ∀ k, S.take k <+: l → k ≤ S.length → ∀ j, j < k → l[j]? = S[j]? := by
    rintro k ⟨r, rfl⟩ hk j hj
    rw [List.getElem?_append_left (by rw [List.length_take]; omega),
      List.getElem?_take_of_lt hj]
  constructor
  · intro h hlt
    have hlast := h (top - 1) (by omega)
    have hsome : S[top - 1]? = some l[top - 1] := by
      rw [← hlast]
      exact List.getElem?_eq_getElem (by omega)
    have hlen := (List.getElem?_eq_some_iff.1 hsome).1
    exact ⟨by omega, by rw [hlast]⟩
  · intro h
    by_cases hlt : n < top
    · obtain ⟨hlen, hterm⟩ := h hlt
      have hl : l[top - 1]? = some l[top - 1] := List.getElem?_eq_getElem (by omega)
      have hS : S[top - 1]? = some S[top - 1] := List.getElem?_eq_getElem (by omega)
      rw [hl, hS] at hterm
      have htake := hmatch _ _ _ hl hS (Option.some.inj hterm).symm
      rw [Nat.sub_add_cancel (by omega)] at htake
      exact hagree top htake hlen
    · intro j hj
      exact hagree n hshared hn j (by omega)

/-- The commit index and the entries of stores that are whole, in terms of their logs. -/
theorem exposesSent_iff {rpc : Rpc} {l S : List LogEntry} (h : s.logStore.Holds l)
    (hS : rpc.creator.logStore.Holds S) (hstart : s.logStore.startIdx = 1)
    (hstart' : rpc.creator.logStore.startIdx = 1) :
    ExposesSent s rpc ↔ ∀ j, j < min s.quickCommitIdx l.length → l[j]? = S[j]? := by
  have hlook : ∀ n, 1 ≤ n → s.logStore.logs.lookup n = l[n - 1]? ∧
      rpc.creator.logStore.logs.lookup n = S[n - 1]? := fun n hn =>
    ⟨by rw [h.lookup hn, if_pos (hstart.trans_le hn)],
      by rw [hS.lookup hn, if_pos (hstart'.trans_le hn)]⟩
  have hlast : usub s.nextSlot 1 = l.length := by rw [Server.nextSlot, h.nextSlot, usub_succ]
  unfold ExposesSent
  rw [hlast]
  constructor
  · intro hexp j hj
    have hj' := hexp (j + 1) (Nat.le_add_left _ _) hj
    rwa [(hlook _ (Nat.le_add_left _ _)).1, (hlook _ (Nat.le_add_left _ _)).2] at hj'
  · intro hexp n hn hle
    rw [(hlook n hn).1, (hlook n hn).2]
    exact hexp (n - 1) (by omega)

/-- What an accepting server keeps of its log, compared with the log `S` of the sender. -/
theorem accepted_log {H : LogHistory} {c : Cluster} (hoff : ctx.params.snapshotDistance = 0)
    (hH : Follows m ctx H c) {rpc : Rpc} (hrpc : rpc ∈ c.rpcs) (hmem : rpc.target ∈ m.ids)
    (htype : rpc.req.type = .appendEntriesRequest)
    (hokay : ReqOkay (c.servers rpc.target) rpc.req) :
    ∃ S, rpc.creator.logStore.Holds S ∧ rpc.creator.logStore.startIdx = 1 ∧
      rpc.req.lastLogIdx ≤ (H.log rpc.target).length ∧
      S.take rpc.req.lastLogIdx <+: H.log rpc.target ∧
      rpc.req.logEntries <+: S.drop rpc.req.lastLogIdx ∧ rpc.req.lastLogIdx ≤ S.length ∧
      ∀ j a b, (H.log rpc.target)[j]? = some a → S[j]? = some b → a.term = b.term →
        S.take (j + 1) <+: H.log rpc.target := by
  have hstored := (hH.server _ hmem).stored
  have hfrom := (hH.request rpc hrpc).append htype
  have hwhole := hfrom.whole hoff
  obtain ⟨L, hfits⟩ := Follows.fits hH.base hstored hfrom hokay
    (fun _ => hstored.whole hoff) (fun _ => hwhole)
  obtain ⟨S, L', hL', hp, hS, hpiece⟩ := hfrom.led
  cases hL'.symm.trans hfits.lead
  obtain ⟨hle, hes, -⟩ := hpiece fun _ => hwhole
  have htake : ∀ k, k ≤ S.length → S.take k = L.take k := by
    intro k hk
    obtain ⟨r, rfl⟩ := hp
    rw [List.take_append_of_le_length hk]
  refine ⟨S, hS, hwhole, hfits.le, ?_, hes, hle, fun j a b ha hb hterm => ?_⟩
  · rw [htake _ hle]
    exact hfits.shared
  · have hj := (List.getElem?_eq_some_iff.1 hb).1
    rw [htake _ hj]
    refine Follows.matches_log hH.base hL' j a b ha ?_ hterm
    obtain ⟨r, rfl⟩ := hp
    rw [List.getElem?_append_left hj, hb]

/-- Append requests hold one entry: `max_append_size_` counts entries. -/
def oneByOne : Context := { params := { maxAppendSize := 1 } }

/-- Server 1 leads term 1 and has an entry that it sends to nobody. Server 2 leads term 2 and gets
its first two entries committed with server 3; then it leads term 4, and server 1, whose log still
ends in the entry of term 1, gets the first entry from it. -/
def oldTail : List Event :=
  [.electionTimeout 1, .deliver 0 0, .respond 0 0, .deliver 2 0, .deliver 3 0, .client 1 [[7, 0]] 0,
    .electionTimeout 2, .deliver 5 0, .respond 3 0, .deliver 7 0, .respond 4 0, .deliver 4 0,
    .electionTimeout 1, .deliver 6 0, .deliver 9 0, .electionTimeout 2, .deliver 12 0,
    .respond 8 0, .deliver 13 0, .respond 9 0, .respond 6 0]

end EnclaveRaft
