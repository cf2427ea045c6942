import EnclaveRaft.Lib.Machine
import EnclaveRaft.Types
import Mathlib.Logic.Function.Basic

/-!
# Responses that wait for their callers

`ecall_handle_rpc_request` leaves the response to a request in `response_buffer_map`, under a counter
of 32 bits, and returns its size; the caller makes room for it and calls `ecall_fetch_rpc_response`
with the id.

Requests with a response are numbered in the order they are handled. The map keeps the first response
under an id (`emplace`) and nothing leaves it, so after any run it is a function of the responses
handled so far: request `k` finds the response of request `k % 2 ^ 32`.
-/

namespace EnclaveRaft.Port

namespace Responses

/-- A request is handled, with the response of its handler if there is one, or the caller of a
request fetches its response. -/
inductive Event
  | handle (response : Option Bytes)
  | fetch (request : Nat)
  deriving DecidableEq

end Responses

/-- The counter and the map, and what the calls have returned: the id and the response of each
request that has one, and what each fetch for a request has brought. -/
structure Responses where
  idCounter : Nat := 0
  responseBufferMap : Nat → Option Bytes := fun _ => none
  handled : List (Nat × Bytes) := []
  fetched : List (Nat × Option Bytes) := []

namespace Responses

open Function (update)

/-- `memcpy_s` into a buffer: too small a buffer is cleared. -/
def memcpyS (dst src : Bytes) : Bytes :=
  if dst.length < src.length then List.replicate dst.length 0 else src ++ dst.drop src.length

/-- `emplace`: an id that is present keeps its response. -/
def emplace (m : Nat → Option Bytes) (id : Nat) (response : Bytes) : Nat → Option Bytes :=
  if (m id).isSome then m else update m id (some response)

/-- The end of `ecall_handle_rpc_request`. Without a response the id is 0 and nothing is kept. -/
def handleRpcRequest (s : Responses) : Option Bytes → Responses
  | none => s
  | some response =>
    let msgId := (s.idCounter + 1) % 2 ^ 32
    { s with
      idCounter := msgId
      responseBufferMap := emplace s.responseBufferMap msgId response
      handled := s.handled ++ [(msgId, response)] }

/-- `ecall_fetch_rpc_response`: the buffer it leaves, or `none` if it returns false. -/
def fetchRpcResponse (s : Responses) (msgId : Nat) (buffer : Bytes) : Option Bytes :=
  (s.responseBufferMap msgId).map (memcpyS buffer)

/-- The buffer that `message_handler` makes for a response: the size goes through `int32_t`. -/
def callerBuffer (response : Bytes) : Bytes := List.replicate (int32 response.length).toNat 0

/-- A caller fetches when a request was handled for it and the size it was given is positive. -/
def step (s : Responses) : Event → Option Responses
  | .handle response => some (s.handleRpcRequest response)
  | .fetch k => do
    let (msgId, response) ← s.handled[k]?
    if int32 response.length < 1 then none
    else
      let out := s.fetchRpcResponse msgId (callerBuffer response)
      some { s with fetched := s.fetched ++ [(k, out)] }

/-- What the map is for: every fetch has brought the response of its request, and once all requests
have been fetched the map is empty. -/
structure HandedOut (s : Responses) : Prop where
  right : ∀ k out, (k, out) ∈ s.fetched → ∃ msgId response,
    s.handled[k]? = some (msgId, response) ∧ out = some response
  empty : (∀ k < s.handled.length, k ∈ s.fetched.map Prod.fst) → ∀ id, s.responseBufferMap id = none

/-! ## What the map holds -/

/-- What the map and the history have to do with each other, in any run. -/
structure Consistent (s : Responses) : Prop where
  counter : s.idCounter = s.handled.length % 2 ^ 32
  ids : ∀ k msgId response, s.handled[k]? = some (msgId, response) → msgId = (k + 1) % 2 ^ 32
  map : ∀ id, s.responseBufferMap id = (s.handled.find? fun h => h.1 = id).map Prod.snd
  fetched : ∀ k out, (k, out) ∈ s.fetched → ∃ msgId response id stored,
    s.handled[k]? = some (msgId, response) ∧ s.handled[k % 2 ^ 32]? = some (id, stored) ∧
      out = some (memcpyS (callerBuffer response) stored)

variable {s s' : Responses}

theorem emplace_apply (m : Nat → Option Bytes) (i j : Nat) (r : Bytes) :
    emplace m i r j = (m j).or (if i = j then some r else none) := by
  unfold emplace
  by_cases hij : i = j
  · subst hij
    cases hm : m i with
    | none => simp
    | some r' => simp [hm]
  · rw [apply_ite (fun m : Nat → Option Bytes => m j), Function.update_of_ne (Ne.symm hij)]
    simp [hij]

theorem consistent_start : Consistent {} where
  counter := rfl
  ids := by simp
  map := by simp
  fetched := by simp

/-- The first request under an id is the one whose number is less than `2 ^ 32`. -/
theorem Consistent.find_id (h : s.Consistent) {k : Nat} (hk : k < s.handled.length) :
    (s.handled.find? fun p => p.1 = (k + 1) % 2 ^ 32) = s.handled[k % 2 ^ 32]? := by
  have hlt : k % 2 ^ 32 < s.handled.length := (Nat.mod_le _ _).trans_lt hk
  rw [List.getElem?_eq_getElem hlt, List.find?_eq_some_iff_getElem]
  have hid (j : Nat) (hj : j < s.handled.length) : (s.handled[j]).1 = (j + 1) % 2 ^ 32 :=
    h.ids j _ _ (List.getElem?_eq_getElem hj)
  refine ⟨?_, k % 2 ^ 32, hlt, rfl, fun j hj => ?_⟩
  · rw [hid]
    simp
  · rw [hid]
    simp
    omega

theorem Consistent.lookup (h : s.Consistent) {k msgId : Nat} {response : Bytes}
    (hk : s.handled[k]? = some (msgId, response)) :
    s.responseBufferMap msgId = (s.handled[k % 2 ^ 32]?).map Prod.snd := by
  rw [h.map, h.ids k msgId response hk, h.find_id (List.getElem?_eq_some_iff.1 hk).1]

theorem Consistent.handle (h : s.Consistent) (response : Option Bytes) :
    (s.handleRpcRequest response).Consistent := by
  cases response with
  | none => exact h
  | some r =>
    have hkeep {k : Nat} {p : Nat × Bytes} (hk : s.handled[k]? = some p) (q : Nat × Bytes) :
        (s.handled ++ [q])[k]? = some p := by
      rw [List.getElem?_append_left (List.getElem?_eq_some_iff.1 hk).1, hk]
    have hcount : (s.idCounter + 1) % 2 ^ 32 = (s.handled.length + 1) % 2 ^ 32 := by
      rw [h.counter, Nat.mod_add_mod]
    unfold handleRpcRequest
    dsimp only
    rw [hcount]
    refine ⟨by simp, fun k msgId response hk => ?_, fun id => ?_, fun k out hout => ?_⟩
    · rcases Nat.lt_or_ge k s.handled.length with hlt | hge
      · rw [List.getElem?_append_left hlt] at hk
        exact h.ids k msgId response hk
      · rw [List.getElem?_append_right hge, List.getElem?_singleton] at hk
        split at hk
        · cases hk
          rw [show k = s.handled.length by omega]
        · cases hk
    · -- an id that is taken keeps its response, as the search from the front finds it first
      show emplace s.responseBufferMap _ r id = _
      rw [emplace_apply, h.map, List.find?_append, List.find?_singleton, Option.map_or]
      by_cases hid : (s.handled.length + 1) % 2 ^ 32 = id <;> simp
    · obtain ⟨msgId, response, id, stored, hk, hmod, heq⟩ := h.fetched k out hout
      exact ⟨msgId, response, id, stored, hkeep hk _, hkeep hmod _, heq⟩

theorem Consistent.step {e : Event} (h : s.Consistent) (hstep : s.step e = some s') :
    s'.Consistent := by
  cases e with
  | handle response =>
    cases hstep
    exact h.handle response
  | fetch k =>
    obtain ⟨⟨msgId, response⟩, hk, hstep⟩ := Option.bind_eq_some_iff.1 hstep
    dsimp only at hstep
    split at hstep
    · cases hstep
    · cases hstep
      refine ⟨h.counter, h.ids, h.map, fun k' out hout => ?_⟩
      rcases List.mem_append.1 hout with hout | hout
      · exact h.fetched k' out hout
      · cases List.mem_singleton.1 hout
        have hlt : k % 2 ^ 32 < s.handled.length :=
          (Nat.mod_le _ _).trans_lt (List.getElem?_eq_some_iff.1 hk).1
        refine ⟨msgId, response, _, _, hk, List.getElem?_eq_getElem hlt, ?_⟩
        rw [fetchRpcResponse, h.lookup hk, List.getElem?_eq_getElem hlt]
        rfl

/-! ## What a run has asked for -/

/-- The responses of a run, in the order of the requests. -/
def responses (es : List Event) : List Bytes :=
  es.filterMap fun
    | .handle response => response
    | .fetch _ => none

/-- The requests that a run fetches. -/
def fetches (es : List Event) : List Nat :=
  es.filterMap fun
    | .handle _ => none
    | .fetch k => some k

theorem run_history {es : List Event} (hrun : Machine.run step s es = some s') :
    s'.handled.map Prod.snd = s.handled.map Prod.snd ++ responses es ∧
      s'.fetched.map Prod.fst = s.fetched.map Prod.fst ++ fetches es := by
  induction es generalizing s with
  | nil =>
    cases hrun
    simp [responses, fetches]
  | cons e es ih =>
    obtain ⟨t, hstep, hrun⟩ := Machine.run_cons_eq_some.1 hrun
    obtain ⟨hhandled, hfetched⟩ := ih hrun
    cases e with
    | handle response =>
      cases hstep
      cases response with
      | none => exact ⟨hhandled, hfetched⟩
      | some r =>
        rw [hhandled, hfetched]
        simp [handleRpcRequest, responses, fetches]
    | fetch k =>
      obtain ⟨⟨msgId, response⟩, -, hstep⟩ := Option.bind_eq_some_iff.1 hstep
      dsimp only at hstep
      split at hstep
      · cases hstep
      · cases hstep
        rw [hhandled, hfetched]
        simp [responses, fetches]

/-- The condition on the events of a run. Each response that is fetched comes out of the caller's
buffer when the one handled first under its id is copied there; and some response has not been
fetched, if there are any. -/
def Undisturbed (es : List Event) : Prop :=
  (∀ k ∈ fetches es, ∀ response stored, (responses es)[k]? = some response →
    (responses es)[k % 2 ^ 32]? = some stored →
      memcpyS (callerBuffer response) stored = response) ∧
  (responses es = [] ∨ ∃ k < (responses es).length, k ∉ fetches es)

theorem getElem_responses {es : List Event} (hes : s.handled.map Prod.snd = responses es) {k : Nat}
    {p : Nat × Bytes} (hk : s.handled[k]? = some p) : (responses es)[k]? = some p.2 := by
  rw [← hes, List.getElem?_map, hk]
  rfl

/-- The fetches have brought the right responses. -/
theorem Consistent.right_iff (h : s.Consistent) {es : List Event}
    (hes : s.handled.map Prod.snd = responses es) (hfs : s.fetched.map Prod.fst = fetches es) :
    (∀ k out, (k, out) ∈ s.fetched → ∃ msgId response,
        s.handled[k]? = some (msgId, response) ∧ out = some response) ↔
      ∀ k ∈ fetches es, ∀ response stored, (responses es)[k]? = some response →
        (responses es)[k % 2 ^ 32]? = some stored →
          memcpyS (callerBuffer response) stored = response := by
  constructor
  · intro hright k hk response stored hresponse hstored
    rw [← hfs] at hk
    obtain ⟨⟨k, out⟩, hout, rfl⟩ := List.mem_map.1 hk
    obtain ⟨_, r, _, r', hr, hr', heq⟩ := h.fetched k out hout
    obtain ⟨_, _, hr₁, heq₁⟩ := hright k out hout
    have hsame : response = r := Option.some.inj (hresponse.symm.trans (getElem_responses hes hr))
    have hsame' : stored = r' := Option.some.inj (hstored.symm.trans (getElem_responses hes hr'))
    rw [hr] at hr₁
    cases hr₁
    rw [hsame, hsame']
    exact Option.some.inj (heq.symm.trans heq₁)
  · intro hcond k out hout
    obtain ⟨msgId, r, _, r', hr, hr', heq⟩ := h.fetched k out hout
    refine ⟨msgId, r, hr, ?_⟩
    have hk : k ∈ fetches es := by
      rw [← hfs]
      exact List.mem_map_of_mem hout
    rw [heq, hcond k hk r r' (getElem_responses hes hr) (getElem_responses hes hr')]

/-- Nothing leaves the map, so it is empty only before the first response. -/
theorem Consistent.map_empty_iff (h : s.Consistent) :
    (∀ id, s.responseBufferMap id = none) ↔ s.handled = [] := by
  constructor
  · intro hnone
    cases hs : s.handled with
    | nil => rfl
    | cons p ps =>
      have hp : s.handled[0]? = some (p.1, p.2) := by rw [hs]; rfl
      have hlookup := h.lookup hp
      rw [hnone, Nat.zero_mod, hp] at hlookup
      cases hlookup
  · intro hnil id
    rw [h.map, hnil]
    rfl

/-- **Responses and their callers.** After a run, every fetch has brought the response of its request
and the map is empty once all have been fetched, exactly if the run is undisturbed. -/
theorem responses_handed_out (es : List Event) (s : Responses)
    (hrun : Machine.run step {} es = some s) : s.HandedOut ↔ Undisturbed es := by
  have h : s.Consistent :=
    Machine.run_invariant (fun _ _ _ h hstep => h.step hstep) consistent_start hrun
  obtain ⟨hes, hfs⟩ := run_history hrun
  simp only [List.map_nil, List.nil_append] at hes hfs
  have hlen : s.handled.length = (responses es).length := by rw [← hes, List.length_map]
  have hempty : s.handled = [] ↔ responses es = [] := by
    rw [← List.length_eq_zero_iff, hlen, List.length_eq_zero_iff]
  constructor
  · intro hout
    refine ⟨(h.right_iff hes hfs).1 hout.right, ?_⟩
    by_contra hcon
    obtain ⟨hne, hall⟩ := not_or.1 hcon
    have hmap := hout.empty fun k hk => by
      rw [hfs]
      by_contra hk'
      exact hall ⟨k, hlen ▸ hk, hk'⟩
    exact hne (hempty.1 (h.map_empty_iff.1 hmap))
  · intro hcond
    refine ⟨(h.right_iff hes hfs).2 hcond.1, fun hall => ?_⟩
    rcases hcond.2 with hnil | ⟨k, hk, hnot⟩
    · exact h.map_empty_iff.2 (hempty.2 hnil)
    · have hk' := hall k (hlen ▸ hk)
      rw [hfs] at hk'
      exact absurd hk' hnot

/-- Two requests, of which the first has been fetched. -/
theorem responses_handed_out_first :
    ∃ s, Machine.run step {} [.handle (some [1]), .handle (some [2]), .fetch 0] = some s ∧
      s.HandedOut := by
  have hrun : (Machine.run step {} [.handle (some [1]), .handle (some [2]), .fetch 0]).isSome := by
    decide +kernel
  obtain ⟨s, hs⟩ := Option.isSome_iff_exists.1 hrun
  refine ⟨s, hs, (responses_handed_out _ s hs).2 ⟨?_, .inr ⟨1, by decide, by decide⟩⟩⟩
  intro k hk response stored hr hr'
  obtain rfl : k = 0 := by simpa [fetches] using hk
  cases hr
  cases hr'
  decide +kernel

theorem run_handles (rs : List Bytes) (s : Responses) :
    ∃ s', Machine.run step s (rs.map fun r => .handle (some r)) = some s' := by
  induction rs generalizing s with
  | nil => exact ⟨s, rfl⟩
  | cons r rs ih => exact ih (s.handleRpcRequest (some r))

/-- Where the counter has gone round, a caller is handed the response of another request. -/
theorem fetch_after_wrap {n : Nat} (hn : n = 2 ^ 32) :
    ∃ es s, Machine.run step {} es = some s ∧ s.handled[n]? = some (1, [2]) ∧
      s.fetched = [(n, some [1])] := by
  obtain ⟨s, hs⟩ := run_handles (List.replicate n [1] ++ [[2]]) {}
  have h : s.Consistent :=
    Machine.run_invariant (fun _ _ _ h hstep => h.step hstep) consistent_start hs
  obtain ⟨hes, hfs⟩ := run_history hs
  have hresponses : s.handled.map Prod.snd = List.replicate n [1] ++ [[2]] := by
    rw [hes]
    simp [responses]
  have hnone : s.fetched = [] := by
    rw [← List.map_eq_nil_iff (f := Prod.fst), hfs]
    simp [fetches]
  have hget {k : Nat} {r : Bytes} (hk : (List.replicate n [1] ++ [[2]])[k]? = some r) :
      s.handled[k]? = some ((k + 1) % 2 ^ 32, r) := by
    rw [← hresponses, List.getElem?_map] at hk
    obtain ⟨⟨id, r'⟩, hp, rfl⟩ := Option.map_eq_some_iff.1 hk
    rw [hp, h.ids k id r' hp]
  have hlast : s.handled[n]? = some (1, [2]) := by
    have hid : (n + 1) % 2 ^ 32 = 1 := by omega
    rw [hget (r := [2]) (by simp), hid]
  have hfirst : s.handled[n % 2 ^ 32]? = some (1, [1]) := by
    have hmod : n % 2 ^ 32 = 0 := by omega
    have hpos : 0 < (List.replicate n ([1] : Bytes)).length := by
      rw [List.length_replicate]
      omega
    rw [hmod]
    refine hget ?_
    rw [List.getElem?_append_left hpos, List.getElem?_replicate_of_lt (by simpa using hpos)]
  refine ⟨(List.replicate n ([1] : Bytes) ++ [[2]]).map (fun r => .handle (some r)) ++ [.fetch n],
    { s with fetched := [(n, some [1])] }, ?_, hlast, rfl⟩
  rw [Machine.run_append, hs]
  show (s.step (.fetch n)).bind _ = _
  have hfetch : s.fetchRpcResponse 1 (callerBuffer [2]) = some [1] := by
    rw [fetchRpcResponse, h.lookup hlast, hfirst]
    decide +kernel
  have hpos : ¬int32 ([2] : Bytes).length < 1 := by decide
  simp only [step, hlast, Option.bind_eq_bind, Option.bind_some, hpos, if_false, hfetch, hnone,
    List.nil_append]
  rfl

/-- A response is still in the map after it has been fetched, and so the map is not empty; and where
the counter has gone round, a caller is handed the response of another request. -/
theorem responses_kept :
    (∃ s, Machine.run step {} [.handle (some [1]), .fetch 0] = some s ∧
      s.fetched = [(0, some [1])] ∧ s.responseBufferMap 1 = some [1] ∧ ¬s.HandedOut) ∧
    ∃ es s, Machine.run step {} es = some s ∧ s.handled[2 ^ 32]? = some (1, [2]) ∧
      s.fetched = [(2 ^ 32, some [1])] := by
  refine ⟨?_, fetch_after_wrap rfl⟩
  have hrun : (Machine.run step {} [.handle (some [1]), .fetch 0]).map
      (fun s => (s.fetched, s.handled, s.responseBufferMap 1)) =
        some ([(0, some [1])], [(1, [1])], some [1]) := rfl
  obtain ⟨s, hs, heq⟩ := Option.map_eq_some_iff.1 hrun
  simp only [Prod.mk.injEq] at heq
  refine ⟨s, hs, heq.1, heq.2.2, fun hout => ?_⟩
  have hall : ∀ k < s.handled.length, k ∈ s.fetched.map Prod.fst := by
    rw [heq.1, heq.2.1]
    decide
  have hmap := hout.empty hall 1
  rw [heq.2.2] at hmap
  cases hmap

end Responses

end EnclaveRaft.Port
