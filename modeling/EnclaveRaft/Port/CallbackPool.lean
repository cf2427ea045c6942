import EnclaveRaft.Lib.Machine
import Mathlib.Algebra.Group.Nat.Defs
import Mathlib.Data.List.Nodup
import Mathlib.Logic.Function.Basic

/-!
# Callbacks of calls in flight

`RpcClientPort` keeps the handler of every request in `raft_rpc_client_callback_pool`, by a request
counter of 32 bits, until `ecall_rpc_response` brings a response or an exception for it. The pool is
also looked at when a client is destroyed, by the id of the client.

Requests are numbered in the order they are sent. `pending` is what the pool is to hold: it is defined
by what was sent and what has arrived, not by what the code keeps.
-/

namespace EnclaveRaft.Port

/-- What arrives for a request. -/
inductive Arrival
  | response
  | exception
  deriving DecidableEq

namespace CallbackPool

/-- A request is sent, the counter is used for a request of the key exchange, something arrives for
an id, or a client is destroyed. -/
inductive Event
  | send
  | sendXchgRequest
  | arrive (uid : Nat) (what : Arrival)
  | destroy (clientUid : Nat)
  deriving DecidableEq

end CallbackPool

/-- The counter and the pool, and what has happened: the ids of the requests that were sent, the
requests for which something has arrived, the handlers that were invoked, and how often an empty
function was called. -/
structure CallbackPool where
  lastReqUid : Nat := 0
  pool : Nat → Option Nat := fun _ => none
  sent : List Nat := []
  arrived : List (Nat × Arrival) := []
  calls : List (Nat × Arrival) := []
  badCalls : Nat := 0

namespace CallbackPool

open Function (update)

/-- The counter after the next request. -/
def nextUid (s : CallbackPool) : Nat := (s.lastReqUid + 1) % 2 ^ 32

def send (s : CallbackPool) : CallbackPool :=
  { s with
    lastReqUid := s.nextUid
    pool := update s.pool s.nextUid (some s.sent.length)
    sent := s.sent ++ [s.nextUid] }

/-- `ecall_rpc_response`. An exception is only logged. The entry of a response is looked up with
`operator[]` and erased, and its handler is called, which is empty if there was none. -/
def rpcResponse (s : CallbackPool) (uid : Nat) : Arrival → CallbackPool
  | .exception => s
  | .response =>
    match s.pool uid with
    | some k => { s with pool := update s.pool uid none, calls := s.calls ++ [(k, .response)] }
    | none => { s with badCalls := s.badCalls + 1 }

/-- `~RpcClientPort`. -/
def destroy (s : CallbackPool) (clientUid : Nat) : CallbackPool :=
  { s with pool := update s.pool clientUid none }

/-- The request that waits for an arrival under an id. -/
def pending (s : CallbackPool) (uid : Nat) : Option Nat :=
  (List.range s.sent.length).reverse.find? fun k =>
    s.sent[k]? = some uid ∧ k ∉ s.arrived.map Prod.fst

def step (s : CallbackPool) : Event → Option CallbackPool
  | .send => some s.send
  | .sendXchgRequest => some { s with lastReqUid := s.nextUid }
  | .arrive uid what =>
    let arrived := s.arrived ++ (s.pending uid).toList.map fun k => (k, what)
    some { s.rpcResponse uid what with arrived := arrived }
  | .destroy clientUid => some (s.destroy clientUid)

/-- What the pool is for: exactly the requests for which something has arrived had their handlers
invoked with it, each once, the pool holds the others, and nothing else was called. -/
structure Exact (s : CallbackPool) : Prop where
  calls : s.calls = s.arrived
  once : (s.calls.map Prod.fst).Nodup
  pool : ∀ uid k, s.pool uid = some k ↔ s.sent[k]? = some uid ∧ k ∉ s.arrived.map Prod.fst
  known : ∀ k ∈ s.arrived.map Prod.fst, k < s.sent.length
  bad : s.badCalls = 0

/-- The condition under which it is: a new id is not in use, no exception arrives for a request that
waits, responses arrive for requests that wait, and no client is destroyed whose id is also the id of
such a request. -/
def Regular (s : CallbackPool) : Event → Prop
  | .send => s.pool s.nextUid = none
  | .sendXchgRequest => True
  | .arrive uid .response => (s.pool uid).isSome
  | .arrive uid .exception => s.pool uid = none
  | .destroy clientUid => s.pool clientUid = none

instance decidableRegular (s : CallbackPool) : (e : Event) → Decidable (Regular s e)
  | .send => inferInstanceAs (Decidable (s.pool s.nextUid = none))
  | .sendXchgRequest => isTrue trivial
  | .arrive uid .response => inferInstanceAs (Decidable ((s.pool uid).isSome = true))
  | .arrive uid .exception => inferInstanceAs (Decidable (s.pool uid = none))
  | .destroy clientUid => inferInstanceAs (Decidable (s.pool clientUid = none))

theorem Exact.pending_eq {s : CallbackPool} (h : s.Exact) (uid : Nat) :
    s.pending uid = s.pool uid := by
  cases hp : s.pending uid with
  | some k =>
    have hk := List.find?_some hp
    exact ((h.pool uid k).2 (by simpa using hk)).symm
  | none =>
    cases hpool : s.pool uid with
    | none => rfl
    | some k =>
      obtain ⟨hsent, hnot⟩ := (h.pool uid k).1 hpool
      have hlt : k < s.sent.length := (List.getElem?_eq_some_iff.1 hsent).1
      have hno := List.find?_eq_none.1 hp k (by simpa using hlt)
      exact absurd (by simpa using ⟨hsent, by simpa using hnot⟩) hno

theorem exact_start : Exact {} := ⟨rfl, List.nodup_nil, by simp, by simp, rfl⟩

theorem exact_send {s : CallbackPool} (h : s.Exact) (hfree : s.pool s.nextUid = none) :
    s.send.Exact := by
  have hnew : s.sent.length ∉ s.arrived.map Prod.fst :=
    fun hmem => Nat.lt_irrefl _ (h.known _ hmem)
  refine ⟨h.calls, h.once, fun uid k => ?_, fun k hk => ?_, h.bad⟩
  · show update s.pool s.nextUid (some s.sent.length) uid = some k ↔
      (s.sent ++ [s.nextUid])[k]? = some uid ∧ k ∉ s.arrived.map Prod.fst
    rcases Nat.lt_trichotomy k s.sent.length with hlt | rfl | hgt
    · rw [List.getElem?_append_left hlt, ← h.pool]
      by_cases huid : uid = s.nextUid
      · rw [huid, Function.update_self, hfree]
        simp [Nat.ne_of_gt hlt]
      · rw [Function.update_of_ne huid]
    · rw [List.getElem?_concat_length]
      by_cases huid : uid = s.nextUid
      · rw [huid, Function.update_self]
        simpa using hnew
      · rw [Function.update_of_ne huid, h.pool]
        simp [Ne.symm huid]
    · rw [List.getElem?_eq_none (by simp; omega)]
      by_cases huid : uid = s.nextUid
      · rw [huid, Function.update_self]
        simp [Nat.ne_of_lt hgt]
      · rw [Function.update_of_ne huid, h.pool, List.getElem?_eq_none (by omega)]
  · show k < (s.sent ++ [s.nextUid]).length
    have hlt := h.known k hk
    rw [List.length_append]
    omega

theorem exact_response {s : CallbackPool} (h : s.Exact) {uid k : Nat} (hk : s.pool uid = some k) :
    Exact { s.rpcResponse uid .response with
      arrived := s.arrived ++ (s.pending uid).toList.map fun k => (k, .response) } := by
  obtain ⟨hsent, hnot⟩ := (h.pool uid k).1 hk
  have hpending : s.pending uid = some k := (h.pending_eq uid).trans hk
  simp only [rpcResponse, hpending, hk, Option.toList_some, List.map_cons, List.map_nil]
  refine ⟨by rw [h.calls], ?_, fun uid' k' => ?_, ?_, h.bad⟩
  · rw [List.map_append, h.calls]
    refine List.nodup_append.2 ⟨h.calls ▸ h.once, List.nodup_singleton k, ?_⟩
    rintro a ha b hb rfl
    rw [List.map_singleton, List.mem_singleton] at hb
    subst hb
    exact hnot ha
  · show update s.pool uid none uid' = some k' ↔
      s.sent[k']? = some uid' ∧ k' ∉ (s.arrived ++ [(k, Arrival.response)]).map Prod.fst
    rw [List.map_append, List.mem_append, not_or, ← and_assoc, ← h.pool]
    by_cases huid : uid' = uid
    · rw [huid, Function.update_self, hk]
      simp [eq_comm]
    · rw [Function.update_of_ne huid]
      refine ⟨fun hk' => ⟨hk', ?_⟩, And.left⟩
      -- one request has one id
      rw [List.map_singleton, List.mem_singleton]
      rintro rfl
      have hsent' := ((h.pool uid' k').1 hk').1
      exact huid (Option.some.inj (hsent'.symm.trans hsent))
  · intro k' hmem
    rw [List.map_append, List.mem_append, List.map_singleton, List.mem_singleton] at hmem
    rcases hmem with hmem | rfl
    · exact h.known k' hmem
    · exact (List.getElem?_eq_some_iff.1 hsent).1

theorem exact_step {s s' : CallbackPool} {e : Event} (h : s.Exact) (hreg : Regular s e)
    (hstep : s.step e = some s') : s'.Exact := by
  cases e with
  | send =>
    cases hstep
    exact exact_send h hreg
  | sendXchgRequest =>
    cases hstep
    exact ⟨h.calls, h.once, h.pool, h.known, h.bad⟩
  | arrive uid what =>
    cases hstep
    cases what with
    | response =>
      obtain ⟨k, hk⟩ := Option.isSome_iff_exists.1 hreg
      exact exact_response h hk
    | exception =>
      have hnone : s.pending uid = none := (h.pending_eq uid).trans hreg
      simp only [rpcResponse, hnone, Option.toList_none, List.map_nil, List.append_nil]
      exact h
  | destroy clientUid =>
    cases hstep
    have hsame : update s.pool clientUid none = s.pool := by
      rw [← show s.pool clientUid = none from hreg, Function.update_eq_self]
    unfold destroy
    rw [hsame]
    exact h

/-- **Callbacks are called exactly once.** In every run whose events are regular, the handlers that
were invoked are those of the requests for which something has arrived, each once, and the pool holds
exactly the requests that were sent and for which nothing has arrived. -/
theorem callbacks_exactly_once (es : List Event) (s : CallbackPool)
    (hreg : Machine.Along step Regular {} es) (hrun : Machine.run step {} es = some s) : s.Exact :=
  Machine.Along.invariant (fun _ _ _ => exact_step) exact_start hreg hrun

/-- Two requests, with a response to the second one. -/
theorem callbacks_exactly_once_two :
    ∃ s, Machine.run step {} [.send, .send, .arrive 2 .response] = some s ∧
      s.calls = [(1, .response)] ∧ s.Exact := by
  have hrun : (Machine.run step {} [.send, .send, .arrive 2 .response]).map calls =
      some [(1, .response)] := by decide +kernel
  obtain ⟨s, hs, hcalls⟩ := Option.map_eq_some_iff.1 hrun
  exact ⟨s, hs, hcalls, callbacks_exactly_once _ s (by decide +kernel) hs⟩

/-- The handler of a request that fails is not invoked; a client takes the handler of the request with
its id along when it is destroyed, and the response to the request finds none. -/
theorem callbacks_lost :
    (∃ s, Machine.run step {} [.send, .arrive 1 .exception] = some s ∧
      s.arrived = [(0, .exception)] ∧ s.calls = [] ∧ s.pool 1 = some 0 ∧ ¬s.Exact) ∧
    ∃ s, Machine.run step {} [.send, .destroy 1, .arrive 1 .response] = some s ∧
      s.arrived = [(0, .response)] ∧ s.calls = [] ∧ s.badCalls = 1 ∧ ¬s.Exact := by
  have hfirst : (Machine.run step {} [.send, .arrive 1 .exception]).map
      (fun s => (s.arrived, s.calls, s.pool 1)) = some ([(0, .exception)], [], some 0) := by
    decide +kernel
  have hsecond : (Machine.run step {} [.send, .destroy 1, .arrive 1 .response]).map
      (fun s => (s.arrived, s.calls, s.badCalls)) = some ([(0, .response)], [], 1) := by
    decide +kernel
  obtain ⟨s, hs, heq⟩ := Option.map_eq_some_iff.1 hfirst
  obtain ⟨s', hs', heq'⟩ := Option.map_eq_some_iff.1 hsecond
  simp only [Prod.mk.injEq] at heq heq'
  refine ⟨⟨s, hs, heq.1, heq.2.1, heq.2.2, fun h => ?_⟩,
    ⟨s', hs', heq'.1, heq'.2.1, heq'.2.2, fun h => ?_⟩⟩
  · have hcalls := h.calls
    rw [heq.1, heq.2.1] at hcalls
    cases hcalls
  · have hcalls := h.calls
    rw [heq'.1, heq'.2.1] at hcalls
    cases hcalls

end CallbackPool

end EnclaveRaft.Port
