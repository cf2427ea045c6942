import EnclaveRaft.Lib.Machine
import Mathlib.Logic.Function.Basic

/-!
# Results that come later

`async_result` hands a result from the thread that calls `set_result` to a handler, stored by
`when_ready`, and to threads that wait in `get`. `set_result` calls the handler after it has
released the lock, and then wakes the threads. `when_ready` looks for a result after it has released
the lock.

One thread sets the result, one stores a handler, and any number of threads call `get`. Each event
is what a thread does under the lock, or between two of these moments.
-/

namespace EnclaveRaft

open Machine
open Function (update)

variable {T E H : Type}

/-- The members that `lock_` protects. A null pointer is no error. -/
structure AsyncResult (T E H : Type) where
  result : T
  err : Option E := none
  hasResult : Bool := false
  handler : Option H := none

/-- What `get` returns or throws when it finds a result. -/
def AsyncResult.answer (r : AsyncResult T E H) : Except E T :=
  match r.err with
  | none => .ok r.result
  | some e => .error e

namespace AsyncResult

/-- Where the thread of `set_result` is. -/
inductive SetAt
  | starts
  /-- It has a copy of the handler, if there is one. -/
  | calls
  | notifies
  | done
  deriving DecidableEq

/-- Where the thread of `when_ready` is. -/
inductive ReadyAt
  | starts
  /-- The handler is stored. -/
  | looks
  | done
  deriving DecidableEq

/-- Where a thread of `get` is. -/
inductive GetAt (T E : Type)
  | starts
  | sleeps
  | wakes
  | returned (answer : Except E T)

/-- The threads, the handler that `set_result` has copied, and the calls of the handler. -/
structure Threads (T E H : Type) where
  shared : AsyncResult T E H
  set : SetAt := .starts
  copied : Option H := none
  ready : ReadyAt := .starts
  get : Nat → GetAt T E := fun _ => .starts
  called : List (H × T × Option E) := []

inductive Event
  | set
  | whenReady
  | get (n : Nat)
  /-- A wait returns without a signal. -/
  | spurious (n : Nat)
  deriving DecidableEq

/-- No wait returns without a signal. -/
def Event.Signalled : Event → Prop
  | .spurious _ => False
  | _ => True

namespace Threads

/-- A call of the handler, with what the members hold at that moment. -/
def callHandler (s : Threads T E H) (h : H) : Threads T E H :=
  { s with called := s.called ++ [(h, s.shared.result, s.shared.err)] }

def setGet (s : Threads T E H) (n : Nat) (a : GetAt T E) : Threads T E H :=
  { s with get := update s.get n a }

/-- `cv_.notify_all()`. -/
def notifyAll (get : Nat → GetAt T E) (n : Nat) : GetAt T E :=
  match get n with
  | .sleeps => .wakes
  | at' => at'

variable (value : T) (error : Option E) (handler : H)

def setStep (s : Threads T E H) : Option (Threads T E H) :=
  match s.set with
  | .starts => some { s with
      shared := { s.shared with result := value, err := error, hasResult := true }
      copied := s.shared.handler
      set := .calls }
  | .calls =>
    match s.copied with
    | some h => some { s.callHandler h with set := .notifies }
    | none => some { s with set := .notifies }
  | .notifies => some { s with get := notifyAll s.get, set := .done }
  | .done => none

def readyStep (s : Threads T E H) : Option (Threads T E H) :=
  match s.ready with
  | .starts => some { s with shared := { s.shared with handler := some handler }, ready := .looks }
  | .looks =>
    match s.shared.hasResult, s.shared.handler with
    | true, some h => some { s.callHandler h with ready := .done }
    | _, _ => some { s with ready := .done }
  | .done => none

def getStep (s : Threads T E H) (n : Nat) : Option (Threads T E H) :=
  match s.get n with
  | .starts =>
    let at' := if s.shared.hasResult then .returned s.shared.answer else .sleeps
    some (s.setGet n at')
  | .sleeps => none
  | .wakes => some (s.setGet n (.returned s.shared.answer))
  | .returned _ => none

def step (s : Threads T E H) : Event → Option (Threads T E H)
  | .set => setStep value error s
  | .whenReady => readyStep handler s
  | .get n => getStep s n
  | .spurious n =>
    match s.get n with
    | .sleeps => some (s.setGet n .wakes)
    | _ => none

/-- The threads before their calls, on `async_result()`. -/
def start (initial : T) : Threads T E H := { shared := { result := initial } }

/-! ## The shared members -/

variable {value error handler} {s s' : Threads T E H}

/-- What the members hold, by how far the threads have come. -/
structure Holds (value : T) (error : Option E) (handler : H) (s : Threads T E H) : Prop where
  handler : s.shared.handler = if s.ready = .starts then none else some handler
  hasResult : s.shared.hasResult = true ↔ s.set ≠ .starts
  stored : s.set ≠ .starts → s.shared.result = value ∧ s.shared.err = error

theorem holds_start (initial : T) : Holds value error handler (start initial) where
  handler := rfl
  hasResult := by simp [start]
  stored h := absurd rfl h

/-- The threads go on between two moments under the lock. -/
theorem Holds.congr (h : Holds value error handler s) (hshared : s'.shared = s.shared)
    (hset : s'.set = .starts ↔ s.set = .starts) (hready : s'.ready = .starts ↔ s.ready = .starts) :
    Holds value error handler s' where
  handler := by simp only [hshared, h.handler, hready]
  hasResult := by rw [hshared, h.hasResult, ne_eq, ne_eq, hset]
  stored hne := by
    rw [hshared]
    exact h.stored (mt hset.2 hne)

/-- `set_result` keeps the members, or it is the moment under the lock. -/
theorem Holds.setStep (h : Holds value error handler s) (hstep : setStep value error s = some s') :
    Holds value error handler s' := by
  unfold Threads.setStep at hstep
  cases hat : s.set with
  | starts =>
    simp only [hat] at hstep
    cases hstep
    exact ⟨h.handler, by simp, fun _ => ⟨rfl, rfl⟩⟩
  | calls =>
    simp only [hat] at hstep
    split at hstep
    · cases hstep
      exact h.congr rfl (by simp [hat]) Iff.rfl
    · cases hstep
      exact h.congr rfl (by simp [hat]) Iff.rfl
  | notifies =>
    simp only [hat] at hstep
    cases hstep
    exact h.congr rfl (by simp [hat]) Iff.rfl
  | done =>
    simp only [hat] at hstep
    cases hstep

theorem Holds.readyStep (h : Holds value error handler s) (hstep : readyStep handler s = some s') :
    Holds value error handler s' := by
  unfold Threads.readyStep at hstep
  cases hat : s.ready with
  | starts =>
    simp only [hat] at hstep
    cases hstep
    exact ⟨rfl, h.hasResult, h.stored⟩
  | looks =>
    simp only [hat] at hstep
    split at hstep
    · cases hstep
      exact h.congr rfl Iff.rfl (by simp [hat])
    · cases hstep
      exact h.congr rfl Iff.rfl (by simp [hat])
  | done =>
    simp only [hat] at hstep
    cases hstep

/-- The threads of `get` leave everything to each other. -/
theorem getStep_eq_some {n : Nat} (hstep : getStep s n = some s') : ∃ a, s' = s.setGet n a := by
  unfold getStep at hstep
  split at hstep
  · cases hstep
    exact ⟨_, rfl⟩
  · cases hstep
  · cases hstep
    exact ⟨_, rfl⟩
  · cases hstep

theorem spurious_eq_some {n : Nat} (hstep : s.step value error handler (.spurious n) = some s') :
    ∃ a, s' = s.setGet n a := by
  simp only [step] at hstep
  split at hstep
  · cases hstep
    exact ⟨_, rfl⟩
  · cases hstep

theorem Holds.step {e : Event} (h : Holds value error handler s)
    (hstep : s.step value error handler e = some s') : Holds value error handler s' := by
  cases e with
  | set => exact h.setStep hstep
  | whenReady => exact h.readyStep hstep
  | get n =>
    obtain ⟨a, rfl⟩ := getStep_eq_some hstep
    exact h.congr rfl Iff.rfl Iff.rfl
  | spurious n =>
    obtain ⟨a, rfl⟩ := spurious_eq_some hstep
    exact h.congr rfl Iff.rfl Iff.rfl

/-! ## Waiting for the result -/

/-- The answer the result stands for. -/
def expected (value : T) (error : Option E) : Except E T :=
  match error with
  | none => .ok value
  | some e => .error e

theorem Holds.answer (h : Holds value error handler s) (hset : s.set ≠ .starts) :
    s.shared.answer = expected value error := by
  obtain ⟨hresult, herr⟩ := h.stored hset
  unfold AsyncResult.answer
  rw [hresult, herr]
  rfl

/-- Nobody waits once the threads were woken, and who returns has the result. -/
structure Delivers (value : T) (error : Option E) (s : Threads T E H) : Prop where
  woken : ∀ n, s.get n = .wakes → s.set = .done
  asleep : ∀ n, s.get n = .sleeps → s.set ≠ .done
  returned : ∀ n a, s.get n = .returned a → a = expected value error

theorem delivers_start (initial : T) : Delivers value error (start initial : Threads T E H) where
  woken n h := by cases h
  asleep n h := by cases h
  returned n a h := by cases h

theorem Delivers.congr (h : Delivers value error s) (hdone : s'.set = .done ↔ s.set = .done)
    (hget : s'.get = s.get) : Delivers value error s' where
  woken n hn := hdone.2 (h.woken n (hget ▸ hn))
  asleep n hn := mt hdone.1 (h.asleep n (hget ▸ hn))
  returned n a hn := h.returned n a (hget ▸ hn)

theorem notifyAll_ne_sleeps (get : Nat → GetAt T E) (n : Nat) : notifyAll get n ≠ .sleeps := by
  unfold notifyAll
  split <;> simp_all

theorem notifyAll_eq_returned {get : Nat → GetAt T E} {n : Nat} {a : Except E T}
    (h : notifyAll get n = .returned a) : get n = .returned a := by
  unfold notifyAll at h
  split at h
  · cases h
  · exact h

theorem Delivers.setStep (h : Delivers value error s) (hstep : setStep value error s = some s') :
    Delivers value error s' := by
  unfold Threads.setStep at hstep
  cases hat : s.set with
  | starts =>
    simp only [hat] at hstep
    cases hstep
    exact h.congr (by simp [hat]) rfl
  | calls =>
    simp only [hat] at hstep
    split at hstep
    · cases hstep
      exact h.congr (by simp [hat]) rfl
    · cases hstep
      exact h.congr (by simp [hat]) rfl
  | notifies =>
    simp only [hat] at hstep
    cases hstep
    refine ⟨fun _ _ => rfl, fun n hn => ?_, fun n a hn => ?_⟩
    · exact absurd hn (notifyAll_ne_sleeps _ n)
    · exact h.returned n a (notifyAll_eq_returned hn)
  | done =>
    simp only [hat] at hstep
    cases hstep

theorem Delivers.readyStep (h : Delivers value error s) (hstep : readyStep handler s = some s') :
    Delivers value error s' := by
  unfold Threads.readyStep at hstep
  split at hstep
  · cases hstep
    exact h.congr Iff.rfl rfl
  · split at hstep
    · cases hstep
      exact h.congr Iff.rfl rfl
    · cases hstep
      exact h.congr Iff.rfl rfl
  · cases hstep

/-- One thread of `get` moves. -/
theorem Delivers.setGet (h : Delivers value error s) {n : Nat} {a : GetAt T E}
    (hwoken : a = .wakes → s.set = .done) (hasleep : a = .sleeps → s.set ≠ .done)
    (hreturned : ∀ x, a = .returned x → x = expected value error) :
    Delivers value error (s.setGet n a) := by
  refine ⟨fun m hm => ?_, fun m hm => ?_, fun m x hm => ?_⟩
  · by_cases hmn : m = n
    · rw [hmn] at hm
      exact hwoken (by simpa [Threads.setGet] using hm)
    · exact h.woken m (by simpa [Threads.setGet, hmn] using hm)
  · by_cases hmn : m = n
    · rw [hmn] at hm
      exact hasleep (by simpa [Threads.setGet] using hm)
    · exact h.asleep m (by simpa [Threads.setGet, hmn] using hm)
  · by_cases hmn : m = n
    · rw [hmn] at hm
      exact hreturned x (by simpa [Threads.setGet] using hm)
    · exact h.returned m x (by simpa [Threads.setGet, hmn] using hm)

theorem Delivers.getStep {n : Nat} (h : Delivers value error s) (hh : Holds value error handler s)
    (hstep : getStep s n = some s') : Delivers value error s' := by
  unfold Threads.getStep at hstep
  cases hat : s.get n with
  | starts =>
    simp only [hat] at hstep
    cases hstep
    by_cases hhas : s.shared.hasResult = true
    · rw [if_pos hhas]
      refine h.setGet (fun ha => by cases ha) (fun ha => by cases ha) fun x hx => ?_
      cases hx
      exact hh.answer (hh.hasResult.1 hhas)
    · rw [if_neg hhas]
      refine h.setGet (fun ha => by cases ha) (fun _ hdone => ?_) (fun x hx => by cases hx)
      exact hhas (hh.hasResult.2 (by simp [hdone]))
  | sleeps =>
    simp only [hat] at hstep
    cases hstep
  | wakes =>
    simp only [hat] at hstep
    cases hstep
    have hdone := h.woken n hat
    refine h.setGet (fun ha => by cases ha) (fun ha => by cases ha) fun x hx => ?_
    cases hx
    exact hh.answer (by simp [hdone])
  | returned a =>
    simp only [hat] at hstep
    cases hstep

theorem Delivers.step {e : Event} (h : Delivers value error s) (hh : Holds value error handler s)
    (he : e.Signalled) (hstep : s.step value error handler e = some s') :
    Delivers value error s' := by
  cases e with
  | set => exact h.setStep hstep
  | whenReady => exact h.readyStep hstep
  | get n => exact h.getStep hh hstep
  | spurious n => exact he.elim

/-- **Waiting for a result.** Whatever the order of the threads, `get` returns only the result that
was set, and once `set_result` is done no thread is left waiting: the next step of each that has not
returned is to return. -/
theorem get_answers (value : T) (error : Option E) (handler : H) (initial : T) (es : List Event)
    (s : Threads T E H) (hes : ∀ e ∈ es, e.Signalled)
    (hrun : run (step value error handler) (start initial) es = some s) (n : Nat) :
    (∀ a, s.get n = .returned a → a = expected value error) ∧
      (s.set = .done → s.get n = .returned (expected value error) ∨
        ∃ s', s.step value error handler (.get n) = some s' ∧
          s'.get n = .returned (expected value error)) := by
  obtain ⟨hh, h⟩ : Holds value error handler s ∧ Delivers value error s :=
    Along.invariant (I := fun s => Holds value error handler s ∧ Delivers value error s)
      (fun _ _ _ h he hstep => ⟨h.1.step hstep, h.2.step h.1 he hstep⟩)
      ⟨holds_start initial, delivers_start initial⟩ (along_of_forall hes _) hrun
  refine ⟨h.returned n, fun hdone => ?_⟩
  have hanswer := hh.answer (by simp [hdone])
  have hhas : s.shared.hasResult = true := hh.hasResult.2 (by simp [hdone])
  cases hat : s.get n with
  | starts =>
    refine .inr ⟨s.setGet n (.returned (expected value error)), ?_, by simp [setGet]⟩
    simp [step, getStep, hat, hhas, hanswer]
  | sleeps => exact absurd hdone (h.asleep n hat)
  | wakes =>
    refine .inr ⟨s.setGet n (.returned (expected value error)), ?_, by simp [setGet]⟩
    simp [step, getStep, hat, hanswer]
  | returned a => exact .inl (by rw [h.returned n a hat])

/-- One thread waits before the result is set, and another one asks when it is there. -/
def askTwice : List Event := [.get 0, .set, .set, .set, .get 0]

theorem get_answers_twice : ∃ s : Threads Bool Unit Unit,
    run (step true none ()) (start false) askTwice = some s ∧
      (∀ a, s.get 0 = .returned a → a = .ok true) ∧
      (s.get 1 = .returned (.ok true) ∨
        ∃ s', s.step true none () (.get 1) = some s' ∧ s'.get 1 = .returned (.ok true)) := by
  have hes : ∀ e ∈ askTwice, e.Signalled := by simp [askTwice, Event.Signalled]
  refine ⟨_, rfl, ?_, ?_⟩
  · exact (get_answers true none () false askTwice _ hes rfl 0).1
  · exact (get_answers true none () false askTwice _ hes rfl 1).2 rfl

/-! ## Calls of the handler -/

/-- The result is not set between the two moments of `when_ready`. -/
def Apart (s : Threads T E H) (e : Event) : Prop :=
  ¬(e = .set ∧ s.set = .starts ∧ s.ready = .looks)

instance decidableApart (s : Threads T E H) (e : Event) : Decidable (Apart s e) :=
  inferInstanceAs (Decidable ¬_)

/-- The calls of the handler, as long as the two threads keep apart. -/
inductive Once (call : H × T × Option E) (s : Threads T E H) : Prop
  | unset (hset : s.set = .starts) (hcalled : s.called = [])
  | setFirst (hset : s.set ≠ .starts) (hcopied : s.copied = none)
      (hcalled : s.called = if s.ready = .done then [call] else [])
  | setLast (hset : s.set ≠ .starts) (hcopied : s.copied = some call.1) (hready : s.ready = .done)
      (hcalled : s.called = if s.set = .calls then [] else [call])

/-- The calls of the handler, once the result was set between the two moments of `when_ready`. -/
structure Twice (call : H × T × Option E) (s : Threads T E H) : Prop where
  set : s.set ≠ .starts
  ready : s.ready ≠ .starts
  copied : s.copied = some call.1
  called : s.called =
    (if s.set = .calls then [] else [call]) ++ if s.ready = .done then [call] else []

theorem Once.congr {call : H × T × Option E} (h : Once call s) (hset : s'.set = s.set)
    (hcopied : s'.copied = s.copied) (hready : s'.ready = s.ready)
    (hcalled : s'.called = s.called) : Once call s' := by
  cases h with
  | unset h₁ h₂ => exact .unset (hset.trans h₁) (hcalled.trans h₂)
  | setFirst h₁ h₂ h₃ =>
    exact .setFirst (hset ▸ h₁) (hcopied.trans h₂) (by rw [hcalled, hready, h₃])
  | setLast h₁ h₂ h₃ h₄ =>
    exact .setLast (hset ▸ h₁) (hcopied.trans h₂) (hready.trans h₃) (by rw [hcalled, hset, h₄])

theorem Once.setStep (h : Once (handler, value, error) s) (hh : Holds value error handler s)
    (hapart : Apart s .set) (hstep : setStep value error s = some s') :
    Once (handler, value, error) s' := by
  unfold Threads.setStep at hstep
  cases hat : s.set with
  | starts =>
    simp only [hat] at hstep
    cases hstep
    have hcalled : s.called = [] := by
      cases h with
      | unset _ hcalled => exact hcalled
      | setFirst hset => exact absurd hat hset
      | setLast hset => exact absurd hat hset
    cases hready : s.ready with
    | starts => exact .setFirst (by simp) (by simp [hh.handler, hready]) (by simp [hcalled])
    | looks => exact absurd ⟨rfl, hat, hready⟩ hapart
    | done => exact .setLast (by simp) (by simp [hh.handler, hready]) rfl (by simp [hcalled])
  | calls =>
    simp only [hat] at hstep
    obtain ⟨hresult, herr⟩ := hh.stored (by simp [hat])
    cases h with
    | unset hset => cases hat.symm.trans hset
    | setFirst _ hcopied hcalled =>
      simp only [hcopied] at hstep
      cases hstep
      exact .setFirst (by simp) rfl hcalled
    | setLast _ hcopied hready hcalled =>
      simp only [hcopied] at hstep
      cases hstep
      refine .setLast (by simp) hcopied hready ?_
      simp [callHandler, hcalled, hat, hresult, herr]
  | notifies =>
    simp only [hat] at hstep
    cases hstep
    cases h with
    | unset hset => cases hat.symm.trans hset
    | setFirst _ hcopied hcalled => exact .setFirst (by simp) hcopied hcalled
    | setLast _ hcopied hready hcalled =>
      exact .setLast (by simp) hcopied hready (by simpa [hat] using hcalled)
  | done =>
    simp only [hat] at hstep
    cases hstep

theorem Once.readyStep (h : Once (handler, value, error) s) (hh : Holds value error handler s)
    (hstep : readyStep handler s = some s') : Once (handler, value, error) s' := by
  unfold Threads.readyStep at hstep
  cases hat : s.ready with
  | starts =>
    simp only [hat] at hstep
    cases hstep
    cases h with
    | unset hset hcalled => exact .unset hset hcalled
    | setFirst hset hcopied hcalled => exact .setFirst hset hcopied (by simpa [hat] using hcalled)
    | setLast _ _ hready => cases hat.symm.trans hready
  | looks =>
    have hhandler : s.shared.handler = some handler := by simp [hh.handler, hat]
    simp only [hat, hhandler] at hstep
    cases h with
    | unset hset hcalled =>
      have hnone : s.shared.hasResult = false := by simpa [hset] using hh.hasResult
      simp only [hnone] at hstep
      cases hstep
      exact .unset hset hcalled
    | setFirst hset hcopied hcalled =>
      have hhas : s.shared.hasResult = true := hh.hasResult.2 hset
      obtain ⟨hresult, herr⟩ := hh.stored hset
      simp only [hhas] at hstep
      cases hstep
      refine .setFirst hset hcopied ?_
      simp [callHandler, hcalled, hat, hresult, herr]
    | setLast _ _ hready => cases hat.symm.trans hready
  | done =>
    simp only [hat] at hstep
    cases hstep

theorem Once.step {e : Event} (h : Once (handler, value, error) s)
    (hh : Holds value error handler s) (hapart : Apart s e)
    (hstep : s.step value error handler e = some s') : Once (handler, value, error) s' := by
  cases e with
  | set => exact h.setStep hh hapart hstep
  | whenReady => exact h.readyStep hh hstep
  | get n =>
    obtain ⟨a, rfl⟩ := getStep_eq_some hstep
    exact h.congr rfl rfl rfl rfl
  | spurious n =>
    obtain ⟨a, rfl⟩ := spurious_eq_some hstep
    exact h.congr rfl rfl rfl rfl

theorem Once.twice {e : Event} (h : Once (handler, value, error) s)
    (hh : Holds value error handler s) (hcross : ¬Apart s e)
    (hstep : s.step value error handler e = some s') : Twice (handler, value, error) s' := by
  obtain ⟨rfl, hset, hready⟩ := not_not.1 hcross
  have hcalled : s.called = [] := by
    cases h with
    | unset _ hcalled => exact hcalled
    | setFirst hne => exact absurd hset hne
    | setLast hne => exact absurd hset hne
  simp only [Threads.step, Threads.setStep, hset] at hstep
  cases hstep
  exact ⟨by simp, by simp [hready], by simp [hh.handler, hready], by simp [hcalled, hready]⟩

theorem Twice.setStep (h : Twice (handler, value, error) s) (hh : Holds value error handler s)
    (hstep : setStep value error s = some s') : Twice (handler, value, error) s' := by
  unfold Threads.setStep at hstep
  cases hat : s.set with
  | starts => exact absurd hat h.set
  | calls =>
    obtain ⟨hresult, herr⟩ := hh.stored h.set
    simp only [hat, h.copied] at hstep
    cases hstep
    refine ⟨by simp, h.ready, h.copied, ?_⟩
    by_cases hready : s.ready = .done
    · simp [callHandler, h.called, hat, hready, hresult, herr]
    · simp [callHandler, h.called, hat, hready, hresult, herr]
  | notifies =>
    simp only [hat] at hstep
    cases hstep
    exact ⟨by simp, h.ready, h.copied, by simpa [hat] using h.called⟩
  | done =>
    simp only [hat] at hstep
    cases hstep

theorem Twice.readyStep (h : Twice (handler, value, error) s) (hh : Holds value error handler s)
    (hstep : readyStep handler s = some s') : Twice (handler, value, error) s' := by
  unfold Threads.readyStep at hstep
  cases hat : s.ready with
  | starts => exact absurd hat h.ready
  | looks =>
    have hhandler : s.shared.handler = some handler := by simp [hh.handler, hat]
    have hhas : s.shared.hasResult = true := hh.hasResult.2 h.set
    obtain ⟨hresult, herr⟩ := hh.stored h.set
    simp only [hat, hhandler, hhas] at hstep
    cases hstep
    exact ⟨h.set, by simp, h.copied, by simp [callHandler, h.called, hat, hresult, herr]⟩
  | done =>
    simp only [hat] at hstep
    cases hstep

theorem Twice.step {e : Event} (h : Twice (handler, value, error) s)
    (hh : Holds value error handler s) (hstep : s.step value error handler e = some s') :
    Twice (handler, value, error) s' := by
  cases e with
  | set => exact h.setStep hh hstep
  | whenReady => exact h.readyStep hh hstep
  | get n =>
    obtain ⟨a, rfl⟩ := getStep_eq_some hstep
    exact ⟨h.set, h.ready, h.copied, h.called⟩
  | spurious n =>
    obtain ⟨a, rfl⟩ := spurious_eq_some hstep
    exact ⟨h.set, h.ready, h.copied, h.called⟩

theorem once_or_twice {es : List Event} (h : Once (handler, value, error) s)
    (hh : Holds value error handler s) (hrun : run (step value error handler) s es = some s') :
    (Along (step value error handler) Apart s es → Once (handler, value, error) s') ∧
      (¬Along (step value error handler) Apart s es → Twice (handler, value, error) s') := by
  induction es generalizing s with
  | nil =>
    cases hrun
    exact ⟨fun _ => h, fun hno => absurd trivial hno⟩
  | cons e es ih =>
    obtain ⟨t, hstep, hrun⟩ := run_cons_eq_some.1 hrun
    by_cases hapart : Apart s e
    · obtain ⟨honce, htwice⟩ := ih (h.step hh hapart hstep) (hh.step hstep) hrun
      refine ⟨fun hal => honce (hal.2 t hstep), fun hno => htwice fun hal => hno ?_⟩
      refine ⟨hapart, fun t' ht' => ?_⟩
      cases hstep.symm.trans ht'
      exact hal
    · refine ⟨fun hal => absurd hal.1 hapart, fun _ => ?_⟩
      have hpair : Holds value error handler s' ∧ Twice (handler, value, error) s' :=
        run_invariant
          (I := fun s => Holds value error handler s ∧ Twice (handler, value, error) s)
          (fun _ _ _ h hstep => ⟨h.1.step hstep, h.2.step h.1 hstep⟩)
          ⟨hh.step hstep, h.twice hh hapart hstep⟩ hrun
      exact hpair.2

/-- **Calls of the handler.** When `set_result` and `when_ready` have both returned, the handler was
called with the result: once, or twice if the result was set after the handler was stored and before
`when_ready` looked. -/
theorem handler_calls (value : T) (error : Option E) (handler : H) (initial : T) (es : List Event)
    (s : Threads T E H) (hrun : run (step value error handler) (start initial) es = some s)
    (hset : s.set = .done) (hready : s.ready = .done) :
    (Along (step value error handler) Apart (start initial) es →
        s.called = [(handler, value, error)]) ∧
      (¬Along (step value error handler) Apart (start initial) es →
        s.called = [(handler, value, error), (handler, value, error)]) := by
  obtain ⟨honce, htwice⟩ := once_or_twice (.unset rfl rfl) (holds_start initial) hrun
  refine ⟨fun hal => ?_, fun hno => ?_⟩
  · cases honce hal with
    | unset h => cases hset.symm.trans h
    | setFirst _ _ hcalled => rw [hcalled, if_pos hready]
    | setLast _ _ _ hcalled => simpa [hset] using hcalled
  · simpa [hset, hready] using (htwice hno).called

/-- The result is set when the handler is stored and `when_ready` has not looked yet. -/
def crossing : List Event := [.whenReady, .set, .whenReady, .set, .set]

theorem handler_calls_crossing : ∃ s : Threads Bool Unit Unit,
    run (step true none ()) (start false) crossing = some s ∧
      s.called = [((), true, none), ((), true, none)] := by
  refine ⟨_, rfl, (handler_calls true none () false crossing _ rfl rfl rfl).2 ?_⟩
  decide

end Threads

end AsyncResult

end EnclaveRaft
