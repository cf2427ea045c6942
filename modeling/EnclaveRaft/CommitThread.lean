import EnclaveRaft.Lib.Machine
import EnclaveRaft.Intact

/-!
# The background thread

`commit_in_bg` runs on a thread of its own and applies what is committed. It does not hold `lock_`
when it looks for an entry to apply, and it takes `commit_lock_` only after it has found none.
`commit` signals `commit_cv_` without `commit_lock_`. A signal that comes between the two moments
wakes nobody, and what it announced is left until another `commit`.

The destructor waits for the thread to leave. It too signals `commit_cv_` only once.

Here the moments are separate events: those of the thread, of the handlers and of the destructor. A
round of the inner loop is `commitInBg`, and a call of `commit` is `commit`, both on the server of
the other modules.
-/

namespace EnclaveRaft

open Act Server Machine

/-- There is an entry to apply: the condition of the inner loop of `commit_in_bg`. -/
def Server.Behind (s : Server) : Prop :=
  s.smCommitIndex < s.quickCommitIdx ∧ s.smCommitIndex < usub s.nextSlot 1

instance (s : Server) : Decidable s.Behind := inferInstanceAs (Decidable (_ ∧ _))

/-! ## The events -/

/-- Where the thread is in `commit_in_bg`. -/
inductive ThreadAt
  /-- At the condition of the loop that waits. -/
  | looks
  /-- It has found nothing to apply, and does not wait yet. -/
  | turnsIn
  /-- In `commit_cv_.wait`. -/
  | sleeps
  /-- Signalled, and about to look at `stopping_`. -/
  | wakes
  /-- At the condition of the loop that applies. -/
  | applies
  /-- It has returned. -/
  | returned
  /-- An exception has ended it, after a call of `system_exit`. -/
  | failed
  deriving DecidableEq

/-- Where the destructor of the server is. -/
inductive StopAt
  /-- Not called. -/
  | running
  /-- It holds `lock_` and has set `stopping_`. -/
  | stopping
  /-- It has signalled `commit_cv_`, and is in `ready_to_stop_cv_.wait`. -/
  | waits
  /-- It has been signalled. -/
  | done
  deriving DecidableEq

structure ThreadedServer where
  server : Server
  thread : ThreadAt := .looks
  stop : StopAt := .running

namespace ThreadedServer

inductive Event
  /-- The thread goes on. -/
  | thread
  /-- A wait returns without a signal. -/
  | spurious
  /-- A handler calls `commit`. -/
  | commit (target : Nat)
  /-- A handler changes the server in another way. -/
  | change (s : Server)
  /-- The destructor starts. -/
  | stop
  /-- The destructor signals under `commit_lock_`, which it gives up for `stopping_lock_`. -/
  | signal

/-- A signal of `commit_cv_`. -/
def signalled (t : ThreadedServer) : ThreadedServer :=
  if t.thread = .sleeps then { t with thread := .wakes } else t

/-- A round of the inner loop. A configuration is applied under `lock_`, which the destructor does
not give back. -/
def applyRound (ctx : Context) (t : ThreadedServer) : Option ThreadedServer :=
  if t.server.Behind then
    if (t.server.logStore.entryAt (t.server.smCommitIndex + 1)).valType = .conf ∧ t.stop ≠ .running
    then none
    else
      let round := commitInBg ctx t.server
      match round.result with
      | .ok _ => some { t with server := round.state }
      | .error _ => some { t with server := round.state, thread := .failed }
  else some { t with thread := .looks }

def threadStep (ctx : Context) (t : ThreadedServer) : Option ThreadedServer :=
  match t.thread with
  | .looks => some { t with thread := if t.server.Behind then .applies else .turnsIn }
  | .turnsIn => some { t with thread := .sleeps }
  | .sleeps => none
  | .wakes =>
    if t.stop = .running then some { t with thread := .looks }
    else some { t with thread := .returned, stop := if t.stop = .waits then .done else t.stop }
  | .applies => applyRound ctx t
  | .returned => none
  | .failed => none

/-- `commit`. The signal is left out when the requests to the peers throw. -/
def callCommit (ctx : Context) (target : Nat) (t : ThreadedServer) : ThreadedServer :=
  let call := commit ctx target t.server
  if call.result.isOk ∧ call.state.Behind then signalled { t with server := call.state }
  else { t with server := call.state }

def step (ctx : Context) (t : ThreadedServer) : Event → Option ThreadedServer
  | .thread => threadStep ctx t
  | .spurious => if t.thread = .sleeps then some { t with thread := .wakes } else none
  | .commit target => if t.stop = .running then some (t.callCommit ctx target) else none
  | .change s => if t.stop = .running then some { t with server := s } else none
  | .stop => if t.stop = .running then some { t with stop := .stopping } else none
  | .signal => if t.stop = .stopping then some { t.signalled with stop := .waits } else none

/-! ## One step -/

section Step

variable (ctx : Context) {t t' : ThreadedServer}

theorem signalled_of_sleeps (h : t.thread = .sleeps) :
    t.signalled = { t with thread := .wakes } :=
  if_pos h

theorem signalled_of_ne (h : t.thread ≠ .sleeps) : t.signalled = t := if_neg h

theorem thread_signalled_ne (h : t.thread ≠ .returned) : t.signalled.thread ≠ .returned := by
  unfold signalled
  split
  · simp
  · exact h

theorem threadStep_looks (h : t.thread = .looks) : threadStep ctx t =
    some { t with thread := if t.server.Behind then .applies else .turnsIn } := by
  unfold threadStep
  rw [h]

theorem threadStep_turnsIn (h : t.thread = .turnsIn) :
    threadStep ctx t = some { t with thread := .sleeps } := by
  unfold threadStep
  rw [h]

theorem threadStep_sleeps (h : t.thread = .sleeps) : threadStep ctx t = none := by
  unfold threadStep
  rw [h]

theorem threadStep_wakes (h : t.thread = .wakes) (hstop : t.stop = .running) :
    threadStep ctx t = some { t with thread := .looks } := by
  unfold threadStep
  rw [h]
  exact if_pos hstop

theorem threadStep_wakes_stopping (h : t.thread = .wakes) (hstop : t.stop ≠ .running) :
    threadStep ctx t =
      some { t with thread := .returned, stop := if t.stop = .waits then .done else t.stop } := by
  unfold threadStep
  rw [h]
  exact if_neg hstop

theorem threadStep_ended (h : t.thread = .returned ∨ t.thread = .failed) :
    threadStep ctx t = none := by
  unfold threadStep
  rcases h with h | h <;> rw [h]

theorem threadStep_applies (h : t.thread = .applies) : threadStep ctx t = applyRound ctx t := by
  unfold threadStep
  rw [h]

/-- A round keeps the destructor where it is, and the thread in the loop unless the loop ends. -/
theorem applyRound_eq_some (h : applyRound ctx t = some t') : t'.stop = t.stop ∧
    (t'.thread = t.thread ∨ t'.thread = .failed ∨ t'.thread = .looks) := by
  unfold applyRound at h
  split at h
  · split at h
    · cases h
    · dsimp only at h
      split at h
      · cases h
        exact ⟨rfl, .inl rfl⟩
      · cases h
        exact ⟨rfl, .inr (.inl rfl)⟩
  · cases h
    exact ⟨rfl, .inr (.inr rfl)⟩

theorem applyRound_of_idle (h : ¬t.server.Behind) :
    applyRound ctx t = some { t with thread := .looks } :=
  if_neg h

theorem applyRound_of_behind (h : t.server.Behind) (hstop : t.stop = .running) :
    applyRound ctx t = some { t with
      server := (commitInBg ctx t.server).state
      thread := if (commitInBg ctx t.server).result.isOk then t.thread else .failed } := by
  unfold applyRound
  rw [if_pos h, if_neg fun hconf => hconf.2 hstop]
  dsimp only
  split
  next hok => simp [hok, Except.isOk, Except.toBool]
  next herror => simp [herror, Except.isOk, Except.toBool]

/-- What a round that finds an entry does to the two indices. -/
theorem commitInBg_of_behind {s : Server} (h : s.Behind) :
    (commitInBg ctx s).state.smCommitIndex = s.smCommitIndex + 1 ∧
      (commitInBg ctx s).state.quickCommitIdx = s.quickCommitIdx := by
  have hround : BgRound ctx s (commitInBg ctx s).state.ledger (calls (commitInBg ctx s).out) :=
    does_commitInBg
  -- the entry is taken out of the log whatever follows, so the round was not idle
  have htaken : Effect.process (s.smCommitIndex + 1) (s.logStore.entryAt (s.smCommitIndex + 1)) ∈
      (commitInBg ctx s).out := by
    unfold Server.Behind at h
    unfold commitInBg
    rw [get_bind_apply, when_pos h]
    exact List.mem_cons_self
  have hcalls := (mem_calls rfl).2 htaken
  generalize hl : (commitInBg ctx s).state.ledger = l at hround
  generalize calls (commitInBg ctx s).out = o at hround hcalls
  have hsm : (commitInBg ctx s).state.smCommitIndex = l.smCommitIndex :=
    congrArg Ledger.smCommitIndex hl
  have hquick : (commitInBg ctx s).state.quickCommitIdx = l.quickCommitIdx :=
    congrArg Ledger.quickCommitIdx hl
  rw [hsm, hquick]
  cases hround with
  | idle => exact absurd hcalls List.not_mem_nil
  | plain => exact ⟨rfl, rfl⟩
  | snapshot => exact ⟨rfl, rfl⟩

end Step

/-! ## The thread, left alone -/

/-- Left alone, the thread goes to sleep with nothing left to apply. -/
def Settles (ctx : Context) (t : ThreadedServer) : Prop :=
  ∃ n t', run (step ctx) t (List.replicate n .thread) = some t' ∧
    t'.thread = .sleeps ∧ ¬t'.server.Behind

/-- The next `n` rounds that find an entry end without an exception. -/
def RoundsSucceed (ctx : Context) : Nat → Server → Prop
  | 0, _ => True
  | n + 1, s => s.Behind →
    (commitInBg ctx s).result.isOk ∧ RoundsSucceed ctx n (commitInBg ctx s).state

/-- What is committed and not applied can be applied. -/
def Applicable (ctx : Context) (s : Server) : Prop :=
  RoundsSucceed ctx (s.quickCommitIdx - s.smCommitIndex) s

variable {ctx : Context} {t t' : ThreadedServer}

theorem applicable_of_idle {s : Server} (h : ¬s.Behind) : Applicable ctx s := by
  unfold Applicable
  cases s.quickCommitIdx - s.smCommitIndex with
  | zero => trivial
  | succ n => exact fun hbehind => absurd hbehind h

theorem settles_iff_of_step (hstep : threadStep ctx t = some t') (hsleep : t.thread ≠ .sleeps) :
    Settles ctx t ↔ Settles ctx t' := by
  constructor
  · rintro ⟨n, q, hrun, hq⟩
    cases n with
    | zero =>
      cases hrun
      exact absurd hq.1 hsleep
    | succ n =>
      obtain ⟨t₁, ht₁, hrun⟩ := run_cons_eq_some.1 hrun
      cases hstep.symm.trans ht₁
      exact ⟨n, q, hrun, hq⟩
  · rintro ⟨n, q, hrun, hq⟩
    exact ⟨n + 1, q, run_cons_eq_some.2 ⟨t', hstep, hrun⟩, hq⟩

theorem not_settles_failed (h : t.thread = .failed) : ¬Settles ctx t := by
  rintro ⟨n, q, hrun, hsleep, -⟩
  cases n with
  | zero =>
    cases hrun
    cases h.symm.trans hsleep
  | succ n =>
    obtain ⟨t₁, hstep, -⟩ := run_cons_eq_some.1 hrun
    cases (threadStep_ended ctx (.inr h)).symm.trans hstep

theorem settles_sleeps (h : t.thread = .sleeps) : Settles ctx t ↔ ¬t.server.Behind := by
  constructor
  · rintro ⟨n, q, hrun, hq⟩
    cases n with
    | zero =>
      cases hrun
      simpa [h] using hq
    | succ n =>
      obtain ⟨t₁, hstep, -⟩ := run_cons_eq_some.1 hrun
      cases (threadStep_sleeps ctx h).symm.trans hstep
  · intro hidle
    exact ⟨0, t, rfl, h, hidle⟩

theorem settles_turnsIn (h : t.thread = .turnsIn) : Settles ctx t ↔ ¬t.server.Behind := by
  rw [settles_iff_of_step (threadStep_turnsIn ctx h) (by simp [h])]
  exact settles_sleeps rfl

theorem settles_looks_of_idle (h : t.thread = .looks) (hidle : ¬t.server.Behind) :
    Settles ctx t := by
  rw [settles_iff_of_step (threadStep_looks ctx h) (by simp [h]), if_neg hidle]
  exact (settles_turnsIn rfl).2 hidle

theorem settles_applies_of_idle (h : t.thread = .applies) (hidle : ¬t.server.Behind) :
    Settles ctx t := by
  rw [settles_iff_of_step ((threadStep_applies ctx h).trans (applyRound_of_idle ctx hidle))
    (by simp [h])]
  exact settles_looks_of_idle rfl hidle

theorem settles_applies (h : t.thread = .applies) (hstop : t.stop = .running) :
    Settles ctx t ↔ Applicable ctx t.server := by
  unfold Applicable
  -- each round brings the applied index closer to the committed one
  induction hk : t.server.quickCommitIdx - t.server.smCommitIndex generalizing t with
  | zero =>
    have hidle : ¬t.server.Behind := fun hbehind => by
      have hlt := hbehind.1
      omega
    exact iff_of_true (settles_applies_of_idle h hidle) trivial
  | succ k ih =>
    by_cases hbehind : t.server.Behind
    · rw [settles_iff_of_step ((threadStep_applies ctx h).trans
        (applyRound_of_behind ctx hbehind hstop)) (by simp [h])]
      unfold RoundsSucceed
      by_cases hok : (commitInBg ctx t.server).result.isOk = true
      · obtain ⟨hsm, hquick⟩ := commitInBg_of_behind ctx hbehind
        have hnext := ih (t := { t with server := (commitInBg ctx t.server).state }) h hstop
          (by dsimp only; omega)
        rw [if_pos hok]
        exact hnext.trans ⟨fun hrounds _ => ⟨hok, hrounds⟩, fun hrounds => (hrounds hbehind).2⟩
      · rw [if_neg hok]
        exact iff_of_false (not_settles_failed rfl) fun hrounds => hok (hrounds hbehind).1
    · exact iff_of_true (settles_applies_of_idle h hbehind) fun hb => absurd hb hbehind

theorem settles_looks (h : t.thread = .looks) (hstop : t.stop = .running) :
    Settles ctx t ↔ Applicable ctx t.server := by
  by_cases hbehind : t.server.Behind
  · rw [settles_iff_of_step (threadStep_looks ctx h) (by simp [h]), if_pos hbehind]
    exact settles_applies rfl hstop
  · exact iff_of_true (settles_looks_of_idle h hbehind) (applicable_of_idle hbehind)

theorem settles_wakes (h : t.thread = .wakes) (hstop : t.stop = .running) :
    Settles ctx t ↔ Applicable ctx t.server := by
  rw [settles_iff_of_step (threadStep_wakes ctx h hstop) (by simp [h])]
  exact settles_looks rfl hstop

/-! ## Missed signals -/

/-- The call of `commit` leaves an entry to apply and wakes nobody: the thread does not wait yet, or
the call ends before its signal. -/
def Missed (ctx : Context) (target : Nat) (t : ThreadedServer) : Prop :=
  (commit ctx target t.server).state.Behind ∧ (t.thread = .turnsIn ∨
    t.thread = .sleeps ∧ ¬(commit ctx target t.server).result.isOk)

theorem settles_callCommit {target : Nat} (hstop : t.stop = .running)
    (hduty : t.thread ≠ .returned) : Settles ctx (t.callCommit ctx target) ↔
      ¬Missed ctx target t ∧ t.thread ≠ .failed ∧
        Applicable ctx (commit ctx target t.server).state := by
  unfold callCommit Missed
  dsimp only
  generalize (commit ctx target t.server).state = s
  generalize (commit ctx target t.server).result.isOk = ok
  cases hthread : t.thread with
  | returned => exact absurd hthread hduty
  | sleeps =>
    by_cases hsignal : ok = true ∧ s.Behind
    · rw [if_pos hsignal, signalled_of_sleeps rfl]
      refine Iff.trans (settles_wakes rfl hstop) ?_
      simp [hsignal.1]
    · rw [if_neg hsignal, settles_sleeps rfl]
      have hidle : ¬s.Behind → Applicable ctx s := applicable_of_idle
      cases ok with
      | true => simp_all
      | false => simpa using hidle
  | looks =>
    rw [signalled_of_ne (by simp), ite_self]
    refine Iff.trans (settles_looks rfl hstop) ?_
    simp
  | turnsIn =>
    have hidle : ¬s.Behind → Applicable ctx s := applicable_of_idle
    rw [signalled_of_ne (by simp), ite_self, settles_turnsIn rfl]
    simpa using hidle
  | wakes =>
    rw [signalled_of_ne (by simp), ite_self]
    refine Iff.trans (settles_wakes rfl hstop) ?_
    simp
  | applies =>
    rw [signalled_of_ne (by simp), ite_self]
    refine Iff.trans (settles_applies rfl hstop) ?_
    simp
  | failed =>
    rw [signalled_of_ne (by simp), ite_self]
    simpa using not_settles_failed rfl

/-! ## Runs -/

/-- The thread returns only when the server is stopped. -/
def OnDuty (t : ThreadedServer) : Prop := t.stop = .running → t.thread ≠ .returned

theorem OnDuty.threadStep (hstep : threadStep ctx t = some t') : t'.OnDuty := by
  intro hrunning
  cases hthread : t.thread with
  | looks =>
    cases (threadStep_looks ctx hthread).symm.trans hstep
    dsimp only
    split <;> simp
  | turnsIn =>
    cases (threadStep_turnsIn ctx hthread).symm.trans hstep
    simp
  | sleeps => cases (threadStep_sleeps ctx hthread).symm.trans hstep
  | wakes =>
    by_cases hstop : t.stop = .running
    · cases (threadStep_wakes ctx hthread hstop).symm.trans hstep
      simp
    · cases (threadStep_wakes_stopping ctx hthread hstop).symm.trans hstep
      dsimp only at hrunning
      split at hrunning
      · cases hrunning
      · exact absurd hrunning hstop
  | applies =>
    obtain ⟨-, hat⟩ := applyRound_eq_some ctx ((threadStep_applies ctx hthread).symm.trans hstep)
    rcases hat with hat | hat | hat <;> simp [hat, hthread]
  | returned => cases (threadStep_ended ctx (.inl hthread)).symm.trans hstep
  | failed => cases (threadStep_ended ctx (.inr hthread)).symm.trans hstep

theorem OnDuty.step {e : Event} (h : t.OnDuty) (hstep : t.step ctx e = some t') : t'.OnDuty := by
  cases e with
  | thread => exact .threadStep hstep
  | spurious =>
    obtain ⟨-, ht⟩ := Option.ite_none_right_eq_some.1 hstep
    cases ht
    intro _
    simp
  | commit target =>
    obtain ⟨hstop, ht⟩ := Option.ite_none_right_eq_some.1 hstep
    cases ht
    intro _
    unfold callCommit
    dsimp only
    split
    · exact thread_signalled_ne (h hstop)
    · exact h hstop
  | change s =>
    obtain ⟨hstop, ht⟩ := Option.ite_none_right_eq_some.1 hstep
    cases ht
    exact h
  | stop =>
    obtain ⟨-, ht⟩ := Option.ite_none_right_eq_some.1 hstep
    cases ht
    exact fun hrunning => by cases hrunning
  | signal =>
    obtain ⟨-, ht⟩ := Option.ite_none_right_eq_some.1 hstep
    cases ht
    exact fun hrunning => by cases hrunning

/-- **Signals of `commit`.** In every run, what a call of `commit` leaves to apply is applied by the
thread, left alone, if and only if the signal is not missed, no exception has ended the thread, and
none will in the rounds that apply it. -/
theorem applied_unless_missed (ctx : Context) (s : Server) (es : List Event) (t : ThreadedServer)
    (hrun : run (step ctx) { server := s } es = some t) (hstop : t.stop = .running) (target : Nat) :
    Settles ctx (t.callCommit ctx target) ↔ ¬Missed ctx target t ∧ t.thread ≠ .failed ∧
      Applicable ctx (commit ctx target t.server).state := by
  have hstart : OnDuty { server := s } := fun _ => by simp
  have hduty : t.OnDuty := run_invariant (fun _ _ _ h hstep => h.step hstep) hstart hrun
  exact settles_callCommit hstop (hduty hstop)

/-- A follower that has just started. -/
def follower : Server := Server.new {} 1 (bootOf [1, 2, 3])

/-- The follower with an entry from the leader. -/
def followerWithEntry : Server :=
  { follower with logStore := follower.logStore.append ⟨1, .appLog, .bytes [7, 0]⟩ }

/-- The thread finds nothing to apply. The follower takes an entry and hears that it is committed:
before the thread waits, which leaves the entry, and after that. -/
theorem applied_unless_missed_follower :
    ¬Settles {} (callCommit {} 1 ⟨followerWithEntry, .turnsIn, .running⟩) ∧
      Settles {} (callCommit {} 1 ⟨followerWithEntry, .sleeps, .running⟩) := by
  rw [applied_unless_missed {} follower [.thread, .change followerWithEntry] _ (by rfl) rfl 1,
    applied_unless_missed {} follower [.thread, .thread, .change followerWithEntry] _ (by rfl) rfl 1]
  refine ⟨fun h => h.1 ⟨by decide +kernel, .inl rfl⟩, fun h => ?_, by simp, ?_⟩
  · rcases h.2 with hat | ⟨-, hno⟩
    · cases hat
    · exact hno (by decide +kernel)
  · exact fun _ => ⟨by decide +kernel, trivial⟩

/-! ## The destructor -/

/-- The destructor, about to signal, can return. Once it has signalled, only the thread takes steps,
unless a wait returns without a signal. -/
def StopReturns (ctx : Context) (t : ThreadedServer) : Prop :=
  ∃ es t', (∀ e ∈ es, e ≠ Event.spurious) ∧ run (step ctx) t (.signal :: es) = some t' ∧
    t'.stop = .done

/-- The destructor waits for a thread that is not going to see `stopping_`. -/
def Stuck (t : ThreadedServer) : Prop := t.stop = .waits ∧ t.thread ≠ .wakes

theorem Stuck.step {e : Event} (h : t.Stuck) (he : e ≠ .spurious) (hstep : t.step ctx e = some t') :
    t'.Stuck := by
  obtain ⟨hwaits, hthread⟩ := h
  cases e with
  | thread =>
    have hstep : threadStep ctx t = some t' := hstep
    cases hat : t.thread with
    | looks =>
      cases (threadStep_looks ctx hat).symm.trans hstep
      refine ⟨hwaits, ?_⟩
      dsimp only
      split <;> simp
    | turnsIn =>
      cases (threadStep_turnsIn ctx hat).symm.trans hstep
      exact ⟨hwaits, by simp⟩
    | sleeps => cases (threadStep_sleeps ctx hat).symm.trans hstep
    | wakes => exact absurd hat hthread
    | applies =>
      obtain ⟨hstop, hat'⟩ := applyRound_eq_some ctx ((threadStep_applies ctx hat).symm.trans hstep)
      refine ⟨hstop.trans hwaits, ?_⟩
      rcases hat' with hat' | hat' | hat' <;> simp [hat', hat]
    | returned => cases (threadStep_ended ctx (.inl hat)).symm.trans hstep
    | failed => cases (threadStep_ended ctx (.inr hat)).symm.trans hstep
  | spurious => exact absurd rfl he
  | commit target => cases hwaits.symm.trans (Option.ite_none_right_eq_some.1 hstep).1
  | change s => cases hwaits.symm.trans (Option.ite_none_right_eq_some.1 hstep).1
  | stop => cases hwaits.symm.trans (Option.ite_none_right_eq_some.1 hstep).1
  | signal => cases hwaits.symm.trans (Option.ite_none_right_eq_some.1 hstep).1

theorem Stuck.run {es : List Event} (h : t.Stuck) (hes : ∀ e ∈ es, e ≠ Event.spurious)
    (hrun : run (ThreadedServer.step ctx) t es = some t') : t'.Stuck :=
  Along.invariant (P := fun _ e => e ≠ Event.spurious) (fun _ _ _ h he hstep => h.step he hstep) h
    (along_of_forall hes t) hrun

theorem step_signal (hstop : t.stop = .stopping) :
    t.step ctx .signal = some { t.signalled with stop := .waits } :=
  if_pos hstop

/-- **Stopping.** The destructor returns if and only if its signal finds the thread asleep, or
signalled and not yet back. -/
theorem destructor_returns_iff (ctx : Context) (t : ThreadedServer) (hstop : t.stop = .stopping) :
    StopReturns ctx t ↔ t.thread = .sleeps ∨ t.thread = .wakes := by
  constructor
  · rintro ⟨fs, q, hfs, hrun, hdone⟩
    by_contra hne
    obtain ⟨hsleep, hwake⟩ := not_or.1 hne
    obtain ⟨t₁, hsignal, hrun⟩ := run_cons_eq_some.1 hrun
    have hstuck : t₁.Stuck := by
      rw [step_signal hstop, signalled_of_ne hsleep] at hsignal
      cases hsignal
      exact ⟨rfl, hwake⟩
    cases hdone.symm.trans (hstuck.run hfs hrun).1
  · intro hat
    have hwakes : t.signalled.thread = .wakes := by
      rcases hat with hsleep | hwake
      · rw [signalled_of_sleeps hsleep]
      · rw [signalled_of_ne (by simp [hwake])]
        exact hwake
    refine ⟨[.thread], _, by simp, run_cons_eq_some.2 ⟨_, step_signal hstop, run_cons_eq_some.2
      ⟨_, threadStep_wakes_stopping ctx hwakes (by simp), rfl⟩⟩, ?_⟩
    simp

/-- The destructor is called before the thread has looked for the first time. -/
theorem destructor_returns_iff_at_start : ¬StopReturns {} ⟨follower, .looks, .stopping⟩ := by
  rw [destructor_returns_iff {} _ rfl]
  decide

end ThreadedServer

end EnclaveRaft
