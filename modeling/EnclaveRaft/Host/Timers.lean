import EnclaveRaft.Lib.Machine
import Mathlib.Logic.Function.Basic

/-!
# Delayed tasks

`ServicePort` schedules a task by an id, which the task keeps from its first schedule on, and leaves
the timer to the host. Every schedule makes a new timer, and the one it replaces is destroyed. The
completion of a timer is queued when it expires, and aborted when it is cancelled or destroyed before
that; asio does not recall a completion that is queued. All completions of a task come back by its id
and look at one flag, which `cancel` sets and `schedule` clears.

`Sound` says what a task may rely on, in terms of what happened: the body is executed on behalf of the
latest schedule only, if it was not cancelled, and once.
-/

namespace EnclaveRaft.Host

/-- The wait on a timer of the host: not over, its completion queued with or without an error, or
its completion run. -/
inductive Wait
  | waiting
  | queued (success : Bool)
  | done
  deriving DecidableEq

structure Timer where
  taskUid : Nat
  wait : Wait := .waiting
  deriving DecidableEq

/-- The timer is cancelled or destroyed. -/
def Timer.abort (T : Timer) : Timer :=
  match T.wait with
  | .waiting => { T with wait := .queued false }
  | _ => T

/-- The completion of the timer is or can still become a successful one. -/
def Timer.Live (T : Timer) : Prop := T.wait = .waiting ∨ T.wait = .queued true

theorem Timer.taskUid_abort (T : Timer) : T.abort.taskUid = T.taskUid := by
  unfold abort
  split <;> rfl

/-- What is live after it was queued before. -/
theorem Timer.live_abort {T : Timer} (h : T.abort.Live) : T.wait = .queued true := by
  unfold abort Live at h
  split at h
  next => simp at h
  next hne => exact h.resolve_left hne

namespace Timers

/-- What happens to tasks. Schedules are numbered. -/
inductive Obs
  | scheduled (task number : Nat)
  | cancelled (task : Nat)
  | executed (task number : Nat)
  deriving DecidableEq

/-- A call of `schedule` or `cancel`, the expiration of a timer, or its completion. -/
inductive Event
  | schedule (task : Nat)
  | cancel (task : Nat)
  | expire (number : Nat)
  | complete (number : Nat)
  deriving DecidableEq

end Timers

/-- The port and the host: the ids of the tasks (`get_impl_context`) and their flags, the callbacks
of `service_task_pool`, the timers that were made and the one that `asio_task_scheduler_pool` holds
for an id. `trace` is what has happened, the latest first. -/
structure Timers where
  lastTaskUid : Nat := 0
  context : Nat → Option Nat := fun _ => none
  cancelled : Nat → Bool := fun _ => false
  callbacks : Nat → Option Nat := fun _ => none
  count : Nat := 0
  timers : Nat → Option Timer := fun _ => none
  current : Nat → Option Nat := fun _ => none
  trace : List Timers.Obs := []

namespace Timers

open Function (update)

/-- `set_impl_context`, at the first schedule. -/
def setContext (s : Timers) (task : Nat) : Timers :=
  match s.context task with
  | some _ => s
  | none =>
    { s with
      lastTaskUid := s.lastTaskUid + 1
      context := update s.context task (some (s.lastTaskUid + 1)) }

/-- The timer that the host holds for an id, if there is one, is cancelled or destroyed. -/
def abortCurrent (s : Timers) (uid : Nat) : Timers :=
  { s with timers := fun n =>
      if s.current uid = some n then (s.timers n).map Timer.abort else s.timers n }

/-- `ocall_schedule_delayed_task`. -/
def hostSchedule (s : Timers) (uid : Nat) : Timers :=
  let s' := s.abortCurrent uid
  { s' with
    timers := update s'.timers s.count (some { taskUid := uid })
    current := update s'.current uid (some s.count)
    count := s.count + 1 }

/-- `schedule`, once the task has an id. -/
def scheduleAs (s : Timers) (task uid : Nat) : Timers :=
  let s' := { s with
    cancelled := update s.cancelled task false
    callbacks := update s.callbacks uid (some task) }
  { s'.hostSchedule uid with trace := .scheduled task s.count :: s.trace }

def schedule (s : Timers) (task : Nat) : Timers :=
  let s' := s.setContext task
  match s'.context task with
  | some uid => s'.scheduleAs task uid
  | none => s'

def cancel (s : Timers) (task : Nat) : Timers :=
  let s' := match s.context task with
    | some uid => s.abortCurrent uid
    | none => s
  { s' with cancelled := update s'.cancelled task true, trace := .cancelled task :: s.trace }

/-- `ecall_timer_expired_callback` and `_timer_handler_`. -/
def callback (s : Timers) (number uid : Nat) (success : Bool) : Timers :=
  match s.callbacks uid with
  | some task =>
    if success ∧ ¬s.cancelled task then { s with trace := .executed task number :: s.trace } else s
  | none => s

def step (s : Timers) : Event → Option Timers
  | .schedule task => some (s.schedule task)
  | .cancel task => some (s.cancel task)
  | .expire n =>
    match s.timers n with
    | some T =>
      if T.wait = .waiting then
        some { s with timers := update s.timers n (some { T with wait := .queued true }) }
      else none
    | none => none
  | .complete n =>
    match s.timers n with
    | some ⟨uid, .queued success⟩ =>
      some ({ s with timers := update s.timers n (some ⟨uid, .done⟩) }.callback n uid success)
    | _ => none

/-! ## What a task may rely on -/

def Obs.Concerns (task : Nat) : Obs → Bool
  | .scheduled t _ => t = task
  | .cancelled t => t = task
  | .executed _ _ => false

/-- The latest call of `schedule` or `cancel` for a task. -/
def latest (task : Nat) (trace : List Obs) : Option Obs := trace.find? (Obs.Concerns task)

/-- Every execution is on behalf of the latest schedule of its task, which was not cancelled, and the
first one on its behalf. -/
def Sound : List Obs → Prop
  | [] => True
  | .executed task n :: trace =>
    latest task trace = some (.scheduled task n) ∧ .executed task n ∉ trace ∧ Sound trace
  | _ :: trace => Sound trace

instance decidableSound : (trace : List Obs) → Decidable (Sound trace)
  | [] => isTrue trivial
  | .executed _ _ :: trace =>
    have := decidableSound trace
    inferInstanceAs (Decidable (_ ∧ _ ∧ _))
  | .scheduled _ _ :: trace => decidableSound trace
  | .cancelled _ :: trace => decidableSound trace

/-- The condition under which it is kept: no successful completion of a task is queued when the task
is scheduled. -/
def Fresh (s : Timers) : Event → Prop
  | .schedule task => ∀ n < s.count, ∀ T ∈ s.timers n, T.wait = .queued true →
      s.context task ≠ some T.taskUid
  | _ => True

instance decidableFresh (s : Timers) : (e : Event) → Decidable (Fresh s e)
  | .schedule task => inferInstanceAs (Decidable (∀ n < s.count, ∀ T ∈ s.timers n,
      T.wait = .queued true → s.context task ≠ some T.taskUid))
  | .cancel _ => isTrue trivial
  | .expire _ => isTrue trivial
  | .complete _ => isTrue trivial

/-! ## The invariant -/

structure Orderly (s : Timers) : Prop where
  context_le : ∀ {t u}, s.context t = some u → u ≤ s.lastTaskUid
  context_inj : ∀ {t t' u}, s.context t = some u → s.context t' = some u → t = t'
  callback : ∀ {u t}, s.callbacks u = some t → s.context t = some u
  count : ∀ {n T}, s.timers n = some T → n < s.count
  owner : ∀ {n T}, s.timers n = some T → ∃ t, s.context t = some T.taskUid
  current : ∀ {u n}, s.current u = some n → ∃ T, s.timers n = some T ∧ T.taskUid = u
  live : ∀ {n T}, s.timers n = some T → T.Live → s.current T.taskUid = some n
  latest : ∀ {t u n}, s.context t = some u → s.current u = some n → s.cancelled t = false →
    latest t s.trace = some (.scheduled t n)
  executed : ∀ {t n}, .executed t n ∈ s.trace → ∃ u, s.timers n = some ⟨u, .done⟩
  sound : Sound s.trace

theorem orderly_start : Orderly {} := by
  constructor <;> simp [Sound]

theorem orderly_setContext {s : Timers} (h : s.Orderly) (task : Nat) :
    (s.setContext task).Orderly := by
  unfold setContext
  cases hctx : s.context task with
  | some u => exact h
  | none =>
    -- the id is new, so nothing refers to it yet
    have hold : ∀ {t u}, s.context t = some u →
        update s.context task (some (s.lastTaskUid + 1)) t = some u := by
      intro t u ht
      rw [Function.update_of_ne (fun heq => by simp [heq, hctx] at ht), ht]
    have hnew : ∀ {t u}, update s.context task (some (s.lastTaskUid + 1)) t = some u →
        s.context t = some u ∨ t = task ∧ u = s.lastTaskUid + 1 := by
      intro t u ht
      by_cases heq : t = task
      · subst heq
        rw [Function.update_self] at ht
        exact .inr ⟨rfl, (Option.some.inj ht).symm⟩
      · rw [Function.update_of_ne heq] at ht
        exact .inl ht
    exact {
      context_le := fun ht => by
        rcases hnew ht with ht | ⟨-, rfl⟩
        · exact Nat.le_succ_of_le (h.context_le ht)
        · exact Nat.le_refl _
      context_inj := fun ht ht' => by
        rcases hnew ht with hc | ⟨hc, hu⟩ <;> rcases hnew ht' with hc' | ⟨hc', hu'⟩
        · exact h.context_inj hc hc'
        · have hle := h.context_le hc
          omega
        · have hle := h.context_le hc'
          omega
        · exact hc.trans hc'.symm
      callback := fun hu => hold (h.callback hu)
      count := h.count
      owner := fun hn => (h.owner hn).imp fun _ => hold
      current := h.current
      live := h.live
      latest := fun ht hu hc => by
        rcases hnew ht with ht | ⟨rfl, rfl⟩
        · exact h.latest ht hu hc
        · obtain ⟨T, hT, heq⟩ := h.current hu
          obtain ⟨t', ht'⟩ := h.owner hT
          have hle := h.context_le ht'
          omega
      executed := h.executed
      sound := h.sound }

theorem context_setContext (s : Timers) (task : Nat) :
    ∃ u, (s.setContext task).context task = some u := by
  unfold setContext
  cases hctx : s.context task with
  | some u => exact ⟨u, hctx⟩
  | none => exact ⟨_, Function.update_self ..⟩

/-- What a timer was before the current one of some id was aborted. -/
theorem timers_abortCurrent {s : Timers} {uid n : Nat} {T : Timer}
    (hT : (s.abortCurrent uid).timers n = some T) :
    ∃ T₀, s.timers n = some T₀ ∧ (T = T₀ ∧ s.current uid ≠ some n ∨ T = T₀.abort) := by
  change (if s.current uid = some n then (s.timers n).map Timer.abort else s.timers n) = some T at hT
  split at hT
  next =>
    obtain ⟨T₀, hT₀, rfl⟩ := Option.map_eq_some_iff.1 hT
    exact ⟨T₀, hT₀, .inr rfl⟩
  next hne => exact ⟨T, hT, .inl ⟨rfl, hne⟩⟩

theorem orderly_abortCurrent {s : Timers} (h : s.Orderly) (uid : Nat) :
    (s.abortCurrent uid).Orderly where
  context_le := h.context_le
  context_inj := h.context_inj
  callback := h.callback
  count hT := by
    obtain ⟨T₀, hT₀, -⟩ := timers_abortCurrent hT
    exact h.count hT₀
  owner hT := by
    obtain ⟨T₀, hT₀, ⟨rfl, -⟩ | rfl⟩ := timers_abortCurrent hT
    · exact h.owner hT₀
    · rw [Timer.taskUid_abort]
      exact h.owner hT₀
  current {u n} hu := by
    obtain ⟨T, hT, rfl⟩ := h.current hu
    by_cases hcur : s.current uid = some n
    · exact ⟨T.abort, by simp [abortCurrent, hcur, hT], T.taskUid_abort⟩
    · exact ⟨T, by simp [abortCurrent, hcur, hT], rfl⟩
  live hT hlive := by
    obtain ⟨T₀, hT₀, ⟨rfl, -⟩ | rfl⟩ := timers_abortCurrent hT
    · exact h.live hT₀ hlive
    · rw [Timer.taskUid_abort]
      exact h.live hT₀ (.inr (Timer.live_abort hlive))
  latest := h.latest
  executed {t n} hmem := by
    obtain ⟨u, hu⟩ := h.executed hmem
    refine ⟨u, ?_⟩
    simp [abortCurrent, hu, Timer.abort]
  sound := h.sound

/-- After that, only queued completions of the id are live. -/
theorem queued_of_live {s : Timers} (h : s.Orderly) {uid n : Nat} {T : Timer}
    (hT : (s.abortCurrent uid).timers n = some T) (huid : T.taskUid = uid) (hlive : T.Live) :
    s.timers n = some ⟨uid, .queued true⟩ := by
  obtain ⟨T₀, hT₀, ⟨rfl, hne⟩ | rfl⟩ := timers_abortCurrent hT
  · subst huid
    exact absurd (h.live hT₀ hlive) hne
  · rw [Timer.taskUid_abort] at huid
    have hwait := Timer.live_abort hlive
    cases T₀
    cases huid
    cases hwait
    exact hT₀

theorem latest_cons_of_not {task : Nat} {o : Obs} {trace : List Obs} (h : o.Concerns task = false) :
    Timers.latest task (o :: trace) = Timers.latest task trace := by
  rw [Timers.latest, List.find?_cons_of_neg (by simp [h])]
  rfl

theorem timers_scheduleAs {s : Timers} {task uid n : Nat} {T : Timer}
    (hT : (s.scheduleAs task uid).timers n = some T) :
    n = s.count ∧ T = ⟨uid, .waiting⟩ ∨ n ≠ s.count ∧ (s.abortCurrent uid).timers n = some T := by
  change update (s.abortCurrent uid).timers s.count (some ⟨uid, .waiting⟩) n = some T at hT
  by_cases hn : n = s.count
  · rw [hn, Function.update_self] at hT
    exact .inl ⟨hn, (Option.some.inj hT).symm⟩
  · rw [Function.update_of_ne hn] at hT
    exact .inr ⟨hn, hT⟩

theorem orderly_scheduleAs {s : Timers} (h : s.Orderly) {task uid : Nat}
    (hctx : s.context task = some uid)
    (hfresh : ∀ n, s.timers n ≠ some ⟨uid, .queued true⟩) : (s.scheduleAs task uid).Orderly := by
  have h' := orderly_abortCurrent h uid
  have hcurrent : (s.scheduleAs task uid).current = update s.current uid (some s.count) := rfl
  have htimers : ∀ {n}, n ≠ s.count →
      (s.scheduleAs task uid).timers n = (s.abortCurrent uid).timers n :=
    fun hn => Function.update_of_ne hn ..
  exact {
    context_le := h.context_le
    context_inj := h.context_inj
    callback := fun {u t} hu => by
      change update s.callbacks uid (some task) u = some t at hu
      show s.context t = some u
      by_cases heq : u = uid
      · rw [heq, Function.update_self] at hu
        rw [heq, ← Option.some.inj hu, hctx]
      · rw [Function.update_of_ne heq] at hu
        exact h.callback hu
    count := fun hT => by
      rcases timers_scheduleAs hT with ⟨rfl, -⟩ | ⟨-, hT⟩
      · exact Nat.lt_succ_self _
      · exact Nat.lt_succ_of_lt (h'.count hT)
    owner := fun hT => by
      rcases timers_scheduleAs hT with ⟨-, rfl⟩ | ⟨-, hT⟩
      · exact ⟨task, hctx⟩
      · exact h'.owner hT
    current := fun {u n} hu => by
      rw [hcurrent] at hu
      by_cases heq : u = uid
      · rw [heq, Function.update_self] at hu
        cases hu
        exact ⟨⟨uid, .waiting⟩, Function.update_self .., heq.symm⟩
      · rw [Function.update_of_ne heq] at hu
        obtain ⟨T, hT, huid⟩ := h'.current hu
        exact ⟨T, by rw [htimers (Nat.ne_of_lt (h'.count hT)), hT], huid⟩
    live := fun {n T} hT hlive => by
      rw [hcurrent]
      rcases timers_scheduleAs hT with ⟨rfl, rfl⟩ | ⟨-, hT⟩
      · exact Function.update_self ..
      · by_cases huid : T.taskUid = uid
        · exact absurd (queued_of_live h hT huid hlive) (hfresh n)
        · rw [Function.update_of_ne huid]
          exact h'.live hT hlive
    latest := fun {t u n} ht hu hc => by
      change update s.cancelled task false t = false at hc
      show Timers.latest t (.scheduled task s.count :: s.trace) = _
      rw [hcurrent] at hu
      by_cases heq : t = task
      · subst heq
        cases hctx.symm.trans ht
        rw [Function.update_self] at hu
        cases hu
        exact List.find?_cons_of_pos (by simp [Obs.Concerns])
      · have hne : u ≠ uid := fun hu' => heq (h.context_inj ht (hu' ▸ hctx))
        rw [Function.update_of_ne hne] at hu
        rw [Function.update_of_ne heq] at hc
        rw [latest_cons_of_not (by simpa [Obs.Concerns] using Ne.symm heq)]
        exact h.latest ht hu hc
    executed := fun {t n} hmem => by
      obtain ⟨u, hu⟩ := h'.executed ((List.mem_cons.1 hmem).resolve_left nofun)
      exact ⟨u, by rw [htimers (Nat.ne_of_lt (h'.count hu)), hu]⟩
    sound := h.sound }

theorem orderly_schedule {s : Timers} (h : s.Orderly) {task : Nat}
    (hfresh : Fresh s (.schedule task)) : (s.schedule task).Orderly := by
  obtain ⟨uid, hctx⟩ := s.context_setContext task
  have hset := orderly_setContext h task
  unfold schedule
  simp only [hctx]
  refine orderly_scheduleAs hset hctx fun n hn => ?_
  unfold setContext at hn hctx
  cases hc : s.context task with
  | some u =>
    simp only [hc] at hn hctx
    exact hfresh n (h.count hn) _ hn rfl (hc.trans hctx)
  | none =>
    simp only [hc, Function.update_self] at hn hctx
    obtain ⟨t, ht⟩ := h.owner hn
    have hle := h.context_le ht
    cases hctx
    exact absurd hle (Nat.not_succ_le_self _)

theorem orderly_cancel {s : Timers} (h : s.Orderly) (task : Nat) : (s.cancel task).Orderly := by
  have hset : ∀ s' : Timers, s'.Orderly → Orderly { s' with
      cancelled := update s'.cancelled task true, trace := .cancelled task :: s'.trace } := by
    intro s' h'
    exact {
      h' with
      latest := fun {t u n} ht hu hc => by
        change update s'.cancelled task true t = false at hc
        show Timers.latest t (.cancelled task :: s'.trace) = _
        by_cases heq : t = task
        · rw [heq, Function.update_self] at hc
          cases hc
        · rw [Function.update_of_ne heq] at hc
          rw [latest_cons_of_not (by simpa [Obs.Concerns] using Ne.symm heq)]
          exact h'.latest ht hu hc
      executed := fun hmem => h'.executed ((List.mem_cons.1 hmem).resolve_left nofun)
      sound := h'.sound }
  unfold cancel
  cases hc : s.context task with
  | some uid => exact hset _ (orderly_abortCurrent h uid)
  | none => exact hset _ h

/-- A timer whose completion was not run changes, and does not come to life. -/
theorem orderly_update {s : Timers} (h : s.Orderly) {n : Nat} {T T' : Timer} (hT : s.timers n = some T)
    (huid : T'.taskUid = T.taskUid) (hlive : T'.Live → T.Live) (hdone : T.wait ≠ .done) :
    Orderly { s with timers := update s.timers n (some T') } := by
  have hback : ∀ {k T₁}, update s.timers n (some T') k = some T₁ →
      ∃ T₀, s.timers k = some T₀ ∧ T₁.taskUid = T₀.taskUid ∧ (T₁.Live → T₀.Live) := by
    intro k T₁ hk
    by_cases heq : k = n
    · rw [heq, Function.update_self] at hk
      cases hk
      exact ⟨T, heq ▸ hT, huid, hlive⟩
    · rw [Function.update_of_ne heq] at hk
      exact ⟨T₁, hk, rfl, id⟩
  exact {
    h with
    count := fun hk => by
      obtain ⟨T₀, hT₀, -⟩ := hback hk
      exact h.count hT₀
    owner := fun hk => by
      obtain ⟨T₀, hT₀, heq, -⟩ := hback hk
      rw [heq]
      exact h.owner hT₀
    current := fun {u k} hu => by
      obtain ⟨T₁, hT₁, heq⟩ := h.current hu
      show ∃ T₂, update s.timers n (some T') k = some T₂ ∧ _
      by_cases hk : k = n
      · subst hk
        cases hT.symm.trans hT₁
        exact ⟨T', Function.update_self .., huid.trans heq⟩
      · exact ⟨T₁, by rw [Function.update_of_ne hk, hT₁], heq⟩
    live := fun hk hl => by
      obtain ⟨T₀, hT₀, heq, himp⟩ := hback hk
      rw [heq]
      exact h.live hT₀ (himp hl)
    executed := fun {t k} hmem => by
      obtain ⟨u, hu⟩ := h.executed hmem
      refine ⟨u, ?_⟩
      show update s.timers n (some T') k = _
      rw [Function.update_of_ne, hu]
      rintro rfl
      cases hT.symm.trans hu
      exact hdone rfl }

theorem orderly_expire {s s' : Timers} (h : s.Orderly) {n : Nat}
    (hstep : s.step (.expire n) = some s') : s'.Orderly := by
  unfold step at hstep
  cases hT : s.timers n with
  | none => simp [hT] at hstep
  | some T =>
    simp only [hT, Option.ite_none_right_eq_some] at hstep
    obtain ⟨hwait, hs'⟩ := hstep
    cases hs'
    exact orderly_update h hT rfl (fun _ => .inl hwait) (by simp [hwait])

/-- A completion runs the body if it was successful and the task was not cancelled. -/
theorem orderly_complete {s s' : Timers} (h : s.Orderly) {n : Nat}
    (hstep : s.step (.complete n) = some s') : s'.Orderly := by
  simp only [step] at hstep
  split at hstep
  next uid success hT =>
    cases hstep
    have hdone : Orderly { s with timers := update s.timers n (some ⟨uid, .done⟩) } :=
      orderly_update h hT rfl (by simp [Timer.Live]) (by simp)
    unfold callback
    split
    next task hcall =>
      split
      next hrun =>
        have hctx := h.callback hcall
        have hcur : s.current uid = some n := h.live hT (.inr (by simp [hrun.1]))
        exact {
          hdone with
          latest := fun ht hu hc => by
            rw [latest_cons_of_not rfl]
            exact h.latest ht hu hc
          executed := fun {t k} hmem => by
            rcases List.mem_cons.1 hmem with heq | hmem
            · cases heq
              exact ⟨uid, Function.update_self ..⟩
            · exact hdone.executed hmem
          sound := by
            refine ⟨h.latest hctx hcur (by simpa using hrun.2), fun hmem => ?_, h.sound⟩
            obtain ⟨u, hu⟩ := h.executed hmem
            cases hT.symm.trans hu }
      next => exact hdone
    next => exact hdone
  next => cases hstep

theorem orderly_step {s s' : Timers} {e : Event} (h : s.Orderly) (hfresh : Fresh s e)
    (hstep : s.step e = some s') : s'.Orderly := by
  cases e with
  | schedule task =>
    cases hstep
    exact orderly_schedule h hfresh
  | cancel task =>
    cases hstep
    exact orderly_cancel h task
  | expire n => exact orderly_expire h hstep
  | complete n => exact orderly_complete h hstep

/-- **Timers fire for their latest schedule.** In every run of calls, expirations and completions in
which no task is scheduled while a successful completion of it is queued, each execution of a task's
body is on behalf of the latest schedule of the task, which was not cancelled, and is the only one on
its behalf. -/
theorem timers_fire_for_latest (es : List Event) (s : Timers)
    (hfresh : Machine.Along step Fresh {} es) (hrun : Machine.run step {} es = some s) :
    Sound s.trace :=
  (Machine.Along.invariant (I := Orderly) (fun _ _ _ => orderly_step) orderly_start hfresh hrun).sound

/-- A task that is scheduled, executed, scheduled again and cancelled in time. -/
theorem timers_fire_for_latest_twice :
    ∃ s, Machine.run step {} [.schedule 0, .expire 0, .complete 0, .schedule 0, .cancel 0,
        .complete 1] = some s ∧
      s.trace = [.cancelled 0, .scheduled 0 1, .executed 0 0, .scheduled 0 0] ∧ Sound s.trace := by
  have hrun : (Machine.run step {} [.schedule 0, .expire 0, .complete 0, .schedule 0, .cancel 0,
      .complete 1]).map Timers.trace =
        some [.cancelled 0, .scheduled 0 1, .executed 0 0, .scheduled 0 0] := by decide +kernel
  obtain ⟨s, hs, htrace⟩ := Option.map_eq_some_iff.1 hrun
  exact ⟨s, hs, htrace, timers_fire_for_latest _ s (by decide +kernel) hs⟩

/-- The completion of the first schedule is queued when the task is cancelled and scheduled again, and
executes the body. -/
theorem timers_fire_for_cancelled :
    ∃ s, Machine.run step {} [.schedule 0, .expire 0, .cancel 0, .schedule 0, .complete 0] = some s ∧
      s.trace = [.executed 0 0, .scheduled 0 1, .cancelled 0, .scheduled 0 0] ∧ ¬Sound s.trace := by
  have hrun : (Machine.run step {} [.schedule 0, .expire 0, .cancel 0, .schedule 0,
      .complete 0]).map Timers.trace =
        some [.executed 0 0, .scheduled 0 1, .cancelled 0, .scheduled 0 0] := by decide +kernel
  obtain ⟨s, hs, htrace⟩ := Option.map_eq_some_iff.1 hrun
  refine ⟨s, hs, htrace, ?_⟩
  rw [htrace]
  decide

end Timers

end EnclaveRaft.Host
