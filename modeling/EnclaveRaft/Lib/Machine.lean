import Mathlib.Data.Option.Basic

/-!
# Machines driven by events

A machine is a function `step` that says which state an event leads to, if the event can happen.
`run step s es` is the state after the events `es`. An invariant of the steps is one of the runs
(`run_invariant`), also where only the steps that meet a condition keep it (`Along.invariant`).
-/

namespace Machine

variable {σ ε : Type} (step : σ → ε → Option σ)

/-- The state after some events, if they can happen in this order. -/
def run (s : σ) : List ε → Option σ
  | [] => some s
  | e :: es => (step s e).bind fun s' => run s' es

/-- All events happen in states where they meet the condition `P`. -/
def Along (P : σ → ε → Prop) (s : σ) : List ε → Prop
  | [] => True
  | e :: es => P s e ∧ ∀ s' ∈ step s e, Along P s' es

instance decidableAlong (P : σ → ε → Prop) [∀ s e, Decidable (P s e)] :
    (s : σ) → (es : List ε) → Decidable (Along step P s es)
  | _, [] => isTrue trivial
  | s, e :: es =>
    have := fun s' => decidableAlong P s' es
    inferInstanceAs (Decidable (P s e ∧ ∀ s' ∈ step s e, Along step P s' es))

variable {step}

theorem run_cons_eq_some {s s' : σ} {e : ε} {es : List ε} :
    run step s (e :: es) = some s' ↔ ∃ t, step s e = some t ∧ run step t es = some s' :=
  Option.bind_eq_some_iff

theorem run_append (s : σ) (es fs : List ε) :
    run step s (es ++ fs) = (run step s es).bind fun s' => run step s' fs := by
  induction es generalizing s with
  | nil => rfl
  | cons e es ih =>
    show ((step s e).bind fun s' => run step s' (es ++ fs)) = _
    simp only [ih, run, Option.bind_assoc]

theorem Along.mono {P Q : σ → ε → Prop} (hPQ : ∀ s e, P s e → Q s e) {s : σ} {es : List ε}
    (h : Along step P s es) : Along step Q s es := by
  induction es generalizing s with
  | nil => trivial
  | cons e es ih => exact ⟨hPQ s e h.1, fun s' hs' => ih (h.2 s' hs')⟩

theorem along_of_forall {p : ε → Prop} {es : List ε} (h : ∀ e ∈ es, p e) (s : σ) :
    Along step (fun _ e => p e) s es := by
  induction es generalizing s with
  | nil => trivial
  | cons e es ih =>
    obtain ⟨he, hes⟩ := List.forall_mem_cons.1 h
    exact ⟨he, fun s' _ => ih hes s'⟩

/-- What every step keeps holds after every run. -/
theorem run_invariant {I : σ → Prop} (hstep : ∀ s e s', I s → step s e = some s' → I s') {s s' : σ}
    {es : List ε} (hs : I s) (hrun : run step s es = some s') : I s' := by
  induction es generalizing s with
  | nil =>
    cases hrun
    exact hs
  | cons e es ih =>
    obtain ⟨t, ht, hrun⟩ := run_cons_eq_some.1 hrun
    exact ih (hstep s e t hs ht) hrun

/-- What every step that meets `P` keeps holds after every run of such steps. -/
theorem Along.invariant {I : σ → Prop} {P : σ → ε → Prop}
    (hstep : ∀ s e s', I s → P s e → step s e = some s' → I s') {s s' : σ} {es : List ε}
    (hs : I s) (hP : Along step P s es) (hrun : run step s es = some s') : I s' := by
  induction es generalizing s with
  | nil =>
    cases hrun
    exact hs
  | cons e es ih =>
    obtain ⟨t, ht, hrun⟩ := run_cons_eq_some.1 hrun
    exact ih (hstep s e t hs hP.1 ht) (hP.2 t ht) hrun

/-- Conditions that agree where the invariant `I` holds, as long as steps that meet them keep it. -/
theorem along_congr {I : σ → Prop} {P Q : σ → ε → Prop} (hPQ : ∀ s e, I s → (P s e ↔ Q s e))
    (hstep : ∀ s e s', I s → P s e → step s e = some s' → I s') {s : σ} {es : List ε} (hs : I s) :
    Along step P s es ↔ Along step Q s es := by
  induction es generalizing s with
  | nil => exact Iff.rfl
  | cons e es ih =>
    constructor
    · rintro ⟨hP, hrest⟩
      refine ⟨(hPQ s e hs).1 hP, fun s' hs' => ?_⟩
      exact (ih (hstep s e s' hs hP hs')).1 (hrest s' hs')
    · rintro ⟨hQ, hrest⟩
      have hP := (hPQ s e hs).2 hQ
      refine ⟨hP, fun s' hs' => ?_⟩
      exact (ih (hstep s e s' hs hP hs')).2 (hrest s' hs')

/-- Where each step uses up some of `A` or adds to `B`, these bound the number of steps. -/
theorem length_le_of_run {I : σ → Prop} {A B : σ → Nat}
    (hstep : ∀ s e s', I s → step s e = some s' → I s' ∧ 1 + A s' + B s ≤ A s + B s') {s s' : σ}
    {es : List ε} (hs : I s) (hrun : run step s es = some s') :
    es.length + A s' + B s ≤ A s + B s' := by
  induction es generalizing s with
  | nil =>
    cases hrun
    simp
  | cons e es ih =>
    obtain ⟨t, ht, hrun⟩ := run_cons_eq_some.1 hrun
    obtain ⟨hI, hlt⟩ := hstep s e t hs ht
    have hle := ih hI hrun
    rw [List.length_cons]
    omega

end Machine
