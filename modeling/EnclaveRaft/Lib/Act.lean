import Mathlib.Data.List.Basic

/-!
# Actions: state, output and exceptions

A handler of a server reads and writes the server's state, emits outputs (messages, calls to
the application), and may throw. An exception does not undo what was written before it, so the
state and the outputs survive it.

* `Act` is the monad of such handlers.
* `Path m` is a finite sequence of small steps of a relation `m`, with the outputs they emit.
* `Walks m x s Q` says that running `x` from `s` is such a sequence and that `Q` holds of the
  result when there is one. Its rules follow the constructs of the monad, so a handler is
  resolved into small steps once, and every later property is proved of the small steps.
* `Within m x` says this of every state, and of nothing more. Its rules need no state.
* `Raises E x` says that every exception of `x` satisfies `E`, and `Ends E x s Q` says so of the run
  from `s`, together with `Q` for the result.
* `Reads R p es q` says that a protocol on the outputs, given by a relation `R` on its states,
  goes from `p` to `q` when it reads `es`.
-/

/-- What running an action leaves: a result or an exception, the state, and the outputs. -/
structure Outcome (σ ω ε α : Type) where
  result : Except ε α
  state : σ
  out : List ω

/-- Actions on a state `σ` with outputs `ω` and exceptions `ε`. -/
def Act (σ ω ε α : Type) : Type := σ → Outcome σ ω ε α

namespace Act

variable {σ ω ε α β : Type}

protected def pure (a : α) : Act σ ω ε α := fun s => ⟨.ok a, s, []⟩

/-- Sequencing. An exception keeps the state and the outputs so far. -/
protected def bind (x : Act σ ω ε α) (f : α → Act σ ω ε β) : Act σ ω ε β := fun s =>
  match x s with
  | ⟨.ok a, s', o⟩ => ⟨(f a s').result, (f a s').state, o ++ (f a s').out⟩
  | ⟨.error e, s', o⟩ => ⟨.error e, s', o⟩

instance : Monad (Act σ ω ε) where
  pure := Act.pure
  bind := Act.bind

def get : Act σ ω ε σ := fun s => ⟨.ok s, s, []⟩

def modify (f : σ → σ) : Act σ ω ε Unit := fun s => ⟨.ok (), f s, []⟩

def emit (o : ω) : Act σ ω ε Unit := fun s => ⟨.ok (), s, [o]⟩

def throw (e : ε) : Act σ ω ε α := fun s => ⟨.error e, s, []⟩

/-- Run `x` and handle an exception of it. -/
def catching (x : Act σ ω ε α) (h : ε → Act σ ω ε α) : Act σ ω ε α := fun s =>
  match x s with
  | ⟨.ok a, s', o⟩ => ⟨.ok a, s', o⟩
  | ⟨.error e, s', o⟩ => ⟨(h e s').result, (h e s').state, o ++ (h e s').out⟩

/-- Run `x` if the condition holds. -/
def when (c : Prop) [Decidable c] (x : Act σ ω ε Unit) : Act σ ω ε Unit :=
  if c then x else pure ()

theorem get_bind_apply (f : σ → Act σ ω ε α) (s : σ) : (get >>= f) s = f s s := rfl

theorem modify_bind_apply (g : σ → σ) (f : Unit → Act σ ω ε α) (s : σ) :
    (modify g >>= f) s = f () (g s) := rfl

theorem pure_bind_apply (a : α) (f : α → Act σ ω ε β) (s : σ) : (pure a >>= f) s = f a s := rfl

theorem emit_bind_state (e : ω) (f : Unit → Act σ ω ε α) (s : σ) :
    ((emit e >>= f) s).state = (f () s).state := rfl

theorem emit_bind_out (e : ω) (f : Unit → Act σ ω ε α) (s : σ) :
    ((emit e >>= f) s).out = e :: (f () s).out := rfl

/-- What comes first may be replaced by anything with the same outcome. -/
theorem bind_apply_congr {x y : Act σ ω ε α} {s s' : σ} (h : x s = y s') (f : α → Act σ ω ε β) :
    (x >>= f) s = (y >>= f) s' := by
  show Act.bind x f s = Act.bind y f s'
  rw [Act.bind, Act.bind, h]

/-- An exception leaves out what comes after it. -/
theorem bind_of_error {x : Act σ ω ε α} {s s' : σ} {e : ε} {o : List ω}
    (h : x s = ⟨.error e, s', o⟩) (f : α → Act σ ω ε β) : (x >>= f) s = ⟨.error e, s', o⟩ := by
  show Act.bind x f s = _
  rw [Act.bind, h]

theorem bind_assoc_apply {γ : Type} (x : Act σ ω ε α) (f : α → Act σ ω ε β) (g : β → Act σ ω ε γ)
    (s : σ) : (x >>= f >>= g) s = (x >>= fun a => f a >>= g) s := by
  show Act.bind (Act.bind x f) g s = Act.bind x (fun a => Act.bind (f a) g) s
  unfold Act.bind
  cases x s with
  | mk result s' o =>
    cases result with
    | error e => rfl
    | ok a =>
      dsimp only
      cases f a s' with
      | mk result' s'' o' => cases result' <;> simp

theorem bind_congr_apply {x : Act σ ω ε α} {f g : α → Act σ ω ε β} {s : σ}
    (h : ∀ a s', f a s' = g a s') : (x >>= f) s = (x >>= g) s := by
  rw [show f = g from funext fun a => funext (h a)]

/-- A result of a sequence comes from results of both parts. -/
theorem result_bind_eq_ok {x : Act σ ω ε α} {f : α → Act σ ω ε β} {s : σ} {b : β}
    (h : ((x >>= f) s).result = .ok b) :
    ∃ a, (x s).result = .ok a ∧ (f a (x s).state).result = .ok b := by
  change (Act.bind x f s).result = .ok b at h
  unfold Act.bind at h
  split at h
  next a s' o heq =>
    rw [heq]
    exact ⟨a, rfl, h⟩
  next => cases h

/-- An output of a sequence comes from one of the parts. -/
theorem mem_out_bind {x : Act σ ω ε α} {f : α → Act σ ω ε β} {s : σ} {e : ω}
    (h : e ∈ ((x >>= f) s).out) :
    e ∈ (x s).out ∨ ∃ a, (x s).result = .ok a ∧ e ∈ (f a (x s).state).out := by
  change e ∈ (Act.bind x f s).out at h
  unfold Act.bind at h
  split at h
  next a s' o heq =>
    rw [heq]
    rcases List.mem_append.1 h with h | h
    · exact .inl h
    · exact .inr ⟨a, rfl, h⟩
  next ex s' o heq =>
    rw [heq]
    exact .inl h

/-- The outputs of the first part are there whatever comes of the second. -/
theorem mem_out_bind_left {x : Act σ ω ε α} {s : σ} {e : ω} (h : e ∈ (x s).out)
    (f : α → Act σ ω ε β) : e ∈ ((x >>= f) s).out := by
  show e ∈ (Act.bind x f s).out
  unfold Act.bind
  split
  next a s' o heq =>
    rw [heq] at h
    exact List.mem_append_left _ h
  next ex s' o heq =>
    rw [heq] at h
    exact h

theorem bind_state (x : Act σ ω ε α) (f : α → Act σ ω ε β) (s : σ) :
    ((x >>= f) s).state = match (x s).result with
      | .ok a => (f a (x s).state).state
      | .error _ => (x s).state := by
  show (Act.bind x f s).state = _
  unfold Act.bind
  cases x s with
  | mk result s' o => cases result <;> rfl

/-- The state after a computation does not depend on what is made of its result. -/
theorem bind_pure_state (x : Act σ ω ε α) (f : α → β) (s : σ) :
    ((x >>= fun a => pure (f a)) s).state = (x s).state := by
  show (Act.bind x _ s).state = _
  unfold Act.bind
  cases h : x s with
  | mk result s' o => cases result <;> rfl

theorem bind_pure_out (x : Act σ ω ε α) (f : α → β) (s : σ) :
    ((x >>= fun a => pure (f a)) s).out = (x s).out := by
  show (Act.bind x _ s).out = _
  unfold Act.bind
  cases h : x s with
  | mk result s' o =>
    cases result with
    | ok a => exact List.append_nil o
    | error e => rfl

theorem when_neg {c : Prop} [Decidable c] (h : ¬c) (x : Act σ ω ε Unit) : when c x = pure () :=
  if_neg h

theorem when_pos {c : Prop} [Decidable c] (h : c) (x : Act σ ω ε Unit) : when c x = x := if_pos h

/-- Run `f` on each element in turn. -/
def each (f : β → Act σ ω ε Unit) : List β → Act σ ω ε Unit
  | [] => pure ()
  | b :: bs => do f b; each f bs

/-! ## Paths of small steps -/

/-- Finitely many steps of `m`, with the outputs of each. -/
inductive Path (m : σ → List ω → σ → Prop) : σ → List ω → σ → Prop
  | nil (s : σ) : Path m s [] s
  | cons {s s' s'' : σ} {o o' : List ω} : m s o s' → Path m s' o' s'' → Path m s (o ++ o') s''

variable {m : σ → List ω → σ → Prop}

theorem Path.single {s s' : σ} {o : List ω} (h : m s o s') : Path m s o s' := by
  have := Path.cons h (Path.nil s')
  rwa [List.append_nil] at this

theorem Path.trans {s s' s'' : σ} {o o' : List ω} (h : Path m s o s') (h' : Path m s' o' s'') :
    Path m s (o ++ o') s'' := by
  induction h with
  | nil s => exact h'
  | cons h₁ _ ih => rw [List.append_assoc]; exact .cons h₁ (ih h')

/-- Steps of a smaller relation are steps of a larger one. -/
theorem Path.mono {m' : σ → List ω → σ → Prop} (hm : ∀ s o s', m s o s' → m' s o s')
    {s s' : σ} {o : List ω} (h : Path m s o s') : Path m' s o s' := by
  induction h with
  | nil s => exact .nil s
  | cons h₁ _ ih => exact .cons (hm _ _ _ h₁) ih

/-- A reflexive relation closed under appending steps holds along a path. -/
theorem Path.fold {R : σ → List ω → σ → Prop} (hnil : ∀ s, R s [] s)
    (hcons : ∀ s s' s'' o o', m s o s' → R s' o' s'' → R s (o ++ o') s'')
    {s s' : σ} {o : List ω} (h : Path m s o s') : R s o s' := by
  induction h with
  | nil s => exact hnil s
  | cons h₁ _ ih => exact hcons _ _ _ _ _ h₁ ih

/-- What the steps of a path keep holds before each of them, and at the end. -/
theorem Path.inv {I : σ → Prop} (hI : ∀ s o s', m s o s' → I s → I s') {s s' : σ} {o : List ω}
    (hp : Path m s o s') (h : I s) : Path (fun s o s' => m s o s' ∧ I s) s o s' ∧ I s' := by
  induction hp with
  | nil => exact ⟨.nil _, h⟩
  | cons hm _ ih =>
    obtain ⟨hpath, hend⟩ := ih (hI _ _ _ hm h)
    exact ⟨.cons ⟨hm, h⟩ hpath, hend⟩

/-- What holds for the outputs of every step holds for all outputs. -/
theorem Path.forall_out {Q : ω → Prop} (hm : ∀ s o s', m s o s' → ∀ e ∈ o, Q e) {s s' : σ}
    {o : List ω} (hp : Path m s o s') : ∀ e ∈ o, Q e := by
  refine hp.fold (R := fun _ o _ => ∀ e ∈ o, Q e) (by simp) ?_
  intro s₁ s₂ s₃ o o' h h'
  exact List.forall_mem_append.2 ⟨hm _ _ _ h, h'⟩

/-! ## Walks -/

/-- Running `x` from `s` takes small steps of `m`, and a result satisfies `Q`. -/
def Walks (m : σ → List ω → σ → Prop) (x : Act σ ω ε α) (s : σ) (Q : α → σ → Prop) : Prop :=
  Path m s (x s).out (x s).state ∧ ∀ a, (x s).result = .ok a → Q a (x s).state

theorem Walks.weaken {x : Act σ ω ε α} {s : σ} {Q R : α → σ → Prop} (h : Walks m x s R)
    (hQ : ∀ a s', R a s' → Q a s') : Walks m x s Q :=
  ⟨h.1, fun a ha => hQ a _ (h.2 a ha)⟩

/-- Steps of a smaller relation are steps of a larger one. -/
theorem Walks.mono {m' : σ → List ω → σ → Prop} {x : Act σ ω ε α} {s : σ} {Q : α → σ → Prop}
    (h : Walks m x s Q) (hm : ∀ s o s', m s o s' → m' s o s') : Walks m' x s Q :=
  ⟨h.1.mono hm, h.2⟩

theorem walks_pure {a : α} {s : σ} {Q : α → σ → Prop} (h : Q a s) :
    Walks m (pure a : Act σ ω ε α) s Q :=
  ⟨.nil s, fun b hb => by cases hb; exact h⟩

/-- An action as a single step. -/
theorem walks_self {x : Act σ ω ε α} {s : σ} (h : m s (x s).out (x s).state) :
    Walks m x s fun _ _ => True :=
  ⟨.single h, fun _ _ => trivial⟩

theorem walks_get {s : σ} {Q : σ → σ → Prop} (h : Q s s) : Walks m (get : Act σ ω ε σ) s Q :=
  ⟨.nil s, fun b hb => by cases hb; exact h⟩

theorem walks_throw {e : ε} {s : σ} {Q : α → σ → Prop} :
    Walks m (throw e : Act σ ω ε α) s Q :=
  ⟨.nil s, fun _ hb => by cases hb⟩

theorem walks_modify {f : σ → σ} {s : σ} {Q : Unit → σ → Prop} (hm : m s [] (f s))
    (h : Q () (f s)) : Walks m (modify f : Act σ ω ε Unit) s Q :=
  ⟨.single hm, fun _ hb => by cases hb; exact h⟩

theorem walks_emit {e : ω} {s : σ} {Q : Unit → σ → Prop} (hm : m s [e] s) (h : Q () s) :
    Walks m (emit e : Act σ ω ε Unit) s Q :=
  ⟨.single hm, fun _ hb => by cases hb; exact h⟩

theorem walks_bind {x : Act σ ω ε α} {f : α → Act σ ω ε β} {s : σ} {R : α → σ → Prop}
    {Q : β → σ → Prop} (hx : Walks m x s R) (hf : ∀ a s', R a s' → Walks m (f a) s' Q) :
    Walks m (x >>= f) s Q := by
  show Walks m (Act.bind x f) s Q
  obtain ⟨hp, hr⟩ := hx
  unfold Walks Act.bind
  cases hxs : x s with
  | mk result s' o =>
    rw [hxs] at hp hr
    cases result with
    | ok a =>
      have := hf a s' (hr a rfl)
      exact ⟨hp.trans this.1, this.2⟩
    | error e => exact ⟨hp, fun _ hb => by cases hb⟩

theorem walks_get_bind {f : σ → Act σ ω ε β} {s : σ} {Q : β → σ → Prop}
    (h : Walks m (f s) s Q) : Walks m (get >>= f) s Q :=
  walks_bind (R := fun a s' => a = s ∧ s' = s) (walks_get ⟨rfl, rfl⟩) fun _ _ hr => by
    obtain ⟨rfl, rfl⟩ := hr; exact h

theorem walks_modify_bind {g : σ → σ} {f : Unit → Act σ ω ε β} {s : σ} {Q : β → σ → Prop}
    (hm : m s [] (g s)) (h : Walks m (f ()) (g s) Q) : Walks m (modify g >>= f) s Q :=
  walks_bind (R := fun _ s' => s' = g s) (walks_modify hm rfl) fun _ _ hr => by
    subst hr; exact h

/-- Two updates in a row may be one small step. -/
theorem walks_modify_modify {g g' : σ → σ} {f : Unit → Act σ ω ε β} {s : σ} {Q : β → σ → Prop}
    (h : Walks m (modify (g' ∘ g) >>= f) s Q) :
    Walks m (modify g >>= fun _ => modify g' >>= f) s Q := h

theorem walks_emit_bind {o : ω} {f : Unit → Act σ ω ε β} {s : σ} {Q : β → σ → Prop}
    (hm : m s [o] s) (h : Walks m (f ()) s Q) : Walks m (emit o >>= f) s Q :=
  walks_bind (R := fun _ s' => s' = s) (walks_emit hm rfl) fun _ _ hr => by
    subst hr; exact h

/-- An update and an output may be one small step. -/
theorem walks_modify_emit_bind {g : σ → σ} {o : ω} {f : Unit → Act σ ω ε β} {s : σ}
    {Q : β → σ → Prop} (hm : m s [o] (g s)) (h : Walks m (f ()) (g s) Q) :
    Walks m (modify g >>= fun _ => emit o >>= f) s Q :=
  ⟨show Path m s ([o] ++ (f () (g s)).out) _ from .cons hm h.1, h.2⟩

theorem walks_catching {x : Act σ ω ε α} {h : ε → Act σ ω ε α} {s : σ} {Q : α → σ → Prop}
    (hx : Walks m x s Q) (hh : ∀ e s', Walks m (h e) s' Q) : Walks m (catching x h) s Q := by
  obtain ⟨hp, hr⟩ := hx
  unfold Walks catching
  cases hxs : x s with
  | mk result s' o =>
    rw [hxs] at hp hr
    cases result with
    | ok a => exact ⟨hp, hr⟩
    | error e => exact ⟨hp.trans (hh e s').1, (hh e s').2⟩

/-- Only the run from `s` matters. -/
theorem walks_congr {x y : Act σ ω ε α} {s : σ} {Q : α → σ → Prop} (hxy : x s = y s)
    (h : Walks m y s Q) : Walks m x s Q := by
  unfold Walks
  rw [hxy]
  exact h

theorem walks_ite {c : Prop} [Decidable c] {x y : Act σ ω ε α} {s : σ} {Q : α → σ → Prop}
    (hx : c → Walks m x s Q) (hy : ¬c → Walks m y s Q) : Walks m (if c then x else y) s Q := by
  split
  · exact hx ‹_›
  · exact hy ‹_›

theorem walks_when {c : Prop} [Decidable c] {x : Act σ ω ε Unit} {s : σ} {Q : Unit → σ → Prop}
    (hx : c → Walks m x s Q) (hy : ¬c → Q () s) : Walks m (when c x) s Q :=
  walks_ite hx fun hc => walks_pure (hy hc)

/-- A loop keeps what each of its rounds keeps. -/
theorem walks_each {f : β → Act σ ω ε Unit} {I : σ → Prop} {Q : Unit → σ → Prop}
    (bs : List β) {s : σ} (hs : I s)
    (hf : ∀ b ∈ bs, ∀ s', I s' → Walks m (f b) s' fun _ => I) (hQ : ∀ s', I s' → Q () s') :
    Walks m (each f bs) s Q := by
  induction bs generalizing s with
  | nil => exact walks_pure (hQ s hs)
  | cons b bs ih =>
    refine walks_bind (hf b List.mem_cons_self s hs) fun _ s' hs' => ?_
    exact ih hs' fun c hc => hf c (List.mem_cons_of_mem b hc)

/-! ## Actions within a relation -/

/-- Whatever the state it starts in, `x` takes small steps of `m`. -/
def Within (m : σ → List ω → σ → Prop) (x : Act σ ω ε α) : Prop :=
  ∀ s, Walks m x s fun _ _ => True

section Within

variable {x : Act σ ω ε α}

theorem within_pure (a : α) : Within m (pure a : Act σ ω ε α) := fun _ => walks_pure trivial

theorem within_get : Within m (get : Act σ ω ε σ) := fun _ => walks_get trivial

theorem within_throw (e : ε) : Within m (throw e : Act σ ω ε α) := fun _ => walks_throw

theorem within_modify {f : σ → σ} (h : ∀ s, m s [] (f s)) :
    Within m (modify f : Act σ ω ε Unit) :=
  fun s => walks_modify (h s) trivial

theorem within_emit {e : ω} (h : ∀ s, m s [e] s) : Within m (emit e : Act σ ω ε Unit) :=
  fun s => walks_emit (h s) trivial

theorem Within.bind {f : α → Act σ ω ε β} (hx : Within m x) (hf : ∀ a, Within m (f a)) :
    Within m (x >>= f) :=
  fun s => walks_bind (hx s) fun a s' _ => hf a s'

theorem within_modify_bind {g : σ → σ} {f : Unit → Act σ ω ε β} (h : ∀ s, m s [] (g s))
    (hf : Within m (f ())) : Within m (modify g >>= f) :=
  (within_modify h).bind fun _ => hf

theorem within_emit_bind {e : ω} {f : Unit → Act σ ω ε β} (h : ∀ s, m s [e] s)
    (hf : Within m (f ())) : Within m (emit e >>= f) :=
  (within_emit h).bind fun _ => hf

theorem within_ite {c : Prop} [Decidable c] {y : Act σ ω ε α} (hx : Within m x)
    (hy : Within m y) : Within m (if c then x else y) :=
  fun s => walks_ite (fun _ => hx s) fun _ => hy s

theorem within_when {c : Prop} [Decidable c] {x : Act σ ω ε Unit} (hx : Within m x) :
    Within m (when c x) :=
  within_ite hx (within_pure ())

theorem within_each {f : β → Act σ ω ε Unit} (hf : ∀ b, Within m (f b)) (bs : List β) :
    Within m (each f bs) := by
  induction bs with
  | nil => exact within_pure ()
  | cons b bs ih => exact (hf b).bind fun _ => ih

/-- An action that starts by reading the state, looked at in each state on its own. -/
theorem within_get_bind {f : σ → Act σ ω ε α} (h : ∀ s, Walks m (f s) s fun _ _ => True) :
    Within m (get >>= f) :=
  fun s => walks_get_bind (h s)

end Within

/-! ## Exceptions -/

/-- Every exception that `x` ends with satisfies `E`. -/
def Raises (E : ε → Prop) (x : Act σ ω ε α) : Prop := ∀ s e, (x s).result = .error e → E e

section Raises

variable {E : ε → Prop}

theorem raises_pure (a : α) : Raises E (pure a : Act σ ω ε α) := fun _ _ h => by cases h

theorem raises_get : Raises E (get : Act σ ω ε σ) := fun _ _ h => by cases h

theorem raises_modify (f : σ → σ) : Raises E (modify f : Act σ ω ε Unit) := fun _ _ h => by cases h

theorem raises_emit (o : ω) : Raises E (emit o : Act σ ω ε Unit) := fun _ _ h => by cases h

theorem raises_throw {e : ε} (h : E e) : Raises E (throw e : Act σ ω ε α) := by
  intro _ e' he
  cases he
  exact h

theorem Raises.bind {x : Act σ ω ε α} {f : α → Act σ ω ε β} (hx : Raises E x)
    (hf : ∀ a, Raises E (f a)) : Raises E (x >>= f) := by
  intro s e he
  replace he : (Act.bind x f s).result = .error e := he
  have hxs := hx s
  unfold Act.bind at he
  cases h : x s with
  | mk result s' o =>
    rw [h] at he hxs
    cases result with
    | ok a => exact hf a s' e he
    | error e' =>
      cases he
      exact hxs e rfl

theorem raises_ite {c : Prop} [Decidable c] {x y : Act σ ω ε α} (hx : Raises E x)
    (hy : Raises E y) : Raises E (if c then x else y) := by
  split
  · exact hx
  · exact hy

theorem raises_when {c : Prop} [Decidable c] {x : Act σ ω ε Unit} (hx : Raises E x) :
    Raises E (when c x) :=
  raises_ite hx (raises_pure ())

theorem raises_catching {x : Act σ ω ε α} {h : ε → Act σ ω ε α} (hh : ∀ e, Raises E (h e)) :
    Raises E (catching x h) := by
  intro s e he
  unfold catching at he
  cases hx : x s with
  | mk result s' o =>
    rw [hx] at he
    cases result with
    | ok a => cases he
    | error e' => exact hh e' s' e he

end Raises

/-- Run from `s`, an exception of `x` satisfies `E`, and a result satisfies `Q`. -/
def Ends (E : ε → Prop) (x : Act σ ω ε α) (s : σ) (Q : α → σ → Prop) : Prop :=
  (∀ e, (x s).result = .error e → E e) ∧ ∀ a, (x s).result = .ok a → Q a (x s).state

section Ends

variable {E : ε → Prop} {s : σ}

theorem Ends.weaken {x : Act σ ω ε α} {Q R : α → σ → Prop} (h : Ends E x s R)
    (hQ : ∀ a s', R a s' → Q a s') : Ends E x s Q :=
  ⟨h.1, fun a ha => hQ a _ (h.2 a ha)⟩

theorem Raises.ends {x : Act σ ω ε α} (h : Raises E x) : Ends E x s fun _ _ => True :=
  ⟨h s, fun _ _ => trivial⟩

theorem ends_pure {a : α} {Q : α → σ → Prop} (h : Q a s) : Ends E (pure a : Act σ ω ε α) s Q :=
  ⟨raises_pure a s, fun b hb => by cases hb; exact h⟩

theorem ends_throw {e : ε} {Q : α → σ → Prop} (h : E e) : Ends E (throw e : Act σ ω ε α) s Q :=
  ⟨raises_throw h s, fun _ hb => by cases hb⟩

theorem ends_modify {f : σ → σ} {Q : Unit → σ → Prop} (h : Q () (f s)) :
    Ends E (modify f : Act σ ω ε Unit) s Q :=
  ⟨raises_modify f s, fun _ hb => by cases hb; exact h⟩

theorem ends_emit {o : ω} {Q : Unit → σ → Prop} (h : Q () s) :
    Ends E (emit o : Act σ ω ε Unit) s Q :=
  ⟨raises_emit o s, fun _ hb => by cases hb; exact h⟩

theorem ends_bind {x : Act σ ω ε α} {f : α → Act σ ω ε β} {R : α → σ → Prop} {Q : β → σ → Prop}
    (hx : Ends E x s R) (hf : ∀ a s', R a s' → Ends E (f a) s' Q) : Ends E (x >>= f) s Q := by
  show Ends E (Act.bind x f) s Q
  obtain ⟨he, hr⟩ := hx
  unfold Ends Act.bind
  cases hxs : x s with
  | mk result s' o =>
    rw [hxs] at he hr
    cases result with
    | ok a => exact hf a s' (hr a rfl)
    | error e =>
      refine ⟨fun e' h => ?_, fun _ hb => by cases hb⟩
      cases h
      exact he e rfl

theorem ends_get_bind {f : σ → Act σ ω ε β} {Q : β → σ → Prop} (h : Ends E (f s) s Q) :
    Ends E (get >>= f) s Q := h

theorem ends_modify_bind {g : σ → σ} {f : Unit → Act σ ω ε β} {Q : β → σ → Prop}
    (h : Ends E (f ()) (g s) Q) : Ends E (modify g >>= f) s Q := h

theorem ends_ite {c : Prop} [Decidable c] {x y : Act σ ω ε α} {Q : α → σ → Prop}
    (hx : c → Ends E x s Q) (hy : ¬c → Ends E y s Q) : Ends E (if c then x else y) s Q := by
  split
  · exact hx ‹_›
  · exact hy ‹_›

theorem ends_when {c : Prop} [Decidable c] {x : Act σ ω ε Unit} {Q : Unit → σ → Prop}
    (hx : c → Ends E x s Q) (hy : ¬c → Q () s) : Ends E (when c x) s Q :=
  ends_ite hx fun hc => ends_pure (hy hc)

/-- A loop keeps what each of its rounds keeps. -/
theorem ends_each {f : β → Act σ ω ε Unit} {I : σ → Prop} (bs : List β) (hs : I s)
    (hf : ∀ b s', I s' → Ends E (f b) s' fun _ => I) : Ends E (each f bs) s fun _ => I := by
  induction bs generalizing s with
  | nil => exact ends_pure hs
  | cons b bs ih => exact ends_bind (hf b s hs) fun _ s' hs' => ih hs'

end Ends

/-! ## Runs without an exception -/

/-- Running `x` from `s` returns `a` in state `s'` with outputs `o`. -/
def Runs (x : Act σ ω ε α) (s : σ) (a : α) (s' : σ) (o : List ω) : Prop := x s = ⟨.ok a, s', o⟩

section Runs

variable {s s' s'' : σ} {a : α} {o o' : List ω}

theorem runs_pure : Runs (pure a : Act σ ω ε α) s a s [] := rfl

theorem runs_modify {f : σ → σ} : Runs (modify f : Act σ ω ε Unit) s () (f s) [] := rfl

theorem runs_emit {e : ω} : Runs (emit e : Act σ ω ε Unit) s () s [e] := rfl

theorem Runs.bind {x : Act σ ω ε α} {f : α → Act σ ω ε β} {b : β} (hx : Runs x s a s' o)
    (hf : Runs (f a) s' b s'' o') : Runs (x >>= f) s b s'' (o ++ o') := by
  show Act.bind x f s = _
  unfold Act.bind
  rw [hx]
  show Outcome.mk _ _ _ = _
  rw [hf]

/-- After `x` comes what `f` does from there. -/
theorem Runs.bind_eq {x : Act σ ω ε α} (hx : Runs x s a s' o) (f : α → Act σ ω ε β) :
    (x >>= f) s = ⟨(f a s').result, (f a s').state, o ++ (f a s').out⟩ := by
  show Act.bind x f s = _
  unfold Act.bind
  rw [hx]

theorem Runs.modify_bind {g : σ → σ} {f : Unit → Act σ ω ε α} (h : Runs (f ()) (g s) a s' o) :
    Runs (modify g >>= f) s a s' o :=
  h

theorem Runs.get_bind {f : σ → Act σ ω ε α} (h : Runs (f s) s a s' o) :
    Runs (get >>= f) s a s' o :=
  h

theorem Runs.of_pos {c : Prop} [Decidable c] {x y : Act σ ω ε α} (hc : c) (h : Runs x s a s' o) :
    Runs (if c then x else y) s a s' o := by
  rw [if_pos hc]
  exact h

theorem Runs.of_neg {c : Prop} [Decidable c] {x y : Act σ ω ε α} (hc : ¬c) (h : Runs y s a s' o) :
    Runs (if c then x else y) s a s' o := by
  rw [if_neg hc]
  exact h

theorem Runs.ends {E : ε → Prop} {x : Act σ ω ε α} {Q : α → σ → Prop} (hx : Runs x s a s' o)
    (h : Q a s') : Ends E x s Q := by
  unfold Ends
  rw [hx]
  refine ⟨nofun, fun _ hb => ?_⟩
  cases hb
  exact h

/-- A run that is a single small step. -/
theorem Runs.walks {x : Act σ ω ε α} {Q : α → σ → Prop} (hx : Runs x s a s' o) (hm : m s o s')
    (h : Q a s') : Walks m x s Q := by
  unfold Walks
  rw [hx]
  exact ⟨.single hm, fun _ hb => by cases hb; exact h⟩

end Runs

end Act

/-! ## Protocols on outputs -/

/-- A protocol with steps `R` reads outputs in a row. -/
inductive Reads {π ω : Type} (R : π → ω → π → Prop) : π → List ω → π → Prop
  | nil (p : π) : Reads R p [] p
  | cons {p q r : π} {e : ω} {es : List ω} (h : R p e q) (hes : Reads R q es r) :
      Reads R p (e :: es) r

namespace Reads

variable {π ω : Type} {R : π → ω → π → Prop} {p q r : π} {es es' : List ω}

theorem single {e : ω} (h : R p e q) : Reads R p [e] q := .cons h (.nil q)

theorem append (h : Reads R p es q) (h' : Reads R q es' r) : Reads R p (es ++ es') r := by
  induction h with
  | nil => exact h'
  | cons h _ ih => exact .cons h (ih h')

/-- A protocol that has read all has read the first part. -/
theorem split (h : Reads R p (es ++ es') r) : ∃ q, Reads R p es q ∧ Reads R q es' r := by
  induction es generalizing p with
  | nil => exact ⟨p, .nil p, h⟩
  | cons e es ih =>
    cases h with
    | cons hstep hrest =>
      obtain ⟨q, hq, hr⟩ := ih hrest
      exact ⟨q, .cons hstep hq, hr⟩

/-- Outputs that leave the protocol where it is. -/
theorem idle (h : ∀ e ∈ es, R p e p) : Reads R p es p := by
  induction es with
  | nil => exact .nil p
  | cons e es ih => exact .cons (h e (by simp)) (ih fun e' he' => h e' (by simp [he']))

/-- Outputs that the protocol passes over may be left out. -/
theorem of_filter {f : ω → Bool} (hf : ∀ p e, f e = false → R p e p)
    (h : Reads R p (es.filter f) q) : Reads R p es q := by
  induction es generalizing p with
  | nil => exact h
  | cons e es ih =>
    cases he : f e with
    | false =>
      rw [List.filter_cons_of_neg (by simp [he])] at h
      exact .cons (hf p e he) (ih h)
    | true =>
      rw [List.filter_cons_of_pos he] at h
      cases h with
      | cons hstep hes => exact .cons hstep (ih hes)

end Reads
