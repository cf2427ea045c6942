import EnclaveRaft.Walks

/-!
# From small steps to runs

What each small step of a handler preserves, a whole event preserves, and so does every run. An
input is `Legit` when the cluster's messages account for it, which stays true as messages are
added.

`Meets C c es` says that along the run `es` from `c` every event is handled in a state where `C`
allows it.
-/

namespace EnclaveRaft

open Act

/-- The input of the event, if it has one, is one that `K` allows. -/
def Event.Allowed (K : Cluster → Int → Input → Prop) (c : Cluster) (e : Event) : Prop :=
  ∀ i inp k, e.input c = some (i, inp, k) → K c i inp

instance Event.decidableAllowed (K : Cluster → Int → Input → Prop)
    [∀ c i inp, Decidable (K c i inp)] (c : Cluster) (e : Event) : Decidable (e.Allowed K c) :=
  match h : e.input c with
  | some (i, inp, _) => decidable_of_iff (K c i inp)
      ⟨fun hK i' inp' k' h' => by cases h.symm.trans h'; exact hK, fun hA => hA i inp _ h⟩
  | none => isTrue fun _ _ _ h' => by cases h.symm.trans h'

namespace Cluster

variable {ctx : Context} {c c' : Cluster} {i : Int} {inp : Input}

/-! ## Messages on record -/

/-- `resp` is a response to the request `rpc`. -/
def RespTo (c : Cluster) (rpc : Rpc) (resp : RespMsg) : Prop :=
  ∃ k, c.rpcs[k]? = some rpc ∧ (k, resp) ∈ c.resps

/-- The cluster's messages account for an input of server `i`. -/
def Legit (c : Cluster) (i : Int) : Input → Prop
  | .request req _ => (∃ rpc ∈ c.rpcs, rpc.req = req ∧ rpc.target = i) ∨
      (∃ logs, req = clientReq logs) ∨ (∃ srv, req = addSrvReq srv) ∨ ∃ id, req = removeSrvReq id
  | .response rpc resp _ => c.RespTo rpc resp ∧ rpc.req.src = i
  | .failure rpc => rpc ∈ c.rpcs ∧ rpc.req.src = i
  | .resend rpc => rpc ∈ c.retries ∧ rpc.req.src = i
  | _ => True

/-- Messages are only added. -/
structure Grows (c c' : Cluster) : Prop where
  rpcs : c.rpcs <+: c'.rpcs
  resps : c.resps <+: c'.resps
  retries : c.retries <+: c'.retries

theorem grows_update (c : Cluster) (i : Int) (s : Server) (o : List Effect) :
    c.Grows (c.update i s o) :=
  ⟨List.prefix_append _ _, List.prefix_refl _, List.prefix_append _ _⟩

theorem mem_update_rpcs {s : Server} {o : List Effect} {rpc : Rpc}
    (h : rpc ∈ (c.update i s o).rpcs) : rpc ∈ c.rpcs ∨ .send rpc ∈ o := by
  refine (List.mem_append.1 h).imp_right fun h => ?_
  obtain ⟨e, he, hsent⟩ := List.mem_filterMap.1 h
  cases e <;> cases hsent
  exact he

theorem mem_update_retries {s : Server} {o : List Effect} {rpc : Rpc}
    (h : rpc ∈ (c.update i s o).retries) : rpc ∈ c.retries ∨ .retry rpc ∈ o := by
  refine (List.mem_append.1 h).imp_right fun h => ?_
  obtain ⟨e, he, hsent⟩ := List.mem_filterMap.1 h
  cases e <;> cases hsent
  exact he

theorem mem_update_processed {s : Server} {o : List Effect} {p : Int × Nat × LogEntry}
    (h : p ∈ (c.update i s o).processed) :
    p ∈ c.processed ∨ (p.1 = i ∧ .process p.2.1 p.2.2 ∈ o) := by
  refine (List.mem_append.1 h).imp_right fun h => ?_
  obtain ⟨q, hq, rfl⟩ := List.mem_map.1 h
  obtain ⟨e, he, hproc⟩ := List.mem_filterMap.1 hq
  cases e <;> cases hproc
  exact ⟨rfl, he⟩

theorem Grows.refl (c : Cluster) : c.Grows c :=
  ⟨List.prefix_refl _, List.prefix_refl _, List.prefix_refl _⟩

theorem Grows.trans {c'' : Cluster} (h : c.Grows c') (h' : c'.Grows c'') : c.Grows c'' :=
  ⟨h.rpcs.trans h'.rpcs, h.resps.trans h'.resps, h.retries.trans h'.retries⟩

theorem Grows.getElem? (h : c.Grows c') {k : Nat} {rpc : Rpc} (hk : c.rpcs[k]? = some rpc) :
    c'.rpcs[k]? = some rpc := by
  obtain ⟨l, hl⟩ := h.rpcs
  rw [← hl, List.getElem?_append_left (List.getElem?_eq_some_iff.1 hk).1, hk]

theorem RespTo.mono {rpc : Rpc} {resp : RespMsg} (h : c.RespTo rpc resp) (hg : c.Grows c') :
    c'.RespTo rpc resp := by
  obtain ⟨k, hk, hr⟩ := h
  exact ⟨k, hg.getElem? hk, hg.resps.subset hr⟩

theorem Legit.mono (h : c.Legit i inp) (hg : c.Grows c') : c'.Legit i inp := by
  cases inp with
  | request req now =>
    exact h.imp_left fun ⟨rpc, hmem, hreq⟩ => ⟨rpc, hg.rpcs.subset hmem, hreq⟩
  | response rpc resp now => exact ⟨h.1.mono hg, h.2⟩
  | failure rpc => exact ⟨hg.rpcs.subset h.1, h.2⟩
  | resend rpc => exact ⟨hg.retries.subset h.1, h.2⟩
  | _ => trivial

/-- Inputs come from messages on record, and what is answered is a request on record. -/
theorem legit_of_input {e : Event} {k : Option Nat} (h : e.input c = some (i, inp, k)) :
    c.Legit i inp ∧ ∀ n, k = some n →
      ∃ rpc now, c.rpcs[n]? = some rpc ∧ inp = .request rpc.req now ∧ i = rpc.target := by
  cases e with
  | electionTimeout j => cases h; exact ⟨trivial, nofun⟩
  | hbTimeout j uid => cases h; exact ⟨trivial, nofun⟩
  | client j logs now => cases h; exact ⟨.inr (.inl ⟨logs, rfl⟩), nofun⟩
  | addServer j srv => cases h; exact ⟨.inr (.inr (.inl ⟨srv, rfl⟩)), nofun⟩
  | removeServer j id => cases h; exact ⟨.inr (.inr (.inr ⟨id, rfl⟩)), nofun⟩
  | deliver n now =>
    obtain ⟨rpc, hrpc, heq⟩ := Option.map_eq_some_iff.1 h
    cases heq
    refine ⟨.inl ⟨rpc, List.mem_of_getElem? hrpc, rfl, rfl⟩, ?_⟩
    rintro _ ⟨⟩
    exact ⟨rpc, now, hrpc, rfl, rfl⟩
  | respond n now =>
    simp only [Event.input, Option.bind_eq_bind, Option.bind_eq_some_iff] at h
    obtain ⟨⟨m, resp⟩, hresp, rpc, hrpc, heq⟩ := h
    cases heq
    exact ⟨⟨⟨m, hrpc, List.mem_of_getElem? hresp⟩, rfl⟩, nofun⟩
  | fail n =>
    obtain ⟨rpc, hrpc, heq⟩ := Option.map_eq_some_iff.1 h
    cases heq
    exact ⟨⟨List.mem_of_getElem? hrpc, rfl⟩, nofun⟩
  | resend n =>
    obtain ⟨rpc, hrpc, heq⟩ := Option.map_eq_some_iff.1 h
    cases heq
    exact ⟨⟨List.mem_of_getElem? hrpc, rfl⟩, nofun⟩
  | commitBg j => cases h; exact ⟨trivial, nofun⟩

theorem input_electionTimeout {e : Event} {k : Option Nat}
    (h : e.input c = some (i, .electionTimeout, k)) : e = .electionTimeout i := by
  cases e with
  | electionTimeout j => cases h; rfl
  | respond n now =>
    simp only [Event.input, Option.bind_eq_bind, Option.bind_eq_some_iff] at h
    obtain ⟨_, -, _, -, heq⟩ := h
    cases heq
  | deliver n _ | fail n | resend n =>
    obtain ⟨_, -, heq⟩ := Option.map_eq_some_iff.1 h
    cases heq
  | _ => cases h

/-! ## Events -/

theorem update_self (c : Cluster) (i : Int) : c.update i (c.servers i) [] = c := by
  have h : (fun j => if j = i then c.servers i else c.servers j) = c.servers := by
    funext j; split
    · next h => rw [h]
    · rfl
  simp [update, h]

theorem update_update (c : Cluster) (i : Int) (s s' : Server) (o o' : List Effect) :
    (c.update i s o).update i s' o' = c.update i s' (o ++ o') := by
  have h : (fun j => if j = i then s' else if j = i then s else c.servers j) =
      fun j => if j = i then s' else c.servers j := by
    funext j; split <;> rfl
  simp [update, h]

@[simp] theorem update_servers_self (c : Cluster) (i : Int) (s : Server) (o : List Effect) :
    (c.update i s o).servers i = s := if_pos rfl

/-! ## Responses belong to requests on record -/

/-- Every response answers a request that was sent. -/
def Numbered (c : Cluster) : Prop := ∀ p ∈ c.resps, p.1 < c.rpcs.length

theorem Numbered.update (h : c.Numbered) (i : Int) (s : Server) (o : List Effect) :
    (c.update i s o).Numbered := fun p hp => by
  simpa [Cluster.update] using Nat.lt_add_right _ (h p hp)

theorem Numbered.answer (h : c.Numbered) {k : Nat} {rpc : Rpc} (hk : c.rpcs[k]? = some rpc)
    (resp : RespMsg) : (c.answer k resp).Numbered := fun p hp => by
  rcases List.mem_append.1 hp with hp | hp
  · exact h p hp
  · rw [List.mem_singleton.1 hp]
    exact (List.getElem?_eq_some_iff.1 hk).1

/-- Requests that are sent later have no response yet. -/
theorem RespTo.of_update (hnum : c.Numbered) {s : Server} {o : List Effect} {rpc : Rpc}
    {resp : RespMsg} (h : (c.update i s o).RespTo rpc resp) : c.RespTo rpc resp := by
  obtain ⟨k, hk, hr⟩ := h
  refine ⟨k, ?_, hr⟩
  rwa [Cluster.update, List.getElem?_append_left (hnum _ hr)] at hk

theorem RespTo.of_answer {k : Nat} {resp' : RespMsg} {rpc : Rpc} {resp : RespMsg}
    (h : (c.answer k resp').RespTo rpc resp) :
    c.RespTo rpc resp ∨ (c.rpcs[k]? = some rpc ∧ resp = resp') := by
  obtain ⟨n, hn, hr⟩ := h
  rcases List.mem_append.1 hr with hr | hr
  · exact .inl ⟨n, hn, hr⟩
  · cases List.mem_singleton.1 hr
    exact .inr ⟨hn, rfl⟩

/-- What every small step preserves holds at the end of a sequence of them. -/
theorem inv_path {I : Cluster → Prop} {m : Server → List Effect → Server → Prop}
    (hstep : ∀ c o s', I c → m (c.servers i) o s' → I (c.update i s' o)) {s s' : Server}
    {o : List Effect} (hp : Path m s o s') (c : Cluster) (hs : c.servers i = s) (hI : I c) :
    I (c.update i s' o) := by
  induction hp generalizing c with
  | nil s => rw [← hs, update_self]; exact hI
  | @cons s s₁ s₂ o o' h₁ _ ih =>
    rw [← update_update c i s₁]
    exact ih _ (update_servers_self c i s₁ o) (hstep c o s₁ hI (hs ▸ h₁))

/-- **Events.** An invariant that every small step keeps, and that recording the response keeps,
is kept by taking an input. `L` is what is known of the input, which messages being added does
not change. -/
theorem inv_take {I L : Cluster → Prop} {k : Option Nat} (hL : L c)
    (hmono : ∀ c s o, L c → L (c.update i s o))
    (hstep : ∀ c' o s', I c' → L c' → Micro ctx inp (c.servers i) (c'.servers i) o s' →
      I (c'.update i s' o))
    (hresp : ∀ c' n resp, I c' → L c' → k = some n →
      Answered (c.servers i) inp (some resp) (c'.servers i) → I (c'.answer n resp))
    (hI : I c) : I (c.take ctx i inp k) := by
  obtain ⟨hpath, hans⟩ := walks_handle ctx inp (c.servers i)
  have hend := inv_path (I := fun c => I c ∧ L c) (fun c' o s' h hm =>
    ⟨hstep c' o s' h.1 h.2 hm, hmono c' s' o h.2⟩) hpath c rfl ⟨hI, hL⟩
  unfold take
  dsimp only
  split
  next resp n hres =>
    refine hresp _ n resp hend.1 hend.2 rfl ?_
    rw [update_servers_self]
    exact hans _ hres
  next => exact hend.1

theorem take_servers (ctx : Context) (c : Cluster) (i : Int) (inp : Input) (k : Option Nat) :
    (c.take ctx i inp k).servers i = (inp.handle ctx (c.servers i)).state := by
  unfold take
  dsimp only
  split
  · exact update_servers_self c i _ (inp.handle ctx (c.servers i)).out
  · exact update_servers_self c i _ (inp.handle ctx (c.servers i)).out

theorem take_servers_ne (ctx : Context) (c : Cluster) {i j : Int} (inp : Input)
    (k : Option Nat) (h : i ≠ j) : (c.take ctx j inp k).servers i = c.servers i := by
  unfold take
  dsimp only
  split <;> exact if_neg h

/-- What the delivery of a request makes of its target. -/
theorem step_deliver {k : Nat} {rpc : Rpc} (hk : c.rpcs[k]? = some rpc) (now : Int) :
    (c.step ctx (.deliver k now)).servers rpc.target =
      (processReq ctx rpc.req now (c.servers rpc.target)).state := by
  have hin : (Event.deliver k now).input c = some (rpc.target, .request rpc.req now, some k) := by
    simp [Event.input, hk]
  unfold step
  rw [hin]
  exact (take_servers ctx c _ _ _).trans (bind_pure_state _ _ _)

/-- **Steps.** An invariant is kept by an event if the small steps and the responses of the
server concerned keep it. -/
theorem inv_step {I : Cluster → Prop} {e : Event}
    (hstep : ∀ c' i inp k o s', e.input c = some (i, inp, k) → c.Grows c' → c'.Legit i inp →
      I c' → Micro ctx inp (c.servers i) (c'.servers i) o s' → I (c'.update i s' o))
    (hresp : ∀ c' rpc now n resp,
      e.input c = some (rpc.target, .request rpc.req now, some n) → c.Grows c' →
      c'.Legit rpc.target (.request rpc.req now) → I c' → c'.rpcs[n]? = some rpc →
      Replied (c.servers rpc.target) rpc.req resp (c'.servers rpc.target) →
      I (c'.answer n resp))
    (hI : I c) : I (c.step ctx e) := by
  unfold step
  split
  next i inp k hin =>
    obtain ⟨hlegit, hans⟩ := legit_of_input hin
    let L := fun c' : Cluster => c.Grows c' ∧ c'.Legit i inp ∧ ∀ n, k = some n →
      ∃ rpc now, c'.rpcs[n]? = some rpc ∧ inp = .request rpc.req now ∧ i = rpc.target
    refine inv_take (L := L) ⟨.refl c, hlegit, hans⟩ ?_ ?_ ?_ hI
    · rintro c' s o ⟨hg, hl, hn⟩
      have hg' := grows_update c' i s o
      refine ⟨hg.trans hg', hl.mono hg', fun n hkn => ?_⟩
      obtain ⟨rpc, now, hrpc, h⟩ := hn n hkn
      exact ⟨rpc, now, hg'.getElem? hrpc, h⟩
    · rintro c' o s' hI' ⟨hg, hl, -⟩ hm
      exact hstep c' i inp k o s' hin hg hl hI' hm
    · rintro c' n resp hI' ⟨hg, hl, hn⟩ hkn hrep
      obtain ⟨rpc, now, hrpc, rfl, rfl⟩ := hn n hkn
      exact hresp c' rpc now n resp (hkn ▸ hin) hg hl hI' hrpc (hrep rpc.req now resp rfl rfl)
  next => exact hI

/-! ## Runs -/

/-- Every event of the run is handled in a state where `C` allows it. -/
def Meets (ctx : Context) (C : Cluster → Event → Prop) (c : Cluster) : List Event → Prop
  | [] => True
  | e :: es => C c e ∧ (c.step ctx e).Meets ctx C es

instance decidableMeets (ctx : Context) (C : Cluster → Event → Prop)
    [∀ c e, Decidable (C c e)] : (c : Cluster) → (es : List Event) → Decidable (c.Meets ctx C es)
  | _, [] => instDecidableTrue
  | c, e :: es =>
    let _ := decidableMeets ctx C (c.step ctx e) es
    inferInstanceAs (Decidable (C c e ∧ (c.step ctx e).Meets ctx C es))

theorem inv_run {I : Cluster → Prop} {C : Cluster → Event → Prop}
    (hstep : ∀ c e, I c → C c e → I (c.step ctx e)) {es : List Event} (hI : I c)
    (hC : c.Meets ctx C es) : I (c.run ctx es) := by
  induction es generalizing c with
  | nil => exact hI
  | cons e es ih => exact ih (hstep c e hI hC.1) hC.2

theorem run_append (ctx : Context) (c : Cluster) (es es' : List Event) :
    c.run ctx (es ++ es') = (c.run ctx es).run ctx es' := List.foldl_append

theorem meets_append {C : Cluster → Event → Prop} {es es' : List Event} :
    c.Meets ctx C (es ++ es') ↔ c.Meets ctx C es ∧ (c.run ctx es).Meets ctx C es' := by
  induction es generalizing c with
  | nil => simp [Meets, run]
  | cons e es ih => simp [Meets, ih, run, and_assoc]

/-- A condition that does not look at the state. -/
theorem meets_of_forall {P : Event → Prop} {es : List Event} (h : ∀ e ∈ es, P e) :
    c.Meets ctx (fun _ => P) es := by
  induction es generalizing c with
  | nil => trivial
  | cons e es ih =>
    rw [List.forall_mem_cons] at h
    exact ⟨h.1, ih h.2⟩

/-- A condition that follows from what the run keeps. -/
theorem Meets.of_inv {I : Cluster → Prop} {C C' : Cluster → Event → Prop} {es : List Event}
    (hC : c.Meets ctx C es) (hstep : ∀ c e, I c → C c e → I (c.step ctx e))
    (h : ∀ c e, I c → C c e → C' c e) (hI : I c) : c.Meets ctx C' es := by
  induction es generalizing c with
  | nil => trivial
  | cons e es ih => exact ⟨h c e hI hC.1, ih hC.2 (hstep c e hI hC.1)⟩

theorem Meets.mono {C C' : Cluster → Event → Prop} (h : ∀ c e, C c e → C' c e)
    {es : List Event} (hC : c.Meets ctx C es) : c.Meets ctx C' es := by
  induction es generalizing c with
  | nil => trivial
  | cons e es ih => exact ⟨h c e hC.1, ih hC.2⟩

end Cluster

end EnclaveRaft
