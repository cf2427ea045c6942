import EnclaveRaft.Lib.History

/-!
# Leader completeness

In a history whose voters vote for nobody that is behind them, a prefix that most nodes
acknowledged under the leader that created its last entry is *chosen*: every later leader has it
(`Strong.complete`), so any two chosen prefixes agree (`Strong.chosen_comparable`).

The invariant `Strong` follows an acknowledged prefix. A node keeps it until the leader of a later
term, which lacks it, makes the node give it up; what a node has when it votes, the candidate it
votes for has as well; so a leader's voters vouch that what they acknowledged earlier is in the
leader's log, unless a leader in between lacked it. Strong induction on the term rules that out
for chosen prefixes.

`Safe` is what a node may take for committed, and survives every step.
-/

namespace History

variable {N E : Type} {termOf : E → Nat} {H H' : History N E} {nodes : List N}

/-- The last entry of `p` is of the term `t`. -/
def EndsIn (termOf : E → Nat) (t : Nat) (p : List E) : Prop := ∃ q e, p = q ++ [e] ∧ termOf e = t

/-- Under the leader of the term `t`, which created the last entry of `p`, the node `n` has
acknowledged `p`. -/
structure Acked (termOf : E → Nat) (H : History N E) (n : N) (t : Nat) (p : List E) : Prop where
  ends : EndsIn termOf t p
  led : ∃ m L, H.lead t = some (m, L) ∧ p <+: L
  le : p.length ≤ H.acked n t

/-- The leader of the term `t` does not have `p`. -/
def Lost (H : History N E) (t : Nat) (p : List E) : Prop := ∃ m L, H.lead t = some (m, L) ∧ ¬p <+: L

/-- The log `l` has `p`, or a leader of a term between `t` and `t'` has not. -/
def Carries (H : History N E) (t t' : Nat) (p l : List E) : Prop :=
  p <+: l ∨ ∃ t'', t < t'' ∧ t'' < t' ∧ H.Lost t'' p

/-- Acknowledged prefixes stay on the way to later leaders. -/
structure Strong (nodes : List N) (termOf : E → Nat) (H : History N E) : Prop where
  base : Base nodes termOf H
  kept : ∀ n t p, Acked termOf H n t p → H.Carries t (H.term n + 1) p (H.log n)
  voted : ∀ n t c l, H.lead t = none → H.vote n t = some c → H.stood t c = some l →
    ∀ s < t, ∀ p, Acked termOf H n s p → H.Carries s t p l
  elected : ∀ t n L, H.lead t = some (n, L) → Majority nodes fun v => t ≤ H.term v ∧
    ∀ s < t, ∀ p, Acked termOf H v s p → H.Carries s t p L

/-- Most nodes have acknowledged `p` under the leader that created its last entry. -/
def Chosen (nodes : List N) (termOf : E → Nat) (H : History N E) (t : Nat) (p : List E) : Prop :=
  Majority nodes fun n => Acked termOf H n t p

/-! ## Chosen prefixes -/

namespace Strong

variable {n : N} {t t' : Nat} {p p' L : List E}

theorem chosen_led (hc : Chosen nodes termOf H t p) (hL : H.lead t = some (n, L)) : p <+: L := by
  obtain ⟨v, -, hv⟩ := hc.exists_mem
  obtain ⟨m, L', hL', hp⟩ := hv.led
  cases hL.symm.trans hL'
  exact hp

/-- **Leader completeness.** Every later leader has the chosen prefixes. -/
theorem complete (h : Strong nodes termOf H) (hc : Chosen nodes termOf H t p) (ht : t ≤ t')
    (hL : H.lead t' = some (n, L)) : p <+: L := by
  induction t' using Nat.strong_induction_on generalizing n L with
  | _ t' ih =>
    rcases ht.eq_or_lt with rfl | hlt
    · exact chosen_led hc hL
    -- a node that acknowledged `p` and voted for the leader
    obtain ⟨v, -, hv, -, hvouch⟩ := Majority.inter hc (h.elected t' n L hL)
    rcases hvouch t hlt p hv with hp | ⟨t'', htt, hlt', m, L', hL', hno⟩
    · exact hp
    · exact (hno (ih t'' hlt' htt.le hL')).elim

/-- **Chosen prefixes agree.** -/
theorem chosen_comparable (h : Strong nodes termOf H) (hc : Chosen nodes termOf H t p)
    (hc' : Chosen nodes termOf H t' p') : p <+: p' ∨ p' <+: p := by
  wlog hle : t ≤ t' generalizing t t' p p'
  · exact (this hc' hc (Nat.le_of_not_le hle)).symm
  obtain ⟨v, -, hv⟩ := hc'.exists_mem
  obtain ⟨m, L, hL, hp'⟩ := hv.led
  exact List.prefix_or_prefix_of_prefix (h.complete hc hle hL) hp'

end Strong

/-! ## Steps -/

theorem EndsIn.le_of_mem {t : Nat} {p : List E} {a : E} (h : EndsIn termOf t p)
    (ho : Ordered termOf p) (ha : a ∈ p) : termOf a ≤ t := by
  obtain ⟨q, e, rfl, rfl⟩ := h
  exact ho.le_last ha

theorem EndsIn.length_pos {t : Nat} {p : List E} (h : EndsIn termOf t p) : 0 < p.length := by
  obtain ⟨q, e, rfl, -⟩ := h
  simp

theorem EndsIn.unique {t t' : Nat} {p : List E} (h : EndsIn termOf t p)
    (h' : EndsIn termOf t' p) : t = t' := by
  obtain ⟨q, e, rfl, rfl⟩ := h
  obtain ⟨q', e', heq, rfl⟩ := h'
  rw [(List.append_inj' heq rfl).2 |> List.singleton_inj.1]

theorem Ordered.le_lastTerm {l : List E} {a : E} (h : Ordered termOf l) (ha : a ∈ l) :
    termOf a ≤ lastTerm termOf l := by
  rcases List.eq_nil_or_concat l with rfl | ⟨q, e, rfl⟩
  · cases ha
  · rw [List.concat_eq_append] at h ha ⊢
    rw [lastTerm_concat]
    exact h.le_last ha

/-- A candidate that is not behind a voter which has `p` has it as well, unless the leader that
created its last entry lacked `p`. -/
theorem Base.carries_of_upToDate (h : Base nodes termOf H) {s t : Nat} {n c : N} {p l : List E}
    (ha : Acked termOf H n s p) (hlog : p <+: H.log n) (hstood : H.stood t c = some l)
    (hU : UpToDate termOf l (H.log n)) : H.Carries s t p l := by
  have hord : Ordered termOf (H.log n) := h.ordered _ (.inl ⟨n, rfl⟩)
  have hs : s ≤ lastTerm termOf (H.log n) := by
    obtain ⟨q, e, rfl, rfl⟩ := ha.ends
    exact hord.le_lastTerm (hlog.subset (by simp))
  have hpos := ha.ends.length_pos
  have hlen := hlog.length_le
  rcases List.eq_nil_or_concat l with rfl | ⟨q, e, heq⟩
  · rcases hU with hU | ⟨-, hU⟩
    · exact (Nat.not_lt_zero _ hU).elim
    · rw [List.length_nil] at hU
      omega
  · rw [List.concat_eq_append] at heq
    have hlast : lastTerm termOf l = termOf e := by rw [heq, lastTerm_concat]
    obtain ⟨m, L, hL, hl⟩ := h.made l (.inr (.inr ⟨t, c, hstood⟩)) q e (heq ▸ List.prefix_refl l)
    rw [← heq] at hl
    have hle : s ≤ termOf e := by
      rcases hU with hU | ⟨hU, -⟩ <;> omega
    rcases hle.eq_or_lt with rfl | hlt
    · -- both come from the leader of one term, and the candidate's is the longer one
      obtain ⟨m', L', hL', hp⟩ := ha.led
      cases hL.symm.trans hL'
      refine .inl (List.prefix_of_prefix_length_le hp hl ?_)
      rcases hU with hU | ⟨-, hU⟩ <;> omega
    · by_cases hp : p <+: L
      · rcases List.prefix_or_prefix_of_prefix hp hl with hp | hp
        · exact .inl hp
        · have he : e ∈ p := hp.subset (heq ▸ by simp)
          exact (hlt.not_ge (ha.ends.le_of_mem (hord.of_isPrefix hlog) he)).elim
      · exact .inr ⟨_, hlt, h.stoodTerm t c l hstood e (heq ▸ by simp), m, L, hL, hp⟩

section Steps

variable [DecidableEq N] {U : List E → List E → Prop} {a n : N} {s t : Nat}
  {p : List E}

theorem Lost.step (hs : Step nodes termOf U a H H') (hp : EndsIn termOf s p) (hst : s < t)
    (h : H.Lost t p) : H'.Lost t p := by
  obtain ⟨m, L, hL, hno⟩ := h
  obtain ⟨L', hL', -⟩ := hs.leadLe t m L hL
  refine ⟨m, L', hL', ?_⟩
  rcases hs.lead_back hL' with hnone | hsame | ⟨L₀, e, hL₀, rfl, rfl⟩
  · cases hnone.symm.trans hL
  · cases hsame.symm.trans hL
    exact hno
  · cases hL₀.symm.trans hL
    rw [List.prefix_concat_iff]
    rintro (rfl | hp')
    · -- the new entry is of a later term than the last one of `p`
      exact hst.ne (hp.unique ⟨L, e, rfl, rfl⟩)
    · exact hno hp'

theorem Carries.step {t' : Nat} {l l' : List E} (hs : Step nodes termOf U a H H')
    (hp : EndsIn termOf s p) (hl : l <+: l') (h : H.Carries s t p l) (ht : t ≤ t') :
    H'.Carries s t' p l' := by
  rcases h with h | ⟨t'', hlt, hlt', hlost⟩
  · exact .inl (h.trans hl)
  · exact .inr ⟨t'', hlt, hlt'.trans_le ht, hlost.step hs hp hlt⟩

theorem Acked.step (hs : Step nodes termOf U a H H') (h : Acked termOf H n t p) :
    Acked termOf H' n t p := by
  obtain ⟨m, L, hL, hp⟩ := h.led
  obtain ⟨L', hL', hLL'⟩ := hs.leadLe t m L hL
  exact ⟨h.ends, ⟨m, L', hL', hp.trans hLL'⟩, h.le.trans (hs.acked_le n t)⟩

theorem Chosen.step (hs : Step nodes termOf U a H H') (h : Chosen nodes termOf H t p) :
    Chosen nodes termOf H' t p :=
  h.mono fun _ _ ha => ha.step hs

/-- What is acknowledged by a step is acknowledged in the current term and in the log. -/
theorem Base.acked_back (h : Base nodes termOf H) (hs : Step nodes termOf U a H H')
    (ha : Acked termOf H' n t p) :
    Acked termOf H n t p ∨ (t = H.term n ∧ H'.term n = H.term n ∧ p <+: H'.log n) := by
  have hback : H'.acked n t = H.acked n t → Acked termOf H n t p := by
    intro heq
    have hle := heq ▸ ha.le
    obtain ⟨-, m, L, hL, hk, -⟩ := h.held n t (ha.ends.length_pos.trans_le hle)
    obtain ⟨L', hL', hLL'⟩ := hs.leadLe t m L hL
    obtain ⟨m', L'', hL'', hp⟩ := ha.led
    cases hL'.symm.trans hL''
    exact ⟨ha.ends, ⟨m, L, hL, List.prefix_of_prefix_length_le hp hLL' (hle.trans hk)⟩, hle⟩
  cases hs with
  | @ack m L k hlead hk hhas =>
    by_cases heq : n = a ∧ t = H.term a
    · obtain ⟨rfl, rfl⟩ := heq
      have hle := ha.le
      rw [acked_setAcked, if_pos ⟨rfl, rfl⟩] at hle
      by_cases hold : p.length ≤ H.acked n (H.term n)
      · exact .inl ⟨ha.ends, ha.led, hold⟩
      · refine .inr ⟨rfl, rfl, ?_⟩
        obtain ⟨m', L', hL', hp⟩ := ha.led
        cases hlead.symm.trans hL'
        refine (List.prefix_of_prefix_length_le hp (List.take_prefix k L) ?_).trans hhas
        rw [List.length_take]
        omega
    · exact .inl (hback (by rw [acked_setAcked, if_neg heq]))
  | _ => exact .inl (hback rfl)

/-- A node keeps what it acknowledged until a later leader without it makes it give it up. -/
theorem Base.carries_log (h : Base nodes termOf H) (hs : Step nodes termOf U a H H')
    (ha : Acked termOf H n t p) (hc : H.Carries t (H.term n + 1) p (H.log n)) :
    H'.Carries t (H'.term n + 1) p (H'.log n) := by
  have hle : H.term n + 1 ≤ H'.term n + 1 := Nat.succ_le_succ (hs.term_le n)
  rcases hs.log_back n with hlog | ⟨m, L, k, hlead, hlog, hdiff⟩
  · exact hc.step hs ha.ends hlog hle
  rcases hc with hp | hlost
  · by_cases hpL : p <+: L
    · exact .inl (hlog ▸ prefix_take_of_not hpL hp hdiff)
    · obtain ⟨hterm, -⟩ := h.held n t (ha.ends.length_pos.trans_le ha.le)
      have hlt : t < H.term n := by
        refine lt_of_le_of_ne hterm fun heq => ?_
        obtain ⟨m', L', hL', hp'⟩ := ha.led
        cases hlead.symm.trans (heq ▸ hL')
        exact hpL hp'
      have hlost : H.Lost (H.term n) p := ⟨m, L, hlead, hpL⟩
      exact .inr ⟨H.term n, hlt, hle, hlost.step hs ha.ends hlt⟩
  · exact Carries.step (l := H'.log n) hs ha.ends (List.prefix_refl _) (.inr hlost) hle

namespace Strong

theorem kept_step (h : Strong nodes termOf H) (hs : Step nodes termOf U a H H')
    (ha : Acked termOf H' n t p) : H'.Carries t (H'.term n + 1) p (H'.log n) := by
  rcases h.base.acked_back hs ha with hold | ⟨-, -, hp⟩
  · exact h.base.carries_log hs hold (h.kept n t p hold)
  · exact .inl hp

theorem voted_step (h : Strong nodes termOf H)
    (hs : Step nodes termOf (UpToDate termOf) a H H') {c : N} {l : List E}
    (hnone : H'.lead t = none) (hv : H'.vote n t = some c) (hst : H'.stood t c = some l)
    (hlt : s < t) (ha : Acked termOf H' n s p) : H'.Carries s t p l := by
  have hnone₀ : H.lead t = none := by
    cases hL : H.lead t with
    | none => rfl
    | some x =>
      obtain ⟨L', hL', -⟩ := hs.leadLe t x.1 x.2 hL
      cases hnone.symm.trans hL'
  -- a vote from before the step
  have hold : H.vote n t = some c → H.stood t c = some l → H'.Carries s t p l := by
    intro hv hst
    rcases h.base.acked_back hs ha with ha | ⟨heq, -, -⟩
    · exact (h.voted n t c l hnone₀ hv hst s hlt p ha).step hs ha.ends (List.prefix_refl l) le_rfl
    · exact ((heq ▸ hlt).not_ge (h.base.voted n t c hv).1).elim
  have hs' := hs
  cases hs with
  | @stand t' ht =>
    change ((H.setTerm a t').setVote a t' a).vote n t = some c at hv
    rw [vote_setVote] at hv
    rw [stood_setStood] at hst
    by_cases heq : n = a ∧ t = t'
    · rw [if_pos heq] at hv
      obtain ⟨rfl, rfl⟩ := heq
      cases hv
      rw [if_pos ⟨rfl, rfl⟩] at hst
      cases hst
      rcases h.base.acked_back hs' ha with ha | ⟨-, -, hp⟩
      · exact (h.kept n s p ha).step hs' ha.ends (List.prefix_refl _) ht
      · exact .inl hp
    · rw [if_neg heq] at hv
      by_cases hnew : t = t' ∧ c = a
      · -- a vote from before the beginning: its voter had acknowledged nothing yet
        obtain ⟨rfl, rfl⟩ := hnew
        rcases (h.base.voted n t c hv).2 with ⟨l', hl'⟩ | hzero
        · cases (h.base.stood_none ht).symm.trans hl'
        · have hle : p.length ≤ H.acked n s := ha.le
          have := ha.ends.length_pos
          rw [hzero s hlt] at hle
          omega
      · rw [if_neg hnew] at hst
        exact hold hv hst
  | @grant c' l' hfree hstood hU =>
    rw [vote_setVote] at hv
    split at hv
    next heq =>
      cases hv
      obtain ⟨rfl, rfl⟩ := heq
      cases hstood.symm.trans hst
      rcases h.base.acked_back hs' ha with ha | ⟨rfl, -, -⟩
      · refine Carries.step hs' ha.ends (List.prefix_refl l) ?_ le_rfl
        rcases h.kept n s p ha with hp | ⟨u, hu, hu', hlost⟩
        · exact h.base.carries_of_upToDate ha hp hstood hU
        · refine .inr ⟨u, hu, lt_of_le_of_ne (Nat.le_of_lt_succ hu') ?_, hlost⟩
          rintro rfl
          obtain ⟨m, L, hL, -⟩ := hlost
          cases hnone₀.symm.trans hL
      · exact (lt_irrefl _ hlt).elim
    next => exact hold hv hst
  | _ => exact hold hv hst

theorem elected_step (h : Strong nodes termOf H) (hs : Step nodes termOf U a H H') {L : List E}
    (hL : H'.lead t = some (n, L)) : Majority nodes fun v => t ≤ H'.term v ∧
      ∀ s < t, ∀ p, Acked termOf H' v s p → H'.Carries s t p L := by
  -- what voters vouch for before the step
  have hold : ∀ L₀, L₀ <+: L →
      (Majority nodes fun v => t ≤ H.term v ∧
        ∀ s < t, ∀ p, Acked termOf H v s p → H.Carries s t p L₀) →
      Majority nodes fun v => t ≤ H'.term v ∧
        ∀ s < t, ∀ p, Acked termOf H' v s p → H'.Carries s t p L := by
    intro L₀ hL₀ hmaj
    refine hmaj.mono fun v _ ⟨hle, hv⟩ => ⟨hle.trans (hs.term_le v), fun s hlt p ha => ?_⟩
    rcases h.base.acked_back hs ha with ha | ⟨heq, -, -⟩
    · exact (hv s hlt p ha).step hs ha.ends hL₀ le_rfl
    · exact ((heq ▸ hlt).not_ge hle).elim
  rcases hs.lead_back hL with hnone | hsame | ⟨L₀, e, hL₀, -, rfl⟩
  · obtain ⟨rfl, rfl, hmaj, l, hst⟩ := hs.elected hnone hL
    refine hold (H.log n) (List.prefix_refl _) (hmaj.mono fun v _ hv => ?_)
    rw [(h.base.stoodNow _ n l hst).2 rfl hnone]
    exact ⟨(h.base.voted v _ n hv).1, h.voted v _ n l hnone hv hst⟩
  · exact hold L (List.prefix_refl L) (h.elected t n L hsame)
  · exact hold L₀ (List.prefix_append L₀ [e]) (h.elected t n L₀ hL₀)

theorem step (h : Strong nodes termOf H) (hs : Step nodes termOf (UpToDate termOf) a H H') :
    Strong nodes termOf H' :=
  ⟨h.base.step hs, fun _ _ _ ha => h.kept_step hs ha,
    fun _ _ _ _ hnone hv hst _ hlt _ ha => h.voted_step hs hnone hv hst hlt ha,
    fun _ _ _ hL => h.elected_step hs hL⟩

end Strong

/-! ## Committed prefixes -/

/-- What was chosen in terms up to `t` reaches `q`, and the log `l` agrees with it that far. -/
def Backed (nodes : List N) (termOf : E → Nat) (H : History N E) (t q : Nat) (l : List E) : Prop :=
  q = 0 ∨ ∃ s p, Chosen nodes termOf H s p ∧ s ≤ t ∧ q ≤ p.length ∧ l.take q <+: p

/-- The node `n` may take the first `q` entries for committed, those of them that it has. -/
def Safe (nodes : List N) (termOf : E → Nat) (H : History N E) (n : N) (q : Nat) : Prop :=
  Backed nodes termOf H (H.term n) q (H.log n)

namespace Backed

variable {l l' L : List E} {t' q q' : Nat}

omit [DecidableEq N]

theorem mono (h : Backed nodes termOf H t q l) (ht : t ≤ t') : Backed nodes termOf H t' q l :=
  h.imp_right fun ⟨s, p, hc, hle, hq, hp⟩ => ⟨s, p, hc, hle.trans ht, hq, hp⟩

theorem nil (h : Backed nodes termOf H t q l) : Backed nodes termOf H t q [] := by
  refine h.imp_right fun ⟨s, p, hc, hle, hq, _⟩ => ⟨s, p, hc, hle, hq, ?_⟩
  rw [List.take_nil]
  exact List.nil_prefix

/-- A later leader has what is backed. -/
theorem led (hS : Strong nodes termOf H) (h : Backed nodes termOf H t q l) (ht : t ≤ t')
    (hL : H.lead t' = some (n, L)) : q ≤ L.length ∧ l.take q <+: L := by
  rcases h with rfl | ⟨s, p, hc, hle, hq, hp⟩
  · exact ⟨Nat.zero_le _, by rw [List.take_zero]; exact List.nil_prefix⟩
  · have hpL := hS.complete hc (hle.trans ht) hL
    exact ⟨hq.trans hpL.length_le, hp.trans hpL⟩

/-- What is backed, another log has if it agrees with a log that has it. -/
theorem congr (hS : Strong nodes termOf H) (h : Backed nodes termOf H t q l) (ht : t ≤ t')
    (hL : H.lead t' = some (n, L)) (hl : l'.take q <+: L) : Backed nodes termOf H t q l' := by
  refine h.imp_right fun ⟨s, p, hc, hle, hq, hp⟩ => ⟨s, p, hc, hle, hq, ?_⟩
  refine List.prefix_of_prefix_length_le hl (hS.complete hc (hle.trans ht) hL) ?_
  rw [List.length_take]
  omega

theorem comparable (hS : Strong nodes termOf H) (h : Backed nodes termOf H t q l)
    (h' : Backed nodes termOf H t' q' l') : l.take q <+: l'.take q' ∨ l'.take q' <+: l.take q := by
  rcases h with rfl | ⟨s, p, hc, -, -, hp⟩
  · exact .inl (by rw [List.take_zero]; exact List.nil_prefix)
  rcases h' with rfl | ⟨s', p', hc', -, -, hp'⟩
  · exact .inr (by rw [List.take_zero]; exact List.nil_prefix)
  rcases hS.chosen_comparable hc hc' with hpp | hpp
  · exact List.prefix_or_prefix_of_prefix (hp.trans hpp) hp'
  · exact List.prefix_or_prefix_of_prefix hp (hp'.trans hpp)

end Backed

theorem Backed.step {l : List E} {q : Nat} (hs : Step nodes termOf U a H H')
    (h : Backed nodes termOf H t q l) : Backed nodes termOf H' t q l :=
  h.imp_right fun ⟨s, p, hc, hle, hp⟩ => ⟨s, p, hc.step hs, hle, hp⟩

/-- No step touches what a node may take for committed. -/
theorem Safe.step {q : Nat} (hS : Strong nodes termOf H) (hs : Step nodes termOf U a H H')
    (h : Safe nodes termOf H n q) :
    (H.log n).take q <+: H'.log n ∧ Safe nodes termOf H' n q := by
  have h' : Backed nodes termOf H' (H'.term n) q (H.log n) := (Backed.step hs h).mono (hs.term_le n)
  cases hs with
  | @append e hlead =>
    by_cases hn : n = a
    · subst hn
      have hq := (h.led hS le_rfl hlead).1
      have hlog : ((H.setLog n (H.log n ++ [e])).setLead (H.term n) n (H.log n ++ [e])).log n =
          H.log n ++ [e] := (log_setLog H n n _).trans (if_pos rfl)
      rw [Safe, hlog]
      refine ⟨(List.take_prefix q _).trans (List.prefix_append _ _), ?_⟩
      refine h'.imp_right fun ⟨s, p, hc, hle, hqp, hp⟩ => ⟨s, p, hc, hle, hqp, ?_⟩
      rwa [List.take_append_of_le_length hq]
    · have hlog : ((H.setLog a (H.log a ++ [e])).setLead (H.term a) a (H.log a ++ [e])).log n =
          H.log n := (log_setLog H a n _).trans (if_neg hn)
      rw [Safe, hlog]
      exact ⟨List.take_prefix q _, h'⟩
  | @accept m L k hlead hdiff =>
    by_cases hn : n = a
    · subst hn
      obtain ⟨hq, hp⟩ := h.led hS le_rfl hlead
      rw [Safe, log_setLog, if_pos rfl]
      refine ⟨prefix_take_of_not hp (List.take_prefix q _) hdiff, ?_⟩
      exact Backed.step (U := U) (.accept hlead hdiff) (h.congr hS le_rfl hlead
        ((List.take_prefix q _).trans (List.take_prefix k L)))
    · rw [Safe, log_setLog, if_neg hn]
      exact ⟨List.take_prefix q _, h'⟩
  | _ => exact ⟨List.take_prefix q _, h'⟩

/-! ## Whole evolutions -/

theorem Strong.evolves (h : Strong nodes termOf H)
    (hs : Evolves nodes termOf (UpToDate termOf) H H') : Strong nodes termOf H' := by
  induction hs with
  | refl => exact h
  | tail _ hs ih => exact ih.step hs.choose_spec

theorem Backed.evolves {l : List E} {q : Nat} (hs : Evolves nodes termOf U H H')
    (h : Backed nodes termOf H t q l) : Backed nodes termOf H' t q l := by
  induction hs with
  | refl => exact h
  | tail _ hs ih => exact ih.step hs.choose_spec

theorem Safe.evolves {q : Nat} (hS : Strong nodes termOf H)
    (hs : Evolves nodes termOf (UpToDate termOf) H H') (h : Safe nodes termOf H n q) :
    (H.log n).take q <+: H'.log n ∧ Safe nodes termOf H' n q := by
  induction hs with
  | refl => exact ⟨List.take_prefix q _, h⟩
  | tail hs' hs ih =>
    obtain ⟨hp, hsafe⟩ := ih
    obtain ⟨hp', hsafe'⟩ := hsafe.step (hS.evolves hs') hs.choose_spec
    refine ⟨(List.prefix_take_iff.2 ⟨hp, ?_⟩).trans hp', hsafe'⟩
    exact List.length_take_le _ _

omit [DecidableEq N] in
/-- What two nodes may take for committed agrees. -/
theorem Safe.agree {n' : N} {q q' k : Nat} {e e' : E} (hS : Strong nodes termOf H)
    (h : Safe nodes termOf H n q) (h' : Safe nodes termOf H n' q') (hk : k < q) (hk' : k < q')
    (he : (H.log n)[k]? = some e) (he' : (H.log n')[k]? = some e') : e = e' := by
  rw [← List.getElem?_take_of_lt hk] at he
  rw [← List.getElem?_take_of_lt hk'] at he'
  rcases Backed.comparable hS h h' with ⟨r, hr⟩ | ⟨r, hr⟩
  · rw [← hr, List.getElem?_append_left (List.getElem?_eq_some_iff.1 he).1, he] at he'
    exact Option.some.inj he'
  · rw [← hr, List.getElem?_append_left (List.getElem?_eq_some_iff.1 he').1, he'] at he
    exact (Option.some.inj he).symm

omit [DecidableEq N] in
theorem Safe.of_le {q q' : Nat} (h : Safe nodes termOf H n q) (hle : q' ≤ q) :
    Safe nodes termOf H n q' := by
  rcases h with rfl | ⟨s, p, hc, hs, hq, hp⟩
  · exact .inl (Nat.le_zero.1 hle)
  · exact .inr ⟨s, p, hc, hs, hle.trans hq, (List.take_isPrefix_take.2 (.inl hle)).trans hp⟩

/-- Entry `k` of a chosen prefix is `e`. -/
def Settled (nodes : List N) (termOf : E → Nat) (H : History N E) (k : Nat) (e : E) : Prop :=
  ∃ t p, Chosen nodes termOf H t p ∧ p[k]? = some e

omit [DecidableEq N] in
theorem Safe.settled {q k : Nat} {e : E} (h : Safe nodes termOf H n q) (hk : k < q)
    (he : (H.log n)[k]? = some e) : Settled nodes termOf H k e := by
  rcases h with rfl | ⟨s, p, hc, -, -, r, rfl⟩
  · exact (Nat.not_lt_zero k hk).elim
  · refine ⟨s, _, hc, ?_⟩
    rw [← List.getElem?_take_of_lt hk] at he
    rw [List.getElem?_append_left (List.getElem?_eq_some_iff.1 he).1, he]

theorem Settled.evolves {k : Nat} {e : E} (h : Settled nodes termOf H k e)
    (hs : Evolves nodes termOf U H H') : Settled nodes termOf H' k e := by
  induction hs with
  | refl => exact h
  | tail _ hs ih =>
    obtain ⟨t, p, hc, he⟩ := ih
    exact ⟨t, p, hc.step hs.choose_spec, he⟩

omit [DecidableEq N] in
/-- An index is settled once. -/
theorem Settled.unique {k : Nat} {e e' : E} (h : Settled nodes termOf H k e)
    (h' : Settled nodes termOf H k e') (hS : Strong nodes termOf H) : e = e' := by
  obtain ⟨t, p, hc, he⟩ := h
  obtain ⟨t', p', hc', he'⟩ := h'
  rcases hS.chosen_comparable hc hc' with ⟨r, rfl⟩ | ⟨r, rfl⟩
  · rw [List.getElem?_append_left (List.getElem?_eq_some_iff.1 he).1, he] at he'
    exact Option.some.inj he'
  · rw [List.getElem?_append_left (List.getElem?_eq_some_iff.1 he').1, he'] at he
    exact (Option.some.inj he).symm

end Steps

/-! ## The beginning -/

/-- A history with empty logs: nodes may have seen terms and voted before. -/
def begin (term : N → Nat) (vote : N → Nat → Option N) : History N E :=
  ⟨term, fun _ => [], vote, fun _ _ => none, fun _ => none, fun _ _ => 0⟩

section Begin

variable {term : N → Nat} {vote : N → Nat → Option N}

theorem Base.begin (hv : ∀ n t c, vote n t = some c → t ≤ term n) :
    Base nodes termOf (begin term vote : History N E) := by
  have hrec : ∀ l, (History.begin term vote : History N E).OnRecord l → l = [] := by
    rintro l (⟨n, hn⟩ | ⟨t, n, hn⟩ | ⟨t, n, hn⟩)
    · exact hn.symm
    · cases hn
    · cases hn
  refine ⟨fun l hl p e hp => ?_, fun l hl => ?_, fun n e he => ?_, ?_, ?_, ?_, ?_, ?_, ?_, ?_⟩
  · rw [hrec l hl] at hp
    simp at hp
  · rw [hrec l hl]
    exact List.Pairwise.nil
  · cases he
  · intro t n L hL; cases hL
  · intro t n l hl; cases hl
  · intro t n L hL; cases hL
  · intro t n l hl; cases hl
  · intro n t c hc
    exact ⟨hv n t c hc, .inr fun _ _ => rfl⟩
  · intro t n L hL; cases hL
  · intro n t hpos; cases hpos

theorem Strong.begin (hv : ∀ n t c, vote n t = some c → t ≤ term n) :
    Strong nodes termOf (begin term vote : History N E) := by
  refine ⟨Base.begin hv, fun n t p ha => ?_, fun n t c l _ _ hst => ?_, fun t n L hL => ?_⟩
  · exact ((ha.ends.length_pos.trans_le ha.le).ne rfl).elim
  · cases hst
  · cases hL

end Begin

end History
