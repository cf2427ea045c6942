import EnclaveRaft.Lib.Completeness
import Mathlib.Logic.Function.Basic

/-!
# One log

What a replicated log is for, as a machine (`OneLog`). There is one log. It is only ever extended,
and each node applies its entries in order, one at a time. A node that has lost what it had applied
starts again from an earlier place. What a node applies and where it starts again is seen
(`OneLog.Label`).

In a history of a replicated log, all that the nodes may take for committed lies in one chosen
prefix (`History.exists_common`). So a system that follows a history has such a log.
-/

/-- The log, and how many of its entries each node has applied. -/
structure OneLog (N E : Type) where
  log : List E
  applied : N → Nat

namespace OneLog

/-- What is seen of a step: a node applies the entry at a place in the log, counted from one, or starts
again behind the first `k` entries. -/
inductive Label (N E : Type)
  | applied (n : N) (k : Nat) (e : E)
  | rewound (n : N) (k : Nat)

variable {N E : Type} [DecidableEq N] {a b c : OneLog N E} {o o' : List (Label N E)}

inductive Step (a : OneLog N E) : List (Label N E) → OneLog N E → Prop
  | extend {l : List E} (h : a.log <+: l) : Step a [] { a with log := l }
  | apply {n : N} {e : E} (h : a.log[a.applied n]? = some e) :
      Step a [.applied n (a.applied n + 1) e]
        { a with applied := Function.update a.applied n (a.applied n + 1) }
  | rewind {n : N} {k : Nat} (h : k ≤ a.applied n) :
      Step a [.rewound n k] { a with applied := Function.update a.applied n k }

/-- Steps, one after the other, and all that is seen of them. -/
inductive Steps (a : OneLog N E) : List (Label N E) → OneLog N E → Prop
  | refl : Steps a [] a
  | tail {b c : OneLog N E} {o o' : List (Label N E)} (h : Steps a o b) (hs : Step b o' c) :
      Steps a (o ++ o') c

theorem Step.log_isPrefix (h : Step a o b) : a.log <+: b.log := by
  cases h with
  | extend h => exact h
  | apply h => exact List.prefix_rfl
  | rewind h => exact List.prefix_rfl

theorem Steps.log_isPrefix (h : Steps a o b) : a.log <+: b.log := by
  induction h with
  | refl => exact List.prefix_rfl
  | tail _ hs ih => exact ih.trans hs.log_isPrefix

theorem Steps.trans (h : Steps a o b) (h' : Steps b o' c) : Steps a (o ++ o') c := by
  induction h' with
  | refl => rwa [List.append_nil]
  | tail _ hs ih =>
    rw [← List.append_assoc]
    exact ih.tail hs

/-- A step that is not seen. -/
theorem Steps.silent (h : Steps a o b) (hs : Step b [] c) : Steps a o c := by
  have hsteps := h.tail hs
  rwa [List.append_nil] at hsteps

/-- What a node applies is what the log has there. -/
theorem Steps.getElem?_of_mem (h : Steps a o b) {n : N} {k : Nat} {e : E} (hmem : .applied n k e ∈ o) :
    b.log[k - 1]? = some e := by
  induction h with
  | refl => cases hmem
  | @tail b c o o' _ hs ih =>
    have hkeep {k : Nat} (hget : b.log[k]? = some e) : c.log[k]? = some e := by
      obtain ⟨r, hr⟩ := hs.log_isPrefix
      rw [← hr, List.getElem?_append_left (List.getElem?_eq_some_iff.1 hget).1, hget]
    rcases List.mem_append.1 hmem with hmem | hmem
    · exact hkeep (ih hmem)
    · cases hs with
      | extend h => cases hmem
      | apply h =>
        cases List.mem_singleton.1 hmem
        exact hkeep h
      | rewind h => cases List.mem_singleton.1 hmem

end OneLog

/-! ## What is committed -/

namespace History

variable {N E : Type} {termOf : E → Nat} {H H' : History N E} {nodes : List N}

/-- All entries of `l` are settled, by one chosen prefix. -/
def Common (nodes : List N) (termOf : E → Nat) (H : History N E) (l : List E) : Prop :=
  l = [] ∨ ∃ t, Chosen nodes termOf H t l

theorem Common.evolves [DecidableEq N] {U : List E → List E → Prop} {l : List E}
    (h : Common nodes termOf H l) (hs : Evolves nodes termOf U H H') :
    Common nodes termOf H' l := by
  induction hs with
  | refl => exact h
  | tail _ hs ih => exact ih.imp_right fun ⟨t, hc⟩ => ⟨t, hc.step hs.choose_spec⟩

theorem Common.comparable (hS : Strong nodes termOf H) {l l' : List E}
    (h : Common nodes termOf H l) (h' : Common nodes termOf H l') : l <+: l' ∨ l' <+: l := by
  rcases h with rfl | ⟨t, hc⟩
  · exact .inl List.nil_prefix
  rcases h' with rfl | ⟨t', hc'⟩
  · exact .inr List.nil_prefix
  exact hS.chosen_comparable hc hc'

/-- What a node may take for committed lies in a chosen prefix. -/
theorem Safe.exists_common {n : N} {q : Nat} (h : Safe nodes termOf H n q) :
    ∃ l, Common nodes termOf H l ∧ (H.log n).take q <+: l := by
  rcases h with rfl | ⟨t, p, hc, -, -, hp⟩
  · exact ⟨[], .inl rfl, by simp⟩
  · exact ⟨p, .inr ⟨t, hc⟩, hp⟩

/-- **One log for all.** What some nodes may take for committed, and what was committed before, lies
in one chosen prefix. -/
theorem exists_common (hS : Strong nodes termOf H) {l : List E} (hl : Common nodes termOf H l)
    {q : N → Nat} {ns : List N} (hns : ∀ n ∈ ns, Safe nodes termOf H n (q n)) :
    ∃ l', Common nodes termOf H l' ∧ l <+: l' ∧ ∀ n ∈ ns, (H.log n).take (q n) <+: l' := by
  induction ns with
  | nil => exact ⟨l, hl, List.prefix_rfl, fun n hn => absurd hn List.not_mem_nil⟩
  | cons n ns ih =>
    obtain ⟨hn, hns⟩ := List.forall_mem_cons.1 hns
    obtain ⟨l₁, hl₁, hle₁, hall₁⟩ := ih hns
    obtain ⟨l₂, hl₂, htake⟩ := hn.exists_common
    -- the longer one of the two has it all
    rcases hl₁.comparable hS hl₂ with hle | hle
    · refine ⟨l₂, hl₂, hle₁.trans hle, List.forall_mem_cons.2 ⟨htake, fun n' hn' => ?_⟩⟩
      exact (hall₁ n' hn').trans hle
    · exact ⟨l₁, hl₁, hle₁, List.forall_mem_cons.2 ⟨htake.trans hle, hall₁⟩⟩

end History
