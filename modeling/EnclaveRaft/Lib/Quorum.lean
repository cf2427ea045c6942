import Mathlib.Data.List.Nodup
import Mathlib.Data.List.Perm.Subperm

/-!
# Majorities

A majority of a finite set of nodes, given as a list without repetitions. Two majorities share a
node, which is all that election safety and commitment rest on.
-/

variable {N : Type*}

/-- More than half of `nodes` satisfy `P`. -/
def Majority (nodes : List N) (P : N → Prop) : Prop :=
  ∃ voters : List N, voters.Nodup ∧ (∀ v ∈ voters, v ∈ nodes ∧ P v) ∧
    nodes.length / 2 < voters.length

namespace Majority

variable {nodes : List N} {P Q : N → Prop}

theorem mono (h : Majority nodes P) (hPQ : ∀ v ∈ nodes, P v → Q v) : Majority nodes Q := by
  obtain ⟨voters, hnd, hmem, hlen⟩ := h
  exact ⟨voters, hnd, fun v hv => ⟨(hmem v hv).1, hPQ v (hmem v hv).1 (hmem v hv).2⟩, hlen⟩

/-- Two majorities intersect. -/
theorem inter (h : Majority nodes P) (h' : Majority nodes Q) : ∃ v ∈ nodes, P v ∧ Q v := by
  obtain ⟨voters, hnd, hmem, hlen⟩ := h
  obtain ⟨voters', hnd', hmem', hlen'⟩ := h'
  by_contra hno
  have hdisj : voters.Disjoint voters' := fun v hv hv' =>
    hno ⟨v, (hmem v hv).1, (hmem v hv).2, (hmem' v hv').2⟩
  have hsub : voters ++ voters' ⊆ nodes := fun v hv =>
    (List.mem_append.1 hv).elim (fun h => (hmem v h).1) fun h => (hmem' v h).1
  have hle := (List.subperm_of_subset (hnd.append hnd' hdisj) hsub).length_le
  rw [List.length_append] at hle
  omega

theorem exists_mem (h : Majority nodes P) : ∃ v ∈ nodes, P v := by
  obtain ⟨v, hv, hP, -⟩ := h.inter h
  exact ⟨v, hv, hP⟩

end Majority
