import Mathlib.Algebra.BigOperators.Group.Finset.Basic
import Mathlib.Algebra.Order.BigOperators.Group.Finset

/-! # Weighted quorums

Sets of voters with weights, and what two heavy sets have in common. -/

namespace Library.Quorum
variable {α : Type*} {w : α → ℕ}

def weight (w : α → ℕ) (s : Finset α) : ℕ := ∑ a ∈ s, w a

theorem weight_mono {s t : Finset α} (h : s ⊆ t) : weight w s ≤ weight w t :=
  Finset.sum_le_sum_of_subset h

variable [DecidableEq α]

theorem weight_union_add_inter (s t : Finset α) :
    weight w (s ∪ t) + weight w (s ∩ t) = weight w s + weight w t :=
  Finset.sum_union_inter

/-- Two sets of voters share at least what their weights exceed the total by. -/
theorem weight_add_le_inter {s t u : Finset α} (hs : s ⊆ u) (ht : t ⊆ u) :
    weight w s + weight w t ≤ weight w u + weight w (s ∩ t) := by
  have covered : weight w (s ∪ t) ≤ weight w u := weight_mono (Finset.union_subset hs ht)
  have split := weight_union_add_inter (w := w) s t
  omega

theorem weight_le_sdiff_add (s faulty : Finset α) : weight w s ≤ weight w (s \ faulty) + weight w faulty := by
  have covered : weight w s ≤ weight w (s \ faulty ∪ faulty) := by
    apply weight_mono
    rw [Finset.sdiff_union_self_eq_union]
    exact Finset.subset_union_left
  have split := weight_union_add_inter (w := w) (s \ faulty) faulty
  omega

theorem exists_notMem_of_weight_lt {s faulty : Finset α} (h : weight w faulty < weight w s) :
    ∃ a ∈ s, a ∉ faulty := by
  by_contra none
  push Not at none
  exact absurd (weight_mono (w := w) none) (by omega)

/-- A voter that is not faulty stands in both of two heavy sets. -/
theorem exists_common_notMem {s t u faulty : Finset α} (hs : s ⊆ u) (ht : t ⊆ u)
    (h : weight w u + weight w faulty < weight w s + weight w t) : ∃ a, a ∈ s ∧ a ∈ t ∧ a ∉ faulty := by
  have shared := weight_add_le_inter (w := w) hs ht
  have heavy : weight w faulty < weight w (s ∩ t) := by omega
  obtain ⟨a, common, honest⟩ := exists_notMem_of_weight_lt heavy
  exact ⟨a, (Finset.mem_inter.mp common).1, (Finset.mem_inter.mp common).2, honest⟩

end Library.Quorum
