import Mathlib.Algebra.BigOperators.Group.List.Basic
import Mathlib.Algebra.Order.Monoid.Canonical.Defs
import Mathlib.Algebra.Ring.Nat

/-! # Tallies that start again

A tally adds up weights and starts again from zero whenever it has come to its threshold. -/

namespace Library.Tally
variable {M : Type*} [AddCommMonoid M] [LinearOrder M] [CanonicallyOrderedAdd M] {q w : M}

/-- How often a tally that has come to `w` reaches the threshold `q`. -/
def crossings (q : M) : M → List M → Nat
  | _, [] => 0
  | w, x :: rest => if q ≤ w + x then crossings q 0 rest + 1 else crossings q (w + x) rest

theorem crossings_eq_zero_iff (below : w < q) (xs : List M) : crossings q w xs = 0 ↔ w + xs.sum < q := by
  induction xs generalizing w with
  | nil => simpa [crossings] using below
  | cons x rest ih =>
      rw [crossings, List.sum_cons, ← add_assoc]
      by_cases reached : q ≤ w + x
      · rw [if_pos reached]
        have beyond : q ≤ w + x + rest.sum := reached.trans le_self_add
        simp [beyond]
      · rw [if_neg reached]
        apply ih
        exact not_le.mp reached

/-- It reaches the threshold once at most if no cut leaves a threshold's worth on both sides. -/
theorem crossings_le_one_iff (positive : 0 < q) (below : w < q) (xs : List M) :
    crossings q w xs ≤ 1 ↔ ∀ first second, xs = first ++ second → q ≤ w + first.sum → second.sum < q := by
  induction xs generalizing w with
  | nil =>
      have light : ∀ first second : List M, [] = first ++ second → q ≤ w + first.sum → second.sum < q := by
        intro first second parts heavy
        obtain ⟨rfl, rfl⟩ := List.append_eq_nil_iff.mp parts.symm
        simpa using positive
      simpa [crossings] using light
  | cons x rest ih =>
      rw [crossings]
      by_cases reached : q ≤ w + x
      · rw [if_pos reached, Nat.succ_le_succ_iff, Nat.le_zero, crossings_eq_zero_iff positive, zero_add]
        constructor
        · intro light first second parts heavy
          cases first with
          | nil =>
              rw [List.sum_nil, add_zero] at heavy
              exact absurd below (not_lt.mpr heavy)
          | cons y first =>
              rw [List.cons_append] at parts
              obtain ⟨rfl, rfl⟩ := List.cons.inj parts
              rw [List.sum_append] at light
              exact lt_of_le_of_lt le_add_self light
        · intro cut
          apply cut [x] rest rfl
          simpa using reached
      · rw [if_neg reached, ih (not_le.mp reached)]
        constructor
        · intro cut first second parts heavy
          cases first with
          | nil =>
              rw [List.sum_nil, add_zero] at heavy
              exact absurd below (not_lt.mpr heavy)
          | cons y first =>
              obtain ⟨rfl, rfl⟩ := List.cons.inj parts
              rw [List.sum_cons, ← add_assoc] at heavy
              exact cut first second rfl heavy
        · intro cut first second parts heavy
          apply cut (x :: first) second
          · rw [parts, List.cons_append]
          · rw [List.sum_cons, ← add_assoc]
            exact heavy

end Library.Tally
