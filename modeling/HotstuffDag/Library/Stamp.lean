import Mathlib.Algebra.Ring.Nat
import Mathlib.Data.List.Nodup
import Mathlib.Order.Basic

/-! # Marks in time

A process moves through ordered points of time and marks some of them, each of them once. A flag remembers
whether it has marked the present one. -/

namespace Library

structure Stamped {Time : Type*} [Preorder Time] (marks : List Time) (now : Time) (flag : Bool) : Prop where
  past : ∀ m ∈ marks, m ≤ now
  once : marks.Nodup
  shown : now ∈ marks → flag = true

namespace Stamped
variable {Time : Type*} [Preorder Time] {marks : List Time} {now now' : Time} {flag : Bool}

theorem nil : Stamped [] now flag :=
  ⟨fun _ mem => absurd mem List.not_mem_nil, List.nodup_nil, fun mem => absurd mem List.not_mem_nil⟩

theorem unmarked (h : Stamped marks now false) : now ∉ marks := fun mem => Bool.noConfusion (h.shown mem)

theorem raise (h : Stamped marks now flag) : Stamped marks now true := ⟨h.past, h.once, fun _ => rfl⟩

theorem mark (h : Stamped marks now false) : Stamped (marks ++ [now]) now true := by
  refine ⟨fun m mem => ?_, ?_, fun _ => rfl⟩
  · rcases List.mem_append.mp mem with old | new
    · exact h.past m old
    · rw [List.mem_singleton.mp new]
  · refine List.nodup_append.mpr ⟨h.once, List.nodup_singleton _, fun m old m' new same => ?_⟩
    rw [same, List.mem_singleton.mp new] at old
    exact h.unmarked old

/-- A later point is not marked yet. -/
theorem later (h : Stamped marks now flag) (lt : now < now') (flag' : Bool) : Stamped marks now' flag' := by
  refine ⟨fun m mem => (h.past m mem).trans lt.le, h.once, fun mem => ?_⟩
  exact absurd (h.past now' mem) (not_le_of_gt lt)

end Stamped

/-- Two items at one mark are the same item. -/
theorem eq_of_mark {Item Time : Type*} {f : Item → Option Time} {l : List Item} (once : (l.filterMap f).Nodup) {x y : Item}
    {m : Time} (hx : x ∈ l) (hy : y ∈ l) (markX : f x = some m) (markY : f y = some m) : x = y := by
  induction l with
  | nil => exact absurd hx List.not_mem_nil
  | cons a rest ih =>
      have marked {z : Item} (mem : z ∈ rest) (mark : f z = some m) : m ∈ rest.filterMap f :=
        List.mem_filterMap.mpr ⟨z, mem, mark⟩
      cases mark : f a with
      | none =>
          rw [List.filterMap_cons_none mark] at once
          rcases List.mem_cons.mp hx with rfl | laterX
          · rw [mark] at markX
            contradiction
          rcases List.mem_cons.mp hy with rfl | laterY
          · rw [mark] at markY
            contradiction
          exact ih once laterX laterY
      | some m' =>
          rw [List.filterMap_cons_some mark] at once
          obtain ⟨fresh, once⟩ := List.nodup_cons.mp once
          have other {z : Item} (mem : z ∈ rest) (markZ : f z = some m) : f a ≠ some m := by
            intro same
            rw [mark] at same
            rw [Option.some.inj same] at fresh
            exact fresh (marked mem markZ)
          rcases List.mem_cons.mp hx with rfl | laterX <;> rcases List.mem_cons.mp hy with rfl | laterY
          · rfl
          · exact absurd markX (other laterY markY)
          · exact absurd markY (other laterX markX)
          · exact ih once laterX laterY

end Library
