import Mathlib.Algebra.Ring.Nat
import Mathlib.Data.List.Pairwise
import Mathlib.Data.List.Perm.Basic

/-! # Ledgers

Items that leave in the order of their heights, each on the account of its owner. The counter of an
owner bounds the heights of the items that have left. -/

namespace Library

structure Ledger {Owner Item : Type*} (owner : Item → Owner) (height : Item → ℕ) (count : Owner → Option ℕ)
    (sent : List Item) : Prop where
  counted : ∀ x ∈ sent, ∃ n, count (owner x) = some n ∧ height x ≤ n
  distinct : sent.Pairwise fun x y => owner x = owner y → height x ≠ height y

/-- Items of one owner, with heights between two counts. -/
structure Stretch {Owner Item : Type*} (owner : Item → Owner) (height : Item → ℕ) (o : Owner) (low high : ℕ)
    (items : List Item) : Prop where
  order : low ≤ high
  range : ∀ x ∈ items, owner x = o ∧ low < height x ∧ height x ≤ high
  distinct : items.Pairwise fun x y => height x ≠ height y

/-- Counters have not gone back. -/
def Counts {Owner : Type*} (count count' : Owner → Option ℕ) : Prop :=
  ∀ o n, count o = some n → ∃ n', count' o = some n' ∧ n ≤ n'

variable {Owner Item : Type*} {owner : Item → Owner} {height : Item → ℕ} {count count' count'' : Owner → Option ℕ}
  {sent items : List Item} {o : Owner} {low mid high : ℕ}

theorem Counts.refl : Counts count count := fun _ n found => ⟨n, found, Nat.le_refl n⟩

theorem Counts.trans (h : Counts count count') (h' : Counts count' count'') : Counts count count'' := by
  intro o n found
  obtain ⟨n', found', le⟩ := h o n found
  obtain ⟨n'', found'', le'⟩ := h' o n' found'
  exact ⟨n'', found'', Nat.le_trans le le'⟩

namespace Stretch

theorem nil : Stretch owner height o low low [] := ⟨Nat.le_refl low, by simp, List.Pairwise.nil⟩

/-- An item below a stretch. -/
theorem snoc (h : Stretch owner height o mid high items) {x : Item} (own : owner x = o) (above : low < height x)
    (below : height x ≤ mid) : Stretch owner height o low high (items ++ [x]) where
  order := by
    have := h.order
    omega
  range := by
    intro y mem
    have order := h.order
    rcases List.mem_append.mp mem with old | new
    · obtain ⟨own', low', high'⟩ := h.range y old
      exact ⟨own', by omega, high'⟩
    · obtain rfl := List.mem_singleton.mp new
      exact ⟨own, above, by omega⟩
  distinct := by
    refine List.pairwise_append.mpr ⟨h.distinct, List.pairwise_singleton _ _, ?_⟩
    intro y old z new
    obtain rfl := List.mem_singleton.mp new
    have := (h.range y old).2.1
    omega

end Stretch

namespace Ledger

theorem nil : Ledger owner height count [] := ⟨by simp, List.Pairwise.nil⟩

theorem mono (h : Ledger owner height count sent) (le : Counts count count') : Ledger owner height count' sent where
  counted := by
    intro x mem
    obtain ⟨n, found, bound⟩ := h.counted x mem
    obtain ⟨n', found', le'⟩ := le _ n found
    exact ⟨n', found', Nat.le_trans bound le'⟩
  distinct := h.distinct

/-- A stretch that starts at the counter of its owner leaves. -/
theorem append (h : Ledger owner height count sent) (le : Counts count count')
    (stretch : Stretch owner height o low high items) (before : count o = some low) (after : count' o = some high) :
    Ledger owner height count' (items ++ sent) where
  counted := by
    intro x mem
    rcases List.mem_append.mp mem with new | old
    · obtain ⟨rfl, -, below⟩ := stretch.range x new
      exact ⟨high, after, below⟩
    · exact (h.mono le).counted x old
  distinct := by
    refine List.pairwise_append.mpr ⟨?_, h.distinct, ?_⟩
    · refine stretch.distinct.imp fun {x y} differ => ?_
      exact fun _ => differ
    · intro x new y old same
      obtain ⟨own, above, -⟩ := stretch.range x new
      obtain ⟨n, found, bound⟩ := h.counted y old
      rw [← same, own, before] at found
      have := Option.some.inj found
      omega

theorem perm (h : Ledger owner height count sent) {sent' : List Item} (perm : sent.Perm sent') :
    Ledger owner height count sent' where
  counted := fun x mem => h.counted x (perm.mem_iff.mpr mem)
  distinct := (perm.pairwise_iff fun {_ _} differ same equal => differ same.symm equal.symm).mp h.distinct

/-- Names that tell items of different owners or heights apart are not repeated. -/
theorem nodup_map (h : Ledger owner height count sent) {Name : Type*} {name : Item → Name}
    (tells : ∀ x ∈ sent, ∀ y ∈ sent, name x = name y → owner x = owner y ∧ height x = height y) :
    (sent.map name).Nodup := by
  refine List.pairwise_map.mpr (h.distinct.imp_of_mem fun {x y} mem mem' differ same => ?_)
  obtain ⟨owners, heights⟩ := tells x mem y mem' same
  exact differ owners heights

end Ledger
end Library
