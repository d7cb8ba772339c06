import Mathlib.Algebra.Ring.Nat
import Mathlib.Data.List.Basic
import Mathlib.Data.List.Perm.Basic
import Mathlib.Data.List.Nodup

/-! # Finite sets that are walked

Sets with decidable equality, for programs that add, remove, count, and take elements in the order
in which the set happens to be iterated. -/

namespace Library

structure HashSet (K : Type) where
  items : List K
  nodup : items.Nodup
  deriving DecidableEq

namespace HashSet
variable {K : Type} [DecidableEq K]

def empty : HashSet K := ⟨[], List.nodup_nil⟩

def insert (s : HashSet K) (k : K) : HashSet K := ⟨s.items.insert k, s.nodup.insert⟩

def remove (s : HashSet K) (k : K) : HashSet K := ⟨s.items.erase k, s.nodup.erase k⟩

def removeAll (s : HashSet K) (ks : List K) : HashSet K := ks.foldl remove s

def len (s : HashSet K) : Nat := s.items.length

def isEmpty (s : HashSet K) : Bool := s.items.isEmpty

/-- An order in which sets may be iterated. -/
structure Order (K : Type) where
  arrange : List K → List K
  perm : ∀ l, (arrange l).Perm l

/-- The order in which the elements are listed. -/
def Order.listed : Order K := ⟨id, fun _ => .refl _⟩

/-- `iter().take(n)` -/
def take (s : HashSet K) (order : Order K) (n : Nat) : List K := (order.arrange s.items).take n

instance : Membership K (HashSet K) := ⟨fun s k => k ∈ s.items⟩

instance (k : K) (s : HashSet K) : Decidable (k ∈ s) := inferInstanceAs (Decidable (k ∈ s.items))

variable {s : HashSet K} {k k' : K}

omit [DecidableEq K] in
@[simp] theorem notMem_empty : k ∉ (empty : HashSet K) := List.not_mem_nil

@[simp] theorem mem_insert : k' ∈ s.insert k ↔ k' = k ∨ k' ∈ s := List.mem_insert_iff

@[simp] theorem mem_remove : k' ∈ s.remove k ↔ k' ≠ k ∧ k' ∈ s := s.nodup.mem_erase_iff

@[simp] theorem mem_removeAll (ks : List K) : k' ∈ s.removeAll ks ↔ k' ∉ ks ∧ k' ∈ s := by
  induction ks generalizing s with
  | nil => simp [removeAll]
  | cons k rest ih =>
      rw [removeAll, List.foldl_cons]
      refine ih.trans ?_
      simp only [mem_remove, List.mem_cons, not_or]
      tauto

section
variable (order : Order K) (n : Nat)

section
omit [DecidableEq K]

theorem take_nodup (s : HashSet K) : (s.take order n).Nodup :=
  ((order.perm s.items).nodup_iff.mpr s.nodup).sublist (List.take_sublist _ _)

theorem mem_of_mem_take (h : k ∈ s.take order n) : k ∈ s := (order.perm s.items).mem_iff.mp (List.mem_of_mem_take h)

theorem take_length_le (s : HashSet K) : (s.take order n).length ≤ n := List.length_take_le _ _

theorem take_of_isEmpty (h : s.isEmpty = true) : s.take order n = [] := by
  cases items : s.take order n with
  | nil => rfl
  | cons k rest =>
      have mem : k ∈ s := mem_of_mem_take order n (items ▸ List.mem_cons_self)
      have empty : s.items = [] := List.isEmpty_iff.mp h
      change k ∈ s.items at mem
      rw [empty] at mem
      cases mem

end
end

end HashSet
end Library
