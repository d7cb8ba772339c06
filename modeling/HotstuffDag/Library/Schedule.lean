import Mathlib.Data.List.Nodup
import Mathlib.Data.List.Range
import Mathlib.Logic.Function.Basic

/-! # Schedules

Each owner has a count. A request asks for all heights of an owner up to the given one, and is served from below with
those that are above the count and have not been served before. -/

namespace Library.Schedule
variable {Owner : Type*}

def stretch (o : Owner) (low high : ℕ) : List (Owner × ℕ) := (List.range' (low + 1) (high - low)).map fun h => (o, h)

section
variable {o o' : Owner} {low mid high h : ℕ}

@[simp] theorem mem_stretch : (o', h) ∈ stretch o low high ↔ o' = o ∧ low < h ∧ h ≤ high := by
  simp only [stretch, List.mem_map, List.mem_range'_1, Prod.mk.injEq]
  constructor
  · rintro ⟨h', ⟨above, below⟩, rfl, rfl⟩
    exact ⟨rfl, by omega⟩
  · rintro ⟨rfl, above, below⟩
    exact ⟨h, by omega, rfl, rfl⟩

theorem nodup_stretch : (stretch o low high).Nodup :=
  List.Nodup.map (fun _ _ same => (Prod.mk.inj same).2) List.nodup_range'

theorem stretch_eq_nil (le : high ≤ low) : stretch o low high = [] := by
  rw [stretch, Nat.sub_eq_zero_of_le le]
  rfl

theorem stretch_cons (lt : low < high) : stretch o low high = (o, low + 1) :: stretch o (low + 1) high := by
  rw [stretch, show high - low = (high - (low + 1)) + 1 by omega, List.range'_succ]
  rfl

theorem stretch_append (first : low ≤ mid) (second : mid ≤ high) :
    stretch o low high = stretch o low mid ++ stretch o mid high := by
  have split := List.range'_append_1 (s := low + 1) (m := mid - low) (n := high - mid)
  rw [show low + 1 + (mid - low) = mid + 1 by omega, show mid - low + (high - mid) = high - low by omega] at split
  rw [stretch, ← split, List.map_append]
  rfl

end

section
variable {count reached : Owner → ℕ} {served : List (Owner × ℕ)}

/-- What has been served of each owner goes from its count to where it has got. -/
structure Reaches (count reached : Owner → ℕ) (served : List (Owner × ℕ)) : Prop where
  order : ∀ o, count o ≤ reached o
  mem : ∀ o h, (o, h) ∈ served ↔ count o < h ∧ h ≤ reached o

/-- The last height of the owner is the largest one that it is served, if it is served at all. -/
structure LargestServed (served : List (Owner × ℕ)) (o : Owner) (first last : ℕ) : Prop where
  largest : ∀ h, (o, h) ∈ served → (o, last) ∈ served ∧ h ≤ last
  unserved : (∀ h, (o, h) ∉ served) → last = first

theorem Reaches.nil (count : Owner → ℕ) : Reaches count count [] where
  order := fun _ => Nat.le_refl _
  mem := by
    intro o h
    simp only [List.not_mem_nil, false_iff]
    omega

theorem Reaches.largest (h : Reaches count reached served) (o : Owner) : LargestServed served o (count o) (reached o) where
  largest := by
    intro h' mem
    have range := (h.mem o h').mp mem
    exact ⟨(h.mem o _).mpr ⟨by omega, Nat.le_refl _⟩, range.2⟩
  unserved := by
    intro none
    have order := h.order o
    by_contra moved
    exact none (reached o) ((h.mem o _).mpr ⟨by omega, Nat.le_refl _⟩)

end

variable [DecidableEq Owner]

/-- What has not been served of a request. -/
def missing (count : Owner → ℕ) (served : List (Owner × ℕ)) (request : Owner × ℕ) : List (Owner × ℕ) :=
  (stretch request.1 (count request.1) request.2).filter (· ∉ served)

def serve (count : Owner → ℕ) (served : List (Owner × ℕ)) (request : Owner × ℕ) : List (Owner × ℕ) :=
  served ++ missing count served request

def schedule (count : Owner → ℕ) (requests : List (Owner × ℕ)) : List (Owner × ℕ) := requests.foldl (serve count) []

section
variable {count reached : Owner → ℕ} {served requests : List (Owner × ℕ)}

theorem nodup_serve (h : served.Nodup) (request : Owner × ℕ) : (serve count served request).Nodup := by
  apply List.Nodup.append h (nodup_stretch.filter _)
  intro x old new
  have fresh := (List.mem_filter.mp new).2
  exact of_decide_eq_true fresh old

/-- No height is served twice. -/
theorem nodup_schedule (count : Owner → ℕ) (requests : List (Owner × ℕ)) : (schedule count requests).Nodup := by
  have along (served : List (Owner × ℕ)) (h : served.Nodup) : (requests.foldl (serve count) served).Nodup := by
    induction requests generalizing served with
    | nil => exact h
    | cons request rest ih => exact ih _ (nodup_serve h request)
  exact along [] List.nodup_nil

namespace Reaches

/-- A request is served from where its owner has got. -/
theorem missing_eq (h : Reaches count reached served) (o : Owner) (high : ℕ) :
    missing count served (o, high) = stretch o (reached o) high := by
  have order := h.order o
  have old (high : ℕ) (le : high ≤ reached o) : (stretch o (count o) high).filter (· ∉ served) = [] := by
    apply List.filter_eq_nil_iff.mpr
    rintro ⟨o', h'⟩ mem
    obtain ⟨rfl, above, below⟩ := mem_stretch.mp mem
    simpa using (h.mem o' h').mpr ⟨above, by omega⟩
  unfold missing
  rcases Nat.le_total high (reached o) with le | ge
  · rw [old high le, stretch_eq_nil le]
  · dsimp only
    rw [stretch_append order ge, List.filter_append, old _ (Nat.le_refl _), List.nil_append]
    apply List.filter_eq_self.mpr
    rintro ⟨o', h'⟩ mem
    obtain ⟨rfl, above, -⟩ := mem_stretch.mp mem
    have fresh : (o', h') ∉ served := fun known => by
      have := ((h.mem o' h').mp known).2
      omega
    simpa using fresh

theorem serve (h : Reaches count reached served) (o : Owner) (high : ℕ) :
    Reaches count (Function.update reached o (max (reached o) high)) (serve count served (o, high)) where
  order := by
    intro o'
    have order := h.order o'
    by_cases same : o' = o
    · subst same
      rw [Function.update_self]
      omega
    · rw [Function.update_of_ne same]
      exact order
  mem := by
    intro o' h'
    have order := h.order o'
    rw [Schedule.serve, h.missing_eq, List.mem_append, h.mem, mem_stretch]
    by_cases same : o' = o
    · subst same
      simp only [Function.update_self, true_and]
      omega
    · rw [Function.update_of_ne same]
      simp [same]

end Reaches

end
end Library.Schedule
