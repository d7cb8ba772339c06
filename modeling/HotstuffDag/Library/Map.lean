import Mathlib.Algebra.Ring.Nat
import Mathlib.Data.List.Basic

/-! # Finite maps

Association lists with one entry for each key, for programs whose maps are read, written,
filtered and walked, and which have to run inside the kernel. -/

namespace Library

structure Map (K V : Type) where
  entries : List (K × V)
  deriving Repr, DecidableEq

namespace Map
variable {K V : Type} [DecidableEq K]

def empty : Map K V := ⟨[]⟩

def find (k : K) : List (K × V) → Option V
  | [] => none
  | (k', v) :: rest => if k' = k then some v else find k rest

def get? (m : Map K V) (k : K) : Option V := find k m.entries

def contains (m : Map K V) (k : K) : Bool := (m.get? k).isSome

def getD (m : Map K V) (k : K) (default : V) : V := (m.get? k).getD default

def retain (m : Map K V) (p : K → Bool) : Map K V := ⟨m.entries.filter fun e => p e.1⟩

def insert (m : Map K V) (k : K) (v : V) : Map K V :=
  ⟨(k, v) :: m.entries.filter fun e => e.1 ≠ k⟩

/-- Write `v` at `k` unless `k` is there already. -/
def orInsert (m : Map K V) (k : K) (v : V) : Map K V :=
  if m.contains k then m else m.insert k v

def remove (m : Map K V) (k : K) : Map K V := m.retain fun k' => k' ≠ k

/-- Keep the entries whose value satisfies the predicate. -/
def retainValues (m : Map K V) (p : V → Bool) : Map K V := m.retain fun k => (m.get? k).any p

def keys (m : Map K V) : List K := m.entries.map Prod.fst

def values (m : Map K V) : List V := m.entries.map Prod.snd

theorem find_filter (p : K → Bool) (k : K) (l : List (K × V)) :
    find k (l.filter fun e => p e.1) = if p k then find k l else none := by
  induction l with
  | nil => simp [find]
  | cons e rest ih =>
      obtain ⟨k', v⟩ := e
      by_cases same : k' = k
      · subst same
        by_cases keep : p k' = true <;> simp [find, keep, ih]
      · by_cases keep : p k' = true <;> simp [find, keep, ih, same]

@[simp] theorem get?_empty (k : K) : (empty : Map K V).get? k = none := rfl

theorem get?_retain (m : Map K V) (p : K → Bool) (k : K) :
    (m.retain p).get? k = if p k then m.get? k else none :=
  find_filter p k m.entries

theorem get?_insert (m : Map K V) (k : K) (v : V) (k' : K) :
    (m.insert k v).get? k' = if k = k' then some v else m.get? k' := by
  by_cases same : k = k'
  · simp [insert, get?, find, same]
  · have other : k' ≠ k := fun h => same h.symm
    have filtered := find_filter (V := V) (fun e => decide (e ≠ k)) k' m.entries
    simp only [decide_eq_true_eq, if_pos other] at filtered
    simp only [insert, get?, find, if_neg same]
    exact filtered

@[simp] theorem get?_insert_self (m : Map K V) (k : K) (v : V) :
    (m.insert k v).get? k = some v := by
  simp [get?_insert]

theorem get?_insert_ne (m : Map K V) {k k' : K} (v : V) (h : k ≠ k') :
    (m.insert k v).get? k' = m.get? k' := by
  simp [get?_insert, h]

theorem get?_of_retain {m : Map K V} {p : K → Bool} {k : K} {v : V}
    (h : (m.retain p).get? k = some v) : p k = true ∧ m.get? k = some v := by
  rw [get?_retain] at h
  split at h
  · exact ⟨‹_›, h⟩
  · contradiction

theorem get?_remove (m : Map K V) (k k' : K) : (m.remove k).get? k' = if k = k' then none else m.get? k' := by
  rw [remove, get?_retain]
  by_cases same : k = k'
  · simp [same]
  · simp [same, Ne.symm same]

@[simp] theorem get?_remove_self (m : Map K V) (k : K) : (m.remove k).get? k = none := by
  simp [get?_remove]

theorem get?_remove_ne (m : Map K V) {k k' : K} (h : k ≠ k') : (m.remove k).get? k' = m.get? k' := by
  simp [get?_remove, h]

theorem get?_retainValues (m : Map K V) (p : V → Bool) (k : K) :
    (m.retainValues p).get? k = (m.get? k).filter p := by
  rw [retainValues, get?_retain]
  cases m.get? k <;> simp [Option.filter]

theorem get?_orInsert (m : Map K V) (k : K) (v : V) (k' : K) :
    (m.orInsert k v).get? k' = if k = k' then some ((m.get? k).getD v) else m.get? k' := by
  unfold orInsert contains
  cases present : m.get? k with
  | some w => by_cases same : k = k' <;> simp_all
  | none => simp [get?_insert]

theorem contains_retain (m : Map K V) (p : K → Bool) (k : K) : (m.retain p).contains k = (p k && m.contains k) := by
  unfold contains
  rw [get?_retain]
  split <;> simp_all

theorem contains_insert (m : Map K V) (k : K) (v : V) (k' : K) :
    (m.insert k v).contains k' = (k = k' || m.contains k') := by
  unfold contains
  rw [get?_insert]
  split <;> simp_all

theorem getD_insert (m : Map K V) (k : K) (v : V) (k' : K) (default : V) :
    (m.insert k v).getD k' default = if k = k' then v else m.getD k' default := by
  unfold getD
  rw [get?_insert]
  split <;> rfl

theorem contains_foldl_insert (f : K → V) (ks : List K) (m : Map K V) (k : K) :
    (ks.foldl (fun m k => m.insert k (f k)) m).contains k = true ↔ k ∈ ks ∨ m.contains k = true := by
  induction ks generalizing m with
  | nil => simp
  | cons first rest ih =>
      rw [List.foldl_cons, ih, contains_insert, List.mem_cons, Bool.or_eq_true, decide_eq_true_iff, eq_comm (a := first)]
      tauto

theorem get?_foldl_remove (ks : List K) (m : Map K V) {k : K} (other : k ∉ ks) : (ks.foldl remove m).get? k = m.get? k := by
  induction ks generalizing m with
  | nil => rfl
  | cons first rest ih =>
      rw [List.foldl_cons, ih _ fun mem => other (List.mem_cons_of_mem _ mem)]
      apply get?_remove_ne
      intro same
      exact other (same ▸ List.mem_cons_self)

/-- Entries with distinct keys, inserted in order. -/
theorem entries_foldl_insert {α : Type} (f : α → K) (g : α → V) {l : List α} (distinct : (l.map f).Nodup) {m : Map K V}
    (fresh : ∀ e ∈ m.entries, e.1 ∉ l.map f) :
    (l.foldl (fun m a => m.insert (f a) (g a)) m).entries = (l.map fun a => (f a, g a)).reverse ++ m.entries := by
  induction l generalizing m with
  | nil => rfl
  | cons a rest ih =>
      obtain ⟨first, distinct⟩ := List.nodup_cons.mp distinct
      have others : m.entries.filter (fun e => e.1 ≠ f a) = m.entries := by
        refine List.filter_eq_self.mpr fun e mem => ?_
        have other : e.1 ≠ f a := fun same => fresh e mem (same ▸ List.mem_cons_self)
        simpa using other
      have kept : (m.insert (f a) (g a)).entries = (f a, g a) :: m.entries := by
        unfold insert
        rw [others]
      rw [List.foldl_cons, ih distinct, kept]
      · simp
      · intro e mem
        rw [kept] at mem
        rcases List.mem_cons.mp mem with rfl | old
        · exact first
        · exact fun later => fresh e old (List.mem_cons_of_mem _ later)

theorem find_mem {k : K} {v : V} {l : List (K × V)} (h : find k l = some v) : (k, v) ∈ l := by
  induction l with
  | nil => simp [find] at h
  | cons e rest ih =>
      obtain ⟨k', w⟩ := e
      by_cases same : k' = k
      · simp only [find, if_pos same, Option.some.injEq] at h
        simp [same, h]
      · simp only [find, if_neg same] at h
        exact List.mem_cons_of_mem _ (ih h)

omit [DecidableEq K] in
theorem keys_retain (m : Map K V) (p : K → Bool) : (m.retain p).keys = m.keys.filter p := by
  unfold keys retain
  rw [List.filter_map]
  rfl

theorem keys_insert (m : Map K V) (k : K) (v : V) : (m.insert k v).keys = k :: m.keys.filter fun k' => k' ≠ k := by
  unfold keys insert
  rw [List.map_cons, List.filter_map]
  rfl

theorem mem_keys {m : Map K V} {k : K} {v : V} (h : m.get? k = some v) : k ∈ m.keys :=
  List.mem_map.mpr ⟨(k, v), find_mem h, rfl⟩

/-! ## What all keys have in common -/

def Within (m : Map K V) (P : K → Prop) : Prop := ∀ k ∈ m.keys, P k

omit [DecidableEq K] in
theorem Within.empty {P : K → Prop} : (empty : Map K V).Within P := fun _ mem => absurd mem List.not_mem_nil

omit [DecidableEq K] in
theorem Within.mono {m : Map K V} {P P' : K → Prop} (h : m.Within P) (le : ∀ k, P k → P' k) : m.Within P' :=
  fun k mem => le k (h k mem)

theorem Within.insert {m : Map K V} {P : K → Prop} (h : m.Within P) {k : K} (holds : P k) (v : V) : (m.insert k v).Within P := by
  intro k' mem
  rw [keys_insert] at mem
  rcases List.mem_cons.mp mem with rfl | old
  · exact holds
  · exact h k' (List.mem_filter.mp old).1

theorem Within.orInsert {m : Map K V} {P : K → Prop} (h : m.Within P) {k : K} (holds : P k) (v : V) :
    (m.orInsert k v).Within P := by
  unfold Map.orInsert
  split
  · exact h
  · exact h.insert holds v

omit [DecidableEq K] in
theorem Within.retain {m : Map K V} {P : K → Prop} (h : m.Within P) (p : K → Bool) :
    (m.retain p).Within fun k => P k ∧ p k = true := by
  intro k mem
  rw [keys_retain] at mem
  obtain ⟨old, kept⟩ := List.mem_filter.mp mem
  exact ⟨h k old, kept⟩

/-- What a lookup returns is among the values. -/
theorem mem_values {m : Map K V} {k : K} {v : V} (h : m.get? k = some v) : v ∈ m.values :=
  List.mem_map.mpr ⟨(k, v), find_mem h, rfl⟩

end Map
end Library
