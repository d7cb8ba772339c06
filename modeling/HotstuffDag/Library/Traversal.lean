import Mathlib.Data.Fintype.Card
import Mathlib.Data.Set.Finite.Basic
import Mathlib.Logic.Relation

/-! # Traversals in order

A traversal goes through what a node asks for, one after the other and each of them to its end, and stops where something is
missing. -/

namespace Library.Traversal
open Relation

section
variable {α : Type*} (asks : α → List (Option α))

/-- The search of what is listed ends, with nothing missing or with something missing. -/
inductive Ends : List (Option α) → Bool → Prop
  | done : Ends [] true
  | missing {rest : List (Option α)} : Ends (none :: rest) false
  | stuck {a : α} {rest : List (Option α)} (inner : Ends (asks a) false) : Ends (some a :: rest) false
  | next {a : α} {rest : List (Option α)} {r : Bool} (inner : Ends (asks a) true) (later : Ends rest r) : Ends (some a :: rest) r

/-- Something is missing in the list, or further on. -/
def Flawed (l : List (Option α)) : Prop :=
  none ∈ l ∨ ∃ a, some a ∈ l ∧ ∃ b, ReflTransGen (fun a b => some b ∈ asks a) a b ∧ none ∈ asks b

/-- Nothing is missing in what a node asks for before the other. -/
def Clear (a b : α) : Prop := ∃ before after, asks a = before ++ some b :: after ∧ ¬ Flawed asks before

/-- From the node on, a node is met that leads back to itself. -/
def GoesRound (a : α) : Prop := ∃ b, ReflTransGen (Clear asks) a b ∧ TransGen (Clear asks) b b

end

section
variable {α : Type*} {asks : α → List (Option α)} {a : α} {l l' : List (Option α)} {r : Bool}

theorem Flawed.cons {x : Option α} (h : Flawed asks l) : Flawed asks (x :: l) :=
  h.imp (List.mem_cons_of_mem _) fun ⟨a, mem, leads⟩ => ⟨a, List.mem_cons_of_mem _ mem, leads⟩

theorem Flawed.through (h : Flawed asks (asks a)) : Flawed asks (some a :: l) := by
  refine .inr ⟨a, List.mem_cons_self, ?_⟩
  rcases h with missing | ⟨b, mem, c, leads, missing⟩
  · exact ⟨a, .refl, missing⟩
  · exact ⟨c, .head mem leads, missing⟩

namespace Ends

theorem append (h : Ends asks l true) (h' : Ends asks l' r) : Ends asks (l ++ l') r := by
  generalize complete : true = x at h
  induction h with
  | done => exact h'
  | missing => contradiction
  | stuck => contradiction
  | next inner _ _ ih => exact .next inner (ih complete)

theorem append_false (h : Ends asks l false) : Ends asks (l ++ l') false := by
  generalize stopped : false = x at h
  induction h with
  | done => contradiction
  | missing => exact .missing
  | stuck inner => exact .stuck inner
  | next inner _ _ ih => exact .next inner (ih stopped)

theorem inner {x : Option α} (h : Ends asks l r) (complete : r = true) (mem : x ∈ l) :
    ∃ a, x = some a ∧ Ends asks (asks a) true := by
  induction h with
  | done => exact absurd mem List.not_mem_nil
  | missing => contradiction
  | stuck => contradiction
  | @next a _ _ inner _ _ ih =>
      rcases List.mem_cons.mp mem with rfl | later
      · exact ⟨a, rfl, inner⟩
      · exact ih complete later

theorem of_inner (all : ∀ x ∈ l, ∃ a, x = some a ∧ Ends asks (asks a) true) : Ends asks l true := by
  induction l with
  | nil => exact .done
  | cons x rest ih =>
      obtain ⟨a, rfl, inner⟩ := all x List.mem_cons_self
      exact .next inner (ih fun y mem => all y (List.mem_cons_of_mem _ mem))

theorem of_subset (h : Ends asks l true) (le : l' ⊆ l) : Ends asks l' true :=
  of_inner fun _ mem => h.inner rfl (le mem)

theorem not_flawed (h : Ends asks l true) : ¬ Flawed asks l := by
  rintro (missing | ⟨a, mem, b, leads, missing⟩)
  · obtain ⟨_, present, -⟩ := h.inner rfl missing
    contradiction
  · obtain ⟨_, same, ends⟩ := h.inner rfl mem
    obtain rfl := Option.some.inj same
    -- All that is met on the way is searched without a miss.
    have further : Ends asks (asks b) true := by
      clear missing
      induction leads with
      | refl => exact ends
      | tail _ asked ih =>
          obtain ⟨_, same, ends⟩ := ih.inner rfl asked
          rwa [Option.some.inj same]
    obtain ⟨_, present, -⟩ := further.inner rfl missing
    contradiction

theorem flawed (h : Ends asks l false) : Flawed asks l := by
  generalize stopped : false = x at h
  induction h with
  | done => contradiction
  | missing => exact .inl List.mem_cons_self
  | stuck _ ih => exact (ih stopped).through
  | next _ _ _ ih => exact (ih stopped).cons

/-- Where the search ends, no node can be followed for ever. -/
theorem acc_of_clear (h : Ends asks l r) {before after : List (Option α)} {b : α} (split : l = before ++ some b :: after)
    (clear : ¬ Flawed asks before) : Acc (fun b a => Clear asks a b) b := by
  induction h generalizing before after b with
  | done => simp at split
  | missing =>
      cases before with
      | nil => simp at split
      | cons x before =>
          obtain ⟨rfl, -⟩ := List.cons.inj split
          exact absurd (.inl List.mem_cons_self) clear
  | stuck inner ih =>
      cases before with
      | nil =>
          obtain ⟨same, -⟩ := List.cons.inj split
          obtain rfl := Option.some.inj same
          exact ⟨_, fun _ ⟨_, _, split, clear⟩ => ih split clear⟩
      | cons x before =>
          obtain ⟨rfl, -⟩ := List.cons.inj split
          exact absurd inner.flawed.through clear
  | next inner later ih ih' =>
      cases before with
      | nil =>
          obtain ⟨same, -⟩ := List.cons.inj split
          obtain rfl := Option.some.inj same
          exact ⟨_, fun _ ⟨_, _, split, clear⟩ => ih split clear⟩
      | cons x before =>
          obtain ⟨rfl, rest⟩ := List.cons.inj split
          exact ih' rest fun flawed => clear flawed.cons

theorem acc (h : Ends asks (asks a) r) : Acc (fun b a => Clear asks a b) a :=
  ⟨a, fun _ ⟨_, _, split, clear⟩ => h.acc_of_clear split clear⟩

/-- If all nodes that can be followed from a node are searched to an end, so is the node. -/
theorem of_clear (all : ∀ b, Clear asks a b → ∃ r, Ends asks (asks b) r) : ∃ r, Ends asks (asks a) r := by
  have suffix (l before : List (Option α)) (split : asks a = before ++ l) (searched : Ends asks before true) :
      ∃ r, Ends asks l r := by
    induction l generalizing before with
    | nil => exact ⟨true, .done⟩
    | cons x rest ih =>
        cases x with
        | none => exact ⟨false, .missing⟩
        | some b =>
            obtain ⟨r, inner⟩ := all b ⟨before, rest, split, searched.not_flawed⟩
            cases r with
            | false => exact ⟨false, .stuck inner⟩
            | true =>
                obtain ⟨r, later⟩ := ih (before ++ [some b]) (by rw [split, List.append_assoc]; rfl)
                  (searched.append (.next inner .done))
                exact ⟨r, .next inner later⟩
  exact suffix (asks a) [] rfl .done

theorem of_acc (h : Acc (fun b a => Clear asks a b) a) : ∃ r, Ends asks (asks a) r := by
  induction h with
  | intro a _ ih => exact of_clear ih

/-- A bound for a node from a bound for all that is asked for in its search gives one wherever the search ends. -/
theorem bound {P : ℕ → α → Prop} (mono : ∀ {n n' a}, n ≤ n' → P n a → P n' a)
    (step : ∀ a n, (∀ before b after, asks a = before ++ some b :: after → Ends asks before true → P n b) → ∃ n', P n' a)
    (h : Ends asks l r) : ∃ n, ∀ before a after, l = before ++ some a :: after → Ends asks before true → P n a := by
  induction h with
  | done => exact ⟨0, fun before a after split => by simp at split⟩
  | missing =>
      refine ⟨0, fun before a after split searched => ?_⟩
      cases before with
      | nil => simp at split
      | cons x before =>
          obtain ⟨rfl, -⟩ := List.cons.inj split
          obtain ⟨_, present, -⟩ := searched.inner rfl List.mem_cons_self
          contradiction
  | @stuck a _ inner ih =>
      obtain ⟨n, within⟩ := ih
      obtain ⟨n', bounded⟩ := step a n within
      refine ⟨n', fun before b after split searched => ?_⟩
      cases before with
      | nil =>
          obtain ⟨same, -⟩ := List.cons.inj split
          rwa [← Option.some.inj same]
      | cons x before =>
          obtain ⟨rfl, -⟩ := List.cons.inj split
          exact absurd inner.flawed.through searched.not_flawed
  | @next a _ _ inner later ih ih' =>
      obtain ⟨n, within⟩ := ih
      obtain ⟨n', bounded⟩ := step a n within
      obtain ⟨m, beyond⟩ := ih'
      refine ⟨max n' m, fun before b after split searched => ?_⟩
      cases before with
      | nil =>
          obtain ⟨same, -⟩ := List.cons.inj split
          rw [← Option.some.inj same]
          exact mono (Nat.le_max_left _ _) bounded
      | cons x before =>
          obtain ⟨rfl, rest⟩ := List.cons.inj split
          exact mono (Nat.le_max_right _ _) (beyond before b after rest (searched.of_subset (List.subset_cons_self _ _)))

end Ends

/-- Nothing comes before the first. -/
theorem Clear.first {b : α} (asked : asks a = some b :: l) : Clear asks a b := by
  refine ⟨[], l, asked, ?_⟩
  rintro (missing | ⟨a, mem, -⟩)
  · exact absurd missing List.not_mem_nil
  · exact absurd mem List.not_mem_nil

theorem Clear.asked {b : α} (h : Clear asks a b) : some b ∈ asks a := by
  obtain ⟨before, after, split, -⟩ := h
  rw [split]
  exact List.mem_append_right _ List.mem_cons_self

/-- Nothing can be followed behind what is missing. -/
theorem Clear.ne_missing {b : α} (h : Clear asks a b) : asks a ≠ none :: l := by
  obtain ⟨before, after, split, clear⟩ := h
  rw [split]
  intro missing
  cases before with
  | nil => simp at missing
  | cons x before =>
      obtain ⟨rfl, -⟩ := List.cons.inj missing
      exact clear (.inl List.mem_cons_self)

theorem GoesRound.step (h : GoesRound asks a) : ∃ b, Clear asks a b ∧ GoesRound asks b := by
  obtain ⟨b, reached, round⟩ := h
  rcases reached.cases_head with rfl | ⟨c, step, further⟩
  · obtain ⟨c, step, back⟩ := TransGen.head'_iff.mp round
    exact ⟨c, step, a, back, round⟩
  · exact ⟨c, step, b, further, round⟩

/-- Among finitely many nodes, to be followed for ever is to be led round. -/
theorem acc_iff_not_goesRound {nodes : Set α} (finite : nodes.Finite) (here : a ∈ nodes)
    (closed : ∀ a ∈ nodes, ∀ b, some b ∈ asks a → b ∈ nodes) :
    Acc (fun b a => Clear asks a b) a ↔ ¬ GoesRound asks a := by
  constructor
  · rintro acc ⟨b, reached, round⟩
    have accessible : Acc (fun b a => Clear asks a b) b := by
      clear round
      induction reached with
      | refl => exact acc
      | tail _ step ih => exact ih.inv step
    have never {b : α} (acc : Acc (TransGen fun b a => Clear asks a b) b) : ¬ TransGen (fun b a => Clear asks a b) b b := by
      induction acc with
      | intro b _ ih => exact fun self => ih b self self
    exact never accessible.transGen round.swap
  · intro straight
    have within {b : α} (reached : ReflTransGen (Clear asks) a b) : b ∈ nodes := by
      induction reached with
      | refl => exact here
      | tail _ step ih => exact closed _ ih _ step.asked
    have : Finite { b // ReflTransGen (Clear asks) a b } := (finite.subset fun _ => within).to_subtype
    let Before (y x : { b // ReflTransGen (Clear asks) a b }) : Prop := TransGen (Clear asks) x.1 y.1
    have : IsTrans _ Before := ⟨fun _ _ _ later earlier => earlier.trans later⟩
    have : Std.Irrefl Before := ⟨fun x round => straight ⟨x.1, x.2, round⟩⟩
    have accessible (x : { b // ReflTransGen (Clear asks) a b }) : Acc (fun b a => Clear asks a b) x.1 := by
      induction x using (Finite.wellFounded_of_trans_of_irrefl Before).induction with
      | _ x ih => exact ⟨_, fun b step => ih ⟨b, x.2.tail step⟩ (.single step)⟩
    exact accessible ⟨a, .refl⟩

/-- The search from a node ends, among finitely many nodes, unless it is led round. -/
theorem ends_iff {nodes : Set α} (finite : nodes.Finite) (here : a ∈ nodes)
    (closed : ∀ a ∈ nodes, ∀ b, some b ∈ asks a → b ∈ nodes) : (∃ r, Ends asks (asks a) r) ↔ ¬ GoesRound asks a :=
  ⟨fun ⟨_, ends⟩ => (acc_iff_not_goesRound finite here closed).mp ends.acc,
    fun straight => Ends.of_acc ((acc_iff_not_goesRound finite here closed).mpr straight)⟩

end
end Library.Traversal
