import HotstuffDag.Library.Schedule
import Mathlib.Logic.Relation

/-! # Replays

Replicas follow the same rules, each as far as it has got. In an epoch the heights of its leader are served in order, each
after the heights of others that it refers to, until the epoch ends and the leader goes on further up. If the rules leave no
choice, one replica has served a part of what the other has, in the same order. -/

namespace Library.Replay
open Schedule
variable {Owner Epoch Ref : Type*}

structure Rules (Owner Epoch Ref : Type*) where
  leader : Epoch → Owner
  next : Epoch → Epoch
  /-- How far the leader is moved up when its epoch ends. -/
  skip : ℕ
  refers : Owner → ℕ → List Ref → Prop
  names : Ref → Owner × ℕ → Prop
  ends : Epoch → ℕ → Prop

/-- The rules leave no choice. -/
structure Rules.Functional (R : Rules Owner Epoch Ref) : Prop where
  refers : ∀ {o h refs refs'}, R.refers o h refs → R.refers o h refs' → refs = refs'
  names : ∀ ref p p', R.names ref p → R.names ref p' → p = p'
  ends : ∀ {e output output'}, R.ends e output → R.ends e output' → output = output'

/-- How far a replica has got, and what it has served, each height with the owner who led at the time. -/
structure Front (Owner Epoch : Type*) where
  epoch : Epoch
  count : Owner → ℕ
  sent : List (Owner × Owner × ℕ)

/-- The first of the references that has not been served, or else the height itself. -/
inductive Due (names : Ref → Owner × ℕ → Prop) (count : Owner → ℕ) (own : Owner × ℕ) : List Ref → Owner × ℕ → Prop
  | last : Due names count own [] own
  | served {ref rest p due} (named : names ref p) (done : p.2 ≤ count p.1) (later : Due names count own rest due) :
      Due names count own (ref :: rest) due
  | first {ref rest p} (named : names ref p) (ahead : count p.1 < p.2) : Due names count own (ref :: rest) p

namespace Due
variable {names : Ref → Owner × ℕ → Prop} {count : Owner → ℕ} {own p p' : Owner × ℕ} {refs : List Ref}

theorem unique (functional : ∀ ref p p', names ref p → names ref p' → p = p') (h : Due names count own refs p)
    (h' : Due names count own refs p') : p = p' := by
  induction h with
  | last =>
      cases h'
      rfl
  | served named done _ ih =>
      cases h' with
      | served _ _ later => exact ih later
      | first named' ahead =>
          obtain rfl := functional _ _ _ named named'
          exact absurd ahead (Nat.not_lt.mpr done)
  | first named ahead =>
      cases h' with
      | served named' done _ =>
          obtain rfl := functional _ _ _ named named'
          exact absurd ahead (Nat.not_lt.mpr done)
      | first named' _ => exact functional _ _ _ named named'

theorem ahead (h : Due names count own refs p) (above : count own.1 < own.2) : count p.1 < p.2 := by
  induction h with
  | last => exact above
  | served _ _ _ ih => exact ih
  | first _ ahead => exact ahead

end Due

variable [DecidableEq Owner]

namespace Rules
variable (R : Rules Owner Epoch Ref)

/-- The owner is served up to the height. -/
def serve (f : Front Owner Epoch) (p : Owner × ℕ) : Front Owner Epoch :=
  ⟨f.epoch, Function.update f.count p.1 p.2, f.sent ++ (stretch p.1 (f.count p.1) p.2).map fun q => (R.leader f.epoch, q)⟩

def finish (f : Front Owner Epoch) (output : ℕ) : Front Owner Epoch :=
  ⟨R.next f.epoch, Function.update f.count (R.leader f.epoch) (output + R.skip), f.sent⟩

/-- The next height of the leader. -/
def following (f : Front Owner Epoch) : Owner × ℕ := (R.leader f.epoch, f.count (R.leader f.epoch) + 1)

inductive Step : Front Owner Epoch → Front Owner Epoch → Prop
  | serve {f refs p} (refers : R.refers (R.following f).1 (R.following f).2 refs) (due : Due R.names f.count (R.following f) refs p)
      (within : ∀ output, R.ends f.epoch output → (R.following f).2 ≤ output) : Step f (R.serve f p)
  | finish {f output} (ends : R.ends f.epoch output) (reached : output ≤ f.count (R.leader f.epoch))
      (near : f.count (R.leader f.epoch) ≤ output + R.skip) : Step f (R.finish f output)

abbrev Run : Front Owner Epoch → Front Owner Epoch → Prop := Relation.ReflTransGen R.Step

end Rules

variable {R : Rules Owner Epoch Ref} {f f' f'' : Front Owner Epoch}

theorem Rules.Functional.step_unique (functional : R.Functional) : Relator.RightUnique R.Step := by
  intro f f' f'' h h'
  cases h with
  | serve refers due within =>
      cases h' with
      | serve refers' due' _ =>
          obtain rfl := functional.refers refers refers'
          rw [due.unique functional.names due']
      | finish ends reached _ => exact absurd (within _ ends) (Nat.not_le.mpr (Nat.lt_succ_of_le reached))
  | finish ends reached _ =>
      cases h' with
      | serve _ _ within => exact absurd (within _ ends) (Nat.not_le.mpr (Nat.lt_succ_of_le reached))
      | finish ends' _ _ => rw [functional.ends ends ends']

namespace Rules.Step

theorem sent_prefix (h : R.Step f f') : f.sent <+: f'.sent := by
  cases h with
  | serve => exact List.prefix_append _ _
  | finish => exact List.prefix_refl _

theorem count_le (h : R.Step f f') (o : Owner) : f.count o ≤ f'.count o := by
  have updated (p : Owner × ℕ) (le : f.count p.1 ≤ p.2) : f.count o ≤ Function.update f.count p.1 p.2 o := by
    by_cases same : o = p.1
    · subst same
      rw [Function.update_self]
      exact le
    · rw [Function.update_of_ne same]
  cases h with
  | serve _ due => exact updated _ (Nat.le_of_lt (due.ahead (Nat.lt_succ_self _)))
  | finish _ _ near => exact updated (_, _) near

/-- What is served is counted. -/
theorem counted (h : R.Step f f') (all : ∀ x ∈ f.sent, x.2.2 ≤ f.count x.2.1) : ∀ x ∈ f'.sent, x.2.2 ≤ f'.count x.2.1 := by
  intro x mem
  have grown := h.count_le x.2.1
  cases h with
  | serve =>
      rcases List.mem_append.mp mem with old | new
      · exact (all x old).trans grown
      · obtain ⟨p, served, rfl⟩ := List.mem_map.mp new
        obtain ⟨owner, -, le⟩ := mem_stretch.mp served
        show p.2 ≤ Function.update f.count _ _ p.1
        rw [owner, Function.update_self]
        exact le
  | finish => exact (all x mem).trans grown

end Rules.Step

namespace Rules.Run

theorem sent_prefix (h : R.Run f f') : f.sent <+: f'.sent := by
  induction h with
  | refl => exact List.prefix_refl _
  | tail _ step ih => exact ih.trans step.sent_prefix

theorem count_le (h : R.Run f f') (o : Owner) : f.count o ≤ f'.count o := by
  induction h with
  | refl => exact Nat.le_refl _
  | tail _ step ih => exact ih.trans (step.count_le o)

theorem counted (h : R.Run f f') (all : ∀ x ∈ f.sent, x.2.2 ≤ f.count x.2.1) : ∀ x ∈ f'.sent, x.2.2 ≤ f'.count x.2.1 := by
  induction h with
  | refl => exact all
  | tail _ step ih => exact step.counted ih

/-- Two replicas that have started from the same front have served the same, as far as both have got. -/
theorem comparable (functional : R.Functional) (h : R.Run f f') (h' : R.Run f f'') :
    f'.sent <+: f''.sent ∨ f''.sent <+: f'.sent :=
  (Relation.ReflTransGen.total_of_right_unique functional.step_unique h h').imp sent_prefix sent_prefix

end Rules.Run
end Library.Replay
