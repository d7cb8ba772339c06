import HotstuffDag.Library.Exec

/-! # Programs that commute with a map of the states

From the mapped state such a program does what it does from the state itself, and the map stays on what it leaves. -/

namespace Library.Exec
variable {ε σ α β : Type}

/-- An exit with its state mapped. -/
def mapState (g : σ → σ) : EStateM.Result ε σ α → EStateM.Result ε σ α
  | .ok a s => .ok a (g s)
  | .error e s => .error e (g s)

def Commutes (g : σ → σ) (x : EStateM ε σ α) : Prop := ∀ s, x (g s) = mapState g (x s)

namespace Commutes
variable {g : σ → σ} {x y : EStateM ε σ α} {f : α → EStateM ε σ β}

theorem pure (a : α) : Commutes g (pure a : EStateM ε σ α) := fun _ => rfl

theorem throw (e : ε) : Commutes g (throw e : EStateM ε σ α) := fun _ => rfl

theorem bind (hx : Commutes g x) (hf : ∀ a, Commutes g (f a)) : Commutes g (x >>= f) := by
  intro s
  rw [bind_eq, bind_eq, hx s]
  cases x s with
  | ok a t => exact hf a t
  | error e t => rfl

/-- What is read of the state is not what the map changes. -/
theorem get {f : σ → EStateM ε σ β} (same : ∀ s, f (g s) = f s) (hf : ∀ s, Commutes g (f s)) : Commutes g (get >>= f) := by
  intro s
  show f (g s) (g s) = mapState g (f s s)
  rw [same]
  exact hf s s

theorem modify {h : σ → σ} (comm : ∀ s, h (g s) = g (h s)) : Commutes g (modify h : EStateM ε σ PUnit) := by
  intro s
  show EStateM.Result.ok PUnit.unit (h (g s)) = .ok PUnit.unit (g (h s))
  rw [comm]

theorem ite {c : Prop} [Decidable c] (hx : Commutes g x) (hy : Commutes g y) : Commutes g (if c then x else y) := by
  split
  · exact hx
  · exact hy

/-- The program leaves the mapped state. -/
theorem final (h : Commutes g x) (s : σ) : Exec.final x (g s) = g (Exec.final x s) := by
  unfold Exec.final
  rw [h s]
  cases x s with
  | ok a t => rfl
  | error e t => rfl

end Commutes
end Library.Exec
