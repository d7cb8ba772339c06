import Mathlib.Algebra.Ring.Nat
import Mathlib.Logic.Relation

/-! # Stateful programs that fail

A program of `EStateM ε σ` keeps the state it had reached when it fails. What it does to the state
is therefore a relation between the states before and after, whichever way it exits. -/

namespace Library.Exec
variable {ε σ α β : Type}

/-- The state a program leaves, whichever way it exits. -/
def final (x : EStateM ε σ α) (s : σ) : σ :=
  match x s with
  | .ok _ s' => s'
  | .error _ s' => s'

/-- From `s` the program goes along `R` on every exit, and what it returns is in `Q`. -/
def Leads (R : σ → σ → Prop) (x : EStateM ε σ α) (s : σ) (Q : α → σ → Prop) : Prop :=
  match x s with
  | .ok a s' => R s s' ∧ Q a s'
  | .error _ s' => R s s'

section
variable {R : σ → σ → Prop} {x : EStateM ε σ α} {f : α → EStateM ε σ β} {s : σ} {Q Q' : α → σ → Prop}
  {T : β → σ → Prop}

theorem bind_eq (x : EStateM ε σ α) (f : α → EStateM ε σ β) (s : σ) :
    (x >>= f) s = match x s with
      | .ok a s' => f a s'
      | .error e s' => .error e s' := by
  change EStateM.bind x f s = _
  unfold EStateM.bind
  cases x s <;> rfl

theorem Leads.weaken (h : Leads R x s Q) (post : ∀ a s', R s s' → Q a s' → Q' a s') :
    Leads R x s Q' := by
  unfold Leads at h ⊢
  cases exit : x s with
  | ok a s' =>
      rw [exit] at h
      exact ⟨h.1, post a s' h.1 h.2⟩
  | error e s' =>
      rw [exit] at h
      exact h

theorem Leads.mono {R' : σ → σ → Prop} (h : Leads R x s Q) (le : ∀ s', R s s' → R' s s') :
    Leads R' x s Q := by
  unfold Leads at h ⊢
  cases exit : x s with
  | ok a s' =>
      rw [exit] at h
      exact ⟨le s' h.1, h.2⟩
  | error e s' =>
      rw [exit] at h
      exact le s' h

theorem Leads.final (h : Leads R x s Q) : R s (final x s) := by
  unfold Leads at h
  unfold Exec.final
  cases exit : x s with
  | ok a s' => rw [exit] at h; exact h.1
  | error e s' => rw [exit] at h; exact h

theorem Leads.of_final (h : R s (Exec.final x s)) : Leads R x s fun _ _ => True := by
  unfold Exec.final at h
  unfold Leads
  cases exit : x s with
  | ok a s' =>
      rw [exit] at h
      exact ⟨h, trivial⟩
  | error e s' =>
      rw [exit] at h
      exact h

theorem Leads.pure [Std.Refl R] {a : α} (h : Q a s) : Leads R (pure a : EStateM ε σ α) s Q :=
  ⟨Std.Refl.refl s, h⟩

theorem Leads.throw [Std.Refl R] {e : ε} : Leads R (throw e : EStateM ε σ α) s Q :=
  Std.Refl.refl (r := R) s

/-- A program may be followed from a state that the relation has reached. -/
theorem Leads.after [IsTrans σ R] {s' : σ} (reach : R s s') (h : Leads R x s' Q) :
    match x s' with
    | .ok a t => R s t ∧ Q a t
    | .error _ t => R s t := by
  unfold Leads at h
  cases exit : x s' with
  | ok a t => rw [exit] at h; exact ⟨IsTrans.trans _ _ _ reach h.1, h.2⟩
  | error e t => rw [exit] at h; exact IsTrans.trans _ _ _ reach h

theorem Leads.bind [IsTrans σ R] (hx : Leads R x s Q)
    (hf : ∀ a s', R s s' → Q a s' → Leads R (f a) s' T) : Leads R (x >>= f) s T := by
  unfold Leads at hx ⊢
  rw [bind_eq]
  cases exit : x s with
  | ok a s' => rw [exit] at hx; exact (hf a s' hx.1 hx.2).after hx.1
  | error e s' => rw [exit] at hx; exact hx

theorem Leads.get {f : σ → EStateM ε σ β} (h : Leads R (f s) s T) : Leads R (get >>= f) s T := h

theorem Leads.modify {g : σ → σ} {f : PUnit → EStateM ε σ β} [IsTrans σ R] (act : R s (g s))
    (h : Leads R (f ⟨⟩) (g s) T) : Leads R (modify g >>= f) s T := by
  have result := h.after act
  exact result

theorem Leads.ite {c : Prop} [Decidable c] {y : EStateM ε σ α} (hx : c → Leads R x s Q)
    (hy : ¬c → Leads R y s Q) : Leads R (if c then x else y) s Q := by
  by_cases h : c
  · simpa only [if_pos h] using hx h
  · simpa only [if_neg h] using hy h

end

/-! ## How a program ends -/

/-- The program ends in `Q` if it returns, and in `E` if it fails. -/
def Ends (x : EStateM ε σ α) (s : σ) (Q : α → σ → Prop) (E : ε → σ → Prop) : Prop :=
  match x s with
  | .ok a s' => Q a s'
  | .error e s' => E e s'

section
variable {x : EStateM ε σ α} {f : α → EStateM ε σ β} {s : σ} {Q Q' : α → σ → Prop} {T : β → σ → Prop}
  {E E' : ε → σ → Prop}

theorem Ends.pure {a : α} (h : Q a s) : Ends (pure a : EStateM ε σ α) s Q E := h

theorem Ends.throw {e : ε} (h : E e s) : Ends (throw e : EStateM ε σ α) s Q E := h

theorem Ends.weaken (h : Ends x s Q E) (post : ∀ a s', Q a s' → Q' a s') (fail : ∀ e s', E e s' → E' e s') :
    Ends x s Q' E' := by
  unfold Ends at h ⊢
  cases exit : x s with
  | ok a s' =>
      rw [exit] at h
      exact post a s' h
  | error e s' =>
      rw [exit] at h
      exact fail e s' h

theorem Ends.and {E₀ : ε → σ → Prop} (h : Ends x s Q E) (h' : Ends x s Q' E₀) :
    Ends x s (fun a s' => Q a s' ∧ Q' a s') fun e s' => E e s' ∧ E₀ e s' := by
  unfold Ends at *
  cases exit : x s with
  | ok a s' =>
      rw [exit] at h h'
      exact ⟨h, h'⟩
  | error e s' =>
      rw [exit] at h h'
      exact ⟨h, h'⟩

/-- The same of a program that does not fail. -/
theorem Ends.returning (h : Ends x s Q E) (returns : Ends x s Q' fun _ _ => False) :
    Ends x s (fun a s' => Q a s' ∧ Q' a s') fun _ _ => False :=
  (h.and returns).weaken (fun _ _ both => both) fun _ _ failed => failed.2

theorem Ends.bind (hx : Ends x s Q E) (hf : ∀ a s', Q a s' → Ends (f a) s' T E) : Ends (x >>= f) s T E := by
  unfold Ends at hx ⊢
  rw [bind_eq]
  cases exit : x s with
  | ok a s' =>
      rw [exit] at hx
      exact hf a s' hx
  | error e s' =>
      rw [exit] at hx
      exact hx

/-- Two continuations agree where the program gets to. -/
theorem Ends.agree {f g : α → EStateM ε σ β} (h : Ends x s Q E) (agree : ∀ a s', Q a s' → f a s' = g a s') :
    (x >>= f) s = (x >>= g) s := by
  unfold Ends at h
  rw [bind_eq, bind_eq]
  cases exit : x s with
  | ok a s' =>
      rw [exit] at h
      exact agree a s' h
  | error e s' => rfl

theorem Leads.ends {R : σ → σ → Prop} (h : Leads R x s Q) :
    Ends x s (fun a s' => R s s' ∧ Q a s') fun _ s' => R s s' := by
  unfold Leads at h
  unfold Ends
  cases exit : x s with
  | ok a s' =>
      rw [exit] at h
      exact h
  | error e s' =>
      rw [exit] at h
      exact h

/-- What a program leaves is also reached from where it started. -/
theorem Ends.leads {R : σ → σ → Prop} (h : Ends x s Q E) (reach : Leads R x s Q') :
    Ends x s (fun a s' => Q a s' ∧ R s s' ∧ Q' a s') E := by
  unfold Ends at h ⊢
  unfold Leads at reach
  cases exit : x s with
  | ok a s' =>
      rw [exit] at h reach
      exact ⟨h, reach⟩
  | error e s' =>
      rw [exit] at h
      exact h

theorem Ends.ite {c : Prop} [Decidable c] {y : EStateM ε σ α} (hx : c → Ends x s Q E) (hy : ¬c → Ends y s Q E) :
    Ends (if c then x else y) s Q E := by
  by_cases h : c
  · simpa only [if_pos h] using hx h
  · simpa only [if_neg h] using hy h

end
end Library.Exec
