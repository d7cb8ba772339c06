import HotstuffDag.Proof.Calm
import HotstuffDag.Proof.Primed

/-! # How the agreement fails

Where panics are not allowed, the lookups of the agreement need a core that is primed for them. -/

namespace HotstuffDag
open Library Library.Exec
variable {E : Exn → Prop} {s : State}

/-- The program fails only as allowed. -/
abbrev Smooth {α : Type} (E : Exn → Prop) (x : M α) (s : State) : Prop := Ends x s (fun _ _ => True) fun e _ => E e

theorem Calm.smooth {α : Type} {K : State → Prop} {x : M α} (h : Calm E K x) (holds : K s) : Smooth E x s :=
  (h s holds).weaken (fun _ _ _ => trivial) fun _ _ h => h.1

theorem Smooth.bind {α β : Type} {x : M α} {f : α → M β} (hx : Smooth E x s) (hf : ∀ a t, Smooth E (f a) t) :
    Smooth E (x >>= f) s :=
  Ends.bind hx fun a t _ => hf a t

/-! ## Handlers of the agreement -/

namespace Core
variable [Lenient E]

theorem smooth_processCachedTc [Crypto] (primed : E .panic ∨ s.core.Primed) : Smooth E processCachedTc s := by
  unfold processCachedTc
  refine ends_getCore (Ends.ite (fun _ => ends_getCore (ends_getCore ?_)) fun _ => trivial)
  split
  · trivial
  · rename_i tc cached
    have heard := primed.imp_right fun primed => primed.tcs _ tc cached
    exact (calm_bind (calm_processTc heard) fun _ => calm_setCore _).smooth trivial

theorem smooth_processValPhase1 [Crypto] {proof : ABAProof} (held : E .panic ∨ (s.core.abaInputVal.get? proof.round).isSome) :
    Smooth E (processValPhase1 proof) s := by
  have cast (abaVal : ABAVal) : Calm E (fun _ => True) (do
      if (← getCore).valValueBroadcasted then return ()
      else
        modifyCore fun c => { c with valValueBroadcasted := true }
        broadcastAbaVal abaVal) :=
    calm_bind calm_getCore fun core => calm_ite (calm_pure _) (calm_bind (calm_setCore _) fun _ => calm_broadcastAbaVal abaVal)
  unfold processValPhase1
  refine ends_getCore (Calm.smooth (K := fun _ => True) (calm_bind (calm_unwrap held) fun input => ?_) trivial)
  exact calm_ite (calm_pure _) (calm_bind (calm_signAbaVal _ _ _ _) cast)

/-- In a round that has begun there is an input. -/
theorem smooth_processValPhase [Crypto] (primed : E .panic ∨ s.core.Primed) : Smooth E processValPhase s := by
  unfold processValPhase
  refine ends_getCore (Ends.ite (fun begun => Smooth.bind ?_ fun _ t => ?_) fun _ => trivial)
  · unfold withCached
    refine ends_getCore ?_
    split
    · trivial
    · rename_i proof cached
      refine smooth_processValPhase1 (primed.imp_right fun primed => ?_)
      rw [primed.rounds _ _ proof cached]
      refine primed.input.resolve_left fun initial => ?_
      rw [initial.1] at begun
      exact absurd begun (by decide)
  · exact (calm_withCached _ calm_processValPhase2).smooth trivial

theorem smooth_processCoinShare [Crypto] {coin : Nat} (ready : E .panic ∨ 2 ≤ s.core.binValues.length ∨
    (s.core.abaAuxPhaseCache.get? (s.core.epoch, s.core.abaRound)).isSome) :
    Smooth E (processCoinShare s.core.epoch s.core.abaRound coin) s := by
  unfold processCoinShare
  refine ends_getCore (Smooth.bind ((calm_setLog _).smooth trivial) fun _ t => ?_)
  split
  · rename_i v single
    have certified := ready.imp_right fun ready => ready.resolve_left (by simp [single])
    refine Calm.smooth (calm_ite (calm_bind (calm_setOutput v) fun _ => ?_) (calm_advanceAbaRound v)) trivial
    exact calm_bind (calm_unwrap certified) fun _ => calm_broadcastAuxProof _
  · dsimp only
    split
    · rename_i proof _
      refine Calm.smooth (calm_ite ?_ (calm_advanceAbaRound _)) trivial
      exact calm_bind (calm_setOutput _) fun _ => calm_broadcastAuxProof proof
    · exact (calm_advanceAbaRound _).smooth trivial

/-- In the coin phase the values or the AUX certificate are there. -/
theorem smooth_processCoinPhase [Crypto] (primed : E .panic ∨ s.core.Primed) : Smooth E processCoinPhase s := by
  unfold processCoinPhase withCached
  refine ends_getCore (Ends.ite (fun phase => ends_getCore ?_) fun _ => trivial)
  split
  · trivial
  · refine ends_getCore (smooth_processCoinShare (primed.imp_right fun primed => primed.ready.resolve_left fun early => ?_))
    exact absurd early (UInt8.not_lt.mpr phase)

omit [Lenient E] in
/-- The lookups of a stage succeed where the stages before it have left the agreement. -/
theorem Primed.then [Crypto] {β : Type} {x : M Unit} {f : Unit → M β} (primed : E .panic ∨ s.core.Primed) (smooth : Smooth E x s)
    {Q : Unit → State → Prop} (reach : Leads (AbaEvolves fun _ => True) x s Q)
    (next : ∀ t, AbaEvolves (fun _ => True) s t → E .panic ∨ t.core.Primed → Smooth E (f ()) t) :
    Smooth E (x >>= f) s :=
  Ends.bind (smooth.leads reach) fun _ t ⟨_, reached, _⟩ => next t reached (primed.imp_right fun primed => primed.evolves reached)

theorem smooth_processAbaPhase [Crypto] (primed : E .panic ∨ s.core.Primed) : Smooth E processAbaPhase s := by
  unfold processAbaPhase
  refine Primed.then primed (smooth_processCachedTc primed) leads_processCachedTc fun t _ primed => ?_
  refine Primed.then primed (smooth_processValPhase primed) leads_processValPhase fun t _ primed => ?_
  have aux : Calm E (fun _ => True) processCachedAux :=
    calm_bind calm_getCore fun core => calm_ite (calm_withCached _ fun proof => calm_processAuxPhase _ _) (calm_pure _)
  refine Primed.then primed (aux.smooth trivial) leads_processCachedAux fun t _ primed => ?_
  refine Primed.then primed (smooth_processCoinPhase primed) leads_processCoinPhase fun t _ primed => ?_
  have proof : Calm E (fun _ => True) processCachedProof :=
    calm_bind calm_getCore fun core => calm_ite (calm_withCached _ calm_processAbaProof) (calm_pure _)
  exact proof.smooth trivial

end Core

theorem smooth_attempt {x : M Unit} (h : Smooth E x s) : Smooth E (attempt x) s := by
  unfold Smooth Ends at h ⊢
  unfold attempt
  cases exit : x s with
  | ok a t => trivial
  | error e t =>
      rw [exit] at h
      cases e with
      | error e => trivial
      | _ => exact h

end HotstuffDag
