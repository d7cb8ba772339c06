import HotstuffDag.Proof.AbaActs

/-! # The last stages

What the stages of the coin and of the proof do, for relations that know what a new round does. -/

namespace HotstuffDag
open Library Library.Exec
variable [Crypto]

/-- The relation allows what the last two stages do within a round, and the change of the round. -/
structure Passes (R : State → State → Prop) : Prop where
  event : ∀ s e, (∀ tag share addresses, e ≠ Event.transmit tag (.abaCoinShare share) addresses) →
    R s { s with log := s.log ++ [e] }
  output : ∀ s val, R s { s with core := { s.core with abaOutputVal := some val } }
  castProof : ∀ s, R s { s with core := { s.core with auxProofBroadcasted := true } }
  advance : ∀ s val, Leads R (Core.advanceAbaRound val) s fun _ _ => True

namespace Core
variable {R : State → State → Prop} [Std.Refl R] [IsTrans State R] {s : State}

theorem passes_broadcastAuxProof (passes : Passes R) (proof : ABAProof) :
    Leads R (broadcastAuxProof proof) s fun _ _ => True := by
  refine leads_getCore (Leads.ite (fun _ => Leads.pure trivial) fun _ => ?_)
  refine leads_modifyCore (passes.castProof s) (leads_last ?_)
  exact leads_transmit (fun _ => passes.event _ _ nofun) fun _ => Leads.pure trivial

omit [Std.Refl R] in
theorem passes_setOutput {β : Type} (passes : Passes R) {val : UInt64} {f : PUnit → M β} {Q : β → State → Prop}
    (h : ∀ t, Leads R (f ⟨⟩) t Q) : Leads R (setOutput val >>= f) s Q := by
  unfold setOutput
  simp only [bind_assoc]
  exact leads_modifyCore (passes.output s val) (leads_getCore (leads_emit (passes.event _ _ nofun) (h _)))

theorem passes_processCoinShare (passes : Passes R) {epoch round : SeqNumber} {coin : Nat} :
    Leads R (processCoinShare epoch round coin) s fun _ _ => True := by
  refine leads_getCore (leads_emit (passes.event _ _ nofun) ?_)
  split
  · refine Leads.ite (fun _ => passes_setOutput passes fun t => ?_) fun _ => passes.advance _ _
    exact leads_unwrap fun proof _ => passes_broadcastAuxProof passes proof
  · dsimp only
    split
    · exact Leads.ite (fun _ => passes_setOutput passes fun t => passes_broadcastAuxProof passes _) fun _ => passes.advance _ _
    · exact passes.advance _ _

theorem passes_processAbaProof (passes : Passes R) (proof : ABAProof) : Leads R (processAbaProof proof) s fun _ _ => True := by
  refine leads_getCore (leads_emit (passes.event _ _ nofun) ?_)
  split
  · exact Leads.pure trivial
  · exact Leads.ite (fun _ => leads_last (passes_setOutput passes fun t => Leads.pure trivial)) fun _ => Leads.pure trivial

omit [Crypto] [IsTrans State R] in
theorem passes_withCached {β : Type} {cache : Core → Map (SeqNumber × SeqNumber) β} {handler : β → M Unit}
    (run : ∀ a, Leads R (handler a) s fun _ _ => True) : Leads R (withCached cache handler) s fun _ _ => True := by
  refine leads_getCore ?_
  split
  · exact Leads.pure trivial
  · exact run _

theorem passes_processCoinPhase (passes : Passes R) : Leads R processCoinPhase s fun _ _ => True := by
  refine leads_getCore (Leads.ite (fun _ => ?_) fun _ => Leads.pure trivial)
  exact passes_withCached fun coin => leads_getCore (passes_processCoinShare passes)

theorem passes_processCachedProof (passes : Passes R) : Leads R processCachedProof s fun _ _ => True := by
  refine leads_getCore (Leads.ite (fun _ => ?_) fun _ => Leads.pure trivial)
  exact passes_withCached fun proof => passes_processAbaProof passes proof

end Core
end HotstuffDag
