import HotstuffDag.Proof.LaterStages
import HotstuffDag.Proof.Pace

/-! # Where no share is broadcast

Only the third stage broadcasts a coin share; the stages before it leave alone what that depends on. -/

namespace HotstuffDag
open Library Library.Exec
namespace Core

/-- The rounds whose share has been broadcast. -/
def shareMarks (l : List Event) : List Point := l.filterMap Event.shareMark

/-- No share is broadcast. -/
def Tacit (s t : State) : Prop := shareMarks t.log = shareMarks s.log

instance : Std.Refl Tacit := ⟨fun _ => rfl⟩

instance : IsTrans State Tacit := ⟨fun _ _ _ h h' => h'.trans h⟩

theorem shareMarks_snoc {l : List Event} {e : Event} (other : ∀ tag share addresses, e ≠ Event.transmit tag (.abaCoinShare share) addresses) :
    shareMarks (l ++ [e]) = shareMarks l := by
  unfold shareMarks
  rw [List.filterMap_append]
  cases e with
  | transmit tag m addresses =>
      cases m with
      | abaCoinShare share => exact absurd rfl (other tag share addresses)
      | _ => simp [Event.shareMark]
  | _ => simp [Event.shareMark]

theorem shareMarks_counted (k : Core) (v : ABAVal) (l : List Event) : shareMarks (l ++ k.abaEvents v) = shareMarks l := by
  unfold abaEvents
  split
  · exact shareMarks_snoc nofun
  · rw [List.append_nil]

/-- What the broadcast of the share depends on does not change either. -/
structure Mute (s t : State) : Prop where
  name : t.core.name = s.core.name
  committee : t.core.committee = s.core.committee
  epoch : t.core.epoch = s.core.epoch
  round : t.core.abaRound = s.core.abaRound
  flag : t.core.coinShareBroadcasted = s.core.coinShareBroadcasted
  makers : t.core.aggregator.abaRandomcoinAggregators = s.core.aggregator.abaRandomcoinAggregators
  output : t.core.abaOutputVal = s.core.abaOutputVal
  tacit : Tacit s t

instance : Std.Refl Mute := ⟨fun _ => ⟨rfl, rfl, rfl, rfl, rfl, rfl, rfl, rfl⟩⟩

instance : IsTrans State Mute where
  trans := fun _ _ _ h h' => ⟨h'.name.trans h.name, h'.committee.trans h.committee, h'.epoch.trans h.epoch, h'.round.trans h.round,
    h'.flag.trans h.flag, h'.makers.trans h.makers, h'.output.trans h.output, h'.tacit.trans h.tacit⟩

variable {s : State}

theorem Mute.event (s : State) (e : Event) (other : ∀ tag share addresses, e ≠ Event.transmit tag (.abaCoinShare share) addresses) :
    Mute s { s with log := s.log ++ [e] } := ⟨rfl, rfl, rfl, rfl, rfl, rfl, rfl, shareMarks_snoc other⟩

theorem mute_broadcastAbaVal [Crypto] {v : ABAVal} : Leads Mute (broadcastAbaVal v) s fun _ _ => True := by
  refine leads_transmit (fun _ => .event _ _ nofun) fun addresses => (leads_hear ?_ ?_).weaken fun _ _ _ _ => trivial
  · exact fun _ _ _ => ⟨rfl, rfl, rfl, rfl, rfl, rfl, rfl, shareMarks_counted _ _ _⟩
  · exact fun _ _ _ => ⟨rfl, rfl, rfl, rfl, rfl, rfl, rfl, shareMarks_counted _ _ _⟩

theorem mute_signAbaVal [Crypto] {β : Type} {Q : β → State → Prop} {epoch round : SeqNumber} {val : UInt64} {phase : UInt8}
    {f : ABAVal → M β}
    (h : ∀ v t, Leads Mute (f v) t Q) : Leads Mute (signAbaVal epoch round val phase >>= f) s Q := by
  have result := (h (.new s.core.name epoch round val phase)
    { s with log := s.log ++ [.signed (.abaVal (.new s.core.name epoch round val phase))] }).after
    (Mute.event s (.signed (.abaVal (.new s.core.name epoch round val phase))) nofun)
  exact result

theorem mute_setInput {β : Type} {Q : β → State → Prop} {round : SeqNumber} {val : UInt64} {f : PUnit → M β}
    (h : ∀ t, Leads Mute (f ⟨⟩) t Q) : Leads Mute (setInput round val >>= f) s Q := by
  unfold setInput
  simp only [bind_assoc]
  exact leads_modifyCore ⟨rfl, rfl, rfl, rfl, rfl, rfl, rfl, rfl⟩ (leads_getCore (leads_emit (.event _ _ nofun) (h _)))

theorem mute_processTc [Crypto] {tc : TC} : Leads Mute (processTc tc) s fun _ _ => True := by
  refine leads_transmit (fun _ => .event _ _ nofun) fun addresses => leads_unwrap fun val _ => ?_
  exact mute_setInput fun t => leads_getCore (mute_signAbaVal fun v t => mute_broadcastAbaVal)

theorem mute_processCachedTc [Crypto] : Leads Mute processCachedTc s fun _ _ => True := by
  refine leads_getCore (Leads.ite (fun _ => leads_getCore (leads_getCore ?_)) fun _ => Leads.pure trivial)
  split
  · exact Leads.pure trivial
  · refine Leads.bind mute_processTc fun _ t _ _ => ?_
    exact ⟨⟨rfl, rfl, rfl, rfl, rfl, rfl, rfl, rfl⟩, trivial⟩

theorem mute_processValPhase1 [Crypto] {proof : ABAProof} : Leads Mute (processValPhase1 proof) s fun _ _ => True := by
  refine leads_getCore (leads_unwrap fun input _ => Leads.ite (fun _ => Leads.pure trivial) fun _ => ?_)
  refine mute_signAbaVal fun v t => leads_getCore (Leads.ite (fun _ => Leads.pure trivial) fun _ => ?_)
  exact leads_modifyCore ⟨rfl, rfl, rfl, rfl, rfl, rfl, rfl, rfl⟩ mute_broadcastAbaVal

theorem mute_insertBinValue {val : UInt64} : Leads Mute (insertBinValue val) s fun _ _ => True := by
  refine leads_modifyCore ⟨rfl, rfl, rfl, rfl, rfl, rfl, rfl, rfl⟩ (leads_getCore (leads_last ?_))
  exact leads_emit (.event _ _ nofun) (Leads.pure trivial)

theorem mute_processValPhase2 [Crypto] {proof : ABAProof} : Leads Mute (processValPhase2 proof) s fun _ _ => True := by
  refine leads_getCore (Leads.ite (fun _ => ?_) fun _ => mute_insertBinValue)
  refine mute_signAbaVal fun v t => leads_getCore (Leads.ite (fun _ => ?_) fun _ => mute_insertBinValue)
  refine leads_modifyCore ⟨rfl, rfl, rfl, rfl, rfl, rfl, rfl, rfl⟩ ?_
  exact Leads.bind mute_broadcastAbaVal fun _ _ _ _ => mute_insertBinValue

theorem mute_processValPhase [Crypto] : Leads Mute processValPhase s fun _ _ => True := by
  refine leads_getCore (Leads.ite (fun _ => ?_) fun _ => Leads.pure trivial)
  refine Leads.bind (passes_withCached fun proof => mute_processValPhase1) fun _ _ _ _ => ?_
  exact passes_withCached fun proof => mute_processValPhase2

theorem mute_updatePhase : Leads Mute updatePhase s fun _ _ => True := by
  refine Leads.bind (Q := fun _ _ => True) ?_ fun _ s₁ _ _ => Leads.bind (Q := fun _ _ => True) ?_ fun _ s₂ _ _ => ?_
  · exact leads_getCore (Leads.ite (fun _ => ⟨⟨rfl, rfl, rfl, rfl, rfl, rfl, rfl, rfl⟩, trivial⟩) fun _ => Leads.pure trivial)
  · exact leads_getCore (Leads.ite (fun _ => ⟨⟨rfl, rfl, rfl, rfl, rfl, rfl, rfl, rfl⟩, trivial⟩) fun _ => Leads.pure trivial)
  · unfold enterCoinPhase auxValueNum
    simp only [bind_assoc]
    refine leads_getCore (Leads.ite (fun _ => ?_) fun _ => Leads.pure trivial)
    refine leads_modifyCore ⟨rfl, rfl, rfl, rfl, rfl, rfl, rfl, rfl⟩ (leads_getCore (leads_pure ?_))
    refine Leads.ite (fun _ => leads_getCore (leads_emit (.event _ _ ?_) ?_)) fun _ => Leads.pure trivial
    · intro tag share addresses same
      cases same
    · exact ⟨⟨rfl, rfl, rfl, rfl, rfl, rfl, rfl, rfl⟩, trivial⟩

theorem tacit_advanceAbaRound [Crypto] (s : State) (val : UInt64) : Leads Tacit (advanceAbaRound val) s fun _ _ => True := by
  refine leads_getCore (leads_checkedAdd fun _ => leads_modifyCore rfl ?_)
  unfold setInput signAbaVal sign
  simp only [bind_assoc]
  refine leads_modifyCore rfl (leads_getCore (leads_emit (shareMarks_snoc nofun) (leads_getCore (leads_getCore ?_))))
  refine leads_emit (shareMarks_snoc nofun) (leads_pure (leads_modifyCore rfl ?_))
  exact mute_broadcastAbaVal.mono fun _ h => h.tacit

theorem passes_tacit [Crypto] : Passes Tacit where
  event := fun _ _ other => shareMarks_snoc other
  output := fun _ _ => rfl
  castProof := fun _ => rfl
  advance := tacit_advanceAbaRound

end Core
end HotstuffDag
