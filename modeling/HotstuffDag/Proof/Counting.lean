import HotstuffDag.Proof.AbaActs

/-! # Messages that are counted

A valid message of an author who has not been counted is counted, without an error. -/

namespace HotstuffDag
open Library Library.Exec

/-- The author of the value has been counted for it. -/
def Core.Counted (k : Core) (v : ABAVal) : Prop :=
  v.author ∈ (k.aggregator.abaValsAggregators.getD (v.epoch, v.round, v.phase, v.val) Maker.new).used

/-- The author of the share has been counted for its round. -/
def Core.Dealt (k : Core) (share : RandomnessShare) : Prop :=
  share.author ∈ (k.aggregator.abaRandomcoinAggregators.getD (share.epoch, share.round) Maker.new).used

instance (k : Core) (v : ABAVal) : Decidable (k.Counted v) := inferInstanceAs (Decidable (_ ∈ _))

instance (k : Core) (share : RandomnessShare) : Decidable (k.Dealt share) := inferInstanceAs (Decidable (_ ∈ _))

theorem addAbaVal_ok {k : Core} {v : ABAVal} (unheard : ¬ k.Counted v) :
    ∃ option, (k.aggregator.addAbaVal v k.committee).1 = .ok option := by
  unfold Core.Counted at unheard
  unfold Aggregator.addAbaVal ABAProofMaker.append
  dsimp only
  rw [if_neg unheard]
  split
  · exact ⟨_, rfl⟩
  · split <;> exact ⟨_, rfl⟩

variable [Crypto]

theorem addAbaRandom_ok {k : Core} {share : RandomnessShare} (unheard : ¬ k.Dealt share) :
    ∃ option, (k.aggregator.addAbaRandom share k.committee).1 = .ok option := by
  unfold Core.Dealt at unheard
  unfold Aggregator.addAbaRandom ABARandomCoinMaker.append
  dsimp only
  rw [if_neg unheard]
  split
  · split <;> exact ⟨_, rfl⟩
  · exact ⟨_, rfl⟩

namespace Core

/-- The state in which the value has been heard. -/
def heard (s : State) (v : ABAVal) : State :=
  if s.core.isExpiredAbaMessage v.epoch v.round then s
  else counted s v (if v.phase = VAL_PHASE then s.core.hearVal v else s.core.hearAux v)

def heardShare (s : State) (share : RandomnessShare) : State :=
  if s.core.isExpiredAbaMessage share.epoch share.round then s
  else { s with core := s.core.hearShare share, log := s.log ++ s.core.coinEvents share }

variable {s : State} {v : ABAVal} {share : RandomnessShare}

theorem handleValPhase_run (verified : v.verify = .ok ()) (unheard : ¬ s.core.Counted v) :
    handleValPhase v s = .ok () (counted s v (s.core.hearVal v)) := by
  obtain ⟨option, completed⟩ := addAbaVal_ok unheard
  unfold handleValPhase addAbaVal counted hearVal abaEvents
  rw [verified, liftResult]
  simp only [bind_eq, pure_run, getCore_run, modifyCore_run, completed, liftResult]
  cases option with
  | none => simp [keptProof]
  | some proof => cases tag : proof.tag <;> simp [keptProof, tag, bind_eq]

theorem handleAuxPhase_run (verified : v.verify = .ok ()) (unheard : ¬ s.core.Counted v) :
    handleAuxPhase v s = .ok () (counted s v (s.core.hearAux v)) := by
  obtain ⟨option, completed⟩ := addAbaVal_ok unheard
  unfold handleAuxPhase addAbaVal counted hearAux abaEvents
  rw [verified, liftResult]
  simp only [bind_eq, pure_run, getCore_run, modifyCore_run, completed, liftResult]
  cases option with
  | none => simp [keptProof]
  | some proof => simp [keptProof, bind_eq]

theorem handleAbaVal_run (phase : v.phase = VAL_PHASE ∨ v.phase = AUX_PHASE) (verified : v.verify = .ok ())
    (unheard : ¬ s.core.Counted v) : handleAbaVal v s = .ok () (heard s v) := by
  unfold handleAbaVal heard
  simp only [bind_eq, getCore_run]
  cases s.core.isExpiredAbaMessage v.epoch v.round with
  | true => rfl
  | false =>
      simp only [Bool.false_eq_true, if_false]
      by_cases val : v.phase = VAL_PHASE
      · rw [if_pos val, if_pos val]
        exact handleValPhase_run verified unheard
      · rw [if_neg val, if_neg val, if_pos (phase.resolve_left val)]
        exact handleAuxPhase_run verified unheard

theorem handleCoinShare_run (verified : share.verify s.core.committee = .ok ()) (unheard : ¬ s.core.Dealt share) :
    handleCoinShare share s = .ok () (heardShare s share) := by
  obtain ⟨option, completed⟩ := addAbaRandom_ok unheard
  unfold handleCoinShare heardShare
  simp only [bind_eq, getCore_run]
  cases s.core.isExpiredAbaMessage share.epoch share.round with
  | true => rfl
  | false =>
      simp only [Bool.false_eq_true, if_false]
      unfold addAbaRandom hearShare coinEvents
      rw [verified, liftResult]
      simp only [bind_eq, pure_run, getCore_run, modifyCore_run, completed, liftResult]
      cases option with
      | none => simp [keptCoin]
      | some coin => simp [keptCoin, bind_eq]

theorem handleAbaProof_run {proof : ABAProof} (current : s.core.isExpiredAbaMessage proof.epoch proof.round = false)
    (verified : proof.verify s.core.committee = .ok ()) :
    handleAbaProof proof s = .ok () { s with core := s.core.hearProof proof } := by
  unfold handleAbaProof
  simp only [bind_eq, getCore_run, current, Bool.false_eq_true, if_false, verified, liftResult, pure_run]
  rfl

omit [Crypto] in
theorem heard_cases (s : State) (v : ABAVal) (phase : v.phase = VAL_PHASE ∨ v.phase = AUX_PHASE) : Heard s v (heard s v) := by
  unfold heard
  split
  · exact .inl rfl
  · by_cases val : v.phase = VAL_PHASE
    · rw [if_pos val]
      exact .inr (.inl ⟨val, rfl⟩)
    · rw [if_neg val]
      exact .inr (.inr ⟨phase.resolve_left val, rfl⟩)

end Core
end HotstuffDag
