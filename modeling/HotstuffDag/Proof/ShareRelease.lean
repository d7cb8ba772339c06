import HotstuffDag.Proof.CoinPhase
import HotstuffDag.Proof.DecisiveProof

/-! # The release of the share

A node broadcasts its coin share with an AUX certificate, which counts one value; AUX messages for several accepted
values may be a quorum without any. -/

namespace HotstuffDag
open Library Library.Exec

section
variable [Crypto]

/-- The share of the round has been broadcast. -/
def Shared (epoch round : SeqNumber) (l : List Event) : Prop :=
  ∃ share, Sent (.abaCoinShare share) l ∧ share.epoch = epoch ∧ share.round = round

namespace Core

/-- The core when the first certificate of the round has been answered with the own VAL message. -/
def amplified (k : Core) : Core :=
  match k.abaValPhaseCache1.get? (k.epoch, k.abaRound) with
  | none => k
  | some proof =>
      if k.abaInputVal.get? proof.round = some proof.val ∨ k.valValueBroadcasted = true then k
      else { k with valValueBroadcasted := true }.hearVal (.new k.name proof.epoch proof.round proof.val proof.phase)

/-- The core when the quorum certificate of the round has been answered with the own AUX message. -/
def answered (k : Core) : Core :=
  match k.abaValPhaseCache2.get? (k.epoch, k.abaRound) with
  | none => k
  | some proof =>
      if k.binValues = [] ∨ k.auxValueBroadcasted = true then k
      else { k with auxValueBroadcasted := true }.hearAux (.new k.name proof.epoch proof.round proof.val AUX_PHASE)

/-- The share has been broadcast, or there is an AUX certificate once the own messages are counted. -/
def ShareDue (k : Core) : Prop :=
  k.coinShareBroadcasted = true ∨ k.amplified.answered.abaAuxPhaseCache.contains (k.epoch, k.abaRound) = true

instance : DecidablePred ShareDue := fun _ => inferInstanceAs (Decidable (_ ∨ _))

variable {name : PublicKey} {base : List Event} {s t : State}

section
omit [Crypto]

theorem shared_iff {epoch round : SeqNumber} {l : List Event} : Shared epoch round l ↔ point epoch round ∈ shareMarks l := by
  unfold shareMarks
  constructor
  · rintro ⟨share, ⟨tag, addresses, mem⟩, rfl, rfl⟩
    exact List.mem_filterMap.mpr ⟨_, mem, rfl⟩
  · intro mem
    obtain ⟨e, mem, found⟩ := List.mem_filterMap.mp mem
    unfold Event.shareMark at found
    split at found
    · rename_i tag share addresses
      obtain ⟨epoch, round⟩ := point_inj.mp (Option.some.inj found)
      exact ⟨share, ⟨tag, addresses, mem⟩, epoch, round⟩
    · contradiction

theorem shared_rounds {epoch round : SeqNumber} {l : List Event} : Shared epoch round (rounds l) ↔ Shared epoch round l := by
  unfold Shared Sent
  simp only [mem_rounds]
  constructor
  · rintro ⟨share, ⟨tag, addresses, mem, _⟩, same⟩
    exact ⟨share, ⟨tag, addresses, mem⟩, same⟩
  · rintro ⟨share, ⟨tag, addresses, mem⟩, same⟩
    exact ⟨share, ⟨tag, addresses, mem, trivial⟩, same⟩

/-- The flag tells whether the share of the round has been broadcast. -/
theorem shared_now (h : AtPace name base s) : Shared s.core.epoch s.core.abaRound s.log ↔ s.core.coinShareBroadcasted = true := by
  rw [← shared_rounds, shared_iff]
  exact ⟨h.1.shares.shown, h.1.dealt⟩

theorem Tacit.shared {epoch round : SeqNumber} (h : Tacit s t) : Shared epoch round t.log ↔ Shared epoch round s.log := by
  unfold Tacit at h
  rw [shared_iff, shared_iff, h]

theorem not_expired_now (undecided : s.core.abaOutputVal = none) :
    s.core.isExpiredAbaMessage s.core.epoch s.core.abaRound = false := by
  unfold isExpiredAbaMessage
  rw [undecided]
  simp [UInt64.lt_irrefl]

end

/-- An own value of the round is counted when it is broadcast. -/
theorem ends_broadcast_counted {k : Core} {v : ABAVal} (undecided : s.core.abaOutputVal = none) (epoch : v.epoch = s.core.epoch)
    (round : v.round = s.core.abaRound) (phase : v.phase = VAL_PHASE ∨ v.phase = AUX_PHASE) (verified : v.verify = .ok ())
    (unheard : ¬ s.core.Counted v) (counts : k = if v.phase = VAL_PHASE then s.core.hearVal v else s.core.hearAux v) :
    Ends (broadcastAbaVal v) s (fun _ t => t.core = k) fun _ _ => False := by
  refine ends_broadcast fun addresses => ?_
  have run := handleAbaVal_run (s := { s with log := s.log ++ [.transmit TCVBA (.abaVal v) addresses] }) phase verified unheard
  have current := not_expired_now undecided
  rw [← epoch, ← round] at current
  unfold Ends
  rw [run]
  unfold heard
  dsimp only
  rw [current, counts]
  rfl

/-- The first half of the second stage. -/
theorem ends_amplify (h : AtPace name base s) (primed : s.core.Primed) (begun : s.core.phase ≥ VAL_PHASE)
    (undecided : s.core.abaOutputVal = none) : Ends (withCached Core.abaValPhaseCache1 processValPhase1) s
      (fun _ t => AtPace name base t ∧ t.core = s.core.amplified) fun _ _ => False := by
  unfold withCached amplified
  refine ends_getCore ?_
  cases cached : s.core.abaValPhaseCache1.get? (s.core.epoch, s.core.abaRound) with
  | none => exact ⟨h, rfl⟩
  | some proof =>
      obtain ⟨epoch, round, phase⟩ := h.1.weak _ _ proof cached
      have present : (s.core.abaInputVal.get? s.core.abaRound).isSome := by
        refine primed.input.resolve_left fun initial => ?_
        rw [initial.1] at begun
        exact absurd begun (by decide)
      have paced := ends_processValPhase1 (E := fun _ => True) h cached (.inl trivial)
      refine paced.returning ?_
      unfold processValPhase1
      refine ends_getCore (ends_unwrap (fun none => ?_) fun input held => ?_)
      · rw [← round, none] at present
        contradiction
      dsimp only
      rw [held]
      refine Ends.ite (fun same => Ends.pure ?_) fun other => ends_signAbaVal (ends_getCore ?_)
      · exact (if_pos (.inl (congrArg some same))).symm
      refine Ends.ite (fun up => Ends.pure ?_) fun up => ends_modifyCore ?_
      · exact (if_pos (.inr up)).symm
      · rw [if_neg (not_or.mpr ⟨fun same => other (Option.some.inj same), up⟩)]
        have down : s.core.valValueBroadcasted = false := by simpa using up
        have unheard := h.1.unused (h.1.unamplified down (round ▸ held) other)
        rw [← h.1.named, ← epoch, ← round, ← phase] at unheard
        refine ends_broadcast_counted undecided epoch round (.inl phase) (ABAVal.verify_new _ _ _ _ _) unheard ?_
        exact (if_pos phase).symm

/-- The second half. -/
theorem ends_answer (h : AtPace name base s) (undecided : s.core.abaOutputVal = none) :
    Ends (withCached Core.abaValPhaseCache2 processValPhase2) s
      (fun _ t => AtPace name base t ∧ t.core.abaAuxPhaseCache = s.core.answered.abaAuxPhaseCache ∧ t.core.phase = s.core.phase)
      fun _ _ => False := by
  unfold withCached answered
  refine ends_getCore ?_
  cases cached : s.core.abaValPhaseCache2.get? (s.core.epoch, s.core.abaRound) with
  | none => exact ⟨h, rfl, rfl⟩
  | some proof =>
      obtain ⟨epoch, round, -⟩ := h.1.strong _ _ proof cached
      have paced := ends_processValPhase2 (E := fun _ => True) h cached
      refine paced.returning ?_
      unfold processValPhase2
      dsimp only
      refine ends_getCore (Ends.ite (fun bin => ends_signAbaVal (ends_getCore ?_)) fun empty => ?_)
      · refine Ends.ite (fun up => ends_modifyCore ?_) fun up => ?_
        · have down : s.core.auxValueBroadcasted = false := by simpa using up
          rw [if_neg (not_or.mpr ⟨bin, by simp [down]⟩)]
          have unheard := h.1.unused (h.1.unaccepted down proof.val)
          rw [← h.1.named, ← epoch, ← round] at unheard
          have counted := ends_broadcast_counted (s := { s with
              core := { s.core with auxValueBroadcasted := true }
              log := s.log ++ [.signed (.abaVal (.new s.core.name proof.epoch proof.round proof.val AUX_PHASE))] })
            (v := .new s.core.name proof.epoch proof.round proof.val AUX_PHASE) undecided epoch round (.inr rfl)
            (ABAVal.verify_new _ _ _ _ _) unheard rfl
          refine counted.bind fun _ t counted => ends_modifyCore (ends_getCore ?_)
          refine ⟨?_, ?_⟩
          · change t.core.abaAuxPhaseCache = _
            rw [counted]
            rfl
          · change t.core.phase = _
            rw [counted]
            rfl
        · rw [if_pos (.inr (by simpa using up))]
          exact ends_modifyCore (ends_getCore ⟨rfl, rfl⟩)
      · rw [if_pos (.inl (not_not.mp empty))]
        exact ends_modifyCore (ends_getCore ⟨rfl, rfl⟩)

/-- An own VAL message leaves the round, the phase and the output alone. -/
theorem amplified_frame (k : Core) : k.amplified.phase = k.phase ∧ k.amplified.abaOutputVal = k.abaOutputVal := by
  unfold amplified
  split
  · exact ⟨rfl, rfl⟩
  · split <;> exact ⟨rfl, rfl⟩

theorem ends_secondStage (h : AtPace name base s) (primed : s.core.Primed) (begun : s.core.phase ≥ VAL_PHASE)
    (undecided : s.core.abaOutputVal = none) : Ends processValPhase s
      (fun _ t => AtPace name base t ∧ t.core.abaAuxPhaseCache = s.core.amplified.answered.abaAuxPhaseCache ∧
        t.core.phase = s.core.phase) fun _ _ => False := by
  obtain ⟨phase, output⟩ := amplified_frame s.core
  unfold processValPhase
  refine ends_getCore (Ends.ite (fun _ => ?_) fun early => absurd begun early)
  refine (ends_amplify h primed begun undecided).bind fun _ t ⟨paced, same⟩ => ?_
  refine (ends_answer paced (by rw [same, output, undecided])).weaken (fun _ u ⟨paced, cache, kept⟩ => ?_) fun _ _ failed => failed
  rw [same] at cache kept
  exact ⟨paced, cache, kept.trans phase⟩

/-- The third stage broadcasts the share with the AUX certificate. -/
theorem ends_thirdStage (h : AtPace name base s) (late : s.core.phase ≥ AUX_PHASE) : Ends processCachedAux s
    (fun _ t => Shared s.core.epoch s.core.abaRound t.log ↔ s.core.coinShareBroadcasted = true ∨
      s.core.abaAuxPhaseCache.contains (s.core.epoch, s.core.abaRound) = true)
    fun _ t => Shared s.core.epoch s.core.abaRound t.log ↔ s.core.coinShareBroadcasted = true ∨
      s.core.abaAuxPhaseCache.contains (s.core.epoch, s.core.abaRound) = true := by
  unfold processCachedAux withCached
  refine ends_getCore (Ends.ite (fun _ => ends_getCore ?_) fun early => absurd late early)
  cases cached : s.core.abaAuxPhaseCache.get? (s.core.epoch, s.core.abaRound) with
  | none =>
      refine Ends.pure ?_
      rw [shared_now h, Map.contains, cached]
      simp
  | some proof =>
      obtain ⟨epoch, round, -⟩ := h.1.aux _ _ proof cached
      have due : s.core.abaAuxPhaseCache.contains (s.core.epoch, s.core.abaRound) = true := by
        rw [Map.contains, cached]
        rfl
      have shared {t : State} (mem : s.core.now ∈ (rounds t.log).filterMap Event.shareMark) :
          Shared s.core.epoch s.core.abaRound t.log := shared_rounds.mp (shared_iff.mpr mem)
      dsimp only
      rw [epoch, round]
      refine (ends_castShare (E := fun _ => True) h (.inl fun _ => trivial)).weaken (fun _ t kept => ?_) fun _ t failed => ?_
      · exact iff_of_true (shared kept.2) (.inr due)
      · exact iff_of_true (shared failed.2.2) (.inr due)

/-- After the stages the share of the round has been broadcast if and only if it was due. -/
theorem ends_share_due (h : AtPace name base s) (primed : s.core.Primed) (late : s.core.phase ≥ AUX_PHASE)
    (undecided : s.core.abaOutputVal = none) : Ends processAbaPhase s
      (fun _ t => Shared s.core.epoch s.core.abaRound t.log ↔ s.core.ShareDue)
      fun _ t => Shared s.core.epoch s.core.abaRound t.log ↔ s.core.ShareDue := by
  have begun : s.core.phase ≥ VAL_PHASE := UInt8.le_trans (by decide) late
  have first : Ends processCachedTc s (fun _ t => t = s) fun _ _ => False := by
    have processed := h.1.processed fun initial => absurd (initial ▸ begun) (by decide)
    unfold processCachedTc
    refine ends_getCore (Ends.ite (fun waiting => ?_) fun _ => rfl)
    simp [processed] at waiting
  refine (first.weaken (fun _ _ same => same) fun _ _ failed => failed.elim).bind fun _ t same => ?_
  subst same
  have second := (ends_secondStage h primed begun undecided).leads mute_processValPhase
  refine (second.weaken (fun _ _ kept => kept) fun _ _ failed => failed.elim).bind fun _ u ⟨⟨paced, cache, phase⟩, mute, _⟩ => ?_
  have due : (u.core.coinShareBroadcasted = true ∨ u.core.abaAuxPhaseCache.contains (u.core.epoch, u.core.abaRound) = true) ↔
      t.core.ShareDue := by
    unfold ShareDue
    rw [mute.flag, cache, mute.epoch, mute.round]
  have third := ends_thirdStage paced (phase ▸ late)
  rw [due, mute.epoch, mute.round] at third
  refine third.bind fun _ v shared => ?_
  have rest : Leads Tacit (processCoinPhase >>= fun _ => processCachedProof) v fun _ _ => True :=
    Leads.bind (passes_processCoinPhase passes_tacit) fun _ _ _ _ => passes_processCachedProof passes_tacit
  exact rest.ends.weaken (fun _ w ⟨tacit, _⟩ => tacit.shared.trans shared) fun _ w tacit => tacit.shared.trans shared

end Core

/-- The valid AUX messages of the round for accepted values have come from a quorum. -/
def AuxAccepted (s : State) (vals : List ABAVal) : Prop :=
  AuxHeard s.core.committee (vals.filter fun v => v.val ∈ s.core.binValues) s.core.epoch s.core.abaRound

instance (s : State) (vals : List ABAVal) : Decidable (AuxAccepted s vals) := inferInstanceAs (Decidable (AuxHeard _ _ _ _))

variable [Bincode]

namespace System

/-- Where an honest node runs the stages in the phase of the AUX messages or later, the share of the round has been
broadcast afterwards if and only if it was due. -/
theorem share_released_iff (sys : System) (trace : Trace) (valid : sys.Valid trace) (key : PublicKey) (honest : sys.Honest key)
    (channel : Channel) (message : ConsensusMessage) (env : Env) (s : State)
    (allowed : sys.Allowed trace (.deliver channel message env))
    (staged : (sys.nodeAt trace key).staged channel message env = some s) (late : s.core.phase ≥ AUX_PHASE) :
    Shared s.core.epoch s.core.abaRound (final Core.processAbaPhase s).log ↔ s.core.ShareDue := by
  obtain ⟨_, reached⟩ := Node.staged_eq staged
  have before : (sys.nodeAt trace key).Keeps (AtPace key (sys.nodeAt trace key).log) :=
    fun env => ⟨(atPace valid honest env).1, List.prefix_refl _⟩
  have paced := lasting_pace.reachStages resident_pace Core.calm_phases (atPace_among allowed honest) (before env) reached
  have inv := primedInvariant fun _ => True
  have sound : (sys.nodeAt trace key).Sound fun _ k _ => k.Primed :=
    sound_of_inputs (primedInvariant _) (Core.Primed.new _ _ _ _)
  have primed := sound.staged inv trivial staged
  have ends := Core.ends_share_due paced primed late (Core.changing_of_reachStages reached).2
  unfold Ends at ends
  unfold final
  cases exit : Core.processAbaPhase s with
  | ok a t =>
      rw [exit] at ends
      exact ends
  | error e t =>
      rw [exit] at ends
      exact ends

end System
end

namespace Sample

/-- The AUX messages for the one value are a quorum. -/
theorem unanimous_released : ∃ s, (system.nodeAt (unanimous.drop 2) (key 1)).staged .smvba
      (.abaVal (.new (key 2) 0 1 2 AUX_PHASE)) env = some s ∧ s.core.coinShareBroadcasted = false ∧
    Shared s.core.epoch s.core.abaRound (final Core.processAbaPhase s).log := by
  have due : ∃ s ∈ (system.nodeAt (unanimous.drop 2) (key 1)).staged .smvba (.abaVal (.new (key 2) 0 1 2 AUX_PHASE)) env,
      s.core.coinShareBroadcasted = false ∧ s.core.phase ≥ AUX_PHASE ∧ s.core.ShareDue := by
    decide +kernel
  obtain ⟨s, staged, fresh, late, due⟩ := due
  refine ⟨s, staged, fresh, ?_⟩
  exact (System.share_released_iff system (unanimous.drop 2) (by decide +kernel) (key 1) (by decide) .smvba _ env s
    (by decide +kernel) staged late).mpr due

/-- The node has accepted 2 and 4 and has AUX messages for both. -/
def splitAux : Trace := overtaken.drop 2

theorem split_aux_blocks : system.Valid splitAux ∧ system.Honest (key 1) ∧ ∃ s,
    (system.nodeAt splitAux (key 1)).staged .smvba (.abaCoinShare (.new 0 1 (key 4))) env = some s ∧ s.core.phase ≥ AUX_PHASE ∧
    s.core.isViewChange = true ∧ s.core.abaOutputVal = none ∧ AuxAccepted s (receivedVals (inputsOf 1 splitAux) s.log) ∧
    ¬ Shared s.core.epoch s.core.abaRound (final Core.processAbaPhase s).log := by
  have facts : ∃ s ∈ (system.nodeAt splitAux (key 1)).staged .smvba (.abaCoinShare (.new 0 1 (key 4))) env,
      s.core.phase ≥ AUX_PHASE ∧ s.core.isViewChange = true ∧ s.core.abaOutputVal = none ∧
      AuxAccepted s (receivedVals (inputsOf 1 splitAux) s.log) ∧
      point s.core.epoch s.core.abaRound ∉ Core.shareMarks (final Core.processAbaPhase s).log := by
    decide +kernel
  obtain ⟨s, staged, late, changing, undecided, heard, unmarked⟩ := facts
  exact ⟨by decide +kernel, by decide, s, staged, late, changing, undecided, heard, fun shared => unmarked (Core.shared_iff.mp shared)⟩

end Sample
end HotstuffDag
