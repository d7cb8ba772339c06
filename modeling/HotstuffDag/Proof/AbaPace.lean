import HotstuffDag.Proof.Counting
import HotstuffDag.Proof.Lasting
import HotstuffDag.Proof.Pace
import HotstuffDag.Proof.Primed

/-! # The agreement keeps pace

The handlers of the agreement keep pace, and where they fail. -/

namespace HotstuffDag
open Library Library.Exec

/-! ## The handlers -/

/-- The state keeps pace, and its log goes on from the given one. -/
def AtPace (name : PublicKey) (base : List Event) (s : State) : Prop := Paced name s.core (rounds s.log) ∧ base <+: s.log

/-- Every failure is allowed. -/
def Exn.Any (_ : Exn) : Prop := True

instance : Lenient Exn.Any := ⟨fun _ => trivial, trivial, fun _ _ => trivial⟩

instance [Bincode] {K : State → Prop} : Readable Exn.Any K := .of_panic trivial

section
variable {name : PublicKey} {base : List Event} {s t : State}

instance : Deaf (AtPace name base) where
  env := fun _ h => h
  event := by
    intro s e other h
    refine ⟨?_, h.2.trans (List.prefix_append _ _)⟩
    dsimp only
    rw [rounds_other other]
    exact h.1

namespace AtPace

theorem core (h : AtPace name base s) {k : Core} (paced : Paced name k (rounds s.log)) :
    AtPace name base { s with core := k } := ⟨paced, h.2⟩

theorem congr (h : AtPace name base s) {k : Core} (same : k.pace = s.core.pace) : AtPace name base { s with core := k } :=
  h.core (h.1.congr same)

/-- A value that has been counted. -/
theorem counted (h : AtPace name base s) {v : ABAVal} {k : Core} (paced : Paced name k (rounds s.log)) :
    AtPace name base (Core.counted s v k) := by
  have quiet : rounds (s.core.abaEvents v) = [] := List.filter_eq_nil_iff.mpr fun e mem => by
    obtain ⟨_, rfl, -⟩ := Core.mem_abaEvents mem
    exact fun round => (of_decide_eq_true round).elim
  refine ⟨?_, h.2.trans (List.prefix_append _ _)⟩
  dsimp only
  rw [rounds_append, quiet, List.append_nil]
  exact paced

/-- An event of a round together with a change of the core. -/
theorem snoc (h : AtPace name base s) {k : Core} {e : Event} (round : e.ofRound)
    (paced : Paced name k (rounds s.log ++ [e])) : AtPace name base { s with core := k, log := s.log ++ [e] } := by
  refine ⟨?_, h.2.trans (List.prefix_append _ _)⟩
  dsimp only
  rw [rounds_snoc round]
  exact paced

end AtPace

/-- Nothing that the pace depends on is changed. -/
theorem calm_pace {g : Core → Core} (same : ∀ k, (g k).pace = k.pace) : Calm Exn.Any (AtPace name base) (modifyCore g) :=
  calm_modifyCore fun s h => h.congr (same s.core)

theorem ends_broadcast {β : Type} {Q : β → State → Prop} {E : Exn → State → Prop} {m : ConsensusMessage} {f : PUnit → M β}
    (h : ∀ addresses, Ends (f ⟨⟩) { s with log := s.log ++ [.transmit TCVBA m addresses] } Q E) :
    Ends (Synchronizer.transmit m none TCVBA >>= f) s Q E :=
  h (s.core.committee.smvbaBroadcastAddresses s.core.name)

/-- The runs that keep a property. -/
def Keeping (K : State → Prop) (s t : State) : Prop := K s → K t

instance (K : State → Prop) : Std.Refl (Keeping K) := ⟨fun _ h => h⟩

instance (K : State → Prop) : IsTrans State (Keeping K) := ⟨fun _ _ _ h h' holds => h' (h holds)⟩

namespace Core

/-- A value is heard or it changes nothing; the own name is heard only with a value that has been broadcast. -/
theorem AtPace.heard (h : AtPace name base s) {v : ABAVal} (known : v.author = name → Cast (rounds s.log) v.epoch v.round v.phase v.val)
    (heard : Heard s v t) : AtPace name base t := by
  rcases heard with rfl | ⟨phase, rfl⟩ | ⟨phase, rfl⟩
  · exact h
  · exact h.counted (h.1.hearVal phase known)
  · exact h.counted (h.1.hearAux phase known)

variable [Crypto]

theorem calm_hearVal {v : ABAVal}
    (known : ∀ s, AtPace name base s → v.verify = .ok () → v.author = name → Cast (rounds s.log) v.epoch v.round v.phase v.val) :
    Calm Exn.Any (AtPace name base) (handleAbaVal v) := by
  have keep (s : State) : Leads (Keeping (AtPace name base)) (handleAbaVal v) s fun _ _ => True :=
    (leads_hear (fun _ phase verified h => h.counted (h.1.hearVal phase (known s h verified)))
      fun _ phase verified h => h.counted (h.1.hearAux phase (known s h verified))).weaken fun _ _ _ _ => trivial
  exact calm_any.along keep fun kept h => kept h

/-- An own value that has not been counted is heard without an error. -/
theorem ends_hear_own {v : ABAVal} (phase : v.phase = VAL_PHASE ∨ v.phase = AUX_PHASE) (verified : v.verify = .ok ())
    (unheard : v.author ∉ (s.core.aggregator.abaValsAggregators.getD (v.epoch, v.round, v.phase, v.val) Maker.new).used) :
    Ends (handleAbaVal v) s (fun _ t => Heard s v t) fun _ _ => False := by
  unfold Ends
  rw [handleAbaVal_run phase verified unheard]
  exact heard_cases s v phase

theorem ABAVal.verify_new (name : PublicKey) (epoch round : SeqNumber) (val : UInt64) (phase : UInt8) :
    (ABAVal.new name epoch round val phase).verify = .ok () := by
  unfold ABAVal.verify
  have signed : Crypto.verify (ABAVal.new name epoch round val phase).signature
      (ABAVal.new name epoch round val phase).digest (ABAVal.new name epoch round val phase).author = true :=
    Crypto.verify_sign _ _
  rw [signed]
  rfl

/-- The broadcast of a value that has not been broadcast before. -/
theorem ends_cast {epoch round : SeqNumber} {val : UInt64} {phase : UInt8} (sort : phase = VAL_PHASE ∨ phase = AUX_PHASE)
    (unheard : s.core.name ∉ (s.core.aggregator.abaValsAggregators.getD (epoch, round, phase, val) Maker.new).used) :
    Ends (broadcastAbaVal (.new s.core.name epoch round val phase)) s (fun _ t => ∃ addresses,
      Heard { s with log := s.log ++ [.transmit TCVBA (.abaVal (.new s.core.name epoch round val phase)) addresses] }
        (.new s.core.name epoch round val phase) t) fun _ _ => False := by
  refine ends_broadcast fun addresses => ?_
  have heard := ends_hear_own (s := { s with
    log := s.log ++ [.transmit TCVBA (.abaVal (.new s.core.name epoch round val phase)) addresses] })
    (v := .new s.core.name epoch round val phase) sort (ABAVal.verify_new _ _ _ _ _) unheard
  exact heard.weaken (fun _ _ heard => ⟨addresses, heard⟩) fun _ _ h => h

/-- The same where the broadcast keeps pace. -/
theorem ends_castAt {epoch round : SeqNumber} {val : UInt64} {phase : UInt8} (sort : phase = VAL_PHASE ∨ phase = AUX_PHASE)
    (unheard : s.core.name ∉ (s.core.aggregator.abaValsAggregators.getD (epoch, round, phase, val) Maker.new).used)
    (cast : ∀ addresses, AtPace name base
      { s with log := s.log ++ [.transmit TCVBA (.abaVal (.new s.core.name epoch round val phase)) addresses] }) :
    Ends (broadcastAbaVal (.new s.core.name epoch round val phase)) s (fun _ t => AtPace name base t) fun _ _ => False := by
  refine (ends_cast sort unheard).weaken (fun _ t ⟨addresses, heard⟩ => AtPace.heard (cast addresses) (fun _ => ?_) heard)
    fun _ _ h => h
  refine ⟨_, ⟨TCVBA, addresses, mem_rounds.mpr ⟨?_, trivial⟩⟩, rfl, rfl, rfl, rfl⟩
  exact List.mem_append_right _ (List.mem_singleton_self _)

/-! ### The input of the epoch -/

omit [Crypto] in
theorem ends_setInput {β : Type} {Q : β → State → Prop} {E : Exn → State → Prop} {round : SeqNumber} {val : UInt64}
    {f : PUnit → M β} (h : Ends (f ⟨⟩) { s with
      core := s.core.takeInput round val
      log := s.log ++ [.abaInput s.core.epoch round val] } Q E) : Ends (setInput round val >>= f) s Q E := h

theorem ends_signAbaVal {β : Type} {Q : β → State → Prop} {E : Exn → State → Prop} {epoch round : SeqNumber}
    {val : UInt64} {phase : UInt8} {f : ABAVal → M β} (h : Ends (f (.new s.core.name epoch round val phase))
      { s with log := s.log ++ [.signed (.abaVal (.new s.core.name epoch round val phase))] } Q E) :
    Ends (signAbaVal epoch round val phase >>= f) s Q E := h

/-- The broadcast of the input of the epoch, in a state that would keep pace if the certificate were done with. -/
theorem ends_castInput {val : UInt64} (named : s.core.name = name)
    (paced : AtPace name base { s with core := { s.core with tcProcessed := true } })
    (taken : Event.abaInput s.core.epoch 1 val ∈ s.log)
    (unheard : name ∉ (s.core.aggregator.abaValsAggregators.getD (s.core.epoch, 1, VAL_PHASE, val) Maker.new).used) :
    Ends (broadcastAbaVal (.new s.core.name s.core.epoch 1 val VAL_PHASE)) s
      (fun _ t => AtPace name base { t with core := { t.core with tcProcessed := true } }) fun _ _ => False := by
  rw [← named] at unheard
  refine (ends_cast (.inl rfl) unheard).weaken (fun _ t ⟨addresses, heard⟩ => ?_) fun _ _ h => h
  have cast := paced.snoc (e := .transmit TCVBA (.abaVal (.new s.core.name s.core.epoch 1 val VAL_PHASE)) addresses) trivial
    (paced.1.castInput rfl (mem_rounds.mpr ⟨taken, trivial⟩))
  refine AtPace.heard (v := .new s.core.name s.core.epoch 1 val VAL_PHASE) cast
    (fun _ => ⟨_, ⟨TCVBA, addresses, mem_rounds.mpr ⟨?_, trivial⟩⟩, rfl, rfl, rfl, rfl⟩) ?_
  · exact List.mem_append_right _ (List.mem_singleton_self _)
  · rcases heard with rfl | ⟨phase, rfl⟩ | ⟨phase, rfl⟩
    · exact .inl rfl
    · exact .inr (.inl ⟨phase, rfl⟩)
    · exact .inr (.inr ⟨phase, rfl⟩)

variable {E : Exn → Prop}

/-- The input is broadcast and the certificate is done with, or the task ends before the input is taken. -/
theorem ends_processCachedTc (h : AtPace name base s) (primed : E .panic ∨ s.core.Primed) :
    Ends processCachedTc s (fun _ t => AtPace name base t) fun e t => E e ∧ AtPace name base t := by
  unfold processCachedTc
  refine ends_getCore (Ends.ite (fun waiting => ends_getCore (ends_getCore ?_)) fun _ => h)
  have fresh : s.core.tcProcessed = false := by simpa using waiting
  split
  · exact h
  rename_i tc cached
  unfold processTc
  simp only [bind_assoc]
  refine ends_broadcast fun addresses => ?_
  have announced : AtPace name base { s with log := s.log ++ [.transmit TCVBA (.tc tc) addresses] } := Deaf.event _ id h
  refine ends_unwrap (fun none => ⟨primed.resolve_right fun primed => ?_, announced⟩) fun val _ => ?_
  · refine primed.tcs _ tc cached (List.map_eq_nil_iff.mp (List.max?_eq_none_iff.mp none))
  refine ends_setInput (ends_getCore (ends_signAbaVal ?_))
  have taken : AtPace name base { s with
      core := { s.core.takeInput 1 val with tcProcessed := true }
      log := s.log ++ [.transmit TCVBA (.tc tc) addresses] ++ [.abaInput s.core.epoch 1 val] } :=
    announced.snoc trivial (announced.1.takeInput val fresh)
  have signed := Deaf.event (K := AtPace name base) (.signed (.abaVal (.new s.core.name s.core.epoch 1 val VAL_PHASE))) id taken
  have cast := ends_castInput (s := { s with
    core := s.core.takeInput 1 val
    log := s.log ++ [.transmit TCVBA (.tc tc) addresses] ++ [.abaInput s.core.epoch 1 val] ++
      [.signed (.abaVal (.new s.core.name s.core.epoch 1 val VAL_PHASE))] })
    h.1.named signed (by simp [takeInput]) (h.1.unused (h.1.silent (h.1.first fresh) val))
  exact Ends.bind (cast.weaken (fun _ _ kept => kept) fun _ _ failed => failed.elim) fun _ t kept => kept

/-! ### Messages of the agreement -/

theorem calm_hearShare (share : RandomnessShare) : Calm Exn.Any (AtPace name base) (handleCoinShare share) := by
  have add : Calm Exn.Any (AtPace name base) (addAbaRandom share) := by
    intro s h
    exact calm_liftResult (s.core.aggregator.addAbaRandom share s.core.committee).1 _ (h.congr rfl)
  unfold handleCoinShare
  refine calm_bind calm_getCore fun core => calm_ite (calm_pure _) ?_
  refine calm_bind (calm_liftResult _) fun _ => calm_bind add fun option => ?_
  cases option with
  | none => exact calm_pure _
  | some coin => exact calm_bind (calm_pace fun _ => rfl) fun _ => calm_log

theorem calm_hearProof (proof : ABAProof) : Calm Exn.Any (AtPace name base) (handleAbaProof proof) := by
  unfold handleAbaProof
  refine calm_bind calm_getCore fun core => calm_ite (calm_pure _) ?_
  exact calm_bind (calm_liftResult _) fun _ => calm_pace fun _ => rfl

/-! ### The stages of a round -/

/-- The certificate of a value comes after the input of its round. -/
theorem ends_processValPhase1 (h : AtPace name base s) {proof : ABAProof}
    (cached : s.core.abaValPhaseCache1.get? (s.core.epoch, s.core.abaRound) = some proof)
    (present : E .panic ∨ (s.core.abaInputVal.get? s.core.abaRound).isSome) :
    Ends (processValPhase1 proof) s (fun _ t => AtPace name base t) fun e t => E e ∧ AtPace name base t := by
  obtain ⟨epoch, round, phase⟩ := h.1.weak _ _ proof cached
  unfold processValPhase1
  rw [epoch, round, phase]
  refine ends_getCore (ends_unwrap (fun none => ⟨present.resolve_right fun some => ?_, h⟩) fun input held => ?_)
  · rw [none] at some
    contradiction
  refine Ends.ite (fun _ => h) fun other => ends_signAbaVal (ends_getCore ?_)
  have signed := Deaf.event (.signed (.abaVal (.new s.core.name s.core.epoch s.core.abaRound proof.val VAL_PHASE))) id h
  refine Ends.ite (fun _ => signed) fun up => ends_modifyCore ?_
  have down : s.core.valValueBroadcasted = false := by simpa using up
  have begun : s.core.now ∈ (rounds s.log).filterMap Event.inputMark := h.1.inputAt held
  have unheard := h.1.unused (h.1.unamplified down held other)
  rw [← h.1.named] at unheard
  have cast := ends_castAt (s := { s with
    core := { s.core with valValueBroadcasted := true }
    log := s.log ++ [.signed (.abaVal (.new s.core.name s.core.epoch s.core.abaRound proof.val VAL_PHASE))] })
    (.inl rfl) unheard fun addresses => signed.snoc trivial (signed.1.amplify down rfl rfl (by rwa [rounds_other id]))
  exact cast.weaken (fun _ _ kept => kept) fun _ _ failed => failed.elim

omit [Crypto] in
theorem calm_insertBinValue (val : UInt64) : Calm E (AtPace name base) (insertBinValue val) :=
  fun _ h => ends_modifyCore (ends_getCore (Deaf.event (K := AtPace name base) _ id (h.congr rfl)))

theorem ends_processValPhase2 (h : AtPace name base s) {proof : ABAProof}
    (cached : s.core.abaValPhaseCache2.get? (s.core.epoch, s.core.abaRound) = some proof) :
    Ends (processValPhase2 proof) s (fun _ t => AtPace name base t) fun e t => E e ∧ AtPace name base t := by
  obtain ⟨epoch, round, -⟩ := h.1.strong _ _ proof cached
  unfold processValPhase2
  rw [epoch, round]
  refine ends_getCore (Ends.ite (fun _ => ends_signAbaVal (ends_getCore ?_)) fun _ => calm_insertBinValue _ s h)
  have signed := Deaf.event (.signed (.abaVal (.new s.core.name s.core.epoch s.core.abaRound proof.val AUX_PHASE))) id h
  refine Ends.ite (fun up => ends_modifyCore ?_) fun _ => calm_insertBinValue _ _ signed
  have down : s.core.auxValueBroadcasted = false := by simpa using up
  have unheard := h.1.unused (h.1.unaccepted down proof.val)
  rw [← h.1.named] at unheard
  have cast := ends_castAt (s := { s with
    core := { s.core with auxValueBroadcasted := true }
    log := s.log ++ [.signed (.abaVal (.new s.core.name s.core.epoch s.core.abaRound proof.val AUX_PHASE))] })
    (.inr rfl) unheard fun addresses => signed.snoc trivial (signed.1.castAux down rfl rfl)
  exact (cast.weaken (fun _ _ kept => kept) fun _ _ failed => failed.elim).bind fun _ t kept => calm_insertBinValue _ t kept

theorem ends_processValPhase (h : AtPace name base s) (primed : E .panic ∨ s.core.Primed) :
    Ends processValPhase s (fun _ t => AtPace name base t) fun e t => E e ∧ AtPace name base t := by
  unfold processValPhase
  refine ends_getCore (Ends.ite (fun begun => Ends.bind (Q := fun _ t => AtPace name base t) ?_ fun _ t kept => ?_) fun _ => h)
  · unfold withCached
    refine ends_getCore ?_
    split
    · exact h
    · rename_i proof cached
      refine ends_processValPhase1 h cached (primed.imp_right fun primed => ?_)
      refine primed.input.resolve_left fun initial => ?_
      rw [initial.1] at begun
      exact absurd begun (by decide)
  · unfold withCached
    refine ends_getCore ?_
    split
    · exact kept
    · rename_i cached
      exact ends_processValPhase2 kept cached

/-- The own share of the round has been broadcast, or it would be accepted. -/
def DealsFreely (k : Core) : Prop :=
  k.coinShareBroadcasted = true ∨ (RandomnessShare.new k.epoch k.abaRound k.name).verify k.committee = .ok () ∧
    k.name ∉ (k.aggregator.abaRandomcoinAggregators.getD (k.epoch, k.abaRound) Maker.new).used

theorem ends_share_own {share : RandomnessShare} (verified : share.verify s.core.committee = .ok ())
    (unused : share.author ∉ (s.core.aggregator.abaRandomcoinAggregators.getD (share.epoch, share.round) Maker.new).used) :
    Ends (handleCoinShare share) s (fun _ _ => True) fun _ _ => False := by
  unfold Ends
  rw [handleCoinShare_run verified unused]
  trivial

/-- The share of the round is broadcast, whatever becomes of it then. -/
theorem ends_castShare (h : AtPace name base s) (accepted : (∀ e, E e) ∨ s.core.DealsFreely) :
    Ends (processAuxPhase s.core.epoch s.core.abaRound) s
      (fun _ t => AtPace name base t ∧ s.core.now ∈ (rounds t.log).filterMap Event.shareMark)
      fun e t => E e ∧ AtPace name base t ∧ s.core.now ∈ (rounds t.log).filterMap Event.shareMark := by
  unfold processAuxPhase
  refine ends_getCore (ends_getCore (Ends.ite (fun up => ⟨h, h.1.dealt up⟩) fun up => ends_modifyCore ?_))
  have down : s.core.coinShareBroadcasted = false := by simpa using up
  refine ends_broadcast fun addresses => ?_
  have cast := h.snoc (e := .transmit TCVBA (.abaCoinShare (.new s.core.epoch s.core.abaRound s.core.name)) addresses) trivial
    (h.1.castShare down rfl)
  -- Whatever happens to the share, the log goes on from its broadcast.
  have heard := calm_hearShare (.new s.core.epoch s.core.abaRound s.core.name) _ ⟨cast.1, List.prefix_refl _⟩
  have marked {t : State} (kept : AtPace name (s.log ++
      [.transmit TCVBA (.abaCoinShare (.new s.core.epoch s.core.abaRound s.core.name)) addresses]) t) :
      AtPace name base t ∧ s.core.now ∈ (rounds t.log).filterMap Event.shareMark := by
    have mem := kept.2.subset (List.mem_append_right _ (List.mem_singleton_self _))
    exact ⟨⟨kept.1, cast.2.trans kept.2⟩, List.mem_filterMap.mpr ⟨_, mem_rounds.mpr ⟨mem, trivial⟩, rfl⟩⟩
  rcases accepted with all | freely
  · exact heard.weaken (fun _ _ kept => marked kept) fun e _ failed => ⟨all e, marked failed.2⟩
  · obtain ⟨verified, unused⟩ := freely.resolve_left up
    have returns := ends_share_own (s := { s with
      core := { s.core with coinShareBroadcasted := true }
      log := s.log ++ [.transmit TCVBA (.abaCoinShare (.new s.core.epoch s.core.abaRound s.core.name)) addresses] })
      verified unused
    exact (heard.and returns).weaken (fun _ _ kept => marked kept.1) fun _ _ failed => failed.2.elim

/-- With a certificate of the round the share is broadcast. -/
theorem ends_processCachedAux (h : AtPace name base s) (accepted : (∀ e, E e) ∨ s.core.DealsFreely) :
    Ends processCachedAux s (fun _ t => AtPace name base t) fun e t => E e ∧ AtPace name base t := by
  unfold processCachedAux withCached
  refine ends_getCore (Ends.ite (fun _ => ends_getCore ?_) fun _ => h)
  split
  · exact h
  rename_i proof cached
  obtain ⟨epoch, round, -⟩ := h.1.aux _ _ proof cached
  dsimp only
  rw [epoch, round]
  exact (ends_castShare h accepted).weaken (fun _ _ kept => kept.1) fun _ _ failed => ⟨failed.1, failed.2.1⟩

theorem ends_advanceAbaRound (h : AtPace name base s) (processed : s.core.tcProcessed = true) (overflow : E (.overflow .round))
    (val : UInt64) :
    Ends (advanceAbaRound val) s (fun _ t => AtPace name base t) fun e t => E e ∧ AtPace name base t := by
  unfold advanceAbaRound
  refine ends_getCore (ends_checkedAdd ⟨overflow, h⟩ fun small => ends_modifyCore (ends_setInput (ends_getCore ?_)))
  refine ends_signAbaVal (ends_modifyCore ?_)
  have next := h.snoc (e := .abaInput s.core.epoch (s.core.abaRound + 1) val) trivial (h.1.nextRound val small processed)
  have signed := Deaf.event (.signed (.abaVal (.new s.core.name s.core.epoch (s.core.abaRound + 1) val VAL_PHASE))) id next
  have unheard := h.1.unused (h.1.unreached small val)
  rw [← h.1.named] at unheard
  have taken : Event.abaInput s.core.epoch (s.core.abaRound + 1) val ∈
      rounds (s.log ++ [.abaInput s.core.epoch (s.core.abaRound + 1) val]) :=
    mem_rounds.mpr ⟨List.mem_append_right _ (List.mem_singleton_self _), trivial⟩
  have cast := ends_castAt (s := { s with
    core := s.core.nextRound val
    log := s.log ++ [.abaInput s.core.epoch (s.core.abaRound + 1) val] ++
      [.signed (.abaVal (.new s.core.name s.core.epoch (s.core.abaRound + 1) val VAL_PHASE))] })
    (.inl rfl) unheard fun addresses => signed.snoc trivial (signed.1.castInput rfl (by rwa [rounds_other id]))
  exact cast.weaken (fun _ _ kept => kept) fun _ _ failed => failed.elim

section
omit [Crypto]

theorem calm_output (val : UInt64) : Calm E (AtPace name base) (setOutput val) :=
  fun _ h => ends_modifyCore (ends_getCore (Deaf.event (K := AtPace name base) _ id (h.congr rfl)))

theorem calm_castProof (proof : ABAProof) : Calm E (AtPace name base) (broadcastAuxProof proof) := by
  intro s h
  unfold broadcastAuxProof
  refine ends_getCore (Ends.ite (fun _ => h) fun _ => ends_modifyCore ?_)
  exact Deaf.event (K := AtPace name base) (.transmit TCVBA (.abaProof proof) _) id (h.congr rfl)

end

theorem ends_processCoinPhase (h : AtPace name base s) (primed : E .panic ∨ s.core.Primed) (overflow : E (.overflow .round)) :
    Ends processCoinPhase s (fun _ t => AtPace name base t) fun e t => E e ∧ AtPace name base t := by
  unfold processCoinPhase withCached
  refine ends_getCore (Ends.ite (fun late => ends_getCore ?_) fun _ => h)
  split
  · exact h
  rename_i coin _
  have begun : s.core.phase ≠ INIT_PHASE := by
    intro initial
    rw [initial] at late
    exact absurd late (by decide)
  refine ends_getCore ?_
  unfold processCoinShare
  refine ends_getCore (ends_emit ?_)
  have called := Deaf.event (K := AtPace name base) (.coinCall s.core coin) id h
  have advance (val : UInt64) := ends_advanceAbaRound called (h.1.processed begun) overflow val
  split
  · rename_i v single
    have certified : E .panic ∨ (s.core.abaAuxPhaseCache.get? (s.core.epoch, s.core.abaRound)).isSome := by
      refine primed.imp_right fun primed => (primed.ready.resolve_left (UInt8.not_lt.mpr late)).resolve_left ?_
      simp [single]
    refine Ends.ite (fun _ => ?_) fun _ => advance _
    exact calm_bind (calm_output v) (fun _ => calm_bind (calm_unwrap certified) fun proof => calm_castProof proof) _ called
  · dsimp only
    split
    · rename_i proof _
      refine Ends.ite (fun _ => ?_) fun _ => advance _
      exact calm_bind (calm_output _) (fun _ => calm_castProof proof) _ called
    · exact advance _

omit [Crypto] in
theorem calm_processCachedProof : Calm E (AtPace name base) processCachedProof := by
  intro s h
  unfold processCachedProof withCached processAbaProof
  refine ends_getCore (Ends.ite (fun _ => ends_getCore ?_) fun _ => h)
  split
  · exact h
  rename_i proof _
  refine ends_getCore (ends_emit ?_)
  have called := Deaf.event (K := AtPace name base) (.proofCall s.core proof) id h
  split
  · exact called
  · exact Ends.ite (fun _ => calm_output _ _ called) fun _ => called

theorem calm_stages : Calm Exn.Any (AtPace name base) processAbaPhase := by
  intro s h
  unfold processAbaPhase
  refine (ends_processCachedTc h (.inl trivial)).bind fun _ t h => ?_
  refine (ends_processValPhase h (.inl trivial)).bind fun _ t h => ?_
  refine (ends_processCachedAux h (.inl fun _ => trivial)).bind fun _ t h => ?_
  exact (ends_processCoinPhase h (.inl trivial) trivial).bind fun _ t h => calm_processCachedProof t h

/-! ### Phases -/

omit [Crypto] in
theorem calm_phases : Calm Exn.Any (AtPace name base) updatePhase := by
  have enter (phase : UInt8) {s : State} (h : AtPace name base s) (begun : s.core.phase ≠ INIT_PHASE) :
      AtPace name base { s with core := { s.core with phase := phase } } :=
    h.core (h.1.setPhase (h.1.processed begun) phase)
  unfold updatePhase
  refine calm_bind (fun s h => ?_) fun _ => calm_bind (fun s h => ?_) fun _ s h => ?_
  · unfold enterValPhase
    exact ends_getCore (Ends.ite (fun ready => h.core (h.1.setPhase ready.2 VAL_PHASE)) fun _ => h)
  · unfold enterAuxPhase
    refine ends_getCore (Ends.ite (fun ready => enter AUX_PHASE h ?_) fun _ => h)
    rw [ready.1]
    decide
  · unfold enterCoinPhase auxValueNum
    simp only [bind_assoc]
    refine ends_getCore (Ends.ite (fun ready => ends_modifyCore (ends_getCore (Ends.ite (fun _ => ?_) fun _ => ?_))) fun _ => h)
    · refine ends_getCore (ends_emit (enter COIN_PHASE (Deaf.event (K := AtPace name base) _ id (h.congr rfl)) ?_))
      change s.core.phase ≠ _
      rw [ready.1]
      decide
    · exact h.congr rfl

end Core

/-! ## A node -/

theorem Event.not_ofRound_of_commit {e : Event} (h : e.ofCommit) : ¬ e.ofRound := by
  cases e <;> simp_all [ofCommit, ofRound]

/-- A commit broadcasts nothing. -/
theorem AtPace.commit (h : AtPace name base s) (frame : CommitFrame s t) : AtPace name base t := by
  obtain ⟨more, log, each⟩ := frame.log
  have quiet : rounds more = [] := List.filter_eq_nil_iff.mpr fun e mem => by
    simpa using Event.not_ofRound_of_commit (each e mem)
  refine ⟨?_, h.2.trans ⟨more, log.symm⟩⟩
  rw [log, rounds_append, quiet, List.append_nil]
  exact h.1.congr (frame.core_eq Core.pace fun _ _ => rfl)

variable [Crypto] [Bincode]

theorem lasting_pace : Lasting Exn.Any (AtPace name base) (fun _ => True) (fun _ => True) fun _ => True where
  next := fun _ => trivial
  after := fun _ => .inl trivial
  grandparent := fun _ _ => .inl trivial
  ahead := fun _ => .inl trivial
  output := fun _ _ => .inl trivial
  high := fun _ => trivial
  own := fun _ _ => trivial
  proposal := fun _ _ _ => trivial
  hold := fun h _ => h.congr rfl
  certify := fun h _ _ => h
  lockVote := fun _ h => h
  countVote := fun h _ => h
  completed := fun _ _ _ => trivial
  countTimeout := fun _ h => h
  keepTc := fun _ h => h.congr rfl
  viewChange := fun h => h.congr rfl
  commit := fun fuel b => calm_any.along (Core.leads_commit fuel b) fun frame h => h.commit frame
  restart := fun h _ small _ => h.core (h.1.nextEpoch small)

omit [Bincode] [Crypto] in
theorem resident_pace : Resident Exn.Any (AtPace name base) where
  panic := trivial
  fresh := fun h => h
  load := fun h _ => h
  save := fun _ h => h.congr rfl

end

/-! ## All honest nodes keep pace -/

namespace System
variable {sys : System} {trace : Trace} {key : PublicKey}

/-- An own value comes back after it has been broadcast. -/
theorem own_cast {base l : List Event} (grown : base <+: l) {v : ABAVal} (own : v.preimage ∈ released base) :
    Cast (rounds l) v.epoch v.round v.phase v.val := by
  obtain ⟨w, sent, same⟩ := aba_of_released own
  obtain ⟨epoch, round, val, phase⟩ := abaPreimage_inj.mp same
  have cast : Cast (rounds base) v.epoch v.round v.phase v.val := ⟨w, sent_rounds.mpr sent, epoch, round, phase, val⟩
  exact cast.mono (grown.filter _)

variable [Crypto] [Bincode]

theorem atPace_among {input : Input} (allowed : sys.Allowed trace input) (honest : sys.Honest key) :
    input.Among Exn.Any (AtPace key (sys.nodeAt trace key).log) (fun _ => True) (fun _ => True) fun _ => True := by
  cases input with
  | makePayload => trivial
  | storePayload => exact fun s paced => paced.congr rfl
  | deliver channel message env =>
      cases message with
      | abaVal v =>
          refine Core.calm_hearVal fun s paced verified own => ?_
          have claimed := allowed ⟨v.author, v.preimage, v.signature⟩ (List.mem_singleton_self _)
          rw [own] at claimed
          have signed : Crypto.verify v.signature v.digest v.author = true := ensure_ok.mp verified
          rw [own] at signed
          exact own_cast paced.2 (claimed honest signed)
      | abaProof proof => exact Core.calm_hearProof proof
      | abaCoinShare share => exact Core.calm_hearShare share
      | propose | vote | syncReply | timeout => exact fun _ _ _ => trivial
      | loopBack | syncRequest | tc => trivial

theorem atPace_step {input : Input} (allowed : sys.Allowed trace input) (honest : sys.Honest key)
    (before : (sys.nodeAt trace key).Keeps (AtPace key [])) :
    ((sys.nodeAt trace key).step input).Keeps (AtPace key []) := by
  have holds : (sys.nodeAt trace key).Keeps (AtPace key (sys.nodeAt trace key).log) :=
    fun env => ⟨(before env).1, List.prefix_refl _⟩
  have kept := lasting_pace.step resident_pace Core.calm_phases Core.calm_stages (atPace_among allowed honest) holds
  exact fun env => ⟨(kept env).1, List.nil_prefix⟩

theorem atPace (valid : sys.Valid trace) (honest : sys.Honest key) : (sys.nodeAt trace key).Keeps (AtPace key []) := by
  induction trace with
  | nil =>
      have first : Node.Keeps (AtPace key []) ⟨sys.first key, [], true⟩ := fun _ => ⟨Paced.new _ _ _ _, List.prefix_refl _⟩
      exact resident_pace.exec (lasting_pace.start resident_pace) first _
  | cons step trace ih =>
      obtain ⟨name, input⟩ := step
      obtain ⟨earlier, allowed⟩ := valid
      unfold nodeAt
      split
      · exact atPace_step allowed honest (ih earlier)
      · exact ih earlier

/-- An honest node broadcasts once in a round of the agreement, whatever it receives. -/
theorem once_per_round (sys : System) (trace : Trace) (valid : sys.Valid trace) (key : PublicKey) (honest : sys.Honest key)
    (epoch round : SeqNumber) : OncePerRound (sys.nodeAt trace key).log epoch round :=
  (atPace valid honest (sys.env key)).1.oncePerRound epoch round

end System

namespace Sample

theorem unanimous_once : (system.nodeAt unanimous (key 1)).log.countP (Event.castsAux 0 1) = 1 ∧
    OncePerRound (system.nodeAt unanimous (key 1)).log 0 1 :=
  ⟨by decide +kernel, System.once_per_round system unanimous (by decide +kernel) (key 1) (by decide) 0 1⟩

end Sample
end HotstuffDag
