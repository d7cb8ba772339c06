import HotstuffDag.Proof.Rules

/-! # The handlers of the agreement -/

namespace HotstuffDag
open Library Library.Exec
variable [Crypto] {got : ConsensusMessage → Prop}

namespace Core

theorem leads_quiet {β : Type} {s : State} {Q : β → State → Prop} {e : Event} {f : PUnit → M β} (quiet : e.quiet)
    (h : Leads (AbaEvolves got) (f ⟨⟩) { s with log := s.log ++ [e] } Q) :
    Leads (AbaEvolves got) (emit e >>= f) s Q :=
  leads_emit (AbaAct.quiet quiet).abaEvolves h

/-- The state in which a value has been counted. -/
abbrev counted (s : State) (v : ABAVal) (k : Core) : State := { s with core := k, log := s.log ++ s.core.abaEvents v }

/-- What `handle_aba_val` makes of a state. -/
def Heard (s : State) (v : ABAVal) (s' : State) : Prop :=
  s' = s ∨ v.phase = VAL_PHASE ∧ s' = counted s v (s.core.hearVal v) ∨
    v.phase = AUX_PHASE ∧ s' = counted s v (s.core.hearAux v)

omit [Crypto] in
theorem Heard.inputs {s s' : State} {v : ABAVal} (h : Heard s v s') : s'.core.abaInputVal = s.core.abaInputVal := by
  rcases h with rfl | ⟨-, rfl⟩ | ⟨-, rfl⟩ <;> rfl

section
variable {R : State → State → Prop} [Std.Refl R] [IsTrans State R] {s : State} {v : ABAVal}

section
omit [IsTrans State R]

theorem leads_handleValPhase (act : v.verify = .ok () → R s (counted s v (s.core.hearVal v))) :
    Leads R (handleValPhase v) s (fun _ s' => s' = counted s v (s.core.hearVal v)) := by
  refine leads_liftResult fun _ verified => ?_
  have act := act verified
  unfold counted hearVal abaEvents at act ⊢
  unfold Leads
  cases added : s.core.aggregator.addAbaVal v s.core.committee with
  | mk result aggregator =>
      rw [added] at act
      simp only [addAbaVal, bind_eq, getCore_run, modifyCore_run, added]
      cases result with
      | error e => simpa [keptProof] using act
      | ok option =>
          cases option with
          | none => simpa [keptProof] using act
          | some proof => cases tag : proof.tag <;> simpa [keptProof, tag, bind_eq] using act

theorem leads_handleAuxPhase (act : v.verify = .ok () → R s (counted s v (s.core.hearAux v))) :
    Leads R (handleAuxPhase v) s (fun _ s' => s' = counted s v (s.core.hearAux v)) := by
  refine leads_liftResult fun _ verified => ?_
  have act := act verified
  unfold counted hearAux abaEvents at act ⊢
  unfold Leads
  cases added : s.core.aggregator.addAbaVal v s.core.committee with
  | mk result aggregator =>
      rw [added] at act
      simp only [addAbaVal, bind_eq, getCore_run, modifyCore_run, added]
      cases result with
      | error e => simpa [keptProof] using act
      | ok option =>
          cases option with
          | none => simpa [keptProof] using act
          | some proof => simpa [keptProof, bind_eq] using act

/-- A value is heard or it changes nothing. -/
theorem leads_hear
    (val : s.core.isExpiredAbaMessage v.epoch v.round = false → v.phase = VAL_PHASE → v.verify = .ok () →
      R s (counted s v (s.core.hearVal v)))
    (aux : s.core.isExpiredAbaMessage v.epoch v.round = false → v.phase = AUX_PHASE → v.verify = .ok () →
      R s (counted s v (s.core.hearAux v))) :
    Leads R (handleAbaVal v) s (fun _ s' => Heard s v s') := by
  refine leads_getCore ?_
  cases expired : s.core.isExpiredAbaMessage v.epoch v.round with
  | true => exact Leads.pure (.inl rfl)
  | false =>
      refine Leads.ite (fun old => absurd old (by simp)) fun _ => ?_
      refine Leads.ite (fun phase => ?_) fun _ => Leads.ite (fun phase => ?_) fun _ => leads_error
      · refine (leads_handleValPhase (val expired phase)).weaken fun _ s' _ result => ?_
        exact .inr (.inl ⟨phase, result⟩)
      · refine (leads_handleAuxPhase (aux expired phase)).weaken fun _ s' _ result => ?_
        exact .inr (.inr ⟨phase, result⟩)

/-- A share is heard or it changes nothing. -/
theorem leads_deal {share : RandomnessShare}
    (act : s.core.isExpiredAbaMessage share.epoch share.round = false → share.verify s.core.committee = .ok () →
      R s { s with core := s.core.hearShare share, log := s.log ++ s.core.coinEvents share }) :
    Leads R (handleCoinShare share) s (fun _ _ => True) := by
  refine leads_getCore ?_
  cases expired : s.core.isExpiredAbaMessage share.epoch share.round with
  | true => exact Leads.pure trivial
  | false =>
      refine Leads.ite (fun old => absurd old (by simp)) fun _ => ?_
      refine leads_liftResult fun _ verified => ?_
      have act := act expired verified
      unfold hearShare coinEvents at act
      unfold Leads
      cases added : s.core.aggregator.addAbaRandom share s.core.committee with
      | mk result aggregator =>
          rw [added] at act
          simp only [addAbaRandom, bind_eq, getCore_run, modifyCore_run, added]
          cases result with
          | error e => simpa [keptCoin] using act
          | ok option =>
              cases option with
              | none => simpa [keptCoin] using act
              | some coin => exact ⟨act, trivial⟩

end
end

theorem leads_handleAbaVal {s : State} {v : ABAVal} (msg : got (.abaVal v) ∨ Sent (.abaVal v) s.log) :
    Leads (AbaEvolves got) (handleAbaVal v) s
      (fun _ s' => Heard s v s') :=
  leads_hear (fun current phase verified => (AbaAct.hearVal msg current phase verified).abaEvolves)
    fun current phase verified => (AbaAct.hearAux msg current phase verified).abaEvolves

theorem leads_handleCoinShare {s : State} {share : RandomnessShare}
    (msg : got (.abaCoinShare share) ∨ Sent (.abaCoinShare share) s.log) :
    Leads (AbaEvolves got) (handleCoinShare share) s (fun _ _ => True) :=
  leads_deal fun current verified => (AbaAct.hearShare msg current verified).abaEvolves

theorem leads_handleAbaProof {s : State} {proof : ABAProof} (msg : got (.abaProof proof)) :
    Leads (AbaEvolves got) (handleAbaProof proof) s (fun _ _ => True) := by
  refine leads_getCore ?_
  cases expired : s.core.isExpiredAbaMessage proof.epoch proof.round with
  | true => exact Leads.pure trivial
  | false =>
      refine Leads.ite (fun old => absurd old (by simp)) fun _ => ?_
      refine leads_liftResult fun _ verified => ?_
      exact ⟨(AbaAct.hearProof msg expired verified).abaEvolves, trivial⟩

theorem leads_handleTc {s : State} {tc : TC} (msg : got (.tc tc)) :
    Leads (AbaEvolves got) (handleTc tc) s (fun _ _ => True) := by
  refine leads_getCore ?_
  refine Leads.ite (fun _ => Leads.pure trivial) fun current => ?_
  refine leads_liftResult fun _ verified => ?_
  exact ⟨(AbaAct.keepTc msg current verified).abaEvolves, trivial⟩

theorem leads_signAbaVal {β : Type} {s : State} {Q : β → State → Prop} {epoch round : SeqNumber}
    {val : UInt64} {phase : UInt8} {f : ABAVal → M β}
    (h : Leads (AbaEvolves got) (f (.new s.core.name epoch round val phase))
      { s with log := s.log ++ [.signed (.abaVal (.new s.core.name epoch round val phase))] } Q) :
    Leads (AbaEvolves got) (signAbaVal epoch round val phase >>= f) s Q := by
  have act : AbaAct got s.core s.log s.core
      (s.log ++ [.signed (.abaVal (.new s.core.name epoch round val phase))]) := .quiet trivial
  have result := h.after act.abaEvolves
  exact result

omit [Crypto] in
theorem sent_append {m : ConsensusMessage} {l : List Event} {tag : UInt8} {addresses : List SocketAddr} :
    Sent m (l ++ [.transmit tag m addresses]) := ⟨tag, addresses, by simp⟩

/-- A broadcast value is heard after the act that sends it. -/
theorem leads_broadcastAbaVal {s : State} {v : ABAVal}
    (act : ∀ addresses, AbaEvolves got s { s with log := s.log ++ [.transmit TCVBA (.abaVal v) addresses] }) :
    Leads (AbaEvolves got) (broadcastAbaVal v) s
      (fun _ s' => ∃ addresses, Heard { s with log := s.log ++ [.transmit TCVBA (.abaVal v) addresses] } v s') := by
  refine leads_transmit act fun addresses => ?_
  exact (leads_handleAbaVal (.inr sent_append)).weaken fun _ s' _ heard => ⟨addresses, heard⟩

/-- The broadcast that raises a flag first. -/
theorem leads_raise_broadcastAbaVal {β : Type} {s : State} {Q : β → State → Prop} {v : ABAVal}
    {g : Core → Core} {f : PUnit → M β}
    (act : ∀ addresses, AbaEvolves got s
      { s with core := g s.core, log := s.log ++ [.transmit TCVBA (.abaVal v) addresses] })
    (h : ∀ addresses t, Heard { s with core := g s.core, log := s.log ++ [.transmit TCVBA (.abaVal v) addresses] } v t →
      Leads (AbaEvolves got) (f ⟨⟩) t Q) :
    Leads (AbaEvolves got) (modifyCore g >>= fun _ => broadcastAbaVal v >>= f) s Q := by
  unfold broadcastAbaVal
  simp only [bind_assoc]
  refine leads_modifyCore_broadcast act fun addresses => ?_
  exact Leads.bind (leads_handleAbaVal (.inr sent_append)) fun _ t _ heard => h addresses t heard

theorem leads_processTc {s : State} {tc : TC} (fresh : s.core.tcProcessed = false)
    (cached : s.core.tcCache.get? s.core.epoch = some tc) :
    Leads (AbaEvolves got) (processTc tc) s (fun _ s' => (s'.core.abaInputVal.get? 1).isSome) := by
  refine leads_transmit (fun _ => (AbaAct.quiet (by trivial)).abaEvolves) fun addresses => ?_
  refine leads_unwrap fun val highest => ?_
  refine Leads.bind (Q := fun _ s' => s'.core = s.core.takeInput 1 val ∧
    Event.abaInput s.core.epoch 1 val ∈ s'.log) ?_ fun _ t _ ⟨taken, logged⟩ => ?_
  · exact ⟨AbaAct.abaEvolves (.takeInput fresh cached highest), rfl, by simp⟩
  · refine leads_getCore ?_
    refine leads_signAbaVal ?_
    refine (leads_broadcastAbaVal fun addresses => (AbaAct.castInput ?_ ?_ (.inl rfl)).abaEvolves).weaken
      fun _ s' _ ⟨_, heard⟩ => ?_
    · simpa [taken, takeInput] using logged
    · simp [taken, takeInput]
    · rw [heard.inputs]
      simp [taken, takeInput]

theorem leads_processValPhase1 {s : State} {proof : ABAProof}
    (cached : s.core.abaValPhaseCache1.get? (s.core.epoch, s.core.abaRound) = some proof) :
    Leads (AbaEvolves got) (processValPhase1 proof) s (fun _ _ => True) := by
  refine leads_getCore ?_
  refine leads_unwrap fun input held => ?_
  refine Leads.ite (fun _ => Leads.pure trivial) fun other => ?_
  refine leads_signAbaVal (leads_getCore ?_)
  refine Leads.ite (fun _ => Leads.pure trivial) fun fresh => ?_
  refine leads_last ?_
  rw [bind_assoc]
  refine leads_raise_broadcastAbaVal (fun addresses => AbaAct.abaEvolves ?_) fun _ t _ => Leads.pure trivial
  refine .amplify (by simpa using fresh) cached fun same => ?_
  rw [held] at same
  exact other (Option.some.inj same)

omit [Crypto] in
theorem Heard.caches {s s' : State} {v : ABAVal} (h : Heard s v s') (phase : v.phase = AUX_PHASE) :
    s'.core.abaValPhaseCache2 = s.core.abaValPhaseCache2 ∧ s'.core.epoch = s.core.epoch ∧
      s'.core.abaRound = s.core.abaRound := by
  rcases h with rfl | ⟨other, -⟩ | ⟨-, rfl⟩
  · exact ⟨rfl, rfl, rfl⟩
  · rw [phase] at other
    contradiction
  · exact ⟨rfl, rfl, rfl⟩

/-- The certificate of the round has been accepted. -/
def Taken (k : Core) : Prop := ∀ proof, k.abaValPhaseCache2.get? (k.epoch, k.abaRound) = some proof → proof.val ∈ k.binValues

theorem leads_insertBinValue {s : State} {proof : ABAProof}
    (cached : s.core.abaValPhaseCache2.get? (s.core.epoch, s.core.abaRound) = some proof) :
    Leads (AbaEvolves got) (insertBinValue proof.val) s (fun _ t => t.core.Taken) := by
  refine ⟨AbaAct.abaEvolves (.accept cached), fun other cached' => ?_⟩
  change s.core.abaValPhaseCache2.get? (s.core.epoch, s.core.abaRound) = some other at cached'
  rw [cached] at cached'
  obtain rfl := Option.some.inj cached'
  exact List.mem_insert_self

theorem leads_processValPhase2 {s : State} {proof : ABAProof}
    (cached : s.core.abaValPhaseCache2.get? (s.core.epoch, s.core.abaRound) = some proof) :
    Leads (AbaEvolves got) (processValPhase2 proof) s (fun _ t => t.core.Taken) := by
  refine leads_getCore ?_
  refine Leads.ite (fun bin => ?_) fun _ => leads_insertBinValue cached
  refine leads_signAbaVal (leads_getCore ?_)
  refine Leads.ite (fun fresh => ?_) fun _ => leads_insertBinValue cached
  refine leads_raise_broadcastAbaVal (fun addresses => AbaAct.abaEvolves ?_) fun _ t heard => ?_
  · exact .castAux (by simpa using fresh) bin cached
  · obtain ⟨cache, epoch, round⟩ := heard.caches rfl
    refine leads_insertBinValue ?_
    rw [cache, epoch, round]
    exact cached

theorem leads_processAuxPhase {s : State} {epoch round : SeqNumber} :
    Leads (AbaEvolves got) (processAuxPhase epoch round) s (fun _ _ => True) := by
  refine leads_getCore (leads_getCore ?_)
  refine Leads.ite (fun _ => Leads.pure trivial) fun _ => ?_
  refine leads_modifyCore (AbaAct.abaEvolves .shareCast) ?_
  refine leads_transmit (fun _ => (AbaAct.quiet (by trivial)).abaEvolves) fun addresses => ?_
  exact leads_handleCoinShare (.inr sent_append)

theorem leads_advanceAbaRound {s : State} {coin : Nat} {val : UInt64} (called : Event.coinCall s.core coin ∈ s.log)
    (phase : s.core.phase ≥ COIN_PHASE)
    (cached : s.core.abaCoinCache.get? (s.core.epoch, s.core.abaRound) = some coin)
    (why : CoinInput s.core coin val) :
    Leads (AbaEvolves got) (advanceAbaRound val) s (fun _ _ => True) := by
  refine leads_getCore ?_
  refine leads_checkedAdd fun small => ?_
  have act := AbaAct.abaEvolves (.nextRound called phase cached why small : AbaAct got _ _ _ _)
  have cast : Leads (AbaEvolves got)
      (broadcastAbaVal (.new s.core.name s.core.epoch (s.core.abaRound + 1) val VAL_PHASE))
      { s with
        core := s.core.nextRound val
        log := s.log ++ [.abaInput s.core.epoch (s.core.abaRound + 1) val] ++
          [.signed (.abaVal (.new s.core.name s.core.epoch (s.core.abaRound + 1) val VAL_PHASE))] }
      (fun _ _ => True) := by
    refine (leads_broadcastAbaVal fun addresses => AbaAct.abaEvolves ?_).weaken fun _ _ _ _ => trivial
    exact .castInput (by simp [nextRound]) (by simp [nextRound]) (.inr rfl)
  have result := cast.after act
  exact result

theorem leads_broadcastAuxProof {s : State} {k : Core} {coin : Nat} {val : UInt64} {proof : ABAProof}
    (called : Event.coinCall k coin ∈ s.log) (output : Event.abaOutput k.epoch k.abaRound val ∈ s.log)
    (why : CoinOutput k coin val) (cached : k.abaAuxPhaseCache.get? (k.epoch, k.abaRound) = some proof) :
    Leads (AbaEvolves got) (broadcastAuxProof proof) s (fun _ _ => True) := by
  refine leads_getCore ?_
  refine Leads.ite (fun _ => Leads.pure trivial) fun _ => leads_last ?_
  rw [bind_assoc]
  refine leads_modifyCore_broadcast (fun addresses => AbaAct.abaEvolves ?_) fun addresses => Leads.pure trivial
  exact .castProof called output why cached

theorem leads_setOutput {β : Type} {s : State} {Q : β → State → Prop} {val : UInt64} {f : PUnit → M β}
    (act : AbaAct got s.core s.log { s.core with abaOutputVal := some val }
      (s.log ++ [.abaOutput s.core.epoch s.core.abaRound val]))
    (h : Leads (AbaEvolves got) (f ⟨⟩) { s with
      core := { s.core with abaOutputVal := some val }
      log := s.log ++ [.abaOutput s.core.epoch s.core.abaRound val] } Q) :
    Leads (AbaEvolves got) (setOutput val >>= f) s Q := by
  have result := Leads.after act.abaEvolves h
  exact result

theorem leads_processCoinShare {s : State} {coin : Nat} (phase : s.core.phase ≥ COIN_PHASE)
    (cached : s.core.abaCoinCache.get? (s.core.epoch, s.core.abaRound) = some coin) :
    Leads (AbaEvolves got) (processCoinShare s.core.epoch s.core.abaRound coin) s (fun _ _ => True) := by
  refine leads_getCore ?_
  refine leads_emit (AbaAct.callCoin phase cached).abaEvolves ?_
  have called : Event.coinCall s.core coin ∈ s.log ++ [.coinCall s.core coin] := by simp
  have advance (val : UInt64) (why : CoinInput s.core coin val) : Leads (AbaEvolves got) (advanceAbaRound val)
      { s with log := s.log ++ [.coinCall s.core coin] } (fun _ _ => True) :=
    leads_advanceAbaRound called phase cached why
  split
  · rename_i v bin
    refine Leads.ite (fun parity => ?_) fun parity => advance v (.inl ⟨bin, parity⟩)
    have why : CoinOutput s.core coin v := ⟨parity, .inl bin⟩
    refine leads_setOutput (.outputCoin called cached why) (leads_unwrap fun proof found => ?_)
    exact leads_broadcastAuxProof (List.mem_append_left _ called) (by simp) why found
  · rename_i bin
    have several : ∀ v, s.core.binValues ≠ [v] := fun v single => bin v single
    dsimp only
    split
    · rename_i proof found
      refine Leads.ite (fun parity => ?_) fun parity => advance _ (.inr ⟨several, rfl, fun other same => ?_⟩)
      · have why : CoinOutput s.core coin proof.val := ⟨parity, .inr ⟨several, proof, found, rfl⟩⟩
        refine leads_setOutput (.outputCoin called cached why) ?_
        exact leads_broadcastAuxProof (List.mem_append_left _ called) (by simp) why found
      · rw [found] at same
        exact Option.some.inj same ▸ parity
    · rename_i missing
      refine advance _ (.inr ⟨several, rfl, fun other same => ?_⟩)
      rw [missing] at same
      contradiction

theorem leads_processAbaProof {s : State} {proof : ABAProof}
    (cached : s.core.abaProofCache.get? (s.core.epoch, s.core.abaRound) = some proof) :
    Leads (AbaEvolves got) (processAbaProof proof) s (fun _ _ => True) := by
  refine leads_getCore ?_
  refine leads_emit (AbaAct.callProof cached).abaEvolves ?_
  split
  · exact Leads.pure trivial
  · rename_i coin coined
    refine Leads.ite (fun parity => leads_last ?_) fun _ => Leads.pure trivial
    exact leads_setOutput (.outputProof (by simp) cached coined parity) (Leads.pure trivial)

theorem leads_withCached {β : Type} {s : State} {cache : Core → Map (SeqNumber × SeqNumber) β}
    {handler : β → M Unit}
    (run : ∀ a, (cache s.core).get? (s.core.epoch, s.core.abaRound) = some a →
      Leads (AbaEvolves got) (handler a) s (fun _ _ => True)) :
    Leads (AbaEvolves got) (withCached cache handler) s (fun _ _ => True) := by
  refine leads_getCore ?_
  split
  · exact Leads.pure trivial
  · rename_i a found
    exact run a found

theorem leads_processCachedTc {s : State} : Leads (AbaEvolves got) processCachedTc s (fun _ _ => True) := by
  refine leads_getCore ?_
  refine Leads.ite (fun fresh => leads_getCore (leads_getCore ?_)) fun _ => Leads.pure trivial
  split
  · exact Leads.pure trivial
  · rename_i tc cached
    refine Leads.bind (leads_processTc (by simpa using fresh) cached) fun _ t _ taken => ?_
    exact ⟨AbaAct.abaEvolves (.tcProcessed taken), trivial⟩

theorem leads_processValPhase {s : State} :
    Leads (AbaEvolves got) processValPhase s (fun _ t => s.core.phase ≥ VAL_PHASE → t.core.Taken) := by
  refine leads_getCore ?_
  refine Leads.ite (fun _ => ?_) fun early => Leads.pure fun begun => absurd begun early
  refine Leads.bind (leads_withCached fun proof cached => leads_processValPhase1 cached) fun _ t _ _ => ?_
  refine leads_getCore ?_
  split
  · rename_i none
    refine Leads.pure fun _ proof cached => ?_
    rw [none] at cached
    contradiction
  · rename_i proof cached
    exact (leads_processValPhase2 cached).weaken fun _ _ _ taken _ => taken

theorem leads_processCachedAux {s : State} : Leads (AbaEvolves got) processCachedAux s (fun _ _ => True) := by
  refine leads_getCore ?_
  refine Leads.ite (fun _ => ?_) fun _ => Leads.pure trivial
  exact leads_withCached fun proof cached => leads_processAuxPhase

theorem leads_processCoinPhase {s : State} : Leads (AbaEvolves got) processCoinPhase s (fun _ _ => True) := by
  refine leads_getCore ?_
  refine Leads.ite (fun phase => ?_) fun _ => Leads.pure trivial
  exact leads_withCached fun coin cached => leads_getCore (leads_processCoinShare phase cached)

theorem leads_processCachedProof {s : State} :
    Leads (AbaEvolves got) processCachedProof s (fun _ _ => True) := by
  refine leads_getCore ?_
  refine Leads.ite (fun _ => ?_) fun _ => Leads.pure trivial
  exact leads_withCached fun proof cached => leads_processAbaProof cached

theorem leads_processAbaPhase {s : State} : Leads (AbaEvolves got) processAbaPhase s (fun _ _ => True) := by
  refine Leads.bind leads_processCachedTc fun _ s₁ _ _ => ?_
  refine Leads.bind leads_processValPhase fun _ s₂ _ _ => ?_
  refine Leads.bind leads_processCachedAux fun _ s₃ _ _ => ?_
  refine Leads.bind leads_processCoinPhase fun _ s₄ _ _ => ?_
  exact leads_processCachedProof

theorem leads_auxValueNum {β : Type} {s : State} {Q : β → State → Prop} {f : Nat → M β}
    (h : ∀ t : State, t = { s with core := { s.core with
        auxValueNums := s.core.auxValueNums.orInsert (s.core.epoch, s.core.abaRound) 0 } } →
      Leads (AbaEvolves got) (f (t.core.auxValueNums.getD (t.core.epoch, t.core.abaRound) 0)) t Q) :
    Leads (AbaEvolves got) (auxValueNum >>= f) s Q := by
  have result := (h _ rfl).after (AbaAct.abaEvolves .countAux)
  exact result

theorem leads_updatePhase {s : State} :
    Leads (AbaEvolves got) updatePhase s (fun _ s' => s'.core.isViewChange = s.core.isViewChange) := by
  refine Leads.bind (Q := fun _ s' => s'.core.isViewChange = s.core.isViewChange) ?_ fun _ s₁ _ same₁ => ?_
  · refine leads_getCore ?_
    refine Leads.ite (fun ⟨phase, processed⟩ => ?_) fun _ => Leads.pure rfl
    exact ⟨AbaAct.abaEvolves (.enterVal phase processed), rfl⟩
  refine Leads.bind (Q := fun _ s' => s'.core.isViewChange = s.core.isViewChange) ?_ fun _ s₂ _ same₂ => ?_
  · refine leads_getCore ?_
    refine Leads.ite (fun ⟨phase, bin⟩ => ?_) fun _ => Leads.pure same₁
    exact ⟨AbaAct.abaEvolves (.enterAux phase bin), same₁⟩
  refine leads_getCore ?_
  refine Leads.ite (fun ⟨phase, coined⟩ => ?_) fun _ => Leads.pure same₂
  refine leads_auxValueNum fun t counting => ?_
  subst counting
  refine Leads.ite (fun ⟨counted, ready⟩ => ?_) fun _ => Leads.pure same₂
  refine leads_getCore ?_
  exact ⟨AbaAct.abaEvolves (.enterCoin phase coined counted ready), same₂⟩

end Core
end HotstuffDag
