import HotstuffDag.Core.Vote

/-! # View change

Timeouts, and the agreement on the height at which the epoch ends: rounds of VAL messages, AUX
messages and a common coin. -/

namespace HotstuffDag.Core
open Library
variable [Crypto] [Bincode]

/-! ## Timeouts -/

/-- `chain.aggregator.add_timeout(timeout)?` -/
def addTimeout (timeout : Timeout) : M (Option TC) := do
  let s ← get
  let (result, aggregator) := s.chain.aggregator.addTimeout timeout s.core.committee
  modifyChain fun c => { c with aggregator := aggregator }
  liftResult result

def saveTc (tc : TC) : M Unit := do
  modifyCore fun c => { c with tcCache := c.tcCache.insert tc.epoch tc }
  emit (.savedTc tc)

def handleTimeout (timeout : Timeout) : M Unit := do
  let core ← getCore
  if timeout.epoch < core.epoch then return ()
  else
    liftResult (timeout.verify core.committee)
    processQc timeout.highQc
    match ← addTimeout timeout with
    | none => return ()
    | some tc => saveTc tc

def localTimeoutRound : M Unit := do
  increaseLastVotedRound (← getChain).height
  let core ← getCore
  let timeout := Timeout.new (← getChain).highQc core.epoch core.name
  sign (.timeout timeout)
  Synchronizer.transmit (.timeout timeout) none TCVBA
  handleTimeout timeout

def handleTc (tc : TC) : M Unit := do
  let core ← getCore
  if tc.epoch < core.epoch then return ()
  else
    liftResult (tc.verify core.committee)
    saveTc tc

def enterViewChange : M Unit := modifyCore fun c => { c with isViewChange := true }

def adoptTc : M Unit := do
  if (← getCore).tcCache.contains (← getCore).epoch then enterViewChange

def checkTimeout : M Unit := do
  adoptTc
  if (← getCore).isViewChange then return ()
  else
    let limit ← checkedAdd .height (← getChain).height LAMBDA_VAL
    if (← getCore).pubkeyToChain.values.any fun other => limit < other.height then
      enterViewChange
      localTimeoutRound

/-! ## Messages of the agreement -/

def isExpiredAbaMessage (core : Core) (epoch round : SeqNumber) : Bool :=
  if core.abaOutputVal.isSome then true
  else epoch < core.epoch ∨ (epoch = core.epoch ∧ round < core.abaRound)

/-- `self.aggregator.add_aba_val(aba_val)?` -/
def addAbaVal (abaVal : ABAVal) : M (Option ABAProof) := do
  let core ← getCore
  let (result, aggregator) := core.aggregator.addAbaVal abaVal core.committee
  modifyCore fun c => { c with aggregator := aggregator }
  liftResult result

def handleValPhase (abaVal : ABAVal) : M Unit := do
  liftResult abaVal.verify
  match ← addAbaVal abaVal with
  | none => return ()
  | some proof =>
      emit (.assembledAba proof)
      let key := (proof.epoch, proof.round)
      if proof.tag then
        modifyCore fun c => { c with abaValPhaseCache1 := c.abaValPhaseCache1.insert key proof }
      else
        modifyCore fun c => { c with abaValPhaseCache2 := c.abaValPhaseCache2.insert key proof }

def handleAuxPhase (abaVal : ABAVal) : M Unit := do
  liftResult abaVal.verify
  let key := (abaVal.epoch, abaVal.round)
  modifyCore fun c => { c with
    auxValueNums := c.auxValueNums.insert key (c.auxValueNums.getD key 0 + 1) }
  match ← addAbaVal abaVal with
  | none => return ()
  | some proof =>
      emit (.assembledAba proof)
      modifyCore fun c => { c with
        abaAuxPhaseCache := c.abaAuxPhaseCache.insert (proof.epoch, proof.round) proof }

def handleAbaVal (abaVal : ABAVal) : M Unit := do
  if (← getCore).isExpiredAbaMessage abaVal.epoch abaVal.round then return ()
  else if abaVal.phase = VAL_PHASE then handleValPhase abaVal
  else if abaVal.phase = AUX_PHASE then handleAuxPhase abaVal
  else error (.invalidPhase abaVal.phase)

/-- `self.aggregator.add_aba_random(share, &self.pk_set)?` -/
def addAbaRandom (share : RandomnessShare) : M (Option Nat) := do
  let core ← getCore
  let (result, aggregator) := core.aggregator.addAbaRandom share core.committee
  modifyCore fun c => { c with aggregator := aggregator }
  liftResult result

def handleCoinShare (share : RandomnessShare) : M Unit := do
  let core ← getCore
  if core.isExpiredAbaMessage share.epoch share.round then return ()
  else
    liftResult (share.verify core.committee)
    match ← addAbaRandom share with
    | none => return ()
    | some coin =>
        modifyCore fun c => { c with
          abaCoinCache := c.abaCoinCache.insert (share.epoch, share.round) coin }
        emit (.coin share.epoch share.round coin)

def handleAbaProof (proof : ABAProof) : M Unit := do
  let core ← getCore
  if core.isExpiredAbaMessage proof.epoch proof.round then return ()
  else
    liftResult (proof.verify core.committee)
    modifyCore fun c => { c with
      abaProofCache := c.abaProofCache.insert (proof.epoch, proof.round) proof }

/-! ## Rounds of the agreement -/

/-- Broadcast an own value and handle it as if it had been received. -/
def broadcastAbaVal (abaVal : ABAVal) : M Unit := do
  Synchronizer.transmit (.abaVal abaVal) none TCVBA
  handleAbaVal abaVal

def signAbaVal (epoch round : SeqNumber) (val : UInt64) (phase : UInt8) : M ABAVal := do
  let abaVal := ABAVal.new (← getCore).name epoch round val phase
  sign (.abaVal abaVal)
  return abaVal

def setInput (round : SeqNumber) (val : UInt64) : M Unit := do
  modifyCore fun c => { c with abaInputVal := c.abaInputVal.insert round val }
  emit (.abaInput (← getCore).epoch round val)

def processTc (tc : TC) : M Unit := do
  Synchronizer.transmit (.tc tc) none TCVBA
  let inputVal ← unwrap tc.highQcRounds.max?
  setInput 1 inputVal
  broadcastAbaVal (← signAbaVal (← getCore).epoch 1 inputVal VAL_PHASE)

def processValPhase1 (proof : ABAProof) : M Unit := do
  let input ← unwrap ((← getCore).abaInputVal.get? proof.round)
  if input = proof.val then return ()
  else
    let abaVal ← signAbaVal proof.epoch proof.round proof.val proof.phase
    if (← getCore).valValueBroadcasted then return ()
    else
      modifyCore fun c => { c with valValueBroadcasted := true }
      broadcastAbaVal abaVal

def insertBinValue (val : UInt64) : M Unit := do
  modifyCore fun c => { c with binValues := c.binValues.insert val }
  let core ← getCore
  emit (.binValue core.epoch core.abaRound val)

def processValPhase2 (proof : ABAProof) : M Unit := do
  if (← getCore).binValues ≠ [] then
    let abaVal ← signAbaVal proof.epoch proof.round proof.val AUX_PHASE
    if !(← getCore).auxValueBroadcasted then
      modifyCore fun c => { c with auxValueBroadcasted := true }
      broadcastAbaVal abaVal
  insertBinValue proof.val

def processAuxPhase (epoch round : SeqNumber) : M Unit := do
  let share := RandomnessShare.new epoch round (← getCore).name
  if (← getCore).coinShareBroadcasted then return ()
  else
    modifyCore fun c => { c with coinShareBroadcasted := true }
    Synchronizer.transmit (.abaCoinShare share) none TCVBA
    handleCoinShare share

/-- The entries of a cache that `advance_aba_round` keeps. -/
def retainRound {α : Type} (m : Map (SeqNumber × SeqNumber) α) (epoch round : SeqNumber) :
    Map (SeqNumber × SeqNumber) α :=
  m.retain fun k => k.1 = epoch ∧ k.2 ≥ round

def advanceAbaRound (inputVal : UInt64) : M Unit := do
  let round ← checkedAdd .round (← getCore).abaRound 1
  modifyCore fun c => { c with abaRound := round, phase := VAL_PHASE }
  setInput round inputVal
  let abaVal ← signAbaVal (← getCore).epoch round inputVal VAL_PHASE
  modifyCore fun c => { c with
    valValueBroadcasted := false
    auxValueBroadcasted := false
    coinShareBroadcasted := false
    auxProofBroadcasted := false
    binValues := []
    abaValPhaseCache1 := retainRound c.abaValPhaseCache1 c.epoch round
    abaValPhaseCache2 := retainRound c.abaValPhaseCache2 c.epoch round
    abaAuxPhaseCache := retainRound c.abaAuxPhaseCache c.epoch round
    auxValueNums := retainRound c.auxValueNums c.epoch round
    abaProofCache := retainRound c.abaProofCache c.epoch round }
  broadcastAbaVal abaVal

def setOutput (val : UInt64) : M Unit := do
  modifyCore fun c => { c with abaOutputVal := some val }
  let core ← getCore
  emit (.abaOutput core.epoch core.abaRound val)

def broadcastAuxProof (proof : ABAProof) : M Unit := do
  if (← getCore).auxProofBroadcasted then return ()
  else
    modifyCore fun c => { c with auxProofBroadcasted := true }
    Synchronizer.transmit (.abaProof proof) none TCVBA

def processCoinShare (epoch round : SeqNumber) (coin : Nat) : M Unit := do
  let core ← getCore
  emit (.coinCall core coin)
  let bit := UInt64.ofNat coin
  let proof := core.abaAuxPhaseCache.get? (epoch, round)
  match core.binValues with
  | [v] =>
      if v % 2 = bit then
        setOutput v
        broadcastAuxProof (← unwrap proof)
      else advanceAbaRound v
  | _ =>
      match proof with
      | some proof =>
          if proof.val % 2 = bit then
            setOutput proof.val
            broadcastAuxProof proof
          else advanceAbaRound bit
      | none => advanceAbaRound bit

def processAbaProof (proof : ABAProof) : M Unit := do
  let core ← getCore
  emit (.proofCall core proof)
  match core.abaCoinCache.get? (proof.epoch, proof.round) with
  | none => return ()
  | some coin => if proof.val % 2 = UInt64.ofNat coin then setOutput proof.val

/-- Run a handler on the entry of a cache for the current epoch and round. -/
def withCached {α : Type} (cache : Core → Map (SeqNumber × SeqNumber) α) (handler : α → M Unit) :
    M Unit := do
  let core ← getCore
  match (cache core).get? (core.epoch, core.abaRound) with
  | none => return ()
  | some a => handler a

/-! `process_aba_phase` is five conditional statements in a row. -/

def processCachedTc : M Unit := do
  if !(← getCore).tcProcessed then
    match (← getCore).tcCache.get? (← getCore).epoch with
    | none => return ()
    | some tc =>
        processTc tc
        modifyCore fun c => { c with tcProcessed := true }

def processValPhase : M Unit := do
  if (← getCore).phase ≥ VAL_PHASE then
    withCached Core.abaValPhaseCache1 processValPhase1
    withCached Core.abaValPhaseCache2 processValPhase2

def processCachedAux : M Unit := do
  if (← getCore).phase ≥ AUX_PHASE then
    withCached Core.abaAuxPhaseCache fun proof => processAuxPhase proof.epoch proof.round

def processCoinPhase : M Unit := do
  if (← getCore).phase ≥ COIN_PHASE then
    withCached Core.abaCoinCache fun coin => do
      let core ← getCore
      processCoinShare core.epoch core.abaRound coin

def processCachedProof : M Unit := do
  if (← getCore).isViewChange then withCached Core.abaProofCache processAbaProof

def processAbaPhase : M Unit := do
  processCachedTc
  processValPhase
  processCachedAux
  processCoinPhase
  processCachedProof

/-! ## Phases and epochs -/

def setPhase (phase : UInt8) : M Unit := modifyCore fun c => { c with phase := phase }

/-- `aux_value_nums.entry((epoch, round)).or_insert(0)` -/
def auxValueNum : M Nat := do
  modifyCore fun c => { c with auxValueNums := c.auxValueNums.orInsert (c.epoch, c.abaRound) 0 }
  let core ← getCore
  return core.auxValueNums.getD (core.epoch, core.abaRound) 0

def enterValPhase : M Unit := do
  let core ← getCore
  if core.phase = INIT_PHASE ∧ core.tcProcessed then setPhase VAL_PHASE

def enterAuxPhase : M Unit := do
  let core ← getCore
  if core.phase = VAL_PHASE ∧ core.binValues ≠ [] then setPhase AUX_PHASE

def enterCoinPhase : M Unit := do
  let core ← getCore
  if core.phase = AUX_PHASE ∧ core.abaCoinCache.contains (core.epoch, core.abaRound) then
    let num ← auxValueNum
    if num ≥ core.committee.quorumThreshold ∧ (core.binValues.length = 2 ∨
        core.abaAuxPhaseCache.contains (core.epoch, core.abaRound)) then
      emit (.coinPhase (← getCore))
      setPhase COIN_PHASE

def updatePhase : M Unit := do
  enterValPhase
  enterAuxPhase
  enterCoinPhase

/-- The leader chain starts the next epoch ten heights above the output. -/
def resetChain (output height : SeqNumber) (epoch : SeqNumber) : M Unit :=
  modifyChain fun c => { c with
    heightToDigest := c.heightToDigest.retain fun k => k > output
    highQc := QC.genesis
    epoch := epoch
    height := height
    lastCommittedHeight := height - 1 }

/-- Everything of the agreement but its messages for later epochs is dropped. -/
def resetAba : M Unit :=
  modifyCore fun c => { c with
    isViewChange := false
    tcProcessed := false
    valValueBroadcasted := false
    auxValueBroadcasted := false
    coinShareBroadcasted := false
    auxProofBroadcasted := false
    aggregator := c.aggregator.cleanupAba c.epoch
    binValues := []
    abaRound := 1
    phase := INIT_PHASE
    abaOutputVal := none
    abaInputVal := Map.empty
    tcCache := c.tcCache.retain fun k => k ≥ c.epoch
    abaValPhaseCache1 := c.abaValPhaseCache1.retain fun k => k.1 ≥ c.epoch
    abaValPhaseCache2 := c.abaValPhaseCache2.retain fun k => k.1 ≥ c.epoch
    abaAuxPhaseCache := c.abaAuxPhaseCache.retain fun k => k.1 ≥ c.epoch
    abaCoinCache := c.abaCoinCache.retain fun k => k.1 ≥ c.epoch
    auxValueNums := c.auxValueNums.retain fun k => k.1 ≥ c.epoch
    abaProofCache := c.abaProofCache.retain fun k => k.1 ≥ c.epoch }

/-- The part of `update_aba_phase` that runs once there is an output. -/
def outputPhase (fuel : Nat) (output : UInt64) : M Unit := do
  match (← getChain).heightToDigest.get? output with
  | none => return ()
  | some digest =>
      match ← Synchronizer.getBlock (← getCore).name digest none with
      | none => return ()
      | some block =>
          commit fuel block
          -- The sums come first: if one of them overflows, the task ends either way.
          let epoch ← checkedAdd .epoch (← getCore).epoch 1
          let chainEpoch ← checkedAdd .epoch (← getChain).epoch 1
          let height ← checkedAdd .height output NEXT_EPOCH_HEIGHT
          emit (.epochEnd (← getCore) (← getChain) output)
          modifyCore fun c => { c with epoch := epoch }
          resetChain output height chainEpoch
          resetAba
          if (← getChain).name = (← getCore).name then
            broadcastPropose fuel (← generateProposal true)

def updateAbaPhase (fuel : Nat) : M Unit := do
  if !(← getCore).isViewChange then return ()
  else
    updatePhase
    match (← getCore).abaOutputVal with
    | some output => outputPhase fuel output
    | none => processAbaPhase

end HotstuffDag.Core
