import HotstuffDag.Core.Commit

/-! # Proposals and votes -/

namespace HotstuffDag.Core
open Library
variable [Crypto] [Bincode]

def sign (object : Signed) : M Unit := emit (.signed object)

def storeBlock (block : Block) : M Unit :=
  modifyCore fun c => { c with store := c.store.insert block.digest (.block block) }

def increaseLastVotedRound (target : SeqNumber) : M Unit :=
  modifyChain fun c => { c with
    lastVotedHeight := if c.lastVotedHeight < target then target else c.lastVotedHeight }

def makeVote (block : Block) : M (Option Vote) := do
  let core ← getCore
  let chain ← getChain
  if chain.epoch > block.epoch then return none
  else if core.isViewChange ∧ block.author = core.leader then return none
  else
    let next ← checkedAdd .height block.qc.height 1
    if block.height > chain.lastVotedHeight ∧ (next = block.height ∨ block.qc.eq QC.genesis) then
      emit (.voted chain block)
      increaseLastVotedRound block.height
      let vote := Vote.new block core.name
      sign (.vote vote)
      return some vote
    else return none

def updateHighQc (qc : QC) : M Unit :=
  modifyChain fun c => { c with
    heightToDigest := c.heightToDigest.insert qc.height qc.hash
    highQc := if qc.height > c.highQc.height then qc else c.highQc }

def advanceHeight (height : SeqNumber) : M Unit := do
  let chain ← getChain
  if height < chain.height then return ()
  else
    let next ← checkedAdd .height height 1
    let epoch := (← getCore).epoch
    modifyChain fun c => { c with height := next, aggregator := c.aggregator.cleanup epoch next }

def processQc (qc : QC) : M Unit := do
  advanceHeight qc.height
  updateHighQc qc

/-- `MempoolDriver::get` -/
def getPayload : M (List Digest) := do
  let s ← get
  emit (.mempool (.get s.core.parameters.maxPayloadSize))
  match s.env.payloads with
  | [] => return []
  | payload :: rest =>
      modify fun s => { s with env := { s.env with payloads := rest } }
      return payload

/-- The references of a proposal on the chain: the highest certified block of each other chain. -/
def references (core : Core) (chain : Chain) : List (PublicKey × Digest) :=
  (core.committee.keys.filter fun name => name ≠ chain.name).filterMap fun name =>
    match core.pubkeyToChain.get? name with
    | none => none
    | some other => if other.highQc.eq QC.genesis then none else some (name, other.highQc.hash)

def generateProposal (tag : Bool) : M Block := do
  let core ← getCore
  let chain ← getChain
  let qc := if tag then QC.genesis else chain.highQc
  let payload ← getPayload
  let block := Block.new qc core.name chain.height chain.epoch payload (core.references chain)
  sign (.block block)
  return block

def processBlockPrepare (block : Block) : M (Option (Block × Block)) :=
  Synchronizer.getAncestors block

def processBlockCommit (fuel : Nat) (block b0 b1 : Block) : M Unit := do
  let core ← getCore
  if core.leader = b0.author then
    if (← checkedAdd .height b0.height 1) = b1.height then
      emit (.twoChain core (← getChain) block b0 b1)
      commit fuel b0

/-! `process_block` votes, a vote for an own block goes to `handle_vote`, and a certificate made
there is followed by the next proposal, which is processed again. -/

def processBlockVote (handleVote : Vote → M Unit) (block : Block) : M Unit := do
  if block.height = (← getChain).height ∨ block.qc.eq QC.genesis then
    match ← makeVote block with
    | none => return ()
    | some vote =>
        if vote.proposer = (← getCore).name then handleVote vote
        else Synchronizer.transmit (.vote vote) (some vote.proposer) HOTSTUFF

def processAncestors (fuel : Nat) (block : Block) : M Unit := do
  if block.author = (← getCore).leader then
    match ← processBlockPrepare block with
    | none => return ()
    | some (b0, b1) =>
        if !(← getCore).isViewChange ∧ block.epoch ≤ (← getChain).epoch then
          processBlockCommit fuel block b0 b1
  else
    let _ ← processBlockPrepare block

def processBlockWith (handleVote : Vote → M Unit) (fuel : Nat) (block : Block) : M Unit := do
  emit (.process block)
  storeBlock block
  processAncestors fuel block
  processBlockVote handleVote block

def broadcastProposeWith (handleVote : Vote → M Unit) (fuel : Nat) (block : Block) : M Unit := do
  Synchronizer.transmit (.propose block) none HOTSTUFF
  processBlockWith handleVote fuel block

/-- The events of an aggregator's answer to a vote. -/
def assembledEvents (chain : PublicKey) : ConsensusResult (Option QC) → List Event
  | .ok (some qc) => [.assembled chain qc]
  | _ => []

/-- `chain.aggregator.add_vote(vote)?` -/
def addVote (vote : Vote) : M (Option QC) := do
  let s ← get
  let (result, aggregator) := s.chain.aggregator.addVote vote s.core.committee
  modifyChain fun c => { c with aggregator := aggregator }
  modify fun s => { s with log := s.log ++ assembledEvents s.chain.name result }
  liftResult result

def handleVote : Nat → Vote → M Unit
  | 0, _ => throw .outOfFuel
  | fuel + 1, vote => do
      if vote.height < (← getChain).height then return ()
      else
        liftResult (vote.verify (← getCore).committee)
        match ← addVote vote with
        | none => return ()
        | some qc =>
            processQc qc
            let block ← generateProposal false
            broadcastProposeWith (handleVote fuel) fuel block

def processBlock (fuel : Nat) (block : Block) : M Unit :=
  processBlockWith (handleVote fuel) fuel block

def broadcastPropose (fuel : Nat) (block : Block) : M Unit :=
  broadcastProposeWith (handleVote fuel) fuel block

/-- `MempoolDriver::verify` -/
def verifyPayload (block : Block) : M Bool := do
  emit (.mempool (.verify block))
  let status := (← get).env.status
  emit (.payloadStatus block status)
  match status with
  | .accept => return true
  | .reject => error .invalidPayload
  | .wait => return false

def handleProposal (fuel : Nat) (block : Block) : M Unit := do
  liftResult (ensure (block.author = (← getChain).name)
    (.wrongAuthor block.digest block.author block.height))
  liftResult (block.verify (← getCore).committee)
  processQc block.qc
  if ← verifyPayload block then processBlock fuel block

def handleSyncRequest (digest : Digest) (sender : PublicKey) : M Unit := do
  match ← Synchronizer.read digest with
  | none => return ()
  | some value =>
      let block ← Synchronizer.readBlock value
      Synchronizer.transmit (.syncReply block) (some sender) HOTSTUFF

end HotstuffDag.Core
