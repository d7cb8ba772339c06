import HotstuffDag.Core.Aba

/-! # The loop of a core

A node receives a message, tries to advance the view change on the chain of its leader, and checks
for a timeout on it. -/

namespace HotstuffDag
open Library
variable [Crypto] [Bincode]

/-- The two receivers that `Core::run` selects from. -/
inductive Channel
  | core
  | smvba
  deriving Repr, DecidableEq

namespace Core

def handleMessage (fuel : Nat) : Channel → ConsensusMessage → M Unit
  | .core, .propose block => onChain block.author (handleProposal fuel block)
  | .core, .vote vote => onChain vote.proposer (handleVote fuel vote)
  | .core, .loopBack block => onChain block.author (processBlock fuel block)
  | .core, .syncRequest digest sender => attempt (handleSyncRequest digest sender)
  | .core, .syncReply block => onChain block.author (handleProposal fuel block)
  | .smvba, .timeout timeout => do
      onChain ((← getCore).committee.getLeader timeout.epoch) (handleTimeout timeout)
  | .smvba, .tc tc => attempt (handleTc tc)
  | .smvba, .abaVal abaVal => attempt (handleAbaVal abaVal)
  | .smvba, .abaProof proof => attempt (handleAbaProof proof)
  | .smvba, .abaCoinShare share => attempt (handleCoinShare share)
  | _, _ => panic

/-- One turn of the loop. -/
def turn (channel : Channel) (message : ConsensusMessage) : M Unit := do
  let fuel := (← get).env.fuel
  handleMessage fuel channel message
  onChain (← getCore).leader (updateAbaPhase fuel)
  onChain (← getCore).leader checkTimeout

/-- What runs before the loop: the first proposal on the own chain. -/
def start : M Unit := do
  let fuel := (← get).env.fuel
  onChain (← getCore).name (do broadcastPropose fuel (← generateProposal false))

end Core

/-- A node: its core, what it has done so far, and whether its task still runs. -/
structure Node where
  core : Core
  log : List Event
  alive : Bool

/-- What happens to a node. -/
inductive Input
  /-- A message is received. -/
  | deliver (channel : Channel) (message : ConsensusMessage) (env : Env)
  /-- The payload maker of the node's mempool signs a payload of client transactions. -/
  | makePayload (transactions : List (List UInt8))
  /-- The node's mempool stores a payload. -/
  | storePayload (payload : Payload)
  deriving DecidableEq

namespace Node

def exec (node : Node) (env : Env) (x : M Unit) : Node :=
  match x { core := node.core, chain := Chain.new node.core.name, log := node.log, env := env } with
  | .ok _ s => ⟨s.core, s.log, true⟩
  | .error _ s => ⟨s.core, s.log, false⟩

def start (core : Core) (env : Env) : Node :=
  exec ⟨core, [], true⟩ env Core.start

def step (node : Node) (input : Input) : Node :=
  if node.alive then
    match input with
    | .deliver channel message env => node.exec env (Core.turn channel message)
    | .makePayload transactions =>
        { node with log := node.log ++ [.signed (.payload (.new transactions node.core.name))] }
    | .storePayload payload =>
        { node with core := { node.core with
            store := node.core.store.insert payload.digest (.payload payload) } }
  else node

def run (node : Node) (inputs : List Input) : Node := inputs.foldl step node

end Node
end HotstuffDag
