import HotstuffDag.Aggregator
import HotstuffDag.Leader
import HotstuffDag.Library.Exec

/-! # The state of a core

Handlers run on the fields of `Core` and on the one chain that the source passes along as
`&mut Chain`. They end normally, with an error that `Core::run` logs, or by stopping the task. -/

namespace HotstuffDag
open Library

def NEXT_EPOCH_HEIGHT : SeqNumber := 10
def LAMBDA_VAL : SeqNumber := 10

def HOTSTUFF : UInt8 := 0
def TCVBA : UInt8 := 1

structure Chain where
  name : PublicKey
  height : SeqNumber
  lastVotedHeight : SeqNumber
  lastCommittedHeight : SeqNumber
  aggregator : Aggregator
  highQc : QC
  heightToDigest : Map SeqNumber Digest
  epoch : SeqNumber
  deriving Repr, DecidableEq

def Chain.new (name : PublicKey) : Chain :=
  ⟨name, 1, 0, 0, Aggregator.new, QC.genesis, Map.empty, 0⟩

/-- What the database holds: consensus writes blocks, the mempool writes payloads. -/
inductive Value
  | block (block : Block)
  | payload (payload : Payload)
  deriving Repr, DecidableEq

abbrev Store := Map Digest Value

/-- What `bincode` makes of the bytes of one type when they are read as the other. -/
class Bincode where
  blockOfPayload : Payload → Option Block
  /-- The bytes bring a key of fewer than 32 bytes, at which `PublicKey::from_base64` panics. -/
  panicsOn : Payload → Bool

structure Core where
  name : PublicKey
  committee : Committee
  parameters : Parameters
  store : Store
  epoch : SeqNumber
  tcProcessed : Bool
  valValueBroadcasted : Bool
  auxValueBroadcasted : Bool
  coinShareBroadcasted : Bool
  auxProofBroadcasted : Bool
  isViewChange : Bool
  pubkeyToChain : Map PublicKey Chain
  tcCache : Map SeqNumber TC
  aggregator : Aggregator
  binValues : List UInt64
  abaRound : SeqNumber
  phase : UInt8
  abaOutputVal : Option UInt64
  abaInputVal : Map SeqNumber UInt64
  abaValPhaseCache1 : Map (SeqNumber × SeqNumber) ABAProof
  abaValPhaseCache2 : Map (SeqNumber × SeqNumber) ABAProof
  abaAuxPhaseCache : Map (SeqNumber × SeqNumber) ABAProof
  auxValueNums : Map (SeqNumber × SeqNumber) Nat
  abaCoinCache : Map (SeqNumber × SeqNumber) Nat
  abaProofCache : Map (SeqNumber × SeqNumber) ABAProof
  deriving DecidableEq

namespace Core

def new (name : PublicKey) (committee : Committee) (parameters : Parameters) (store : Store) : Core where
  name := name
  committee := committee
  parameters := parameters
  store := store
  epoch := 0
  tcProcessed := false
  valValueBroadcasted := false
  auxValueBroadcasted := false
  coinShareBroadcasted := false
  auxProofBroadcasted := false
  isViewChange := false
  pubkeyToChain := ⟨committee.keys.map fun pk => (pk, Chain.new pk)⟩
  tcCache := Map.empty
  aggregator := Aggregator.new
  binValues := []
  abaRound := 1
  phase := INIT_PHASE
  abaOutputVal := none
  abaInputVal := Map.empty
  abaValPhaseCache1 := Map.empty
  abaValPhaseCache2 := Map.empty
  abaAuxPhaseCache := Map.empty
  auxValueNums := Map.empty
  abaCoinCache := Map.empty
  abaProofCache := Map.empty

/-- The leader of an epoch. -/
def leader (core : Core) : PublicKey := core.committee.getLeader core.epoch

end Core

/-! ## What a core does to the outside -/

inductive ConsensusMempoolMessage
  | get (max : Nat)
  | verify (block : Block)
  | cleanup (digests : List Digest) (height : SeqNumber)
  deriving Repr, DecidableEq

inductive PayloadStatus
  | accept
  | reject
  | wait
  deriving Repr, DecidableEq

/-- An object the signature service has signed. -/
inductive Signed
  | block (block : Block)
  | vote (vote : Vote)
  | timeout (timeout : Timeout)
  | abaVal (abaVal : ABAVal)
  | payload (payload : Payload)
  deriving Repr, DecidableEq

def Signed.preimage : Signed → List UInt8
  | .block b => b.preimage
  | .vote v => v.preimage
  | .timeout t => t.preimage
  | .abaVal v => v.preimage
  | .payload p => p.preimage

/-- What a core does, in order: what others can observe of it, and the calls and assignments its
claims speak about, with the state they were made in. -/
inductive Event
  /-- A message handed to the network filter, with the addresses it goes to. -/
  | transmit (tag : UInt8) (message : ConsensusMessage) (addresses : List SocketAddr)
  | mempool (message : ConsensusMempoolMessage)
  /-- The mempool has answered `verify`. -/
  | payloadStatus (block : Block) (status : PayloadStatus)
  /-- A request sent to the task of the synchronizer. -/
  | request (author : PublicKey) (digest : Digest) (block : Option Block)
  | signed (object : Signed)
  /-- A block has reached `process_block`. -/
  | process (block : Block)
  /-- `make_vote` grants its vote on the chain. -/
  | voted (chain : Chain) (block : Block)
  /-- A vote on the named chain has completed a certificate. -/
  | assembled (chain : PublicKey) (qc : QC)
  /-- `process_block_commit` commits the grandparent `b0` of the block. -/
  | twoChain (core : Core) (chain : Chain) (block b0 b1 : Block)
  | commitCall (core : Core) (chain : Chain) (block : Block)
  /-- A block sent on the commit channel. -/
  | commit (block : Block)
  /-- `tc_cache` takes in a certificate. -/
  | savedTc (tc : TC)
  /-- A value completes a certificate of the agreement. -/
  | assembledAba (proof : ABAProof)
  /-- `aba_input_val` is set for a round. -/
  | abaInput (epoch round : SeqNumber) (val : UInt64)
  /-- `bin_values` takes in a value. -/
  | binValue (epoch round : SeqNumber) (val : UInt64)
  /-- `aba_output_val` is set in a round. -/
  | abaOutput (epoch round : SeqNumber) (val : UInt64)
  /-- `aba_coin_cache` is set for a round. -/
  | coin (epoch round : SeqNumber) (coin : Nat)
  /-- `update_aba_phase` enters the coin phase. -/
  | coinPhase (core : Core)
  | coinCall (core : Core) (coin : Nat)
  | proofCall (core : Core) (proof : ABAProof)
  /-- The core leaves its epoch, with its leader chain as `commit` left it. -/
  | epochEnd (core : Core) (chain : Chain) (output : UInt64)
  deriving DecidableEq

/-- What a sum that is checked for overflow counts. -/
inductive Counter
  | height
  | epoch
  | round
  deriving Repr, DecidableEq

/-- How a handler stops early. -/
inductive Exn
  /-- The handler returns `Err`, which `Core::run` logs. -/
  | error (error : ConsensusError)
  /-- A panic, which ends the task: an `unwrap` of `None`, an index or an explicit `panic!`. -/
  | panic
  /-- An addition that overflows, with overflow checks on; it ends the task as well. -/
  | overflow (counter : Counter)
  /-- The recursion is deeper than the run looks. -/
  | outOfFuel
  deriving Repr, DecidableEq

/-- What the environment answers during one turn of the loop. -/
structure Env where
  /-- How deep the recursions of this turn are followed. -/
  fuel : Nat
  /-- The answers of `MempoolDriver::get`, in order. -/
  payloads : List (List Digest)
  /-- The answer of `MempoolDriver::verify`. -/
  status : PayloadStatus
  /-- Which of the reads of the store fail, in order. -/
  failures : List Bool
  deriving Repr, DecidableEq

structure State where
  core : Core
  chain : Chain
  log : List Event
  env : Env

abbrev M := EStateM Exn State

/-! ## Steps of a handler -/

def error {α : Type} (e : ConsensusError) : M α := throw (.error e)

def panic {α : Type} : M α := throw .panic

def modifyCore (f : Core → Core) : M Unit := modify fun s => { s with core := f s.core }

def modifyChain (f : Chain → Chain) : M Unit := modify fun s => { s with chain := f s.chain }

def emit (e : Event) : M Unit := modify fun s => { s with log := s.log ++ [e] }

def getCore : M Core := do return (← get).core

def getChain : M Chain := do return (← get).chain

/-- The `?` operator. -/
def liftResult {α : Type} : ConsensusResult α → M α
  | .ok a => pure a
  | .error e => error e

/-- `unwrap` of an `Option`. -/
def unwrap {α : Type} : Option α → M α
  | some a => pure a
  | none => panic

/-- A `u64` addition, with overflow checks on. -/
def checkedAdd (counter : Counter) (a b : SeqNumber) : M SeqNumber :=
  if a.toNat + b.toNat < 2 ^ 64 then pure (a + b) else throw (.overflow counter)

/-- Go on after an error, as `Core::run` does with the result of a handler. -/
def attempt (x : M Unit) : M Unit := fun s =>
  match x s with
  | .error (.error _) s' => .ok () s'
  | result => result

/-- Run a handler on another chain, and hand that chain back beside its result. -/
def withChain {α : Type} (chain : Chain) (x : M α) : M (α × Chain) := fun s =>
  match x { s with chain := chain } with
  | .ok a s' => .ok (a, s'.chain) { s' with chain := s.chain }
  | .error e s' => .error e { s' with chain := s.chain }

/-- Run a handler on a copy of a stored chain, and store the copy back even after an error. -/
def onChain (name : PublicKey) (handler : M Unit) : M Unit := do
  let chain ← unwrap ((← getCore).pubkeyToChain.get? name)
  modifyChain fun _ => chain
  attempt handler
  let chain ← getChain
  modifyCore fun c => { c with pubkeyToChain := c.pubkeyToChain.insert name chain }

end HotstuffDag
