import HotstuffDag.Library.HashSet
import HotstuffDag.Mempool.Config
import HotstuffDag.Mempool.Payload

/-! # The core of the mempool

It answers three senders: the payload maker of its node, the nodes of the network, and the
consensus core. The first two share a channel. -/

namespace HotstuffDag.Mempool
open Library

inductive MempoolMessage
  | ownPayload (payload : Payload)
  | payload (payload : Payload)
  | payloadRequest (digests : List Digest) (sender : PublicKey)
  deriving Repr, DecidableEq

/-- What the core sends to the task of its synchronizer. -/
inductive SynchronizerMessage
  | sync (missing : List Digest) (block : Block)
  | clean (round : SeqNumber)
  deriving Repr, DecidableEq

structure Core where
  name : PublicKey
  committee : Committee
  parameters : Parameters
  optQueue : HashSet Digest
  pesQueue : HashSet Digest
  deriving DecidableEq

def Core.new (name : PublicKey) (committee : Committee) (parameters : Parameters) : Core :=
  ⟨name, committee, parameters, HashSet.empty, HashSet.empty⟩

/-- What the mempool does, in order. -/
inductive Event
  /-- The payload maker has made a payload. -/
  | made (payload : Payload)
  | stored (payload : Payload)
  | transmit (message : MempoolMessage) (addresses : List SocketAddr)
  /-- A message for the task of the synchronizer. -/
  | inner (message : SynchronizerMessage)
  /-- The answer to `Get`. -/
  | payloads (digests : List Digest)
  /-- The answer to `Verify`. -/
  | status (block : Block) (status : PayloadStatus)
  /-- A block handed back to the consensus core. -/
  | loopBack (block : Block)
  deriving DecidableEq

/-- What `bincode` makes of the bytes of a block when they are read as a payload. -/
class PayloadBincode where
  payloadOfBlock : Block → Option Payload
  /-- The bytes bring a key of fewer than 32 bytes, at which `PublicKey::from_base64` panics. -/
  panicsOn : Block → Bool

/-- What the environment answers while the core handles one message. -/
structure Env where
  /-- Which of the reads of the store fail, in order. -/
  failures : List Bool
  /-- `HashSet::capacity` of the two queues. -/
  optCapacity : Nat
  pesCapacity : Nat
  optOrder : HashSet.Order Digest
  pesOrder : HashSet.Order Digest

structure State where
  core : Core
  maker : Runner
  store : Store
  log : List Event
  env : Env

/-- How a handler stops early: with an `Err`, or with a panic, which ends the task. -/
inductive Exn
  | error (error : MempoolError)
  | panic
  deriving Repr, DecidableEq

abbrev M := EStateM Exn State

def ensure (condition : Bool) (error : MempoolError) : M Unit := if condition then pure () else throw (.error error)

def emit (e : Event) : M Unit := modify fun s => { s with log := s.log ++ [e] }

def modifyCore (f : Core → Core) : M Unit := modify fun s => { s with core := f s.core }

/-- `Store::read`; the environment says whether the database fails. -/
def read (digest : Digest) : M (Option Value) := do
  let s ← get
  match s.env.failures with
  | [] => return s.store.get? digest
  | failed :: rest =>
      modify fun s => { s with env := { s.env with failures := rest } }
      if failed then throw (.error .storeError) else return s.store.get? digest

def transmit (message : MempoolMessage) (dest : Option PublicKey) : M Unit := do
  let core := (← get).core
  match dest with
  | some name =>
      match core.committee.mempoolAddress name with
      | .ok address => emit (.transmit message [address])
      | .error e => throw (.error e)
  | none => emit (.transmit message (core.committee.broadcastAddresses core.name))

namespace Core
variable [Crypto]

def storePayload (key : Digest) (payload : Payload) : M Unit :=
  modify fun s => { s with store := s.store.insert key (.payload payload), log := s.log ++ [.stored payload] }

def processOwnPayload (digest : Digest) (payload : Payload) : M Unit := do
  let s ← get
  ensure (s.core.optQueue.len < s.env.optCapacity ∧ s.core.pesQueue.len < s.env.pesCapacity) .mempoolFull
  storePayload digest payload
  transmit (.payload payload) none

def handleOwnPayload (payload : Payload) : M Unit := do
  let core := (← get).core
  ensure (core.optQueue.len < core.parameters.queueCapacity) .mempoolFull
  let digest := payload.digest
  processOwnPayload digest payload
  modifyCore fun c => { c with optQueue := c.optQueue.insert digest }

def handleOthersPayload (payload : Payload) : M Unit := do
  let core := (← get).core
  ensure (core.committee.hasAuthority payload.author) (.unknownAuthority payload.author)
  ensure (payload.size ≤ core.parameters.maxPayloadSize) .payloadTooBig
  let digest := payload.digest
  ensure (Crypto.verify payload.signature digest payload.author) .invalidSignature
  storePayload digest payload
  modifyCore fun c => { c with pesQueue := c.pesQueue.insert digest }

/-- `bincode::deserialize` of a stored value as a payload. -/
def decodePayload [PayloadBincode] : Value → M Payload
  | .payload p => pure p
  | .block b =>
      if PayloadBincode.panicsOn b then throw .panic
      else
        match PayloadBincode.payloadOfBlock b with
        | some p => pure p
        | none => throw (.error .serializationError)

def handleRequest [PayloadBincode] : List Digest → PublicKey → M Unit
  | [], _ => return ()
  | digest :: rest, requestor => do
      match ← read digest with
      | none => handleRequest rest requestor
      | some value =>
          transmit (.payload (← decodePayload value)) (some requestor)
          handleRequest rest requestor

/-- `PayloadMaker::make`: the task of the payload maker makes a payload on request. -/
def makePayload : M (Option Payload) := do
  let (payload, maker) := (← get).maker.make
  modify fun s => { s with maker := maker }
  emit (.made payload)
  return Runner.answer payload

/-- `Digest::default().size()` -/
def digestLen : Nat := 32

def getPayload (max : Nat) : M (List Digest) := do
  let s ← get
  if s.core.optQueue.isEmpty ∧ s.core.pesQueue.isEmpty then
    match ← makePayload with
    | some payload =>
        let digest := payload.digest
        processOwnPayload digest payload
        return [digest]
    | none => return []
  else
    let payloadLen := max / digestLen
    let optDigests := if s.core.optQueue.isEmpty then [] else s.core.optQueue.take s.env.optOrder payloadLen
    modifyCore fun c => { c with optQueue := c.optQueue.removeAll optDigests }
    let pesDigests := s.core.pesQueue.take s.env.pesOrder (payloadLen - optDigests.length)
    modifyCore fun c => { c with pesQueue := c.pesQueue.removeAll pesDigests }
    return optDigests ++ pesDigests

/-- The loop of `verify_payload`: the digests that the store does not hold. -/
def missingDigests : List Digest → HashSet Digest → M (HashSet Digest)
  | [], missing => return missing
  | digest :: rest, missing => do
      match ← read digest with
      | none => missingDigests rest (missing.insert digest)
      | some _ => missingDigests rest missing

/-- `Synchronizer::verify_payload` -/
def verifyPayload (block : Block) : M Bool := do
  let missing ← missingDigests block.payload HashSet.empty
  if missing.isEmpty then return true
  else
    emit (.inner (.sync missing.items block))
    return false

def cleanup (digests : List Digest) (round : SeqNumber) : M Unit := do
  emit (.inner (.clean round))
  modifyCore fun c => { c with
    optQueue := c.optQueue.removeAll digests
    pesQueue := c.pesQueue.removeAll digests }

/-! ## The loop -/

/-- Go on after an error, as `Core::run` does with every result. -/
def attempt {α : Type} (x : M α) : M (MempoolResult α) := fun s =>
  match x s with
  | .ok a s' => .ok (.ok a) s'
  | .error (.error e) s' => .ok (.error e) s'
  | .error .panic s' => .error .panic s'

def handleMessage [PayloadBincode] : MempoolMessage → M Unit
  | .ownPayload payload => handleOwnPayload payload
  | .payload payload => handleOthersPayload payload
  | .payloadRequest digests sender => handleRequest digests sender

def statusOf : MempoolResult Bool → PayloadStatus
  | .ok true => .accept
  | .ok false => .wait
  | .error _ => .reject

def handleConsensus : ConsensusMempoolMessage → M Unit
  | .get max => do
      match ← attempt (getPayload max) with
      | .ok digests => emit (.payloads digests)
      | .error _ => emit (.payloads [])
  | .verify block => do emit (.status block (statusOf (← attempt (verifyPayload block))))
  | .cleanup digests round => cleanup digests round

end Core
end HotstuffDag.Mempool
