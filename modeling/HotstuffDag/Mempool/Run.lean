import HotstuffDag.Core.Run
import HotstuffDag.Mempool.Synchronizer

/-! # The mempool of a node

The core, the payload maker and the task of the synchronizer, with the channels between them, and
the store they share with consensus. -/

namespace HotstuffDag
open Library
variable [Crypto] [Mempool.PayloadBincode]

structure Mempool where
  core : Mempool.Core
  maker : Mempool.Runner
  synchronizer : Mempool.Synchronizer
  /-- Own payloads on their way to the core. -/
  own : List Payload
  /-- Messages on their way to the synchronizer. Beside a `Clean` stands the committed block it is
  for, which nothing reads. -/
  inner : List (Mempool.SynchronizerMessage × Option Block)
  log : List Mempool.Event
  /-- The task of the core ends with a panic. -/
  alive : Bool

/-- What `MempoolDriver` asks for. -/
inductive MempoolCall
  | get (max : Nat)
  | verify (block : Block)
  | cleanup (b0 : Block)
  deriving Repr, DecidableEq

namespace MempoolCall

def message : MempoolCall → ConsensusMempoolMessage
  | .get max => .get max
  | .verify block => .verify block
  | .cleanup b0 => .cleanup b0.payload b0.height

def cleaned : MempoolCall → Option Block
  | .cleanup b0 => some b0
  | _ => none

end MempoolCall

/-- What happens to a mempool. -/
inductive MempoolInput
  /-- The payload maker receives a transaction. -/
  | client (tx : List UInt8)
  /-- The core receives the next own payload. -/
  | own (env : Mempool.Env)
  /-- The core receives a message of the network: any that can be deserialized. -/
  | network (message : Mempool.MempoolMessage) (env : Mempool.Env)
  /-- The core receives a request of the consensus core. -/
  | call (call : MempoolCall) (env : Mempool.Env)
  /-- The synchronizer receives the next message of the core. -/
  | inner (now : Nat)
  /-- A waiter has read all that was missing. -/
  | finish (id : Nat)
  /-- A waiter learns that it is cancelled. -/
  | cancel (id : Nat)
  /-- A read of a waiter fails. -/
  | fail (id : Nat)
  | tick (now : Nat)

namespace Mempool

def new (name : PublicKey) (committee : Committee) (parameters : Parameters) : Mempool :=
  ⟨Core.new name committee parameters, Runner.new name parameters.maxPayloadSize, Synchronizer.new, [], [], [], true⟩

/-- The messages for the synchronizer among the events. -/
def innerMessages (cause : Option Block) (events : List Event) : List (SynchronizerMessage × Option Block) :=
  events.filterMap fun
    | .inner message => some (message, cause)
    | _ => none

/-- What a handler of the core starts from. -/
def state (m : Mempool) (store : Store) (env : Env) : State := ⟨m.core, m.maker, store, m.log, env⟩

/-- The task of the core goes on after this result. -/
def survives : EStateM.Result Exn State Unit → Bool
  | .error .panic _ => false
  | _ => true

/-- The core handles a message, which is lost when its task has ended. -/
def exec (m : Mempool) (store : Store) (env : Env) (cause : Option Block) (x : M Unit) : Mempool × Store :=
  if m.alive then
    let s := Exec.final x (m.state store env)
    ({ m with
        core := s.core
        maker := s.maker
        inner := m.inner ++ innerMessages cause (s.log.drop m.log.length)
        log := s.log
        alive := survives (x (m.state store env)) }, s.store)
  else (m, store)

def client (m : Mempool) (tx : List UInt8) : Mempool :=
  match m.maker.add tx with
  | (some payload, maker) =>
      { m with maker := maker, own := m.own ++ [payload], log := m.log ++ [.made payload] }
  | (none, maker) => { m with maker := maker }

/-- The request for the payloads of a block goes to its author. -/
def sendRequest (m : Mempool) (digests : List Digest) (author : PublicKey) : Mempool :=
  match m.core.committee.mempoolAddress author with
  | .ok address => { m with log := m.log ++ [.transmit (.payloadRequest digests m.core.name) [address]] }
  | .error _ => { m with synchronizer := { m.synchronizer with alive := false } }

def sync (m : Mempool) (missing : List Digest) (block : Block) (now : Nat) : Mempool :=
  let t := m.synchronizer
  if t.pending.contains block.digest then m
  else
    let digests := t.unrequested missing
    let m := { m with synchronizer := (t.wait missing block).request digests block.height now }
    if digests = [] then m else m.sendRequest digests block.author

def handleInner (m : Mempool) (now : Nat) : SynchronizerMessage → Mempool
  | .sync missing block => m.sync missing block now
  | .clean round => { m with synchronizer := m.synchronizer.clean round }

/-- A step of the synchronizer's task. -/
def task (m : Mempool) (store : Store) : MempoolInput → Mempool
  | .inner now =>
      match m.inner with
      | [] => m
      | (message, _) :: rest => { m with inner := rest }.handleInner now message
  | .finish id =>
      match m.synchronizer.waiting.find? fun w => w.id = id with
      | none => m
      | some w =>
          if w.missing.all store.contains then
            { m with synchronizer := m.synchronizer.finish w, log := m.log ++ [.loopBack w.block] }
          else m
  | .cancel id =>
      match m.synchronizer.waiting.find? fun w => w.id = id with
      | none => m
      | some w => if m.synchronizer.cancelled w then { m with synchronizer := m.synchronizer.drop id } else m
  | .fail id => { m with synchronizer := m.synchronizer.drop id }
  | .tick now =>
      let digests := m.synchronizer.expired m.core.parameters.syncRetryDelay now
      if digests = [] then m
      else
        { m with log := m.log ++
            [.transmit (.payloadRequest digests m.core.name) (m.core.committee.broadcastAddresses m.core.name)] }
  | _ => m

def step (m : Mempool) (store : Store) (input : MempoolInput) : Mempool × Store :=
  match input with
  | .client tx => (m.client tx, store)
  | .own env =>
      match m.own with
      | [] => (m, store)
      | payload :: rest => { m with own := rest }.exec store env none (Core.handleMessage (.ownPayload payload))
  | .network message env => m.exec store env none (Core.handleMessage message)
  | .call call env => m.exec store env call.cleaned (Core.handleConsensus call.message)
  | input => (if m.synchronizer.alive then m.task store input else m, store)

end Mempool

/-! ## The store is shared -/

/-- A node with its mempool. The store is the one in the core of the node. -/
structure Host where
  node : Node
  mempool : Mempool

inductive HostInput
  | consensus (channel : Channel) (message : ConsensusMessage) (env : Env)
  | mempool (input : MempoolInput)

namespace Host
variable [Bincode]

def start (core : Core) (env : Env) (mempool : Mempool) : Host := ⟨Node.start core env, mempool⟩

def store (host : Host) : Store := host.node.core.store

def step (host : Host) : HostInput → Host
  | .consensus channel message env => { host with node := host.node.step (.deliver channel message env) }
  | .mempool input =>
      let (mempool, store) := host.mempool.step host.store input
      { node := { host.node with core := { host.node.core with store := store } }, mempool := mempool }

def run (host : Host) (inputs : List HostInput) : Host := inputs.foldl step host

end Host
end HotstuffDag
