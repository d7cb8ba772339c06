import HotstuffDag.Core.State

/-! # The network

A `NetSender` keeps one connection per address alive, each with a task that writes what its channel
holds. A `NetReceiver` delivers what comes over a connection until a frame does not deserialize. The
messages of the core pass a filter that holds each of them back for as long as it likes. -/

namespace HotstuffDag
open Library

/-- The capacity of the channels. -/
def channelLen : Nat := 10000

/-- `bincode::serialize` and `bincode::deserialize` for the messages on a connection. -/
class NetBincode (Message Frame : Type) where
  serialize : Message → Frame
  deserialize : Frame → Option Message

structure NetMessage (Frame : Type) where
  bytes : Frame
  addresses : List SocketAddr
  deriving Repr, DecidableEq

/-- Where the sender's task of a connection stands. -/
inductive WorkerStage
  | connecting | connected | returned
  deriving Repr, DecidableEq

/-- What comes of `tx.send`: it fails when the task has returned, and waits while the channel is full. -/
inductive SendResult
  | sent | waits | closed
  deriving Repr, DecidableEq

/-! ## One connection -/

/-- A TCP connection with the task that writes to it and the task that reads from it. -/
structure Connection (Frame : Type) where
  address : SocketAddr
  stage : WorkerStage
  /-- The channel to the task that writes. -/
  queue : List Frame
  /-- The frame that the task is writing. -/
  sending : Option Frame
  written : List Frame
  /-- How many of the frames have been read at the other end. -/
  read : Nat
  /-- The task at the other end has returned. -/
  closed : Bool
  deriving Repr, DecidableEq

namespace Connection
variable {Message Frame : Type}

def new (address : SocketAddr) : Connection Frame := ⟨address, .connecting, [], none, [], 0, false⟩

/-- The task returns, and its channel goes with what it holds. -/
def quit (c : Connection Frame) : Connection Frame := { c with stage := .returned, queue := [], sending := none }

/-- `TcpStream::connect` -/
def connect (c : Connection Frame) (ok : Bool) : Connection Frame :=
  match c.stage with
  | .connecting => if ok then { c with stage := .connected } else c.quit
  | _ => c

/-- `rx.recv` -/
def recv (c : Connection Frame) : Connection Frame :=
  match c.stage, c.sending, c.queue with
  | .connected, none, frame :: rest => { c with queue := rest, sending := some frame }
  | _, _, _ => c

/-- `transport.send` -/
def send (c : Connection Frame) (ok : Bool) : Connection Frame :=
  match c.sending with
  | some frame => if ok then { c with sending := none, written := c.written ++ [frame] } else c.quit
  | none => c

/-- The receiver takes the next frame; it returns when the frame does not deserialize. -/
def deliver [NetBincode Message Frame] (c : Connection Frame) : Connection Frame × Option Message :=
  if c.closed then (c, none)
  else
    match c.written[c.read]? with
    | none => (c, none)
    | some frame =>
        match NetBincode.deserialize frame with
        | some message => ({ c with read := c.read + 1 }, some message)
        | none => ({ c with read := c.read + 1, closed := true }, none)

/-- What the receiver has delivered of this connection. -/
def delivered [NetBincode Message Frame] (c : Connection Frame) : List Message :=
  (c.written.take c.read).filterMap NetBincode.deserialize

end Connection

/-! ## The sender -/

/-- `NetSender::run` with the tasks it has spawned. -/
structure NetSender (Frame : Type) where
  transmit : List (NetMessage Frame)
  /-- The message in hand, with the addresses that are still to be served. -/
  current : Option (NetMessage Frame)
  /-- The connection that has just been spawned for the first of these. -/
  spawned : Option Nat
  senders : Map SocketAddr Nat
  connections : List (Connection Frame)
  deriving DecidableEq

/-- A step of the loop or of one of the tasks, which are named by their places in `connections`. -/
inductive NetTask
  | next | serve
  | connect (place : Nat) (ok : Bool)
  | recv (place : Nat)
  | send (place : Nat) (ok : Bool)
  deriving Repr, DecidableEq

inductive NetInput (Frame : Type)
  /-- Another task puts a message into `transmit`. -/
  | hand (message : NetMessage Frame)
  | task (task : NetTask)
  deriving Repr, DecidableEq

namespace NetSender
variable {Frame : Type}

def new : NetSender Frame := ⟨[], none, none, Map.empty, []⟩

def hand (s : NetSender Frame) (message : NetMessage Frame) : NetSender Frame :=
  { s with transmit := s.transmit ++ [message] }

/-- `self.transmit.recv` -/
def next (s : NetSender Frame) : NetSender Frame :=
  match s.current, s.transmit with
  | none, message :: rest => { s with current := some message, transmit := rest }
  | _, _ => s

def spawnWorker (s : NetSender Frame) (address : SocketAddr) : NetSender Frame :=
  { s with spawned := some s.connections.length, connections := s.connections ++ [Connection.new address] }

def offer (s : NetSender Frame) (place : Nat) : SendResult :=
  match s.connections[place]? with
  | none => .closed
  | some c =>
      if c.stage = .returned then .closed
      else if c.queue.length < channelLen then .sent else .waits

def change (s : NetSender Frame) (place : Nat) (f : Connection Frame → Connection Frame) : NetSender Frame :=
  { s with connections := s.connections.modify place f }

/-- The frame goes into the channel of a connection, which ends the turn of the address. -/
def push (s : NetSender Frame) (place : Nat) (bytes : Frame) (rest : List SocketAddr) : NetSender Frame :=
  { s.change place fun c => { c with queue := c.queue ++ [bytes] } with current := some ⟨bytes, rest⟩, spawned := none }

/-- The body of the inner loop, up to where it waits. -/
def serve (s : NetSender Frame) : NetSender Frame :=
  match s.current with
  | none => s
  | some ⟨_, []⟩ => { s with current := none }
  | some ⟨bytes, address :: rest⟩ =>
      match s.spawned with
      | none =>
          match s.senders.get? address with
          | none => s.spawnWorker address
          | some place =>
              match s.offer place with
              | .sent => s.push place bytes rest
              | .waits => s
              | .closed => s.spawnWorker address
      | some place =>
          match s.offer place with
          | .sent => { s.push place bytes rest with senders := s.senders.insert address place }
          | .waits => s
          | .closed => { s with current := some ⟨bytes, rest⟩, spawned := none }

def task (s : NetSender Frame) : NetTask → NetSender Frame
  | .next => s.next
  | .serve => s.serve
  | .connect place ok => s.change place (·.connect ok)
  | .recv place => s.change place (·.recv)
  | .send place ok => s.change place (·.send ok)

def step (s : NetSender Frame) : NetInput Frame → NetSender Frame
  | .hand message => s.hand message
  | .task task => s.task task

def run (s : NetSender Frame) (inputs : List (NetInput Frame)) : NetSender Frame := inputs.foldl step s

end NetSender

/-! ## The filter -/

abbrev FilterInput := ConsensusMessage × List SocketAddr

/-- One of the two ways of the core's messages, up to where they are read: the channel to the filter,
the futures of `Filter::delay` and the sender. -/
structure Lane (Frame : Type) where
  channel : List FilterInput
  pending : List FilterInput
  net : NetSender Frame
  deriving DecidableEq

inductive LaneInput
  /-- A message comes into the channel. -/
  | transmit (input : FilterInput)
  /-- The filter takes the next message. -/
  | delay
  /-- A future is ready. -/
  | ready (place : Nat)
  | net (task : NetTask)
  /-- The receiver takes the next frame of a connection. -/
  | deliver (place : Nat)
  deriving DecidableEq

namespace Lane
variable {Frame : Type} [NetBincode ConsensusMessage Frame]

def new : Lane Frame := ⟨[], [], NetSender.new⟩

/-- `Filter::transmit`, which waits while the channel to the sender is full. -/
def ready (lane : Lane Frame) (place : Nat) : Lane Frame :=
  match lane.pending[place]? with
  | none => lane
  | some (message, addresses) =>
      if lane.net.transmit.length < channelLen then
        { lane with
          pending := lane.pending.eraseIdx place
          net := lane.net.hand ⟨NetBincode.serialize message, addresses⟩ }
      else lane

def step (lane : Lane Frame) : LaneInput → Lane Frame
  | .transmit input => { lane with channel := lane.channel ++ [input] }
  | .delay =>
      match lane.channel with
      | [] => lane
      | input :: rest => { lane with channel := rest, pending := lane.pending ++ [input] }
  | .ready place => lane.ready place
  | .net task => { lane with net := lane.net.task task }
  | .deliver place =>
      { lane with net := lane.net.change place fun c => (@Connection.deliver ConsensusMessage Frame _ c).1 }

def run (lane : Lane Frame) (inputs : List LaneInput) : Lane Frame := inputs.foldl step lane

/-- What has been delivered at an address, connection by connection. -/
def delivered (lane : Lane Frame) (address : SocketAddr) : List ConsensusMessage :=
  (lane.net.connections.filter (·.address = address)).flatMap Connection.delivered

end Lane
end HotstuffDag
