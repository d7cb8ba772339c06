import HotstuffDag.Library.Map

/-! # The task of the store

`Store` sends commands to a loop that owns the database and the senders waiting for a key. -/

namespace HotstuffDag
open Library

inductive StoreCommand
  | write (key value : List UInt8)
  | read (key : List UInt8)
  | notifyRead (key : List UInt8)
  deriving Repr, DecidableEq

/-- What is sent to the `oneshot::Sender` of a command. -/
inductive StoreReply
  | read (value : Option (List UInt8))
  | notified (value : List UInt8)
  deriving Repr, DecidableEq

/-- A sender is named by the number of commands received before its own. -/
structure StoreTask where
  db : Map (List UInt8) (List UInt8)
  obligations : Map (List UInt8) (List Nat)
  received : Nat
  sent : List (Nat × StoreReply)
  deriving Repr, DecidableEq

namespace StoreTask

/-- The database may hold what an earlier run has written. -/
def new (db : Map (List UInt8) (List UInt8)) : StoreTask := ⟨db, Map.empty, 0, []⟩

def write (task : StoreTask) (key value : List UInt8) : StoreTask :=
  match task.obligations.get? key with
  | none => { task with db := task.db.insert key value }
  | some senders =>
      { task with
        db := task.db.insert key value
        obligations := task.obligations.remove key
        sent := task.sent ++ senders.map fun sender => (sender, .notified value) }

def read (task : StoreTask) (key : List UInt8) (sender : Nat) : StoreTask :=
  { task with sent := task.sent ++ [(sender, .read (task.db.get? key))] }

def notifyRead (task : StoreTask) (key : List UInt8) (sender : Nat) : StoreTask :=
  match task.db.get? key with
  | none => { task with obligations := task.obligations.insert key (task.obligations.getD key [] ++ [sender]) }
  | some value => { task with sent := task.sent ++ [(sender, .notified value)] }

def handle (task : StoreTask) (sender : Nat) : StoreCommand → StoreTask
  | .write key value => task.write key value
  | .read key => task.read key sender
  | .notifyRead key => task.notifyRead key sender

def step (task : StoreTask) (command : StoreCommand) : StoreTask :=
  { task.handle task.received command with received := task.received + 1 }

def run (db : Map (List UInt8) (List UInt8)) (commands : List StoreCommand) : StoreTask :=
  commands.foldl step (new db)

/-- What the sender of the command at the given place has been sent, in order. -/
def repliesTo (task : StoreTask) (sender : Nat) : List StoreReply :=
  task.sent.filterMap fun (name, reply) => if name = sender then some reply else none

end StoreTask
end HotstuffDag
