import HotstuffDag.Library.HashSet
import HotstuffDag.Synchronizer

/-! # The task of the synchronizer

`Synchronizer::new` starts a task that requests missing blocks, waits until the store has them, and
sends the blocks that were held up back to the core. -/

namespace HotstuffDag
open Library

/-- A future of `Synchronizer::waiter`. Its `notify_read` answers with one of the values stored under
the digest while it waits. -/
structure SyncWaiter where
  digest : Digest
  block : Option Block
  seen : List Value
  deriving Repr, DecidableEq

inductive SyncEvent
  | transmit (message : ConsensusMessage) (addresses : List SocketAddr)
  | loopBack (block : Block)
  deriving Repr, DecidableEq

/-- The task, the store, and the channel between `get_block` and the task. -/
structure SyncTask where
  name : PublicKey
  committee : Committee
  syncRetryDelay : Nat
  store : Store
  /-- `get_block` is the only sender, and puts one digest into each request. -/
  inner : List (PublicKey × Digest × Option Block)
  waiting : List SyncWaiter
  pending : Map Digest (Nat × Option Block)
  demands : Map Digest (HashSet Digest)
  /-- The task ends with a panic at its `unwrap`s, and with a waiter that panics as it reads. -/
  alive : Bool
  log : List SyncEvent
  deriving DecidableEq

inductive SyncInput
  /-- The core calls `get_block`; the read of the store may fail. -/
  | getBlock (author : PublicKey) (digest : Digest) (block : Option Block) (failed : Bool)
  /-- Anyone writes to the store. -/
  | write (digest : Digest) (value : Value)
  /-- The task receives the next request; its own read may fail. -/
  | receive (failed : Bool) (now : Nat)
  /-- The waiter at a place in `waiting` has read a value. -/
  | finish (place : Nat) (value : Value)
  /-- The read of a waiter fails. -/
  | fail (place : Nat)
  | tick (now : Nat)
  deriving Repr, DecidableEq

namespace SyncTask
variable [Crypto]

/-- The database may hold what an earlier run has written. -/
def new (name : PublicKey) (committee : Committee) (store : Store) (syncRetryDelay : Nat) : SyncTask :=
  ⟨name, committee, syncRetryDelay, store, [], [], Map.empty, Map.empty, true, []⟩

/-- What `get_block` does when it finds no block. -/
def getBlock (t : SyncTask) (author : PublicKey) (digest : Digest) (block : Option Block) (failed : Bool) : SyncTask :=
  if digest = QC.genesis.hash ∨ failed ∨ t.store.contains digest then t
  else { t with inner := t.inner ++ [(author, digest, block)] }

def write (t : SyncTask) (digest : Digest) (value : Value) : SyncTask :=
  { t with
    store := t.store.insert digest value
    waiting := t.waiting.map fun w => if w.digest = digest then { w with seen := w.seen ++ [value] } else w }

/-- `demands.entry(block).or_insert_with(HashSet::new).insert(digest)` -/
def demand (demands : Map Digest (HashSet Digest)) (block digest : Digest) : Map Digest (HashSet Digest) :=
  demands.insert block ((demands.getD block HashSet.empty).insert digest)

/-- A new waiter, and the entries that go with it. -/
def wait (t : SyncTask) (digest : Digest) (block : Option Block) (now : Nat) : SyncTask :=
  { t with
    waiting := t.waiting ++ [⟨digest, block, (t.store.get? digest).toList⟩]
    pending := t.pending.insert digest (now, block)
    demands :=
      match block with
      | some b => demand t.demands b.digest digest
      | none => t.demands }

/-- The request to the author, with the `unwrap` of what `transmit` returns. -/
def sendRequest (t : SyncTask) (author : PublicKey) (digest : Digest) : SyncTask :=
  match t.committee.address author with
  | .ok address => { t with log := t.log ++ [.transmit (.syncRequest digest t.name) [address]] }
  | .error _ => { t with alive := false }

/-- A request from `inner_channel`. -/
def request (t : SyncTask) (author : PublicKey) (digest : Digest) (block : Option Block) (failed : Bool) (now : Nat) :
    SyncTask :=
  if !failed && t.store.contains digest then t
  else if t.pending.contains digest then t
  else (t.wait digest block now).sendRequest author digest

/-- The block was held up for this digest among others. -/
def resume (t : SyncTask) (block : Block) (received : Digest) : SyncTask :=
  match t.demands.get? block.digest with
  | none => { t with alive := false }
  | some digests =>
      let rest := digests.remove received
      if rest.isEmpty then
        { t with demands := t.demands.remove block.digest, log := t.log ++ [.loopBack block] }
      else { t with demands := t.demands.insert block.digest rest }

def drop (t : SyncTask) (place : Nat) : SyncTask := { t with waiting := t.waiting.eraseIdx place }

/-- A waiter has returned, or has panicked within the task. -/
def finish [Bincode] (t : SyncTask) (place : Nat) (w : SyncWaiter) (value : Value) : SyncTask :=
  match Synchronizer.decodeBlock value with
  | .error e => { t.drop place with alive := e ≠ .panic }
  | .ok received =>
      let t := { t.drop place with pending := t.pending.remove received.digest }
      match w.block with
      | some block => t.resume block received.digest
      | none => t

/-- The requests that the timer sends again. -/
def expired (t : SyncTask) (now : Nat) : List Digest :=
  (t.pending.entries.filter fun entry => entry.2.1 + t.syncRetryDelay < now).map Prod.fst

/-- A step of the task. -/
def task [Bincode] (t : SyncTask) : SyncInput → SyncTask
  | .receive failed now =>
      match t.inner with
      | [] => t
      | (author, digest, block) :: rest => { t with inner := rest }.request author digest block failed now
  | .finish place value =>
      match t.waiting[place]? with
      | some w => if value ∈ w.seen then t.finish place w value else t
      | none => t
  | .fail place => t.drop place
  | .tick now =>
      { t with log := t.log ++ (t.expired now).map fun digest =>
          .transmit (.syncRequest digest t.name) (t.committee.broadcastAddresses t.name) }
  | .getBlock _ _ _ _ | .write _ _ => t

def step [Bincode] (t : SyncTask) : SyncInput → SyncTask
  | .getBlock author digest block failed => t.getBlock author digest block failed
  | .write digest value => t.write digest value
  | input => if t.alive then t.task input else t

def run [Bincode] (t : SyncTask) (inputs : List SyncInput) : SyncTask := inputs.foldl step t

end SyncTask
end HotstuffDag
