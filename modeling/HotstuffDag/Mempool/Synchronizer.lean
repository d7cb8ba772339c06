import HotstuffDag.Mempool.Core

/-! # The task of the mempool synchronizer

It holds blocks whose payloads are missing. A waiter reads the missing payloads with `notify_read`;
it also ends when its cancel channel has a message or has been closed. -/

namespace HotstuffDag.Mempool
open Library

/-- A future in `waiting`, with a number of its own. -/
structure Waiter where
  id : Nat
  missing : List Digest
  block : Block
  deriving Repr, DecidableEq

structure Synchronizer where
  waiting : List Waiter
  /-- The height of a block, and the waiter whose `tx_cancel` is kept. -/
  pending : Map Digest (SeqNumber × Nat)
  /-- The height of the block that asked first, and the time. -/
  requests : Map Digest (SeqNumber × Nat)
  /-- The number of waiters so far. -/
  created : Nat
  /-- The task ends with a panic when it cannot send a request. -/
  alive : Bool
  deriving Repr, DecidableEq

namespace Synchronizer

def new : Synchronizer := ⟨[], Map.empty, Map.empty, 0, true⟩

/-- The cancel channel of the waiter has a message, or nobody holds its sender any more. Both happen
as soon as its entry leaves `pending`. -/
def cancelled (t : Synchronizer) (w : Waiter) : Bool := t.pending.values.all fun entry => entry.2 ≠ w.id

def wait (t : Synchronizer) (missing : List Digest) (block : Block) [Crypto] : Synchronizer :=
  { t with
    waiting := t.waiting ++ [⟨t.created, missing, block⟩]
    pending := t.pending.insert block.digest (block.height, t.created)
    created := t.created + 1 }

/-- What is missing and has not been requested yet. -/
def unrequested (t : Synchronizer) (missing : List Digest) : List Digest :=
  missing.filter fun digest => !t.requests.contains digest

def request (t : Synchronizer) (digests : List Digest) (round : SeqNumber) (now : Nat) : Synchronizer :=
  { t with requests := digests.foldl (fun requests digest => requests.insert digest (round, now)) t.requests }

/-- `Clean`: the entries up to the round are dropped, and their waiters cancelled. -/
def clean (t : Synchronizer) (round : SeqNumber) : Synchronizer :=
  { t with
    pending := t.pending.retainValues fun entry => entry.1 > round
    requests := t.requests.retainValues fun entry => entry.1 > round }

/-- A waiter leaves `waiting`. -/
def drop (t : Synchronizer) (id : Nat) : Synchronizer := { t with waiting := t.waiting.filter fun w => w.id ≠ id }

/-- A waiter has returned `Ok(Some(block))`. -/
def finish (t : Synchronizer) (w : Waiter) [Crypto] : Synchronizer :=
  { t.drop w.id with
    pending := t.pending.remove w.block.digest
    requests := w.block.payload.foldl Map.remove t.requests }

/-- The requests that the timer sends again. -/
def expired (t : Synchronizer) (delay now : Nat) : List Digest :=
  (t.requests.entries.filter fun entry => entry.2.2 + delay < now).map Prod.fst

end Synchronizer
end HotstuffDag.Mempool
