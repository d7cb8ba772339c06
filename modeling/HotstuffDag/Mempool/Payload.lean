import HotstuffDag.Messages

/-! # The payload maker

Its task puts client transactions together until they exceed the maximum size of a payload. Sizes
are sums of lengths of byte strings in memory, which a `usize` holds. -/

namespace HotstuffDag.Mempool
variable [Crypto]

structure Runner where
  transactions : List (List UInt8)
  size : Nat
  maxSize : Nat
  name : PublicKey
  deriving Repr, DecidableEq

namespace Runner

def new (name : PublicKey) (maxSize : Nat) : Runner := ⟨[], 0, maxSize, name⟩

def make (r : Runner) : Payload × Runner :=
  (Payload.new r.transactions r.name, { r with transactions := [], size := 0 })

def push (r : Runner) (tx : List UInt8) : Runner :=
  { r with transactions := r.transactions ++ [tx], size := r.size + tx.length }

def add (r : Runner) (tx : List UInt8) : Option Payload × Runner :=
  if r.size + tx.length > r.maxSize then (some r.make.1, r.make.2.push tx) else (none, r.push tx)

/-- The answer of `PayloadMaker::make` to a payload that the task has made. -/
def answer (payload : Payload) : Option Payload := if payload.size = 0 then none else some payload

/-- What the loop of the task receives. -/
inductive Request
  | client (tx : List UInt8)
  | make
  deriving Repr, DecidableEq

/-- A turn of the loop, with the payload that is sent to the core of the mempool; one that is made on request goes to
who asked for it. -/
def step (r : Runner) : Request → Option Payload × Runner
  | .client tx => r.add tx
  | .make => (none, r.make.2)

def run (r : Runner) (requests : List Request) : Runner := requests.foldl (fun r request => (r.step request).2) r

/-- The payloads that are sent to the core. -/
def sent : Runner → List Request → List Payload
  | _, [] => []
  | r, request :: rest => (r.step request).1.toList ++ (r.step request).2.sent rest

end Runner
end HotstuffDag.Mempool
