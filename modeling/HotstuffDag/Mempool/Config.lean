import HotstuffDag.Core.State

/-! # The committee, the parameters and the errors of the mempool -/

namespace HotstuffDag.Mempool

inductive MempoolError
  | storeError
  | unknownAuthority (name : PublicKey)
  | invalidSignature
  | serializationError
  | payloadTooBig
  | mempoolFull
  | notInCommittee (name : PublicKey)
  deriving Repr, DecidableEq

abbrev MempoolResult (α : Type) := Except MempoolError α

structure Authority where
  name : PublicKey
  mempoolAddress : SocketAddr
  deriving Repr, DecidableEq

/-- The authority map, listed in the iteration order of one node. -/
structure Committee where
  authorities : List Authority
  nodup : (authorities.map Authority.name).Nodup
  deriving DecidableEq

namespace Committee

/-- `exists` -/
def hasAuthority (c : Committee) (name : PublicKey) : Bool := name ∈ c.authorities.map Authority.name

def mempoolAddress (c : Committee) (name : PublicKey) : MempoolResult SocketAddr :=
  match c.authorities.find? fun x => x.name = name with
  | some x => .ok x.mempoolAddress
  | none => .error (.notInCommittee name)

def broadcastAddresses (c : Committee) (myself : PublicKey) : List SocketAddr :=
  (c.authorities.filter fun x => x.name ≠ myself).map Authority.mempoolAddress

end Committee

structure Parameters where
  queueCapacity : Nat
  /-- In milliseconds, as the clock of the synchronizer. -/
  syncRetryDelay : Nat
  maxPayloadSize : Nat
  deriving Repr, DecidableEq

end HotstuffDag.Mempool
