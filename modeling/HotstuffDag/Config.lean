import HotstuffDag.Error

/-! # The committee -/

namespace HotstuffDag

abbrev SocketAddr := String

structure Authority where
  name : PublicKey
  /-- The index of the node's share in the threshold key set. -/
  id : Nat
  /-- `Stake`, a `u32`. Stakes are added up over distinct authorities of one committee, and
  `Committee.fits` keeps those sums within `u32`. -/
  stake : Nat
  address : SocketAddr
  smvbaAddress : SocketAddr
  deriving Repr, DecidableEq

/-- The authority map, listed in the iteration order of one node. -/
structure Committee where
  authorities : List Authority
  nodup : (authorities.map Authority.name).Nodup
  fits : (authorities.map Authority.stake).sum < 2 ^ 32
  deriving DecidableEq

namespace Committee

def keys (c : Committee) : List PublicKey := c.authorities.map Authority.name

def size (c : Committee) : Nat := c.authorities.length

def get? (c : Committee) (name : PublicKey) : Option Authority :=
  c.authorities.find? fun x => x.name = name

def stake (c : Committee) (name : PublicKey) : Nat :=
  match c.get? name with
  | some x => x.stake
  | none => 0

/-- `authorities.get(&name).unwrap().id`; `none` where the source panics. -/
def id (c : Committee) (name : PublicKey) : Option Nat := (c.get? name).map Authority.id

def totalVotes (c : Committee) : Nat := (c.authorities.map Authority.stake).sum

def quorumThreshold (c : Committee) : Nat := 2 * ((c.totalVotes - 1) / 3) + 1

def randomCoinThreshold (c : Committee) : Nat := (c.totalVotes - 1) / 3 + 1

def address (c : Committee) (name : PublicKey) : ConsensusResult SocketAddr :=
  match c.get? name with
  | some x => .ok x.address
  | none => .error (.notInCommittee name)

def smvbaAddress (c : Committee) (name : PublicKey) : ConsensusResult SocketAddr :=
  match c.get? name with
  | some x => .ok x.smvbaAddress
  | none => .error (.notInCommittee name)

def broadcastAddresses (c : Committee) (myself : PublicKey) : List SocketAddr :=
  (c.authorities.filter fun x => x.name ≠ myself).map Authority.address

def smvbaBroadcastAddresses (c : Committee) (myself : PublicKey) : List SocketAddr :=
  (c.authorities.filter fun x => x.name ≠ myself).map Authority.smvbaAddress

end Committee

structure Parameters where
  maxPayloadSize : Nat
  deriving Repr, DecidableEq

end HotstuffDag
