import HotstuffDag.Crypto

/-! # Consensus errors

The variants of `ConsensusError` that the modelled functions return. -/

namespace HotstuffDag

/-- Block heights, epochs and agreement rounds: `u64`. -/
abbrev SeqNumber := UInt64

inductive ConsensusError
  | serializationError
  | storeError
  | notInCommittee (name : PublicKey)
  | invalidSignature
  | invalidThresholdSignature (name : PublicKey)
  | authorityReuseinQC (name : PublicKey)
  | authorityReuseinABA (name : PublicKey) (phase : UInt8)
  | authorityReuseinTC (name : PublicKey)
  | authorityReuseinCoin (name : PublicKey)
  | unknownAuthority (name : PublicKey)
  | qcRequiresQuorum
  | tcRequiresQuorum
  | wrongAuthor (digest : Digest) (author : PublicKey) (height : SeqNumber)
  | invalidPayload
  | invalidPhase (phase : UInt8)
  deriving Repr, DecidableEq

abbrev ConsensusResult (α : Type) := Except ConsensusError α

/-- The `ensure!` macro. -/
def ensure (condition : Bool) (error : ConsensusError) : ConsensusResult Unit :=
  if condition then .ok () else .error error

end HotstuffDag
