import HotstuffDag.Core.Run
import Mathlib.Data.Finset.Card

/-! # The system

Honest nodes run the code; the network, the clients and the faulty authorities choose what reaches
them and when. They choose freely, but for signatures of honest nodes. -/

namespace HotstuffDag
open Library

structure System where
  committee : Committee
  /-- The committee in the iteration order of each node. -/
  ordered : PublicKey → Committee
  perm : ∀ key, (ordered key).authorities.Perm committee.authorities
  parameters : PublicKey → Parameters
  /-- What the environment answers before the loop of each node. -/
  env : PublicKey → Env
  faulty : Finset PublicKey

/-- What has happened to the nodes, the latest input first. -/
abbrev Trace := List (PublicKey × Input)

/-- A signature, its key and the bytes it is for. -/
structure SignatureClaim where
  key : PublicKey
  preimage : List UInt8
  signature : Signature

/-! ## Signatures in messages -/

def QC.claims (qc : QC) : List SignatureClaim := qc.votes.map fun (key, signature) => ⟨key, qc.preimage, signature⟩

def Block.claims (b : Block) : List SignatureClaim := ⟨b.author, b.preimage, b.signature⟩ :: b.qc.claims

def Vote.claims (v : Vote) : List SignatureClaim := [⟨v.author, v.preimage, v.signature⟩]

def Timeout.claims (t : Timeout) : List SignatureClaim := ⟨t.author, t.preimage, t.signature⟩ :: t.highQc.claims

def TC.claims (tc : TC) : List SignatureClaim :=
  tc.votes.map fun (key, signature, height) => ⟨key, timeoutPreimage tc.epoch height, signature⟩

def ABAVal.claims (v : ABAVal) : List SignatureClaim := [⟨v.author, v.preimage, v.signature⟩]

def ABAProof.claims (p : ABAProof) : List SignatureClaim :=
  p.votes.map fun (key, signature) => ⟨key, p.preimage, signature⟩

def ConsensusMessage.claims : ConsensusMessage → List SignatureClaim
  | .propose b | .loopBack b | .syncReply b => b.claims
  | .vote v => v.claims
  | .syncRequest _ _ | .abaCoinShare _ => []
  | .timeout t => t.claims
  | .tc certificate => certificate.claims
  | .abaVal v => v.claims
  | .abaProof p => p.claims

/-- The bytes whose signatures a node has let out. An `ABAVal` leaves with its broadcast, all else
when it is signed. -/
def released (l : List Event) : List (List UInt8) :=
  l.filterMap fun
    | .signed (.abaVal _) => none
    | .signed x => some x.preimage
    | .transmit _ (.abaVal v) _ => some v.preimage
    | _ => none

namespace System
variable [Crypto] [Bincode] (sys : System)

def Honest (key : PublicKey) : Prop := key ∈ sys.committee.keys ∧ key ∉ sys.faulty

instance (key : PublicKey) : Decidable (sys.Honest key) := inferInstanceAs (Decidable (_ ∧ _))

/-- The core of a node before it starts. -/
def first (key : PublicKey) : Core := Core.new key (sys.ordered key) (sys.parameters key) Map.empty

def start (key : PublicKey) : Node := Node.start (sys.first key) (sys.env key)

def nodeAt : Trace → PublicKey → Node
  | [], key => sys.start key
  | (name, input) :: before, key => if name = key then (nodeAt before key).step input else nodeAt before key

/-- A signature of an honest key that verifies was made by its node. -/
def Authentic (trace : Trace) (claims : List SignatureClaim) : Prop :=
  ∀ claim ∈ claims, sys.Honest claim.key →
    Crypto.verify claim.signature (Crypto.sha512 claim.preimage) claim.key = true →
    claim.preimage ∈ released (sys.nodeAt trace claim.key).log

instance (trace : Trace) (claims : List SignatureClaim) : Decidable (sys.Authentic trace claims) :=
  inferInstanceAs (Decidable (∀ claim ∈ claims, _))

/-- What an input may be after a trace. -/
def Allowed (trace : Trace) : Input → Prop
  | .deliver _ message _ => sys.Authentic trace message.claims
  | .makePayload _ | .storePayload _ => True

instance (trace : Trace) (input : Input) : Decidable (sys.Allowed trace input) := by
  cases input <;> unfold Allowed <;> infer_instance

/-- The traces of the system. -/
def Valid : Trace → Prop
  | [] => True
  | (_, input) :: before => Valid before ∧ sys.Allowed before input

instance : DecidablePred sys.Valid := by
  intro trace
  induction trace with
  | nil => exact inferInstanceAs (Decidable True)
  | cons step before ih => exact inferInstanceAs (Decidable (_ ∧ _))

end System
end HotstuffDag
