import HotstuffDag.Mempool.Run
import HotstuffDag.System

/-! # Nodes with their mempools

The system, with the mempool of each honest node beside it. Both have the key of the node: what the payload maker
signs is signed with it as well. -/

namespace HotstuffDag
open Library

structure Cluster where
  system : System
  mempoolCommittee : PublicKey → Mempool.Committee
  mempoolParameters : PublicKey → Mempool.Parameters

/-- What has happened to the hosts, the latest input first. -/
abbrev HostTrace := List (PublicKey × HostInput)

/-- The payloads that a mempool has made. -/
def madePayloads (l : List Mempool.Event) : List Payload :=
  l.filterMap fun
    | .made p => some p
    | _ => none

section
variable [Crypto] [Bincode] [Mempool.PayloadBincode]

/-- The bytes whose signatures a host has let out. -/
def Host.released (host : Host) : List (List UInt8) :=
  HotstuffDag.released host.node.log ++ (madePayloads host.mempool.log).map Payload.preimage

namespace Cluster
variable (cl : Cluster)

def start (key : PublicKey) : Host :=
  .start (cl.system.first key) (cl.system.env key) (.new key (cl.mempoolCommittee key) (cl.mempoolParameters key))

def hostAt : HostTrace → PublicKey → Host
  | [], key => cl.start key
  | (name, input) :: before, key => if name = key then (hostAt before key).step input else hostAt before key

/-- A signature of an honest key that verifies was made by its host. -/
def Authentic (trace : HostTrace) (claims : List SignatureClaim) : Prop :=
  ∀ claim ∈ claims, cl.system.Honest claim.key →
    Crypto.verify claim.signature (Crypto.sha512 claim.preimage) claim.key = true →
    claim.preimage ∈ (cl.hostAt trace claim.key).released

instance (trace : HostTrace) (claims : List SignatureClaim) : Decidable (cl.Authentic trace claims) :=
  inferInstanceAs (Decidable (∀ claim ∈ claims, _))

/-- What an input may be after a trace. -/
def Allowed (trace : HostTrace) : HostInput → Prop
  | .consensus _ message _ => cl.Authentic trace message.claims
  | .mempool _ => True

instance (trace : HostTrace) (input : HostInput) : Decidable (cl.Allowed trace input) := by
  cases input <;> unfold Allowed <;> infer_instance

/-- The traces of the cluster. -/
def Valid : HostTrace → Prop
  | [] => True
  | (_, input) :: before => Valid before ∧ cl.Allowed before input

instance : DecidablePred cl.Valid := by
  intro trace
  induction trace with
  | nil => exact inferInstanceAs (Decidable True)
  | cons step before ih => exact inferInstanceAs (Decidable (_ ∧ _))

end Cluster
end
end HotstuffDag
