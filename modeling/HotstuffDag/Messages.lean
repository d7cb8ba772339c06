import HotstuffDag.Config

/-! # Consensus messages

Every signed object has a `preimage`, the bytes its `digest` hashes. -/

namespace HotstuffDag
open Library.Bytes
variable [Crypto]

/-- `u64::to_le_bytes` -/
def SeqNumber.leBytes (n : SeqNumber) : List UInt8 := Library.Bytes.leBytes 8 n.toNat

/-- The loop of the three certificate checks: distinct names with voting rights, and their weight. -/
def checkVoters (committee : Committee) (reuse : PublicKey → ConsensusError) :
    List PublicKey → List PublicKey → Nat → ConsensusResult Nat
  | [], _, weight => .ok weight
  | name :: rest, used, weight =>
      if name ∈ used then .error (reuse name)
      else if committee.stake name > 0 then
        checkVoters committee reuse rest (name :: used) (weight + committee.stake name)
      else .error (.unknownAuthority name)

/-! ## Blocks, votes and quorum certificates -/

structure QC where
  hash : Digest
  epoch : SeqNumber
  height : SeqNumber
  proposer : PublicKey
  votes : List (PublicKey × Signature)
  deriving Repr, DecidableEq

namespace QC

/-- `QC::default()` -/
def genesis : QC := ⟨Digest.zero, 0, 0, PublicKey.zero, []⟩

/-- `PartialEq` compares the hash and the height only. -/
def eq (a b : QC) : Bool := a.hash = b.hash ∧ a.height = b.height

def preimage (qc : QC) : List UInt8 :=
  qc.hash.bytes ++ (qc.epoch.leBytes ++ (qc.height.leBytes ++ qc.proposer.bytes))

def digest (qc : QC) : Digest := Crypto.sha512 qc.preimage

def verify (qc : QC) (committee : Committee) : ConsensusResult Unit := do
  let weight ← checkVoters committee .authorityReuseinQC (qc.votes.map Prod.fst) [] 0
  ensure (weight ≥ committee.quorumThreshold) .qcRequiresQuorum
  ensure (verifyBatch qc.digest qc.votes) .invalidSignature

end QC

structure Block where
  qc : QC
  author : PublicKey
  height : SeqNumber
  epoch : SeqNumber
  payload : List Digest
  references : List (PublicKey × Digest)
  signature : Signature
  deriving Repr, DecidableEq

namespace Block

/-- `Block::default()` -/
def genesis : Block := ⟨QC.genesis, PublicKey.zero, 0, 0, [], [], Signature.zero⟩

def parent (b : Block) : Digest := b.qc.hash

def preimage (b : Block) : List UInt8 :=
  b.author.bytes ++ (b.height.leBytes ++ (b.epoch.leBytes ++
    (b.payload.flatMap Digest.bytes ++
      ((b.references.flatMap fun x => x.1.bytes ++ x.2.bytes) ++ b.qc.hash.bytes))))

def digest (b : Block) : Digest := Crypto.sha512 b.preimage

/-- `Block::new`, where the signature service signs for `author`. -/
def new (qc : QC) (author : PublicKey) (height epoch : SeqNumber) (payload : List Digest)
    (references : List (PublicKey × Digest)) : Block :=
  let block : Block := ⟨qc, author, height, epoch, payload, references, Signature.zero⟩
  { block with signature := Crypto.sign author block.digest }

def verify (b : Block) (committee : Committee) : ConsensusResult Unit := do
  ensure (committee.stake b.author > 0) (.unknownAuthority b.author)
  ensure (Crypto.verify b.signature b.digest b.author) .invalidSignature
  if b.qc.eq QC.genesis then .ok () else b.qc.verify committee

end Block

structure Vote where
  hash : Digest
  epoch : SeqNumber
  height : SeqNumber
  author : PublicKey
  proposer : PublicKey
  signature : Signature
  deriving Repr, DecidableEq

namespace Vote

def preimage (v : Vote) : List UInt8 :=
  v.hash.bytes ++ (v.epoch.leBytes ++ (v.height.leBytes ++ v.proposer.bytes))

def digest (v : Vote) : Digest := Crypto.sha512 v.preimage

/-- `Vote::new` for the block, signed by `author`. -/
def new (block : Block) (author : PublicKey) : Vote :=
  let vote : Vote := ⟨block.digest, block.epoch, block.height, author, block.author, Signature.zero⟩
  { vote with signature := Crypto.sign author vote.digest }

def verify (v : Vote) (committee : Committee) : ConsensusResult Unit := do
  ensure (committee.stake v.author > 0) (.unknownAuthority v.author)
  ensure (Crypto.verify v.signature v.digest v.author) .invalidSignature

end Vote

/-! ## Timeouts and timeout certificates -/

/-- What a timeout signs, and what a timeout certificate hashes for each of its entries. -/
def timeoutPreimage (epoch height : SeqNumber) : List UInt8 := epoch.leBytes ++ height.leBytes

structure Timeout where
  highQc : QC
  epoch : SeqNumber
  author : PublicKey
  signature : Signature
  deriving Repr, DecidableEq

namespace Timeout

def preimage (t : Timeout) : List UInt8 := timeoutPreimage t.epoch t.highQc.height

def digest (t : Timeout) : Digest := Crypto.sha512 t.preimage

def new (highQc : QC) (epoch : SeqNumber) (author : PublicKey) : Timeout :=
  let timeout : Timeout := ⟨highQc, epoch, author, Signature.zero⟩
  { timeout with signature := Crypto.sign author timeout.digest }

def verify (t : Timeout) (committee : Committee) : ConsensusResult Unit := do
  ensure (committee.stake t.author > 0) (.unknownAuthority t.author)
  ensure (Crypto.verify t.signature t.digest t.author) .invalidSignature
  if t.highQc.eq QC.genesis then .ok () else t.highQc.verify committee

end Timeout

structure TC where
  epoch : SeqNumber
  votes : List (PublicKey × Signature × SeqNumber)
  deriving Repr, DecidableEq

namespace TC

/-- The digest `verify` recomputes for an entry of the given height. -/
def entryDigest (tc : TC) (height : SeqNumber) : Digest :=
  Crypto.sha512 (timeoutPreimage tc.epoch height)

def verify (tc : TC) (committee : Committee) : ConsensusResult Unit := do
  let weight ← checkVoters committee .authorityReuseinTC (tc.votes.map Prod.fst) [] 0
  ensure (weight ≥ committee.quorumThreshold) .tcRequiresQuorum
  ensure (tc.votes.all fun (author, signature, height) =>
    Crypto.verify signature (tc.entryDigest height) author) .invalidSignature

def highQcRounds (tc : TC) : List SeqNumber := tc.votes.map fun (_, _, height) => height

end TC

/-! ## Messages of the view-change agreement -/

/-- What an `ABAVal` and an `ABAProof` hash. -/
def abaPreimage (epoch round val : SeqNumber) (phase : UInt8) : List UInt8 :=
  epoch.leBytes ++ (round.leBytes ++ (val.leBytes ++ [phase]))

structure ABAVal where
  author : PublicKey
  epoch : SeqNumber
  round : SeqNumber
  phase : UInt8
  val : UInt64
  signature : Signature
  deriving Repr, DecidableEq

namespace ABAVal

def preimage (v : ABAVal) : List UInt8 := abaPreimage v.epoch v.round v.val v.phase

def digest (v : ABAVal) : Digest := Crypto.sha512 v.preimage

def new (author : PublicKey) (epoch round : SeqNumber) (val : UInt64) (phase : UInt8) : ABAVal :=
  let abaVal : ABAVal := ⟨author, epoch, round, phase, val, Signature.zero⟩
  { abaVal with signature := Crypto.sign author abaVal.digest }

def verify (v : ABAVal) : ConsensusResult Unit :=
  ensure (Crypto.verify v.signature v.digest v.author) .invalidSignature

end ABAVal

structure ABAProof where
  epoch : SeqNumber
  round : SeqNumber
  val : UInt64
  phase : UInt8
  votes : List (PublicKey × Signature)
  /-- Set on a certificate of `f + 1` values. -/
  tag : Bool
  deriving Repr, DecidableEq

namespace ABAProof

def preimage (p : ABAProof) : List UInt8 := abaPreimage p.epoch p.round p.val p.phase

def digest (p : ABAProof) : Digest := Crypto.sha512 p.preimage

def verify (p : ABAProof) (committee : Committee) : ConsensusResult Unit := do
  let weight ← checkVoters committee (.authorityReuseinABA · p.phase) (p.votes.map Prod.fst) [] 0
  ensure (weight ≥ committee.quorumThreshold) .qcRequiresQuorum
  ensure (verifyBatch p.digest p.votes) .invalidSignature

end ABAProof

structure RandomnessShare where
  epoch : SeqNumber
  round : SeqNumber
  author : PublicKey
  signatureShare : SignatureShare
  deriving Repr, DecidableEq

namespace RandomnessShare

/-- A share signs the bytes of a timeout: an epoch and a number. -/
def digest (s : RandomnessShare) : Digest := Crypto.sha512 (timeoutPreimage s.epoch s.round)

def new (epoch round : SeqNumber) (author : PublicKey) : RandomnessShare :=
  let share : RandomnessShare := ⟨epoch, round, author, 0⟩
  { share with signatureShare := Crypto.signShare author share.digest }

/-- `committee.id` has no panic here: the stake check before it finds the author. -/
def verify (s : RandomnessShare) (committee : Committee) : ConsensusResult Unit := do
  ensure (committee.stake s.author > 0) (.unknownAuthority s.author)
  ensure (match committee.id s.author with
    | some id => Crypto.verifyShare id s.signatureShare s.digest
    | none => false) (.invalidThresholdSignature s.author)

end RandomnessShare

/-! ## Payloads and the wire -/

/-- A mempool payload: signed by the same service, stored in the same database. -/
structure Payload where
  transactions : List (List UInt8)
  author : PublicKey
  signature : Signature
  deriving Repr, DecidableEq

namespace Payload

def preimage (p : Payload) : List UInt8 := p.author.bytes ++ p.transactions.flatten

def digest (p : Payload) : Digest := Crypto.sha512 p.preimage

def new (transactions : List (List UInt8)) (author : PublicKey) : Payload :=
  let payload : Payload := ⟨transactions, author, Signature.zero⟩
  { payload with signature := Crypto.sign author payload.digest }

def size (p : Payload) : Nat := (p.transactions.map List.length).sum

end Payload

inductive ConsensusMessage
  | propose (block : Block)
  | vote (vote : Vote)
  | loopBack (block : Block)
  | syncRequest (digest : Digest) (sender : PublicKey)
  | syncReply (block : Block)
  | timeout (timeout : Timeout)
  | tc (tc : TC)
  | abaVal (abaVal : ABAVal)
  | abaProof (proof : ABAProof)
  | abaCoinShare (share : RandomnessShare)
  deriving Repr, DecidableEq

end HotstuffDag
