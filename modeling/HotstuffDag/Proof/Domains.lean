import HotstuffDag.Sample

/-! # Signed bytes

Five kinds of objects are signed with one key, and none of their preimages is tagged. -/

namespace HotstuffDag
open Library.Bytes

@[simp] theorem SeqNumber.leBytes_length (n : SeqNumber) : n.leBytes.length = 8 :=
  Library.Bytes.leBytes_length 8 _

@[simp] theorem SeqNumber.leBytes_inj {a b : SeqNumber} : a.leBytes = b.leBytes ↔ a = b := by
  refine ⟨fun h => ?_, fun h => h ▸ rfl⟩
  exact UInt64.toNat_inj.mp (leBytes_injective a.toNat_lt b.toNat_lt h)

/-! ## Preimages and their lengths -/

theorem digests_length (l : List Digest) : (l.flatMap Digest.bytes).length = 32 * l.length :=
  flatMap_length Digest.bytes_length l

theorem references_length (l : List (PublicKey × Digest)) :
    (l.flatMap fun x => x.1.bytes ++ x.2.bytes).length = 64 * l.length :=
  flatMap_length (fun _ => by simp) l

theorem timeoutPreimage_length (epoch height : SeqNumber) :
    (timeoutPreimage epoch height).length = 16 := by
  simp [timeoutPreimage]

theorem timeoutPreimage_inj {epoch height epoch' height' : SeqNumber} :
    timeoutPreimage epoch height = timeoutPreimage epoch' height' ↔ epoch = epoch' ∧ height = height' := by
  simp [timeoutPreimage, append_eq_iff]

theorem abaPreimage_length (epoch round val : SeqNumber) (phase : UInt8) :
    (abaPreimage epoch round val phase).length = 25 := by
  simp [abaPreimage]

theorem abaPreimage_inj {epoch round val epoch' round' val' : SeqNumber} {phase phase' : UInt8} :
    abaPreimage epoch round val phase = abaPreimage epoch' round' val' phase' ↔
      epoch = epoch' ∧ round = round' ∧ val = val' ∧ phase = phase' := by
  simp [abaPreimage, append_eq_iff]

theorem Vote.preimage_length (v : Vote) : v.preimage.length = 80 := by
  simp [Vote.preimage]

theorem QC.preimage_length (qc : QC) : qc.preimage.length = 80 := by
  simp [QC.preimage]

theorem Block.preimage_length (b : Block) :
    b.preimage.length = 80 + 32 * b.payload.length + 64 * b.references.length := by
  simp only [Block.preimage, List.length_append, digests_length, references_length, PublicKey.bytes_length,
    SeqNumber.leBytes_length, Digest.bytes_length]
  omega

theorem Payload.preimage_length (p : Payload) : 32 ≤ p.preimage.length := by
  simp [Payload.preimage]

/-! ## Kinds of signed objects -/

inductive Kind
  | block
  | vote
  | timeout
  | abaVal
  | payload
  deriving DecidableEq

namespace Signed

def kind : Signed → Kind
  | .block _ => .block
  | .vote _ => .vote
  | .timeout _ => .timeout
  | .abaVal _ => .abaVal
  | .payload _ => .payload

/-- The owner of the key. -/
def signer : Signed → PublicKey
  | .block b => b.author
  | .vote v => v.author
  | .timeout t => t.author
  | .abaVal v => v.author
  | .payload p => p.author

/-- A vote for the bytes of a block without payload and references. -/
def BlockVote (b : Block) (v : Vote) : Prop :=
  b.payload = [] ∧ b.references = [] ∧ v.hash.bytes = b.author.bytes ∧ v.epoch = b.height ∧
    v.height = b.epoch ∧ v.proposer.bytes = b.qc.hash.bytes

/-- Transactions that spell a block of the same author. -/
def BlockPayload (b : Block) (p : Payload) : Prop :=
  p.transactions.flatten = b.height.leBytes ++ (b.epoch.leBytes ++ (b.payload.flatMap Digest.bytes ++
    ((b.references.flatMap fun x => x.1.bytes ++ x.2.bytes) ++ b.qc.hash.bytes)))

/-- Transactions that spell a vote for a digest equal to the key of its author. -/
def VotePayload (v : Vote) (p : Payload) : Prop :=
  v.hash.bytes = p.author.bytes ∧
    p.transactions.flatten = v.epoch.leBytes ++ (v.height.leBytes ++ v.proposer.bytes)

/-- The objects of different kinds whose preimages are the same bytes. -/
def Overlap : Signed → Signed → Prop
  | .block b, .vote v | .vote v, .block b => BlockVote b v
  | .block b, .payload p | .payload p, .block b => BlockPayload b p
  | .vote v, .payload p | .payload p, .vote v => VotePayload v p
  | _, _ => False

theorem block_eq_vote_iff {b : Block} {v : Vote} : b.preimage = v.preimage ↔ BlockVote b v := by
  constructor
  · intro same
    have lengths := congrArg List.length same
    rw [Block.preimage_length, Vote.preimage_length] at lengths
    have noPayload : b.payload = [] := List.length_eq_zero_iff.mp (by omega)
    have noReferences : b.references = [] := List.length_eq_zero_iff.mp (by omega)
    simp only [Block.preimage, Vote.preimage, noPayload, noReferences, List.flatMap_nil, List.nil_append,
      append_eq_iff, Digest.bytes_length, PublicKey.bytes_length, SeqNumber.leBytes_length,
      SeqNumber.leBytes_inj] at same
    obtain ⟨hash, epoch, height, proposer⟩ := same
    exact ⟨noPayload, noReferences, hash.symm, epoch.symm, height.symm, proposer.symm⟩
  · rintro ⟨noPayload, noReferences, hash, epoch, height, proposer⟩
    simp [Block.preimage, Vote.preimage, noPayload, noReferences, hash, epoch, height, proposer]

theorem block_eq_payload_iff {b : Block} {p : Payload} (signer : b.author = p.author) :
    b.preimage = p.preimage ↔ BlockPayload b p := by
  simp only [Block.preimage, Payload.preimage, BlockPayload, signer, List.append_cancel_left_eq]
  exact eq_comm

theorem vote_eq_payload_iff {v : Vote} {p : Payload} : v.preimage = p.preimage ↔ VotePayload v p := by
  rw [Vote.preimage, Payload.preimage, append_eq_iff (by simp), VotePayload]
  exact and_congr_right fun _ => eq_comm

/-- Timeouts and agreement values are of lengths that nothing else has. -/
theorem preimage_length_ne {x y : Signed} (short : x.kind = .timeout ∨ x.kind = .abaVal)
    (kinds : x.kind ≠ y.kind) : x.preimage ≠ y.preimage := by
  intro same
  have lengths := congrArg List.length same
  cases x with
  | block _ | vote _ | payload _ => simp [kind] at short
  | timeout t =>
      have := timeoutPreimage_length t.epoch t.highQc.height
      cases y with
      | block b => have := b.preimage_length; simp only [preimage, Timeout.preimage] at lengths; omega
      | vote v => have := v.preimage_length; simp only [preimage, Timeout.preimage] at lengths; omega
      | timeout _ => exact kinds rfl
      | abaVal v =>
          have := abaPreimage_length v.epoch v.round v.val v.phase
          simp only [preimage, Timeout.preimage, ABAVal.preimage] at lengths
          omega
      | payload p => have := p.preimage_length; simp only [preimage, Timeout.preimage] at lengths; omega
  | abaVal w =>
      have := abaPreimage_length w.epoch w.round w.val w.phase
      cases y with
      | block b => have := b.preimage_length; simp only [preimage, ABAVal.preimage] at lengths; omega
      | vote v => have := v.preimage_length; simp only [preimage, ABAVal.preimage] at lengths; omega
      | timeout t =>
          have := timeoutPreimage_length t.epoch t.highQc.height
          simp only [preimage, Timeout.preimage, ABAVal.preimage] at lengths
          omega
      | abaVal _ => exact kinds rfl
      | payload p => have := p.preimage_length; simp only [preimage, ABAVal.preimage] at lengths; omega

theorem preimage_eq_iff {x y : Signed} (kinds : x.kind ≠ y.kind) (signer : x.signer = y.signer) :
    x.preimage = y.preimage ↔ Overlap x y := by
  cases x with
  | timeout t =>
      have differ := preimage_length_ne (x := .timeout t) (.inl rfl) kinds
      cases y <;> simpa [Overlap] using differ
  | abaVal v =>
      have differ := preimage_length_ne (x := .abaVal v) (.inr rfl) kinds
      cases y <;> simpa [Overlap] using differ
  | block b =>
      cases y with
      | block _ => exact absurd rfl kinds
      | vote v => exact block_eq_vote_iff
      | payload p => exact block_eq_payload_iff signer
      | timeout t => simpa [Overlap] using (preimage_length_ne (x := .timeout t) (.inl rfl) kinds.symm).symm
      | abaVal v => simpa [Overlap] using (preimage_length_ne (x := .abaVal v) (.inr rfl) kinds.symm).symm
  | vote v =>
      cases y with
      | block b => exact eq_comm.trans block_eq_vote_iff
      | vote _ => exact absurd rfl kinds
      | payload p => exact vote_eq_payload_iff
      | timeout t => simpa [Overlap] using (preimage_length_ne (x := .timeout t) (.inl rfl) kinds.symm).symm
      | abaVal v => simpa [Overlap] using (preimage_length_ne (x := .abaVal v) (.inr rfl) kinds.symm).symm
  | payload p =>
      cases y with
      | block b => exact eq_comm.trans (block_eq_payload_iff signer.symm)
      | vote v => exact eq_comm.trans vote_eq_payload_iff
      | payload _ => exact absurd rfl kinds
      | timeout t => simpa [Overlap] using (preimage_length_ne (x := .timeout t) (.inl rfl) kinds.symm).symm
      | abaVal v => simpa [Overlap] using (preimage_length_ne (x := .abaVal v) (.inr rfl) kinds.symm).symm

/-! ## Digests of different kinds -/

section
variable [Crypto]

def digest (x : Signed) : Digest := Crypto.sha512 x.preimage

/-- Digests of different kinds agree on the overlap of their preimages, and only there; a signature
made for one kind passes as one of the other kind just then. -/
theorem digest_eq_iff_overlap (x y : Signed) (kinds : x.kind ≠ y.kind) (signer : x.signer = y.signer)
    (collisionFree : x.digest = y.digest → x.preimage = y.preimage)
    (binding : Crypto.verify (Crypto.sign x.signer x.digest) y.digest x.signer = true →
      x.digest = y.digest) :
    (x.digest = y.digest ↔ Overlap x y) ∧
      (Crypto.verify (Crypto.sign x.signer x.digest) y.digest y.signer = true ↔ Overlap x y) := by
  have digests : x.digest = y.digest ↔ Overlap x y := by
    rw [← preimage_eq_iff kinds signer]
    exact ⟨collisionFree, fun same => congrArg Crypto.sha512 same⟩
  refine ⟨digests, ?_⟩
  rw [← digests]
  constructor
  · intro accepted
    rw [← signer] at accepted
    exact binding accepted
  · intro same
    rw [← signer, ← same]
    exact Crypto.verify_sign _ _

end
end Signed

namespace Sample

/-- The bytes a client sends to have them signed as a block of height and epoch one. -/
def forgedTransaction : List UInt8 :=
  (1 : SeqNumber).leBytes ++ ((1 : SeqNumber).leBytes ++ Digest.zero.bytes)

def forgedPayload : Payload := Payload.new [forgedTransaction] (key 2)

def forgedBlock : Block := ⟨QC.genesis, key 2, 1, 1, [], [], forgedPayload.signature⟩

/-- The signature of a payload of client transactions verifies as that of a block. -/
theorem payload_signature_signs_block :
    Signed.kind (.block forgedBlock) ≠ Signed.kind (.payload forgedPayload) ∧
      Signed.signer (.block forgedBlock) = Signed.signer (.payload forgedPayload) ∧
      Signed.preimage (.block forgedBlock) = Signed.preimage (.payload forgedPayload) ∧
      Signed.digest (.block forgedBlock) = Signed.digest (.payload forgedPayload) ∧
      forgedBlock.verify four = .ok () := by
  decide +kernel

theorem vote_timeout_digests :
    let x : Signed := .vote (Vote.new Block.genesis (key 1))
    let y : Signed := .timeout (Timeout.new QC.genesis 0 (key 1))
    (x.digest = y.digest ↔ Signed.Overlap x y) ∧
      (Crypto.verify (Crypto.sign x.signer x.digest) y.digest y.signer = true ↔ Signed.Overlap x y) :=
  Signed.digest_eq_iff_overlap _ _ (by decide) rfl (by decide +kernel) (by decide +kernel)

end Sample
end HotstuffDag
