import HotstuffDag.Proof.System
import HotstuffDag.Proof.VoteOnce

/-! # One certificate for each height -/

namespace HotstuffDag
open Library Library.Bytes

/-- No object a node has signed spells, after its first 32 bytes, the epoch, the height and the
proposer of a vote the node has signed. -/
def NoVoteSpelled (l : List Event) : Prop :=
  ∀ x v, Event.signed x ∈ l → x.kind ≠ .vote → Event.signed (.vote v) ∈ l →
    x.preimage.drop 32 ≠ v.preimage.drop 32

/-- All but the values of the agreement are signed with the key of the node. -/
theorem signerInvariant [Crypto] [Bincode] (ok : Input → Prop) :
    Invariant ok fun _ k l => ∀ x, Event.signed x ∈ l → x.signer = k.name ∨ x.kind = .abaVal where
  act := by
    intro s s' _ act h x signed
    rw [act.frame.name]
    rcases act.signer signed with old | new
    · exact h x old
    · exact new
  blind := fun _ _ h => h
  makePayload := by
    intro v k l transactions h x signed
    simp only [List.mem_append, List.mem_singleton, Event.signed.injEq] at signed
    rcases signed with old | rfl
    · exact h x old
    · exact .inl rfl
  storePayload := fun _ _ h => h

theorem QC.preimage_eq_vote {qc : QC} {v : Vote} :
    qc.preimage = v.preimage ↔ qc.hash = v.hash ∧ qc.epoch = v.epoch ∧ qc.height = v.height ∧
      qc.proposer = v.proposer := by
  simp [QC.preimage, Vote.preimage, append_eq_iff]

theorem QC.preimage_drop (qc : QC) :
    qc.preimage.drop 32 = qc.epoch.leBytes ++ (qc.height.leBytes ++ qc.proposer.bytes) := by
  rw [QC.preimage, List.drop_left' (Digest.bytes_length qc.hash)]

/-- Bytes of a certificate are those of a vote, or they start with the key of their signer. -/
theorem spelled_cases {x : Signed} {qc : QC} (same : x.preimage = qc.preimage) :
    (∃ v, x = .vote v) ∨ qc.hash.bytes = x.signer.bytes := by
  have spelled : qc.preimage =
      (⟨qc.hash, qc.epoch, qc.height, PublicKey.zero, qc.proposer, Signature.zero⟩ : Vote).preimage := rfl
  rw [spelled] at same
  cases x with
  | vote v => exact .inl ⟨v, rfl⟩
  | block b => exact .inr (Signed.block_eq_vote_iff.mp same).2.2.1
  | payload p => exact .inr (Signed.vote_eq_payload_iff.mp same.symm).1
  | timeout t => exact absurd same (Signed.preimage_length_ne (x := .timeout t) (y := .vote _) (.inl rfl) (by simp [Signed.kind]))
  | abaVal v => exact absurd same (Signed.preimage_length_ne (x := .abaVal v) (y := .vote _) (.inr rfl) (by simp [Signed.kind]))

/-- The bytes of a certificate that a node has let out are those of a vote of its, or its key. -/
theorem vote_of_released {l : List Event} {name : PublicKey} {qc : QC}
    (signer : ∀ x, Event.signed x ∈ l → x.signer = name ∨ x.kind = .abaVal) (h : qc.preimage ∈ released l) :
    ∃ x, Event.signed x ∈ l ∧ x.preimage = qc.preimage ∧
      ((∃ v, x = .vote v) ∨ x.kind ≠ .vote ∧ qc.hash.bytes = name.bytes) := by
  rcases mem_released h with ⟨x, signed, kind, same⟩ | ⟨v, -, same⟩
  · refine ⟨x, signed, same, ?_⟩
    rcases spelled_cases same with vote | key
    · exact .inl vote
    · rcases signer x signed with named | val
      · by_cases vote : x.kind = .vote
        · cases x <;> simp_all [Signed.kind]
        · exact .inr ⟨vote, by rw [key, named]⟩
      · exact absurd val kind
  · have lengths := congrArg List.length same
    rw [QC.preimage_length, ABAVal.preimage, abaPreimage_length] at lengths
    contradiction

namespace System
variable {sys : System}

/-- Of two certificates that pass verification, by any nodes and with signatures that were made, no
two differ in nothing but the block they are for. -/
def UniqueCertificates [Crypto] [Bincode] (sys : System) (trace : Trace) : Prop :=
  ∀ (q q' : QC) (key key' : PublicKey), sys.Authentic trace q.claims → sys.Authentic trace q'.claims →
    q.verify (sys.ordered key) = .ok () → q'.verify (sys.ordered key') = .ok () →
    q.proposer = q'.proposer → q.epoch = q'.epoch → q.height = q'.height → q.hash = q'.hash

theorem nodes_vote_once [Crypto] [Bincode] {trace : Trace} (valid : sys.Valid trace) {key : PublicKey} (honest : sys.Honest key)
    (own : OwnAssembled key (sys.nodeAt trace key).log) :
    VotesOnce (sys.nodeAt trace key).log ∧
      ∀ x, Event.signed x ∈ (sys.nodeAt trace key).log → x.signer = key ∨ x.kind = .abaVal := by
  have inv (key : PublicKey) (ok : Input → Prop) :=
    ((identityInvariant ok key (sys.ordered key)).and (voteInvariant ok)).and (signerInvariant ok)
  have sounds := sys.sound (I := fun _ key view k l =>
      ((k.name = key ∧ k.committee = sys.ordered key) ∧ VoteInvariant view k l) ∧
        ∀ x, Event.signed x ∈ l → x.signer = k.name ∨ x.kind = .abaVal)
    (fun _ h => h) (fun {_ key _} _ _ _ => inv key _)
    (fun key _ => ⟨⟨⟨rfl, rfl⟩, fun _ => ⟨fun v h => by simp at h, fun v v' h => by simp at h⟩⟩, fun x h => by simp at h⟩)
    valid key honest
  obtain ⟨_, ⟨⟨named, -⟩, votes⟩, signers⟩ := sounds.2
  refine ⟨(votes (by rw [named]; exact own)).2, ?_⟩
  rwa [named] at signers

/-- An honest voter of a verified certificate has signed the vote. -/
theorem voter_signed [Crypto] [Bincode] {trace : Trace} {qc : QC} {name : PublicKey} (authentic : sys.Authentic trace qc.claims)
    {committee : Committee} (verified : qc.verify committee = .ok ()) (honest : sys.Honest name)
    (voter : name ∈ (qc.votes.map Prod.fst).toFinset) :
    qc.preimage ∈ released (sys.nodeAt trace name).log := by
  obtain ⟨vote, mem, same⟩ := List.mem_map.mp (List.mem_toFinset.mp voter)
  have valid := List.all_eq_true.mp (QC.verify_ok verified).2.2.2 _ mem
  rw [← same] at honest ⊢
  exact authentic ⟨vote.1, qc.preimage, vote.2⟩ (List.mem_map.mpr ⟨_, mem, rfl⟩) honest valid

/-- Certificates are unique in a run in which honest nodes assemble certificates on their own chains
only and sign nothing else that spells one of their votes. -/
theorem certificates_unique [Crypto] [Bincode] (sys : System) (resilient : sys.Resilient) (trace : Trace) (valid : sys.Valid trace)
    (own : ∀ key, sys.Honest key → OwnAssembled key (sys.nodeAt trace key).log)
    (spelled : ∀ key, sys.Honest key → NoVoteSpelled (sys.nodeAt trace key).log) :
    sys.UniqueCertificates trace := by
  intro q q' key key' authentic authentic' verified verified' proposer epoch height
  obtain ⟨name, voter, voter', honest⟩ :=
    resilient.common (Accepted.qc q verified) (Accepted.qc q' verified')
  obtain ⟨once, signers⟩ := nodes_vote_once valid honest (own name honest)
  obtain ⟨x, signed, same, what⟩ := vote_of_released signers (voter_signed authentic verified honest voter)
  obtain ⟨x', signed', same', what'⟩ :=
    vote_of_released signers (voter_signed authentic' verified' honest voter')
  have rest : x.preimage.drop 32 = x'.preimage.drop 32 := by
    rw [same, same', QC.preimage_drop, QC.preimage_drop, proposer, epoch, height]
  rcases what with ⟨v, rfl⟩ | ⟨kind, hash⟩
  · rcases what' with ⟨v', rfl⟩ | ⟨kind', -⟩
    · obtain ⟨hash, -, height₁, proposer₁⟩ := QC.preimage_eq_vote.mp same.symm
      obtain ⟨hash', -, height₂, proposer₂⟩ := QC.preimage_eq_vote.mp same'.symm
      have equal : v = v' := once v v' signed signed' (by rw [← proposer₁, proposer, proposer₂])
        (by rw [← height₁, height, height₂])
      rw [hash, hash', equal]
    · exact absurd rest.symm (spelled name honest x' v signed' kind' signed)
  · rcases what' with ⟨v', rfl⟩ | ⟨-, hash'⟩
    · exact absurd rest (spelled name honest x v' signed kind signed')
    · exact Digest.bytes_inj.mp (hash.trans hash'.symm)

end System

/-! ## Two certificates for one height -/

namespace Sample

/-- The first node has voted for two blocks of its own at height two. -/
def doubleVote : Trace :=
  [(key 1, voteFor (firstBlock 1) 3), (key 1, voteFor (firstBlock 1) 2), (key 1, voteFor (firstBlock 4) 4),
    (key 1, voteFor (firstBlock 4) 3), (key 1, voteFor (firstBlock 4) 2), (key 3, propose (firstBlock 1)),
    (key 2, propose (firstBlock 1)), (key 3, propose (firstBlock 4)), (key 2, propose (firstBlock 4))]

/-- The two blocks: the second node votes for the first of them, the third node for the other. -/
def rivals : Block × Block :=
  match signedBlocks (system.nodeAt doubleVote (key 1)).log with
  | [_, x, y] => (x, y)
  | _ => (Block.genesis, Block.genesis)

def split : Trace := [(key 3, propose rivals.2), (key 2, propose rivals.1)] ++ doubleVote

/-- With one faulty authority of four both blocks get a certificate. -/
theorem rival_certificates :
    system.Resilient ∧ system.Valid split ∧ ¬ system.UniqueCertificates split := by
  refine ⟨⟨by decide, by decide⟩, by decide +kernel, fun unique => ?_⟩
  have different : rivals.1.digest ≠ rivals.2.digest := by decide +kernel
  refine different (unique (certify rivals.1 [1, 2, 4]) (certify rivals.2 [1, 3, 4]) (key 1) (key 1) ?_ ?_ ?_ ?_
    ?_ ?_ ?_)
  all_goals decide +kernel

/-- All votes are for the blocks of their receiver. -/
def agreed : Trace :=
  [(key 1, voteFor (firstBlock 1) 3), (key 1, voteFor (firstBlock 1) 2), (key 3, propose (firstBlock 1)),
    (key 2, propose (firstBlock 1))]

theorem agreed_certificates : system.UniqueCertificates agreed := by
  refine System.certificates_unique system ⟨by decide, by decide⟩ agreed (by decide +kernel) ?_ ?_
  · intro key honest chain qc assembled
    have all : ∀ key ∈ four.keys, ∀ chain ∈ assembledChains (system.nodeAt agreed key).log, chain = key := by
      decide +kernel
    exact all key honest.1 chain (mem_assembledChains assembled)
  · intro key honest x v signed kind signed'
    have all : ∀ key ∈ four.keys, ∀ x ∈ signedObjects (system.nodeAt agreed key).log, x.kind ≠ .vote →
        ∀ v ∈ signedVotes (system.nodeAt agreed key).log, x.preimage.drop 32 ≠ v.preimage.drop 32 := by
      decide +kernel
    exact all key honest.1 x (mem_signedObjects.mpr signed) kind v (mem_signedVotes.mpr signed')

end Sample
end HotstuffDag
