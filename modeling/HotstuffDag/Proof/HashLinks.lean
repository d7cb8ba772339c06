import HotstuffDag.Proof.CommitSource
import HotstuffDag.Proof.Heights

/-! # Hash links of committed blocks

Commits follow the certificates of a chain, and a certificate is for a block that honest nodes have
voted for: the link to the block below comes from those votes. -/

namespace HotstuffDag
open Library

section

theorem Block.parts_of_preimage {b b' : Block} (same : b.preimage = b'.preimage) :
    b.author = b'.author ∧ b.height = b'.height ∧ b.epoch = b'.epoch ∧ b.parent = b'.parent := by
  have split (b : Block) : b.preimage = (b.author.bytes ++ (b.height.leBytes ++ (b.epoch.leBytes ++
      (b.payload.flatMap Digest.bytes ++ (b.references.flatMap fun x => x.1.bytes ++ x.2.bytes))))) ++ b.parent.bytes := by
    simp [Block.preimage, Block.parent, List.append_assoc]
  have parent : b.parent.bytes = b'.parent.bytes := by
    rw [split b, split b'] at same
    exact List.append_inj_right' same (by simp)
  simp only [Block.preimage, Library.Bytes.append_eq_iff, PublicKey.bytes_length, PublicKey.bytes_inj,
    SeqNumber.leBytes_length, SeqNumber.leBytes_inj] at same
  exact ⟨same.1, same.2.1, same.2.2.1, Digest.bytes_inj.mp parent⟩

variable [Crypto]

theorem QC.IsFor.of_preimage {qc : QC} {b b' : Block} (h : qc.IsFor b') (same : b.preimage = b'.preimage) :
    qc.IsFor b := by
  obtain ⟨author, height, epoch, -⟩ := Block.parts_of_preimage same
  have digest : b.digest = b'.digest := congrArg Crypto.sha512 same
  exact ⟨h.hash.trans digest.symm, h.epoch.trans epoch.symm, h.height.trans height.symm, h.proposer.trans author.symm⟩

variable [Bincode]

namespace System
variable {sys : System} {trace : Trace} {key : PublicKey}

/-- The blocks of an author that a node commits in one epoch are linked: the parent of a block is the
block of the height below, and none but the lowest block carries the genesis certificate. -/
def HashLinked (sys : System) (trace : Trace) (key : PublicKey) : Prop :=
  ∀ b b', Event.commit b ∈ (sys.nodeAt trace key).log → Event.commit b' ∈ (sys.nodeAt trace key).log →
    b'.author = b.author → b'.epoch = b.epoch →
    (b'.height.toNat = b.height.toNat + 1 → b'.parent = b.digest) ∧
    (b.height < b'.height → b'.qc.eq QC.genesis = false)

/-! ## What is asked of a run -/

/-- The hash of the certificate does not spell the key of an honest authority. -/
def Unkeyed (sys : System) (qc : QC) : Prop := ∀ name, sys.Honest name → qc.hash.bytes ≠ name.bytes

/-- The certificates that the node assembles verify, and no certificate that enters a chain has a key
in place of a digest. -/
structure PlainCertificates (sys : System) (trace : Trace) (key : PublicKey) : Prop where
  proposal : ∀ b, Got trace key (.propose b) ∨ Got trace key (.syncReply b) → b.verify (sys.ordered key) = .ok () →
    sys.Unkeyed b.qc
  timeout : ∀ t, Got trace key (.timeout t) → t.verify (sys.ordered key) = .ok () → sys.Unkeyed t.highQc
  assembled : ∀ chain qc, Event.assembled chain qc ∈ (sys.nodeAt trace key).log →
    qc.verify (sys.ordered key) = .ok () ∧ sys.Unkeyed qc

/-- An honest node votes for a block with the genesis certificate only if the block is the lowest of its
author and epoch that the node votes for, and else the certificate is one of the author. -/
structure LinkedVotes (sys : System) (trace : Trace) : Prop where
  lowest : ∀ name, sys.Honest name → ∀ c b c' b', Event.voted c b ∈ (sys.nodeAt trace name).log →
    Event.voted c' b' ∈ (sys.nodeAt trace name).log → b'.author = b.author → b'.epoch = b.epoch →
    b.height < b'.height → b'.qc.eq QC.genesis = false
  certified : ∀ name, sys.Honest name → ∀ c b, Event.voted c b ∈ (sys.nodeAt trace name).log →
    b.qc.eq QC.genesis = false → b.qc.proposer = b.author ∧ b.qc.verify sys.committee = .ok () ∧ sys.Unkeyed b.qc

/-- The node has committed the first block by delivering the second. -/
def Delivers (sys : System) (trace : Trace) (key : PublicKey) (b0 b : Block) : Prop :=
  ∃ k c top, Event.commitCall k c top ∈ (sys.nodeAt trace key).log ∧ ListedAt k c b0 ∧ b = k.arranged b0

/-- Where the node commits, its chains list blocks of the leader with the references in the order of their keys, in which
they are delivered. -/
def SortedReferences (sys : System) (trace : Trace) (key : PublicKey) : Prop :=
  ∀ k c top b, Event.commitCall k c top ∈ (sys.nodeAt trace key).log → ListedAt k c b → b.author = k.leader →
    Core.sortReferences b.references = b.references

/-- The hash tells committed blocks from those that honest nodes vote for, and these from the genesis. -/
structure Binding (sys : System) (trace : Trace) (key : PublicKey) : Prop where
  committed : ∀ b, Event.commit b ∈ (sys.nodeAt trace key).log → ∀ name, sys.Honest name → ∀ c b',
    Event.voted c b' ∈ (sys.nodeAt trace name).log → b.digest = b'.digest → b.preimage = b'.preimage
  genesis : ∀ name, sys.Honest name → ∀ c b, Event.voted c b ∈ (sys.nodeAt trace name).log → b.digest ≠ QC.genesis.hash

/-! ## Votes behind certificates -/

/-- A certificate with signatures that were made for votes. -/
structure Voted (sys : System) (trace : Trace) (qc : QC) : Prop where
  verified : qc.verify sys.committee = .ok ()
  authentic : sys.Authentic trace qc.claims
  unkeyed : sys.Unkeyed qc

theorem Voted.accepted {qc : QC} (h : sys.Voted trace qc) (key : PublicKey) :
    Accepted (sys.ordered key) (qc.votes.map Prod.fst).toFinset :=
  .qc qc (by rw [QC.verify_perm (sys.perm key), h.verified])

/-- An honest voter has voted for the block of the certificate. -/
theorem Voted.cast {qc : QC} (h : sys.Voted trace qc) {name : PublicKey} (honest : sys.Honest name)
    (voter : name ∈ (qc.votes.map Prod.fst).toFinset) :
    ∃ c b, Event.voted c b ∈ (sys.nodeAt trace name).log ∧
      Event.signed (.vote (.new b (sys.nodeAt trace name).core.name)) ∈ (sys.nodeAt trace name).log ∧ qc.IsFor b := by
  obtain ⟨x, signed, same, what⟩ :=
    vote_of_released (honest_signers trace name) (voter_signed h.authentic h.verified honest voter)
  rcases what with ⟨v, rfl⟩ | ⟨-, keyed⟩
  · obtain ⟨c, b, voted, rfl⟩ := (ballots trace name).votes v signed
    obtain ⟨hash, epoch, height, proposer⟩ := QC.preimage_eq_vote.mp same.symm
    exact ⟨c, b, voted, signed, hash, epoch, height, proposer⟩
  · exact absurd keyed (h.unkeyed name honest)

/-- Two certificates have the vote of one honest node in common. -/
theorem Voted.common (resilient : sys.Resilient) {qc qc' : QC} (h : sys.Voted trace qc) (h' : sys.Voted trace qc') :
    ∃ name, sys.Honest name ∧ name ∈ (qc.votes.map Prod.fst).toFinset ∧ name ∈ (qc'.votes.map Prod.fst).toFinset := by
  obtain ⟨name, voter, voter', honest⟩ :=
    resilient.common (h.accepted PublicKey.zero) (h'.accepted PublicKey.zero)
  exact ⟨name, honest, voter, voter'⟩

/-- Certificates of one author and height are for one block. -/
theorem Voted.hash_eq (resilient : sys.Resilient) (valid : sys.Valid trace)
    (own : ∀ name, sys.Honest name → OwnAssembled name (sys.nodeAt trace name).log) {qc qc' : QC}
    (h : sys.Voted trace qc) (h' : sys.Voted trace qc') (proposer : qc.proposer = qc'.proposer)
    (height : qc.height = qc'.height) : qc.hash = qc'.hash := by
  obtain ⟨name, honest, voter, voter'⟩ := Voted.common resilient h h'
  obtain ⟨_, b, _, signed, about⟩ := h.cast honest voter
  obtain ⟨_, b', _, signed', about'⟩ := h'.cast honest voter'
  have once := (nodes_vote_once valid honest (own name honest)).1
  have same := once _ _ signed signed' (about.proposer.symm.trans (proposer.trans about'.proposer))
    (about.height.symm.trans (height.trans about'.height))
  have digests : b.digest = b'.digest := congrArg Vote.hash same
  rw [about.hash, about'.hash, digests]

/-! ## Committed blocks -/

theorem PlainCertificates.sources (h : sys.PlainCertificates trace key) (valid : sys.Valid trace)
    (unforged : sys.Unforged trace) (honest : sys.Honest key) :
    Sources (fun _ qc => qc.eq QC.genesis = true ∨ sys.Voted trace qc) (fun _ => True) (sys.ordered key)
      (Got trace key) (sys.nodeAt trace key).log where
  genesis := fun _ => .inl rfl
  proposal := by
    intro b msg verified
    have authentic : sys.Authentic trace b.claims := by
      rcases msg with msg | msg
      · exact msg.authentic valid
      · exact msg.authentic valid
    refine (Block.verify_qc verified).2.imp_right fun accepted =>
      ⟨?_, fun claim mem => authentic claim (List.mem_cons_of_mem _ mem), h.proposal b msg verified⟩
    rw [← QC.verify_perm (sys.perm key), accepted]
  timeout := by
    intro t msg verified
    refine (Timeout.verify_qc verified).2.imp_right fun accepted =>
      ⟨?_, fun claim mem => msg.authentic valid claim (List.mem_cons_of_mem _ mem), h.timeout t msg verified⟩
    rw [← QC.verify_perm (sys.perm key), accepted]
  assembled := by
    intro chain qc event
    obtain ⟨accepted, unkeyed⟩ := h.assembled chain qc event
    refine .inr ⟨?_, unforged key honest chain qc event accepted, unkeyed⟩
    rw [← QC.verify_perm (sys.perm key), accepted]
  tc := fun _ _ _ => trivial

/-- What is delivered is certified by the votes of honest nodes. -/
theorem certificate_of_commit (valid : sys.Valid trace) (unforged : sys.Unforged trace) (resilient : sys.Resilient)
    (honest : sys.Honest key) (plain : sys.PlainCertificates trace key)
    (genesis : ∀ name, sys.Honest name → ∀ c b, Event.voted c b ∈ (sys.nodeAt trace name).log → b.digest ≠ QC.genesis.hash)
    (payloads : ∀ payload, (key, .storePayload payload) ∈ trace → Bincode.blockOfPayload payload = none) {b : Block}
    (sent : Event.commit b ∈ (sys.nodeAt trace key).log) :
    ∃ b0 qc, sys.Delivers trace key b0 b ∧ sys.Voted trace qc ∧ qc.hash = b0.digest := by
  have sound := sys.sound_of_inputs (commitsInvariant (plain.sources valid unforged honest) payloads) fun _ =>
    ⟨Certs.init (fun _ => .inl rfl) key (sys.parameters key) Map.empty, fun d value b stored => by simp [first, Core.new] at stored,
      fun b sent => by simp at sent⟩
  obtain ⟨_, holds⟩ := sound.2
  obtain ⟨-, commits⟩ := holds (List.prefix_refl _)
  obtain ⟨b0, k, c, top, ⟨_, qc, zero | voted, positive, source⟩, called, listed, same⟩ := commits.sources b sent
  · rw [(QC.eq_genesis zero).2] at positive
    exact absurd positive (UInt64.lt_irrefl _)
  · refine ⟨b0, qc, ⟨k, c, top, called, listed, same⟩, voted, (source.resolve_right fun zero => ?_).symm⟩
    obtain ⟨name, trusted, voter, -⟩ := Voted.common resilient voted voted
    obtain ⟨c, x, granted, -, about⟩ := voted.cast trusted voter
    exact genesis name trusted c x granted (about.hash.symm.trans zero)

theorem Delivers.eq_of_sorted {b0 b : Block} (h : sys.Delivers trace key b0 b) (sorted : sys.SortedReferences trace key) :
    b = b0 := by
  obtain ⟨k, c, top, called, listed, rfl⟩ := h
  unfold Core.arranged
  split
  · rename_i leader
    rw [sorted k c top b0 called listed leader]
  · rfl

/-- A committed block is certified if it is delivered as it is. -/
theorem certified_of_commit (resilient : sys.Resilient) (valid : sys.Valid trace) (unforged : sys.Unforged trace)
    (honest : sys.Honest key) (plain : sys.PlainCertificates trace key) (sorted : sys.SortedReferences trace key)
    (binding : sys.Binding trace key)
    (payloads : ∀ payload, (key, .storePayload payload) ∈ trace → Bincode.blockOfPayload payload = none) {b : Block}
    (sent : Event.commit b ∈ (sys.nodeAt trace key).log) :
    ∃ qc, sys.Voted trace qc ∧ qc.IsFor b := by
  obtain ⟨b0, qc, delivers, voted, hash⟩ := certificate_of_commit valid unforged resilient honest plain binding.genesis payloads sent
  obtain rfl := delivers.eq_of_sorted sorted
  obtain ⟨name, trusted, voter, -⟩ := Voted.common resilient voted voted
  obtain ⟨c, b', granted, -, about⟩ := voted.cast trusted voter
  exact ⟨qc, voted, about.of_preimage (binding.committed b sent name trusted c b' granted (hash.symm.trans about.hash))⟩

/-- Committed chains are hash linked in a run in which the honest nodes vote for linked blocks only, and blocks are delivered
as they are. -/
theorem hash_linked (sys : System) (resilient : sys.Resilient) (trace : Trace) (valid : sys.Valid trace)
    (unforged : sys.Unforged trace) (own : ∀ name, sys.Honest name → OwnAssembled name (sys.nodeAt trace name).log)
    (votes : sys.LinkedVotes trace) (key : PublicKey) (honest : sys.Honest key)
    (plain : sys.PlainCertificates trace key) (sorted : sys.SortedReferences trace key) (binding : sys.Binding trace key)
    (payloads : ∀ payload, (key, .storePayload payload) ∈ trace → Bincode.blockOfPayload payload = none) :
    sys.HashLinked trace key := by
  intro b b' sent sent' author epoch
  obtain ⟨qc, voted, about⟩ := certified_of_commit resilient valid unforged honest plain sorted binding payloads sent
  obtain ⟨qc', voted', about'⟩ := certified_of_commit resilient valid unforged honest plain sorted binding payloads sent'
  -- One honest node has voted for both blocks, and so for the upper one on a certificate of its author.
  obtain ⟨name, trusted, voter, voter'⟩ := Voted.common resilient voted voted'
  obtain ⟨c, x, granted, -, aboutX⟩ := voted.cast trusted voter
  obtain ⟨c', x', granted', -, aboutX'⟩ := voted'.cast trusted voter'
  have authors : x'.author = x.author := by
    rw [← aboutX'.proposer, about'.proposer, author, ← about.proposer, aboutX.proposer]
  have epochs : x'.epoch = x.epoch := by
    rw [← aboutX'.epoch, about'.epoch, epoch, ← about.epoch, aboutX.epoch]
  have height : x.height = b.height := aboutX.height.symm.trans about.height
  have height' : x'.height = b'.height := aboutX'.height.symm.trans about'.height
  have same' := binding.committed b' sent' name trusted c' x' granted' (about'.hash.symm.trans aboutX'.hash)
  have parent : b'.parent = x'.parent := (Block.parts_of_preimage same').2.2.2
  have upper (above : b.height < b'.height) : x'.qc.eq QC.genesis = false := by
    refine votes.lowest name trusted c x c' x' granted granted' authors epochs ?_
    rw [height, height']
    exact above
  have below (above : b.height < b'.height) : x'.qc.proposer = x'.author ∧ sys.Voted trace x'.qc := by
    obtain ⟨proposer, verified, unkeyed⟩ := votes.certified name trusted c' x' granted' (upper above)
    exact ⟨proposer, verified, voted_authentic valid unforged trusted granted' verified, unkeyed⟩
  refine ⟨fun next => ?_, fun above => ?_⟩
  · have above : b.height < b'.height := by
      rw [UInt64.lt_iff_toNat_lt, next]
      exact Nat.lt_succ_self _
    obtain ⟨proposer, votedX⟩ := below above
    have follows : x'.qc.height + 1 = x'.height := by
      refine ((ballots trace name).voted c' x' granted').2.resolve_right fun same => ?_
      rw [upper above] at same
      contradiction
    have step := toNat_of_succ follows (by rw [height']; exact UInt64.lt_of_le_of_lt UInt64.zero_le above)
    have heights : qc.height = x'.qc.height := by
      apply UInt64.toNat_inj.mp
      rw [height', next] at step
      rw [about.height]
      exact (Nat.succ_injective step).symm
    have proposers : qc.proposer = x'.qc.proposer := by
      rw [proposer, authors, aboutX.proposer]
    have hashes := Voted.hash_eq resilient valid own voted votedX proposers heights
    rw [parent, ← about.hash, hashes]
    rfl
  · obtain ⟨-, votedX⟩ := below above
    obtain ⟨name₁, trusted₁, voter₁, -⟩ := Voted.common resilient votedX votedX
    obtain ⟨c₁, y, granted₁, -, aboutY⟩ := votedX.cast trusted₁ voter₁
    cases genesis : b'.qc.eq QC.genesis with
    | false => rfl
    | true =>
        have zero : b'.parent = QC.genesis.hash := (QC.eq_genesis genesis).1
        refine absurd ?_ (binding.genesis name₁ trusted₁ c₁ y granted₁)
        rw [← aboutY.hash, ← zero, parent]
        rfl

end System
end

/-! ## A genesis certificate in between -/

namespace Sample

/-- The leader is faulty. -/
def leaderless : System := { system with faulty := {key 1} }

/-- A second block of the leader that starts anew. -/
def anew : Block := Block.new QC.genesis (key 1) 2 0 [] []

/-- The second and the third node vote for the two blocks and for the one above; the second node gets the
certificates of all of them. -/
def unlinked : Trace :=
  [(key 2, propose (above (above anew))), (key 3, propose (above anew)), (key 2, propose (above anew)),
    (key 2, propose (above (firstBlock 1))), (key 3, propose anew), (key 2, propose anew),
    (key 3, propose (firstBlock 1)), (key 2, propose (firstBlock 1))]

theorem unlinked_commits :
    leaderless.Resilient ∧ leaderless.Valid unlinked ∧ ¬ leaderless.HashLinked unlinked (key 2) := by
  refine ⟨⟨by decide, by decide⟩, by decide +kernel, fun linked => ?_⟩
  have sent : committed (leaderless.nodeAt unlinked (key 2)).log = [firstBlock 1, anew] := by decide +kernel
  have first : Event.commit (firstBlock 1) ∈ (leaderless.nodeAt unlinked (key 2)).log := by
    rw [← mem_committed, sent]
    simp
  have second : Event.commit anew ∈ (leaderless.nodeAt unlinked (key 2)).log := by
    rw [← mem_committed, sent]
    simp
  have parent : anew.parent ≠ (firstBlock 1).digest := by decide +kernel
  exact parent ((linked _ _ first second rfl rfl).1 rfl)

/-- Each block of the leader stands on the one before. -/
def linked : Trace :=
  [(key 2, propose (above (above (above (firstBlock 1))))), (key 3, propose (above (above (firstBlock 1)))),
    (key 2, propose (above (above (firstBlock 1)))), (key 3, propose (above (firstBlock 1))),
    (key 2, propose (above (firstBlock 1))), (key 3, propose (firstBlock 1)), (key 2, propose (firstBlock 1))]

/-- The certificate of the message spells no key. -/
def carriesPlain : ConsensusMessage → Bool
  | .propose b | .syncReply b => four.keys.all fun name => b.qc.hash.bytes ≠ name.bytes
  | .timeout t => four.keys.all fun name => t.highQc.hash.bytes ≠ name.bytes
  | _ => true

theorem plainCertificates_of {trace : Trace} {name : PublicKey} (all : ∀ m ∈ gotMessages trace name, carriesPlain m = true)
    (none : assembledChains (leaderless.nodeAt trace name).log = []) : leaderless.PlainCertificates trace name where
  proposal := by
    intro b msg _
    have carried : (four.keys.all fun name => b.qc.hash.bytes ≠ name.bytes) = true := by
      rcases msg with msg | msg
      · exact all _ (mem_gotMessages msg)
      · exact all _ (mem_gotMessages msg)
    exact fun other honest => by simpa using List.all_eq_true.mp carried other honest.1
  timeout := by
    intro t msg _
    have carried : (four.keys.all fun name => t.highQc.hash.bytes ≠ name.bytes) = true := all _ (mem_gotMessages msg)
    exact fun other honest => by simpa using List.all_eq_true.mp carried other honest.1
  assembled := by
    intro chain qc event
    have mem := mem_assembledChains event
    rw [none] at mem
    exact absurd mem List.not_mem_nil

/-- The references of all stored blocks are in order. -/
theorem sortedReferences_of {sys : System} {trace : Trace} {name : PublicKey}
    (all : ∀ call ∈ commitCalls (sys.nodeAt trace name).log, ∀ value ∈ call.1.store.values,
      ∀ b ∈ (Synchronizer.decodeBlock value).toOption, Core.sortReferences b.references = b.references) :
    sys.SortedReferences trace name := by
  intro k c top b called listed _
  have sorted {c' : Chain} (listed : Listed k.store c' b) : Core.sortReferences b.references = b.references := by
    obtain ⟨h, d, -, -, fetched⟩ := listed
    rcases fetched with ⟨-, rfl⟩ | ⟨value, stored, decodes⟩
    · rfl
    · apply all (k, c, top) (mem_commitCalls called) value (Map.mem_values stored) b
      rw [decodes]
      rfl
  rcases listed with own | ⟨_, c', -, other⟩
  · exact sorted own
  · exact sorted other

theorem linked_commits : leaderless.HashLinked linked (key 2) := by
  have none : ∀ name ∈ four.keys, assembledChains (leaderless.nodeAt linked name).log = [] := by decide +kernel
  have lowest : ∀ name ∈ four.keys, ∀ b ∈ votedBlocks (leaderless.nodeAt linked name).log,
      ∀ b' ∈ votedBlocks (leaderless.nodeAt linked name).log, b'.author = b.author → b'.epoch = b.epoch →
      b.height < b'.height → b'.qc.eq QC.genesis = false := by
    decide +kernel
  have certified : ∀ name ∈ four.keys, ∀ b ∈ votedBlocks (leaderless.nodeAt linked name).log,
      b.qc.eq QC.genesis = false → b.qc.proposer = b.author ∧ b.qc.verify four = .ok () ∧
        ∀ name ∈ four.keys, b.qc.hash.bytes ≠ name.bytes := by
    decide +kernel
  have binding : ∀ b ∈ committed (leaderless.nodeAt linked (key 2)).log, ∀ name ∈ four.keys,
      ∀ b' ∈ votedBlocks (leaderless.nodeAt linked name).log, b.digest = b'.digest → b.preimage = b'.preimage := by
    decide +kernel
  have nonzero : ∀ name ∈ four.keys, ∀ b ∈ votedBlocks (leaderless.nodeAt linked name).log,
      b.digest ≠ QC.genesis.hash := by
    decide +kernel
  refine System.hash_linked leaderless ⟨by decide, by decide⟩ linked (by decide +kernel) (unforged_of none) ?_ ⟨?_, ?_⟩
    (key 2) (by decide) (plainCertificates_of (by decide +kernel) (none _ (by decide))) (sortedReferences_of (by decide +kernel)) ⟨?_, ?_⟩
    fun _ _ => rfl
  · intro name honest chain qc event
    have mem := mem_assembledChains event
    rw [none name honest.1] at mem
    exact absurd mem List.not_mem_nil
  · intro name honest c b c' b' voted voted'
    exact lowest name honest.1 b (mem_votedBlocks voted) b' (mem_votedBlocks voted')
  · intro name honest c b voted genesis
    obtain ⟨proposer, verified, unkeyed⟩ := certified name honest.1 b (mem_votedBlocks voted) genesis
    exact ⟨proposer, verified, fun other trusted => unkeyed other trusted.1⟩
  · intro b sent name honest c b' voted
    exact binding b (mem_committed.mpr sent) name honest.1 b' (mem_votedBlocks voted)
  · intro name honest c b voted
    exact nonzero name honest.1 b (mem_votedBlocks voted)

end Sample
end HotstuffDag
