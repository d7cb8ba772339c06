import HotstuffDag.Proof.Certificates
import HotstuffDag.Proof.CertificateUnique

/-! # Certificates on the chain of their author

A certificate that verifies is for a block that an honest node has voted for. Whether it enters the
chain of that block's author is up to the message that carries it. -/

namespace HotstuffDag
open Library

section
variable [Crypto] [Bincode] {got : ConsensusMessage → Prop}

/-! ## The blocks a node votes for -/

structure Ballots (got : ConsensusMessage → Prop) (k : Core) (l : List Event) : Prop where
  votes : ∀ v, Event.signed (.vote v) ∈ l → ∃ c b, Event.voted c b ∈ l ∧ v = .new b k.name
  voted : ∀ c b, Event.voted c b ∈ l →
    Event.process b ∈ l ∧ (b.qc.height + 1 = b.height ∨ b.qc.eq QC.genesis = true)
  processed : ∀ b, Event.process b ∈ l →
    (got (.propose b) ∨ got (.syncReply b) ∨ got (.loopBack b)) ∨ Event.signed (.block b) ∈ l

theorem ballotInvariant (ok : Input → Prop) : Invariant ok fun _ k l => Ballots (Received ok) k l where
  act := by
    intro s s' _ act h
    refine ⟨fun v signed => ?_, fun c b voted => ?_, fun b processed => ?_⟩
    · rw [act.frame.name]
      rcases act.reason signed with old | reason
      · obtain ⟨c, b, voted, rfl⟩ := h.votes v old
        exact ⟨c, b, act.frame.mem voted, rfl⟩
      · cases reason with
        | aba about => exact about.elim
        | commit about => exact about.elim
        | vote voted => exact ⟨_, _, voted, rfl⟩
    · rcases act.reason voted with old | reason
      · exact (h.voted c b old).imp_left act.frame.mem
      · cases reason with
        | aba about => exact about.elim
        | commit about => exact about.elim
        | voted processed _ _ _ next => exact ⟨act.frame.mem processed, next⟩
    · rcases act.reason processed with old | reason
      · exact (h.processed b old).imp_right act.frame.mem
      · cases reason with
        | aba about => exact about.elim
        | commit about => exact about.elim
        | process why =>
            cases why with
            | own signed => exact .inr (act.frame.mem signed)
            | proposal msg => exact .inl (msg.imp_right .inl)
            | loopBack msg => exact .inl (.inr (.inr msg))
  blind := fun _ _ h => ⟨h.votes, h.voted, h.processed⟩
  makePayload := by
    intro v k l transactions h
    refine ⟨fun v signed => ?_, fun c b voted => ?_, fun b processed => ?_⟩
    · obtain ⟨c, b, voted, rfl⟩ := h.votes v (by simpa using signed)
      exact ⟨c, b, List.mem_append_left _ voted, rfl⟩
    · exact (h.voted c b (by simpa using voted)).imp_left (List.mem_append_left _)
    · exact (h.processed b (by simpa using processed)).imp_right (List.mem_append_left _)
  storePayload := fun _ _ h => ⟨h.votes, h.voted, h.processed⟩

/-! ## Verified certificates -/

/-- The certificate has the contents of a vote for the block. -/
structure QC.IsFor (qc : QC) (b : Block) : Prop where
  hash : qc.hash = b.digest
  epoch : qc.epoch = b.epoch
  height : qc.height = b.height
  proposer : qc.proposer = b.author

section
omit [Crypto] [Bincode]

theorem QC.eq_genesis {qc : QC} (h : qc.eq QC.genesis = true) : qc.hash = QC.genesis.hash ∧ qc.height = 0 :=
  of_decide_eq_true h

theorem checkVoters_perm {c c' : Committee} (perm : c'.authorities.Perm c.authorities)
    (reuse : PublicKey → ConsensusError) (names used : List PublicKey) (weight : Nat) :
    checkVoters c' reuse names used weight = checkVoters c reuse names used weight := by
  induction names generalizing used weight with
  | nil => rfl
  | cons name rest ih => simp only [checkVoters, Committee.stake_perm perm, ih]

end

omit [Bincode] in
theorem QC.verify_perm {c c' : Committee} (perm : c'.authorities.Perm c.authorities) (qc : QC) :
    qc.verify c' = qc.verify c := by
  unfold QC.verify
  rw [checkVoters_perm perm, Committee.quorumThreshold_perm perm]

omit [Crypto] [Bincode] in
theorem QC.preimage_drop_proposer (qc : QC) : qc.preimage.drop 48 = qc.proposer.bytes := by
  have split : qc.preimage = (qc.hash.bytes ++ (qc.epoch.leBytes ++ qc.height.leBytes)) ++ qc.proposer.bytes := by
    simp [QC.preimage, List.append_assoc]
  rw [split, List.drop_left' (by simp)]

section
omit [Bincode]

theorem Block.verify_qc {b : Block} {c : Committee} (h : b.verify c = .ok ()) :
    0 < c.stake b.author ∧ (b.qc.eq QC.genesis = true ∨ b.qc.verify c = .ok ()) := by
  unfold Block.verify at h
  by_cases positive : 0 < c.stake b.author
  · by_cases signed : Crypto.verify b.signature b.digest b.author = true
    · simp only [gt_iff_lt, positive, decide_true, ensure, if_true, signed, bind, Except.bind] at h
      split at h
      · exact ⟨positive, .inl ‹_›⟩
      · exact ⟨positive, .inr h⟩
    · simp [ensure, positive, signed, bind, Except.bind] at h
  · simp [ensure, positive, bind, Except.bind] at h

theorem Timeout.verify_qc {t : Timeout} {c : Committee} (h : t.verify c = .ok ()) :
    0 < c.stake t.author ∧ (t.highQc.eq QC.genesis = true ∨ t.highQc.verify c = .ok ()) := by
  unfold Timeout.verify at h
  by_cases positive : 0 < c.stake t.author
  · by_cases signed : Crypto.verify t.signature t.digest t.author = true
    · simp only [gt_iff_lt, positive, decide_true, ensure, if_true, signed, bind, Except.bind] at h
      split at h
      · exact ⟨positive, .inl ‹_›⟩
      · exact ⟨positive, .inr h⟩
    · simp [ensure, positive, signed, bind, Except.bind] at h
  · simp [ensure, positive, bind, Except.bind] at h

end

namespace System
variable {sys : System} {trace : Trace}

/-- Nothing but votes that the honest nodes have signed ends with the key of an authority. -/
def Unspelled (sys : System) (trace : Trace) : Prop :=
  ∀ key, sys.Honest key → ∀ x, Event.signed x ∈ (sys.nodeAt trace key).log → x.kind ≠ .vote →
    ∀ name ∈ sys.committee.keys, x.preimage.drop 48 ≠ name.bytes

/-- The signatures of honest keys in the certificates that honest nodes assemble were made by their nodes. -/
def Unforged (sys : System) (trace : Trace) : Prop :=
  ∀ key, sys.Honest key → ∀ chain qc, Event.assembled chain qc ∈ (sys.nodeAt trace key).log →
    qc.verify (sys.ordered key) = .ok () → sys.Authentic trace qc.claims

/-- A quorum has signed votes for the block. -/
structure Certifies (sys : System) (trace : Trace) (qc : QC) (b : Block) : Prop where
  about : qc.IsFor b
  verified : qc.verify sys.committee = .ok ()
  authentic : sys.Authentic trace qc.claims

theorem honest_signers (trace : Trace) (key : PublicKey) : ∀ x, Event.signed x ∈ (sys.nodeAt trace key).log →
    x.signer = key ∨ x.kind = .abaVal := by
  have inv := (identityInvariant (fun input => (key, input) ∈ trace) key (sys.ordered key)).and
    (signerInvariant fun input => (key, input) ∈ trace)
  have sound := sys.sound_of_inputs inv ⟨⟨rfl, rfl⟩, fun x h => by simp at h⟩
  obtain ⟨_, ⟨named, -⟩, signers⟩ := sound.2
  rwa [named] at signers

theorem ballots (trace : Trace) (key : PublicKey) :
    Ballots (Got trace key) (sys.nodeAt trace key).core (sys.nodeAt trace key).log := by
  have sound := sys.sound_of_inputs (ballotInvariant fun input => (key, input) ∈ trace)
    ⟨fun v h => by simp at h, fun c b h => by simp at h, fun b h => by simp at h⟩
  obtain ⟨_, holds⟩ := sound.2
  exact holds

/-- A verified certificate is for a block that an honest node has voted for. -/
theorem voted_of_certificate (tolerant : sys.Tolerant) (unspelled : sys.Unspelled trace) {qc : QC}
    (authentic : sys.Authentic trace qc.claims) {key : PublicKey} (verified : qc.verify (sys.ordered key) = .ok ())
    (member : qc.proposer ∈ sys.committee.keys) :
    ∃ name c b, sys.Honest name ∧ Event.voted c b ∈ (sys.nodeAt trace name).log ∧ qc.IsFor b := by
  obtain ⟨name, voter, honest⟩ := tolerant.honest_voter (Accepted.qc qc verified)
  obtain ⟨x, signed, same, what⟩ :=
    vote_of_released (honest_signers trace name) (voter_signed authentic verified honest voter)
  rcases what with ⟨v, rfl⟩ | ⟨kind, -⟩
  · obtain ⟨c, b, voted, rfl⟩ := (ballots trace name).votes v signed
    obtain ⟨hash, epoch, height, proposer⟩ := QC.preimage_eq_vote.mp same.symm
    exact ⟨name, c, b, honest, voted, hash, epoch, height, proposer⟩
  · have ending := unspelled name honest x signed kind qc.proposer member
    rw [same, QC.preimage_drop_proposer] at ending
    exact absurd rfl ending

/-! ## Isolation -/

/-- A digest is certified for the author and the height. -/
def CertifiedAt (sys : System) (trace : Trace) (name : PublicKey) (height : SeqNumber) (digest : Digest) : Prop :=
  ∃ qc b, sys.Certifies trace qc b ∧ b.author = name ∧ b.height = height ∧ b.digest = digest

/-- All digests on a chain, but that of the genesis, are certified for its author. -/
def ChainsIsolated (sys : System) (trace : Trace) (key : PublicKey) : Prop :=
  ∀ name c, (sys.nodeAt trace key).core.pubkeyToChain.get? name = some c →
    (∀ height digest, c.heightToDigest.get? height = some digest →
      (height = 0 ∧ digest = QC.genesis.hash) ∨ sys.CertifiedAt trace name height digest) ∧
    (c.highQc.eq QC.genesis = true ∨ sys.CertifiedAt trace name c.highQc.height c.highQc.hash)

/-- The certificates that enter a chain name its author as their proposer, and those that the node
assembles verify. -/
structure OwnCertificates (sys : System) (trace : Trace) (key : PublicKey) : Prop where
  proposal : ∀ b, Got trace key (.propose b) ∨ Got trace key (.syncReply b) → b.verify (sys.ordered key) = .ok () →
    b.qc.eq QC.genesis = true ∨ b.qc.proposer = b.author
  timeout : ∀ t, Got trace key (.timeout t) → t.verify (sys.ordered key) = .ok () →
    t.highQc.eq QC.genesis = true ∨ t.highQc.proposer = sys.committee.getLeader t.epoch
  assembled : ∀ chain qc, Event.assembled chain qc ∈ (sys.nodeAt trace key).log →
    qc.proposer = chain ∧ qc.verify (sys.ordered key) = .ok ()

/-- The genesis, or a verified certificate of the author. -/
def CertificateOf (sys : System) (trace : Trace) (name : PublicKey) (qc : QC) : Prop :=
  qc.eq QC.genesis = true ∨
    qc.proposer = name ∧ qc.verify sys.committee = .ok () ∧ sys.Authentic trace qc.claims

theorem CertificateOf.certifiedAt (tolerant : sys.Tolerant) (unspelled : sys.Unspelled trace) {name : PublicKey}
    (member : name ∈ sys.committee.keys) {qc : QC} (h : sys.CertificateOf trace name qc) :
    qc.eq QC.genesis = true ∨ sys.CertifiedAt trace name qc.height qc.hash := by
  refine h.imp_right fun ⟨proposer, verified, authentic⟩ => ?_
  have accepted : qc.verify (sys.ordered name) = .ok () := by rw [QC.verify_perm (sys.perm name), verified]
  obtain ⟨_, _, b, -, -, about⟩ :=
    voted_of_certificate tolerant unspelled authentic accepted (by rw [proposer]; exact member)
  exact ⟨qc, b, ⟨about, verified, authentic⟩, by rw [← about.proposer, proposer], about.height.symm, about.hash.symm⟩

theorem OwnCertificates.sources (h : sys.OwnCertificates trace key) (valid : sys.Valid trace)
    (unforged : sys.Unforged trace) (honest : sys.Honest key) {T : TC → Prop}
    (tc : ∀ certificate, Got trace key (.tc certificate) → certificate.verify (sys.ordered key) = .ok () → T certificate) :
    Sources (sys.CertificateOf trace) T (sys.ordered key) (Got trace key) (sys.nodeAt trace key).log where
  genesis := fun _ => .inl rfl
  proposal := by
    intro b msg verified
    have authentic : sys.Authentic trace b.qc.claims := by
      have all : sys.Authentic trace b.claims := by
        rcases msg with msg | msg
        · exact msg.authentic valid
        · exact msg.authentic valid
      exact fun claim mem => all claim (List.mem_cons_of_mem _ mem)
    rcases h.proposal b msg verified with genesis | proposer
    · exact .inl genesis
    · refine (Block.verify_qc verified).2.imp_right fun accepted => ⟨proposer, ?_, authentic⟩
      rw [← QC.verify_perm (sys.perm key), accepted]
  timeout := by
    intro t msg verified
    have authentic : sys.Authentic trace t.highQc.claims :=
      fun claim mem => msg.authentic valid claim (List.mem_cons_of_mem _ mem)
    rw [Committee.getLeader_perm (sys.perm key)]
    rcases h.timeout t msg verified with genesis | proposer
    · exact .inl genesis
    · refine (Timeout.verify_qc verified).2.imp_right fun accepted => ⟨proposer, ?_, authentic⟩
      rw [← QC.verify_perm (sys.perm key), accepted]
  assembled := by
    intro chain qc event
    obtain ⟨proposer, accepted⟩ := h.assembled chain qc event
    refine .inr ⟨proposer, ?_, unforged key honest chain qc event accepted⟩
    rw [← QC.verify_perm (sys.perm key), accepted]
  tc := tc

/-- What holds of the certificates that a node takes in holds of those it keeps. -/
theorem certs_at {Q : PublicKey → QC → Prop} {T : TC → Prop} {key : PublicKey}
    (sources : Sources Q T (sys.ordered key) (Got trace key) (sys.nodeAt trace key).log) :
    ∃ view, Certs Q T (sys.ordered key) view (sys.nodeAt trace key).core (sys.nodeAt trace key).log := by
  have sound := sys.sound_of_inputs (certsInvariant sources) fun _ =>
    Certs.init sources.genesis key (sys.parameters key) Map.empty
  obtain ⟨view, holds⟩ := sound.2
  exact ⟨view, holds (List.prefix_refl _)⟩

/-- In a run in which the certificates that enter a chain are those of its author, chains are isolated. -/
theorem chains_isolated (sys : System) (tolerant : sys.Tolerant) (trace : Trace) (valid : sys.Valid trace)
    (unforged : sys.Unforged trace) (unspelled : sys.Unspelled trace) (key : PublicKey) (honest : sys.Honest key)
    (own : sys.OwnCertificates trace key) : sys.ChainsIsolated trace key := by
  obtain ⟨_, certs⟩ := certs_at (own.sources valid unforged honest (T := fun _ => True) fun _ _ _ => trivial)
  intro name c found
  have chain := certs.stored name c found
  have member : name ∈ sys.committee.keys := (Committee.keys_perm (sys.perm key)).mem_iff.mp chain.member
  refine ⟨fun height digest entry => ?_, chain.high.certifiedAt tolerant unspelled member⟩
  obtain ⟨qc, holds, rfl, rfl⟩ := chain.entries height digest entry
  refine (holds.certifiedAt tolerant unspelled member).imp_left fun genesis => ?_
  exact (QC.eq_genesis genesis).symm

end System
end

/-! ## A certificate of another author -/

namespace Sample

/-- The messages of a trace that go to a node. -/
def gotMessages (trace : Trace) (name : PublicKey) : List ConsensusMessage :=
  trace.filterMap fun
    | (receiver, .deliver _ message _) => if receiver = name then some message else none
    | _ => none

theorem mem_gotMessages {trace : Trace} {name : PublicKey} {m : ConsensusMessage} (h : System.Got trace name m) :
    m ∈ gotMessages trace name := by
  obtain ⟨channel, env, mem⟩ := h
  exact List.mem_filterMap.mpr ⟨_, mem, if_pos rfl⟩

theorem unspelled_of {sys : System} {trace : Trace} (all : ∀ name ∈ sys.committee.keys,
    ∀ x ∈ signedObjects (sys.nodeAt trace name).log, x.kind ≠ .vote →
      ∀ author ∈ sys.committee.keys, x.preimage.drop 48 ≠ author.bytes) : sys.Unspelled trace :=
  fun name honest x signed => all name honest.1 x (mem_signedObjects.mpr signed)

/-- The faulty authority proposes on top of the block of the first author. -/
def foreign : Block := Block.new (certify (firstBlock 1) [1, 2, 4]) (key 4) 2 0 [] []

def foreignProposal : Trace := [(key 2, propose foreign), (key 2, propose (firstBlock 1))]

/-- The second node enters the block of the first author in the chain of the fourth. -/
theorem foreign_entry :
    system.Tolerant ∧ system.Valid foreignProposal ∧ ¬ system.ChainsIsolated foreignProposal (key 2) := by
  have valid : system.Valid foreignProposal := by decide +kernel
  refine ⟨by decide, valid, fun isolated => ?_⟩
  have entry : ((system.nodeAt foreignProposal (key 2)).core.pubkeyToChain.get? (key 4)).bind
      (fun c => c.heightToDigest.get? 1) = some (firstBlock 1).digest := by decide +kernel
  obtain ⟨c, found, certified⟩ := Option.bind_eq_some_iff.mp entry
  rcases (isolated (key 4) c found).1 1 _ certified with ⟨zero, -⟩ | ⟨qc, b, certifies, author, -, digest⟩
  · simp at zero
  · have unspelled : system.Unspelled foreignProposal := unspelled_of (by decide +kernel)
    have verified : qc.verify (system.ordered (key 1)) = .ok () := certifies.verified
    obtain ⟨name, c', b', honest, voted, about⟩ := System.voted_of_certificate (by decide) unspelled
      certifies.authentic verified (by rw [certifies.about.proposer, author]; decide)
    have none : ∀ name ∈ four.keys, ∀ b ∈ votedBlocks (system.nodeAt foreignProposal name).log, b.author = key 4 →
        b.digest ≠ (firstBlock 1).digest := by
      decide +kernel
    refine none name honest.1 b' (mem_votedBlocks voted) ?_ ?_
    · rw [← about.proposer, certifies.about.proposer, author]
    · rw [← about.hash, certifies.about.hash, digest]

/-- The certificate of the message names the author or the leader it should. -/
def carriesOwn : ConsensusMessage → Bool
  | .propose b | .syncReply b => b.qc.eq QC.genesis || b.qc.proposer = b.author
  | .timeout t => t.highQc.eq QC.genesis || t.highQc.proposer = four.getLeader t.epoch
  | _ => true

theorem ownCertificates_of {trace : Trace} {name : PublicKey} (all : ∀ m ∈ gotMessages trace name, carriesOwn m = true)
    (none : assembledChains (system.nodeAt trace name).log = []) : system.OwnCertificates trace name where
  proposal := by
    intro b msg _
    have carried : (b.qc.eq QC.genesis || decide (b.qc.proposer = b.author)) = true := by
      rcases msg with msg | msg
      · exact all _ (mem_gotMessages msg)
      · exact all _ (mem_gotMessages msg)
    simpa using carried
  timeout := by
    intro t msg _
    have carried : carriesOwn (.timeout t) = true := all _ (mem_gotMessages msg)
    have carried : t.highQc.eq QC.genesis = true ∨ t.highQc.proposer = four.getLeader t.epoch := by
      simpa [carriesOwn] using carried
    exact carried
  assembled := by
    intro chain qc event
    have mem := mem_assembledChains event
    rw [none] at mem
    exact absurd mem List.not_mem_nil

/-- The faulty authority proposes on top of its own block. -/
def ownProposal : Trace :=
  [(key 2, propose (Block.new (certify (firstBlock 4) [2, 3, 4]) (key 4) 2 0 [] [])), (key 3, propose (firstBlock 4)),
    (key 2, propose (firstBlock 4))]

theorem unforged_of {sys : System} {trace : Trace}
    (none : ∀ name ∈ sys.committee.keys, assembledChains (sys.nodeAt trace name).log = []) : sys.Unforged trace := by
  intro name honest chain qc event
  have mem := mem_assembledChains event
  rw [none name honest.1] at mem
  exact absurd mem List.not_mem_nil

theorem ownProposal_isolated : system.ChainsIsolated ownProposal (key 2) :=
  System.chains_isolated system (by decide) ownProposal (by decide +kernel) (unforged_of (by decide +kernel))
    (unspelled_of (by decide +kernel)) (key 2) (by decide)
    (ownCertificates_of (by decide +kernel) (by decide +kernel))

end Sample
end HotstuffDag
