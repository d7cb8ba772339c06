import HotstuffDag.Proof.Isolation

/-! # The input of the view change

A timeout certificate keeps of each timeout the height it states, and no certificate for it. A node
takes in those that it assembles itself and those that others send. -/

namespace HotstuffDag
open Library

instance : Std.MaxEqOr SeqNumber where
  max_eq_or a b := by
    by_cases le : a ≤ b
    · exact .inr (if_pos le)
    · exact .inl (if_neg le)

section
variable [Crypto] [Bincode]

namespace System
variable {sys : System} {trace : Trace}

/-- The largest height in a timeout certificate is that of the genesis or of a certified block of the leader. -/
def InputsJustified (sys : System) (trace : Trace) (key : PublicKey) : Prop :=
  ∀ certificate, Event.savedTc certificate ∈ (sys.nodeAt trace key).log →
    ∀ input, certificate.highQcRounds.max? = some input →
      input = 0 ∨ ∃ qc b, sys.Certifies trace qc b ∧ b.author = sys.committee.getLeader certificate.epoch ∧
        b.height = input

/-- The largest height in a timeout certificate that is sent to the node is 0 or stated by an honest authority. -/
def HonestMaximum (sys : System) (trace : Trace) (key : PublicKey) : Prop :=
  ∀ certificate, Got trace key (.tc certificate) → certificate.verify (sys.ordered key) = .ok () →
    ∀ input, certificate.highQcRounds.max? = some input →
      input = 0 ∨ ∃ name signature, sys.Honest name ∧ (name, signature, input) ∈ certificate.votes

omit [Crypto] [Bincode] in
theorem timeout_of_released {l : List Event} {epoch height : SeqNumber} (h : timeoutPreimage epoch height ∈ released l) :
    ∃ t, Event.signed (.timeout t) ∈ l ∧ t.epoch = epoch ∧ t.highQc.height = height := by
  have spelled : timeoutPreimage epoch height =
      (Signed.timeout ⟨{ QC.genesis with height := height }, epoch, PublicKey.zero, Signature.zero⟩).preimage := rfl
  rcases mem_released h with ⟨x, signed, -, same⟩ | ⟨v, -, same⟩
  · by_cases kind : x.kind = .timeout
    · cases x with
      | timeout t => exact ⟨t, signed, timeoutPreimage_inj.mp same⟩
      | _ => simp [Signed.kind] at kind
    · rw [spelled] at same
      exact absurd same.symm (Signed.preimage_length_ne (.inl rfl) fun h => kind h.symm)
  · have lengths := congrArg List.length same
    rw [timeoutPreimage_length, ABAVal.preimage, abaPreimage_length] at lengths
    contradiction

/-- An honest author of an entry has signed a timeout for it. -/
theorem signed_of_entry {certificate : TC} {committee : Committee} {name : PublicKey} {signature : Signature} {height : SeqNumber}
    (authentic : sys.Authentic trace certificate.claims) (verified : certificate.verify committee = .ok ())
    (honest : sys.Honest name) (entry : (name, signature, height) ∈ certificate.votes) :
    ∃ t, Event.signed (.timeout t) ∈ (sys.nodeAt trace name).log ∧ t.epoch = certificate.epoch ∧ t.highQc.height = height := by
  have accepted := List.all_eq_true.mp (TC.verify_ok verified).2.2.2 _ entry
  apply timeout_of_released
  exact authentic ⟨name, timeoutPreimage certificate.epoch height, signature⟩ (List.mem_map.mpr ⟨_, entry, rfl⟩) honest accepted

/-- An honest authority states the height of a certificate of its own chain of the leader. -/
theorem stated_height {certificate : TC} {key name : PublicKey} {signature : Signature} {height : SeqNumber}
    (authentic : sys.Authentic trace certificate.claims) (verified : certificate.verify (sys.ordered key) = .ok ())
    (honest : sys.Honest name) (entry : (name, signature, height) ∈ certificate.votes) {T : TC → Prop}
    (sources : Sources (sys.CertificateOf trace) T (sys.ordered name) (Got trace name) (sys.nodeAt trace name).log) :
    Justified (sys.CertificateOf trace) (sys.committee.getLeader certificate.epoch) height := by
  obtain ⟨t, signed, epoch, same⟩ := signed_of_entry authentic verified honest entry
  obtain ⟨_, certs⟩ := certs_at sources
  have holds := certs.timeouts t signed
  rw [Committee.getLeader_perm (sys.perm name), epoch] at holds
  exact ⟨t.highQc, holds, same⟩

theorem Justified.certified (tolerant : sys.Tolerant) (unspelled : sys.Unspelled trace) {name : PublicKey}
    (member : name ∈ sys.committee.keys) {height : SeqNumber} (h : Justified (sys.CertificateOf trace) name height) :
    height = 0 ∨ ∃ qc b, sys.Certifies trace qc b ∧ b.author = name ∧ b.height = height := by
  obtain ⟨qc, holds, rfl⟩ := h
  rcases holds.certifiedAt tolerant unspelled member with genesis | ⟨qc', b, certifies, author, height, -⟩
  · exact .inl (QC.eq_genesis genesis).2
  · exact .inr ⟨qc', b, certifies, author, height⟩

/-- In a run in which the certificates that enter a chain are those of its author and no faulty authority
states the largest height of a timeout certificate, the inputs of the view change are justified. -/
theorem inputs_justified (sys : System) (tolerant : sys.Tolerant) (trace : Trace) (valid : sys.Valid trace)
    (unforged : sys.Unforged trace) (unspelled : sys.Unspelled trace)
    (own : ∀ key, sys.Honest key → sys.OwnCertificates trace key) (key : PublicKey) (honest : sys.Honest key)
    (maximum : sys.HonestMaximum trace key) : sys.InputsJustified trace key := by
  have sources (name : PublicKey) (honest : sys.Honest name) := (own name honest).sources valid unforged honest
    (T := fun certificate => Got trace name (.tc certificate) ∧ certificate.verify (sys.ordered name) = .ok ())
    fun _ msg verified => ⟨msg, verified⟩
  obtain ⟨_, certs⟩ := certs_at (sources key honest)
  intro certificate saved input highest
  have member := Committee.getLeader_mem honest.1 certificate.epoch
  rcases certs.certificates certificate saved with ⟨msg, verified⟩ | justified
  · rcases maximum certificate msg verified input highest with zero | ⟨name, signature, trusted, entry⟩
    · exact .inl zero
    · exact Justified.certified tolerant unspelled member
        (stated_height (msg.authentic valid) verified trusted entry (sources name trusted))
  · have holds := justified input (List.max?_mem highest)
    rw [Committee.getLeader_perm (sys.perm key)] at holds
    exact Justified.certified tolerant unspelled member holds

end System
end

/-! ## A height that nobody has reached -/

namespace Sample

/-- The faulty authority states height 2 in its timeout, and the leader has no block of that height. -/
theorem stated_input :
    system.Tolerant ∧ system.Valid (changing 2 2) ∧ ¬ system.InputsJustified (changing 2 2) (key 1) := by
  have valid : system.Valid (changing 2 2) := by decide +kernel
  refine ⟨by decide, valid, fun justified => ?_⟩
  have saved : Event.savedTc (timeoutCertificate 2) ∈ (system.nodeAt (changing 2 2) (key 1)).log := by decide +kernel
  rcases justified _ saved 2 (by decide +kernel) with zero | ⟨qc, b, certifies, author, height⟩
  · simp at zero
  · have unspelled : system.Unspelled (changing 2 2) := unspelled_of (by decide +kernel)
    have verified : qc.verify (system.ordered (key 1)) = .ok () := certifies.verified
    obtain ⟨name, c, b', honest, voted, about⟩ := System.voted_of_certificate (by decide) unspelled
      certifies.authentic verified (by rw [certifies.about.proposer, author]; decide)
    have low : ∀ name ∈ four.keys, ∀ b ∈ votedBlocks (system.nodeAt (changing 2 2) name).log, b.height ≠ 2 := by
      decide +kernel
    refine low name honest.1 b' (mem_votedBlocks voted) ?_
    rw [← about.height, certifies.about.height, height]

/-- The largest height in a timeout certificate is one that an honest node states. -/
def statedTruly : ConsensusMessage → Bool
  | .tc certificate => certificate.votes.any fun entry =>
      decide (system.Honest entry.1) && certificate.highQcRounds.max? == some entry.2.2
  | _ => true

/-- The leader's first block gets its certificate to both nodes before they time out, and both state its height. -/
def certifiedTimeout : Input := .deliver .smvba (.timeout (.new (certify (firstBlock 1) [1, 2, 4]) 0 (key 4))) env

def stating (n : Nat) (height : SeqNumber) : PublicKey × Signature × SeqNumber :=
  (key n, (Timeout.new { QC.genesis with height := height } 0 (key n)).signature, height)

def reached : Trace :=
  [(key 2, heard), (key 1, heard), (key 2, propose farther), (key 1, propose farther), (key 2, propose far), (key 1, propose far),
    (key 2, certifiedTimeout), (key 1, certifiedTimeout), (key 2, propose (firstBlock 1))]
  where heard : Input := .deliver .smvba (.tc ⟨0, [stating 1 1, stating 2 1, stating 4 0]⟩) env

theorem reached_input : system.InputsJustified reached (key 1) ∧ (0, 1, 1) ∈ abaInputs (system.nodeAt reached (key 1)).log := by
  have carried : ∀ name ∈ four.keys, ∀ m ∈ gotMessages reached name, carriesOwn m = true := by decide +kernel
  have none : ∀ name ∈ four.keys, assembledChains (system.nodeAt reached name).log = [] := by decide +kernel
  refine ⟨System.inputs_justified system (by decide) reached (by decide +kernel) (unforged_of none)
    (unspelled_of (by decide +kernel)) (fun name honest => ?_) (key 1) (by decide) fun certificate msg _ height highest => ?_,
    by decide +kernel⟩
  · exact ownCertificates_of (carried name honest.1) (none name honest.1)
  · have trusted : ∀ m ∈ gotMessages reached (key 1), statedTruly m = true := by decide +kernel
    obtain ⟨⟨name, signature, stated⟩, entry, truly⟩ := List.any_eq_true.mp (trusted _ (mem_gotMessages msg))
    obtain ⟨honest, largest⟩ := Bool.and_eq_true_iff.mp truly
    have same : stated = _ := Option.some.inj ((beq_iff_eq.mp largest).symm.trans highest)
    subst same
    exact .inr ⟨name, signature, of_decide_eq_true honest, entry⟩

end Sample
end HotstuffDag
