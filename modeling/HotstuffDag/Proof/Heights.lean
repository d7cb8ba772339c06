import HotstuffDag.Proof.Isolation

/-! # Heights without gaps

A vote follows a certificate for the height below, or the genesis at any height. -/

namespace HotstuffDag
open Library

section
variable [Crypto] [Bincode]

/-- The block stands on a verified certificate of its author, or on the genesis at height 1. -/
structure Block.Grounded (b : Block) (committee : Committee) : Prop where
  genesis : b.qc.eq QC.genesis = true → b.height = 1
  certified : b.qc.eq QC.genesis = false → b.qc.proposer = b.author ∧ b.qc.verify committee = .ok ()

namespace System
variable {sys : System} {trace : Trace}

/-- No honest node has restarted its chain of the author for a new epoch. -/
def Unreset (sys : System) (trace : Trace) (name : PublicKey) : Prop :=
  ∀ key, sys.Honest key → ∀ k c val, Event.epochEnd k c val ∈ (sys.nodeAt trace key).log → c.name ≠ name

/-- Below a certified block of the author's chain there is another one, and every height up to it can
be filled with a certificate. -/
def GapFree (sys : System) (trace : Trace) (name : PublicKey) : Prop :=
  sys.Unreset trace name → ∀ qc b, sys.Certifies trace qc b → b.author = name →
    (1 < b.height → ∃ qc' b', sys.Certifies trace qc' b' ∧ b'.author = name ∧ b'.height + 1 = b.height) ∧
    ∀ height, 0 < height → height ≤ b.height →
      ∃ qc' b', sys.Certifies trace qc' b' ∧ b'.author = name ∧ b'.height = height

/-- The honest nodes vote for blocks of the author only if these are grounded. -/
def GroundedVotes (sys : System) (trace : Trace) (name : PublicKey) : Prop :=
  ∀ key, sys.Honest key → ∀ c b, Event.voted c b ∈ (sys.nodeAt trace key).log → b.author = name →
    b.Grounded sys.committee

/-- The certificates of the blocks that an honest node processes carry signatures that were made. -/
theorem processed_authentic (valid : sys.Valid trace) (unforged : sys.Unforged trace) {key : PublicKey}
    (honest : sys.Honest key) {b : Block} (processed : Event.process b ∈ (sys.nodeAt trace key).log)
    (verified : b.qc.verify sys.committee = .ok ()) : sys.Authentic trace b.qc.claims := by
  let Q (_ : PublicKey) (qc : QC) : Prop := qc.verify sys.committee = .ok () → sys.Authentic trace qc.claims
  have sources : Sources Q (fun _ => True) (sys.ordered key) (Got trace key) (sys.nodeAt trace key).log := by
    refine ⟨fun _ _ claim mem => absurd mem List.not_mem_nil, fun b msg _ _ claim mem => ?_, fun t msg _ _ claim mem => ?_,
      fun chain qc event accepted => ?_, fun _ _ _ => trivial⟩
    · rcases msg with msg | msg
      · exact msg.authentic valid claim (List.mem_cons_of_mem _ mem)
      · exact msg.authentic valid claim (List.mem_cons_of_mem _ mem)
    · exact msg.authentic valid claim (List.mem_cons_of_mem _ mem)
    · exact unforged key honest chain qc event (by rw [QC.verify_perm (sys.perm key), accepted])
  rcases (ballots trace key).processed b processed with received | signed
  · have authentic : sys.Authentic trace b.claims := by
      rcases received with msg | msg | msg
      · exact msg.authentic valid
      · exact msg.authentic valid
      · exact msg.authentic valid
    exact fun claim mem => authentic claim (List.mem_cons_of_mem _ mem)
  · obtain ⟨_, certs⟩ := certs_at sources
    obtain ⟨_, holds⟩ := certs.blocks b signed
    exact holds verified

theorem voted_authentic (valid : sys.Valid trace) (unforged : sys.Unforged trace) {key : PublicKey}
    (honest : sys.Honest key) {c : Chain} {b : Block} (voted : Event.voted c b ∈ (sys.nodeAt trace key).log)
    (verified : b.qc.verify sys.committee = .ok ()) : sys.Authentic trace b.qc.claims :=
  processed_authentic valid unforged honest ((ballots trace key).voted c b voted).1 verified

/-- The block below a certified one is certified. -/
theorem certified_below (tolerant : sys.Tolerant) (valid : sys.Valid trace) (unforged : sys.Unforged trace)
    (unspelled : sys.Unspelled trace) {name : PublicKey} (member : name ∈ sys.committee.keys)
    (grounded : sys.GroundedVotes trace name) {qc : QC} {b : Block} (certifies : sys.Certifies trace qc b)
    (author : b.author = name) (high : 1 < b.height) :
    ∃ qc' b', sys.Certifies trace qc' b' ∧ b'.author = name ∧ b'.height + 1 = b.height := by
  obtain ⟨about, verified, authentic⟩ := certifies
  have anywhere {qc : QC} (verified : qc.verify sys.committee = .ok ()) : qc.verify (sys.ordered name) = .ok () := by
    rw [QC.verify_perm (sys.perm name), verified]
  have proposer : qc.proposer = name := about.proposer.trans author
  obtain ⟨key, c, x, honest, voted, aboutX⟩ :=
    voted_of_certificate tolerant unspelled authentic (anywhere verified) (by rw [proposer]; exact member)
  have authorX : x.author = name := aboutX.proposer.symm.trans proposer
  have heightX : x.height = b.height := aboutX.height.symm.trans about.height
  have ground := grounded key honest c x voted authorX
  cases genesis : x.qc.eq QC.genesis with
  | true =>
      have one := ground.genesis genesis
      rw [heightX] at one
      rw [one] at high
      exact absurd high (UInt64.lt_irrefl _)
  | false =>
      obtain ⟨proposerX, verifiedX⟩ := ground.certified genesis
      have authenticX := voted_authentic valid unforged honest voted verifiedX
      have next : x.qc.height + 1 = x.height := by
        refine ((ballots trace key).voted c x voted).2.resolve_right fun same => ?_
        rw [genesis] at same
        contradiction
      have memberX : x.qc.proposer ∈ sys.committee.keys := by rw [proposerX, authorX]; exact member
      obtain ⟨_, _, y, -, -, aboutY⟩ :=
        voted_of_certificate tolerant unspelled authenticX (anywhere verifiedX) memberX
      refine ⟨x.qc, y, ⟨aboutY, verifiedX, authenticX⟩, ?_, ?_⟩
      · rw [← aboutY.proposer, proposerX, authorX]
      · rw [← aboutY.height, next, heightX]

theorem certified_up_to (tolerant : sys.Tolerant) (valid : sys.Valid trace) (unforged : sys.Unforged trace)
    (unspelled : sys.Unspelled trace) {name : PublicKey} (member : name ∈ sys.committee.keys)
    (grounded : sys.GroundedVotes trace name) {qc : QC} {b : Block} (certifies : sys.Certifies trace qc b)
    (author : b.author = name) {height : SeqNumber} (positive : 0 < height) (below : height ≤ b.height) :
    ∃ qc' b', sys.Certifies trace qc' b' ∧ b'.author = name ∧ b'.height = height := by
  obtain ⟨distance, apart⟩ := Nat.exists_eq_add_of_le (UInt64.le_iff_toNat_le.mp below)
  have lower : 1 ≤ height.toNat := UInt64.lt_iff_toNat_lt.mp positive
  clear below
  induction distance generalizing qc b with
  | zero => exact ⟨qc, b, certifies, author, UInt64.toNat_inj.mp apart⟩
  | succ distance ih =>
      have high : 1 < b.height := by
        have one : UInt64.toNat 1 = 1 := rfl
        rw [UInt64.lt_iff_toNat_lt, apart, one]
        exact Nat.lt_of_le_of_lt lower (Nat.lt_add_of_pos_right (Nat.succ_pos distance))
      obtain ⟨qc', b', certifies', author', next⟩ :=
        certified_below tolerant valid unforged unspelled member grounded certifies author high
      have step := toNat_of_succ next (UInt64.lt_trans (by decide) high)
      exact ih certifies' author' (Nat.succ_injective (step.trans apart))

/-- Certified heights have no gaps if all honest votes for blocks of the author are for grounded blocks. -/
theorem gap_free (sys : System) (tolerant : sys.Tolerant) (trace : Trace) (valid : sys.Valid trace)
    (unforged : sys.Unforged trace) (unspelled : sys.Unspelled trace) (name : PublicKey)
    (member : name ∈ sys.committee.keys) (grounded : sys.GroundedVotes trace name) : sys.GapFree trace name :=
  fun _ _ _ certifies author =>
    ⟨certified_below tolerant valid unforged unspelled member grounded certifies author,
      fun _ => certified_up_to tolerant valid unforged unspelled member grounded certifies author⟩

end System
end

/-! ## A genesis certificate far up -/

namespace Sample

/-- Two honest nodes vote for the block at height 12 of the faulty authority. -/
def skipped : Trace := [(key 2, propose far), (key 1, propose far)]

theorem unreset_of {trace : Trace} {name : PublicKey}
    (none : ∀ key ∈ four.keys, epochEnds (system.nodeAt trace key).log = []) : system.Unreset trace name := by
  intro key honest k c val ended
  have mem := mem_epochEnds ended
  rw [none key honest.1] at mem
  exact absurd mem List.not_mem_nil

theorem skipped_heights : system.Tolerant ∧ system.Valid skipped ∧ ¬ system.GapFree skipped (key 4) := by
  have valid : system.Valid skipped := by decide +kernel
  refine ⟨by decide, valid, fun free => ?_⟩
  have certifies : system.Certifies skipped (certify far [1, 2, 4]) far :=
    ⟨⟨rfl, rfl, rfl, rfl⟩, by decide +kernel, by decide +kernel⟩
  have unreset : system.Unreset skipped (key 4) := unreset_of (by decide +kernel)
  obtain ⟨qc, b, below, author, height⟩ := (free unreset _ far certifies rfl).1 (by decide)
  have unspelled : system.Unspelled skipped := unspelled_of (by decide +kernel)
  have verified : qc.verify (system.ordered (key 1)) = .ok () := below.verified
  obtain ⟨name, c, b', honest, voted, about⟩ := System.voted_of_certificate (by decide) unspelled
    below.authentic verified (by rw [below.about.proposer, author]; decide)
  have none : ∀ name ∈ four.keys, ∀ b ∈ votedBlocks (system.nodeAt skipped name).log, b.height + 1 ≠ 12 := by
    decide +kernel
  refine none name honest.1 b' (mem_votedBlocks voted) ?_
  rw [← about.height, below.about.height, height]
  rfl

/-- The blocks of the faulty authority are at heights 1 and 2. -/
theorem ownProposal_gap_free : system.GapFree ownProposal (key 4) := by
  refine System.gap_free system (by decide) ownProposal (by decide +kernel) (unforged_of (by decide +kernel))
    (unspelled_of (by decide +kernel)) (key 4) (by decide) fun name honest c b voted author => ?_
  have grounded : ∀ name ∈ four.keys, ∀ b ∈ votedBlocks (system.nodeAt ownProposal name).log, b.author = key 4 →
      (b.qc.eq QC.genesis = true → b.height = 1) ∧
        (b.qc.eq QC.genesis = false → b.qc.proposer = b.author ∧ b.qc.verify four = .ok ()) := by
    decide +kernel
  obtain ⟨genesis, certified⟩ := grounded name honest.1 b (mem_votedBlocks voted) author
  exact ⟨genesis, certified⟩

end Sample
end HotstuffDag
