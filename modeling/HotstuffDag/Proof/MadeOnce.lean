import HotstuffDag.Library.Tally
import HotstuffDag.Proof.Quorum

/-! # How often a maker makes a certificate

A maker of certificates starts its count again with each of them, and goes on with the authors it has not heard. -/

namespace HotstuffDag
open Library

/-! ## What the makers of votes and of timeouts have in common -/

/-- A maker takes an entry, and cuts a certificate at the quorum. -/
def Maker.collect {Entry Certificate : Type} (maker : Maker Entry) (c : Committee) (author : PublicKey) (entry : Entry)
    (reuse : ConsensusError) (certificate : List Entry → Certificate) : ConsensusResult (Option Certificate) × Maker Entry :=
  if author ∈ maker.used then (.error reuse, maker)
  else
    let maker := maker.push author entry (c.stake author)
    if maker.weight ≥ c.quorumThreshold then (.ok (some (certificate maker.votes)), maker.reset) else (.ok none, maker)

theorem QCMaker.append_eq (maker : QCMaker) (vote : Vote) (c : Committee) :
    append maker vote c = maker.collect c vote.author (vote.author, vote.signature) (.authorityReuseinQC vote.author)
      fun votes => ⟨vote.hash, vote.epoch, vote.height, vote.proposer, votes⟩ := rfl

theorem TCMaker.append_eq (maker : TCMaker) (timeout : Timeout) (c : Committee) :
    append maker timeout c = maker.collect c timeout.author (timeout.author, timeout.signature, timeout.highQc.height)
      (.authorityReuseinTC timeout.author) fun votes => ⟨timeout.epoch, votes⟩ := rfl

/-! ## Sequences of appends -/

/-- The answers of a maker to a sequence of appends. -/
def answers {Entry Input Answer : Type} (append : Maker Entry → Input → Answer × Maker Entry) : Maker Entry → List Input → List Answer
  | _, [] => []
  | maker, input :: rest => (append maker input).1 :: answers append (append maker input).2 rest

def made {Certificate : Type} : ConsensusResult (Option Certificate) → Bool
  | .ok (some _) => true
  | _ => false

/-- One answer at most is `Some`. -/
def MadeOnce {Certificate : Type} (answers : List (ConsensusResult (Option Certificate))) : Prop := answers.countP made ≤ 1

/-- The authors that are not used yet, in the order in which they are first heard. -/
def heard (used : List PublicKey) : List PublicKey → List PublicKey
  | [] => []
  | author :: rest => if author ∈ used then heard used rest else author :: heard (author :: used) rest

theorem not_mem_heard {used authors : List PublicKey} {name : PublicKey} (mem : name ∈ heard used authors) : name ∉ used := by
  induction authors generalizing used with
  | nil => contradiction
  | cons author rest ih =>
      rw [heard] at mem
      split at mem
      · exact ih mem
      · rename_i fresh
        rcases List.mem_cons.mp mem with rfl | later
        · exact fresh
        · intro old
          apply ih later
          exact List.mem_cons_of_mem _ old

theorem heard_nodup (used authors : List PublicKey) : (heard used authors).Nodup := by
  induction authors generalizing used with
  | nil => exact List.nodup_nil
  | cons author rest ih =>
      rw [heard]
      split
      · exact ih used
      · apply List.nodup_cons.mpr
        constructor
        · intro mem
          exact not_mem_heard mem List.mem_cons_self
        · exact ih _

/-- The stakes of the distinct authors cannot be cut into two quorums. -/
def OneQuorum (c : Committee) (authors : List PublicKey) : Prop :=
  ∀ first second, heard [] authors = first ++ second → c.quorumThreshold ≤ (first.map c.stake).sum →
    (second.map c.stake).sum < c.quorumThreshold

section
variable {c : Committee} {Entry Input Certificate : Type} {author : Input → PublicKey} {entry : Input → Entry}
  {reuse : Input → ConsensusError} {certificate : Input → List Entry → Certificate}

/-- The certificates are the crossings of the threshold. -/
theorem made_answers (maker : Maker Entry) (inputs : List Input) :
    (answers (fun maker input => maker.collect c (author input) (entry input) (reuse input) (certificate input)) maker inputs).countP made =
      Tally.crossings c.quorumThreshold maker.weight ((heard maker.used (inputs.map author)).map c.stake) := by
  induction inputs generalizing maker with
  | nil => rfl
  | cons input rest ih =>
      rw [answers, List.map_cons, heard, List.countP_cons, ih]
      unfold Maker.collect
      by_cases used : author input ∈ maker.used
      · simp [used, made]
      · by_cases reached : c.quorumThreshold ≤ maker.weight + c.stake (author input)
        · simp [used, made, reached, Maker.push, Maker.reset, Tally.crossings]
        · simp [used, made, reached, Maker.push, Tally.crossings]

theorem madeOnce_collect (inputs : List Input) :
    MadeOnce (answers (fun maker input => maker.collect c (author input) (entry input) (reuse input) (certificate input)) Maker.new inputs) ↔
      OneQuorum c (inputs.map author) := by
  have positive : 0 < c.quorumThreshold := Nat.succ_pos _
  rw [MadeOnce, made_answers]
  show Tally.crossings c.quorumThreshold 0 ((heard [] (inputs.map author)).map c.stake) ≤ 1 ↔ _
  rw [Tally.crossings_le_one_iff positive positive]
  constructor
  · intro light first second parts heavy
    apply light (first.map c.stake) (second.map c.stake)
    · rw [parts, List.map_append]
    · rw [zero_add]
      exact heavy
  · intro light first second parts heavy
    obtain ⟨before, after, authors, rfl, rfl⟩ := List.map_eq_append_iff.mp parts
    rw [zero_add] at heavy
    exact light before after authors heavy

end

/-- Only three totals leave enough for a second quorum beside the first. -/
theorem oneQuorum_of_totalVotes {c : Committee} (total : c.totalVotes ∉ [2, 3, 6]) (authors : List PublicKey) : OneQuorum c authors := by
  intro first second parts heavy
  have nodup := heard_nodup [] authors
  rw [parts] at nodup
  have sum := Committee.sum_stake_le (c := c) nodup
  rw [List.map_append, List.sum_append] at sum
  simp only [List.mem_cons, List.not_mem_nil, or_false, not_or] at total
  unfold Committee.quorumThreshold at heavy ⊢
  omega

/-- A maker of votes or of timeouts makes one certificate at most if and only if the stakes of the authors cannot be cut
into two quorums. -/
theorem made_once_iff (c : Committee) (votes : List Vote) (timeouts : List Timeout) :
    (MadeOnce (answers (fun maker vote => QCMaker.append maker vote c) Maker.new votes) ↔ OneQuorum c (votes.map Vote.author)) ∧
    (MadeOnce (answers (fun maker timeout => TCMaker.append maker timeout c) Maker.new timeouts) ↔
      OneQuorum c (timeouts.map Timeout.author)) ∧
    (c.totalVotes ∉ [2, 3, 6] → ∀ authors, OneQuorum c authors) := by
  simp only [QCMaker.append_eq, TCMaker.append_eq]
  exact ⟨madeOnce_collect votes, madeOnce_collect timeouts, oneQuorum_of_totalVotes⟩

namespace Sample

def three : Committee := ⟨[authority 1, authority 2, authority 3], by decide, by decide⟩

/-- Of three authorities each is a quorum. -/
theorem three_certificates :
    ¬ MadeOnce (answers (fun maker vote => QCMaker.append maker vote three) Maker.new [Vote.new (firstBlock 1) (key 1),
      Vote.new (firstBlock 1) (key 2), Vote.new (firstBlock 1) (key 3)]) ∧
    ¬ MadeOnce (answers (fun maker timeout => TCMaker.append maker timeout three) Maker.new [Timeout.new QC.genesis 0 (key 1),
      Timeout.new QC.genesis 0 (key 2), Timeout.new QC.genesis 0 (key 3)]) := by
  unfold MadeOnce
  decide +kernel

end Sample
end HotstuffDag
