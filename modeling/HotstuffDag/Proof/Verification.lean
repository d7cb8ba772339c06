import HotstuffDag.Proof.Quorum

/-! # What the certificate checks accept

The loop of the checks ends early at the first name that is repeated or has no voting rights, so it adds up stakes of
distinct authorities only. -/

namespace HotstuffDag

/-! ## The loop with machine integers -/

/-- `checkVoters` with a `u32` weight; `none` where the sum would overflow. -/
def checkVotersU32 (committee : Committee) (reuse : PublicKey → ConsensusError) :
    List PublicKey → List PublicKey → UInt32 → Option (ConsensusResult UInt32)
  | [], _, weight => some (.ok weight)
  | name :: rest, used, weight =>
      if name ∈ used then some (.error (reuse name))
      else if committee.stake name > 0 then
        if weight.toNat + committee.stake name < 2 ^ 32 then
          checkVotersU32 committee reuse rest (name :: used) (weight + UInt32.ofNat (committee.stake name))
        else none
      else some (.error (.unknownAuthority name))

variable {c : Committee} {reuse : PublicKey → ConsensusError}

/-- The weight is the stake of distinct names, which the total bounds. -/
theorem checkVotersU32_eq {names used : List PublicKey} {weight : UInt32} (nodup : used.Nodup)
    (sum : weight.toNat = (used.map c.stake).sum) :
    checkVotersU32 c reuse names used weight = some ((checkVoters c reuse names used weight.toNat).map UInt32.ofNat) := by
  induction names generalizing used weight with
  | nil => simp [checkVotersU32, checkVoters, Except.map]
  | cons name rest ih =>
      rw [checkVotersU32, checkVoters]
      by_cases old : name ∈ used
      · rw [if_pos old, if_pos old]
        rfl
      · rw [if_neg old, if_neg old]
        by_cases positive : c.stake name > 0
        · rw [if_pos positive, if_pos positive]
          have distinct : (name :: used).Nodup := List.nodup_cons.mpr ⟨old, nodup⟩
          have total := c.sum_stake_le distinct
          have small := c.fits
          rw [List.map_cons, List.sum_cons, ← sum] at total
          have fits : weight.toNat + c.stake name < 2 ^ 32 := by
            unfold Committee.totalVotes at total
            omega
          have added : (weight + UInt32.ofNat (c.stake name)).toNat = weight.toNat + c.stake name := by
            rw [UInt32.toNat_add, UInt32.toNat_ofNat']
            omega
          rw [if_pos fits, ih distinct, added]
          rw [added, List.map_cons, List.sum_cons, sum]
          exact Nat.add_comm _ _
        · rw [if_neg positive, if_neg positive]
          rfl

/-! ## What is accepted -/

/-- Distinct names of authorities with voting rights, with a quorum of the stake. -/
def IsQuorum (c : Committee) (names : List PublicKey) : Prop :=
  names.Nodup ∧ (∀ name ∈ names, 0 < c.stake name) ∧ c.quorumThreshold ≤ (names.map c.stake).sum

/-- `checkVoters` returns the sum of the stakes if the names are distinct and have voting rights. -/
theorem checkVoters_eq_ok {names used : List PublicKey} (weight : Nat) (nodup : names.Nodup)
    (each : ∀ name ∈ names, name ∉ used ∧ 0 < c.stake name) :
    checkVoters c reuse names used weight = .ok (weight + (names.map c.stake).sum) := by
  induction names generalizing used weight with
  | nil => rfl
  | cons name rest ih =>
      obtain ⟨fresh, positive⟩ := each name List.mem_cons_self
      obtain ⟨once, nodup⟩ := List.nodup_cons.mp nodup
      rw [checkVoters, if_neg fresh, if_pos positive, ih _ nodup]
      · rw [List.map_cons, List.sum_cons, Nat.add_assoc]
      · intro other mem
        obtain ⟨unused, other_positive⟩ := each other (List.mem_cons_of_mem _ mem)
        constructor
        · intro old
          rcases List.mem_cons.mp old with rfl | old
          · exact once mem
          · exact unused old
        · exact other_positive

/-- The three checks: the loop, the threshold and the signatures. -/
theorem check_eq_ok_iff {names : List PublicKey} {weak bad : ConsensusError} {valid : Bool} :
    (do
      let weight ← checkVoters c reuse names [] 0
      ensure (weight ≥ c.quorumThreshold) weak
      ensure valid bad) = .ok () ↔ IsQuorum c names ∧ valid = true := by
  constructor
  · intro accepted
    obtain ⟨nodup, -, heavy, signed⟩ := quorum_of_checkVoters accepted
    cases checked : checkVoters c reuse names [] 0 with
    | error e => simp [checked, bind, Except.bind] at accepted
    | ok total =>
        obtain ⟨-, each, -⟩ := checkVoters_ok checked
        have sum : Library.Quorum.weight c.stake names.toFinset = (names.map c.stake).sum := List.sum_toFinset c.stake nodup
        rw [sum] at heavy
        exact ⟨⟨nodup, fun name mem => (each name mem).2, heavy⟩, signed⟩
  · rintro ⟨⟨nodup, positive, heavy⟩, rfl⟩
    have checked : checkVoters c reuse names [] 0 = .ok (0 + (names.map c.stake).sum) := by
      apply checkVoters_eq_ok 0 nodup
      intro name mem
      exact ⟨List.not_mem_nil, positive name mem⟩
    rw [checked, Nat.zero_add]
    simp [bind, Except.bind, ensure, heavy]

section
variable [Crypto]

theorem QC.verify_eq_ok_iff (qc : QC) : qc.verify c = .ok () ↔
    IsQuorum c (qc.votes.map Prod.fst) ∧ verifyBatch qc.digest qc.votes = true := check_eq_ok_iff

theorem TC.verify_eq_ok_iff (tc : TC) : tc.verify c = .ok () ↔ IsQuorum c (tc.votes.map Prod.fst) ∧
    (tc.votes.all fun (author, signature, height) => Crypto.verify signature (tc.entryDigest height) author) = true :=
  check_eq_ok_iff

theorem ABAProof.verify_eq_ok_iff (proof : ABAProof) : proof.verify c = .ok () ↔
    IsQuorum c (proof.votes.map Prod.fst) ∧ verifyBatch proof.digest proof.votes = true := check_eq_ok_iff

/-- A certificate is accepted exactly if its voters are a quorum and their signatures are valid, and no sum overflows. -/
theorem verify_exact (c : Committee) :
    (∀ qc : QC, qc.verify c = .ok () ↔
      IsQuorum c (qc.votes.map Prod.fst) ∧ ∀ name signature, (name, signature) ∈ qc.votes →
        Crypto.verify signature qc.digest name = true) ∧
    (∀ tc : TC, tc.verify c = .ok () ↔
      IsQuorum c (tc.votes.map Prod.fst) ∧ ∀ name signature height, (name, signature, height) ∈ tc.votes →
        Crypto.verify signature (tc.entryDigest height) name = true) ∧
    (∀ proof : ABAProof, proof.verify c = .ok () ↔
      IsQuorum c (proof.votes.map Prod.fst) ∧ ∀ name signature, (name, signature) ∈ proof.votes →
        Crypto.verify signature proof.digest name = true) ∧
    ∀ reuse names, checkVotersU32 c reuse names [] 0 = some ((checkVoters c reuse names [] 0).map UInt32.ofNat) := by
  refine ⟨fun qc => ?_, fun tc => ?_, fun proof => ?_, fun reuse names => ?_⟩
  · rw [QC.verify_eq_ok_iff, verifyBatch, List.all_eq_true]
    simp only [Prod.forall]
  · rw [TC.verify_eq_ok_iff, List.all_eq_true]
    simp only [Prod.forall]
  · rw [ABAProof.verify_eq_ok_iff, verifyBatch, List.all_eq_true]
    simp only [Prod.forall]
  · exact checkVotersU32_eq List.nodup_nil rfl

end
end HotstuffDag
