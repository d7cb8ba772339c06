import HotstuffDag.Proof.AbaCases
import HotstuffDag.Proof.System

/-! # Certificates of the agreement

A maker and the caches of a core hold certificates whose voters all made the claim the certificate
is about. -/

namespace HotstuffDag
open Library Library.Exec

/-- The authors a maker has counted are distinct, made the claim, and weigh at least its weight. -/
structure MakerOk (c : Committee) (P : PublicKey → Prop) (maker : ABAProofMaker) : Prop where
  nodup : maker.used.Nodup
  authors : maker.votes.map Prod.fst = maker.used.reverse
  weight : maker.weight ≤ (maker.used.map c.stake).sum
  each : ∀ a ∈ maker.used, P a

/-- The authors of a certificate are distinct, made the claim, and reach the threshold. -/
structure Backed (c : Committee) (threshold : Nat) (P : PublicKey → Prop) (votes : List (PublicKey × Signature)) :
    Prop where
  nodup : (votes.map Prod.fst).Nodup
  heavy : threshold ≤ ((votes.map Prod.fst).map c.stake).sum
  each : ∀ a ∈ votes.map Prod.fst, P a

section
variable {c : Committee} {P P' : PublicKey → Prop}

theorem MakerOk.new : MakerOk c P Maker.new := ⟨List.nodup_nil, rfl, Nat.le_refl _, by simp [Maker.new]⟩

theorem MakerOk.mono {maker : ABAProofMaker} (h : MakerOk c P maker) (le : ∀ a, P a → P' a) : MakerOk c P' maker :=
  ⟨h.nodup, h.authors, h.weight, fun a ha => le a (h.each a ha)⟩

theorem Backed.mono {threshold : Nat} {votes : List (PublicKey × Signature)} (h : Backed c threshold P votes)
    (le : ∀ a, P a → P' a) : Backed c threshold P' votes :=
  ⟨h.nodup, h.heavy, fun a ha => le a (h.each a ha)⟩

theorem Backed.weight {threshold : Nat} {votes : List (PublicKey × Signature)} (h : Backed c threshold P votes) :
    threshold ≤ Quorum.weight c.stake (votes.map Prod.fst).toFinset := by
  rw [Quorum.weight, List.sum_toFinset c.stake h.nodup]
  exact h.heavy

theorem MakerOk.backed {maker : ABAProofMaker} {threshold : Nat} (h : MakerOk c P maker)
    (heavy : threshold ≤ maker.weight) : Backed c threshold P maker.votes := by
  have weight := h.weight
  refine ⟨?_, ?_, ?_⟩
  · rw [h.authors]
    exact List.nodup_reverse.mpr h.nodup
  · rw [h.authors, List.map_reverse, List.sum_reverse]
    omega
  · intro a ha
    rw [h.authors, List.mem_reverse] at ha
    exact h.each a ha

theorem MakerOk.push {maker : ABAProofMaker} (h : MakerOk c P maker) {a : PublicKey} {signature : Signature}
    (fresh : a ∉ maker.used) (claim : P a) : MakerOk c P (maker.push a (a, signature) (c.stake a)) := by
  have weight := h.weight
  refine ⟨List.nodup_cons.mpr ⟨fresh, h.nodup⟩, ?_, ?_, ?_⟩
  · simp [Maker.push, h.authors]
  · simp only [Maker.push, List.map_cons, List.sum_cons]
    omega
  · intro b hb
    rcases List.mem_cons.mp hb with rfl | old
    · exact claim
    · exact h.each b old

theorem MakerOk.reset {maker : ABAProofMaker} (h : MakerOk c P maker) : MakerOk c P maker.reset :=
  ⟨h.nodup, h.authors, Nat.zero_le _, h.each⟩

/-- How much a certificate weighs. -/
def ABAProof.threshold (c : Committee) (proof : ABAProof) : Nat :=
  if proof.tag then c.randomCoinThreshold else c.quorumThreshold

/-- A certificate for the value, of sufficient weight. -/
structure AssembledFrom (c : Committee) (P : PublicKey → Prop) (v : ABAVal) (proof : ABAProof) : Prop where
  epoch : proof.epoch = v.epoch
  round : proof.round = v.round
  val : proof.val = v.val
  phase : proof.phase = v.phase
  tagged : proof.tag = true → proof.phase = VAL_PHASE
  backed : Backed c (proof.threshold c) P proof.votes

theorem AssembledFrom.preimage {v : ABAVal} {proof : ABAProof} (h : AssembledFrom c P v proof) :
    proof.preimage = v.preimage := by
  rw [ABAProof.preimage, ABAVal.preimage, h.epoch, h.round, h.val, h.phase]

theorem ABAProofMaker.append_ok {maker : ABAProofMaker} {v : ABAVal} (h : MakerOk c P maker)
    (claim : P v.author) : MakerOk c P (maker.append v c).2 ∧
      ∀ proof, (maker.append v c).1 = .ok (some proof) → AssembledFrom c P v proof := by
  unfold ABAProofMaker.append
  split
  · exact ⟨h, fun proof same => by contradiction⟩
  rename_i fresh
  have pushed : MakerOk c P (maker.push v.author (v.author, v.signature) (c.stake v.author)) := h.push fresh claim
  dsimp only
  split
  · rename_i heavy
    refine ⟨pushed.reset, fun proof same => ?_⟩
    obtain rfl := Option.some.inj (Except.ok.inj same)
    exact ⟨rfl, rfl, rfl, rfl, fun tag => by contradiction, pushed.backed heavy⟩
  · split
    · rename_i exactly
      refine ⟨pushed, fun proof same => ?_⟩
      obtain rfl := Option.some.inj (Except.ok.inj same)
      exact ⟨rfl, rfl, rfl, rfl, fun _ => exactly.2, pushed.backed exactly.1.ge⟩
    · exact ⟨pushed, fun proof same => by simp at same⟩

end

/-! ## The certificates of a core -/

/-- What a core holds is backed by claims in `P`. -/
structure AbaCerts (P : PublicKey → List UInt8 → Prop) (k : Core) : Prop where
  makers : ∀ e r ph v maker, k.aggregator.abaValsAggregators.get? (e, r, ph, v) = some maker →
    MakerOk k.committee (P · (abaPreimage e r v ph)) maker
  weak : ∀ e r proof, k.abaValPhaseCache1.get? (e, r) = some proof →
    proof.epoch = e ∧ proof.round = r ∧ proof.phase = VAL_PHASE ∧
      Backed k.committee k.committee.randomCoinThreshold (P · proof.preimage) proof.votes
  strong : ∀ e r proof, k.abaValPhaseCache2.get? (e, r) = some proof →
    proof.epoch = e ∧ proof.round = r ∧ proof.phase = VAL_PHASE ∧
      Backed k.committee k.committee.quorumThreshold (P · proof.preimage) proof.votes
  aux : ∀ e r proof, k.abaAuxPhaseCache.get? (e, r) = some proof →
    proof.epoch = e ∧ proof.round = r ∧ proof.phase = AUX_PHASE ∧
      Backed k.committee k.committee.quorumThreshold (P · proof.preimage) proof.votes
  proofs : ∀ e r proof, k.abaProofCache.get? (e, r) = some proof →
    proof.epoch = e ∧ proof.round = r ∧
      Backed k.committee k.committee.quorumThreshold (P · proof.preimage) proof.votes

namespace AbaCerts
variable {P P' : PublicKey → List UInt8 → Prop} {k k' : Core}

theorem mono (h : AbaCerts P k) (le : ∀ a m, P a m → P' a m) : AbaCerts P' k where
  makers := fun e r ph v maker found => (h.makers e r ph v maker found).mono fun a => le a _
  weak := fun e r proof found =>
    let ⟨epoch, round, phase, backed⟩ := h.weak e r proof found
    ⟨epoch, round, phase, backed.mono fun a => le a _⟩
  strong := fun e r proof found =>
    let ⟨epoch, round, phase, backed⟩ := h.strong e r proof found
    ⟨epoch, round, phase, backed.mono fun a => le a _⟩
  aux := fun e r proof found =>
    let ⟨epoch, round, phase, backed⟩ := h.aux e r proof found
    ⟨epoch, round, phase, backed.mono fun a => le a _⟩
  proofs := fun e r proof found =>
    let ⟨epoch, round, backed⟩ := h.proofs e r proof found
    ⟨epoch, round, backed.mono fun a => le a _⟩

theorem init (name : PublicKey) (committee : Committee) (parameters : Parameters) (store : Store) :
    AbaCerts P (Core.new name committee parameters store) := by
  refine ⟨?_, ?_, ?_, ?_, ?_⟩ <;> intros <;> rename_i found <;>
    simp [Core.new, Aggregator.new] at found

/-- Dropping entries keeps what is held. -/
theorem sub (h : AbaCerts P k) (committee : k'.committee = k.committee)
    (makers : ∀ key maker, k'.aggregator.abaValsAggregators.get? key = some maker →
      k.aggregator.abaValsAggregators.get? key = some maker)
    (weak : ∀ key proof, k'.abaValPhaseCache1.get? key = some proof → k.abaValPhaseCache1.get? key = some proof)
    (strong : ∀ key proof, k'.abaValPhaseCache2.get? key = some proof → k.abaValPhaseCache2.get? key = some proof)
    (aux : ∀ key proof, k'.abaAuxPhaseCache.get? key = some proof → k.abaAuxPhaseCache.get? key = some proof)
    (proofs : ∀ key proof, k'.abaProofCache.get? key = some proof → k.abaProofCache.get? key = some proof) :
    AbaCerts P k' where
  makers := fun e r ph v maker found => committee ▸ h.makers e r ph v maker (makers _ _ found)
  weak := fun e r proof found => committee ▸ h.weak e r proof (weak _ _ found)
  strong := fun e r proof found => committee ▸ h.strong e r proof (strong _ _ found)
  aux := fun e r proof found => committee ▸ h.aux e r proof (aux _ _ found)
  proofs := fun e r proof found => committee ▸ h.proofs e r proof (proofs _ _ found)

theorem nextRound (h : AbaCerts P k) (val : UInt64) : AbaCerts P (k.nextRound val) :=
  h.sub rfl (fun _ _ found => found) (fun _ _ found => (Map.get?_of_retain found).2)
    (fun _ _ found => (Map.get?_of_retain found).2) (fun _ _ found => (Map.get?_of_retain found).2)
    (fun _ _ found => (Map.get?_of_retain found).2)

theorem nextEpoch (h : AbaCerts P k) : AbaCerts P k.nextEpoch :=
  h.sub rfl (fun _ _ found => (Map.get?_of_retain found).2) (fun _ _ found => (Map.get?_of_retain found).2)
    (fun _ _ found => (Map.get?_of_retain found).2) (fun _ _ found => (Map.get?_of_retain found).2)
    (fun _ _ found => (Map.get?_of_retain found).2)

theorem agreement (h : AbaCerts P k) (same : k'.agreement = k.agreement) : AbaCerts P k' := by
  have aggregator : k'.aggregator = k.aggregator := Core.agreement_eq Core.aggregator (fun _ => rfl) same
  have weak := Core.agreement_eq Core.abaValPhaseCache1 (fun _ => rfl) same
  have strong := Core.agreement_eq Core.abaValPhaseCache2 (fun _ => rfl) same
  have aux := Core.agreement_eq Core.abaAuxPhaseCache (fun _ => rfl) same
  have proofs := Core.agreement_eq Core.abaProofCache (fun _ => rfl) same
  exact h.sub (Core.agreement_eq Core.committee (fun _ => rfl) same) (aggregator ▸ fun _ _ found => found)
    (weak ▸ fun _ _ found => found) (strong ▸ fun _ _ found => found) (aux ▸ fun _ _ found => found)
    (proofs ▸ fun _ _ found => found)

/-! ### Counting a value -/

theorem Backed.of_verify [Crypto] {P : PublicKey → Prop} {proof : ABAProof} {c : Committee}
    (verified : proof.verify c = .ok ()) (each : ∀ a ∈ proof.votes.map Prod.fst, P a) :
    Backed c c.quorumThreshold P proof.votes := by
  obtain ⟨nodup, -, heavy, -⟩ := ABAProof.verify_ok verified
  refine ⟨nodup, ?_, each⟩
  rwa [Quorum.weight, List.sum_toFinset c.stake nodup] at heavy

variable {v : ABAVal}

theorem append (h : AbaCerts P k) (claim : P v.author v.preimage) :
    MakerOk k.committee (P · v.preimage)
      (ABAProofMaker.append (k.aggregator.abaValsAggregators.getD (v.epoch, v.round, v.phase, v.val) Maker.new)
        v k.committee).2 ∧
      ∀ proof, (k.aggregator.addAbaVal v k.committee).1 = .ok (some proof) →
        AssembledFrom k.committee (P · v.preimage) v proof := by
  refine ABAProofMaker.append_ok ?_ claim
  unfold Map.getD
  cases found : k.aggregator.abaValsAggregators.get? (v.epoch, v.round, v.phase, v.val) with
  | none => exact MakerOk.new
  | some maker => exact h.makers _ _ _ _ _ found

theorem addAbaVal_makers (h : AbaCerts P k) (claim : P v.author v.preimage) (e r : SeqNumber) (ph : UInt8)
    (val : UInt64) (maker : ABAProofMaker)
    (found : (k.aggregator.addAbaVal v k.committee).2.abaValsAggregators.get? (e, r, ph, val) = some maker) :
    MakerOk k.committee (P · (abaPreimage e r val ph)) maker := by
  rw [Aggregator.addAbaVal, Map.get?_insert] at found
  split at found
  · rename_i same
    simp only [Prod.mk.injEq] at same
    obtain ⟨rfl, rfl, rfl, rfl⟩ := same
    rw [← Option.some.inj found]
    exact (h.append claim).1
  · exact h.makers e r ph val maker found

/-- A cache that keeps the certificates of a sort. -/
theorem keptProof_get? {wanted : ABAProof → Bool} {m : Map (SeqNumber × SeqNumber) ABAProof}
    {result : ConsensusResult (Option ABAProof)} {e r : SeqNumber} {proof : ABAProof}
    (found : (Core.keptProof wanted m result).get? (e, r) = some proof) :
    m.get? (e, r) = some proof ∨
      result = .ok (some proof) ∧ wanted proof = true ∧ proof.epoch = e ∧ proof.round = r := by
  unfold Core.keptProof at found
  split at found
  · split at found
    · rename_i kept
      rw [Map.get?_insert] at found
      split at found
      · rename_i same
        obtain rfl := Option.some.inj found
        simp only [Prod.mk.injEq] at same
        exact .inr ⟨rfl, kept, same.1, same.2⟩
      · exact .inl found
    · exact .inl found
  · exact .inl found

theorem hearVal (h : AbaCerts P k) (claim : P v.author v.preimage) (phase : v.phase = VAL_PHASE) :
    AbaCerts P (k.hearVal v) where
  makers := h.addAbaVal_makers claim
  weak := fun e r proof found => by
    rcases keptProof_get? found with old | ⟨added, tagged, rfl, rfl⟩
    · exact h.weak e r proof old
    · have from' := (h.append claim).2 proof added
      have backed := from'.backed
      rw [ABAProof.threshold, if_pos tagged] at backed
      refine ⟨rfl, rfl, from'.phase.trans phase, ?_⟩
      rwa [from'.preimage]
  strong := fun e r proof found => by
    rcases keptProof_get? found with old | ⟨added, tagged, rfl, rfl⟩
    · exact h.strong e r proof old
    · have from' := (h.append claim).2 proof added
      have backed := from'.backed
      rw [ABAProof.threshold, if_neg (by simpa using tagged)] at backed
      refine ⟨rfl, rfl, from'.phase.trans phase, ?_⟩
      rwa [from'.preimage]
  aux := h.aux
  proofs := h.proofs

theorem hearAux (h : AbaCerts P k) (claim : P v.author v.preimage) (phase : v.phase = AUX_PHASE) :
    AbaCerts P (k.hearAux v) where
  makers := h.addAbaVal_makers claim
  weak := h.weak
  strong := h.strong
  aux := fun e r proof found => by
    rcases keptProof_get? found with old | ⟨added, -, rfl, rfl⟩
    · exact h.aux e r proof old
    · have from' := (h.append claim).2 proof added
      have untagged : ¬ proof.tag = true := fun tag => by
        have val := from'.tagged tag
        rw [from'.phase, phase] at val
        contradiction
      have backed := from'.backed
      rw [ABAProof.threshold, if_neg untagged] at backed
      refine ⟨rfl, rfl, from'.phase.trans phase, ?_⟩
      rwa [from'.preimage]
  proofs := h.proofs

theorem hearProof {proof : ABAProof} (h : AbaCerts P k)
    (backed : Backed k.committee k.committee.quorumThreshold (P · proof.preimage) proof.votes) :
    AbaCerts P (k.hearProof proof) where
  makers := h.makers
  weak := h.weak
  strong := h.strong
  aux := h.aux
  proofs := fun e r other found => by
    rw [Core.hearProof, Map.get?_insert] at found
    split at found
    · rename_i same
      simp only [Prod.mk.injEq] at same
      obtain rfl := Option.some.inj found
      exact ⟨same.1, same.2, backed⟩
    · exact h.proofs e r other found

end AbaCerts

/-- The acts of the agreement keep its certificates, if what is heard is claimed. -/
theorem AbaAct.certs [Crypto] {got : ConsensusMessage → Prop} {P : PublicKey → List UInt8 → Prop} {k k' : Core}
    {l l' : List Event} (act : AbaAct got k l k' l')
    (heard : ∀ v, got (.abaVal v) ∨ Sent (.abaVal v) l → v.verify = .ok () → P v.author v.preimage)
    (proved : ∀ proof, got (.abaProof proof) → proof.verify k.committee = .ok () →
      ∀ a ∈ proof.votes.map Prod.fst, P a proof.preimage)
    (h : AbaCerts P k) : AbaCerts P k' := by
  cases act with
  | hearVal msg _ phase verified => exact h.hearVal (heard _ msg verified) phase
  | hearAux msg _ phase verified => exact h.hearAux (heard _ msg verified) phase
  | hearProof msg _ verified => exact h.hearProof (AbaCerts.Backed.of_verify verified (proved _ msg verified))
  | nextRound => exact h.nextRound _
  | _ => exact ⟨h.makers, h.weak, h.strong, h.aux, h.proofs⟩

end HotstuffDag
