import HotstuffDag.Proof.AbaCerts

/-! # The votes behind the certificates

Each vote in a maker or in an AUX certificate was brought by a verified message for the same bytes. -/

namespace HotstuffDag
open Library Library.Exec
variable [Crypto] {got : ConsensusMessage → Prop}

/-- A verified message for the bytes has brought the vote. -/
def Brought (got : ConsensusMessage → Prop) (l : List Event) (preimage : List UInt8) (vote : PublicKey × Signature) : Prop :=
  ∃ v : ABAVal, (got (.abaVal v) ∨ Sent (.abaVal v) l) ∧ v.verify = .ok () ∧ v.preimage = preimage ∧ (v.author, v.signature) = vote

theorem Brought.mono {l l' : List Event} {preimage : List UInt8} {vote : PublicKey × Signature} (h : Brought got l preimage vote)
    (le : l <+: l') : Brought got l' preimage vote := by
  obtain ⟨v, from', rest⟩ := h
  exact ⟨v, from'.imp_right fun sent => sent.mono le, rest⟩

theorem Brought.verified {l : List Event} {preimage : List UInt8} {vote : PublicKey × Signature} (h : Brought got l preimage vote) :
    Crypto.verify vote.2 (Crypto.sha512 preimage) vote.1 = true := by
  obtain ⟨v, -, verified, rfl, rfl⟩ := h
  exact ensure_ok.mp verified

/-- What the makers and the AUX certificates of a core are made of. -/
structure AbaVotes (got : ConsensusMessage → Prop) (k : Core) (l : List Event) : Prop where
  makers : ∀ e r ph v maker, k.aggregator.abaValsAggregators.get? (e, r, ph, v) = some maker →
    ∀ vote ∈ maker.votes, Brought got l (abaPreimage e r v ph) vote
  aux : ∀ e r proof, k.abaAuxPhaseCache.get? (e, r) = some proof → ∀ vote ∈ proof.votes, Brought got l proof.preimage vote

omit [Crypto] in
/-- A value adds its own vote. -/
theorem ABAProofMaker.append_votes {maker : ABAProofMaker} {v : ABAVal} {c : Committee} {vote : PublicKey × Signature} :
    (vote ∈ (maker.append v c).2.votes → vote ∈ maker.votes ∨ vote = (v.author, v.signature)) ∧
      ∀ proof, (maker.append v c).1 = .ok (some proof) → proof.preimage = v.preimage ∧
        (vote ∈ proof.votes → vote ∈ maker.votes ∨ vote = (v.author, v.signature)) := by
  have pushed (mem : vote ∈ maker.votes ++ [(v.author, v.signature)]) : vote ∈ maker.votes ∨ vote = (v.author, v.signature) :=
    (List.mem_append.mp mem).imp_right List.mem_singleton.mp
  unfold ABAProofMaker.append
  split
  · exact ⟨.inl, nofun⟩
  dsimp only
  split
  · refine ⟨pushed, fun proof same => ?_⟩
    obtain rfl := Option.some.inj (Except.ok.inj same)
    exact ⟨rfl, pushed⟩
  · split
    · refine ⟨pushed, fun proof same => ?_⟩
      obtain rfl := Option.some.inj (Except.ok.inj same)
      exact ⟨rfl, pushed⟩
    · exact ⟨pushed, fun proof same => by simp at same⟩

namespace AbaVotes
variable {k k' : Core} {l l' : List Event}

theorem mono (h : AbaVotes got k l) (le : l <+: l') : AbaVotes got k l' where
  makers := fun e r ph v maker found vote mem => (h.makers e r ph v maker found vote mem).mono le
  aux := fun e r proof found vote mem => (h.aux e r proof found vote mem).mono le

theorem sub (h : AbaVotes got k l)
    (makers : ∀ key maker, k'.aggregator.abaValsAggregators.get? key = some maker →
      k.aggregator.abaValsAggregators.get? key = some maker)
    (aux : ∀ key proof, k'.abaAuxPhaseCache.get? key = some proof → k.abaAuxPhaseCache.get? key = some proof) :
    AbaVotes got k' l where
  makers := fun e r ph v maker found => h.makers e r ph v maker (makers _ _ found)
  aux := fun e r proof found => h.aux e r proof (aux _ _ found)

variable {v : ABAVal}

/-- The votes of the maker that hears a value. -/
theorem held (h : AbaVotes got k l) {vote : PublicKey × Signature}
    (mem : vote ∈ (k.aggregator.abaValsAggregators.getD (v.epoch, v.round, v.phase, v.val) Maker.new).votes) :
    Brought got l v.preimage vote := by
  unfold Map.getD at mem
  cases found : k.aggregator.abaValsAggregators.get? (v.epoch, v.round, v.phase, v.val) with
  | none =>
      rw [found] at mem
      exact absurd mem List.not_mem_nil
  | some maker =>
      rw [found] at mem
      exact h.makers _ _ _ _ _ found vote mem

theorem hear (h : AbaVotes got k l) (brought : Brought got l v.preimage (v.author, v.signature)) :
    (∀ e r ph val maker, (k.aggregator.addAbaVal v k.committee).2.abaValsAggregators.get? (e, r, ph, val) = some maker →
      ∀ vote ∈ maker.votes, Brought got l (abaPreimage e r val ph) vote) ∧
      ∀ proof, (k.aggregator.addAbaVal v k.committee).1 = .ok (some proof) →
        ∀ vote ∈ proof.votes, Brought got l proof.preimage vote := by
  have either {vote : PublicKey × Signature} (origin : vote ∈ (k.aggregator.abaValsAggregators.getD
      (v.epoch, v.round, v.phase, v.val) Maker.new).votes ∨ vote = (v.author, v.signature)) : Brought got l v.preimage vote := by
    rcases origin with old | rfl
    · exact h.held old
    · exact brought
  refine ⟨fun e r ph val maker found vote mem => ?_, fun proof completed vote mem => ?_⟩
  · rw [Aggregator.addAbaVal, Map.get?_insert] at found
    split at found
    · rename_i same
      simp only [Prod.mk.injEq] at same
      obtain ⟨rfl, rfl, rfl, rfl⟩ := same
      rw [← Option.some.inj found] at mem
      exact either (ABAProofMaker.append_votes.1 mem)
    · exact h.makers e r ph val maker found vote mem
  · obtain ⟨same, origin⟩ := ABAProofMaker.append_votes.2 proof completed
    rw [same]
    exact either (origin mem)

theorem act (h : AbaVotes got k l) (act : AbaAct got k l k' l') : AbaVotes got k' l' := by
  have grown := act.frame.log
  cases act with
  | hearVal msg _ _ verified =>
      exact AbaVotes.mono ⟨(h.hear ⟨_, msg, verified, rfl, rfl⟩).1, h.aux⟩ grown
  | hearAux msg _ _ verified =>
      obtain ⟨makers, completed⟩ := h.hear ⟨_, msg, verified, rfl, rfl⟩
      refine AbaVotes.mono ⟨makers, fun e r proof found => ?_⟩ grown
      rcases AbaCerts.keptProof_get? found with old | ⟨added, -⟩
      · exact h.aux e r proof old
      · exact completed proof added
  | @nextRound _ val =>
      have kept : AbaVotes got (k.nextRound val) l := h.sub (fun _ _ found => found) fun _ _ found => (Map.get?_of_retain found).2
      exact kept.mono grown
  | _ => exact AbaVotes.mono ⟨h.makers, h.aux⟩ grown

theorem nextEpoch (h : AbaVotes got k l) : AbaVotes got k.nextEpoch l :=
  h.sub (fun _ _ found => (Map.get?_of_retain found).2) fun _ _ found => (Map.get?_of_retain found).2

theorem agreement (h : AbaVotes got k l) (same : k'.agreement = k.agreement) : AbaVotes got k' l := by
  have aggregator : k'.aggregator = k.aggregator := Core.agreement_eq Core.aggregator (fun _ => rfl) same
  have aux := Core.agreement_eq Core.abaAuxPhaseCache (fun _ => rfl) same
  exact h.sub (aggregator ▸ fun _ _ found => found) (aux ▸ fun _ _ found => found)

theorem new (name : PublicKey) (committee : Committee) (parameters : Parameters) (store : Store) :
    AbaVotes got (Core.new name committee parameters store) l := by
  refine ⟨fun e r ph v maker found => ?_, fun e r proof found => ?_⟩ <;> simp [Core.new, Aggregator.new] at found

end AbaVotes

variable [Bincode]

/-- Makers and certificates count distinct authors, each with a vote that a verified message has brought. -/
theorem votesInvariant (ok : Input → Prop) :
    Invariant ok fun _ k l => AbaCerts (fun _ _ => True) k ∧ AbaVotes (Received ok) k l where
  act := by
    intro s s' _ act ⟨certs, votes⟩
    have grown := act.frame.log
    cases act.abaCase with
    | act act => exact ⟨act.certs (fun _ _ _ => trivial) (fun _ _ _ _ _ => trivial) certs, votes.act act⟩
    | nextEpoch core =>
        rw [core]
        exact ⟨certs.nextEpoch, votes.nextEpoch.mono grown⟩
    | other same => exact ⟨certs.agreement same, (votes.agreement same).mono grown⟩
  blind := fun _ _ ⟨certs, votes⟩ => ⟨certs.agreement rfl, votes.agreement rfl⟩
  makePayload := fun _ ⟨certs, votes⟩ => ⟨certs, votes.mono (List.prefix_append _ _)⟩
  storePayload := fun _ _ ⟨certs, votes⟩ => ⟨certs.agreement rfl, votes.agreement rfl⟩

end HotstuffDag
