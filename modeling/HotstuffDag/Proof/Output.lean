import HotstuffDag.Proof.AbaValidity
import HotstuffDag.Proof.AbaVotes
import HotstuffDag.Proof.Stages
import HotstuffDag.Proof.Verification

/-! # What an output rests on

A value is output with a certificate of the AUX phase, if the certificate that the node has assembled is for this
value and of authorities with voting rights, and the proof that it has received is of this phase. -/

namespace HotstuffDag
open Library Library.Exec

section

namespace Core

/-- The value that `process_coin_share` outputs. -/
def choice (k : Core) (coin : Nat) : Option UInt64 :=
  match k.binValues with
  | [v] => if v % 2 = UInt64.ofNat coin then some v else none
  | _ =>
      match k.abaAuxPhaseCache.get? (k.epoch, k.abaRound) with
      | some proof => if proof.val % 2 = UInt64.ofNat coin then some proof.val else none
      | none => none

theorem choice_eq_some {k : Core} {coin : Nat} {v : UInt64} : k.choice coin = some v ↔ CoinOutput k coin v := by
  unfold choice CoinOutput
  split
  · rename_i w bin
    rw [bin]
    by_cases parity : w % 2 = UInt64.ofNat coin
    · rw [if_pos parity, Option.some.injEq]
      constructor
      · rintro rfl
        exact ⟨parity, .inl rfl⟩
      · rintro ⟨-, same | ⟨several, -⟩⟩
        · exact (List.cons.inj same).1
        · exact absurd rfl (several w)
    · rw [if_neg parity]
      constructor
      · intro chosen
        contradiction
      · rintro ⟨parity', same | ⟨several, -⟩⟩
        · rw [(List.cons.inj same).1] at parity
          exact absurd parity' parity
        · exact absurd rfl (several w)
  · rename_i several
    split
    · rename_i proof cached
      constructor
      · intro chosen
        split at chosen
        · rename_i parity
          rw [← Option.some.inj chosen]
          exact ⟨parity, .inr ⟨several, proof, cached, rfl⟩⟩
        · contradiction
      · rintro ⟨parity, single | ⟨-, other, cached', rfl⟩⟩
        · exact absurd single (several v)
        · rw [cached] at cached'
          rw [Option.some.inj cached', if_pos parity]
    · rename_i missing
      constructor
      · intro chosen
        contradiction
      · rintro ⟨-, single | ⟨-, other, cached', -⟩⟩
        · exact absurd single (several v)
        · rw [missing] at cached'
          contradiction

/-- The certificates for the current round. -/
def heldProofs (k : Core) : List ABAProof :=
  (k.abaAuxPhaseCache.get? (k.epoch, k.abaRound)).toList ++ (k.abaProofCache.get? (k.epoch, k.abaRound)).toList

variable [Crypto]

/-- The node holds a valid AUX certificate for the value in the current round, and the coin is for it. -/
structure Backs (k : Core) (committee : Committee) (v : UInt64) : Prop where
  proof : ∃ proof ∈ k.heldProofs, proof.verify committee = .ok () ∧ proof.phase = AUX_PHASE ∧ proof.epoch = k.epoch ∧
    proof.round = k.abaRound ∧ proof.val = v
  coin : ∃ coin ∈ k.abaCoinCache.get? (k.epoch, k.abaRound), v % 2 = UInt64.ofNat coin

/-- The authors of the proof have voting rights. -/
def Entitles (k : Core) (proof : ABAProof) : Prop := ∀ name ∈ proof.votes.map Prod.fst, 0 < k.committee.stake name

instance (k : Core) (proof : ABAProof) : Decidable (k.Entitles proof) := inferInstanceAs (Decidable (∀ name ∈ _, _))

/-- If one value only has been accepted and the coin is for it, the certificate is for this value; and where it is the coin's,
its authors have voting rights. -/
def Agrees (k : Core) (coin : Nat) (proof : ABAProof) : List UInt64 → Prop
  | [v] => v % 2 = UInt64.ofNat coin → proof.val = v ∧ k.Entitles proof
  | [] | _ :: _ :: _ => proof.val % 2 = UInt64.ofNat coin → k.Entitles proof

instance (k : Core) (coin : Nat) (proof : ABAProof) : DecidablePred (k.Agrees coin proof)
  | [_] => inferInstanceAs (Decidable (_ → _))
  | [] | _ :: _ :: _ => inferInstanceAs (Decidable (_ → _))

/-- The values that have been accepted agree with the AUX certificate that is cached for the round. -/
def BinCertified (k : Core) (coin : Nat) : Prop :=
  ∀ proof ∈ k.abaAuxPhaseCache.get? (k.epoch, k.abaRound), k.Agrees coin proof k.binValues

instance (k : Core) (coin : Nat) : Decidable (k.BinCertified coin) := inferInstanceAs (Decidable (∀ proof ∈ _, _))

section
omit [Crypto]

theorem BinCertified.choice {k : Core} {coin : Nat} {v : UInt64} {proof : ABAProof} (h : k.BinCertified coin)
    (chosen : CoinOutput k coin v) (cached : k.abaAuxPhaseCache.get? (k.epoch, k.abaRound) = some proof) :
    proof.val = v ∧ k.Entitles proof := by
  have agrees := h proof cached
  obtain ⟨parity, single | ⟨several, other, cached', rfl⟩⟩ := chosen
  · rw [single] at agrees
    exact agrees parity
  · rw [cached] at cached'
    obtain rfl := Option.some.inj cached'
    unfold Agrees at agrees
    split at agrees
    · rename_i v bin
      exact absurd bin (several v)
    · exact ⟨rfl, agrees parity⟩
    · exact ⟨rfl, agrees parity⟩

/-- The value of the proof, where the coin is for it. -/
def proofChoice (k : Core) (proof : ABAProof) : Option UInt64 :=
  match k.abaCoinCache.get? (proof.epoch, proof.round) with
  | some coin => if proof.val % 2 = UInt64.ofNat coin then some proof.val else none
  | none => none

theorem proofChoice_eq_some {k : Core} {proof : ABAProof} {v : UInt64} : k.proofChoice proof = some v ↔
    ∃ coin ∈ k.abaCoinCache.get? (proof.epoch, proof.round), proof.val % 2 = UInt64.ofNat coin ∧ proof.val = v := by
  unfold proofChoice
  split
  · rename_i coin coined
    rw [coined]
    by_cases parity : proof.val % 2 = UInt64.ofNat coin <;> simp [parity]
  · rename_i missing
    simp [missing]

end

/-- A proof of another phase is not for the coin, unless the node has the AUX certificate for its value. -/
def HeedsPhase (k : Core) (proof : ABAProof) : Prop :=
  ∀ coin ∈ k.abaCoinCache.get? (proof.epoch, proof.round), proof.phase ≠ AUX_PHASE → proof.val % 2 = UInt64.ofNat coin →
    ∃ own ∈ k.abaAuxPhaseCache.get? (proof.epoch, proof.round), own.val = proof.val ∧ k.Entitles own

instance (k : Core) (proof : ABAProof) : Decidable (k.HeedsPhase proof) := inferInstanceAs (Decidable (∀ coin ∈ _, _))

end Core

/-- The output becomes the value in this core. -/
def Decides (l : List Event) (k : Core) (v : UInt64) : Prop :=
  (∃ coin, Event.coinCall k coin ∈ l ∧ k.choice coin = some v) ∨ ∃ proof, Event.proofCall k proof ∈ l ∧ k.proofChoice proof = some v

theorem Decides.mono {l l' : List Event} {k : Core} {v : UInt64} (h : Decides l k v) (le : l <+: l') : Decides l' k v := by
  rcases h with ⟨coin, called, chosen⟩ | ⟨proof, called, chosen⟩
  · exact .inl ⟨coin, le.subset called, chosen⟩
  · exact .inr ⟨proof, le.subset called, chosen⟩

/-! ## What the deciding core holds -/

variable [Crypto]

/-- The certificates of a core are of votes that it has received, and valid if they were received. -/
structure Attested (got : ConsensusMessage → Prop) (committee : Committee) (k : Core) (l : List Event) : Prop where
  same : k.committee = committee
  certs : AbaCerts (fun _ _ => True) k
  votes : AbaVotes got k l
  proofs : ∀ key proof, k.abaProofCache.get? key = some proof → proof.verify committee = .ok ()
  primed : k.Primed

section
variable {got : ConsensusMessage → Prop} {committee : Committee} {k k' : Core} {l l' : List Event}

theorem Attested.mono (h : Attested got committee k l) (le : l <+: l') : Attested got committee k l' :=
  ⟨h.same, h.certs, h.votes.mono le, h.proofs, h.primed⟩

theorem Attested.act (h : Attested got committee k l) (act : AbaAct got k l k' l') : Attested got committee k' l' := by
  refine ⟨act.frame.committee.trans h.same, act.certs (fun _ _ _ => trivial) (fun _ _ _ _ _ => trivial) h.certs,
    h.votes.act act, ?_, h.primed.abaAct act⟩
  cases act with
  | hearProof _ _ verified =>
      intro key other found
      rw [Core.hearProof, Map.get?_insert] at found
      split at found
      · rw [← Option.some.inj found, ← h.same]
        exact verified
      · exact h.proofs key other found
  | nextRound => exact fun key other found => h.proofs key other (Map.get?_of_retain found).2
  | _ => exact h.proofs

/-- The AUX certificate of the round is valid, if its authors have voting rights. -/
theorem Attested.verified (h : Attested got committee k l) {e r : SeqNumber} {proof : ABAProof}
    (cached : k.abaAuxPhaseCache.get? (e, r) = some proof)
    (positive : ∀ name ∈ proof.votes.map Prod.fst, 0 < k.committee.stake name) : proof.verify committee = .ok () := by
  obtain ⟨-, -, -, backed⟩ := h.certs.aux e r proof cached
  rw [← h.same]
  refine (ABAProof.verify_eq_ok_iff _).mpr ⟨⟨backed.nodup, positive, backed.heavy⟩, List.all_eq_true.mpr fun vote mem => ?_⟩
  exact (h.votes.aux e r proof cached vote mem).verified

end

/-! ## Runs -/

/-- What the log shows of outputs. -/
structure Decisions (got : ConsensusMessage → Prop) (committee : Committee) (l : List Event) : Prop where
  coinCalls : ∀ k coin, Event.coinCall k coin ∈ l → Attested got committee k l ∧ k.phase ≥ COIN_PHASE ∧
    k.abaCoinCache.get? (k.epoch, k.abaRound) = some coin
  proofCalls : ∀ k proof, Event.proofCall k proof ∈ l → Attested got committee k l ∧
    k.abaProofCache.get? (k.epoch, k.abaRound) = some proof
  outputs : ∀ e r v, Event.abaOutput e r v ∈ l → ∃ k, k.epoch = e ∧ k.abaRound = r ∧ Decides l k v
  sent : ∀ proof, Sent (.abaProof proof) l → ∃ k coin v, Event.coinCall k coin ∈ l ∧ k.choice coin = some v ∧
    k.abaAuxPhaseCache.get? (k.epoch, k.abaRound) = some proof ∧ Event.abaOutput k.epoch k.abaRound v ∈ l

namespace Decisions
variable {got : ConsensusMessage → Prop} {committee : Committee} {k k' : Core} {l l' : List Event}

theorem new : Decisions got committee [] :=
  ⟨fun _ _ mem => absurd mem List.not_mem_nil, fun _ _ mem => absurd mem List.not_mem_nil,
    fun _ _ _ mem => absurd mem List.not_mem_nil, fun _ ⟨_, _, mem⟩ => absurd mem List.not_mem_nil⟩

/-- No event of the agreement is added. -/
theorem keep (h : Decisions got committee l) (le : l <+: l') (events : ∀ e, e.aboutAba → e ∈ l' → e ∈ l) :
    Decisions got committee l' where
  coinCalls := fun k coin mem => (h.coinCalls k coin (events _ trivial mem)).imp_left fun held => held.mono le
  proofCalls := fun k proof mem => (h.proofCalls k proof (events _ trivial mem)).imp_left fun held => held.mono le
  outputs := fun e r v mem =>
    let ⟨k, epoch, round, decides⟩ := h.outputs e r v (events _ trivial mem)
    ⟨k, epoch, round, decides.mono le⟩
  sent := fun proof ⟨tag, addresses, mem⟩ =>
    let ⟨k, coin, v, called, chosen, cached, output⟩ := h.sent proof ⟨tag, addresses, events _ trivial mem⟩
    ⟨k, coin, v, le.subset called, chosen, cached, le.subset output⟩

theorem act (h : Decisions got committee l) (held : Attested got committee k l) (act : AbaAct got k l k' l') :
    Decisions got committee l' := by
  have le := act.frame.log
  refine ⟨fun k₀ coin mem => ?_, fun k₀ proof mem => ?_, fun e r v mem => ?_, fun proof ⟨tag, addresses, mem⟩ => ?_⟩
  · rcases act.logged mem trivial with old | new
    · exact (h.coinCalls k₀ coin old).imp_left fun held => held.mono le
    · cases new with
      | coinCall phase cached => exact ⟨held.mono le, phase, cached⟩
  · rcases act.logged mem trivial with old | new
    · exact (h.proofCalls k₀ proof old).imp_left fun held => held.mono le
    · cases new with
      | proofCall cached => exact ⟨held.mono le, cached⟩
  · rcases act.logged mem trivial with old | new
    · obtain ⟨k₀, epoch, round, decides⟩ := h.outputs e r v old
      exact ⟨k₀, epoch, round, decides.mono le⟩
    · cases new with
      | coinOutput called why => exact ⟨k, rfl, rfl, .inl ⟨_, le.subset called, Core.choice_eq_some.mpr why⟩⟩
      | proofOutput called coined parity =>
          exact ⟨k, rfl, rfl, .inr ⟨_, le.subset called, Core.proofChoice_eq_some.mpr ⟨_, coined, parity, rfl⟩⟩⟩
  · rcases act.logged mem trivial with old | new
    · obtain ⟨k₀, coin, v, called, chosen, cached, output⟩ := h.sent proof ⟨tag, addresses, old⟩
      exact ⟨k₀, coin, v, le.subset called, chosen, cached, le.subset output⟩
    · cases new with
      | castProof called output why cached =>
          exact ⟨_, _, _, le.subset called, Core.choice_eq_some.mpr why, cached, le.subset output⟩

end Decisions

variable [Bincode]

theorem decisionsInvariant (ok : Input → Prop) (committee : Committee) : Invariant ok fun _ k l =>
    Attested (Received ok) committee k l ∧ Decisions (Received ok) committee l where
  act := by
    intro s s' _ act ⟨held, decisions⟩
    have le := act.frame.log
    have primed := held.primed.act act
    have same := act.frame.committee.trans held.same
    cases act.abaCase with
    | act act => exact ⟨held.act act, decisions.act held act⟩
    | nextEpoch core _ events =>
        rw [core] at primed ⊢
        refine ⟨⟨held.same, held.certs.nextEpoch, held.votes.nextEpoch.mono le, fun key proof found => ?_, primed⟩,
          decisions.keep le events⟩
        exact held.proofs key proof (Map.get?_of_retain found).2
    | other core events =>
        have proofs := Core.agreement_eq Core.abaProofCache (fun _ => rfl) core
        refine ⟨⟨same, held.certs.agreement core, (held.votes.agreement core).mono le, ?_, primed⟩, decisions.keep le events⟩
        rw [proofs]
        exact held.proofs
  blind := fun _ _ ⟨held, decisions⟩ => by
    have primed := held.primed
    exact ⟨⟨held.same, held.certs.agreement rfl, held.votes.agreement rfl, held.proofs,
      ⟨primed.tcs, primed.rounds, primed.first, primed.input, primed.ready, primed.shares⟩⟩, decisions⟩
  makePayload := fun _ ⟨held, decisions⟩ => by
    have le : ∀ {l : List Event} {e : Event}, l <+: l ++ [e] := List.prefix_append _ _
    refine ⟨held.mono le, decisions.keep le fun e about mem => (List.mem_append.mp mem).resolve_right fun new => ?_⟩
    rw [List.mem_singleton.mp new] at about
    exact about
  storePayload := fun _ _ ⟨held, decisions⟩ => by
    have primed := held.primed
    exact ⟨⟨held.same, held.certs.agreement rfl, held.votes.agreement rfl, held.proofs,
      ⟨primed.tcs, primed.rounds, primed.first, primed.input, primed.ready, primed.shares⟩⟩, decisions⟩

/-- Every output is backed where it is set, and the proof that is broadcast is for the output. -/
structure OutputJustified (committee : Committee) (l : List Event) : Prop where
  backed : ∀ k v, Decides l k v → k.Backs committee v
  decided : ∀ e r v, Event.abaOutput e r v ∈ l → ∃ k, k.epoch = e ∧ k.abaRound = r ∧ Decides l k v
  cast : ∀ proof, Sent (.abaProof proof) l → Event.abaOutput proof.epoch proof.round proof.val ∈ l

/-- Outputs are justified, in every run in which the accepted values agree with the cached AUX certificate whenever the coin is
processed, and a proof of another phase is only processed if the coin is not for it or the AUX certificate is there as well. -/
theorem output_justified (name : PublicKey) (committee : Committee) (parameters : Parameters) (store : Store) (env : Env)
    (inputs : List Input)
    (certified : ∀ k coin, Event.coinCall k coin ∈ ((Node.start (Core.new name committee parameters store) env).run inputs).log →
      k.BinCertified coin)
    (proved : ∀ k proof, Event.proofCall k proof ∈ ((Node.start (Core.new name committee parameters store) env).run inputs).log →
      k.HeedsPhase proof) :
    OutputJustified committee ((Node.start (Core.new name committee parameters store) env).run inputs).log := by
  have inv := decisionsInvariant (fun _ => True) committee
  have start : (Node.start (Core.new name committee parameters store) env).Sound fun _ k l =>
      Attested (Received fun _ => True) committee k l ∧ Decisions (Received fun _ => True) committee l := by
    refine inv.init ⟨⟨rfl, AbaCerts.init _ _ _ _, AbaVotes.new _ _ _ _, fun key proof found => ?_, Core.Primed.new _ _ _ _⟩, .new⟩
    simp [Core.new] at found
  have sound : ((Node.start (Core.new name committee parameters store) env).run inputs).Sound _ := inv.run (fun _ _ => trivial) start
  obtain ⟨_, -, decisions⟩ := sound.2
  refine ⟨fun k v decides => ?_, decisions.outputs, fun proof sent => ?_⟩
  · rcases decides with ⟨coin, called, chosen⟩ | ⟨proof, called, chosen⟩
    · obtain ⟨held, phase, coined⟩ := decisions.coinCalls k coin called
      have output := Core.choice_eq_some.mp chosen
      have certificate : (k.abaAuxPhaseCache.get? (k.epoch, k.abaRound)).isSome = true := by
        rcases output.2 with single | ⟨-, proof, cached, -⟩
        · rcases held.primed.ready with early | several | cached
          · exact absurd phase (UInt8.not_le.mpr early)
          · rw [single] at several
            exact absurd several (by decide : ¬ 2 ≤ 1)
          · exact cached
        · rw [cached]
          rfl
      obtain ⟨proof, cached⟩ := Option.isSome_iff_exists.mp certificate
      obtain ⟨val, positive⟩ := (certified k coin called).choice output cached
      obtain ⟨epoch, round, phase', -⟩ := held.certs.aux _ _ proof cached
      have mem : proof ∈ k.heldProofs := List.mem_append_left _ (Option.mem_toList.mpr cached)
      exact ⟨⟨proof, mem, held.verified cached positive, phase', epoch, round, val⟩, coin, coined, output.1⟩
    · obtain ⟨held, cached⟩ := decisions.proofCalls k proof called
      obtain ⟨epoch, round, -⟩ := held.certs.proofs _ _ proof cached
      obtain ⟨coin, coined, parity, rfl⟩ := Core.proofChoice_eq_some.mp chosen
      have heeds := proved k proof called coin coined
      rw [epoch, round] at coined heeds
      refine ⟨?_, coin, coined, parity⟩
      by_cases phase : proof.phase = AUX_PHASE
      · have mem : proof ∈ k.heldProofs := List.mem_append_right _ (Option.mem_toList.mpr cached)
        exact ⟨proof, mem, held.proofs _ proof cached, phase, epoch, round, rfl⟩
      · obtain ⟨own, cached', val, positive⟩ := heeds phase parity
        obtain ⟨epoch', round', phase', -⟩ := held.certs.aux _ _ own cached'
        have mem : own ∈ k.heldProofs := List.mem_append_left _ (Option.mem_toList.mpr cached')
        exact ⟨own, mem, held.verified cached' positive, phase', epoch', round', val⟩
  · obtain ⟨k, coin, v, called, chosen, cached, output⟩ := decisions.sent proof sent
    obtain ⟨val, -⟩ := (certified k coin called).choice (Core.choice_eq_some.mp chosen) cached
    obtain ⟨epoch, round, -⟩ := (decisions.coinCalls k coin called).1.certs.aux _ _ proof cached
    rw [epoch, round, val]
    exact output

end

namespace Sample

/-- A proof of the AUX phase of the first round. -/
def auxProof (val : UInt64) (voters : List Nat) : ABAProof :=
  ⟨0, 1, val, AUX_PHASE, voters.map fun n => (key n, (ABAVal.new (key n) 0 1 val AUX_PHASE).signature), false⟩

/-- The proof comes before the last share of the coin. -/
def helped : List Input :=
  inputsOf 1 (unanimous.drop 1) ++ [.deliver .smvba (.abaProof (auxProof 2 [2, 3, 4])) env, share 4 1]

theorem helped_justified : OutputJustified four ((start 1).run helped).log ∧
    (coinCalls ((start 1).run helped).log).length = 1 ∧ (proofCalls ((start 1).run helped).log).length = 2 := by
  have certified : ∀ call ∈ coinCalls ((start 1).run helped).log, call.1.BinCertified call.2 := by decide +kernel
  have proved : ∀ call ∈ proofCalls ((start 1).run helped).log, call.1.HeedsPhase call.2 := by decide +kernel
  refine ⟨output_justified (key 1) four ⟨500⟩ Map.empty env helped (fun k coin called => ?_) fun k proof called => ?_, ?_⟩
  · exact certified _ (mem_coinCalls called)
  · exact proved _ (mem_proofCalls called)
  · decide +kernel

/-- One value is accepted, and the AUX messages of the others are for another one. -/
def otherwise : List Input := inputsOf 1 (unanimous.drop 3) ++ [aux 2 1 4, aux 3 1 4, aux 4 1 4, share 4 1, share 2 1]

theorem otherwise_not_justified : ¬ OutputJustified four ((start 1).run otherwise).log := by
  intro justified
  have decided : ∃ call ∈ coinCalls ((start 1).run otherwise).log,
      ((call.1.choice call.2).any fun v => ∀ proof ∈ call.1.heldProofs, proof.val ≠ v) = true := by
    decide +kernel
  obtain ⟨⟨k, coin⟩, mem, other⟩ := decided
  obtain ⟨v, chosen, other⟩ := (Option.any_eq_true _ _).mp other
  have other := of_decide_eq_true other
  obtain ⟨proof, held, -, -, -, -, val⟩ := (justified.backed k v (.inl ⟨coin, called_of_mem mem, chosen⟩)).proof
  exact other proof held val

end Sample
end HotstuffDag
