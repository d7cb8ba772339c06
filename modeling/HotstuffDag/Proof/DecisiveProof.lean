import HotstuffDag.Proof.AbaPace
import HotstuffDag.Proof.Silence

/-! # Proofs of a decision

A proof for the round of the node whose value matches the coin decides the epoch, unless the round ends in the
same run of the stages. -/

namespace HotstuffDag
open Library Library.Exec

/-! ## A coin is cast once -/

theorem ABARandomCoinMaker.append_weight [Crypto] (maker : ABARandomCoinMaker) (share : RandomnessShare) (c : Committee) :
    maker.weight ≤ (ABARandomCoinMaker.append maker share c).2.weight ∧
      ∀ coin, (ABARandomCoinMaker.append maker share c).1 = .ok (some coin) →
        (ABARandomCoinMaker.append maker share c).2.weight = c.randomCoinThreshold ∧
        maker.weight + c.stake share.author = c.randomCoinThreshold := by
  have pushed : maker.weight ≤ maker.weight + c.stake share.author := Nat.le_add_right _ _
  unfold append
  split
  · exact ⟨Nat.le_refl _, nofun⟩
  · dsimp only
    split
    · rename_i complete
      split
      · exact ⟨pushed, fun _ _ => ⟨complete, complete⟩⟩
      · exact ⟨pushed, fun _ same => by simp at same⟩
    · exact ⟨pushed, fun _ same => by simp at same⟩

namespace Core

/-- The shares of a cached coin have reached the threshold. -/
def CoinSettled (k : Core) : Prop := ∀ key coin, k.abaCoinCache.get? key = some coin →
  k.committee.randomCoinThreshold ≤ (k.aggregator.abaRandomcoinAggregators.getD key Maker.new).weight

variable {got : ConsensusMessage → Prop} {k k' : Core} {l l' : List Event}

theorem CoinSettled.hearShare [Crypto] (h : k.CoinSettled) {share : RandomnessShare} (verified : share.verify k.committee = .ok ()) :
    (k.hearShare share).CoinSettled ∧ ∀ key coin, k.abaCoinCache.get? key = some coin →
      (k.hearShare share).abaCoinCache.get? key = some coin := by
  have positive := RandomnessShare.verify_ok verified
  obtain ⟨grows, completes⟩ := ABARandomCoinMaker.append_weight
    (k.aggregator.abaRandomcoinAggregators.getD (share.epoch, share.round) Maker.new) share k.committee
  have makers (key : SeqNumber × SeqNumber) : (k.hearShare share).aggregator.abaRandomcoinAggregators.getD key Maker.new =
      if (share.epoch, share.round) = key then (ABARandomCoinMaker.append
        (k.aggregator.abaRandomcoinAggregators.getD (share.epoch, share.round) Maker.new) share k.committee).2
      else k.aggregator.abaRandomcoinAggregators.getD key Maker.new := Map.getD_insert _ _ _ _ _
  have cache : (k.hearShare share).abaCoinCache = keptCoin k.abaCoinCache share (ABARandomCoinMaker.append
      (k.aggregator.abaRandomcoinAggregators.getD (share.epoch, share.round) Maker.new) share k.committee).1 := rfl
  have heavier (key : SeqNumber × SeqNumber) (settled : k.committee.randomCoinThreshold ≤
      (k.aggregator.abaRandomcoinAggregators.getD key Maker.new).weight) :
      k.committee.randomCoinThreshold ≤ ((k.hearShare share).aggregator.abaRandomcoinAggregators.getD key Maker.new).weight := by
    rw [makers]
    split
    · rename_i here
      rw [← here] at settled
      exact settled.trans grows
    · exact settled
  unfold keptCoin at cache
  split at cache
  · rename_i new completed
    obtain ⟨reached, before⟩ := completes new completed
    refine ⟨fun key coin cached => ?_, fun key coin cached => ?_⟩
    · rw [cache, Map.get?_insert] at cached
      split at cached
      · rename_i here
        rw [makers, if_pos here, reached]
        exact Nat.le_refl _
      · exact heavier key (h key coin cached)
    · rw [cache, Map.get?_insert]
      split
      · rename_i here
        have settled := h key coin cached
        rw [← here] at settled
        omega
      · exact cached
  · rw [cache]
    exact ⟨fun key coin cached => heavier key (h key coin (cache ▸ cached)), fun _ _ cached => cached⟩

theorem CoinSettled.act [Crypto] (h : k.CoinSettled) (act : AbaAct got k l k' l') : k'.CoinSettled := by
  cases act with
  | hearShare _ _ verified => exact (h.hearShare verified).1
  | _ => exact h

theorem CoinSettled.nextEpoch (h : k.CoinSettled) : k.nextEpoch.CoinSettled := by
  intro key coin cached
  obtain ⟨later, cached⟩ := Map.get?_of_retain cached
  have kept : k.nextEpoch.aggregator.abaRandomcoinAggregators.getD key Maker.new =
      k.aggregator.abaRandomcoinAggregators.getD key Maker.new := by
    change ((k.aggregator.abaRandomcoinAggregators.retain fun n => n.1 ≥ k.epoch + 1).getD key Maker.new) = _
    rw [Map.getD, Map.get?_retain, if_pos later]
    rfl
  rw [kept]
  exact h key coin cached

end Core

theorem coinSettledInvariant [Crypto] [Bincode] (ok : Input → Prop) : Invariant ok fun _ k _ => k.CoinSettled where
  act := by
    intro s s' _ act h
    cases act.abaCase with
    | act act => exact h.act act
    | nextEpoch core =>
        rw [core]
        exact h.nextEpoch
    | other same =>
        have cache := Core.agreement_eq Core.abaCoinCache (fun _ => rfl) same
        have aggregator := Core.agreement_eq Core.aggregator (fun _ => rfl) same
        have committee := Core.agreement_eq Core.committee (fun _ => rfl) same
        unfold Core.CoinSettled
        rw [cache, aggregator, committee]
        exact h
  blind := fun _ _ h => h
  makePayload := fun _ h => h
  storePayload := fun _ _ h => h

/-! ## The proof waits for its stage -/

namespace Core

/-- The node is in the view change of the epoch of the proof, with the coin of its round and, in its round, with the proof. -/
structure Awaits (proof : ABAProof) (coin : Nat) (k : Core) : Prop where
  primed : k.Primed
  settled : k.CoinSettled
  changing : k.isViewChange = true
  epoch : k.epoch = proof.epoch
  round : proof.round.toNat ≤ k.abaRound.toNat
  coined : k.abaCoinCache.get? (proof.epoch, proof.round) = some coin
  cached : k.abaRound = proof.round → k.abaProofCache.get? (proof.epoch, proof.round) = some proof

namespace Awaits
variable {proof : ABAProof} {coin : Nat} {k k' : Core} {l l' : List Event} {s t : State}

/-- Without a message of another node the proof stays up to the next round. -/
theorem act [Crypto] (h : Awaits proof coin k) (act : AbaAct (fun _ => False) k l k' l') : Awaits proof coin k' := by
  have primed := h.primed.abaAct act
  have settled := h.settled.act act
  have epoch := act.frame.epoch.trans h.epoch
  cases act with
  | hearShare _ _ verified =>
      exact ⟨primed, settled, h.changing, epoch, h.round, (h.settled.hearShare verified).2 _ _ h.coined, h.cached⟩
  | hearProof msg => exact msg.elim
  | @nextRound _ val _ _ _ _ small =>
      have next : (k.nextRound val).abaRound.toNat = k.abaRound.toNat + 1 := toNat_succ small
      refine ⟨primed, settled, h.changing, epoch, h.round.trans (by rw [next]; exact Nat.le_succ _), h.coined, fun same => ?_⟩
      have round := h.round
      rw [← same, next] at round
      omega
  | enterViewChange => exact ⟨primed, settled, rfl, epoch, h.round, h.coined, h.cached⟩
  | _ => exact ⟨primed, settled, h.changing, epoch, h.round, h.coined, h.cached⟩

theorem evolves [Crypto] (h : Awaits proof coin s.core) (reach : AbaEvolves (fun _ => False) s t) : Awaits proof coin t.core :=
  reach.keeps (P := fun k _ => Awaits proof coin k) (fun step awaits => awaits.act step) h

/-- The last stage sets the output. -/
theorem ends_processCachedProof (h : Awaits proof coin s.core) (parity : proof.val % 2 = UInt64.ofNat coin) :
    Ends processCachedProof s (fun _ t => t.core.abaRound = proof.round → t.core.abaOutputVal = some proof.val) fun _ _ => False := by
  unfold processCachedProof withCached
  refine ends_getCore (Ends.ite (fun _ => ends_getCore ?_) fun stays => absurd h.changing stays)
  by_cases here : s.core.abaRound = proof.round
  · rw [h.epoch, here, h.cached here]
    dsimp only
    unfold processAbaProof
    refine ends_getCore (ends_emit ?_)
    rw [h.coined]
    exact Ends.ite (fun _ _ => rfl) fun other => absurd parity other
  · have elsewhere {t : State} (same : t.core.abaRound = s.core.abaRound) :
        t.core.abaRound = proof.round → t.core.abaOutputVal = some proof.val := fun there => absurd (same.symm.trans there) here
    split
    · exact elsewhere rfl
    · unfold processAbaProof
      refine ends_getCore (ends_emit ?_)
      split
      · exact elsewhere rfl
      · exact Ends.ite (fun _ => elsewhere rfl) fun _ => elsewhere rfl

end Awaits

theorem DealsFreely.mute [Crypto] {s t : State} (h : s.core.DealsFreely) (mute : Mute s t) : t.core.DealsFreely := by
  unfold DealsFreely
  rw [mute.flag, mute.epoch, mute.round, mute.name, mute.committee, mute.makers]
  exact h

variable {name : PublicKey} {s : State} {proof : ABAProof} {coin : Nat}

/-- The stages fail only where a round cannot begin, and set the output if the round stays. -/
theorem ends_stages [Crypto] (h : AtPace name [] s) (awaits : Awaits proof coin s.core) (freely : s.core.DealsFreely)
    (parity : proof.val % 2 = UInt64.ofNat coin) : Ends processAbaPhase s
      (fun _ t => t.core.abaRound = proof.round → t.core.abaOutputVal = some proof.val) fun e _ => e = .overflow .round := by
  have evolves₁ : Leads (AbaEvolves fun _ => False) processCachedTc s fun _ _ => True := leads_processCachedTc
  refine ((((ends_processCachedTc (E := (· = .overflow .round)) h (.inr awaits.primed)).leads evolves₁).leads mute_processCachedTc).weaken
    (fun _ _ h => h) fun _ _ failed => failed.1).bind fun _ t ⟨⟨h, reach, _⟩, mute, _⟩ => ?_
  have awaits := awaits.evolves reach
  have freely := freely.mute mute
  have evolves₂ : Leads (AbaEvolves fun _ => False) processValPhase t fun _ _ => True :=
    leads_processValPhase.weaken fun _ _ _ _ => trivial
  refine ((((ends_processValPhase (E := (· = .overflow .round)) h (.inr awaits.primed)).leads evolves₂).leads mute_processValPhase).weaken
    (fun _ _ h => h) fun _ _ failed => failed.1).bind fun _ t ⟨⟨h, reach, _⟩, mute, _⟩ => ?_
  have awaits := awaits.evolves reach
  have freely := freely.mute mute
  have evolves₃ : Leads (AbaEvolves fun _ => False) processCachedAux t fun _ _ => True := leads_processCachedAux
  refine (((ends_processCachedAux (E := (· = .overflow .round)) h (.inr freely)).leads evolves₃).weaken
    (fun _ _ h => h) fun _ _ failed => failed.1).bind fun _ t ⟨h, reach, _⟩ => ?_
  have awaits := awaits.evolves reach
  have evolves₄ : Leads (AbaEvolves fun _ => False) processCoinPhase t fun _ _ => True := leads_processCoinPhase
  refine (((ends_processCoinPhase (E := (· = .overflow .round)) h (.inr awaits.primed) rfl).leads evolves₄).weaken
    (fun _ _ h => h) fun _ _ failed => failed.1).bind fun _ t ⟨h, reach, _⟩ => ?_
  exact ((awaits.evolves reach).ends_processCachedProof parity).weaken (fun _ _ output => output) fun _ _ failed => failed.elim

theorem ends_updatePhase : Ends updatePhase s (fun _ _ => True) fun _ _ => False := by
  refine Ends.bind (Q := fun _ _ => True) ?_ fun _ s₁ _ => Ends.bind (Q := fun _ _ => True) ?_ fun _ s₂ _ => ?_
  · exact ends_getCore (Ends.ite (fun _ => trivial) fun _ => trivial)
  · exact ends_getCore (Ends.ite (fun _ => trivial) fun _ => trivial)
  · unfold enterCoinPhase auxValueNum
    simp only [bind_assoc]
    refine ends_getCore (Ends.ite (fun _ => ends_modifyCore (ends_getCore ?_)) fun _ => trivial)
    exact Ends.ite (fun _ => ends_getCore (ends_emit trivial)) fun _ => trivial

/-- The same after the phase has been brought up to date. -/
theorem ends_update_stages [Crypto] (h : AtPace name [] s) (awaits : Awaits proof coin s.core) (freely : s.core.DealsFreely)
    (parity : proof.val % 2 = UInt64.ofNat coin) : Ends (updatePhase >>= fun _ => processAbaPhase) s
      (fun _ t => t.core.abaRound = proof.round → t.core.abaOutputVal = some proof.val) fun e _ => e = .overflow .round := by
  have evolves : Leads (AbaEvolves fun _ => False) updatePhase s fun _ _ => True := leads_updatePhase.weaken fun _ _ _ _ => trivial
  refine (((((calm_phases s h).and ends_updatePhase).leads evolves).leads mute_updatePhase).weaken
    (fun _ _ h => h) fun _ _ failed => failed.2.elim).bind fun _ t ⟨⟨h, reach, _⟩, mute, _⟩ => ?_
  exact ends_stages h.1 (awaits.evolves reach) (freely.mute mute) parity

end Core

/-- The value is the output after the run, unless a round has begun in it; it fails only where no round can begin. -/
def SetsOutput (x : M Unit) (s : State) (val : UInt64) : Prop :=
  Ends x s (fun _ t => t.core.abaRound = s.core.abaRound → t.core.abaOutputVal = some val) fun e _ => e = .overflow .round

namespace System
variable {sys : System} {trace : Trace} {key : PublicKey}

/-- A proof for the round of the node that matches the coin decides, at once or after the phase has been brought up to date. -/
theorem decisive_proof_counts [Crypto] [Bincode] (sys : System) (trace : Trace) (valid : sys.Valid trace) (key : PublicKey)
    (honest : sys.Honest key)
    (n : Node) (at' : n = sys.nodeAt trace key) (chain : Chain) (env : Env) (proof : ABAProof) (coin : Nat)
    (changing : n.core.isViewChange = true) (undecided : n.core.abaOutputVal = none) (epoch : proof.epoch = n.core.epoch)
    (round : proof.round = n.core.abaRound) (freely : n.core.DealsFreely) (verified : proof.verify n.core.committee = .ok ())
    (coined : n.core.abaCoinCache.get? (proof.epoch, proof.round) = some coin) (parity : proof.val % 2 = UInt64.ofNat coin) :
    SetsOutput (do Core.handleAbaProof proof; Core.processAbaPhase) ⟨n.core, chain, n.log, env⟩ proof.val ∧
      SetsOutput (do Core.handleAbaProof proof; Core.updatePhase; Core.processAbaPhase) ⟨n.core, chain, n.log, env⟩ proof.val := by
  have current : n.core.isExpiredAbaMessage proof.epoch proof.round = false := by
    unfold Core.isExpiredAbaMessage
    rw [undecided, epoch, round]
    simp [UInt64.lt_irrefl]
  have heard : AbaAct (fun _ => True) n.core n.log (n.core.hearProof proof) n.log := .hearProof trivial current verified
  have handled : Ends (Core.handleAbaProof proof) ⟨n.core, chain, n.log, env⟩
      (fun _ t => t = ⟨n.core.hearProof proof, chain, n.log, env⟩) fun e _ => e = .overflow .round := by
    unfold Ends
    rw [Core.handleAbaProof_run current verified]
  have inv := (primedInvariant fun input => (key, input) ∈ trace).and (coinSettledInvariant _)
  have sound : n.Sound fun _ k _ => k.Primed ∧ k.CoinSettled := by
    rw [at']
    exact sound_of_inputs inv ⟨Core.Primed.new _ _ _ _, fun key coin cached => by simp [first, Core.new] at cached⟩
  obtain ⟨_, primed, settled⟩ := sound.2
  have paced : AtPace key [] ⟨n.core.hearProof proof, chain, n.log, env⟩ := by
    have before := atPace valid honest env
    rw [← at'] at before
    exact before.congr rfl
  have awaits : Core.Awaits proof coin (n.core.hearProof proof) :=
    ⟨primed.abaAct heard, settled.act heard, changing, epoch.symm, round ▸ Nat.le_refl _, coined, fun _ => Map.get?_insert_self _ _ _⟩
  constructor
  · refine handled.bind fun _ t same => ?_
    subst same
    exact (Core.ends_stages paced awaits freely parity).weaken (fun _ t output stays => output (stays.trans round.symm)) fun _ _ h => h
  · refine handled.bind fun _ t same => ?_
    subst same
    exact (Core.ends_update_stages paced awaits freely parity).weaken (fun _ t output stays => output (stays.trans round.symm)) fun _ _ h => h

end System

namespace Sample

/-- The round and the output after a run. -/
def roundAndOutput (x : M Unit) (s : State) : Option (SeqNumber × Option UInt64) :=
  match x s with
  | .ok _ t => some (t.core.abaRound, t.core.abaOutputVal)
  | .error _ _ => none

theorem not_setsOutput {x : M Unit} {s : State} {val : UInt64} (h : roundAndOutput x s = some (s.core.abaRound, none)) :
    ¬ SetsOutput x s val := by
  intro sets
  unfold roundAndOutput at h
  unfold SetsOutput Ends at sets
  split at h
  · rename_i t exit
    rw [exit] at sets
    obtain ⟨round, output⟩ := Prod.mk.inj (Option.some.inj h)
    have decided := sets round
    rw [output] at decided
    contradiction
  · contradiction

/-- The first node has the coin of its round before the AUX messages. -/
def earlyCoin : Trace := [(key 1, share 2 1), (key 1, share 4 1)] ++ unanimous.drop 3

def decision : ABAProof :=
  ⟨0, 1, 2, AUX_PHASE, [1, 2, 4].map fun n => (key n, (ABAVal.new (key n) 0 1 2 AUX_PHASE).signature), false⟩

theorem decision_counts : ∃ n, n = system.nodeAt earlyCoin (key 1) ∧
    SetsOutput (do Core.handleAbaProof decision; Core.processAbaPhase) ⟨n.core, Chain.new (key 1), n.log, env⟩ 2 ∧
    SetsOutput (do Core.handleAbaProof decision; Core.updatePhase; Core.processAbaPhase) ⟨n.core, Chain.new (key 1), n.log, env⟩ 2 := by
  have freely : (system.nodeAt earlyCoin (key 1)).core.coinShareBroadcasted = true ∨
      (RandomnessShare.new (system.nodeAt earlyCoin (key 1)).core.epoch (system.nodeAt earlyCoin (key 1)).core.abaRound
        (system.nodeAt earlyCoin (key 1)).core.name).verify (system.nodeAt earlyCoin (key 1)).core.committee = .ok () ∧
      (system.nodeAt earlyCoin (key 1)).core.name ∉ ((system.nodeAt earlyCoin (key 1)).core.aggregator.abaRandomcoinAggregators.getD
        ((system.nodeAt earlyCoin (key 1)).core.epoch, (system.nodeAt earlyCoin (key 1)).core.abaRound) Maker.new).used := by
    decide +kernel
  exact ⟨_, rfl, System.decisive_proof_counts system earlyCoin (by decide +kernel) (key 1) (by decide) _ rfl (Chain.new (key 1)) env
    decision 0 (by decide +kernel) (by decide +kernel) (by decide +kernel) (by decide +kernel) freely (by decide +kernel)
    (by decide +kernel) rfl⟩

/-- The AUX messages for 2 decide the second node. The first one gets another AUX message from the faulty authority and
goes on to the second round. -/
def overtaken : Trace :=
  [(key 1, share 2 1), (key 1, share 4 1), (key 2, share 4 1), (key 1, aux 4 1 4), (key 1, aux 2 1 2), (key 2, aux 4 1 2),
    (key 2, aux 1 1 2), (key 2, val 1 1 4), (key 2, val 4 1 4), (key 1, val 4 1 4), (key 1, val 2 1 4), (key 1, val 2 1 2),
    (key 1, val 4 1 2), (key 2, val 4 1 2), (key 2, val 1 1 2)] ++ changing 2 4

def sentProofs (l : List Event) : List ABAProof :=
  l.filterMap fun
    | .transmit _ (.abaProof proof) _ => some proof
    | _ => none

theorem earlier_proof_dropped : ∃ n proof coin, system.Valid overtaken ∧ system.Honest (key 1) ∧ n = system.nodeAt overtaken (key 1) ∧
    proof ∈ sentProofs (system.nodeAt overtaken (key 2)).log ∧ n.core.isViewChange = true ∧ n.core.abaOutputVal = none ∧
    proof.epoch = n.core.epoch ∧ proof.round < n.core.abaRound ∧ proof.phase = AUX_PHASE ∧
    proof.verify n.core.committee = .ok () ∧ n.core.abaCoinCache.get? (proof.epoch, proof.round) = some coin ∧
    proof.val % 2 = UInt64.ofNat coin ∧
    ¬ SetsOutput (do Core.handleAbaProof proof; Core.processAbaPhase) ⟨n.core, Chain.new (key 1), n.log, env⟩ proof.val ∧
    ¬ SetsOutput (do Core.handleAbaProof proof; Core.updatePhase; Core.processAbaPhase) ⟨n.core, Chain.new (key 1), n.log, env⟩
      proof.val := by
  have valid : system.Valid overtaken := by decide +kernel
  have facts : ∃ n ∈ [system.nodeAt overtaken (key 1)], ∃ proof ∈ sentProofs (system.nodeAt overtaken (key 2)).log,
      n.core.isViewChange = true ∧ n.core.abaOutputVal = none ∧ proof.epoch = n.core.epoch ∧ proof.round < n.core.abaRound ∧
      proof.phase = AUX_PHASE ∧ proof.verify n.core.committee = .ok () ∧
      n.core.abaCoinCache.get? (proof.epoch, proof.round) = some 0 ∧ proof.val % 2 = UInt64.ofNat 0 ∧
      roundAndOutput (do Core.handleAbaProof proof; Core.processAbaPhase) ⟨n.core, Chain.new (key 1), n.log, env⟩ =
        some (n.core.abaRound, none) ∧
      roundAndOutput (do Core.handleAbaProof proof; Core.updatePhase; Core.processAbaPhase)
        ⟨n.core, Chain.new (key 1), n.log, env⟩ = some (n.core.abaRound, none) := by
    decide +kernel
  obtain ⟨n, mem, proof, sent, changing, undecided, epoch, round, phase, verified, coined, parity, run, run'⟩ := facts
  exact ⟨n, proof, 0, valid, by decide, List.mem_singleton.mp mem, sent, changing, undecided, epoch, round, phase, verified, coined,
    parity, not_setsOutput run, not_setsOutput run'⟩

end Sample
end HotstuffDag
