import HotstuffDag.Proof.Frame

/-! # Acts seen by the agreement -/

namespace HotstuffDag
open Library Library.Exec
variable {got : ConsensusMessage → Prop}

/-- A core without what the agreement does not read. -/
def Core.agreement (k : Core) : Core :=
  { k with store := Map.empty, pubkeyToChain := Map.empty, tcCache := Map.empty }

theorem Core.agreement_eq {α : Type} {k k' : Core} (f : Core → α) (blind : ∀ k, f k.agreement = f k)
    (same : k'.agreement = k.agreement) : f k' = f k := by
  rw [← blind k', same, blind]

/-- The events that only acts of the agreement log. -/
def Event.aboutAba : Event → Prop
  | .transmit _ (.abaVal _) _ | .transmit _ (.abaProof _) _ | .abaInput _ _ _ | .binValue _ _ _ | .abaOutput _ _ _ | .coin _ _ _
  | .coinPhase _ | .coinCall _ _ | .proofCall _ _ | .assembledAba _ => True
  | _ => False

theorem Event.not_aboutAba_of_commit {e : Event} (h : e.ofCommit) : ¬ e.aboutAba := by
  cases e <;> simp_all [Event.ofCommit, Event.aboutAba]

/-- What an act is to the agreement: one of its own acts, the end of the epoch, or nothing. -/
inductive AbaCase [Crypto] (got : ConsensusMessage → Prop) (s s' : Conf) : Prop
  | act (act : AbaAct got s.core s.log s'.core s'.log)
  | nextEpoch (core : s'.core = s.core.nextEpoch) (small : s.core.epoch.toNat + 1 < 2 ^ 64)
      (events : ∀ e, e.aboutAba → e ∈ s'.log → e ∈ s.log)
  | other (core : s'.core.agreement = s.core.agreement) (events : ∀ e, e.aboutAba → e ∈ s'.log → e ∈ s.log)

theorem Act.abaCase [Crypto] [Bincode] {s s' : Conf} (act : Act got s s') : AbaCase got s s' := by
  cases act with
  | aba act => exact .act act
  | @commit fuel env k c l b _ =>
      have frame := Core.commit_frame fuel b ⟨k, c, l, env⟩
      refine .other ?_ fun e about h => (frame.events h).resolve_right ?_
      · exact frame.core_eq Core.agreement fun _ _ => rfl
      · exact fun commit => Event.not_aboutAba_of_commit commit about
  | nextEpoch _ _ _ _ _ small _ _ =>
      refine .nextEpoch rfl small fun e about h => (List.mem_append.mp h).resolve_right fun new => ?_
      rw [List.mem_singleton.mp new] at about
      exact about
  | countVote =>
      refine .other rfl fun e about h => (List.mem_append.mp h).resolve_right fun new => ?_
      unfold Core.assembledEvents at new
      split at new
      · rw [List.mem_singleton.mp new] at about
        exact about
      · simp at new
  | grant =>
      refine .other rfl fun e about h => ?_
      rcases List.mem_append.mp h with h | new
      · refine (List.mem_append.mp h).resolve_right fun new => ?_
        rw [List.mem_singleton.mp new] at about
        exact about
      · rw [List.mem_singleton.mp new] at about
        exact about.elim
  | countTimeout =>
      refine .other rfl fun e about h => (List.mem_append.mp h).resolve_right fun new => ?_
      unfold Core.savedTcs at new
      split at new
      · rw [List.mem_singleton.mp new] at about
        exact about
      · simp at new
  | certify | lockVote => exact .other rfl fun e about h => h
  | _ =>
      refine .other rfl fun e about h => (List.mem_append.mp h).resolve_right fun new => ?_
      rw [List.mem_singleton.mp new] at about
      exact about

/-! ## Where the events and the values of the agreement come from -/

/-- Why a value is broadcast. -/
inductive CastReason (k : Core) (l : List Event) (k' : Core) (v : ABAVal) : Prop
  | input (author : v.author = k.name) (phase : v.phase = VAL_PHASE)
      (taken : Event.abaInput v.epoch v.round v.val ∈ l)
  | amplified {proof : ABAProof} (author : v.author = k.name) (preimage : v.preimage = proof.preimage)
      (cached : k.abaValPhaseCache1.get? (k.epoch, k.abaRound) = some proof)
      (same : v.epoch = proof.epoch ∧ v.round = proof.round ∧ v.val = proof.val ∧ v.phase = proof.phase)
  | accepted {proof : ABAProof} (author : v.author = k.name) (phase : v.phase = AUX_PHASE)
      (cached : k.abaValPhaseCache2.get? (k.epoch, k.abaRound) = some proof)
      (same : v.epoch = proof.epoch ∧ v.round = proof.round ∧ v.val = proof.val)
      (fresh : k.auxValueBroadcasted = false) (cast : k' = { k with auxValueBroadcasted := true })

/-- Why an event of the agreement is logged. -/
inductive LogReason [Crypto] (k : Core) (l : List Event) : Event → Prop
  | cast {tag v addresses} : LogReason k l (.transmit tag (.abaVal v) addresses)
  | firstInput {tc val} (fresh : k.tcProcessed = false) (cached : k.tcCache.get? k.epoch = some tc)
      (highest : tc.highQcRounds.max? = some val) : LogReason k l (.abaInput k.epoch 1 val)
  | nextInput {coin val} (called : Event.coinCall k coin ∈ l) (why : CoinInput k coin val)
      (small : k.abaRound.toNat + 1 < 2 ^ 64) : LogReason k l (.abaInput k.epoch (k.abaRound + 1) val)
  | accepted {proof} (cached : k.abaValPhaseCache2.get? (k.epoch, k.abaRound) = some proof) :
      LogReason k l (.binValue k.epoch k.abaRound proof.val)
  | coin {share epoch round coin} (combined : Event.coin epoch round coin ∈ k.coinEvents share) :
      LogReason k l (.coin epoch round coin)
  | assembled {v proof} (verified : v.verify = .ok ())
      (completed : (k.aggregator.addAbaVal v k.committee).1 = .ok (some proof)) : LogReason k l (.assembledAba proof)
  | coinPhase (counted : k.auxValueNums.getD (k.epoch, k.abaRound) 0 ≥ k.committee.quorumThreshold)
      (ready : k.binValues.length = 2 ∨ k.abaAuxPhaseCache.contains (k.epoch, k.abaRound) = true) :
      LogReason k l (.coinPhase k)
  | coinCall {coin} (phase : k.phase ≥ COIN_PHASE)
      (cached : k.abaCoinCache.get? (k.epoch, k.abaRound) = some coin) : LogReason k l (.coinCall k coin)
  | proofCall {proof} (cached : k.abaProofCache.get? (k.epoch, k.abaRound) = some proof) :
      LogReason k l (.proofCall k proof)
  | coinOutput {coin val} (called : Event.coinCall k coin ∈ l) (why : CoinOutput k coin val) :
      LogReason k l (.abaOutput k.epoch k.abaRound val)
  | proofOutput {proof coin} (called : Event.proofCall k proof ∈ l)
      (coined : k.abaCoinCache.get? (proof.epoch, proof.round) = some coin)
      (parity : proof.val % 2 = UInt64.ofNat coin) : LogReason k l (.abaOutput k.epoch k.abaRound proof.val)
  | castProof {tag addresses k₀ coin val proof} (called : Event.coinCall k₀ coin ∈ l)
      (output : Event.abaOutput k₀.epoch k₀.abaRound val ∈ l) (why : CoinOutput k₀ coin val)
      (cached : k₀.abaAuxPhaseCache.get? (k₀.epoch, k₀.abaRound) = some proof) :
      LogReason k l (.transmit tag (.abaProof proof) addresses)

theorem sent_append {m : ConsensusMessage} {l l' : List Event} (h : Sent m (l ++ l')) : Sent m l ∨ Sent m l' := by
  obtain ⟨tag, addresses, mem⟩ := h
  rcases List.mem_append.mp mem with old | new
  · exact .inl ⟨tag, addresses, old⟩
  · exact .inr ⟨tag, addresses, new⟩

theorem Sent.mono {m : ConsensusMessage} {l l' : List Event} (h : Sent m l) (le : l <+: l') : Sent m l' := by
  obtain ⟨tag, addresses, mem⟩ := h
  exact ⟨tag, addresses, le.subset mem⟩

namespace AbaAct
variable {k k' : Core} {l l' : List Event}

theorem sent [Crypto] (act : AbaAct got k l k' l') {v : ABAVal} (h : Sent (.abaVal v) l') :
    Sent (.abaVal v) l ∨ CastReason k l k' v := by
  cases act with
  | castInput taken =>
      refine (sent_append h).imp_right fun ⟨_, _, new⟩ => ?_
      simp only [List.mem_singleton, Event.transmit.injEq, ConsensusMessage.abaVal.injEq] at new
      obtain ⟨-, rfl, -⟩ := new
      exact .input rfl rfl taken
  | amplify _ cached =>
      refine (sent_append h).imp_right fun ⟨_, _, new⟩ => ?_
      simp only [List.mem_singleton, Event.transmit.injEq, ConsensusMessage.abaVal.injEq] at new
      obtain ⟨-, rfl, -⟩ := new
      exact .amplified rfl rfl cached ⟨rfl, rfl, rfl, rfl⟩
  | castAux fresh _ cached =>
      refine (sent_append h).imp_right fun ⟨_, _, new⟩ => ?_
      simp only [List.mem_singleton, Event.transmit.injEq, ConsensusMessage.abaVal.injEq] at new
      obtain ⟨-, rfl, -⟩ := new
      exact .accepted rfl rfl cached ⟨rfl, rfl, rfl⟩ fresh rfl
  | quiet quiet =>
      refine (sent_append h).imp_right fun ⟨_, _, new⟩ => ?_
      rw [← List.mem_singleton.mp new] at quiet
      exact quiet.elim
  | hearShare =>
      refine (sent_append h).imp_right fun ⟨_, _, new⟩ => ?_
      unfold Core.coinEvents at new
      split at new <;> simp at new
  | hearVal | hearAux =>
      refine (sent_append h).imp_right fun ⟨_, _, new⟩ => ?_
      obtain ⟨_, same, -⟩ := Core.mem_abaEvents new
      contradiction
  | keepTc | takeInput | accept | callCoin | callProof | outputCoin | outputProof | castProof | enterCoin =>
      refine (sent_append h).imp_right fun ⟨_, _, new⟩ => ?_
      simp at new
  | nextRound =>
      rw [List.append_assoc] at h
      refine (sent_append h).imp_right fun ⟨_, _, new⟩ => ?_
      simp at new
  | _ => exact .inl h

theorem logged [Crypto] (act : AbaAct got k l k' l') {e : Event} (h : e ∈ l') (about : e.aboutAba) :
    e ∈ l ∨ LogReason k l e := by
  cases act with
  | quiet quiet =>
      rcases List.mem_append.mp h with old | new
      · exact .inl old
      · rw [← List.mem_singleton.mp new] at quiet
        unfold Event.quiet at quiet
        unfold Event.aboutAba at about
        split at quiet <;> simp_all
  | @hearShare _ _ share =>
      refine (List.mem_append.mp h).imp_right fun new => ?_
      have shape := new
      unfold Core.coinEvents at shape
      split at shape
      · rw [List.mem_singleton.mp shape] at new ⊢
        exact .coin new
      · simp at shape
  | hearVal _ _ _ verified | hearAux _ _ _ verified =>
      refine (List.mem_append.mp h).imp_right fun new => ?_
      obtain ⟨_, rfl, completed⟩ := Core.mem_abaEvents new
      exact .assembled verified completed
  | enterCoin _ _ counted ready =>
      refine (List.mem_append.mp h).imp_right fun new => ?_
      rw [List.mem_singleton.mp new]
      exact .coinPhase counted ready
  | castInput | amplify | castAux =>
      refine (List.mem_append.mp h).imp_right fun new => ?_
      rw [List.mem_singleton.mp new]
      exact .cast
  | castProof called output why cached =>
      refine (List.mem_append.mp h).imp_right fun new => ?_
      rw [List.mem_singleton.mp new]
      exact .castProof called output why cached
  | takeInput fresh cached highest =>
      refine (List.mem_append.mp h).imp_right fun new => ?_
      rw [List.mem_singleton.mp new]
      exact .firstInput fresh cached highest
  | nextRound called _ _ why small =>
      rw [List.append_assoc] at h
      refine (List.mem_append.mp h).imp_right fun new => ?_
      rcases List.mem_cons.mp new with rfl | signed
      · exact .nextInput called why small
      · rw [List.mem_singleton.mp signed] at about
        exact about.elim
  | keepTc =>
      refine .inl ((List.mem_append.mp h).resolve_right fun new => ?_)
      rw [List.mem_singleton.mp new] at about
      exact about
  | accept cached =>
      refine (List.mem_append.mp h).imp_right fun new => ?_
      rw [List.mem_singleton.mp new]
      exact .accepted cached
  | callCoin phase cached =>
      refine (List.mem_append.mp h).imp_right fun new => ?_
      rw [List.mem_singleton.mp new]
      exact .coinCall phase cached
  | callProof cached =>
      refine (List.mem_append.mp h).imp_right fun new => ?_
      rw [List.mem_singleton.mp new]
      exact .proofCall cached
  | outputCoin called _ why =>
      refine (List.mem_append.mp h).imp_right fun new => ?_
      rw [List.mem_singleton.mp new]
      exact .coinOutput called why
  | outputProof called _ coined parity =>
      refine (List.mem_append.mp h).imp_right fun new => ?_
      rw [List.mem_singleton.mp new]
      exact .proofOutput called coined parity
  | _ => exact .inl h

theorem round_pos [Crypto] (act : AbaAct got k l k' l') (h : 1 ≤ k.abaRound.toNat) : 1 ≤ k'.abaRound.toNat := by
  cases act with
  | nextRound _ _ _ _ small =>
      show 1 ≤ (k.abaRound + 1).toNat
      rw [toNat_succ small]
      exact Nat.le_add_left 1 _
  | _ => exact h

/-- A value is accepted with the certificate of the round. -/
theorem accepted [Crypto] (act : AbaAct got k l k' l') {val : UInt64} (h : val ∈ k'.binValues) :
    k'.epoch = k.epoch ∧ k'.abaRound = k.abaRound ∧ (val ∈ k.binValues ∨
      ∃ proof, k.abaValPhaseCache2.get? (k.epoch, k.abaRound) = some proof ∧ proof.val = val) := by
  cases act with
  | accept cached =>
      refine ⟨rfl, rfl, ?_⟩
      rcases List.mem_insert_iff.mp h with new | old
      · exact .inr ⟨_, cached, new.symm⟩
      · exact .inl old
  | nextRound => simp [Core.nextRound] at h
  | _ => exact ⟨rfl, rfl, .inl h⟩

/-- A cached coin has been logged. -/
theorem coined [Crypto] (act : AbaAct got k l k' l') {e r : SeqNumber} {coin : Nat}
    (h : k'.abaCoinCache.get? (e, r) = some coin) :
    k.abaCoinCache.get? (e, r) = some coin ∨ Event.coin e r coin ∈ l' := by
  cases act with
  | hearShare =>
      unfold Core.hearShare Core.keptCoin at h
      dsimp only at h
      unfold Core.coinEvents
      split at h
      · rename_i added
        rw [Map.get?_insert] at h
        split at h
        · rename_i same
          simp only [Prod.mk.injEq] at same
          obtain ⟨rfl, rfl⟩ := same
          rw [← Option.some.inj h]
          exact .inr (by simp)
        · exact .inl h
      · exact .inl h
  | _ => exact .inl h

end AbaAct
end HotstuffDag
