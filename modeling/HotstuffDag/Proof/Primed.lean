import HotstuffDag.Proof.AbaCerts
import HotstuffDag.Proof.Certificates

/-! # What the agreement looks up

`process_aba_phase` unwraps the largest height of a timeout certificate, the input of the round and the AUX
certificate of the round, and the makers of coins ask for the ids of authors. All of it is there. -/

namespace HotstuffDag
open Library Library.Exec

theorem Committee.id_isSome {c : Committee} {name : PublicKey} (positive : 0 < c.stake name) : (c.id name).isSome := by
  unfold stake at positive
  unfold Committee.id
  split at positive
  · rename_i found
    rw [found]
    rfl
  · exact absurd positive (Nat.lt_irrefl 0)

variable {got : ConsensusMessage → Prop}

structure Core.Primed (k : Core) : Prop where
  tcs : ∀ e tc, k.tcCache.get? e = some tc → tc.votes ≠ []
  rounds : ∀ e r proof, k.abaValPhaseCache1.get? (e, r) = some proof → proof.round = r
  first : k.tcProcessed = true → (k.abaInputVal.get? 1).isSome
  input : (k.phase = INIT_PHASE ∧ k.abaRound = 1) ∨ (k.abaInputVal.get? k.abaRound).isSome
  ready : k.phase < COIN_PHASE ∨ 2 ≤ k.binValues.length ∨ (k.abaAuxPhaseCache.get? (k.epoch, k.abaRound)).isSome
  shares : ∀ key maker, k.aggregator.abaRandomcoinAggregators.get? key = some maker →
    ∀ share ∈ maker.votes, (k.committee.id share.author).isSome

/-! ## Steps of the caches -/

theorem isSome_insert {K V : Type} [DecidableEq K] {m : Map K V} {k k' : K} {v : V} (h : (m.get? k').isSome) :
    ((m.insert k v).get? k').isSome := by
  rw [Map.get?_insert]
  split
  · rfl
  · exact h

theorem isSome_keptProof {wanted : ABAProof → Bool} {m : Map (SeqNumber × SeqNumber) ABAProof}
    {result : ConsensusResult (Option ABAProof)} {key : SeqNumber × SeqNumber} (h : (m.get? key).isSome) :
    ((Core.keptProof wanted m result).get? key).isSome := by
  unfold Core.keptProof
  split
  · split
    · exact isSome_insert h
    · exact h
  · exact h

theorem TC.votes_ne_nil [Crypto] {tc : TC} {c : Committee} (h : tc.verify c = .ok ()) : tc.votes ≠ [] := by
  intro empty
  have heavy := (TC.verify_ok h).2.2.1
  rw [empty] at heavy
  exact absurd heavy (Nat.not_succ_le_zero _)

/-- A certificate that a maker returns has at least the last entry. -/
theorem TCMaker.append_ne_nil {maker : TCMaker} {t : Timeout} {c : Committee} {tc : TC}
    (h : (TCMaker.append maker t c).1 = .ok (some tc)) : tc.votes ≠ [] := by
  unfold append at h
  split at h
  · contradiction
  · dsimp only at h
    split at h
    · rw [← Option.some.inj (Except.ok.inj h)]
      simp [Maker.push]
    · simp at h

theorem ABARandomCoinMaker.append_votes [Crypto] {maker : ABARandomCoinMaker} {share other : RandomnessShare} {c : Committee}
    (h : other ∈ (ABARandomCoinMaker.append maker share c).2.votes) : other ∈ maker.votes ∨ other = share := by
  unfold append at h
  split at h
  · exact .inl h
  · have pushed : other ∈ maker.votes ++ [share] := by
      dsimp only at h
      split at h
      · split at h <;> exact h
      · exact h
    exact (List.mem_append.mp pushed).imp_right List.mem_singleton.mp

/-- No round starts at the coin. -/
theorem early : VAL_PHASE < COIN_PHASE ∧ AUX_PHASE < COIN_PHASE ∧ INIT_PHASE < COIN_PHASE := by decide

theorem RandomnessShare.verify_ok [Crypto] {share : RandomnessShare} {c : Committee} (h : share.verify c = .ok ()) :
    0 < c.stake share.author := by
  by_contra light
  simp [verify, ensure, light, bind, Except.bind] at h

namespace Core.Primed
variable {k k' : Core} {l l' : List Event}

theorem hearShare [Crypto] (h : k.Primed) {share : RandomnessShare} (verified : share.verify k.committee = .ok ()) :
    (k.hearShare share).Primed := by
  refine ⟨h.tcs, h.rounds, h.first, h.input, h.ready, fun key maker found other mem => ?_⟩
  change ((k.aggregator.addAbaRandom share k.committee).2.abaRandomcoinAggregators).get? key = some maker at found
  simp only [Aggregator.addAbaRandom, Map.get?_insert] at found
  split at found
  · rw [← Option.some.inj found] at mem
    rcases ABARandomCoinMaker.append_votes mem with old | rfl
    · unfold Map.getD at old
      cases heard : k.aggregator.abaRandomcoinAggregators.get? (share.epoch, share.round) with
      | none =>
          rw [heard] at old
          exact absurd old List.not_mem_nil
      | some maker =>
          rw [heard] at old
          exact h.shares _ maker heard other old
    · exact Committee.id_isSome (RandomnessShare.verify_ok verified)
  · exact h.shares key maker found other mem

theorem abaAct [Crypto] (h : k.Primed) (act : AbaAct got k l k' l') : k'.Primed := by
  cases act with
  | keepTc _ _ verified =>
      refine ⟨fun e tc found => ?_, h.rounds, h.first, h.input, h.ready, h.shares⟩
      simp only [Core.keepTc, Map.get?_insert] at found
      split at found
      · rw [← Option.some.inj found]
        exact TC.votes_ne_nil verified
      · exact h.tcs e tc found
  | hearVal =>
      refine ⟨h.tcs, fun e r proof found => ?_, h.first, h.input, h.ready, h.shares⟩
      rcases AbaCerts.keptProof_get? found with old | ⟨-, -, -, round⟩
      · exact h.rounds e r proof old
      · exact round
  | hearAux => exact ⟨h.tcs, h.rounds, h.first, h.input, h.ready.imp_right (Or.imp_right isSome_keptProof), h.shares⟩
  | hearShare _ _ verified => exact h.hearShare verified
  | takeInput =>
      exact ⟨h.tcs, h.rounds, fun processed => isSome_insert (h.first processed), h.input.imp_right isSome_insert, h.ready,
        h.shares⟩
  | accept =>
      refine ⟨h.tcs, h.rounds, h.first, h.input, h.ready.imp_right (Or.imp_left fun several => ?_), h.shares⟩
      exact several.trans (List.sublist_insert _ _).length_le
  | nextRound =>
      refine ⟨h.tcs, fun e r proof found => h.rounds e r proof (Map.get?_of_retain found).2,
        fun processed => isSome_insert (h.first processed), .inr ?_, .inl early.1, h.shares⟩
      simp [Core.nextRound]
  | tcProcessed taken => exact ⟨h.tcs, h.rounds, fun _ => taken, h.input, h.ready, h.shares⟩
  | enterVal _ processed =>
      refine ⟨h.tcs, h.rounds, h.first, .inr ?_, .inl early.1, h.shares⟩
      rcases h.input with ⟨-, one⟩ | held
      · dsimp only
        rw [one]
        exact h.first processed
      · exact held
  | enterAux phase =>
      refine ⟨h.tcs, h.rounds, h.first, .inr (h.input.resolve_left fun initial => ?_), .inl early.2.1, h.shares⟩
      rw [phase] at initial
      exact absurd initial.1 (by decide)
  | enterCoin phase _ _ ready =>
      refine ⟨h.tcs, h.rounds, h.first, .inr (h.input.resolve_left fun initial => ?_), .inr ?_, h.shares⟩
      · rw [phase] at initial
        exact absurd initial.1 (by decide)
      · exact ready.imp_left fun two => two.ge
  | _ => exact ⟨h.tcs, h.rounds, h.first, h.input, h.ready, h.shares⟩

theorem nextEpoch (h : k.Primed) : k.nextEpoch.Primed where
  tcs := fun e tc found => h.tcs e tc (Map.get?_of_retain found).2
  rounds := fun e r proof found => h.rounds e r proof (Map.get?_of_retain found).2
  first := fun processed => by contradiction
  input := .inl ⟨rfl, rfl⟩
  ready := .inl early.2.2
  shares := fun key maker found => h.shares key maker (Map.get?_of_retain found).2

theorem act [Crypto] [Bincode] {s s' : Conf} (h : s.core.Primed) (act : Act got s s') : s'.core.Primed := by
  cases act with
  | aba act => exact h.abaAct act
  | @commit fuel env k c l b _ =>
      have frame := Core.commit_frame fuel b ⟨k, c, l, env⟩
      change (final (Core.commit fuel b) ⟨k, c, l, env⟩).core.Primed
      rw [frame.core]
      exact ⟨h.tcs, h.rounds, h.first, h.input, h.ready, h.shares⟩
  | countTimeout =>
      refine ⟨fun e tc found => ?_, h.rounds, h.first, h.input, h.ready, h.shares⟩
      unfold Core.keepAssembledTc Core.keptTc at found
      dsimp only at found
      split at found
      · rename_i added
        rw [Map.get?_insert] at found
        split at found
        · rw [← Option.some.inj found]
          exact TCMaker.append_ne_nil added
        · exact h.tcs e tc found
      · exact h.tcs e tc found
  | nextEpoch => exact h.nextEpoch
  | _ => exact ⟨h.tcs, h.rounds, h.first, h.input, h.ready, h.shares⟩

theorem evolves [Crypto] {s t : State} (h : s.core.Primed) (reach : AbaEvolves got s t) : t.core.Primed :=
  reach.keeps (P := fun k _ => k.Primed) (fun act primed => primed.abaAct act) h

theorem new (name : PublicKey) (committee : Committee) (parameters : Parameters) (store : Store) :
    (Core.new name committee parameters store).Primed where
  tcs := fun e tc found => by simp [Core.new] at found
  rounds := fun e r proof found => by simp [Core.new] at found
  first := fun processed => by simp [Core.new] at processed
  input := .inl ⟨rfl, rfl⟩
  ready := .inl early.2.2
  shares := fun key maker found => by simp [Core.new, Aggregator.new] at found

end Core.Primed

theorem primedInvariant [Crypto] [Bincode] (ok : Input → Prop) : Invariant ok fun _ k _ => k.Primed where
  act := fun _ act h => h.act act
  blind := fun _ _ h => ⟨h.tcs, h.rounds, h.first, h.input, h.ready, h.shares⟩
  makePayload := fun _ h => h
  storePayload := fun _ _ h => ⟨h.tcs, h.rounds, h.first, h.input, h.ready, h.shares⟩

end HotstuffDag
