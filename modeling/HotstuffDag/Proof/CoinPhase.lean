import HotstuffDag.Proof.AbaValidity
import HotstuffDag.Proof.AbaVotes
import HotstuffDag.Proof.Stages

/-! # The coin phase

A node enters the coin phase with an AUX certificate, or with two values and a counter that counts every AUX
message. -/

namespace HotstuffDag
open Library Library.Exec

section
variable [Crypto]

/-- The values that a node has received, its own among them. -/
def receivedVals (inputs : List Input) (l : List Event) : List ABAVal :=
  (inputs.filterMap fun
    | .deliver _ (.abaVal v) _ => some v
    | _ => none) ++ l.filterMap fun
    | .transmit _ (.abaVal v) _ => some v
    | _ => none

/-- The authors of the valid AUX messages of a round. -/
def auxAuthors (epoch round : SeqNumber) (vals : List ABAVal) : Finset PublicKey :=
  ((vals.filter fun v => v.epoch = epoch ∧ v.round = round ∧ v.phase = AUX_PHASE ∧
    Crypto.verify v.signature v.digest v.author = true).map ABAVal.author).toFinset

/-- Valid AUX messages of the round have come from a quorum. -/
def AuxHeard (c : Committee) (vals : List ABAVal) (epoch round : SeqNumber) : Prop :=
  c.quorumThreshold ≤ Quorum.weight c.stake (auxAuthors epoch round vals)

instance (c : Committee) (vals : List ABAVal) (epoch round : SeqNumber) : Decidable (AuxHeard c vals epoch round) :=
  inferInstanceAs (Decidable (_ ≤ _))

omit [Crypto] in
theorem mem_receivedVals {inputs : List Input} {l : List Event} {v : ABAVal} :
    v ∈ receivedVals inputs l ↔ Received (· ∈ inputs) (.abaVal v) ∨ Sent (.abaVal v) l := by
  unfold receivedVals
  rw [List.mem_append]
  refine or_congr ⟨fun h => ?_, fun ⟨channel, env, mem⟩ => List.mem_filterMap.mpr ⟨_, mem, rfl⟩⟩
    ⟨fun h => ?_, fun ⟨tag, addresses, mem⟩ => List.mem_filterMap.mpr ⟨_, mem, rfl⟩⟩
  · obtain ⟨input, mem, found⟩ := List.mem_filterMap.mp h
    split at found
    · obtain rfl := Option.some.inj found
      exact ⟨_, _, mem⟩
    · contradiction
  · obtain ⟨e, mem, found⟩ := List.mem_filterMap.mp h
    split at found
    · obtain rfl := Option.some.inj found
      exact ⟨_, _, mem⟩
    · contradiction

/-! ## What the counter stands for -/

namespace Core

/-- The authors that the makers of AUX certificates of the round have counted. -/
def auxCounted (k : Core) : Finset PublicKey :=
  ((k.aggregator.abaValsAggregators.keys.filter fun key =>
    key.1 = k.epoch ∧ key.2.1 = k.abaRound ∧ key.2.2.1 = AUX_PHASE).flatMap fun key =>
      (k.aggregator.abaValsAggregators.getD key Maker.new).used).toFinset

/-- There is a certificate, or the counter is not ahead of the stake that it stands for. -/
def CountsFairly (k : Core) : Prop :=
  k.abaAuxPhaseCache.contains (k.epoch, k.abaRound) = true ∨
    k.auxValueNums.getD (k.epoch, k.abaRound) 0 ≤ Quorum.weight k.committee.stake k.auxCounted

instance : DecidablePred CountsFairly := fun _ => inferInstanceAs (Decidable (_ ∨ _))

variable {k : Core} {l : List Event} {got : ConsensusMessage → Prop}

/-- The author has brought a valid AUX message of the round. -/
def AuxFrom (got : ConsensusMessage → Prop) (l : List Event) (epoch round : SeqNumber) (a : PublicKey) : Prop :=
  ∃ v : ABAVal, (got (.abaVal v) ∨ Sent (.abaVal v) l) ∧ v.verify = .ok () ∧ v.author = a ∧ v.epoch = epoch ∧
    v.round = round ∧ v.phase = AUX_PHASE

theorem AuxFrom.mono {l l' : List Event} {epoch round : SeqNumber} {a : PublicKey} (h : AuxFrom got l epoch round a)
    (le : l <+: l') : AuxFrom got l' epoch round a := by
  obtain ⟨v, from', rest⟩ := h
  exact ⟨v, from'.imp_right fun sent => sent.mono le, rest⟩

theorem auxFrom_of_brought {epoch round : SeqNumber} {val : UInt64} {vote : PublicKey × Signature}
    (h : Brought got l (abaPreimage epoch round val AUX_PHASE) vote) : AuxFrom got l epoch round vote.1 := by
  obtain ⟨v, from', verified, same, rfl⟩ := h
  obtain ⟨epoch, round, -, phase⟩ := abaPreimage_inj.mp same
  exact ⟨v, from', verified, rfl, epoch, round, phase⟩

theorem auxFrom_of_counted (certs : AbaCerts (fun _ _ => True) k) (votes : AbaVotes got k l) {a : PublicKey}
    (counted : a ∈ k.auxCounted) : AuxFrom got l k.epoch k.abaRound a := by
  unfold auxCounted at counted
  obtain ⟨key, mem, used⟩ := List.mem_flatMap.mp (List.mem_toFinset.mp counted)
  obtain ⟨-, here⟩ := List.mem_filter.mp mem
  obtain ⟨e, r, ph, val⟩ := key
  simp only [Bool.decide_and, Bool.and_eq_true, decide_eq_true_eq] at here
  obtain ⟨rfl, rfl, rfl⟩ := here
  unfold Map.getD at used
  cases found : k.aggregator.abaValsAggregators.get? (k.epoch, k.abaRound, AUX_PHASE, val) with
  | none =>
      rw [found] at used
      exact absurd used List.not_mem_nil
  | some maker =>
      rw [found] at used
      have authors := (certs.makers _ _ _ _ maker found).authors
      have mem : a ∈ maker.votes.map Prod.fst := by
        rw [authors, List.mem_reverse]
        exact used
      obtain ⟨vote, voted, rfl⟩ := List.mem_map.mp mem
      exact auxFrom_of_brought (votes.makers _ _ _ _ maker found vote voted)

/-- The authors behind a fair entry into the coin phase. -/
theorem quorum_of_fair (certs : AbaCerts (fun _ _ => True) k) (votes : AbaVotes got k l)
    (counted : k.auxValueNums.getD (k.epoch, k.abaRound) 0 ≥ k.committee.quorumThreshold) (fair : k.CountsFairly) :
    ∃ s : Finset PublicKey, k.committee.quorumThreshold ≤ Quorum.weight k.committee.stake s ∧
      ∀ a ∈ s, AuxFrom got l k.epoch k.abaRound a := by
  rcases fair with certified | fair
  · obtain ⟨proof, cached⟩ := Option.isSome_iff_exists.mp certified
    obtain ⟨epoch, round, phase, backed⟩ := certs.aux _ _ proof cached
    refine ⟨(proof.votes.map Prod.fst).toFinset, backed.weight, fun a mem => ?_⟩
    obtain ⟨vote, voted, rfl⟩ := List.mem_map.mp (List.mem_toFinset.mp mem)
    have brought := votes.aux _ _ proof cached vote voted
    rw [ABAProof.preimage, epoch, round, phase] at brought
    exact auxFrom_of_brought brought
  · exact ⟨k.auxCounted, counted.trans fair, fun a mem => auxFrom_of_counted certs votes mem⟩

end Core

/-! ## Runs -/

/-- What holds of the entries into the coin phase. -/
structure Entered (got : ConsensusMessage → Prop) (committee : Committee) (k : Core) (l : List Event) : Prop where
  same : k.committee = committee
  quorum : ∀ k', Event.coinPhase k' ∈ l → k'.CountsFairly → ∃ s : Finset PublicKey,
    committee.quorumThreshold ≤ Quorum.weight committee.stake s ∧ ∀ a ∈ s, Core.AuxFrom got l k'.epoch k'.abaRound a
  logged : k.phase = COIN_PHASE → ∃ k', Event.coinPhase k' ∈ l ∧ k'.epoch = k.epoch ∧ k'.abaRound = k.abaRound

namespace Entered
variable {got : ConsensusMessage → Prop} {committee : Committee} {k k' : Core} {l l' : List Event}

/-- No entry is added. -/
theorem keep (h : Entered got committee k l) (le : l <+: l') (events : ∀ k₀, Event.coinPhase k₀ ∈ l' → Event.coinPhase k₀ ∈ l)
    (same : k'.committee = k.committee)
    (phase : k'.phase = COIN_PHASE → k.phase = COIN_PHASE ∧ k'.epoch = k.epoch ∧ k'.abaRound = k.abaRound) :
    Entered got committee k' l' := by
  refine ⟨same.trans h.same, fun k₀ mem fair => ?_, fun entered => ?_⟩
  · obtain ⟨s, heavy, each⟩ := h.quorum k₀ (events k₀ mem) fair
    exact ⟨s, heavy, fun a ha => (each a ha).mono le⟩
  · obtain ⟨before, epoch, round⟩ := phase entered
    obtain ⟨k₀, mem, epoch', round'⟩ := h.logged before
    exact ⟨k₀, le.subset mem, epoch'.trans epoch.symm, round'.trans round.symm⟩

theorem act (h : Entered got committee k l) (certs : AbaCerts (fun _ _ => True) k) (votes : AbaVotes got k l)
    (act : AbaAct got k l k' l') : Entered got committee k' l' := by
  have le := act.frame.log
  refine ⟨act.frame.committee.trans h.same, fun k₀ mem fair => ?_, ?_⟩
  · have known : ∃ s : Finset PublicKey, committee.quorumThreshold ≤ Quorum.weight committee.stake s ∧
        ∀ a ∈ s, Core.AuxFrom got l k₀.epoch k₀.abaRound a := by
      rcases act.logged mem trivial with old | new
      · exact h.quorum k₀ old fair
      · cases new with
        | coinPhase counted _ =>
            have found := Core.quorum_of_fair certs votes counted fair
            rw [h.same] at found
            exact found
    obtain ⟨s, heavy, each⟩ := known
    exact ⟨s, heavy, fun a ha => (each a ha).mono le⟩
  · cases act with
    | enterCoin => exact fun _ => ⟨k, by simp, rfl, rfl⟩
    | enterVal => exact fun entered => absurd entered (by decide : VAL_PHASE ≠ COIN_PHASE)
    | enterAux => exact fun entered => absurd entered (by decide : AUX_PHASE ≠ COIN_PHASE)
    | nextRound => exact fun entered => absurd entered (by decide : VAL_PHASE ≠ COIN_PHASE)
    | _ =>
        intro entered
        obtain ⟨k₀, mem, same⟩ := h.logged entered
        exact ⟨k₀, le.subset mem, same⟩

theorem new (name : PublicKey) (parameters : Parameters) (store : Store) :
    Entered got committee (Core.new name committee parameters store) [] :=
  ⟨rfl, fun _ mem => absurd mem List.not_mem_nil, fun entered => absurd entered (by decide : INIT_PHASE ≠ COIN_PHASE)⟩

end Entered

variable [Bincode]

theorem enteredInvariant (ok : Input → Prop) (committee : Committee) : Invariant ok fun _ k l =>
    (AbaCerts (fun _ _ => True) k ∧ AbaVotes (Received ok) k l) ∧ Entered (Received ok) committee k l where
  act := by
    intro s s' names act ⟨held, entered⟩
    refine ⟨(votesInvariant ok).act names act held, ?_⟩
    cases act.abaCase with
    | act act => exact entered.act held.1 held.2 act
    | nextEpoch core _ events =>
        rw [core]
        exact entered.keep act.frame.log (fun k₀ mem => events _ trivial mem) rfl
          fun start => absurd start (by decide : INIT_PHASE ≠ COIN_PHASE)
    | other same events =>
        refine entered.keep act.frame.log (fun k₀ mem => events _ trivial mem) act.frame.committee fun start => ⟨?_, ?_, ?_⟩
        · rw [← Core.agreement_eq Core.phase (fun _ => rfl) same]
          exact start
        · exact Core.agreement_eq Core.epoch (fun _ => rfl) same
        · exact Core.agreement_eq Core.abaRound (fun _ => rfl) same
  blind := fun m same ⟨held, entered⟩ =>
    ⟨(votesInvariant ok).blind m same held, entered.same, entered.quorum, entered.logged⟩
  makePayload := by
    intro v k l transactions ⟨held, entered⟩
    refine ⟨(votesInvariant ok).makePayload (v := v) transactions held, ?_⟩
    exact entered.keep (List.prefix_append _ _) (fun k₀ mem => by simpa using mem) rfl fun start => ⟨start, rfl, rfl⟩
  storePayload := by
    intro v k l payload allowed ⟨held, entered⟩
    exact ⟨(votesInvariant ok).storePayload (v := v) payload allowed held, entered.same, entered.quorum, entered.logged⟩

/-- Where a node enters the coin phase, and while it is in it, it has heard AUX messages of a quorum. -/
structure Node.CoinPhaseHeard (n : Node) (committee : Committee) (inputs : List Input) : Prop where
  entered : ∀ k, Event.coinPhase k ∈ n.log → AuxHeard committee (receivedVals inputs n.log) k.epoch k.abaRound
  present : n.core.phase = COIN_PHASE → AuxHeard committee (receivedVals inputs n.log) n.core.epoch n.core.abaRound

/-- The coin phase needs an AUX quorum, in every run in which the counter of a round is never ahead where the phase
is entered without a certificate. -/
theorem coin_phase_heard (name : PublicKey) (committee : Committee) (parameters : Parameters) (store : Store) (env : Env)
    (inputs : List Input)
    (fair : ∀ k, Event.coinPhase k ∈ ((Node.start (Core.new name committee parameters store) env).run inputs).log → k.CountsFairly) :
    ((Node.start (Core.new name committee parameters store) env).run inputs).CoinPhaseHeard committee inputs := by
  have inv := enteredInvariant (· ∈ inputs) committee
  have start : (Node.start (Core.new name committee parameters store) env).Sound fun _ k l =>
      (AbaCerts (fun _ _ => True) k ∧ AbaVotes (Received (· ∈ inputs)) k l) ∧ Entered (Received (· ∈ inputs)) committee k l :=
    inv.init ⟨⟨AbaCerts.init _ _ _ _, AbaVotes.new _ _ _ _⟩, Entered.new _ _ _⟩
  obtain ⟨_, -, entered⟩ := (inv.run (fun _ mem => mem) start).2
  have heard (k : Core) (logged : Event.coinPhase k ∈ ((Node.start (Core.new name committee parameters store) env).run inputs).log) :
      AuxHeard committee (receivedVals inputs ((Node.start (Core.new name committee parameters store) env).run inputs).log)
        k.epoch k.abaRound := by
    obtain ⟨s, heavy, each⟩ := entered.quorum k logged (fair k logged)
    refine heavy.trans (Quorum.weight_mono fun a mem => ?_)
    obtain ⟨v, from', verified, rfl, epoch, round, phase⟩ := each a mem
    refine List.mem_toFinset.mpr (List.mem_map.mpr ⟨v, List.mem_filter.mpr ⟨mem_receivedVals.mpr from', ?_⟩, rfl⟩)
    have signed : Crypto.verify v.signature v.digest v.author = true := ensure_ok.mp verified
    simp [epoch, round, phase, signed]
  refine ⟨heard, fun present => ?_⟩
  obtain ⟨k, logged, epoch, round⟩ := entered.logged present
  rw [← epoch, ← round]
  exact heard k logged

end

namespace Sample

def coinPhases (l : List Event) : List Core :=
  l.filterMap fun
    | .coinPhase core => some core
    | _ => none

theorem mem_coinPhases {l : List Event} {core : Core} : core ∈ coinPhases l ↔ Event.coinPhase core ∈ l := by
  refine ⟨fun h => ?_, fun h => List.mem_filterMap.mpr ⟨_, h, rfl⟩⟩
  obtain ⟨e, mem, found⟩ := List.mem_filterMap.mp h
  split at found
  · obtain rfl := Option.some.inj found
    exact mem
  · contradiction

/-- Two values are accepted, and the AUX messages are for both. -/
def divided : List Input := inputsOf 1 (bit.drop 14) ++ [share 4 1, share 2 1, aux 4 1 3, aux 2 1 5]

theorem divided_heard : ((start 1).run divided).CoinPhaseHeard four divided ∧
    (∃ k ∈ coinPhases ((start 1).run divided).log,
      k.binValues.length = 2 ∧ k.abaAuxPhaseCache.contains (k.epoch, k.abaRound) = false) ∧
    ((start 1).run (inputsOf 1 unanimous)).CoinPhaseHeard four (inputsOf 1 unanimous) ∧
    coinPhases ((start 1).run (inputsOf 1 unanimous)).log ≠ [] := by
  have fair : ∀ k ∈ coinPhases ((start 1).run divided).log, k.CountsFairly := by decide +kernel
  have fair' : ∀ k ∈ coinPhases ((start 1).run (inputsOf 1 unanimous)).log, k.CountsFairly := by decide +kernel
  refine ⟨?_, by decide +kernel, ?_, by decide +kernel⟩
  · exact coin_phase_heard (key 1) four ⟨500⟩ Map.empty env divided fun k mem => fair k (mem_coinPhases.mpr mem)
  · exact coin_phase_heard (key 1) four ⟨500⟩ Map.empty env (inputsOf 1 unanimous) fun k mem => fair' k (mem_coinPhases.mpr mem)

/-- Two values are accepted, the coin is there, and an AUX message comes twice. -/
def replayed : List Input := inputsOf 1 (bit.drop 14) ++ [share 4 1, share 2 1, aux 4 1 3, aux 4 1 3]

theorem replayed_not_heard : ¬ ((start 1).run replayed).CoinPhaseHeard four replayed := by
  intro heard
  have entered : ∃ k ∈ coinPhases ((start 1).run replayed).log,
      ¬ AuxHeard four (receivedVals replayed ((start 1).run replayed).log) k.epoch k.abaRound := by
    decide +kernel
  obtain ⟨k, mem, light⟩ := entered
  exact light (heard.entered k (mem_coinPhases.mp mem))

end Sample
end HotstuffDag
