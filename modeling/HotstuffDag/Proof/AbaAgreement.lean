import HotstuffDag.Proof.AbaTrail
import HotstuffDag.Sample

/-! # Outputs of the agreement agree -/

namespace HotstuffDag
open Library

section

/-- A node broadcasts one AUX value in a round. -/
structure AuxOnce (k : Core) (l : List Event) : Prop where
  once : ∀ v v', Sent (.abaVal v) l → Sent (.abaVal v') l → v.phase = AUX_PHASE → v'.phase = AUX_PHASE →
    v.epoch = v'.epoch → v.round = v'.round → v.val = v'.val
  past : ∀ v, Sent (.abaVal v) l → v.phase = AUX_PHASE → v.epoch.toNat < k.epoch.toNat ∨
    v.epoch = k.epoch ∧ (v.round.toNat < k.abaRound.toNat ∨
      v.round = k.abaRound ∧ k.auxValueBroadcasted = true)

namespace AuxOnce
variable {k k' : Core} {l l' : List Event} {got : ConsensusMessage → Prop}

/-- Without a new AUX value only the time counts. -/
theorem keep (h : AuxOnce k l) (sent : ∀ v, Sent (.abaVal v) l' → v.phase = AUX_PHASE → Sent (.abaVal v) l)
    (later : k.epoch.toNat < k'.epoch.toNat ∨ k'.epoch = k.epoch ∧ (k.abaRound.toNat < k'.abaRound.toNat ∨
      k'.abaRound = k.abaRound ∧ (k.auxValueBroadcasted = true → k'.auxValueBroadcasted = true))) :
    AuxOnce k' l' where
  once := fun v v' mem mem' aux aux' => h.once v v' (sent v mem aux) (sent v' mem' aux') aux aux'
  past := by
    intro v mem aux
    rcases h.past v (sent v mem aux) aux with epoch | ⟨epoch, round⟩
    · rcases later with next | ⟨same, -⟩
      · exact .inl (epoch.trans next)
      · exact .inl (by rwa [same])
    · rcases later with next | ⟨same, next | ⟨same', flag⟩⟩
      · exact .inl (by rwa [epoch])
      · refine .inr ⟨by rw [epoch, same], .inl ?_⟩
        rcases round with round | ⟨round, -⟩
        · exact round.trans next
        · rwa [round]
      · refine .inr ⟨by rw [epoch, same], ?_⟩
        rw [same']
        exact round.imp_right fun ⟨round, cast⟩ => ⟨round, flag cast⟩

/-- A value is cast when none has been cast in the round. -/
theorem push (h : AuxOnce k l) {w : ABAVal} (fresh : k.auxValueBroadcasted = false) (epoch : w.epoch = k.epoch)
    (round : w.round = k.abaRound)
    (sent : ∀ v, Sent (.abaVal v) l' → v.phase = AUX_PHASE → Sent (.abaVal v) l ∨
      v.epoch = w.epoch ∧ v.round = w.round ∧ v.val = w.val) :
    AuxOnce { k with auxValueBroadcasted := true } l' := by
  have unsent (v : ABAVal) (old : Sent (.abaVal v) l) (aux : v.phase = AUX_PHASE) :
      ¬ (v.epoch = w.epoch ∧ v.round = w.round) := by
    rintro ⟨epoch', round'⟩
    rw [epoch] at epoch'
    rw [round] at round'
    rcases h.past v old aux with earlier | ⟨-, earlier | ⟨-, flag⟩⟩
    · rw [epoch'] at earlier
      omega
    · rw [round'] at earlier
      omega
    · rw [fresh] at flag
      contradiction
  refine ⟨fun v v' mem mem' aux aux' sameEpoch sameRound => ?_, fun v mem aux => ?_⟩
  · rcases sent v mem aux with old | new
    · rcases sent v' mem' aux' with old' | new'
      · exact h.once v v' old old' aux aux' sameEpoch sameRound
      · exact absurd ⟨sameEpoch.trans new'.1, sameRound.trans new'.2.1⟩ (unsent v old aux)
    · rcases sent v' mem' aux' with old' | new'
      · exact absurd ⟨sameEpoch.symm.trans new.1, sameRound.symm.trans new.2.1⟩ (unsent v' old' aux')
      · rw [new.2.2, new'.2.2]
  · rcases sent v mem aux with old | new
    · exact (h.past v old aux).imp_right fun ⟨epoch, round⟩ =>
        ⟨epoch, round.imp_right fun ⟨round, _⟩ => ⟨round, rfl⟩⟩
    · exact .inr ⟨new.1.trans epoch, .inr ⟨new.2.1.trans round, rfl⟩⟩

variable [Crypto]

theorem act (h : AuxOnce k l) (act : AbaAct got k l k' l') {P : PublicKey → List UInt8 → Prop} (certs : AbaCerts P k) :
    AuxOnce k' l' := by
  have reason (v : ABAVal) (mem : Sent (.abaVal v) l') (aux : v.phase = AUX_PHASE) : Sent (.abaVal v) l ∨
      k.auxValueBroadcasted = false ∧ k' = { k with auxValueBroadcasted := true } ∧
        ∃ proof, k.abaValPhaseCache2.get? (k.epoch, k.abaRound) = some proof ∧
          v.epoch = k.epoch ∧ v.round = k.abaRound ∧ v.val = proof.val := by
    refine (act.sent mem).imp_right fun new => ?_
    cases new with
    | input _ phase =>
        rw [aux] at phase
        contradiction
    | amplified _ _ cached same =>
        have phase := (certs.weak _ _ _ cached).2.2.1
        rw [← same.2.2.2, aux] at phase
        contradiction
    | accepted _ _ cached same fresh cast =>
        have strong := certs.strong _ _ _ cached
        exact ⟨fresh, cast, _, cached, same.1.trans strong.1, same.2.1.trans strong.2.1, same.2.2⟩
  by_cases new : ∃ v, Sent (.abaVal v) l' ∧ v.phase = AUX_PHASE ∧ ¬ Sent (.abaVal v) l
  · obtain ⟨w, mem, aux, unsent⟩ := new
    obtain ⟨fresh, rfl, proof, cached, epoch, round, val⟩ := (reason w mem aux).resolve_left unsent
    refine h.push fresh epoch round fun v mem aux => (reason v mem aux).imp_right ?_
    rintro ⟨-, -, proof', cached', epoch', round', val'⟩
    rw [cached] at cached'
    rw [epoch', round', val', epoch, round, val, Option.some.inj cached']
    exact ⟨rfl, rfl, rfl⟩
  · push Not at new
    refine h.keep new ?_
    cases act with
    | nextRound _ _ _ _ small =>
        refine .inr ⟨rfl, .inl ?_⟩
        rw [Core.nextRound, toNat_succ small]
        exact Nat.lt_succ_self _
    | castAux => exact .inr ⟨rfl, .inr ⟨rfl, fun _ => rfl⟩⟩
    | _ => exact .inr ⟨rfl, .inr ⟨rfl, fun flag => flag⟩⟩

end AuxOnce

variable [Crypto] [Bincode]

/-! ## When the outputs agree -/

/-- The authors of the AUX messages that a core has counted for its accepted values. -/
def auxSenders (core : Core) : List PublicKey :=
  core.binValues.flatMap fun v =>
    (core.aggregator.abaValsAggregators.getD (core.epoch, core.abaRound, AUX_PHASE, v) Maker.new).used

/-- A coin call is safe: a single accepted value is that of the AUX certificate; without an AUX
certificate, a quorum has sent AUX messages for accepted values, and an accepted value of the coin's
parity is the bit of the coin. -/
def SafeCoinCall (core : Core) (coin : Nat) : Prop :=
  let proof := core.abaAuxPhaseCache.get? (core.epoch, core.abaRound)
  if core.binValues.length = 1 then ∃ p ∈ proof, core.binValues = [p.val]
  else proof.isSome ∨
    core.committee.quorumThreshold ≤ Quorum.weight core.committee.stake (auxSenders core).toFinset ∧
      ∀ v ∈ core.binValues, v % 2 = UInt64.ofNat coin → v = UInt64.ofNat coin

instance (core : Core) (coin : Nat) : Decidable (SafeCoinCall core coin) := by
  unfold SafeCoinCall
  have parity : Decidable (∀ v ∈ core.binValues, v % 2 = UInt64.ofNat coin → v = UInt64.ofNat coin) :=
    List.decidableBAll _ _
  infer_instance

/-- The coin calls are safe, and the certificates that `process_aba_proof` takes are for AUX messages. -/
def SafeCalls (l : List Event) : Prop :=
  (∀ core coin, Event.coinCall core coin ∈ l → SafeCoinCall core coin) ∧
    ∀ core proof, Event.proofCall core proof ∈ l → proof.phase = AUX_PHASE

namespace System
variable {sys : System} {trace : Trace}

/-- The coin of a round is the same at all honest nodes. -/
def CoinAgrees (sys : System) (trace : Trace) : Prop :=
  ∀ p q, sys.Honest p → sys.Honest q → ∀ e r c d, Event.coin e r c ∈ (sys.nodeAt trace p).log →
    Event.coin e r d ∈ (sys.nodeAt trace q).log → c = d

/-- Honest nodes output the same value in an epoch. -/
def OutputsAgree (sys : System) (trace : Trace) : Prop :=
  ∀ p q, sys.Honest p → sys.Honest q → ∀ e r s v w, Event.abaOutput e r v ∈ (sys.nodeAt trace p).log →
    Event.abaOutput e s w ∈ (sys.nodeAt trace q).log → v = w

theorem auxOnce (resilient : sys.Resilient) (valid : sys.Valid trace) (key : PublicKey) (honest : sys.Honest key) :
    ∃ k, AuxOnce k (sys.logs trace key) := by
  have sounds := sys.sound (I := fun past key _ k l => sys.Trail past key k l ∧ AuxOnce k l)
    (fun le h => h.imp_left fun h => h.later le)
    (fun {past key input} honest allowed others => ?_)
    (fun key _ => ⟨Trail.init key, ?_, ?_⟩) valid key honest
  · obtain ⟨_, -, once⟩ := sounds.2
    exact ⟨_, once⟩
  · have trails := trailInvariant resilient.tolerant allowed honest fun a honest => by
      obtain ⟨_, _, trail, -⟩ := others a honest
      exact ⟨_, trail⟩
    have same {k : Core} {l l' : List Event} (h : AuxOnce k l)
        (sent : ∀ v, Sent (.abaVal v) l' → Sent (.abaVal v) l) : AuxOnce k l' :=
      h.keep (fun v mem _ => sent v mem) (.inr ⟨rfl, .inr ⟨rfl, fun flag => flag⟩⟩)
    refine ⟨?_, ?_, ?_, ?_⟩
    · rintro s s' names act ⟨trail, once⟩
      refine ⟨trails.act names act trail, ?_⟩
      cases act.abaCase with
      | act act => exact once.act act trail.explained.certs
      | nextEpoch core small events =>
          refine once.keep (fun v mem _ => mem.imp fun _ => Exists.imp fun _ => events _ trivial) (.inl ?_)
          rw [core, Core.nextEpoch, toNat_succ small]
          exact Nat.lt_succ_self _
      | other core events =>
          have epoch := Core.agreement_eq Core.epoch (fun _ => rfl) core
          have round := Core.agreement_eq Core.abaRound (fun _ => rfl) core
          have flag := Core.agreement_eq Core.auxValueBroadcasted (fun _ => rfl) core
          refine once.keep (fun v mem _ => mem.imp fun _ => Exists.imp fun _ => events _ trivial) (.inr ⟨epoch, .inr ⟨round, ?_⟩⟩)
          rw [flag]
          exact fun flag => flag
    · rintro v k l m same ⟨trail, once⟩
      exact ⟨trails.blind (v := v) m same trail, ⟨once.once, once.past⟩⟩
    · rintro v k l transactions ⟨trail, once⟩
      refine ⟨trails.makePayload (v := v) transactions trail, same once fun v mem => (sent_append mem).resolve_right ?_⟩
      rintro ⟨_, _, new⟩
      simp at new
    · rintro v k l payload allowed ⟨trail, once⟩
      exact ⟨trails.storePayload (v := v) payload allowed trail, ⟨once.once, once.past⟩⟩
  · rintro v _ ⟨_, _, mem⟩
    simp at mem
  · rintro v ⟨_, _, mem⟩
    simp at mem

/-- A quorum has broadcast the AUX value, if its honest members are believed. -/
def AuxQuorum (sys : System) (trace : Trace) (e r : SeqNumber) (v : UInt64) : Prop :=
  ∃ s, sys.committee.quorumThreshold ≤ Quorum.weight sys.committee.stake s ∧
    ∀ a ∈ s, sys.Honest a → ∃ w, Sent (.abaVal w) (sys.logs trace a) ∧ w.preimage = abaPreimage e r v AUX_PHASE

theorem auxQuorum_of_backed {key : PublicKey} {proof : ABAProof} (phase : proof.phase = AUX_PHASE)
    (backed : Backed (sys.ordered key) (sys.ordered key).quorumThreshold
      (sys.Claimed (sys.logs trace) key (sys.logs trace key) · proof.preimage) proof.votes) :
    sys.AuxQuorum trace proof.epoch proof.round proof.val := by
  have weight := backed.weight
  rw [Committee.quorumThreshold_perm (sys.perm _), Committee.stake_perm (sys.perm _)] at weight
  refine ⟨_, weight, fun a mem honest => ?_⟩
  obtain ⟨w, tag, addresses, logged, same⟩ := backed.each a (List.mem_toFinset.mp mem) honest
  rw [ABAProof.preimage, phase] at same
  exact ⟨w, ⟨tag, addresses, logged_logs.mp logged⟩, same⟩

/-- Two quorums of AUX messages share an honest node, which has broadcast one value. -/
theorem sent_aux_unique (resilient : sys.Resilient) (valid : sys.Valid trace) {e r : SeqNumber} {v w : UInt64}
    {a : PublicKey} (honest : sys.Honest a) {x y : ABAVal} (sent : Sent (.abaVal x) (sys.logs trace a))
    (sent' : Sent (.abaVal y) (sys.logs trace a)) (same : x.preimage = abaPreimage e r v AUX_PHASE)
    (same' : y.preimage = abaPreimage e r w AUX_PHASE) : v = w := by
  obtain ⟨_, once⟩ := auxOnce resilient valid a honest
  obtain ⟨epoch, round, rfl, phase⟩ := abaPreimage_inj.mp same
  obtain ⟨epoch', round', rfl, phase'⟩ := abaPreimage_inj.mp same'
  exact once.once x y sent sent' phase phase' (epoch.trans epoch'.symm) (round.trans round'.symm)

theorem AuxQuorum.unique (resilient : sys.Resilient) (valid : sys.Valid trace) {e r : SeqNumber} {v w : UInt64}
    (h : sys.AuxQuorum trace e r v) (h' : sys.AuxQuorum trace e r w) : v = w := by
  obtain ⟨s, heavy, each⟩ := h
  obtain ⟨t, heavy', each'⟩ := h'
  obtain ⟨a, mem, mem', honest⟩ := resilient.common_of_weight heavy heavy'
  obtain ⟨x, sent, same⟩ := each a mem honest
  obtain ⟨y, sent', same'⟩ := each' a mem' honest
  exact sent_aux_unique resilient valid honest sent sent' same same'

omit [Crypto] [Bincode] in
theorem eq_singleton {α : Type} {l : List α} {v : α} (nodup : l.Nodup) (nonempty : l ≠ []) (all : ∀ x ∈ l, x = v) :
    l = [v] := by
  match l with
  | [] => contradiction
  | [x] => rw [all x (List.mem_singleton.mpr rfl)]
  | x :: y :: rest =>
      have equal : x = y := (all x (by simp)).trans (all y (by simp)).symm
      simp [equal] at nodup

theorem output_round (resilient : sys.Resilient) (valid : sys.Valid trace) {key : PublicKey} (honest : sys.Honest key)
    {e r : SeqNumber} {v : UInt64} (output : Event.abaOutput e r v ∈ sys.logs trace key) : 1 ≤ r.toNat := by
  obtain ⟨_, trail⟩ := trails resilient.tolerant valid key honest
  rcases trail.outputs e r v output with ⟨core, coin, called, rfl, rfl, -⟩ | ⟨core, proof, coin, called, rfl, rfl, -⟩
  · exact (trail.coinCalls core coin called).1.round
  · exact (trail.proofCalls core proof called).1.round

/-- An output has an AUX quorum and the parity of the coin. -/
theorem output_aux (resilient : sys.Resilient) (valid : sys.Valid trace) {key : PublicKey} (honest : sys.Honest key)
    (safe : SafeCalls (sys.logs trace key)) {e r : SeqNumber} {v : UInt64}
    (output : Event.abaOutput e r v ∈ sys.logs trace key) :
    sys.AuxQuorum trace e r v ∧ ∃ coin, Event.coin e r coin ∈ sys.logs trace key ∧ v % 2 = UInt64.ofNat coin := by
  obtain ⟨_, trail⟩ := trails resilient.tolerant valid key honest
  rcases trail.outputs e r v output with ⟨core, coin, called, rfl, rfl, parity, why⟩ |
    ⟨core, proof, coin, called, rfl, rfl, rfl, logged, parity⟩
  · obtain ⟨explained, -, logged⟩ := trail.coinCalls core coin called
    refine ⟨?_, coin, logged, parity⟩
    have quorum (proof : ABAProof) (cached : core.abaAuxPhaseCache.get? (core.epoch, core.abaRound) = some proof) :
        sys.AuxQuorum trace core.epoch core.abaRound proof.val := by
      obtain ⟨epoch, round, phase, backed⟩ := explained.certs.aux _ _ proof cached
      rw [explained.committee] at backed
      have heavy := auxQuorum_of_backed phase backed
      rwa [epoch, round] at heavy
    rcases why with single | ⟨-, proof, cached, rfl⟩
    · have call := safe.1 core coin called
      unfold SafeCoinCall at call
      rw [if_pos (by rw [single]; rfl)] at call
      obtain ⟨proof, cached, same⟩ := call
      rw [single] at same
      rw [(List.cons.inj same).1]
      exact quorum proof cached
    · exact quorum proof cached
  · obtain ⟨explained, cached⟩ := trail.proofCalls core proof called
    obtain ⟨epoch, round, backed⟩ := explained.certs.proofs _ _ proof cached
    rw [explained.committee] at backed
    have heavy := auxQuorum_of_backed (safe.2 core proof called) backed
    rw [epoch, round] at heavy
    exact ⟨heavy, coin, logged, parity⟩

/-- After a round with an output the other nodes go on with the same value. -/
theorem input_after_output (resilient : sys.Resilient) (valid : sys.Valid trace) {key : PublicKey}
    (honest : sys.Honest key) (safe : SafeCalls (sys.logs trace key)) {e r : SeqNumber} {v w : UInt64}
    {core : Core} {coin : Nat} (called : Event.coinCall core coin ∈ sys.logs trace key) (epoch : core.epoch = e)
    (round : core.abaRound = r) (quorum : sys.AuxQuorum trace e r v) (parity : v % 2 = UInt64.ofNat coin)
    (why : CoinInput core coin w) : w = v := by
  subst epoch round
  obtain ⟨_, trail⟩ := trails resilient.tolerant valid key honest
  obtain ⟨explained, -, -⟩ := trail.coinCalls core coin called
  have agreed (proof : ABAProof) (cached : core.abaAuxPhaseCache.get? (core.epoch, core.abaRound) = some proof) :
      proof.val = v := by
    obtain ⟨epoch, round, phase, backed⟩ := explained.certs.aux _ _ proof cached
    rw [explained.committee] at backed
    have heavy := auxQuorum_of_backed phase backed
    rw [epoch, round] at heavy
    exact heavy.unique resilient valid quorum
  have call := safe.1 core coin called
  unfold SafeCoinCall at call
  rcases why with ⟨single, odd⟩ | ⟨several, rfl, none⟩
  · rw [if_pos (by rw [single]; rfl)] at call
    obtain ⟨proof, cached, same⟩ := call
    rw [single] at same
    rw [(List.cons.inj same).1, agreed proof cached]
  · have many : core.binValues.length ≠ 1 := fun one =>
      let ⟨x, single⟩ := List.length_eq_one_iff.mp one
      several x single
    rw [if_neg many] at call
    rcases call with found | ⟨heavy, bits⟩
    · -- The node has an AUX certificate, which is for `v`, and would have output it.
      obtain ⟨proof, cached⟩ := Option.isSome_iff_exists.mp found
      exact absurd (by rw [agreed proof cached]; exact parity) (none proof cached)
    · -- One of the authors it has counted has sent `v`, so `v` is accepted and must be the bit.
      rw [explained.committee, Committee.quorumThreshold_perm (sys.perm _), Committee.stake_perm (sys.perm _)] at heavy
      obtain ⟨t, heavy', each⟩ := quorum
      obtain ⟨a, counted, mem, good⟩ := resilient.common_of_weight heavy heavy'
      obtain ⟨x, accepted, used⟩ := List.mem_flatMap.mp (List.mem_toFinset.mp counted)
      have claimed : sys.Claimed (sys.logs trace) key (sys.logs trace key) a
          (abaPreimage core.epoch core.abaRound x AUX_PHASE) := by
        unfold Map.getD at used
        cases found : core.aggregator.abaValsAggregators.get? (core.epoch, core.abaRound, AUX_PHASE, x) with
        | none => simp [found, Maker.new] at used
        | some maker =>
            rw [found] at used
            exact (explained.certs.makers _ _ _ _ maker found).each a used
      obtain ⟨y, tag, addresses, logged, same⟩ := claimed good
      obtain ⟨y', sent', same'⟩ := each a mem good
      have equal : x = v :=
        sent_aux_unique resilient valid good ⟨tag, addresses, logged_logs.mp logged⟩ sent' same same'
      rw [equal] at accepted
      exact (bits v accepted parity).symm

/-- All inputs of the rounds after an output are the output. -/
theorem inputs_after_output (resilient : sys.Resilient) (valid : sys.Valid trace)
    (safe : ∀ key, sys.Honest key → SafeCalls (sys.logs trace key)) {e r : SeqNumber} {v : UInt64}
    (quorum : sys.AuxQuorum trace e r v)
    (coins : ∀ key, sys.Honest key → ∀ coin, Event.coin e r coin ∈ sys.logs trace key → v % 2 = UInt64.ofNat coin)
    (n : Nat) : ∀ (s : SeqNumber) (w : UInt64) (key : PublicKey), 1 ≤ r.toNat → s.toNat = r.toNat + 1 + n →
      sys.Honest key → Event.abaInput e s w ∈ sys.logs trace key → w = v := by
  induction n with
  | zero =>
      intro s w key started number honest taken
      obtain ⟨_, trail⟩ := trails resilient.tolerant valid key honest
      rcases trail.inputs e s w taken with rfl | ⟨core, coin, called, rfl, next, why⟩
      · have one : UInt64.toNat 1 = 1 := rfl
        omega
      · have round : core.abaRound = r := UInt64.toNat_inj.mp (by omega)
        obtain ⟨-, -, logged⟩ := trail.coinCalls core coin called
        rw [round] at logged
        exact input_after_output resilient valid honest (safe key honest) called rfl round quorum
          (coins key honest coin logged) why
  | succ n ih =>
      intro s w key started number honest taken
      obtain ⟨_, trail⟩ := trails resilient.tolerant valid key honest
      rcases trail.inputs e s w taken with rfl | ⟨core, coin, called, rfl, next, why⟩
      · have one : UInt64.toNat 1 = 1 := rfl
        omega
      · -- The values accepted in the round before are inputs of that round, hence all `v`.
        obtain ⟨explained, late, -⟩ := trail.coinCalls core coin called
        have bins (x : UInt64) (mem : x ∈ core.binValues) : x = v := by
          obtain ⟨a, good, earlier⟩ := isInput_logs.mp (explained.bins x mem)
          exact ih core.abaRound x a started (by omega) good earlier
        have nonempty := explained.nonempty (UInt8.le_trans (by decide) late)
        have single : core.binValues = [v] := eq_singleton explained.nodup nonempty bins
        rcases why with ⟨single', -⟩ | ⟨several, -⟩
        · exact bins w (by rw [single']; exact List.mem_singleton.mpr rfl)
        · exact absurd single (several v)

theorem SafeCalls.agree (resilient : sys.Resilient) (valid : sys.Valid trace) (coin : sys.CoinAgrees trace)
    (safe : ∀ key, sys.Honest key → SafeCalls (sys.nodeAt trace key).log) : sys.OutputsAgree trace := by
  have later (p q : PublicKey) (hp : sys.Honest p) (hq : sys.Honest q) (e r s : SeqNumber) (v w : UInt64)
      (output : Event.abaOutput e r v ∈ sys.logs trace p) (output' : Event.abaOutput e s w ∈ sys.logs trace q)
      (order : r.toNat ≤ s.toNat) : v = w := by
    obtain ⟨quorum, c, logged, parity⟩ := output_aux resilient valid hp (safe p hp) output
    obtain ⟨quorum', -⟩ := output_aux resilient valid hq (safe q hq) output'
    rcases Nat.lt_or_eq_of_le order with earlier | same
    · have coins (key : PublicKey) (honest : sys.Honest key) (d : Nat)
          (logged' : Event.coin e r d ∈ sys.logs trace key) : v % 2 = UInt64.ofNat d := by
        rw [← coin p key hp honest e r c d logged logged']
        exact parity
      obtain ⟨a, good, taken⟩ := output_input resilient.tolerant valid hq output'
      refine (inputs_after_output resilient valid safe quorum coins (s.toNat - r.toNat - 1) s w a ?_ ?_ good taken).symm
      · exact output_round resilient valid hp output
      · omega
    · have same : r = s := UInt64.toNat_inj.mp same
      rw [← same] at quorum'
      exact quorum.unique resilient valid quorum'
  intro p q hp hq e r s v w output output'
  rcases Nat.le_total r.toNat s.toNat with order | order
  · exact later p q hp hq e r s v w output output' order
  · exact (later q p hq hp e s r w v output' output order).symm

/-- Outputs agree in a run in which the calls of the honest nodes are safe. -/
theorem outputs_agree (sys : System) (resilient : sys.Resilient) (trace : Trace) (valid : sys.Valid trace)
    (coin : sys.CoinAgrees trace) (safe : ∀ key, sys.Honest key → SafeCalls (sys.nodeAt trace key).log) :
    sys.OutputsAgree trace :=
  SafeCalls.agree resilient valid coin safe

end System
end

/-! ## Two outputs -/

namespace Sample

/-- A certificate of the faulty authority for VAL messages. -/
def valProof (value : UInt64) : ABAProof where
  epoch := 0
  round := 1
  val := value
  phase := VAL_PHASE
  votes := [1, 2, 4].map fun n => (key n, (ABAVal.new (key n) 0 1 value VAL_PHASE).signature)
  tag := false

/-- Both nodes accept 2 and 4 and find the coin even. The first outputs 2, which has an AUX certificate,
the second outputs 4 with a certificate of VAL messages. -/
def parted : Trace :=
  [(key 2, .deliver .smvba (.abaProof (valProof 4)) env), (key 2, share 4 1), (key 2, share 1 1),
    (key 1, share 4 1), (key 1, aux 4 1 2), (key 1, aux 2 1 2), (key 2, val 4 1 4), (key 1, val 4 1 4),
    (key 1, val 2 1 4), (key 1, val 2 1 2), (key 1, val 4 1 2), (key 2, val 4 1 2), (key 2, val 1 1 2)] ++
    changing 2 4

theorem coin_agrees {trace : Trace} (all : ∀ p ∈ four.keys, ∀ q ∈ four.keys,
    ∀ x ∈ coins (system.nodeAt trace p).log, ∀ y ∈ coins (system.nodeAt trace q).log, x.1 = y.1 → x.2 = y.2) :
    system.CoinAgrees trace :=
  fun p q hp hq _ _ _ _ hc hd => all p hp.1 q hq.1 _ (mem_coins hc) _ (mem_coins hd) rfl

theorem parted_outputs : system.Resilient ∧ system.Valid parted ∧ system.CoinAgrees parted ∧
    ¬ system.OutputsAgree parted := by
  refine ⟨⟨by decide, by decide⟩, by decide +kernel, coin_agrees (by decide +kernel), fun agree => ?_⟩
  have same : (2 : UInt64) = 4 :=
    agree (key 1) (key 2) (by decide) (by decide) 0 1 1 2 4 (by decide +kernel) (by decide +kernel)
  contradiction

/-- The second node outputs 2 as well. -/
def settled : Trace := [(key 2, share 4 1), (key 2, aux 1 1 2)] ++ unanimous

theorem settled_outputs : Event.abaOutput 0 1 2 ∈ (system.nodeAt settled (key 1)).log ∧
    Event.abaOutput 0 1 2 ∈ (system.nodeAt settled (key 2)).log ∧ system.OutputsAgree settled := by
  refine ⟨by decide +kernel, by decide +kernel, System.outputs_agree system ⟨by decide, by decide⟩ settled
    (by decide +kernel) (coin_agrees (by decide +kernel)) fun key honest => ⟨?_, ?_⟩⟩
  · have all : ∀ key ∈ four.keys, ∀ call ∈ coinCalls (system.nodeAt settled key).log,
        SafeCoinCall call.1 call.2 := by
      decide +kernel
    exact fun core coin called => all key honest.1 _ (mem_coinCalls called)
  · have all : ∀ key ∈ four.keys, ∀ call ∈ proofCalls (system.nodeAt settled key).log,
        call.2.phase = AUX_PHASE := by
      decide +kernel
    exact fun core proof called => all key honest.1 _ (mem_proofCalls called)

end Sample
end HotstuffDag
