import HotstuffDag.Proof.AbaCases
import HotstuffDag.Proof.ChainOrder
import HotstuffDag.Proof.Counting

/-! # Messages of later epochs

A message of a later epoch that a node handles while it has no output stays where it is recorded. -/

namespace HotstuffDag
open Library Library.Exec

namespace ConsensusMessage

def agreementEpoch : ConsensusMessage → SeqNumber
  | .abaVal v => v.epoch
  | .abaProof proof => proof.epoch
  | .abaCoinShare share => share.epoch
  | _ => 0

/-- The message is in the aggregator or in the proof cache. -/
def Recorded (k : Core) : ConsensusMessage → Prop
  | .abaVal v => (v.author, v.signature) ∈
      (k.aggregator.abaValsAggregators.getD (v.epoch, v.round, v.phase, v.val) Maker.new).votes
  | .abaProof proof => k.abaProofCache.get? (proof.epoch, proof.round) = some proof
  | .abaCoinShare share => share ∈
      (k.aggregator.abaRandomcoinAggregators.getD (share.epoch, share.round) Maker.new).votes
  | _ => False

/-- A valid message of a later epoch whose author has not been counted for it. -/
def FromFuture [Crypto] (k : Core) : ConsensusMessage → Prop
  | .abaVal v => k.epoch < v.epoch ∧ (v.phase = VAL_PHASE ∨ v.phase = AUX_PHASE) ∧ v.verify = .ok () ∧ ¬ k.Counted v
  | .abaProof proof => k.epoch < proof.epoch ∧ proof.verify k.committee = .ok ()
  | .abaCoinShare share => k.epoch < share.epoch ∧ share.verify k.committee = .ok () ∧ ¬ k.Dealt share
  | _ => False

/-- A proof has one place: no round begins but the first of an epoch, and no other proof comes for its round. -/
def Undisturbed (events : List Event) (inputs : List Input) : ConsensusMessage → Prop
  | .abaProof proof => (∀ e r val, Event.abaInput e r val ∈ events → r = 1) ∧
      ∀ other, Received (· ∈ inputs) (.abaProof other) → other.epoch = proof.epoch → other.round = proof.round → other = proof
  | _ => True

instance (k : Core) : (m : ConsensusMessage) → Decidable (m.Recorded k)
  | .abaVal _ => inferInstanceAs (Decidable (_ ∈ _))
  | .abaProof _ => inferInstanceAs (Decidable (_ = _))
  | .abaCoinShare _ => inferInstanceAs (Decidable (_ ∈ _))
  | .propose _ | .vote _ | .loopBack _ | .syncRequest _ _ | .syncReply _ | .timeout _ | .tc _ => inferInstanceAs (Decidable False)

end ConsensusMessage

/-! ## What keeps a message -/

theorem ABAProofMaker.votes_append {maker : ABAProofMaker} {v : ABAVal} {c : Committee} {vote : PublicKey × Signature}
    (h : vote ∈ maker.votes) : vote ∈ (maker.append v c).2.votes := by
  have pushed : vote ∈ maker.votes ++ [(v.author, v.signature)] := List.mem_append_left _ h
  unfold append
  split
  · exact h
  · dsimp only
    split
    · exact pushed
    · split <;> exact pushed

theorem ABAProofMaker.own_append {maker : ABAProofMaker} {v : ABAVal} {c : Committee} (fresh : v.author ∉ maker.used) :
    (v.author, v.signature) ∈ (maker.append v c).2.votes := by
  have pushed : (v.author, v.signature) ∈ maker.votes ++ [(v.author, v.signature)] := by simp
  unfold append
  rw [if_neg fresh]
  dsimp only
  split
  · exact pushed
  · split <;> exact pushed

theorem ABARandomCoinMaker.votes_append [Crypto] {maker : ABARandomCoinMaker} {share other : RandomnessShare} {c : Committee}
    (h : other ∈ maker.votes) : other ∈ (ABARandomCoinMaker.append maker share c).2.votes := by
  have pushed : other ∈ maker.votes ++ [share] := List.mem_append_left _ h
  unfold append
  split
  · exact h
  · dsimp only
    split
    · split <;> exact pushed
    · exact pushed

theorem ABARandomCoinMaker.own_append [Crypto] {maker : ABARandomCoinMaker} {share : RandomnessShare} {c : Committee}
    (fresh : share.author ∉ maker.used) : share ∈ (ABARandomCoinMaker.append maker share c).2.votes := by
  have pushed : share ∈ maker.votes ++ [share] := by simp
  unfold append
  rw [if_neg fresh]
  dsimp only
  split
  · split <;> exact pushed
  · exact pushed

namespace ConsensusMessage.Recorded
variable {got : ConsensusMessage → Prop} {k k' : Core} {l l' : List Event} {m : ConsensusMessage}

theorem mono (h : m.Recorded k)
    (vals : ∀ key vote, key.1 = m.agreementEpoch → vote ∈ (k.aggregator.abaValsAggregators.getD key Maker.new).votes →
      vote ∈ (k'.aggregator.abaValsAggregators.getD key Maker.new).votes)
    (shares : ∀ key share, key.1 = m.agreementEpoch → share ∈ (k.aggregator.abaRandomcoinAggregators.getD key Maker.new).votes →
      share ∈ (k'.aggregator.abaRandomcoinAggregators.getD key Maker.new).votes)
    (proofs : ∀ proof, m = .abaProof proof → k.abaProofCache.get? (proof.epoch, proof.round) = some proof →
      k'.abaProofCache.get? (proof.epoch, proof.round) = some proof) : m.Recorded k' := by
  cases m with
  | abaVal v => exact vals _ _ rfl h
  | abaProof proof => exact proofs proof rfl h
  | abaCoinShare share => exact shares _ _ rfl h
  | _ => exact h

theorem addAbaVal (h : m.Recorded k) {v : ABAVal} (aggregator : k'.aggregator = (k.aggregator.addAbaVal v k.committee).2)
    (proofs : k'.abaProofCache = k.abaProofCache) : m.Recorded k' := by
  refine h.mono (fun key vote _ mem => ?_) (fun key share _ mem => ?_) fun proof _ held => proofs ▸ held
  · rw [aggregator, Aggregator.addAbaVal, Map.getD_insert]
    split
    · rename_i same
      rw [← same] at mem
      exact ABAProofMaker.votes_append mem
    · exact mem
  · rw [aggregator]
    exact mem

theorem hearShare [Crypto] (h : m.Recorded k) (share : RandomnessShare) : m.Recorded (k.hearShare share) := by
  refine h.mono (fun key vote _ mem => mem) (fun key other _ mem => ?_) fun proof _ held => held
  unfold Core.hearShare
  rw [Aggregator.addAbaRandom, Map.getD_insert]
  split
  · rename_i same
    rw [← same] at mem
    exact ABARandomCoinMaker.votes_append mem
  · exact mem

/-- The next epoch keeps what belongs to it or to a later one. -/
theorem nextEpoch (h : m.Recorded k) (later : k.nextEpoch.epoch ≤ m.agreementEpoch) : m.Recorded k.nextEpoch := by
  refine h.mono (fun key vote here mem => ?_) (fun key share here mem => ?_) fun proof same held => ?_
  · change vote ∈ ((k.aggregator.abaValsAggregators.retain fun n => n.1 ≥ k.epoch + 1).getD key Maker.new).votes
    rw [Map.getD, Map.get?_retain, if_pos (by rw [here]; exact decide_eq_true later)]
    exact mem
  · change share ∈ ((k.aggregator.abaRandomcoinAggregators.retain fun n => n.1 ≥ k.epoch + 1).getD key Maker.new).votes
    rw [Map.getD, Map.get?_retain, if_pos (by rw [here]; exact decide_eq_true later)]
    exact mem
  · subst same
    change (k.abaProofCache.retain fun n => n.1 ≥ k.epoch + 1).get? _ = _
    rw [Map.get?_retain]
    exact (if_pos (decide_eq_true later)).trans held

theorem agreement (h : m.Recorded k) (same : k'.agreement = k.agreement) : m.Recorded k' := by
  have aggregator := Core.agreement_eq Core.aggregator (fun _ => rfl) same
  have proofs := Core.agreement_eq Core.abaProofCache (fun _ => rfl) same
  exact h.mono (aggregator ▸ fun _ _ _ mem => mem) (aggregator ▸ fun _ _ _ mem => mem) (proofs ▸ fun _ _ held => held)

/-- Only another proof for its round or a new round takes the place of a proof; nothing removes the others. -/
theorem act [Crypto] (h : m.Recorded k) (act : AbaAct got k l k' l') (round : 1 ≤ k.abaRound.toNat) {base : List Event}
    (grown : base <+: l)
    (still : ∀ proof, m = .abaProof proof → (∀ e r val, Event.abaInput e r val ∈ l'.drop base.length → r = 1) ∧
      ∀ other, got (.abaProof other) → other.epoch = proof.epoch → other.round = proof.round → other = proof) :
    m.Recorded k' := by
  cases act with
  | hearVal | hearAux => exact h.addAbaVal rfl rfl
  | hearShare => exact h.hearShare _
  | @hearProof other msg _ _ =>
      refine h.mono (fun _ _ _ mem => mem) (fun _ _ _ mem => mem) fun proof same held => ?_
      change (k.abaProofCache.insert (other.epoch, other.round) other).get? _ = _
      rw [Map.get?_insert]
      split
      · rename_i here
        rw [(still proof same).2 other msg (Prod.mk.inj here).1 (Prod.mk.inj here).2]
      · exact held
  | @nextRound coin val _ _ _ _ small =>
      refine h.mono (fun _ _ _ mem => mem) (fun _ _ _ mem => mem) fun proof same held => ?_
      have begun : Event.abaInput k.epoch (k.abaRound + 1) val ∈ (l ++ [Event.abaInput k.epoch (k.abaRound + 1) val] ++
          [Event.signed (.abaVal (.new k.name k.epoch (k.abaRound + 1) val VAL_PHASE))]).drop base.length := by
        rw [List.append_assoc, List.drop_append_of_le_length grown.length_le]
        simp
      have first := congrArg UInt64.toNat ((still proof same).1 _ _ _ begun)
      rw [toNat_succ small] at first
      change k.abaRound.toNat + 1 = 1 at first
      omega
  | _ => exact h.mono (fun _ _ _ mem => mem) (fun _ _ _ mem => mem) fun _ _ held => held

end ConsensusMessage.Recorded

/-! ## Runs -/

/-- The message is recorded up to its epoch, in every log between two of the run. -/
structure Stays (m : ConsensusMessage) (base final : List Event) (k : Core) (l : List Event) : Prop where
  round : 1 ≤ k.abaRound.toNat
  grown : base <+: l
  recorded : l <+: final → k.epoch ≤ m.agreementEpoch → m.Recorded k

theorem AbaAct.abaRound_pos [Crypto] {got : ConsensusMessage → Prop} {k k' : Core} {l l' : List Event} (act : AbaAct got k l k' l')
    (round : 1 ≤ k.abaRound.toNat) : 1 ≤ k'.abaRound.toNat := by
  cases act with
  | nextRound _ _ _ _ small =>
      rw [Core.nextRound, toNat_succ small]
      omega
  | _ => exact round

theorem Act.abaRound_pos [Crypto] [Bincode] {got : ConsensusMessage → Prop} {s s' : Conf} (act : Act got s s')
    (round : 1 ≤ s.core.abaRound.toNat) :
    1 ≤ s'.core.abaRound.toNat := by
  cases act.abaCase with
  | act act => exact act.abaRound_pos round
  | nextEpoch core =>
      rw [core]
      exact Nat.le_refl 1
  | other same =>
      rw [Core.agreement_eq Core.abaRound (fun _ => rfl) same]
      exact round

theorem staysInvariant [Crypto] [Bincode] (m : ConsensusMessage) (base final : List Event) (inputs : List Input)
    (undisturbed : m.Undisturbed (final.drop base.length) inputs) :
    Invariant (· ∈ inputs) fun _ k l => Stays m base final k l where
  act := by
    intro s s' _ act h
    have grown := act.frame.log
    refine ⟨act.abaRound_pos h.round, h.grown.trans grown, fun le early => ?_⟩
    cases act.abaCase with
    | act act =>
        refine (h.recorded (grown.trans le) (act.frame.epoch ▸ early)).act act h.round h.grown fun proof same => ?_
        subst same
        refine ⟨fun e r val mem => undisturbed.1 e r val ?_, undisturbed.2⟩
        exact (le.drop base.length).subset mem
    | nextEpoch core small =>
        rw [core] at early ⊢
        have before : s.core.epoch ≤ m.agreementEpoch := by
          rw [UInt64.le_iff_toNat_le] at early ⊢
          change (s.core.epoch + 1).toNat ≤ _ at early
          rw [toNat_succ small] at early
          omega
        exact (h.recorded (grown.trans le) before).nextEpoch early
    | other same =>
        rw [Core.agreement_eq Core.epoch (fun _ => rfl) same] at early
        exact (h.recorded (grown.trans le) early).agreement same
  blind := fun m same h => ⟨h.round, h.grown, fun le early => (h.recorded le early).agreement rfl⟩
  makePayload := fun _ h => ⟨h.round, h.grown.trans (List.prefix_append _ _), fun le early =>
    h.recorded ((List.prefix_append _ _).trans le) early⟩
  storePayload := fun _ _ h => ⟨h.round, h.grown, fun le early => (h.recorded le early).agreement rfl⟩

/-- A node counts its rounds from one. -/
theorem roundInvariant [Crypto] [Bincode] (ok : Input → Prop) : Invariant ok fun _ k _ => 1 ≤ k.abaRound.toNat where
  act := fun _ act h => act.abaRound_pos h
  blind := fun _ _ h => h
  makePayload := fun _ h => h
  storePayload := fun _ _ h => h

/-! ## The turn that handles the message -/

namespace ConsensusMessage
variable {k : Core} {m : ConsensusMessage} {s : State}

theorem not_expired {epoch : SeqNumber} (output : k.abaOutputVal = none) (later : k.epoch < epoch) (round : SeqNumber) :
    k.isExpiredAbaMessage epoch round = false := by
  unfold Core.isExpiredAbaMessage
  rw [output]
  rw [UInt64.lt_iff_toNat_lt] at later
  simp only [Option.isSome_none, Bool.false_eq_true, if_false, decide_eq_false_iff_not, not_or, not_and]
  refine ⟨fun earlier => ?_, fun same => ?_⟩
  · rw [UInt64.lt_iff_toNat_lt] at earlier
    omega
  · rw [same] at later
    omega

theorem handleAbaVal_future [Crypto] {v : ABAVal} (future : (abaVal v).FromFuture s.core) (output : s.core.abaOutputVal = none) :
    Core.handleAbaVal v s = .ok () (Core.heard s v) ∧ (abaVal v).Recorded (Core.heard s v).core := by
  obtain ⟨later, phase, verified, fresh⟩ := future
  refine ⟨Core.handleAbaVal_run phase verified fresh, ?_⟩
  unfold Core.heard
  rw [not_expired output later, if_neg Bool.false_ne_true]
  have own : (v.author, v.signature) ∈ ((s.core.aggregator.addAbaVal v s.core.committee).2.abaValsAggregators.getD
      (v.epoch, v.round, v.phase, v.val) Maker.new).votes := by
    rw [Aggregator.addAbaVal, Map.getD_insert, if_pos rfl]
    exact ABAProofMaker.own_append fresh
  split <;> exact own

theorem handleCoinShare_future [Crypto] {share : RandomnessShare} (future : (abaCoinShare share).FromFuture s.core)
    (output : s.core.abaOutputVal = none) : Core.handleCoinShare share s = .ok () (Core.heardShare s share) ∧
      (abaCoinShare share).Recorded (Core.heardShare s share).core := by
  obtain ⟨later, verified, fresh⟩ := future
  refine ⟨Core.handleCoinShare_run verified fresh, ?_⟩
  unfold Core.heardShare
  rw [not_expired output later, if_neg Bool.false_ne_true]
  change share ∈ ((s.core.aggregator.addAbaRandom share s.core.committee).2.abaRandomcoinAggregators.getD
    (share.epoch, share.round) Maker.new).votes
  rw [Aggregator.addAbaRandom, Map.getD_insert, if_pos rfl]
  exact ABARandomCoinMaker.own_append fresh

/-- Without an output, a message of a later epoch is recorded. -/
theorem handleMessage_future [Crypto] [Bincode] (fuel : Nat) (future : m.FromFuture s.core) (output : s.core.abaOutputVal = none) :
    ∃ t, Core.handleMessage fuel .smvba m s = .ok () t ∧ m.Recorded t.core := by
  cases m with
  | abaVal v =>
      obtain ⟨run, recorded⟩ := handleAbaVal_future future output
      exact ⟨_, by rw [Core.handleMessage, attempt, run], recorded⟩
  | abaProof proof =>
      have current := not_expired output future.1 proof.round
      refine ⟨_, by rw [Core.handleMessage, attempt, Core.handleAbaProof_run current future.2], ?_⟩
      exact Map.get?_insert_self _ _ _
  | abaCoinShare share =>
      obtain ⟨run, recorded⟩ := handleCoinShare_future future output
      exact ⟨_, by rw [Core.handleMessage, attempt, run], recorded⟩
  | _ => exact future.elim

end ConsensusMessage

/-- A message of a later epoch that a node handles before it has an output is recorded when the node comes to that epoch. -/
theorem future_message_stays [Crypto] [Bincode] (name : PublicKey) (committee : Committee) (parameters : Parameters) (store : Store)
    (env env' : Env) (before after : List Input) (m : ConsensusMessage) (n final : Node)
    (reached : n = (Node.start (Core.new name committee parameters store) env).run before)
    (ends : final = (n.step (.deliver .smvba m env')).run after) (alive : n.alive = true) (future : m.FromFuture n.core)
    (open' : n.core.abaOutputVal = none) (undisturbed : m.Undisturbed (final.log.drop n.log.length) after)
    (early : final.core.epoch ≤ m.agreementEpoch) : m.Recorded final.core := by
  have start : (Node.start (Core.new name committee parameters store) env).Sound fun _ k _ => 1 ≤ k.abaRound.toNat :=
    (roundInvariant fun _ => True).init (Nat.le_refl 1)
  have sound : n.Sound fun _ k _ => 1 ≤ k.abaRound.toNat := by
    rw [reached]
    exact (roundInvariant fun _ => True).run (fun _ _ => trivial) start
  have closed := sound.1 alive
  obtain ⟨t, handled, recorded⟩ :=
    ConsensusMessage.handleMessage_future (s := ⟨n.core, Chain.new n.core.name, n.log, env'⟩) env'.fuel future open'
  have handling : Sounds (fun _ k l => 1 ≤ k.abaRound.toNat ∧ n.log <+: l)
      (Core.handleMessage env'.fuel .smvba m ⟨n.core, Chain.new n.core.name, n.log, env'⟩) :=
    ((roundInvariant fun _ => True).and (System.prefixInvariant n.log)).handleMessage ⟨.smvba, env', trivial⟩
      ⟨closed.names, closed.own, closed.holds, List.prefix_refl _⟩
  rw [handled] at handling
  have inv := staysInvariant m n.log final.log after undisturbed
  have stays : (n.step (.deliver .smvba m env')).Sound fun _ k l => Stays m n.log final.log k l := by
    unfold Node.step
    rw [if_pos alive]
    refine Node.sound_exec (inv.turn_after handled ⟨handling.names, handling.own, ?_⟩)
    exact ⟨handling.holds.1, handling.holds.2, fun _ _ => recorded⟩
  have last : final.Sound fun _ k l => Stays m n.log final.log k l := by
    rw [ends]
    rw [ends] at inv stays
    exact inv.run (fun _ mem => mem) stays
  obtain ⟨_, held⟩ := last.2
  exact held.recorded (List.prefix_refl _) early

namespace Sample

/-- A proof of the next epoch. -/
def nextProof : ABAProof :=
  ⟨1, 1, 0, AUX_PHASE, [1, 3, 4].map fun n => (key n, (ABAVal.new (key n) 1 1 0 AUX_PHASE).signature), false⟩

def beforeOutput : List Input := propose (firstBlock 1) :: agreeOnZero.take 5

def withNextProof : Node := ((start 2).run beforeOutput).step (.deliver .smvba (.abaProof nextProof) env)

theorem next_proof_stays : (withNextProof.run (agreeOnZero.drop 5)).core.epoch = nextProof.epoch ∧
    (ConsensusMessage.abaProof nextProof).Recorded (withNextProof.run (agreeOnZero.drop 5)).core := by
  have entered : (withNextProof.run (agreeOnZero.drop 5)).core.epoch = 1 := by decide +kernel
  have ones : ((abaInputs ((withNextProof.run (agreeOnZero.drop 5)).log.drop ((start 2).run beforeOutput).log.length)).all
      fun input => input.2.1 = 1) = true := by
    decide +kernel
  have first := List.all_eq_true.mp ones
  refine ⟨entered, future_message_stays (key 2) four ⟨500⟩ Map.empty env env beforeOutput (agreeOnZero.drop 5)
    (.abaProof nextProof) _ _ rfl rfl (by decide +kernel) ⟨by decide +kernel, by decide +kernel⟩ (by decide +kernel) ?_ ?_⟩
  · refine ⟨fun e r val mem => of_decide_eq_true (first _ (mem_abaInputs mem)), fun other received => ?_⟩
    obtain ⟨channel, env', mem⟩ := received
    simp [agreeOnZero, share] at mem
  · change (withNextProof.run (agreeOnZero.drop 5)).core.epoch ≤ 1
    rw [entered]
    exact UInt64.le_refl _

/-- A VAL message of the next epoch. -/
def nextVal : ABAVal := .new (key 4) 1 1 0 VAL_PHASE

/-- The node has its output when the message comes, and enters the epoch of the message in the same turn. -/
theorem next_val_dropped : ∃ n : Node, n = (start 2).run (propose (firstBlock 1) :: agreeOnZero.take 6) ∧ n.alive = true ∧
    (ConsensusMessage.abaVal nextVal).FromFuture n.core ∧
    (n.step (.deliver .smvba (.abaVal nextVal) env)).core.epoch = nextVal.epoch ∧
    ¬ (ConsensusMessage.abaVal nextVal).Recorded (n.step (.deliver .smvba (.abaVal nextVal) env)).core := by
  refine ⟨_, rfl, by decide +kernel, ⟨by decide +kernel, .inl rfl, by decide +kernel, by decide +kernel⟩, ?_, ?_⟩
  · decide +kernel
  · decide +kernel

end Sample
end HotstuffDag
