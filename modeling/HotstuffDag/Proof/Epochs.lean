import HotstuffDag.Proof.FastPath
import HotstuffDag.Proof.Pace

/-! # Epochs

A node goes through its epochs in turn and ends each on the chain of its leader, with an output of that epoch. What it
keeps for the agreement is for its epoch or for a later one. -/

namespace HotstuffDag
open Library Library.Exec

section

/-- The epochs that a node has left, in order. -/
def endedEpochs (l : List Event) : List SeqNumber :=
  l.filterMap fun
    | .epochEnd k _ _ => some k.epoch
    | _ => none

variable {committee : Committee} {l more : List Event} {got : ConsensusMessage → Prop} {s s' : Conf}

theorem endedEpochs_append (other : ∀ k c val, Event.epochEnd k c val ∉ more) : endedEpochs (l ++ more) = endedEpochs l := by
  have none : endedEpochs more = [] := by
    apply List.filterMap_eq_nil_iff.mpr
    intro e mem
    cases e with
    | epochEnd k c val => exact absurd mem (other k c val)
    | _ => rfl
  unfold endedEpochs at none ⊢
  rw [List.filterMap_append, none, List.append_nil]

@[simp] theorem endedEpochs_epochEnd (k : Core) (c : Chain) (val : UInt64) :
    endedEpochs (l ++ [.epochEnd k c val]) = endedEpochs l ++ [k.epoch] := by
  simp [endedEpochs]

/-! ## In turn -/

/-- How an act changes the epochs that are over. -/
inductive EndCase (s s' : Conf) : Prop
  | same (ended : endedEpochs s'.log = endedEpochs s.log)
      (old : ∀ k c val, Event.epochEnd k c val ∈ s'.log → Event.epochEnd k c val ∈ s.log)
      (epoch : s'.core.epoch = s.core.epoch)
  | next {val : UInt64} (log : s'.log = s.log ++ [.epochEnd s.core s.chain val]) (leader : s.chain.name = s.core.leader)
      (epoch : s'.core.epoch = s.core.epoch + 1) (small : s.core.epoch.toNat + 1 < 2 ^ 64)

theorem Act.endCase [Crypto] [Bincode] (act : Act got s s') : EndCase s s' := by
  have grown {l more : List Event} {k k' : Core} {c c' : Chain} (epoch : k'.epoch = k.epoch)
      (other : ∀ k c val, Event.epochEnd k c val ∉ more) : EndCase ⟨k, c, l⟩ ⟨k', c', l ++ more⟩ := by
    apply EndCase.same (endedEpochs_append other)
    · intro k c val mem
      exact (List.mem_append.mp mem).resolve_right (other k c val)
    · exact epoch
  cases act with
  | @aba k l k' l' c act =>
      obtain ⟨more, rfl, each⟩ := act.more
      exact grown act.frame.epoch fun k c val mem => each _ mem
  | @commit fuel env k c l b _ =>
      have frame := Core.commit_frame fuel b ⟨k, c, l, env⟩
      obtain ⟨more, log, each⟩ := frame.log
      unfold State.conf
      rw [log]
      exact grown (frame.core_eq Core.epoch fun _ _ => rfl) fun k c val mem => each _ mem
  | nextEpoch _ leader _ _ _ small => exact .next rfl leader rfl small
  | countVote =>
      refine grown rfl fun k c val mem => ?_
      unfold Core.assembledEvents at mem
      split at mem <;> simp at mem
  | countTimeout =>
      refine grown rfl fun k c val mem => ?_
      unfold Core.savedTcs at mem
      split at mem <;> simp at mem
  | certify | lockVote => exact .same rfl (fun _ _ _ => id) rfl
  | grant => exact .same (by simp [endedEpochs]) (by simp) rfl
  | _ => exact grown rfl (by simp)

/-- The epochs before that of the core are over, each once and in order, on the chain of its leader, and every chain
has seen those that its author has led. -/
structure Successive (committee : Committee) (v : View) (k : Core) (l : List Event) : Prop where
  same : k.committee = committee
  turns : (endedEpochs l).map UInt64.toNat = List.range k.epoch.toNat
  led : ∀ name c, v name = some c → c.epoch.toNat = ledBefore committee.getLeader name k.epoch
  ended : ∀ k' c val, Event.epochEnd k' c val ∈ l → c.name = committee.getLeader k'.epoch

namespace Successive
variable {v : View} {k k' : Core}

theorem act [Crypto] [Bincode] (act : Act got s s') (h : Successive committee (view s.core s.chain) s.core s.log) :
    Successive committee (view s'.core s'.chain) s'.core s'.log := by
  have elected : s.core.leader = committee.getLeader s.core.epoch := by rw [Core.leader, h.same]
  constructor
  · exact act.frame.committee.trans h.same
  · cases act.endCase with
    | same ended _ epoch =>
        rw [ended, epoch]
        exact h.turns
    | next log _ epoch small =>
        rw [log, epoch, endedEpochs_epochEnd, toNat_succ small, List.range_succ, List.map_append, h.turns]
        rfl
  · intro name c' found
    obtain ⟨c, before, which⟩ := act.view_back found
    have pace := h.led name c before
    cases act.epochCase with
    | same epoch chain =>
        rw [epoch, ← pace]
        rcases which with ⟨-, rfl, rfl⟩ | ⟨-, same⟩
        · rw [chain]
        · rw [Chain.uncommitted_eq Chain.epoch (fun _ => rfl) same]
    | next leader epoch small chain =>
        rw [epoch, ledBefore_succ small, ← pace]
        have led := leader.trans elected
        rcases which with ⟨rfl, rfl, rfl⟩ | ⟨other, same⟩
        · rw [if_pos led.symm, chain]
        · rw [if_neg fun here => other (led.trans here), Chain.uncommitted_eq Chain.epoch (fun _ => rfl) same]
          rfl
  · intro k' c val mem
    cases act.endCase with
    | same _ old => exact h.ended k' c val (old k' c val mem)
    | next log leader =>
        rw [log] at mem
        rcases List.mem_append.mp mem with before | new
        · exact h.ended k' c val before
        · obtain ⟨rfl, rfl, -⟩ := Event.epochEnd.inj (List.mem_singleton.mp new)
          exact leader.trans elected

theorem new (name : PublicKey) (parameters : Parameters) (store : Store) :
    Successive committee (Core.new name committee parameters store).pubkeyToChain.get? (Core.new name committee parameters store) [] := by
  refine ⟨rfl, rfl, fun key c found => ?_, fun k' c val mem => absurd mem List.not_mem_nil⟩
  rw [Core.new_chains] at found
  split at found
  · rw [← Option.some.inj found]
    rfl
  · contradiction

end Successive

theorem successiveInvariant [Crypto] [Bincode] (ok : Input → Prop) (committee : Committee) : Invariant ok (Successive committee) where
  act := fun _ act h => h.act act
  blind := fun _ _ h => ⟨h.same, h.turns, h.led, h.ended⟩
  makePayload := by
    intro v k l transactions h
    refine ⟨h.same, ?_, h.led, fun k' c val mem => h.ended k' c val (by simpa using mem)⟩
    rw [endedEpochs_append (by simp)]
    exact h.turns
  storePayload := fun _ _ h => ⟨h.same, h.turns, h.led, h.ended⟩

/-- In every run a node ends its epochs one after the other, each once, on the chain of its leader and with an output of
that epoch; and between two turns each chain is in the epoch that counts how often its author has led. -/
theorem epochs_in_turn [Crypto] [Bincode] (name : PublicKey) (committee : Committee) (parameters : Parameters) (first : Store)
    (env : Env)
    (inputs : List Input) :
    (endedEpochs ((Node.start (Core.new name committee parameters first) env).run inputs).log).map UInt64.toNat =
        List.range ((Node.start (Core.new name committee parameters first) env).run inputs).core.epoch.toNat ∧
      (∀ k c val, Event.epochEnd k c val ∈ ((Node.start (Core.new name committee parameters first) env).run inputs).log →
        c.name = committee.getLeader k.epoch ∧
          ∃ r, Event.abaOutput k.epoch r val ∈ ((Node.start (Core.new name committee parameters first) env).run inputs).log) ∧
      (((Node.start (Core.new name committee parameters first) env).run inputs).alive = true → ∀ key c,
        ((Node.start (Core.new name committee parameters first) env).run inputs).core.pubkeyToChain.get? key = some c →
        c.epoch.toNat = ledBefore committee.getLeader key
          ((Node.start (Core.new name committee parameters first) env).run inputs).core.epoch) := by
  have all := (successiveInvariant (fun _ => True) committee).and (concludedInvariant fun _ => True)
  have start : (Node.start (Core.new name committee parameters first) env).Sound fun v k l =>
      Successive committee v k l ∧ Concluded k l := by
    refine all.init ⟨Successive.new name parameters first, fun v found => ?_, fun k c v ended => absurd ended List.not_mem_nil⟩
    simp [Core.new] at found
  have sound := all.run (fun i (_ : i ∈ inputs) => trivial) start
  obtain ⟨_, successive, concluded⟩ := sound.2
  refine ⟨successive.turns, fun k c val ended => ⟨successive.ended k c val ended, concluded.ended k c val ended⟩, fun alive key c found => ?_⟩
  exact (sound.1 alive).holds.1.led key c found

/-! ## Nothing is kept for too long -/

/-- An entry for the epoch and the round can still be read, unless it is for round 0 of an epoch. -/
def Core.Expects (k : Core) (p : SeqNumber × SeqNumber) : Prop :=
  k.epoch ≤ p.1 ∧ (p.1 = k.epoch → k.abaRound ≠ 1 → k.abaRound ≤ p.2)

/-- What a core keeps for the agreement is not for an epoch or a round that is over. -/
structure Core.Swept (k : Core) : Prop where
  tcs : k.tcCache.Within fun epoch => k.epoch ≤ epoch
  vals : k.aggregator.abaValsAggregators.Within fun key => k.epoch ≤ key.1
  shares : k.aggregator.abaRandomcoinAggregators.Within fun key => k.epoch ≤ key.1
  coins : k.abaCoinCache.Within fun key => k.epoch ≤ key.1
  weak : k.abaValPhaseCache1.Within k.Expects
  strong : k.abaValPhaseCache2.Within k.Expects
  aux : k.abaAuxPhaseCache.Within k.Expects
  nums : k.auxValueNums.Within k.Expects
  proofs : k.abaProofCache.Within k.Expects

namespace Core

theorem expects_of_current {k : Core} {epoch round : SeqNumber} (current : k.isExpiredAbaMessage epoch round = false) :
    k.Expects (epoch, round) := by
  unfold isExpiredAbaMessage at current
  split at current
  · contradiction
  · simp only [decide_eq_false_iff_not, not_or, not_and] at current
    refine ⟨UInt64.not_lt.mp current.1, fun same _ => ?_⟩
    exact UInt64.not_lt.mp (current.2 same)

theorem Expects.now (k : Core) : k.Expects (k.epoch, k.abaRound) := ⟨UInt64.le_refl _, fun _ _ => UInt64.le_refl _⟩

theorem Swept.new (name : PublicKey) (committee : Committee) (parameters : Parameters) (store : Store) :
    (Core.new name committee parameters store).Swept := by
  constructor <;> exact Map.Within.empty

/-- A certificate is kept under the epoch and the round of the value that completes it. -/
theorem within_keptProof {m : Map (SeqNumber × SeqNumber) ABAProof} {P : SeqNumber × SeqNumber → Prop} (h : m.Within P)
    (wanted : ABAProof → Bool) {maker : ABAProofMaker} {v : ABAVal} {c : Committee} (holds : P (v.epoch, v.round)) :
    (keptProof wanted m (maker.append v c).1).Within P := by
  cases added : (maker.append v c).1 with
  | error e => exact h
  | ok option =>
      cases option with
      | none => exact h
      | some proof =>
          obtain ⟨epoch, round, -⟩ := (Paced.append_spec maker v c).2 proof added
          unfold keptProof
          dsimp only
          split
          · rw [epoch, round]
            exact h.insert holds proof
          · exact h

namespace Swept
variable {k k' : Core}

theorem congr (h : k.Swept) (same : k'.agreement = k.agreement) (tcs : k'.tcCache = k.tcCache) : k'.Swept := by
  have epoch := agreement_eq Core.epoch (fun _ => rfl) same
  have round := agreement_eq Core.abaRound (fun _ => rfl) same
  have expects : k'.Expects = k.Expects := by
    funext p
    unfold Expects
    rw [epoch, round]
  constructor
  · rw [tcs, epoch]
    exact h.tcs
  · rw [agreement_eq Core.aggregator (fun _ => rfl) same, epoch]
    exact h.vals
  · rw [agreement_eq Core.aggregator (fun _ => rfl) same, epoch]
    exact h.shares
  · rw [agreement_eq Core.abaCoinCache (fun _ => rfl) same, epoch]
    exact h.coins
  · rw [agreement_eq Core.abaValPhaseCache1 (fun _ => rfl) same, expects]
    exact h.weak
  · rw [agreement_eq Core.abaValPhaseCache2 (fun _ => rfl) same, expects]
    exact h.strong
  · rw [agreement_eq Core.abaAuxPhaseCache (fun _ => rfl) same, expects]
    exact h.aux
  · rw [agreement_eq Core.auxValueNums (fun _ => rfl) same, expects]
    exact h.nums
  · rw [agreement_eq Core.abaProofCache (fun _ => rfl) same, expects]
    exact h.proofs

theorem keepTc (h : k.Swept) {tc : TC} (current : ¬ tc.epoch < k.epoch) : (k.keepTc tc).Swept :=
  ⟨h.tcs.insert (UInt64.not_lt.mp current) tc, h.vals, h.shares, h.coins, h.weak, h.strong, h.aux, h.nums, h.proofs⟩

theorem hearVal (h : k.Swept) {v : ABAVal} (due : k.Expects (v.epoch, v.round)) : (k.hearVal v).Swept where
  tcs := h.tcs
  vals := h.vals.insert due.1 _
  shares := h.shares
  coins := h.coins
  weak := within_keptProof h.weak _ due
  strong := within_keptProof h.strong _ due
  aux := h.aux
  nums := h.nums
  proofs := h.proofs

theorem hearAux (h : k.Swept) {v : ABAVal} (due : k.Expects (v.epoch, v.round)) : (k.hearAux v).Swept where
  tcs := h.tcs
  vals := h.vals.insert due.1 _
  shares := h.shares
  coins := h.coins
  weak := h.weak
  strong := h.strong
  aux := within_keptProof h.aux _ due
  nums := h.nums.insert due _
  proofs := h.proofs

theorem hearShare [Crypto] (h : k.Swept) {share : RandomnessShare} (due : k.epoch ≤ share.epoch) : (k.hearShare share).Swept := by
  refine ⟨h.tcs, h.vals, h.shares.insert due _, ?_, h.weak, h.strong, h.aux, h.nums, h.proofs⟩
  show (keptCoin k.abaCoinCache share (k.aggregator.addAbaRandom share k.committee).1).Within _
  unfold keptCoin
  split
  · exact h.coins.insert due _
  · exact h.coins

/-- The next round keeps what is for it or for a later one. -/
theorem nextRound (h : k.Swept) (val : UInt64) : (k.nextRound val).Swept := by
  have later {α : Type} {m : Map (SeqNumber × SeqNumber) α} (within : m.Within k.Expects) :
      (retainRound m k.epoch (k.abaRound + 1)).Within (k.nextRound val).Expects := by
    refine (within.retain _).mono fun p kept => ?_
    have round : p.1 = k.epoch ∧ k.abaRound + 1 ≤ p.2 := of_decide_eq_true kept.2
    exact ⟨kept.1.1, fun _ _ => round.2⟩
  exact ⟨h.tcs, h.vals, h.shares, h.coins, later h.weak, later h.strong, later h.aux, later h.nums, later h.proofs⟩

/-- The next epoch keeps what is for it or for a later one. -/
theorem nextEpoch (h : k.Swept) : k.nextEpoch.Swept := by
  have later {α : Type} {m : Map (SeqNumber × SeqNumber) α} (within : m.Within k.Expects) :
      (m.retain fun n => n.1 ≥ k.epoch + 1).Within k.nextEpoch.Expects := by
    refine (within.retain _).mono fun p kept => ?_
    exact ⟨of_decide_eq_true kept.2, fun _ moved => absurd rfl moved⟩
  constructor
  · exact (h.tcs.retain _).mono fun epoch kept => of_decide_eq_true kept.2
  · exact (h.vals.retain _).mono fun key kept => of_decide_eq_true kept.2
  · exact (h.shares.retain _).mono fun key kept => of_decide_eq_true kept.2
  · exact (h.coins.retain _).mono fun key kept => of_decide_eq_true kept.2
  · exact later h.weak
  · exact later h.strong
  · exact later h.aux
  · exact later h.nums
  · exact later h.proofs

end Swept
end Core

theorem AbaAct.swept [Crypto] {k k' : Core} {l l' : List Event} (act : AbaAct got k l k' l') (h : k.Swept) : k'.Swept := by
  cases act with
  | keepTc _ current => exact h.keepTc current
  | hearVal _ current => exact h.hearVal (Core.expects_of_current current)
  | hearAux _ current => exact h.hearAux (Core.expects_of_current current)
  | hearShare _ current => exact h.hearShare (Core.expects_of_current current).1
  | hearProof _ current =>
      have due := Core.expects_of_current current
      exact ⟨h.tcs, h.vals, h.shares, h.coins, h.weak, h.strong, h.aux, h.nums, h.proofs.insert due _⟩
  | nextRound => exact h.nextRound _
  | countAux =>
      have due := Core.Expects.now k
      exact ⟨h.tcs, h.vals, h.shares, h.coins, h.weak, h.strong, h.aux, h.nums.orInsert due 0, h.proofs⟩
  | quiet | callCoin | callProof | castInput => exact h
  | _ => exact ⟨h.tcs, h.vals, h.shares, h.coins, h.weak, h.strong, h.aux, h.nums, h.proofs⟩

theorem Act.swept [Crypto] [Bincode] (act : Act got s s') (h : s.core.Swept) : s'.core.Swept := by
  cases act with
  | aba act => exact act.swept h
  | @commit fuel env k c l b _ =>
      have frame := Core.commit_frame fuel b ⟨k, c, l, env⟩
      apply h.congr
      · exact frame.core_eq Core.agreement fun _ _ => rfl
      · exact frame.core_eq Core.tcCache fun _ _ => rfl
  | nextEpoch => exact h.nextEpoch
  | @countTimeout k c l t _ _ current =>
      show (k.keepAssembledTc (c.aggregator.addTimeout t k.committee).1).Swept
      cases added : (c.aggregator.addTimeout t k.committee).1 with
      | error e => exact h
      | ok option =>
          cases option with
          | none => exact h
          | some tc =>
              have epoch := (TCMaker.append_some added).1
              exact h.keepTc (by rwa [epoch])
  | _ => exact h.congr rfl rfl

/-- In every run a node keeps nothing for the agreement that is for an epoch or a round that is over. -/
theorem nothing_stale [Crypto] [Bincode] (name : PublicKey) (committee : Committee) (parameters : Parameters) (first : Store)
    (env : Env)
    (inputs : List Input) : ((Node.start (Core.new name committee parameters first) env).run inputs).core.Swept := by
  have inv : Invariant (fun _ => True) fun _ k _ => k.Swept := by
    constructor
    · exact fun _ act h => act.swept h
    · exact fun _ _ h => h.congr rfl rfl
    · exact fun _ h => h
    · exact fun _ _ h => h.congr rfl rfl
  have start : (Node.start (Core.new name committee parameters first) env).Sound fun _ k _ => k.Swept :=
    inv.init (Core.Swept.new name committee parameters first)
  obtain ⟨_, swept⟩ := (inv.run (fun i (_ : i ∈ inputs) => trivial) start).2
  exact swept

end
end HotstuffDag
