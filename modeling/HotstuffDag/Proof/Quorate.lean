import HotstuffDag.Proof.AbaPace
import HotstuffDag.Proof.MadeOnce
import HotstuffDag.Proof.ViewChange

/-! # No quorum is missed

A maker starts its weight again with each certificate. Until then it weighs all the authors it has
counted, so a quorum among these has made a certificate. A quorum of timeouts also changes the view. -/

namespace HotstuffDag
open Library Library.Exec

/-! ## Makers -/

section
variable {Entry Certificate : Type} {c : Committee} {due due' : Prop} {maker : Maker Entry}

/-- The stake of the authors that a maker has counted. -/
def Maker.counted (c : Committee) (maker : Maker Entry) : Nat := (maker.used.map c.stake).sum

/-- A maker weighs all its authors and is short of the quorum, or what is due at the quorum has happened. -/
def Maker.Heeds (c : Committee) (due : Prop) (maker : Maker Entry) : Prop :=
  (maker.weight = maker.counted c ∧ maker.counted c < c.quorumThreshold) ∨ due

namespace Maker.Heeds

theorem new : (Maker.new : Maker Entry).Heeds c due := .inl ⟨rfl, Nat.succ_pos _⟩

theorem mono (h : maker.Heeds c due) (le : due → due') : maker.Heeds c due' := h.imp_right le

theorem happened (h : maker.Heeds c due) (reached : c.quorumThreshold ≤ maker.counted c) : due :=
  h.resolve_left fun short => absurd reached (Nat.not_le.mpr short.2)

theorem getD {K : Type} [DecidableEq K] {m : Map K (Maker Entry)} {k : K} (h : ∀ maker, m.get? k = some maker → maker.Heeds c due) :
    (m.getD k Maker.new).Heeds c due := by
  unfold Map.getD
  cases found : m.get? k with
  | none => exact new
  | some maker => exact h maker found

theorem retain {K : Type} [DecidableEq K] {m : Map K (Maker Entry)} {k : K} (h : (m.getD k Maker.new).Heeds c due) (p : K → Bool) :
    ((m.retain p).getD k Maker.new).Heeds c due := by
  unfold Map.getD at h ⊢
  rw [Map.get?_retain]
  split
  · exact h
  · exact new

/-- An author that is new adds its stake. -/
theorem push {author : PublicKey} {entry : Entry} (h : maker.Heeds c due)
    (light : ¬ (maker.push author entry (c.stake author)).weight ≥ c.quorumThreshold) :
    (maker.push author entry (c.stake author)).Heeds c due := by
  apply h.imp_left
  rintro ⟨weight, -⟩
  have same : (maker.push author entry (c.stake author)).weight = (maker.push author entry (c.stake author)).counted c := by
    show maker.weight + c.stake author = ((author :: maker.used).map c.stake).sum
    rw [weight, List.map_cons, List.sum_cons, Nat.add_comm]
    rfl
  refine ⟨same, ?_⟩
  rw [← same]
  exact Nat.not_le.mp light

theorem collect {author : PublicKey} {entry : Entry} {reuse : ConsensusError} {certificate : List Entry → Certificate}
    (h : maker.Heeds c due) (le : due → due')
    (returned : ∀ x, (maker.collect c author entry reuse certificate).1 = .ok (some x) → due') :
    (maker.collect c author entry reuse certificate).2.Heeds c due' := by
  unfold Maker.collect at returned ⊢
  split at returned
  · rename_i again
    rw [if_pos again]
    exact h.mono le
  · rename_i fresh
    rw [if_neg fresh]
    dsimp only at returned ⊢
    split at returned
    · exact .inr (returned _ rfl)
    · rename_i light
      rw [if_neg light]
      exact (h.push light).mono le

theorem appendVal {v : ABAVal} {maker : ABAProofMaker} (h : maker.Heeds c due) (le : due → due')
    (returned : ∀ proof, (ABAProofMaker.append maker v c).1 = .ok (some proof) → proof.tag = false →
      proof.epoch = v.epoch ∧ proof.round = v.round ∧ proof.phase = v.phase ∧ proof.val = v.val → due') :
    (ABAProofMaker.append maker v c).2.Heeds c due' := by
  unfold ABAProofMaker.append at returned ⊢
  split at returned
  · rename_i again
    rw [if_pos again]
    exact h.mono le
  · rename_i fresh
    rw [if_neg fresh]
    dsimp only at returned ⊢
    split at returned
    · exact .inr (returned _ rfl rfl ⟨rfl, rfl, rfl, rfl⟩)
    · rename_i light
      rw [if_neg light]
      have pushed := (h.push light).mono le
      split
      · exact pushed
      · exact pushed

end Maker.Heeds
end

section
variable {c c' : Chain} {name : PublicKey} {committee : Committee} {l l' : List Event}

/-! ## Chains -/

/-- The makers of a chain have made their certificates. -/
structure Chain.Heeds (committee : Committee) (l : List Event) (name : PublicKey) (c : Chain) : Prop where
  votes : ∀ height, (c.aggregator.votesAggregators.getD height Maker.new).Heeds committee
    (∃ qc, Event.assembled name qc ∈ l ∧ qc.height = height)
  timeouts : ∀ epoch, (c.aggregator.timeoutsAggregators.getD epoch Maker.new).Heeds committee
    (∃ tc, Event.savedTc tc ∈ l ∧ tc.epoch = epoch)

namespace Chain.Heeds

theorem new : (Chain.new name).Heeds committee l name := ⟨fun _ => Maker.Heeds.new, fun _ => Maker.Heeds.new⟩

theorem mono (h : c.Heeds committee l name) (le : l <+: l') : c.Heeds committee l' name where
  votes := fun height => (h.votes height).mono fun ⟨qc, event, about⟩ => ⟨qc, le.subset event, about⟩
  timeouts := fun epoch => (h.timeouts epoch).mono fun ⟨tc, event, about⟩ => ⟨tc, le.subset event, about⟩

theorem congr (h : c.Heeds committee l name) (same : c'.aggregator = c.aggregator) : c'.Heeds committee l name := by
  constructor
  · rw [same]
    exact h.votes
  · rw [same]
    exact h.timeouts

theorem uncommitted (h : c.Heeds committee l name) (same : c'.uncommitted = c.uncommitted) : c'.Heeds committee l name :=
  h.congr (Chain.uncommitted_eq Chain.aggregator (fun _ => rfl) same)

theorem certify (h : c.Heeds committee l name) (epoch : SeqNumber) (qc : QC) : (c.certify epoch qc).Heeds committee l name := by
  have advanced : (c.advance epoch qc.height).Heeds committee l name := by
    unfold Chain.advance
    split
    · exact h
    · exact ⟨fun height => (h.votes height).retain _, fun e => (h.timeouts e).retain _⟩
  exact advanced.congr rfl

theorem countVote (h : c.Heeds committee l name) (v : Vote) :
    (c.countVote committee v).Heeds committee (l ++ Core.assembledEvents name (c.aggregator.addVote v committee).1) name := by
  have le : l <+: l ++ Core.assembledEvents name (c.aggregator.addVote v committee).1 := List.prefix_append _ _
  refine ⟨fun height => ?_, fun epoch => (h.mono le).timeouts epoch⟩
  show ((c.aggregator.votesAggregators.insert v.height _).getD height Maker.new).Heeds committee _
  rw [Map.getD_insert]
  split
  · rename_i same
    subst same
    apply (h.votes v.height).collect
    · rintro ⟨qc, event, about⟩
      exact ⟨qc, le.subset event, about⟩
    · intro qc returned
      have added : (c.aggregator.addVote v committee).1 = .ok (some qc) := returned
      refine ⟨qc, ?_, (Aggregator.addVote_some added).2⟩
      rw [added]
      exact List.mem_append_right _ List.mem_cons_self
  · exact (h.mono le).votes height

theorem countTimeout (h : c.Heeds committee l name) (t : Timeout) :
    (c.countTimeout committee t).Heeds committee (l ++ Core.savedTcs (c.aggregator.addTimeout t committee).1) name := by
  have le : l <+: l ++ Core.savedTcs (c.aggregator.addTimeout t committee).1 := List.prefix_append _ _
  refine ⟨fun height => (h.mono le).votes height, fun epoch => ?_⟩
  show ((c.aggregator.timeoutsAggregators.insert t.epoch _).getD epoch Maker.new).Heeds committee _
  rw [Map.getD_insert]
  split
  · rename_i same
    subst same
    apply (h.timeouts t.epoch).collect
    · rintro ⟨tc, event, about⟩
      exact ⟨tc, le.subset event, about⟩
    · intro tc returned
      have added : (c.aggregator.addTimeout t committee).1 = .ok (some tc) := returned
      refine ⟨tc, ?_, (TCMaker.append_some added).1⟩
      rw [added]
      exact List.mem_append_right _ List.mem_cons_self
  · exact (h.mono le).timeouts epoch

end Chain.Heeds

/-! ## A node -/

/-- The certificate of a quorum for the values under a key. -/
def ABAProof.Closes (key : SeqNumber × SeqNumber × UInt8 × UInt64) (proof : ABAProof) : Prop :=
  proof.tag = false ∧ (proof.epoch, proof.round, proof.phase, proof.val) = key

def ValsHeed (committee : Committee) (k : Core) (l : List Event) : Prop :=
  ∀ key, (k.aggregator.abaValsAggregators.getD key Maker.new).Heeds committee
    (∃ proof, Event.assembledAba proof ∈ l ∧ proof.Closes key)

/-- All the makers of a node have made their certificates. -/
structure Noticed (committee : Committee) (v : View) (k : Core) (l : List Event) : Prop where
  same : k.committee = committee
  chains : ∀ name c, v name = some c → c.Heeds committee l name
  vals : ValsHeed committee k l

variable {got : ConsensusMessage → Prop} {s s' : Conf} {k k' : Core}

theorem ValsHeed.mono (h : ValsHeed committee k l) (le : l <+: l') : ValsHeed committee k l' :=
  fun key => (h key).mono fun ⟨proof, event, about⟩ => ⟨proof, le.subset event, about⟩

theorem ValsHeed.add (h : ValsHeed committee k l) (same : k.committee = committee) (v : ABAVal) (key) :
    ((k.aggregator.addAbaVal v k.committee).2.abaValsAggregators.getD key Maker.new).Heeds committee
      (∃ proof, Event.assembledAba proof ∈ l ++ k.abaEvents v ∧ proof.Closes key) := by
  have le : l <+: l ++ k.abaEvents v := List.prefix_append _ _
  show ((k.aggregator.abaValsAggregators.insert (v.epoch, v.round, v.phase, v.val) _).getD key Maker.new).Heeds committee _
  rw [Map.getD_insert, same]
  split
  · rename_i here
    subst here
    apply (h (v.epoch, v.round, v.phase, v.val)).appendVal
    · rintro ⟨proof, event, about⟩
      exact ⟨proof, le.subset event, about⟩
    · rintro proof returned strong ⟨epoch, round, phase, val⟩
      have added : (k.aggregator.addAbaVal v k.committee).1 = .ok (some proof) := by
        rw [same]
        exact returned
      refine ⟨proof, ?_, strong, by rw [epoch, round, phase, val]⟩
      unfold Core.abaEvents
      rw [added]
      exact List.mem_append_right _ List.mem_cons_self
  · exact h.mono le key

theorem ValsHeed.act [Crypto] (act : AbaAct got k l k' l') (same : k.committee = committee) (h : ValsHeed committee k l) :
    ValsHeed committee k' l' := by
  cases act with
  | hearVal => exact h.add same _
  | hearAux => exact h.add same _
  | hearShare => exact h.mono (List.prefix_append _ _)
  | hearProof | shareCast | tcProcessed | enterVal | enterAux | countAux | enterViewChange => exact h
  | nextRound =>
      rw [List.append_assoc]
      exact h.mono (List.prefix_append _ _)
  | _ => exact h.mono (List.prefix_append _ _)

theorem Noticed.chain [Crypto] [Bincode] (h : Noticed committee (view s.core s.chain) s.core s.log) (act : Act got s s') :
    s'.chain.Heeds committee s'.log s.chain.name := by
  have before : s.chain.Heeds committee s.log s.chain.name := h.chains _ _ (view_self _ _)
  have le := act.frame.log
  cases act with
  | @commit fuel env k c l b _ =>
      exact (before.uncommitted (Core.commit_frame fuel b ⟨k, c, l, env⟩).chain).mono le
  | certify => exact before.certify _ _
  | countVote =>
      have same := h.same
      subst same
      exact before.countVote _
  | countTimeout =>
      have same := h.same
      subst same
      exact before.countTimeout _
  | _ =>
      apply Chain.Heeds.mono _ le
      exact before.congr rfl

theorem Noticed.act [Crypto] [Bincode] (h : Noticed committee (view s.core s.chain) s.core s.log) (act : Act got s s') :
    Noticed committee (view s'.core s'.chain) s'.core s'.log := by
  refine ⟨act.frame.committee.trans h.same, fun name c found => ?_, ?_⟩
  · obtain ⟨c₀, found₀, which⟩ := act.view_back found
    rcases which with ⟨rfl, -, rfl⟩ | ⟨-, same⟩
    · exact h.chain act
    · exact ((h.chains name c₀ found₀).uncommitted same).mono act.frame.log
  · cases act.abaCase with
    | act act => exact h.vals.act act h.same
    | nextEpoch core =>
        rw [core]
        exact fun key => (h.vals.mono act.frame.log key).retain _
    | other core =>
        unfold ValsHeed
        rw [Core.agreement_eq Core.aggregator (fun _ => rfl) core]
        exact h.vals.mono act.frame.log

theorem noticedInvariant [Crypto] [Bincode] (ok : Input → Prop) (committee : Committee) : Invariant ok (Noticed committee) where
  act := fun _ act h => h.act act
  blind := fun _ _ h => ⟨h.same, h.chains, h.vals⟩
  makePayload := by
    intro v k l transactions h
    have le := List.prefix_append l [.signed (.payload (.new transactions k.name))]
    exact ⟨h.same, fun name c found => (h.chains name c found).mono le, h.vals.mono le⟩
  storePayload := fun _ _ h => ⟨h.same, h.chains, h.vals⟩

theorem Noticed.first (name : PublicKey) (committee : Committee) (parameters : Parameters) (store : Store) :
    Noticed committee (Core.new name committee parameters store).pubkeyToChain.get? (Core.new name committee parameters store) [] := by
  refine ⟨rfl, fun key c found => ?_, fun key => Maker.Heeds.new⟩
  rw [Core.new_chains] at found
  split at found
  · rw [← Option.some.inj found]
    exact Chain.Heeds.new
  · contradiction

/-- Whenever the authors that a node has counted for a height of a chain, for an epoch, or for a value of the agreement
weigh a quorum, the node has made the certificate. -/
theorem quorums_noticed [Crypto] [Bincode] (name : PublicKey) (committee : Committee) (parameters : Parameters) (first : Store)
    (env : Env)
    (inputs : List Input) (n : Node) (reached : n = (Node.start (Core.new name committee parameters first) env).run inputs)
    (alive : n.alive = true) :
    (∀ chain c, n.core.pubkeyToChain.get? chain = some c →
      (∀ height, committee.quorumThreshold ≤ (c.aggregator.votesAggregators.getD height Maker.new).counted committee →
        ∃ qc, Event.assembled chain qc ∈ n.log ∧ qc.height = height) ∧
      (∀ epoch, committee.quorumThreshold ≤ (c.aggregator.timeoutsAggregators.getD epoch Maker.new).counted committee →
        ∃ tc, Event.savedTc tc ∈ n.log ∧ tc.epoch = epoch)) ∧
    (∀ key, committee.quorumThreshold ≤ (n.core.aggregator.abaValsAggregators.getD key Maker.new).counted committee →
      ∃ proof, Event.assembledAba proof ∈ n.log ∧ proof.Closes key) := by
  have inv := noticedInvariant (fun _ => True) committee
  have start : (Node.start (Core.new name committee parameters first) env).Sound (Noticed committee) :=
    inv.init (Noticed.first name committee parameters first)
  have sound : n.Sound (Noticed committee) := by
    rw [reached]
    exact inv.run (fun _ _ => trivial) start
  have noticed := (sound.1 alive).holds
  refine ⟨fun chain c found => ⟨fun height quorum => ?_, fun epoch quorum => ?_⟩, fun key quorum => ?_⟩
  · exact ((noticed.chains chain c found).votes height).happened quorum
  · exact ((noticed.chains chain c found).timeouts epoch).happened quorum
  · exact (noticed.vals key).happened quorum

/-! ## Timeouts -/

/-- A certificate that was saved stays in the cache until its epoch is over. -/
def KeepsTcs (k : Core) (l : List Event) : Prop :=
  ∀ tc, Event.savedTc tc ∈ l → tc.epoch < k.epoch ∨ k.tcCache.contains tc.epoch = true

theorem KeepsTcs.save (h : KeepsTcs k l) (tc : TC) : KeepsTcs (k.keepTc tc) (l ++ [.savedTc tc]) := by
  intro other saved
  show _ ∨ (k.tcCache.insert tc.epoch tc).contains other.epoch = true
  rw [Map.contains_insert]
  rcases List.mem_append.mp saved with old | new
  · exact (h other old).imp_right fun kept => by rw [kept, Bool.or_true]
  · rw [Event.savedTc.inj (List.mem_singleton.mp new)]
    simp

theorem KeepsTcs.aba [Crypto] (h : KeepsTcs k l) (act : AbaAct got k l k' l') : KeepsTcs k' l' := by
  cases act with
  | keepTc => exact h.save _
  | quiet quiet =>
      intro tc saved
      refine h tc ((List.mem_append.mp saved).resolve_right fun new => ?_)
      rw [← List.mem_singleton.mp new] at quiet
      exact quiet
  | hearShare =>
      intro tc saved
      refine h tc ((List.mem_append.mp saved).resolve_right fun new => ?_)
      unfold Core.coinEvents at new
      split at new <;> simp at new
  | hearVal | hearAux =>
      intro tc saved
      refine h tc ((List.mem_append.mp saved).resolve_right fun new => ?_)
      obtain ⟨_, same, -⟩ := Core.mem_abaEvents new
      contradiction
  | _ => exact fun tc saved => h tc (by simpa using saved)

theorem KeepsTcs.act [Crypto] [Bincode] (h : KeepsTcs s.core s.log) (act : Act got s s') : KeepsTcs s'.core s'.log := by
  cases act with
  | aba act => exact h.aba act
  | @commit fuel env k c l b _ =>
      intro tc saved
      have frame := Core.commit_frame fuel b ⟨k, c, l, env⟩
      have old := (frame.events saved).resolve_right id
      rw [show (final (Core.commit fuel b) ⟨k, c, l, env⟩).conf.core.epoch = k.epoch from frame.core_eq Core.epoch fun _ _ => rfl,
        show (final (Core.commit fuel b) ⟨k, c, l, env⟩).conf.core.tcCache = k.tcCache from frame.core_eq Core.tcCache fun _ _ => rfl]
      exact h tc old
  | countVote =>
      intro tc saved
      refine h tc ((List.mem_append.mp saved).resolve_right fun new => ?_)
      unfold Core.assembledEvents at new
      split at new <;> simp at new
  | @countTimeout k c l t =>
      generalize c.aggregator.addTimeout t k.committee = added
      unfold Core.keepAssembledTc Core.keptTc Core.savedTcs
      dsimp only
      split
      · exact h.save _
      · rw [List.append_nil]
        exact h
  | @nextEpoch k c l val digest b _ _ _ _ _ small =>
      intro tc saved
      have old : Event.savedTc tc ∈ l := (List.mem_append.mp saved).resolve_right (by simp)
      show tc.epoch < k.epoch + 1 ∨ (k.tcCache.retain fun n => n ≥ k.epoch + 1).contains tc.epoch = true
      by_cases past : tc.epoch < k.epoch + 1
      · exact .inl past
      · rw [Map.contains_retain]
        refine .inr ?_
        have later : tc.epoch ≥ k.epoch + 1 := UInt64.not_lt.mp past
        rcases h tc old with before | kept
        · have first : tc.epoch.toNat < k.epoch.toNat := UInt64.lt_iff_toNat_lt.mp before
          rw [UInt64.lt_iff_toNat_lt, toNat_succ small] at past
          omega
        · simp [later, kept]
  | _ => exact fun tc saved => h tc (by simpa using saved)

theorem keepsTcsInvariant [Crypto] [Bincode] (ok : Input → Prop) : Invariant ok fun _ => KeepsTcs where
  act := fun _ act h => h.act act
  blind := fun _ _ h => h
  makePayload := fun _ h tc saved => h tc (by simpa using saved)
  storePayload := fun _ _ h => h

/-! ## The end of a turn -/

/-- The node changes the view if it has a timeout certificate for its epoch. -/
def Alert (s : State) : Prop := s.core.tcCache.contains s.core.epoch = true → s.core.isViewChange = true

def Changing (s : State) : Prop := s.core.isViewChange = true

instance : Deaf Changing := ⟨fun _ holds => holds, fun _ _ holds => holds⟩

/-- Handling its own timeout does not take a node out of the view change. -/
theorem calm_localTimeoutRound [Crypto] : Calm Exn.Any Changing Core.localTimeoutRound := by
  have certify (qc : QC) : Calm Exn.Any Changing (Core.processQc qc) := by
    have advance : Calm Exn.Any Changing (Core.advanceHeight qc.height) := by
      apply calm_bind calm_getChain
      intro chain
      apply calm_ite (calm_pure _)
      apply calm_bind (calm_checkedAdd (.inl trivial))
      exact fun next => calm_bind calm_getCore fun core => calm_modifyChain fun _ holds => holds
    exact calm_bind advance fun _ => calm_modifyChain fun _ holds => holds
  have save (tc : TC) : Calm Exn.Any Changing (Core.saveTc tc) :=
    calm_bind (calm_modifyCore fun _ holds => holds) fun _ => calm_log
  have count (t : Timeout) : Calm Exn.Any Changing (Core.addTimeout t) :=
    calm_bind calm_get fun s => calm_bind (calm_modifyChain fun _ holds => holds) fun _ => calm_liftResult _
  have handle (t : Timeout) : Calm Exn.Any Changing (Core.handleTimeout t) := by
    apply calm_bind calm_getCore
    intro core
    apply calm_ite (calm_pure _)
    apply calm_bind (calm_liftResult _)
    intro _
    apply calm_bind (certify _)
    intro _
    apply calm_bind (count t)
    intro option
    cases option with
    | none => exact calm_pure _
    | some tc => exact save tc
  apply calm_bind calm_getChain
  intro chain
  apply calm_bind (calm_modifyChain fun _ holds => holds)
  intro _
  apply calm_bind calm_getCore
  intro core
  apply calm_bind calm_getChain
  intro chain
  exact calm_bind (Core.calm_sign _) fun _ => calm_bind calm_transmit fun _ => handle _

theorem ends_checkTimeout [Crypto] (s : State) : Ends Core.checkTimeout s (fun _ => Alert) fun _ => Alert := by
  by_cases cached : s.core.tcCache.contains s.core.epoch = true
  · have adopted : Ends Core.adoptTc s (fun _ => Changing) fun _ _ => False := by
      refine ends_getCore (ends_getCore ?_)
      rw [if_pos cached]
      rfl
    apply (adopted.weaken (fun _ _ h => h) fun _ _ h => h.elim).bind
    intro _ t changing
    have now : t.core.isViewChange = true := changing
    refine ends_getCore ?_
    rw [if_pos now]
    exact fun _ => now
  · have adopted : Ends Core.adoptTc s (fun _ t => t = s) fun _ _ => False := by
      refine ends_getCore (ends_getCore ?_)
      rw [if_neg cached]
      rfl
    have calm : Alert s := fun found => absurd found cached
    apply (adopted.weaken (fun _ _ h => h) fun _ _ h => h.elim).bind
    rintro _ t rfl
    refine ends_getCore (Ends.ite (fun _ => calm) fun _ => ends_getChain (ends_checkedAdd calm fun _ => ?_))
    refine ends_getCore (Ends.ite (fun _ => ?_) fun _ => calm)
    refine ends_modifyCore ?_
    have entered : Changing { t with core := { t.core with isViewChange := true } } := rfl
    exact (calm_localTimeoutRound _ entered).weaken (fun _ _ changing _ => changing) fun _ _ changing _ => changing.2

theorem ends_turn_alert [Crypto] [Bincode] (channel : Channel) (message : ConsensusMessage) (s : State) :
    Ends (Core.turn channel message) s (fun _ => Alert) fun _ _ => True := by
  have any {x : M Unit} (t : State) : Ends x t (fun _ _ => True) fun _ _ => True :=
    (calm_any t trivial).weaken (fun _ _ _ => trivial) fun _ _ _ => trivial
  unfold Core.turn
  refine ends_get ((any s).bind fun _ t _ => ends_getCore ((any t).bind fun _ t' _ => ends_getCore ?_))
  unfold onChain
  refine ends_getCore (ends_unwrap (fun _ => trivial) fun c _ => ends_modifyChain ?_)
  have alert : Ends (attempt Core.checkTimeout) { t' with chain := c } (fun _ => Alert) fun _ _ => True := by
    have ends := ends_checkTimeout { t' with chain := c }
    unfold Ends attempt at *
    cases exit : Core.checkTimeout { t' with chain := c } with
    | ok a u =>
        rw [exit] at ends
        exact ends
    | error e u =>
        rw [exit] at ends
        cases e with
        | error e => exact ends
        | _ => trivial
  exact alert.bind fun _ u holds => ends_getChain holds

theorem Node.alert_step [Crypto] [Bincode] (n : Node) (channel : Channel) (message : ConsensusMessage) (env : Env)
    (alive : (n.step (.deliver channel message env)).alive = true) :
    (n.step (.deliver channel message env)).core.tcCache.contains (n.step (.deliver channel message env)).core.epoch = true →
      (n.step (.deliver channel message env)).core.isViewChange = true := by
  unfold Node.step at alive ⊢
  split at alive
  · rename_i before
    rw [if_pos before]
    have ends := ends_turn_alert channel message ⟨n.core, Chain.new n.core.name, n.log, env⟩
    unfold Node.exec at alive ⊢
    unfold Ends at ends
    dsimp only at alive ⊢
    cases exit : Core.turn channel message ⟨n.core, Chain.new n.core.name, n.log, env⟩ with
    | ok a t =>
        rw [exit] at ends
        exact ends
    | error e t =>
        rw [exit] at alive
        contradiction
  · rename_i before
    exact absurd alive before

/-- After a turn the node changes the view, if the authors of the timeouts that it has counted for its epoch on the
chain of its leader weigh a quorum. -/
theorem quorum_changes_view [Crypto] [Bincode] (name : PublicKey) (committee : Committee) (parameters : Parameters)
    (first : Store) (env : Env)
    (inputs : List Input) (channel : Channel) (message : ConsensusMessage) (env' : Env) (n : Node)
    (reached : n = (((Node.start (Core.new name committee parameters first) env).run inputs).step (.deliver channel message env')))
    (alive : n.alive = true) (c : Chain) (leader : n.core.pubkeyToChain.get? n.core.leader = some c)
    (quorum : committee.quorumThreshold ≤
      (c.aggregator.timeoutsAggregators.getD n.core.epoch Maker.new).counted committee) :
    n.core.isViewChange = true := by
  have all := (noticedInvariant (fun _ => True) committee).and (keepsTcsInvariant fun _ => True)
  have start : (Node.start (Core.new name committee parameters first) env).Sound fun v k l =>
      Noticed committee v k l ∧ KeepsTcs k l :=
    all.init ⟨Noticed.first name committee parameters first, fun tc saved => absurd saved List.not_mem_nil⟩
  have run : ((Node.start (Core.new name committee parameters first) env).run inputs).Sound fun v k l =>
      Noticed committee v k l ∧ KeepsTcs k l :=
    all.run (fun _ _ => trivial) start
  have sound : n.Sound fun v k l => Noticed committee v k l ∧ KeepsTcs k l := by
    rw [reached]
    exact all.step trivial run
  obtain ⟨noticed, keeps⟩ := (sound.1 alive).holds
  obtain ⟨tc, saved, epoch⟩ := ((noticed.chains _ c leader).timeouts n.core.epoch).happened quorum
  have cached : n.core.tcCache.contains n.core.epoch = true := by
    rcases keeps tc saved with past | kept
    · rw [epoch] at past
      exact absurd past (UInt64.lt_irrefl _)
    · rwa [epoch] at kept
  subst reached
  exact Node.alert_step _ channel message env' alive cached

end

/-! ## Three timeouts -/

namespace Sample

def timeoutOf (n : Nat) : Input := .deliver .smvba (.timeout (.new QC.genesis 0 (key n))) env

/-- Four has counted the timeouts of the other three. -/
def threeTimeouts : Node := ((start 4).run [timeoutOf 1, timeoutOf 2]).step (timeoutOf 3)

def timedOutChain : Chain := ((threeTimeouts.core.pubkeyToChain.get? threeTimeouts.core.leader).getD (Chain.new (key 1)))

theorem threeTimeouts_noticed : ∃ tc, Event.savedTc tc ∈ threeTimeouts.log ∧ tc.epoch = 0 :=
  ((quorums_noticed (key 4) four ⟨500⟩ Map.empty env [timeoutOf 1, timeoutOf 2, timeoutOf 3] threeTimeouts
    (by rw [threeTimeouts, ← Node.run_snoc]; rfl)
    (by decide +kernel)).1 threeTimeouts.core.leader timedOutChain (by decide +kernel)).2 0 (by decide +kernel)

theorem threeTimeouts_change_view : threeTimeouts.core.isViewChange = true :=
  quorum_changes_view (key 4) four ⟨500⟩ Map.empty env [timeoutOf 1, timeoutOf 2] .smvba (.timeout (.new QC.genesis 0 (key 3))) env
    threeTimeouts rfl (by decide +kernel) timedOutChain (by decide +kernel) (by decide +kernel)

end Sample
end HotstuffDag
