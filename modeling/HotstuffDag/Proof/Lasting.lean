import HotstuffDag.Proof.Calm
import HotstuffDag.Proof.CommitFrame

/-! # Properties that last

What the handlers of blocks and timeouts do to a state, as far as a property of states can tell. A property
that withstands each of these steps withstands the handlers. -/

namespace HotstuffDag
open Library Library.Exec
variable [Crypto] [Bincode] {E : Exn → Prop} {K : State → Prop} {B : Block → Prop} {V : Vote → Prop} {C : QC → Prop}

/-- The sum fits, or its overflow is allowed. -/
abbrev Fits (E : Exn → Prop) (sum : Nat) : Prop := E (.overflow .height) ∨ sum < 2 ^ 64

/-- The property lasts if the blocks, votes and certificates that are handled are among the given ones. -/
structure Lasting (E : Exn → Prop) (K : State → Prop) (B : Block → Prop) (V : Vote → Prop) (C : QC → Prop) : Prop where
  next : ∀ {b}, B b → C b.qc
  after : ∀ {qc}, C qc → Fits E (qc.height.toNat + 1)
  grandparent : ∀ {s digest b}, K s → Synchronizer.fetch s.core.store digest = some b → Fits E (b.height.toNat + 1)
  ahead : ∀ {s}, K s → Fits E (s.chain.height.toNat + 10)
  output : ∀ {s output digest}, K s → s.chain.heightToDigest.get? output = some digest → Fits E (output.toNat + 10)
  high : ∀ {s}, K s → C s.chain.highQc
  own : ∀ {s b}, K s → B b → V (.new b s.core.name)
  proposal : ∀ {s qc} payload, K s → qc = QC.genesis ∨ qc = s.chain.highQc →
    B (.new qc s.core.name s.chain.height s.chain.epoch payload (s.core.references s.chain))
  hold : ∀ {s b}, K s → B b → K { s with core := s.core.hold b }
  certify : ∀ {s qc}, K s → C qc → qc.height.toNat + 1 < 2 ^ 64 ∨ qc.height < s.chain.height →
    K { s with chain := s.chain.certify s.core.epoch qc }
  lockVote : ∀ {s} height, K s → K { s with chain := s.chain.lockVote height }
  countVote : ∀ {s v}, K s → V v → K { s with chain := s.chain.countVote s.core.committee v }
  completed : ∀ {s v qc}, K s → V v → (s.chain.aggregator.addVote v s.core.committee).1 = .ok (some qc) → C qc
  countTimeout : ∀ {s} t, K s → K { s with chain := s.chain.countTimeout s.core.committee t }
  keepTc : ∀ {s} tc, K s → K { s with core := s.core.keepTc tc }
  viewChange : ∀ {s}, K s → K { s with core := { s.core with isViewChange := true } }
  commit : ∀ fuel b, Calm E K (Core.commit fuel b)
  restart : ∀ {s output digest}, K s → s.chain.heightToDigest.get? output = some digest →
    s.core.epoch.toNat + 1 < 2 ^ 64 → output.toNat + 10 < 2 ^ 64 →
    K { s with core := s.core.nextEpoch, chain := s.chain.restart output }

namespace Lasting
variable [Lenient E] [Deaf K] [Readable E K] (lasting : Lasting E K B V C)
include lasting

/-! ## Certificates, votes and proposals -/

omit [Lenient E] [Deaf K] [Readable E K] in
theorem processQc {qc : QC} (certified : C qc) : Calm E K (Core.processQc qc) := by
  intro s holds
  unfold Core.processQc Core.advanceHeight
  simp only [bind_assoc]
  refine ends_getChain ?_
  by_cases old : qc.height < s.chain.height
  · have kept := lasting.certify holds certified (.inr old)
    simp only [Chain.certify, Chain.advance, if_pos old] at kept
    simp only [if_pos old]
    exact kept
  · simp only [if_neg old, bind_assoc]
    by_cases small : qc.height.toNat + UInt64.toNat 1 < 2 ^ 64
    · have kept := lasting.certify holds certified (.inl small)
      simp only [Chain.certify, Chain.advance, if_neg old] at kept
      unfold checkedAdd
      simp only [if_pos small]
      exact kept
    · unfold checkedAdd
      simp only [if_neg small]
      exact Ends.throw ⟨(lasting.after certified).resolve_right small, holds⟩

omit [Lenient E] [Readable E K] in
/-- A vote is for a given block. -/
theorem makeVote {block : Block} {f : Option Vote → M Unit} (given : B block) (refused : Calm E K (f none))
    (granted : ∀ v, V v → Calm E K (f (some v))) : Calm E K (Core.makeVote block >>= f) := by
  have next : Calm E K (checkedAdd .height block.qc.height 1) := calm_checkedAdd (lasting.after (lasting.next given))
  intro s holds
  unfold Core.makeVote
  simp only [bind_assoc]
  refine ends_getCore (ends_getChain ?_)
  by_cases epoch : s.chain.epoch > block.epoch
  · simp only [if_pos epoch]
    exact refused s holds
  by_cases leader : s.core.isViewChange = true ∧ block.author = s.core.leader
  · simp only [if_neg epoch, if_pos leader]
    exact refused s holds
  simp only [if_neg epoch, if_neg leader, bind_assoc]
  have vote : V (.new block s.core.name) := lasting.own holds given
  refine (calm_bind next fun sum => ?_) s holds
  split
  · simp only [bind_assoc]
    refine calm_bind calm_log fun _ => ?_
    refine calm_bind (calm_modifyChain fun t => lasting.lockVote block.height) fun _ => ?_
    exact calm_bind (Core.calm_sign _) fun _ => granted _ vote
  · exact refused

omit [Readable E K] in
theorem addVote {vote : Vote} {f : Option QC → M Unit} (given : V vote) (waiting : Calm E K (f none))
    (complete : ∀ qc, C qc → Calm E K (f (some qc))) : Calm E K (Core.addVote vote >>= f) := by
  intro s holds
  have kept := lasting.countVote holds given
  have completed (qc : QC) (made : (s.chain.aggregator.addVote vote s.core.committee).1 = .ok (some qc)) : C qc :=
    lasting.completed holds given made
  unfold Core.addVote
  rw [bind_assoc]
  refine ends_get ?_
  unfold Chain.countVote at kept
  cases added : s.chain.aggregator.addVote vote s.core.committee with
  | mk result aggregator =>
      rw [added] at kept
      simp only [added] at completed
      have logged : K { s with
          chain := { s.chain with aggregator := aggregator }
          log := s.log ++ Core.assembledEvents s.chain.name result } := by
        unfold Core.assembledEvents
        split
        · exact Deaf.event _ id kept
        · rw [List.append_nil]
          exact kept
      have rest : Calm E K (liftResult result >>= f) := by
        cases result with
        | error e => exact calm_error e
        | ok option =>
            cases option with
            | none => exact waiting
            | some qc => exact complete qc (completed qc rfl)
      exact rest _ logged

omit [Lenient E] [Readable E K] in
theorem generateProposal {tag : Bool} {f : Block → M Unit} (run : ∀ block, B block → Calm E K (f block)) :
    Calm E K (Core.generateProposal tag >>= f) := by
  intro s holds
  unfold Core.generateProposal
  simp only [bind_assoc, pure_bind]
  refine ends_getCore (ends_getChain (Ends.bind (Core.calm_getPayload s holds) fun payload t kept => ?_))
  have high : (if tag then QC.genesis else s.chain.highQc) = QC.genesis ∨
      (if tag then QC.genesis else s.chain.highQc) = s.chain.highQc := by
    cases tag
    · exact .inr rfl
    · exact .inl rfl
  exact calm_bind (Core.calm_sign _) (fun _ => run _ (lasting.proposal payload holds high)) t kept

/-! ## Processing a block -/

theorem processAncestors (fuel : Nat) (block : Block) : Calm E K (Core.processAncestors fuel block) := by
  have commit (b0 b1 : Block) (fits : Fits E (b0.height.toNat + 1)) : Calm E K (Core.processBlockCommit fuel block b0 b1) := by
    refine calm_bind calm_getCore fun core => calm_ite ?_ (calm_pure _)
    refine calm_bind (calm_checkedAdd fits) fun next => calm_ite ?_ (calm_pure _)
    exact calm_bind calm_getChain fun chain => calm_bind calm_log fun _ => lasting.commit fuel _
  have rest (b0 b1 : Block) (fits : Fits E (b0.height.toNat + 1)) : Calm E K (do
      if !(← getCore).isViewChange ∧ block.epoch ≤ (← getChain).epoch then
        Core.processBlockCommit fuel block b0 b1) :=
    calm_bind calm_getCore fun core => calm_bind calm_getChain fun chain => calm_ite (commit b0 b1 fits) (calm_pure _)
  unfold Core.processAncestors Core.processBlockPrepare
  refine calm_bind calm_getCore fun core => calm_ite (fun s holds => ?_) (calm_map _ (calm_getAncestors block))
  unfold Synchronizer.getAncestors
  simp only [bind_assoc]
  refine ends_getBlock (fun e env => ⟨Lenient.error e, Deaf.env env holds⟩)
    (fun value env stored panics => ⟨Readable.panics holds stored panics, Deaf.env env holds⟩) (fun env b1 _ => ?_) fun env _ => ?_
  · have held := Deaf.env env holds
    simp only [bind_assoc]
    refine ends_getBlock (fun e env' => ⟨Lenient.error e, Deaf.env env' held⟩)
      (fun value env' stored panics => ⟨Readable.panics held stored panics, Deaf.env env' held⟩) (fun env' b0 fetched => ?_) fun env' _ => ?_
    · exact rest b0 b1 (lasting.grandparent holds fetched) _ (Deaf.env env' held)
    · exact Deaf.event _ id (Deaf.env env' held)
  · exact Deaf.event _ id (Deaf.env env holds)

theorem processBlockWith {handleVote : Vote → M Unit} (vote : ∀ v, V v → Calm E K (handleVote v)) (fuel : Nat)
    {block : Block} (given : B block) : Calm E K (Core.processBlockWith handleVote fuel block) := by
  have hold : Calm E K (Core.storeBlock block) := calm_modifyCore fun s holds => lasting.hold holds given
  unfold Core.processBlockWith Core.processBlockVote
  refine calm_bind calm_log fun _ => calm_bind hold fun _ => ?_
  refine calm_bind (lasting.processAncestors fuel block) fun _ => ?_
  refine calm_bind calm_getChain fun chain => calm_ite ?_ (calm_pure _)
  refine lasting.makeVote given (calm_pure _) fun v granted => ?_
  refine calm_bind calm_getCore fun core => calm_ite (vote v granted) ?_
  exact calm_transmit

theorem broadcastProposeWith {handleVote : Vote → M Unit} (vote : ∀ v, V v → Calm E K (handleVote v)) (fuel : Nat)
    {block : Block} (given : B block) : Calm E K (Core.broadcastProposeWith handleVote fuel block) :=
  calm_bind calm_transmit fun _ => lasting.processBlockWith vote fuel given

theorem handleVote (fuel : Nat) {vote : Vote} (given : ∀ s, K s → vote.verify s.core.committee = .ok () → V vote) :
    Calm E K (Core.handleVote fuel vote) := by
  induction fuel generalizing vote with
  | zero => exact calm_outOfFuel
  | succ fuel ih =>
      unfold Core.handleVote
      refine calm_bind calm_getChain fun chain => calm_ite (calm_pure _) fun s holds => ?_
      refine ends_getCore (ends_liftResult (fun e => ⟨Lenient.error e, holds⟩) fun _ verified => ?_)
      refine lasting.addVote (given s holds verified) (calm_pure _) (fun qc certified => ?_) s holds
      refine calm_bind (lasting.processQc certified) fun _ => ?_
      exact lasting.generateProposal fun block own =>
        lasting.broadcastProposeWith (fun v cast => ih fun _ _ _ => cast) fuel own

theorem processBlock (fuel : Nat) {block : Block} (given : B block) : Calm E K (Core.processBlock fuel block) :=
  lasting.processBlockWith (fun _ cast => lasting.handleVote fuel fun _ _ _ => cast) fuel given

theorem broadcastPropose (fuel : Nat) {block : Block} (given : B block) : Calm E K (Core.broadcastPropose fuel block) :=
  lasting.broadcastProposeWith (fun _ cast => lasting.handleVote fuel fun _ _ _ => cast) fuel given

theorem handleProposal (fuel : Nat) {block : Block}
    (given : ∀ s, K s → block.verify s.core.committee = .ok () → B block) : Calm E K (Core.handleProposal fuel block) := by
  intro s holds
  unfold Core.handleProposal
  refine ends_getChain (ends_liftResult (fun e => ⟨Lenient.error e, holds⟩) fun _ _ => ends_getCore ?_)
  refine ends_liftResult (fun e => ⟨Lenient.error e, holds⟩) fun _ verified => ?_
  have block' : B block := given s holds verified
  refine (calm_bind (lasting.processQc (lasting.next block')) fun _ => ?_) s holds
  exact calm_bind (Core.calm_verifyPayload block) fun accepted => calm_ite (lasting.processBlock fuel block') (calm_pure _)

/-! ## Timeouts -/

omit [Lenient E] [Readable E K] in
theorem saveTc (tc : TC) : Calm E K (Core.saveTc tc) :=
  calm_bind (calm_modifyCore fun _ => lasting.keepTc tc) fun _ => calm_log

section
omit [Readable E K]

theorem handleTc (tc : TC) : Calm E K (Core.handleTc tc) := by
  unfold Core.handleTc
  refine calm_bind calm_getCore fun core => calm_ite (calm_pure _) ?_
  exact calm_bind (calm_liftResult _) fun _ => lasting.saveTc tc

theorem handleTimeout {timeout : Timeout}
    (certified : ∀ s, K s → timeout.verify s.core.committee = .ok () → C timeout.highQc) :
    Calm E K (Core.handleTimeout timeout) := by
  have count : Calm E K (Core.addTimeout timeout) := by
    intro s holds
    have kept := lasting.countTimeout timeout holds
    exact calm_liftResult (s.chain.aggregator.addTimeout timeout s.core.committee).1 _ kept
  unfold Core.handleTimeout
  intro s holds
  refine ends_getCore (Ends.ite (fun _ => holds) fun _ => ?_)
  refine ends_liftResult (fun e => ⟨Lenient.error e, holds⟩) fun _ verified => ?_
  refine (calm_bind (lasting.processQc (certified s holds verified)) fun _ => calm_bind count fun option => ?_) s holds
  cases option with
  | none => exact calm_pure _
  | some tc => exact lasting.saveTc tc

theorem localTimeoutRound : Calm E K Core.localTimeoutRound := by
  have lock (height : SeqNumber) : Calm E K (Core.increaseLastVotedRound height) :=
    calm_modifyChain fun _ => lasting.lockVote height
  unfold Core.localTimeoutRound
  refine calm_bind calm_getChain fun chain => calm_bind (lock _) fun _ => ?_
  intro s holds
  refine ends_getCore (ends_getChain ?_)
  refine (calm_bind (Core.calm_sign _) fun _ => calm_bind calm_transmit fun _ => ?_) s holds
  exact lasting.handleTimeout fun _ _ _ => lasting.high holds

theorem checkTimeout : Calm E K Core.checkTimeout := by
  have enter : Calm E K Core.enterViewChange := calm_modifyCore fun _ => lasting.viewChange
  have adopt : Calm E K Core.adoptTc := by
    refine calm_bind calm_getCore fun core => calm_bind calm_getCore fun core => ?_
    exact calm_ite enter (calm_pure _)
  unfold Core.checkTimeout
  refine calm_bind adopt fun _ => calm_bind calm_getCore fun core => calm_ite (calm_pure _) fun s holds => ?_
  refine ends_getChain ((calm_bind (calm_checkedAdd (lasting.ahead holds)) fun limit => ?_) s holds)
  refine calm_bind calm_getCore fun core => calm_ite ?_ (calm_pure _)
  exact calm_bind enter fun _ => lasting.localTimeoutRound

end

/-! ## The end of an epoch -/

theorem outputPhase (fuel : Nat) (output : UInt64) : Calm E K (Core.outputPhase fuel output) := by
  have proposed : Calm E K (do
      if (← getChain).name = (← getCore).name then
        Core.broadcastPropose fuel (← Core.generateProposal true)) :=
    calm_bind calm_getChain fun chain => calm_bind calm_getCore fun core =>
      calm_ite (lasting.generateProposal fun block => lasting.broadcastPropose fuel) (calm_pure _)
  intro s holds
  unfold Core.outputPhase
  refine ends_getChain ?_
  split
  · exact holds
  rename_i digest certified
  refine ends_getCore (ends_getBlock (fun e env => ⟨Lenient.error e, Deaf.env env holds⟩)
    (fun value env stored panics => ⟨Readable.panics holds stored panics, Deaf.env env holds⟩) (fun env block _ => ?_)
    fun env _ => Deaf.event _ id (Deaf.env env holds))
  have walk := (lasting.commit fuel block _ (Deaf.env env holds)).leads (Core.leads_commit fuel block _)
  refine walk.bind fun _ t ⟨kept, frame, _⟩ => ends_getCore ?_
  have certified' : t.chain.heightToDigest.get? output = some digest := by
    rw [frame.chain_eq Chain.heightToDigest fun _ => rfl]
    exact certified
  have counted (epoch : SeqNumber) {f : SeqNumber → M Unit}
      (h : epoch.toNat + 1 < 2 ^ 64 → Ends (f (epoch + 1)) t (fun _ t => K t) fun e t => E e ∧ K t) :
      Ends (checkedAdd .epoch epoch 1 >>= f) t (fun _ t => K t) fun e t => E e ∧ K t := by
    unfold checkedAdd
    by_cases small : epoch.toNat + UInt64.toNat 1 < 2 ^ 64
    · simp only [if_pos small]
      exact h small
    · simp only [if_neg small]
      exact Ends.throw ⟨Lenient.overflow .epoch (by decide), kept⟩
  refine counted t.core.epoch fun small => ends_getChain (counted t.chain.epoch fun _ => ?_)
  unfold checkedAdd
  by_cases fits : output.toNat + UInt64.toNat NEXT_EPOCH_HEIGHT < 2 ^ 64
  · simp only [if_pos fits]
    exact proposed _ (Deaf.event (.epochEnd t.core t.chain output) id (lasting.restart kept certified' small fits))
  · simp only [if_neg fits]
    exact Ends.throw ⟨(lasting.output kept certified').resolve_right fits, kept⟩

theorem updateAbaPhase (phase : Calm E K Core.updatePhase) (stages : Calm E K Core.processAbaPhase) (fuel : Nat) :
    Calm E K (Core.updateAbaPhase fuel) := by
  unfold Core.updateAbaPhase
  refine calm_bind calm_getCore fun core => calm_ite (calm_pure _) ?_
  refine calm_bind phase fun _ => calm_bind calm_getCore fun core => ?_
  split
  · exact lasting.outputPhase fuel _
  · exact stages

end Lasting

/-! ## A node -/

/-- The property is one of nodes: it does not matter which of the chains a handler works on. -/
structure Resident (E : Exn → Prop) (K : State → Prop) : Prop where
  panic : E .panic
  fresh : ∀ {s}, K s → K { s with chain := Chain.new s.core.name }
  load : ∀ {s name c}, K s → s.core.pubkeyToChain.get? name = some c → K { s with chain := c }
  save : ∀ {s} name, K s → K { s with core := { s.core with pubkeyToChain := s.core.pubkeyToChain.insert name s.chain } }

omit [Crypto] [Bincode] in
theorem calm_attempt {x : M Unit} (calm : Calm E K x) : Calm E K (attempt x) := by
  intro s holds
  have ends := calm s holds
  unfold Ends attempt at *
  cases exit : x s with
  | ok a t =>
      rw [exit] at ends
      exact ends
  | error e t =>
      rw [exit] at ends
      cases e with
      | error e => exact ends.2
      | _ => exact ends

omit [Bincode] [Crypto] in
theorem Resident.onChain (resident : Resident E K) (name : PublicKey) {handler : M Unit} (calm : Calm E K handler) :
    Calm E K (onChain name handler) := by
  have save : Calm E K (do
      let chain ← getChain
      modifyCore fun c => { c with pubkeyToChain := c.pubkeyToChain.insert name chain }) :=
    fun s holds => resident.save name holds
  intro s holds
  unfold HotstuffDag.onChain
  refine ends_getCore (ends_unwrap (fun _ => ⟨resident.panic, holds⟩) fun c found => ends_modifyChain ?_)
  exact calm_bind (calm_attempt calm) (fun _ => save) _ (resident.load holds found)

/-- What the handlers take from the message is among the given. -/
def ConsensusMessage.Among (E : Exn → Prop) (K : State → Prop) (B : Block → Prop) (V : Vote → Prop) (C : QC → Prop) :
    ConsensusMessage → Prop
  | .propose b | .syncReply b => ∀ s, K s → b.verify s.core.committee = .ok () → B b
  | .loopBack b => B b
  | .vote v => ∀ s, K s → v.verify s.core.committee = .ok () → V v
  | .timeout t => ∀ s, K s → t.verify s.core.committee = .ok () → C t.highQc
  | .abaVal v => Calm E K (Core.handleAbaVal v)
  | .abaProof proof => Calm E K (Core.handleAbaProof proof)
  | .abaCoinShare share => Calm E K (Core.handleCoinShare share)
  | .syncRequest _ _ | .tc _ => True

namespace Lasting
variable [Lenient E] [Deaf K] [Readable E K] (lasting : Lasting E K B V C) (resident : Resident E K)
include lasting resident

theorem handleMessage (fuel : Nat) (channel : Channel) {message : ConsensusMessage} (among : message.Among E K B V C) :
    Calm E K (Core.handleMessage fuel channel message) := by
  have unexpected : Calm E K (panic : M Unit) := calm_throw resident.panic
  cases channel with
  | core =>
      cases message with
      | propose block | syncReply block => exact resident.onChain _ (lasting.handleProposal fuel among)
      | vote vote => exact resident.onChain _ (lasting.handleVote fuel among)
      | loopBack block => exact resident.onChain _ (lasting.processBlock fuel among)
      | syncRequest digest sender => exact calm_attempt (Core.calm_handleSyncRequest digest sender)
      | timeout | tc | abaVal | abaProof | abaCoinShare => exact unexpected
  | smvba =>
      cases message with
      | timeout timeout =>
          exact calm_bind calm_getCore fun core => resident.onChain _ (lasting.handleTimeout among)
      | tc tc => exact calm_attempt (lasting.handleTc tc)
      | abaVal | abaProof | abaCoinShare => exact calm_attempt among
      | propose | vote | loopBack | syncRequest | syncReply => exact unexpected

theorem turn (phase : Calm E K Core.updatePhase) (stages : Calm E K Core.processAbaPhase) (channel : Channel)
    {message : ConsensusMessage} (among : message.Among E K B V C) : Calm E K (Core.turn channel message) := by
  unfold Core.turn
  refine calm_bind calm_get fun s => calm_bind (lasting.handleMessage resident _ channel among) fun _ => ?_
  refine calm_bind calm_getCore fun core => ?_
  refine calm_bind (resident.onChain _ (lasting.updateAbaPhase phase stages _)) fun _ => ?_
  exact calm_bind calm_getCore fun core => resident.onChain _ lasting.checkTimeout

theorem start : Calm E K Core.start := by
  unfold Core.start
  refine calm_bind calm_get fun s => calm_bind calm_getCore fun core => resident.onChain _ ?_
  exact lasting.generateProposal fun block => lasting.broadcastPropose _

end Lasting

/-- The property holds when a turn of the node begins. -/
def Node.Keeps (K : State → Prop) (n : Node) : Prop := ∀ env, K ⟨n.core, Chain.new n.core.name, n.log, env⟩

section
omit [Crypto] [Bincode]

theorem Resident.exec [Deaf K] (resident : Resident E K) {n : Node} {x : M Unit} (calm : Calm E K x) (holds : n.Keeps K)
    (env : Env) : (n.exec env x).Keeps K := by
  have ends := calm _ (holds env)
  unfold Ends at ends
  unfold Node.exec
  cases exit : x ⟨n.core, Chain.new n.core.name, n.log, env⟩ with
  | ok a t =>
      rw [exit] at ends
      exact fun env => Deaf.env env (resident.fresh ends)
  | error e t =>
      rw [exit] at ends
      exact fun env => Deaf.env env (resident.fresh ends.2)

theorem Node.Keeps.fails {n : Node} {x : M Unit} (holds : n.Keeps K) (calm : Calm E K x) {env : Env} {e : Exn} {t : State}
    (exit : x ⟨n.core, Chain.new n.core.name, n.log, env⟩ = .error e t) : E e := by
  have ends := calm _ (holds env)
  unfold Ends at ends
  rw [exit] at ends
  exact ends.1

end

/-- The property lasts through the input. -/
def Input.Among (E : Exn → Prop) (K : State → Prop) (B : Block → Prop) (V : Vote → Prop) (C : QC → Prop) : Input → Prop
  | .deliver _ message _ => message.Among E K B V C
  | .makePayload _ => True
  | .storePayload payload => ∀ s, K s →
      K { s with core := { s.core with store := s.core.store.insert payload.digest (.payload payload) } }

namespace Lasting
variable [Lenient E] [Deaf K] [Readable E K] (lasting : Lasting E K B V C) (resident : Resident E K) {n : Node}
include lasting resident

theorem step (phase : Calm E K Core.updatePhase) (stages : Calm E K Core.processAbaPhase) {input : Input}
    (among : input.Among E K B V C) (holds : n.Keeps K) : (n.step input).Keeps K := by
  unfold Node.step
  split
  · cases input with
    | deliver channel message env => exact resident.exec (lasting.turn resident phase stages channel among) holds env
    | makePayload transactions => exact fun env => Deaf.event _ id (holds env)
    | storePayload payload => exact fun env => among _ (holds env)
  · exact holds

theorem run (phase : Calm E K Core.updatePhase) (stages : Calm E K Core.processAbaPhase) {inputs : List Input}
    (among : ∀ input ∈ inputs, input.Among E K B V C) (holds : n.Keeps K) : (n.run inputs).Keeps K := by
  induction inputs generalizing n with
  | nil => exact holds
  | cons input rest ih =>
      refine ih (fun i mem => among i (List.mem_cons_of_mem _ mem)) ?_
      exact lasting.step resident phase stages (among input List.mem_cons_self) holds

end Lasting

/-! ## Properties of a part of the state -/

omit [Crypto] [Bincode] in
/-- A property that is kept along a relation is kept by what follows the relation. -/
theorem Calm.along {α : Type} {x : M α} {R : State → State → Prop} (calm : Calm E (fun _ => True) x)
    (reach : ∀ s, Leads R x s (fun _ _ => True)) (keep : ∀ {s t}, R s t → K s → K t) : Calm E K x := by
  intro s holds
  have ends := calm s trivial
  have along := reach s
  unfold Ends Leads at *
  cases exit : x s with
  | ok a t =>
      rw [exit] at along
      exact keep along.1 holds
  | error e t =>
      rw [exit] at along ends
      exact ⟨ends.1, keep along holds⟩

end HotstuffDag
