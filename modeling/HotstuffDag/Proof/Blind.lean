import HotstuffDag.Core.Run
import HotstuffDag.Library.Symmetry

/-! # The log is never read

What a node does does not depend on what it has done before, as far as the log tells: a longer past stays in front
of what is logged, and nothing else changes. -/

namespace HotstuffDag
open Library Library.Exec

/-- The state with more in front of its log. -/
def State.behind (past : List Event) (s : State) : State := { s with log := past ++ s.log }

/-- The program does the same whatever has been logged. -/
def Blind {α : Type} (x : M α) : Prop := ∀ past, Commutes (State.behind past) x

section
variable {α β : Type} {x y : M α} {f : α → M β}

@[grind ←] theorem blind_pure (a : α) : Blind (pure a : M α) := fun _ => .pure a

@[grind ←] theorem blind_throw (e : Exn) : Blind (throw e : M α) := fun _ => .throw e

@[grind ←] theorem blind_error (e : ConsensusError) : Blind (error e : M α) := blind_throw _

@[grind ←] theorem blind_panic : Blind (panic : M α) := blind_throw _

@[grind ←] theorem blind_bind (hx : Blind x) (hf : ∀ a, Blind (f a)) : Blind (x >>= f) := fun past => (hx past).bind fun a => hf a past

@[grind ←] theorem blind_map (g : α → β) (hx : Blind x) : Blind (g <$> x) := by
  rw [map_eq_pure_bind]
  exact blind_bind hx fun a => blind_pure _

theorem blind_ite {c : Prop} [Decidable c] (hx : Blind x) (hy : Blind y) : Blind (if c then x else y) :=
  fun past => (hx past).ite (hy past)

/-- The log of the state that is read is not looked at. -/
theorem blind_get {f : State → M β} (same : ∀ past s, f (s.behind past) = f s) (hf : ∀ s, Blind (f s)) : Blind (get >>= f) :=
  fun past => .get (same past) fun s => hf s past

@[grind ←] theorem blind_getCore : Blind getCore := fun _ _ => rfl

@[grind ←] theorem blind_getChain : Blind getChain := fun _ _ => rfl

@[grind ←] theorem blind_modifyCore (g : Core → Core) : Blind (modifyCore g) := fun _ _ => rfl

@[grind ←] theorem blind_modifyChain (g : Chain → Chain) : Blind (modifyChain g) := fun _ _ => rfl

theorem blind_env (g : State → Env) (same : ∀ past s, g (s.behind past) = g s) :
    Blind (modify fun s => { s with env := g s } : M PUnit) := by
  intro past
  apply Commutes.modify
  intro s
  rw [same]
  rfl

/-- What is logged goes behind the past. -/
theorem blind_logs (g : State → List Event) (same : ∀ past s, g (s.behind past) = g s) :
    Blind (modify fun s => { s with log := s.log ++ g s } : M PUnit) := by
  intro past
  apply Commutes.modify
  intro s
  simp only [State.behind, List.append_assoc]
  rw [← same past s]
  rfl

@[grind ←] theorem blind_emit (e : Event) : Blind (emit e) := blind_logs _ fun _ _ => rfl

@[grind ←] theorem blind_liftResult (result : ConsensusResult α) : Blind (liftResult result) := by
  cases result with
  | ok a => exact blind_pure a
  | error e => exact blind_error e

@[grind ←] theorem blind_unwrap (option : Option α) : Blind (unwrap option) := by
  cases option with
  | some a => exact blind_pure a
  | none => exact blind_panic

@[grind ←] theorem blind_checkedAdd (counter : Counter) (a b : SeqNumber) : Blind (checkedAdd counter a b) := by
  unfold checkedAdd
  grind

@[grind ←] theorem blind_attempt {x : M Unit} (hx : Blind x) : Blind (attempt x) := by
  intro past s
  unfold attempt
  rw [hx past s]
  cases x s with
  | ok a t => rfl
  | error e t => cases e <;> rfl

@[grind ←] theorem blind_withChain (target : Chain) (hx : Blind x) : Blind (withChain target x) := by
  intro past s
  have run : x { s.behind past with chain := target } = mapState (State.behind past) (x { s with chain := target }) :=
    hx past { s with chain := target }
  unfold withChain
  rw [run]
  cases x { s with chain := target } with
  | ok a t => rfl
  | error e t => rfl

@[grind ←] theorem blind_onChain (name : PublicKey) {handler : M Unit} (h : Blind handler) : Blind (onChain name handler) := by
  unfold onChain
  grind

end

/-! ## Blocks -/

namespace Synchronizer

@[grind ←] theorem blind_read (digest : Digest) : Blind (read digest) := by
  unfold read
  apply blind_get
  · exact fun _ _ => rfl
  · intro s
    split
    · exact blind_pure _
    · apply blind_bind
      · exact blind_env _ fun _ _ => rfl
      · intro _
        grind

@[grind ←] theorem blind_readBlock [Bincode] (value : Value) : Blind (readBlock value) := by
  unfold readBlock
  cases decodeBlock value with
  | ok b => exact blind_pure b
  | error e => exact blind_throw e

@[grind ←] theorem blind_transmit (message : ConsensusMessage) (dest : Option PublicKey) (tag : UInt8) :
    Blind (transmit message dest tag) := by
  unfold transmit
  grind

@[grind ←] theorem blind_getBlock [Bincode] (author : PublicKey) (digest : Digest) (block : Option Block) :
    Blind (getBlock author digest block) := by
  unfold getBlock
  grind

@[grind ←] theorem blind_getAncestors [Bincode] (block : Block) : Blind (getAncestors block) := by
  unfold getAncestors getParentBlock
  grind

end Synchronizer

/-! ## Commits -/

namespace Core

theorem blind_commitReferences [Bincode] {recurse : Block → List Block → M (Bool × List Block)} (h : ∀ b bs, Blind (recurse b bs))
    (references : List (PublicKey × Digest)) (toCommit : List Block) : Blind (commitReferences recurse references toCommit) := by
  induction references generalizing toCommit with
  | nil => exact blind_pure _
  | cons reference rest ih =>
      unfold commitReferences
      refine blind_bind blind_getCore fun core => blind_bind (Synchronizer.blind_getBlock _ _ _) fun found => ?_
      cases found with
      | none => exact blind_pure _
      | some block =>
          refine blind_bind blind_getCore fun core => blind_bind (blind_unwrap _) fun target => ?_
          apply blind_bind (blind_withChain target (h block toCommit))
          rintro ⟨⟨done, toCommit⟩, target⟩
          grind

theorem blind_commitPrevBlock [Bincode] (fuel : Nat) (block : Block) (toCommit : List Block) :
    Blind (commitPrevBlock fuel block toCommit) := by
  induction fuel generalizing block toCommit with
  | zero => exact blind_throw _
  | succ fuel ih =>
      have references := blind_commitReferences ih
      unfold commitPrevBlock commitReferencesOf
      apply blind_bind blind_getChain
      intro chain
      split
      · exact blind_pure _
      split
      · exact blind_pure _
      refine blind_bind blind_getCore fun core => blind_bind (Synchronizer.blind_getBlock _ _ _) fun found => ?_
      cases found with
      | none => exact blind_pure _
      | some _ =>
          refine blind_bind (Synchronizer.blind_getBlock _ _ _) fun again => blind_bind (blind_unwrap _) fun current => ?_
          grind

theorem blind_deliver (toCommit : List Block) : Blind (deliver toCommit) := by
  induction toCommit with
  | nil => exact blind_pure _
  | cons block rest ih =>
      unfold deliver
      grind

@[grind ←] theorem blind_commit [Bincode] (fuel : Nat) (block : Block) : Blind (commit fuel block) := by
  unfold commit
  apply blind_get
  · exact fun _ _ => rfl
  · intro s
    have walk := blind_commitPrevBlock fuel block []
    have sent := blind_deliver
    grind

/-! ## Proposals and votes -/

@[grind ←] theorem blind_sign (object : Signed) : Blind (sign object) := blind_emit _

@[grind ←] theorem blind_makeVote [Crypto] (block : Block) : Blind (makeVote block) := by
  unfold makeVote increaseLastVotedRound
  grind

@[grind ←] theorem blind_processQc (qc : QC) : Blind (processQc qc) := by
  unfold processQc advanceHeight updateHighQc
  grind

@[grind ←] theorem blind_generateProposal [Crypto] (tag : Bool) : Blind (generateProposal tag) := by
  have payload : Blind getPayload := by
    unfold getPayload
    apply blind_get
    · exact fun _ _ => rfl
    · intro s
      apply blind_bind (blind_emit _)
      intro _
      split
      · exact blind_pure _
      · apply blind_bind
        · exact blind_env _ fun _ _ => rfl
        · exact fun _ => blind_pure _
  unfold generateProposal
  grind

@[grind ←] theorem blind_addVote (vote : Vote) : Blind (addVote vote) := by
  unfold addVote
  apply blind_get
  · exact fun _ _ => rfl
  · intro s
    have logged : Blind (modify fun t => { t with
        log := t.log ++ assembledEvents t.chain.name (s.chain.aggregator.addVote vote s.core.committee).1 } : M PUnit) :=
      blind_logs _ fun _ _ => rfl
    grind

theorem blind_processBlockWith [Crypto] [Bincode] {handleVote : Vote → M Unit} (h : ∀ vote, Blind (handleVote vote)) (fuel : Nat)
    (block : Block) :
    Blind (processBlockWith handleVote fuel block) := by
  have commit (b0 b1 : Block) : Blind (processBlockCommit fuel block b0 b1) := by
    unfold processBlockCommit
    grind
  have ancestors : Blind (processAncestors fuel block) := by
    unfold processAncestors processBlockPrepare
    grind
  have vote : Blind (processBlockVote handleVote block) := by
    unfold processBlockVote
    grind
  unfold processBlockWith storeBlock
  grind

theorem blind_handleVote [Crypto] [Bincode] (fuel : Nat) (vote : Vote) : Blind (handleVote fuel vote) := by
  induction fuel generalizing vote with
  | zero => exact blind_throw _
  | succ fuel ih =>
      have processed := blind_processBlockWith ih fuel
      unfold handleVote broadcastProposeWith
      apply blind_bind blind_getChain
      intro chain
      split
      · exact blind_pure _
      refine blind_bind blind_getCore fun core => blind_bind (blind_liftResult _) fun _ => ?_
      grind

@[grind ←] theorem blind_processBlock [Crypto] [Bincode] (fuel : Nat) (block : Block) : Blind (processBlock fuel block) :=
  blind_processBlockWith (blind_handleVote fuel) fuel block

@[grind ←] theorem blind_broadcastPropose [Crypto] [Bincode] (fuel : Nat) (block : Block) : Blind (broadcastPropose fuel block) :=
  blind_bind (Synchronizer.blind_transmit _ _ _) fun _ => blind_processBlock fuel block

theorem blind_handleProposal [Crypto] [Bincode] (fuel : Nat) (block : Block) : Blind (handleProposal fuel block) := by
  have verify : Blind (verifyPayload block) := by
    unfold verifyPayload
    apply blind_bind (blind_emit _)
    intro _
    apply blind_get
    · exact fun _ _ => rfl
    · intro s
      grind
  unfold handleProposal
  grind

theorem blind_handleSyncRequest [Bincode] (digest : Digest) (sender : PublicKey) : Blind (handleSyncRequest digest sender) := by
  unfold handleSyncRequest
  grind

/-! ## Timeouts and the agreement -/

@[grind ←] theorem blind_saveTc (tc : TC) : Blind (saveTc tc) := by
  unfold saveTc
  grind

theorem blind_handleTimeout [Crypto] (timeout : Timeout) : Blind (handleTimeout timeout) := by
  have count : Blind (addTimeout timeout) := by
    unfold addTimeout
    apply blind_get
    · exact fun _ _ => rfl
    · intro s
      grind
  unfold handleTimeout
  grind

theorem blind_checkTimeout [Crypto] : Blind checkTimeout := by
  have timeout : Blind localTimeoutRound := by
    have handle := blind_handleTimeout
    unfold localTimeoutRound increaseLastVotedRound
    grind
  have enter : Blind enterViewChange := blind_modifyCore _
  have adopt : Blind adoptTc := by
    unfold adoptTc
    grind
  have view (limit : SeqNumber) : Blind (do
      if (← getCore).pubkeyToChain.values.any fun other => limit < other.height then
        enterViewChange
        localTimeoutRound) := by
    grind
  unfold checkTimeout
  grind

theorem blind_handleTc [Crypto] (tc : TC) : Blind (handleTc tc) := by
  unfold handleTc
  grind

@[grind ←] theorem blind_handleAbaVal [Crypto] (abaVal : ABAVal) : Blind (handleAbaVal abaVal) := by
  have count : Blind (addAbaVal abaVal) := by
    unfold addAbaVal
    grind
  have val : Blind (handleValPhase abaVal) := by
    unfold handleValPhase
    grind
  have aux : Blind (handleAuxPhase abaVal) := by
    unfold handleAuxPhase
    grind
  unfold handleAbaVal
  grind

@[grind ←] theorem blind_handleCoinShare [Crypto] (share : RandomnessShare) : Blind (handleCoinShare share) := by
  have count : Blind (addAbaRandom share) := by
    unfold addAbaRandom
    grind
  unfold handleCoinShare
  grind

theorem blind_handleAbaProof [Crypto] (proof : ABAProof) : Blind (handleAbaProof proof) := by
  unfold handleAbaProof
  grind

@[grind ←] theorem blind_broadcastAbaVal [Crypto] (abaVal : ABAVal) : Blind (broadcastAbaVal abaVal) := by
  unfold broadcastAbaVal
  grind

@[grind ←] theorem blind_signAbaVal [Crypto] (epoch round : SeqNumber) (val : UInt64) (phase : UInt8) :
    Blind (signAbaVal epoch round val phase) := by
  unfold signAbaVal
  grind

@[grind ←] theorem blind_setInput (round : SeqNumber) (val : UInt64) : Blind (setInput round val) := by
  unfold setInput
  grind

@[grind ←] theorem blind_withCached {α : Type} (cache : Core → Map (SeqNumber × SeqNumber) α) {handler : α → M Unit}
    (h : ∀ a, Blind (handler a)) : Blind (withCached cache handler) := by
  unfold withCached
  grind

theorem blind_processCachedTc [Crypto] : Blind processCachedTc := by
  have process (tc : TC) : Blind (processTc tc) := by
    unfold processTc
    grind
  unfold processCachedTc
  grind

theorem blind_processValPhase [Crypto] : Blind processValPhase := by
  have weak (proof : ABAProof) : Blind (processValPhase1 proof) := by
    unfold processValPhase1
    grind
  have strong (proof : ABAProof) : Blind (processValPhase2 proof) := by
    unfold processValPhase2 insertBinValue
    grind
  unfold processValPhase
  grind

theorem blind_processCachedAux [Crypto] : Blind processCachedAux := by
  have process (epoch round : SeqNumber) : Blind (processAuxPhase epoch round) := by
    unfold processAuxPhase
    grind
  unfold processCachedAux
  grind

@[grind ←] theorem blind_setOutput (val : UInt64) : Blind (setOutput val) := by
  unfold setOutput
  grind

theorem blind_processCoinPhase [Crypto] : Blind processCoinPhase := by
  have advance (val : UInt64) : Blind (advanceAbaRound val) := by
    unfold advanceAbaRound
    grind
  have cast (proof : ABAProof) : Blind (broadcastAuxProof proof) := by
    unfold broadcastAuxProof
    grind
  have process (epoch round : SeqNumber) (coin : Nat) : Blind (processCoinShare epoch round coin) := by
    unfold processCoinShare
    grind
  unfold processCoinPhase
  grind

theorem blind_processCachedProof : Blind processCachedProof := by
  have process (proof : ABAProof) : Blind (processAbaProof proof) := by
    unfold processAbaProof
    grind
  unfold processCachedProof
  grind

theorem blind_updatePhase : Blind updatePhase := by
  have set (phase : UInt8) : Blind (setPhase phase) := blind_modifyCore _
  have count : Blind auxValueNum := by
    unfold auxValueNum
    grind
  have coin : Blind enterCoinPhase := by
    unfold enterCoinPhase
    grind
  unfold updatePhase enterValPhase enterAuxPhase
  grind

theorem blind_outputPhase [Crypto] [Bincode] (fuel : Nat) (output : UInt64) : Blind (outputPhase fuel output) := by
  have reset (height epoch : SeqNumber) : Blind (resetChain output height epoch) := blind_modifyChain _
  have resetAba : Blind resetAba := blind_modifyCore _
  have proposed : Blind (do
      if (← getChain).name = (← getCore).name then
        broadcastPropose fuel (← generateProposal true)) := by
    grind
  unfold outputPhase
  apply blind_bind blind_getChain
  intro chain
  split
  · exact blind_pure _
  refine blind_bind blind_getCore fun core => blind_bind (Synchronizer.blind_getBlock _ _ _) fun found => ?_
  cases found with
  | none => exact blind_pure _
  | some block =>
      refine blind_bind (blind_commit _ _) fun _ => blind_bind blind_getCore fun core => ?_
      refine blind_bind (blind_checkedAdd _ _ _) fun epoch => blind_bind blind_getChain fun chain => ?_
      refine blind_bind (blind_checkedAdd _ _ _) fun chainEpoch => blind_bind (blind_checkedAdd _ _ _) fun height => ?_
      grind

theorem blind_updateAbaPhase [Crypto] [Bincode] (fuel : Nat) : Blind (updateAbaPhase fuel) := by
  have stages : Blind processAbaPhase := by
    have tc := blind_processCachedTc
    have val := blind_processValPhase
    have aux := blind_processCachedAux
    have coin := blind_processCoinPhase
    have proof := blind_processCachedProof
    unfold processAbaPhase
    grind
  have phase := blind_updatePhase
  have output := blind_outputPhase fuel
  unfold updateAbaPhase
  grind

/-! ## The loop -/

theorem blind_handleMessage [Crypto] [Bincode] (fuel : Nat) (channel : Channel) (message : ConsensusMessage) :
    Blind (handleMessage fuel channel message) := by
  have proposal := blind_handleProposal fuel
  have vote := blind_handleVote fuel
  have request := blind_handleSyncRequest
  have timeout := blind_handleTimeout
  have tc := blind_handleTc
  have proof := blind_handleAbaProof
  unfold handleMessage
  grind

theorem blind_turn [Crypto] [Bincode] (channel : Channel) (message : ConsensusMessage) : Blind (turn channel message) := by
  unfold turn
  apply blind_get
  · exact fun _ _ => rfl
  · intro s
    have handle := blind_handleMessage s.env.fuel channel message
    have update := blind_updateAbaPhase s.env.fuel
    have check := blind_checkTimeout
    grind

end Core

/-! ## A node -/

/-- The node with more in front of its log. -/
def Node.behind (past : List Event) (n : Node) : Node := { n with log := past ++ n.log }

theorem Node.exec_behind {x : M Unit} (blind : Blind x) (past : List Event) (n : Node) (env : Env) :
    (n.behind past).exec env x = (n.exec env x).behind past := by
  have same : x ⟨(n.behind past).core, Chain.new (n.behind past).core.name, (n.behind past).log, env⟩ = _ :=
    blind past ⟨n.core, Chain.new n.core.name, n.log, env⟩
  unfold Node.exec
  rw [same]
  cases x ⟨n.core, Chain.new n.core.name, n.log, env⟩ with
  | ok _ s => rfl
  | error _ s => rfl

/-- A node goes on in the same way whatever it has logged before. -/
theorem Node.step_behind [Crypto] [Bincode] (past : List Event) (n : Node) (input : Input) :
    (n.behind past).step input = (n.step input).behind past := by
  unfold Node.step
  cases alive : n.alive with
  | false =>
      have stopped : (n.behind past).alive = false := alive
      rw [stopped]
      rfl
  | true =>
      have runs : (n.behind past).alive = true := alive
      rw [runs]
      cases input with
      | deliver channel message env => exact Node.exec_behind (Core.blind_turn channel message) past n env
      | makePayload transactions => exact congrArg (fun l => (⟨n.core, l, true⟩ : Node)) (List.append_assoc _ _ _)
      | storePayload payload => rfl

end HotstuffDag
