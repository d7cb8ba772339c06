import HotstuffDag.Proof.Dangling
import HotstuffDag.Proof.Smooth
import HotstuffDag.Sample

/-! # Panics

A message may name a chain that does not exist, come on the wrong channel, or bring a block that refers to
the default digest. Nothing else makes a turn of the loop panic. -/

namespace HotstuffDag
open Library Library.Exec

section
variable [Crypto] [Bincode] {committee : Committee} {s : State}

/-! ## A turn of the loop -/

namespace Core

/-- The end of an epoch commits, and proposes on the own chain. -/
theorem smooth_updateAbaPhase (fuel : Nat) (steady : s.core.Steady committee) (primed : s.core.Primed) :
    Smooth Exn.Mild (updateAbaPhase fuel) s := by
  unfold updateAbaPhase
  refine ends_getCore (Ends.ite (fun _ => trivial) fun _ => ?_)
  refine Primed.then (.inr primed) (calm_updatePhase.smooth trivial) leads_updatePhase fun t reached primed => ends_getCore ?_
  have frame := reached.frame
  split
  · have kept : t.Steady committee := steady.congr frame.committee frame.name frame.pubkeyToChain frame.store
    exact (lasting_steady.outputPhase fuel _).smooth kept
  · exact smooth_processAbaPhase primed

end Core

omit [Crypto] [Bincode] in
theorem smooth_onChain {name : PublicKey} {handler : M Unit} (known : (s.core.pubkeyToChain.get? name).isSome)
    (run : ∀ c, Smooth Exn.Mild handler { s with chain := c }) : Smooth Exn.Mild (onChain name handler) s := by
  unfold onChain
  refine ends_getCore (ends_unwrap (fun missing => ?_) fun c _ => ?_)
  · rw [missing] at known
    contradiction
  · refine ends_modifyChain (Smooth.bind (smooth_attempt (run c)) fun _ t => ?_)
    exact (calm_bind calm_getChain fun c => Core.calm_setCore _).smooth trivial

namespace Core

omit [Crypto] in
theorem Steady.leader (steady : s.core.Steady committee) (epoch : SeqNumber) :
    (s.core.pubkeyToChain.get? (s.core.committee.getLeader epoch)).isSome := by
  rw [steady.same]
  exact steady.chains _ (Committee.getLeader_mem steady.own epoch)

theorem smooth_handleMessage {fuel : Nat} {channel : Channel} {message : ConsensusMessage}
    (steady : s.core.Steady committee) (harmless : message.Harmless committee channel) :
    Smooth Exn.Mild (handleMessage fuel channel message) s := by
  cases channel with
  | core =>
      cases message with
      | propose block | syncReply block =>
          refine smooth_onChain (steady.chains _ harmless.1) fun c => ?_
          refine (lasting_steady.handleProposal fuel fun t steady verified => ?_).smooth steady
          rw [Steady.same steady] at verified
          exact (harmless.2 verified).toAnchored
      | vote vote => exact smooth_onChain (steady.chains _ harmless.1) fun c => (lasting_steady.handleVote fuel fun _ _ _ => trivial).smooth steady
      | loopBack block =>
          exact smooth_onChain (steady.chains _ harmless.1.author) fun c => (lasting_steady.processBlock fuel harmless.1).smooth steady
      | syncRequest digest sender =>
          exact smooth_attempt ((calm_handleSyncRequest digest sender).smooth (K := State.Steady committee) steady)
      | timeout | tc | abaVal | abaProof | abaCoinShare => exact harmless.elim
  | smvba =>
      cases message with
      | timeout timeout =>
          exact ends_getCore (smooth_onChain (steady.leader _) fun c => (lasting_steady.handleTimeout fun _ _ _ => trivial).smooth steady)
      | tc tc => exact smooth_attempt ((calm_handleTc tc).smooth trivial)
      | abaVal abaVal => exact smooth_attempt ((calm_handleAbaVal abaVal).smooth trivial)
      | abaProof proof => exact smooth_attempt ((calm_handleAbaProof proof).smooth trivial)
      | abaCoinShare share => exact smooth_attempt ((calm_handleCoinShare share).smooth trivial)
      | propose | vote | loopBack | syncRequest | syncReply => exact harmless.elim

end Core

/-! ## Runs -/

/-- What holds of a node between two handlers. -/
abbrev Guarded (name : PublicKey) (committee : Committee) (v : View) (k : Core) (l : List Event) : Prop :=
  (k.name = name ∧ (Undefaulted committee l → Sheltered committee v k l)) ∧
    (∀ key, (v key).isSome ↔ key ∈ committee.keys) ∧ k.Primed

theorem guardedInvariant {name : PublicKey} (member : name ∈ committee.keys) :
    Invariant (Input.Harmless committee) (Guarded name committee) :=
  (shelteredInvariant member).and ((chainsInvariant _ committee.keys).and (primedInvariant _))

theorem Guarded.init (name : PublicKey) (parameters : Parameters) {store : Store}
    (anchored : ∀ d value b, store.get? d = some value → Synchronizer.decodeBlock value = .ok b → b.Anchored committee)
    (legible : Legible store) : Guarded name committee (Core.new name committee parameters store).pubkeyToChain.get?
      (Core.new name committee parameters store) [] := by
  have certs : Certs (fun _ qc => qc.Anchored committee) (fun _ => True) committee
      (Core.new name committee parameters store).pubkeyToChain.get? (Core.new name committee parameters store) [] :=
    Certs.init (fun _ => QC.genesis_anchored committee) name parameters store
  refine ⟨⟨rfl, fun _ => ⟨⟨?_, ?_, ?_, ?_⟩, certs, anchored, ?_, legible⟩⟩, fun key => ?_, Core.Primed.new name committee parameters store⟩
  · exact fun b mem => absurd mem List.not_mem_nil
  · exact fun c b mem => absurd mem List.not_mem_nil
  · exact fun v mem => absurd mem List.not_mem_nil
  · exact fun chain qc mem => absurd mem List.not_mem_nil
  · exact fun b mem => absurd mem List.not_mem_nil
  · rw [Core.new_chains]
    split <;> simp_all

theorem Closed.steady {name : PublicKey} {k : Core} {l : List Event} (closed : Closed (Guarded name committee) k l)
    (own : Undefaulted committee l) : k.Steady committee := by
  obtain ⟨⟨-, sheltered⟩, chains, -⟩ := closed.holds
  obtain ⟨-, certs, rooted⟩ := sheltered own
  refine ⟨certs.same, (chains k.name).mp closed.own, fun key member => (chains key).mpr member, fun key c found => ?_,
    rooted.store, rooted.legible⟩
  exact (certs.stored key c found).high

/-- One handler after another: a panic needs an own block with the default digest. -/
theorem ends_stage {name : PublicKey} (member : name ∈ committee.keys) {x : M Unit}
    (closed : Closed (Guarded name committee) s.core s.log)
    (sounds : ∀ I, Invariant (Input.Harmless committee) I → Closed I s.core s.log → Sounds I (x s))
    (smooth : s.core.Steady committee → s.core.Primed → Smooth Exn.Mild x s) :
    Ends x s (fun _ t => Closed (Guarded name committee) t.core t.log) fun e t => e = .panic → ¬ Undefaulted committee t.log := by
  have along := sounds _ ((guardedInvariant member).and (System.prefixInvariant s.log))
    ⟨closed.names, closed.own, closed.holds, List.prefix_refl _⟩
  unfold Ends
  cases exit : x s with
  | ok a t =>
      rw [exit] at along
      exact ⟨along.names, along.own, along.holds.1⟩
  | error e t =>
      rw [exit] at along
      obtain ⟨_, -, grown⟩ := along
      intro panics own
      have calm := smooth (closed.steady (own.before grown)) closed.holds.2.2
      unfold Smooth Ends at calm
      rw [exit] at calm
      exact calm panics

theorem ends_turn {name : PublicKey} (member : name ∈ committee.keys) {channel : Channel} {message : ConsensusMessage}
    (harmless : message.Harmless committee channel) (closed : Closed (Guarded name committee) s.core s.log) :
    Ends (Core.turn channel message) s (fun _ t => Closed (Guarded name committee) t.core t.log)
      fun e t => e = .panic → ¬ Undefaulted committee t.log := by
  have received : Received (Input.Harmless committee) message := ⟨channel, s.env, harmless⟩
  have handle := ends_stage (x := Core.handleMessage s.env.fuel channel message) member closed
    (fun I inv closed => inv.handleMessage received closed) fun steady _ => Core.smooth_handleMessage steady harmless
  have update (t : State) (closed : Closed (Guarded name committee) t.core t.log) :=
    ends_stage (x := onChain t.core.leader (Core.updateAbaPhase s.env.fuel)) member closed
      (fun I inv closed => inv.onChain (fun c named => Core.leads_updateAbaPhase named) closed)
      fun steady primed => smooth_onChain (steady.leader _) fun c => Core.smooth_updateAbaPhase _ steady primed
  have check (t : State) (closed : Closed (Guarded name committee) t.core t.log) :=
    ends_stage (x := onChain t.core.leader Core.checkTimeout) member closed
      (fun I inv closed => inv.onChain (fun c named => Core.leads_checkTimeout named) closed)
      fun steady _ => smooth_onChain (steady.leader _) fun c => lasting_steady.checkTimeout.smooth steady
  unfold Core.turn
  refine ends_get (handle.bind fun _ t closed => ends_getCore ?_)
  exact (update t closed).bind fun _ t' closed => ends_getCore (check t' closed)

/-- The turn of the node on the message ends in a panic. -/
def Node.panics (n : Node) (channel : Channel) (message : ConsensusMessage) (env : Env) : Bool :=
  match Core.turn channel message ⟨n.core, Chain.new n.core.name, n.log, env⟩ with
  | .error .panic _ => true
  | _ => false

/-- No message makes a node panic in a run on the inputs, and the authors of the coin shares that a node
holds have the ids that it looks up to combine them. -/
structure Node.PanicFree (start : Node) (inputs : List Input) : Prop where
  turns : ∀ before channel message env, before ++ [.deliver channel message env] <+: inputs →
    (start.run before).alive = true → (start.run before).panics channel message env = false
  ids : ∀ before, before <+: inputs → ∀ key maker,
    (start.run before).core.aggregator.abaRandomcoinAggregators.get? key = some maker →
      ∀ share ∈ maker.votes, ((start.run before).core.committee.id share.author).isSome

/-- After a panic nothing more is logged. -/
theorem Node.panicked {n : Node} {channel : Channel} {message : ConsensusMessage} {env : Env} (alive : n.alive = true)
    {t : State} (exit : Core.turn channel message ⟨n.core, Chain.new n.core.name, n.log, env⟩ = .error .panic t)
    (rest : List Input) : ((n.step (.deliver channel message env)).run rest).log = t.log := by
  unfold Node.step
  rw [if_pos alive]
  dsimp only
  rw [Node.exec_error exit, Node.run_dead rfl]

theorem Node.not_panics {n : Node} {name : PublicKey} (member : name ∈ committee.keys) (sound : n.Sound (Guarded name committee))
    (alive : n.alive = true) {channel : Channel} {message : ConsensusMessage} (harmless : message.Harmless committee channel)
    (env : Env) (rest : List Input) (own : Undefaulted committee ((n.step (.deliver channel message env)).run rest).log) :
    n.panics channel message env = false := by
  have turn := ends_turn (s := ⟨n.core, Chain.new n.core.name, n.log, env⟩) member harmless (sound.1 alive)
  unfold Node.panics
  split
  · rename_i t exit
    unfold Ends at turn
    rw [exit] at turn
    rw [Node.panicked alive exit rest] at own
    exact absurd own (turn rfl)
  · rfl

end

namespace Sample

/-- The first block of the leader refers to a block of the third author. -/
def pointing (digest : Digest) : Block := Block.new QC.genesis (key 1) 1 0 [] [(key 3, digest)]

/-- The leader's pointingChain for the first heights. -/
def pointingChain (digest : Digest) : List Input :=
  [propose (pointing digest), propose (above (pointing digest)), propose (above (above (pointing digest)))]

/-- Another node asks for it as for a block. -/
def requested (payload : Payload) : ConsensusMessage := .syncRequest payload.digest (key 3)

end Sample
end HotstuffDag
