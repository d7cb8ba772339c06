import HotstuffDag.Proof.Lasting
import HotstuffDag.Proof.Smooth
import HotstuffDag.Proof.System
import HotstuffDag.Sample

/-! # Where the stages run

A turn of the loop runs `process_aba_phase` once, on the chain of the leader, if the view change is active and
there is no output. -/

namespace HotstuffDag
open Library Library.Exec

section
variable [Crypto] [Bincode]

namespace Core

/-- A turn as far as `process_aba_phase`; the result says whether it comes to that. -/
def reachStages (channel : Channel) (message : ConsensusMessage) : M Bool := do
  let fuel := (← get).env.fuel
  handleMessage fuel channel message
  let chain ← unwrap ((← getCore).pubkeyToChain.get? (← getCore).leader)
  modifyChain fun _ => chain
  if (← getCore).isViewChange then
    updatePhase
    return (← getCore).abaOutputVal.isNone
  else return false

/-- The turn from there on. -/
def leaveStages : M Unit := do
  let leader := (← getCore).leader
  attempt processAbaPhase
  let chain ← getChain
  modifyCore fun c => { c with pubkeyToChain := c.pubkeyToChain.insert leader chain }
  onChain (← getCore).leader checkTimeout

variable {s t : State} {channel : Channel} {message : ConsensusMessage}

/-- How a turn comes to the stages. -/
theorem reachStages_ok (reached : reachStages channel message s = .ok true t) : ∃ u c,
    handleMessage s.env.fuel channel message s = .ok () u ∧ u.core.pubkeyToChain.get? u.core.leader = some c ∧
      u.core.isViewChange = true ∧ updatePhase { u with chain := c } = .ok () t ∧ t.core.abaOutputVal = none := by
  unfold reachStages at reached
  simp only [bind_eq, get_run, getCore_run, modifyChain_run] at reached
  cases handled : handleMessage s.env.fuel channel message s with
  | error e u => simp [handled] at reached
  | ok a u =>
      simp only [handled] at reached
      cases found : u.core.pubkeyToChain.get? u.core.leader with
      | none =>
          have stopped : unwrap (none : Option Chain) u = .error .panic u := rfl
          simp only [found, stopped] at reached
          contradiction
      | some c =>
          simp only [found, unwrap, pure_run] at reached
          refine ⟨u, c, rfl, found, ?_⟩
          split at reached
          · rename_i changing
            simp only [bind_eq, getCore_run] at reached
            cases updated : updatePhase { u with chain := c } with
            | error e v => simp [updated] at reached
            | ok b v =>
                simp only [updated, pure_run, EStateM.Result.ok.injEq, Option.isNone_iff_eq_none] at reached
                obtain ⟨output, rfl⟩ := reached
                exact ⟨changing, rfl, output⟩
          · simp at reached

/-- The turn is what `reach_stages` and `leave_stages` do. -/
theorem turn_stages (reached : reachStages channel message s = .ok true t) :
    turn channel message s = leaveStages t := by
  obtain ⟨u, c, handled, found, changing, updated, output⟩ := reachStages_ok reached
  have along : Leads (AbaEvolves fun _ => True) updatePhase { u with chain := c } fun _ t => t.core.isViewChange = u.core.isViewChange :=
    leads_updatePhase
  unfold Leads at along
  rw [updated] at along
  have leader : t.core.leader = u.core.leader := along.1.leader
  have stages : updateAbaPhase s.env.fuel { u with chain := c } = processAbaPhase t := by
    unfold updateAbaPhase
    simp [bind_eq, changing, updated, output]
  unfold turn leaveStages onChain
  simp only [bind_eq, get_run, handled, getCore_run, found, unwrap, pure_run, modifyChain_run, leader]
  unfold attempt
  rw [stages]
  cases processAbaPhase t with
  | ok a v => rfl
  | error e v => cases e <;> rfl

theorem changing_of_reachStages (reached : reachStages channel message s = .ok true t) :
    t.core.isViewChange = true ∧ t.core.abaOutputVal = none := by
  obtain ⟨u, c, -, -, changing, updated, output⟩ := reachStages_ok reached
  have along : Leads (AbaEvolves fun _ => True) updatePhase { u with chain := c } fun _ t => t.core.isViewChange = u.core.isViewChange :=
    leads_updatePhase
  unfold Leads at along
  rw [updated] at along
  exact ⟨along.2.trans changing, output⟩

end Core

/-! ## Properties where the stages run -/

section
variable {K : State → Prop} {E : Exn → Prop} {B : Block → Prop} {V : Vote → Prop} {C : QC → Prop} [Lenient E] [Deaf K]
  [Readable E K]

/-- What lasts through the turns holds where the stages run. -/
theorem Lasting.reachStages (lasting : Lasting E K B V C) (resident : Resident E K) (phase : Calm E K Core.updatePhase)
    {s t : State} {channel : Channel} {message : ConsensusMessage} (among : message.Among E K B V C) (holds : K s)
    (reached : Core.reachStages channel message s = .ok true t) : K t := by
  obtain ⟨u, c, handled, found, -, updated, -⟩ := Core.reachStages_ok reached
  have kept := lasting.handleMessage resident s.env.fuel channel among s holds
  unfold Ends at kept
  rw [handled] at kept
  have entered := phase _ (resident.load kept found)
  unfold Ends at entered
  rw [updated] at entered
  exact entered

/-- An invariant holds where the stages run. -/
theorem Invariant.reachStages {ok : Input → Prop} {I : View → Core → List Event → Prop} (inv : Invariant ok I) {s t : State}
    {channel : Channel} {message : ConsensusMessage} (msg : Received ok message) (closed : Closed I s.core s.log)
    (reached : Core.reachStages channel message s = .ok true t) : I (view t.core t.chain) t.core t.log := by
  obtain ⟨u, c, handled, found, -, updated, -⟩ := Core.reachStages_ok reached
  have sounds : Sounds I (Core.handleMessage s.env.fuel channel message s) := inv.handleMessage msg closed
  rw [handled] at sounds
  have along : Leads (AbaEvolves (Received ok)) Core.updatePhase { u with chain := c } fun _ t =>
      t.core.isViewChange = u.core.isViewChange := Core.leads_updatePhase
  unfold Leads at along
  rw [updated] at along
  refine inv.acts along.1.evolves sounds.names ?_
  have named := sounds.names _ c found
  have loaded : view u.core c = u.core.pubkeyToChain.get? := view_loaded (by rw [named]; exact found)
  change I (view u.core c) u.core u.log
  rw [loaded]
  exact sounds.holds

end

/-- The state in which the node runs `process_aba_phase` in its turn on the message. -/
def Node.staged (n : Node) (channel : Channel) (message : ConsensusMessage) (env : Env) : Option State :=
  if n.alive then
    match Core.reachStages channel message ⟨n.core, Chain.new n.core.name, n.log, env⟩ with
    | .ok true s => some s
    | _ => none
  else none

namespace Node
variable {n : Node} {channel : Channel} {message : ConsensusMessage} {env : Env} {s : State}

theorem staged_eq (staged : n.staged channel message env = some s) : n.alive = true ∧
    Core.reachStages channel message ⟨n.core, Chain.new n.core.name, n.log, env⟩ = .ok true s := by
  unfold Node.staged at staged
  split at staged
  · rename_i alive
    refine ⟨alive, ?_⟩
    split at staged
    · rename_i reached
      rw [reached, Option.some.inj staged]
    · contradiction
  · contradiction

/-- The node leaves the stages with its turn. -/
theorem step_staged (staged : n.staged channel message env = some s) :
    n.step (.deliver channel message env) = match Core.leaveStages s with
      | .ok _ t => ⟨t.core, t.log, true⟩
      | .error _ t => ⟨t.core, t.log, false⟩ := by
  obtain ⟨alive, reached⟩ := staged_eq staged
  unfold Node.step Node.exec
  rw [if_pos alive]
  dsimp only
  have turned := Core.turn_stages reached
  cases left : Core.leaveStages s <;> simp only [turned, left]

theorem Sound.staged {ok : Input → Prop} {I : View → Core → List Event → Prop} (inv : Invariant ok I) (sound : n.Sound I)
    (allowed : ok (.deliver channel message env)) (staged : n.staged channel message env = some s) :
    I (view s.core s.chain) s.core s.log := by
  obtain ⟨alive, reached⟩ := staged_eq staged
  exact inv.reachStages ⟨channel, env, allowed⟩ (sound.1 alive) reached

end Node

/-! ## What the stages look up -/

instance : Lenient (· ≠ Exn.panic) where
  error := fun _ => nofun
  outOfFuel := nofun
  overflow := fun _ _ => nofun

/-- Whatever a node has received, its stages find what they unwrap: a height in the timeout certificate, the input
of the round, the one value and the AUX certificate of the round. -/
theorem stages_never_panic (name : PublicKey) (committee : Committee) (parameters : Parameters) (store : Store) (env env' : Env)
    (inputs : List Input) (channel : Channel) (message : ConsensusMessage) (s t : State)
    (staged : ((Node.start (Core.new name committee parameters store) env).run inputs).staged channel message env' = some s) :
    Core.processAbaPhase s ≠ .error .panic t := by
  have start : (Node.start (Core.new name committee parameters store) env).Sound fun _ k _ => k.Primed :=
    (primedInvariant fun _ => True).init (Core.Primed.new name committee parameters store)
  have primed : s.core.Primed :=
    ((primedInvariant fun _ => True).run (fun _ _ => trivial) start).staged (primedInvariant fun _ => True) trivial staged
  have smooth : Smooth (· ≠ .panic) Core.processAbaPhase s := Core.smooth_processAbaPhase (.inr primed)
  intro panics
  unfold Smooth Ends at smooth
  rw [panics] at smooth
  exact smooth rfl

end

namespace Sample

/-- What the node receives in a trace. -/
def inputsOf (n : Nat) (trace : Trace) : List Input :=
  trace.reverse.filterMap fun step => if step.1 = key n then some step.2 else none

theorem unanimous_stages : ∃ s, ((start 1).run (inputsOf 1 (unanimous.drop 1))).staged .smvba
      (.abaCoinShare (.new 0 1 (key 4))) env = some s ∧ ∀ t, Core.processAbaPhase s ≠ .error .panic t := by
  have reached : (((start 1).run (inputsOf 1 (unanimous.drop 1))).staged .smvba
      (.abaCoinShare (.new 0 1 (key 4))) env).isSome = true := by decide +kernel
  obtain ⟨s, staged⟩ := Option.isSome_iff_exists.mp reached
  exact ⟨s, staged, fun t => stages_never_panic (key 1) four ⟨500⟩ Map.empty env env _ _ _ s t staged⟩

end Sample
end HotstuffDag
