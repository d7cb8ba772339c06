import HotstuffDag.Proof.TurnActs

/-! # Invariants of a node

While a handler runs, the chain it works on is a copy that is stored when the handler ends. An
invariant speaks of the chains as a view in which the copy stands for the stored chain; it is
checked for each act, and holds of every run. -/

namespace HotstuffDag
open Library Library.Exec

/-- The chains by author. -/
abbrev View := PublicKey → Option Chain

def view (k : Core) (c : Chain) : View := fun name => if name = c.name then some c else k.pubkeyToChain.get? name

@[simp] theorem view_self (k : Core) (c : Chain) : view k c c.name = some c := by
  simp [view]

/-- Chains are stored under their names. -/
def Names (k : Core) : Prop := ∀ name c, k.pubkeyToChain.get? name = some c → c.name = name

/-- The messages among the inputs that a run may contain. -/
def Received (ok : Input → Prop) (m : ConsensusMessage) : Prop := ∃ channel env, ok (.deliver channel m env)

structure Invariant [Crypto] [Bincode] (ok : Input → Prop) (I : View → Core → List Event → Prop) : Prop where
  act : ∀ {s s' : Conf}, Names s.core → Act (Received ok) s s' → I (view s.core s.chain) s.core s.log →
    I (view s'.core s'.chain) s'.core s'.log
  blind : ∀ {v k l} m, Map.get? m = v → I v k l → I v { k with pubkeyToChain := m } l
  makePayload : ∀ {v k l} transactions, I v k l → I v k (l ++ [.signed (.payload (.new transactions k.name))])
  storePayload : ∀ {v k l} payload, ok (.storePayload payload) → I v k l →
    I v { k with store := k.store.insert payload.digest (.payload payload) } l

/-- Between two handlers. -/
structure Closed (I : View → Core → List Event → Prop) (k : Core) (l : List Event) : Prop where
  names : Names k
  own : (k.pubkeyToChain.get? k.name).isSome
  holds : I k.pubkeyToChain.get? k l

/-- A task that has stopped inside a handler leaves some view behind. -/
def Open (I : View → Core → List Event → Prop) (k : Core) (l : List Event) : Prop := ∃ v, I v k l

def Sounds (I : View → Core → List Event → Prop) : EStateM.Result Exn State Unit → Prop
  | .ok _ s => Closed I s.core s.log
  | .error _ s => Open I s.core s.log

def Node.Sound (I : View → Core → List Event → Prop) (n : Node) : Prop :=
  (n.alive = true → Closed I n.core n.log) ∧ Open I n.core n.log

/-! ## Acts keep the stored chains -/

section
variable {got : ConsensusMessage → Prop}

theorem Act.stored [Crypto] [Bincode] {s s' : Conf} (act : Act got s s') (name : PublicKey) :
    (s'.core.pubkeyToChain.get? name).map Chain.uncommitted =
      (s.core.pubkeyToChain.get? name).map Chain.uncommitted := by
  cases act with
  | aba act => rw [act.frame.pubkeyToChain]
  | @commit fuel env k c l b _ => exact (Core.commit_frame fuel b ⟨k, c, l, env⟩).chains name
  | _ => rfl

theorem Acts.stored [Crypto] [Bincode] {s s' : Conf} (acts : Acts got s s') (name : PublicKey) :
    (s'.core.pubkeyToChain.get? name).map Chain.uncommitted =
      (s.core.pubkeyToChain.get? name).map Chain.uncommitted := by
  induction acts with
  | refl => rfl
  | tail _ act ih => exact (act.stored name).trans ih

theorem Acts.names [Crypto] [Bincode] {s s' : Conf} (acts : Acts got s s') (names : Names s.core) : Names s'.core := by
  intro name c found
  have same := Acts.stored acts name
  rw [found, Option.map_some] at same
  obtain ⟨c₀, found₀, same₀⟩ := Option.map_eq_some_iff.mp same.symm
  have named := names name c₀ found₀
  have kept := congrArg Chain.name same₀
  exact kept.symm.trans named

theorem Acts.isSome [Crypto] [Bincode] {s s' : Conf} (acts : Acts got s s') (name : PublicKey) :
    (s'.core.pubkeyToChain.get? name).isSome = (s.core.pubkeyToChain.get? name).isSome := by
  have same := congrArg Option.isSome (Acts.stored acts name)
  simpa using same

end

/-! ## From acts to runs -/

section
variable {ok : Input → Prop} {I : View → Core → List Event → Prop}

theorem Invariant.acts [Crypto] [Bincode] (inv : Invariant ok I) {s s' : Conf} (acts : Acts (Received ok) s s')
    (names : Names s.core) (holds : I (view s.core s.chain) s.core s.log) :
    I (view s'.core s'.chain) s'.core s'.log := by
  induction acts with
  | refl => exact holds
  | tail before act ih => exact inv.act (Acts.names before names) act ih

theorem view_loaded {k : Core} {c : Chain} (found : k.pubkeyToChain.get? c.name = some c) :
    view k c = k.pubkeyToChain.get? := by
  funext name
  unfold view
  split
  · rename_i same
    rw [same, found]
  · rfl

theorem view_saved (k : Core) (c : Chain) : (k.pubkeyToChain.insert c.name c).get? = view k c := by
  funext name
  rw [Map.get?_insert]
  unfold view
  by_cases same : name = c.name
  · rw [if_pos same, if_pos same.symm]
  · rw [if_neg same, if_neg fun h => same h.symm]

/-- The chain of a handler is stored again when the handler ends. -/
theorem Invariant.saved [Crypto] [Bincode] (inv : Invariant ok I) {s t : State} {name : PublicKey} {c : Chain}
    (closed : Closed I s.core s.log) (found : s.core.pubkeyToChain.get? name = some c)
    (reach : Evolves (Received ok) { s with chain := c } t) :
    Closed I { t.core with pubkeyToChain := t.core.pubkeyToChain.insert name t.chain } t.log := by
  have named := closed.names name c found
  have chainName : t.chain.name = name := (Evolves.chainName reach).trans named
  have names := Acts.names reach closed.names
  refine ⟨?_, ?_, ?_⟩
  · intro other c' found'
    rw [Map.get?_insert] at found'
    split at found'
    · rename_i same
      rw [← Option.some.inj found', chainName, same]
    · exact names other c' found'
  · have own := closed.own
    dsimp only
    rw [Map.get?_insert, Evolves.name reach]
    split
    · rfl
    · exact (Acts.isSome reach _).trans own
  · have start : view s.core c = s.core.pubkeyToChain.get? := view_loaded (by rw [named]; exact found)
    have along := inv.acts reach closed.names (by
      change I (view s.core c) s.core s.log
      rw [start]
      exact closed.holds)
    have saved := view_saved t.core t.chain
    rw [chainName] at saved
    rw [saved]
    exact inv.blind _ saved along

theorem Invariant.stopped [Crypto] [Bincode] (inv : Invariant ok I) {s t : State} {name : PublicKey} {c : Chain}
    (closed : Closed I s.core s.log) (found : s.core.pubkeyToChain.get? name = some c)
    (reach : Evolves (Received ok) { s with chain := c } t) : Open I t.core t.log := by
  have named := closed.names name c found
  have start : view s.core c = s.core.pubkeyToChain.get? := view_loaded (by rw [named]; exact found)
  refine ⟨view t.core t.chain, inv.acts reach closed.names ?_⟩
  change I (view s.core c) s.core s.log
  rw [start]
  exact closed.holds

theorem onChain_missing {s : State} {name : PublicKey} {handler : M Unit}
    (missing : s.core.pubkeyToChain.get? name = none) : onChain name handler s = .error .panic s := by
  unfold HotstuffDag.onChain
  simp only [bind_eq, getCore_run, missing]
  rfl

theorem Invariant.onChain [Crypto] [Bincode] (inv : Invariant ok I) {s : State} {name : PublicKey} {handler : M Unit}
    (run : ∀ c, c.name = name →
      Leads (Evolves (Received ok)) handler { s with chain := c } (fun _ _ => True))
    (closed : Closed I s.core s.log) : Sounds I (onChain name handler s) := by
  unfold HotstuffDag.onChain
  simp only [bind_eq, getCore_run]
  cases found : s.core.pubkeyToChain.get? name with
  | none => exact ⟨_, closed.holds⟩
  | some c =>
      have followed := run c (closed.names name c found)
      unfold Leads at followed
      simp only [unwrap, pure_run, modifyChain_run, attempt]
      cases exit : handler { s with chain := c } with
      | ok a t =>
          rw [exit] at followed
          exact inv.saved closed found followed.1
      | error e t =>
          rw [exit] at followed
          cases e with
          | error e => exact inv.saved closed found followed
          | panic | overflow | outOfFuel => exact inv.stopped closed found followed

/-- A handler that works on no chain. -/
theorem Invariant.attempt [Crypto] [Bincode] (inv : Invariant ok I) {s : State} {handler : M Unit}
    (run : Leads (AbaEvolves (Received ok)) handler s (fun _ _ => True)) (closed : Closed I s.core s.log) :
    Sounds I (attempt handler s) := by
  have keeps (t : State) (reach : AbaEvolves (Received ok) s t) : Closed I t.core t.log := by
    obtain ⟨c, found⟩ := Option.isSome_iff_exists.mp closed.own
    have named := closed.names _ c found
    have frame := reach.frame
    have start : view s.core c = s.core.pubkeyToChain.get? := view_loaded (by rw [named]; exact found)
    have finish : view t.core c = t.core.pubkeyToChain.get? :=
      view_loaded (by rw [named, frame.pubkeyToChain]; exact found)
    have lifted := reach.2.lift (p := Act (Received ok))
      (fun a : Core × List Event => (⟨a.1, c, a.2⟩ : Conf)) fun a b act => .aba act
    refine ⟨?_, ?_, ?_⟩
    · intro name c' found'
      rw [frame.pubkeyToChain] at found'
      exact closed.names name c' found'
    · rw [frame.pubkeyToChain, frame.name]
      exact closed.own
    · rw [← finish]
      refine inv.acts lifted closed.names ?_
      change I (view s.core c) s.core s.log
      rw [start]
      exact closed.holds
  unfold Leads at run
  simp only [HotstuffDag.attempt]
  cases exit : handler s with
  | ok a t =>
      rw [exit] at run
      exact keeps t run.1
  | error e t =>
      rw [exit] at run
      have after := keeps t run
      cases e with
      | error e => exact after
      | panic | overflow | outOfFuel => exact ⟨_, after.holds⟩

theorem Sounds.bind {s : State} {x : M Unit} {f : Unit → M Unit} (hx : Sounds I (x s))
    (hf : ∀ t, Closed I t.core t.log → Sounds I (f () t)) : Sounds I ((x >>= f) s) := by
  rw [bind_eq]
  cases exit : x s with
  | ok a t =>
      rw [exit] at hx
      exact hf t hx
  | error e t =>
      rw [exit] at hx
      exact hx

theorem Invariant.handleMessage [Crypto] [Bincode] (inv : Invariant ok I) {s : State} {fuel : Nat} {channel : Channel}
    {message : ConsensusMessage} (msg : Received ok message) (closed : Closed I s.core s.log) :
    Sounds I (Core.handleMessage fuel channel message s) := by
  have failed : Sounds I ((panic : M Unit) s) := ⟨_, closed.holds⟩
  cases channel with
  | core =>
      cases message with
      | propose block =>
          exact inv.onChain (fun c named => Core.leads_handleProposal (.inl msg)) closed
      | vote vote =>
          exact inv.onChain (fun c named => Core.leads_handleVote fuel vote _ (.inl ⟨msg, named.symm⟩)) closed
      | loopBack block =>
          exact inv.onChain (fun c named => Core.leads_processBlock (.loopBack msg named.symm)) closed
      | syncRequest digest sender => exact inv.attempt Core.leads_handleSyncRequest closed
      | syncReply block =>
          exact inv.onChain (fun c named => Core.leads_handleProposal (.inr msg)) closed
      | timeout | tc | abaVal | abaProof | abaCoinShare => exact failed
  | smvba =>
      cases message with
      | timeout timeout =>
          exact inv.onChain (fun c named => Core.leads_handleTimeout (.inl msg) named.symm) closed
      | tc tc => exact inv.attempt (Core.leads_handleTc msg) closed
      | abaVal abaVal =>
          refine inv.attempt ((Core.leads_handleAbaVal (.inl msg)).weaken ?_) closed
          exact fun _ _ _ _ => trivial
      | abaProof proof => exact inv.attempt (Core.leads_handleAbaProof msg) closed
      | abaCoinShare share => exact inv.attempt (Core.leads_handleCoinShare (.inl msg)) closed
      | propose | vote | loopBack | syncRequest | syncReply => exact failed

/-- What a turn does after its message. -/
theorem Invariant.afterMessage [Crypto] [Bincode] (inv : Invariant ok I) (fuel : Nat) {t : State} (closed : Closed I t.core t.log) :
    Sounds I ((HotstuffDag.onChain t.core.leader (Core.updateAbaPhase fuel) >>= fun _ => do
      HotstuffDag.onChain (← getCore).leader Core.checkTimeout) t) := by
  refine Sounds.bind ?_ fun t closed => ?_
  · exact inv.onChain (fun c named => Core.leads_updateAbaPhase named) closed
  · exact inv.onChain (fun c named => Core.leads_checkTimeout named) closed

theorem Invariant.turn [Crypto] [Bincode] (inv : Invariant ok I) {s : State} {channel : Channel} {message : ConsensusMessage}
    (msg : Received ok message) (closed : Closed I s.core s.log) :
    Sounds I (Core.turn channel message s) :=
  Sounds.bind (inv.handleMessage msg closed) fun _ closed => inv.afterMessage s.env.fuel closed

/-- A turn from the state in which its message has been handled. -/
theorem Invariant.turn_after [Crypto] [Bincode] (inv : Invariant ok I) {s t : State} {channel : Channel} {message : ConsensusMessage}
    (handled : Core.handleMessage s.env.fuel channel message s = .ok () t) (closed : Closed I t.core t.log) :
    Sounds I (Core.turn channel message s) := by
  unfold Core.turn
  simp only [bind_eq, get_run, handled]
  exact inv.afterMessage s.env.fuel closed

theorem Invariant.start [Crypto] [Bincode] (inv : Invariant ok I) {s : State} (fresh : s.log = []) (closed : Closed I s.core s.log) :
    Sounds I (Core.start s) := by
  refine inv.onChain (fun c named => ?_) closed
  have cued : Cued c s.log := .start (by rw [fresh]; rfl)
  refine Core.leads_generateProposal (.inl named) cued fun block t reach signed author => ?_
  refine Core.leads_broadcastPropose signed author ?_
  rw [Evolves.chainName reach, Evolves.name reach]
  exact named

theorem Node.exec_error {n : Node} {env : Env} {x : M Unit} {e : Exn} {t : State}
    (exit : x ⟨n.core, Chain.new n.core.name, n.log, env⟩ = .error e t) : n.exec env x = ⟨t.core, t.log, false⟩ := by
  unfold Node.exec
  rw [exit]

theorem Node.sound_exec {n : Node} {env : Env} {x : M Unit}
    (h : Sounds I (x ⟨n.core, Chain.new n.core.name, n.log, env⟩)) : (n.exec env x).Sound I := by
  unfold Node.exec
  cases exit : x ⟨n.core, Chain.new n.core.name, n.log, env⟩ with
  | ok a t =>
      rw [exit] at h
      exact ⟨fun _ => h, _, h.holds⟩
  | error e t =>
      rw [exit] at h
      exact ⟨fun alive => by contradiction, h⟩

theorem Invariant.step [Crypto] [Bincode] (inv : Invariant ok I) {n : Node} {input : Input} (allowed : ok input)
    (sound : n.Sound I) : (n.step input).Sound I := by
  unfold Node.step
  cases alive : n.alive with
  | false => exact sound
  | true =>
      have closed := sound.1 alive
      cases input with
      | deliver channel message env =>
          exact Node.sound_exec (inv.turn ⟨channel, env, allowed⟩ closed)
      | makePayload transactions =>
          refine ⟨fun _ => ⟨closed.names, closed.own, ?_⟩, _, inv.makePayload transactions closed.holds⟩
          exact inv.makePayload transactions closed.holds
      | storePayload payload =>
          refine ⟨fun _ => ⟨closed.names, closed.own, ?_⟩, _, inv.storePayload payload allowed closed.holds⟩
          exact inv.storePayload payload allowed closed.holds

theorem Invariant.run [Crypto] [Bincode] (inv : Invariant ok I) {n : Node} {inputs : List Input} (allowed : ∀ i ∈ inputs, ok i)
    (sound : n.Sound I) : (n.run inputs).Sound I := by
  induction inputs generalizing n with
  | nil => exact sound
  | cons input rest ih =>
      refine ih (fun i hi => allowed i (List.mem_cons_of_mem _ hi)) ?_
      exact inv.step (allowed input (List.mem_cons_self)) sound

theorem Invariant.and [Crypto] [Bincode] {J : View → Core → List Event → Prop} (inv : Invariant ok I) (inv' : Invariant ok J) :
    Invariant ok fun v k l => I v k l ∧ J v k l where
  act := fun names act h => ⟨inv.act names act h.1, inv'.act names act h.2⟩
  blind := fun m same h => ⟨inv.blind m same h.1, inv'.blind m same h.2⟩
  makePayload := fun transactions h => ⟨inv.makePayload transactions h.1, inv'.makePayload transactions h.2⟩
  storePayload := fun payload allowed h =>
    ⟨inv.storePayload payload allowed h.1, inv'.storePayload payload allowed h.2⟩

/-- A node keeps its name and its committee. -/
theorem identityInvariant [Crypto] [Bincode] (ok : Input → Prop) (name : PublicKey) (committee : Committee) :
    Invariant ok fun _ k _ => k.name = name ∧ k.committee = committee where
  act := fun _ act h => ⟨act.frame.name.trans h.1, act.frame.committee.trans h.2⟩
  blind := fun _ _ h => h
  makePayload := fun _ h => h
  storePayload := fun _ _ h => h

theorem Node.run_dead [Crypto] [Bincode] {n : Node} (dead : n.alive = false) (inputs : List Input) : n.run inputs = n := by
  induction inputs with
  | nil => rfl
  | cons input rest ih =>
      have stays : n.step input = n := by
        unfold Node.step
        rw [dead]
        rfl
      change (n.step input).run rest = n
      rw [stays]
      exact ih

theorem Node.run_snoc [Crypto] [Bincode] (n : Node) (inputs : List Input) (input : Input) :
    n.run (inputs ++ [input]) = (n.run inputs).step input := by
  simp [Node.run]

/-! ## The first state -/

theorem Core.new_chains (name : PublicKey) (committee : Committee) (parameters : Parameters) (store : Store)
    (key : PublicKey) : (Core.new name committee parameters store).pubkeyToChain.get? key =
      if key ∈ committee.keys then some (Chain.new key) else none := by
  unfold Core.new Map.get?
  dsimp only
  induction committee.keys with
  | nil => rfl
  | cons first rest ih =>
      by_cases same : first = key
      · simp [Map.find, same]
      · have other : ¬ key = first := fun h => same h.symm
        simp only [List.map_cons, Map.find, if_neg same, ih, List.mem_cons, other, false_or]

theorem Core.new_names (name : PublicKey) (committee : Committee) (parameters : Parameters) (store : Store) :
    Names (Core.new name committee parameters store) := by
  intro key c found
  rw [Core.new_chains] at found
  split at found
  · rw [← Option.some.inj found]
    rfl
  · contradiction

/-- Without a chain of its own a node stops at once. -/
theorem Core.start_missing [Crypto] [Bincode] {name : PublicKey} {committee : Committee} (unknown : name ∉ committee.keys)
    (parameters : Parameters) (store : Store) (env : Env) :
    Core.start ⟨Core.new name committee parameters store, Chain.new name, [], env⟩ =
      .error .panic ⟨Core.new name committee parameters store, Chain.new name, [], env⟩ := by
  have missing := Core.new_chains name committee parameters store name
  rw [if_neg unknown] at missing
  unfold Core.start
  change HotstuffDag.onChain name _ _ = _
  exact onChain_missing missing

theorem Invariant.init [Crypto] [Bincode] (inv : Invariant ok I) {name : PublicKey} {committee : Committee}
    {parameters : Parameters} {store : Store} {env : Env}
    (holds : I (Core.new name committee parameters store).pubkeyToChain.get?
      (Core.new name committee parameters store) []) :
    (Node.start (Core.new name committee parameters store) env).Sound I := by
  refine Node.sound_exec ?_
  by_cases member : name ∈ committee.keys
  · refine inv.start rfl ⟨Core.new_names _ _ _ _, ?_, holds⟩
    have found := Core.new_chains name committee parameters store name
    rw [if_pos member] at found
    exact Option.isSome_iff_exists.mpr ⟨_, found⟩
  · change Sounds I (Core.start ⟨Core.new name committee parameters store, Chain.new name, [], env⟩)
    rw [Core.start_missing member parameters store env]
    exact ⟨_, holds⟩

end
end HotstuffDag
