import HotstuffDag.Cluster
import HotstuffDag.Proof.Blind
import HotstuffDag.Proof.HashLinks
import HotstuffDag.Proof.Supply

/-! # Nodes with their mempools refine the system

In the system a mempool is two inputs: a payload is signed, a payload is stored. Each run of nodes beside their
mempools is one of the system in which the mempools do no more than that. -/

namespace HotstuffDag
open Library
variable [Crypto] [Bincode]

/-! ## Several inputs of one node -/

theorem Node.run_storePayloads {n : Node} (alive : n.alive = true) (ps : List Payload) :
    n.run (ps.map .storePayload) = { n with core := { n.core with store := ps.foldl Mempool.file n.core.store } } := by
  induction ps generalizing n with
  | nil => rfl
  | cons p rest ih =>
      have stored : n.step (.storePayload p) = { n with core := { n.core with store := Mempool.file n.core.store p } } := by
        unfold Node.step
        rw [alive]
        rfl
      show (n.step (.storePayload p)).run (rest.map .storePayload) = _
      rw [stored]
      exact ih (n := { n with core := { n.core with store := Mempool.file n.core.store p } }) alive

/-- The inputs that a mempool accounts for. -/
def Input.local : Input → Prop
  | .deliver _ _ _ => False
  | _ => True

namespace System
variable {sys : System} {key : PublicKey}

/-- One node gets the inputs, the first of them first. -/
def feed (key : PublicKey) (inputs : List Input) (before : Trace) : Trace := (inputs.map fun input => (key, input)).reverse ++ before

omit [Crypto] [Bincode] in
theorem feed_cons (input : Input) (rest : List Input) (before : Trace) :
    feed key (input :: rest) before = feed key rest ((key, input) :: before) := by
  unfold feed
  rw [List.map_cons, List.reverse_cons, List.append_assoc]
  rfl

theorem nodeAt_feed (inputs : List Input) (before : Trace) :
    sys.nodeAt (feed key inputs before) key = (sys.nodeAt before key).run inputs := by
  induction inputs generalizing before with
  | nil => rfl
  | cons input rest ih =>
      rw [feed_cons, ih, nodeAt, if_pos rfl]
      rfl

theorem nodeAt_feed_ne {name : PublicKey} (other : key ≠ name) (inputs : List Input) (before : Trace) :
    sys.nodeAt (feed key inputs before) name = sys.nodeAt before name := by
  induction inputs generalizing before with
  | nil => rfl
  | cons input rest ih => rw [feed_cons, ih, nodeAt, if_neg other]

theorem valid_feed {inputs : List Input} {before : Trace} (own : ∀ input ∈ inputs, input.local) (valid : sys.Valid before) :
    sys.Valid (feed key inputs before) := by
  induction inputs generalizing before with
  | nil => exact valid
  | cons input rest ih =>
      rw [feed_cons]
      apply ih fun input mem => own input (List.mem_cons_of_mem _ mem)
      refine ⟨valid, ?_⟩
      have here := own input List.mem_cons_self
      cases input with
      | deliver channel message env => exact here.elim
      | makePayload transactions => trivial
      | storePayload payload => trivial

theorem valid_making {t : Trace} (making : ∀ step ∈ t, ∃ transactions, step.2 = .makePayload transactions) : sys.Valid t := by
  induction t with
  | nil => trivial
  | cons step before ih =>
      obtain ⟨transactions, same⟩ := making step List.mem_cons_self
      refine ⟨ih fun step mem => making step (List.mem_cons_of_mem _ mem), ?_⟩
      rw [same]
      trivial

theorem start_name (sys : System) (key : PublicKey) : (sys.start key).core.name = key := by
  have sound : (sys.nodeAt [] key).Sound fun _ k _ => k.name = key ∧ k.committee = sys.ordered key :=
    sys.sound_of_inputs (identityInvariant _ key (sys.ordered key)) ⟨rfl, rfl⟩
  exact sound.2.choose_spec.1

/-- A node that only signs payloads stays as it has started. -/
theorem nodeAt_making {t : Trace} (making : ∀ step ∈ t, ∃ transactions, step.2 = .makePayload transactions) (key : PublicKey) :
    ∃ made, sys.nodeAt t key = { sys.start key with log := (sys.start key).log ++ made } ∧
      (∀ e ∈ made, ∃ transactions, (key, .makePayload transactions) ∈ t ∧ e = .signed (.payload (.new transactions key))) ∧
      ((sys.start key).alive = true → ∀ transactions, (key, .makePayload transactions) ∈ t →
        .signed (.payload (.new transactions key)) ∈ made) := by
  induction t with
  | nil =>
      refine ⟨[], ?_, fun e mem => absurd mem List.not_mem_nil, fun _ transactions mem => absurd mem List.not_mem_nil⟩
      rw [List.append_nil]
      rfl
  | cons step before ih =>
      obtain ⟨made, node, each, all⟩ := ih fun step mem => making step (List.mem_cons_of_mem _ mem)
      obtain ⟨name, input⟩ := step
      obtain ⟨transactions, rfl⟩ := making _ List.mem_cons_self
      have kept (e : Event) (mem : e ∈ made) : ∃ ts, (key, .makePayload ts) ∈ (name, .makePayload transactions) :: before ∧
          e = .signed (.payload (.new ts key)) := by
        obtain ⟨ts, old, same⟩ := each e mem
        exact ⟨ts, List.mem_cons_of_mem _ old, same⟩
      by_cases same : name = key
      · subst same
        rw [nodeAt, if_pos rfl, node]
        cases alive : (sys.start name).alive with
        | false =>
            refine ⟨made, ?_, kept, fun running => absurd running Bool.false_ne_true⟩
            unfold Node.step
            simp [alive]
        | true =>
            refine ⟨made ++ [.signed (.payload (.new transactions name))], ?_, fun e mem => ?_, fun _ ts mem => ?_⟩
            · unfold Node.step
              simp [alive, start_name]
            · rcases List.mem_append.mp mem with old | new
              · exact kept e old
              · exact ⟨transactions, List.mem_cons_self, List.mem_singleton.mp new⟩
            · rcases List.mem_cons.mp mem with new | old
              · obtain ⟨-, same⟩ := Prod.mk.inj new
                obtain rfl := Input.makePayload.inj same
                exact List.mem_append_right _ List.mem_cons_self
              · exact List.mem_append_left _ (all alive ts old)
      · rw [nodeAt, if_neg same]
        refine ⟨made, node, kept, fun alive ts mem => ?_⟩
        rcases List.mem_cons.mp mem with new | old
        · exact absurd (Prod.mk.inj new).1.symm same
        · exact all alive ts old

end System

/-! ## A host and its node -/

section

/-- The node does what the node of the host does, behind payloads that it has signed at once. -/
structure Host.Follows (past made : List Event) (host : Host) (n : Node) : Prop where
  alive : n.alive = host.node.alive
  core : host.node.core = { n.core with store := host.store }
  store : host.node.alive = true → n.core.store = host.store
  log : ∃ rest, host.node.log = past ++ rest ∧ n.log = past ++ made ++ rest

namespace Host
variable {past made : List Event} {host : Host} {n : Node}

omit [Crypto] [Bincode] in
theorem Follows.same_core (h : Follows past made host n) (running : host.node.alive = true) : n.core = host.node.core := by
  rw [h.core, ← h.store running]

variable [Mempool.PayloadBincode]

theorem Follows.consensus (h : Follows past made host n) (channel : Channel) (message : ConsensusMessage) (env : Env) :
    Follows past made (host.step (.consensus channel message env)) (n.step (.deliver channel message env)) := by
  cases running : host.node.alive with
  | false =>
      have hosted : host.step (.consensus channel message env) = host := by
        show { host with node := host.node.step _ } = host
        unfold Node.step
        rw [running]
        rfl
      have stays : n.step (.deliver channel message env) = n := by
        unfold Node.step
        rw [h.alive, running]
        rfl
      rw [hosted, stays]
      exact h
  | true =>
      obtain ⟨rest, log, log'⟩ := h.log
      let b : Node := ⟨host.node.core, rest, true⟩
      have hosted : host.node = b.behind past := by
        show host.node = ⟨host.node.core, past ++ rest, true⟩
        rw [← log, ← running]
      have followed : n = b.behind (past ++ made) := by
        show n = ⟨host.node.core, past ++ made ++ rest, true⟩
        rw [← log', ← h.same_core running, ← running, ← h.alive]
      have next : (host.step (.consensus channel message env)).node = (b.step (.deliver channel message env)).behind past := by
        show host.node.step (.deliver channel message env) = _
        rw [hosted, Node.step_behind]
      have next' : n.step (.deliver channel message env) = (b.step (.deliver channel message env)).behind (past ++ made) := by
        rw [followed, Node.step_behind]
      rw [next']
      refine ⟨?_, ?_, fun _ => ?_, (b.step (.deliver channel message env)).log, ?_, rfl⟩
      · rw [next]
        rfl
      · unfold Host.store
        rw [next]
        rfl
      · unfold Host.store
        rw [next]
        rfl
      · rw [next]
        rfl

/-- What the mempool stores the node stores as well. -/
theorem Follows.mempool (h : Follows past made host n) {input : MempoolInput} {ps : List Payload}
    (stores : (host.mempool.step host.store input).2 = ps.foldl Mempool.file host.store) :
    Follows past made (host.step (.mempool input)) (n.run (ps.map .storePayload)) := by
  cases running : host.node.alive with
  | false =>
      have stays : n.run (ps.map .storePayload) = n := Node.run_dead (by rw [h.alive, running]) _
      rw [stays]
      refine ⟨h.alive, ?_, fun alive => ?_, h.log⟩
      · show { host.node.core with store := (host.mempool.step host.store input).2 } = _
        rw [h.core]
        rfl
      · have same : host.node.alive = true := alive
        rw [running] at same
        contradiction
  | true =>
      rw [Node.run_storePayloads (by rw [h.alive, running]), h.same_core running]
      refine ⟨h.alive, rfl, fun _ => ?_, h.log⟩
      show ps.foldl Mempool.file host.store = (host.mempool.step host.store input).2
      rw [stores]

end Host

variable [Mempool.PayloadBincode]

/-! ## Runs of the cluster -/

namespace Cluster
variable {cl : Cluster} {trace : HostTrace} {key : PublicKey}

/-- What runs keep of a host: its mempool signs with the key of the node. -/
structure Keyed (key : PublicKey) (host : Host) : Prop where
  stocked : ∃ ws, host.Stocked ws
  maker : host.mempool.maker.name = key
  made : ∀ p, .made p ∈ host.mempool.log → p = Payload.new p.transactions key

theorem Keyed.step {host : Host} (h : Keyed key host) (input : HostInput) : Keyed key (host.step input) := by
  obtain ⟨ws, stocked⟩ := h.stocked
  refine ⟨⟨_, stocked.step input⟩, ?_, fun p mem => ?_⟩
  · cases input with
    | consensus channel message env => exact h.maker
    | mempool input => exact (stocked.fulfils input).maker.trans h.maker
  · cases input with
    | consensus channel message env => exact h.made p mem
    | mempool input =>
        obtain ⟨more, log, sincere⟩ := (stocked.fulfils input).log
        have mem : .made p ∈ (host.mempool.step host.store input).1.log := mem
        rw [log] at mem
        rcases List.mem_append.mp mem with old | new
        · exact h.made p old
        · rw [← h.maker]
          exact (sincere _ new).made p rfl

theorem keyed (cl : Cluster) (trace : HostTrace) (key : PublicKey) : Keyed key (cl.hostAt trace key) := by
  induction trace with
  | nil =>
      have stocked := Host.stocked_fresh key (cl.system.ordered key) (cl.system.parameters key) Map.empty (cl.system.env key)
        key (cl.mempoolCommittee key) (cl.mempoolParameters key)
      exact ⟨⟨_, stocked⟩, rfl, fun p mem => absurd mem List.not_mem_nil⟩
  | cons step before ih =>
      unfold hostAt
      split
      · rename_i same
        subst same
        exact ih.step step.2
      · exact ih

theorem mempool_grows {before : HostTrace} (part : before <:+ trace) (key : PublicKey) :
    (cl.hostAt before key).mempool.log <+: (cl.hostAt trace key).mempool.log := by
  obtain ⟨later, rfl⟩ := part
  induction later with
  | nil => exact List.prefix_refl _
  | cons step rest ih =>
      apply ih.trans
      rw [List.cons_append]
      show _ <+: (if step.1 = key then _ else _ : Host).mempool.log
      split
      · exact Host.mempool_log _ [step.2]
      · exact List.prefix_refl _

/-- The payloads that the mempools make in the run, all of them signed before anything else. -/
def announced (cl : Cluster) (trace : HostTrace) : Trace :=
  cl.system.committee.keys.flatMap fun key =>
    (madePayloads (cl.hostAt trace key).mempool.log).map fun p => (key, .makePayload p.transactions)

omit [Crypto] [Bincode] [Mempool.PayloadBincode] in
theorem mem_madePayloads {l : List Mempool.Event} {p : Payload} : p ∈ madePayloads l ↔ .made p ∈ l := by
  constructor
  · intro mem
    obtain ⟨e, logged, found⟩ := List.mem_filterMap.mp mem
    split at found
    · obtain rfl := Option.some.inj found
      exact logged
    · contradiction
  · exact fun mem => List.mem_filterMap.mpr ⟨_, mem, rfl⟩

/-- Where the inputs of the system come from: a message that the host gets, and what its mempool stores or makes. -/
def Stems (cl : Cluster) (trace : HostTrace) : PublicKey × Input → Prop
  | (key, .deliver channel message env) => (key, .consensus channel message env) ∈ trace
  | (key, .storePayload p) => .stored p ∈ (cl.hostAt trace key).mempool.log
  | (key, .makePayload transactions) => .made (.new transactions key) ∈ (cl.hostAt trace key).mempool.log

theorem announced_stems {step : PublicKey × Input} (mem : step ∈ cl.announced trace) :
    (∃ transactions, step.2 = .makePayload transactions) ∧ cl.Stems trace step := by
  obtain ⟨key, -, entry⟩ := List.mem_flatMap.mp mem
  obtain ⟨p, made, rfl⟩ := List.mem_map.mp entry
  have made := mem_madePayloads.mp made
  have signed := (keyed cl trace key).made p made
  refine ⟨⟨p.transactions, rfl⟩, ?_⟩
  show Mempool.Event.made (.new p.transactions key) ∈ (cl.hostAt trace key).mempool.log
  rw [← signed]
  exact made

/-- What a host has signed its node has signed. -/
theorem released_mem {before : HostTrace} (part : before <:+ trace) (member : key ∈ cl.system.committee.keys) {made : List Event}
    (all : ∀ transactions, (key, .makePayload transactions) ∈ cl.announced trace → .signed (.payload (.new transactions key)) ∈ made)
    {past : List Event} {n : Node} (follows : Host.Follows past made (cl.hostAt before key) n) {bytes : List UInt8}
    (mem : bytes ∈ (cl.hostAt before key).released) : bytes ∈ released n.log := by
  obtain ⟨rest, log, log'⟩ := follows.log
  rw [log']
  unfold Host.released at mem
  unfold released at mem ⊢
  rw [log] at mem
  simp only [List.filterMap_append, List.mem_append] at mem ⊢
  rcases mem with (old | new) | own
  · exact .inl (.inl old)
  · exact .inr new
  · obtain ⟨p, made', rfl⟩ := List.mem_map.mp own
    have final : .made p ∈ (cl.hostAt trace key).mempool.log := (mempool_grows part key).subset (mem_madePayloads.mp made')
    have listed : (key, .makePayload p.transactions) ∈ cl.announced trace :=
      List.mem_flatMap.mpr ⟨key, member, List.mem_map.mpr ⟨p, mem_madePayloads.mpr final, rfl⟩⟩
    refine .inl (.inr (List.mem_filterMap.mpr ⟨_, all _ listed, ?_⟩))
    have signed := (keyed cl trace key).made p final
    rw [← signed]
    rfl

/-- The hosts of a run, and the nodes of the system that follow them. -/
structure Simulates (cl : Cluster) (trace before : HostTrace) (made : PublicKey → List Event) (t : Trace) : Prop where
  valid : cl.system.Valid t
  follows : ∀ key, Host.Follows (cl.system.start key).log (made key) (cl.hostAt before key) (cl.system.nodeAt t key)
  stems : ∀ step ∈ t, cl.Stems trace step

/-- What the nodes sign before anything else: payloads that the mempools make in the run, an honest node all of its own. -/
structure Presigns (cl : Cluster) (trace : HostTrace) (made : PublicKey → List Event) : Prop where
  each : ∀ key, ∀ e ∈ made key, ∃ p, e = .signed (.payload p) ∧ .made p ∈ (cl.hostAt trace key).mempool.log
  all : ∀ key, cl.system.Honest key → ∀ transactions, (key, .makePayload transactions) ∈ cl.announced trace →
    .signed (.payload (.new transactions key)) ∈ made key

/-- What is authentic in the cluster is so in the system. -/
theorem Simulates.authentic {before : HostTrace} {made : PublicKey → List Event} {t : Trace} (h : cl.Simulates trace before made t)
    (part : before <:+ trace) (presigns : cl.Presigns trace made) {claims : List SignatureClaim}
    (authentic : cl.Authentic before claims) : cl.system.Authentic t claims := by
  intro claim mem honest verified
  exact released_mem part honest.1 (presigns.all claim.key honest) (h.follows claim.key) (authentic claim mem honest verified)

/-- An input of a host is answered by its node. -/
theorem Simulates.step {before : HostTrace} {made : PublicKey → List Event} {t : Trace} {input : HostInput}
    (h : cl.Simulates trace before made t) (part : (key, input) :: before <:+ trace) (presigns : cl.Presigns trace made)
    (allowed : cl.Allowed before input) : ∃ t', cl.Simulates trace ((key, input) :: before) made t' := by
  have earlier : before <:+ trace := (List.suffix_cons _ _).trans part
  cases input with
  | consensus channel message env =>
      refine ⟨(key, .deliver channel message env) :: t, ⟨h.valid, h.authentic earlier presigns allowed⟩, fun name => ?_, fun step mem => ?_⟩
      · unfold hostAt System.nodeAt
        split
        · rename_i same
          subst same
          exact (h.follows key).consensus channel message env
        · exact h.follows name
      · rcases List.mem_cons.mp mem with rfl | old
        · exact part.subset List.mem_cons_self
        · exact h.stems step old
  | mempool input =>
      obtain ⟨ws, stocked⟩ := (keyed cl before key).stocked
      obtain ⟨ps, stores, stored⟩ := (stocked.fulfils input).store
      refine ⟨System.feed key (ps.map .storePayload) t, ?_, fun name => ?_, fun step mem => ?_⟩
      · apply System.valid_feed _ h.valid
        intro input mem
        obtain ⟨p, -, rfl⟩ := List.mem_map.mp mem
        trivial
      · by_cases same : key = name
        · subst same
          rw [System.nodeAt_feed, hostAt, if_pos rfl]
          exact (h.follows key).mempool stores
        · rw [System.nodeAt_feed_ne same, hostAt, if_neg same]
          exact h.follows name
      · rcases List.mem_append.mp mem with new | old
        · obtain ⟨input', mem', rfl⟩ := List.mem_map.mp (List.mem_reverse.mp new)
          obtain ⟨p, filed, rfl⟩ := List.mem_map.mp mem'
          have logged : .stored p ∈ (cl.hostAt ((key, .mempool input) :: before) key).mempool.log := by
            rw [hostAt, if_pos rfl]
            exact stored p filed
          exact (mempool_grows part key).subset logged
        · exact h.stems step old

/-- Where the nodes begin, with all payloads signed. -/
theorem simulates_start (started : ∀ key, cl.system.Honest key → (cl.system.start key).alive = true) (trace : HostTrace) :
    ∃ made, cl.Simulates trace [] made (cl.announced trace) ∧ cl.Presigns trace made := by
  have making (step : PublicKey × Input) (mem : step ∈ cl.announced trace) : ∃ transactions, step.2 = .makePayload transactions :=
    (announced_stems mem).1
  have nodes := @System.nodeAt_making _ _ cl.system _ making
  choose made nodes each all using nodes
  refine ⟨made, ⟨System.valid_making making, fun key => ?_, fun step mem => (announced_stems mem).2⟩,
    fun key e mem => ?_, fun key honest => all key (started key honest)⟩
  · rw [nodes key]
    exact ⟨rfl, rfl, fun _ => rfl, [], (List.append_nil _).symm, (List.append_nil _).symm⟩
  · obtain ⟨transactions, listed, rfl⟩ := each key e mem
    exact ⟨_, rfl, (announced_stems listed).2⟩

/-- Each run of the cluster is simulated by one of the system. -/
theorem simulated (started : ∀ key, cl.system.Honest key → (cl.system.start key).alive = true) (valid : cl.Valid trace) :
    ∃ made t, cl.Simulates trace trace made t ∧ cl.Presigns trace made := by
  obtain ⟨made, start, presigns⟩ := simulates_start started trace
  have along (before : HostTrace) (part : before <:+ trace) (valid : cl.Valid before) : ∃ t, cl.Simulates trace before made t := by
    induction before with
    | nil => exact ⟨_, start⟩
    | cons step before ih =>
        obtain ⟨t, simulates⟩ := ih ((List.suffix_cons _ _).trans part) valid.1
        exact simulates.step part presigns valid.2
  obtain ⟨t, simulates⟩ := along trace (List.suffix_refl _) valid
  exact ⟨made, t, simulates, presigns⟩

end Cluster
end
end HotstuffDag

/-! ## A block with a payload -/

namespace HotstuffDag.Sample
open Library

def leaderCluster : Cluster := ⟨leaderless, fun _ => mempoolCommittee, fun _ => ⟨100, 10000, 500⟩⟩

/-- A node gets the payload and then the block, and votes for it. -/
def leaderVote (n : Nat) : HostTrace :=
  [(key n, receives leaderBlock .accept), (key n, verifies leaderBlock), (key n, others leaderPayload)]

/-- The mempool of the second node makes a payload of its own first. -/
def leaderVotes : HostTrace :=
  leaderVote 4 ++ leaderVote 3 ++ leaderVote 2 ++ [(key 2, .mempool (.call (.get 500) mempoolEnv)), (key 2, .mempool (.client [5]))]

theorem leaderCluster_started : ∀ name, leaderless.Honest name → (leaderless.start name).alive = true := by
  have all : ∀ name ∈ four.keys, (leaderless.start name).alive = true := by decide +kernel
  exact fun name honest => all name honest.1

end HotstuffDag.Sample
