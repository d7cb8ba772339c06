import HotstuffDag.Proof.Frame
import HotstuffDag.Proof.Lasting
import HotstuffDag.Proof.Quorum
import HotstuffDag.Proof.Smooth
import HotstuffDag.Sample

/-! # Sums of heights

The heights that a node adds to come from certificates. A certificate leaves room for the sums if the quorum
behind it has not voted for a height at the end of the numbers. -/

namespace HotstuffDag
open Library Library.Exec

/-- The turn of the node on the message ends with a height that overflows. -/
def Node.overflows [Crypto] [Bincode] (n : Node) (channel : Channel) (message : ConsensusMessage) (env : Env) : Bool :=
  match Core.turn channel message ⟨n.core, Chain.new n.core.name, n.log, env⟩ with
  | .error (.overflow .height) _ => true
  | _ => false

/-- No sum of heights overflows, neither before the loop nor in a turn of a run on the inputs. -/
structure Core.SumsFit [Crypto] [Bincode] (core : Core) (env : Env) (inputs : List Input) : Prop where
  start : ∀ t, Core.start ⟨core, Chain.new core.name, [], env⟩ ≠ .error (.overflow .height) t
  turns : ∀ before channel message env', before ++ [.deliver channel message env'] <+: inputs →
    ((Node.start core env).run before).alive = true →
    ((Node.start core env).run before).overflows channel message env' = false

/-! ## Votes for far heights -/

/-- A maker has counted some of the voters, each of them once. -/
structure QCMaker.Counts (committee : Committee) (voters : Finset PublicKey) (maker : QCMaker) : Prop where
  nodup : maker.used.Nodup
  weight : maker.weight ≤ (maker.used.map committee.stake).sum
  among : ∀ a ∈ maker.used, a ∈ voters

namespace QCMaker
variable {committee : Committee} {voters : Finset PublicKey} {maker : QCMaker}

theorem Counts.new : Counts committee voters Maker.new :=
  ⟨List.nodup_nil, Nat.le_refl _, fun _ mem => absurd mem List.not_mem_nil⟩

theorem Counts.bound (h : Counts committee voters maker) : maker.weight ≤ Quorum.weight committee.stake voters := by
  have among : maker.used.toFinset ⊆ voters := fun a mem => h.among a (List.mem_toFinset.mp mem)
  calc maker.weight ≤ (maker.used.map committee.stake).sum := h.weight
    _ = Quorum.weight committee.stake maker.used.toFinset := (List.sum_toFinset committee.stake h.nodup).symm
    _ ≤ Quorum.weight committee.stake voters := Quorum.weight_mono among

/-- Light voters complete no certificate. -/
theorem Counts.append (h : Counts committee voters maker) {v : Vote} (voter : v.author ∈ voters)
    (light : Quorum.weight committee.stake voters < committee.quorumThreshold) :
    Counts committee voters (maker.append v committee).2 ∧ ∀ qc, (maker.append v committee).1 ≠ .ok (some qc) := by
  unfold QCMaker.append
  split
  · exact ⟨h, fun qc same => by contradiction⟩
  rename_i fresh
  have pushed : Counts committee voters
      (maker.push v.author (v.author, v.signature) (committee.stake v.author)) := by
    have weight := h.weight
    refine ⟨List.nodup_cons.mpr ⟨fresh, h.nodup⟩, ?_, fun a mem => ?_⟩
    · simp only [Maker.push, List.map_cons, List.sum_cons]
      omega
    · rcases List.mem_cons.mp mem with rfl | old
      · exact voter
      · exact h.among a old
  dsimp only
  split
  · rename_i heavy
    exact absurd (Nat.le_trans heavy pushed.bound) (Nat.not_le.mpr light)
  · exact ⟨pushed, fun qc same => by simp at same⟩

end QCMaker

/-! ## The heights of a chain -/

/-- All certificates that the chain knows leave room, and only the voters have voted for the other heights. -/
structure Chain.HasRoom (committee : Committee) (voters : SeqNumber → Finset PublicKey) (c : Chain) : Prop where
  height : c.height.toNat + 10 < 2 ^ 64
  high : SeqNumber.HasRoom c.highQc.height
  entries : ∀ h d, c.heightToDigest.get? h = some d → h.HasRoom
  makers : ∀ h maker, c.aggregator.votesAggregators.get? h = some maker →
    h.HasRoom ∨ QCMaker.Counts committee (voters h) maker

namespace Chain
variable {committee : Committee} {voters : SeqNumber → Finset PublicKey} {c : Chain}

theorem HasRoom.new (name : PublicKey) : (Chain.new name).HasRoom committee voters := by
  have first : UInt64.toNat 1 + 10 < 2 ^ 64 := by decide
  have genesis : QC.genesis.height.HasRoom := by decide
  refine ⟨first, genesis, fun h d found => ?_, fun h maker found => ?_⟩
  · simp [Chain.new] at found
  · simp [Chain.new, Aggregator.new] at found

theorem HasRoom.uncommitted (h : c.HasRoom committee voters) {c' : Chain} (same : c'.uncommitted = c.uncommitted) :
    c'.HasRoom committee voters := by
  refine ⟨?_, ?_, ?_, ?_⟩
  · rw [Chain.uncommitted_eq Chain.height (fun _ => rfl) same]
    exact h.height
  · rw [Chain.uncommitted_eq Chain.highQc (fun _ => rfl) same]
    exact h.high
  · rw [Chain.uncommitted_eq Chain.heightToDigest (fun _ => rfl) same]
    exact h.entries
  · rw [Chain.uncommitted_eq Chain.aggregator (fun _ => rfl) same]
    exact h.makers

theorem HasRoom.certify (h : c.HasRoom committee voters) {epoch : SeqNumber} {qc : QC} (room : SeqNumber.HasRoom qc.height) :
    (c.certify epoch qc).HasRoom committee voters := by
  obtain ⟨entries, high, -⟩ := certify_entries c epoch qc
  refine ⟨?_, ?_, fun at_ d found => ?_, fun at_ maker found => ?_⟩
  · have small : qc.height.toNat + 1 < 2 ^ 64 := by
      unfold SeqNumber.HasRoom at room
      omega
    unfold Chain.certify update advance
    split
    · exact h.height
    · dsimp only
      rw [toNat_succ small]
      unfold SeqNumber.HasRoom at room
      omega
  · rw [high]
    split
    · exact room
    · exact h.high
  · rw [entries, Map.get?_insert] at found
    split at found
    · rename_i same
      rw [← same]
      exact room
    · exact h.entries at_ d found
  · unfold Chain.certify update advance at found
    split at found
    · exact h.makers at_ maker found
    · exact h.makers at_ maker (Map.get?_of_retain found).2

theorem HasRoom.maker (h : c.HasRoom committee voters) {height : SeqNumber} (far : ¬ height.HasRoom) :
    QCMaker.Counts committee (voters height) (c.aggregator.votesAggregators.getD height Maker.new) := by
  unfold Map.getD
  cases found : c.aggregator.votesAggregators.get? height with
  | none => exact .new
  | some maker => exact (h.makers height maker found).resolve_left far

theorem HasRoom.countVote (h : c.HasRoom committee voters) {v : Vote} (voter : v.author ∈ voters v.height)
    (light : ¬ SeqNumber.HasRoom v.height → Quorum.weight committee.stake (voters v.height) < committee.quorumThreshold) :
    (c.countVote committee v).HasRoom committee voters := by
  refine ⟨h.height, h.high, h.entries, fun at_ maker found => ?_⟩
  unfold Chain.countVote Aggregator.addVote at found
  dsimp only at found
  rw [Map.get?_insert] at found
  split at found
  · rename_i same
    subst same
    by_cases room : SeqNumber.HasRoom v.height
    · exact .inl room
    · rw [← Option.some.inj found]
      exact .inr ((h.maker room).append voter (light room)).1
  · exact h.makers at_ maker found

theorem HasRoom.completed (h : c.HasRoom committee voters) {v : Vote} {qc : QC} (voter : v.author ∈ voters v.height)
    (light : ¬ SeqNumber.HasRoom v.height → Quorum.weight committee.stake (voters v.height) < committee.quorumThreshold)
    (complete : (c.aggregator.addVote v committee).1 = .ok (some qc)) : SeqNumber.HasRoom qc.height := by
  rw [(Aggregator.addVote_some complete).2]
  by_contra far
  exact ((h.maker far).append voter (light far)).2 qc complete

theorem HasRoom.restart (h : c.HasRoom committee voters) {output : SeqNumber} {digest : Digest}
    (certified : c.heightToDigest.get? output = some digest) : (c.restart output).HasRoom committee voters := by
  have room : output.toNat + 20 < 2 ^ 64 := h.entries output digest certified
  have small : output.toNat + 10 < 2 ^ 64 := by omega
  refine ⟨?_, ?_, fun at_ d found => h.entries at_ d (Map.get?_of_retain found).2, h.makers⟩
  · rw [(toNat_restart small).1]
    omega
  · have genesis : QC.genesis.height.HasRoom := by decide
    exact genesis

end Chain

/-! ## What a node keeps -/

/-- Everything that the state holds leaves room. -/
structure State.HasRoom [Bincode] (name : PublicKey) (committee : Committee) (voters : SeqNumber → Finset PublicKey) (s : State) :
    Prop where
  named : s.core.name = name
  keys : s.core.committee = committee
  chain : s.chain.HasRoom committee voters
  stored : ∀ key c, s.core.pubkeyToChain.get? key = some c → c.HasRoom committee voters
  blocks : ∀ d value b, s.core.store.get? d = some value → Synchronizer.decodeBlock value = .ok b →
    b.height.toNat + 1 < 2 ^ 64

/-- All but heights that overflow. -/
def Exn.Fitting (e : Exn) : Prop := e ≠ .overflow .height

instance : Lenient Exn.Fitting :=
  ⟨fun _ => by simp [Exn.Fitting], by simp [Exn.Fitting], fun _ other => by simp [Exn.Fitting, other]⟩

theorem Exn.fitting_panic : Exn.Fitting .panic := by simp [Exn.Fitting]

instance [Bincode] {K : State → Prop} : Readable Exn.Fitting K := .of_panic Exn.fitting_panic

section
variable {name : PublicKey} {committee : Committee} {voters : SeqNumber → Finset PublicKey} {s t : State}

instance [Bincode] : Deaf (State.HasRoom name committee voters) :=
  ⟨fun _ h => ⟨h.named, h.keys, h.chain, h.stored, h.blocks⟩, fun _ _ h => ⟨h.named, h.keys, h.chain, h.stored, h.blocks⟩⟩

namespace State.HasRoom

/-- What the handler does to its chain is all that counts. -/
theorem withChain [Bincode] (h : s.HasRoom name committee voters) {c : Chain} (room : c.HasRoom committee voters) :
    State.HasRoom name committee voters { s with chain := c } :=
  ⟨h.named, h.keys, room, h.stored, h.blocks⟩

theorem withCore [Bincode] (h : s.HasRoom name committee voters) {k : Core} (named : k.name = s.core.name)
    (keys : k.committee = s.core.committee) (chains : k.pubkeyToChain = s.core.pubkeyToChain)
    (store : k.store = s.core.store) : State.HasRoom name committee voters { s with core := k } := by
  refine ⟨named.trans h.named, keys.trans h.keys, h.chain, ?_, ?_⟩
  · dsimp only
    rw [chains]
    exact h.stored
  · dsimp only
    rw [store]
    exact h.blocks

theorem hold [Crypto] [Bincode] (h : s.HasRoom name committee voters) {b : Block} (room : b.HasRoom) :
    State.HasRoom name committee voters { s with core := s.core.hold b } := by
  refine ⟨h.named, h.keys, h.chain, h.stored, fun d value b' stored decodes => ?_⟩
  rcases stored_insert stored decodes with ⟨-, rfl⟩ | old
  · exact room.height
  · exact h.blocks d value b' old decodes

theorem fetched [Bincode] (h : s.HasRoom name committee voters) {digest : Digest} {b : Block}
    (found : Synchronizer.fetch s.core.store digest = some b) : b.height.toNat + 1 < 2 ^ 64 := by
  unfold Synchronizer.fetch at found
  split at found
  · obtain rfl := Option.some.inj found
    decide
  · obtain ⟨value, stored, decodes⟩ := Option.bind_eq_some_iff.mp found
    cases read : Synchronizer.decodeBlock value with
    | ok b' =>
        rw [read] at decodes
        obtain rfl := Option.some.inj decodes
        exact h.blocks digest value b' stored read
    | error e =>
        rw [read] at decodes
        contradiction

theorem framed [Bincode] (h : s.HasRoom name committee voters) (frame : CommitFrame s t) : t.HasRoom name committee voters := by
  refine ⟨?_, ?_, h.chain.uncommitted frame.chain, fun key c found => ?_, ?_⟩
  · rw [frame.core_eq Core.name fun _ _ => rfl]
    exact h.named
  · rw [frame.core_eq Core.committee fun _ _ => rfl]
    exact h.keys
  · have same := frame.chains key
    rw [found, Option.map_some] at same
    obtain ⟨c₀, found₀, same₀⟩ := Option.map_eq_some_iff.mp same.symm
    exact (h.stored key c₀ found₀).uncommitted same₀.symm
  · rw [frame.core_eq Core.store fun _ _ => rfl]
    exact h.blocks

theorem evolves [Crypto] [Bincode] {got : ConsensusMessage → Prop} (h : s.HasRoom name committee voters) (reach : AbaEvolves got s t) :
    t.HasRoom name committee voters := by
  have frame := reach.frame
  have core := h.withCore frame.name frame.committee frame.pubkeyToChain frame.store
  refine ⟨core.named, core.keys, ?_, core.stored, core.blocks⟩
  rw [reach.1]
  exact h.chain

end State.HasRoom

/-! ## No handler overflows -/

namespace Core
variable {E : Exn → Prop} [Lenient E]

/-- A commit adds up no heights but those of its own steps. -/
theorem calm_commitReferences_any [Bincode] [Readable E fun _ => True] (panics : E .panic)
    {recurse : Block → List Block → M (Bool × List Block)}
    (calm : ∀ block toCommit, Calm E (fun _ => True) (recurse block toCommit)) (references : List (PublicKey × Digest))
    (toCommit : List Block) : Calm E (fun _ => True) (commitReferences recurse references toCommit) := by
  induction references generalizing toCommit with
  | nil => exact calm_pure _
  | cons r rest ih =>
      unfold commitReferences
      refine calm_bind calm_getCore fun core => calm_bind (calm_getBlock _ _ _) fun option => ?_
      cases option with
      | none => exact calm_pure _
      | some block =>
          refine calm_bind calm_getCore fun core => calm_bind (calm_unwrap (.inl panics)) fun target s _ => ?_
          refine ends_withChain (calm block toCommit _ trivial) (fun _ _ h => h) fun (done, toCommit') t _ => ?_
          have rest : Calm E (fun _ => True) (do
              modifyCore fun c => { c with pubkeyToChain := c.pubkeyToChain.insert block.author t.chain }
              commitReferences recurse rest toCommit') := calm_bind (calm_setCore _) fun _ => ih _
          exact calm_ite rest (calm_pure _) _ trivial

theorem calm_commitPrevBlock_any [Bincode] [Readable E fun _ => True] (panics : E .panic) (fuel : Nat) (block : Block)
    (toCommit : List Block) :
    Calm E (fun _ => True) (commitPrevBlock fuel block toCommit) := by
  induction fuel generalizing block toCommit with
  | zero => exact calm_outOfFuel
  | succ fuel ih =>
      unfold commitPrevBlock
      refine calm_bind calm_getChain fun chain => calm_ite (calm_pure _) ?_
      split
      · exact calm_pure _
      · refine calm_bind calm_getCore fun core => calm_bind (calm_getBlock _ _ _) fun option => ?_
        cases option with
        | none => exact calm_pure _
        | some _ =>
            refine calm_bind (calm_getBlock _ _ _) fun option => calm_bind (calm_unwrap (.inl panics)) fun current => ?_
            have referred : Calm E (fun _ => True) (commitReferencesOf (commitPrevBlock fuel) current toCommit) :=
              calm_bind calm_getCore fun core => calm_ite (calm_commitReferences_any panics ih _ _) (calm_pure _)
            refine calm_bind referred fun (done, toCommit') => calm_ite ?_ (calm_pure _)
            exact calm_bind (calm_modifyChain fun _ _ => trivial) fun _ => ih _ _

theorem calm_commit_any [Bincode] [Readable E fun _ => True] (panics : E .panic) (fuel : Nat) (block : Block) :
    Calm E (fun _ => True) (commit fuel block) := by
  unfold commit
  refine calm_bind calm_get fun s => calm_bind (calm_setLog _) fun _ => ?_
  exact calm_bind (calm_commitPrevBlock_any panics fuel block []) fun (_, toCommit) => calm_deliver _

end Core

/-- Light voters for the far heights keep all heights in bounds. -/
theorem lasting_room [Crypto] [Bincode] (own : ∀ height, name ∈ voters height)
    (light : ∀ height : SeqNumber, ¬ height.HasRoom → Quorum.weight committee.stake (voters height) < committee.quorumThreshold) :
    Lasting Exn.Fitting (State.HasRoom name committee voters) Block.HasRoom (fun v => v.author ∈ voters v.height)
      (fun qc => SeqNumber.HasRoom qc.height) where
  next := fun room => room.qc
  after := fun room => .inr (by unfold SeqNumber.HasRoom at room; omega)
  grandparent := fun h found => .inr (h.fetched found)
  ahead := fun h => .inr h.chain.height
  output := fun h certified => .inr (by
    have room : _ + 20 < 2 ^ 64 := h.chain.entries _ _ certified
    omega)
  high := fun h => h.chain.high
  own := fun h _ => by
    have named := h.named
    rw [named]
    exact own _
  proposal := fun {s qc} payload h high => by
    have height := h.chain.height
    refine ⟨?_, ?_⟩
    · change s.chain.height.toNat + 1 < 2 ^ 64
      omega
    · change SeqNumber.HasRoom qc.height
      rcases high with rfl | rfl
      · decide
      · exact h.chain.high
  hold := fun h room => h.hold room
  certify := fun h room _ => h.withChain (h.chain.certify room)
  lockVote := fun _ h => h.withChain ⟨h.chain.height, h.chain.high, h.chain.entries, h.chain.makers⟩
  countVote := fun h voter => by
    rw [h.keys]
    exact h.withChain (h.chain.countVote voter (light _))
  completed := fun h voter complete => by
    rw [h.keys] at complete
    exact h.chain.completed voter (light _) complete
  countTimeout := fun _ h => h.withChain ⟨h.chain.height, h.chain.high, h.chain.entries, h.chain.makers⟩
  keepTc := fun _ h => h.withCore rfl rfl rfl rfl
  viewChange := fun h => h.withCore rfl rfl rfl rfl
  commit := fun fuel b => (Core.calm_commit_any Exn.fitting_panic fuel b).along (Core.leads_commit fuel b) fun frame h => h.framed frame
  restart := fun h certified _ _ => (h.withChain (h.chain.restart certified)).withCore rfl rfl rfl rfl

theorem resident_room [Bincode] : Resident Exn.Fitting (State.HasRoom name committee voters) where
  panic := Exn.fitting_panic
  fresh := fun h => h.withChain (.new _)
  load := fun h found => h.withChain (h.stored _ _ found)
  save := fun {s} key h => by
    refine ⟨h.named, h.keys, h.chain, fun other c found => ?_, h.blocks⟩
    rw [Map.get?_insert] at found
    split at found
    · rw [← Option.some.inj found]
      exact h.chain
    · exact h.stored other c found

theorem calm_of_smooth {E : Exn → Prop} {x : M Unit} (smooth : ∀ s, Smooth E x s) : Calm E (fun _ => True) x :=
  fun s _ => (smooth s).weaken (fun _ _ _ => trivial) fun _ _ h => ⟨h, trivial⟩

/-- What leaves the chains alone and adds up no heights. -/
theorem calm_room [Crypto] [Bincode] {x : M Unit} (smooth : ∀ s, Smooth Exn.Fitting x s)
    (reach : ∀ s, Leads (AbaEvolves fun _ => True) x s (fun _ _ => True)) :
    Calm Exn.Fitting (State.HasRoom name committee voters) x :=
  (calm_of_smooth smooth).along reach fun reached h => h.evolves reached

theorem Input.HasRoom.among [Crypto] [Bincode] {inputs : List Input} {input : Input} (room : input.HasRoom committee)
    (mem : input ∈ inputs) :
    input.Among Exn.Fitting (State.HasRoom name committee (HotstuffDag.voters committee name inputs)) Block.HasRoom
      (fun v => v.author ∈ HotstuffDag.voters committee name inputs v.height) (fun qc => SeqNumber.HasRoom qc.height) := by
  cases input with
  | makePayload transactions => trivial
  | storePayload payload =>
      intro s h
      refine ⟨h.named, h.keys, h.chain, h.stored, fun d value b stored decodes => ?_⟩
      rcases stored_insert_payload stored decodes with read | old
      · exact room b read
      · exact h.blocks d value b old decodes
  | deliver channel message env =>
      cases message with
      | propose b | syncReply b =>
          intro s h verified
          rw [h.keys] at verified
          exact room verified
      | loopBack b => exact room
      | timeout timeout =>
          intro s h verified
          rw [h.keys] at verified
          exact room verified
      | vote v =>
          intro s h verified
          rw [h.keys] at verified
          refine Finset.mem_insert_of_mem (List.mem_toFinset.mpr (List.mem_filterMap.mpr ⟨_, mem, ?_⟩))
          unfold Input.voter
          dsimp only
          rw [verified]
          exact if_pos rfl
      | abaVal v =>
          exact calm_room (fun s => (Core.calm_handleAbaVal v).smooth trivial) fun s =>
            (Core.leads_handleAbaVal (.inl trivial)).weaken fun _ _ _ _ => trivial
      | abaProof proof =>
          exact calm_room (fun s => (Core.calm_handleAbaProof proof).smooth trivial) fun s =>
            Core.leads_handleAbaProof trivial
      | abaCoinShare share =>
          exact calm_room (fun s => (Core.calm_handleCoinShare share).smooth trivial) fun s =>
            Core.leads_handleCoinShare (.inl trivial)
      | syncRequest | tc => trivial

/-- In a run in which no certificate, and no quorum of votes, is for a height at the end of the numbers, no
sum of heights overflows. -/
theorem sums_fit [Crypto] [Bincode] (name : PublicKey) (committee : Committee) (parameters : Parameters) (store : Store) (env : Env)
    (inputs : List Input) (roomy : RoomyRun name committee store inputs) :
    (Core.new name committee parameters store).SumsFit env inputs := by
  have lasting : Lasting Exn.Fitting (State.HasRoom name committee (HotstuffDag.voters committee name inputs)) Block.HasRoom
      (fun v => v.author ∈ HotstuffDag.voters committee name inputs v.height) fun qc => SeqNumber.HasRoom qc.height :=
    lasting_room (fun _ => Finset.mem_insert_self _ _) roomy.votes
  have phase : Calm Exn.Fitting (State.HasRoom name committee (HotstuffDag.voters committee name inputs)) Core.updatePhase :=
    calm_room (fun s => Core.calm_updatePhase.smooth trivial) fun s => Core.leads_updatePhase.weaken fun _ _ _ _ => trivial
  have stages : Calm Exn.Fitting (State.HasRoom name committee (HotstuffDag.voters committee name inputs)) Core.processAbaPhase :=
    calm_room (fun s => Core.smooth_processAbaPhase (.inl Exn.fitting_panic)) fun s => Core.leads_processAbaPhase
  have first : Node.Keeps (State.HasRoom name committee (HotstuffDag.voters committee name inputs))
      ⟨Core.new name committee parameters store, [], true⟩ := by
    intro env
    refine ⟨rfl, rfl, .new _, fun key c found => ?_, roomy.stored⟩
    rw [Core.new_chains] at found
    split at found
    · rw [← Option.some.inj found]
      exact .new key
    · contradiction
  have begin := lasting.start resident_room
  refine ⟨fun t exit => first.fails begin exit rfl, fun before channel message env' prior _ => ?_⟩
  have among (input : Input) (mem : input ∈ inputs) :
      input.Among Exn.Fitting (State.HasRoom name committee (HotstuffDag.voters committee name inputs)) Block.HasRoom
        (fun v => v.author ∈ HotstuffDag.voters committee name inputs v.height) fun qc => SeqNumber.HasRoom qc.height :=
    (roomy.received input mem).among mem
  have earlier : ∀ input ∈ before, input ∈ inputs := fun input mem => prior.subset (List.mem_append_left _ mem)
  have kept := lasting.run resident_room phase stages (fun input mem => among input (earlier input mem))
    (resident_room.exec begin first env)
  have turn := lasting.turn resident_room phase stages channel
    (among _ (prior.subset (List.mem_append_right _ List.mem_cons_self)))
  unfold Node.overflows
  split
  · rename_i t exit
    exact absurd rfl (kept.fails turn exit)
  · rfl

end

namespace Sample

/-- The faulty authority proposes at the last height, and then shows the certificate for its block. -/
def lastBlock : Block := Block.new QC.genesis (key 4) 18446744073709551615 0 [] []

def overLast : Block := Block.new (certify lastBlock [1, 2, 4]) (key 4) 1 0 [] []

def lastVoted : Trace := [(key 2, propose lastBlock), (key 1, propose lastBlock)]

/-- Two honest nodes vote for the block on the genesis, and its certificate stops them. -/
theorem last_height_overflows :
    system.Tolerant ∧ system.Honest (key 2) ∧ system.Valid ((key 2, propose overLast) :: lastVoted) ∧
      (system.nodeAt lastVoted (key 2)).overflows .core (.propose overLast) env = true ∧
      ¬ (core 2).SumsFit env [propose lastBlock, propose overLast] := by
  have overflows : ((start 2).run [propose lastBlock]).overflows .core (.propose overLast) env = true := by decide +kernel
  refine ⟨by decide, by decide, by decide +kernel, by decide +kernel, fun fit => ?_⟩
  have quiet := fit.turns [propose lastBlock] .core (.propose overLast) env (List.prefix_refl _) (by decide +kernel)
  exact absurd (overflows.symm.trans quiet) (by decide)

/-- The chains of the first and the fourth authority grow, and the own block is certified. -/
def growing : List Input :=
  [propose far, propose farther, propose (firstBlock 1), voteFor (firstBlock 2) 1, voteFor (firstBlock 2) 3]

theorem growing_fits : (core 2).SumsFit env growing :=
  sums_fit (key 2) four ⟨500⟩ Map.empty env growing (roomyRun_of (by decide +kernel) (by decide))

end Sample
end HotstuffDag
