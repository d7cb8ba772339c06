import HotstuffDag.Proof.Availability
import HotstuffDag.Proof.Events
import HotstuffDag.Proof.LoopBacks

/-! # Which blocks are processed

A proposal is processed when its checks pass and its payload is there. A block that is held up for its
payload or for its parent is processed when it is looped back, with no check of its own. -/

namespace HotstuffDag
open Library

section
variable [Crypto] [Bincode]

/-- Every processed block is the node's own, or has passed `Block::verify` with its payload accepted. -/
def OnlyVerified (committee : Committee) (l : List Event) : Prop :=
  ∀ b, Event.process b ∈ l →
    Event.signed (.block b) ∈ l ∨ b.verify committee = .ok () ∧ Event.payloadStatus b .accept ∈ l

/-- How a processed block was come by: the node has made it itself, or has checked it, and the mempool has
not rejected its payload, or it was read from what others have stored. -/
inductive Vetted (committee : Committee) (foreign : Block → Prop) (l : List Event) (b : Block) : Prop
  | signed (own : Event.signed (.block b) ∈ l)
  | verified {status : PayloadStatus} (passed : b.verify committee = .ok ())
      (answered : Event.payloadStatus b status ∈ l) (kept : status ≠ .reject)
  | stored (read : foreign b)

/-- What is kept in every run: whatever may still come to `process_block` is vetted. -/
structure Vetting (committee : Committee) (foreign : Block → Prop) (k : Core) (l : List Event) : Prop where
  same : k.committee = committee
  statuses : ∀ b status, Event.payloadStatus b status ∈ l → b.verify committee = .ok ()
  processed : ∀ b, Event.process b ∈ l → Vetted committee foreign l b
  requested : ∀ author digest b, Event.request author digest (some b) ∈ l → Vetted committee foreign l b
  store : ∀ d value b, k.store.get? d = some value → Synchronizer.decodeBlock value = .ok b →
    Vetted committee foreign l b

variable {committee : Committee} {foreign : Block → Prop} {l l' : List Event} {b : Block}

omit [Bincode] in
theorem Vetted.mono (h : Vetted committee foreign l b) (le : l <+: l') : Vetted committee foreign l' b := by
  cases h with
  | signed own => exact .signed (le.subset own)
  | verified passed answered kept => exact .verified passed (le.subset answered) kept
  | stored read => exact .stored read

/-! ## Acts -/

section
variable {got : ConsensusMessage → Prop} {s s' : Conf}

/-- A block goes with a request when it, or the block above it, has been processed; the genesis, whose parent is there, never. -/
theorem Act.requested (act : Act got s s') {author : PublicKey} {digest : Digest}
    (h : Event.request author digest (some b) ∈ s'.log) :
    Event.request author digest (some b) ∈ s.log ∨ Event.process b ∈ s.log ∨
      ∃ b' value, Event.process b' ∈ s.log ∧ s.core.store.get? b'.parent = some value ∧ Synchronizer.decodeBlock value = .ok b := by
  cases act with
  | aba act => exact .inl ((act.events h).resolve_right id)
  | @commit fuel env k c l _ _ =>
      exact .inl (((Core.commit_frame fuel _ ⟨k, c, l, env⟩).events h).resolve_right id)
  | request proper missing why =>
      rcases List.mem_append.mp h with old | new
      · exact .inl old
      · obtain ⟨-, -, same⟩ := Event.request.inj (List.mem_singleton.mp new)
        obtain ⟨parent, processed | ⟨b', processed, ⟨-, rfl⟩ | ⟨value, stored, decodes⟩⟩⟩ := why b same.symm
        · exact .inr (.inl processed)
        · exact absurd parent.symm proper
        · exact .inr (.inr ⟨b', value, processed, stored, decodes⟩)
  | countVote =>
      refine .inl ((List.mem_append.mp h).resolve_right fun new => ?_)
      unfold Core.assembledEvents at new
      split at new <;> simp at new
  | countTimeout =>
      refine .inl ((List.mem_append.mp h).resolve_right fun new => ?_)
      unfold Core.savedTcs at new
      split at new <;> simp at new
  | certify | lockVote => exact .inl h
  | _ => exact .inl (by simpa using h)

theorem Vetting.origin (h : Vetting committee foreign s.core s.log)
    (returned : ∀ b, got (.loopBack b) → Vetted committee foreign s.log b) (why : Origin got s.core s.chain s.log b) :
    Vetted committee foreign s.log b := by
  cases why with
  | own signed => exact .signed signed
  | proposal _ _ verified accepted => exact .verified (h.same ▸ verified) accepted (by decide)
  | loopBack msg => exact returned b msg

theorem Vetting.act (act : Act got s s') (returned : ∀ b, got (.loopBack b) → Vetted committee foreign s.log b)
    (h : Vetting committee foreign s.core s.log) : Vetting committee foreign s'.core s'.log where
  same := act.frame.committee.trans h.same
  statuses := by
    intro b status mem
    rcases act.reason mem with old | reason
    · exact h.statuses b status old
    · cases reason with
      | aba about => exact about.elim
      | commit about => exact about.elim
      | status _ _ verified => exact h.same ▸ verified
  processed := by
    intro b mem
    apply Vetted.mono _ act.frame.log
    rcases act.reason mem with old | reason
    · exact h.processed b old
    · cases reason with
      | aba about => exact about.elim
      | commit about => exact about.elim
      | process why => exact h.origin returned why
  requested := by
    intro author digest b mem
    apply Vetted.mono _ act.frame.log
    rcases act.requested mem with old | processed | ⟨b', value, -, stored, decodes⟩
    · exact h.requested author digest b old
    · exact h.processed b processed
    · exact h.store b'.parent value b stored decodes
  store := by
    intro d value b stored decodes
    apply Vetted.mono _ act.frame.log
    rcases act.store with same | ⟨b', why, -, held⟩
    · rw [same] at stored
      exact h.store d value b stored decodes
    · rw [held] at stored
      rcases stored_insert stored decodes with ⟨-, rfl⟩ | old
      · exact h.origin returned why
      · exact h.store d value b old decodes

end

/-! ## Inputs -/

/-- The block was handed over to the task that loops it back: with a request for its parent, or to the
mempool, which has answered that it waits. -/
def Node.HandedOver (node : Node) (b : Block) : Prop :=
  (∃ author digest, Event.request author digest (some b) ∈ node.log) ∨ Event.payloadStatus b .wait ∈ node.log

/-- A block that is looped back is one that the node has handed over. -/
def Node.Returns (node : Node) : Input → Prop
  | .deliver .core (.loopBack b) _ => node.HandedOver b
  | _ => True

/-- What the tasks of a node loop back has been handed over, when only the node calls `get_block` and `verify`. -/
theorem handedOver_of_sent [Mempool.PayloadBincode] {node : Node} {host : Host} (waiting : host.mempool.Holds)
    (name : PublicKey) (committee : Committee) (store : Store) (delay : Nat) (inputs : List SyncInput)
    (hostInputs : List HostInput)
    (asked : ∀ input ∈ inputs, ∀ b, SyncTask.Gives input b → ∃ author digest, Event.request author digest (some b) ∈ node.log)
    (answered : ∀ b, .status b .wait ∈ (host.run hostInputs).mempool.log → Event.payloadStatus b .wait ∈ node.log)
    (sent : .loopBack b ∈ ((SyncTask.new name committee store delay).run inputs).log ∨
      .loopBack b ∈ (host.run hostInputs).mempool.log) : node.HandedOver b := by
  rcases sent with sync | mempool
  · left
    have empty : (SyncTask.new name committee store delay).Holds
        fun b => ∃ author digest, Event.request author digest (some b) ∈ node.log := by
      constructor <;> simp [SyncTask.new]
    rcases empty.run asked sync with early | given
    · cases early
    · exact given
  · right
    apply answered
    exact (Host.holds_run waiting hostInputs).sent b mempool

def Node.AllReturned (node : Node) : List Input → Prop
  | [] => True
  | input :: rest => node.Returns input ∧ (node.step input).AllReturned rest

/-- The block is read in what the database held at first, or in a payload that the mempool has stored. -/
def StoredByOthers (first : Store) (inputs : List Input) (b : Block) : Prop :=
  (∃ d value, first.get? d = some value ∧ Synchronizer.decodeBlock value = .ok b) ∨
    ∃ payload, Input.storePayload payload ∈ inputs ∧ Bincode.blockOfPayload payload = some b

/-- Seen from a log at which all that is looped back later is vetted. -/
theorem vettingInvariant {ok : Input → Prop} {before : List Event}
    (returned : ∀ b, Received ok (.loopBack b) → Vetted committee foreign before b)
    (payloads : ∀ p, ok (.storePayload p) → ∀ b, Bincode.blockOfPayload p = some b → foreign b) :
    Invariant ok fun _ k l => before <+: l ∧ Vetting committee foreign k l where
  act := by
    rintro s s' - act ⟨le, h⟩
    exact ⟨le.trans act.frame.log, h.act act fun b msg => (returned b msg).mono le⟩
  blind := fun _ _ ⟨le, h⟩ => ⟨le, h.same, h.statuses, h.processed, h.requested, h.store⟩
  makePayload := by
    rintro v k l transactions ⟨le, h⟩
    have longer : l <+: l ++ [.signed (.payload (.new transactions k.name))] := List.prefix_append _ _
    refine ⟨le.trans longer, h.same, fun b status mem => ?_, fun b mem => ?_, fun author digest b mem => ?_, ?_⟩
    · exact h.statuses b status (by simpa using mem)
    · exact (h.processed b (by simpa using mem)).mono longer
    · exact (h.requested author digest b (by simpa using mem)).mono longer
    · exact fun d value b stored decodes => (h.store d value b stored decodes).mono longer
  storePayload := by
    rintro v k l payload allowed ⟨le, h⟩
    refine ⟨le, h.same, h.statuses, h.processed, h.requested, fun d value b stored decodes => ?_⟩
    rcases stored_insert_payload stored decodes with read | old
    · exact .stored (payloads payload allowed b read)
    · exact h.store d value b old decodes

namespace Node
variable {node : Node} {inputs : List Input} {input : Input}

/-- The channel of the agreement does not expect blocks. -/
theorem step_unexpected (b : Block) (env : Env) :
    node.step (.deliver .smvba (.loopBack b) env) = ⟨node.core, node.log, false⟩ := by
  unfold step
  cases alive : node.alive with
  | false =>
      rw [if_neg (by simp), ← alive]
  | true =>
      rw [if_pos rfl]
      exact exec_error (e := .panic) rfl

abbrev Vets (node : Node) (committee : Committee) (foreign : Block → Prop) : Prop :=
  node.Sound fun _ k l => Vetting committee foreign k l

theorem vets_of_sound {before : List Event} (h : node.Sound fun _ k l => before <+: l ∧ Vetting committee foreign k l) :
    node.Vets committee foreign := by
  obtain ⟨closed, v, -, vetting⟩ := h
  refine ⟨fun alive => ?_, v, vetting⟩
  obtain ⟨names, own, -, holds⟩ := closed alive
  exact ⟨names, own, holds⟩

theorem vets_start (name : PublicKey) (committee : Committee) (parameters : Parameters) (first : Store) (env : Env)
    (read : ∀ d value b, first.get? d = some value → Synchronizer.decodeBlock value = .ok b → foreign b) :
    (start (.new name committee parameters first) env).Vets committee foreign := by
  have inv : Invariant (fun _ => False) fun _ k l => [] <+: l ∧ Vetting committee foreign k l :=
    vettingInvariant (fun _ ⟨_, _, never⟩ => never.elim) fun _ never => never.elim
  apply vets_of_sound (inv.init ⟨List.nil_prefix, rfl, ?_, ?_, ?_, ?_⟩)
  · intro b status mem
    cases mem
  · intro b mem
    cases mem
  · intro author digest b mem
    cases mem
  · exact fun d value b stored decodes => .stored (read d value b stored decodes)

theorem HandedOver.vetted (h : node.HandedOver b) (vets : node.Vets committee foreign) :
    Vetted committee foreign node.log b := by
  obtain ⟨-, vetting⟩ := vets.2
  rcases h with ⟨author, digest, requested⟩ | waits
  · exact vetting.requested author digest b requested
  · exact .verified (vetting.statuses b .wait waits) waits (by decide)

theorem Vets.step (vets : node.Vets committee foreign) (returns : node.Returns input)
    (payloads : ∀ p, input = .storePayload p → ∀ b, Bincode.blockOfPayload p = some b → foreign b) :
    (node.step input).Vets committee foreign := by
  by_cases unexpected : ∃ b env, input = .deliver .smvba (.loopBack b) env
  · obtain ⟨b, env, rfl⟩ := unexpected
    rw [step_unexpected]
    exact ⟨fun alive => absurd alive Bool.false_ne_true, vets.2⟩
  · have returned : ∀ b, Received (fun i => i = input) (.loopBack b) → Vetted committee foreign node.log b := by
      rintro b ⟨channel, env, same⟩
      subst same
      cases channel with
      | core => exact HandedOver.vetted returns vets
      | smvba => exact absurd ⟨b, env, rfl⟩ unexpected
    have here : node.Sound fun _ k l => node.log <+: l ∧ Vetting committee foreign k l := by
      obtain ⟨closed, v, open_⟩ := vets
      refine ⟨fun alive => ?_, v, List.prefix_refl _, open_⟩
      obtain ⟨names, own, holds⟩ := closed alive
      exact ⟨names, own, List.prefix_refl _, holds⟩
    have inv := vettingInvariant returned fun p same => payloads p same.symm
    exact vets_of_sound (inv.step rfl here)

theorem Vets.run (vets : node.Vets committee foreign) (returned : node.AllReturned inputs)
    (payloads : ∀ p, .storePayload p ∈ inputs → ∀ b, Bincode.blockOfPayload p = some b → foreign b) :
    (node.run inputs).Vets committee foreign := by
  induction inputs generalizing node with
  | nil => exact vets
  | cons input rest ih =>
      obtain ⟨returns, returned⟩ := returned
      have next := vets.step returns fun p same => payloads p (by rw [same]; exact List.mem_cons_self)
      exact ih next returned fun p mem => payloads p (List.mem_cons_of_mem _ mem)

/-- In a run in which the node is handed back only what it has handed over, every processed block is vetted. -/
theorem processed_blocks (name : PublicKey) (committee : Committee) (parameters : Parameters) (first : Store) (env : Env)
    (inputs : List Input) (returned : (start (.new name committee parameters first) env).AllReturned inputs) :
    ∀ b, Event.process b ∈ ((start (.new name committee parameters first) env).run inputs).log →
      Vetted committee (StoredByOthers first inputs) ((start (.new name committee parameters first) env).run inputs).log b := by
  have begun : (start (.new name committee parameters first) env).Vets committee (StoredByOthers first inputs) :=
    vets_start name committee parameters first env fun d value b stored decodes => .inl ⟨d, value, stored, decodes⟩
  obtain ⟨-, vetting⟩ := (begun.run returned fun p mem b read => .inr ⟨p, mem, read⟩).2
  exact vetting.processed

end Node
end
end HotstuffDag

namespace HotstuffDag.Sample
open Library

def loopBack (block : Block) : Input := .deliver .core (.loopBack block) env

/-- A proposal that waits for its payload, and the payload. -/
def resumedBlock : List Input :=
  [.deliver .core (.propose supplied) { env with status := .wait }, .storePayload (.new [[3]] (key 2)), loopBack supplied]

/-- Nobody has signed this block. -/
def unsignedBlock : Block := { firstBlock 2 with signature := ⟨0, 0⟩ }

theorem unverified_processed :
    ¬ OnlyVerified four ((start 1).run resumedBlock).log ∧ ¬ OnlyVerified four ((start 1).run [loopBack unsignedBlock]).log := by
  refine ⟨fun only => ?_, fun only => ?_⟩
  · have processed : Event.process supplied ∈ ((start 1).run resumedBlock).log := by decide +kernel
    have other : Event.signed (.block supplied) ∉ ((start 1).run resumedBlock).log := by decide +kernel
    have waits : Event.payloadStatus supplied .accept ∉ ((start 1).run resumedBlock).log := by decide +kernel
    rcases only supplied processed with own | ⟨-, accepted⟩
    · exact other own
    · exact waits accepted
  · have processed : Event.process unsignedBlock ∈ ((start 1).run [loopBack unsignedBlock]).log := by decide +kernel
    have other : Event.signed (.block unsignedBlock) ∉ ((start 1).run [loopBack unsignedBlock]).log := by decide +kernel
    have unsigned : unsignedBlock.verify four ≠ .ok () := by decide +kernel
    rcases only unsignedBlock processed with own | ⟨passed, -⟩
    · exact other own
    · exact unsigned passed

/-- The block that has waited is vetted when it is looped back. -/
theorem resumed_vetted : Event.process supplied ∈ ((start 1).run resumedBlock).log ∧
    Vetted four (StoredByOthers Map.empty resumedBlock) ((start 1).run resumedBlock).log supplied := by
  have processed : Event.process supplied ∈ ((start 1).run resumedBlock).log := by decide +kernel
  have waits : Event.payloadStatus supplied .wait ∈
      (((start 1).step (.deliver .core (.propose supplied) { env with status := .wait })).step
        (.storePayload (.new [[3]] (key 2)))).log := by
    decide +kernel
  refine ⟨processed, Node.processed_blocks (key 1) four ⟨500⟩ Map.empty env resumedBlock ?_ supplied processed⟩
  exact ⟨trivial, trivial, .inr waits, trivial⟩

end HotstuffDag.Sample
