import HotstuffDag.Proof.Isolation
import HotstuffDag.Proof.PayloadQueues
import HotstuffDag.Proof.ProcessedBlocks

/-! # What the answers of a mempool say

The mempool answers for keys of the shared store: with the payloads for a proposal, with the word that a block may be
processed, and with a block that has waited. -/

namespace HotstuffDag.Mempool
open Library Library.Exec

/-- The keys that an answer says are in the store. -/
def Event.promises : Event → List Digest
  | .payloads digests => digests
  | .status block .accept => block.payload
  | .loopBack block => block.payload
  | _ => []

section
variable [Crypto]

/-- A payload is stored under its digest. -/
def file (store : Store) (p : Payload) : Store := store.insert p.digest (.payload p)

theorem contains_file (ps : List Payload) {store : Store} {d : Digest} (mem : store.contains d = true) :
    (ps.foldl file store).contains d = true := by
  induction ps generalizing store with
  | nil => exact mem
  | cons p rest ih =>
      apply ih
      unfold file
      rw [Map.contains_insert, mem, Bool.or_true]

/-- What the event promises is filed, and a payload that is made is signed by its maker. -/
structure Event.Sincere (name : PublicKey) (store : Store) (e : Event) : Prop where
  filed : ∀ d ∈ e.promises, store.contains d = true
  made : ∀ p, e = .made p → p = Payload.new p.transactions name

/-- How the core goes on: it files the payloads that it says it stores, and it is sincere. -/
structure Vouches (s s' : State) : Prop where
  store : ∃ ps : List Payload, s'.store = ps.foldl file s.store ∧ ∀ p ∈ ps, .stored p ∈ s'.log
  maker : s'.maker.name = s.maker.name
  log : ∃ more, s'.log = s.log ++ more ∧ ∀ e ∈ more, e.Sincere s.maker.name s'.store

variable {s s' : State} {α β : Type} {Q : β → State → Prop}

theorem Vouches.kept (h : Vouches s s') {d : Digest} (mem : s.store.contains d = true) : s'.store.contains d = true := by
  obtain ⟨ps, store, -⟩ := h.store
  rw [store]
  exact contains_file ps mem

theorem Vouches.silent (store : s'.store = s.store) (maker : s'.maker.name = s.maker.name) (log : s'.log = s.log) : Vouches s s' :=
  ⟨⟨[], store, fun _ mem => absurd mem List.not_mem_nil⟩, maker, [], by rw [log, List.append_nil],
    fun _ mem => absurd mem List.not_mem_nil⟩

instance : Std.Refl Vouches := ⟨fun _ => .silent rfl rfl rfl⟩

instance : IsTrans State Vouches where
  trans s s' s'' h h' := by
    obtain ⟨ps, store, stored⟩ := h.store
    obtain ⟨more, log, each⟩ := h.log
    obtain ⟨ps', store', stored'⟩ := h'.store
    obtain ⟨more', log', each'⟩ := h'.log
    constructor
    · refine ⟨ps ++ ps', by rw [store', store, List.foldl_append], fun p mem => ?_⟩
      rcases List.mem_append.mp mem with old | new
      · rw [log']
        exact List.mem_append_left _ (stored p old)
      · exact stored' p new
    · exact h'.maker.trans h.maker
    · refine ⟨more ++ more', by rw [log', log, List.append_assoc], fun e mem => ?_⟩
      rcases List.mem_append.mp mem with old | new
      · exact ⟨fun d promised => h'.kept ((each e old).filed d promised), (each e old).made⟩
      · rw [← h.maker]
        exact each' e new

theorem Reads.vouches (h : Reads s s') : Vouches s s' := .silent h.store (by rw [h.maker]) h.log

theorem Vouches.emit {e : Event} (sincere : e.Sincere s.maker.name s.store) : Vouches s { s with log := s.log ++ [e] } :=
  ⟨⟨[], rfl, fun _ mem => absurd mem List.not_mem_nil⟩, rfl, [e], rfl, fun _ mem => List.mem_singleton.mp mem ▸ sincere⟩

theorem vouches_emit {e : Event} (filed : ∀ d ∈ e.promises, s.store.contains d = true) (other : ∀ p, e ≠ .made p := by simp) :
    Vouches s { s with log := s.log ++ [e] } :=
  .emit ⟨filed, fun p same => absurd same (other p)⟩

/-! ## Handlers -/

theorem vouched_emit {e : Event} (filed : ∀ d ∈ e.promises, s.store.contains d = true) (other : ∀ p, e ≠ .made p := by simp) :
    Leads Vouches (emit e) s fun _ _ => True :=
  ⟨vouches_emit filed other, trivial⟩

theorem vouched_transmit (message : MempoolMessage) (dest : Option PublicKey) :
    Leads Vouches (transmit message dest) s fun _ _ => True := by
  unfold transmit
  apply Leads.get
  cases dest with
  | none => exact vouched_emit (by simp [Event.promises])
  | some name =>
      dsimp only
      cases s.core.committee.mempoolAddress name with
      | ok address => exact vouched_emit (by simp [Event.promises])
      | error e => exact Leads.throw

theorem vouched_storePayload (p : Payload) :
    Leads Vouches (Core.storePayload p.digest p) s fun _ t => t.store.contains p.digest = true := by
  refine ⟨⟨⟨[p], rfl, ?_⟩, rfl, [.stored p], rfl, ?_⟩, ?_⟩
  · intro p' mem
    rw [List.mem_singleton.mp mem]
    exact List.mem_append_right _ List.mem_cons_self
  · intro e mem
    obtain rfl := List.mem_singleton.mp mem
    exact ⟨fun d promised => absurd promised List.not_mem_nil, fun p' same => by contradiction⟩
  · show (s.store.insert p.digest (.payload p)).contains p.digest = true
    rw [Map.contains_insert]
    simp

theorem vouched_processOwnPayload (p : Payload) :
    Leads Vouches (Core.processOwnPayload p.digest p) s fun _ t => t.store.contains p.digest = true := by
  unfold Core.processOwnPayload
  apply Leads.get
  apply leads_ensure
  intro _
  apply Leads.bind (vouched_storePayload p)
  intro _ t _ filed
  exact (vouched_transmit _ _).weaken fun _ _ reach _ => reach.kept filed

variable [PayloadBincode]

theorem vouched_handleMessage (message : MempoolMessage) : Leads Vouches (Core.handleMessage message) s fun _ _ => True := by
  have queue (g : Core → Core) (s : State) : Leads Vouches (modifyCore g) s fun _ _ => True := ⟨.silent rfl rfl rfl, trivial⟩
  cases message with
  | ownPayload p =>
      show Leads Vouches (Core.handleOwnPayload p) s _
      unfold Core.handleOwnPayload
      apply Leads.get
      apply leads_ensure
      intro _
      exact Leads.bind (vouched_processOwnPayload p) fun _ _ _ _ => queue _ _
  | payload p =>
      show Leads Vouches (Core.handleOthersPayload p) s _
      unfold Core.handleOthersPayload
      refine Leads.get (leads_ensure fun _ => leads_ensure fun _ => leads_ensure fun _ => ?_)
      exact Leads.bind (vouched_storePayload p) fun _ _ _ _ => queue _ _
  | payloadRequest digests sender =>
      show Leads Vouches (Core.handleRequest digests sender) s _
      induction digests generalizing s with
      | nil => exact Leads.pure trivial
      | cons digest rest ih =>
          unfold Core.handleRequest
          apply Leads.bind ((leads_read digest).mono fun _ reads => reads.vouches)
          intro value t _ _
          cases value with
          | none => exact ih
          | some value =>
              apply Leads.bind ((leads_decodePayload value).mono fun _ reads => reads.vouches)
              intro payload t _ _
              exact Leads.bind (vouched_transmit _ _) fun _ _ _ _ => ih

section
omit [PayloadBincode]

/-- What `Get` answers is in the store, if the queues are. -/
theorem vouched_getPayload (queued : ∀ d, s.core.queued d → s.store.contains d = true) (max : Nat) :
    Leads Vouches (Core.getPayload max) s fun digests t => ∀ d ∈ digests, t.store.contains d = true := by
  unfold Core.getPayload
  refine Leads.get (Leads.ite (fun _ => ?_) fun busy => ?_)
  · have made : Leads Vouches Core.makePayload s fun _ _ => True := by
      unfold Core.makePayload
      refine Leads.get (Leads.modify (.silent rfl rfl rfl) (Leads.modify (.emit ⟨by simp [Event.promises], ?_⟩) (Leads.pure trivial)))
      intro p same
      obtain rfl := Event.made.inj same
      rfl
    apply Leads.bind made
    intro answer t _ _
    cases answer with
    | none => exact Leads.pure (by simp)
    | some p =>
        apply Leads.bind (vouched_processOwnPayload p)
        intro _ t' _ filed
        refine Leads.pure fun d mem => ?_
        rw [List.mem_singleton.mp mem]
        exact filed
  · refine Leads.modify (.silent rfl rfl rfl) (Leads.modify (.silent rfl rfl rfl) (Leads.pure fun d mem => ?_))
    apply queued
    rcases List.mem_append.mp mem with opt | pes
    · split at opt
      · exact absurd opt List.not_mem_nil
      · exact .inl (HashSet.mem_of_mem_take _ _ opt)
    · exact .inr (HashSet.mem_of_mem_take _ _ pes)

theorem vouched_verifyPayload (block : Block) : Leads Vouches (Core.verifyPayload block) s fun present t =>
    present = true → ∀ d ∈ block.payload, t.store.contains d = true := by
  unfold Core.verifyPayload
  apply Leads.bind ((leads_missingDigests _ _).mono fun _ reads => reads.vouches)
  intro missing t reach found
  refine Leads.ite (fun none => Leads.pure fun _ d mem => ?_) fun _ => ?_
  · have empty : missing.items = [] := List.isEmpty_iff.mp none
    refine reach.kept (found.2 d mem fun absent => ?_)
    have present : d ∈ missing.items := absent
    rw [empty] at present
    exact absurd present List.not_mem_nil
  · exact Leads.modify (vouches_emit (by simp [Event.promises])) (Leads.pure fun wrong => by contradiction)

theorem vouched_attempt {x : M α} {P : α → State → Prop} (h : Leads Vouches x s P) :
    Leads Vouches (Core.attempt x) s fun result t => ∀ a, result = .ok a → P a t := by
  unfold Leads at h ⊢
  unfold Core.attempt
  cases exit : x s with
  | ok a t =>
      rw [exit] at h
      refine ⟨h.1, fun a' same => ?_⟩
      obtain rfl := Except.ok.inj same
      exact h.2
  | error e t =>
      rw [exit] at h
      cases e with
      | error e => exact ⟨h, fun a same => by contradiction⟩
      | panic => exact h

theorem vouched_handleConsensus (queued : ∀ d, s.core.queued d → s.store.contains d = true)
    (message : ConsensusMempoolMessage) : Leads Vouches (Core.handleConsensus message) s fun _ _ => True := by
  unfold Core.handleConsensus
  cases message with
  | get max =>
      apply Leads.bind (vouched_attempt (vouched_getPayload queued max))
      intro result t _ filed
      cases result with
      | ok digests => exact vouched_emit (filed digests rfl)
      | error e => exact vouched_emit (by simp [Event.promises])
  | verify block =>
      apply Leads.bind (vouched_attempt (vouched_verifyPayload block))
      intro result t _ filed
      cases result with
      | ok present =>
          cases present with
          | true => exact vouched_emit (filed true rfl rfl)
          | false => exact vouched_emit (by simp [Event.promises, Core.statusOf])
      | error e => exact vouched_emit (by simp [Event.promises, Core.statusOf])
  | cleanup digests round =>
      unfold Core.cleanup
      exact Leads.modify (vouches_emit (by simp [Event.promises])) ⟨.silent rfl rfl rfl, trivial⟩

end
end

/-! ## Steps -/

section
variable [Crypto] {m m' : HotstuffDag.Mempool} {store store' : Store}

/-- A step of the mempool files the payloads that it says it stores, and it is sincere. -/
structure Fulfils (m : HotstuffDag.Mempool) (store : Store) (m' : HotstuffDag.Mempool) (store' : Store) : Prop where
  store : ∃ ps : List Payload, store' = ps.foldl file store ∧ ∀ p ∈ ps, .stored p ∈ m'.log
  maker : m'.maker.name = m.maker.name
  log : ∃ more, m'.log = m.log ++ more ∧ ∀ e ∈ more, e.Sincere m.maker.name store'

theorem Fulfils.silent (maker : m'.maker = m.maker) (log : m'.log = m.log) : Fulfils m store m' store :=
  ⟨⟨[], rfl, fun _ mem => absurd mem List.not_mem_nil⟩, by rw [maker], [], by rw [log, List.append_nil],
    fun _ mem => absurd mem List.not_mem_nil⟩

theorem Fulfils.emit {e : Event} (maker : m'.maker.name = m.maker.name) (log : m'.log = m.log ++ [e])
    (sincere : e.Sincere m.maker.name store) : Fulfils m store m' store :=
  ⟨⟨[], rfl, fun _ mem => absurd mem List.not_mem_nil⟩, maker, [e], log, fun _ mem => List.mem_singleton.mp mem ▸ sincere⟩

theorem Fulfils.transmit {message : MempoolMessage} {addresses : List SocketAddr} (maker : m'.maker = m.maker)
    (log : m'.log = m.log ++ [.transmit message addresses]) : Fulfils m store m' store :=
  .emit (by rw [maker]) log ⟨by simp [Event.promises], by simp⟩

theorem fulfils_exec {env : Env} {cause : Option Block} {x : M Unit} {Q : Unit → State → Prop}
    (h : Leads Vouches x (m.state store env) Q) : Fulfils m store (m.exec store env cause x).1 (m.exec store env cause x).2 := by
  rcases exec_cases (m := m) store env cause x with same | ⟨-, same⟩
  · rw [same]
    exact .silent rfl rfl
  · rw [same]
    exact ⟨h.final.store, h.final.maker, h.final.log⟩

theorem fulfils_sync (missing : List Digest) (block : Block) (now : Nat) : Fulfils m store (m.sync missing block now) store := by
  unfold sync
  dsimp only
  split
  · exact .silent rfl rfl
  · split
    · exact .silent rfl rfl
    · unfold sendRequest
      split
      · exact .transmit rfl rfl
      · exact .silent rfl rfl

/-- A block is sent back when all that it has missed has been read. -/
theorem fulfils_task (waits : ∀ w ∈ m.synchronizer.waiting, Covered store w.missing w.block) (input : MempoolInput) :
    Fulfils m store (m.task store input) store := by
  cases input with
  | inner now =>
      unfold task
      cases queue : m.inner with
      | nil => exact .silent rfl rfl
      | cons entry rest =>
          obtain ⟨message, cause⟩ := entry
          cases message with
          | sync missing block =>
              have asked : Fulfils { m with inner := rest } store _ store := fulfils_sync missing block now
              exact ⟨asked.store, asked.maker, asked.log⟩
          | clean round => exact .silent rfl rfl
  | finish id =>
      unfold task
      dsimp only
      split
      · exact .silent rfl rfl
      · rename_i w found
        split
        · rename_i present
          refine .emit rfl rfl ⟨fun d promised => ?_, by simp⟩
          rcases waits w (List.mem_of_find?_eq_some found) d promised with missed | there
          · exact List.all_eq_true.mp present d missed
          · exact there
        · exact .silent rfl rfl
  | cancel id =>
      unfold task
      dsimp only
      split
      · exact .silent rfl rfl
      · split <;> exact .silent rfl rfl
  | fail id => exact .silent rfl rfl
  | tick now =>
      unfold task
      dsimp only
      split
      · exact .silent rfl rfl
      · exact .transmit rfl rfl
  | client tx | own env | network message env | call call env => exact .silent rfl rfl

variable [PayloadBincode]

theorem step_fulfils (queued : ∀ d, m.core.queued d → store.contains d = true)
    (waits : ∀ w ∈ m.synchronizer.waiting, Covered store w.missing w.block) (input : MempoolInput) :
    Fulfils m store (m.step store input).1 (m.step store input).2 := by
  have tasks : Fulfils m store (if m.synchronizer.alive then m.task store input else m) store := by
    split
    · exact fulfils_task waits input
    · exact .silent rfl rfl
  cases input with
  | client tx =>
      show Fulfils m store (m.client tx) store
      unfold client
      split
      · rename_i payload maker added
        have made : payload = Payload.new payload.transactions m.maker.name ∧ maker.name = m.maker.name := by
          unfold Runner.add at added
          split at added
          · obtain ⟨same, rfl⟩ := Prod.mk.inj added
            obtain rfl := Option.some.inj same
            exact ⟨rfl, rfl⟩
          · simp at added
        refine .emit made.2 rfl ⟨by simp [Event.promises], fun p same => ?_⟩
        obtain rfl := Event.made.inj same
        exact made.1
      · rename_i maker added
        have named : maker.name = m.maker.name := by
          unfold Runner.add at added
          split at added
          · simp at added
          · obtain ⟨-, rfl⟩ := Prod.mk.inj added
            rfl
        exact ⟨⟨[], rfl, fun _ mem => absurd mem List.not_mem_nil⟩, named, [], by rw [List.append_nil],
          fun _ mem => absurd mem List.not_mem_nil⟩
  | own env =>
      unfold HotstuffDag.Mempool.step
      dsimp only
      split
      · exact .silent rfl rfl
      · rename_i payload rest _
        let popped : HotstuffDag.Mempool := { m with own := rest }
        have handled : Fulfils popped store (popped.exec store env none (Core.handleMessage (.ownPayload payload))).1
            (popped.exec store env none (Core.handleMessage (.ownPayload payload))).2 :=
          fulfils_exec (vouched_handleMessage _)
        exact ⟨handled.store, handled.maker, handled.log⟩
  | network message env => exact fulfils_exec (vouched_handleMessage message)
  | call call env => exact fulfils_exec (vouched_handleConsensus queued call.message)
  | inner now | finish id | cancel id | fail id | tick now => exact tasks

end
end HotstuffDag.Mempool

/-! ## Runs of a host -/

namespace HotstuffDag
open Library
variable [Crypto] [Bincode] [Mempool.PayloadBincode]

namespace Host
variable {host : Host} {ws : List Mempool.Waiter}

/-- All that the mempool has promised is in the store. -/
def Keeps (host : Host) : Prop := ∀ e ∈ host.mempool.log, ∀ d ∈ e.promises, host.store.contains d = true

/-- What every run keeps of the queues, of the waiting blocks and of the answers. -/
structure Stocked (host : Host) (ws : List Mempool.Waiter) : Prop where
  followed : host.Followed ws
  backed : host.Backed
  keeps : host.Keeps

omit [Bincode] in
theorem Stocked.fulfils (h : host.Stocked ws) (input : MempoolInput) :
    Mempool.Fulfils host.mempool host.store (host.mempool.step host.store input).1 (host.mempool.step host.store input).2 :=
  Mempool.step_fulfils h.backed.stored (fun w mem => h.followed.tracked.covered w (h.followed.tracked.waiting w mem)) input

theorem Stocked.step (h : host.Stocked ws) (input : HostInput) :
    (host.step input).Stocked (ws ++ (host.step input).mempool.synchronizer.waiting) := by
  have kept := h.followed.steady.kept input
  refine ⟨h.followed.step input, h.backed.step input, fun e mem d promised => ?_⟩
  cases input with
  | consensus channel message env => exact kept d (h.keeps e mem d promised)
  | mempool input =>
      obtain ⟨more, log, sincere⟩ := (h.fulfils input).log
      have mem : e ∈ (host.mempool.step host.store input).1.log := mem
      rw [log] at mem
      rcases List.mem_append.mp mem with old | new
      · exact kept d (h.keeps e old d promised)
      · exact (sincere e new).filed d promised

theorem Stocked.run (h : host.Stocked ws) (inputs : List HostInput) : ∃ ws, (host.run inputs).Stocked ws := by
  induction inputs generalizing host ws with
  | nil => exact ⟨ws, h⟩
  | cons input rest ih => exact ih (h.step input)

theorem Stocked.kept (h : host.Stocked ws) (inputs : List HostInput) :
    ∀ d, host.store.contains d = true → (host.run inputs).store.contains d = true := by
  induction inputs generalizing host ws with
  | nil => exact fun _ mem => mem
  | cons input rest ih => exact fun d mem => ih (h.step input) d (h.followed.steady.kept input d mem)

theorem Steady.log (h : host.Steady) (input : HostInput) : host.node.log <+: (host.step input).node.log := by
  cases input with
  | mempool input => exact List.prefix_refl _
  | consensus channel message env =>
      have sound : host.node.Sound fun _ _ l => host.node.log <+: l :=
        ⟨fun alive => ⟨(h.1 alive).names, (h.1 alive).own, List.prefix_refl _⟩, h.2.imp fun _ _ => List.prefix_refl _⟩
      have inv : Invariant (fun _ => True) fun _ _ l => host.node.log <+: l := System.prefixInvariant _
      have next : (host.node.step (.deliver channel message env)).Sound _ := inv.step trivial sound
      obtain ⟨_, grown⟩ := next.2
      exact grown

theorem Stocked.log (h : host.Stocked ws) (inputs : List HostInput) : host.node.log <+: (host.run inputs).node.log := by
  induction inputs generalizing host ws with
  | nil => exact List.prefix_refl _
  | cons input rest ih => exact (h.followed.steady.log input).trans (ih (h.step input))

section
variable (name : PublicKey) (committee : Committee) (parameters : Parameters) (first : Store) (env : Env)
  (mempoolName : PublicKey) (mempoolCommittee : Mempool.Committee) (mempoolParameters : Mempool.Parameters)

theorem stocked_fresh : (fresh name committee parameters first env mempoolName mempoolCommittee mempoolParameters).Stocked
    ((fresh name committee parameters first env mempoolName mempoolCommittee mempoolParameters).waited []) := by
  have followed : (fresh name committee parameters first env mempoolName mempoolCommittee mempoolParameters).Followed
      ((fresh name committee parameters first env mempoolName mempoolCommittee mempoolParameters).waited []) := followed_run []
  refine ⟨followed, ⟨followed.steady, fun d mem => ?_⟩, fun e mem => absurd mem List.not_mem_nil⟩
  rcases mem with opt | pes
  · exact absurd opt List.not_mem_nil
  · exact absurd pes List.not_mem_nil

/-- In every run, whatever the mempool answers for is in the store: the payloads for a proposal, those of a block that it
lets pass, and those of a block that it hands back. -/
theorem answers_kept (inputs : List HostInput) :
    ∀ e ∈ ((fresh name committee parameters first env mempoolName mempoolCommittee mempoolParameters).run inputs).mempool.log,
      ∀ d ∈ e.promises,
        ((fresh name committee parameters first env mempoolName mempoolCommittee mempoolParameters).run inputs).store.contains d =
          true := by
  obtain ⟨_, stocked⟩ := (stocked_fresh name committee parameters first env mempoolName mempoolCommittee mempoolParameters).run inputs
  exact stocked.keeps

end
end Host

/-! ## The payloads of processed blocks -/

section
variable {P : Block → Prop} {got : ConsensusMessage → Prop} {s s' : Conf}

/-- Every block that has been processed, or can still come to be, is provided for. -/
structure Provided (P : Block → Prop) (k : Core) (l : List Event) : Prop where
  processed : ∀ b, Event.process b ∈ l → P b
  requested : ∀ author digest b, Event.request author digest (some b) ∈ l → P b
  store : ∀ d value b, k.store.get? d = some value → Synchronizer.decodeBlock value = .ok b → P b

omit [Bincode] [Mempool.PayloadBincode] in
theorem Provided.origin (own : ∀ b, Event.signed (.block b) ∈ s.log → P b)
    (accepted : ∀ b, Event.payloadStatus b .accept ∈ s.log → P b) (returned : ∀ b, got (.loopBack b) → P b) {b : Block}
    (why : Origin got s.core s.chain s.log b) : P b := by
  cases why with
  | own signed => exact own b signed
  | proposal _ _ _ passed => exact accepted b passed
  | loopBack msg => exact returned b msg

omit [Mempool.PayloadBincode] in
theorem Provided.act (act : Act got s s') (own : ∀ b, Event.signed (.block b) ∈ s.log → P b)
    (accepted : ∀ b, Event.payloadStatus b .accept ∈ s.log → P b) (returned : ∀ b, got (.loopBack b) → P b)
    (h : Provided P s.core s.log) : Provided P s'.core s'.log := by
  constructor
  · intro b mem
    rcases act.reason mem with old | reason
    · exact h.processed b old
    · cases reason with
      | aba about => exact about.elim
      | commit about => exact about.elim
      | process why => exact Provided.origin own accepted returned why
  · intro author digest b mem
    rcases act.requested mem with old | processed | ⟨b', value, -, stored, decodes⟩
    · exact h.requested author digest b old
    · exact h.processed b processed
    · exact h.store b'.parent value b stored decodes
  · intro d value b stored decodes
    rcases act.store with same | ⟨b', why, -, held⟩
    · rw [same] at stored
      exact h.store d value b stored decodes
    · rw [held] at stored
      rcases stored_insert stored decodes with ⟨-, rfl⟩ | old
      · exact Provided.origin own accepted returned why
      · exact h.store d value b old decodes

end

namespace Host
variable {host : Host} {ws : List Mempool.Waiter}

/-- A block that is looped back comes from the mempool, or from the synchronizer to which the core has given it. -/
def Returns (host : Host) : HostInput → Prop
  | .consensus .core (.loopBack b) _ =>
      .loopBack b ∈ host.mempool.log ∨ ∃ author digest, Event.request author digest (some b) ∈ host.node.log
  | _ => True

def AllReturned (host : Host) : List HostInput → Prop
  | [] => True
  | input :: rest => host.Returns input ∧ (host.step input).AllReturned rest

theorem AllReturned.snoc {inputs : List HostInput} {input : HostInput} (h : host.AllReturned inputs)
    (last : (host.run inputs).Returns input) : host.AllReturned (inputs ++ [input]) := by
  induction inputs generalizing host with
  | nil => exact ⟨last, trivial⟩
  | cons first rest ih => exact ⟨h.1, ih h.2 last⟩

theorem AllReturned.of_quiet {inputs : List HostInput}
    (quiet : ∀ input ∈ inputs, ∀ b env, input ≠ .consensus .core (.loopBack b) env) : host.AllReturned inputs := by
  induction inputs generalizing host with
  | nil => trivial
  | cons first rest ih =>
      refine ⟨?_, ih fun input mem => quiet input (List.mem_cons_of_mem _ mem)⟩
      unfold Returns
      split
      · exact absurd rfl (quiet _ List.mem_cons_self _ _)
      · trivial

/-- The answers that the core has got are those that the mempool has given, and no payload reads as a block. -/
structure Answered (host : Host) : Prop where
  given : ∀ b, Event.signed (.block b) ∈ host.node.log → b.payload = [] ∨ .payloads b.payload ∈ host.mempool.log
  accepted : ∀ b, Event.payloadStatus b .accept ∈ host.node.log → .status b .accept ∈ host.mempool.log
  unread : ∀ p, .stored p ∈ host.mempool.log → Bincode.blockOfPayload p = none

/-- The keys of a block's payload are in the store. -/
def Present (host : Host) (b : Block) : Prop := ∀ d ∈ b.payload, host.store.contains d = true

/-- As long as the log does not outgrow that of a later host, the blocks are provided for there. -/
def Provides (later : Host) (host : Host) : Prop :=
  host.node.Sound fun _ k l => l <+: later.node.log → Provided later.Present k l

section
omit [Crypto] [Mempool.PayloadBincode]

theorem Answered.own {later : Host} (answered : later.Answered) (keeps : later.Keeps) {b : Block}
    (signed : Event.signed (.block b) ∈ later.node.log) : later.Present b := by
  intro d mem
  rcases answered.given b signed with empty | given
  · rw [empty] at mem
    exact absurd mem List.not_mem_nil
  · exact keeps _ given d mem

theorem Answered.passed {later : Host} (answered : later.Answered) (keeps : later.Keeps) {b : Block}
    (accepted : Event.payloadStatus b .accept ∈ later.node.log) : later.Present b :=
  keeps _ (answered.accepted b accepted)

end

omit [Mempool.PayloadBincode] in
theorem provided_invariant {later : Host} (answered : later.Answered) (keeps : later.Keeps) {ok : Input → Prop}
    (returned : ∀ b, Received ok (.loopBack b) → later.Present b)
    (deliveries : ∀ p, ¬ ok (.storePayload p)) :
    Invariant ok fun _ k l => l <+: later.node.log → Provided later.Present k l where
  act := by
    intro s s' _ act h le
    have before := act.frame.log.trans le
    apply Provided.act act
    · exact fun b signed => answered.own keeps (before.subset signed)
    · exact fun b accepted => answered.passed keeps (before.subset accepted)
    · exact returned
    · exact h before
  blind := fun _ _ h le => ⟨(h le).processed, (h le).requested, (h le).store⟩
  makePayload := by
    intro v k l transactions h le
    have provided := h ((List.prefix_append _ _).trans le)
    refine ⟨fun b mem => provided.processed b (by simpa using mem), fun author digest b mem => ?_, provided.store⟩
    exact provided.requested author digest b (by simpa using mem)
  storePayload := fun p allowed => absurd allowed (deliveries p)

theorem Provides.mempool {later : Host} (answered : later.Answered) (h : later.Provides host) (input : MempoolInput)
    (log : (host.mempool.step host.store input).1.log <+: later.mempool.log) : later.Provides (host.step (.mempool input)) := by
  have evolves := (Mempool.step_grows (m := host.mempool) host.store input).evolves ⟨[], 0, 0, .listed, .listed⟩
  have stored {k : Core} (same : k.store = host.store) (holds : host.node.log <+: later.node.log → Provided later.Present k host.node.log) :
      host.node.log <+: later.node.log →
        Provided later.Present { k with store := (host.mempool.step host.store input).2 } host.node.log := by
    intro le
    refine ⟨(holds le).processed, (holds le).requested, fun d value b found decodes => ?_⟩
    rcases evolves.written d value found with old | ⟨p, rfl, -, filed⟩
    · exact (holds le).store d value b (by rw [same]; exact old) decodes
    · have none := answered.unread p (log.subset filed)
      rw [Synchronizer.decodeBlock_payload decodes] at none
      contradiction
  refine ⟨fun alive => ?_, host.node.core.pubkeyToChain.get?, ?_⟩
  · have closed := h.1 alive
    exact ⟨closed.names, closed.own, stored rfl closed.holds⟩
  · obtain ⟨-, holds⟩ := h.2
    exact stored rfl holds

/-- The node is handed back only what is provided for. -/
theorem Provides.consensus {later : Host} (answered : later.Answered) (keeps : later.Keeps) (h : later.Provides host)
    {channel : Channel} {message : ConsensusMessage} {env : Env}
    (returned : ∀ b, message = .loopBack b → channel = .core → later.Present b) :
    later.Provides (host.step (.consensus channel message env)) := by
  by_cases unexpected : ∃ b, message = .loopBack b ∧ channel = .smvba
  · obtain ⟨b, rfl, rfl⟩ := unexpected
    show (host.node.step (.deliver .smvba (.loopBack b) env)).Sound _
    rw [Node.step_unexpected]
    exact ⟨fun alive => absurd alive Bool.false_ne_true, h.2⟩
  · have inv : Invariant (fun i => i = .deliver channel message env) fun _ k l =>
        l <+: later.node.log → Provided later.Present k l := by
      apply provided_invariant answered keeps
      · rintro b ⟨channel', env', same⟩
        obtain ⟨rfl, rfl, rfl⟩ := Input.deliver.inj same
        apply returned b rfl
        cases channel' with
        | core => rfl
        | smvba => exact absurd ⟨b, rfl, rfl⟩ unexpected
      · intro p same
        contradiction
    exact inv.step rfl h

theorem mempool_log (host : Host) (inputs : List HostInput) : host.mempool.log <+: (host.run inputs).mempool.log := by
  obtain ⟨more, log⟩ := run_log host inputs
  exact ⟨more, log.symm⟩

/-- Along a run in which the node is handed back only what the mempool or the synchronizer has. -/
theorem Provides.run {later : Host} (answered : later.Answered) (inputs : List HostInput) (stocked : host.Stocked ws)
    (reached : later = host.run inputs) (keeps : later.Keeps) (returned : host.AllReturned inputs)
    (log : host.node.log <+: later.node.log) (h : later.Provides host) : later.Provides later := by
  induction inputs generalizing host ws with
  | nil => exact reached ▸ h
  | cons input rest ih =>
      obtain ⟨returns, others⟩ := returned
      have grown : (host.step input).node.log <+: later.node.log := by
        rw [reached]
        exact (stocked.step input).log rest
      apply ih (stocked.step input) reached others grown
      cases input with
      | mempool input =>
          apply h.mempool answered
          rw [reached]
          exact mempool_log (host.step (.mempool input)) rest
      | consensus channel message env =>
          apply h.consensus answered keeps
          rintro b rfl rfl d mem
          rcases returns with sent | ⟨author, digest, requested⟩
          · rw [reached]
            exact stocked.kept (.consensus .core (.loopBack b) env :: rest) d (stocked.keeps _ sent d mem)
          · obtain ⟨_, holds⟩ := h.2
            exact (holds log).requested author digest b requested d mem

omit [Bincode] [Mempool.PayloadBincode] in
/-- What is under a key of the store is a payload of that digest, or a block that consensus holds. -/
theorem Accounts.kinds {first : Store} (accounts : host.Accounts first) {d : Digest} (there : host.store.contains d = true) :
    (∃ p, p.digest = d ∧ host.store.get? d = some (.payload p)) ∨ ∃ b, host.HoldsBlock first b ∧ b.digest = d := by
  obtain ⟨-, accounted⟩ := accounts.2
  obtain ⟨v, found⟩ := Option.isSome_iff_exists.mp there
  obtain ⟨digest, source⟩ := accounted d v found
  cases v with
  | payload p => exact .inl ⟨p, digest, found⟩
  | block b =>
      have same : b.digest = d := digest
      subst same
      exact .inr ⟨b, source b rfl, rfl⟩

section
variable (name : PublicKey) (committee : Committee) (parameters : Parameters) (first : Store) (env : Env)
  (mempoolName : PublicKey) (mempoolCommittee : Mempool.Committee) (mempoolParameters : Mempool.Parameters)

/-- A node that gets its answers from its mempool is provided for. -/
theorem provided_fresh
    (restarted : ∀ d value b, first.get? d = some value → Synchronizer.decodeBlock value = .ok b →
      ∀ d' ∈ b.payload, first.contains d' = true)
    {inputs : List HostInput} {host : Host}
    (reached : host = (fresh name committee parameters first env mempoolName mempoolCommittee mempoolParameters).run inputs)
    (returned : (fresh name committee parameters first env mempoolName mempoolCommittee mempoolParameters).AllReturned inputs)
    (answered : host.Answered) : Provided host.Present host.node.core host.node.log := by
  have stocked := stocked_fresh name committee parameters first env mempoolName mempoolCommittee mempoolParameters
  have keeps : host.Keeps := by
    obtain ⟨_, later⟩ := stocked.run inputs
    rw [reached]
    exact later.keeps
  have log : (fresh name committee parameters first env mempoolName mempoolCommittee mempoolParameters).node.log <+:
      host.node.log := by
    rw [reached]
    exact stocked.log inputs
  have held : ∀ d, first.contains d = true →
      (fresh name committee parameters first env mempoolName mempoolCommittee mempoolParameters).store.contains d = true := by
    have start : (Node.start (Core.new name committee parameters first) env).Sound fun _ k _ =>
        ∀ d, first.contains d = true → k.store.contains d = true :=
      (storeInvariant (fun _ => True) first).init fun _ mem => mem
    obtain ⟨_, holds⟩ := start.2
    exact holds
  have begun : host.Provides (fresh name committee parameters first env mempoolName mempoolCommittee mempoolParameters) := by
    have inv : Invariant (fun _ => False) fun _ k l => l <+: host.node.log → Provided host.Present k l := by
      apply provided_invariant answered keeps
      · intro b got
        obtain ⟨_, _, never⟩ := got
        exact never.elim
      · exact fun _ never => never
    apply inv.init
    intro _
    refine ⟨fun b mem => absurd mem List.not_mem_nil, fun author digest b mem => absurd mem List.not_mem_nil, ?_⟩
    intro d value b stored decodes d' mem
    rw [reached]
    exact stocked.kept inputs d' (held d' (restarted d value b stored decodes d' mem))
  obtain ⟨_, provided⟩ := (begun.run answered inputs stocked reached keeps returned log).2
  exact provided (List.prefix_refl _)

/-- A node that gets its answers from its mempool processes only blocks whose payloads it has: each digest of the payload is
that of a stored payload, or of a block that consensus holds. -/
theorem processed_supplied (filed : first.Filed)
    (restarted : ∀ d value b, first.get? d = some value → Synchronizer.decodeBlock value = .ok b →
      ∀ d' ∈ b.payload, first.contains d' = true)
    (inputs : List HostInput) (host : Host)
    (reached : host = (fresh name committee parameters first env mempoolName mempoolCommittee mempoolParameters).run inputs)
    (returned : (fresh name committee parameters first env mempoolName mempoolCommittee mempoolParameters).AllReturned inputs)
    (answered : host.Answered) :
    ∀ b, Event.process b ∈ host.node.log → ∀ d ∈ b.payload,
      (∃ p, p.digest = d ∧ host.store.get? d = some (.payload p)) ∨ ∃ b', host.HoldsBlock first b' ∧ b'.digest = d := by
  have provided := provided_fresh name committee parameters first env mempoolName mempoolCommittee mempoolParameters restarted reached
    returned answered
  have accounts : host.Accounts first := by
    rw [reached]
    exact (accounts_start name committee parameters filed env _).run inputs
  exact fun b processed d mem => accounts.kinds (provided.processed b processed d mem)

end
end Host
end HotstuffDag

/-! ## A block that waits for its payload -/

namespace HotstuffDag.Sample
open Library

def acceptedBlocks (l : List Event) : List Block :=
  l.filterMap fun
    | .payloadStatus b .accept => some b
    | _ => none

theorem mem_acceptedBlocks {l : List Event} {b : Block} (h : Event.payloadStatus b .accept ∈ l) : b ∈ acceptedBlocks l :=
  List.mem_filterMap.mpr ⟨_, h, rfl⟩

/-- One block is accepted at once; the payload of the other comes late. -/
def lateArrival : List HostInput :=
  [others leaderPayload, verifies leaderBlock, receives leaderBlock .accept] ++ missingPayload lateBlock ++
    [others latePayload, .mempool (.finish 0)]

def lateSupply : List HostInput := lateArrival ++ [.consensus .core (.loopBack lateBlock) env]

def suppliedHost : Host := (host 2).run lateSupply

/-- The payload of the block that is accepted at once is there. -/
theorem accepted_kept : .status leaderBlock .accept ∈ suppliedHost.mempool.log ∧
    suppliedHost.store.contains leaderPayload.digest = true := by
  have accepted : .status leaderBlock .accept ∈ suppliedHost.mempool.log := by decide +kernel
  have mem : leaderPayload.digest ∈ (Mempool.Event.status leaderBlock .accept).promises := by decide +kernel
  have reached : suppliedHost = (Host.fresh (key 2) four ⟨500⟩ Map.empty env (key 2) mempoolCommittee ⟨100, 10000, 500⟩).run
      lateSupply := rfl
  rw [reached] at accepted ⊢
  exact ⟨accepted, Host.answers_kept _ _ _ _ _ _ _ _ lateSupply _ accepted _ mem⟩

theorem late_supplied : Event.process lateBlock ∈ suppliedHost.node.log ∧ ∀ d ∈ lateBlock.payload,
    (∃ p, p.digest = d ∧ suppliedHost.store.get? d = some (.payload p)) ∨
      ∃ b', suppliedHost.HoldsBlock Map.empty b' ∧ b'.digest = d := by
  have processed : Event.process lateBlock ∈ suppliedHost.node.log := by decide +kernel
  have own : ∀ b ∈ signedBlocks suppliedHost.node.log, b.payload = [] := by decide +kernel
  have passed : ∀ b ∈ acceptedBlocks suppliedHost.node.log, .status b .accept ∈ suppliedHost.mempool.log := by decide +kernel
  have back : .loopBack lateBlock ∈ ((host 2).run lateArrival).mempool.log := by decide +kernel
  have returned : (host 2).AllReturned lateSupply := by
    apply Host.AllReturned.snoc
    · exact Host.AllReturned.of_quiet (by simp [lateArrival, missingPayload, others, verifies, receives])
    · exact .inl back
  refine ⟨processed, Host.processed_supplied (key 2) four ⟨500⟩ Map.empty env (key 2) mempoolCommittee ⟨100, 10000, 500⟩ ?_ ?_
    lateSupply suppliedHost rfl returned ?_ lateBlock processed⟩
  · intro d v found
    rw [Map.get?_empty] at found
    cases found
  · intro d value b stored
    rw [Map.get?_empty] at stored
    cases stored
  · constructor
    · exact fun b signed => .inl (own b (mem_signedBlocks.mpr signed))
    · exact fun b accepted => passed b (mem_acceptedBlocks accepted)
    · exact fun p _ => rfl

end HotstuffDag.Sample
