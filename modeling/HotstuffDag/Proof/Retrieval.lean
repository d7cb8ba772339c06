import HotstuffDag.Proof.Availability
import HotstuffDag.Proof.HashLinks
import HotstuffDag.Proof.Primed

/-! # Committed blocks can be fetched

A committed block has the votes of a quorum. The honest nodes among them have stored it, keep it, and send it to whoever
asks for its digest. -/

namespace HotstuffDag
open Library Library.Exec

section
variable [Crypto] [Bincode] {got : ConsensusMessage → Prop}

/-! ## What is processed stays in the store -/

theorem Act.processed_stored {s s' : Conf} (act : Act got s s') {b : Block} (h : Event.process b ∈ s'.log) :
    Event.process b ∈ s.log ∨ s'.core.store.get? b.digest = some (.block b) := by
  have last {e : Event} (mem : Event.process b ∈ s.log ++ [e]) (other : Event.process b ≠ e) : Event.process b ∈ s.log :=
    (List.mem_append.mp mem).resolve_right fun new => other (List.mem_singleton.mp new)
  cases act with
  | aba act => exact .inl ((act.events h).resolve_right id)
  | @commit fuel env k c l b' _ => exact .inl (((Core.commit_frame fuel b' ⟨k, c, l, env⟩).events h).resolve_right id)
  | process =>
      refine (List.mem_append.mp h).imp_right fun new => ?_
      obtain rfl := Event.process.inj (List.mem_singleton.mp new)
      exact Map.get?_insert_self _ _ _
  | grant =>
      rcases List.mem_append.mp h with h | new
      · exact .inl (last h (by simp))
      · simp at new
  | countVote =>
      refine .inl ((List.mem_append.mp h).resolve_right fun new => ?_)
      unfold Core.assembledEvents at new
      split at new <;> simp at new
  | countTimeout =>
      refine .inl ((List.mem_append.mp h).resolve_right fun new => ?_)
      unfold Core.savedTcs at new
      split at new <;> simp at new
  | certify | lockVote => exact .inl h
  | _ => exact .inl (last h (by simp))

theorem Act.stored_kept {s s' : Conf} (act : Act got s s') {d : Digest} (h : (s.core.store.get? d).isSome) :
    (s'.core.store.get? d).isSome := by
  rcases act.store with same | ⟨b, -, -, held⟩
  · rw [same]
    exact h
  · rw [held]
    exact isSome_insert h

/-- Under the digest of a processed block the store has something. -/
def KeepsProcessed (k : Core) (l : List Event) : Prop := ∀ b, Event.process b ∈ l → (k.store.get? b.digest).isSome

theorem keepsInvariant (ok : Input → Prop) : Invariant ok fun _ k l => KeepsProcessed k l where
  act := by
    intro s s' _ act h b processed
    rcases act.processed_stored processed with old | stored
    · exact act.stored_kept (h b old)
    · rw [stored]
      rfl
  blind := fun _ _ h => h
  makePayload := fun _ h b processed => h b (by simpa using processed)
  storePayload := fun _ _ h b processed => isSome_insert (h b processed)

/-- The payloads in the store have arrived from the mempool. -/
theorem arrivedInvariant (ok : Input → Prop) :
    Invariant ok fun _ k _ => ∀ d p, k.store.get? d = some (.payload p) → ok (.storePayload p) where
  act := by
    intro s s' _ act h d p found
    rcases act.store with same | ⟨b, -, -, held⟩
    · rw [same] at found
      exact h d p found
    · rw [held, Map.get?_insert] at found
      split at found
      · simp at found
      · exact h d p found
  blind := fun _ _ h => h
  makePayload := fun _ h => h
  storePayload := by
    intro v k l payload allowed h d p found
    rw [Map.get?_insert] at found
    split at found
    · obtain rfl := Value.payload.inj (Option.some.inj found)
      exact allowed
    · exact h d p found

/-! ## Answers to sync requests -/

omit [Crypto] in
/-- The node that reads a block under the digest sends it to the one who asks. -/
theorem Core.handleSyncRequest_sends {s : State} {digest : Digest} {sender : PublicKey} {address : SocketAddr} {b : Block}
    (stored : s.core.store.get? digest = some (.block b)) (whole : s.env.failures = [])
    (known : s.core.committee.address sender = .ok address) :
    handleSyncRequest digest sender s =
      .ok () { s with log := s.log ++ [.transmit HOTSTUFF (.syncReply b) [address]] } := by
  unfold handleSyncRequest Synchronizer.read Synchronizer.transmit
  simp only [bind_eq, get_run, whole, pure_run, stored, Synchronizer.readBlock, Synchronizer.decodeBlock, liftResult, getCore_run,
    known, if_true, emit_run]

theorem Core.turn_sends {s : State} {digest : Digest} {sender : PublicKey} {address : SocketAddr} {b : Block} (names : Names s.core)
    (own : (s.core.pubkeyToChain.get? s.core.name).isSome) (stored : s.core.store.get? digest = some (.block b))
    (whole : s.env.failures = []) (known : s.core.committee.address sender = .ok address) :
    Sounds (fun _ _ l => Event.transmit HOTSTUFF (.syncReply b) [address] ∈ l) (turn .core (.syncRequest digest sender) s) := by
  have lasts : Invariant (fun _ => True) fun _ _ l => Event.transmit HOTSTUFF (.syncReply b) [address] ∈ l :=
    ⟨fun _ act h => act.frame.mem h, fun _ _ h => h, fun _ h => List.mem_append_left _ h, fun _ _ h => h⟩
  have handled : handleMessage s.env.fuel .core (.syncRequest digest sender) s =
      .ok () { s with log := s.log ++ [.transmit HOTSTUFF (.syncReply b) [address]] } := by
    show attempt (handleSyncRequest digest sender) s = _
    unfold attempt
    rw [handleSyncRequest_sends stored whole known]
  apply lasts.turn_after handled
  exact ⟨names, own, List.mem_append_right _ List.mem_cons_self⟩

/-- The block as it is, or with its references in the order of their keys. -/
def Block.DeliveredAs (b0 b : Block) : Prop := b = b0 ∨ b = { b0 with references := Core.sortReferences b0.references }

namespace System
variable {sys : System} {trace : Trace} {key : PublicKey}

/-- A node that runs answers a sync request for a block that it has stored. -/
theorem answers {name sender : PublicKey} {digest : Digest} {address : SocketAddr} {env : Env} {b : Block}
    (alive : (sys.nodeAt trace name).alive = true) (stored : (sys.nodeAt trace name).core.store.get? digest = some (.block b))
    (whole : env.failures = []) (known : (sys.ordered name).address sender = .ok address) :
    Event.transmit HOTSTUFF (.syncReply b) [address] ∈
      ((sys.nodeAt trace name).step (.deliver .core (.syncRequest digest sender) env)).log := by
  have sound := sys.sound_of_inputs (identityInvariant (fun input => (name, input) ∈ trace) name (sys.ordered name)) ⟨rfl, rfl⟩
  have closed := sound.1 alive
  rw [← closed.holds.2] at known
  obtain ⟨_, mem⟩ := (Node.sound_exec (Core.turn_sends closed.names closed.own stored whole known)).2
  unfold Node.step
  rw [alive]
  exact mem

/-- Who has voted for a block has something under its digest, and that is a block unless a payload is stored there. -/
theorem voted_held {name : PublicKey} {c : Chain} {b : Block} (voted : Event.voted c b ∈ (sys.nodeAt trace name).log)
    (apart : ∀ payload, (name, .storePayload payload) ∈ trace → payload.digest ≠ b.digest) :
    ∃ b', b'.digest = b.digest ∧ (sys.nodeAt trace name).core.store.get? b.digest = some (.block b') := by
  have sound := sys.sound_of_inputs (((keepsInvariant fun input => (name, input) ∈ trace).and
    (accountedInvariant (fun input => (name, input) ∈ trace) Map.empty)).and
      (arrivedInvariant fun input => (name, input) ∈ trace))
    ⟨⟨fun b processed => absurd processed List.not_mem_nil, fun d v found => by simp [first, Core.new] at found⟩,
      fun d p found => by simp [first, Core.new] at found⟩
  obtain ⟨_, ⟨keeps, accounted⟩, arrived⟩ := sound.2
  obtain ⟨value, stored⟩ := Option.isSome_iff_exists.mp (keeps b ((ballots trace name).voted c b voted).1)
  have digest := (accounted b.digest value stored).1
  cases value with
  | block b' => exact ⟨b', digest, stored⟩
  | payload p => exact absurd digest (apart p (arrived b.digest p stored))

theorem Delivers.deliveredAs {b0 b : Block} (h : sys.Delivers trace key b0 b) : b0.DeliveredAs b := by
  obtain ⟨k, c, top, -, -, rfl⟩ := h
  unfold Core.arranged
  split
  · exact .inr rfl
  · exact .inl rfl

/-- A committed block can be fetched from honest nodes of more than `f`. -/
theorem committed_retrievable (sys : System) (resilient : sys.Resilient) (trace : Trace) (valid : sys.Valid trace)
    (unforged : sys.Unforged trace) (key : PublicKey) (honest : sys.Honest key) (plain : sys.PlainCertificates trace key)
    (genesis : ∀ name, sys.Honest name → ∀ c b, Event.voted c b ∈ (sys.nodeAt trace name).log → b.digest ≠ QC.genesis.hash)
    (payloads : ∀ name payload, (name, .storePayload payload) ∈ trace → Bincode.blockOfPayload payload = none ∧
      ∀ c b, Event.voted c b ∈ (sys.nodeAt trace name).log → payload.digest ≠ b.digest) :
    ∀ b, Event.commit b ∈ (sys.nodeAt trace key).log → ∃ b0 : Block, b0.DeliveredAs b ∧ ∃ holders : Finset PublicKey,
      sys.committee.faults < Quorum.weight sys.committee.stake holders ∧ ∀ name ∈ holders, sys.Honest name ∧
        ((sys.nodeAt trace name).alive = true → ∀ sender address env, (sys.ordered name).address sender = .ok address →
          env.failures = [] → ∃ b', b'.digest = b0.digest ∧ Event.transmit HOTSTUFF (.syncReply b') [address] ∈
            ((sys.nodeAt trace name).step (.deliver .core (.syncRequest b0.digest sender) env)).log) := by
  intro b sent
  obtain ⟨b0, qc, delivers, voted, hash⟩ := certificate_of_commit valid unforged resilient honest plain genesis
    (fun payload stored => (payloads key payload stored).1) sent
  obtain ⟨members, heavy⟩ := (Accepted.qc qc voted.verified).quorum
  refine ⟨b0, delivers.deliveredAs, (qc.votes.map Prod.fst).toFinset \ sys.faulty, ?_, fun name mem => ?_⟩
  · obtain ⟨residue, light⟩ := resilient
    have split := Quorum.weight_le_sdiff_add (w := sys.committee.stake) (qc.votes.map Prod.fst).toFinset sys.faulty
    simp only [Committee.quorumThreshold, Committee.faults] at heavy light ⊢
    omega
  · obtain ⟨voter, good⟩ := Finset.mem_sdiff.mp mem
    have trusted : sys.Honest name := ⟨List.mem_toFinset.mp (members voter), good⟩
    refine ⟨trusted, fun alive sender address env known whole => ?_⟩
    obtain ⟨c, x, granted, -, about⟩ := voted.cast trusted voter
    have same : x.digest = b0.digest := about.hash.symm.trans hash
    obtain ⟨b', digest, stored⟩ := voted_held granted fun payload arrived => (payloads name payload arrived).2 c x granted
    rw [same] at digest stored
    exact ⟨b', digest, answers alive stored whole known⟩

end System

end

/-! ## A block that can be fetched -/

namespace Sample

theorem linked_retrievable : ∃ b0, Block.DeliveredAs b0 (above (firstBlock 1)) ∧ ∃ holders : Finset PublicKey,
    four.faults < Quorum.weight four.stake holders ∧ ∀ name ∈ holders, leaderless.Honest name ∧
      ((leaderless.nodeAt linked name).alive = true → ∀ sender address env, four.address sender = .ok address →
        env.failures = [] → ∃ b', b'.digest = b0.digest ∧ Event.transmit HOTSTUFF (.syncReply b') [address] ∈
          ((leaderless.nodeAt linked name).step (.deliver .core (.syncRequest b0.digest sender) env)).log) := by
  have none : ∀ name ∈ four.keys, assembledChains (leaderless.nodeAt linked name).log = [] := by decide +kernel
  have nonzero : ∀ name ∈ four.keys, ∀ b ∈ votedBlocks (leaderless.nodeAt linked name).log, b.digest ≠ QC.genesis.hash := by
    decide +kernel
  have sent : above (firstBlock 1) ∈ committed (leaderless.nodeAt linked (key 2)).log := by decide +kernel
  apply System.committed_retrievable leaderless ⟨by decide, by decide⟩ linked (by decide +kernel) (unforged_of none) (key 2)
    (by decide) (plainCertificates_of (by decide +kernel) (none _ (by decide)))
  · exact fun name honest c b voted => nonzero name honest.1 b (mem_votedBlocks voted)
  · intro name payload stored
    simp [linked, propose] at stored
  · exact mem_committed.mp sent

end Sample
end HotstuffDag
