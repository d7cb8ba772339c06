import HotstuffDag.Proof.Authors
import HotstuffDag.Proof.Certificates

/-! # Where the default digest comes from

Blocks and certificates bring it to a node. Where no message does, no block of the node refers to it and
no chain certifies it. -/

namespace HotstuffDag
open Library

variable [Crypto] [Bincode]

/-- What a proposal brings that passes its checks. -/
structure Block.Sane (committee : Committee) (b : Block) : Prop extends b.Anchored committee where
  digest : ¬ Dangling committee b.digest
  qc : b.qc.Anchored committee

/-- The receiver of the channel expects the message, the chains that it names exist, and the default digest
is not among what it brings. -/
def ConsensusMessage.Harmless (committee : Committee) : Channel → ConsensusMessage → Prop
  | .core, .propose b | .core, .syncReply b => b.author ∈ committee.keys ∧ (b.verify committee = .ok () → b.Sane committee)
  | .core, .vote v => v.proposer ∈ committee.keys ∧ (v.verify committee = .ok () → ¬ Dangling committee v.hash)
  | .core, .loopBack b => b.Anchored committee ∧ ¬ Dangling committee b.digest
  | .core, .syncRequest _ _ => True
  | .smvba, .timeout t => t.verify committee = .ok () → t.highQc.Anchored committee
  | .smvba, .tc _ | .smvba, .abaVal _ | .smvba, .abaProof _ | .smvba, .abaCoinShare _ => True
  | _, _ => False

instance (committee : Committee) (b : Block) : Decidable (b.Anchored committee) :=
  decidable_of_iff (b.author ∈ committee.keys ∧ ∀ r ∈ b.references, ¬ Dangling committee r.2)
    ⟨fun h => ⟨h.1, h.2⟩, fun h => ⟨h.author, h.references⟩⟩

instance (committee : Committee) (qc : QC) : Decidable (qc.Anchored committee) :=
  inferInstanceAs (Decidable (_ → _))

instance (committee : Committee) (b : Block) : Decidable (b.Sane committee) :=
  decidable_of_iff (b.Anchored committee ∧ ¬ Dangling committee b.digest ∧ b.qc.Anchored committee)
    ⟨fun h => ⟨h.1, h.2.1, h.2.2⟩, fun h => ⟨h.toAnchored, h.digest, h.qc⟩⟩

instance (committee : Committee) : (channel : Channel) → (message : ConsensusMessage) →
    Decidable (message.Harmless committee channel)
  | .core, .propose _ | .core, .syncReply _ => inferInstanceAs (Decidable (_ ∧ (_ → _)))
  | .core, .vote _ => inferInstanceAs (Decidable (_ ∧ (_ → _)))
  | .core, .loopBack _ => inferInstanceAs (Decidable (_ ∧ _))
  | .smvba, .timeout _ => inferInstanceAs (Decidable (_ → _))
  | .core, .syncRequest _ _ | .smvba, .tc _ | .smvba, .abaVal _ | .smvba, .abaProof _ | .smvba, .abaCoinShare _ =>
      inferInstanceAs (Decidable True)
  | .core, .timeout _ | .core, .tc _ | .core, .abaVal _ | .core, .abaProof _ | .core, .abaCoinShare _ | .smvba, .propose _
  | .smvba, .vote _ | .smvba, .loopBack _ | .smvba, .syncRequest _ _ | .smvba, .syncReply _ => inferInstanceAs (Decidable False)

/-- Reading a stored payload as a block does not panic, and brings no block of an unknown author. -/
def Input.Harmless (committee : Committee) : Input → Prop
  | .deliver channel message _ => message.Harmless committee channel
  | .makePayload _ => True
  | .storePayload payload =>
      Bincode.panicsOn payload = false ∧ ∀ b, Bincode.blockOfPayload payload = some b → b.Anchored committee

instance (committee : Committee) : (input : Input) → Decidable (input.Harmless committee)
  | .deliver channel message _ => inferInstanceAs (Decidable (message.Harmless committee channel))
  | .makePayload _ => inferInstanceAs (Decidable True)
  | .storePayload payload =>
      decidable_of_iff (Bincode.panicsOn payload = false ∧ ∀ b ∈ Bincode.blockOfPayload payload, b.Anchored committee) Iff.rfl

/-- No own block has the default digest. -/
def Undefaulted (committee : Committee) (l : List Event) : Prop :=
  ∀ b, Event.signed (.block b) ∈ l → ¬ Dangling committee b.digest

variable {committee : Committee} {s s' : Conf} {l : List Event}

section
variable {b : Block}

theorem harmless_proposal (msg : Received (Input.Harmless committee) (.propose b) ∨
    Received (Input.Harmless committee) (.syncReply b)) (verified : b.verify committee = .ok ()) : b.Sane committee := by
  rcases msg with ⟨channel, env, harmless⟩ | ⟨channel, env, harmless⟩
  all_goals
    cases channel with
    | core => exact harmless.2 verified
    | smvba => exact harmless.elim

theorem harmless_loopBack (msg : Received (Input.Harmless committee) (.loopBack b)) :
    b.Anchored committee ∧ ¬ Dangling committee b.digest := by
  obtain ⟨channel, env, harmless⟩ := msg
  cases channel with
  | core => exact harmless
  | smvba => exact harmless.elim

theorem harmless_vote {v : Vote} (msg : Received (Input.Harmless committee) (.vote v))
    (verified : v.verify committee = .ok ()) : ¬ Dangling committee v.hash := by
  obtain ⟨channel, env, harmless⟩ := msg
  cases channel with
  | core => exact harmless.2 verified
  | smvba => exact harmless.elim

theorem harmless_timeout {t : Timeout} (msg : Received (Input.Harmless committee) (.timeout t))
    (verified : t.verify committee = .ok ()) : t.highQc.Anchored committee := by
  obtain ⟨channel, env, harmless⟩ := msg
  cases channel with
  | core => exact harmless.elim
  | smvba => exact harmless verified

end

/-! ## Votes and the certificates they make -/

structure Genuine (committee : Committee) (l : List Event) : Prop where
  processed : ∀ b, Event.process b ∈ l → ¬ Dangling committee b.digest
  voted : ∀ c b, Event.voted c b ∈ l → ¬ Dangling committee b.digest
  votes : ∀ v, Event.signed (.vote v) ∈ l → ¬ Dangling committee v.hash
  assembled : ∀ chain qc, Event.assembled chain qc ∈ l → ¬ Dangling committee qc.hash

theorem Genuine.act (act : Act (Received (Input.Harmless committee)) s s') (same : s.core.committee = committee)
    (own : Undefaulted committee s'.log) (h : Genuine committee s.log) : Genuine committee s'.log := by
  have voted : ∀ c b, Event.voted c b ∈ s'.log → ¬ Dangling committee b.digest := by
    intro c b mem
    rcases act.reason mem with old | reason
    · exact h.voted c b old
    · cases reason with
      | aba about => exact about.elim
      | commit about => exact about.elim
      | voted processed => exact h.processed b processed
  refine ⟨fun b mem => ?_, voted, fun v mem => ?_, fun chain qc mem => ?_⟩
  · rcases act.reason mem with old | reason
    · exact h.processed b old
    · cases reason with
      | aba about => exact about.elim
      | commit about => exact about.elim
      | process why =>
          cases why with
          | own signed => exact own b (act.frame.mem signed)
          | proposal msg _ verified => exact (harmless_proposal msg (same ▸ verified)).digest
          | loopBack msg => exact (harmless_loopBack msg).2
  · rcases act.reason mem with old | reason
    · exact h.votes v old
    · cases reason with
      | aba about => exact about.elim
      | commit about => exact about.elim
      | vote granted => exact voted _ _ granted
  · rcases act.reason mem with old | reason
    · exact h.assembled chain qc old
    · cases reason with
      | aba about => exact about.elim
      | commit about => exact about.elim
      | assembled msg _ verified added =>
          rw [(Aggregator.addVote_some added).1]
          rcases msg with received | signed
          · exact harmless_vote received (same ▸ verified)
          · exact h.votes _ signed

/-! ## Certificates and blocks -/

/-- The certificates that reach a node where nothing brings the default digest. -/
theorem Genuine.sources (h : Genuine committee l) :
    Sources (fun _ qc => qc.Anchored committee) (fun _ => True) committee (Received (Input.Harmless committee)) l where
  genesis := fun _ => QC.genesis_anchored committee
  proposal := fun _ msg verified => (harmless_proposal msg verified).qc
  timeout := fun _ msg verified => harmless_timeout msg verified
  assembled := fun chain qc event dangling => absurd dangling (h.assembled chain qc event)
  tc := fun _ _ _ => trivial

structure Rooted (committee : Committee) (k : Core) (l : List Event) : Prop where
  store : ∀ d value b, k.store.get? d = some value → Synchronizer.decodeBlock value = .ok b → b.Anchored committee
  blocks : ∀ b, Event.signed (.block b) ∈ l → b.Anchored committee
  legible : Legible k.store

theorem Rooted.act (act : Act (Received (Input.Harmless committee)) s s') (same : s.core.committee = committee)
    (member : s.core.name ∈ committee.keys)
    (high : ∀ name c, s.core.pubkeyToChain.get? name = some c → c.highQc.Anchored committee)
    (h : Rooted committee s.core s.log) : Rooted committee s'.core s'.log where
  store := by
    intro d value b' stored decodes
    rcases act.store with unchanged | ⟨b, why, -, held⟩
    · rw [unchanged] at stored
      exact h.store d value b' stored decodes
    · rw [held] at stored
      rcases stored_insert stored decodes with ⟨-, rfl⟩ | old
      · cases why with
        | own signed => exact h.blocks b' signed
        | proposal msg _ verified => exact (harmless_proposal msg (same ▸ verified)).toAnchored
        | loopBack msg => exact (harmless_loopBack msg).1
      · exact h.store d value b' old decodes
  blocks := by
    intro b signed
    rcases act.reason signed with old | reason
    · exact h.blocks b old
    · cases reason with
      | aba about => exact about.elim
      | commit about => exact about.elim
      | proposed => exact ⟨member, Core.references_anchored high s.chain⟩
  legible := by
    rcases act.store with unchanged | ⟨b, -, -, held⟩
    · rw [unchanged]
      exact h.legible
    · rw [held]
      exact h.legible.insert (Synchronizer.block_reads b)

/-! ## The invariant -/

/-- The parts hold together: votes rest on stored blocks, certificates on votes, own blocks on certificates. -/
structure Sheltered (committee : Committee) (v : View) (k : Core) (l : List Event) : Prop where
  genuine : Genuine committee l
  certs : Certs (fun _ qc => qc.Anchored committee) (fun _ => True) committee v k l
  rooted : Rooted committee k l

omit [Bincode] in
theorem Undefaulted.before {l l' : List Event} (h : Undefaulted committee l') (le : l <+: l') : Undefaulted committee l :=
  fun b signed => h b (le.subset signed)

theorem Sheltered.act (act : Act (Received (Input.Harmless committee)) s s') (own : Undefaulted committee s'.log)
    (member : s.core.name ∈ committee.keys) (h : Sheltered committee (view s.core s.chain) s.core s.log) :
    Sheltered committee (view s'.core s'.chain) s'.core s'.log := by
  have genuine := Genuine.act act h.certs.same own h.genuine
  refine ⟨genuine, Certs.act genuine.sources act (List.prefix_refl _) h.certs, ?_⟩
  exact Rooted.act act h.certs.same member (fun name c found => (h.certs.stored name c found).high) h.rooted

theorem shelteredInvariant {name : PublicKey} (member : name ∈ committee.keys) :
    Invariant (Input.Harmless committee) fun v k l => k.name = name ∧ (Undefaulted committee l → Sheltered committee v k l) where
  act := by
    rintro s s' - act ⟨named, sheltered⟩
    refine ⟨act.frame.name.trans named, fun own => ?_⟩
    exact Sheltered.act act own (named ▸ member) (sheltered (own.before act.frame.log))
  blind := by
    rintro v k l m rfl ⟨named, sheltered⟩
    refine ⟨named, fun own => ?_⟩
    obtain ⟨genuine, certs, rooted⟩ := sheltered own
    exact ⟨genuine, ⟨certs.same, certs.chains, certs.chains, certs.blocks, certs.timeouts, certs.certificates⟩,
      rooted.store, rooted.blocks, rooted.legible⟩
  makePayload := by
    rintro v k l transactions ⟨named, sheltered⟩
    refine ⟨named, fun own => ?_⟩
    obtain ⟨genuine, certs, rooted⟩ := sheltered (own.before (List.prefix_append _ _))
    refine ⟨⟨fun b mem => genuine.processed b ?_, fun c b mem => genuine.voted c b ?_,
        fun v mem => genuine.votes v ?_, fun chain qc mem => genuine.assembled chain qc ?_⟩,
      ⟨certs.same, certs.chains, certs.stored, fun b mem => certs.blocks b ?_, fun t mem => certs.timeouts t ?_,
        fun certificate mem => certs.certificates certificate ?_⟩,
      rooted.store, fun b mem => rooted.blocks b ?_, rooted.legible⟩
    all_goals simpa using mem
  storePayload := by
    rintro v k l payload harmless ⟨named, sheltered⟩
    refine ⟨named, fun own => ?_⟩
    obtain ⟨genuine, certs, rooted⟩ := sheltered own
    refine ⟨genuine, ⟨certs.same, certs.chains, certs.stored, certs.blocks, certs.timeouts, certs.certificates⟩,
      fun d value b stored decodes => ?_, rooted.blocks, rooted.legible.insert (Synchronizer.payload_reads harmless.1)⟩
    rcases stored_insert_payload stored decodes with read | old
    · exact harmless.2 b read
    · exact rooted.store d value b old decodes

/-- No chain comes or goes. -/
theorem chainsInvariant (ok : Input → Prop) (keys : List PublicKey) :
    Invariant ok fun v _ _ => ∀ key, (v key).isSome ↔ key ∈ keys where
  act := by
    intro s s' _ act h key
    have same : (view s'.core s'.chain key).isSome = (view s.core s.chain key).isSome := by
      unfold view
      rw [act.frame.chain]
      split
      · rfl
      · simpa using congrArg Option.isSome (act.stored key)
    rw [same]
    exact h key
  blind := fun _ _ h => h
  makePayload := fun _ h => h
  storePayload := fun _ _ h => h

end HotstuffDag
