import HotstuffDag.Proof.Invariant
import HotstuffDag.Sample

/-! # One vote for each height

The guard of `make_vote` is the last voted height of the chain it is handed. That is the chain of
the block's author unless a vote for somebody else's block completes a certificate: then
`handle_vote` proposes, and votes, on that chain. -/

namespace HotstuffDag
open Library Library.Exec

/-! ## Views under an act -/

section
variable {got : ConsensusMessage → Prop}

/-- An act changes the chain it works on; of the others only last committed heights change. -/
theorem Act.view_other [Crypto] [Bincode] {s s' : Conf} (act : Act got s s') {name : PublicKey} (other : name ≠ s.chain.name) :
    (view s'.core s'.chain name).map Chain.uncommitted = (view s.core s.chain name).map Chain.uncommitted := by
  unfold view
  rw [act.frame.chain, if_neg other, if_neg other]
  exact act.stored name

/-- The chain of a name before an act: the one the act works on, or one of which only the last committed
height changes. -/
theorem Act.view_back [Crypto] [Bincode] {s s' : Conf} (act : Act got s s') {name : PublicKey} {c' : Chain}
    (found : view s'.core s'.chain name = some c') :
    ∃ c, view s.core s.chain name = some c ∧
      (s.chain.name = name ∧ c = s.chain ∧ c' = s'.chain ∨ s.chain.name ≠ name ∧ c'.uncommitted = c.uncommitted) := by
  by_cases own : s.chain.name = name
  · subst own
    rw [← act.frame.chain, view_self] at found
    exact ⟨s.chain, view_self _ _, .inl ⟨rfl, rfl, (Option.some.inj found).symm⟩⟩
  · have other : name ≠ s.chain.name := fun h => own h.symm
    have same := act.view_other other
    rw [found, Option.map_some] at same
    obtain ⟨c, found', same'⟩ := Option.map_eq_some_iff.mp same.symm
    exact ⟨c, found', .inr ⟨own, same'.symm⟩⟩

/-- A property of the chain of a name that does not read the last committed height. -/
theorem Act.view_some [Crypto] [Bincode] {s s' : Conf} (act : Act got s s') {p : Chain → Prop}
    (blind : ∀ c : Chain, p c.uncommitted ↔ p c) (step : p s.chain → p s'.chain) {name : PublicKey}
    (h : ∃ c, view s.core s.chain name = some c ∧ p c) : ∃ c, view s'.core s'.chain name = some c ∧ p c := by
  obtain ⟨c, found, holds⟩ := h
  by_cases own : name = s.chain.name
  · subst own
    rw [view_self] at found
    obtain rfl := Option.some.inj found
    refine ⟨s'.chain, ?_, step holds⟩
    rw [← act.frame.chain, view_self]
  · have same := act.view_other own
    rw [found, Option.map_some] at same
    obtain ⟨c', found', same'⟩ := Option.map_eq_some_iff.mp same
    refine ⟨c', found', ?_⟩
    rw [← blind, same', blind]
    exact holds

end

/-! ## The counter of a chain -/

theorem Chain.lastVotedHeight_lockVote (c : Chain) (height : SeqNumber) :
    c.lastVotedHeight ≤ (c.lockVote height).lastVotedHeight ∧ height ≤ (c.lockVote height).lastVotedHeight := by
  unfold lockVote
  dsimp only
  split <;> constructor <;> grind

@[simp] theorem Chain.certify_lastVotedHeight (c : Chain) (epoch : SeqNumber) (qc : QC) :
    (c.certify epoch qc).lastVotedHeight = c.lastVotedHeight := by
  unfold certify update advance
  split <;> rfl

theorem Act.lastVotedHeight_le [Crypto] [Bincode] {got : ConsensusMessage → Prop} {s s' : Conf} (act : Act got s s') :
    s.chain.lastVotedHeight ≤ s'.chain.lastVotedHeight := by
  cases act with
  | certify => simp
  | @commit fuel env k c l b _ =>
      have frame := Core.commit_frame fuel b ⟨k, c, l, env⟩
      have same := frame.chain_eq Chain.lastVotedHeight fun _ => rfl
      exact same ▸ UInt64.le_refl _
  | grant => exact (Chain.lastVotedHeight_lockVote _ _).1
  | lockVote => exact (Chain.lastVotedHeight_lockVote _ _).1
  | _ => exact UInt64.le_refl _

/-! ## The invariant -/

/-- Certificates are assembled on the own chain only. -/
def OwnAssembled (name : PublicKey) (l : List Event) : Prop :=
  ∀ chain qc, Event.assembled chain qc ∈ l → chain = name

/-- No two votes of the log differ in nothing but the block they are for. -/
def VotesOnce (l : List Event) : Prop :=
  ∀ v v', Event.signed (.vote v) ∈ l → Event.signed (.vote v') ∈ l → v.proposer = v'.proposer →
    v.height = v'.height → v = v'

/-- The counter of its proposer's chain bounds the height of every vote. -/
def VotesCounted (view : View) (l : List Event) : Prop :=
  ∀ v, Event.signed (.vote v) ∈ l → ∃ c, view v.proposer = some c ∧ v.height ≤ c.lastVotedHeight

def VoteInvariant (view : View) (k : Core) (l : List Event) : Prop :=
  OwnAssembled k.name l → VotesCounted view l ∧ VotesOnce l

/-- The act that signs a vote for the block. -/
structure Granted [Crypto] (s s' : Conf) (b : Block) : Prop where
  fresh : b.height > s.chain.lastVotedHeight
  locked : s'.chain = s.chain.lockVote b.height
  origin : b.author = s.chain.name ∨ b.author = s.core.name ∧ ∃ qc, Event.assembled s.chain.name qc ∈ s.log
  votes : ∀ v, Event.signed (.vote v) ∈ s'.log → Event.signed (.vote v) ∈ s.log ∨ v = .new b s.core.name

theorem Act.votes [Crypto] [Bincode] {got : ConsensusMessage → Prop} {s s' : Conf} (act : Act got s s') :
    (∀ v, Event.signed (.vote v) ∈ s'.log → Event.signed (.vote v) ∈ s.log) ∨ ∃ b, Granted s s' b := by
  cases act with
  | aba act => exact .inl fun v h => (act.events h).resolve_right id
  | @commit fuel env k c l b _ =>
      exact .inl fun v h => ((Core.commit_frame fuel b ⟨k, c, l, env⟩).events h).resolve_right id
  | @grant k c l b _ origin _ _ _ fresh _ _ =>
      refine .inr ⟨b, fresh, rfl, origin, fun v h => ?_⟩
      simpa using h
  | countVote =>
      refine .inl fun v h => (List.mem_append.mp h).resolve_right fun new => ?_
      unfold Core.assembledEvents at new
      split at new <;> simp at new
  | countTimeout =>
      refine .inl fun v h => (List.mem_append.mp h).resolve_right fun new => ?_
      unfold Core.savedTcs at new
      split at new <;> simp at new
  | certify | lockVote => exact .inl fun v h => h
  | _ => exact .inl fun v h => by simpa using h

theorem Granted.author [Crypto] {s s' : Conf} {b : Block} (h : Granted s s' b) (own : OwnAssembled s.core.name s.log) :
    b.author = s.chain.name := by
  rcases h.origin with author | ⟨author, qc, assembled⟩
  · exact author
  · rw [author, own _ qc assembled]

theorem OwnAssembled.before {name : PublicKey} {l l' : List Event} (h : OwnAssembled name l') (le : l <+: l') :
    OwnAssembled name l :=
  fun chain qc assembled => h chain qc (le.subset assembled)

theorem VotesCounted.act [Crypto] [Bincode] {got : ConsensusMessage → Prop} {s s' : Conf} (act : Act got s s')
    (own : OwnAssembled s.core.name s.log) (h : VotesCounted (view s.core s.chain) s.log) :
    VotesCounted (view s'.core s'.chain) s'.log := by
  have kept (v : Vote) (old : Event.signed (.vote v) ∈ s.log) :
      ∃ c, view s'.core s'.chain v.proposer = some c ∧ v.height ≤ c.lastVotedHeight :=
    act.view_some (fun c => Iff.rfl) (fun bound => UInt64.le_trans bound act.lastVotedHeight_le) (h v old)
  intro v signed
  rcases act.votes with none | ⟨b, granted⟩
  · exact kept v (none v signed)
  rcases granted.votes v signed with old | rfl
  · exact kept v old
  · refine ⟨s'.chain, ?_, ?_⟩
    · change view s'.core s'.chain b.author = some s'.chain
      rw [granted.author own, ← act.frame.chain, view_self]
    · rw [granted.locked]
      exact (Chain.lastVotedHeight_lockVote _ _).2

/-- A granted vote is for a height above those of the votes before it. -/
theorem Granted.height_ne [Crypto] {s s' : Conf} {b : Block} (granted : Granted s s' b)
    (own : OwnAssembled s.core.name s.log) (h : VotesCounted (view s.core s.chain) s.log) {v : Vote}
    (signed : Event.signed (.vote v) ∈ s.log) (same : v.proposer = b.author) : v.height ≠ b.height := by
  obtain ⟨c, found, bound⟩ := h v signed
  rw [same, granted.author own, view_self] at found
  obtain rfl := Option.some.inj found
  intro height
  rw [height] at bound
  exact absurd granted.fresh (UInt64.not_lt.mpr bound)

theorem VotesOnce.act [Crypto] [Bincode] {got : ConsensusMessage → Prop} {s s' : Conf} (act : Act got s s')
    (own : OwnAssembled s.core.name s.log) (counted : VotesCounted (view s.core s.chain) s.log)
    (h : VotesOnce s.log) : VotesOnce s'.log := by
  intro v v' signed signed' proposer height
  rcases act.votes with none | ⟨b, granted⟩
  · exact h v v' (none v signed) (none v' signed') proposer height
  rcases granted.votes v signed with old | rfl
  · rcases granted.votes v' signed' with old' | rfl
    · exact h v v' old old' proposer height
    · exact absurd height (granted.height_ne own counted old proposer)
  · rcases granted.votes v' signed' with old' | rfl
    · exact absurd height.symm (granted.height_ne own counted old' proposer.symm)
    · rfl

theorem voteInvariant [Crypto] [Bincode] (ok : Input → Prop) : Invariant ok VoteInvariant where
  act := by
    intro s s' _ act h own
    rw [act.frame.name] at own
    have before := own.before act.frame.log
    obtain ⟨counted, once⟩ := h before
    exact ⟨counted.act act before, once.act act before counted⟩
  blind := fun _ _ h => h
  makePayload := by
    intro v k l transactions h own
    obtain ⟨counted, once⟩ := h (own.before (List.prefix_append _ _))
    exact ⟨fun vote signed => counted vote (by simpa using signed),
      fun vote vote' signed signed' => once vote vote' (by simpa using signed) (by simpa using signed')⟩
  storePayload := fun _ _ h => h

/-- No two votes for the same proposer, epoch and height are for different blocks. -/
def UniqueVotes (l : List Event) : Prop :=
  ∀ v v', Event.signed (.vote v) ∈ l → Event.signed (.vote v') ∈ l → v.proposer = v'.proposer →
    v.epoch = v'.epoch → v.height = v'.height → v.hash = v'.hash

/-- In a run in which certificates are assembled on the own chain only, votes are unique. -/
theorem votes_once [Crypto] [Bincode] (name : PublicKey) (committee : Committee) (parameters : Parameters) (store : Store) (env : Env)
    (inputs : List Input)
    (own : OwnAssembled name ((Node.start (Core.new name committee parameters store) env).run inputs).log) :
    UniqueVotes ((Node.start (Core.new name committee parameters store) env).run inputs).log := by
  intro v v' signed signed' proposer _ height
  have inv := (identityInvariant (fun _ => True) name committee).and (voteInvariant fun _ => True)
  have start : (Node.start (Core.new name committee parameters store) env).Sound _ :=
    inv.init ⟨⟨rfl, rfl⟩, fun _ => ⟨fun v h => by simp at h, fun v v' h => by simp at h⟩⟩
  obtain ⟨_, ⟨named, -⟩, votes⟩ := (inv.run (fun i _ => trivial) start).2
  have once := (votes (by rw [named]; exact own)).2
  exact congrArg Vote.hash (once v v' signed signed' proposer height)

/-! ## A foreign certificate -/

namespace Sample

/-- Votes for the block of another author reach the first node before votes for its own. -/
def foreignVotes : List Input :=
  [voteFor (firstBlock 4) 2, voteFor (firstBlock 4) 3, voteFor (firstBlock 4) 4,
    voteFor (firstBlock 1) 2, voteFor (firstBlock 1) 3]

/-- The first node signs two votes for blocks of its own at height two. -/
theorem double_vote : ¬ UniqueVotes ((start 1).run foreignVotes).log := by
  have votes : ∃ v ∈ signedVotes ((start 1).run foreignVotes).log,
      ∃ v' ∈ signedVotes ((start 1).run foreignVotes).log,
      v.proposer = v'.proposer ∧ v.epoch = v'.epoch ∧ v.height = v'.height ∧ v.hash ≠ v'.hash := by
    decide +kernel
  intro unique
  obtain ⟨v, mem, v', mem', proposer, epoch, height, different⟩ := votes
  exact different (unique v v' (mem_signedVotes.mp mem) (mem_signedVotes.mp mem') proposer epoch height)

/-- Votes for the own block only. -/
def ownVotes : List Input := [voteFor (firstBlock 1) 2, voteFor (firstBlock 1) 3]

theorem ownVotes_assembled : OwnAssembled (key 1) ((start 1).run ownVotes).log := by
  intro chain qc assembled
  have all : ∀ chain ∈ assembledChains ((start 1).run ownVotes).log, chain = key 1 := by decide +kernel
  exact all chain (mem_assembledChains assembled)

theorem ownVotes_unique : UniqueVotes ((start 1).run ownVotes).log :=
  votes_once (key 1) four ⟨500⟩ Library.Map.empty env ownVotes ownVotes_assembled

end Sample
end HotstuffDag
