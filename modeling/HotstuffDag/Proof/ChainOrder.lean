import HotstuffDag.Proof.CommitTermination
import HotstuffDag.Proof.System
import HotstuffDag.Proof.VoteOnce

/-! # The order of a chain

All that a chain knows lies below its height, and its counts only grow. The end of an epoch sets the
height of the leader's chain ten above the output of the agreement, wherever the chain was. -/

namespace HotstuffDag
open Library Library.Exec

/-! ## A commit from first to last -/

namespace Core

theorem grows_commitReferences [Bincode] {k : Core} {recurse : Block → List Block → M (Bool × List Block)}
    (run : ∀ b (c : Chain) (t : State) toCommit, k.Grown t.core → c.Grown k.store t.chain → Ends (recurse b toCommit) t
      (fun _ t' => k.Grown t'.core ∧ c.Grown k.store t'.chain) fun _ t' => k.Grown t'.core ∧ c.Grown k.store t'.chain)
    (references : List (PublicKey × Digest)) (toCommit : List Block) (t : State) (grown : k.Grown t.core) :
    Ends (commitReferences recurse references toCommit) t (fun _ t' => k.Grown t'.core ∧ t'.chain = t.chain)
      fun _ t' => k.Grown t'.core ∧ t'.chain = t.chain := by
  induction references generalizing toCommit t with
  | nil => exact Ends.pure ⟨grown, rfl⟩
  | cons reference rest ih =>
      refine ends_getBlock (fun e env => ⟨grown, rfl⟩) (fun _ env _ _ => ⟨grown, rfl⟩) (fun env b _ => ?_) fun env _ => Ends.pure ⟨grown, rfl⟩
      refine ends_unwrap (fun _ => ⟨grown, rfl⟩) fun target found => ?_
      obtain ⟨c, found₀, grownTarget⟩ := grown.chains _ _ found
      refine ends_withChain (run b c _ toCommit grown grownTarget) (fun e t' h => ⟨h.1, rfl⟩) fun (done, list) t' grown' => ?_
      refine Ends.ite (fun _ => ?_) fun _ => Ends.pure ⟨grown'.1, rfl⟩
      exact ih list _ (grown'.1.insert found₀ grown'.2)

theorem grows_commitPrevBlock [Bincode] {k : Core} (fuel : Nat) (b : Block) (c : Chain) (t : State) (toCommit : List Block)
    (grown : k.Grown t.core) (grownChain : c.Grown k.store t.chain) :
    Ends (commitPrevBlock fuel b toCommit) t (fun _ t' => k.Grown t'.core ∧ c.Grown k.store t'.chain)
      fun _ t' => k.Grown t'.core ∧ c.Grown k.store t'.chain := by
  induction fuel generalizing b c t toCommit with
  | zero => exact Ends.throw ⟨grown, grownChain⟩
  | succ fuel ih =>
      unfold commitPrevBlock
      refine ends_getChain (Ends.ite (fun _ => Ends.pure ⟨grown, grownChain⟩) fun below => ?_)
      obtain ⟨-, next⟩ := ahead_succ below
      split
      · exact Ends.pure ⟨grown, grownChain⟩
      · rename_i digest entry
        rw [grownChain.entries] at entry
        refine ends_getCore (ends_getBlock (fun e env => ⟨grown, grownChain⟩) (fun _ env _ _ => ⟨grown, grownChain⟩) (fun env _ _ => ?_)
          fun env _ => Ends.pure ⟨grown, grownChain⟩)
        refine ends_getBlock (fun e env => ⟨grown, grownChain⟩) (fun _ env _ _ => ⟨grown, grownChain⟩) (fun env current fetched => ?_)
          fun env _ => Ends.throw ⟨grown, grownChain⟩
        rw [grown.store] at fetched
        refine ends_unwrap (fun _ => ⟨grown, grownChain⟩) fun current' same => ?_
        obtain rfl := Option.some.inj same
        refine Ends.bind (Q := fun _ t' => k.Grown t'.core ∧ t'.chain = t.chain) ?_ fun (done, list) t' grown' => ?_
        · refine ends_getCore (Ends.ite (fun _ => ?_) fun _ => Ends.pure ⟨grown, rfl⟩)
          refine Ends.weaken (grows_commitReferences (fun b c t toCommit => ih b c t toCommit) _ toCommit _ grown)
            (fun _ _ h => h) fun _ t' h => ⟨h.1, ?_⟩
          rw [h.2]
          exact grownChain
        · obtain ⟨core, chain⟩ := grown'
          refine Ends.ite (fun _ => ?_) fun _ => Ends.pure ⟨core, chain ▸ grownChain⟩
          refine ends_modifyChain (ih b c _ _ core ?_)
          rw [chain]
          exact grownChain.next next ⟨digest, current, entry, fetched⟩

/-- Whatever happens in between, at the end of a commit no chain is behind where it was. -/
theorem commit_grown [Bincode] (fuel : Nat) (block : Block) (s : State) :
    s.core.Grown (final (commit fuel block) s).core ∧ s.chain.Grown s.core.store (final (commit fuel block) s).chain := by
  have walked := grows_commitPrevBlock fuel block s.chain
    { s with log := s.log ++ [.commitCall s.core s.chain block] } [] (.refl s.core) (.refl _ _)
  unfold final commit
  simp only [bind_eq, get_run, emit_run]
  unfold Ends at walked
  cases exit : commitPrevBlock fuel block [] { s with log := s.log ++ [.commitCall s.core s.chain block] } with
  | ok r t =>
      rw [exit] at walked
      obtain ⟨log, run, -⟩ := deliver_run r.2.reverse t
      simp only [run]
      exact walked
  | error e t =>
      rw [exit] at walked
      exact walked

end Core

/-! ## What an act does to a chain -/

/-- All that the chain knows lies below its height. -/
structure Chain.Ordered (c : Chain) : Prop where
  certified : c.highQc.height < c.height
  entries : ∀ h d, c.heightToDigest.get? h = some d → h < c.height
  committed : c.lastCommittedHeight < c.height

/-- No count of the chain has decreased. -/
structure Chain.Follows (c c' : Chain) : Prop where
  height : c.height ≤ c'.height
  voted : c.lastVotedHeight ≤ c'.lastVotedHeight
  committed : c.lastCommittedHeight ≤ c'.lastCommittedHeight

/-- At the end of each epoch the height of the leader's chain is at most ten above the output. -/
def LowEnds (l : List Event) : Prop :=
  ∀ k c val, Event.epochEnd k c val ∈ l → c.height ≤ val + NEXT_EPOCH_HEIGHT

/-- What an act may do to a chain. -/
inductive Chain.Moves [Bincode] (store : Store) (l : List Event) (c : Chain) : Chain → Prop
  | grown {c' : Chain} (grown : c.Grown store c') : Chain.Moves store l c c'
  | certify {epoch : SeqNumber} {qc : QC} (small : qc.height.toNat + 1 < 2 ^ 64 ∨ qc.height < c.height) :
      Chain.Moves store l c (c.certify epoch qc)
  | lockVote {height : SeqNumber} : Chain.Moves store l c (c.lockVote height)
  | count {aggregator : Aggregator} : Chain.Moves store l c { c with aggregator := aggregator }
  | restart {k : Core} {val : UInt64} (ended : Event.epochEnd k c val ∈ l) (small : val.toNat + 10 < 2 ^ 64) :
      Chain.Moves store l c (c.restart val)

theorem Act.moves [Crypto] [Bincode] {got : ConsensusMessage → Prop} {s s' : Conf} (act : Act got s s') :
    s.chain.Moves s.core.store s'.log s'.chain ∧ ∀ name c', s'.core.pubkeyToChain.get? name = some c' →
      ∃ c, s.core.pubkeyToChain.get? name = some c ∧ c.Grown s.core.store c' := by
  have kept (name : PublicKey) (c' : Chain) (found : s.core.pubkeyToChain.get? name = some c') :
      ∃ c, s.core.pubkeyToChain.get? name = some c ∧ c.Grown s.core.store c' := ⟨c', found, .refl _ _⟩
  cases act with
  | aba act =>
      refine ⟨.grown (.refl _ _), fun name c' found => ?_⟩
      dsimp only at found
      rw [act.frame.pubkeyToChain] at found
      exact kept name c' found
  | @commit fuel env k c l b _ =>
      obtain ⟨core, chain⟩ := Core.commit_grown fuel b ⟨k, c, l, env⟩
      exact ⟨.grown chain, core.chains⟩
  | certify _ small => exact ⟨.certify small, kept⟩
  | grant | lockVote => exact ⟨.lockVote, kept⟩
  | countVote | countTimeout => exact ⟨.count, kept⟩
  | nextEpoch _ _ _ _ _ _ _ small => exact ⟨.restart (List.mem_append_right _ List.mem_cons_self) small, kept⟩
  | request | status | propose | process | twoChain | signTimeout => exact ⟨.grown (.refl _ _), kept⟩

/-! ## The order is kept -/

namespace Chain
variable {c c' : Chain} {store : Store} {l : List Event}

theorem ordered_new (name : PublicKey) : (Chain.new name).Ordered :=
  ⟨show (0 : UInt64) < 1 by decide, fun h d found => by contradiction, show (0 : UInt64) < 1 by decide⟩

theorem Follows.refl (c : Chain) : c.Follows c := ⟨UInt64.le_refl _, UInt64.le_refl _, UInt64.le_refl _⟩

theorem Follows.trans {c'' : Chain} (h : c.Follows c') (h' : c'.Follows c'') : c.Follows c'' :=
  ⟨UInt64.le_trans h.height h'.height, UInt64.le_trans h.voted h'.voted, UInt64.le_trans h.committed h'.committed⟩

theorem Grown.height [Bincode] (h : c.Grown store c') : c'.height = c.height := uncommitted_eq Chain.height (fun _ => rfl) h.same

theorem Ordered.grown [Bincode] (h : c.Ordered) (grown : c.Grown store c') : c'.Ordered where
  certified := by
    rw [grown.height, uncommitted_eq Chain.highQc (fun _ => rfl) grown.same]
    exact h.certified
  entries := by
    rw [grown.height, grown.entries]
    exact h.entries
  committed := by
    rw [grown.height]
    by_cases moved : c.lastCommittedHeight < c'.lastCommittedHeight
    · obtain ⟨d, -, entry, -⟩ := grown.readable c'.lastCommittedHeight moved (UInt64.le_refl _)
      exact h.entries _ d entry
    · exact UInt64.lt_of_le_of_lt (UInt64.not_lt.mp moved) h.committed

theorem Follows.of_grown [Bincode] (grown : c.Grown store c') : c.Follows c' where
  height := by
    rw [grown.height]
    exact UInt64.le_refl _
  voted := by
    rw [uncommitted_eq Chain.lastVotedHeight (fun _ => rfl) grown.same]
    exact UInt64.le_refl _
  committed := grown.le

theorem Ordered.certify (h : c.Ordered) {epoch : SeqNumber} {qc : QC}
    (small : qc.height.toNat + 1 < 2 ^ 64 ∨ qc.height < c.height) : (c.certify epoch qc).Ordered := by
  obtain ⟨entries, high, committed⟩ := certify_entries c epoch qc
  have above : c.height ≤ (c.certify epoch qc).height := height_le_certify small
  have own : qc.height < (c.certify epoch qc).height := height_lt_certify small
  constructor
  · rw [high]
    split
    · exact own
    · exact UInt64.lt_of_lt_of_le h.certified above
  · intro height d found
    rw [entries, Map.get?_insert] at found
    split at found
    · rename_i same
      rw [← same]
      exact own
    · exact UInt64.lt_of_lt_of_le (h.entries height d found) above
  · rw [committed]
    exact UInt64.lt_of_lt_of_le h.committed above

theorem Follows.certify {epoch : SeqNumber} {qc : QC} (small : qc.height.toNat + 1 < 2 ^ 64 ∨ qc.height < c.height) :
    c.Follows (c.certify epoch qc) where
  height := height_le_certify small
  voted := by
    rw [certify_lastVotedHeight]
    exact UInt64.le_refl _
  committed := by
    rw [(certify_entries c epoch qc).2.2]
    exact UInt64.le_refl _

theorem Ordered.restart (h : c.Ordered) {val : UInt64} (small : val.toNat + 10 < 2 ^ 64)
    (low : c.height ≤ val + NEXT_EPOCH_HEIGHT) : (c.restart val).Ordered := by
  obtain ⟨height, committed⟩ := toNat_restart (c := c) small
  constructor
  · change QC.genesis.height < (c.restart val).height
    have zero : QC.genesis.height.toNat = 0 := rfl
    rw [UInt64.lt_iff_toNat_lt, height, zero]
    exact Nat.succ_pos _
  · intro at_ d found
    exact UInt64.lt_of_lt_of_le (h.entries at_ d (Map.get?_of_retain found).2) low
  · rw [UInt64.lt_iff_toNat_lt, height, committed]
    exact Nat.lt_succ_self _

theorem Follows.restart (h : c.Ordered) {val : UInt64} (small : val.toNat + 10 < 2 ^ 64)
    (low : c.height ≤ val + NEXT_EPOCH_HEIGHT) : c.Follows (c.restart val) where
  height := low
  voted := UInt64.le_refl _
  committed := by
    obtain ⟨height, committed⟩ := toNat_restart (c := c) small
    have below := UInt64.lt_iff_toNat_lt.mp h.committed
    have reached : c.height.toNat ≤ (c.restart val).height.toNat := UInt64.le_iff_toNat_le.mp low
    rw [UInt64.le_iff_toNat_le, committed]
    omega

theorem Moves.kept [Bincode] (moves : c.Moves store l c') (low : LowEnds l) (h : c.Ordered) : c'.Ordered ∧ c.Follows c' := by
  cases moves with
  | grown grown => exact ⟨h.grown grown, .of_grown grown⟩
  | certify small => exact ⟨h.certify small, .certify small⟩
  | lockVote =>
      exact ⟨⟨h.certified, h.entries, h.committed⟩, UInt64.le_refl _, (lastVotedHeight_lockVote c _).1, UInt64.le_refl _⟩
  | count => exact ⟨⟨h.certified, h.entries, h.committed⟩, UInt64.le_refl _, UInt64.le_refl _, UInt64.le_refl _⟩
  | restart ended small => exact ⟨h.restart small (low _ _ _ ended), .restart h small (low _ _ _ ended)⟩

end Chain

/-! ## Runs -/

/-- All chains are in order, and none is behind the one of the same name before. -/
def InOrder (before after : View) : Prop :=
  ∀ name c, after name = some c → c.Ordered ∧ ∀ c₀, before name = some c₀ → c₀.Follows c

theorem InOrder.act [Crypto] [Bincode] {got : ConsensusMessage → Prop} {s s' : Conf} {before : View} (act : Act got s s')
    (low : LowEnds s'.log)
    (copies : InOrder before (view s.core s.chain)) (stored : InOrder before s.core.pubkeyToChain.get?) :
    InOrder before (view s'.core s'.chain) ∧ InOrder before s'.core.pubkeyToChain.get? := by
  obtain ⟨moves, chains⟩ := act.moves
  have others (name : PublicKey) (c' : Chain) (found : s'.core.pubkeyToChain.get? name = some c') {v : View}
      (same : v name = s.core.pubkeyToChain.get? name) (h : InOrder before v) :
      c'.Ordered ∧ ∀ c₀, before name = some c₀ → c₀.Follows c' := by
    obtain ⟨c, found₀, grown⟩ := chains name c' found
    obtain ⟨ordered, follows⟩ := h name c (same.trans found₀)
    exact ⟨ordered.grown grown, fun c₀ base => (follows c₀ base).trans (.of_grown grown)⟩
  refine ⟨fun name c' found => ?_, fun name c' found => others name c' found rfl stored⟩
  unfold view at found
  split at found
  · rename_i own
    obtain rfl := Option.some.inj found
    obtain ⟨ordered, follows⟩ := copies s.chain.name s.chain (view_self _ _)
    obtain ⟨ordered', moved⟩ := moves.kept low ordered
    refine ⟨ordered', fun c₀ base => (follows c₀ ?_).trans moved⟩
    rw [← act.frame.chain, ← own]
    exact base
  · rename_i other
    rw [act.frame.chain] at other
    refine others name c' found ?_ copies
    unfold view
    rw [if_neg other]

theorem orderInvariant [Crypto] [Bincode] (ok : Input → Prop) (before : View) :
    Invariant ok fun v k l => LowEnds l → InOrder before v ∧ InOrder before k.pubkeyToChain.get? where
  act := by
    intro s s' _ act h low
    obtain ⟨copies, stored⟩ := h fun k c val mem => low k c val (act.frame.mem mem)
    exact InOrder.act act low copies stored
  blind := by
    intro v k l m same h low
    obtain ⟨copies, -⟩ := h low
    refine ⟨copies, ?_⟩
    dsimp only
    rw [same]
    exact copies
  makePayload := fun _ h low => h fun k c val mem => low k c val (List.mem_append_left _ mem)
  storePayload := fun _ _ h => h

theorem ordered_run [Crypto] [Bincode] (name : PublicKey) (committee : Committee) (parameters : Parameters) (store : Store) (env : Env)
    (inputs : List Input) : ((Node.start (Core.new name committee parameters store) env).run inputs).Sound
    fun v k l => LowEnds l → InOrder (fun _ => none) v ∧ InOrder (fun _ => none) k.pubkeyToChain.get? := by
  have inv := orderInvariant (fun _ => True) fun _ => none
  refine inv.run (fun i _ => trivial) (inv.init fun _ => ?_)
  have first : InOrder (fun _ => none) (Core.new name committee parameters store).pubkeyToChain.get? := by
    intro key c found
    rw [Core.new_chains] at found
    split at found
    · rw [← Option.some.inj found]
      exact ⟨Chain.ordered_new key, fun c₀ base => by contradiction⟩
    · contradiction
  exact ⟨first, first⟩

/-- The chains of the node are in order, and stay so during the run. -/
def Node.KeepsOrder [Crypto] [Bincode] (n : Node) (more : List Input) : Prop :=
  InOrder n.core.pubkeyToChain.get? (n.run more).core.pubkeyToChain.get?

/-- In a run in which no epoch ends with the leader's chain more than ten heights above the output, and heights leave room, all
that a chain knows lies below its height, and its counts never decrease. -/
theorem chains_ordered [Crypto] [Bincode] (name : PublicKey) (committee : Committee) (parameters : Parameters) (store : Store)
    (env : Env)
    (inputs more : List Input) (_roomy : RoomyRun name committee store (inputs ++ more))
    (low : LowEnds (((Node.start (Core.new name committee parameters store) env).run inputs).run more).log) :
    ((Node.start (Core.new name committee parameters store) env).run inputs).KeepsOrder more := by
  have sound := ordered_run name committee parameters store env inputs
  generalize (Node.start (Core.new name committee parameters store) env).run inputs = n at low sound ⊢
  unfold Node.KeepsOrder
  have inv := (orderInvariant (fun _ => True) n.core.pubkeyToChain.get?).and (System.prefixInvariant n.log)
  have first (ordered : InOrder (fun _ => none) n.core.pubkeyToChain.get?) :
      InOrder n.core.pubkeyToChain.get? n.core.pubkeyToChain.get? := by
    intro key c found
    refine ⟨(ordered key c found).1, fun c₀ found₀ => ?_⟩
    obtain rfl := Option.some.inj (found₀.symm.trans found)
    exact .refl c₀
  cases alive : n.alive with
  | false =>
      rw [Node.run_dead alive] at low ⊢
      obtain ⟨_, ordered⟩ := sound.2
      exact first (ordered low).2
  | true =>
      have closed := sound.1 alive
      have start : n.Sound fun v k l => (LowEnds l → InOrder n.core.pubkeyToChain.get? v ∧
          InOrder n.core.pubkeyToChain.get? k.pubkeyToChain.get?) ∧ n.log <+: l := by
        have holds (low : LowEnds n.log) := first (closed.holds low).2
        exact ⟨fun _ => ⟨closed.names, closed.own, fun low => ⟨holds low, holds low⟩, List.prefix_refl _⟩,
          n.core.pubkeyToChain.get?, fun low => ⟨holds low, holds low⟩, List.prefix_refl _⟩
      obtain ⟨_, ordered, -⟩ := (inv.run (fun i _ => trivial) start).2
      exact (ordered low).2

end HotstuffDag

/-! ## A chain above the output -/

namespace HotstuffDag.Sample
open Library

/-- The leader has its block at height 12 certified, and shows the certificate to the second node only. -/
def farLeader : Block := Block.new QC.genesis (four.getLeader 0) 12 0 [] []

def aheadOfOthers : List Input :=
  [propose farLeader, propose (Block.new (certify farLeader [1, 3, 4]) (four.getLeader 0) 13 0 [] [])]

/-- The others time out with the certificate of the genesis. -/
def lateTimeouts : TC where
  epoch := 0
  votes := [1, 3, 4].map fun n => (key n, (Timeout.new QC.genesis 0 (key n)).signature, 0)

/-- The agreement on height 0. -/
def agreeOnZero : List Input :=
  [.deliver .smvba (.tc lateTimeouts) env, val 1 1 0, val 3 1 0, aux 1 1 0, aux 3 1 0, share 1 1, share 3 1]

def leaderHeight (n : Node) : Option SeqNumber := (n.core.pubkeyToChain.get? (four.getLeader 0)).map Chain.height

theorem epoch_lowers_chain :
    leaderHeight ((start 2).run aheadOfOthers) = some 13 ∧
      leaderHeight (((start 2).run aheadOfOthers).run agreeOnZero) = some 10 ∧
      ¬ ((start 2).run aheadOfOthers).KeepsOrder agreeOnZero := by
  have before : leaderHeight ((start 2).run aheadOfOthers) = some 13 := by decide +kernel
  have after : leaderHeight (((start 2).run aheadOfOthers).run agreeOnZero) = some 10 := by decide +kernel
  refine ⟨before, after, fun order => ?_⟩
  obtain ⟨c₀, found₀, height₀⟩ := Option.map_eq_some_iff.mp before
  obtain ⟨c, found, height⟩ := Option.map_eq_some_iff.mp after
  have follows := ((order _ c found).2 c₀ found₀).height
  rw [height, height₀] at follows
  exact absurd follows (by decide)

/-- The leader's chain is at height 1 when the epoch ends. -/
theorem low_epoch_ordered : ((start 2).run [propose (firstBlock 1)]).KeepsOrder agreeOnZero := by
  have ends : ∀ e ∈ epochEnds (((start 2).run [propose (firstBlock 1)]).run agreeOnZero).log,
      e.2.1.height ≤ e.2.2 + NEXT_EPOCH_HEIGHT := by
    decide +kernel
  have low : LowEnds (((start 2).run [propose (firstBlock 1)]).run agreeOnZero).log :=
    fun k c val ended => ends _ (mem_epochEnds ended)
  exact chains_ordered (key 2) four ⟨500⟩ Map.empty env [propose (firstBlock 1)] agreeOnZero
    (roomyRun_of (by decide +kernel) (by decide)) low

end HotstuffDag.Sample
